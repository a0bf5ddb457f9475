import Mdfs.MaRTA.Amid
import Mdfs.MaRTA.FinalNode

/-!
# The partial reduces and the final one

`combinerPartialsReducePlanning` partitions the maps of a job by their nodes, and orders one reduce
for each; `combinerFinalReducePlanning` gives the final reduce one temp for each of them. Both
lists are emptied before a round is planned again.

* `amid_combinerPartialsReducePlanning`: the first function, whatever the other jobs do.
* `exec_combinerFinalReducePlanning`: the second one, which needs a node to choose.
* `partial_reduces`: both, and what is ordered in every run.
-/

namespace Mdfs.MaRTA

open Lib

/-- **What `combinerPartialsReducePlanning` has done**: the partial reduces are a partition of the
maps, with the ids from `1` on, and each was ordered once. -/
structure PartialsPlanned (t : ℕ) (w : World) (job job' : Job) (w' : World) : Prop where
  rest : job' = { job with partialReduces := job'.partialReduces }
  partition : Partition job.maps job'.partialReduces
  ids : job'.partialReduces.map (fun r => r.id.toNat) = List.range' 1 job'.partialReduces.length
  ordered : (w'.talk t).history = (w.talk t).history ++ job'.partialReduces.map fun r => .order (.reduce r)

variable {t : ℕ} {w w' : World} {job job' : Job}

/-- **The partial reduces are planned**, or the job dies. -/
theorem amid_combinerPartialsReducePlanning (hnone : job.partialReduces = [])
    (hfew : (job.maps.map Map.nodeName).toFinset.card < 65535) :
    (combinerPartialsReducePlanning job).Ok (amidSpec t job.maps) (fun job' w' => PartialsPlanned t w job job' w')
      (fun e _ => e = .died) w := by
  unfold combinerPartialsReducePlanning
  rw [Prog.ok_bind, hnone]
  -- the time is asked for, and nothing is written down of it
  have htime : ∀ w₁ : World, (w₁.talk t).history = (w.talk t).history → (amidSpec t job.maps).pre w₁ .getTime ∧
      ∀ time w₂, (amidSpec t job.maps).post w₁ .getTime time w₂ → (w₂.talk t).history = (w.talk t).history := by
    intro w₁ hw₁
    refine ⟨fun _ _ => rfl, ?_⟩
    rintro time w₂ ⟨x, -, hs⟩
    obtain ⟨-, rfl⟩ := Prod.mk.inj (Option.some.inj hs)
    exact hw₁
  refine (ok_partition (I := fun w' : World => (w'.talk t).history = (w.talk t).history)
    htime job.id job.maps rfl).imp ?_
  rintro reduces w₁ ⟨hpartition, hw₁⟩
  rw [Prog.ok_bind]
  refine (Prog.ok_iterate (K := fun done w' => (w'.talk t).history = (w.talk t).history ++
    done.map fun r => .order (.reduce r))
    reduces ?_ ?_).imp ?_
  · intro done reduce rest w₂ hsplit hw₂
    have hmem : reduce ∈ reduces := hsplit ▸ List.mem_append_right done List.mem_cons_self
    obtain ⟨m, hm, hnode⟩ := hpartition.groups.used reduce hmem
    refine (amid_notificarReduce (I := fun _ => True) false { job with partialReduces := reduces }
      (fun _ _ _ _ hreg => ⟨hreg, fun _ _ => trivial⟩) trivial (fun _ _ _ _ hreg => ?_) hw₂).imp fun _ w₃ hw₃ => ?_
    · rw [← hnode]
      exact hreg m hm
    · rw [hw₃, List.map_append, List.append_assoc]
      rfl
  · rw [hw₁, List.map_nil, List.append_nil]
  · intro _ w₂ hw₂
    exact ⟨rfl, hpartition, hpartition.ids_eq hfew, hw₂⟩

/-- The nodes of the reduces are registered. -/
def ReducesFound (nodes : List Node) (reduces : List Reduce) : Prop :=
  ∀ reduce ∈ reduces, (findNode nodes reduce.finalNode).isSome = true

instance (nodes : List Node) (reduces : List Reduce) : Decidable (ReducesFound nodes reduces) :=
  inferInstanceAs (Decidable (∀ reduce ∈ reduces, _))

/-- **What `combinerFinalReducePlanning` has done**: the final reduce has one temp for each partial one, and
it was ordered once. -/
structure FinalPlanned (t : ℕ) (w : World) (job job' : Job) (w' : World) : Prop where
  rest : job' = { job with finalReduce := job'.finalReduce }
  temps : job'.finalReduce.temps = job.partialReduces.map reduceToTemporal
  ordered : (w'.talk t).history = (w.talk t).history ++ [.order (.reduce job'.finalReduce)]

/-- **No node is selected** where none is active, and the `NULL` is followed. -/
theorem exec_noneActive {nodes : List Node} (hfound : ReducesFound nodes job.partialReduces)
    (hall : ∀ reduce ∈ job.partialReduces, ¬OnActive nodes reduce.finalNode) (c : Choice)
    (is : List (List Node × Choice)) : (combinerFinalReducePlanning job).exec (amid t) w ((nodes, c) :: is) = none := by
  obtain ⟨selected, hselected, hnone, -⟩ := selectFinalNode_selects hfound
  obtain rfl := hnone.2 hall
  have hstuck : amid t w (.selectFinalNode job.partialReduces) (nodes, c) = none := by
    simp only [amid, serve, hselected, Option.join_some, Option.bind_none]
  exact Option.bind_eq_none_iff.2 fun x hx => by cases hstuck.symm.trans hx

/-- **The final reduce is planned** just when it has a node to go to. -/
theorem exec_combinerFinalReducePlanning {f : ℕ → List Node × Choice} (htemps : job.finalReduce.temps = [])
    (hmaps : ∀ i, MapsFound (f i).1 job.maps) (hreduces : ∀ i, ReducesFound (f i).1 job.partialReduces) :
    (∃ n o w', (combinerFinalReducePlanning job).exec (amid t) w ((List.range n).map f) = some (o, w') ∧
      match o with
      | .ok job' => FinalPlanned t w job job' w'
      | .error e => e = .died) ↔ ∃ reduce ∈ job.partialReduces, OnActive (f 0).1 reduce.finalNode := by
  constructor
  · rintro ⟨n, o, w', hexec, -⟩
    by_contra hall
    -- the first request selects the node
    cases n with
    | zero => cases hexec
    | succ n =>
      have hinactive : ∀ reduce ∈ job.partialReduces, ¬OnActive (f 0).1 reduce.finalNode :=
        fun reduce hreduce hactive => hall ⟨reduce, hreduce, hactive⟩
      rw [Prog.map_range_succ, exec_noneActive (hreduces 0) hinactive] at hexec
      cases hexec
  · rintro ⟨reduce, hreduce, hactive⟩
    obtain ⟨selected, hselected, hnone, hleast⟩ := selectFinalNode_selects (hreduces 0)
    rcases selected with _ | ⟨k, ⟨⟩⟩
    · exact absurd hactive (hnone.1 rfl reduce hreduce)
    obtain ⟨x, hx, hfind, -⟩ := ((hleast k).1 rfl).placed
    obtain ⟨chosen, hchosen, rfl⟩ := List.mem_map.1 hx
    obtain ⟨node, hnode, hname⟩ := findNode_spec hfind
    set w₁ : World := World.say ⟨(f 0).1, w.talk⟩ t fun l => l.read k node.info with hw₁
    have hserved : amid t w (.selectFinalNode job.partialReduces) (f 0) = some (node.info, w₁) := by
      simp only [amid, serve, hselected, Option.join_some, Option.bind_some, hnode, Option.map_some, hw₁]
    have hhistory : (w₁.talk t).history = (w.talk t).history := by
      rw [hw₁, World.say_talk]
      rfl
    -- the node is found by its own name as it was by that of the reduce
    have hordered : (planFinalReduce job node.info (job.partialReduces.map reduceToTemporal)).Ok
        (Spec.total (amid t) fun _ _ y => MapsFound y.1 job.maps ∧ ReducesFound y.1 job.partialReduces)
        (FinalOrdered t w₁ job node.name (job.partialReduces.map reduceToTemporal)) (fun e _ => e = .died) w₁ := by
      refine amid_planFinalReduce (I := fun _ => True) (fun _ _ _ _ hreg => ⟨hreg.1, fun _ _ => trivial⟩) trivial ?_
      intro _ _ y _ hreg
      rw [show node.info.name = node.name from rfl, findNode_congr hname]
      exact hreg.2 chosen hchosen
    obtain ⟨n, o, w', hexec, hend⟩ := hordered.exec_total (f := fun i => f (i + 1)) fun n => by
      refine Prog.along_of_mem fun y hy _ _ => ?_
      obtain ⟨i, -, rfl⟩ := List.mem_map.1 hy
      exact ⟨hmaps (i + 1), hreduces (i + 1)⟩
    refine ⟨n + 1, o, w', ?_, ?_⟩
    · rw [Prog.map_range_succ]
      exact Option.bind_eq_some_iff.2 ⟨(node.info, w₁), hserved, hexec⟩
    · cases o with
      | error e => exact hend
      | ok job' =>
        refine ⟨hend.rest, ?_, ?_⟩
        · rw [hend.temps, htemps, List.nil_append]
        · rw [hend.ordered, hhistory]

/-- **Partial reduces partition the maps.** For every job whose list of partial reduces is empty and
whose maps are on fewer than 65535 nodes, and whatever the other jobs do as long as these nodes
stay registered: `combinerPartialsReducePlanning` comes to its end with the partial reduces
planned, or the job dies on a broken socket. `combinerFinalReducePlanning` comes to its end with
one temp for each partial reduce, or the job dies, just when a partial reduce is on an active node
where the final one is planned. In every run of any jobs, a partial reduce is ordered as one of
those that the maps are partitioned into, and the final one of a job with a combiner with one temp
for each of them. -/
theorem partial_reduces (t : ℕ) (w : World) (job : Job) (f : ℕ → List Node × Choice)
    (hmaps : ∀ i, MapsFound (f i).1 job.maps) :
    (job.partialReduces = [] → (job.maps.map Map.nodeName).toFinset.card < 65535 →
      ∃ n o w', (combinerPartialsReducePlanning job).exec (amid t) w ((List.range n).map f) = some (o, w') ∧
        match o with
        | .ok job' => PartialsPlanned t w job job' w'
        | .error e => e = .died) ∧
    (job.finalReduce.temps = [] → (∀ i, ReducesFound (f i).1 job.partialReduces) →
      ((∃ n o w', (combinerFinalReducePlanning job).exec (amid t) w ((List.range n).map f) = some (o, w') ∧
        match o with
        | .ok job' => FinalPlanned t w job job' w'
        | .error e => e = .died) ↔ ∃ reduce ∈ job.partialReduces, OnActive (f 0).1 reduce.finalNode)) ∧
    ∀ (rounds : ℕ) (jobs : List Submission) (es : List (ℕ × Choice)) (P : Pool Resp Exit Unit World),
      run (Pool.step serve) (marta rounds jobs) es = some P →
        ∀ t final job reduce, P.At t (.sendReduce final job reduce) →
      Orders final job reduce := by
  refine ⟨?_, fun htemps hreduces => exec_combinerFinalReducePlanning htemps hmaps hreduces, ?_⟩
  · intro hnone hfew
    have halong : ∀ n, (combinerPartialsReducePlanning job).Along (amid t) (fun _ _ x => MapsFound x.1 job.maps) w
        ((List.range n).map f) := by
      intro n
      refine Prog.along_of_mem fun x hx _ _ => ?_
      obtain ⟨i, -, rfl⟩ := List.mem_map.1 hx
      exact hmaps i
    obtain ⟨n, o, w', hexec, hend⟩ := (amid_combinerPartialsReducePlanning hnone hfew).exec_total halong
    refine ⟨n, o, w', hexec, ?_⟩
    cases o with
    | ok job' => exact hend
    | error e => exact hend
  · intro rounds jobs es P hrun t final job reduce ht
    obtain ⟨g, -, -, -, horders⟩ :=
      (Pool.ok_run rounds_rule (marta_rounds rounds jobs tied_start) Pool.along_meets_true hrun).pre ht
    exact horders

/-- The order of a partial reduce. -/
def Req.ordersPartial : Req → Bool
  | .sendReduce false _ _ => true
  | _ => false

theorem Req.ordersPartial_eq {r : Req} (h : r.ordersPartial = true) :
    ∃ job reduce, r = .sendReduce false job reduce := by
  unfold Req.ordersPartial at h
  split at h
  · exact ⟨_, _, rfl⟩
  · cases h

/-- The nodes `A` and `B`. -/
def nodesAB : List Node :=
  [⟨cstr "A", cstr "10.0.0.1", 6001, true, [], 0⟩, ⟨cstr "B", cstr "10.0.0.2", 6002, true, [], 0⟩]

/-- A job with two maps on `A` and one on `B`. -/
def threeMaps : Job :=
  { combined.job with maps := [
      createMap 0 3 6001 (cstr "A") (cstr "10.0.0.1") 1 Choice.done.clock [],
      createMap 1 4 6002 (cstr "B") (cstr "10.0.0.2") 1 Choice.done.clock [],
      createMap 2 5 6001 (cstr "A") (cstr "10.0.0.1") 1 Choice.done.clock []] }

/-- The same job with its reduces on both nodes. -/
def twoReduces : Job :=
  { threeMaps with partialReduces := [
      createReduce 1 (cstr "A") (cstr "10.0.0.1") 6001 1 Choice.done.clock,
      createReduce 2 (cstr "B") (cstr "10.0.0.2") 6002 1 Choice.done.clock] }

example : ((combinerPartialsReducePlanning threeMaps).exec (amid 0)
  ⟨[], fun _ => .start⟩ (List.replicate 6 (nodesAB, .done))).map
    (fun x => x.1.toOption.map fun job => job.partialReduces.map fun r => (r.finalNode, r.temps.length)) =
      some (some [(cstr "A", 2), (cstr "B", 1)]) := by
  decide +kernel

theorem partial_reduces_two :
    (∃ n o w', (combinerPartialsReducePlanning threeMaps).exec (amid 0) ⟨[], fun _ => .start⟩
        ((List.range n).map fun _ => (nodesAB, .done)) = some (o, w') ∧ match o with
      | .ok job' => PartialsPlanned 0 ⟨[], fun _ => .start⟩ threeMaps job' w'
      | .error e => e = .died) ∧
    (∃ n o w', (combinerFinalReducePlanning twoReduces).exec (amid 0) ⟨[], fun _ => .start⟩
        ((List.range n).map fun _ => (nodesAB, .done)) = some (o, w') ∧ match o with
      | .ok job' => FinalPlanned 0 ⟨[], fun _ => .start⟩ twoReduces job' w'
      | .error e => e = .died) ∧
    ∃ P job reduce, run (Pool.step serve) (marta 1 [combined])
        ((planOne ++ partialDone.take 5).map (Prod.mk 0)) = some P ∧
      P.At 0 (.sendReduce false job reduce) ∧ Orders false job reduce := by
  obtain ⟨hpartials, -, hrun⟩ := partial_reduces 0 ⟨[], fun _ => .start⟩ threeMaps (fun _ => (nodesAB, .done))
    fun _ => by decide +kernel
  obtain ⟨-, hfinal, -⟩ := partial_reduces 0 ⟨[], fun _ => .start⟩ twoReduces (fun _ => (nodesAB, .done))
    fun _ => by decide +kernel
  refine ⟨?_, ?_, ?_⟩
  · exact hpartials rfl (by decide +kernel)
  · exact (hfinal rfl fun _ => by decide +kernel).2 (by decide +kernel)
  · obtain ⟨P, hP, r, hr, hpartial⟩ :
        ∃ P ∈ run (Pool.step serve) (marta 1 [combined])
          ((planOne ++ partialDone.take 5).map (Prod.mk 0)), ∃ r ∈ P.asked 0,
          r.ordersPartial = true := by
      decide +kernel
    obtain ⟨job, reduce, rfl⟩ := Req.ordersPartial_eq hpartial
    have ht : P.At 0 (.sendReduce false job reduce) := Pool.at_of_asked hr
    exact ⟨P, job, reduce, hP, ht, hrun 1 _ _ P hP 0 false job reduce ht⟩

/-- Both nodes have failed. -/
def fallenAB : List Node :=
  [⟨cstr "A", cstr "10.0.0.1", 6001, false, [], 0⟩, ⟨cstr "B", cstr "10.0.0.2", 6002, false, [], 0⟩]

/-- **The final reduce gets no temps.** The partial reduces of the three maps are planned, then their nodes
fail, and the final reduce is never planned; nor is that of a job without maps. -/
theorem final_without_temps :
    (∃ job' w', (combinerPartialsReducePlanning threeMaps).exec (amid 0) ⟨[], fun _ => .start⟩
        (List.replicate 6 (nodesAB, .done)) = some (.ok job', w') ∧ job'.partialReduces.length = 2 ∧
      ∀ c is, (combinerFinalReducePlanning job').exec (amid 0) w' ((fallenAB, c) :: is) = none) ∧
    ∀ nodes c is, (combinerFinalReducePlanning combined.job).exec (amid 0) ⟨[], fun _ => .start⟩ ((nodes, c) :: is) =
      none := by
  constructor
  · obtain ⟨x, hx, job', hjob', hlen, hfound, hall⟩ :
        ∃ x ∈ (combinerPartialsReducePlanning threeMaps).exec (amid 0) ⟨[], fun _ => .start⟩
          (List.replicate 6 (nodesAB, .done)), ∃ job' ∈ x.1.toOption, job'.partialReduces.length = 2 ∧
            ReducesFound fallenAB job'.partialReduces ∧
            ∀ reduce ∈ job'.partialReduces, ¬OnActive fallenAB reduce.finalNode := by
      decide +kernel
    obtain ⟨o, w'⟩ := x
    cases o with
    | error e => cases hjob'
    | ok job =>
      obtain rfl : job = job' := Option.some.inj hjob'
      exact ⟨job, w', hx, hlen, fun c is => exec_noneActive hfound hall c is⟩
  · intro nodes c is
    have hnone : ∀ reduce, reduce ∉ combined.job.partialReduces := fun reduce => List.not_mem_nil
    exact exec_noneActive (fun reduce hreduce => absurd hreduce (hnone reduce))
      (fun reduce hreduce => absurd hreduce (hnone reduce)) c is

end Mdfs.MaRTA
