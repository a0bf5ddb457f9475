import Mdfs.MaRTA.Rounds
import Mdfs.MaRTA.Selection

/-!
# The node of the final reduce

`combinerFinalReducePlanning` selects the first of the least busy active nodes among those of
the partial reduces, and follows the pointer to it. Between the partial reduces and this point
another job may have taken such a node for a failed one. `noCombinerReducePlanning` reports the
file unavailable when it selects no node; here the process ends.

* `Tied.found`: a node that a job has read is registered.
* `step_selectFinalNode`: the step is made just when a node can be selected.
* `final_node_planned`: this in every run.
* `final_node_fallen`: no node is left, and MaRTA ends with all its jobs.
-/

namespace Mdfs.MaRTA

open Lib

variable {w : World} {g : ℕ → Talk} {t : ℕ} {P P' : Pool Resp Exit Unit World} {reduces : List Reduce} {c : Choice}

/-- **A node that was read is registered.** -/
theorem Tied.found (h : Tied w g) {name : CStr} (hknown : (g t).Knows name) :
    (findNode w.nodes name).isSome = true := by
  obtain ⟨x, hx, hname⟩ := hknown
  obtain ⟨node, hnode, hname'⟩ := h.shown t x hx
  have hplace := h.distinct.findNode hnode
  rw [hname', hname] at hplace
  rw [hplace]
  rfl

/-- Every step keeps the nodes and the records tied, whatever is decided. -/
theorem rounds_rule : Pool.Rule (fun _ => roundSpec) Tied serve fun _ _ _ _ => True := by
  rintro t w g r c x u htied - - hs
  obtain ⟨hturn, -, htied'⟩ := serve_turn htied hs
  exact ⟨u.talk t, hturn, htied'⟩

/-- **The final reduce goes to an active node**: the least busy one of those of the partial reduces
is read. -/
def GoesToLeastBusy (P : Pool Resp Exit Unit World) (t : ℕ) (reduces : List Reduce)
    (P' : Pool Resp Exit Unit World) : Prop :=
  ∃ n node, LeastBusy P.state.nodes (reduces.map Reduce.offer) n () ∧ P.state.nodes[n]? = some node ∧
    P'.state.talk t = (P.state.talk t).read n node.info

/-- A step that selects a node selects the least busy one. -/
theorem goesToLeastBusy (hreg : ∀ reduce ∈ reduces, (findNode P.state.nodes reduce.finalNode).isSome = true)
    (ht : P.At t (.selectFinalNode reduces)) (hs : Pool.step serve P (t, c) = some P') :
      GoesToLeastBusy P t reduces P' := by
  obtain ⟨selected, hsel, -, hleast⟩ := selectFinalNode_selects hreg
  obtain ⟨k, hk⟩ := ht
  obtain ⟨r, k', x, u, hk', hserve, rfl⟩ := Pool.step_eq_some.1 hs
  obtain ⟨rfl, -⟩ := Prog.ask.inj (Option.some.inj (hk.symm.trans hk'))
  simp only [serve, hsel, Option.join_some, Option.bind_eq_some_iff, Option.map_eq_some_iff, Prod.mk.injEq] at hserve
  obtain ⟨y, rfl, node, hnode, -, rfl⟩ := hserve
  exact ⟨y.1, node, (hleast y.1).1 rfl, hnode, Function.update_self ..⟩

/-- **The step is made** just when the node of some partial reduce is active. -/
theorem step_selectFinalNode (hreg : ∀ reduce ∈ reduces, (findNode P.state.nodes reduce.finalNode).isSome = true)
    (ht : P.At t (.selectFinalNode reduces)) (c : Choice) :
    (∃ P', Pool.step serve P (t, c) = some P') ↔ ∃ reduce ∈ reduces, OnActive P.state.nodes reduce.finalNode := by
  constructor
  · rintro ⟨P', hs⟩
    obtain ⟨n, -, hleast, -, -⟩ := goesToLeastBusy hreg ht hs
    obtain ⟨x, hx, hactive⟩ := hleast.onActive
    obtain ⟨reduce, hreduce, rfl⟩ := List.mem_map.1 hx
    exact ⟨reduce, hreduce, hactive⟩
  · rintro ⟨reduce, hreduce, hactive⟩
    obtain ⟨selected, hsel, hnone, hleast⟩ := selectFinalNode_selects hreg
    obtain ⟨k, hk⟩ := ht
    rcases selected with _ | ⟨n, ⟨⟩⟩
    · exact absurd hactive (hnone.1 rfl reduce hreduce)
    · obtain ⟨before, name, after, -, hfind, -, -, -⟩ := (hleast n).1 rfl
      obtain ⟨node, hnode, -⟩ := findNode_spec hfind
      refine ⟨_, Pool.step_eq_some.2 ⟨_, k, node.info, P.state.say t fun l => l.read n node.info, hk, ?_, rfl⟩⟩
      simp only [serve, hsel, Option.join_some, Option.bind_some, hnode, Option.map_some]

/-- **The node of the final reduce.** In every run of any jobs, where a job with a combiner plans
its final reduce: the reduce goes to the first of the least busy active nodes of the partial
reduces, or the file is reported unavailable, just when one of these nodes is active. A final
reduce is ordered on the node that was read last. -/
theorem final_node_planned (rounds : ℕ) (jobs : List Submission) (es : List (ℕ × Choice))
    (P : Pool Resp Exit Unit World)
    (hrun : run (Pool.step serve) (marta rounds jobs) es = some P) (t : ℕ) :
    (∀ reduces, P.At t (.selectFinalNode reduces) → ∀ c,
      (∃ P', Pool.step serve P (t, c) = some P' ∧
        (GoesToLeastBusy P t reduces P' ∨ P'.At t (.sendDie COMMAND_RESULT_FILEUNAVAILABLE))) ↔
      ∃ reduce ∈ reduces, OnActive P.state.nodes reduce.finalNode) ∧
    ∀ job reduce, P.At t (.sendReduce true job reduce) → OnLastRead (P.state.talk t) reduce := by
  have hP := Pool.ok_run rounds_rule (marta_rounds rounds jobs tied_start) Pool.along_meets_true hrun
  constructor
  · intro reduces ht c
    obtain ⟨g, htied, hknown⟩ := hP.pre ht
    have hreg : ∀ reduce ∈ reduces, (findNode P.state.nodes reduce.finalNode).isSome = true :=
      fun reduce hreduce => htied.found (hknown reduce hreduce)
    rw [← step_selectFinalNode hreg ht c]
    constructor
    · rintro ⟨P', hs, -⟩
      exact ⟨P', hs⟩
    · rintro ⟨P', hs⟩
      exact ⟨P', hs, Or.inl (goesToLeastBusy hreg ht hs)⟩
  · intro job reduce ht
    obtain ⟨g, htied, -, hread, -⟩ := hP.pre ht
    rw [htied.talk]
    exact hread rfl

/-- The partial reduces among whose nodes the final one is selected. -/
def Req.reducesJoined : Req → Option (List Reduce)
  | .selectFinalNode reduces => some reduces
  | _ => none

theorem Req.reducesJoined_eq {r : Req} {reduces : List Reduce} (h : r.reducesJoined = some reduces) :
    r = .selectFinalNode reduces := by
  unfold Req.reducesJoined at h
  split at h
  · cases h
    rfl
  · cases h

/-- What is decided from the result of the map of a job with a combiner to the end of its partial
reduce. -/
def partialDone : List Choice :=
  [.answer 0 none, .done, .done] ++ [.done, .done, .done] ++ [.answer 0 none, .done]

theorem final_node_planned_one :
    ∃ P P' reduces, run (Pool.step serve) (marta 1 [combined]) ((planOne ++ partialDone).map (Prod.mk 0)) = some P ∧
    P.At 0 (.selectFinalNode reduces) ∧ reduces.map Reduce.finalNode = [cstr "A"] ∧
      Pool.step serve P (0, .done) = some P' ∧
    (GoesToLeastBusy P 0 reduces P' ∨ P'.At 0 (.sendDie COMMAND_RESULT_FILEUNAVAILABLE)) := by
  obtain ⟨P, hP, r, hr, reduces, hreduces, hnames, hactive⟩ :
      ∃ P ∈ run (Pool.step serve) (marta 1 [combined]) ((planOne ++ partialDone).map (Prod.mk 0)), ∃ r ∈ P.asked 0,
        ∃ reduces ∈ r.reducesJoined, reduces.map Reduce.finalNode = [cstr "A"] ∧
          ∃ reduce ∈ reduces, OnActive P.state.nodes reduce.finalNode := by
    decide +kernel
  have ht : P.At 0 (.selectFinalNode reduces) := Req.reducesJoined_eq hreduces ▸ Pool.at_of_asked hr
  obtain ⟨P', hs, hsafe⟩ := ((final_node_planned 1 _ _ P hP 0).1 reduces ht .done).2 hactive
  exact ⟨P, P', reduces, hP, ht, hnames, hs, hsafe⟩

/-- What is decided while the map of a second job fails on the node of the only partial reduce of
the first one, which has succeeded. -/
def lastFallen : List (ℕ × Choice) :=
  planOne.map (Prod.mk 0) ++ planOne.map (Prod.mk 1) ++ partialDone.map (Prod.mk 0) ++
    [.answer 0 (some []), .done, .done].map (Prod.mk 1)

/-- **No node is left.** The only node of the partial reduces is not active, or the job has no file
at all: MaRTA does not take the step, whatever is decided. -/
theorem final_node_fallen :
    (∃ P reduces, run (Pool.step serve) (marta 1 [combined, oneFile 2]) lastFallen = some P ∧
      P.At 0 (.selectFinalNode reduces) ∧ reduces.map Reduce.finalNode = [cstr "A"] ∧
      ∀ c, Pool.step serve P (0, c) = none) ∧
    ∃ P, run (Pool.step serve) (marta 1 [⟨1, true, cstr "/r", []⟩]) [(0, .done)] = some P ∧
      P.At 0 (.selectFinalNode []) ∧ ∀ c, Pool.step serve P (0, c) = none := by
  have hstuck : ∀ {P : Pool Resp Exit Unit World} {reduces}, P.At 0 (.selectFinalNode reduces) →
      (∀ reduce ∈ reduces, (findNode P.state.nodes reduce.finalNode).isSome = true ∧
        ¬OnActive P.state.nodes reduce.finalNode) → ∀ c, Pool.step serve P (0, c) = none := by
    intro P reduces ht hall c
    by_contra hne
    obtain ⟨reduce, hreduce, hactive⟩ := (step_selectFinalNode (fun reduce hreduce => (hall reduce hreduce).1) ht c).1
      (Option.ne_none_iff_exists'.1 hne)
    exact (hall reduce hreduce).2 hactive
  constructor
  · obtain ⟨P, hP, r, hr, reduces, hreduces, hnames, hall⟩ :
        ∃ P ∈ run (Pool.step serve) (marta 1 [combined, oneFile 2]) lastFallen,
          ∃ r ∈ P.asked 0, ∃ reduces ∈ r.reducesJoined,
          reduces.map Reduce.finalNode = [cstr "A"] ∧ ∀ reduce ∈ reduces,
            (findNode P.state.nodes reduce.finalNode).isSome = true ∧ ¬OnActive P.state.nodes reduce.finalNode := by
      decide +kernel
    have ht : P.At 0 (.selectFinalNode reduces) := Req.reducesJoined_eq hreduces ▸ Pool.at_of_asked hr
    exact ⟨P, reduces, hP, ht, hnames, hstuck ht hall⟩
  · obtain ⟨P, hP, r, hr, hreduces⟩ : ∃ P ∈ run (Pool.step serve) (marta 1 [⟨1, true, cstr "/r", []⟩]) [(0, .done)],
        ∃ r ∈ P.asked 0, r.reducesJoined = some [] := by
      decide +kernel
    have ht : P.At 0 (.selectFinalNode []) := Req.reducesJoined_eq hreduces ▸ Pool.at_of_asked hr
    exact ⟨P, hP, ht, hstuck ht fun reduce hreduce => absurd hreduce List.not_mem_nil⟩

end Mdfs.MaRTA
