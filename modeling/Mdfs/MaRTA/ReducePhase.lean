import Mdfs.MaRTA.MapPhase

/-!
# The reduce phase of a job

`noCombinerReducePlanning` and `combinerReducePlanning` keep to the specification. While
reduces are `due` all maps are done (`Reducing`); each result takes one reduce off, and
leaves the job as it is (`ok_recvResult_reduce`).

* `ok_planJob`: the planners return with the final reduce as the last order, which succeeded (`Closed`).
* `ok_acceptJob`: the whole of `acceptJob` keeps to the specification.
-/

namespace Mdfs.MaRTA

open Lib Wire

/-- **A job that waits for the reduces that are `due`.** -/
structure Reducing (due : Multiset Reduce) (job : Job) (l : Talk) : Prop where
  rest : AtRest 0 [] due job l
  done : ∀ m ∈ job.maps, m.done = true
  found : ∀ r ∈ due, reduceOfResult job r.id = some r ∧ l.Knows r.finalNode

variable {due : Multiset Reduce} {job job' : Job} {l l' : Talk} {reduce : Reduce}

theorem Settled.reducing (h : Settled job l) : Reducing 0 job l :=
  ⟨h.rest, h.done, fun r hr => absurd hr (Multiset.notMem_zero r)⟩

theorem Settled.of_job (h : Settled job l) (hmaps : job'.maps = job.maps) (hmapsDone : job'.mapsDone = job.mapsDone) :
    Settled job' l := ⟨h.rest.of_job hmaps hmapsDone, h.pending⟩

/-- The node of the final reduce is read. -/
theorem Settled.read (h : Settled job l) (n : ℕ) (node : NodeInfo) (final : Reduce) :
    Reducing 0 { job with finalReduce := final } (l.read n node) where
  rest := by
    refine atRest_zero.2 ⟨?_, ?_, h.rest.hand⟩
    · exact h.rest.ledger.of_same rfl rfl rfl fun hreplanned hdropped => ⟨hreplanned, hdropped, rfl⟩
    · exact h.rest.chart.of_same rfl id (List.subset_append_left _ _)
  done := h.done
  found := fun r hr => absurd hr (Multiset.notMem_zero r)

theorem Reducing.waiting (h : Reducing due job l) : waiting (job.maps : Multiset Map) = 0 :=
  Multiset.filter_eq_nil.2 fun m hm => by simp [h.done m hm]

theorem Reducing.settled (h : Reducing 0 job l) : Settled job l := by
  refine ⟨h.rest, ?_⟩
  have hpending := h.rest.ledger.pending
  rw [h.waiting] at hpending
  exact (Multiset.coe_eq_zero _).1 hpending

theorem Reducing.balanced (h : Reducing due job l) : Balanced l job :=
    h.rest.ledger.balanced h.done h.rest.chart.length_lt

/-! ## Orders and results -/

/-- **The last order is the final reduce**, which covers what it has to. -/
structure Ordered (job : Job) (l : Talk) : Prop where
  last : ∃ before, l.history = before ++ [.order (.reduce job.finalReduce)]
  covers : l.skipped = false → Covers l job job.finalReduce

/-- **A job that is over**: the last order was the final reduce, and the last result its success. -/
structure Closed (job : Job) (l : Talk) : Prop where
  last : ∃ before, l.history = before ++ [.order (.reduce job.finalReduce), .result (.reduce job.finalReduce.id none)]
  covers : l.skipped = false → Covers l job job.finalReduce

/-- What is said of reduces says nothing of the maps. -/
theorem Covers.after (h : Covers l job reduce) {e : Event} (he : ∀ id x, noteOf id x e = x)
    (hhistory : l'.history = l.history ++ [e]) (hblocks : l'.blocks = l.blocks) : Covers l' job reduce := by
  obtain ⟨orders, htemps, hcopies, hlast⟩ := h.orders
  refine ⟨h.listed, orders, htemps, by rw [hblocks, hcopies], fun i m hm => ?_⟩
  rw [hhistory, lastOf_append, he]
  exact hlast i m hm

/-- **The answer to a reduce** was received. -/
structure Heard (reduce : Reduce) (failed : Option CStr) (l l' : Talk) : Prop where
  history : l'.history = l.history ++ [.result (.reduce reduce.id failed)]
  blocks : l'.blocks = l.blocks
  skipped : l'.skipped = l.skipped

theorem Ordered.closed (h : Ordered job l) (hheard : Heard job.finalReduce none l l') : Closed job l' where
  last := by
    obtain ⟨before, hbefore⟩ := h.last
    exact ⟨before, by rw [hheard.history, hbefore, List.append_assoc]; rfl⟩
  covers := by
    intro hskipped
    rw [hheard.skipped] at hskipped
    exact (h.covers hskipped).after (fun _ _ => rfl) hheard.history hheard.blocks

/-- **A reduce is ordered**: one more is due. -/
theorem ok_notificarReduce_due (h : Reducing due job l) {final : Bool}
    (hfound : reduceOfResult job reduce.id = some reduce)
    (hknown : l.Knows reduce.finalNode) (hcovers : final = true → l.skipped = false → Covers l job reduce) :
    (notificarReduce final job reduce).Ok jobSpec (fun _ l' => Reducing (reduce ::ₘ due) job l' ∧
      l' = (l.reduceAdded reduce.finalNode reduce.finalNode).reduceSent reduce true) anyExit l := by
  refine (ok_notificarReduce h.rest.hand hknown h.balanced hcovers h.rest.leaving).imp ?_
  rintro - l₁ rfl
  refine ⟨⟨atRest_zero.2 ⟨h.rest.ledger.sent_reduce reduce, ?_, rfl⟩, h.done, fun r hr => ?_⟩, rfl⟩
  · exact h.rest.chart.of_same rfl id (List.Subset.refl _)
  · rcases Multiset.mem_cons.1 hr with rfl | hr
    · exact ⟨hfound, hknown⟩
    · exact h.found r hr

/-- **The final reduce is ordered.** -/
theorem ok_notificarReduce_final (h : Reducing 0 job l) (hid : job.finalReduce.id = 0)
    (hknown : l.Knows job.finalReduce.finalNode) (hcovers : l.skipped = false → Covers l job job.finalReduce) :
    (notificarReduce true job job.finalReduce).Ok jobSpec (fun _ l' => Reducing {job.finalReduce} job l' ∧
      Ordered job l') anyExit l := by
  have hfound : reduceOfResult job job.finalReduce.id = some job.finalReduce := by rw [hid]; rfl
  refine (ok_notificarReduce_due h hfound hknown fun _ => hcovers).imp ?_
  rintro - _ ⟨hdue, rfl⟩
  exact ⟨hdue, ⟨l.history, rfl⟩, fun hskipped => (hcovers hskipped).after (fun _ _ => rfl) rfl rfl⟩

/-- **The result of a reduce**: one less is due. -/
theorem ok_recvResult_reduce (rounds : ℕ) (h : Reducing due job l) (hdue : due ≠ 0) :
    (recvResult rounds job).Ok jobSpec (fun x l' => x.1 = job ∧ ∃ r due', due = r ::ₘ due' ∧ Reducing due' job l' ∧
      ∃ failed, Heard r failed l l' ∧ (x.2 = none → failed = none)) anyExit l := by
  have hledger := h.rest.ledger
  have hpending : l.pending ≠ [] := by
    intro hnil
    have hsum := hledger.pending
    rw [hnil, h.waiting, Multiset.map_zero, Multiset.zero_add] at hsum
    exact hdue (Multiset.map_eq_zero.1 hsum.symm)
  cases rounds with
  | zero => trivial
  | succ rounds =>
    rw [recvResult, Prog.ok_bind]
    refine ok_request ⟨h.rest.hand, hpending⟩ ?_
    rintro x l₁ (⟨rfl, rfl⟩ | ⟨i, o, failed, ho, rfl, rfl⟩)
    · have hdying : Leaving job.maps { l with hand := .dying } := h.rest.leaving.of_same rfl rfl rfl rfl
      exact ok_leave hdying .died
    cases o with
    -- the maps are all done, so no answer is of a map
    | map m =>
      have hm := hledger.mem_of_map ho
      rw [h.waiting] at hm
      exact absurd hm (Multiset.notMem_zero m)
    | reduce r =>
      have hr := hledger.mem_of_reduce ho
      obtain ⟨hfound, hknown⟩ := h.found r hr
      obtain ⟨due', rfl⟩ := Multiset.exists_cons_of_mem hr
      have hmay : MayAsk (l.answered i (.reduce r) failed) (.removeReduceNode r.finalNode) := ⟨r, rfl, rfl, hknown⟩
      have hless : Reducing due' job ((l.answered i (.reduce r) failed).reduceRemoved r.finalNode) := by
        refine ⟨atRest_zero.2 ⟨hledger.answered_reduce ho failed, ?_, rfl⟩, h.done, fun x hx => ?_⟩
        · exact h.rest.chart.of_same rfl id (List.Subset.refl _)
        · exact h.found x (Multiset.mem_cons_of_mem hx)
      change ((desserializaReduceResult job r.id failed) >>= _).Ok _ _ _ _
      unfold desserializaReduceResult
      simp only [hfound]
      rw [Prog.ok_bind, Prog.ok_bind]
      refine ok_request hmay ?_
      rintro - l₂ ⟨name, hname, rfl⟩
      obtain rfl : name = r.finalNode := hname hknown
      cases failed with
      | none => exact ⟨rfl, r, due', rfl, hless, none, ⟨rfl, rfl, rfl⟩, fun _ => rfl⟩
      | some nodeID =>
        dsimp only
        rw [Prog.ok_bind]
        refine ok_request trivial ?_
        rintro - l₃ rfl
        exact ⟨rfl, r, due', rfl, hless, some nodeID, ⟨rfl, rfl, rfl⟩, fun hnot => by cases hnot⟩

/-- **The result of the final reduce**, and its copy to the MDFS. -/
theorem ok_finishFinalReduce (rounds : ℕ) (h : Reducing {job.finalReduce} job l) (hordered : Ordered job l) :
    (finishFinalReduce (recvResult rounds) job).Ok jobSpec (fun x l' => x.1 = job ∧ Settled job l' ∧
      (x.2 = none → Closed job l')) anyExit l := by
  unfold finishFinalReduce
  rw [Prog.ok_bind]
  refine (ok_recvResult_reduce rounds h (Multiset.singleton_ne_zero job.finalReduce)).imp ?_
  rintro ⟨job₁, fallenNode⟩ l₁ ⟨rfl, r, due', hdue, hless, failed, hheard, hfailed⟩
  obtain ⟨rfl, rfl⟩ : r = job₁.finalReduce ∧ due' = 0 := by
    have hcons := (Multiset.singleton_eq_cons_iff _).1 hdue
    exact ⟨hcons.1.symm, hcons.2⟩
  cases fallenNode with
  | some name => exact ⟨rfl, hless.settled, fun hnot => by cases hnot⟩
  | none =>
    obtain rfl := hfailed rfl
    have hclosed : Closed job₁ l₁ := hordered.closed hheard
    dsimp only
    rw [Prog.ok_bind]
    unfold copyFinalTemporal
    rw [Prog.ok_bind]
    refine ok_request trivial ?_
    rintro reply l₂ rfl
    split
    · rw [Prog.ok_bind]
      refine ok_request trivial ?_
      rintro - l₃ rfl
      exact ok_leave hless.rest.leaving .cantCopy
    · exact ⟨rfl, hless.settled, fun _ => hclosed⟩

/-- **The final reduce is planned** on a node that was read. -/
theorem ok_planFinalReduce (h : Settled job l) (htemps : job.finalReduce.temps = []) (n : ℕ) (node : NodeInfo)
    {temps : List Temp} (hlisted : job.combiner = true → temps = job.partialReduces.map reduceToTemporal)
    (hcovered : (if job.combiner then job.partialReduces.flatMap Reduce.temps else temps).Perm
      (job.maps.map mapToTemporal)) :
    (planFinalReduce job node temps).Ok jobSpec (fun job' l' => Reducing {job'.finalReduce} job' l' ∧ Ordered job' l' ∧
      job'.combiner = job.combiner) anyExit (l.read n node) := by
  unfold planFinalReduce
  rw [Prog.ok_bind]
  refine ok_request trivial ?_
  rintro time l₁ rfl
  set final : Reduce := { setFinalReduce job.finalReduce node.name node.ip node.port job.id time with
    temps := (setFinalReduce job.finalReduce node.name node.ip node.port job.id time).temps ++ temps } with hfinal
  have hreducing : Reducing 0 { job with finalReduce := final } (l.read n node) := h.read n node final
  have hknown : (l.read n node).Knows final.finalNode := ⟨(n, node), List.mem_append_right _ List.mem_cons_self, rfl⟩
  have hall : final.temps = temps := by
    change job.finalReduce.temps ++ _ = _
    rw [htemps, List.nil_append]
  have hcovers : (l.read n node).skipped = false → Covers (l.read n node) { job with finalReduce := final } final := by
    intro hskipped
    refine hreducing.rest.ledger.covers hreducing.rest.chart hreducing.done hskipped ?_ ?_
    · exact fun hcombiner => hall.trans (hlisted hcombiner)
    · unfold Job.covered
      rw [hall]
      exact hcovered
  rw [Prog.ok_bind]
  refine (ok_notificarReduce_final hreducing rfl hknown hcovers).imp ?_
  rintro - l₂ ⟨hdue, hordered⟩
  exact ⟨hdue, hordered, rfl⟩

/-- **A round after its order**: the job is over, or the maps of the fallen node are done again. -/
theorem ok_awaitFinalReduce (recvs : ℕ) (clean : Job → Job) (hdue : Reducing {job.finalReduce} job l)
    (hordered : Ordered job l) :
    (awaitFinalReduce (recvResult recvs) clean job).Ok jobSpec (fun x l' =>
      (x.2 = false → Settled x.1 l' ∧ Closed x.1 l') ∧
      (x.2 = true → ∃ job', x.1 = clean job' ∧ Settled job' l' ∧ job'.combiner = job.combiner)) anyExit l := by
  unfold awaitFinalReduce
  rw [Prog.ok_bind]
  refine (ok_finishFinalReduce recvs hdue hordered).imp ?_
  rintro ⟨job₁, fallenNode⟩ l₁ ⟨rfl, hsettled, hclosed⟩
  cases fallenNode with
  | none => exact ⟨fun _ => ⟨hsettled, hclosed rfl⟩, fun hagain => by cases hagain⟩
  | some name =>
    dsimp only
    rw [Prog.ok_bind]
    refine (ok_rePlanMapsFromNode recvs hsettled name).imp ?_
    rintro ⟨job₂, again⟩ l₂ ⟨hkeeps, ⟨rfl, hagain⟩ | ⟨rfl, hgone⟩⟩
    · rw [if_pos rfl]
      exact ⟨fun hover => (by cases hover), fun _ => ⟨job₂, rfl, hagain, hkeeps.combiner⟩⟩
    · rw [if_neg Bool.false_ne_true]
      exact ok_notifFileUnavailable hgone.leaving

/-! ## Without a combiner -/

/-- **A round up to its order**: a job without a combiner reduces the temporals of all its maps. -/
theorem ok_orderFinalReduce {freed : Bool} (h : Settled job l) (hcombiner : job.combiner = false)
    (htemps : job.finalReduce.temps = []) :
    (orderFinalReduce freed job).Ok jobSpec (fun job' l' => Reducing {job'.finalReduce} job' l' ∧ Ordered job' l' ∧
      job'.combiner = job.combiner) anyExit l := by
  unfold orderFinalReduce
  rw [Prog.ok_bind]
  refine ok_request trivial ?_
  rintro (_ | n) l₁ rfl
  · exact ok_notifFileUnavailable h.rest.leaving
  dsimp only
  rw [Prog.ok_bind]
  refine ok_request trivial ?_
  rintro node l₂ ⟨-, rfl⟩
  refine ok_planFinalReduce h htemps n node (fun hyes => ?_) ?_
  · exact absurd (hcombiner.symm.trans hyes) (by decide)
  · rw [if_neg (by simp [hcombiner])]

/-- **`noCombinerReducePlanning`** returns with all maps done. -/
theorem ok_noCombinerReducePlanning (recvs : ℕ) (rounds : ℕ) : ∀ {freed : Bool} {job : Job} {l : Talk}, Settled job l →
    job.combiner = false → job.finalReduce.temps = [] →
    (noCombinerReducePlanning (recvResult recvs) rounds freed job).Ok jobSpec
      (fun job' l' => Settled job' l' ∧ Closed job' l') anyExit l := by
  induction rounds with
  | zero => intro freed job l _ _ _; trivial
  | succ rounds ih =>
    intro freed job l h hcombiner htemps
    unfold noCombinerReducePlanning
    rw [Prog.ok_bind]
    refine (ok_orderFinalReduce h hcombiner htemps).imp ?_
    rintro job₁ l₁ ⟨hdue, hordered, hcombiner₁⟩
    rw [Prog.ok_bind]
    refine (ok_awaitFinalReduce recvs noCombinerClean hdue hordered).imp ?_
    rintro ⟨job₂, again⟩ l₂ ⟨hover, hagain⟩
    cases again with
    | true =>
      obtain ⟨job₃, rfl, hsettled, hcombiner₃⟩ := hagain rfl
      exact ih (hsettled.of_job rfl rfl) (hcombiner₃.trans (hcombiner₁.trans hcombiner)) rfl
    | false => exact hover rfl

/-! ## With a combiner -/

/-- **The maps grouped by node**: the partial reduces have their places for ids, their nodes
are nodes of maps, and their temps are those of the maps. -/
structure Grouped (maps : List Map) (reduces : List Reduce) : Prop where
  ids : ∀ i r, reduces[i]? = some r → r.id = (i + 1).toUInt16
  length_le : reduces.length ≤ maps.length
  nodes : ∀ r ∈ reduces, ∃ m ∈ maps, r.finalNode = m.nodeName
  temps : (reduces.flatMap Reduce.temps).Perm (maps.map mapToTemporal)

variable {maps : List Map} {reduces : List Reduce} {map : Map} {i : ℕ}

theorem grouped_nil : Grouped [] [] where
  ids := fun _ _ h => absurd h (by simp)
  length_le := le_rfl
  nodes := fun _ h => absurd h List.not_mem_nil
  temps := .nil

/-- One more temp in the `i`-th reduce. -/
theorem flatMap_temps_modify (hi : i < reduces.length) (t : Temp) :
    ((reduces.modify i fun r => { r with temps := r.temps ++ [t] }).flatMap Reduce.temps).Perm
      (reduces.flatMap Reduce.temps ++ [t]) := by
  induction reduces generalizing i with
  | nil => exact absurd hi (Nat.not_lt_zero i)
  | cons r reduces ih =>
    cases i with
    | zero =>
      rw [List.modify_zero_cons, List.flatMap_cons, List.flatMap_cons, List.append_assoc, List.append_assoc]
      exact List.perm_append_comm.append_left r.temps
    | succ i =>
      rw [List.modify_succ_cons, List.flatMap_cons, List.flatMap_cons, List.append_assoc]
      exact (ih (Nat.lt_of_succ_lt_succ hi)).append_left r.temps

/-- A map of a node that has a reduce. -/
theorem Grouped.add (h : Grouped maps reduces) (hi : i < reduces.length) :
    Grouped (maps ++ [map]) (reduces.modify i fun r => { r with temps := r.temps ++ [mapToTemporal map] }) where
  ids := ids_addTemp h.ids i (mapToTemporal map)
  length_le := by
    have hle := h.length_le
    rw [List.length_modify, List.length_append]
    omega
  nodes := by
    intro r hr
    obtain ⟨j, hj⟩ := List.mem_iff_getElem?.1 hr
    rw [List.getElem?_modify, Option.map_eq_map, Option.map_eq_some_iff] at hj
    obtain ⟨r', hr', rfl⟩ := hj
    obtain ⟨m, hm, hname⟩ := h.nodes r' (List.mem_of_getElem? hr')
    refine ⟨m, List.mem_append_left _ hm, ?_⟩
    rw [← hname]
    by_cases hij : i = j
    · rw [if_pos hij]
    · rw [if_neg hij]
  temps := by
    rw [List.map_append]
    exact (flatMap_temps_modify hi (mapToTemporal map)).trans (h.temps.append_right _)

/-- A map of a node that has none. -/
theorem Grouped.append (h : Grouped maps reduces) (hid : reduce.id = (reduces.length + 1).toUInt16)
    (hnode : reduce.finalNode = map.nodeName) (htemps : reduce.temps = [mapToTemporal map]) :
    Grouped (maps ++ [map]) (reduces ++ [reduce]) where
  ids := ids_append h.ids hid
  length_le := by
    have hle := h.length_le
    rw [List.length_append, List.length_append]
    exact Nat.add_le_add_right hle 1
  nodes := by
    intro r hr
    rcases List.mem_append.1 hr with hr | hr
    · obtain ⟨m, hm, hname⟩ := h.nodes r hr
      exact ⟨m, List.mem_append_left _ hm, hname⟩
    · rw [List.mem_singleton.1 hr]
      exact ⟨map, List.mem_append_right _ List.mem_cons_self, hnode⟩
  temps := by
    rw [List.flatMap_append, List.flatMap_singleton, htemps, List.map_append]
    exact h.temps.append_right _

/-- The ids are distinct, and none is that of the final reduce. -/
theorem Grouped.toNat_id (h : Grouped maps reduces) (hlt : maps.length < 2 ^ 16) (hr : reduces[i]? = some reduce) :
    reduce.id.toNat = i + 1 := by
  have hle := h.length_le
  obtain ⟨hi, -⟩ := List.getElem?_eq_some_iff.1 hr
  rw [h.ids i reduce hr, toNat_toUInt16 (by omega)]

/-- **A partial reduce is found by its id.** -/
theorem Grouped.found (h : Grouped job.maps job.partialReduces) (hlt : job.maps.length < 2 ^ 16)
    (hr : reduce ∈ job.partialReduces) : reduceOfResult job reduce.id = some reduce := by
  obtain ⟨i, hi⟩ := List.mem_iff_getElem?.1 hr
  have hid := h.toNat_id hlt hi
  have hzero : reduce.id ≠ 0 := by
    intro hnot
    rw [hnot] at hid
    exact absurd hid (by simp)
  unfold reduceOfResult
  rw [if_neg hzero]
  cases hfind : job.partialReduces.find? fun r => r.id = reduce.id with
  | none =>
    have hnone := List.find?_eq_none.1 hfind reduce hr
    simp at hnone
  | some r =>
    have hsame : r.id = reduce.id := by simpa using List.find?_some hfind
    obtain ⟨j, hj⟩ := List.mem_iff_getElem?.1 (List.mem_of_find?_eq_some hfind)
    have hid' := h.toNat_id hlt hj
    rw [hsame, hid] at hid'
    obtain rfl : i = j := by omega
    exact hj.symm.trans hi

/-- **`agregarAPartialReduces` on all maps** groups them. -/
theorem ok_agregarAPartialReduces (jobID : UInt16) (maps : List Map) (l : Talk) :
    (maps.foldlM (agregarAPartialReduces jobID) []).Ok jobSpec (fun reduces l' => l' = l ∧ Grouped maps reduces)
      anyExit l := by
  refine Prog.ok_foldlM (K := fun done reduces l' => l' = l ∧ Grouped done reduces) maps ?_ ⟨rfl, grouped_nil⟩
  rintro done map rest reduces l₁ - ⟨rfl, h⟩
  unfold agregarAPartialReduces
  cases hfind : reduces.findIdx? fun reduce => reduce.finalNode = map.nodeName with
  | some i =>
    obtain ⟨hi, -⟩ := List.findIdx?_eq_some_iff_getElem.1 hfind
    exact ⟨rfl, h.add hi⟩
  | none =>
    dsimp only
    rw [Prog.ok_bind]
    refine ok_request trivial ?_
    rintro time l₂ rfl
    exact ⟨rfl, h.append rfl rfl rfl⟩

/-- **`combinerPartialsReducePlanning`** orders the partial reduces. -/
theorem ok_combinerPartialsReducePlanning (h : Settled job l) (hnone : job.partialReduces = []) :
    (combinerPartialsReducePlanning job).Ok jobSpec (fun job' l' => Reducing job'.partialReduces job' l' ∧
      Grouped job'.maps job'.partialReduces ∧ job'.combiner = job.combiner ∧ job'.finalReduce = job.finalReduce)
        anyExit l := by
  unfold combinerPartialsReducePlanning
  rw [Prog.ok_bind, hnone]
  refine (ok_agregarAPartialReduces job.id job.maps l).imp ?_
  rintro reduces l₁ ⟨rfl, hgrouped⟩
  have hsettled : Settled { job with partialReduces := reduces } l₁ := h.of_job rfl rfl
  rw [Prog.ok_bind]
  refine (Prog.ok_iterate (K := fun done l' => Reducing (done : List Reduce) { job with partialReduces := reduces } l')
    reduces ?_ hsettled.reducing).imp ?_
  · intro done reduce rest l₂ hsplit hreducing
    have hmem : reduce ∈ reduces := by
      rw [← hsplit]
      simp
    have hknown : l₂.Knows reduce.finalNode := by
      obtain ⟨m, hm, hname⟩ := hgrouped.nodes reduce hmem
      rw [hname]
      exact hreducing.rest.chart.known m hm
    have hfound : reduceOfResult { job with partialReduces := reduces } reduce.id = some reduce :=
      Grouped.found hgrouped h.rest.chart.length_lt hmem
    refine (ok_notificarReduce_due hreducing hfound hknown fun hnot => absurd hnot (by decide)).imp ?_
    intro _ l₃ hdue
    rw [coe_append_singleton]
    exact hdue.1
  · intro _ l₂ hreducing
    exact ⟨hreducing, hgrouped, rfl, rfl⟩

/-- **The inner loop of `combinerReducePlanning`** returns when all partial reduces have
succeeded. -/
theorem ok_partialRounds (recvs rounds : ℕ) : ∀ {job : Job} {l : Talk}, Settled job l → job.partialReduces = [] →
    job.combiner = true → job.finalReduce.temps = [] →
    (partialRounds (recvResult recvs) rounds job).Ok jobSpec (fun job' l' => Settled job' l' ∧
      Grouped job'.maps job'.partialReduces ∧ job'.combiner = true ∧ job'.finalReduce.temps = []) anyExit l := by
  induction rounds with
  | zero => intro job l _ _ _ _; trivial
  | succ rounds ih =>
    intro job l h hnone hcombiner htemps
    unfold partialRounds
    rw [Prog.ok_bind]
    refine (ok_combinerPartialsReducePlanning h hnone).imp ?_
    rintro job₁ l₁ ⟨hreducing, hgrouped, hcombiner₁, hfinal₁⟩
    -- as many results are received as partial reduces were ordered
    rw [Prog.ok_bind]
    refine (Prog.ok_foldlM (K := fun done (x : Job × List CStr) l' => x.1 = job₁ ∧ ∃ due, Reducing due job₁ l' ∧
      due.card + done.length = job₁.partialReduces.length) (List.range job₁.partialReduces.length) ?_ ?_).imp ?_
    · rintro done n rest ⟨job₂, fallenNodes⟩ l₂ hsplit ⟨rfl, due, hdue, hcard⟩
      have hleft := congrArg List.length hsplit
      rw [List.length_append, List.length_cons, List.length_range] at hleft
      have hsome : due ≠ 0 := by
        intro hzero
        rw [hzero, Multiset.card_zero] at hcard
        omega
      unfold recvPartial
      rw [Prog.ok_bind]
      refine (ok_recvResult_reduce recvs hdue hsome).imp ?_
      rintro ⟨job₃, fallenNode⟩ l₃ ⟨rfl, r, due', rfl, hless, -⟩
      refine ⟨rfl, due', hless, ?_⟩
      rw [Multiset.card_cons] at hcard
      rw [List.length_append, List.length_singleton]
      omega
    · exact ⟨rfl, job₁.partialReduces, hreducing, by rw [Multiset.coe_card, List.length_nil, Nat.add_zero]⟩
    · rintro ⟨job₂, fallenNodes⟩ l₂ ⟨rfl, due, hdue, hcard⟩
      have hzero : due = 0 := by
        rw [List.length_range] at hcard
        exact Multiset.card_eq_zero.1 (by omega)
      rw [hzero] at hdue
      have hsettled := hdue.settled
      have hcombiner₂ : job₂.combiner = true := hcombiner₁.trans hcombiner
      have htemps₂ : job₂.finalReduce.temps = [] := by rw [hfinal₁, htemps]
      split
      · exact ⟨hsettled, hgrouped, hcombiner₂, htemps₂⟩
      · rw [Prog.ok_bind]
        refine (ok_replanMaps recvs hsettled fallenNodes).imp ?_
        rintro ⟨job₃, again⟩ l₃ (⟨rfl, hagain, hkeeps⟩ | ⟨rfl, hgone⟩)
        · have hcombiner₃ : job₃.combiner = true := hkeeps.combiner.trans hcombiner₂
          have htemps₃ : job₃.finalReduce.temps = [] := by rw [hkeeps.finalReduce, htemps₂]
          -- the partial reduces were removed, and the next round makes them anew
          exact ih (hagain.of_job rfl rfl) rfl hcombiner₃ htemps₃
        · exact ok_notifFileUnavailable hgone.leaving

/-- **`combinerFinalReducePlanning`** orders the reduce of all partial reduces. -/
theorem ok_combinerFinalReducePlanning (h : Settled job l) (hgrouped : Grouped job.maps job.partialReduces)
    (hcombiner : job.combiner = true) (htemps : job.finalReduce.temps = []) :
    (combinerFinalReducePlanning job).Ok jobSpec (fun job' l' => Reducing {job'.finalReduce} job' l' ∧
      Ordered job' l' ∧ job'.combiner = job.combiner) anyExit l := by
  unfold combinerFinalReducePlanning
  rw [Prog.ok_bind]
  refine ok_request trivial ?_
  rintro node l₁ ⟨n, rfl⟩
  -- the partial reduces have covered the maps, node by node
  refine ok_planFinalReduce h htemps n node (fun _ => rfl) ?_
  rw [if_pos hcombiner]
  exact hgrouped.temps

/-- **`combinerReducePlanning`** returns with all maps done. -/
theorem ok_combinerReducePlanning (recvs partials rounds : ℕ) : ∀ {job : Job} {l : Talk}, Settled job l →
    job.partialReduces = [] → job.combiner = true → job.finalReduce.temps = [] →
    (combinerReducePlanning (recvResult recvs) partials rounds job).Ok jobSpec
      (fun job' l' => Settled job' l' ∧ Closed job' l') anyExit l := by
  induction rounds with
  | zero => intro job l _ _ _ _; trivial
  | succ rounds ih =>
    intro job l h hnone hcombiner htemps
    unfold combinerReducePlanning
    rw [Prog.ok_bind]
    refine (ok_partialRounds recvs partials h hnone hcombiner htemps).imp ?_
    rintro job₁ l₁ ⟨hsettled, hgrouped, hcombiner₁, htemps₁⟩
    rw [Prog.ok_bind]
    refine (ok_combinerFinalReducePlanning hsettled hgrouped hcombiner₁ htemps₁).imp ?_
    rintro job₂ l₂ ⟨hdue, hordered, hcombiner₂⟩
    rw [Prog.ok_bind]
    refine (ok_awaitFinalReduce recvs combinerClean hdue hordered).imp ?_
    rintro ⟨job₃, again⟩ l₃ ⟨hover, hagain⟩
    cases again with
    | true =>
      obtain ⟨job₄, rfl, hsettled₄, hcombiner₄⟩ := hagain rfl
      exact ih (hsettled₄.of_job rfl rfl) rfl (hcombiner₄.trans (hcombiner₂.trans hcombiner₁)) rfl
    | false => exact hover rfl

theorem ok_finishJob (h : Settled job l) : (finishJob job).Ok jobSpec (fun _ _ => True) anyExit l := by
  unfold finishJob
  rw [Prog.ok_bind]
  refine ok_request trivial ?_
  rintro - l₁ rfl
  rw [Prog.ok_bind]
  refine (ok_freeJob (ok_removeMaps_free h.rest.leaving) fun _ _ _ => trivial).imp fun _ l₂ hleft => ?_
  refine ok_request ?_ fun _ l₃ _ => trivial
  intro hreplanned hdropped
  exact (Multiset.coe_eq_zero _).1 (Multiset.le_zero.1 (hleft hreplanned hdropped).2)

/-- **The planners** return when the job is over. -/
theorem ok_planJob (rounds : ℕ) (h : job.New) : (planJob rounds job).Ok jobSpec
    (fun job' l' => 2 ^ 16 ≤ l'.blocks.length ∨ Settled job' l' ∧ Closed job' l') anyExit .start := by
  unfold planJob
  rw [Prog.ok_bind]
  refine (ok_planMaps rounds h).imp ?_
  rintro job₁ l₁ (hlarge | ⟨hsettled, hkeeps⟩)
  · exact (ok_large hlarge _).imp fun _ _ => Or.inl
  have hnone : job₁.partialReduces = [] := hkeeps.partialReduces.trans h.partialReduces
  have htemps : job₁.finalReduce.temps = [] := by rw [hkeeps.finalReduce, h.temps]
  split
  · rename_i hcombiner
    exact (ok_combinerReducePlanning rounds rounds rounds hsettled hnone hcombiner htemps).imp fun _ _ => Or.inr
  · rename_i hcombiner
    exact (ok_noCombinerReducePlanning rounds rounds hsettled (by simpa using hcombiner) htemps).imp fun _ _ => Or.inr

/-- **`acceptJob`** keeps to the specification. -/
theorem ok_acceptJob (rounds : ℕ) (h : job.New) :
    (acceptJob rounds job).Ok jobSpec (fun _ _ => True) anyExit .start := by
  unfold acceptJob
  rw [Prog.ok_bind]
  refine (ok_planJob rounds h).imp ?_
  rintro job₁ l₁ (hlarge | ⟨hsettled, -⟩)
  · exact (ok_large hlarge _).imp fun _ _ _ => trivial
  · exact ok_finishJob hsettled

end Mdfs.MaRTA
