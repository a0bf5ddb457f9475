import Mdfs.MaRTA.ReducePhase
import Mdfs.MaRTA.Steps

/-!
# Every block once, and nothing outstanding

What holds of one job of MaRTA, whatever the other jobs do in between. A block without an
active copy when it is planned is skipped, although its file was available: the job goes
on without it. A map that `rePlanMapsFromNode` finds no active copy for is not counted any
more, although its result stands: with several fallen nodes the count stays one short.

* `every_block_once`: the final reduce covers every block, when no block is skipped.
* `nothing_outstanding`: no order is outstanding when a phase ends.
* `skipped_block`, `count_short`: without their conditions these fail.
-/

namespace Mdfs.MaRTA

open Lib

variable {rounds : ℕ} {jobs : List Submission} {es : List (ℕ × Choice)} {t₀ : ℕ}
  {P : Pool Resp Exit Unit World} {J : World → (ℕ → Talk) → Prop}

/-- MaRTA starts with every job keeping to its specification. -/
theorem marta_ok (rounds : ℕ) (jobs : List Submission) (hJ : J ⟨[], fun _ => .start⟩ fun _ => .start) :
    (marta rounds jobs).Ok (fun _ => jobSpec) (fun _ _ _ => True) (fun _ => anyExit) J := by
  refine ⟨fun _ => .start, hJ, fun t p hp => ?_⟩
  obtain ⟨x, -, rfl⟩ := List.mem_map.1 (List.mem_of_getElem? hp)
  exact ok_acceptJob rounds (createJob_new ..)

theorem tied_start : Tied ⟨[], fun _ => .start⟩ fun _ => .start where
  talk := rfl
  distinct := List.Pairwise.nil
  shown := fun _ _ hx => absurd hx List.not_mem_nil
  announced := fun _ _ _ _ hx => by cases hx

theorem start_small : Talk.start.blocks.length < 2 ^ 16 := by decide

/-- The request of `planMaps` for the blocks of a file. -/
def Req.asksBlocks : Req → Bool
  | .fileBlocks .plan _ => true
  | _ => false

/-- The copies that `planMaps` selects from. -/
def Req.copiesPlanned : Req → Option (List Copy)
  | .selectNode .plan copies => some copies
  | _ => none

/-- The order of a final reduce. -/
def Req.finalReduce : Req → Option (Job × Reduce)
  | .sendReduce true job reduce => some (job, reduce)
  | _ => none

theorem Req.finalReduce_eq {r : Req} {x : Job × Reduce} (h : r.finalReduce = some x) :
    r = .sendReduce true x.1 x.2 := by
  unfold Req.finalReduce at h
  split at h
  · cases h
    rfl
  · cases h

/-- A reply leaves the job with as many blocks as 16 bits can count. -/
def Countable (w : World) (t : ℕ) (r : Req) (c : Choice) : Prop :=
  r.asksBlocks = true → (w.talk t).blocks.length + c.reply.length < 2 ^ 16

instance (w : World) (t : ℕ) (r : Req) (c : Choice) : Decidable (Countable w t r c) :=
  inferInstanceAs (Decidable (r.asksBlocks = true → _))

/-- The blocks stay as many as 16 bits can count. -/
theorem countable_turn {w u : World} {t : ℕ} {r : Req} {c : Choice} {x : Resp r} {g : ℕ → Talk} (h : Tied w g)
    (hsmall : (g t).blocks.length < 2 ^ 16) (hC : Countable w t r c) (hs : serve t w r c = some (x, u)) :
    (u.talk t).blocks.length < 2 ^ 16 := by
  rcases (serve_turn h hs).1.frame.1 with hsame | ⟨path, rfl⟩
  · rw [hsame]
    exact hsmall
  · have hreply := hC rfl
    simp only [serve, Option.some.injEq, Prod.mk.injEq] at hs
    obtain ⟨-, rfl⟩ := hs
    simp only [World.say, Function.update_self, Talk.blocksGot, if_true, List.length_append]
    exact hreply

/-! ## Every block once -/

/-- **No block of job `t₀` is skipped**: `planMaps` finds an active copy of each, and 16 bits
can count them. -/
def Whole (t₀ t : ℕ) (w : World) (r : Req) (c : Choice) : Prop := t = t₀ →
  Countable w t r c ∧ ∀ copies ∈ r.copiesPlanned, selectNodeToMap w.nodes copies ≠ some none

instance (t₀ t : ℕ) (w : World) (r : Req) (c : Choice) : Decidable (Whole t₀ t w r c) :=
  inferInstanceAs (Decidable (t = t₀ → Countable w t r c ∧ ∀ copies ∈ r.copiesPlanned, _))

/-- **A note on job `t₀` that stays false** under a condition, which also keeps its blocks few. -/
theorem quiet_rule (t₀ : ℕ) (note : Talk → Bool) {C : ℕ → World → Req → Choice → Prop}
    (hcount : ∀ w r c, C t₀ w r c → Countable w t₀ r c)
    (hnote : ∀ w g r c x u, Tied w g → note (g t₀) = false → C t₀ w r c → serve t₀ w r c = some (x, u) →
      Turn (g t₀) r x (u.talk t₀) → note (u.talk t₀) = false) :
    Pool.Rule (fun _ => jobSpec) (fun w g => Tied w g ∧ (g t₀).blocks.length < 2 ^ 16 ∧ note (g t₀) = false)
      serve C := by
  rintro t w g r c x u ⟨htied, hsmall, hquiet⟩ - hC hs
  obtain ⟨hturn, -, htied'⟩ := serve_turn htied hs
  refine ⟨u.talk t, hturn, htied', ?_⟩
  by_cases ht : t = t₀
  · subst ht
    rw [Function.update_self]
    exact ⟨countable_turn htied hsmall (hcount w r c hC) hs, hnote w g r c x u htied hquiet hC hs hturn⟩
  · rw [Function.update_of_ne (Ne.symm ht)]
    exact ⟨hsmall, hquiet⟩

theorem whole_rule (t₀ : ℕ) : Pool.Rule (fun _ => jobSpec)
    (fun w g => Tied w g ∧ (g t₀).blocks.length < 2 ^ 16 ∧ (g t₀).skipped = false) serve (Whole t₀) := by
  refine quiet_rule t₀ Talk.skipped (fun w r c hC => (hC rfl).1) fun w g r c x u htied hskipped hC hs hturn => ?_
  rcases hturn.frame.2.1 with hsame | ⟨copies, rfl⟩
  · rw [hsame]
    exact hskipped
  · have hfound := (hC rfl).2 copies rfl
    simp only [serve, Option.map_eq_some_iff, Prod.mk.injEq] at hs
    obtain ⟨y, hy, rfl, rfl⟩ := hs
    cases y with
    | none => exact absurd hy hfound
    | some y =>
      simp only [World.say, Function.update_self, Talk.selected, htied.talk]
      exact hskipped

/-- **Every block once.** In every run of any jobs, whatever maps and reduces fail, in which
`planMaps` finds an active copy of every block of a job and 16 bits can count them: where
the final reduce of the job is ordered, it covers every block of its files once, by the
last order of its map, which succeeded. -/
theorem every_block_once (rounds : ℕ) (jobs : List Submission) (t₀ : ℕ) (es : List (ℕ × Choice))
    (P : Pool Resp Exit Unit World) (hC : Along (Pool.step serve) (fun P x => P.Meets (Whole t₀) x)
      (marta rounds jobs) es)
    (hrun : run (Pool.step serve) (marta rounds jobs) es = some P) (job : Job) (reduce : Reduce)
    (ht : P.At t₀ (.sendReduce true job reduce)) : Covers (P.state.talk t₀) job reduce := by
  have hstart := marta_ok rounds jobs (J := fun w g => Tied w g ∧ (g t₀).blocks.length < 2 ^ 16 ∧
    (g t₀).skipped = false)
    ⟨tied_start, start_small, rfl⟩
  obtain ⟨g, ⟨htied, hsmall, hskipped⟩, hpre⟩ := (Pool.ok_run (whole_rule t₀) hstart hC hrun).pre ht
  rw [htied.talk]
  rcases hpre hsmall with ⟨-, hnot⟩ | hmay
  · cases hnot
  · exact hmay.2.2 rfl hskipped

/-- A copy of a block in a reply. -/
def copyOn (name : CStr) (numBlock : UInt16) : FsCopy := ⟨name, cstr "10.0.0.1", 6001, numBlock⟩

/-- A job without a combiner on one file. -/
def oneFile (id : UInt16) : Submission := ⟨id, false, cstr "/r", [cstr "/a"]⟩

/-- What is decided while a job with one block plans its map. -/
def planOne : List Choice := .blocks [[copyOn (cstr "A") 3]] :: List.replicate 6 .done

/-- What is decided from the result of its map to the order of its reduce. -/
def reduceOne : List Choice := .answer 0 none :: List.replicate 6 .done

theorem every_block_once_one : ∃ P job reduce,
    run (Pool.step serve) (marta 1 [oneFile 1]) ((planOne ++ reduceOne).map (Prod.mk 0)) = some P ∧
      P.At 0 (.sendReduce true job reduce) ∧ reduce.temps.length = 1 ∧ Covers (P.state.talk 0) job reduce := by
  obtain ⟨P, hP, hC, r, hr, x, hx, hlen⟩ :
      ∃ P ∈ run (Pool.step serve) (marta 1 [oneFile 1]) ((planOne ++ reduceOne).map (Prod.mk 0)),
        Along (Pool.step serve) (fun P x => P.Meets (Whole 0) x) (marta 1 [oneFile 1])
          ((planOne ++ reduceOne).map (Prod.mk 0)) ∧
        ∃ r ∈ P.asked 0, ∃ x ∈ r.finalReduce, x.2.temps.length = 1 := by
    decide +kernel
  have ht : P.At 0 (.sendReduce true x.1 x.2) := Req.finalReduce_eq hx ▸ Pool.at_of_asked hr
  exact ⟨P, x.1, x.2, hP, ht, hlen, every_block_once 1 _ 0 _ P hC hP x.1 x.2 ht⟩

/-- As many temporaries as blocks. -/
theorem Covers.length_eq {l : Talk} {job : Job} {reduce : Reduce} (h : Covers l job reduce) :
    (job.covered reduce).length = l.blocks.length := by
  obtain ⟨orders, hperm, hcopies, -⟩ := h.orders
  have hlen := congrArg List.length hcopies
  rw [List.length_map, List.length_map] at hlen
  rw [hperm.length_eq, List.length_map, hlen]

/-- What is decided while a map of another job fails on the node `B`, after the blocks of
the first job are known and before they are planned. -/
def missedBlock : List (ℕ × Choice) :=
  (Choice.blocks [[copyOn (cstr "B") 1]] :: List.replicate 6 Choice.done).map (Prod.mk 1) ++
    [Choice.blocks [[copyOn (cstr "A") 3], [copyOn (cstr "B") 4]], .done, .done].map (Prod.mk 0) ++
    [Choice.answer 0 (some []), .done, .done].map (Prod.mk 1) ++
    (List.replicate 7 Choice.done ++ reduceOne).map (Prod.mk 0)

/-- **A block is lost.** The file of a job has two blocks, and the final reduce covers one. -/
theorem skipped_block : ∃ P job reduce, run (Pool.step serve) (marta 1 [oneFile 1, oneFile 2]) missedBlock = some P ∧
    P.At 0 (.sendReduce true job reduce) ∧ ¬Covers (P.state.talk 0) job reduce := by
  obtain ⟨P, hP, r, hr, x, hx, hlen⟩ : ∃ P ∈ run (Pool.step serve) (marta 1 [oneFile 1, oneFile 2]) missedBlock,
      ∃ r ∈ P.asked 0, ∃ x ∈ r.finalReduce, (x.1.covered x.2).length ≠ (P.state.talk 0).blocks.length := by
    decide +kernel
  have ht : P.At 0 (.sendReduce true x.1 x.2) := Req.finalReduce_eq hx ▸ Pool.at_of_asked hr
  exact ⟨P, x.1, x.2, hP, ht, fun hall => hlen hall.length_eq⟩

/-! ## Nothing outstanding -/

/-- The start of `rePlanMapsFromNode`. -/
def Req.startsReplan : Req → Bool
  | .mark .replan _ => true
  | _ => false

/-- **`rePlanMapsFromNode` of job `t₀` is not started again** after a map found no active
copy, and 16 bits can count the job's blocks. -/
def OneAttempt (t₀ t : ℕ) (w : World) (r : Req) (c : Choice) : Prop := t = t₀ →
  Countable w t r c ∧ (r.startsReplan = true → (w.talk t).stranded = false)

instance (t₀ t : ℕ) (w : World) (r : Req) (c : Choice) : Decidable (OneAttempt t₀ t w r c) :=
  inferInstanceAs (Decidable (t = t₀ → Countable w t r c ∧ (r.startsReplan = true → _)))

theorem oneAttempt_rule (t₀ : ℕ) : Pool.Rule (fun _ => jobSpec)
    (fun w g => Tied w g ∧ (g t₀).blocks.length < 2 ^ 16 ∧ (g t₀).late = false) serve (OneAttempt t₀) := by
  refine quiet_rule t₀ Talk.late (fun w r c hC => (hC rfl).1) fun w g r c x u htied hlate hC hs hturn => ?_
  rcases hturn.frame.2.2.1 with hsame | ⟨job, rfl⟩
  · rw [hsame]
    exact hlate
  · have hstranded := (hC rfl).2 rfl
    rw [htied.talk] at hstranded
    simp only [serve, Option.some.injEq, Prod.mk.injEq] at hs
    obtain ⟨-, rfl⟩ := hs
    simp only [World.say, Function.update_self, Talk.marked, hstranded, htied.talk, hlate]
    rfl

/-- **What holds of a job at the ends of its phases**: where `planMaps` returns, where
`rePlanMapsFromNode` returns 1 and where a reduce is ordered, no map is outstanding; where
`rePlanMapsFromNode` starts, no reduce is; and a result is waited for only when an order is
without an answer. -/
structure InPhase (P : Pool Resp Exit Unit World) (t : ℕ) : Prop where
  planned : ∀ job, P.At t (.mark .planned job) → Balanced (P.state.talk t) job
  replanned : ∀ job, P.At t (.mark .replanned job) → Balanced (P.state.talk t) job
  reduce : ∀ final job reduce, P.At t (.sendReduce final job reduce) → Balanced (P.state.talk t) job
  replan : ∀ job, P.At t (.mark .replan job) → ∀ r, .reduce r ∉ (P.state.talk t).pending
  recv : P.At t .recv → (P.state.talk t).pending ≠ []

/-- **Nothing outstanding.** In every run of any jobs, whatever maps and reduces fail and in
whatever order the results come, in which a job does not start `rePlanMapsFromNode` again
after a map found no active copy and 16 bits can count its blocks, its phases end with
nothing outstanding. -/
theorem nothing_outstanding (rounds : ℕ) (jobs : List Submission) (t₀ : ℕ) (es : List (ℕ × Choice))
    (P : Pool Resp Exit Unit World)
    (hC : Along (Pool.step serve) (fun P x => P.Meets (OneAttempt t₀) x) (marta rounds jobs) es)
    (hrun : run (Pool.step serve) (marta rounds jobs) es = some P) : InPhase P t₀ := by
  have hstart := marta_ok rounds jobs (J := fun w g => Tied w g ∧ (g t₀).blocks.length < 2 ^ 16 ∧ (g t₀).late = false)
    ⟨tied_start, start_small, rfl⟩
  have hP := Pool.ok_run (oneAttempt_rule t₀) hstart hC hrun
  -- a job that is not late may only ask what the specification allows
  have hmay : ∀ r, P.At t₀ r → (P.state.talk t₀).late = false ∧ MayAsk (P.state.talk t₀) r := by
    intro r ht
    obtain ⟨g, ⟨htied, hsmall, hlate⟩, hpre⟩ := hP.pre ht
    rw [htied.talk]
    rcases hpre hsmall with ⟨hlost, -⟩ | hmay
    · exact absurd (hlost.1.symm.trans hlate) (by decide)
    · exact ⟨hlate, hmay⟩
  exact {
    planned := fun job ht => (hmay _ ht).2
    replanned := fun job ht => (hmay _ ht).2 (hmay _ ht).1
    reduce := fun final job reduce ht => (hmay _ ht).2.2.1
    replan := fun job ht => (hmay _ ht).2
    recv := fun ht => (hmay _ ht).2.2 }

theorem nothing_outstanding_one : ∃ P job reduce,
    run (Pool.step serve) (marta 1 [oneFile 1]) ((planOne ++ reduceOne).map (Prod.mk 0)) = some P ∧
      P.At 0 (.sendReduce true job reduce) ∧ job.mapsDone = 1 ∧ Balanced (P.state.talk 0) job := by
  obtain ⟨P, hP, hC, r, hr, x, hx, hdone⟩ :
      ∃ P ∈ run (Pool.step serve) (marta 1 [oneFile 1]) ((planOne ++ reduceOne).map (Prod.mk 0)),
        Along (Pool.step serve) (fun P x => P.Meets (OneAttempt 0) x) (marta 1 [oneFile 1])
          ((planOne ++ reduceOne).map (Prod.mk 0)) ∧
        ∃ r ∈ P.asked 0, ∃ x ∈ r.finalReduce, x.1.mapsDone = 1 := by
    decide +kernel
  have ht : P.At 0 (.sendReduce true x.1 x.2) := Req.finalReduce_eq hx ▸ Pool.at_of_asked hr
  exact ⟨P, x.1, x.2, hP, ht, hdone, (nothing_outstanding 1 _ 0 _ P hC hP).reduce true x.1 x.2 ht⟩

/-- The job where `rePlanMapsFromNode` returns 1. -/
def Req.replannedJob : Req → Option Job
  | .mark .replanned job => some job
  | _ => none

theorem Req.replannedJob_eq {r : Req} {job : Job} (h : r.replannedJob = some job) : r = .mark .replanned job := by
  unfold Req.replannedJob at h
  split at h
  · cases h
    rfl
  · cases h

/-- A job with a combiner on one file. -/
def combined : Submission := ⟨1, true, cstr "/r", [cstr "/a"]⟩

/-- What is decided while both partial reduces fail, on `A` and on `B`. The only copy of the
first block is on `A`; the second one has a copy on `C` as well. -/
def twoFallen : List Choice :=
  [Choice.blocks [[copyOn (cstr "A") 3], [copyOn (cstr "B") 4, copyOn (cstr "C") 5]], Choice.done, Choice.done,
    Choice.done] ++
    List.replicate 10 Choice.done ++ [Choice.answer 0 none, Choice.done, Choice.answer 0 none, Choice.done,
      Choice.done] ++
    List.replicate 6 Choice.done ++
    [Choice.answer 0 (some (cstr "A")), Choice.done, Choice.done, Choice.answer 0 (some (cstr "B")),
      Choice.done, Choice.done] ++
    -- the maps of `A`, and then those of `B`
    List.replicate 3 Choice.done ++ List.replicate 6 Choice.done ++ [Choice.answer 0 none, Choice.done]

/-- **The count is one short.** Both maps have succeeded, and `mapsDone` is one. -/
theorem count_short : ∃ P job, run (Pool.step serve) (marta 1 [combined]) (twoFallen.map (Prod.mk 0)) = some P ∧
    P.At 0 (.mark .replanned job) ∧ job.mapsDone = 1 ∧
    (job.maps.map fun m => lastResult (P.state.talk 0).history m.id) = [some true, some true] ∧ ¬InPhase P 0 := by
  obtain ⟨P, hP, r, hr, job, hjob, hdone, hresults, hcount⟩ :
      ∃ P ∈ run (Pool.step serve) (marta 1 [combined]) (twoFallen.map (Prod.mk 0)), ∃ r ∈ P.asked 0,
        ∃ job ∈ r.replannedJob, job.mapsDone = 1 ∧
          (job.maps.map fun m => lastResult (P.state.talk 0).history m.id) = [some true, some true] ∧
          job.mapsDone.toNat ≠ job.maps.countP fun m => lastResult (P.state.talk 0).history m.id = some true := by
    decide +kernel
  have ht : P.At 0 (.mark .replanned job) := Req.replannedJob_eq hjob ▸ Pool.at_of_asked hr
  exact ⟨P, job, hP, ht, hdone, hresults, fun hall => hcount (hall.replanned job ht).mapsDone⟩

end Mdfs.MaRTA
