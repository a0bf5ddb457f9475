import Mdfs.Lib.Pool
import Mathlib.Data.UInt

/-!
# The ids of the jobs

`acceptJob` increments `cantJobs` under a mutex, and reads it for the id of the job after
the mutex is released. So the id of a job may be that of a job that was accepted later.
The names of temporary files are made from these ids.

* `counted_step`: the counter counts the jobs that were accepted, as long as 16 bits can.
* `ids_distinct`: the ids are distinct exactly when `cantJobs` is never read twice without
  an increment in between.
* `same_id`: two jobs with the id 2.
-/

namespace Mdfs.MaRTA

open Lib

/-- What `acceptJob` does to `cantJobs`. -/
inductive CountReq
  /-- `cantJobs++`, under `McantJobs`. -/
  | increment
  /-- `cantJobs` is read. -/
  | read
  deriving DecidableEq

abbrev CountResp : CountReq → Type
  | .increment => Unit
  | .read => UInt16

/-- `cantJobs`. The code does not know whether it `wasRead` since it was last incremented. -/
structure Counter where
  cantJobs : UInt16
  wasRead : Bool

def serveCount (_ : ℕ) : Handler CountResp Counter Unit
  | w, .increment, _ => some ((), ⟨w.cantJobs + 1, false⟩)
  | w, .read, _ => some (w.cantJobs, { w with wasRead := true })

/-- `acceptJob` up to the call of `desserializeJob`: the id that it passes on. -/
def acceptJobId : Prog CountResp Empty UInt16 := do
  Prog.ask .increment .ret
  Prog.ask .read .ret

/-- A pool of threads of `acceptJob`. -/
abbrev Accepting := Pool CountResp Empty UInt16 Counter

/-- `n` jobs have connected. -/
def accepting (n : ℕ) : Accepting := ⟨⟨0, false⟩, List.replicate n acceptJobId⟩

/-- The id that was given to a job. -/
def idOf (P : Accepting) (t : ℕ) : Option UInt16 :=
  match P.threads[t]? with
  | some (.ret id) => some id
  | _ => none

/-- **Different jobs have different ids.** -/
def DistinctIds (P : Accepting) : Prop := ∀ t t' id, idOf P t = some id → idOf P t' = some id → t = t'

/-- A read comes after an increment that no read has come after. -/
def FirstRead (_ : ℕ) (w : Counter) (r : CountReq) (_ : Unit) : Prop := r = .read → w.wasRead = false

instance (t : ℕ) (w : Counter) (r : CountReq) (i : Unit) : Decidable (FirstRead t w r i) :=
  inferInstanceAs (Decidable (_ → _))

/-! ## The counter -/

/-- The thread has incremented `cantJobs`. -/
def accepted : Prog CountResp Empty UInt16 → Bool
  | .ask .increment _ => false
  | _ => true

/-- **The counter** counts the jobs that were accepted, and bounds the ids that were given. -/
structure Counted (n : ℕ) (P : Accepting) : Prop where
  length : P.threads.length = n
  count : P.state.cantJobs.toNat = P.threads.countP accepted
  shape : ∀ p ∈ P.threads, p = acceptJobId ∨ p = .ask .read .ret ∨ ∃ id, p = .ret id
  bound : ∀ t id, idOf P t = some id → id ≤ P.state.cantJobs
  fresh : P.state.wasRead = false → ∀ t id, idOf P t = some id → id ≠ P.state.cantJobs
  given : P.state.wasRead = true → ∃ t, idOf P t = some P.state.cantJobs

variable {n t t' : ℕ} {P P' : Accepting} {id : UInt16} {p : Prog CountResp Empty UInt16}

theorem idOf_eq_some : idOf P t = some id ↔ P.threads[t]? = some (.ret id) := by
  unfold idOf
  constructor
  · intro h
    split at h
    · rename_i hp
      cases h
      exact hp
    · cases h
  · intro h
    rw [h]

theorem counted_start (n : ℕ) : Counted n (accepting n) := by
  have hid : ∀ t id, idOf (accepting n) t ≠ some id := by
    intro t id h
    have hmem := List.mem_of_getElem? (idOf_eq_some.1 h)
    cases (List.mem_replicate.1 hmem).2
  have hcount : (accepting n).threads.countP accepted = 0 := by
    rw [List.countP_eq_zero]
    intro p hp
    rw [(List.mem_replicate.1 hp).2]
    exact Bool.false_ne_true
  exact {
    length := List.length_replicate
    count := hcount.symm
    shape := fun p hp => Or.inl (List.mem_replicate.1 hp).2
    bound := fun t id h => absurd h (hid t id)
    fresh := fun _ t id h => absurd h (hid t id)
    given := fun h => by cases h }

/-- **What a step is**: a thread increments the counter, or reads it. -/
theorem count_cases (h : Counted n P) (hs : P.step serveCount (t, ()) = some P') :
    P.threads[t]? = some acceptJobId ∧ P' = ⟨⟨P.state.cantJobs + 1, false⟩, P.threads.set t (.ask .read .ret)⟩ ∨
      P.threads[t]? = some (.ask .read .ret) ∧
        P' = ⟨⟨P.state.cantJobs, true⟩, P.threads.set t (.ret P.state.cantJobs)⟩ := by
  obtain ⟨r, k, x, u, ht, hserve, rfl⟩ := Pool.step_eq_some.1 hs
  rcases h.shape _ (List.mem_of_getElem? ht) with hp | hp | ⟨id, hp⟩
  · cases hp
    cases hserve
    exact Or.inl ⟨ht, rfl⟩
  · cases hp
    cases hserve
    exact Or.inr ⟨ht, rfl⟩
  · cases hp

/-- The id of another thread stays. -/
theorem idOf_set_of_ne (h : t' ≠ t) (w : Counter) : idOf ⟨w, P.threads.set t p⟩ t' = idOf P t' := by
  unfold idOf
  rw [List.getElem?_set_ne (Ne.symm h)]

theorem idOf_set_self (hlt : t < P.threads.length) (w : Counter) (id : UInt16) :
    idOf ⟨w, P.threads.set t (.ret id)⟩ t = some id := by
  unfold idOf
  rw [List.getElem?_set_self hlt]

/-- A thread that goes on to read has no id. -/
theorem idOf_set_reading (hlt : t < P.threads.length) (w : Counter) :
    idOf ⟨w, P.threads.set t (.ask .read .ret)⟩ t = none := by
  unfold idOf
  rw [List.getElem?_set_self hlt]

/-- The threads are as they were, but for one. -/
theorem shape_set (h : Counted n P) (hp : p = acceptJobId ∨ p = .ask .read .ret ∨ ∃ id, p = .ret id) :
    ∀ q ∈ P.threads.set t p, q = acceptJobId ∨ q = .ask .read .ret ∨ ∃ id, q = .ret id := by
  intro q hq
  rcases List.mem_or_eq_of_mem_set hq with hq | rfl
  · exact h.shape q hq
  · exact hp

/-- After an increment, the ids that were given are those of before. -/
theorem idOf_reading (ht : P.threads[t]? = some acceptJobId) (w : Counter)
    (hid : idOf ⟨w, P.threads.set t (.ask .read .ret)⟩ t' = some id) : idOf P t' = some id := by
  have hlt := (List.getElem?_eq_some_iff.1 ht).1
  have hne : t' ≠ t := by
    rintro rfl
    rw [idOf_set_reading hlt] at hid
    cases hid
  rwa [idOf_set_of_ne hne] at hid

/-- **An increment**: the ids that were given are below the counter now. -/
theorem Counted.increment (hn : n < 65536) (h : Counted n P) (ht : P.threads[t]? = some acceptJobId) :
    Counted n ⟨⟨P.state.cantJobs + 1, false⟩, P.threads.set t (.ask .read .ret)⟩ := by
  obtain ⟨hlt, hget⟩ := List.getElem?_eq_some_iff.1 ht
  have hset : (P.threads.set t (.ask .read .ret)).countP accepted = P.threads.countP accepted + 1 := by
    rw [List.countP_set hlt, hget]
    rfl
  have hle : (P.threads.set t (.ask .read .ret)).countP accepted ≤ n := by
    have hcount := List.countP_le_length (p := accepted) (l := P.threads.set t (.ask .read .ret))
    rwa [List.length_set, h.length] at hcount
  -- as many increments as jobs, so the counter does not come round
  have hnext : (P.state.cantJobs + 1).toNat = P.state.cantJobs.toNat + 1 := by
    have hcount := h.count
    rw [UInt16.toNat_add, UInt16.toNat_one]
    omega
  have hbelow : ∀ t' id, idOf ⟨⟨P.state.cantJobs + 1, false⟩, P.threads.set t (.ask .read .ret)⟩ t' = some id →
      id.toNat < (P.state.cantJobs + 1).toNat := by
    intro t' id hid
    have hold := UInt16.le_iff_toNat_le.1 (h.bound t' id (idOf_reading ht _ hid))
    omega
  exact {
    length := by rw [List.length_set, h.length]
    count := by rw [hset, ← h.count]; exact hnext
    shape := shape_set h (Or.inr (Or.inl rfl))
    bound := fun t' id hid => UInt16.le_iff_toNat_le.2 (hbelow t' id hid).le
    fresh := fun _ t' id hid heq => by
      have hlt := hbelow t' id hid
      rw [heq] at hlt
      exact absurd hlt (lt_irrefl _)
    given := fun hread => by cases hread }

/-- **A read**: the thread has the counter for its id. -/
theorem Counted.read (h : Counted n P) (ht : P.threads[t]? = some (.ask .read .ret)) :
    Counted n ⟨⟨P.state.cantJobs, true⟩, P.threads.set t (.ret P.state.cantJobs)⟩ := by
  obtain ⟨hlt, hget⟩ := List.getElem?_eq_some_iff.1 ht
  have hset : (P.threads.set t (.ret P.state.cantJobs)).countP accepted = P.threads.countP accepted := by
    have hpos : 0 < P.threads.countP accepted := by
      refine List.countP_pos_iff.2 ⟨_, List.mem_of_getElem? ht, rfl⟩
    rw [List.countP_set hlt, hget]
    change P.threads.countP accepted - 1 + 1 = _
    omega
  exact {
    length := by rw [List.length_set, h.length]
    count := by rw [hset, ← h.count]
    shape := shape_set h (Or.inr (Or.inr ⟨_, rfl⟩))
    bound := by
      intro t' id hid
      by_cases hne : t' = t
      · subst hne
        rw [idOf_set_self hlt] at hid
        cases hid
        exact UInt16.le_refl P.state.cantJobs
      · rw [idOf_set_of_ne hne] at hid
        exact h.bound t' id hid
    fresh := fun hread => by cases hread
    given := fun _ => ⟨t, idOf_set_self hlt _ _⟩ }

/-- **One step keeps the count**, of fewer jobs than 16 bits can count. -/
theorem counted_step (hn : n < 65536) (h : Counted n P) (hs : P.step serveCount (t, ()) = some P') : Counted n P' := by
  rcases count_cases h hs with ⟨ht, rfl⟩ | ⟨ht, rfl⟩
  · exact h.increment hn ht
  · exact h.read ht

/-! ## The ids -/

/-- **A first read gives an id that no job has.** -/
theorem distinct_step (h : Counted n P) (hd : DistinctIds P) (hC : P.Meets FirstRead (t, ()))
    (hs : P.step serveCount (t, ()) = some P') : DistinctIds P' := by
  rcases count_cases h hs with ⟨ht, rfl⟩ | ⟨ht, rfl⟩
  · exact fun t₁ t₂ id h₁ h₂ => hd t₁ t₂ id (idOf_reading ht _ h₁) (idOf_reading ht _ h₂)
  · have hlt := (List.getElem?_eq_some_iff.1 ht).1
    have hfirst : P.state.wasRead = false := hC.at ⟨_, ht⟩ rfl
    -- no other thread has the id that is read
    have hnew : ∀ t', t' ≠ t → idOf ⟨⟨P.state.cantJobs, true⟩, P.threads.set t (.ret P.state.cantJobs)⟩ t' ≠
        some P.state.cantJobs := by
      intro t' hne hid
      rw [idOf_set_of_ne hne] at hid
      exact h.fresh hfirst t' _ hid rfl
    intro t₁ t₂ id h₁ h₂
    by_cases h1 : t₁ = t
    · subst h1
      rw [idOf_set_self hlt] at h₁
      cases h₁
      by_contra hne
      exact hnew t₂ (Ne.symm hne) h₂
    · by_cases h2 : t₂ = t
      · subst h2
        rw [idOf_set_self hlt] at h₂
        cases h₂
        exact absurd h₁ (hnew t₁ h1)
      · rw [idOf_set_of_ne h1] at h₁
        rw [idOf_set_of_ne h2] at h₂
        exact hd t₁ t₂ id h₁ h₂

/-- An id that was given stays. -/
theorem idOf_step (h : Counted n P) (hid : idOf P t' = some id) (hs : P.step serveCount (t, ()) = some P') :
    idOf P' t' = some id := by
  have hne : ∀ p, P.threads[t]? = some p → (∀ id, p ≠ .ret id) → t' ≠ t := by
    rintro p hp hret rfl
    rw [idOf_eq_some.1 hid] at hp
    exact hret id (Option.some.inj hp).symm
  rcases count_cases h hs with ⟨ht, rfl⟩ | ⟨ht, rfl⟩
  · rw [idOf_set_of_ne (hne _ ht fun _ h => by cases h)]
    exact hid
  · rw [idOf_set_of_ne (hne _ ht fun _ h => by cases h)]
    exact hid

/-- Two jobs that have one id go on to have it. -/
theorem not_distinct_run (hn : n < 65536) {es : List (ℕ × Unit)} (h : Counted n P)
    (hrun : run (Pool.step serveCount) P es = some P') (hnot : ¬DistinctIds P) : ¬DistinctIds P' := by
  unfold DistinctIds at hnot
  push Not at hnot
  obtain ⟨t₁, t₂, id, h₁, h₂, hne⟩ := hnot
  have hkept := run_inv (C := fun _ _ => True)
    (I := fun P => Counted n P ∧ idOf P t₁ = some id ∧ idOf P t₂ = some id)
    (fun P x P' hP _ hs => ⟨counted_step hn hP.1 hs, idOf_step hP.1 hP.2.1 hs, idOf_step hP.1 hP.2.2 hs⟩)
    ⟨h, h₁, h₂⟩ along_true hrun
  exact fun hd => hne (hd t₁ t₂ id hkept.2.1 hkept.2.2)

/-- A second read gives an id that a job has. -/
theorem second_read (h : Counted n P) (hs : P.step serveCount (t, ()) = some P') (hC : ¬P.Meets FirstRead (t, ())) :
    ¬DistinctIds P' := by
  rcases count_cases h hs with ⟨ht, rfl⟩ | ⟨ht, rfl⟩
  · refine absurd ?_ hC
    unfold Pool.Meets
    rw [ht]
    exact fun hread => by cases hread
  · have hlt := (List.getElem?_eq_some_iff.1 ht).1
    have hread : P.state.wasRead = true := by
      by_contra hnot
      refine hC ?_
      unfold Pool.Meets
      rw [ht]
      exact fun _ => Bool.eq_false_iff.2 hnot
    obtain ⟨t', hid⟩ := h.given hread
    have hne : t' ≠ t := by
      rintro rfl
      rw [idOf_eq_some.1 hid] at ht
      cases ht
    intro hd
    refine hne (hd t' t P.state.cantJobs ?_ (idOf_set_self hlt _ _))
    rw [idOf_set_of_ne hne]
    exact hid

/-- **The ids of the jobs are distinct** exactly when `cantJobs` is never read twice without
an increment in between, in every interleaving of fewer than 65536 jobs. -/
theorem ids_distinct (n : ℕ) (hn : n < 65536) (es : List (ℕ × Unit)) (P : Accepting)
    (hrun : run (Pool.step serveCount) (accepting n) es = some P) :
    DistinctIds P ↔ Along (Pool.step serveCount) (fun P x => P.Meets FirstRead x) (accepting n) es := by
  constructor
  · intro hd
    suffices ∀ (es : List (ℕ × Unit)) P₀, Counted n P₀ → run (Pool.step serveCount) P₀ es = some P →
        Along (Pool.step serveCount) (fun P x => P.Meets FirstRead x) P₀ es from this es _ (counted_start n) hrun
    intro es
    induction es with
    | nil => exact fun _ _ _ => trivial
    | cons x es ih =>
      intro P₀ h hrun
      obtain ⟨P₁, hs, hrest⟩ := run_cons.1 hrun
      have h₁ := counted_step hn h hs
      refine along_cons.2 ⟨?_, fun P₂ hs₂ => ?_⟩
      · by_contra hC
        exact not_distinct_run hn h₁ hrest (second_read h hs hC) hd
      · obtain rfl : P₁ = P₂ := Option.some.inj (hs.symm.trans hs₂)
        exact ih P₁ h₁ hrest
  · intro hC
    have hstart : DistinctIds (accepting n) := by
      intro t t' id hid
      have hmem := List.mem_of_getElem? (idOf_eq_some.1 hid)
      cases (List.mem_replicate.1 hmem).2
    exact (run_inv (I := fun P => Counted n P ∧ DistinctIds P)
      (fun P x P' hP hC hs => ⟨counted_step hn hP.1 hs, distinct_step hP.1 hP.2 hC hs⟩)
      ⟨counted_start n, hstart⟩ hC hrun).2

theorem ids_distinct_two : ∃ P, run (Pool.step serveCount) (accepting 2) [(0, ()), (0, ()), (1, ()), (1, ())] = some P ∧
    DistinctIds P := by
  refine ⟨_, rfl, (ids_distinct 2 (by decide) [(0, ()), (0, ()), (1, ()), (1, ())] _ rfl).2 ?_⟩
  decide

/-- **Two jobs with one id**: both increment `cantJobs` before either reads it. -/
theorem same_id : ∃ P, run (Pool.step serveCount) (accepting 2) [(0, ()), (1, ()), (0, ()), (1, ())] = some P ∧
    idOf P 0 = some 2 ∧ idOf P 1 = some 2 ∧ ¬DistinctIds P := by
  refine ⟨_, rfl, rfl, rfl, fun hd => ?_⟩
  exact absurd (hd 0 1 2 rfl rfl) (by decide)

end Mdfs.MaRTA
