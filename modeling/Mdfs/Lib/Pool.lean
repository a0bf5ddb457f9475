import Mdfs.Lib.Trace
import Mdfs.Lib.Prog
import Mathlib.Algebra.BigOperators.Group.Finset.Piecewise
import Mathlib.Logic.Function.Basic

/-!
# Programs interleaved over a shared state

A pool is a shared state and a list of threads. A step `(t, i)` serves the
request thread `t` is at, with the outside input `i`; a request that cannot be
served blocks its thread.

`Pool.Ok` is the thread-modular invariant: each thread has a ghost state of its
own, keeps to its own specification from there, and `J` ties the shared state to
all the ghost states. `Pool.Rule` is the one obligation, request by request; from
it `ok_run` gives the invariant after every interleaving whose steps meet `C`.

`total` is what the ghost states of the first `k` threads hold together.
-/

namespace Lib

variable {R : Type} {A : R → Type} {ε α σ ι L : Type}

/-- Threads over a shared state. -/
structure Pool {R : Type} (A : R → Type) (ε α σ : Type) where
  state : σ
  threads : List (Prog A ε α)

namespace Pool

/-- One step of thread `x.1` with input `x.2`; `h t` serves the requests of thread `t`. -/
def step (h : ℕ → Handler A σ ι) (P : Pool A ε α σ) (x : ℕ × ι) : Option (Pool A ε α σ) :=
  match P.threads[x.1]? with
  | some (.ask r k) => (h x.1 P.state r x.2).map fun y => ⟨y.2, P.threads.set x.1 (k y.1)⟩
  | _ => none

/-- The request thread `t` is at. -/
def At (P : Pool A ε α σ) (t : ℕ) (r : R) : Prop := ∃ k, P.threads[t]? = some (.ask r k)

instance At.decidable [DecidableEq R] (P : Pool A ε α σ) (t : ℕ) (r : R) : Decidable (P.At t r) :=
  match h : P.threads[t]? with
  | some (.ask r' k) => decidable_of_iff (r' = r) (by
      unfold At
      rw [h]
      exact ⟨fun hr => ⟨hr ▸ k, by subst hr; rfl⟩, fun ⟨_, hk⟩ => (Prog.ask.inj (Option.some.inj hk)).1⟩)
  | some (.ret _) => .isFalse (by simp [At, h])
  | some (.stop _) => .isFalse (by simp [At, h])
  | none => .isFalse (by simp [At, h])

theorem step_eq_some {h : ℕ → Handler A σ ι} {P P' : Pool A ε α σ} {t : ℕ} {i : ι} :
    P.step h (t, i) = some P' ↔ ∃ r k x u, P.threads[t]? = some (.ask r k) ∧
      h t P.state r i = some (x, u) ∧ P' = ⟨u, P.threads.set t (k x)⟩ := by
  unfold step
  cases hp : P.threads[t]? with
  | none => simp
  | some p =>
    cases p with
    | ret a => simp
    | stop e => simp
    | ask r k =>
      simp only [Option.map_eq_some_iff, Option.some.injEq, Prog.ask.injEq]
      constructor
      · rintro ⟨⟨x, u⟩, hx, rfl⟩; exact ⟨r, k, x, u, ⟨rfl, HEq.rfl⟩, hx, rfl⟩
      · rintro ⟨_, _, x, u, ⟨rfl, hk⟩, hx, rfl⟩; cases hk; exact ⟨(x, u), hx, rfl⟩

/-- The request thread `t` is at, if it is at one. -/
def asked (P : Pool A ε α σ) (t : ℕ) : Option R :=
  match P.threads[t]? with
  | some (.ask r _) => some r
  | _ => none

theorem at_of_asked {P : Pool A ε α σ} {t : ℕ} {r : R} (h : P.asked t = some r) : P.At t r := by
  unfold asked at h
  split at h
  · rename_i r' k hk
    cases h
    exact ⟨k, hk⟩
  · cases h

/-- Why a thread has stopped. -/
def stopped (P : Pool A ε α σ) (t : ℕ) : Option ε :=
  match P.threads[t]? with
  | some (.stop e) => some e
  | _ => none

theorem stop_of_stopped {P : Pool A ε α σ} {t : ℕ} {e : ε} (h : P.stopped t = some e) :
    P.threads[t]? = some (.stop e) := by
  unfold stopped at h
  split at h
  · rename_i e' hstop
    rw [hstop, Option.some.inj h]
  · cases h

/-- The condition `C` on the request a step serves, as a condition on steps. -/
def Meets (C : ℕ → σ → R → ι → Prop) (P : Pool A ε α σ) (x : ℕ × ι) : Prop :=
  match P.threads[x.1]? with
  | some (.ask r _) => C x.1 P.state r x.2
  | _ => True

theorem Meets.at {C : ℕ → σ → R → ι → Prop} {P : Pool A ε α σ} {x : ℕ × ι} (h : P.Meets C x) {r : R}
    (hr : P.At x.1 r) : C x.1 P.state r x.2 := by
  obtain ⟨k, hk⟩ := hr
  simpa only [Meets, hk] using h

instance {C : ℕ → σ → R → ι → Prop} [∀ t s r i, Decidable (C t s r i)] (P : Pool A ε α σ) (x : ℕ × ι) :
    Decidable (P.Meets C x) :=
  match h : P.threads[x.1]? with
  | some (.ask r _) => decidable_of_iff (C x.1 P.state r x.2) (by simp only [Meets, h])
  | some (.ret _) => .isTrue (by simp only [Meets, h])
  | some (.stop _) => .isTrue (by simp only [Meets, h])
  | none => .isTrue (by simp only [Meets, h])

variable (S : ℕ → Spec A L) (Q : ℕ → α → L → Prop) (E : ℕ → ε → L → Prop)
  (J : σ → (ℕ → L) → Prop)

/-- The invariant, with the ghost states `g`. -/
def Held (P : Pool A ε α σ) (g : ℕ → L) : Prop :=
  J P.state g ∧ ∀ t (p : Prog A ε α), P.threads[t]? = some p → p.Ok (S t) (Q t) (E t) (g t)

/-- **The thread-modular invariant.** -/
def Ok (P : Pool A ε α σ) : Prop :=
  ∃ g, J P.state g ∧ ∀ t (p : Prog A ε α), P.threads[t]? = some p → p.Ok (S t) (Q t) (E t) (g t)

/-- **The obligation for one request**: where a thread meets its precondition and
the step meets `C`, the handler's answer is one the thread expects, and `J` holds
again after the thread's own ghost state has moved. -/
def Rule (h : ℕ → Handler A σ ι) (C : ℕ → σ → R → ι → Prop) : Prop :=
  ∀ t s g r i x u, J s g → (S t).pre (g t) r → C t s r i → h t s r i = some (x, u) →
    ∃ m, (S t).post (g t) r x m ∧ J u (Function.update g t m)

variable {S Q E J} {h : ℕ → Handler A σ ι} {C : ℕ → σ → R → ι → Prop} {P P' : Pool A ε α σ}

/-- **One step**, with the ghost states: the thread that asks moves its own. -/
theorem held_step (hR : Rule S J h C) {x : ℕ × ι} {g : ℕ → L} (hP : P.Held S Q E J g) (hC : P.Meets C x)
    (hs : P.step h x = some P') : ∃ r k y m, P.threads[x.1]? = some (.ask r k) ∧
      h x.1 P.state r x.2 = some (y, P'.state) ∧ (S x.1).pre (g x.1) r ∧ (S x.1).post (g x.1) r y m ∧
      P'.Held S Q E J (Function.update g x.1 m) := by
  obtain ⟨t, i⟩ := x
  obtain ⟨r, k, y, u, ht, hy, rfl⟩ := step_eq_some.1 hs
  obtain ⟨hJ, hg⟩ := hP
  have hk := hg t _ ht
  obtain ⟨m, hm, hJ'⟩ := hR t _ g r i y u hJ hk.1 (hC.at ⟨k, ht⟩) hy
  refine ⟨r, k, y, m, ht, hy, hk.1, hm, hJ', fun t' p hp => ?_⟩
  by_cases htt : t' = t
  · subst htt
    have hlt : t' < P.threads.length := (List.getElem?_eq_some_iff.1 ht).1
    simp only [List.getElem?_set_self hlt, Option.some.injEq] at hp
    subst hp
    simpa using hk.2 y m hm
  · simp only [List.getElem?_set_ne (Ne.symm htt)] at hp
    simpa [Function.update_of_ne htt] using hg t' p hp

theorem ok_step (hR : Rule S J h C) {x : ℕ × ι} (hP : P.Ok S Q E J) (hC : P.Meets C x)
    (hs : P.step h x = some P') : P'.Ok S Q E J := by
  obtain ⟨g, hg⟩ := hP
  obtain ⟨r, k, y, m, -, -, -, -, hheld⟩ := held_step hR hg hC hs
  exact ⟨_, hheld⟩

/-- **Every interleaving along `C` keeps the thread-modular invariant.** -/
theorem ok_run (hR : Rule S J h C) {es : List (ℕ × ι)} (hP : P.Ok S Q E J)
    (hC : Along (step h) (fun P x => P.Meets C x) P es) (hr : run (step h) P es = some P') :
    P'.Ok S Q E J :=
  run_inv (fun _ _ _ hP hC hs => ok_step hR hP hC hs) hP hC hr

/-- A run without a condition. -/
theorem along_meets_true {es : List (ℕ × ι)} : Along (step h) (fun P x => P.Meets (fun _ _ _ _ => True) x) P es := by
  refine along_true.mono fun P x _ => ?_
  unfold Meets
  split
  · trivial
  · trivial

/-- The threads of a pool stay the same threads. -/
theorem length_run {es : List (ℕ × ι)} (hr : run (step h) P es = some P') :
    P'.threads.length = P.threads.length := by
  refine run_inv (C := fun _ _ => True) (I := fun P' => P'.threads.length = P.threads.length) ?_ rfl ?_ hr
  · rintro P₁ ⟨t, i⟩ P₂ hlen - hs
    obtain ⟨r, k, y, u, -, -, rfl⟩ := step_eq_some.1 hs
    simpa using hlen
  · exact along_true

/-- What a thread of the pool is about to ask meets its precondition. -/
theorem Ok.pre (hP : P.Ok S Q E J) {t : ℕ} {r : R} (ht : P.At t r) :
    ∃ g, J P.state g ∧ (S t).pre (g t) r := by
  obtain ⟨g, hJ, hg⟩ := hP
  obtain ⟨k, hk⟩ := ht
  exact ⟨g, hJ, (hg t _ hk).1⟩

/-! ## Notes

What is true of a run may depend on an earlier state of it. `noting` lets the handlers write
down what they need of it; this changes no run. -/

section Note

variable {ν : Type} (note : ℕ → σ → (r : R) → A r → ν → ν)

/-- The handlers, with a note that each step may change. -/
def noting (h : ℕ → Handler A σ ι) : ℕ → Handler A (σ × ν) ι :=
  fun t s r i => (h t s.1 r i).map fun y => (y.1, y.2, note t s.1 r y.1 s.2)

def withNote (P : Pool A ε α σ) (v : ν) : Pool A ε α (σ × ν) := ⟨(P.state, v), P.threads⟩

variable {note} {v : ν} {x : ℕ × ι}

/-- A step with a note is a step. -/
theorem step_of_withNote {Q' : Pool A ε α (σ × ν)} (hs : step (noting note h) (P.withNote v) x = some Q') :
    ∃ P' v', step h P x = some P' ∧ Q' = P'.withNote v' := by
  obtain ⟨t, i⟩ := x
  obtain ⟨r, k, y, u, ht, hy, rfl⟩ := step_eq_some.1 hs
  obtain ⟨z, hz, hzu⟩ := Option.map_eq_some_iff.1 hy
  obtain ⟨rfl, rfl⟩ := Prod.mk.inj hzu
  exact ⟨⟨z.2, P.threads.set t (k z.1)⟩, _, step_eq_some.2 ⟨r, k, z.1, z.2, ht, hz, rfl⟩, rfl⟩

theorem step_withNote (note : ℕ → σ → (r : R) → A r → ν → ν) (v : ν) (hs : step h P x = some P') :
    ∃ v', step (noting note h) (P.withNote v) x = some (P'.withNote v') := by
  obtain ⟨t, i⟩ := x
  obtain ⟨r, k, y, u, ht, hy, rfl⟩ := step_eq_some.1 hs
  refine ⟨note t P.state r y v, step_eq_some.2 ⟨r, k, y, (u, note t P.state r y v), ht, ?_, rfl⟩⟩
  change (h t P.state r i).map _ = _
  rw [hy]
  rfl

/-- **Every run is a run with notes.** -/
theorem run_withNote (note : ℕ → σ → (r : R) → A r → ν → ν) (v : ν) {es : List (ℕ × ι)}
    (hr : run (step h) P es = some P') :
    ∃ v', run (step (noting note h)) (P.withNote v) es = some (P'.withNote v') := by
  induction es generalizing P v with
  | nil => cases hr; exact ⟨v, rfl⟩
  | cons x es ih =>
    obtain ⟨P₁, hs, hr⟩ := run_cons.1 hr
    obtain ⟨v₁, hs₁⟩ := step_withNote note v hs
    obtain ⟨v', hr'⟩ := ih v₁ hr
    exact ⟨v', run_cons.2 ⟨_, hs₁, hr'⟩⟩

theorem along_withNote {es : List (ℕ × ι)} (hC : Along (step h) (fun P x => P.Meets C x) P es) :
    Along (step (noting note h)) (fun P x => P.Meets (fun t s r i => C t s.1 r i) x) (P.withNote v) es := by
  induction es generalizing P v with
  | nil => trivial
  | cons x es ih =>
    refine ⟨hC.1, fun Q' hs => ?_⟩
    obtain ⟨P₁, v₁, hs₁, rfl⟩ := step_of_withNote hs
    exact ih (hC.2 P₁ hs₁)

/-- **The rule with notes**, from what a step of the handlers does to the state and to the note. -/
theorem rule_noting {J : σ × ν → (ℕ → L) → Prop} (hR : ∀ t s v g r i x u, J (s, v) g → (S t).pre (g t) r → C t s r i →
    h t s r i = some (x, u) → ∃ m, (S t).post (g t) r x m ∧ J (u, note t s r x v) (Function.update g t m)) :
    Rule S J (noting note h) fun t s r i => C t s.1 r i := by
  rintro t ⟨s, v⟩ g r i x u hJ hpre hC hs
  obtain ⟨⟨y, z⟩, hz, hzu⟩ := Option.map_eq_some_iff.1 hs
  obtain ⟨rfl, rfl⟩ := Prod.mk.inj hzu
  exact hR t s v g r i y z hJ hpre hC hz

theorem ok_withNote {J : σ × ν → (ℕ → L) → Prop} : (P.withNote v).Ok S Q E J ↔ P.Ok S Q E fun s g =>
    J (s, v) g := Iff.rfl

end Note

end Pool

/-! ## What threads hold together -/

section Total

variable {M : Type} [AddCommMonoid M] {k t : ℕ}

/-- What the first `k` threads hold together. -/
def total (k : ℕ) (F : L → M) (g : ℕ → L) : M := ∑ t ∈ Finset.range k, F (g t)

/-- The share of one thread, and the rest. -/
theorem total_split (F : L → M) (g : ℕ → L) (ht : t < k) :
    ∃ rest, total k F g = F (g t) + rest ∧ ∀ l, total k F (Function.update g t l) = F l + rest := by
  have hmem : t ∈ Finset.range k := Finset.mem_range.2 ht
  refine ⟨∑ t' ∈ Finset.range k \ {t}, F (g t'), ?_, fun l => ?_⟩
  · unfold total
    rw [Finset.sdiff_singleton_eq_erase, Finset.add_sum_erase _ (fun t' => F (g t')) hmem]
  · have hupdate : (fun t' => F (Function.update g t l t')) = Function.update (fun t' => F (g t')) t (F l) := by
      funext t'
      by_cases htt : t' = t
      · subst htt
        rw [Function.update_self, Function.update_self]
      · rw [Function.update_of_ne htt, Function.update_of_ne htt]
    unfold total
    rw [hupdate, Finset.sum_update_of_mem hmem]

/-- A thread that holds as much as before. -/
theorem total_congr (F : L → M) (g : ℕ → L) {l : L} (ht : t < k) (hl : F l = F (g t)) :
    total k F (Function.update g t l) = total k F g := by
  obtain ⟨rest, hg, hupdate⟩ := total_split F g ht
  rw [hupdate, hg, hl]

end Total

end Lib
