import Mathlib.Data.Option.Basic
import Mathlib.Data.List.Basic

/-!
# Runs of a partial step function

A system is a step function `σ → e → Option σ`: `none` says that the event
cannot happen in the state. `run step s es` is the state after the events `es`,
and `Along step C s es` says that every step of that run satisfies the
condition `C` on the state before it and the event.

* `run_inv`: what every step satisfying `C` keeps, every run along `C` keeps.
* `run_done`: the same, for what is said of the state and of the events so far.
* `run_simulates`: a system whose steps follow those of a total one makes all of its runs.
* `run_budget`: what a counted step takes one of, and no other step any, lasts as long as the count.
* `run_append`: runs compose.
-/

namespace Lib

variable {σ e : Type*} (step : σ → e → Option σ)

/-- The state after the events `es`, if all of them can happen in turn. -/
def run : σ → List e → Option σ
  | s, [] => some s
  | s, x :: es => (step s x).bind fun t => run t es

/-- Every step of the run of `es` from `s` satisfies `C`. -/
def Along (C : σ → e → Prop) : σ → List e → Prop
  | _, [] => True
  | s, x :: es => C s x ∧ ∀ t, step s x = some t → Along C t es

variable {step} {C : σ → e → Prop} {s t u : σ} {es fs : List e}

@[simp] theorem run_nil : run step s [] = some s := rfl

theorem run_cons {x : e} : run step s (x :: es) = some u ↔
    ∃ t, step s x = some t ∧ run step t es = some u := by
  simp [run, Option.bind_eq_some_iff]

theorem run_append : run step s (es ++ fs) = some u ↔
    ∃ t, run step s es = some t ∧ run step t fs = some u := by
  induction es generalizing s with
  | nil => simp
  | cons x es ih => simp only [List.cons_append, run_cons, ih]; grind

/-- A run that cannot be made stops at the first event that cannot happen. -/
theorem run_eq_none : run step s es = none ↔
    ∃ before x rest t, es = before ++ x :: rest ∧ run step s before = some t ∧ step t x = none := by
  constructor
  · induction es generalizing s with
    | nil => intro h; cases h
    | cons x es ih =>
      intro h
      cases ht : step s x with
      | none => exact ⟨[], x, es, s, rfl, rfl, ht⟩
      | some t =>
        rw [run, ht] at h
        obtain ⟨before, y, rest, u, rfl, hbefore, hy⟩ := ih h
        exact ⟨x :: before, y, rest, u, rfl, run_cons.2 ⟨t, ht, hbefore⟩, hy⟩
  · rintro ⟨before, x, rest, t, rfl, hbefore, hx⟩
    by_contra hne
    obtain ⟨u, hu⟩ := Option.ne_none_iff_exists'.1 hne
    obtain ⟨t', ht', hrest⟩ := run_append.1 hu
    obtain ⟨v, hv, -⟩ := run_cons.1 hrest
    have heq : t' = t := Option.some.inj (ht'.symm.trans hbefore)
    rw [heq, hx] at hv
    cases hv

theorem along_cons {x : e} : Along step C s (x :: es) ↔
    C s x ∧ ∀ t, step s x = some t → Along step C t es := Iff.rfl

theorem Along.mono {D : σ → e → Prop} (hCD : ∀ s x, C s x → D s x) (h : Along step C s es) :
    Along step D s es := by
  induction es generalizing s with
  | nil => trivial
  | cons x es ih => exact ⟨hCD _ _ h.1, fun t ht => ih (h.2 t ht)⟩

theorem along_true : Along step (fun _ _ => True) s es := by
  induction es generalizing s with
  | nil => trivial
  | cons x es ih => exact ⟨trivial, fun t _ => ih⟩

/-- What holds of every event holds along the run. -/
theorem along_of_mem {P : e → Prop} (h : ∀ x ∈ es, P x) : Along step (fun _ x => P x) s es := by
  induction es generalizing s with
  | nil => trivial
  | cons x es ih => exact ⟨h x List.mem_cons_self, fun t _ => ih fun y hy => h y (List.mem_cons_of_mem x hy)⟩

theorem Along.and {D : σ → e → Prop} (hC : Along step C s es) (hD : Along step D s es) :
    Along step (fun s x => C s x ∧ D s x) s es := by
  induction es generalizing s with
  | nil => trivial
  | cons x es ih => exact ⟨⟨hC.1, hD.1⟩, fun t ht => ih (hC.2 t ht) (hD.2 t ht)⟩

instance decidableAlong [∀ s x, Decidable (C s x)] : (s : σ) → (es : List e) → Decidable (Along step C s es)
  | _, [] => .isTrue trivial
  | s, x :: es =>
    match hx : step s x with
    | none => decidable_of_iff (C s x) (by simp [Along, hx])
    | some t =>
      have : Decidable (Along step C t es) := decidableAlong t es
      decidable_of_iff (C s x ∧ Along step C t es) (by simp [Along, hx])

/-- **The run rule.** An invariant kept by every step that satisfies `C` holds
after every run along `C`. -/
theorem run_inv {I : σ → Prop} (hstep : ∀ s x t, I s → C s x → step s x = some t → I t) :
    ∀ {es s t}, I s → Along step C s es → run step s es = some t → I t := by
  intro es
  induction es with
  | nil => intro s t hI _ ht; cases ht; exact hI
  | cons x es ih =>
    intro s u hI hC hu
    obtain ⟨t, ht, hu⟩ := run_cons.1 hu
    exact ih (hstep s x t hI hC.1 ht) (hC.2 t ht) hu

/-- **The run rule with the events so far.** What every step keeps of its state and of the
events that led there holds after every run. -/
theorem run_done {I : List e → σ → Prop} (hstep : ∀ done s x t, I done s → step s x = some t → I (done ++ [x]) t) :
    ∀ {es done s t}, I done s → run step s es = some t → I (done ++ es) t := by
  intro es
  induction es with
  | nil =>
    intro done s t hI ht
    cases ht
    rwa [List.append_nil]
  | cons x es ih =>
    intro done s u hI hu
    obtain ⟨t, ht, hu⟩ := run_cons.1 hu
    have hI' := ih (hstep done s x t hI ht) hu
    rwa [List.append_assoc, List.singleton_append] at hI'

/-- The number of steps of the run that `P` picks, on the state before each. -/
def countAlong (step : σ → e → Option σ) (P : σ → e → Bool) : σ → List e → ℕ
  | _, [] => 0
  | s, x :: es => (P s x).toNat + match step s x with
    | some t => countAlong step P t es
    | none => 0

theorem countAlong_cons {P : σ → e → Bool} {x : e} (h : step s x = some t) :
    countAlong step P s (x :: es) = (P s x).toNat + countAlong step P t es := by
  rw [countAlong, h]

/-- **The budget rule.** Where a step that `P` picks takes one at most and the others none, a run takes one at
most for each step picked. -/
theorem run_budget {I : ℕ → σ → Prop} {P : σ → e → Bool}
    (hstep : ∀ k s x t, I (k + (P s x).toNat) s → C s x → step s x = some t → I k t) :
    ∀ {es k s t}, I (k + countAlong step P s es) s → Along step C s es → run step s es = some t → I k t := by
  intro es
  induction es with
  | nil => intro k s t hI _ ht; cases ht; exact hI
  | cons x es ih =>
    intro k s u hI hC hu
    obtain ⟨t, ht, hu⟩ := run_cons.1 hu
    rw [countAlong_cons ht, Nat.add_comm (P s x).toNat, ← Nat.add_assoc] at hI
    exact ih (hstep _ s x t hI hC.1 ht) (hC.2 t ht) hu

/-- **The simulation rule.** A system that can follow every step of a total one, and then stands for the state
it leads to, can make every run. -/
theorem run_simulates {τ : Type*} {next : τ → e → τ} {R : τ → σ → Prop}
    (hstep : ∀ a s x, R a s → ∃ t, step s x = some t ∧ R (next a x) t) :
    ∀ {es a s}, R a s → ∃ t, run step s es = some t ∧ R (es.foldl next a) t := by
  intro es
  induction es with
  | nil => intro a s hR; exact ⟨s, rfl, hR⟩
  | cons x es ih =>
    intro a s hR
    obtain ⟨t, ht, hRt⟩ := hstep a s x hR
    obtain ⟨u, hu, hRu⟩ := ih hRt
    exact ⟨u, run_cons.2 ⟨t, ht, hu⟩, hRu⟩

end Lib
