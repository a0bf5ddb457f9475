import Mathlib.Data.Option.Basic
import Mathlib.Data.Nat.Notation

/-!
# Forests given by parents

A forest over keys `κ` is a partial function `par`, with a top key `r`.
`Rooted par r a` says that following `par` from `a` reaches `r`; `Under par k a`
that it meets `k` on the way (or that `a` is `k`).

* `Rooted.grow`: more keys with a parent keep what is rooted.
* `Rooted.reparent`: a key that moves below a rooted key which is not under it
  keeps everything rooted.
* `Rooted.prune`: so does the removal of keys from which nothing that is left hangs.
* `Under.prune`: what is left is under what it was.
* `Under.of_closed`: what is closed under parents.
-/

namespace Lib

variable {κ : Type} {par par' : κ → Option κ} {r k p a b : κ}

/-- Following the parents from a key reaches the top. -/
inductive Rooted (par : κ → Option κ) (r : κ) : κ → Prop
  | top : Rooted par r r
  | up {a b : κ} (h : par a = some b) (hb : Rooted par r b) : Rooted par r a

/-- `k` is the key itself, or met by following its parents. -/
inductive Under (par : κ → Option κ) (k : κ) : κ → Prop
  | self : Under par k k
  | up {a b : κ} (h : par a = some b) (hb : Under par k b) : Under par k a

/-- A rooted key other than the top has a rooted parent. -/
theorem Rooted.parent (h : Rooted par r a) (ha : a ≠ r) : ∃ b, par a = some b ∧ Rooted par r b := by
  cases h with
  | top => exact absurd rfl ha
  | up hp hb => exact ⟨_, hp, hb⟩

theorem Rooted.grow (hpar : ∀ a b, par a = some b → par' a = some b) (h : Rooted par r a) : Rooted par' r a := by
  induction h with
  | top => exact .top
  | up hp _ ih => exact .up (hpar _ _ hp) ih

/-- A rooted key above which `k` is not met stays rooted when only `k` changes. -/
theorem Rooted.of_not_under (hpar : ∀ a, a ≠ k → par' a = par a) (h : Rooted par r a) (hk : ¬Under par k a) :
    Rooted par' r a := by
  induction h with
  | top => exact .top
  | @up a b hp _ ih =>
    have ha : a ≠ k := fun he => hk (he ▸ .self)
    exact .up ((hpar a ha).trans hp) (ih fun hb => hk (.up hp hb))

/-- **Moving a key** below one that is not under it. -/
theorem Rooted.reparent (hpar : ∀ a, a ≠ k → par' a = par a) (hk : par' k = some p) (hp : Rooted par r p)
    (hnot : ¬Under par k p) (h : Rooted par r a) : Rooted par' r a := by
  have hp' : Rooted par' r p := hp.of_not_under hpar hnot
  induction h with
  | top => exact .top
  | @up a b hab _ ih =>
    by_cases ha : a = k
    · exact .up (ha ▸ hk) hp'
    · exact .up ((hpar a ha).trans hab) ih

/-- **Removing keys** from which nothing that is left hangs. -/
theorem Rooted.prune {gone : κ → Prop} (hpar : ∀ a, ¬gone a → par' a = par a)
    (hleft : ∀ a b, ¬gone a → par a = some b → ¬gone b) (h : Rooted par r a) (ha : ¬gone a) : Rooted par' r a := by
  induction h with
  | top => exact .top
  | @up a b hab _ ih => exact .up ((hpar a ha).trans hab) (ih (hleft a b ha hab))

/-- A set of keys closed under parents that does not have the top has no rooted key. -/
theorem not_rooted {s : κ → Prop} (hs : ∀ a, s a → ∃ b, par a = some b ∧ s b) (hr : ¬s r) (ha : s a) :
    ¬Rooted par r a := by
  intro h
  induction h with
  | top => exact hr ha
  | up hp _ ih =>
    obtain ⟨b, hb, hsb⟩ := hs _ ha
    exact ih (Option.some.inj (hp.symm.trans hb) ▸ hsb)

/-! ## What is under a key -/

theorem Under.trans (h : Under par k a) (hk : Under par b k) : Under par b a := by
  induction h with
  | self => exact hk
  | up hp _ ih => exact .up hp ih

/-- Keys that are closed under parents have all that is above them. -/
theorem Under.of_closed {s : κ → Prop} (hs : ∀ a b, s a → par a = some b → s b) (h : Under par k a) (ha : s a) :
    s k := by
  induction h with
  | self => exact ha
  | up hp _ ih => exact ih (hs _ _ ha hp)

/-- What is under a key is the key, or under one of its children. -/
theorem under_iff : Under par k a ↔ a = k ∨ ∃ b, par b = some k ∧ Under par b a := by
  constructor
  · intro h
    induction h with
    | self => exact Or.inl rfl
    | @up a b hp _ ih =>
      obtain rfl | ⟨c, hc, hb⟩ := ih
      · exact Or.inr ⟨a, hp, .self⟩
      · exact Or.inr ⟨c, hc, .up hp hb⟩
  · rintro (rfl | ⟨b, hb, h⟩)
    · exact .self
    · exact h.trans (.up hb .self)

/-- With fewer parents there is less under a key. -/
theorem Under.shrink (hpar : ∀ a b, par' a = some b → par a = some b) (h : Under par' k a) : Under par k a := by
  induction h with
  | self => exact .self
  | up hp _ ih => exact .up (hpar _ _ hp) ih

/-- **Removing keys with all that is under them** leaves the others under what they were. -/
theorem Under.prune {gone : κ → Prop} (hpar : ∀ a, ¬gone a → par' a = par a)
    (hdown : ∀ a b, par a = some b → gone b → gone a) (h : Under par k a) (ha : ¬gone a) : Under par' k a := by
  induction h with
  | self => exact .self
  | @up a b hp _ ih => exact .up ((hpar a ha).trans hp) (ih fun hb => ha (hdown a b hp hb))

/-- The key is not met again above it. -/
def Loopless (par : κ → Option κ) (k : κ) : Prop := ∀ b, par k = some b → ¬Under par k b

/-- A key that is not met again is not under its children. -/
theorem Loopless.not_under (h : Loopless par k) (ha : par a = some k) : ¬Under par a k := by
  intro hu
  cases hu with
  | self => exact h k ha .self
  | up hp hb => exact h _ hp (hb.trans (.up ha .self))

/-- Following the parents of `a` ends within `n` steps, without meeting `k`. -/
def clear [DecidableEq κ] (par : κ → Option κ) (k : κ) : ℕ → κ → Bool
  | 0, _ => false
  | n + 1, a => a ≠ k && match par a with
    | some b => clear par k n b
    | none => true

theorem not_under_of_clear [DecidableEq κ] : ∀ {n a}, clear par k n a = true → ¬Under par k a := by
  intro n
  induction n with
  | zero => intro a h; cases h
  | succ n ih =>
    intro a h hu
    simp only [clear, Bool.and_eq_true, decide_eq_true_eq] at h
    cases hu with
    | self => exact h.1 rfl
    | up hp hb =>
      rw [hp] at h
      exact ih h.2 hb

end Lib
