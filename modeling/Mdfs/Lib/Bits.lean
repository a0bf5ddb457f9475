import Mathlib.Data.Finset.Card
import Mathlib.Data.Finset.Range
import Mathlib.Data.List.Basic
import Mathlib.Data.Int.Notation
import Mathlib.Order.Bounds.Basic

/-!
# Finite sets kept in a bit array

A bit array as its users know it: bytes, and operations that set, clean and test one bit.
`Lawful` says that they do this to the addressed bit only. Nothing is promised of a bit
past the bytes: the checked operations `setBit?`, `cleanBit?` and `testBit?` are `none`
there.

`Holds a n S` says that the first `n` bits of `a` are in its bytes and are those of the
set `S`.

* `holds_create`, `setBit?_holds`, `cleanBit?_holds`, `testBit?_eq`: the operations, on sets.
* `card_clearOf`, `card_clearOf_insert`: the clear ones of `n` bits.
-/

namespace Lib

/-- The operations of a bit array. -/
structure BitOps (α : Type) where
  create : List UInt8 → α
  size : α → ℕ
  testBit : α → ℕ → Bool
  setBit : α → ℕ → α
  cleanBit : α → ℕ → α

namespace BitOps

variable {α : Type} {B : BitOps α} {a : α} {n : ℕ} {S : Finset ℕ}

/-- The addressed bit only is set, cleaned and tested. -/
structure Lawful (B : BitOps α) : Prop where
  size_create : ∀ data, B.size (B.create data) = data.length
  size_setBit : ∀ a i, B.size (B.setBit a i) = B.size a
  size_cleanBit : ∀ a i, B.size (B.cleanBit a i) = B.size a
  testBit_create : ∀ n i, i < 8 * n → B.testBit (B.create (List.replicate n 0)) i = false
  testBit_setBit : ∀ a i j, i < 8 * B.size a → j < 8 * B.size a →
    B.testBit (B.setBit a i) j = (B.testBit a j || decide (j = i))
  testBit_cleanBit : ∀ a i j, i < 8 * B.size a → j < 8 * B.size a →
    B.testBit (B.cleanBit a i) j = (B.testBit a j && decide (j ≠ i))

/-- Bit `i` is in the bytes of `a`. -/
abbrev Inside (B : BitOps α) (a : α) (i : ℤ) : Prop := 0 ≤ i ∧ i < 8 * (B.size a : ℤ)

def setBit? (B : BitOps α) (a : α) (i : ℤ) : Option α :=
  if B.Inside a i then some (B.setBit a i.toNat) else none

def cleanBit? (B : BitOps α) (a : α) (i : ℤ) : Option α :=
  if B.Inside a i then some (B.cleanBit a i.toNat) else none

def testBit? (B : BitOps α) (a : α) (i : ℤ) : Option Bool :=
  if B.Inside a i then some (B.testBit a i.toNat) else none

/-- The first `n` bits of `a` are in its bytes and are those of `S`. -/
structure Holds (B : BitOps α) (a : α) (n : ℕ) (S : Finset ℕ) : Prop where
  room : n ≤ 8 * B.size a
  lt : ∀ i ∈ S, i < n
  testBit : ∀ i < n, B.testBit a i = decide (i ∈ S)

theorem Holds.inside (h : B.Holds a n S) {i : ℕ} (hi : i < n) : B.Inside a i := by
  have hroom := h.room
  omega

theorem holds_create (hB : B.Lawful) {k : ℕ} (h : n ≤ 8 * k) :
    B.Holds (B.create (List.replicate k 0)) n ∅ := by
  refine ⟨?_, fun i hi => absurd hi (Finset.notMem_empty i), fun i hi => ?_⟩
  · rw [hB.size_create, List.length_replicate]
    exact h
  · have hbit := hB.testBit_create k i (by omega)
    simpa using hbit

theorem testBit?_eq (h : B.Holds a n S) {i : ℕ} (hi : i < n) : B.testBit? a i = some (decide (i ∈ S)) := by
  unfold testBit?
  rw [if_pos (h.inside hi), Int.toNat_natCast, h.testBit i hi]

theorem setBit?_holds (hB : B.Lawful) (h : B.Holds a n S) {i : ℕ} (hi : i < n) :
    ∃ a', B.setBit? a i = some a' ∧ B.size a' = B.size a ∧ B.Holds a' n (insert i S) := by
  have hroom := h.room
  have hsize := hB.size_setBit a i
  refine ⟨B.setBit a i, ?_, hsize, ?_, ?_, ?_⟩
  · unfold setBit?
    rw [if_pos (h.inside hi), Int.toNat_natCast]
  · rw [hsize]
    exact hroom
  · intro j hj
    obtain rfl | hj := Finset.mem_insert.1 hj
    · exact hi
    · exact h.lt j hj
  · intro j hj
    rw [hB.testBit_setBit a i j (by omega) (by omega), h.testBit j hj, Bool.eq_iff_iff]
    simp [or_comm]

theorem cleanBit?_holds (hB : B.Lawful) (h : B.Holds a n S) {i : ℕ} (hi : i < n) :
    ∃ a', B.cleanBit? a i = some a' ∧ B.size a' = B.size a ∧ B.Holds a' n (S.erase i) := by
  have hroom := h.room
  have hsize := hB.size_cleanBit a i
  refine ⟨B.cleanBit a i, ?_, hsize, ?_, ?_, ?_⟩
  · unfold cleanBit?
    rw [if_pos (h.inside hi), Int.toNat_natCast]
  · rw [hsize]
    exact hroom
  · intro j hj
    exact h.lt j (Finset.mem_of_mem_erase hj)
  · intro j hj
    rw [hB.testBit_cleanBit a i j (by omega) (by omega), h.testBit j hj, Bool.eq_iff_iff]
    simp [and_comm]

end BitOps

/-! ## The clear ones of `n` bits -/

section Clear

variable {n i : ℕ} {S : Finset ℕ}

/-- The numbers below `n` that are not in `S`. -/
def clearOf (n : ℕ) (S : Finset ℕ) : Finset ℕ := Finset.range n \ S

@[simp] theorem mem_clearOf : i ∈ clearOf n S ↔ i < n ∧ i ∉ S := by
  simp [clearOf]

theorem card_clearOf (h : ∀ i ∈ S, i < n) : (clearOf n S).card + S.card = n := by
  have hsub : S ⊆ Finset.range n := fun i hi => Finset.mem_range.2 (h i hi)
  have hcard := Finset.card_sdiff_add_card_eq_card hsub
  rwa [Finset.card_range] at hcard

/-- The clear ones, counted one after the other. -/
theorem card_clearOf_eq_countP : (clearOf n S).card = (List.range n).countP fun i => i ∉ S := by
  have hfilter : clearOf n S = (Finset.range n).filter fun i => i ∉ S := by
    ext i
    simp
  rw [hfilter, List.countP_eq_length_filter]
  rfl

theorem clearOf_insert : clearOf n (insert i S) = (clearOf n S).erase i := by
  ext j
  simp only [mem_clearOf, Finset.mem_insert, Finset.mem_erase, not_or]
  tauto

/-- Setting a clear bit leaves one clear bit less. -/
theorem card_clearOf_insert (h : i ∈ clearOf n S) : (clearOf n (insert i S)).card + 1 = (clearOf n S).card := by
  rw [clearOf_insert]
  exact Finset.card_erase_add_one h

end Clear

end Lib
