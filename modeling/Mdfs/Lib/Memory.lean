import Mathlib.Data.List.Basic
import Mathlib.Data.Int.Notation

/-!
# A memory of bytes

A memory gives a byte to every address. `write m a bs` puts the bytes `bs` from
address `a` on, and `read m a n` gives the `n` bytes from `a` on.

* `read_write_self`, `read_write_apart`: what is read after a write.
* `write_append`: two writes one after the other, as one.
-/

namespace Lib

/-- The byte at each address. -/
abbrev Memory := ℤ → UInt8

namespace Memory

variable {m : Memory} {a b i : ℤ} {bs cs : List UInt8} {n k : ℕ}

def write (m : Memory) (a : ℤ) (bs : List UInt8) : Memory := fun i =>
  if a ≤ i ∧ i < a + bs.length then bs.getD (i - a).toNat 0 else m i

def read (m : Memory) (a : ℤ) (n : ℕ) : List UInt8 := (List.range n).map fun j : ℕ => m (a + j)

@[simp] theorem length_read : (m.read a n).length = n := by simp [read]

/-- A write changes its own bytes only. -/
theorem write_off (h : i < a ∨ a + bs.length ≤ i) : m.write a bs i = m i := by
  unfold write
  rw [if_neg]
  omega

theorem write_at {j : ℕ} (h : j < bs.length) : m.write a bs (a + j) = bs[j] := by
  have hj : (a + (j : ℤ) - a).toNat = j := by omega
  unfold write
  rw [if_pos (by omega), hj]
  simp [h]

theorem read_write_self : (m.write a bs).read a bs.length = bs := by
  refine List.ext_getElem (by simp) fun j h _ => ?_
  have hj : j < bs.length := by simpa using h
  simp only [read, List.getElem_map, List.getElem_range]
  exact write_at hj

/-- Bytes apart from a write are read as before. -/
theorem read_write_apart (h : a + n ≤ b ∨ b + bs.length ≤ a) : (m.write b bs).read a n = m.read a n := by
  refine List.map_congr_left fun j hj => write_off ?_
  have hj' : j < n := List.mem_range.1 hj
  omega

theorem read_add : m.read a (n + k) = m.read a n ++ m.read (a + n) k := by
  simp only [read, List.range_add, List.map_append, List.map_map]
  refine congrArg _ (List.map_congr_left fun j _ => ?_)
  have hj : a + ((n + j : ℕ) : ℤ) = a + n + j := by omega
  simp only [Function.comp_apply, hj]

theorem write_append : (m.write a bs).write (a + bs.length) cs = m.write a (bs ++ cs) := by
  funext i
  by_cases h1 : i < a + bs.length
  · rw [write_off (Or.inl h1)]
    by_cases h0 : a ≤ i
    · have hi : (i - a).toNat < bs.length := by omega
      unfold write
      rw [if_pos ⟨h0, h1⟩, if_pos ⟨h0, by simp; omega⟩]
      simp [List.getD_eq_getElem?_getD, List.getElem?_append_left hi]
    · rw [write_off (Or.inl (by omega)), write_off (Or.inl (by omega))]
  · by_cases h2 : i < a + bs.length + cs.length
    · have hi : bs.length ≤ (i - a).toNat := by omega
      have hsub : (i - a).toNat - bs.length = (i - (a + bs.length)).toNat := by omega
      unfold write
      rw [if_pos ⟨by omega, h2⟩, if_pos ⟨by omega, by simp; omega⟩]
      simp [List.getD_eq_getElem?_getD, List.getElem?_append_right hi, hsub]
    · have hlen : ((bs ++ cs).length : ℤ) = bs.length + cs.length := by simp
      rw [write_off (Or.inr (by omega)), write_off (Or.inr (by omega)), write_off (Or.inr (by omega))]

end Memory

end Lib
