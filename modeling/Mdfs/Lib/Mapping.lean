import Mathlib.Data.List.Basic
import Mathlib.Data.List.TakeWhile

/-!
# Files mapped in memory

A file is mapped in whole pages, with zeros behind its end as far as the last page goes;
nothing can be mapped of no length. A string that is read from a mapping has to end
inside it.

* `stringAt_short`, `stringAt_full`: the string at the start of a mapping is the file, for a
  file with no zero that does not fill its pages, and has no end for one that does.
-/

namespace Lib.Mapping

variable {α : Type} [DecidableEq α] {nul : α} {file m s : List α} {page n : ℕ}

/-- `n` bytes in whole pages. -/
def pages (page n : ℕ) : ℕ := (n + page - 1) / page * page

theorem le_pages (h : 0 < page) (n : ℕ) : n ≤ pages page n := by
  have hdiv := Nat.div_add_mod (n + page - 1) page
  have hmod := Nat.mod_lt (n + page - 1) h
  unfold pages
  rw [Nat.mul_comm]
  omega

theorem pages_lt (h : 0 < page) (n : ℕ) : pages page n < n + page := by
  have hle := Nat.div_mul_le_self (n + page - 1) page
  unfold pages
  omega

/-- Only a multiple of the page needs no more than its own length. -/
theorem pages_eq_self (h : 0 < page) : pages page n = n ↔ page ∣ n := by
  constructor
  · intro heq
    rw [← heq]
    exact Nat.dvd_mul_left page _
  · rintro ⟨k, rfl⟩
    have hle := le_pages h (page * k)
    have hlt := pages_lt h (page * k)
    obtain ⟨j, hj⟩ : page ∣ pages page (page * k) := Nat.dvd_mul_left page _
    rw [hj] at hle hlt ⊢
    have h1 : k ≤ j := Nat.le_of_mul_le_mul_left hle h
    have h2 : j < k + 1 := Nat.lt_of_mul_lt_mul_left (a := page) (by rw [Nat.mul_add, Nat.mul_one]; exact hlt)
    rw [show j = k by omega]

/-- **What can be read of a mapping** of the first `length` bytes of a file. -/
def mapped (page : ℕ) (nul : α) (length : ℕ) (file : List α) : Option (List α) :=
  if length = 0 then none
  else some ((file ++ List.replicate (pages page file.length - file.length) nul).take (pages page length))

/-- The string at the start of a mapping, if it ends there. -/
def stringAt (nul : α) (m : List α) : Option (List α) := if nul ∈ m then some (m.takeWhile fun b => b ≠ nul) else none

theorem stringAt_append_nul (h : nul ∉ s) (rest : List α) : stringAt nul (s ++ nul :: rest) = some s := by
  have hall : ∀ b ∈ s, decide (b ≠ nul) = true := by
    intro b hb
    rw [decide_eq_true_eq]
    rintro rfl
    exact h hb
  unfold stringAt
  rw [if_pos (by simp), List.takeWhile_append_of_pos hall, List.takeWhile_cons_of_neg (by simp), List.append_nil]

/-- A string has no zero in it. -/
theorem nul_not_mem_of_stringAt (h : stringAt nul m = some s) : nul ∉ s := by
  unfold stringAt at h
  split at h
  · cases h
    intro hmem
    simpa using List.mem_takeWhile_imp hmem
  · cases h

omit [DecidableEq α] in
/-- The whole file is mapped, with the zeros behind it. -/
theorem mapped_whole (h : 0 < page) (hfile : file ≠ []) : mapped page nul file.length file =
    some (file ++ List.replicate (pages page file.length - file.length) nul) := by
  have hle := le_pages h file.length
  unfold mapped
  rw [if_neg (by simpa using hfile), List.take_of_length_le]
  rw [List.length_append, List.length_replicate]
  omega

/-- A file with no zero that fills its pages has no end. -/
theorem stringAt_full (h : 0 < page) (hnul : nul ∉ file) (hfull : page ∣ file.length) :
    (mapped page nul file.length file).bind (stringAt nul) = none := by
  by_cases hfile : file = []
  · rw [hfile]
    rfl
  · rw [mapped_whole h hfile, (pages_eq_self h).2 hfull, Nat.sub_self, Option.bind_some, List.replicate_zero,
      List.append_nil]
    exact if_neg hnul

/-- A file with no zero that does not fill its pages is read whole. -/
theorem stringAt_short (h : 0 < page) (hnul : nul ∉ file) (hfull : ¬page ∣ file.length) :
    (mapped page nul file.length file).bind (stringAt nul) = some file := by
  have hfile : file ≠ [] := by
    rintro rfl
    exact hfull (Nat.dvd_zero page)
  have hle := le_pages h file.length
  have hne : pages page file.length ≠ file.length := fun heq => hfull ((pages_eq_self h).1 heq)
  obtain ⟨k, hk⟩ : ∃ k, pages page file.length - file.length = k + 1 :=
    ⟨pages page file.length - file.length - 1, by omega⟩
  rw [mapped_whole h hfile, hk, Option.bind_some, List.replicate_succ]
  exact stringAt_append_nul hnul _

end Lib.Mapping
