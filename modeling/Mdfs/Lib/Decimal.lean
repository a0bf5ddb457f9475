import Mathlib.Data.Nat.Digits.Defs
import Mathlib.Data.UInt

/-!
# Decimal numbers in a text

The bytes of the decimal digits of a number. A number that is followed by something else than a digit is read
back, with what follows it.

* `decimalBytes_injective`, `length_decimalBytes_le_iff`: a number by its digits, and how many there are.
* `decimalBytes_append_inj`: unique readability.
-/

namespace Lib

/-- The decimal digits of a number, as bytes. -/
def decimalBytes (n : ℕ) : List UInt8 := (Nat.repr n).toList.map fun c => c.toNat.toUInt8

variable {m n : ℕ} {b : UInt8}

theorem isDigit_of_mem_repr {c : Char} (h : c ∈ (Nat.repr n).toList) : c.isDigit = true := by
  rw [Nat.toList_repr] at h
  exact Nat.isDigit_of_mem_toDigits (by omega) (by omega) h

/-- A digit is known by its byte. -/
theorem ofNat_toUInt8_of_isDigit {c : Char} (h : c.isDigit = true) : Char.ofNat c.toNat.toUInt8.toNat = c := by
  have hlt : c.toNat < 256 := by
    have hle : c.toNat ≤ 57 := by
      simp only [Char.isDigit, Bool.and_eq_true, decide_eq_true_eq] at h
      exact h.2
    omega
  rw [Nat.toUInt8_eq, UInt8.toNat_ofNat', Nat.mod_eq_of_lt hlt, Char.ofNat_toNat]

theorem decimalBytes_injective (h : decimalBytes m = decimalBytes n) : m = n := by
  have hback : ∀ k : ℕ, (decimalBytes k).map (fun b => Char.ofNat b.toNat) = (Nat.repr k).toList := by
    intro k
    unfold decimalBytes
    rw [List.map_map]
    refine (List.map_congr_left fun c hc => ?_).trans (List.map_id _)
    exact ofNat_toUInt8_of_isDigit (isDigit_of_mem_repr hc)
  have hlist : Nat.toDigits 10 m = Nat.toDigits 10 n := by
    rw [← Nat.toList_repr, ← Nat.toList_repr, ← hback m, ← hback n, h]
  rw [← Nat.ofDigitChars_ten_toDigits (n := m), hlist, Nat.ofDigitChars_ten_toDigits]

/-- The bytes are those of digits. -/
theorem isDigit_of_mem_decimalBytes (h : b ∈ decimalBytes n) : (Char.ofNat b.toNat).isDigit = true := by
  obtain ⟨c, hc, rfl⟩ := List.mem_map.1 h
  have hdigit := isDigit_of_mem_repr hc
  rw [ofNat_toUInt8_of_isDigit hdigit]
  exact hdigit

/-- `e + 1` digits are enough for the numbers below `10 ^ (e + 1)`. -/
theorem length_decimalBytes_le_iff (e : ℕ) : (decimalBytes n).length ≤ e + 1 ↔ n < 10 ^ (e + 1) := by
  have hdigits : (decimalBytes n).length = (Nat.toDigits 10 n).length := by
    rw [decimalBytes, List.length_map, Nat.toList_repr]
  rw [hdigits]
  clear hdigits
  induction e generalizing n with
  | zero =>
    rw [Nat.toDigits_eq_if (by omega)]
    split
    · simpa
    · have hpos := List.length_pos_of_ne_nil (Nat.toDigits_ne_nil (b := 10) (n := n / 10))
      simp
      omega
  | succ e ih =>
    rw [Nat.toDigits_eq_if (by omega)]
    split
    · rename_i hlt
      have hpow : 10 ≤ 10 ^ (e + 1 + 1) := Nat.le_self_pow (by omega) 10
      simp
      omega
    · have hstep : n / 10 < 10 ^ (e + 1) ↔ n < 10 ^ (e + 1 + 1) := by
        rw [Nat.div_lt_iff_lt_mul (by omega), ← Nat.pow_succ]
      rw [List.length_append, List.length_singleton]
      exact Nat.add_le_add_iff_right.trans (ih.trans hstep)

/-- **A number is read back** from a text in which something else than a digit follows it. -/
theorem decimalBytes_append_inj {c : UInt8} (hc : (Char.ofNat c.toNat).isDigit = false) {xs ys : List UInt8}
    (h : decimalBytes m ++ c :: xs = decimalBytes n ++ c :: ys) : m = n ∧ xs = ys := by
  have hread : ∀ (k : ℕ) (zs : List UInt8),
      (decimalBytes k ++ c :: zs).span (fun b => (Char.ofNat b.toNat).isDigit) = (decimalBytes k, c :: zs) := by
    intro k zs
    rw [List.span_eq_takeWhile_dropWhile, List.takeWhile_append_of_pos fun b hb => isDigit_of_mem_decimalBytes hb,
      List.dropWhile_append_of_pos fun b hb => isDigit_of_mem_decimalBytes hb, List.takeWhile_cons,
        List.dropWhile_cons, hc]
    simp
  have hpair := (hread m xs).symm.trans ((congrArg _ h).trans (hread n ys))
  obtain ⟨hdigits, hrest⟩ := Prod.mk.inj hpair
  exact ⟨decimalBytes_injective hdigits, (List.cons.inj hrest).2⟩

end Lib
