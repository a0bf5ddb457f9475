import Mathlib.Data.UInt
import Mathlib.Data.Int.ModEq
import Mdfs.Lib.Decimal
import Mdfs.Utils.Commons

/-!
# Numbers in texts

`strtoul` with base 10, where `unsigned long` has 64 bits: blanks, a sign, and digits; a number that does not fit
gives the largest one and sets `errno`, and a minus sign negates within the 64 bits.

`written` is the integer that a text is written as. A number that `strtoul` reads to the end of the text is that
integer modulo `2 ^ 64` (`strtoul_read`).
-/

namespace Mdfs

/-- `isspace`. -/
def isspace (b : UInt8) : Bool := b = 32 || (9 ≤ b && b ≤ 13)

/-- `isdigit`. -/
def isdigit (b : UInt8) : Bool := 48 ≤ b && b ≤ 57

/-- The value of decimal digits. -/
def digitsValue (digits : CStr) : ℕ := digits.foldl (fun n b => 10 * n + (b.toNat - 48)) 0

/-- Whether a sign is a minus, and what follows it. -/
def readSign (s : CStr) : Bool × CStr :=
  if s.head? = some 45 then (true, s.tail) else if s.head? = some 43 then (false, s.tail) else (false, s)

/-- The value of a number with its sign, in 64 bits. -/
def signedValue (negative : Bool) (digits : CStr) : UInt64 :=
  if negative then -(digitsValue digits).toUInt64 else (digitsValue digits).toUInt64

/-- What `strtoul` returns, what it leaves in its second argument, and whether it sets `errno`. Without digits nothing
is read. -/
structure Strtoul where
  val : UInt64
  tail : CStr
  errno : Bool

/-- `strtoul`. -/
def strtoul (string : CStr) : Strtoul :=
  let (negative, s) := readSign (string.dropWhile isspace)
  let digits := s.takeWhile isdigit
  if digits = [] then ⟨0, string, false⟩
  else if 2 ^ 64 ≤ digitsValue digits then ⟨UInt64.ofNat (2 ^ 64 - 1), s.dropWhile isdigit, true⟩
  else ⟨signedValue negative digits, s.dropWhile isdigit, false⟩

/-- **The integer that a text is written as.** -/
def written (string : CStr) : Option ℤ :=
  let (negative, digits) := readSign (string.dropWhile isspace)
  if digits ≠ [] ∧ digits.all isdigit = true then some (if negative then -digitsValue digits
    else digitsValue digits) else none

theorem toNat_signedValue {negative : Bool} {digits : CStr} (h : digitsValue digits < 2 ^ 64) :
    ((signedValue negative digits).toNat : ℤ) = (if negative then -(digitsValue digits : ℤ)
      else digitsValue digits) % 2 ^ 64 := by
  have hnat : (digitsValue digits).toUInt64.toNat = digitsValue digits := by
    rw [Nat.toUInt64_eq, UInt64.toNat_ofNat', Nat.mod_eq_of_lt h]
  unfold signedValue
  cases negative with
  | false =>
    simp only [Bool.false_eq_true, if_false, hnat]
    omega
  | true =>
    have hsize : UInt64.size = 18446744073709551616 := rfl
    simp only [if_true, UInt64.toNat_neg, hnat, hsize]
    omega

/-- **What `strtoul` reads to the end** of a text is the integer that the text is written as, modulo `2 ^ 64`. -/
theorem strtoul_read {string : CStr} (herrno : (strtoul string).errno = false) (hread : (strtoul string).tail ≠ string)
    (htail : (strtoul string).tail = []) : ∃ n, written string = some n ∧
      ((strtoul string).val.toNat : ℤ) = n % 2 ^ 64 := by
  unfold strtoul at *
  unfold written
  generalize readSign (string.dropWhile isspace) = x at *
  obtain ⟨negative, s⟩ := x
  dsimp only at *
  by_cases hdigits : s.takeWhile isdigit = []
  · rw [if_pos hdigits] at hread
    exact absurd rfl hread
  · rw [if_neg hdigits] at *
    by_cases hlarge : 2 ^ 64 ≤ digitsValue (s.takeWhile isdigit)
    · rw [if_pos hlarge] at herrno
      cases herrno
    · rw [if_neg hlarge] at *
      -- the digits are all there is
      have hall : s.takeWhile isdigit = s := by
        have hsplit := List.takeWhile_append_dropWhile (p := isdigit) (l := s)
        dsimp only at htail
        rw [htail, List.append_nil] at hsplit
        exact hsplit
      rw [hall] at hdigits hlarge ⊢
      have hdigit : s.all isdigit = true := by
        rw [← hall]
        exact List.all_eq_true.2 fun b hb => List.mem_takeWhile_imp hb
      refine ⟨_, if_pos ⟨hdigits, hdigit⟩, ?_⟩
      exact toNat_signedValue (by omega)

/-! ## Decimal digits -/

open Lib

variable {n : ℕ} {b : UInt8}

/-- The byte of a digit has its number. -/
theorem toNat_of_isDigit {c : Char} (h : c.isDigit = true) : c.toNat.toUInt8.toNat = c.toNat ∧
    48 ≤ c.toNat ∧ c.toNat ≤ 57 := by
  obtain ⟨hlo, hhi⟩ := Char.isDigit_iff_toNat.1 h
  have hzero : '0'.toNat = 48 := rfl
  have hnine : '9'.toNat = 57 := rfl
  have hbyte : c.toNat.toUInt8.toNat = c.toNat := by
    rw [Nat.toUInt8_eq, UInt8.toNat_ofNat', Nat.mod_eq_of_lt (by omega)]
  exact ⟨hbyte, by omega, by omega⟩

theorem isdigit_of_mem_decimalBytes (h : b ∈ decimalBytes n) : isdigit b = true := by
  obtain ⟨c, hc, rfl⟩ := List.mem_map.1 h
  obtain ⟨hbyte, hlo, hhi⟩ := toNat_of_isDigit (isDigit_of_mem_repr hc)
  have hle : 48 ≤ c.toNat.toUInt8 := UInt8.le_iff_toNat_le.2 (hlo.trans_eq hbyte.symm)
  have hge : c.toNat.toUInt8 ≤ 57 := UInt8.le_iff_toNat_le.2 (hbyte.trans_le hhi)
  unfold isdigit
  rw [decide_eq_true hle, decide_eq_true hge]
  rfl

theorem isspace_of_isdigit (h : isdigit b = true) : isspace b = false := by
  unfold isdigit at h
  rw [Bool.and_eq_true, decide_eq_true_eq, decide_eq_true_eq] at h
  have hlo : 48 ≤ b.toNat := UInt8.le_iff_toNat_le.1 h.1
  have hne : b ≠ 32 := fun heq => by
    rw [heq] at hlo
    exact absurd hlo (by decide)
  have hle : ¬b ≤ 13 := fun hle => by
    have hnat : b.toNat ≤ 13 := UInt8.le_iff_toNat_le.1 hle
    omega
  simp [isspace, hne, hle]

theorem decimalBytes_ne_nil (n : ℕ) : decimalBytes n ≠ [] := by
  intro h
  have hlist := congrArg List.length h
  rw [decimalBytes, List.length_map, Nat.toList_repr] at hlist
  exact Nat.toDigits_ne_nil (List.length_eq_zero_iff.1 hlist)

/-- The value of the digits of a number. -/
theorem digitsValue_decimalBytes (n : ℕ) : digitsValue (decimalBytes n) = n := by
  have hvalue : ∀ (cs : List Char) (m : ℕ), (∀ c ∈ cs, c.isDigit = true) →
      (cs.map fun c => c.toNat.toUInt8).foldl (fun n b => 10 * n + (b.toNat - 48)) m = Nat.ofDigitChars 10 cs m := by
    intro cs
    induction cs with
    | nil => exact fun m _ => Nat.ofDigitChars_nil.symm
    | cons c cs ih =>
      intro m hcs
      have hc := (toNat_of_isDigit (hcs c List.mem_cons_self)).1
      rw [List.map_cons, List.foldl_cons, hc, ih _ fun d hd => hcs d (List.mem_cons_of_mem c hd),
        Nat.ofDigitChars_cons]
      rfl
  unfold digitsValue decimalBytes
  rw [hvalue _ 0 fun c hc => isDigit_of_mem_repr hc, Nat.toList_repr, Nat.ofDigitChars_ten_toDigits]

/-- **A number is read back from its digits.** -/
theorem written_decimalBytes (n : ℕ) : written (decimalBytes n) = some (n : ℤ) := by
  obtain ⟨b, bs, heq⟩ := List.exists_cons_of_ne_nil (decimalBytes_ne_nil n)
  have hb : isdigit b = true := isdigit_of_mem_decimalBytes (n := n) (heq ▸ List.mem_cons_self)
  have hspace : (decimalBytes n).dropWhile isspace = decimalBytes n := by
    rw [heq, List.dropWhile_cons_of_neg (by simp [isspace_of_isdigit hb])]
  have hsign : readSign (decimalBytes n) = (false, decimalBytes n) := by
    have hminus : b ≠ 45 := fun h => absurd (h ▸ hb) (by decide)
    have hplus : b ≠ 43 := fun h => absurd (h ▸ hb) (by decide)
    rw [heq]
    simp [readSign, hminus, hplus]
  unfold written
  rw [hspace, hsign]
  dsimp only
  rw [if_pos ⟨decimalBytes_ne_nil n, List.all_eq_true.2 fun _ hc => isdigit_of_mem_decimalBytes hc⟩,
    if_neg Bool.false_ne_true, digitsValue_decimalBytes]

end Mdfs
