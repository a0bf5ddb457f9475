import Mathlib.Data.List.Basic
import Mathlib.Data.List.GetD
import Mathlib.Data.List.TakeWhile
import Mathlib.Data.List.Nodup
import Mathlib.Data.List.Perm.Basic

/-!
# C strings and the commons collections

What the four programs use of the C library and of the commons: strings as
their bytes without the terminator, the bit array of `commons/bitarray.h` (which
sets, cleans and tests the addressed bit only), `string_split` (which yields the
non-empty pieces between separators, as `strtok` does) and `list_sort` (whose
order on ties is left open: `ListSort` is any sort that permutes its list and
leaves it ordered by the comparator).
-/

namespace Mdfs

/-- The bytes of a C string, without the terminator. -/
abbrev CStr := List UInt8

/-- The bytes of an ASCII literal of the source. -/
def cstr (s : String) : CStr := s.toList.map fun c => c.toNat.toUInt8

def newline : UInt8 := 10

/-- The ASCII lower case of a byte, as `tolower`. -/
def tolower (b : UInt8) : UInt8 := if 65 ≤ b ∧ b ≤ 90 then b + 32 else b

/-- `string_equals_ignore_case`. -/
def stringEqualsIgnoreCase (s t : CStr) : Bool := s.map tolower = t.map tolower

theorem stringEqualsIgnoreCase_refl (s : CStr) : stringEqualsIgnoreCase s s = true := by
  simp [stringEqualsIgnoreCase]

/-- The string at the start of a buffer: its bytes up to the first zero. -/
def upToNul (s : List UInt8) : CStr := s.takeWhile fun b => b ≠ 0

theorem upToNul_eq {s : CStr} (h : 0 ∉ s) : upToNul s = s := by
  refine List.takeWhile_eq_self_iff.2 fun b hb => ?_
  simp only [ne_eq, decide_eq_true_eq]
  rintro rfl
  exact h hb

theorem zero_not_mem_upToNul (s : List UInt8) : 0 ∉ upToNul s := fun h => by
  simpa using List.mem_takeWhile_imp h

/-! ## Bit arrays -/

/-- `t_bitarray`: `size` bytes of bits. -/
structure Bitarray where
  size : ℕ
  bits : List Bool
  length_bits : bits.length = 8 * size
  deriving DecidableEq

namespace Bitarray

@[ext] theorem ext' {a b : Bitarray} (hs : a.size = b.size) (hb : a.bits = b.bits) : a = b := by
  cases a; cases b; cases hs; cases hb; rfl

/-- `bitarray_create` over `size` zeroed bytes. -/
def zeroed (size : ℕ) : Bitarray := ⟨size, List.replicate (8 * size) false, by simp⟩

def testBit (a : Bitarray) (i : ℕ) : Bool := a.bits.getD i false

def setBit (a : Bitarray) (i : ℕ) : Bitarray := ⟨a.size, a.bits.set i true, by simp [a.length_bits]⟩

def cleanBit (a : Bitarray) (i : ℕ) : Bitarray := ⟨a.size, a.bits.set i false, by simp [a.length_bits]⟩

@[simp] theorem size_zeroed (n : ℕ) : (zeroed n).size = n := rfl
@[simp] theorem size_setBit (a : Bitarray) (i : ℕ) : (a.setBit i).size = a.size := rfl
@[simp] theorem size_cleanBit (a : Bitarray) (i : ℕ) : (a.cleanBit i).size = a.size := rfl

@[simp] theorem testBit_zeroed (n i : ℕ) : (zeroed n).testBit i = false := by
  simp only [testBit, zeroed, List.getD_eq_getElem?_getD, List.getElem?_replicate]
  split <;> rfl

theorem testBit_setBit {a : Bitarray} {i : ℕ} (hi : i < 8 * a.size) (j : ℕ) :
    (a.setBit i).testBit j = (a.testBit j || decide (j = i)) := by
  have hi' : i < a.bits.length := by rw [a.length_bits]; exact hi
  simp only [testBit, setBit, List.getD_eq_getElem?_getD, List.getElem?_set]
  by_cases h : i = j
  · subst h; simp [hi']
  · simp [h, Ne.symm h]

theorem testBit_cleanBit (a : Bitarray) (i j : ℕ) :
    (a.cleanBit i).testBit j = (a.testBit j && decide (j ≠ i)) := by
  simp only [testBit, cleanBit, List.getD_eq_getElem?_getD, List.getElem?_set]
  by_cases h : i = j
  · subst h; simp; split <;> rfl
  · simp [h, Ne.symm h]

theorem lt_of_testBit {a : Bitarray} {i : ℕ} (h : a.testBit i = true) : i < 8 * a.size := by
  by_contra hi
  rw [testBit, List.getD_eq_default _ _ (by rw [a.length_bits]; omega)] at h
  exact Bool.false_ne_true h

/-- A bit array is its size and its bits. -/
theorem eq_of_testBit {a b : Bitarray} (hs : a.size = b.size) (h : ∀ i, a.testBit i = b.testBit i) :
    a = b := by
  refine ext' hs (List.ext_getElem (by rw [a.length_bits, b.length_bits, hs]) fun i h1 h2 => ?_)
  have := h i
  rwa [testBit, testBit, List.getD_eq_getElem _ _ h1, List.getD_eq_getElem _ _ h2] at this

/-- The bits of a byte, the highest one first, as `bitarray.c` counts them. -/
def bitsOf (b : UInt8) : List Bool := (List.range 8).map fun i => b.toNat.testBit (7 - i)

/-- The byte of eight bits. -/
def byteOf (bits : List Bool) : UInt8 := (bits.foldl (fun (v : ℕ) (b : Bool) => v * 2 + b.toNat) 0).toUInt8

/-- The bytes of a bit array. -/
def bytes (a : Bitarray) : List UInt8 := (List.range a.size).map fun k => byteOf ((a.bits.drop (8 * k)).take 8)

/-- `bitarray_create` over bytes that are there. -/
def ofBytes (data : List UInt8) : Bitarray where
  size := data.length
  bits := data.flatMap bitsOf
  length_bits := by
    rw [List.length_flatMap, List.map_congr_left fun b _ => (by simp [bitsOf] : (bitsOf b).length = 8), List.map_const',
      List.sum_replicate_nat, Nat.mul_comm]

theorem bitsOf_byteOf {bits : List Bool} (h : bits.length = 8) : bitsOf (byteOf bits) = bits := by
  have hall : ∀ b0 b1 b2 b3 b4 b5 b6 b7 : Bool,
      bitsOf (byteOf [b0, b1, b2, b3, b4, b5, b6, b7]) = [b0, b1, b2, b3, b4, b5, b6, b7] := by decide +kernel
  rcases bits with _ | ⟨b0, _ | ⟨b1, _ | ⟨b2, _ | ⟨b3, _ | ⟨b4, _ | ⟨b5, _ | ⟨b6, _ | ⟨b7, _ | ⟨b8, rest⟩⟩⟩⟩⟩⟩⟩⟩⟩
  any_goals (simp at h; done)
  exact hall b0 b1 b2 b3 b4 b5 b6 b7

/-- **A bit array is made of its bytes.** -/
theorem ofBytes_bytes (a : Bitarray) : ofBytes a.bytes = a := by
  have hchunks : ∀ n, 8 * n ≤ a.bits.length →
      ((List.range n).map fun k => byteOf ((a.bits.drop (8 * k)).take 8)).flatMap bitsOf = a.bits.take (8 * n) := by
    intro n
    induction n with
    | zero => intro _; rfl
    | succ n ih =>
      intro hn
      have hlen : ((a.bits.drop (8 * n)).take 8).length = 8 := by
        rw [List.length_take, List.length_drop]
        omega
      have hsplit : 8 * (n + 1) = 8 * n + 8 := by omega
      rw [List.range_succ, List.map_append, List.flatMap_append, ih (by omega), List.map_singleton,
        List.flatMap_singleton,
        bitsOf_byteOf hlen, hsplit, List.take_add]
  refine ext' ?_ ?_
  · change a.bytes.length = a.size
    unfold bytes
    rw [List.length_map, List.length_range]
  · change a.bytes.flatMap bitsOf = a.bits
    have hall := hchunks a.size (by rw [a.length_bits])
    rw [← a.length_bits, List.take_length] at hall
    exact hall

end Bitarray

/-! ## Strings -/

/-- The pieces of `s` at the separator `c`, the one being read in `piece`. -/
def pieces (c : UInt8) : CStr → CStr → List CStr
  | [], piece => if piece = [] then [] else [piece]
  | b :: s, piece =>
    if b = c then (if piece = [] then pieces c s [] else piece :: pieces c s [])
    else pieces c s (piece ++ [b])

/-- `string_split`: the non-empty pieces between separators. -/
def stringSplit (s : CStr) (c : UInt8) : List CStr := pieces c s []

theorem ne_nil_of_mem_pieces {c : UInt8} {s piece p : CStr} (h : p ∈ pieces c s piece) : p ≠ [] := by
  induction s generalizing piece with
  | nil => unfold pieces at h; split at h <;> simp_all
  | cons b s ih =>
    unfold pieces at h
    split at h
    · split at h
      · exact ih h
      · rcases List.mem_cons.1 h with rfl | h
        · assumption
        · exact ih h
    · exact ih h

theorem pieces_append (c : UInt8) (p q : CStr) : ∀ piece, pieces c (p ++ c :: q) piece =
    pieces c p piece ++ pieces c q [] := by
  induction p with
  | nil =>
    intro piece
    by_cases hpiece : piece = [] <;> simp [pieces, hpiece]
  | cons b p ih =>
    intro piece
    rw [List.cons_append, pieces, pieces]
    by_cases hb : b = c
    · rw [if_pos hb, if_pos hb, ih]
      split <;> rfl
    · rw [if_neg hb, if_neg hb, ih]

/-- The pieces on the two sides of a separator. -/
theorem stringSplit_append (p q : CStr) (c : UInt8) :
    stringSplit (p ++ c :: q) c = stringSplit p c ++ stringSplit q c :=
  pieces_append c p q []

theorem stringSplit_cons (s : CStr) (c : UInt8) : stringSplit (c :: s) c = stringSplit s c :=
  stringSplit_append [] s c

theorem flatten_pieces (c : UInt8) (s : CStr) : ∀ piece, (pieces c s piece).flatten = piece ++ s.filter fun b =>
    b ≠ c := by
  induction s with
  | nil =>
    intro piece
    by_cases hpiece : piece = [] <;> simp [pieces, hpiece]
  | cons b s ih =>
    intro piece
    rw [pieces]
    by_cases hb : b = c
    · rw [if_pos hb, List.filter_cons_of_neg (by simp [hb])]
      split
      · rename_i hpiece
        rw [ih, hpiece]
      · rw [List.flatten_cons, ih, List.nil_append]
    · rw [if_neg hb, List.filter_cons_of_pos (by simp [hb]), ih, List.append_assoc, List.singleton_append]

/-- The pieces are all there is but the separators. -/
theorem flatten_stringSplit (s : CStr) (c : UInt8) : (stringSplit s c).flatten = s.filter fun b => b ≠ c := by
  unfold stringSplit
  rw [flatten_pieces, List.nil_append]

/-- A string of separators has no pieces. -/
theorem stringSplit_of_all {s : CStr} {c : UInt8} (h : ∀ b ∈ s, b = c) : stringSplit s c = [] := by
  induction s with
  | nil => rfl
  | cons b s ih =>
    obtain rfl : b = c := h b List.mem_cons_self
    rw [stringSplit_cons]
    exact ih fun b' hb' => h b' (List.mem_cons_of_mem b hb')

theorem pieces_of_notMem {c : UInt8} {s : CStr} (h : c ∉ s) :
    ∀ piece, pieces c s piece = if piece ++ s = [] then [] else [piece ++ s] := by
  induction s with
  | nil =>
    intro piece
    rw [List.append_nil]
    rfl
  | cons b s ih =>
    intro piece
    have hb : b ≠ c := fun heq => h (heq ▸ List.mem_cons_self)
    rw [pieces, if_neg hb, ih fun hmem => h (List.mem_cons_of_mem b hmem), List.append_assoc, List.singleton_append]

/-- A string without separators is one piece. -/
theorem stringSplit_of_notMem {s : CStr} {c : UInt8} (hne : s ≠ []) (h : c ∉ s) : stringSplit s c = [s] := by
  unfold stringSplit
  rw [pieces_of_notMem h, List.nil_append, if_neg hne]

/-- No separator is in a piece. -/
theorem notMem_of_mem_stringSplit {s p : CStr} {c : UInt8} (h : p ∈ stringSplit s c) : c ∉ p := by
  intro hmem
  have hflat : c ∈ (stringSplit s c).flatten := List.mem_flatten_of_mem h hmem
  rw [flatten_stringSplit, List.mem_filter] at hflat
  simp at hflat

/-- **The pieces of a start** of a string are all of its pieces just when only separators follow. -/
theorem stringSplit_take {s : CStr} {c : UInt8} {n : ℕ} : stringSplit (s.take n) c = stringSplit s c ↔
    ∀ b ∈ s.drop n, b = c := by
  constructor
  · intro hsame
    have hall := congrArg List.flatten hsame
    rw [flatten_stringSplit, flatten_stringSplit] at hall
    -- what is not a separator is in the start
    have hsplit : s.filter (fun b => b ≠ c) = (s.take n).filter (fun b => b ≠ c) ++ (s.drop n).filter fun b =>
      b ≠ c := by
      rw [← List.filter_append, List.take_append_drop]
    rw [hsplit, List.self_eq_append_right, List.filter_eq_nil_iff] at hall
    intro b hb
    simpa using hall b hb
  · intro hall
    have hsplit : stringSplit s c = stringSplit (s.take n ++ s.drop n) c := by rw [List.take_append_drop]
    rw [hsplit]
    cases hdrop : s.drop n with
    | nil => rw [List.append_nil]
    | cons b q =>
      rw [hdrop] at hall
      obtain rfl : b = c := hall b List.mem_cons_self
      have hq : stringSplit q b = [] := stringSplit_of_all fun b' hb' => hall b' (List.mem_cons_of_mem b hb')
      rw [stringSplit_append, hq, List.append_nil]

/-! ## Sorting -/

/-- `list_sort` with the comparator `before`: it permutes the list, and no
element is followed by one that goes before it. -/
structure ListSort {α : Type} (before : α → α → Bool) where
  sort : List α → List α
  perm : ∀ l, (sort l).Perm l
  sorted : ∀ l, (sort l).Pairwise fun a b => before b a = false

end Mdfs
