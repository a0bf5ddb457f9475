import Mathlib.Data.List.Basic

/-!
# Strings in arrays of a declared size

A `Sized size` is a string that an array of `size` elements holds, with its terminator.
What is written behind it may not fit any more, and what is printed into an array may be
cut off.

* `put_bind_append`: a string that is written piece by piece fits exactly if the whole does.
-/

namespace Lib

/-- What can go wrong with an array: it is written past its end, or the text is cut off at it. -/
inductive Misfit
  | overrun
  | cut
  deriving DecidableEq

variable {α : Type}

/-- **A string in an array**: there is room for one element more, the terminator. -/
structure Sized (α : Type) (size : ℕ) where
  text : List α
  fits : text.length < size
  deriving DecidableEq

namespace Sized

/-- A string is copied into an array. -/
def put (size : ℕ) (s : List α) : Except Misfit (Sized α size) :=
  if h : s.length < size then .ok ⟨s, h⟩ else .error .overrun

/-- A string is written behind the one in the array. -/
def append {size : ℕ} (dest : Sized α size) (s : List α) : Except Misfit (Sized α size) := put size (dest.text ++ s)

/-- A text is printed into an array, as far as it goes. -/
def print (size : ℕ) (s : List α) : Except Misfit (Sized α size) :=
  if h : s.length < size then .ok ⟨s, h⟩ else .error .cut

variable {size : ℕ} {s t : List α}

theorem put_of_lt (h : s.length < size) : put size s = .ok ⟨s, h⟩ := dif_pos h

theorem put_of_le (h : size ≤ s.length) : put size s = .error .overrun := dif_neg (Nat.not_lt.2 h)

theorem print_of_lt (h : s.length < size) : print size s = .ok ⟨s, h⟩ := dif_pos h

/-- **A string in two pieces** is written as the whole is. -/
theorem put_bind_append (size : ℕ) (s t : List α) : (put size s >>= fun dest => dest.append t) = put size (s ++ t) := by
  by_cases h : s.length < size
  · rw [put_of_lt h]
    rfl
  · have hlong : size ≤ (s ++ t).length := by
      rw [List.length_append]
      omega
    rw [put_of_le (by omega), put_of_le hlong]
    rfl

end Sized

end Lib
