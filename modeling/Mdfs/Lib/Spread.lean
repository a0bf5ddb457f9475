import Mathlib.Algebra.Order.BigOperators.Group.List
import Mathlib.Data.List.Perm.Subperm
import Mathlib.Tactic.Ring

/-!
# Spreading copies over places

Things are put in places one after the other, each in `k` different places, and a place holds
no more than a number of them. `Room k n counts` says that places with these numbers left have
room for `n` things: a place takes each thing once, so it counts for no more than `n`.

* `Room.step`, `Room.of_step`: a thing put where most is left keeps room for the others, and
  nothing else is needed.
* `Spread.room`: things that are spread had room.
-/

namespace Lib

variable {ι : Type*} {k n m a : ℕ} {counts counts' most rest : List ℕ}

/-- **Room for `n` things** in `k` different places each. -/
def Room (k n : ℕ) (counts : List ℕ) : Prop := k * n ≤ (counts.map fun c => min c n).sum

instance (k n : ℕ) (counts : List ℕ) : Decidable (Room k n counts) := inferInstanceAs (Decidable (_ ≤ _))

theorem Room.perm (h : counts.Perm counts') : Room k n counts ↔ Room k n counts' := by
  unfold Room
  rw [(h.map fun c => min c n).sum_eq]

theorem room_zero (k : ℕ) (counts : List ℕ) : Room k 0 counts := by
  unfold Room
  rw [Nat.mul_zero]
  exact Nat.zero_le _

/-! ## Sums over lists -/

theorem sum_le_length_mul {f : ℕ → ℕ} (h : ∀ c ∈ counts, f c ≤ m) : (counts.map f).sum ≤ counts.length * m := by
  have hsum := List.sum_le_card_nsmul (counts.map f) m (List.forall_mem_map.2 h)
  rwa [List.length_map, Nat.nsmul_eq_mul] at hsum

theorem length_mul_le_sum {f : ℕ → ℕ} (h : ∀ c ∈ counts, m ≤ f c) : counts.length * m ≤ (counts.map f).sum := by
  have hsum := List.card_nsmul_le_sum (counts.map f) m (List.forall_mem_map.2 h)
  rwa [List.length_map, Nat.nsmul_eq_mul] at hsum

/-- One term that is nothing leaves room for as much as a term can be. -/
theorem sum_add_le_length_mul {f : ℕ → ℕ} (h : ∀ c ∈ counts, f c ≤ m) (ha : a ∈ counts) (hzero : f a = 0) :
    (counts.map f).sum + m ≤ counts.length * m := by
  obtain ⟨before, after, rfl⟩ := List.append_of_mem ha
  have hbefore := sum_le_length_mul fun c hc => h c (List.mem_append_left _ hc)
  have hafter := sum_le_length_mul fun c hc => h c (List.mem_append_right _ (List.mem_cons_of_mem a hc))
  have hlen : (before ++ a :: after).length * m = before.length * m + after.length * m + m := by
    rw [List.length_append, List.length_cons]
    ring
  rw [hlen, List.map_append, List.map_cons, List.sum_append, List.sum_cons, hzero]
  omega

/-! ## One thing more -/

/-- **Where there is room, the places where most is left** are enough for a thing, and each of
them has something left. -/
theorem Room.top (h : Room k (n + 1) (most ++ rest)) (hlen : most.length ≤ k) (hrest : rest ≠ [] → most.length = k)
    (hsorted : ∀ a ∈ most, ∀ b ∈ rest, b ≤ a) : most.length = k ∧ ∀ a ∈ most, 0 < a := by
  have hmin : ∀ c ∈ most, min c (n + 1) ≤ n + 1 := fun c _ => Nat.min_le_right c (n + 1)
  unfold Room at h
  rw [List.map_append, List.sum_append] at h
  have hk : most.length = k := by
    by_cases hempty : rest = []
    · have hle := sum_le_length_mul hmin
      rw [hempty, List.map_nil, List.sum_nil, Nat.add_zero] at h
      have hmul : k * (n + 1) ≤ most.length * (n + 1) := h.trans hle
      have hge := Nat.le_of_mul_le_mul_right hmul (Nat.succ_pos n)
      omega
    · exact hrest hempty
  refine ⟨hk, fun a ha => Nat.pos_of_ne_zero fun hzero => ?_⟩
  -- nothing is left behind a place where nothing is left
  have hnone : (rest.map fun c => min c (n + 1)).sum ≤ rest.length * 0 := by
    apply sum_le_length_mul
    intro b hb
    have hb0 := hsorted a ha b hb
    omega
  have hless := sum_add_le_length_mul hmin ha (by rw [hzero, Nat.zero_min])
  rw [hk] at hless
  omega

/-- Each place counts for one less at most, when one is taken from all of them. -/
theorem sum_min_succ_le (most : List ℕ) (n : ℕ) : (most.map fun c => min c (n + 1)).sum ≤
    (most.map ((fun c => min c n) ∘ fun c => c - 1)).sum + most.length := by
  induction most with
  | nil => simp
  | cons a most ih =>
    simp only [List.map_cons, List.sum_cons, List.length_cons, Function.comp_apply] at ih ⊢
    omega

/-- **A thing put where most is left** keeps room for the others. -/
theorem Room.step (h : Room k (n + 1) (most ++ rest)) (hlen : most.length = k)
    (hsorted : ∀ a ∈ most, ∀ b ∈ rest, b ≤ a) :
    Room k n (most.map (fun c => c - 1) ++ rest) := by
  unfold Room at h ⊢
  rw [List.map_append, List.sum_append] at h ⊢
  rw [List.map_map]
  by_cases hfull : ∃ b ∈ rest, n + 1 ≤ b
  · -- then there is enough left in these places alone
    obtain ⟨b, hb, hbn⟩ := hfull
    have henough : most.length * n ≤ (most.map ((fun c => min c n) ∘ fun c => c - 1)).sum := by
      apply length_mul_le_sum
      intro a ha
      have hab := hsorted a ha b hb
      simp only [Function.comp_apply]
      omega
    rw [hlen] at henough
    omega
  · -- then all of the rest counts as before, and each of these places for one less at most
    have hsame : rest.map (fun c => min c n) = rest.map fun c => min c (n + 1) := by
      apply List.map_congr_left
      intro b hb
      have hbn : b < n + 1 := by
        by_contra hge
        exact hfull ⟨b, hb, Nat.le_of_not_lt hge⟩
      omega
    have htop := sum_min_succ_le most n
    have hmul : k * (n + 1) = k * n + k := by ring
    rw [hsame]
    omega

/-- **A thing put anywhere** used no more than there was room for. -/
theorem Room.of_step (h : Room k n (most.map (fun c => c - 1) ++ rest)) (hlen : most.length = k)
    (hpos : ∀ a ∈ most, 0 < a) :
    Room k (n + 1) (most ++ rest) := by
  unfold Room at h ⊢
  rw [List.map_append, List.sum_append] at h ⊢
  rw [List.map_map] at h
  have htop : (most.map ((fun c => min c n) ∘ fun c => c - 1)).sum + most.length ≤
      (most.map fun c => min c (n + 1)).sum := by
    clear h hlen
    induction most with
    | nil => simp
    | cons a most ih =>
      have ha := hpos a List.mem_cons_self
      have hrest := ih fun x hx => hpos x (List.mem_cons_of_mem a hx)
      simp only [List.map_cons, List.sum_cons, List.length_cons, Function.comp_apply] at hrest ⊢
      omega
  have hrest : (rest.map fun c => min c n).sum ≤ (rest.map fun c => min c (n + 1)).sum := by
    clear h
    induction rest with
    | nil => simp
    | cons b rest ih =>
      simp only [List.map_cons, List.sum_cons]
      omega
  have hmul : k * (n + 1) = k * n + k := by ring
  omega

/-! ## Things that are spread -/

variable [DecidableEq ι] {places : List ι} {free : ι → ℕ} {copies : List (List ι)}

/-- **Things spread over places**: the copies of each are in `k` different places, and no place
has more than it can hold. -/
structure Spread (k : ℕ) (places : List ι) (free : ι → ℕ) (copies : List (List ι)) : Prop where
  length : ∀ cs ∈ copies, cs.length = k
  apart : ∀ cs ∈ copies, cs.Nodup
  within : ∀ cs ∈ copies, ∀ i ∈ cs, i ∈ places
  fits : ∀ i ∈ places, (copies.countP fun cs => decide (i ∈ cs)) ≤ free i

/-- The copies of a thing, counted place by place. -/
theorem length_eq_countP (hplaces : places.Nodup) {cs : List ι} (hcs : cs.Nodup) (hsub : ∀ i ∈ cs, i ∈ places) :
    cs.length = places.countP fun i => decide (i ∈ cs) := by
  have hperm : (places.filter fun i => decide (i ∈ cs)).Perm cs := by
    rw [List.perm_ext_iff_of_nodup (hplaces.filter _) hcs]
    intro i
    rw [List.mem_filter, decide_eq_true_eq]
    exact ⟨fun h => h.2, fun h => ⟨hsub i h, h⟩⟩
  rw [List.countP_eq_length_filter, hperm.length_eq]

/-- All the copies, counted thing by thing and place by place. -/
theorem sum_countP (places : List ι) (copies : List (List ι)) :
    (copies.map fun cs => places.countP fun i => decide (i ∈ cs)).sum =
      (places.map fun i => copies.countP fun cs => decide (i ∈ cs)).sum := by
  induction places with
  | nil => simp
  | cons i places ih =>
    rw [List.map_cons, List.sum_cons, ← ih]
    clear ih
    induction copies with
    | nil => simp
    | cons cs copies ih =>
      simp only [List.map_cons, List.sum_cons, List.countP_cons] at ih ⊢
      omega

/-- **Things that are spread had room.** -/
theorem Spread.room (h : Spread k places free copies) (hplaces : places.Nodup) :
    Room k copies.length (places.map free) := by
  have hall : (copies.map fun cs => places.countP fun i => decide (i ∈ cs)).sum = k * copies.length := by
    have hone : copies.map (fun cs => places.countP fun i => decide (i ∈ cs)) = copies.map fun _ => k := by
      apply List.map_congr_left
      intro cs hcs
      rw [← length_eq_countP hplaces (h.apart cs hcs) (h.within cs hcs)]
      exact h.length cs hcs
    rw [hone]
    simp [Nat.mul_comm]
  unfold Room
  rw [← hall, sum_countP, List.map_map]
  apply List.sum_le_sum
  intro i hi
  exact le_min (h.fits i hi) List.countP_le_length

end Lib
