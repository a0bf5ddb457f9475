import Mathlib.Algebra.BigOperators.Group.Multiset.Basic
import Mathlib.Data.Multiset.Filter
import Mathlib.Data.List.Nodup

/-!
# Runs of one key

A list of entries, each with a key and an amount, is read once, and the amounts of entries that
stand side by side with one key are added up. Where all entries of a key stand side by side,
this gives the total of each key.

* `amountOf_addRuns`, `mem_keys_addRuns`: no amount is lost, and no key.
* `together_of_pairwise`: a sorted list has its keys side by side when what is between two of a
  key is of that key too.
* `addRuns_eq`: sorted lists with the same keys and totals give the same.
-/

namespace Lib

variable {α κ M : Type*}

/-- All that have a key stand side by side. -/
def Together : List κ → Prop
  | [] => True
  | k :: ks => (k ∈ ks → ks.head? = some k) ∧ Together ks

/-- **An order keeps keys together**: between two that have a key there is nothing with another. -/
def KeepsTogether (le : α → α → Prop) (S : α → Prop) (key : α → κ) : Prop :=
  ∀ x y z, S x → S y → S z → le x y → le y z → key x = key z → key y = key x

section Sorted

variable {le : α → α → Prop} {S : α → Prop} {key : α → κ} {xs : List α}

/-- A sorted list has its keys side by side. -/
theorem together_of_pairwise (h : KeepsTogether le S key) (hS : ∀ x ∈ xs, S x) (hsorted : xs.Pairwise le) :
    Together (xs.map key) := by
  induction xs with
  | nil => trivial
  | cons x xs ih =>
    obtain ⟨hx, hxs⟩ := List.pairwise_cons.1 hsorted
    refine ⟨fun hmem => ?_, ih (fun y hy => hS y (List.mem_cons_of_mem x hy)) hxs⟩
    obtain ⟨z, hz, hkey⟩ := List.mem_map.1 hmem
    cases xs with
    | nil => exact absurd hz List.not_mem_nil
    | cons y ys =>
      have hy : key y = key x := by
        rcases List.mem_cons.1 hz with rfl | hz'
        · exact hkey
        · have hle : le y z := (List.pairwise_cons.1 hxs).1 z hz'
          exact h x y z (hS x (by simp)) (hS y (by simp)) (hS z (by simp [hz'])) (hx y List.mem_cons_self) hle hkey.symm
      rw [List.map_cons, List.head?_cons, hy]

/-- Two keys do not come in both orders. -/
theorem KeepsTogether.antisymm (h : KeepsTogether le S key) (htotal : ∀ x y, le x y ∨ le y x) {x x' y y' : α}
    (hx : S x) (hx' : S x') (hy : S y) (hy' : S y') (hkx : key x = key x') (hky : key y = key y') (hxy : le x y)
    (hyx : le y' x') : key x = key y := by
  rcases htotal x y' with hle | hle
  · have hmiddle := h x y' x' hx hy' hx' hle hyx hkx
    rw [hky, hmiddle]
  · exact h y' x y hy' hx hy hle hxy hky.symm |>.trans hky.symm

end Sorted

variable [DecidableEq κ]

/-- The amounts of entries side by side with one key are added up. -/
def addRuns [Add M] : List (κ × M) → List (κ × M)
  | [] => []
  | x :: xs =>
    match addRuns xs with
    | [] => [x]
    | y :: ys => if x.1 = y.1 then (x.1, x.2 + y.2) :: ys else x :: y :: ys

section Add

variable [Add M] {k : κ} {m n : M} {x : κ × M} {xs : List (κ × M)}

/-- The first entry of what is added up has the key of the first entry. -/
theorem addRuns_cons (x : κ × M) (xs : List (κ × M)) : ∃ n ys, addRuns (x :: xs) = (x.1, n) :: ys := by
  unfold addRuns
  split
  · exact ⟨x.2, [], rfl⟩
  · rename_i y ys _
    by_cases hkey : x.1 = y.1
    · exact ⟨x.2 + y.2, ys, if_pos hkey⟩
    · exact ⟨x.2, y :: ys, if_neg hkey⟩

theorem head_addRuns (xs : List (κ × M)) : (addRuns xs).head?.map Prod.fst = xs.head?.map Prod.fst := by
  cases xs with
  | nil => rfl
  | cons x xs =>
    obtain ⟨n, ys, heq⟩ := addRuns_cons x xs
    rw [heq]
    rfl

/-- An entry with another key than the next one. -/
theorem addRuns_cons_of_ne (h : xs.head?.map Prod.fst ≠ some x.1) : addRuns (x :: xs) = x :: addRuns xs := by
  rw [← head_addRuns] at h
  rw [addRuns]
  split
  · rename_i heq
    rw [heq]
  · rename_i y ys heq
    rw [heq] at h
    rw [if_neg (fun hkey => h (by rw [hkey]; rfl)), heq]

/-- The keys of what is added up are among those of the entries, in their order. -/
theorem keys_addRuns_sublist (xs : List (κ × M)) : ((addRuns xs).map Prod.fst).Sublist (xs.map Prod.fst) := by
  induction xs with
  | nil => exact List.Sublist.refl _
  | cons x xs ih =>
    rw [addRuns]
    split
    · rename_i heq
      simp
    · rename_i y ys heq
      rw [heq] at ih
      split
      · rename_i hkey
        rw [List.map_cons, hkey]
        exact ih.cons _
      · exact List.Sublist.cons_cons x.1 ih

/-- **No key is lost.** -/
theorem mem_keys_addRuns (xs : List (κ × M)) : k ∈ (addRuns xs).map Prod.fst ↔ k ∈ xs.map Prod.fst := by
  induction xs with
  | nil => rfl
  | cons x xs ih =>
    rw [List.map_cons, List.mem_cons, ← ih, addRuns]
    split
    · rename_i heq
      simp [heq]
    · rename_i y ys heq
      rw [heq]
      split
      · rename_i hkey
        simp [hkey]
      · simp

/-- What holds of all entries, and of what is added up of two. -/
theorem forall_mem_addRuns {P : κ × M → Prop} (hadd : ∀ k m n, P (k, m) → P (k, n) → P (k, m + n))
    (h : ∀ x ∈ xs, P x) : ∀ y ∈ addRuns xs, P y := by
  induction xs with
  | nil => exact h
  | cons x xs ih =>
    have hrest := ih fun y hy => h y (List.mem_cons_of_mem x hy)
    have hx : P x := h x List.mem_cons_self
    rw [addRuns]
    split
    · intro y hy
      rwa [List.mem_singleton.1 hy]
    · rename_i y ys heq
      rw [heq] at hrest
      have hy : P y := hrest y List.mem_cons_self
      have hys : ∀ z ∈ ys, P z := fun z hz => hrest z (List.mem_cons_of_mem y hz)
      split
      · rename_i hkey
        have hsum : P (x.1, x.2 + y.2) := hadd x.1 x.2 y.2 hx (by rw [hkey]; exact hy)
        exact List.forall_mem_cons.2 ⟨hsum, hys⟩
      · exact List.forall_mem_cons.2 ⟨hx, hrest⟩

/-- **Each key once**, where all entries of a key stand side by side. -/
theorem nodup_keys_addRuns (h : Together (xs.map Prod.fst)) : ((addRuns xs).map Prod.fst).Nodup := by
  induction xs with
  | nil => exact List.nodup_nil
  | cons x xs ih =>
    have hrest := ih h.2
    by_cases hhead : xs.head?.map Prod.fst = some x.1
    · rw [← head_addRuns] at hhead
      obtain ⟨y, hy, hkey⟩ := Option.map_eq_some_iff.1 hhead
      obtain ⟨ys, heq⟩ := List.head?_eq_some_iff.1 hy
      rw [heq] at hrest
      rw [addRuns, heq]
      dsimp only
      rw [if_pos hkey.symm, List.map_cons, ← hkey]
      exact hrest
    · rw [addRuns_cons_of_ne hhead, List.map_cons, List.nodup_cons]
      refine ⟨fun hmem => hhead ?_, hrest⟩
      have hfirst := h.1 ((mem_keys_addRuns xs).1 hmem)
      rwa [List.head?_map] at hfirst

end Add

/-- Two entries of one key at the start can be added up first. -/
theorem addRuns_cons_cons [AddSemigroup M] (k : κ) (m n : M) (xs : List (κ × M)) :
    addRuns ((k, m) :: (k, n) :: xs) = addRuns ((k, m + n) :: xs) := by
  rw [addRuns, addRuns, addRuns]
  cases addRuns xs with
  | nil => simp
  | cons y ys =>
    by_cases hkey : k = y.1
    · simp [hkey, add_assoc]
    · simp [hkey]

/-! ## Totals -/

section Total

variable [AddCommMonoid M] {k : κ} {x : κ × M} {xs : List (κ × M)}

/-- The total of a key. -/
def amountOf (k : κ) (s : Multiset (κ × M)) : M := ((s.filter fun x => x.1 = k).map Prod.snd).sum

@[simp] theorem amountOf_zero : amountOf k (0 : Multiset (κ × M)) = 0 := by simp [amountOf]

theorem amountOf_cons (s : Multiset (κ × M)) : amountOf k (x ::ₘ s) = (if x.1 = k then x.2 else 0) + amountOf k s := by
  unfold amountOf
  by_cases hkey : x.1 = k
  · rw [Multiset.filter_cons_of_pos (p := fun x : κ × M => x.1 = k) _ hkey, Multiset.map_cons,
      Multiset.sum_cons, if_pos hkey]
  · rw [Multiset.filter_cons_of_neg (p := fun x : κ × M => x.1 = k) _ hkey, if_neg hkey, zero_add]

theorem amountOf_add (s t : Multiset (κ × M)) : amountOf k (s + t) = amountOf k s + amountOf k t := by
  unfold amountOf
  rw [Multiset.filter_add, Multiset.map_add, Multiset.sum_add]

theorem amountOf_coe_cons (x : κ × M) (xs : List (κ × M)) :
    amountOf k ((x :: xs : List (κ × M)) : Multiset (κ × M)) = (if x.1 = k then x.2 else 0) + amountOf k xs := by
  rw [← Multiset.cons_coe, amountOf_cons]

/-- **No amount is lost.** -/
theorem amountOf_addRuns (xs : List (κ × M)) : amountOf k (addRuns xs : Multiset (κ × M)) = amountOf k xs := by
  induction xs with
  | nil => rfl
  | cons x xs ih =>
    rw [amountOf_coe_cons, ← ih, addRuns]
    split
    · rename_i heq
      rw [heq, amountOf_coe_cons]
    · rename_i y ys heq
      rw [heq]
      split
      · rename_i hkey
        rw [amountOf_coe_cons, amountOf_coe_cons, ← hkey, ← add_assoc]
        by_cases hk : x.1 = k
        · simp only [if_pos hk]
        · simp only [if_neg hk, zero_add]
      · rw [amountOf_coe_cons]

/-- The amount of an entry whose key comes once. -/
theorem amountOf_of_mem (hnodup : (xs.map Prod.fst).Nodup) (hx : x ∈ xs) :
    amountOf x.1 (xs : Multiset (κ × M)) = x.2 := by
  induction xs with
  | nil => exact absurd hx List.not_mem_nil
  | cons y ys ih =>
    rw [List.map_cons, List.nodup_cons] at hnodup
    rw [amountOf_coe_cons]
    rcases List.mem_cons.1 hx with rfl | hx
    · have hnone : amountOf x.1 (ys : Multiset (κ × M)) = 0 := by
        unfold amountOf
        rw [Multiset.filter_eq_nil.2 fun z hz hkey => hnodup.1 (List.mem_map.2 ⟨z, hz, hkey⟩)]
        rfl
      rw [if_pos rfl, hnone, add_zero]
    · have hne : y.1 ≠ x.1 := fun hkey => hnodup.1 (List.mem_map.2 ⟨x, hx, hkey.symm⟩)
      rw [if_neg hne, zero_add]
      exact ih hnodup.2 hx

/-- A list in which each key comes once is known by its keys and their totals. -/
theorem eq_map_amountOf (hnodup : (xs.map Prod.fst).Nodup) :
    xs = (xs.map Prod.fst).map fun k => (k, amountOf k (xs : Multiset (κ × M))) := by
  rw [List.map_map]
  refine (List.map_id xs).symm.trans (List.map_congr_left fun x hx => ?_)
  exact Prod.ext rfl (amountOf_of_mem hnodup hx).symm

variable {le : α → α → Prop} {S : α → Prop} {entry : α → κ × M} {as bs : List α}

/-- The keys of a sorted list that is added up are in order. -/
theorem pairwise_keys_addRuns (hS : ∀ a ∈ as, S a) (hsorted : as.Pairwise le) :
    ((addRuns (as.map entry)).map Prod.fst).Pairwise fun k k' =>
      ∃ a b, S a ∧ S b ∧ (entry a).1 = k ∧ (entry b).1 = k' ∧ le a b := by
  have hkeys := keys_addRuns_sublist (as.map entry)
  refine List.Pairwise.sublist hkeys ?_
  rw [List.map_map, List.pairwise_map]
  exact hsorted.imp_of_mem fun ha hb hle => ⟨_, _, hS _ ha, hS _ hb, rfl, rfl, hle⟩

/-- **Sorted lists with the same keys and totals** give the same when they are added up. -/
theorem addRuns_eq (h : KeepsTogether le S fun a => (entry a).1) (hle : ∀ a b, le a b ∨ le b a) (has : ∀ a ∈ as, S a)
    (hbs : ∀ b ∈ bs, S b) (hasorted : as.Pairwise le) (hbsorted : bs.Pairwise le)
    (hkeys : ∀ k, k ∈ as.map (fun a => (entry a).1) ↔ k ∈ bs.map fun b => (entry b).1)
    (htotal : ∀ k, amountOf k (as.map entry : Multiset (κ × M)) = amountOf k (bs.map entry : Multiset (κ × M))) :
    addRuns (as.map entry) = addRuns (bs.map entry) := by
  have hmap : ∀ cs : List α, (cs.map entry).map Prod.fst = cs.map fun c => (entry c).1 := fun cs => by
    rw [List.map_map]
    rfl
  have hnodup : ∀ cs : List α, (∀ c ∈ cs, S c) → cs.Pairwise le → ((addRuns (cs.map entry)).map Prod.fst).Nodup := by
    intro cs hcs hsorted
    apply nodup_keys_addRuns
    rw [hmap]
    exact together_of_pairwise h hcs hsorted
  -- the same keys, each list with its own once and in order
  have hperm : ((addRuns (as.map entry)).map Prod.fst).Perm ((addRuns (bs.map entry)).map Prod.fst) := by
    refine (List.perm_ext_iff_of_nodup (hnodup as has hasorted) (hnodup bs hbs hbsorted)).2 fun k => ?_
    rw [mem_keys_addRuns, mem_keys_addRuns, hmap, hmap]
    exact hkeys k
  have horder := List.Perm.eq_of_pairwise (fun k k' _ _ => ?_) (pairwise_keys_addRuns has hasorted)
    (pairwise_keys_addRuns hbs hbsorted) hperm
  · rw [eq_map_amountOf (hnodup as has hasorted), eq_map_amountOf (hnodup bs hbs hbsorted), horder]
    exact List.map_congr_left fun k _ => by rw [amountOf_addRuns, amountOf_addRuns, htotal]
  · rintro ⟨a, b, ha, hb, rfl, rfl, hab⟩ ⟨b', a', hb', ha', hkb, hka, hba⟩
    exact h.antisymm hle ha ha' hb hb' hka.symm hkb.symm hab hba

end Total

end Lib
