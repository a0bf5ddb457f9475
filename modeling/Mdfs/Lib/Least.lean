import Mathlib.Data.List.MinMax

/-!
# The first of the least

`List.argmin` names an element that is least and, of the least ones, comes first. Here that
is said by where the element stands: everything before it is greater, nothing after it is
less. The elements may be those of a list that qualify.

* `argmin_eq_some_split`: the least element and its place.
* `argmin_filterMap_eq_some`: the same for the elements that qualify.
-/

namespace Lib

variable {α β γ : Type} [LinearOrder γ] {f : α → γ} {xs : List α} {a : α}

/-- **The first least element**, by its place. -/
theorem argmin_eq_some_split : xs.argmin f = some a ↔ ∃ before after, xs = before ++ a :: after ∧
    (∀ b ∈ before, f a < f b) ∧ ∀ b ∈ after, f a ≤ f b := by
  induction xs generalizing a with
  | nil => simp
  | cons x xs ih =>
    rw [List.argmin_cons]
    constructor
    · intro h
      cases hrest : xs.argmin f with
      | none =>
        rw [hrest] at h
        obtain rfl : x = a := Option.some.inj h
        obtain rfl := List.argmin_eq_none.1 hrest
        exact ⟨[], [], rfl, by simp, by simp⟩
      | some c =>
        rw [hrest] at h
        dsimp only at h
        split at h
        · rename_i hlt
          obtain rfl : c = a := Option.some.inj h
          obtain ⟨before, after, rfl, hbefore, hafter⟩ := ih.1 hrest
          refine ⟨x :: before, after, rfl, ?_, hafter⟩
          intro b hb
          rcases List.mem_cons.1 hb with rfl | hb
          · exact hlt
          · exact hbefore b hb
        · rename_i hle
          obtain rfl : x = a := Option.some.inj h
          refine ⟨[], xs, rfl, by simp, fun b hb => ?_⟩
          exact (not_lt.1 hle).trans (List.le_of_mem_argmin hb hrest)
    · rintro ⟨before, after, hsplit, hbefore, hafter⟩
      cases before with
      | nil =>
        obtain ⟨rfl, rfl⟩ := List.cons.inj hsplit
        cases hrest : xs.argmin f with
        | none => rfl
        | some c =>
          have hle : f x ≤ f c := hafter c (List.argmin_mem hrest)
          exact if_neg (not_lt.2 hle)
      | cons y before =>
        obtain ⟨rfl, rfl⟩ := List.cons.inj hsplit
        have hrest := ih.2 ⟨before, after, rfl, fun b hb => hbefore b (List.mem_cons_of_mem x hb), hafter⟩
        rw [hrest]
        exact if_pos (hbefore x List.mem_cons_self)

variable {g : β → Option α} {ys : List β}

/-- **The first least element of those that qualify**, by its place among all. -/
theorem argmin_filterMap_eq_some : (ys.filterMap g).argmin f = some a ↔ ∃ before y after, ys = before ++ y :: after ∧
    g y = some a ∧ (∀ z ∈ before, ∀ b ∈ g z, f a < f b) ∧ ∀ z ∈ after, ∀ b ∈ g z, f a ≤ f b := by
  rw [argmin_eq_some_split]
  constructor
  · rintro ⟨before, after, hsplit, hbefore, hafter⟩
    obtain ⟨left, right, rfl, rfl, hright⟩ := List.filterMap_eq_append_iff.1 hsplit
    obtain ⟨skipped, y, rest, rfl, hskipped, hy, rfl⟩ := List.filterMap_eq_cons_iff.1 hright
    refine ⟨left ++ skipped, y, rest, (List.append_assoc ..).symm, hy, ?_, ?_⟩
    · intro z hz b hb
      rcases List.mem_append.1 hz with hz | hz
      · exact hbefore b (List.mem_filterMap.2 ⟨z, hz, hb⟩)
      · rw [hskipped z hz] at hb
        cases hb
    · exact fun z hz b hb => hafter b (List.mem_filterMap.2 ⟨z, hz, hb⟩)
  · rintro ⟨before, y, after, rfl, hy, hbefore, hafter⟩
    refine ⟨before.filterMap g, after.filterMap g, ?_, ?_, ?_⟩
    · rw [List.filterMap_append, List.filterMap_cons_some hy]
    · intro b hb
      obtain ⟨z, hz, hb⟩ := List.mem_filterMap.1 hb
      exact hbefore z hz b hb
    · intro b hb
      obtain ⟨z, hz, hb⟩ := List.mem_filterMap.1 hb
      exact hafter z hz b hb

/-- Nothing is least when nothing qualifies. -/
theorem argmin_filterMap_eq_none : (ys.filterMap g).argmin f = none ↔ ∀ y ∈ ys, g y = none := by
  rw [List.argmin_eq_none, List.filterMap_eq_nil_iff]

end Lib
