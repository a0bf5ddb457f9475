import Mathlib.Data.Finset.Card
import Mathlib.Data.List.Nodup

/-!
# A list grouped by a key

The elements of a list go one by one to the group of their key: to the end of it if there is
one, else to a new group at the end. A group is of any type, with a name and its items.

* `Groups`: what the groups of a list are.
* `Groups.modify`, `Groups.append`: one more element.
* `InOrder`: the groups stand as their keys come first.
* `Groups.length_eq`: as many groups as there are keys.
-/

namespace Lib

variable {α β γ κ : Type} [DecidableEq κ]

/-- **The groups of a list** `xs`: one for each key, with the values of the elements of this key
in their order. -/
structure Groups (key : α → κ) (value : α → β) (name : γ → κ) (items : γ → List β) (xs : List α) (gs : List γ) :
    Prop where
  nodup : (gs.map name).Nodup
  covers : ∀ x ∈ xs, ∃ g ∈ gs, name g = key x
  items : ∀ g ∈ gs, items g = (xs.filter fun x => key x = name g).map value
  used : ∀ g ∈ gs, ∃ x ∈ xs, key x = name g

variable {key : α → κ} {value : α → β} {name : γ → κ} {items : γ → List β} {xs : List α} {gs : List γ} {x : α} {g : γ}

theorem groups_nil : Groups key value name items [] [] where
  nodup := List.nodup_nil
  covers := fun _ hx => absurd hx List.not_mem_nil
  items := fun _ hg => absurd hg List.not_mem_nil
  used := fun _ hg => absurd hg List.not_mem_nil

/-- The elements of a key, with one more that is of this key, or of another. -/
theorem filter_append_self {k : κ} (h : key x = k) :
    (xs ++ [x]).filter (fun x => key x = k) = xs.filter (fun x => key x = k) ++ [x] := by
  rw [List.filter_append, List.filter_cons_of_pos (by simp [h]), List.filter_nil]

theorem filter_append_of_ne {k : κ} (h : key x ≠ k) :
    (xs ++ [x]).filter (fun x => key x = k) = xs.filter (fun x => key x = k) := by
  rw [List.filter_append, List.filter_cons_of_neg (by simp [h]), List.filter_nil, List.append_nil]

namespace Groups

/-- **An element whose key has a group** goes to the end of it. -/
theorem modify (h : Groups key value name items xs gs) {i : ℕ} (hi : gs[i]? = some g) (hkey : name g = key x)
    {f : γ → γ}
    (hname : name (f g) = name g) (hitems : items (f g) = items g ++ [value x]) :
    Groups key value name items (xs ++ [x]) (gs.modify i f) := by
  obtain ⟨hlt, hget⟩ := List.getElem?_eq_some_iff.1 hi
  have hnames : (gs.modify i f).map name = gs.map name := by
    refine List.ext_getElem? fun j => ?_
    rw [List.getElem?_map, List.getElem?_map, List.getElem?_modify]
    by_cases hij : i = j
    · subst hij
      rw [hi]
      simp [hname]
    · simp [hij]
  -- a group is the one that the element goes to, or has another name
  have hcases : ∀ g' ∈ gs.modify i f, g' = f g ∨ g' ∈ gs ∧ name g' ≠ name g := by
    intro g' hg'
    obtain ⟨j, hj⟩ := List.mem_iff_getElem?.1 hg'
    rw [List.getElem?_modify, Option.map_eq_map, Option.map_eq_some_iff] at hj
    obtain ⟨old, hold, rfl⟩ := hj
    by_cases hij : i = j
    · subst hij
      obtain rfl : g = old := Option.some.inj (hi.symm.trans hold)
      rw [if_pos rfl]
      exact Or.inl rfl
    · rw [if_neg hij]
      refine Or.inr ⟨List.mem_of_getElem? hold, fun hsame => hij ?_⟩
      obtain ⟨hj, hgetj⟩ := List.getElem?_eq_some_iff.1 hold
      have hi' : i < (gs.map name).length := by simpa using hlt
      have hj' : j < (gs.map name).length := by simpa using hj
      have hnames' : (gs.map name)[i] = (gs.map name)[j] := by
        rw [List.getElem_map, List.getElem_map, hget, hgetj, hsame]
      exact h.nodup.getElem_inj_iff.1 hnames'
  refine ⟨hnames ▸ h.nodup, ?_, ?_, ?_⟩
  · intro y hy
    have hmem : key y ∈ gs.map name := by
      rcases List.mem_append.1 hy with hy | hy
      · obtain ⟨g', hg', hkey'⟩ := h.covers y hy
        exact List.mem_map.2 ⟨g', hg', hkey'⟩
      · rw [List.mem_singleton.1 hy]
        exact List.mem_map.2 ⟨g, List.mem_of_getElem? hi, hkey⟩
    rw [← hnames] at hmem
    exact List.mem_map.1 hmem
  · intro g' hg'
    rcases hcases g' hg' with rfl | ⟨hg', hne⟩
    · rw [hitems, hname, filter_append_self hkey.symm, List.map_append, h.items g (List.mem_of_getElem? hi)]
      rfl
    · rw [filter_append_of_ne (fun hsame => hne (hsame.symm.trans hkey.symm))]
      exact h.items g' hg'
  · intro g' hg'
    rcases hcases g' hg' with rfl | ⟨hg', -⟩
    · exact ⟨x, List.mem_append_right _ List.mem_cons_self, (hname.trans hkey).symm⟩
    · obtain ⟨y, hy, hkey'⟩ := h.used g' hg'
      exact ⟨y, List.mem_append_left _ hy, hkey'⟩

/-- **An element whose key has none** makes a new group. -/
theorem append (h : Groups key value name items xs gs) (hnew : ∀ g ∈ gs, name g ≠ key x) (hname : name g = key x)
    (hitems : items g = [value x]) : Groups key value name items (xs ++ [x]) (gs ++ [g]) where
  nodup := by
    rw [List.map_append]
    refine List.nodup_append.2 ⟨h.nodup, List.nodup_singleton _, ?_⟩
    intro k hk k' hk' hsame
    obtain ⟨g', hg', rfl⟩ := List.mem_map.1 hk
    rw [List.map_singleton, List.mem_singleton, hname] at hk'
    exact hnew g' hg' (hsame.trans hk')
  covers := by
    intro y hy
    rcases List.mem_append.1 hy with hy | hy
    · obtain ⟨g', hg', hkey⟩ := h.covers y hy
      exact ⟨g', List.mem_append_left _ hg', hkey⟩
    · rw [List.mem_singleton.1 hy]
      exact ⟨g, List.mem_append_right _ List.mem_cons_self, hname⟩
  items := by
    intro g' hg'
    rcases List.mem_append.1 hg' with hg' | hg'
    · rw [filter_append_of_ne (fun hsame => hnew g' hg' hsame.symm)]
      exact h.items g' hg'
    · -- no element before has this key
      have hnone : xs.filter (fun y => key y = name g) = [] := by
        refine List.filter_eq_nil_iff.2 fun y hy hkey => ?_
        obtain ⟨g₀, hg₀, hkey₀⟩ := h.covers y hy
        exact hnew g₀ hg₀ (hkey₀.trans ((of_decide_eq_true hkey).trans hname))
      rw [List.mem_singleton.1 hg', filter_append_self hname.symm, hnone, hitems]
      rfl
  used := by
    intro g' hg'
    rcases List.mem_append.1 hg' with hg' | hg'
    · obtain ⟨y, hy, hkey⟩ := h.used g' hg'
      exact ⟨y, List.mem_append_left _ hy, hkey⟩
    · rw [List.mem_singleton.1 hg']
      exact ⟨x, List.mem_append_right _ List.mem_cons_self, hname.symm⟩

/-- **As many groups as there are keys.** -/
theorem length_eq (h : Groups key value name items xs gs) : gs.length = (xs.map key).toFinset.card := by
  rw [← List.length_map name, ← List.toFinset_card_of_nodup h.nodup]
  congr 1
  ext k
  rw [List.mem_toFinset, List.mem_toFinset, List.mem_map, List.mem_map]
  constructor
  · rintro ⟨g, hg, rfl⟩
    exact h.used g hg
  · rintro ⟨x, hx, rfl⟩
    exact h.covers x hx

end Groups

/-- **The groups stand in the order of their first elements**: what comes before the first element of
a group is in the groups before it. -/
def InOrder (key : α → κ) (name : γ → κ) (xs : List α) (gs : List γ) : Prop :=
  ∀ l g r, gs = l ++ g :: r → ∃ before x after, xs = before ++ x :: after ∧ key x = name g ∧
    ∀ y ∈ before, ∃ g' ∈ l, name g' = key y

omit [DecidableEq κ] in
theorem inOrder_nil : InOrder key name [] [] := by
  intro l g r h
  simp at h

omit [DecidableEq κ] in
/-- One more element of a group that there is. -/
theorem InOrder.modify (h : InOrder key name xs gs) {gs' : List γ} (hnames : gs'.map name = gs.map name) (x : α) :
    InOrder key name (xs ++ [x]) gs' := by
  rintro l g r rfl
  rw [List.map_append, List.map_cons] at hnames
  obtain ⟨l₀, r', rfl, hl, hr⟩ := List.map_eq_append_iff.1 hnames.symm
  obtain ⟨g₀, r₀, rfl, hg, -⟩ := List.map_eq_cons_iff.1 hr
  obtain ⟨before, y, after, rfl, hkey, hbefore⟩ := h l₀ g₀ r₀ rfl
  refine ⟨before, y, after ++ [x], by simp, hkey.trans hg, ?_⟩
  intro z hz
  obtain ⟨g', hg', hname⟩ := hbefore z hz
  have hmem : name g' ∈ l.map name := hl ▸ List.mem_map_of_mem hg'
  obtain ⟨g'', hg'', hsame⟩ := List.mem_map.1 hmem
  exact ⟨g'', hg'', hsame.trans hname⟩

omit [DecidableEq κ] in
/-- The first element of a new group. -/
theorem InOrder.append (h : InOrder key name xs gs) (hcovers : ∀ y ∈ xs, ∃ g ∈ gs, name g = key y)
    (hname : name g = key x) :
    InOrder key name (xs ++ [x]) (gs ++ [g]) := by
  intro l g' r hsplit
  rcases List.eq_nil_or_concat' r with rfl | ⟨r', last, rfl⟩
  · obtain ⟨rfl, hlast⟩ := List.append_inj' hsplit rfl
    obtain ⟨rfl, -⟩ := List.cons.inj hlast
    exact ⟨xs, x, [], rfl, hname.symm, hcovers⟩
  · have hinit : gs ++ [g] = (l ++ g' :: r') ++ [last] := by rw [hsplit, List.append_assoc, List.cons_append]
    obtain ⟨rfl, -⟩ := List.append_inj' hinit rfl
    obtain ⟨before, y, after, rfl, hkey, hbefore⟩ := h l g' r' rfl
    exact ⟨before, y, after ++ [x], by simp, hkey, hbefore⟩

end Lib
