import Mdfs.Lib.Least
import Mdfs.MaRTA.Nodes

/-!
# The least busy node

`selectNode` and `searchNode` fold one choice over a list of names: the node selected so far
is kept unless the next one is active and has less work. When all names are registered, the
fold selects the first of the least busy nodes among those that are active.

* `eq_bestOffer`, `foldlM_lessBusy`: the fold is an `argmin`.
* `LeastBusy`: the selection, by the place of its name in the list.
-/

namespace Mdfs.MaRTA

open Lib

variable {α : Type} {nodes : List Node} {xs : List (CStr × α)} {n : ℕ} {a : α}

/-- The node of a name, with what it would be selected with, if it is active. -/
def activeOffer (nodes : List Node) (x : CStr × α) : Option (ℕ × α) :=
  (findNode nodes x.1).bind fun n => if isActiveAt nodes n then some (n, x.2) else none

theorem activeOffer_eq_some {x : CStr × α} {y : ℕ × α} :
    activeOffer nodes x = some y ↔ findNode nodes x.1 = some y.1 ∧ isActiveAt nodes y.1 = true ∧ x.2 = y.2 := by
  unfold activeOffer
  rw [Option.bind_eq_some_iff]
  constructor
  · rintro ⟨n, hfind, h⟩
    obtain ⟨hactive, hy⟩ := Option.ite_none_right_eq_some.1 h
    obtain rfl := Option.some.inj hy
    exact ⟨hfind, hactive, rfl⟩
  · rintro ⟨hfind, hactive, hx⟩
    exact ⟨y.1, hfind, by rw [if_pos hactive, hx]⟩

/-- The name is that of an active node. -/
def OnActive (nodes : List Node) (name : CStr) : Prop := ∃ n, findNode nodes name = some n ∧ isActiveAt nodes n = true

instance (nodes : List Node) (name : CStr) : Decidable (OnActive nodes name) :=
  decidable_of_iff ((findNode nodes name).any (isActiveAt nodes) = true) (by
    unfold OnActive
    cases findNode nodes name <;> simp)

theorem activeOffer_eq_none {x : CStr × α} : activeOffer nodes x = none ↔ ¬OnActive nodes x.1 := by
  constructor
  · rintro h ⟨n, hfind, hactive⟩
    rw [show activeOffer nodes x = some (n, x.2) from activeOffer_eq_some.2 ⟨hfind, hactive, rfl⟩] at h
    cases h
  · intro h
    cases hx : activeOffer nodes x with
    | none => rfl
    | some y =>
      obtain ⟨hfind, hactive, -⟩ := activeOffer_eq_some.1 hx
      exact absurd ⟨y.1, hfind, hactive⟩ h

/-- The first of the least busy active nodes of the names. -/
def bestOffer (nodes : List Node) (xs : List (CStr × α)) : Option (ℕ × α) :=
  (xs.filterMap (activeOffer nodes)).argmin fun y => workLoadAt nodes y.1

/-- **One more name**, when the process does not end at it. -/
theorem lessBusy_bestOffer {x : CStr × α} {selected : Option (ℕ × α)}
    (h : lessBusy nodes x.1 x.2 (bestOffer nodes xs) = some selected) : selected = bestOffer nodes (xs ++ [x]) := by
  have hstep : bestOffer nodes (xs ++ [x]) =
      ((xs.filterMap (activeOffer nodes)) ++ [x].filterMap (activeOffer nodes)).argmin fun y =>
        workLoadAt nodes y.1 := by
    rw [bestOffer, List.filterMap_append]
  unfold lessBusy at h
  rw [hstep]
  cases hfind : findNode nodes x.1 with
  | none =>
    have hx : [x].filterMap (activeOffer nodes) = [] := by
      refine List.filterMap_cons_none (activeOffer_eq_none.2 ?_)
      rintro ⟨m, hm, -⟩
      rw [hfind] at hm
      cases hm
    rw [hx, List.append_nil]
    rw [hfind] at h
    change selected = bestOffer nodes xs
    cases hbest : bestOffer nodes xs with
    | none => simp [hbest] at h
    | some y => simpa [hbest] using h.symm
  | some n =>
    rw [hfind] at h
    by_cases hactive : isActiveAt nodes n = true
    · have hx : [x].filterMap (activeOffer nodes) = [(n, x.2)] :=
        List.filterMap_cons_some (activeOffer_eq_some.2 ⟨hfind, hactive, rfl⟩)
      rw [hx, List.argmin_concat]
      unfold bestOffer at h
      cases hbest : (xs.filterMap (activeOffer nodes)).argmin fun y => workLoadAt nodes y.1 with
      | none => simpa [hbest, hactive] using h.symm
      | some y => simpa [hbest, hactive] using h.symm
    · have hx : [x].filterMap (activeOffer nodes) = [] := by
        refine List.filterMap_cons_none (activeOffer_eq_none.2 ?_)
        rintro ⟨m, hm, hm'⟩
        rw [hfind] at hm
        exact hactive (Option.some.inj hm ▸ hm')
      rw [hx, List.append_nil]
      change selected = bestOffer nodes xs
      cases hbest : bestOffer nodes xs with
      | none => simpa [hbest, hactive] using h.symm
      | some y => simpa [hbest, hactive] using h.symm

/-- **What the fold over the names selects**, when it comes to its end. -/
theorem eq_bestOffer {selected : Option (ℕ × α)}
    (h : xs.foldlM (fun selected x => lessBusy nodes x.1 x.2 selected) none = some selected) :
      selected = bestOffer nodes xs := by
  -- the names gone through so far are `done`
  suffices ∀ rest done : List (CStr × α),
      rest.foldlM (fun selected x => lessBusy nodes x.1 x.2 selected) (bestOffer nodes done) = some selected →
        selected = bestOffer nodes (done ++ rest) from this xs [] h
  intro rest
  induction rest with
  | nil =>
    intro done hdone
    rw [List.append_nil]
    exact (Option.some.inj hdone).symm
  | cons x rest ih =>
    intro done hdone
    obtain ⟨next, hnext, hrest⟩ := Option.bind_eq_some_iff.1 (List.foldlM_cons.symm.trans hdone)
    rw [lessBusy_bestOffer hnext] at hrest
    have hall := ih (done ++ [x]) hrest
    rw [List.append_assoc] at hall
    exact hall

/-- **The fold over registered names** comes to its end. -/
theorem foldlM_lessBusy (h : ∀ x ∈ xs, (findNode nodes x.1).isSome = true) :
    xs.foldlM (fun selected x => lessBusy nodes x.1 x.2 selected) none = some (bestOffer nodes xs) := by
  have hends : ∀ (rest : List (CStr × α)) selected, (∀ x ∈ rest, (findNode nodes x.1).isSome = true) →
      ∃ last, rest.foldlM (fun selected x => lessBusy nodes x.1 x.2 selected) selected = some last := by
    intro rest
    induction rest with
    | nil => exact fun selected _ => ⟨selected, rfl⟩
    | cons x rest ih =>
      intro selected hrest
      obtain ⟨n, hn⟩ := Option.isSome_iff_exists.1 (hrest x List.mem_cons_self)
      have hstep : ∃ next, lessBusy nodes x.1 x.2 selected = some next := by
        unfold lessBusy
        rw [hn]
        cases selected with
        | _ => exact ⟨_, rfl⟩
      obtain ⟨next, hnext⟩ := hstep
      obtain ⟨last, hlast⟩ := ih next fun y hy => hrest y (List.mem_cons_of_mem x hy)
      exact ⟨last, by rw [List.foldlM_cons, hnext]; exact hlast⟩
  obtain ⟨last, hlast⟩ := hends xs none h
  rw [hlast, eq_bestOffer hlast]

/-- **The least busy node of a list of names**: the `n`-th one is active, it is that of one of
the names, every earlier name is that of a node with more work or of none that is active,
and no later one is that of an active node with less. -/
def LeastBusy (nodes : List Node) (xs : List (CStr × α)) (n : ℕ) (a : α) : Prop :=
  ∃ before name after, xs = before ++ (name, a) :: after ∧ findNode nodes name = some n ∧ isActiveAt nodes n = true ∧
    (∀ x ∈ before, ∀ m, findNode nodes x.1 = some m → isActiveAt nodes m = true → workLoadAt nodes n <
      workLoadAt nodes m) ∧
    ∀ x ∈ after, ∀ m, findNode nodes x.1 = some m → isActiveAt nodes m = true → workLoadAt nodes n ≤ workLoadAt nodes m

theorem bestOffer_eq_some : bestOffer nodes xs = some (n, a) ↔ LeastBusy nodes xs n a := by
  rw [bestOffer, argmin_filterMap_eq_some]
  constructor
  · rintro ⟨before, ⟨name, b⟩, after, rfl, hy, hbefore, hafter⟩
    obtain ⟨hfind, hactive, rfl⟩ := activeOffer_eq_some.1 hy
    refine ⟨before, name, after, rfl, hfind, hactive, ?_, ?_⟩
    · exact fun x hx m hm hm' => hbefore x hx (m, x.2) (activeOffer_eq_some.2 ⟨hm, hm', rfl⟩)
    · exact fun x hx m hm hm' => hafter x hx (m, x.2) (activeOffer_eq_some.2 ⟨hm, hm', rfl⟩)
  · rintro ⟨before, name, after, rfl, hfind, hactive, hbefore, hafter⟩
    refine ⟨before, (name, a), after, rfl, activeOffer_eq_some.2 ⟨hfind, hactive, rfl⟩, ?_, ?_⟩
    · intro x hx y hy
      obtain ⟨hm, hm', -⟩ := activeOffer_eq_some.1 hy
      exact hbefore x hx y.1 hm hm'
    · intro x hx y hy
      obtain ⟨hm, hm', -⟩ := activeOffer_eq_some.1 hy
      exact hafter x hx y.1 hm hm'

theorem bestOffer_eq_none : bestOffer nodes xs = none ↔ ∀ x ∈ xs, ¬OnActive nodes x.1 := by
  rw [bestOffer, argmin_filterMap_eq_none]
  exact forall₂_congr fun x _ => activeOffer_eq_none

/-- No active node of the names has less work. -/
theorem LeastBusy.le (h : LeastBusy nodes xs n a) {x : CStr × α} (hx : x ∈ xs) {m : ℕ}
    (hm : findNode nodes x.1 = some m)
    (hactive : isActiveAt nodes m = true) : workLoadAt nodes n ≤ workLoadAt nodes m := by
  obtain ⟨before, name, after, rfl, hfind, -, hbefore, hafter⟩ := h
  rcases List.mem_append.1 hx with hx | hx
  · exact (hbefore x hx m hm hactive).le
  · rcases List.mem_cons.1 hx with rfl | hx
    · obtain rfl : n = m := Option.some.inj (hfind.symm.trans hm)
      exact le_rfl
    · exact hafter x hx m hm hactive

/-- **A node is passed over** among the names: it is not active, or each time it is named an
active node with no more work was named before, or one with less is named after. -/
def PassedOver (nodes : List Node) (xs : List (CStr × α)) (name : CStr) : Prop :=
  ∀ n, findNode nodes name = some n → isActiveAt nodes n = true →
    ∀ before x after, xs = before ++ x :: after → findNode nodes x.1 = some n →
      (∃ y ∈ before, ∃ m, findNode nodes y.1 = some m ∧ isActiveAt nodes m = true ∧ workLoadAt nodes m ≤
        workLoadAt nodes n) ∨
        ∃ y ∈ after, ∃ m, findNode nodes y.1 = some m ∧ isActiveAt nodes m = true ∧
          workLoadAt nodes m < workLoadAt nodes n

/-- It is not the one that is selected. -/
theorem passedOver_iff {name : CStr} : PassedOver nodes xs name ↔ ∀ n a, findNode nodes name = some n →
    ¬LeastBusy nodes xs n a := by
  constructor
  · rintro h n a hfind ⟨before, name', after, rfl, hname', hactive, hbefore, hafter⟩
    rcases h n hfind hactive before (name', a) after rfl hname' with ⟨y, hy, m, hm, hm', hle⟩ | ⟨y, hy, m, hm, hm', hlt⟩
    · exact absurd (hbefore y hy m hm hm') (not_lt.2 hle)
    · exact absurd (hafter y hy m hm hm') (not_le.2 hlt)
  · intro h n hfind hactive before x after hsplit hx
    by_contra hnot
    obtain ⟨hbefore, hafter⟩ := not_or.1 hnot
    refine h n x.2 hfind ⟨before, x.1, after, hsplit, hx, hactive, ?_, ?_⟩
    · intro y hy m hm hm'
      by_contra hle
      exact hbefore ⟨y, hy, m, hm, hm', not_lt.1 hle⟩
    · intro y hy m hm hm'
      by_contra hlt
      exact hafter ⟨y, hy, m, hm, hm', not_le.1 hlt⟩

/-- The node that is selected is the active one of an offer. -/
theorem LeastBusy.placed (h : LeastBusy nodes xs n a) :
    ∃ x ∈ xs, findNode nodes x.1 = some n ∧ isActiveAt nodes n = true := by
  obtain ⟨before, name, after, rfl, hfind, hactive, -, -⟩ := h
  exact ⟨(name, a), by simp, hfind, hactive⟩

theorem LeastBusy.onActive (h : LeastBusy nodes xs n a) : ∃ x ∈ xs, OnActive nodes x.1 := by
  obtain ⟨x, hx, hfind, hactive⟩ := h.placed
  exact ⟨x, hx, n, hfind, hactive⟩

/-! ## Copies and partial reduces -/

/-- What a copy offers: its node, with the number of the block there. -/
def Copy.offer (copy : Copy) : CStr × UInt16 := (copy.nodeName, copy.numBlock)

/-- **What the fold of `selectNode` over copies of registered nodes selects.** -/
theorem selectNodeToMap_selects {copies : List Copy}
    (h : ∀ copy ∈ copies, (findNode nodes copy.nodeName).isSome = true) :
    ∃ selected, selectNodeToMap nodes copies = some selected ∧
      (selected = none ↔ ∀ copy ∈ copies, ¬OnActive nodes copy.nodeName) ∧
      ∀ n numBlock, selected = some (n, numBlock) ↔ LeastBusy nodes (copies.map Copy.offer) n numBlock := by
  have hfold := foldlM_lessBusy (List.forall_mem_map.2 h : ∀ x ∈
    copies.map Copy.offer, (findNode nodes x.1).isSome = true)
  rw [List.foldlM_map] at hfold
  refine ⟨_, hfold, ?_, fun n numBlock => bestOffer_eq_some⟩
  rw [bestOffer_eq_none, List.forall_mem_map]
  exact Iff.rfl

/-- What the fold selects when it comes to its end, whether the nodes are registered or not. -/
theorem selectNodeToMap_eq {copies : List Copy} {selected : Option (ℕ × UInt16)}
    (h : selectNodeToMap nodes copies = some selected) :
    selected = bestOffer nodes (copies.map Copy.offer) := by
  refine eq_bestOffer ?_
  rw [List.foldlM_map]
  exact h

/-- What a partial reduce offers: its node. -/
def Reduce.offer (reduce : Reduce) : CStr × Unit := (reduce.finalNode, ())

/-- **What the fold of `searchNode` over partial reduces on registered nodes selects.** -/
theorem selectFinalNode_selects {reduces : List Reduce}
    (h : ∀ reduce ∈ reduces, (findNode nodes reduce.finalNode).isSome = true) :
    ∃ selected, selectFinalNode nodes reduces = some selected ∧
      (selected = none ↔ ∀ reduce ∈ reduces, ¬OnActive nodes reduce.finalNode) ∧
      ∀ n, selected = some (n, ()) ↔ LeastBusy nodes (reduces.map Reduce.offer) n () := by
  have hfold := foldlM_lessBusy (List.forall_mem_map.2 h : ∀ x ∈
    reduces.map Reduce.offer, (findNode nodes x.1).isSome = true)
  rw [List.foldlM_map] at hfold
  refine ⟨_, hfold, ?_, fun n => bestOffer_eq_some⟩
  rw [bestOffer_eq_none, List.forall_mem_map]
  exact Iff.rfl

end Mdfs.MaRTA
