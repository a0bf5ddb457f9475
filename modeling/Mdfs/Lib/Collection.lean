import Mathlib.Data.List.Nodup
import Mathlib.Data.List.Basic

/-!
# Keyed collections with a unique index

A collection of documents in which no two share a primary key and no two share
the value of a unique index. Both facts are fields, so a collection that breaks
them cannot be built: `insert` refuses the document, and `update` leaves the
collection as it was.

* `findKey_eq_some`: a key finds the one document that has it.
* `docs_update`: an update that keeps key and index rewrites one document in place.
-/

namespace Lib

/-- Documents with distinct keys and distinct index values. -/
structure Collection {α κ ι : Type} (key : α → κ) (idx : α → ι) where
  docs : List α
  nodup_key : (docs.map key).Nodup
  nodup_idx : (docs.map idx).Nodup

namespace Collection

variable {α κ ι : Type} {key : α → κ} {idx : α → ι}

@[ext] theorem ext {c d : Collection key idx} (h : c.docs = d.docs) : c = d := by
  cases c; cases d; cases h; rfl

def empty : Collection key idx := ⟨[], List.nodup_nil, List.nodup_nil⟩

@[simp] theorem docs_empty : (empty : Collection key idx).docs = [] := rfl

/-- The collection without the documents that satisfy `p`. -/
def remove (c : Collection key idx) (p : α → Bool) : Collection key idx where
  docs := c.docs.filter fun a => !p a
  nodup_key := c.nodup_key.sublist (List.filter_sublist.map key)
  nodup_idx := c.nodup_idx.sublist (List.filter_sublist.map idx)

@[simp] theorem mem_remove {c : Collection key idx} {p : α → Bool} {a : α} :
    a ∈ (c.remove p).docs ↔ a ∈ c.docs ∧ p a = false := by
  simp [remove, List.mem_filter]

/-- The documents rewritten by a function that keeps key and index. -/
def mapDocs (c : Collection key idx) (f : α → α) (hk : ∀ a, key (f a) = key a)
    (hi : ∀ a, idx (f a) = idx a) : Collection key idx where
  docs := c.docs.map f
  nodup_key := by
    rw [List.map_map, show key ∘ f = key from funext hk]; exact c.nodup_key
  nodup_idx := by
    rw [List.map_map, show idx ∘ f = idx from funext hi]; exact c.nodup_idx

theorem eq_of_key {c : Collection key idx} {a b : α} (ha : a ∈ c.docs) (hb : b ∈ c.docs)
    (h : key a = key b) : a = b := List.inj_on_of_nodup_map c.nodup_key ha hb h

theorem eq_of_idx {c : Collection key idx} {a b : α} (ha : a ∈ c.docs) (hb : b ∈ c.docs)
    (h : idx a = idx b) : a = b := List.inj_on_of_nodup_map c.nodup_idx ha hb h

/-- The document with key `k`. -/
def findKey [DecidableEq κ] (c : Collection key idx) (k : κ) : Option α := c.docs.find? fun a => key a = k

/-- The document with index value `i`. -/
def findIdx [DecidableEq ι] (c : Collection key idx) (i : ι) : Option α := c.docs.find? fun a => idx a = i

/-- The collection with one more document; `none` when its key or its index
value is taken. -/
def insert [DecidableEq κ] [DecidableEq ι] (c : Collection key idx) (a : α) :
    Option (Collection key idx) :=
  if h : key a ∉ c.docs.map key ∧ idx a ∉ c.docs.map idx then
    some ⟨c.docs ++ [a], by
      simpa using List.nodup_append.2 ⟨c.nodup_key, List.nodup_singleton (key a), by
        intro x hx y hy; simp only [List.mem_singleton] at hy; rintro rfl; exact h.1 (hy ▸ hx)⟩, by
      simpa using List.nodup_append.2 ⟨c.nodup_idx, List.nodup_singleton (idx a), by
        intro x hx y hy; simp only [List.mem_singleton] at hy; rintro rfl; exact h.2 (hy ▸ hx)⟩⟩
  else none

/-- The documents with `f` applied to the one with key `k`. -/
def rewrite [DecidableEq κ] (c : Collection key idx) (k : κ) (f : α → α) : List α :=
  c.docs.map fun a => if key a = k then f a else a

/-- The update of the document with key `k`, refused when it would duplicate a
key or an index value. -/
def update [DecidableEq κ] [DecidableEq ι] (c : Collection key idx) (k : κ) (f : α → α) :
    Collection key idx :=
  if h : ((c.rewrite k f).map key).Nodup ∧ ((c.rewrite k f).map idx).Nodup then
    ⟨c.rewrite k f, h.1, h.2⟩
  else c

theorem findKey_eq_some [DecidableEq κ] {c : Collection key idx} {k : κ} {a : α} :
    c.findKey k = some a ↔ a ∈ c.docs ∧ key a = k := by
  constructor
  · intro h
    exact ⟨List.mem_of_find?_eq_some h, by simpa using List.find?_some h⟩
  · rintro ⟨ha, rfl⟩
    obtain ⟨b, hb⟩ : ∃ b, c.findKey (key a) = some b :=
      Option.isSome_iff_exists.1 (List.find?_isSome.2 ⟨a, ha, by simp⟩)
    rw [hb, eq_of_key (List.mem_of_find?_eq_some hb) ha (by simpa using List.find?_some hb)]

theorem findIdx_eq_some [DecidableEq ι] {c : Collection key idx} {i : ι} {a : α} :
    c.findIdx i = some a ↔ a ∈ c.docs ∧ idx a = i := by
  constructor
  · intro h
    exact ⟨List.mem_of_find?_eq_some h, by simpa using List.find?_some h⟩
  · rintro ⟨ha, rfl⟩
    obtain ⟨b, hb⟩ : ∃ b, c.findIdx (idx a) = some b :=
      Option.isSome_iff_exists.1 (List.find?_isSome.2 ⟨a, ha, by simp⟩)
    rw [hb, eq_of_idx (List.mem_of_find?_eq_some hb) ha (by simpa using List.find?_some hb)]

theorem findKey_eq_none [DecidableEq κ] {c : Collection key idx} {k : κ} :
    c.findKey k = none ↔ ∀ a ∈ c.docs, key a ≠ k := by
  simp [findKey, List.find?_eq_none]

theorem findIdx_eq_none [DecidableEq ι] {c : Collection key idx} {i : ι} :
    c.findIdx i = none ↔ ∀ a ∈ c.docs, idx a ≠ i := by
  simp [findIdx, List.find?_eq_none]

theorem insert_eq_some [DecidableEq κ] [DecidableEq ι] {c d : Collection key idx} {a : α} :
    c.insert a = some d ↔
    (∀ b ∈ c.docs, key b ≠ key a ∧ idx b ≠ idx a) ∧ d.docs = c.docs ++ [a] := by
  unfold insert
  split
  · rename_i h
    simp only [Option.some.injEq, List.mem_map, not_exists, not_and] at h ⊢
    constructor
    · rintro rfl; exact ⟨fun b hb => ⟨h.1 b hb, h.2 b hb⟩, rfl⟩
    · rintro ⟨-, hd⟩; exact ext hd.symm
  · rename_i h
    simp only [reduceCtorEq, false_iff, not_and]
    intro hb _
    refine h ⟨?_, ?_⟩ <;> simp only [List.mem_map, not_exists, not_and] <;> intro b hm
    · exact (hb b hm).1
    · exact (hb b hm).2

/-- A document whose key and index value are free is inserted. -/
theorem exists_insert [DecidableEq κ] [DecidableEq ι] {c : Collection key idx} {a : α}
    (h : ∀ b ∈ c.docs, key b ≠ key a ∧ idx b ≠ idx a) : ∃ d, c.insert a = some d := by
  unfold insert
  refine ⟨_, dif_pos ⟨fun hmem => ?_, fun hmem => ?_⟩⟩
  · obtain ⟨b, hb, he⟩ := List.mem_map.1 hmem
    exact (h b hb).1 he
  · obtain ⟨b, hb, he⟩ := List.mem_map.1 hmem
    exact (h b hb).2 he

/-- What `f` keeps of a document, rewriting with `f` keeps of all. -/
theorem map_rewrite [DecidableEq κ] {β : Type} {c : Collection key idx} {k : κ} {f : α → α} {g : α → β}
    (hg : ∀ a, g (f a) = g a) : (c.rewrite k f).map g = c.docs.map g := by
  simp only [rewrite, List.map_map]
  refine List.map_congr_left fun a _ => ?_
  simp only [Function.comp]
  split <;> simp [hg]

/-- **An update that keeps key and index rewrites one document in place.** -/
theorem docs_update [DecidableEq κ] [DecidableEq ι] {c : Collection key idx} {k : κ} {f : α → α}
    (hk : ∀ a, key (f a) = key a) (hi : ∀ a, idx (f a) = idx a) : (c.update k f).docs = c.rewrite k f := by
  simp only [update, map_rewrite hk, map_rewrite hi, c.nodup_key, c.nodup_idx, and_self, dite_true]

/-- Where a document stands: what rewriting it or removing it does to the list. -/
theorem split [DecidableEq κ] {c : Collection key idx} {a : α} (ha : a ∈ c.docs) :
    ∃ A B, c.docs = A ++ a :: B ∧ (∀ f, c.rewrite (key a) f = A ++ f a :: B) ∧
      (c.remove fun b => key b = key a).docs = A ++ B := by
  obtain ⟨A, B, hAB⟩ := List.append_of_mem ha
  have hn := c.nodup_key
  rw [hAB, List.map_append, List.map_cons, List.nodup_append, List.nodup_cons] at hn
  have hA : ∀ b ∈ A, key b ≠ key a := fun b hb => hn.2.2 _ (List.mem_map_of_mem hb) _ List.mem_cons_self
  have hB : ∀ b ∈ B, key b ≠ key a := fun b hb he => hn.2.1.1 (he ▸ List.mem_map_of_mem hb)
  refine ⟨A, B, hAB, fun f => ?_, ?_⟩
  · rw [rewrite, hAB, List.map_append, List.map_cons, if_pos rfl]
    congr 1
    · exact (List.map_congr_left fun b hb => if_neg (hA b hb)).trans (List.map_id A)
    · congr 1
      exact (List.map_congr_left fun b hb => if_neg (hB b hb)).trans (List.map_id B)
  · simp only [remove, hAB, List.filter_append, List.filter_cons, decide_true, Bool.not_true,
      Bool.false_eq_true, if_false]
    congr 1
    · exact List.filter_eq_self.2 fun b hb => by simpa using hA b hb
    · exact List.filter_eq_self.2 fun b hb => by simpa using hB b hb

/-- An update is applied or refused. -/
theorem docs_update_or [DecidableEq κ] [DecidableEq ι] {c : Collection key idx} {k : κ} {f : α → α} :
    (c.update k f).docs = c.rewrite k f ∨ c.update k f = c := by
  unfold update; split
  · exact Or.inl rfl
  · exact Or.inr rfl

/-- What `f` keeps of a document, an update with `f` keeps of all. -/
theorem map_update [DecidableEq κ] [DecidableEq ι] {β : Type} {c : Collection key idx} {k : κ} {f : α → α}
    {g : α → β} (hg : ∀ a, g (f a) = g a) : (c.update k f).docs.map g = c.docs.map g := by
  rcases docs_update_or (c := c) (k := k) (f := f) with h | h
  · rw [h, map_rewrite hg]
  · rw [h]

/-- An update that changes no document. -/
theorem update_self [DecidableEq κ] [DecidableEq ι] {c : Collection key idx} {k : κ} {f : α → α}
    (hf : ∀ a ∈ c.docs, key a = k → f a = a) : c.update k f = c := by
  rcases docs_update_or (c := c) (k := k) (f := f) with h | h
  · refine ext (h.trans ((List.map_congr_left fun a ha => ?_).trans (List.map_id c.docs)))
    split
    · exact hf a ha (by assumption)
    · rfl
  · exact h

/-- Looking up a key after one document was rewritten. -/
theorem findKey_rewrite [DecidableEq κ] {c d : Collection key idx} {k : κ} {f : α → α}
    (hd : d.docs = c.rewrite k f) (hk : ∀ a, key (f a) = key a) (j : κ) :
    d.findKey j = (c.findKey j).map fun a => if key a = k then f a else a := by
  have hkey : ∀ a, key (if key a = k then f a else a) = key a := fun a => by split <;> simp [hk]
  rw [findKey, hd, rewrite, List.find?_map, findKey]
  simp only [Function.comp_def, hkey]

/-- An update that would give a document the index value of another is refused. -/
theorem update_taken [DecidableEq κ] [DecidableEq ι] {c : Collection key idx} {a b : α} {f : α → α}
    (ha : a ∈ c.docs) (hb : b ∈ c.docs) (hne : key b ≠ key a) (hi : idx b = idx (f a)) :
    c.update (key a) f = c := by
  unfold update
  rw [dif_neg]
  rintro ⟨-, hn⟩
  obtain ⟨A, B, hAB, hrw, -⟩ := split ha
  rw [hrw, List.map_append, List.map_cons, List.nodup_append, List.nodup_cons] at hn
  have hmem : b ∈ A ∨ b ∈ B := by
    rw [hAB] at hb
    rcases List.mem_append.1 hb with h | h
    · exact Or.inl h
    · rcases List.mem_cons.1 h with rfl | h
      · exact absurd rfl hne
      · exact Or.inr h
  rcases hmem with h | h
  · exact hn.2.2 _ (List.mem_map_of_mem h) _ List.mem_cons_self hi
  · exact hn.2.1.1 (hi ▸ List.mem_map_of_mem h)

/-- A document after an update was there before, or is the updated one. -/
theorem mem_update [DecidableEq κ] [DecidableEq ι] {c : Collection key idx} {k : κ} {f : α → α} {a : α}
    (ha : a ∈ (c.update k f).docs) : a ∈ c.docs ∨ ∃ b, c.findKey k = some b ∧ a = f b := by
  rcases docs_update_or (c := c) (k := k) (f := f) with h | h
  · rw [h, rewrite, List.mem_map] at ha
    obtain ⟨b, hb, rfl⟩ := ha
    split
    · rename_i hk
      exact Or.inr ⟨b, findKey_eq_some.2 ⟨hb, hk⟩, rfl⟩
    · exact Or.inl hb
  · exact Or.inl (h ▸ ha)

end Collection

end Lib
