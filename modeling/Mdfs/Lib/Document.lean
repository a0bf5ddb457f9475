import Mathlib.Data.List.Basic
import Mdfs.Lib.Decimal

/-!
# Ordered documents

A document is a list of fields, a key and a value each, as BSON has them. An array is a document
whose keys are the numbers from zero on, in decimal digits.

`Documented update` is what a database documents of two updates of an array within an array, which
is reached by the path of its key and its place: `$addToSet` adds a value that is not there, and `$pull`
removes all that are equal. Both compare documents of one form; `update` is one such database.

* `ofValues_append`, `getElem?_ofValues`: the keys follow the places.
* `decimalKey_injective`: an element is found by its key.
* `update_documented`: `update` does what is documented.
-/

namespace Lib.Document

abbrev Key := List UInt8

inductive Value
  | utf8 (text : List UInt8)
  | int32 (n : Int32)
  | int64 (n : Int64)
  | binary (data : List UInt8)
  | document (fields : List (Key × Value))
  | array (fields : List (Key × Value))

abbrev Doc := List (Key × Value)

/-- The bytes of an ASCII text. -/
def key (s : String) : Key := s.toList.map fun c => c.toNat.toUInt8

/-- The decimal digits of a number. -/
def decimalKey (n : ℕ) : Key := key (Nat.repr n)

/-- An array of values. -/
def ofValues (values : List Value) : Doc := values.mapIdx fun i v => (decimalKey i, v)

variable {values : List Value} {v e : Value} {i n : ℕ} {path field : Key} {d d' doc before after : Doc}

/-! ## Keys -/

theorem decimalKey_injective {m n : ℕ} (h : decimalKey m = decimalKey n) : m = n := decimalBytes_injective h

/-! ## Arrays -/

theorem ofValues_append (values : List Value) (v : Value) :
    ofValues (values ++ [v]) = ofValues values ++ [(decimalKey values.length, v)] := by
  unfold ofValues
  rw [List.mapIdx_append]
  simp

theorem getElem?_ofValues (values : List Value) (i : ℕ) :
    (ofValues values)[i]? = (values[i]?).map (Prod.mk (decimalKey i)) := by
  unfold ofValues
  rw [List.getElem?_mapIdx]

theorem map_snd_ofValues (values : List Value) : (ofValues values).map Prod.snd = values := by
  refine List.ext_getElem? fun i => ?_
  rw [List.getElem?_map, getElem?_ofValues, Option.map_map]
  exact Option.map_id'

/-- A fold over an array does not look at the keys. -/
theorem foldlM_ofValues {σ : Type} (f : σ → Value → Option σ) (values : List Value) (s : σ) :
    (ofValues values).foldlM (fun s x => f s x.2) s = values.foldlM f s := by
  have hmap : ((ofValues values).map Prod.snd).foldlM f s = (ofValues values).foldlM (fun s x => f s x.2) s :=
    List.foldlM_map
  rw [← hmap, map_snd_ofValues]

/-! ## Documented updates -/

/-- A key that is not an operator and has no dot in it. -/
def Plain (k : Key) : Prop := 46 ∉ k ∧ k.head? ≠ some 36

inductive Kind
  | utf8 | int32 | int64 | binary | document | array
  deriving DecidableEq

def Value.kind : Value → Kind
  | .utf8 _ => .utf8
  | .int32 _ => .int32
  | .int64 _ => .int64
  | .binary _ => .binary
  | .document _ => .document
  | .array _ => .array

/-- The keys of a document, and what kind of values they have. -/
def form (doc : Doc) : List (Key × Kind) := doc.map fun x => (x.1, x.2.kind)

/-- A form of texts and numbers under plain keys. -/
def Flat (form : List (Key × Kind)) : Prop := ∀ x ∈ form, Plain x.1 ∧ (x.2 = .utf8 ∨ x.2 = .int32)

/-- Two documents of one flat form. -/
def Alike (e v : Value) : Prop := ∃ d d', e = .document d ∧ v = .document d' ∧ form d = form d' ∧ Flat (form d')

/-- The path of an element of the array `field`. -/
def elementPath (field : Key) (i : ℕ) : Key := field ++ key "." ++ decimalKey i

/-- `{ $addToSet: { path: value } }`. -/
def addToSet (path : Key) (value : Value) : Doc := [(key "$addToSet", .document [(path, value)])]

/-- `{ $pull: { path: value } }`. -/
def pull (path : Key) (value : Value) : Doc := [(key "$pull", .document [(path, value)])]

/-- A document with an array of arrays under one of its keys. -/
def withArray (before : Doc) (field : Key) (arrays : List Value) (after : Doc) : Doc :=
  before ++ (field, .array (ofValues arrays)) :: after

/-- The array `arrays` has the array `values` at the place `i`, of documents like `v`; `field` is the only field
of its name. -/
structure Addressed (before : Doc) (field : Key) (arrays : List Value) (after : Doc) (i : ℕ)
    (values : List Value) (v : Value) :
    Prop where
  plain : Plain field
  unique : ∀ x ∈ before ++ after, x.1 ≠ field
  place : arrays[i]? = some (.array (ofValues values))
  alike : ∀ e ∈ values, Alike e v
  form : ∃ d, v = .document d ∧ Flat (form d)

/-- **What a database documents** of the two updates. -/
structure Documented (update : Doc → Doc → Doc) : Prop where
  /-- A value that is in the array is not added; -/
  present : ∀ {before field arrays after i values v}, Addressed before field arrays after i values v → v ∈ values →
    update (withArray before field arrays after) (addToSet (elementPath field i) v) =
      withArray before field arrays after
  /-- any other goes to its end. -/
  added : ∀ {before field arrays after i values v}, Addressed before field arrays after i values v → v ∉ values →
    update (withArray before field arrays after) (addToSet (elementPath field i) v) =
      withArray before field (arrays.set i (.array (ofValues (values ++ [v])))) after
  /-- All that are equal are removed. -/
  pulled : ∀ {before field arrays after i values v} (keep : Value → Bool), Addressed before field arrays after i
    values v →
    (∀ e ∈ values, keep e = true ↔ e ≠ v) →
    update (withArray before field arrays after) (pull (elementPath field i) v) =
      withArray before field (arrays.set i (.array (ofValues (values.filter keep)))) after

/-! ## A database that keeps to it -/

/-- Two texts, or two numbers, that are equal. -/
def Value.sameScalar : Value → Value → Bool
  | .utf8 s, .utf8 t => s = t
  | .int32 m, .int32 n => m = n
  | _, _ => false

/-- Two flat documents that are equal. -/
def Value.same : Value → Value → Bool
  | .document d, .document d' => d.length = d'.length ∧ (d.zip d').all fun x => x.1.1 = x.2.1 ∧ x.1.2.sameScalar x.2.2
  | _, _ => false

/-- A field, with the array in it rewritten if its key is `k`. -/
def rewriteAt (k : Key) (f : Doc → Doc) : Key × Value → Key × Value
  | (k', .array fields) => if k' = k then (k', .array (f fields)) else (k', .array fields)
  | x => x

/-- The array under a key of the array under another one, rewritten. -/
def rewriteElement (field element : Key) (f : Doc → Doc) (doc : Doc) : Doc :=
  doc.map (rewriteAt field fun arrays => arrays.map (rewriteAt element f))

/-- The update of one array, by its path up to the dot and behind it. -/
def update (doc : Doc) : Doc → Doc
  | [(op, .document [(path, v)])] =>
    let field := path.takeWhile fun b => b ≠ 46
    let element := (path.dropWhile fun b => b ≠ 46).drop 1
    if op = key "$addToSet" then
      rewriteElement field element (fun values =>
        if values.any fun x => x.2.same v then values else values ++ [(decimalKey values.length, v)]) doc
    else if op = key "$pull" then
      rewriteElement field element (fun values => ofValues ((values.map Prod.snd).filter fun e => !e.same v)) doc
    else doc
  | _ => doc

variable {arrays : List Value} {f : Doc → Doc}

theorem elementPath_eq (field : Key) (i : ℕ) : elementPath field i = field ++ 46 :: decimalKey i := by
  have hdot : key "." = [46] := rfl
  rw [elementPath, hdot, List.append_assoc, List.singleton_append]

theorem takeWhile_elementPath (h : 46 ∉ field) : (elementPath field i).takeWhile (fun b => b ≠ 46) = field := by
  have hall : ∀ b ∈ field, decide (b ≠ 46) = true := fun b hb => decide_eq_true fun h46 => h (h46 ▸ hb)
  rw [elementPath_eq, List.takeWhile_append_of_pos hall, List.takeWhile_cons_of_neg (by decide), List.append_nil]

theorem dropWhile_elementPath (h : 46 ∉ field) :
    ((elementPath field i).dropWhile fun b => b ≠ 46).drop 1 = decimalKey i := by
  have hall : ∀ b ∈ field, decide (b ≠ 46) = true := fun b hb => decide_eq_true fun h46 => h (h46 ▸ hb)
  rw [elementPath_eq, List.dropWhile_append_of_pos hall, List.dropWhile_cons_of_neg (by decide)]
  rfl

/-- Texts and numbers are compared as they are. -/
theorem sameScalar_iff (hkind : e.kind = v.kind) (hflat : v.kind = .utf8 ∨ v.kind = .int32) :
    e.sameScalar v = true ↔ e = v := by
  cases v with
  | utf8 t =>
    cases e with
    | utf8 s => simp [Value.sameScalar]
    | _ => cases hkind
  | int32 n =>
    cases e with
    | int32 m => simp [Value.sameScalar]
    | _ => cases hkind
  | _ => rcases hflat with h | h <;> cases h

/-- **Documents of one flat form** are compared as they are. -/
theorem same_iff (h : Alike e v) : e.same v = true ↔ e = v := by
  obtain ⟨d, d', rfl, rfl, hform, hflat⟩ := h
  have hfields : ∀ d d' : Doc, form d = form d' → Flat (form d') →
      (((d.zip d').all fun x => x.1.1 = x.2.1 ∧ x.1.2.sameScalar x.2.2) = true ↔ d = d') := by
    intro d
    induction d with
    | nil =>
      intro d' hform _
      cases d' with
      | nil => simp
      | cons y d' => cases hform
    | cons x d ih =>
      intro d' hform hflat
      cases d' with
      | nil => cases hform
      | cons y d' =>
        obtain ⟨hhead, htail⟩ := List.cons_eq_cons.1 hform
        obtain ⟨hkey, hkind⟩ := Prod.mk.inj hhead
        have hrest := ih d' htail fun z hz => hflat z (List.mem_cons_of_mem _ hz)
        have hscalar := sameScalar_iff hkind (hflat _ List.mem_cons_self).2
        rw [List.zip_cons_cons, List.all_cons, Bool.and_eq_true, hrest, List.cons_eq_cons, Prod.ext_iff]
        simp only [decide_eq_true_eq, hscalar]
  have hlen : d.length = d'.length := by
    have hmap := congrArg List.length hform
    unfold form at hmap
    rwa [List.length_map, List.length_map] at hmap
  simp only [Value.same, hlen, true_and, decide_eq_true_eq, hfields d d' hform hflat, Value.document.injEq]

theorem rewriteAt_of_ne {k : Key} {x : Key × Value} (h : x.1 ≠ k) : rewriteAt k f x = x := by
  rcases x with ⟨k', value⟩
  cases value with
  | array fields => exact if_neg h
  | _ => rfl

/-- An array of arrays, with the one at a place rewritten. -/
theorem map_rewriteAt (hplace : arrays[i]? = some (.array (ofValues values))) :
    (ofValues arrays).map (rewriteAt (decimalKey i) f) = ofValues (arrays.set i (.array (f (ofValues values)))) := by
  refine List.ext_getElem? fun j => ?_
  rw [List.getElem?_map, getElem?_ofValues, getElem?_ofValues, List.getElem?_set]
  by_cases hij : i = j
  · subst hij
    obtain ⟨hlt, -⟩ := List.getElem?_eq_some_iff.1 hplace
    rw [hplace, if_pos rfl, if_pos hlt, Option.map_some, Option.map_some, Option.map_some]
    exact congrArg some (if_pos rfl)
  · have hkey : decimalKey j ≠ decimalKey i := fun h => hij (decimalKey_injective h).symm
    rw [if_neg hij]
    cases arrays[j]? with
    | none => rfl
    | some value => exact congrArg some (rewriteAt_of_ne hkey)

/-- **The array at a place**, rewritten: nothing else changes. -/
theorem rewriteElement_withArray (hunique : ∀ x ∈ before ++ after, x.1 ≠ field)
    (hplace : arrays[i]? = some (.array (ofValues values))) :
    rewriteElement field (decimalKey i) f (withArray before field arrays after) =
      withArray before field (arrays.set i (.array (f (ofValues values)))) after := by
  have hothers : ∀ (g : Doc → Doc) (l : Doc), (∀ x ∈ l, x.1 ≠ field) → l.map (rewriteAt field g) = l := by
    intro g l hl
    exact (List.map_congr_left fun x hx => rewriteAt_of_ne (hl x hx)).trans (List.map_id l)
  have hfield : ∀ g : Doc → Doc, rewriteAt field g (field, .array (ofValues arrays)) =
    (field, .array (g (ofValues arrays))) :=
    fun g => if_pos rfl
  unfold rewriteElement withArray
  rw [List.map_append, List.map_cons, hfield, map_rewriteAt hplace,
    hothers _ before fun x hx => hunique x (List.mem_append_left _ hx),
    hothers _ after fun x hx => hunique x (List.mem_append_right _ hx)]

/-- **`update` does what is documented.** -/
theorem update_documented : Documented update where
  present := by
    intro before field arrays after i values v h hv
    have hany : (ofValues values).any (fun x => x.2.same v) = true := by
      obtain ⟨j, hj⟩ := List.mem_iff_getElem?.1 hv
      have hmem : (decimalKey j, v) ∈ ofValues values := by
        refine List.mem_of_getElem? (i := j) ?_
        rw [getElem?_ofValues, hj]
        rfl
      exact List.any_eq_true.2 ⟨_, hmem, (same_iff (h.alike v hv)).2 rfl⟩
    have hset : arrays.set i (.array (ofValues values)) = arrays := by
      obtain ⟨hlt, hget⟩ := List.getElem?_eq_some_iff.1 h.place
      rw [← hget, List.set_getElem_self]
    rw [addToSet, update]
    simp only [if_true, takeWhile_elementPath h.plain.1, dropWhile_elementPath h.plain.1]
    rw [rewriteElement_withArray h.unique h.place, if_pos hany, hset]
  added := by
    intro before field arrays after i values v h hv
    have hany : ¬(ofValues values).any (fun x => x.2.same v) = true := by
      intro hsome
      obtain ⟨x, hx, hsame⟩ := List.any_eq_true.1 hsome
      have hmem : x.2 ∈ values := by
        rw [← map_snd_ofValues values]
        exact List.mem_map_of_mem hx
      exact hv ((same_iff (h.alike x.2 hmem)).1 hsame ▸ hmem)
    have hlen : (ofValues values).length = values.length := List.length_mapIdx
    rw [addToSet, update]
    simp only [if_true, takeWhile_elementPath h.plain.1, dropWhile_elementPath h.plain.1]
    rw [rewriteElement_withArray h.unique h.place, if_neg hany, ofValues_append, hlen]
  pulled := by
    intro before field arrays after i values v keep h hkeep
    have hne : key "$pull" ≠ key "$addToSet" := by decide
    have hfilter : values.filter (fun e => !e.same v) = values.filter keep := by
      refine List.filter_congr fun e he => ?_
      rw [Bool.eq_iff_iff, hkeep e he, ne_eq, ← not_congr (same_iff (h.alike e he)), Bool.not_eq_true',
        Bool.not_eq_true]
    rw [pull, update]
    simp only [if_neg hne, if_true, takeWhile_elementPath h.plain.1, dropWhile_elementPath h.plain.1]
    rw [rewriteElement_withArray h.unique h.place, map_snd_ofValues, hfilter]

end Lib.Document
