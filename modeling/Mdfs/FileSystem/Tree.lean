import Mdfs.Lib.Forest
import Mdfs.FileSystem.Names

/-!
# The directories as a tree

Each command writes one `parentId` and looks at no other. `IsTree` holds as long
as no directory is moved below itself and nothing is stored in a current directory
that `rm -r` has removed.

* `upheld_isTree`: every change that does neither keeps the tree.
* `store_is_tree`: so does every session.
* `tree_broken`: a session for each of the two.
-/

namespace Mdfs.FileSystem

open Lib

variable {w v : World} {sort : NodeSort}

/-- The parent of a stored directory. -/
def World.parentOf (w : World) (id : Oid) : Option Oid := (w.dirs.findKey id).map Dir.parentId

/-- **The store is a tree**: parents are there, and lead to the root. -/
structure IsTree (w : World) : Prop where
  dirParent : ∀ d ∈ w.dirs.docs, w.HasDir d.parentId
  fileParent : ∀ f ∈ w.files.docs, w.HasDir f.parentId
  rooted : ∀ d ∈ w.dirs.docs, Rooted w.parentOf .root d.id

theorem parentOf_eq_some {a b : Oid} : w.parentOf a = some b ↔ ∃ d ∈ w.dirs.docs, d.id = a ∧ d.parentId = b := by
  simp only [World.parentOf, Option.map_eq_some_iff, Collection.findKey_eq_some, and_assoc]

theorem IsTree.rootedDir (h : IsTree w) {id : Oid} (hid : w.HasDir id) : Rooted w.parentOf .root id := by
  rcases hid with rfl | ⟨d, hd, rfl⟩
  · exact .top
  · exact h.rooted d hd

/-- The tree is a matter of ids and parents. -/
theorem IsTree.congr (h : IsTree w) (hd : v.dirs = w.dirs) (hf : v.files = w.files) : IsTree v := by
  have hp : v.parentOf = w.parentOf := funext fun a => by simp only [World.parentOf, hd]
  refine ⟨?_, ?_, ?_⟩
  · simp only [World.HasDir, hd]; exact h.dirParent
  · simp only [World.HasDir, hd, hf]; exact h.fileParent
  · rw [hp, hd]; exact h.rooted

/-- More files, in directories that are there. -/
theorem IsTree.files (h : IsTree w) (hd : v.dirs = w.dirs)
    (hf : ∀ f ∈ v.files.docs, w.HasDir f.parentId) : IsTree v := by
  have hp : v.parentOf = w.parentOf := funext fun a => by simp only [World.parentOf, hd]
  refine ⟨?_, fun f hmem => ?_, ?_⟩
  · simp only [World.HasDir, hd]; exact h.dirParent
  · simp only [World.HasDir, hd]; exact hf f hmem
  · rw [hp, hd]; exact h.rooted

/-- **A new directory** in one that is there. -/
theorem IsTree.dirStored (h : IsTree w) {d : Dir} (hp : w.HasDir d.parentId)
    (hins : w.dirs.insert d = some v.dirs) (hf : v.files = w.files) : IsTree v := by
  obtain ⟨hnew, hdocs⟩ := Collection.insert_eq_some.1 hins
  have hhas : ∀ id, w.HasDir id → v.HasDir id := by
    rintro id (hid | ⟨e, he, hid⟩)
    · exact Or.inl hid
    · exact Or.inr ⟨e, by rw [hdocs]; exact List.mem_append_left _ he, hid⟩
  have hgrow : ∀ a b, w.parentOf a = some b → v.parentOf a = some b := by
    intro a b hab
    obtain ⟨e, he, hab⟩ := parentOf_eq_some.1 hab
    exact parentOf_eq_some.2 ⟨e, by rw [hdocs]; exact List.mem_append_left _ he, hab⟩
  have hd : v.parentOf d.id = some d.parentId :=
    parentOf_eq_some.2 ⟨d, by rw [hdocs]; exact List.mem_append_right _ (List.mem_singleton_self d), rfl, rfl⟩
  refine ⟨fun e he => ?_, fun f hmem => hhas _ (h.fileParent f (hf ▸ hmem)), fun e he => ?_⟩
  · rw [hdocs] at he
    rcases List.mem_append.1 he with he | he
    · exact hhas _ (h.dirParent e he)
    · rw [List.mem_singleton.1 he]; exact hhas _ hp
  · rw [hdocs] at he
    rcases List.mem_append.1 he with he | he
    · exact (h.rooted e he).grow hgrow
    · rw [List.mem_singleton.1 he]
      exact .up hd ((h.rootedDir hp).grow hgrow)

/-- **A directory removed** with all that is in it. -/
theorem IsTree.cleared (h : IsTree w) (hc : Cleared w v) : IsTree v := by
  have hhas : ∀ id, w.HasDir id → (∀ e ∈ w.dirs.docs, e ∉ v.dirs.docs → id ≠ e.id) → v.HasDir id := by
    rintro id (hid | ⟨e, he, rfl⟩) hleft
    · exact Or.inl hid
    · by_cases hv : e ∈ v.dirs.docs
      · exact Or.inr ⟨e, hv, rfl⟩
      · exact absurd rfl (hleft e he hv)
  -- a directory that is left has its parent left
  set gone : Oid → Prop := fun id => ∃ e ∈ w.dirs.docs, e ∉ v.dirs.docs ∧ id = e.id
  have hpar : ∀ a, ¬gone a → v.parentOf a = w.parentOf a := by
    intro a ha
    refine Option.ext fun b => ?_
    rw [parentOf_eq_some, parentOf_eq_some]
    constructor
    · rintro ⟨d, hd, hab⟩
      exact ⟨d, hc.dirs d hd, hab⟩
    · rintro ⟨d, hd, hid, hb⟩
      refine ⟨d, ?_, hid, hb⟩
      by_contra hv
      exact ha ⟨d, hd, hv, hid.symm⟩
  have hleft : ∀ a b, ¬gone a → w.parentOf a = some b → ¬gone b := by
    rintro a b ha hab ⟨e, he, hv, rfl⟩
    obtain ⟨d, hd, hid, hb⟩ := parentOf_eq_some.1 ((hpar a ha).trans hab)
    exact hc.dirLeft e he hv d hd hb
  have hstay : ∀ d ∈ v.dirs.docs, ¬gone d.id := by
    rintro d hd ⟨e, he, hv, hid⟩
    exact hv (Collection.eq_of_key (hc.dirs d hd) he hid ▸ hd)
  exact ⟨fun d hd => hhas _ (h.dirParent d (hc.dirs d hd)) fun e he hv => hc.dirLeft e he hv d hd,
    fun f hf => hhas _ (h.fileParent f (hc.files f hf)) fun e he hv => hc.fileLeft e he hv f hf,
    fun d hd => (h.rooted d (hc.dirs d hd)).prune hpar hleft (hstay d hd)⟩

theorem hasDir_iff {id : Oid} : w.HasDir id ↔ id = .root ∨ id ∈ w.dirs.docs.map Dir.id := by
  simp only [World.HasDir, List.mem_map]

/-- An update of a directory that keeps its id keeps the ids. -/
theorem hasDir_update {id a : Oid} {g : Dir → Dir} (hg : ∀ d, (g d).id = d.id) :
    ({ w with dirs := w.dirs.update id g } : World).HasDir a ↔ w.HasDir a := by
  rw [hasDir_iff, hasDir_iff, Collection.map_update hg]

/-- The parents after one directory was rewritten. -/
theorem parentOf_rewrite {id : Oid} {g : Dir → Dir} (hg : ∀ d, (g d).id = d.id)
    (hv : v.dirs.docs = w.dirs.rewrite id g) (a : Oid) :
    v.parentOf a = (w.dirs.findKey a).map fun d => if d.id = id then (g d).parentId else d.parentId := by
  rw [World.parentOf, Collection.findKey_rewrite hv hg, Option.map_map]
  refine congrArg (fun f => Option.map f _) (funext fun d => ?_)
  simp only [Function.comp_apply]
  split <;> rfl

/-- **A directory moved** into one that is not below it. -/
theorem IsTree.dirMoved (h : IsTree w) {id p : Oid} (hp : w.HasDir p)
    (hfree : ∀ d ∈ w.dirs.docs, d.id = id → ¬Under w.parentOf id p ∨ (d.name, p) ∈ w.dirs.docs.map Dir.place) :
    IsTree { w with dirs := w.dirs.update id fun d => { d with parentId := p } } := by
  set g : Dir → Dir := fun d => { d with parentId := p }
  have hg : ∀ d, (g d).id = d.id := fun _ => rfl
  have hsame : w.dirs.update id g = w.dirs → IsTree { w with dirs := w.dirs.update id g } := fun hu => h.congr hu rfl
  cases hd : w.dirs.findKey id with
  | none =>
    exact hsame (Collection.update_self fun a ha hid => absurd hid (Collection.findKey_eq_none.1 hd a ha))
  | some d =>
    obtain ⟨hmem, rfl⟩ := Collection.findKey_eq_some.1 hd
    rcases hfree d hmem rfl with hnot | htaken
    · rcases Collection.docs_update_or (c := w.dirs) (k := d.id) (f := g) with hu | hu
      · have hpar := parentOf_rewrite (v := { w with dirs := w.dirs.update d.id g }) hg hu
        have hother : ∀ a, a ≠ d.id → World.parentOf { w with dirs := w.dirs.update d.id g } a = w.parentOf a := by
          intro a ha
          rw [hpar]
          refine Option.map_congr fun e he => if_neg ?_
          rw [(Collection.findKey_eq_some.1 he).2]
          exact ha
        have hself : World.parentOf { w with dirs := w.dirs.update d.id g } d.id = some p := by
          rw [hpar, hd]
          exact congrArg some (if_pos rfl)
        refine ⟨fun e he => ?_, fun f hf => (hasDir_update hg).2 (h.fileParent f hf), fun e he => ?_⟩
        · rw [hasDir_update hg]
          rcases Collection.mem_update he with he | ⟨b, -, rfl⟩
          · exact h.dirParent e he
          · exact hp
        -- the new parent is not below the directory, so no cycle closes
        · have hroot : ∀ b ∈ w.dirs.docs, Rooted (World.parentOf { w with dirs := w.dirs.update d.id g }) .root b.id :=
            fun b hb => .reparent hother hself (h.rootedDir hp) hnot (h.rooted b hb)
          rcases Collection.mem_update he with he | ⟨b, hb, rfl⟩
          · exact hroot e he
          · exact hroot b (Collection.findKey_eq_some.1 hb).1
      · exact hsame hu
    · -- the unique index refuses the move, unless it changes nothing
      obtain ⟨e, he, hplace⟩ := List.mem_map.1 htaken
      by_cases hid : e.id = d.id
      · cases Collection.eq_of_key he hmem hid
        simp only [Dir.place, Prod.mk.injEq] at hplace
        refine hsame (Collection.update_self fun a ha haid => ?_)
        rw [Collection.eq_of_key ha hmem haid]
        exact congrArg (fun p => ({ d with parentId := p } : Dir)) hplace.2.symm
      · exact hsame (Collection.update_taken hmem he hid hplace)

/-- **A directory renamed.** -/
theorem IsTree.dirRenamed (h : IsTree w) {id : Oid} {n : CStr} :
    IsTree { w with dirs := w.dirs.update id fun d => { d with name := n } } := by
  set g : Dir → Dir := fun d => { d with name := n }
  have hg : ∀ d, (g d).id = d.id := fun _ => rfl
  have hpar : World.parentOf { w with dirs := w.dirs.update id g } = w.parentOf := by
    funext a
    rcases Collection.docs_update_or (c := w.dirs) (k := id) (f := g) with hu | hu
    · rw [parentOf_rewrite (v := { w with dirs := w.dirs.update id g }) hg hu]
      exact Option.map_congr fun e _ => by split <;> rfl
    · simp only [World.parentOf, hu]
  refine ⟨fun e he => ?_, fun f hf => (hasDir_update hg).2 (h.fileParent f hf), fun e he => ?_⟩
  · rw [hasDir_update hg]
    rcases Collection.mem_update he with he | ⟨b, hb, rfl⟩
    · exact h.dirParent e he
    · exact h.dirParent b (Collection.findKey_eq_some.1 hb).1
  · rw [hpar]
    rcases Collection.mem_update he with he | ⟨b, hb, rfl⟩
    · exact h.rooted e he
    · exact h.rooted b (Collection.findKey_eq_some.1 hb).1

/-! ## Sessions -/

/-- The directory in which a request stores. -/
def Req.storedIn : Req → Option Oid
  | .dirInsert d => some d.parentId
  | .fileInsert f => some f.parentId
  | _ => none

/-- What is stored in the current directory is stored while that is there. -/
def StoresInDir (c : Console) (w : World) (r : Req) (x : Choice) : Prop :=
  x.ok = true → ∀ p ∈ r.storedIn, p = c.currentDirId → w.HasDir p

/-- The directory and the destination of a move. -/
def Req.dirMove : Req → Option (Oid × Oid)
  | .dirSetParent id p => some (id, p)
  | _ => none

/-- No directory is moved below itself, where the unique index would let it. -/
def MovesAside (w : World) (r : Req) : Prop :=
  ∀ m ∈ r.dirMove, ∀ d ∈ w.dirs.docs, d.id = m.1 →
    ¬Under w.parentOf m.1 m.2 ∨ (d.name, m.2) ∈ w.dirs.docs.map Dir.place

/-- **The condition**: no directory is moved below itself, and nothing is stored in
a current directory that is gone. -/
def KeepsTree (c : Console) (w : World) (r : Req) (x : Choice) : Prop := StoresInDir c w r x ∧ MovesAside w r

/-- The changes of a session keep the tree. -/
theorem upheld_isTree : Upheld KeepsTree fun _ w => IsTree w where
  same h hd hf := h.congr hd hf
  formatted _ hd hf := by
    refine ⟨fun d hmem => ?_, fun f hmem => ?_, fun d hmem => ?_⟩
    · rw [hd] at hmem; cases hmem
    · rw [hf] at hmem; cases hmem
    · rw [hd] at hmem; cases hmem
  entered h _ := h
  fileStored h hparent hask hd hins := by
    obtain ⟨u, x, hud, -, hC, hok⟩ := hask.met
    refine h.files hd fun g hg => ?_
    rw [(Collection.insert_eq_some.1 hins).2] at hg
    rcases List.mem_append.1 hg with hg | hg
    · exact h.fileParent g hg
    · rw [List.mem_singleton.1 hg]
      rcases hparent with hp | hp
      · exact hp
      · have := hC.1 hok _ rfl hp
        simpa only [World.HasDir, hud] using this
  dirStored h hparent _ hud _ hC hok hf hins := by
    have := hC.1 hok _ rfl hparent
    refine h.dirStored ?_ hins hf
    simpa only [World.HasDir, hud] using this
  cleared h hc := h.cleared hc
  -- the one change that needs its condition: a directory is not moved below itself
  dirMoved h hp hx := h.dirMoved hp fun d hd hid => hx.2 _ rfl d hd hid
  fileMoved h hp _ := by
    refine h.files rfl fun f hf => ?_
    rcases Collection.mem_update hf with hf | ⟨b, -, rfl⟩
    · exact h.fileParent f hf
    · exact hp
  dirRenamed h _ := h.dirRenamed
  fileRenamed h _ := by
    refine h.files rfl fun f hf => ?_
    rcases Collection.mem_update hf with hf | ⟨b, hb, rfl⟩
    · exact h.fileParent f hf
    · exact h.fileParent b (Collection.findKey_eq_some.1 hb).1

/-- **The directory store stays a tree.** From a store without directories and
files, after every session in which no directory is moved below itself and nothing
is stored in a current directory that is gone. -/
theorem store_is_tree (sort : NodeSort) (w : World) (es : List (Action × ℕ × List Choice)) (s : Session)
    (hdirs : w.dirs.docs = []) (hfiles : w.files.docs = [])
    (hC : Along (Session.step sort) (Session.Meets sort KeepsTree) ⟨.start, w⟩ es)
    (hrun : run (Session.step sort) ⟨.start, w⟩ es = some s) : IsTree s.world := by
  have hstart : IsTree w := ⟨by simp [hdirs], by simp [hfiles], by simp [hdirs]⟩
  exact upheld_run upheld_isTree (s := ⟨.start, w⟩) hstart hC hrun

instance decidableHasDir (w : World) (id : Oid) : Decidable (w.HasDir id) :=
  inferInstanceAs (Decidable (id = .root ∨ ∃ d ∈ w.dirs.docs, d.id = id))

/-- The condition as it is computed: the way up from the destination is followed
for as many steps as there are directories, and one more. -/
def KeepsTreeUp (c : Console) (w : World) (r : Req) (x : Choice) : Prop :=
  (x.ok = true → ∀ p ∈ r.storedIn, p = c.currentDirId → w.HasDir p) ∧
    ∀ m ∈ r.dirMove, clear w.parentOf m.1 (w.dirs.docs.length + 1) m.2 = true

instance decidableKeepsTreeUp (c : Console) (w : World) (r : Req) (x : Choice) : Decidable (KeepsTreeUp c w r x) :=
  inferInstanceAs (Decidable ((x.ok = true → ∀ p ∈ r.storedIn, p = c.currentDirId → w.HasDir p) ∧
    ∀ m ∈ r.dirMove, clear w.parentOf m.1 (w.dirs.docs.length + 1) m.2 = true))

theorem KeepsTreeUp.keeps {c : Console} {r : Req} {x : Choice} (h : KeepsTreeUp c w r x) : KeepsTree c w r x :=
  ⟨h.1, fun m hm _ _ _ => Or.inl (not_under_of_clear (h.2 m hm))⟩

/-- `mkdir a`, `cd a`, `mkdir b`, `mv /a/b /`, `rm -r /a`, `cd /b`, `mkdir c`. -/
def moveOut : List (Action × ℕ × List Choice) :=
  [(.command (.mkdir (par "a")), 0, List.replicate 4 .done), (.command (.cd (par "a")), 0, [.done]),
    (.command (.mkdir (par "b")), 0, List.replicate 4 .done),
    (.command (.mv (par "/a/b") (par "/")), 0, List.replicate 3 .done),
    (.command (.rm (par "-r") (par "/a")), 1, List.replicate 4 .done), (.command (.cd (par "/b")), 0, [.done]),
    (.command (.mkdir (par "c")), 0, List.replicate 4 .done)]

theorem store_is_tree_moved : ∃ s, run (Session.step insertionSort) ⟨.start, .empty fun _ => []⟩ moveOut = some s ∧
    s.world.dirs.docs = [⟨.gen 1, .root, cstr "b"⟩, ⟨.gen 2, .gen 1, cstr "c"⟩] ∧ IsTree s.world := by
  obtain ⟨s, hs, hdocs⟩ : ∃ s, run (Session.step insertionSort) ⟨.start, .empty fun _ => []⟩ moveOut = some s ∧
      s.world.dirs.docs = [⟨.gen 1, .root, cstr "b"⟩, ⟨.gen 2, .gen 1, cstr "c"⟩] := by decide +kernel
  have hup : Along (Session.step insertionSort) (Session.Meets insertionSort KeepsTreeUp)
      ⟨.start, .empty fun _ => []⟩ moveOut := by decide +kernel
  exact ⟨s, hs, hdocs, store_is_tree _ _ _ s rfl rfl
    (hup.mono fun _ _ h => Prog.Along.mono (fun _ _ _ => KeepsTreeUp.keeps) h) hs⟩

/-- **The tree broken**: a directory moved into itself, and a directory made in one
that `rm -r` has removed. -/
theorem tree_broken :
    (∃ s, run (Session.step insertionSort) ⟨.start, .empty fun _ => []⟩
        [(.command (.mkdir (par "a")), 0, List.replicate 4 .done),
          (.command (.mv (par "a") (par "a")), 0, List.replicate 3 .done)] = some s ∧ ¬IsTree s.world) ∧
    ∃ s, run (Session.step insertionSort) ⟨.start, .empty fun _ => []⟩
        [(.command (.mkdir (par "a")), 0, List.replicate 4 .done), (.command (.cd (par "a")), 0, [.done]),
          (.command (.rm (par "-r") (par "/a")), 1, List.replicate 4 .done),
          (.command (.mkdir (par "b")), 0, List.replicate 4 .done)] = some s ∧ ¬IsTree s.world := by
  constructor
  · obtain ⟨s, hs, hdocs⟩ : ∃ s, run (Session.step insertionSort) ⟨.start, .empty fun _ => []⟩
        [(.command (.mkdir (par "a")), 0, List.replicate 4 .done),
          (.command (.mv (par "a") (par "a")), 0, List.replicate 3 .done)] = some s ∧
        s.world.dirs.docs = [⟨.gen 0, .gen 0, cstr "a"⟩] := by decide +kernel
    refine ⟨s, hs, fun h => ?_⟩
    have hroot := h.rooted ⟨.gen 0, .gen 0, cstr "a"⟩ (by simp [hdocs])
    refine not_rooted (s := fun id => id = .gen 0) (fun a ha => ⟨.gen 0, ?_, rfl⟩) (by simp) rfl hroot
    exact parentOf_eq_some.2 ⟨_, by rw [hdocs]; exact List.mem_singleton_self _, ha.symm, rfl⟩
  · obtain ⟨s, hs, hdocs⟩ : ∃ s, run (Session.step insertionSort) ⟨.start, .empty fun _ => []⟩
        [(.command (.mkdir (par "a")), 0, List.replicate 4 .done), (.command (.cd (par "a")), 0, [.done]),
          (.command (.rm (par "-r") (par "/a")), 1, List.replicate 4 .done),
          (.command (.mkdir (par "b")), 0, List.replicate 4 .done)] = some s ∧
        s.world.dirs.docs = [⟨.gen 1, .gen 0, cstr "b"⟩] := by decide +kernel
    refine ⟨s, hs, fun h => ?_⟩
    have hp := h.dirParent ⟨.gen 1, .gen 0, cstr "b"⟩ (by simp [hdocs])
    simp [World.HasDir, hdocs] at hp

end Mdfs.FileSystem
