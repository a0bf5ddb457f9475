import Mdfs.FileSystem.Places
import Mdfs.FileSystem.Ownership

/-!
# Names in a directory

Creation looks for the name among the directories and among the files. Moves and
renamings leave it to the unique index of each collection, which sees nothing of
the other one.

* `names_unique`: where no move or renaming takes a name of the other collection,
  no two resources of a directory ever have the same name.
* `name_taken_twice`: a renaming that does.
-/

namespace Mdfs.FileSystem

open Lib

variable {w : World} {sort : NodeSort}

def Dir.place (d : Dir) : CStr × Oid := (d.name, d.parentId)
def File.place (f : File) : CStr × Oid := (f.name, f.parentId)

/-- The names of all the resources, each with its directory. -/
def World.places (w : World) : List (CStr × Oid) := w.dirs.docs.map Dir.place ++ w.files.docs.map File.place

/-- The place that a request gives to a stored directory. -/
def Req.dirPlace (w : World) : Req → Option (CStr × Oid)
  | .dirSetParent id p => (w.dirs.findKey id).map fun d => (d.name, p)
  | .dirSetName id n => (w.dirs.findKey id).map fun d => (n, d.parentId)
  | _ => none

/-- The place that a request gives to a stored file. -/
def Req.filePlace (w : World) : Req → Option (CStr × Oid)
  | .fileSetParent id p => (w.files.findKey id).map fun f => (f.name, p)
  | .fileSetName id n => (w.files.findKey id).map fun f => (n, f.parentId)
  | _ => none

/-- **No move and no renaming takes a name of the other collection.** -/
def TakesFreeName (_ : Console) (w : World) (r : Req) (_ : Choice) : Prop :=
  (∀ x ∈ r.dirPlace w, x ∉ w.files.docs.map File.place) ∧ ∀ x ∈ r.filePlace w, x ∉ w.dirs.docs.map Dir.place

instance decidableTakesFreeName (c : Console) (w : World) (r : Req) (x : Choice) :
    Decidable (TakesFreeName c w r x) :=
  inferInstanceAs (Decidable ((∀ x ∈ r.dirPlace w, x ∉ w.files.docs.map File.place) ∧
    ∀ x ∈ r.filePlace w, x ∉ w.dirs.docs.map Dir.place))

/-- No directory and file are at the same place. -/
def NoClash (_ : Console) (w : World) : Prop :=
  ∀ d ∈ w.dirs.docs, ∀ f ∈ w.files.docs, d.place ≠ f.place

theorem NoClash.nodup {c : Console} (h : NoClash c w) : w.places.Nodup := by
  refine List.nodup_append.2 ⟨w.dirs.nodup_idx, w.files.nodup_idx, ?_⟩
  rintro a ha b hb rfl
  obtain ⟨d, hd, rfl⟩ := List.mem_map.1 ha
  obtain ⟨f, hf, he⟩ := List.mem_map.1 hb
  exact h d hd f hf he.symm

/-- A stored directory changed to one whose place no file has. -/
theorem NoClash.dirUpdate {c : Console} (h : NoClash c w) {id : Oid} {g : Dir → Dir}
    (hg : ∀ d, w.dirs.findKey id = some d → (g d).place ∉ w.files.docs.map File.place) :
    NoClash c { w with dirs := w.dirs.update id g } := by
  intro d hd f hf he
  rcases Collection.mem_update hd with hd | ⟨b, hb, rfl⟩
  · exact h d hd f hf he
  · exact hg b hb (he ▸ List.mem_map_of_mem hf)

/-- A stored file changed to one whose place no directory has. -/
theorem NoClash.fileUpdate {c : Console} (h : NoClash c w) {id : Oid} {g : File → File}
    (hg : ∀ f, w.files.findKey id = some f → (g f).place ∉ w.dirs.docs.map Dir.place) :
    NoClash c { w with files := w.files.update id g } := by
  intro d hd f hf he
  rcases Collection.mem_update hf with hf | ⟨b, hb, rfl⟩
  · exact h d hd f hf he
  · exact hg b hb (he ▸ List.mem_map_of_mem hd)

/-- The changes of a session keep the names apart. -/
theorem upheld_noClash : Upheld TakesFreeName NoClash where
  same h hd hf := by
    unfold NoClash
    rw [hd, hf]
    exact h
  formatted _ hd _ := by
    intro d hmem
    rw [hd] at hmem
    cases hmem
  entered h _ := h
  fileStored h _ hask hd hins := by
    intro d hmem g hg
    rw [hd] at hmem
    rw [(Collection.insert_eq_some.1 hins).2] at hg
    rcases List.mem_append.1 hg with hg | hg
    · exact h d hmem g hg
    · cases List.mem_singleton.1 hg
      exact hask.noDir d hmem
  dirStored h _ hfile _ _ _ _ hf hins := by
    intro e he f hmem
    rw [hf] at hmem
    rw [(Collection.insert_eq_some.1 hins).2] at he
    rcases List.mem_append.1 he with he | he
    · exact h e he f hmem
    · cases List.mem_singleton.1 he
      exact (hfile f hmem).symm
  cleared h hc := fun d hd f hf => h d (hc.dirs d hd) f (hc.files f hf)
  dirMoved h _ hx := h.dirUpdate fun d hd => hx.1 _ (by simp only [Req.dirPlace, hd]; rfl)
  fileMoved h _ hx := h.fileUpdate fun f hf => hx.2 _ (by simp only [Req.filePlace, hf]; rfl)
  dirRenamed h hx := h.dirUpdate fun d hd => hx.1 _ (by simp only [Req.dirPlace, hd]; rfl)
  fileRenamed h hx := h.fileUpdate fun f hf => hx.2 _ (by simp only [Req.filePlace, hf]; rfl)

/-- **Names are unique inside a directory.** From a store without directories and
files, after every session of commands and imports in which no move and no
renaming takes a name of the other collection. -/
theorem names_unique (sort : NodeSort) (w : World) (es : List (Action × ℕ × List Choice)) (s : Session)
    (hdirs : w.dirs.docs = []) (hfiles : w.files.docs = [])
    (hC : Along (Session.step sort) (Session.Meets sort TakesFreeName) ⟨.start, w⟩ es)
    (hrun : run (Session.step sort) ⟨.start, w⟩ es = some s) : s.world.places.Nodup := by
  have hstart : NoClash .start w := by simp [NoClash, hdirs, hfiles]
  exact (upheld_run upheld_noClash (s := ⟨.start, w⟩) hstart hC hrun).nodup

/-- The parameters of a command line. -/
def par (s : String) : Option CStr := some (cstr s)

/-- The text `hello` copied to `a`, and a directory `b`. -/
def fileAndDir : List (Action × ℕ × List Choice) :=
  [(.command (.cpFromfs (par "/tmp/a") (par "a")), 0, .done :: importHello),
    (.command (.mkdir (par "b")), 0, List.replicate 4 .done)]

/-- The file moved into the directory, and the directory renamed. -/
def moveAndRename : List (Action × ℕ × List Choice) :=
  [(.command (.mv (par "a") (par "b")), 0, List.replicate 4 .done),
    (.command (.rename (par "b") (par "a")), 0, List.replicate 2 .done)]

theorem names_unique_moved : ∃ w s, run (Operation.step insertionSort) (World.empty fun _ => []) threeNodes = some w ∧
    run (Session.step insertionSort) ⟨.start, w⟩ (fileAndDir ++ moveAndRename) = some s ∧
    s.world.places = [(cstr "a", .root), (cstr "a", .gen 1)] ∧ s.world.places.Nodup := by
  obtain ⟨w, hw, hdirs, hfiles, hC, s, hs, hplaces⟩ : ∃ w ∈ run (Operation.step insertionSort)
      (World.empty fun _ => []) threeNodes, w.dirs.docs = [] ∧ w.files.docs = [] ∧
      Along (Session.step insertionSort) (Session.Meets insertionSort TakesFreeName) ⟨.start, w⟩
        (fileAndDir ++ moveAndRename) ∧
      ∃ s ∈ run (Session.step insertionSort) ⟨.start, w⟩ (fileAndDir ++ moveAndRename),
        s.world.places = [(cstr "a", .root), (cstr "a", .gen 1)] := by decide +kernel
  exact ⟨w, s, hw, hs, hplaces, names_unique _ w _ s hdirs hfiles hC hs⟩

/-- **A name taken twice**: a directory renamed to the name of a file beside it. -/
theorem name_taken_twice : ∃ w, run (Operation.step insertionSort) (World.empty fun _ => []) threeNodes = some w ∧
    w.dirs.docs = [] ∧ w.files.docs = [] ∧
    ∃ s, run (Session.step insertionSort) ⟨.start, w⟩ (fileAndDir ++
        [(.command (.rename (par "b") (par "a")), 0, List.replicate 2 .done)]) = some s ∧
      s.world.places = [(cstr "a", .root), (cstr "a", .root)] ∧ ¬s.world.places.Nodup := by
  decide +kernel

end Mdfs.FileSystem
