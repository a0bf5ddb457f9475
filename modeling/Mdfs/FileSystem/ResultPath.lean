import Mdfs.FileSystem.Ownership
import Mdfs.FileSystem.Places

/-!
# Where a stored file is found

`filesystem_copyTmpFileToMDFS` and `cp -fromfs` cut a path into a folder and a name by the last
name that `getFileName` finds, and by its length; `filesystem_resolveFilePath` cuts it at the last slash.
The two agree on a path that ends in a name, and on no other (`EndsInName`).

* `folder_name_iff`: when the folder and the name make the path.
* `found_iff`: when a file that is stored by the one is found by the other.
* `result_found_iff`: for the results that are imported, and for `cp -fromfs`.
* `result_lost`: a result that is saved, and not found under its path.
-/

namespace Mdfs.FileSystem

open Lib

variable {w v : World} {sort : NodeSort} {c : Console} {path folder name start : CStr} {id : Oid} {f : File}

/-! ## Paths -/

/-- The path ends in a name: it is not empty, and its last byte is not a slash. -/
def EndsInName (path : CStr) : Prop := path ≠ [] ∧ path.getLast? ≠ some 47

instance (path : CStr) : Decidable (EndsInName path) :=
    inferInstanceAs (Decidable (path ≠ [] ∧ path.getLast? ≠ some 47))

/-- A path with a slash, cut at the last one. -/
theorem exists_last_slash (h : 47 ∈ path) : ∃ folder name, path = folder ++ 47 :: name ∧ 47 ∉ name := by
  obtain ⟨name, folder, hreverse, hname⟩ := List.eq_append_cons_of_mem (List.mem_reverse.2 h)
  refine ⟨folder.reverse, name.reverse, ?_, fun hmem => hname (List.mem_reverse.1 hmem)⟩
  have hback := congrArg List.reverse hreverse
  rw [List.reverse_reverse] at hback
  rw [hback]
  simp

theorem lastSlashPos_append (h : 47 ∉ name) : lastSlashPos (folder ++ 47 :: name) = some folder.length := by
  have hlen : (folder ++ 47 :: name).length = folder.length + 1 + name.length := by
    rw [List.length_append, List.length_cons]
    omega
  -- the positions behind the slash come first
  have hrange : (List.range (folder.length + 1 + name.length)).reverse =
      ((List.range name.length).map fun i => folder.length + 1 + i).reverse ++
        folder.length :: (List.range folder.length).reverse := by
    rw [List.range_add, List.range_succ, List.reverse_append, List.reverse_append, List.reverse_singleton,
      List.singleton_append]
  have hslash : (folder ++ 47 :: name)[folder.length]? = some 47 := by
    rw [List.getElem?_append_right le_rfl, Nat.sub_self, List.getElem?_cons_zero]
  unfold lastSlashPos
  rw [hlen, hrange, List.find?_eq_some_iff_append]
  refine ⟨decide_eq_true hslash, _, _, rfl, fun i hi => ?_⟩
  obtain ⟨j, -, rfl⟩ := List.mem_map.1 (List.mem_reverse.1 hi)
  have hplace : (folder ++ 47 :: name)[folder.length + 1 + j]? = name[j]? := by
    have hsub : folder.length + 1 + j - folder.length = j + 1 := by omega
    rw [List.getElem?_append_right (by omega), hsub, List.getElem?_cons_succ]
  rw [hplace, Bool.not_eq_true', decide_eq_false_iff_not]
  exact fun hmem => h (List.mem_of_getElem? hmem)

theorem lastSlashPos_of_notMem (h : 47 ∉ path) : lastSlashPos path = none := by
  unfold lastSlashPos
  refine List.find?_eq_none.2 fun i _ => ?_
  rw [decide_eq_true_eq]
  exact fun hslash => h (List.mem_of_getElem? hslash)

/-- The last name of a path, behind its last slash. -/
theorem getLast?_names (hne : name ≠ []) (h : 47 ∉ name) :
    (stringSplit (folder ++ 47 :: name) 47).getLast? = some name := by
  rw [stringSplit_append, stringSplit_of_notMem hne h, List.getLast?_concat]

theorem endsInName_append (h : 47 ∉ name) : EndsInName (folder ++ 47 :: name) ↔ name ≠ [] := by
  unfold EndsInName
  constructor
  · rintro ⟨-, hlast⟩ rfl
    exact hlast List.getLast?_concat
  · intro hne
    refine ⟨by simp, fun hlast => ?_⟩
    rw [List.getLast?_append_of_ne_nil _ (List.cons_ne_nil _ _), List.getLast?_cons_of_ne_nil hne] at hlast
    exact h (List.mem_of_getLast? hlast)

/-- **The folder and the name** that `getFileName` and the difference of the lengths give make the path just when
it ends in a name. -/
theorem folder_name_iff (path : CStr) : (∃ name ∈ stringSplit path 47, getFileName path = pure name ∧
    path.take (path.length - name.length) ++ name = path) ↔ EndsInName path := by
  constructor
  · rintro ⟨name, hname, -, hpath⟩
    have hne : name ≠ [] := ne_nil_of_mem_pieces hname
    refine ⟨?_, fun hlast => ?_⟩
    · rintro rfl
      exact hne (List.append_eq_nil_iff.1 hpath).2
    · rw [← hpath, List.getLast?_append_of_ne_nil _ hne] at hlast
      exact notMem_of_mem_stringSplit hname (List.mem_of_getLast? hlast)
  · intro hend
    by_cases hslash : 47 ∈ path
    · obtain ⟨folder, name, rfl, hname⟩ := exists_last_slash hslash
      have hne : name ≠ [] := (endsInName_append hname).1 hend
      have hlast : (stringSplit (folder ++ 47 :: name) 47).getLast? = some name := getLast?_names hne hname
      refine ⟨name, List.mem_of_getLast? hlast, ?_, ?_⟩
      · unfold getFileName
        rw [hlast]
      · have hcut : (folder ++ 47 :: name).length - name.length = (folder ++ [47]).length := by
          simp only [List.length_append, List.length_cons, List.length_nil]
          omega
        have hsplit : folder ++ 47 :: name = (folder ++ [47]) ++ name := by
          rw [List.append_assoc, List.singleton_append]
        rw [hcut, hsplit, List.take_left]
    · have hnames := stringSplit_of_notMem hend.1 hslash
      refine ⟨path, ?_, ?_, ?_⟩
      · rw [hnames]
        exact List.mem_singleton_self path
      · unfold getFileName
        rw [hnames]
        rfl
      · rw [Nat.sub_self, List.take_zero, List.nil_append]

/-! ## Resolving after the save -/

/-- The program returns `a` and changes nothing, whatever is decided on the way. -/
def Returns {α : Type} (p : FsProg α) (w : World) (a : α) : Prop :=
  ∃ n, ∀ cs : List Choice, n ≤ cs.length → p.exec handle w cs = some (.ok a, w)

/-- A run that comes to an end returns `a`. -/
theorem Returns.of_exec {α : Type} {p : FsProg α} {a b : α} {cs : List Choice} (h : Returns p w a)
    (hexec : p.exec handle w cs = some (.ok b, v)) : b = a ∧ v = w := by
  obtain ⟨n, hn⟩ := h
  have hlong := hn (cs ++ List.replicate n .done) (by simp)
  rw [Prog.exec_append _ hexec] at hlong
  obtain ⟨hret, hworld⟩ := Prod.mk.inj (Option.some.inj hlong)
  exact ⟨Except.ok.inj hret, hworld⟩

theorem Returns.unique {α : Type} {p : FsProg α} {a b : α} (ha : Returns p w a) (hb : Returns p w b) : a = b := by
  obtain ⟨n, hn⟩ := ha
  exact (hb.of_exec (hn (List.replicate n .done) (List.length_replicate ▸ le_rfl))).1

/-- What is read by lookups of directories. -/
abbrev LooksUpTo {α : Type} (p : FsProg α) (w : World) (a : α) :
    Prop := p.Reads handle (fun _ r => r.isDirLookup = true) w a

theorem LooksUpTo.congr {α : Type} {p : FsProg α} {a : α} (h : LooksUpTo p w a) (hd : v.dirs = w.dirs) :
    LooksUpTo p v a :=
  Prog.Reads.congr (handle_dirLookup_congr hd) h

/-- A program that looks up directories returns what it reads. -/
theorem looksUp_ok {α : Type} {p : FsProg α} {C : World → Req → Choice → Prop} {Q : α → World → Prop}
    {E : Stop → World → Prop}
    (hp : LooksUp p) (hE : ∀ e v, E e v) (hQ : ∀ a, LooksUpTo p w a → Q a w) : p.Ok (worldSpec C) Q E w := by
  have hreads := Prog.Only.ok_reads (h := handle) (C := C) (E := E) (fun _ hr => handle_dirLookup w hr)
    (fun e => hE e w) hp
  refine hreads.imp ?_
  rintro a v ⟨rfl, ha⟩
  exact hQ a ha

/-- Where a file is stored for a path: in the directory of the folder part, if there is one, and else in the
starting directory. -/
def PlacedBy (w : World) (path : CStr) (id : Oid) (start : CStr) (f : File) : Prop :=
  if f.name.length < path.length then
    ∃ dir full, LooksUpTo (filesystemResolveDirPath (path.take (path.length - f.name.length)) id start)
      w (some (dir, full)) ∧
      f.parentId = dir.id
  else f.parentId = id

theorem fileByName_returns {name : CStr} (hf : f ∈ v.files.docs) (hname : f.name = name) (hparent : f.parentId = id) :
    (filesystemGetFileByNameInDir name id).Reads handle (fun _ _ => True) v (some f) := by
  have hfind : v.files.findIdx (name, id) = some f := Collection.findIdx_eq_some.2 ⟨hf, Prod.ext hname hparent⟩
  refine ⟨trivial, some f, fun c => ?_, rfl⟩
  rw [← hfind]
  rfl

/-- A file that is found is of the name that was looked for. -/
theorem fileByName_ok {C : World → Req → Choice → Prop} {Q : Option File → World → Prop} {E : Stop → World → Prop}
    (hQ : ∀ x : Option File, (∀ g ∈ x, g ∈ v.files.docs ∧ g.name = name ∧ g.parentId = id) → Q x v) :
    (filesystemGetFileByNameInDir name id).Ok (worldSpec C) Q E v := by
  simp only [filesystemGetFileByNameInDir, mongoFileGetByNameInDir, ok_ask, Prog.ok_ret, serve]
  refine fun _ _ => hQ _ fun g hg => ?_
  obtain ⟨hmem, hplace⟩ := Collection.findIdx_eq_some.1 hg
  exact ⟨hmem, Prod.mk.inj hplace⟩

theorem reads_startingDir (hd : v.dirs = w.dirs) (hid : w.HasDir id) :
    ∃ d : Dir, d.id = id ∧ (startingDir id).Reads handle (fun _ _ => True) v (some d) := by
  unfold startingDir
  by_cases hroot : id = .root
  · rw [if_pos (by simpa [filesystemIsRootDirId] using hroot)]
    exact ⟨rootDir, hroot.symm, rfl⟩
  · obtain ⟨d, hmem, hdid⟩ := hid.resolve_left hroot
    have hfind : v.dirs.findKey id = some d := Collection.findKey_eq_some.2 ⟨hd ▸ hmem, hdid⟩
    rw [if_neg (by simpa [filesystemIsRootDirId] using hroot)]
    refine ⟨d, hdid, trivial, some d, fun c => ?_, rfl⟩
    rw [← hfind]
    rfl

/-- **The file is found** under a path that ends in a name, if it has a slash or the directory to start from
is there. -/
theorem found (hd : v.dirs = w.dirs) (hf : f ∈ v.files.docs) (hname : (stringSplit path 47).getLast? = some f.name)
    (hplaced : PlacedBy w path id start f) (hend : EndsInName path) (hstart : 47 ∈ path ∨ w.HasDir id) :
    Returns (filesystemResolveFilePath path id start) v (some f) := by
  refine Prog.Reads.exec (P := fun _ _ => True) ?_
  unfold filesystemResolveFilePath
  by_cases hslash : 47 ∈ path
  · obtain ⟨folder, name, rfl, hlast⟩ := exists_last_slash hslash
    have hne : name ≠ [] := (endsInName_append hlast).1 hend
    obtain rfl : name = f.name := Option.some.inj ((getLast?_names hne hlast).symm.trans hname)
    have hlen : f.name.length < (folder ++ 47 :: f.name).length := by
      rw [List.length_append, List.length_cons]
      omega
    have hcut : (folder ++ 47 :: f.name).length - f.name.length = folder.length + 1 := by
      rw [List.length_append, List.length_cons]
      omega
    have hdrop : (folder ++ 47 :: f.name).drop (folder.length + 1) = f.name := by
      rw [← List.singleton_append, ← List.append_assoc]
      exact List.drop_left' (by simp)
    unfold PlacedBy at hplaced
    rw [if_pos hlen, hcut] at hplaced
    obtain ⟨dir, full, hdir, hparent⟩ := hplaced
    rw [lastSlashPos_append hlast]
    refine Prog.reads_bind ((hdir.congr hd).mono fun _ _ => trivial) ?_
    rw [hdrop]
    exact fileByName_returns hf rfl hparent
  · have hnames := stringSplit_of_notMem hend.1 hslash
    rw [hnames] at hname
    have hpath : path = f.name := Option.some.inj hname
    have hlen : ¬f.name.length < path.length := by
      rw [hpath]
      exact lt_irrefl _
    unfold PlacedBy at hplaced
    rw [if_neg hlen] at hplaced
    rw [lastSlashPos_of_notMem hslash]
    obtain ⟨d, hdid, hreads⟩ := reads_startingDir hd (hstart.resolve_left hslash)
    refine Prog.reads_bind hreads ?_
    exact fileByName_returns hf hpath.symm (hplaced.trans hdid.symm)

/-- What a program returns is what its rule says. -/
theorem Returns.post {α : Type} {p : FsProg α} {a : α} {Q : α → World → Prop} (h : Returns p w a)
    (hp : p.Ok (worldSpec fun _ _ _ => True) Q (fun _ _ => True) w) : Q a w := by
  obtain ⟨n, hn⟩ := h
  have hexec := hn (List.replicate n .done) (List.length_replicate ▸ le_rfl)
  exact hp.exec_along (Prog.along_of_mem fun _ _ _ _ => trivial) hexec

/-- The directory to start from is there if it is found. -/
theorem startingDir_has {C : World → Req → Choice → Prop} {Q : Option Dir → World → Prop} {E : Stop → World → Prop}
    (hQ : ∀ x : Option Dir, (x.isSome = true → v.HasDir id) → Q x v) : (startingDir id).Ok (worldSpec C) Q E v := by
  unfold startingDir
  by_cases hroot : id = .root
  · rw [if_pos (by simpa [filesystemIsRootDirId] using hroot)]
    exact hQ _ fun _ => Or.inl hroot
  · rw [if_neg (by simpa [filesystemIsRootDirId] using hroot)]
    simp only [filesystemGetDirById, mongoDirGetById, ok_ask, Prog.ok_ret, serve]
    refine fun _ _ => hQ _ fun hfound => ?_
    obtain ⟨d, hd⟩ := Option.isSome_iff_exists.1 hfound
    obtain ⟨hmem, hdid⟩ := Collection.findKey_eq_some.1 hd
    exact Or.inr ⟨d, hmem, hdid⟩

/-- **A path is resolved to a file** of the name behind the last slash; without a slash, from a
directory that is there. -/
theorem resolveFilePath_name : (filesystemResolveFilePath path id start).Ok (worldSpec fun _ _ _ => True)
    (fun x _ => ∀ g ∈ x, (∀ folder name, path = folder ++ 47 :: name → 47 ∉ name → g.name = name) ∧
      (47 ∉ path → v.HasDir id))
    (fun _ _ => True) v := by
  unfold filesystemResolveFilePath
  by_cases hslash : 47 ∈ path
  · obtain ⟨folder, name, rfl, hlast⟩ := exists_last_slash hslash
    have hdrop : (folder ++ 47 :: name).drop (folder.length + 1) = name := by
      rw [← List.singleton_append, ← List.append_assoc]
      exact List.drop_left' (by simp)
    rw [lastSlashPos_append hlast]
    dsimp only
    rw [Prog.ok_bind, hdrop]
    refine resolveDirPath_ok trivial (fun g hg => absurd hg (Option.not_mem_none g)) fun d _ _ => ?_
    refine fileByName_ok fun x hx g hg => ⟨fun folder' name' hsame hlast' => ?_, fun h => absurd hslash h⟩
    have hpos : lastSlashPos (folder' ++ 47 :: name') = some folder'.length := lastSlashPos_append hlast'
    rw [← hsame, lastSlashPos_append hlast] at hpos
    have hparts := List.append_inj hsame (Option.some.inj hpos)
    rw [(hx g hg).2.1]
    exact (List.cons.inj hparts.2).2
  · rw [lastSlashPos_of_notMem hslash]
    dsimp only
    rw [Prog.ok_bind]
    have hno : ∀ folder name, path = folder ++ 47 :: name → False := by
      rintro folder name rfl
      exact hslash (List.mem_append_right _ List.mem_cons_self)
    refine startingDir_has fun x hx => ?_
    cases x with
    | none => exact fun g hg => absurd hg (Option.not_mem_none g)
    | some d =>
      refine fileByName_ok fun y _ g _ => ⟨fun folder name hsame _ => (hno folder name hsame).elim, fun _ => hx rfl⟩

/-- **When the file is found**: the path ends in a name, and it has a slash or the directory to start from is there. -/
theorem found_iff (hd : v.dirs = w.dirs) (hf : f ∈ v.files.docs) (hname : (stringSplit path 47).getLast? = some f.name)
    (hplaced : PlacedBy w path id start f) :
    Returns (filesystemResolveFilePath path id start) v (some f) ↔ EndsInName path ∧ (47 ∈ path ∨ w.HasDir id) := by
  have hhas : v.HasDir id → w.HasDir id := by
    unfold World.HasDir
    rw [hd]
    exact fun h => h
  constructor
  · intro hfound
    obtain ⟨hlast, hstart⟩ := hfound.post resolveFilePath_name f rfl
    have hmem := List.mem_of_getLast? hname
    have hne : f.name ≠ [] := ne_nil_of_mem_pieces hmem
    by_cases hslash : 47 ∈ path
    · obtain ⟨folder, name, rfl, hnoslash⟩ := exists_last_slash hslash
      refine ⟨(endsInName_append hnoslash).2 ?_, Or.inl hslash⟩
      rw [← hlast folder name rfl hnoslash]
      exact hne
    · refine ⟨⟨?_, fun hend => hslash (List.mem_of_getLast? hend)⟩, Or.inr (hhas (hstart hslash))⟩
      rintro rfl
      cases hname
  · rintro ⟨hend, hstart⟩
    exact found hd hf hname hplaced hend hstart

/-! ## The two programs that store -/

section Storing

variable {C : World → Req → Choice → Prop} {source dest : CStr}

/-- A file is stored behind the others, where the path says. -/
def StoredBy (w v : World) (path : CStr) (id : Oid) (start : CStr) (f : File) : Prop :=
  v.dirs = w.dirs ∧ v.files.docs = w.files.docs ++ [f] ∧ (stringSplit path 47).getLast? = some f.name ∧
    PlacedBy w path id start f

theorem StoredBy.found_iff (h : StoredBy w v path id start f) :
    Returns (filesystemResolveFilePath path id start) v (some f) ↔ EndsInName path ∧ (47 ∈ path ∨ w.HasDir id) := by
  obtain ⟨hd, hf, hname, hplaced⟩ := h
  refine FileSystem.found_iff hd ?_ hname hplaced
  rw [hf]
  exact List.mem_append_right _ List.mem_cons_self

/-- The name that `getFileName` returns is the last one. -/
theorem getFileName_last {Q : CStr → World → Prop} {E : Stop → World → Prop} (hE : ∀ e v, E e v)
    (hQ : ∀ name, (stringSplit path 47).getLast? = some name → Q name w) :
      (getFileName path).Ok (worldSpec C) Q E w := by
  unfold getFileName
  cases hlast : (stringSplit path 47).getLast? with
  | none => exact hE _ _
  | some name => exact hQ name hlast

/-- **`filesystem_copyTmpFileToMDFS`**, when it returns 1. -/
theorem copyTmpFileToMDFS_stored (sort : NodeSort) (nodeId tmpName path : CStr) (reason : UInt8) :
    (filesystemCopyTmpFileToMDFS sort nodeId tmpName path reason).Ok (worldSpec C)
      (fun x v => x.1 = true → ∃ f, StoredBy w v path .root (cstr "/") f) (fun _ _ => True) w := by
  have hno : ∀ (r : UInt8) (v : World), (false, r).1 = true → ∃ f, StoredBy w v path .root (cstr "/") f :=
    fun _ _ h => absurd h Bool.false_ne_true
  unfold filesystemCopyTmpFileToMDFS distributeTmpFile
  rw [Prog.ok_bind, Prog.ok_bind]
  refine getFileName_last (fun _ _ => trivial) fun name hname => ?_
  have hfolder : (resultParentId path name).Ok (worldSpec C) (fun x v => v = w ∧ ∀ p ∈ x, ∀ fid size blocks,
      PlacedBy w path .root (cstr "/") ⟨fid, p, name, size, blocks⟩) (fun _ _ => True) w := by
    unfold resultParentId PlacedBy
    split
    · rw [Prog.ok_bind]
      refine looksUp_ok (looksUp_resolveDirPath _ _ _) (fun _ _ => trivial) fun x hx => ⟨rfl, ?_⟩
      rintro p hp fid size blocks
      obtain ⟨y, rfl, rfl⟩ := Option.map_eq_some_iff.1 hp
      exact ⟨y.1, y.2, hx, rfl⟩
    · refine ⟨rfl, ?_⟩
      rintro p hp fid size blocks
      exact (Option.some.inj hp).symm
  rw [Prog.ok_bind]
  refine hfolder.imp ?_
  rintro x v ⟨rfl, hplaced⟩
  cases x with
  | none => exact hno _ _
  | some parentId =>
    dsimp only
    rw [Prog.ok_bind]
    refine canCreateResource_ok (hno _ _) fun _ _ => ?_
    simp only [if_true, connectionsNodeGetFileContent, Prog.ok_bind, ok_ask, Prog.ok_ret, serve]
    intro c _
    split
    case h_1 => exact hno _ _
    case h_2 => trivial
    case h_3 content _ _ =>
      simp only [Prog.ok_bind]
      refine blocksOrStop_ok (fun _ _ => trivial) fun bs _ => ?_
      refine distribute_places (fun _ _ => trivial) fun distributed blocks u hdirs hfiles => ?_
      cases distributed with
      | false => exact hno _ _
      | true =>
        simp only [if_true, Prog.ok_pure, saveTmpFileOrCrash, Prog.ok_bind]
        refine fileSave_ok trivial fun files c' _ _ hins _ => ?_
        have hdocs := (Collection.insert_eq_some.1 hins).2
        rw [hfiles] at hdocs
        exact ⟨_, hdirs, hdocs, hname, hplaced _ rfl _ _ _⟩

/-- **`cp -fromfs`** to a path that is not one of a directory, when it stores a file. -/
theorem copyFileFromfs_stored (sort : NodeSort) (source : CStr)
    (hnone : Returns (filesystemResolveDirPath dest c.currentDirId c.currentDirPrompt) w none) :
    (copyFileFromfs sort c (some source) (some dest)).Ok (worldSpec C)
      (fun _ v => ∀ f, v.files.docs = w.files.docs ++ [f] → StoredBy w v dest c.currentDirId c.currentDirPrompt
        f) (fun _ _ => True) w := by
  have hsame : ∀ {files : Files} {f : File}, files.docs.length ≤ w.files.docs.length →
    ¬files.docs = w.files.docs ++ [f] := by
    intro files f hle heq
    rw [heq, List.length_append, List.length_singleton] at hle
    omega
  have hcopy : ∀ name parentId, (stringSplit dest 47).getLast? = some name →
      (∀ fid size blocks, PlacedBy w dest c.currentDirId c.currentDirPrompt ⟨fid, parentId, name, size, blocks⟩) →
      (filesystemCopyFileFromFS sort source ⟨.root, parentId, name, 0, []⟩).Ok (worldSpec C)
        (fun _ v => ∀ f, v.files.docs = w.files.docs ++ [f] → StoredBy w v dest c.currentDirId c.currentDirPrompt f)
        (fun _ _ => True) w := by
    intro name parentId hname hplaced
    refine copyFileFromFS_places (fun _ _ => trivial) ?_ ?_ ?_
    · intro _ v _ hfiles f hdocs
      exact absurd hdocs (hsame (hfiles ▸ le_rfl))
    · intro _ v gone _ hfiles f hdocs
      refine absurd hdocs (hsame ?_)
      rw [hfiles]
      exact List.length_filter_le _ _
    · intro v g hgname hgparent _ hdirs hins f hdocs
      have hg := (Collection.insert_eq_some.1 hins).2
      obtain rfl : g = f := List.singleton_inj.1 (List.append_cancel_left (hg.symm.trans hdocs))
      obtain ⟨gid, gparent, gname, gsize, gblocks⟩ := g
      obtain rfl : gname = name := hgname
      obtain rfl : gparent = parentId := hgparent
      exact ⟨hdirs, hdocs, hname, hplaced _ _ _⟩
  unfold copyFileFromfs
  dsimp only
  rw [Prog.ok_bind]
  refine getFileName_ok trivial fun localFileName => ?_
  simp only [copyDestination, Prog.ok_bind]
  refine looksUp_ok (looksUp_resolveDirPath _ _ _) (fun _ _ => trivial) fun x hx => ?_
  -- the path is not one of a directory
  have hreturns : Returns (filesystemResolveDirPath dest c.currentDirId c.currentDirPrompt) w x := hx.exec
  obtain rfl : x = none := hreturns.unique hnone
  dsimp only
  rw [Prog.ok_bind]
  refine getFileName_last (fun _ _ => trivial) fun name hname => ?_
  split
  · rename_i hlt
    rw [Prog.ok_bind]
    refine looksUp_ok (looksUp_resolveDirPath _ _ _) (fun _ _ => trivial) fun y hy => ?_
    cases y with
    | none => exact fun f hdocs => absurd hdocs (hsame le_rfl)
    | some y =>
      simp only [Prog.ok_pure, Prog.ok_bind]
      refine hcopy _ _ hname fun fid size blocks => ?_
      unfold PlacedBy
      rw [if_pos hlt]
      exact ⟨y.1, y.2, hy, rfl⟩
  · rename_i hge
    simp only [Prog.ok_pure, Prog.ok_bind]
    refine hcopy _ _ hname fun fid size blocks => ?_
    unfold PlacedBy
    rw [if_neg hge]

end Storing

/-- **Where a stored result is found.** The folder and the name make the path just when it ends in a name. A result
that is imported is found under its path just then, and so is the file that `cp -fromfs` stores for a path that is not
one of a directory, if the path has a slash or the current directory is there. -/
theorem result_found_iff (sort : NodeSort) :
    (∀ path, (∃ name ∈ stringSplit path 47, getFileName path = pure name ∧
      path.take (path.length - name.length) ++ name = path) ↔ EndsInName path) ∧
    (∀ nodeId tmpName path reason reason' w v cs,
      (filesystemCopyTmpFileToMDFS sort nodeId tmpName path reason).exec handle w cs = some (.ok (true, reason'), v) →
      ∃ f, v.files.docs = w.files.docs ++ [f] ∧
        (Returns (filesystemResolveFilePath path .root (cstr "/")) v (some f) ↔ EndsInName path)) ∧
    ∀ c source dest w v cs f, (copyFileFromfs sort c (some source) (some dest)).exec handle w cs = some (.ok (), v) →
      Returns (filesystemResolveDirPath dest c.currentDirId c.currentDirPrompt) w none →
        v.files.docs = w.files.docs ++ [f] →
      (Returns (filesystemResolveFilePath dest c.currentDirId c.currentDirPrompt) v (some f) ↔
        EndsInName dest ∧ (47 ∈ dest ∨ w.HasDir c.currentDirId)) := by
  refine ⟨folder_name_iff, ?_, ?_⟩
  · intro nodeId tmpName path reason reason' w v cs hexec
    have hrun := copyTmpFileToMDFS_stored (C := fun _ _ _ => True) (w := w) sort nodeId tmpName path reason
    obtain ⟨f, hstored⟩ := hrun.exec_along (Prog.along_of_mem fun _ _ _ _ => trivial) hexec rfl
    refine ⟨f, hstored.2.1, hstored.found_iff.trans ?_⟩
    exact and_iff_left (Or.inr (Or.inl rfl))
  · intro c source dest w v cs f hexec hnone hdocs
    have hrun := copyFileFromfs_stored (C := fun _ _ _ => True) sort source hnone
    have hstored := hrun.exec_along (Prog.along_of_mem fun _ _ _ _ => trivial) hexec f hdocs
    exact hstored.found_iff

/-- Three nodes of two blocks, and the directory `/r`. -/
def nodesAndDir : World :=
  { World.empty fun _ => [] with
    dirs := ⟨[⟨.gen 0, .root, cstr "r"⟩], by decide, by decide⟩
    nodes := ⟨[nodeCreate (cstr "n1") 2, nodeCreate (cstr "n2") 2, nodeCreate (cstr "n3") 2], by decide, by decide⟩
    oids := 1 }

/-- The result `x` as it is imported to a path, and what is decided on the way. -/
def importTo (path : CStr) : FsProg (Bool × UInt8) := filesystemCopyTmpFileToMDFS insertionSort (cstr "n1")
    (cstr "t") path 22

def importTwo : List Choice :=
  List.replicate 3 Choice.done ++ [Choice.bytes (cstr "x" ++ [0])] ++ List.replicate 12 Choice.done

theorem result_found_two : ∃ v f, (importTo (cstr "/r/x")).exec handle nodesAndDir importTwo =
    some (.ok (true, 22), v) ∧
    v.files.docs = [f] ∧ Returns (filesystemResolveFilePath (cstr "/r/x") .root (cstr "/")) v (some f) := by
  have hall : ∃ x ∈ (importTo (cstr "/r/x")).exec handle nodesAndDir importTwo, x.1.toOption =
    some (true, 22) := by decide +kernel
  obtain ⟨⟨r, v⟩, hx, hr⟩ := hall
  have hexec : (importTo (cstr "/r/x")).exec handle nodesAndDir importTwo = some (.ok (true, 22), v) := by
    cases r with
    | ok r => cases hr; exact hx
    | error e => cases hr
  obtain ⟨f, hdocs, hfound⟩ := (result_found_iff insertionSort).2.1 _ _ _ _ _ _ _ _ hexec
  exact ⟨v, f, hexec, by simpa [nodesAndDir, World.empty] using hdocs, hfound.2 (by decide)⟩

/-- **A result that is lost**: the path `/r/` of a directory. The name is `r`, the folder `/r`, and the file is stored
there; the name that is looked for is empty. A path of slashes has no name at all. -/
theorem result_lost : (∃ v f, (importTo (cstr "/r/")).exec handle nodesAndDir importTwo = some (.ok (true, 22), v) ∧
      v.files.docs = [f] ∧ ¬Returns (filesystemResolveFilePath (cstr "/r/") .root (cstr "/")) v (some f)) ∧
    getFileName (cstr "/r/") = pure (cstr "r") ∧ (cstr "/r/").take (3 - 1) ++ cstr "r" ≠ cstr "/r/" ∧
    getFileName (cstr "//") = .stop .crash := by
  have hall : ∃ x ∈ (importTo (cstr "/r/")).exec handle nodesAndDir importTwo, x.1.toOption = some (true, 22) ∧
      x.2.files.docs.length = 1 ∧
      ∃ y ∈ (filesystemResolveFilePath (cstr "/r/") .root (cstr "/")).exec handle x.2 (List.replicate 2 .done),
        y.1.toOption = some none := by decide +kernel
  obtain ⟨⟨r, v⟩, hx, hr, hlen, ⟨q, u⟩, hy, hq⟩ := hall
  have hexec : (importTo (cstr "/r/")).exec handle nodesAndDir importTwo = some (.ok (true, 22), v) := by
    cases r with
    | ok r => cases hr; exact hx
    | error e => cases hr
  obtain ⟨f, hf⟩ := List.length_eq_one_iff.1 hlen
  refine ⟨⟨v, f, hexec, hf, fun hfound => ?_⟩, rfl, by decide, rfl⟩
  cases q with
  | ok q =>
    cases hq
    cases (hfound.of_exec hy).1
  | error e => cases hq

end Mdfs.FileSystem
