import Mdfs.FileSystem.Operations
import Mdfs.FileSystem.Console

/-!
# What the actions of a session do to directories and files

The bitmaps and the disk left aside, whatever their state: most of an action is
scenery, requests that leave the collections of directories and files as they
are. The rest is one insert, one removal, one move or one renaming.

* `Scenery.ok`: a program of scenery requests keeps both collections.
* `copyFileFromFS_places`, `copyTmpFileToMDFS_places`, `deleteDir_places`: what the
  operations that store or delete do to the collections.
* `upheld_run`: what every kind of change upholds holds after every session.
-/

namespace Mdfs.FileSystem

open Lib

variable {C : World → Req → Choice → Prop} {E : Stop → World → Prop} {w v : World} {sort : NodeSort}

/-- The requests that change neither directories nor files. -/
def Req.scenery : Req → Bool
  | .generateId | .dirById _ | .dirsByParent _ | .dirByName .. => true
  | .filesByParent _ | .filesWithNode _ | .fileByName .. => true
  | .nodeInsert _ | .nodeById _ | .nodeAll | .nodeSetBlocks _ => true
  | .isActive _ | .setBlock .. | .getBlock _ | .getFileContent .. | .openFile _ => true
  | _ => false

theorem serve_scenery {r : Req} {c : Choice} (hr : r.scenery = true) :
    (serve w r c).2.dirs = w.dirs ∧ (serve w r c).2.files = w.files := by
  cases r <;> try first | exact ⟨rfl, rfl⟩ | cases hr
  case nodeInsert n =>
    simp only [serve]
    split <;> exact ⟨rfl, rfl⟩

/-- A program that makes only scenery requests. -/
abbrev Scenery {α : Type} (p : FsProg α) : Prop := p.Only fun r => r.scenery = true

/-- **Scenery keeps directories and files.** -/
theorem Scenery.ok {α : Type} {p : FsProg α} {Q : α → World → Prop} (hp : Scenery p) (hE : ∀ e v, E e v)
    (hQ : ∀ a v, v.dirs = w.dirs → v.files = w.files → Q a v) : p.Ok (worldSpec C) Q E w := by
  suffices ∀ u : World, u.dirs = w.dirs → u.files = w.files → p.Ok (worldSpec C) Q E u from this w rfl rfl
  induction p with
  | ret a => exact fun u hd hf => hQ a u hd hf
  | stop e => exact fun u _ _ => hE e u
  | ask r k ih =>
    intro u hd hf
    rw [ok_ask]
    intro c _
    obtain ⟨hd', hf'⟩ := serve_scenery (w := u) (c := c) hp.1
    exact ih _ (hp.2 _) _ (hd'.trans hd) (hf'.trans hf)

theorem scenery_request {r : Req} (hr : r.scenery = true) : Scenery (request r) := ⟨hr, fun _ => trivial⟩

theorem scenery_freeBlockCopies (blocks : List (List FileBlock)) :
    Scenery (Prog.iterate (Prog.iterate freeBlockCopy) blocks) := by
  rw [Prog.iterate_flatten]
  refine Prog.only_iterate (fun c => Prog.only_bind (scenery_request rfl) fun n => ?_) _
  cases n with
  | none => trivial
  | some n => exact scenery_request rfl

theorem scenery_getAllActivatedNodes : Scenery filesystemGetAllActivatedNodes := by
  refine Prog.only_bind (scenery_request rfl) fun nodes => ?_
  refine Prog.only_foldlM (fun N n => Prog.only_bind (scenery_request rfl) fun b => ?_) _ _
  cases b <;> trivial

/-- A distribution changes neither collection, and of the file its blocks at most. -/
theorem distribute_places {bs : List (List UInt8)} {file : File} {Q : Bool × File → World → Prop}
    (hE : ∀ e v, E e v)
    (hQ : ∀ b blocks v, v.dirs = w.dirs → v.files = w.files → Q (b, { file with blocks := blocks }) v) :
    (filesystemDistributeBlocksToNodes sort bs file).Ok (worldSpec C) Q E w := by
  simp only [filesystemDistributeBlocksToNodes, Prog.ok_bind]
  refine Scenery.ok scenery_getAllActivatedNodes hE fun nodes v hd hf => ?_
  split
  case isFalse => exact hQ _ _ v hd hf
  case isTrue =>
    have hsends : ∀ ops : List NodeBlockSendOperation, Scenery (ops.foldlM (fun failed op => do
        let sent ← connectionsNodeSendBlock op
        pure (failed || !sent)) false) := by
      refine fun ops => Prog.only_foldlM (fun failed op => ?_) ops false
      exact Prog.only_bind (scenery_request rfl) fun _ => trivial
    rw [Prog.ok_bind]
    refine Scenery.ok (hsends _) hE fun failed v' hd' hf' => ?_
    cases failed with
    | true => exact hQ _ _ v' (hd'.trans hd) (hf'.trans hf)
    | false =>
      simp only [Bool.false_eq_true, if_false, Prog.ok_bind]
      refine Scenery.ok (Prog.only_iterate (fun op => ?_) _) hE fun _ v'' hd'' hf'' =>
        hQ _ _ v'' (hd''.trans (hd'.trans hd)) (hf''.trans (hf'.trans hf))
      split
      · exact scenery_request rfl
      · trivial

/-- **Deleting a file**, whatever the nodes are like. -/
theorem deleteFile_places {f : File} {Q : Bool → World → Prop} (hE : ∀ e v, E e v)
    (hQ : ∀ v, v.dirs = w.dirs → v.files = w.files.remove (fun g => g.id = f.id) → Q true v) :
    (filesystemDeleteFile (some f)).Ok (worldSpec C) Q E w := by
  simp only [filesystemDeleteFile, Prog.ok_bind]
  refine Scenery.ok (scenery_freeBlockCopies _) hE fun _ v hd hf => ?_
  simp only [mongoFileDeleteById, ok_ask, Prog.ok_ret, serve]
  exact fun _ _ => hQ _ hd (by rw [hf])

/-- **`filesystem_copyFileFromFS`**: a file is stored under a name that was free,
or the collections are as before, but for a removed file that was not saved. -/
theorem copyFileFromFS_places {route : CStr} {file : File} {Q : ℤ → World → Prop} (hE : ∀ e v, E e v)
    (hno : ∀ r v, v.dirs = w.dirs → v.files = w.files → Q r v)
    (hundo : ∀ r v id, v.dirs = w.dirs → v.files = w.files.remove (fun g => g.id = id) → Q r v)
    (hyes : ∀ v f, f.name = file.name → f.parentId = file.parentId → Asked C w f → v.dirs = w.dirs →
      w.files.insert f = some v.files → Q 1 v) :
    (filesystemCopyFileFromFS sort route file).Ok (worldSpec C) Q E w := by
  simp only [filesystemCopyFileFromFS, Prog.ok_bind]
  refine canCreateResource_ok (hno _ _ rfl rfl) fun hdir hname => ?_
  simp only [if_true, Prog.ok_bind]
  refine getFSFileBlocks_ok (fun _ _ _ _ _ _ => hE _ _) (hno _ _ rfl rfl) fun c content bs _ _ _ => ?_
  simp only [Prog.ok_bind]
  refine distribute_places hE fun distributed blocks v hd hf => ?_
  cases distributed with
  | false => exact hno _ v hd hf
  | true =>
    simp only [if_true, Prog.ok_bind]
    refine fileSave_ok ?_ fun files c' hc' hok hins => ?_
    · simp only [Bool.false_eq_true, if_false, Prog.ok_bind]
      refine deleteFile_places hE fun v' hd' hf' => hundo _ v' (.gen v.oids) (hd'.trans hd) ?_
      rw [hf', ← hf]
    · simp only [if_true]
      refine hyes _ ⟨.gen v.oids, file.parentId, file.name, content.length, blocks⟩ rfl rfl
        ⟨hdir, hname, _, c', ?_, ?_, hc', hok⟩ hd (hf ▸ hins)
      · exact hd
      · exact hf

/-- **`filesystem_copyTmpFileToMDFS`**: a file is stored under a name that was free,
in a directory that is there, or the collections are as before. -/
theorem copyTmpFileToMDFS_places {nodeId tmpName path : CStr} {reason : UInt8} {Q : Bool × UInt8 → World → Prop}
    (hE : ∀ e v, E e v) (hno : ∀ r v, v.dirs = w.dirs → v.files = w.files → Q r v)
    (hyes : ∀ r v f, (∃ d, w.IsDir d ∧ f.parentId = d.id) → Asked C w f → v.dirs = w.dirs →
      w.files.insert f = some v.files → Q r v) :
    (filesystemCopyTmpFileToMDFS sort nodeId tmpName path reason).Ok (worldSpec C) Q E w := by
  simp only [filesystemCopyTmpFileToMDFS, Prog.ok_bind]
  refine distributeTmpFile_rule hE (fun r => hno _ _ rfl rfl) fun d name content bs hd hdir hname _ => ?_
  refine distribute_places hE fun distributed blocks v hdirs hfiles => ?_
  cases distributed with
  | false => exact hno _ v hdirs hfiles
  | true =>
    simp only [if_true, saveTmpFileOrCrash, Prog.ok_bind]
    refine fileSave_ok (hE _ _) fun files c' hc' hok hins => ?_
    refine hyes _ _ ⟨.gen v.oids, d.id, name, content.length - 1, blocks⟩ ⟨d, hd, rfl⟩
      ⟨hdir, hname, _, c', ?_, ?_, hc', hok⟩ hdirs (hfiles ▸ hins)
    · exact hdirs
    · exact hfiles

/-- **`filesystem_addDir`**: a directory is stored under a name that was free, or
the collections are as before. -/
theorem addDir_places {d : Dir} {Q : Bool → World → Prop}
    (hno : ∀ v, v.dirs = w.dirs → v.files = w.files → Q false v)
    (hyes : ∀ v u c n, u.dirs = w.dirs → u.files = w.files → C u (.dirInsert { d with id := .gen n }) c → c.ok = true →
      (∀ f ∈ w.files.docs, (f.name, f.parentId) ≠ (d.name, d.parentId)) → v.files = w.files →
      w.dirs.insert { d with id := .gen n } = some v.dirs → Q true v) :
    (filesystemAddDir d).Ok (worldSpec C) Q E w := by
  refine addDir_ok (fun oids _ => hno _ rfl rfl) fun dirs c hfile hc hok hins => ?_
  exact hyes _ { w with oids := w.oids + 1 } c _ rfl rfl hc hok hfile rfl hins

/-! ## Deleting a directory -/

/-- Directories and files are gone, and nothing that is left was in a directory
that is gone. -/
structure Cleared (w v : World) : Prop where
  dirs : ∀ a ∈ v.dirs.docs, a ∈ w.dirs.docs
  files : ∀ f ∈ v.files.docs, f ∈ w.files.docs
  dirLeft : ∀ e ∈ w.dirs.docs, e ∉ v.dirs.docs → ∀ a ∈ v.dirs.docs, a.parentId ≠ e.id
  fileLeft : ∀ e ∈ w.dirs.docs, e ∉ v.dirs.docs → ∀ f ∈ v.files.docs, f.parentId ≠ e.id

theorem Cleared.trans {u : World} (h : Cleared w v) (h' : Cleared v u) : Cleared w u := by
  refine ⟨fun a ha => h.dirs a (h'.dirs a ha), fun f hf => h.files f (h'.files f hf), fun e he hnot a ha => ?_,
    fun e he hnot f hf => ?_⟩
  · by_cases hv : e ∈ v.dirs.docs
    · exact h'.dirLeft e hv hnot a ha
    · exact h.dirLeft e he hv a (h'.dirs a ha)
  · by_cases hv : e ∈ v.dirs.docs
    · exact h'.fileLeft e hv hnot f hf
    · exact h.fileLeft e he hv f (h'.files f hf)

/-- With the directories as they were, files may go. -/
theorem Cleared.ofFiles (hd : v.dirs = w.dirs) (hf : ∀ f ∈ v.files.docs, f ∈ w.files.docs) : Cleared w v :=
  ⟨fun _ ha => hd ▸ ha, hf, fun _ he hnot => absurd (hd ▸ he) hnot, fun _ he hnot => absurd (hd ▸ he) hnot⟩

/-- **`filesystem_deleteDir`** removes from the leaves up. -/
theorem deleteDir_places (hE : ∀ e v, E e v) : ∀ {fuel w d}, (filesystemDeleteDir fuel (some d)).Ok (worldSpec C)
    (fun _ v => Cleared w v ∧ ∀ a ∈ v.dirs.docs, a.id ≠ d.id) E w := by
  intro fuel
  induction fuel with
  | zero => intro w d; exact hE _ _
  | succ fuel ih =>
    intro w d
    simp only [filesystemDeleteDir, filesystemGetFilesInDir, mongoFileGetByParentId, filesystemGetDirsInDir,
      mongoDirGetByParentId, mongoDirDeleteById, Prog.ok_bind, ok_ask, Prog.ok_ret, serve]
    intro _ _
    -- the files of the directory go first
    refine (Prog.ok_iterate (K := fun done v => v.dirs = w.dirs ∧ (∀ f ∈ v.files.docs, f ∈ w.files.docs) ∧
      ∀ f ∈ v.files.docs, f ∉ done) _ ?_ ⟨rfl, fun f hf => hf, by simp⟩).imp ?_
    · intro done f rest v _ hK
      obtain ⟨hd, hsub, hdone⟩ := hK
      rw [Prog.ok_bind]
      refine deleteFile_places hE fun v' hd' hf' => ?_
      rw [Prog.ok_pure, hf']
      refine ⟨hd'.trans hd, fun g hg => hsub g (Collection.mem_remove.1 hg).1, fun g hg hmem => ?_⟩
      obtain ⟨hg, hne⟩ := Collection.mem_remove.1 hg
      rcases List.mem_append.1 hmem with hmem | hmem
      · exact hdone g hg hmem
      · cases List.mem_singleton.1 hmem
        simp at hne
    intro _ v hK _ _
    obtain ⟨hd, hsub, hdone⟩ := hK
    have hnofile : ∀ f ∈ v.files.docs, f.parentId ≠ d.id := fun f hf he =>
      hdone f hf (List.mem_filter.2 ⟨hsub f hf, by simpa using he⟩)
    -- then its directories, with all that is in them
    refine (Prog.ok_iterate (K := fun done u => Cleared v u ∧ ∀ c ∈ done, ∀ a ∈ u.dirs.docs, a.id ≠ c.id) _ ?_
      ⟨Cleared.ofFiles rfl fun f hf => hf, by simp⟩).imp ?_
    · intro done c rest u _ hK
      obtain ⟨hclear, hgone⟩ := hK
      rw [Prog.ok_bind]
      refine ih.imp fun _ u' hu => ⟨hclear.trans hu.1, fun c' hc' a ha => ?_⟩
      rcases List.mem_append.1 hc' with hc' | hc'
      · exact hgone c' hc' a (hu.1.dirs a ha)
      · exact List.mem_singleton.1 hc' ▸ hu.2 a ha
    · intro _ u hK _ _
      obtain ⟨hclear, hgone⟩ := hK
      have hnodir : ∀ a ∈ u.dirs.docs, a.parentId ≠ d.id := fun a ha he =>
        hgone a (List.mem_filter.2 ⟨hclear.dirs a ha, by simpa using he⟩) a ha rfl
      have hremove : Cleared u { u with dirs := u.dirs.remove fun a => a.id = d.id } := by
        have hid : ∀ e ∈ u.dirs.docs, e ∉ (u.dirs.remove fun a => a.id = d.id).docs → e.id = d.id := by
          intro e he hnot
          by_contra hne
          exact hnot (Collection.mem_remove.2 ⟨he, by simpa using hne⟩)
        refine ⟨fun a ha => (Collection.mem_remove.1 ha).1, fun f hf => hf, fun e he hnot a ha => ?_,
          fun e he hnot f hf => ?_⟩
        · rw [hid e he hnot]
          exact hnodir a (Collection.mem_remove.1 ha).1
        · rw [hid e he hnot]
          exact hnofile f (hclear.files f hf)
      refine ⟨(Cleared.ofFiles hd hsub).trans (hclear.trans hremove), fun a ha => ?_⟩
      simpa using (Collection.mem_remove.1 ha).2

/-! ## Whole sessions -/

/-- The id of a directory: of the root or of a stored one. -/
def World.HasDir (w : World) (id : Oid) : Prop := id = .root ∨ ∃ d ∈ w.dirs.docs, d.id = id

theorem World.IsDir.has {d : Dir} (h : w.IsDir d) : w.HasDir d.id := by
  rcases h with rfl | h
  · exact Or.inl rfl
  · exact Or.inr ⟨d, h, rfl⟩

/-- **What every kind of change upholds**, on the requests that satisfy `C`. -/
structure Upheld (C : Console → World → Req → Choice → Prop) (I : Console → World → Prop) : Prop where
  same {c w v} : I c w → v.dirs = w.dirs → v.files = w.files → I c v
  formatted {c w v} : I c w → v.dirs = .empty → v.files = .empty → I .start v
  entered {c w d path} : I c w → w.HasDir d → I ⟨path, d⟩ w
  fileStored {c w v f} : I c w → (w.HasDir f.parentId ∨ f.parentId = c.currentDirId) → Asked (C c) w f →
    v.dirs = w.dirs → w.files.insert f = some v.files → I c v
  dirStored {c w v u x d} : I c w → d.parentId = c.currentDirId →
    (∀ f ∈ w.files.docs, (f.name, f.parentId) ≠ (d.name, d.parentId)) → u.dirs = w.dirs → u.files = w.files →
    C c u (.dirInsert d) x → x.ok = true → v.files = w.files → w.dirs.insert d = some v.dirs → I c v
  cleared {c w v} : I c w → Cleared w v → I c v
  dirMoved {c w id p x} : I c w → w.HasDir p → C c w (.dirSetParent id p) x →
    I c { w with dirs := w.dirs.update id fun d => { d with parentId := p } }
  fileMoved {c w id p x} : I c w → w.HasDir p → C c w (.fileSetParent id p) x →
    I c { w with files := w.files.update id fun f => { f with parentId := p } }
  dirRenamed {c w id n x} : I c w → C c w (.dirSetName id n) x →
    I c { w with dirs := w.dirs.update id fun d => { d with name := n } }
  fileRenamed {c w id n x} : I c w → C c w (.fileSetName id n) x →
    I c { w with files := w.files.update id fun f => { f with name := n } }

variable {K : Console → World → Req → Choice → Prop} {I : Console → World → Prop} {c : Console}

/-- Files that are removed one by one. -/
theorem Upheld.fileRemoved (hU : Upheld K I) (h : I c w) {p : File → Bool} (hd : v.dirs = w.dirs)
    (hf : v.files = w.files.remove p) : I c v :=
  hU.cleared h (Cleared.ofFiles hd fun _ hmem => (Collection.mem_remove.1 (hf ▸ hmem)).1)

theorem upheld_rm (hU : Upheld K I) (h : I c w) (fuel : ℕ) (parameter1 parameter2 : Option CStr) :
    (deleteResource fuel c parameter1 parameter2).Ok (worldSpec (K c)) (fun _ v => I c v) (fun _ _ => True) w := by
  unfold deleteResource
  cases parameter1 with
  | none => exact h
  | some parameter1 =>
    dsimp only
    split
    · cases parameter2 with
      | none => trivial
      | some path =>
        simp only [notNull, Prog.ok_bind, Prog.ok_pure]
        refine resolveDirPath_ok trivial h fun d _ _ => ?_
        rw [Prog.ok_bind]
        exact (deleteDir_places fun _ _ => trivial).imp fun _ v hv => hU.cleared h hv.1
    · rw [Prog.ok_bind]
      refine resolveFilePath_ok trivial h fun f _ => ?_
      rw [Prog.ok_bind]
      exact deleteFile_places (fun _ _ => trivial) fun v hd hf => hU.fileRemoved h hd hf

theorem upheld_mv (hU : Upheld K I) (h : I c w) (resource destination : Option CStr) :
    (moveResource c resource destination).Ok (worldSpec (K c)) (fun _ v => I c v) (fun _ _ => True) w := by
  unfold moveResource
  split
  case h_2 => exact h
  case h_1 resource destination =>
    rw [Prog.ok_bind]
    refine resolveDirPath_ok trivial h fun p _ hp => ?_
    rw [Prog.ok_bind]
    refine resolveDirPath_ok trivial ?_ fun d _ _ => ?_
    · rw [Prog.ok_bind]
      refine resolveFilePath_ok trivial h fun f _ => ?_
      simp only [filesystemMoveFile, mongoFileUpdateParentId, ok_ask, Prog.ok_ret, serve]
      exact fun x hx => hU.fileMoved h hp.has hx
    · simp only [filesystemMoveDir, mongoDirUpdateParentId, ok_ask, Prog.ok_ret, serve]
      exact fun x hx => hU.dirMoved h hp.has hx

theorem upheld_rename (hU : Upheld K I) (h : I c w) (resource newName : Option CStr) :
    (renameResource c resource newName).Ok (worldSpec (K c)) (fun _ v => I c v) (fun _ _ => True) w := by
  unfold renameResource
  split
  case h_2 => exact h
  case h_1 resource newName =>
    rw [Prog.ok_bind]
    refine resolveDirPath_ok trivial ?_ fun d _ _ => ?_
    · rw [Prog.ok_bind]
      refine resolveFilePath_ok trivial h fun f _ => ?_
      simp only [filesystemRenameFile, mongoFileUpdateName, ok_ask, Prog.ok_ret, serve]
      exact fun x hx => hU.fileRenamed h hx
    · simp only [filesystemRenameDir, mongoDirUpdateName, ok_ask, Prog.ok_ret, serve]
      exact fun x hx => hU.dirRenamed h hx

theorem upheld_mkdir (hU : Upheld K I) (h : I c w) (dirName : Option CStr) :
    (makeDir c dirName).Ok (worldSpec (K c)) (fun _ v => I c v) (fun _ _ => True) w := by
  unfold makeDir
  cases dirName with
  | none => exact h
  | some dirName =>
    dsimp only
    rw [Prog.ok_bind]
    exact addDir_places (fun v hd hf => hU.same h hd hf) fun v u x n hud huf hx hok hfile hf hins =>
      hU.dirStored (d := ⟨.gen n, c.currentDirId, dirName⟩) h rfl hfile hud huf hx hok hf hins

theorem upheld_cp (hU : Upheld K I) (h : I c w) (source dest : Option CStr) :
    (copyFileFromfs sort c source dest).Ok (worldSpec (K c)) (fun _ v => I c v) (fun _ _ => True) w := by
  have hcopy : ∀ name parentId, (w.HasDir parentId ∨ parentId = c.currentDirId) → ∀ route,
      (filesystemCopyFileFromFS sort route ⟨.root, parentId, name, 0, []⟩).Ok (worldSpec (K c)) (fun _ v => I c v)
        (fun _ _ => True) w := by
    intro name parentId hp route
    refine copyFileFromFS_places (fun _ _ => trivial) (fun _ v hd hf => hU.same h hd hf)
      (fun _ v id hd hf => hU.fileRemoved h hd hf) fun v f _ hparent hask hd hins => ?_
    exact hU.fileStored h (hparent ▸ hp) hask hd hins
  unfold copyFileFromfs
  split
  case h_2 => exact h
  case h_1 source dest =>
    rw [Prog.ok_bind]
    refine getFileName_ok trivial fun localFileName => ?_
    simp only [copyDestination, Prog.ok_bind]
    refine resolveDirPath_ok trivial ?_ fun d _ hd => ?_
    · rw [Prog.ok_bind]
      refine getFileName_ok trivial fun destFileName => ?_
      split
      · rw [Prog.ok_bind]
        refine resolveDirPath_ok trivial h fun d _ hd => ?_
        simp only [Prog.ok_pure, Prog.ok_bind]
        exact hcopy _ _ (Or.inl hd.has) _
      · simp only [Prog.ok_pure, Prog.ok_bind]
        exact hcopy _ _ (Or.inr rfl) _
    · simp only [Prog.ok_pure, Prog.ok_bind]
      exact hcopy _ _ (Or.inl hd.has) _

/-- **Every action upholds what every change upholds.** -/
theorem upheld_prog (hU : Upheld K I) (h : I c w) (fuel : ℕ) (x : Action) :
    (x.prog sort fuel c).Ok (worldSpec (K c)) (fun c' v => I c' v) (fun _ _ => True) w := by
  cases x with
  | importResult nodeId finalTmpName resultFilePath =>
    simp only [Action.prog, Prog.ok_bind, Prog.ok_pure]
    refine copyTmpFileToMDFS_places (fun _ _ => trivial) (fun _ v hd hf => hU.same h hd hf) ?_
    intro _ v f hparent hask hd hins
    obtain ⟨d, hd', hp⟩ := hparent
    exact hU.fileStored h (Or.inl (hp ▸ hd'.has)) hask hd hins
  | command cmd =>
    simp only [Action.prog]
    cases cmd <;> simp only [Command.prog, Prog.ok_bind, Prog.ok_pure]
    case rm parameter1 parameter2 => exact upheld_rm hU h fuel parameter1 parameter2
    case mv resource destination => exact upheld_mv hU h resource destination
    case rename resource newName => exact upheld_rename hU h resource newName
    case mkdir dirName => exact upheld_mkdir hU h dirName
    case cpFromfs source dest => exact upheld_cp hU h source dest
    case format =>
      simp only [Console.format, Prog.ok_bind]
      refine format_ok fun nodes _ _ => ?_
      exact hU.formatted h rfl rfl
    case cd dirName =>
      simp only [changeDir, Prog.ok_bind]
      exact resolveDirPath_ok trivial h fun d path hd => hU.entered h hd.has

/-- **Every session upholds what every change upholds.** -/
theorem upheld_run (hU : Upheld K I) {s s' : Session} {es : List (Action × ℕ × List Choice)}
    (h : I s.console s.world) (hC : Along (Session.step sort) (Session.Meets sort K) s es)
    (hr : run (Session.step sort) s es = some s') : I s'.console s'.world :=
  run_inv (I := fun s => I s.console s.world) (fun _ x _ hs hm hstep =>
    Session.step_ok (I := fun s => I s.console s.world) (upheld_prog hU hs x.2.1 x.1) hm hstep) h hC hr

end Mdfs.FileSystem
