import Mdfs.FileSystem.Interleave
import Mdfs.FileSystem.Places
import Mdfs.FileSystem.Split

/-!
# Imports are all or nothing

`filesystem_copyFileFromFS` undoes its bookings when the file cannot be saved.
`filesystem_copyTmpFileToMDFS` frees the file before it deletes it, so that there is
nothing left to undo them by: here a freed file is taken to have no contents, and the
function goes on (`copyTmpFileToMDFSFreed`).

* `import_all_or_nothing`: an import is all or nothing, but for the second function when
  the save fails.
* `import_leaks`: there the blocks stay booked.
-/

namespace Mdfs.FileSystem

open Lib

/-- `file_free`: nothing of the file is left to read. -/
def fileFree (_ : File) : Option File := none

/-- The end of `filesystem_copyTmpFileToMDFS`, which goes on after it has freed the file. -/
def saveTmpFile (failReason : UInt8) (file : File) : FsProg (Bool × UInt8) := do
  let (saved, file) ← mongoFileSave file
  if saved then pure (true, failReason)
  else
    let _ ← filesystemDeleteFile (fileFree file)
    pure (false, failReason)

/-- `filesystem_copyTmpFileToMDFS`, with that end. -/
def copyTmpFileToMDFSFreed (sort : NodeSort) (nodeId finalTmpName resultFilePath : CStr) (failReason : UInt8) :
    FsProg (Bool × UInt8) := do
  match ← distributeTmpFile sort nodeId finalTmpName resultFilePath failReason with
  | .inl failReason => pure (false, failReason)
  | .inr file => saveTmpFile failReason file

/-- The two imports. -/
inductive Importer
  | fromFS (route name : CStr) (parentId : Oid)
  | tmpFile (nodeId finalTmpName resultFilePath : CStr) (failReason : UInt8)

/-- An import; whether it says that it succeeded. -/
def Importer.prog (sort : NodeSort) : Importer → FsProg Bool
  | .fromFS route name parentId => do
    let result ← filesystemCopyFileFromFS sort route (newFile name parentId)
    pure (result = 1)
  | .tmpFile nodeId finalTmpName resultFilePath failReason => do
    let (result, _) ← copyTmpFileToMDFSFreed sort nodeId finalTmpName resultFilePath failReason
    pure result

/-- `mongo_file_save` does not fail. -/
def SaveDone (_ : World) (r : Req) (c : Choice) : Prop := ∀ f ∈ r.stored, c.ok = true

instance (w : World) (r : Req) (c : Choice) : Decidable (SaveDone w r c) :=
  inferInstanceAs (Decidable (∀ f ∈ r.stored, c.ok = true))

/-- **The condition**: the import of a result, when it comes to save the file, can save it. -/
def Importer.Saved (sort : NodeSort) (w : World) (is : List Choice) : Importer → Prop
  | .fromFS .. => True
  | .tmpFile nodeId finalTmpName resultFilePath failReason =>
    ((Importer.tmpFile nodeId finalTmpName resultFilePath failReason).prog sort).Along handle SaveDone w is

/-- The stored directories, files and bitmaps are the same. -/
structure Unchanged (w w' : World) : Prop where
  dirs : w'.dirs = w.dirs
  files : w'.files = w.files
  nodes : w'.nodes = w.nodes

/-- There is one file more, in blocks that were free, and their bits are set. -/
structure OneMore (w w' : World) (f : File) : Prop where
  dirs : w'.dirs = w.dirs
  files : w'.files.docs = w.files.docs ++ [f]
  free : ∀ s ∈ f.slots, w.Free s
  nodup : f.slots.Nodup
  nodes : w'.nodes.docs = w.nodes.docs.map (Node.withBits (mark f.slots))

/-- **All or nothing**, as the import says. -/
def AllOrNothing (w : World) (result : Bool) (w' : World) : Prop :=
  if result then ∃ f, OneMore w w' f else Unchanged w w'

variable {C : World → Req → Choice → Prop} {E : Stop → World → Prop} {w w' : World} {sort : NodeSort}

/-! ## What the two ends leave -/

theorem Untouched.unchanged (h : Untouched w w') : Unchanged w w' := by
  refine ⟨?_, ?_, ?_⟩ <;> rw [h.world]

theorem Imported.oneMore {bs : List (List UInt8)} {f : File} (h : Imported w w' bs f) : OneMore w w' f := by
  obtain ⟨-, hdocs⟩ := Collection.insert_eq_some.1 h.files
  have hworld := h.dist.world
  have hdirs : w'.dirs = w.dirs := (congrArg World.dirs hworld :)
  have hnodes : w'.nodes.docs = w.nodes.docs.map (Node.withBits (mark f.slots)) :=
    (congrArg (fun u : World => u.nodes.docs) hworld :)
  exact ⟨hdirs, hdocs, h.dist.free, h.dist.nodup, hnodes⟩

theorem blocksFrom_ne_nil {size : ℕ} {str : List UInt8} : ∀ {fuel i bs}, blocksFrom size str fuel i = some bs →
    bs ≠ [] := by
  intro fuel
  induction fuel with
  | zero => intro i bs h; cases h
  | succ fuel ih =>
    intro i bs h
    rw [blocksFrom] at h
    split at h
    · cases h
      exact List.cons_ne_nil _ _
    · split at h
      · obtain ⟨rest, -, rfl⟩ := Option.map_eq_some_iff.1 h
        exact List.cons_ne_nil _ _
      · exact ih h

/-- **A distribution changes the bitmaps**: a text has a block, and a block three copies. -/
theorem Distributed.nodes_ne {content : List UInt8} {bs : List (List UInt8)} {css : List (List FileBlock)}
    (hF : w.Fits) (hbs : filesystemGetBlocksFromStr content (content.length - 1) = .ok bs)
      (h : Distributed w w' bs css) :
    w'.nodes ≠ w.nodes := by
  intro hsame
  have hne : css ≠ [] := by
    rintro rfl
    exact blocksFrom_ne_nil (blocksFrom_of_getBlocksFromStr (Nat.sub_le _ _) hbs) (List.length_eq_zero_iff.1 h.length)
  obtain ⟨cs, rest, rfl⟩ := List.exists_cons_of_ne_nil hne
  have hcs : cs.length = FILESYSTEM_BLOCK_COPIES := h.copies cs List.mem_cons_self
  obtain ⟨copy, hcopy⟩ := List.exists_mem_of_length_pos (show 0 < cs.length by rw [hcs]; decide)
  have hslot : copy.slot ∈ ((cs :: rest).flatten.map FileBlock.slot) :=
    List.mem_map_of_mem (List.mem_flatten.2 ⟨cs, List.mem_cons_self, hcopy⟩)
  have hused : w'.Used copy.slot := by
    rw [h.world]
    exact (used_mark (w := { w with disk := w'.disk }) hF h.free).2 (Or.inr hslot)
  refine (h.free _ hslot).not_used ?_
  unfold World.Used at hused ⊢
  rwa [hsame] at hused

/-! ## Up to the save -/

/-- The requests that store no file. -/
abbrev Storeless {α : Type} (p : FsProg α) : Prop := p.Only fun r => r.stored = none

theorem Quiet.storeless {α : Type} {p : FsProg α} (hp : Quiet p) : Storeless p := by
  refine Prog.Only.mono (fun r hr => ?_) hp
  cases r <;> first | rfl | cases hr

theorem Scenery.storeless {α : Type} {p : FsProg α} (hp : Scenery p) : Storeless p := by
  refine Prog.Only.mono (fun r hr => ?_) hp
  cases r <;> first | rfl | cases hr

theorem storeless_canCreateResource (name : CStr) (parentId : Oid) :
    Storeless (filesystemCanCreateResource name parentId) := by
  refine Prog.only_bind (Scenery.storeless (scenery_request rfl)) fun dir => ?_
  cases dir with
  | some d => trivial
  | none =>
    refine Prog.only_bind (Scenery.storeless (scenery_request rfl)) fun file => ?_
    cases file <;> trivial

theorem storeless_distribute (bs : List (List UInt8)) (file : File) :
    Storeless (filesystemDistributeBlocksToNodes sort bs file) := by
  refine Prog.only_bind (Scenery.storeless scenery_getAllActivatedNodes) fun nodes => ?_
  dsimp only
  split
  · refine Prog.only_bind (Prog.only_foldlM (fun failed op => ?_) _ _) fun failed => ?_
    · exact Prog.only_bind (Scenery.storeless (scenery_request rfl)) fun _ => trivial
    · cases failed with
      | true => trivial
      | false =>
        refine Prog.only_bind (Prog.only_iterate (fun op => ?_) _) fun _ => trivial
        split
        · exact Scenery.storeless (scenery_request rfl)
        · trivial
  · trivial

theorem storeless_distributeTmpFile (nodeId tmpName path : CStr) (reason : UInt8) :
    Storeless (distributeTmpFile sort nodeId tmpName path reason) := by
  refine Prog.only_bind (quiet_getFileName path).storeless fun name => ?_
  refine Prog.only_bind (quiet_resultParentId path name).storeless fun parentId => ?_
  cases parentId with
  | none => trivial
  | some parentId =>
    refine Prog.only_bind (storeless_canCreateResource name parentId) fun free => ?_
    cases free with
    | false => trivial
    | true =>
      refine Prog.only_bind (Scenery.storeless (scenery_request rfl)) fun content => ?_
      match content with
      | none => trivial
      | some [] => trivial
      | some (b :: content) =>
        refine Prog.only_bind (quiet_blocksOrStop _).storeless fun blocks => ?_
        refine Prog.only_bind (storeless_distribute _ _) fun x => ?_
        obtain ⟨distributed, file⟩ := x
        cases distributed <;> trivial

/-! ## The imports -/

/-- The import of a local file. -/
theorem fromFS_all_or_nothing {route name : CStr} {parentId : Oid} (hF : w.Fits)
    (hfresh : ∀ g ∈ w.files.docs, g.id ≠ .gen w.oids) :
    ((Importer.fromFS route name parentId).prog sort).Ok (worldSpec fun _ _ _ => True) (AllOrNothing w)
      (fun _ _ => True) w := by
  simp only [Importer.prog, Prog.ok_bind]
  refine copyFileFromFS_ok (fun _ _ _ _ _ _ => trivial) hF hfresh rfl (fun r v hr hu => ?_)
    fun v c content bs f _ _ _ _ _ _ _ hi => ?_
  · simp only [Prog.ok_pure, AllOrNothing, hr, decide_false, Bool.false_eq_true, if_false]
    exact hu.unchanged
  · simp only [Prog.ok_pure, AllOrNothing, decide_true, if_true]
    exact ⟨f, hi.oneMore⟩

/-- What follows the distribution of a result's blocks. -/
def afterDistribution (failReason : UInt8) : UInt8 ⊕ File → FsProg Bool
  | .inl _ => pure false
  | .inr file => do
    let x ← saveTmpFile failReason file
    pure x.1

section

variable {f : File} {reason : UInt8} {u : World} {c₀ c : Choice} {rest : List Choice} {files : Files}

theorem along_saveTmpFile (hins : u.files.insert { f with id := .gen u.oids } = some files) :
    (afterDistribution reason (.inr f)).Along handle SaveDone u (c₀ :: c :: rest) ↔ c.ok = true := by
  cases hok : c.ok <;>
    simp [afterDistribution, saveTmpFile, mongoFileSave, mongoGenerateId, Prog.bind_def, Prog.bind, Prog.Along, handle,
      SaveDone, Req.stored, serve, hok, hins, Prog.pure_def]

theorem exec_saved (hok : c.ok = true) (hins : u.files.insert { f with id := .gen u.oids } = some files) :
    (afterDistribution reason (.inr f)).exec handle u (c₀ :: c :: rest) =
      some (.ok true, { u with files := files, oids := u.oids + 1 }) := by
  simp [afterDistribution, saveTmpFile, mongoFileSave, mongoGenerateId, Prog.bind_def, Prog.bind, Prog.exec, handle,
    serve, hok, hins, Prog.pure_def]

/-- The file that could not be saved was freed, so its copies are not deleted. -/
theorem exec_unsaved (hok : c.ok = false) :
    (afterDistribution reason (.inr f)).exec handle u (c₀ :: c :: rest) =
      some (.ok false, { u with oids := u.oids + 1 }) := by
  simp [afterDistribution, saveTmpFile, mongoFileSave, mongoGenerateId, Prog.bind_def, Prog.bind, Prog.exec, handle,
    serve, hok, Prog.pure_def, filesystemDeleteFile, fileFree]

end

/-- **The save of a file whose blocks are on the nodes**: it is all or nothing when it is done. -/
theorem saved_all_or_nothing {content : List UInt8} {bs : List (List UInt8)} {f : File} {reason : UInt8} {u : World}
    {js : List Choice} {r : Bool} (hF : w.Fits) (hfresh : ∀ g ∈ w.files.docs, g.id ≠ .gen w.oids)
    (hname : ∀ g ∈ w.files.docs, (g.name, g.parentId) ≠ (f.name, f.parentId))
    (hbs : filesystemGetBlocksFromStr content (content.length - 1) = .ok bs) (hdist : Distributed w u bs f.blocks)
    (hexec : (afterDistribution reason (.inr f)).exec handle u js = some (.ok r, w')) :
    AllOrNothing w r w' ↔ (afterDistribution reason (.inr f)).Along handle SaveDone u js := by
  have hoids : u.oids = w.oids := by rw [hdist.world]; rfl
  have hfiles : u.files = w.files := by rw [hdist.world]; rfl
  match js with
  | [] => cases hexec
  | [_] => cases hexec
  | c₀ :: c :: rest =>
    set g : File := { f with id := .gen u.oids } with hg
    -- the name was free, and the id is new
    obtain ⟨files, hins⟩ : ∃ files, u.files.insert g = some files := by
      refine Collection.exists_insert ?_
      rw [hfiles]
      intro b hb
      have hid := hfresh b hb
      rw [← hoids] at hid
      exact ⟨hid, hname b hb⟩
    rw [along_saveTmpFile hins]
    cases hok : c.ok with
    | true =>
      rw [exec_saved hok hins] at hexec
      cases hexec
      have himported : Imported w { u with files := files, oids := u.oids + 1 } bs g := by
        refine ⟨?_, ?_, ?_, ?_⟩
        · rw [hg, hoids]
        · rw [hoids]
        · convert hdist using 1
          rw [← hfiles, ← hoids]
        · rw [← hfiles]
          exact hins
      simp only [AllOrNothing, if_true, iff_true]
      exact ⟨g, himported.oneMore⟩
    | false =>
      rw [exec_unsaved hok] at hexec
      cases hexec
      -- the bits of the blocks are set, and no file has them
      simp only [AllOrNothing, Bool.false_eq_true, if_false, iff_false]
      exact fun hsame => hdist.nodes_ne hF hbs hsame.nodes

theorem prog_tmpFile (nodeId tmpName path : CStr) (reason : UInt8) :
    (Importer.tmpFile nodeId tmpName path reason).prog sort =
      distributeTmpFile sort nodeId tmpName path reason >>= afterDistribution reason := by
  simp only [Importer.prog, copyTmpFileToMDFSFreed, bind_assoc]
  refine bind_congr fun x => ?_
  cases x <;> rfl

/-- **Imports are all or nothing**, when the import of a result can save the file that it
comes to save, and only then. -/
theorem import_all_or_nothing (sort : NodeSort) (x : Importer) (h : Ownership w)
    (hfresh : ∀ g ∈ w.files.docs, g.id ≠ .gen w.oids) (is : List Choice) (r : Bool)
    (hexec : (x.prog sort).exec handle w is = some (.ok r, w')) : AllOrNothing w r w' ↔ x.Saved sort w is := by
  have hF := h.fits
  cases x with
  | fromFS route name parentId =>
    have hok : ((Importer.fromFS route name parentId).prog sort).Ok (worldSpec fun _ _ _ => True) (AllOrNothing w)
        (fun _ _ => True) w := fromFS_all_or_nothing hF hfresh
    have hall := hok.exec_along (Prog.along_of_mem fun _ _ _ _ => trivial) hexec
    exact iff_of_true hall trivial
  | tmpFile nodeId tmpName path reason =>
    have hok : (distributeTmpFile sort nodeId tmpName path reason).Ok (worldSpec fun _ _ _ => True)
        (fun x u => match x with
          | .inl _ => Unchanged w u
          | .inr f => ∃ content bs, (∀ g ∈ w.files.docs, (g.name, g.parentId) ≠ (f.name, f.parentId)) ∧
              filesystemGetBlocksFromStr content (content.length - 1) = .ok bs ∧ Distributed w u bs f.blocks)
                (fun _ _ => True) w := by
      refine distributeTmpFile_ok (fun _ _ => trivial) hF (fun _ _ hu => hu.unchanged) ?_
      intro u content bs f _ _ hname hbs hdist
      exact ⟨content, bs, hname, hbs, hdist⟩
    have hstoreless : ∀ (u : World) (r : Req) (c : Choice), r.stored = none → SaveDone u r c := by
      intro u r c hr f hf
      rw [hr] at hf
      cases hf
    change AllOrNothing w r w' ↔ ((Importer.tmpFile nodeId tmpName path reason).prog sort).Along handle SaveDone w is
    rw [prog_tmpFile] at hexec ⊢
    obtain ⟨y, u, js, hy, hend, halong⟩ := Prog.Ok.exec_bind hstoreless
      (storeless_distributeTmpFile nodeId tmpName path reason) hok hexec
    rw [halong]
    cases y with
    | inl reason' =>
      -- it returned 0 before the save
      cases hend
      exact iff_of_true hy trivial
    | inr f =>
      obtain ⟨content, bs, hname, hbs, hdist⟩ := hy
      exact saved_all_or_nothing hF hfresh hname hbs hdist hend

/-- The import of a result to the root. -/
def importRoot : Importer := .tmpFile (cstr "n1") (cstr "t") (cstr "r") 0

/-- What is decided while the result `x` is imported on three nodes: the last one whether
its file is saved. -/
def importX (saved : Bool) : List Choice :=
  [Choice.done, Choice.done, Choice.bytes (cstr "x" ++ [0])] ++ List.replicate 11 Choice.done ++
    [({ ok := saved } : Choice)]

theorem import_all_or_nothing_saved : ∃ w w' : World,
    run (Operation.step insertionSort) (World.empty fun _ => []) threeNodes = some w ∧
      (importRoot.prog insertionSort).exec handle w (importX true) = some (.ok true, w') ∧
      w'.files.docs.length = 1 ∧ AllOrNothing w true w' := by
  have hall : ∃ w ∈ run (Operation.step insertionSort) (World.empty fun _ => []) threeNodes,
      (importRoot.prog insertionSort).Along handle SaveDone w (importX true) ∧
      ∃ x ∈ (importRoot.prog insertionSort).exec handle w (importX true),
        x.1.toOption = some true ∧ x.2.files.docs.length = 1 := by decide +kernel
  obtain ⟨w, hw, hsaved, ⟨r, w'⟩, hx, hr, hlen⟩ := hall
  have hexec : (importRoot.prog insertionSort).exec handle w (importX true) = some (.ok true, w') := by
    cases r with
    | ok r => cases hr; exact hx
    | error e => cases hr
  have howned := kept_run kept_owned (owned_empty fun _ => []) (by decide +kernel) hw
  exact ⟨w, w', hw, hexec, hlen, (import_all_or_nothing insertionSort importRoot howned.ownership
    (fun g hg => howned.new_id hg) (importX true) true hexec).2 hsaved⟩

/-- **A save that fails leaks the blocks**: the import returns 0, no file is there, and
three blocks are not free any more. -/
theorem import_leaks : ∃ w w' : World,
    run (Operation.step insertionSort) (World.empty fun _ => []) threeNodes = some w ∧ Ownership w ∧
      (importRoot.prog insertionSort).exec handle w (importX false) = some (.ok false, w') ∧
      w.nodes.docs.map nodeGetBlocksFreeCount = [2, 2, 2] ∧ w'.nodes.docs.map nodeGetBlocksFreeCount = [1, 1, 1] ∧
      w'.files = w.files ∧ ¬AllOrNothing w false w' := by
  have hall : ∃ w ∈ run (Operation.step insertionSort) (World.empty fun _ => []) threeNodes,
      ∃ x ∈ (importRoot.prog insertionSort).exec handle w (importX false),
        x.1.toOption = some false ∧ w.nodes.docs.map nodeGetBlocksFreeCount = [2, 2, 2] ∧
        x.2.nodes.docs.map nodeGetBlocksFreeCount = [1, 1, 1] ∧ x.2.files.docs = w.files.docs := by decide +kernel
  obtain ⟨w, hw, ⟨r, w'⟩, hx, hr, hbefore, hafter, hfiles⟩ := hall
  have hexec : (importRoot.prog insertionSort).exec handle w (importX false) = some (.ok false, w') := by
    cases r with
    | ok r => cases hr; exact hx
    | error e => cases hr
  have howned := kept_run kept_owned (owned_empty fun _ => []) (by decide +kernel) hw
  refine ⟨w, w', hw, howned.ownership, hexec, hbefore, hafter, Collection.ext hfiles, fun hsame => ?_⟩
  have hnodes : w'.nodes = w.nodes := Unchanged.nodes hsame
  rw [hnodes, hbefore] at hafter
  cases hafter

end Mdfs.FileSystem
