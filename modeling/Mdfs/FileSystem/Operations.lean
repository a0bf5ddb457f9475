import Mdfs.FileSystem.Effects

/-!
# The operations as changes of the store

One specification for each operation of the process that changes the store, run
alone: the worlds it can end in. The results about whole runs (`Ownership`,
`Content`, `Names`) use these and never open an operation again.

* `copyFileFromFS_ok`, `copyTmpFileToMDFS_ok`: a file is imported, or nothing
  but free blocks of the disk has changed.
* `makeNewFileBlockCopy_ok`, `deleteFileBlockCopy_ok`: one copy more or less.
* `addNode_ok`: a node that is new loses the copies recorded on it.
-/

namespace Mdfs.FileSystem

open Lib

variable {C : World → Req → Choice → Prop} {E : Stop → World → Prop} {w w' : World} {sort : NodeSort}

/-- Nothing but free blocks of the disk and the count of ids has changed. -/
structure Untouched (w w' : World) : Prop where
  frame : ∀ s, w.Used s → w'.disk s = w.disk s
  oids : w.oids ≤ w'.oids
  world : w' = { w with disk := w'.disk, oids := w'.oids }

theorem Untouched.refl (w : World) : Untouched w w := ⟨fun _ _ => rfl, le_rfl, rfl⟩

theorem NotDistributed.untouched (h : NotDistributed w w') : Untouched w w' := by
  refine ⟨h.frame, ?_, ?_⟩
  · rw [h.world]
  · rw [h.world]

/-- **The import** of a file `f` with the blocks `bs`. -/
structure Imported (w w' : World) (bs : List (List UInt8)) (f : File) : Prop where
  id : f.id = .gen w.oids
  oids : w'.oids = w.oids + 1
  dist : Distributed w { w' with files := w.files, oids := w.oids } bs f.blocks
  files : w.files.insert f = some w'.files

/-- The request that stores `f` is made when no directory and no file has its
name, and meets the condition on the run. -/
structure Asked (C : World → Req → Choice → Prop) (w : World) (f : File) : Prop where
  noDir : ∀ d ∈ w.dirs.docs, (d.name, d.parentId) ≠ (f.name, f.parentId)
  noFile : ∀ g ∈ w.files.docs, (g.name, g.parentId) ≠ (f.name, f.parentId)
  met : ∃ u c, u.dirs = w.dirs ∧ u.files = w.files ∧ C u (.fileInsert f) c ∧ c.ok = true

/-- Booking free slots and freeing them again changes nothing. -/
theorem unmark_mark_free {S : List Slot} (hS : ∀ s ∈ S, w.Free s) :
    (w.mapBits (mark S)).mapBits (unmark S) = w := by
  rw [mapBits_mapBits]
  refine mapBits_eq_self fun n hn i => ?_
  rw [Bool.eq_iff_iff, unmark_eq_true, mark_eq_true]
  by_cases hs : (n.id, i) ∈ S
  · obtain ⟨m, hm, hid, -, hb⟩ := hS _ hs
    rw [Collection.eq_of_key hm hn hid] at hb
    simp [hs, hb]
  · simp [hs]

/-- The store after a distribution: `mid` with the slots booked. -/
theorem Distributed.fits {bs : List (List UInt8)} {css : List (List FileBlock)} (hF : w.Fits)
    (h : Distributed w w' bs css) : w'.Fits := by
  rw [h.world]
  exact World.Fits.mark (w := { w with disk := w'.disk }) hF h.free

/-- The save of a distributed file that fails, and the deletion that follows. -/
theorem Distributed.undo {bs : List (List UInt8)} {f : File} (hfresh : ∀ g ∈ w.files.docs, g.id ≠ f.id)
    (h : Distributed w w' bs f.blocks) :
    Untouched w (World.dropFile { w' with oids := w'.oids + 1 } f) := by
  have hundo : World.dropFile { w' with oids := w'.oids + 1 } f = { w with disk := w'.disk, oids := w.oids + 1 } := by
    have hfiles : w'.files.remove (fun g => g.id = f.id) = w.files := by
      rw [h.world]
      refine Collection.ext (List.filter_eq_self.2 fun g hg => ?_)
      simpa using hfresh g hg
    have hw' : ({ w' with oids := w'.oids + 1 } : World) =
        World.mapBits (mark f.slots) { w with disk := w'.disk, oids := w.oids + 1 } := by
      conv_lhs => rw [h.world]
      rfl
    have hfree := unmark_mark_free (w := { w with disk := w'.disk, oids := w.oids + 1 }) h.free
    simp only [World.dropFile]
    rw [hfiles, hw']
    exact congrArg (fun u : World => { u with files := w.files }) hfree
  rw [hundo]
  refine ⟨fun s hs => h.frame s fun hS => (h.free s hS).not_used hs, Nat.le_succ _, rfl⟩

theorem blocksOrStop_ok {split : Except SplitFault (List (List UInt8))} {Q : List (List UInt8) → World → Prop}
    (hE : ∀ fault, split = .error fault → E fault.stop w) (hQ : ∀ bs, split = .ok bs → Q bs w) :
    (blocksOrStop split).Ok (worldSpec C) Q E w := by
  cases split with
  | error fault => exact hE fault rfl
  | ok bs => exact hQ bs rfl

theorem getFSFileBlocks_ok {route : CStr} {Q : Option (ℕ × List (List UInt8)) → World → Prop}
    (hE : ∀ c content fault, C w (.openFile route) c → c.content = some content →
      filesystemGetBlocksFromStr content content.length = .error fault → E fault.stop w) (hnone : Q none w)
    (hsome : ∀ c content bs, C w (.openFile route) c → c.content = some content →
      filesystemGetBlocksFromStr content content.length = .ok bs → Q (some (content.length, bs)) w) :
    (filesystemGetFSFileBlocks route).Ok (worldSpec C) Q E w := by
  simp only [filesystemGetFSFileBlocks, Prog.ok_bind, ok_ask, Prog.ok_ret, serve]
  intro c hc
  cases hcontent : c.content with
  | none => exact hnone
  | some content =>
    simp only [Prog.ok_bind]
    refine blocksOrStop_ok (fun fault hfault => ?_) fun bs hbs => ?_
    · exact hE c content fault hc hcontent hfault
    · exact hsome c content bs hc hcontent hbs

/-- **Blocks that are distributed and a file that is saved** make an import. -/
theorem Distributed.imported {w' : World} {bs : List (List UInt8)} {f : File} {files : Files}
    (hdist : Distributed w w' bs f.blocks) (hins : w'.files.insert { f with id := .gen w'.oids } = some files) :
    Imported w { w' with files := files, oids := w'.oids + 1 } bs { f with id := .gen w'.oids } := by
  have hoids : w'.oids = w.oids := by rw [hdist.world]; rfl
  have hfiles : w'.files = w.files := by rw [hdist.world]; rfl
  refine ⟨?_, ?_, ?_, ?_⟩
  · simp [hoids]
  · simp [hoids]
  · convert hdist using 1
    rw [← hfiles, ← hoids]
  · rw [← hfiles]
    exact hins

/-- **`filesystem_copyFileFromFS`**: it returns 1 and the file is imported, or the
store is untouched. -/
theorem copyFileFromFS_ok {route : CStr} {file : File} {Q : ℤ → World → Prop}
    (hE : ∀ c content fault, C w (.openFile route) c → c.content = some content →
      filesystemGetBlocksFromStr content content.length = .error fault → E fault.stop w) (hF : w.Fits) (hfresh :
        ∀ g ∈ w.files.docs, g.id ≠ .gen w.oids) (hfile : file.blocks = [])
    (hno : ∀ r w', r ≠ 1 → Untouched w w' → Q r w')
    (hyes : ∀ w' c content bs f, C w (.openFile route) c → c.content = some content →
      filesystemGetBlocksFromStr content content.length = .ok bs → f.name = file.name → f.parentId = file.parentId →
      f.size = content.length → Asked C w f → Imported w w' bs f → Q 1 w') :
    (filesystemCopyFileFromFS sort route file).Ok (worldSpec C) Q E w := by
  simp only [filesystemCopyFileFromFS, Prog.ok_bind]
  refine canCreateResource_ok (hno _ _ (by decide) (Untouched.refl w)) fun hdir hname => ?_
  simp only [if_true, Prog.ok_bind]
  refine getFSFileBlocks_ok hE (hno _ _ (by decide) (Untouched.refl w)) fun c content bs hc hcontent hbs => ?_
  simp only [Prog.ok_bind]
  refine distribute_ok hF hfile (fun w' f h => hno _ _ (by decide) h.untouched) fun w' css hdist => ?_
  simp only [if_true, Prog.ok_bind]
  have hoids : w'.oids = w.oids := by rw [hdist.world]; rfl
  have hfiles : w'.files = w.files := by rw [hdist.world]; rfl
  have hdirs : w'.dirs = w.dirs := by rw [hdist.world]; rfl
  -- the save can fail after the blocks are stored: the copies are then deleted again
  refine fileSave_ok ?_ fun files c' hc' hok' hins => ?_
  · simp only [Bool.false_eq_true, if_false, Prog.ok_bind]
    have hF' := hdist.fits hF
    refine deleteFile_ok hF' (fun cp hcp => ?_) fun _ => (hno _ _ (by decide) (hdist.undo (f := ⟨_, _, _, _, css⟩) ?_))
    · obtain ⟨n, hn, hid, -⟩ := hdist.free cp.slot (List.mem_map_of_mem hcp)
      rw [show ({ w' with oids := w'.oids + 1 } : World).nodes = w'.nodes from rfl, hdist.world]
      exact ⟨_, List.mem_map_of_mem hn, hid⟩
    · rw [hoids]; exact hfresh
  · simp only [if_true]
    have hmet : Asked C w { file with id := .gen w'.oids, size := content.length, blocks := css } :=
      ⟨hdir, hname, { w' with oids := w'.oids + 1 }, c', hdirs, hfiles, hc', hok'⟩
    have himported := Distributed.imported (f := { file with size := content.length, blocks := css }) hdist hins
    exact hyes _ c content bs { file with id := .gen w'.oids, size := content.length, blocks := css } hc hcontent hbs
      rfl rfl rfl hmet himported

theorem resultParentId_ok {path name : CStr} {Q : Option Oid → World → Prop} (hE : E .crash w)
    (hnone : Q none w) (hsome : ∀ d, w.IsDir d → Q (some d.id) w) :
    (resultParentId path name).Ok (worldSpec C) Q E w := by
  unfold resultParentId
  split
  · rw [Prog.ok_bind]
    exact resolveDirPath_ok hE hnone fun d _ hd => hsome d hd
  · exact hsome rootDir (Or.inl rfl)

/-- **The rule of the import of a result**: nothing is distributed, or the blocks of the content
without the terminator are, for a file in a directory that is there, under a name that is free. -/
theorem distributeTmpFile_rule {nodeId tmpName path : CStr} {reason : UInt8} {Q : UInt8 ⊕ File → World → Prop}
    (hE : ∀ e v, E e v) (hno : ∀ r, Q (.inl r) w)
    (hdistribute : ∀ d name content bs, w.IsDir d → (∀ e ∈ w.dirs.docs, (e.name, e.parentId) ≠ (name, d.id)) →
      (∀ g ∈ w.files.docs, (g.name, g.parentId) ≠ (name, d.id)) →
      filesystemGetBlocksFromStr content (content.length - 1) = .ok bs →
      (filesystemDistributeBlocksToNodes sort bs ⟨.root, d.id, name, content.length - 1, []⟩).Ok (worldSpec C)
        (fun x v => Q (if x.1 then .inr x.2 else .inl reason) v) E w) :
    (distributeTmpFile sort nodeId tmpName path reason).Ok (worldSpec C) Q E w := by
  simp only [distributeTmpFile, Prog.ok_bind]
  refine getFileName_ok (hE _ _) fun name => ?_
  refine resultParentId_ok (hE _ _) (hno _) fun d hd => ?_
  simp only [Prog.ok_bind]
  refine canCreateResource_ok (hno _) fun hdir hname => ?_
  simp only [if_true, connectionsNodeGetFileContent, Prog.ok_bind, ok_ask, Prog.ok_ret, serve]
  intro c _
  split
  case h_1 => exact hno _
  case h_2 => exact hE _ _
  case h_3 content _ _ =>
    simp only [Prog.ok_bind]
    refine blocksOrStop_ok (fun fault _ => hE _ _) fun bs hbs => ?_
    refine (hdistribute d name content bs hd hdir hname hbs).imp ?_
    rintro ⟨distributed, file⟩ v hv
    cases distributed with
    | true => exact hv
    | false => exact hv

/-- **The import of a result, before its file is saved**: the store is untouched, or the
blocks of the file are on the nodes, under a name that is free. -/
theorem distributeTmpFile_ok {nodeId tmpName path : CStr} {reason : UInt8} {Q : UInt8 ⊕ File → World → Prop}
    (hE : ∀ e v, E e v) (hF : w.Fits) (hno : ∀ r w', Untouched w w' → Q (.inl r) w')
    (hyes : ∀ w' content bs f, (∃ d, w.IsDir d ∧ f.parentId = d.id) →
      (∀ d ∈ w.dirs.docs, (d.name, d.parentId) ≠ (f.name, f.parentId)) →
      (∀ g ∈ w.files.docs, (g.name, g.parentId) ≠ (f.name, f.parentId)) →
      filesystemGetBlocksFromStr content (content.length - 1) = .ok bs → Distributed w w' bs f.blocks →
      Q (.inr f) w') :
    (distributeTmpFile sort nodeId tmpName path reason).Ok (worldSpec C) Q E w := by
  refine distributeTmpFile_rule hE (fun r => hno r w (Untouched.refl w)) fun d name content bs hd hdir hname hbs => ?_
  refine distribute_ok hF rfl (fun w' f h => hno _ _ h.untouched) fun w' css hdist => ?_
  exact hyes w' content bs ⟨.root, d.id, name, content.length - 1, css⟩ ⟨d, hd, rfl⟩ hdir hname hbs hdist

/-- **`filesystem_copyTmpFileToMDFS`**: it returns true and a file is imported into
a directory, or the store is untouched, or the save fails and it crashes. -/
theorem copyTmpFileToMDFS_ok {nodeId tmpName path : CStr} {reason : UInt8} {Q : Bool × UInt8 → World → Prop}
    (hE : ∀ e v, E e v) (hF : w.Fits) (hno : ∀ r w', Untouched w w' → Q (false, r) w')
    (hyes : ∀ w' bs f, (∃ d, w.IsDir d ∧ f.parentId = d.id) → Asked C w f → Imported w w' bs f →
      Q (true, reason) w') :
    (filesystemCopyTmpFileToMDFS sort nodeId tmpName path reason).Ok (worldSpec C) Q E w := by
  simp only [filesystemCopyTmpFileToMDFS, Prog.ok_bind]
  refine distributeTmpFile_ok hE hF hno fun w' content bs f hparent hdir hname _ hdist => ?_
  simp only [saveTmpFileOrCrash]
  have hfiles : w'.files = w.files := by rw [hdist.world]; rfl
  have hdirs : w'.dirs = w.dirs := by rw [hdist.world]; rfl
  rw [Prog.ok_bind]
  refine fileSave_ok (hE _ _) fun files c' hc' hok' hins => ?_
  exact hyes _ bs { f with id := .gen w'.oids } hparent
    ⟨hdir, hname, { w' with oids := w'.oids + 1 }, c', hdirs, hfiles, hc', hok'⟩ (hdist.imported hins)

/-- One copy more of block `b` of the file with id `id`: `copy`, in a free slot
of a node that has no copy of the block. -/
structure Copied (w w' : World) (id : Oid) (cs : List FileBlock) (b : ℕ) (copy : FileBlock)
    (block : CStr) : Prop where
  free : w.Free copy.slot
  apart : copy.nodeId ∉ cs.map FileBlock.nodeId
  frame : ∀ s, s ≠ copy.slot → w'.disk s = w.disk s
  disk : w'.disk copy.slot = block
  world : w' = { ({ w with disk := w'.disk } : World).mapBits (mark [copy.slot]) with
    files := w.files.update id (File.addCopy b copy) }

/-- If the first node without a copy is full, all of them are: the nodes are sorted by their free
blocks. -/
theorem full_of_first {N : List Node} {P : Node → Bool} {n : Node} (hn : (sort.sort N).find? P = some n)
    (hk : nodeGetFirstFreeBlock n = none) : ∀ m ∈ N, P m = true → nodeGetFirstFreeBlock m = none := by
  intro m hm hP
  obtain ⟨-, before, behind, hsplit, hbefore⟩ := List.find?_eq_some_iff_append.1 hn
  have hmem : m ∈ before ++ n :: behind := hsplit ▸ (sort.perm N).mem_iff.2 hm
  have hle : nodeGetBlocksFreeCount m ≤ nodeGetBlocksFreeCount n := by
    have hsorted := sort.sorted N
    rw [hsplit, List.pairwise_append] at hsorted
    obtain hm | hm := List.mem_append.1 hmem
    · have hno := hbefore m hm
      rw [hP] at hno
      cases hno
    · obtain rfl | hm := List.mem_cons.1 hm
      · exact le_rfl
      · have hnot := (List.pairwise_cons.1 hsorted.2.1).1 m hm
        exact Nat.le_of_not_lt (of_decide_eq_false hnot)
  have hzero := freeCount_eq_zero hk
  cases hfree : nodeGetFirstFreeBlock m with
  | none => rfl
  | some i =>
    have hpos := freeCount_pos hfree
    omega

/-- **`filesystem_makeNewFileBlockCopy`, with the file in memory**: a new copy, on an active node,
of what one of the copies answers; or the store is untouched, for a reason. -/
theorem makeNewFileBlockCopyInMemory_ok {f : File} {b : UInt16} {Q : ℤ × Option File → World → Prop} (hF : w.Fits)
    (hrange : f.blocks[b.toNat]? = none → Q (-1, some f) w)
    (hdown : ∀ cs, f.blocks[b.toNat]? = some cs → (∀ c ∈ cs, ∃ ch, C w (.getBlock c) ch ∧ ch.content = none) →
      Q (-2, some f) w)
    (hfull : ∀ cs N, f.blocks[b.toNat]? = some cs → Activated C w N →
      (∀ n ∈ N, n.id ∉ cs.map FileBlock.nodeId → nodeGetFirstFreeBlock n = none) → Q (-3, some f) w)
    (hfail : ∀ w', Untouched w w' → (∃ n i data ch, C w (.setBlock n i data) ch ∧ ch.ok = false) → Q (-3, some f) w')
    (hyes : ∀ w' cs N n c ch block copy, f.blocks[b.toNat]? = some cs → c ∈ cs → C w (.getBlock c) ch →
      ch.content = some block → Activated C w N → n ∈ N → copy.nodeId = n.id →
      Copied w w' f.id cs b.toNat copy (upToNul block) →
      Q (1, some { f with blocks := f.blocks.modify b.toNat fun cs => cs ++ [copy] }) w') :
    (makeNewFileBlockCopyInMemory sort (some f) b).Ok (worldSpec C) Q E w := by
  simp only [makeNewFileBlockCopyInMemory]
  cases hcs : f.blocks[b.toNat]? with
  | none => exact hrange hcs
  | some cs =>
    simp only [Prog.ok_bind]
    refine firstBlockGot_ok (fun hnone => hdown cs hcs hnone) fun c hc ch block hch hblock => ?_
    simp only [Prog.ok_bind]
    refine getAllActivatedNodes_ok fun N hN => ?_
    have hcopyless : ∀ n : Node, (!cs.any fun c => c.nodeId = n.id) = true ↔ n.id ∉ cs.map FileBlock.nodeId := by
      intro n
      simp
    cases hn : (sort.sort N).find? fun node => !cs.any fun c => c.nodeId = node.id with
    | none =>
      refine hfull cs N hcs hN fun n hnN hno => ?_
      have hall := List.find?_eq_none.1 hn n ((sort.perm N).mem_iff.2 hnN)
      exact absurd ((hcopyless n).2 hno) hall
    | some n =>
      have hnN : n ∈ N := (sort.perm N).mem_iff.1 (List.mem_of_find?_eq_some hn)
      have hnw : n ∈ w.nodes.docs := hN.sub.subset hnN
      have hpick := List.find?_some hn
      have hapart : n.id ∉ cs.map FileBlock.nodeId := (hcopyless n).1 hpick
      simp only
      cases hk : nodeGetFirstFreeBlock n with
      | none => exact hfull cs N hcs hN fun m hm hno => full_of_first hn hk m hm ((hcopyless m).2 hno)
      | some k =>
        obtain ⟨hlt, hbit⟩ := firstFree_spec hk
        have hk' : k.toUInt16.toNat = k := by
          simpa using Nat.mod_eq_of_lt (lt_trans hlt (UInt16.toNat_lt _))
        have hfree : w.Free (n.id, k) := ⟨n, hnw, rfl, hlt, hbit⟩
        -- the block was cut at its first zero byte by the node that sent it, and is not cut again
        have hid : upToNul (upToNul block) = upToNul block := upToNul_eq (zero_not_mem_upToNul block)
        simp only [connectionsNodeSendBlock, Prog.ok_bind, ok_ask, Prog.ok_ret, serve, hk', hid]
        intro sent hsends
        cases hsent : sent.ok with
        | false =>
          refine hfail _ ⟨fun s hs => ?_, le_rfl, rfl⟩ ⟨_, _, _, sent, hsends, hsent⟩
          simp only [Bool.false_eq_true, if_false]
          cases sent.content with
          | none => rfl
          | some d =>
            -- whatever a failed send left behind is in a free block
            have hne : s ≠ (n.id, k) := by rintro rfl; exact hfree.not_used hs
            exact Function.update_of_ne hne _ _
        | true =>
          simp only [if_true, Prog.ok_bind]
          rw [nodeSetBlockUsed_eq ((hF n hnw).bit_lt hlt) hlt]
          refine updateBlocks_ok (by exact hnw) ?_
          simp only [mongoFileAddBlockCopyToFile, ok_ask, Prog.ok_ret, serve, Prog.ok_pure]
          intro _ _
          refine hyes _ cs N n c ch block ⟨n.id, k.toUInt16⟩ hcs hc hch hblock hN hnN rfl ⟨?_, hapart, ?_, ?_, ?_⟩
          · simpa [FileBlock.slot, hk'] using hfree
          · intro s hs
            exact Function.update_of_ne (by simpa [FileBlock.slot, hk'] using hs) _ _
          · simp [FileBlock.slot, hk']
          · have hslot : (⟨n.id, k.toUInt16⟩ : FileBlock).slot = (n.id, k) := by simp [FileBlock.slot, hk']
            rw [hslot]
            rw [onNodes_eq fun s b hs => ?_]
            · rfl
            · have : s ≠ (n.id, k) := by rintro rfl; exact hs (by simp)
              simp [mark, this]

/-- **`filesystem_makeNewFileBlockCopy`**: a new copy of what one of the copies
answers, or the store is untouched. -/
theorem makeNewFileBlockCopy_ok {file : Option File} {b : UInt16} {Q : ℤ → World → Prop} (hF : w.Fits)
    (hno : ∀ r w', Untouched w w' → Q r w')
    (hyes : ∀ w' f cs c ch block copy, file = some f → f.blocks[b.toNat]? = some cs → c ∈ cs →
      C w (.getBlock c) ch → ch.content = some block →
      Copied w w' f.id cs b.toNat copy (upToNul block) → Q 1 w') :
    (filesystemMakeNewFileBlockCopy sort file b).Ok (worldSpec C) Q E w := by
  simp only [filesystemMakeNewFileBlockCopy, Prog.ok_bind]
  cases file with
  | none => exact hno _ _ (Untouched.refl w)
  | some f =>
    refine makeNewFileBlockCopyInMemory_ok hF (fun _ => hno _ _ (Untouched.refl w))
      (fun _ _ _ => hno _ _ (Untouched.refl w))
      (fun _ _ _ _ _ => hno _ _ (Untouched.refl w)) (fun _ hu _ => hno _ _ hu) ?_
    intro w' cs N n c ch block copy hcs hc hch hblock _ _ _ hcopied
    exact hyes w' f cs c ch block copy rfl hcs hc hch hblock hcopied

/-- **`filesystem_deleteFileBlockCopy`** of a copy that is there, on a stored node. -/
theorem deleteFileBlockCopy_at_ok {f : File} {b i : UInt16} {cs : List FileBlock} {copy : FileBlock}
    {Q : ℤ → World → Prop} (hF : w.Fits) (hcs : f.blocks[b.toNat]? = some cs) (hcopy : cs[i.toNat]? = some copy)
    (hnode : ∃ n ∈ w.nodes.docs, n.id = copy.nodeId)
    (hQ : Q 1 { w.mapBits (unmark [copy.slot]) with files := w.files.update f.id (File.pullCopy b.toNat copy) }) :
    (filesystemDeleteFileBlockCopy (some f) b i).Ok (worldSpec C) Q E w := by
  simp only [filesystemDeleteFileBlockCopy, hcs, hcopy, mongoFileDeleteBlockCopy, Prog.ok_bind, ok_ask, Prog.ok_ret,
    serve]
  intro _ _
  -- the rest is the loop body of `deleteFile`, on a node that is stored
  obtain ⟨n, hn, hid⟩ := hnode
  set v : World := { w with files := w.files.update f.id (File.pullCopy b.toNat copy) }
  have hfree : (freeBlockCopy copy).Ok (worldSpec C) (fun _ u => Q 1 u) E v :=
    freeBlockCopy_ok (w := v) hF ⟨n, hn, hid⟩ hQ
  have hfind : w.nodes.findKey copy.nodeId = some n := Collection.findKey_eq_some.2 ⟨hn, hid⟩
  simp only [freeBlockCopy, filesystemGetNodeById, mongoNodeGetById, Prog.ok_bind, ok_ask, Prog.ok_ret,
    serve] at hfree ⊢
  intro c hc
  have := hfree c hc
  rw [show v.nodes = w.nodes from rfl, hfind] at this ⊢
  exact this

/-- **`filesystem_deleteFileBlockCopy`** of a file whose copies are on stored nodes. -/
theorem deleteFileBlockCopy_ok {file : Option File} {b i : UInt16} {Q : ℤ → World → Prop} (hF : w.Fits)
    (hno : ∀ r, Q r w)
    (hyes : ∀ f cs copy, file = some f → f.blocks[b.toNat]? = some cs → copy ∈ cs →
      (∃ n ∈ w.nodes.docs, n.id = copy.nodeId) ∧
      Q 1 { w.mapBits (unmark [copy.slot]) with files := w.files.update f.id (File.pullCopy b.toNat copy) }) :
    (filesystemDeleteFileBlockCopy file b i).Ok (worldSpec C) Q E w := by
  cases file with
  | none => exact hno _
  | some f =>
    cases hcs : f.blocks[b.toNat]? with
    | none =>
      simp only [filesystemDeleteFileBlockCopy, hcs]
      exact hno _
    | some cs =>
      cases hcopy : cs[i.toNat]? with
      | none =>
        simp only [filesystemDeleteFileBlockCopy, hcs, hcopy]
        exact hno _
      | some copy =>
        obtain ⟨hnode, hQ⟩ := hyes f cs copy rfl hcs (List.mem_of_getElem? hcopy)
        exact deleteFileBlockCopy_at_ok hF hcs hcopy hnode hQ

/-! ## Deleting a directory -/

/-- What deleting stored files and directory entries keeps, deleting a directory keeps. -/
theorem deleteDir_ok {I : World → Prop} (hE : ∀ e v, E e v)
    (hfits : ∀ v, I v → v.Fits ∧ ∀ f ∈ v.files.docs, ∀ c ∈ f.blocks.flatten,
      ∃ n ∈ v.nodes.docs, n.id = c.nodeId)
    (hfile : ∀ v f, I v → f ∈ v.files.docs → (∃ u c, C u (.fileDelete f.id) c) → I (v.dropFile f))
    (hdir : ∀ v id, I v → I { v with dirs := v.dirs.remove fun d => d.id = id }) :
    ∀ {fuel d w}, I w → (filesystemDeleteDir fuel d).Ok (worldSpec C) (fun _ v => I v) E w := by
  intro fuel
  induction fuel with
  | zero => intro d w _; exact hE _ _
  | succ fuel ih =>
    intro d w hI
    cases d with
    | none => exact hI
    | some d =>
      simp only [filesystemDeleteDir, filesystemGetFilesInDir, filesystemGetDirsInDir, mongoFileGetByParentId,
        mongoDirGetByParentId, Prog.ok_bind, ok_ask, Prog.ok_ret, serve]
      intro _ _
      set files := w.files.docs.filter fun f => f.parentId = d.id with hfiles
      have hsub : ∀ f ∈ files, f ∈ w.files.docs := fun f hf => List.mem_of_mem_filter hf
      -- the files listed first are deleted one by one: those not yet deleted are still stored
      refine (Prog.ok_iterate (K := fun done v => I v ∧
        ∀ f ∈ files, f.id ∉ done.map File.id → f ∈ v.files.docs) files ?_ ⟨hI, fun f hf _ => hsub f hf⟩).imp ?_
      · rintro done f rest v hd ⟨hv, hstored⟩
        have hnodup : (files.map File.id).Nodup :=
          w.files.nodup_key.sublist (List.filter_sublist.map _)
        have hf : f.id ∉ done.map File.id := by
          have := hd ▸ hnodup
          simp only [List.map_append, List.map_cons, List.nodup_append] at this
          exact fun h => this.2.2 _ h _ (by simp) rfl
        have hmem := hstored f (hd ▸ by simp) hf
        simp only [Prog.ok_bind, Prog.ok_pure]
        refine deleteFile_ok (hfits v hv).1 ((hfits v hv).2 f hmem) fun hC =>
          ⟨hfile v f hv hmem hC, fun g hg hgd => ?_⟩
        simp only [List.map_append, List.map_cons, List.map_nil, List.mem_append, List.mem_singleton,
          not_or] at hgd
        exact Collection.mem_remove.2 ⟨hstored g hg hgd.1, by simpa using hgd.2⟩
      · rintro _ v ⟨hv, -⟩ _ _
        -- then the subdirectories, by induction on the fuel
        refine (Prog.ok_iterate (K := fun _ v => I v) _ ?_ hv).imp ?_
        · intro done child rest v _ hv
          simp only [Prog.ok_bind, Prog.ok_pure]
          exact ih hv
        · intro _ v hv
          simp only [mongoDirDeleteById, ok_ask, Prog.ok_ret, serve]
          exact fun _ _ => hdir v d.id hv

/-! ## Nodes that are new, and the format -/

/-- The file without the copies `P`, given by file, block and copy. -/
def File.prune (P : List (Oid × ℕ × FileBlock)) (f : File) : File :=
  { f with blocks := f.blocks.mapIdx fun i cs => cs.filter fun c => (f.id, i, c) ∉ P }

theorem prune_nil (f : File) : f.prune [] = f := by
  cases f; simp [File.prune, List.mapIdx_eq_zipIdx_map]

theorem prune_append (P : List (Oid × ℕ × FileBlock)) (id : Oid) (b : ℕ) (c : FileBlock) (f : File) :
    f.prune (P ++ [(id, b, c)]) = if f.id = id then (f.prune P).pullCopy b c else f.prune P := by
  split
  case isTrue h =>
    subst h
    simp only [File.prune, File.pullCopy, File.mk.injEq, true_and]
    refine List.ext_getElem? fun i => ?_
    rw [List.getElem?_modify, List.getElem?_mapIdx, List.getElem?_mapIdx, Option.map_eq_map, Option.map_map]
    refine Option.map_congr fun cs _ => ?_
    by_cases hi : b = i
    · subst hi
      simp only [if_true, Function.comp_apply, List.filter_filter]
      refine List.filter_congr fun x _ => ?_
      simp [and_comm]
    · simp [hi, Ne.symm hi]
  case isFalse h => simp [File.prune, h]

/-- The file without its copies on a node. -/
def File.without (nodeId : CStr) (f : File) : File :=
  { f with blocks := f.blocks.map fun cs => cs.filter fun c => c.nodeId ≠ nodeId }

/-- The copies on a node of some files: file, block and copy. -/
def copiesOn (nodeId : CStr) (files : List File) : List (Oid × ℕ × FileBlock) :=
  files.flatMap fun f => f.blocks.zipIdx.flatMap fun x =>
    (x.1.filter fun c => c.nodeId = nodeId).map fun c => (f.id, x.2, c)

/-- Deleting the copies on a node, file by file. -/
theorem deleteCopies_ok {nodeId : CStr} {files : List File} {Q : Unit → World → Prop}
    (hshort : ∀ f ∈ files, f.blocks.length < 65536)
    (hQ : ∀ w', w'.files.docs = w.files.docs.map (File.prune (copiesOn nodeId files)) →
      w' = { w with files := w'.files } → Q () w') :
    (Prog.iterate (deleteCopiesOf nodeId) files).Ok (worldSpec C) Q E w := by
  have hstep : ∀ P id b (c : FileBlock) (v : World), b < 65536 →
      v.files.docs = w.files.docs.map (File.prune P) →
      (v.files.update id (File.pullCopy b.toUInt16.toNat c)).docs =
        w.files.docs.map (File.prune (P ++ [(id, b, c)])) := by
    intro P id b c v hb hv
    have hb' : b.toUInt16.toNat = b := by simpa using Nat.mod_eq_of_lt hb
    rw [hb', docs_pullCopy, Collection.rewrite, hv, List.map_map]
    refine List.map_congr_left fun f _ => ?_
    rw [prune_append]
    rfl
  -- three loops, over files, blocks and copies: each carries the copies deleted so far
  refine (Prog.ok_iterate (K := fun done v => v.files.docs = w.files.docs.map (File.prune (copiesOn nodeId done)) ∧
    v = { w with files := v.files }) files ?_ ⟨?_, rfl⟩).imp fun _ v hv => hQ v hv.1 hv.2
  · intro done f rest v hd hv
    refine (Prog.ok_iterate (K := fun bs v => v.files.docs = w.files.docs.map (File.prune (copiesOn nodeId done ++
        bs.flatMap fun x => (x.1.filter fun c => c.nodeId = nodeId).map fun c => (f.id, x.2, c))) ∧
      v = { w with files := v.files }) f.blocks.zipIdx ?_ ?_).imp ?_
    · rintro bs x rest' v hbs hv
      have hx : x.2 < 65536 := by
        have := List.snd_lt_of_mem_zipIdx (hbs ▸ (by simp : x ∈ bs ++ x :: rest'))
        have := hshort f (hd ▸ by simp)
        omega
      refine (Prog.ok_iterate (K := fun cs v => v.files.docs = w.files.docs.map (File.prune (copiesOn nodeId done ++
          (bs.flatMap fun x => (x.1.filter fun c => c.nodeId = nodeId).map fun c => (f.id, x.2, c)) ++
          (cs.filter fun c => c.nodeId = nodeId).map fun c => (f.id, x.2, c))) ∧
        v = { w with files := v.files }) x.1 ?_ ?_).imp ?_
      · rintro cs c _ v _ hv
        by_cases hc : c.nodeId = nodeId
        · simp only [hc, if_true, mongoFileDeleteBlockCopy, ok_ask, Prog.ok_ret, serve]
          intro _ _
          refine ⟨?_, by rw [hv.2]⟩
          rw [hstep _ f.id x.2 c v hx hv.1]
          simp [List.filter_append, hc]
        · simpa [hc, List.filter_append] using hv
      · simpa using hv
      · intro _ v hv
        simpa [List.append_assoc] using hv
    · simpa using hv
    · intro _ v hv
      simpa [copiesOn, List.append_assoc] using hv
  · have : File.prune [] = id := funext prune_nil
    simp [copiesOn, this]

/-- Without the copies recorded on a node, read from the files that have some. -/
theorem prune_eq_without {nodeId : CStr} {files : List File} {f : File} (hnode : f.hasNode nodeId = true → f ∈ files) :
    f.prune (copiesOn nodeId files) = f.without nodeId := by
  simp only [File.prune, File.without, File.mk.injEq, true_and]
  refine List.ext_getElem? fun i => ?_
  rw [List.getElem?_mapIdx, List.getElem?_map]
  refine Option.map_congr fun cs hcs => List.filter_congr fun c hc => ?_
  have hcs' : f.blocks[i]? = some cs := hcs
  refine decide_eq_decide.2 (not_congr ⟨fun h => ?_, fun h => ?_⟩)
  · simp only [copiesOn, List.mem_flatMap, List.mem_map, List.mem_filter] at h
    obtain ⟨g, -, x, -, c', ⟨-, hc'⟩, heq⟩ := h
    simp only [Prod.mk.injEq] at heq
    exact heq.2.2 ▸ of_decide_eq_true hc'
  · have hf : f ∈ files := hnode (List.any_eq_true.2 ⟨cs, List.mem_of_getElem? hcs',
      List.any_eq_true.2 ⟨c, hc, decide_eq_true h⟩⟩)
    exact List.mem_flatMap.2 ⟨f, hf, List.mem_flatMap.2 ⟨(cs, i), List.mem_zipIdx_iff_getElem?.2 hcs',
      List.mem_map.2 ⟨c, List.mem_filter.2 ⟨hc, decide_eq_true h⟩, rfl⟩⟩⟩

/-- The bitmap of a node written back, in a store whose nodes `l` are listed. -/
theorem rewrite_setBlocks {nodes : Nodes} {id : CStr} {n : Node} {g : Node → Node}
    (h : ∀ m ∈ nodes.docs, m.id = id → Node.setBlocks n m = g m) :
    nodes.rewrite id (Node.setBlocks n) = nodes.docs.map fun m => if m.id = id then g m else m := by
  refine List.map_congr_left fun m hm => ?_
  split
  · exact h m hm (by assumption)
  · rfl

/-- A known node that says it is new: its copies are gone and it is formatted. -/
structure Renewed (w w' : World) (nodeId : CStr) (count : UInt16) : Prop where
  files : w'.files.docs = w.files.docs.map (File.without nodeId)
  nodes : w'.nodes.docs = w.nodes.docs.map fun m => if m.id = nodeId then nodeCreate nodeId count else m
  world : w' = { w with files := w'.files, nodes := w'.nodes }

/-- **`filesystem_addNode` of a known node**: it is renewed if it says that it is new. -/
theorem addNode_known_ok {n : Node} {count : UInt16} {isNew : Bool} {Q : Unit → World → Prop}
    (hshort : ∀ f ∈ w.files.docs, f.blocks.length < 65536) (hn : n ∈ w.nodes.docs) (hold : isNew = false → Q () w)
    (hnew : isNew = true → ∀ w', Renewed w w' n.id count → Q () w') :
    (filesystemAddNode n.id count isNew).Ok (worldSpec C) Q E w := by
  simp only [filesystemAddNode, filesystemGetNodeById, mongoNodeGetById, Prog.ok_bind, ok_ask, Prog.ok_ret, serve]
  intro _ _
  rw [Collection.findKey_eq_some.2 ⟨hn, rfl⟩]
  simp only
  cases isNew with
  | false => exact hold rfl
  | true =>
    simp only [if_true, mongoFileGetFilesThatHaveNode, Prog.ok_bind, ok_ask, Prog.ok_ret, serve]
    intro _ _
    set files := w.files.docs.filter fun f => f.hasNode n.id with hfiles
    refine deleteCopies_ok (fun f hf => hshort f (List.mem_of_mem_filter hf)) fun v hv hw => ?_
    simp only [filesystemFormatNode, mongoNodeUpdateBlocks, ok_ask, Prog.ok_ret, serve]
    intro _ _
    -- a file that is not in the list has no copy on the node, so nothing of it is filtered
    refine hnew rfl _ ⟨?_, ?_, ?_⟩
    · rw [show ({ v with nodes := _ } : World).files = v.files from rfl, hv]
      exact List.map_congr_left fun f hf => prune_eq_without fun h => List.mem_filter.2 ⟨hf, h⟩
    · have hnodes : v.nodes = w.nodes := by rw [hw]
      rw [docs_setBlocks, hnodes]
      refine rewrite_setBlocks fun m hm hid => ?_
      rw [Collection.eq_of_key hm hn hid]
      rfl
    · rw [hw]

/-- **`filesystem_addNode`**: nothing, a new node, or a known node renewed. -/
theorem addNode_ok {nodeId : CStr} {count : UInt16} {isNew : Bool} {Q : Unit → World → Prop}
    (hshort : ∀ f ∈ w.files.docs, f.blocks.length < 65536) (hno : Q () w)
    (hnew : ∀ nodes, w.nodes.insert (nodeCreate nodeId count) = some nodes → Q () { w with nodes := nodes })
    (hold : isNew = true → ∀ w', Renewed w w' nodeId count → Q () w') :
    (filesystemAddNode nodeId count isNew).Ok (worldSpec C) Q E w := by
  cases hn : w.nodes.findKey nodeId with
  | some n =>
    obtain ⟨hmem, rfl⟩ := Collection.findKey_eq_some.1 hn
    exact addNode_known_ok hshort hmem (fun _ => hno) hold
  | none =>
    simp only [filesystemAddNode, filesystemGetNodeById, mongoNodeGetById, Prog.ok_bind, ok_ask, Prog.ok_ret, serve]
    intro _ _
    simp only [hn, mongoNodeSave, Prog.ok_bind, ok_ask, Prog.ok_ret, serve, Prog.ok_pure]
    intro c _
    cases hok : c.ok with
    | false => simpa using hno
    | true =>
      simp only [if_true]
      cases hi : w.nodes.insert (nodeCreate nodeId count) with
      | none => exact hno
      | some nodes => exact hnew nodes hi

/-- **`filesystem_addDir`**: a directory with the next id is stored under a name
that was free, or none is. -/
theorem addDir_ok {d : Dir} {Q : Bool → World → Prop} (hno : ∀ oids, w.oids ≤ oids → Q false { w with oids := oids })
    (hyes : ∀ dirs c, (∀ f ∈ w.files.docs, (f.name, f.parentId) ≠ (d.name, d.parentId)) →
      C { w with oids := w.oids + 1 } (.dirInsert { d with id := .gen w.oids }) c → c.ok = true →
      w.dirs.insert { d with id := .gen w.oids } = some dirs → Q true { w with dirs := dirs, oids := w.oids + 1 }) :
    (filesystemAddDir d).Ok (worldSpec C) Q E w := by
  have hkept : Q false w := hno w.oids le_rfl
  have hcounted : Q false { w with oids := w.oids + 1 } := hno (w.oids + 1) (Nat.le_succ _)
  simp only [filesystemAddDir, Prog.ok_bind]
  refine canCreateResource_ok hkept fun _ hfile => ?_
  simp only [if_true, mongoDirSave, mongoGenerateId, Prog.ok_bind, ok_ask, Prog.ok_ret, serve]
  intro _ _ c hc
  cases hok : c.ok with
  | false => exact hcounted
  | true =>
    simp only [if_true]
    cases hins : w.dirs.insert { d with id := .gen w.oids } with
    | none => exact hcounted
    | some dirs => exact hyes dirs c hfile hc hok hins

/-- **`filesystem_format`**: no directory, no file, every block free. -/
theorem format_ok {Q : Bool → World → Prop}
    (hQ : ∀ nodes : Nodes, (∃ u c, C u .fileDeleteAll c) →
      nodes.docs = w.nodes.docs.map nodeSetAllBlocksFree →
      Q true { w with dirs := .empty, files := .empty, nodes := nodes }) :
    filesystemFormat.Ok (worldSpec C) Q E w := by
  simp only [filesystemFormat, mongoDirDeleteAll, mongoFileDeleteAll, mongoNodeGetAll, Prog.ok_bind, ok_ask,
    Prog.ok_ret, serve, if_true]
  intro _ _ c hc _ _
  refine (Prog.ok_iterate (K := fun done v => v.nodes.docs = w.nodes.docs.map (fun m =>
      if m.id ∈ done.map Node.id then nodeSetAllBlocksFree m else m) ∧
    v = { w with dirs := .empty, files := .empty, nodes := v.nodes }) w.nodes.docs ?_ ⟨by simp, rfl⟩).imp ?_
  · rintro done n rest v hd ⟨hv, hw⟩
    have hn : n ∈ w.nodes.docs := hd ▸ by simp
    simp only [filesystemFormatNode, mongoNodeUpdateBlocks, ok_ask, Prog.ok_ret, serve]
    intro _ _
    refine ⟨?_, by rw [hw]⟩
    rw [docs_setBlocks, Collection.rewrite, hv, List.map_map]
    refine List.map_congr_left fun m hm => ?_
    simp only [Function.comp_apply, List.map_append, List.map_cons, List.map_nil, List.mem_append,
      List.mem_singleton]
    have hid : (if m.id ∈ done.map Node.id then nodeSetAllBlocksFree m else m).id = m.id := by split <;> rfl
    rw [hid]
    by_cases hmn : m.id = n.id
    · cases Collection.eq_of_key hm hn hmn
      simp only [nodeSetAllBlocksFree, Node.setBlocks, or_true, if_true]
      split <;> rfl
    -- the other nodes are as the loop left them
    · simp [nodeSetAllBlocksFree, hmn]
  · rintro _ v ⟨hv, hw⟩
    have hall : v.nodes.docs = w.nodes.docs.map nodeSetAllBlocksFree := by
      rw [hv]
      refine List.map_congr_left fun m hm => ?_
      rw [if_pos (List.mem_map_of_mem hm)]
    rw [Prog.ok_pure, hw]
    exact hQ v.nodes ⟨_, c, hc⟩ hall

end Mdfs.FileSystem
