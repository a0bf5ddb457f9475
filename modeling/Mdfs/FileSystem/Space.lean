import Mathlib.Algebra.BigOperators.Group.Finset.Basic
import Mdfs.FileSystem.Content
import Mdfs.FileSystem.FreeSpace

/-!
# Space is neither lost nor made

Each block of a node is free or has one copy recorded, so that the free blocks and the copies are
together the blocks there are, on each node and on all.

* `space_conserved`: after every run of operations.
* `rm_undoes_cp`: a file that is imported and deleted leaves the store as it was.
* `rmb_undoes_cpb`: likewise a copy of a block.
-/

namespace Mdfs.FileSystem

open Lib Bitmap

variable {w w' : World} {sort : NodeSort} {n : Node}

/-- The number of copies recorded on a node. -/
def World.copiesOn (w : World) (nodeId : CStr) : ℕ := w.slots.countP fun s => s.1 = nodeId

/-- The used blocks of a node are the copies on it. -/
theorem Owned.card_usedOf (h : Owned w) (hn : n ∈ w.nodes.docs) : (usedOf n).card = w.copiesOn n.id := by
  have himage : (usedOf n).image (fun i => (n.id, i)) = (w.slots.filter fun s => s.1 = n.id).toFinset := by
    ext s
    simp only [Finset.mem_image, List.mem_toFinset, List.mem_filter, decide_eq_true_eq, usedOf, Finset.mem_filter,
      Finset.mem_range]
    constructor
    · rintro ⟨i, ⟨-, hbit⟩, rfl⟩
      exact ⟨(h.used _).1 ⟨n, hn, rfl, hbit⟩, rfl⟩
    · rintro ⟨hs, hid⟩
      obtain ⟨m, hm, hmid, hbit⟩ := (h.used s).2 hs
      obtain rfl : m = n := Collection.eq_of_key hm hn (hmid.trans hid)
      exact ⟨s.2, ⟨(h.fits m hm).lt _ hbit, hbit⟩, Prod.ext hmid rfl⟩
  have hinj : Function.Injective fun i : ℕ => (n.id, i) := fun _ _ heq => (Prod.mk.inj heq).2
  rw [← Finset.card_image_of_injective _ hinj, himage, List.toFinset_card_of_nodup (h.nodup.filter _),
    World.copiesOn, List.countP_eq_length_filter]

/-- **A node's blocks** are free or have a copy. -/
theorem Owned.free_add_copies (h : Owned w) (hn : n ∈ w.nodes.docs) :
    freeBlocks n + w.copiesOn n.id = n.blocksCount.toNat := by
  have hused : ∀ i ∈ usedOf n, i < n.blocksCount.toNat := by
    intro i hi
    exact Finset.mem_range.1 (Finset.mem_filter.1 hi).1
  rw [← h.card_usedOf hn]
  exact card_clearOf hused

/-- Every copy is on one of the nodes. -/
theorem Owned.sum_copiesOn (h : Owned w) :
    (w.nodes.docs.map fun n => w.copiesOn n.id).sum = w.slots.length := by
  have hnodup : (w.nodes.docs.map Node.id).Nodup := w.nodes.nodup_key
  have hstored : ∀ id ∈ (w.slots.map Prod.fst : Multiset CStr), id ∈ (w.nodes.docs.map Node.id).toFinset := by
    intro id hid
    obtain ⟨s, hs, rfl⟩ := List.mem_map.1 (Multiset.mem_coe.1 hid)
    obtain ⟨m, hm, hmid, -⟩ := (h.used s).2 hs
    exact List.mem_toFinset.2 (List.mem_map.2 ⟨m, hm, hmid⟩)
  have hcount : ∀ id, Multiset.count id (w.slots.map Prod.fst : Multiset CStr) = w.copiesOn id := by
    intro id
    rw [← Multiset.map_coe, Multiset.count_map, Multiset.filter_coe, Multiset.coe_card, World.copiesOn,
      List.countP_eq_length_filter]
    simp only [eq_comm]
  have hcard := Multiset.sum_count_eq_card hstored
  rw [Multiset.coe_card, List.length_map] at hcard
  rw [← hcard, List.sum_toFinset _ hnodup, List.map_map]
  refine congrArg List.sum (List.map_congr_left fun m _ => ?_)
  rw [Function.comp_apply, hcount]

/-- **Space is conserved.** After every sequence of completed operations from the empty store, on each node and
on all nodes together the free blocks and the recorded copies are the blocks there are. -/
theorem space_conserved (sort : NodeSort) (disk : Slot → CStr) (es : List (Operation × List Choice)) (w : World)
    (hfew : Along (Operation.step sort) (Operation.Meets sort FewBlocks) (World.empty disk) es)
    (hrun : run (Operation.step sort) (World.empty disk) es = some w) :
    (∀ n ∈ w.nodes.docs, freeBlocks n + w.copiesOn n.id = n.blocksCount.toNat) ∧
      (w.nodes.docs.map freeBlocks).sum + w.slots.length = (w.nodes.docs.map fun n => n.blocksCount.toNat).sum := by
  have hO := kept_run kept_owned (owned_empty disk) hfew hrun
  refine ⟨fun n hn => hO.free_add_copies hn, ?_⟩
  rw [← hO.sum_copiesOn, ← List.sum_map_add]
  exact congrArg List.sum (List.map_congr_left fun n hn => hO.free_add_copies hn)

/-- The text `hello` on three nodes of two blocks: three blocks are free. -/
theorem space_conserved_hello : ∃ w, run (Operation.step insertionSort) (World.empty fun _ => [])
      (threeNodes ++ [(.copyFileFromFS (cstr "/tmp/a") (cstr "a") .root, importHello)]) = some w ∧
    w.slots.length = 3 ∧ (w.nodes.docs.map freeBlocks).sum = 3 := by
  set es := threeNodes ++ [(.copyFileFromFS (cstr "/tmp/a") (cstr "a") .root, importHello)]
  have hcounts : (run (Operation.step insertionSort) (World.empty fun _ => []) es).map
      (fun w => (w.slots.length, (w.nodes.docs.map fun n => n.blocksCount.toNat).sum)) = some (3, 6) := by
    decide +kernel
  obtain ⟨w, hw, hcounts⟩ := Option.map_eq_some_iff.1 hcounts
  obtain ⟨hcopies, htotal⟩ := Prod.mk.inj hcounts
  have hspace := (space_conserved insertionSort (fun _ => []) es w (by decide +kernel) hw).2
  exact ⟨w, hw, hcopies, by omega⟩

/-! ## Taking back what was stored -/

/-- **An imported file, deleted again**: only bytes of free blocks and the count of ids are other. -/
theorem Imported.dropFile {bs : List (List UInt8)} {f : File} (hO : Owned w) (h : Imported w w' bs f) :
    w'.dropFile f = { w with disk := w'.disk, oids := w'.oids } := by
  have hfiles : w'.files.remove (fun g => g.id = f.id) = w.files := by
    refine Collection.ext ?_
    show (w'.files.docs.filter fun g => !decide (g.id = f.id)) = w.files.docs
    rw [(Collection.insert_eq_some.1 h.files).2, List.filter_append]
    have hold : w.files.docs.filter (fun g => !decide (g.id = f.id)) = w.files.docs := by
      refine List.filter_eq_self.2 fun g hg => ?_
      have hne : g.id ≠ f.id := by
        rw [h.id]
        exact hO.new_id hg
      simp [hne]
    rw [hold]
    simp
  have hworld := h.dist.world
  have hw' : w' = { World.mapBits (mark f.slots) { w with disk := w'.disk, oids := w'.oids } with
      files := w'.files } := by
    have hdirs := congrArg World.dirs hworld
    have hnodes := congrArg World.nodes hworld
    cases w'
    simp only [World.mapBits, World.mk.injEq] at hdirs hnodes ⊢
    exact ⟨hdirs, trivial, hnodes, trivial, trivial⟩
  have hfree := unmark_mark_free (w := { w with disk := w'.disk, oids := w'.oids }) h.dist.free
  simp only [World.dropFile]
  rw [hfiles]
  conv_lhs => rw [hw']
  exact congrArg (fun u : World => { u with files := w.files }) hfree

/-- **`rm` undoes `cp`.** In a store reached by operations, an import that returns 1 and then the deletion of the
file leave the directories, the files and the bitmaps as they were, and every block that had a copy its bytes. -/
theorem rm_undoes_cp (sort : NodeSort) (disk : Slot → CStr) (es : List (Operation × List Choice)) (w₀ w₁ w₂ : World)
    (route name : CStr) (parentId : Oid) (is js : List Choice)
    (hes : Along (Operation.step sort) (Operation.Meets sort FewBlocks) (World.empty disk) es)
    (hrun : run (Operation.step sort) (World.empty disk) es = some w₀)
    (hfew : (filesystemCopyFileFromFS sort route (newFile name parentId)).Along handle FewBlocks w₀ is)
    (himport : (filesystemCopyFileFromFS sort route (newFile name parentId)).exec handle w₀ is = some (.ok 1, w₁))
    (hdelete : Operation.step sort w₁ (.deleteFile name parentId, js) = some w₂) :
    w₂ = { w₀ with disk := w₂.disk, oids := w₂.oids } ∧ ∀ s, w₀.Used s → w₂.disk s = w₀.disk s := by
  have hO := kept_run kept_owned (owned_empty disk) hes hrun
  have hcp : (filesystemCopyFileFromFS sort route (newFile name parentId)).Ok (worldSpec FewBlocks)
      (fun r v => r = 1 → ∃ bs f, f.name = name ∧ f.parentId = parentId ∧ Imported w₀ v bs f ∧ Owned v)
      (fun _ _ => True) w₀ := by
    refine copyFileFromFS_ok (fun _ _ _ _ _ _ => trivial) hO.fits (fun g hg => hO.new_id hg)
      rfl (fun r _ hr _ h1 => absurd h1 hr) ?_
    intro w' _ _ bs f _ _ _ hname hparent _ hask hi _
    obtain ⟨u, c, -, -, hmet, -⟩ := hask.met
    exact ⟨bs, f, hname, hparent, hi, hO.imported hi (hmet f rfl)⟩
  obtain ⟨bs, f, hname, hparent, hi, hO₁⟩ := hcp.exec_along hfew himport rfl
  have hf : f ∈ w₁.files.docs := by
    rw [(Collection.insert_eq_some.1 hi.files).2]
    exact List.mem_append_right _ (List.mem_singleton_self f)
  have hrm : ((Operation.deleteFile name parentId).prog sort).Ok (worldSpec fun _ _ _ => True)
      (fun _ v => v = w₁.dropFile f) (fun _ _ => True) w₁ := by
    simp only [Operation.prog, Prog.ok_bind, Prog.ok_pure]
    have hfind : w₁.files.findIdx (name, parentId) = some f := Collection.findIdx_eq_some.2 ⟨hf, by rw [hname, hparent]⟩
    simp only [filesystemGetFileByNameInDir, mongoFileGetByNameInDir, ok_ask, Prog.ok_ret, serve, hfind]
    intro _ _
    exact deleteFile_ok hO₁.fits (fun c hc => hO₁.stored hf hc) fun _ => rfl
  have hw₂ : w₂ = w₁.dropFile f :=
    Operation.step_ok (I := fun v => v = w₁.dropFile f) hrm (Prog.along_of_mem fun _ _ _ _ => trivial) hdelete
  rw [hi.dropFile hO] at hw₂
  rw [hw₂]
  exact ⟨rfl, fun s hs => hi.dist.frame s fun hS => (hi.dist.free s hS).not_used hs⟩

/-- The text `hello` imported on three nodes, and deleted. -/
theorem rm_undoes_cp_hello : ∃ w₀ w₁ w₂, run (Operation.step insertionSort) (World.empty fun _ => []) threeNodes =
      some w₀ ∧
    w₁.slots.length = 3 ∧ Operation.step insertionSort w₁ (.deleteFile (cstr "a") .root, List.replicate 8 .done) =
      some w₂ ∧
    w₂ = { w₀ with disk := w₂.disk, oids := w₂.oids } := by
  set copyHello := filesystemCopyFileFromFS insertionSort (cstr "/tmp/a") (newFile (cstr "a") .root)
  have hall : ∃ w₀ ∈ run (Operation.step insertionSort) (World.empty fun _ => []) threeNodes,
      copyHello.Along handle FewBlocks w₀ importHello ∧
      ∃ x ∈ copyHello.exec handle w₀ importHello, x.1.toOption = some 1 ∧ x.2.slots.length = 3 ∧
      (Operation.step insertionSort x.2 (.deleteFile (cstr "a") .root, List.replicate 8 .done)).isSome = true := by
    decide +kernel
  obtain ⟨w₀, h₀, hfew, ⟨r, w₁⟩, h₁, hr, hlen, hdelete⟩ := hall
  obtain ⟨w₂, h₂⟩ := Option.isSome_iff_exists.1 hdelete
  have himport : copyHello.exec handle w₀ importHello = some (.ok 1, w₁) := by
    cases r with
    | ok r => cases hr; exact h₁
    | error e => cases hr
  have hundone := rm_undoes_cp insertionSort (fun _ => []) threeNodes w₀ w₁ w₂ (cstr "/tmp/a") (cstr "a") .root
    importHello (List.replicate 8 .done) (by decide +kernel) h₀ hfew himport h₂
  exact ⟨w₀, w₁, w₂, h₀, hlen, h₂, hundone.1⟩

/-- **A new copy, deleted again**: only bytes of a free block are other. -/
theorem Copied.pullCopy {f : File} (hf : f ∈ w.files.docs) {cs : List FileBlock} {b : ℕ} (hcs : f.blocks[b]? = some cs)
    {copy : FileBlock} {block : CStr} (h : Copied w w' f.id cs b copy block) :
    ({ w'.mapBits (unmark [copy.slot]) with files := w'.files.update f.id (File.pullCopy b copy) } : World) =
      { w with disk := w'.disk } := by
  have hnew : copy ∉ cs := fun hm => h.apart (List.mem_map_of_mem hm)
  have hsame : (f.addCopy b copy).pullCopy b copy = f := by
    have hblocks : ((f.blocks.modify b fun cs => if copy ∈ cs then cs else cs ++ [copy]).modify b fun cs =>
        cs.filter fun c => c ≠ copy) = f.blocks := by
      refine List.ext_getElem? fun i => ?_
      rw [List.getElem?_modify, List.getElem?_modify]
      by_cases hi : b = i
      · rw [← hi, hcs]
        have hkeep : cs.filter (fun c => decide (c ≠ copy)) = cs := by
          refine List.filter_eq_self.2 fun c hc => decide_eq_true ?_
          rintro rfl
          exact hnew hc
        simp only [if_true, Option.map_eq_map, Option.map_some, if_neg hnew, List.filter_append, hkeep]
        simp
      · simp [hi]
    exact congrArg (fun blocks => ({ f with blocks := blocks } : File)) hblocks
  have hfiles : w'.files = w.files.update f.id (File.addCopy b copy) := by rw [h.world]
  have hback : w'.files.update f.id (File.pullCopy b copy) = w.files := by
    refine Collection.ext ?_
    rw [docs_pullCopy, Collection.rewrite, hfiles, docs_addCopy, Collection.rewrite, List.map_map]
    refine (List.map_congr_left fun a ha => ?_).trans (List.map_id _)
    simp only [Function.comp_apply]
    by_cases hid : a.id = f.id
    · have hid' : (f.addCopy b copy).id = f.id := rfl
      rw [if_pos hid, Collection.eq_of_key ha hf hid, if_pos hid']
      exact hsame
    · rw [if_neg hid, if_neg hid]
      rfl
  have hfree : ∀ s ∈ [copy.slot], World.Free { w with disk := w'.disk } s := by
    intro s hs
    rw [List.mem_singleton.1 hs]
    exact h.free
  have hbits := unmark_mark_free (w := { w with disk := w'.disk }) hfree
  rw [hback]
  conv_lhs => rw [h.world]
  exact congrArg (fun u : World => { u with files := w.files }) hbits

/-- **`rmb` undoes `cpb`.** In a store reached by operations, a new copy of a block and then the deletion of the
last copy of the block leave the directories, the files and the bitmaps as they were, and every block that had a
copy its bytes. -/
theorem rmb_undoes_cpb (sort : NodeSort) (disk : Slot → CStr) (es : List (Operation × List Choice)) (w₀ w₁ w₂ : World)
    (f : File) (copies : List FileBlock) (b i : UInt16) (is js : List Choice)
    (hes : Along (Operation.step sort) (Operation.Meets sort FewBlocks) (World.empty disk) es)
    (hrun : run (Operation.step sort) (World.empty disk) es = some w₀)
    (hf : f ∈ w₀.files.docs) (hcopies : f.blocks[b.toNat]? = some copies) (hlast : i.toNat = copies.length)
    (hcopy : (filesystemMakeNewFileBlockCopy sort (some f) b).exec handle w₀ is = some (.ok 1, w₁))
    (hdelete : Operation.step sort w₁ (.deleteFileBlockCopy f.name f.parentId b i, js) = some w₂) :
    w₂ = { w₀ with disk := w₂.disk } ∧ ∀ s, w₀.Used s → w₂.disk s = w₀.disk s := by
  have hO := kept_run kept_owned (owned_empty disk) hes hrun
  have hcpb : (filesystemMakeNewFileBlockCopy sort (some f) b).Ok (worldSpec fun _ _ _ => True)
      (fun r v => r = 1 → ∃ copy block, Copied w₀ v f.id copies b.toNat copy block) (fun _ _ => True) w₀ := by
    simp only [filesystemMakeNewFileBlockCopy, Prog.ok_bind]
    refine makeNewFileBlockCopyInMemory_ok hO.fits (fun _ => ?_) (fun _ _ _ => ?_) (fun _ _ _ _ _ => ?_)
      (fun _ _ _ => ?_) ?_
    · exact fun h1 : (-1 : ℤ) = 1 => absurd h1 (by decide)
    · exact fun h1 : (-2 : ℤ) = 1 => absurd h1 (by decide)
    · exact fun h1 : (-3 : ℤ) = 1 => absurd h1 (by decide)
    · exact fun h1 : (-3 : ℤ) = 1 => absurd h1 (by decide)
    · intro w' cs _ _ _ _ block copy hcs _ _ _ _ _ _ hcopied _
      cases hcopies.symm.trans hcs
      exact ⟨copy, _, hcopied⟩
  obtain ⟨copy, block, hc⟩ := hcpb.exec_along (Prog.along_of_mem fun _ _ _ _ => trivial) hcopy rfl
  have hO₁ := hO.addCopy hf hcopies hc
  -- the file that is found again has the new copy at the end of the block
  have hnew : copy ∉ copies := fun hm => hc.apart (List.mem_map_of_mem hm)
  have hdocs : w₁.files.docs = w₀.files.rewrite f.id (File.addCopy b.toNat copy) := by
    rw [hc.world]
    exact docs_addCopy _ _ _ _
  have hg : f.addCopy b.toNat copy ∈ w₁.files.docs := by
    rw [hdocs]
    exact List.mem_map.2 ⟨f, hf, if_pos rfl⟩
  have hblock : (f.addCopy b.toNat copy).blocks[b.toNat]? = some (copies ++ [copy]) := by
    simp [File.addCopy, hcopies, hnew]
  have hrmb : ((Operation.deleteFileBlockCopy f.name f.parentId b i).prog sort).Ok (worldSpec fun _ _ _ => True)
      (fun _ v => v = { w₀ with disk := w₁.disk }) (fun _ _ => True) w₁ := by
    simp only [Operation.prog, Prog.ok_bind, Prog.ok_pure]
    have hfind : w₁.files.findIdx (f.name, f.parentId) = some (f.addCopy b.toNat copy) :=
      Collection.findIdx_eq_some.2 ⟨hg, rfl⟩
    simp only [filesystemGetFileByNameInDir, mongoFileGetByNameInDir, ok_ask, Prog.ok_ret, serve, hfind]
    intro _ _
    have hat : (copies ++ [copy])[i.toNat]? = some copy := by
      rw [hlast]
      simp
    have hstored : ∃ n ∈ w₁.nodes.docs, n.id = copy.nodeId :=
      hO₁.stored hg (List.mem_flatten.2 ⟨_, List.mem_of_getElem? hblock, by simp⟩)
    exact deleteFileBlockCopy_at_ok hO₁.fits hblock hat hstored (hc.pullCopy hf hcopies)
  have hw₂ : w₂ = { w₀ with disk := w₁.disk } :=
    Operation.step_ok (I := fun v => v = { w₀ with disk := w₁.disk }) hrmb (Prog.along_of_mem fun _ _ _ _ => trivial)
      hdelete
  rw [hw₂]
  refine ⟨rfl, fun s hs => hc.frame s ?_⟩
  rintro rfl
  exact hc.free.not_used hs

/-- The only block of the text `hello` copied to a fourth node, and the copy deleted. -/
theorem rmb_undoes_cpb_hello : ∃ w₀ w₁ w₂ : World, w₁.slots.length = 4 ∧
    Operation.step insertionSort w₁ (.deleteFileBlockCopy (cstr "a") .root 0 3, List.replicate 4 .done) = some w₂ ∧
    w₂ = { w₀ with disk := w₂.disk } := by
  set es := threeNodes ++ [(.copyFileFromFS (cstr "/tmp/a") (cstr "a") .root, importHello),
    (.addNode (cstr "n4") 2 true, List.replicate 2 .done)]
  set js : List Choice := Choice.bytes (cstr "hello") :: List.replicate 8 Choice.done
  have hall : ∃ w₀ ∈ run (Operation.step insertionSort) (World.empty fun _ => []) es,
      ∃ f ∈ w₀.files.docs, f.name = cstr "a" ∧ f.parentId = .root ∧
      ∃ copies ∈ f.blocks[0]?, copies.length = 3 ∧
      ∃ x ∈ (filesystemMakeNewFileBlockCopy insertionSort (some f) 0).exec handle w₀ js,
        x.1.toOption = some 1 ∧ x.2.slots.length = 4 ∧
        (Operation.step insertionSort x.2 (.deleteFileBlockCopy (cstr "a") .root 0 3, List.replicate 4 .done)).isSome =
          true := by decide +kernel
  obtain ⟨w₀, h₀, f, hf, hname, hparent, copies, hcopies, hthree, ⟨r, w₁⟩, h₁, hr, hlen, hdelete⟩ := hall
  obtain ⟨w₂, h₂⟩ := Option.isSome_iff_exists.1 hdelete
  have hcopy : (filesystemMakeNewFileBlockCopy insertionSort (some f) 0).exec handle w₀ js = some (.ok 1, w₁) := by
    cases r with
    | ok r => cases hr; exact h₁
    | error e => cases hr
  have hundone := rmb_undoes_cpb insertionSort (fun _ => []) es w₀ w₁ w₂ f copies 0 3 js (List.replicate 4 .done)
    (by decide +kernel) h₀ hf hcopies hthree.symm hcopy (by rw [hname, hparent]; exact h₂)
  exact ⟨w₀, w₁, w₂, hlen, h₂, hundone.1⟩

end Mdfs.FileSystem
