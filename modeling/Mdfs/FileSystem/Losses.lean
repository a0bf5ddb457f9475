import Mathlib.Data.Finset.Card
import Mdfs.FileSystem.Content

/-!
# A file outlives the loss of all but one copy

A block is imported with `FILESYSTEM_BLOCK_COPIES` copies, on as many nodes. A copy is lost when it
is deleted, and when its node comes back as new; a node that does not answer hides one.

* `step_keeps`: an operation costs a block one copy at most, and most cost it none.
* `outlives_losses`: as long as the losses of each block and the silent nodes are fewer than its
  copies were, the file is read back whole.
-/

namespace Mdfs.FileSystem

open Lib

variable {C : World → Req → Choice → Prop} {w w' : World} {sort : NodeSort} {id : Oid} {name : CStr} {parentId : Oid}
  {bs : List CStr} {b k : ℕ}

/-- The node `nodeId` has a copy of block `b` of the file under a name. -/
def World.hasCopyOn (w : World) (name : CStr) (parentId : Oid) (b : ℕ) (nodeId : CStr) : Bool :=
  w.files.docs.any fun f => f.name = name && f.parentId = parentId && (f.blocks.getD b []).any fun c =>
    c.nodeId = nodeId

/-- The operation can cost block `b` of the file under a name a copy: it deletes one of this block, or a node that
has one comes back as new. -/
def Operation.costs (name : CStr) (parentId : Oid) (b : ℕ) (w : World) (x : Operation × List Choice) : Bool :=
  match x.1 with
  | .addNode nodeId _ isNewNode => isNewNode && w.hasCopyOn name parentId b nodeId
  | .deleteFileBlockCopy name' parentId' blockIndex _ => name' = name && parentId' = parentId && blockIndex.toNat = b
  | _ => false

/-- Block `b` of the file `id` has `k` copies or more. -/
def HasCopies (id : Oid) (b k : ℕ) (w : World) : Prop :=
  ∀ f ∈ w.files.docs, f.id = id → ∀ cs, f.blocks[b]? = some cs → k ≤ cs.length

theorem HasCopies.mono (h : HasCopies id b k w) {l : ℕ} (hl : l ≤ k) : HasCopies id b l w :=
  fun f hf hid cs hcs => hl.trans (h f hf hid cs hcs)

/-- The file with the id `id` is as it was, or there was none. -/
theorem HasCopies.same (h : HasCopies id b k w)
    (hf : ∀ f' ∈ w'.files.docs, f'.id = id → ∃ f ∈ w.files.docs, f.id = id ∧ f'.blocks = f.blocks) :
    HasCopies id b k w' := by
  intro f' hf' hid cs hcs
  obtain ⟨f, hfw, hfid, hblocks⟩ := hf f' hf' hid
  exact h f hfw hfid cs (by rw [← hblocks]; exact hcs)

/-- Of copies on different nodes, at most one is on a given node. -/
theorem length_le_filter_ne {α β : Type} [DecidableEq β] {g : α → β} {l : List α} (hn : (l.map g).Nodup) (x : β) :
    l.length ≤ (l.filter fun a => g a ≠ x).length + 1 := by
  have hone : (l.filter fun a => g a = x).length ≤ 1 := by
    have hcount : (l.map g).count x ≤ 1 := List.nodup_iff_count_le_one.1 hn x
    rw [← List.countP_eq_length_filter]
    rwa [List.count, List.countP_map] at hcount
  have hsplit := List.length_eq_length_filter_add (l := l) fun a => decide (g a = x)
  have hnot : (l.filter fun a => !decide (g a = x)) = l.filter fun a => g a ≠ x := by simp
  rw [hnot] at hsplit
  omega

/-- Every document is rewritten by `g`, which takes a block `l` copies at most. -/
theorem HasCopies.rewrite {l : ℕ} (h : HasCopies id b (k + l) w) {g : File → File}
    (hdocs : w'.files.docs = w.files.docs.map g) (hid : ∀ f, (g f).id = f.id)
    (hg : ∀ f ∈ w.files.docs, f.id = id → ∀ cs', (g f).blocks[b]? = some cs' →
      ∃ cs, f.blocks[b]? = some cs ∧ cs.length ≤ cs'.length + l) : HasCopies id b k w' := by
  intro f' hf' hfid cs' hcs'
  rw [hdocs, List.mem_map] at hf'
  obtain ⟨f, hf, rfl⟩ := hf'
  rw [hid] at hfid
  obtain ⟨cs, hcs, hle⟩ := hg f hf hfid cs' hcs'
  have hlen := h f hf hfid cs hcs
  omega

theorem HasCopies.renewed (h : HasCopies id b (k + 1) w) (hO : Owned w) {nodeId : CStr} {count : UInt16}
    (hr : Renewed w w' nodeId count) : HasCopies id b k w' := by
  refine h.rewrite hr.files (fun _ => rfl) fun f hf _ cs' hcs' => ?_
  simp only [File.without, List.getElem?_map, Option.map_eq_some_iff] at hcs'
  obtain ⟨cs, hcs, rfl⟩ := hcs'
  exact ⟨cs, hcs, length_le_filter_ne (hO.apart f hf cs (List.mem_of_getElem? hcs)) nodeId⟩

/-- A node that has no copy of the block takes none with it. -/
theorem HasCopies.renewed_elsewhere (h : HasCopies id b k w) (hH : Holds id name parentId bs w) {nodeId : CStr}
    {count : UInt16} (hno : w.hasCopyOn name parentId b nodeId = false) (hr : Renewed w w' nodeId count) :
    HasCopies id b k w' := by
  have hzero : HasCopies id b (k + 0) w := h
  refine hzero.rewrite hr.files (fun _ => rfl) fun f hf hid cs' hcs' => ?_
  simp only [File.without, List.getElem?_map, Option.map_eq_some_iff] at hcs'
  obtain ⟨cs, hcs, rfl⟩ := hcs'
  have hall : ∀ c ∈ cs, c.nodeId ≠ nodeId := by
    intro c hc hon
    obtain ⟨g, hg, hgid, hname, hparent, -⟩ := hH.file
    have hfg : f = g := Collection.eq_of_key hf hg (hid.trans hgid.symm)
    have hyes : w.hasCopyOn name parentId b nodeId = true := by
      refine List.any_eq_true.2 ⟨f, hf, ?_⟩
      rw [List.getD_eq_getElem?_getD, hcs, Option.getD_some, Bool.and_eq_true, Bool.and_eq_true]
      exact ⟨⟨decide_eq_true (hfg ▸ hname), decide_eq_true (hfg ▸ hparent)⟩,
        List.any_eq_true.2 ⟨c, hc, decide_eq_true hon⟩⟩
    rw [hno] at hyes
    cases hyes
  refine ⟨cs, hcs, ?_⟩
  rw [List.filter_eq_self.2 fun c hc => decide_eq_true (hall c hc)]
  exact le_rfl

/-- What a modification of a block of `f` leaves of block `b` of a file. -/
theorem getElem?_ite_modify {f a : File} {i : ℕ} {u : File → File} {g : List FileBlock → List FileBlock}
    (hu : ∀ a, (u a).blocks = a.blocks.modify i g) {cs' : List FileBlock}
    (hcs' : (if a.id = f.id then u a else a).blocks[b]? = some cs') :
    ∃ cs, a.blocks[b]? = some cs ∧ (cs' = cs ∨ a.id = f.id ∧ i = b ∧ cs' = g cs) := by
  split at hcs'
  case isFalse => exact ⟨cs', hcs', Or.inl rfl⟩
  case isTrue hid =>
    simp only [hu, List.getElem?_modify, Option.map_eq_map, Option.map_eq_some_iff] at hcs'
    obtain ⟨cs, hcs, rfl⟩ := hcs'
    refine ⟨cs, hcs, ?_⟩
    by_cases hi : i = b
    · rw [if_pos hi]
      exact Or.inr ⟨hid, hi, rfl⟩
    · rw [if_neg hi]
      exact Or.inl rfl

theorem ite_id {f : File} {u : File → File} (hu : ∀ a, (u a).id = a.id) (a : File) :
    (if a.id = f.id then u a else a).id = a.id := by
  split
  · exact hu a
  · rfl

theorem HasCopies.pullCopy (h : HasCopies id b (k + 1) w) (hO : Owned w) {f : File} {i : ℕ} {copy : FileBlock} :
    HasCopies id b k
      { w.mapBits (unmark [copy.slot]) with files := w.files.update f.id (File.pullCopy i copy) } := by
  refine h.rewrite (docs_pullCopy _ _ _ _) (ite_id fun _ => rfl) fun a ha _ cs' hcs' => ?_
  obtain ⟨cs, hcs, rfl | ⟨-, -, rfl⟩⟩ := getElem?_ite_modify (fun _ => rfl) hcs'
  · exact ⟨cs', hcs, Nat.le_succ _⟩
  · have hnodup : (cs.map fun c => c).Nodup := by
      rw [List.map_id']
      exact List.Nodup.of_map _ (hO.apart a ha cs (List.mem_of_getElem? hcs))
    exact ⟨cs, hcs, length_le_filter_ne hnodup copy⟩

/-- A copy of another block, or of another file. -/
theorem HasCopies.pullCopy_elsewhere (h : HasCopies id b k w) {f : File} {i : ℕ} {copy : FileBlock}
    (hne : f.id = id → i ≠ b) : HasCopies id b k
      { w.mapBits (unmark [copy.slot]) with files := w.files.update f.id (File.pullCopy i copy) } := by
  have hzero : HasCopies id b (k + 0) w := h
  refine hzero.rewrite (docs_pullCopy _ _ _ _) (ite_id fun _ => rfl) fun a _ hid cs' hcs' => ?_
  obtain ⟨cs, hcs, rfl | ⟨hfid, hi, -⟩⟩ := getElem?_ite_modify (fun _ => rfl) hcs'
  · exact ⟨cs', hcs, le_rfl⟩
  · exact absurd hi (hne (hfid.symm.trans hid))

theorem HasCopies.addCopy (h : HasCopies id b k w) {f : File} {cs : List FileBlock} {i : ℕ} {copy : FileBlock}
    {block : CStr} (hc : Copied w w' f.id cs i copy block) : HasCopies id b k w' := by
  have hdocs : w'.files.docs = w.files.rewrite f.id (File.addCopy i copy) := by
    rw [hc.world]
    exact docs_addCopy _ _ _ _
  have hzero : HasCopies id b (k + 0) w := h
  refine hzero.rewrite hdocs (ite_id fun _ => rfl) fun a _ _ cs' hcs' => ?_
  obtain ⟨ds, hds, rfl | ⟨-, -, rfl⟩⟩ := getElem?_ite_modify (fun _ => rfl) hcs'
  · exact ⟨cs', hds, le_rfl⟩
  · refine ⟨ds, hds, ?_⟩
    split
    · exact le_rfl
    · simp

/-- A change of other fields of a file. -/
theorem HasCopies.updateFile (h : HasCopies id b k w) {i : Oid} {g : File → File} (hid : ∀ f, (g f).id = f.id)
    (hblocks : ∀ f, (g f).blocks = f.blocks) : HasCopies id b k { w with files := w.files.update i g } := by
  refine h.same fun f' hf' hfid => ?_
  obtain hdocs | hsame := Collection.docs_update_or (c := w.files) (k := i) (f := g)
  · simp only [hdocs, Collection.rewrite, List.mem_map] at hf'
    obtain ⟨f, hf, rfl⟩ := hf'
    split at hfid
    · rw [hid] at hfid
      rename_i heq
      rw [if_pos heq]
      exact ⟨f, hf, hfid, hblocks f⟩
    · rename_i hne
      rw [if_neg hne]
      exact ⟨f, hf, hfid, rfl⟩
  · simp only [hsame] at hf'
    exact ⟨f', hf', hfid, rfl⟩

/-! ## What an operation costs -/

/-- **An operation that takes no copies** leaves the block those it has. -/
theorem keptBy_hasCopies {op : Operation} (hnode : ∀ nodeId count, op ≠ .addNode nodeId count true)
    (hdel : ∀ name parentId i j, op ≠ .deleteFileBlockCopy name parentId i j) :
    KeptBy op (Spares id) fun v => Holds id name parentId bs v ∧ HasCopies id b k v where
  owned h := h.1.owned
  untouched h hu := by
    refine ⟨kept_holds.untouched h.1 hu, h.2.same fun f hf hid => ⟨f, ?_, hid, rfl⟩⟩
    rw [hu.world] at hf
    exact hf
  imported h hask hi := by
    refine ⟨kept_holds.imported h.1 hask hi, h.2.same fun f hf hid => ⟨f, ?_, hid, rfl⟩⟩
    rw [(Collection.insert_eq_some.1 hi.files).2] at hf
    obtain hf | hf := List.mem_append.1 hf
    · exact hf
    -- the file that is imported has a new id
    · obtain ⟨g, hg, hgid, -⟩ := h.1.file
      have hnew := h.1.owned.new_id hg
      rw [List.mem_singleton.1 hf, hi.id] at hid
      exact absurd (hgid.trans hid.symm) hnew
  copied h hf hcs hc hch hblock hcopied := ⟨kept_holds.copied h.1 hf hcs hc hch hblock hcopied, h.2.addCopy hcopied⟩
  pulled hop := absurd hop (hdel _ _ _ _)
  dropped h hf hC := by
    refine ⟨kept_holds.dropped h.1 hf hC, h.2.same fun f hf hid => ⟨f, ?_, hid, rfl⟩⟩
    exact (Collection.mem_remove.1 hf).1
  newNode h hi := ⟨kept_holds.newNode h.1 hi, h.2.same fun f hf hid => ⟨f, hf, hid, rfl⟩⟩
  renewed hop := absurd hop (hnode _ _)
  formatted _ hC _ := by
    obtain ⟨u, c, hC⟩ := hC
    exact absurd hC.1 (by simp [Req.displaces])
  moved h hf hC := ⟨kept_holds.moved h.1 hf hC, h.2.updateFile (fun _ => rfl) fun _ => rfl⟩
  renamed h hf hC := ⟨kept_holds.renamed h.1 hf hC, h.2.updateFile (fun _ => rfl) fun _ => rfl⟩
  dirs h := ⟨kept_holds.dirs h.1, h.2.same fun f hf hid => ⟨f, hf, hid, rfl⟩⟩

/-- **An operation costs the block one copy at most**, and most operations cost it none. -/
theorem step_keeps {x : Operation × List Choice} (h : Holds id name parentId bs w)
    (hk : HasCopies id b (k + (Operation.costs name parentId b w x).toNat) w) :
    (x.1.prog sort).Ok (worldSpec (Spares id)) (fun _ v => Holds id name parentId bs v ∧ HasCopies id b k v)
      (fun _ _ => True) w := by
  have hO := h.owned
  have hsame : Holds id name parentId bs w ∧ HasCopies id b k w := ⟨h, hk.mono (Nat.le_add_right k _)⟩
  unfold Operation.costs at hk
  cases hop : x.1 with
  | addNode nodeId count isNew =>
    simp only [hop] at hk
    refine addNode_ok hO.short hsame (fun nodes hi => ?_) fun hnew w' hr => ?_
    · exact ⟨kept_holds.newNode h hi, hsame.2.same fun f hf hid => ⟨f, hf, hid, rfl⟩⟩
    · refine ⟨h.renewed hr, ?_⟩
      cases hon : w.hasCopyOn name parentId b nodeId with
      | false => exact hsame.2.renewed_elsewhere h hon hr
      | true =>
        rw [hnew, hon] at hk
        exact hk.renewed hO hr
  | deleteFileBlockCopy name' parentId' i j =>
    simp only [hop] at hk
    simp only [Operation.prog, Prog.ok_bind, Prog.ok_pure]
    refine getFile_ok hsame fun f hf hname hparent => ?_
    refine deleteFileBlockCopy_ok hO.fits (fun _ => hsame) ?_
    intro f' cs copy hf' hcs hcopy
    cases hf'
    have hstored := hO.stored hf (List.mem_flatten.2 ⟨cs, List.mem_of_getElem? hcs, hcopy⟩)
    refine ⟨hstored, h.pullCopy hf hcs hcopy, ?_⟩
    by_cases hthis : f.id = id ∧ i.toNat = b
    -- a copy of this block: the operation is one that costs it a copy
    · obtain ⟨g, hg, hgid, hgname, hgparent, -⟩ := h.file
      have hfg : f = g := Collection.eq_of_key hf hg (hthis.1.trans hgid.symm)
      have hname' : name' = name := by rw [← hname, hfg, hgname]
      have hparent' : parentId' = parentId := by rw [← hparent, hfg, hgparent]
      have hk1 : HasCopies id b (k + 1) w := by simpa [hname', hparent', hthis.2] using hk
      exact hk1.pullCopy hO
    · exact hsame.2.pullCopy_elsewhere fun hid hi => hthis ⟨hid, hi⟩
  | _ =>
    rw [← hop]
    refine keptBy_prog (keptBy_hasCopies ?_ ?_) hsame
    · simp [hop]
    · simp [hop]

/-- **A run costs the block a copy for each operation that can cost it one.** -/
theorem run_keeps {es : List (Operation × List Choice)} (h : Holds id name parentId bs w)
    (hk : HasCopies id b (k + countAlong (Operation.step sort) (Operation.costs name parentId b) w es) w)
    (hC : Along (Operation.step sort) (Operation.Meets sort (Spares id)) w es)
    (hr : run (Operation.step sort) w es = some w') : HasCopies id b k w' := by
  refine (run_budget (I := fun k v => Holds id name parentId bs v ∧ HasCopies id b k v) ?_ ⟨h, hk⟩ hC hr).2
  intro k v x v' hv hmeets hstep
  exact Operation.step_ok (I := fun v => Holds id name parentId bs v ∧ HasCopies id b k v) (step_keeps hv.1 hv.2)
    hmeets hstep

/-- Copies on more different nodes than are silent: one is on a node that answers. -/
theorem exists_answering {cs : List FileBlock} (hn : (cs.map FileBlock.nodeId).Nodup) {silent : Finset CStr}
    (hlt : silent.card < cs.length) : ∃ c ∈ cs, c.nodeId ∉ silent := by
  by_contra hall
  push Not at hall
  have hsub : (cs.map FileBlock.nodeId).toFinset ⊆ silent := by
    intro n hn'
    obtain ⟨c, hc, rfl⟩ := List.mem_map.1 (List.mem_toFinset.1 hn')
    exact hall c hc
  have hcard := Finset.card_le_card hsub
  rw [List.toFinset_card_of_nodup hn, List.length_map] at hcard
  omega

/-- **A file outlives losses.** In a store reached by operations, a text is imported with result 1; then come
operations that leave the file where it is. While for each of its blocks the operations that can cost the block
a copy and the nodes that do not answer are together fewer than the copies it was imported with, reading the
file gives the whole text. -/
theorem outlives_losses (sort : NodeSort) (disk : Slot → CStr) (es fs : List (Operation × List Choice))
    (w₀ w₁ w₂ : World) (route name content : CStr) (parentId : Oid) (is : List Choice) (f : File)
    (silent : Finset CStr) (htext : 0 ∉ content)
    (hes : Along (Operation.step sort) (Operation.Meets sort FewBlocks) (World.empty disk) es)
    (hrun : run (Operation.step sort) (World.empty disk) es = some w₀)
    (hreads : (filesystemCopyFileFromFS sort route (newFile name parentId)).Along handle (Imports content) w₀ is)
    (himport : (filesystemCopyFileFromFS sort route (newFile name parentId)).exec handle w₀ is = some (.ok 1, w₁))
    (hf : w₁.files.findIdx (name, parentId) = some f)
    (hfs : Along (Operation.step sort) (Operation.Meets sort (Spares f.id)) w₁ fs)
    (hlater : run (Operation.step sort) w₁ fs = some w₂)
    (hlosses : ∀ b < f.blocks.length,
      countAlong (Operation.step sort) (Operation.costs name parentId b) w₁ fs + silent.card <
        FILESYSTEM_BLOCK_COPIES) :
    ∀ js o w₃, (readFile name parentId).Along handle (Answering fun nodeId => nodeId ∉ silent) w₂ js →
      (readFile name parentId).exec handle w₂ js = some (o, w₃) → o = .ok (some content) := by
  have hO := kept_run kept_owned (owned_empty disk) hes hrun
  obtain ⟨f', bs, hi, hname, hparent, hflat, hH⟩ := (import_imported hO htext).exec_along hreads himport rfl
  have hf' : f' ∈ w₁.files.docs := by
    rw [(Collection.insert_eq_some.1 hi.files).2]
    exact List.mem_append_right _ (List.mem_singleton_self f')
  -- the file found under the name is the imported one
  obtain ⟨hm, hidx⟩ := Collection.findIdx_eq_some.1 hf
  obtain rfl : f = f' := Collection.eq_of_idx hm hf' (by rw [hidx, hname, hparent])
  have hH₂ := kept_run kept_holds hH hfs hlater
  obtain ⟨g, hg, hgid, hgname, hgparent, hst⟩ := hH₂.file
  have hfind : w₂.files.findIdx (name, parentId) = some g :=
    Collection.findIdx_eq_some.2 ⟨hg, by rw [hgname, hgparent]⟩
  -- every block has more copies than nodes are silent
  have hup : ∀ cs ∈ g.blocks, ∃ c ∈ cs, decide (c.nodeId ∉ silent) = true := by
    intro cs hcs
    obtain ⟨b, hb⟩ := List.mem_iff_getElem?.1 hcs
    have hlen : g.blocks.length = f.blocks.length := by
      have hfst : Stores w₁.disk bs f.blocks := by
        obtain ⟨a, ha, haid, -, -, hast⟩ := hH.file
        rwa [Collection.eq_of_key ha hf' haid] at hast
      rw [← hst.length_eq, hfst.length_eq]
    have hlt : b < f.blocks.length := by
      rw [← hlen]
      exact (List.getElem?_eq_some_iff.1 hb).1
    have hcount := hlosses b hlt
    have hstart : HasCopies f.id b
        (silent.card + 1 + countAlong (Operation.step sort) (Operation.costs name parentId b) w₁ fs) w₁ := by
      intro a ha haid ds hds
      rw [Collection.eq_of_key ha hf' haid] at hds
      rw [hi.dist.copies ds (List.mem_of_getElem? hds)]
      omega
    have hleft := run_keeps hH hstart hfs hlater g hg hgid cs hb
    obtain ⟨c, hc, hanswers⟩ := exists_answering (hH₂.owned.apart g hg cs hcs) hleft
    exact ⟨c, hc, decide_eq_true hanswers⟩
  intro js o w₃ hanswering hread
  have hok : (readFile name parentId).Ok (worldSpec (Answering fun nodeId => nodeId ∉ silent))
      (fun r _ => r = some content) (fun _ _ => False) w₂ := by
    simp only [readFile, filesystemGetFileByNameInDir, mongoFileGetByNameInDir, Prog.ok_bind, ok_ask,
      Prog.ok_ret, serve, hfind]
    intro _ _
    refine getAllFileContent_ok hst hH₂.text ?_
    rw [if_pos hup, hflat]
  have hres := hok.exec_along hanswering hread
  cases o with
  | ok r => exact congrArg Except.ok hres
  | error e => exact hres.elim

/-- A copy on a fourth node; then the first copy is deleted, and the third node comes back as new. -/
def twoLosses : List (Operation × List Choice) :=
  fourthCopy ++ [(.deleteFileBlockCopy (cstr "a") .root 0 0, List.replicate 4 .done),
    (.addNode (cstr "n3") 2 true, List.replicate 4 .done)]

/-- The text `hello` on three nodes, after two losses. -/
theorem outlives_two_losses : ∃ w₂ g, w₂.files.findIdx (cstr "a", .root) = some g ∧
    g.blocks.map List.length = [2] ∧
    ∀ js o w₃, (readFile (cstr "a") .root).Along handle (Answering fun nodeId => nodeId ∉ (∅ : Finset CStr)) w₂ js →
      (readFile (cstr "a") .root).exec handle w₂ js = some (o, w₃) → o = .ok (some (cstr "hello")) := by
  set copyHello := filesystemCopyFileFromFS insertionSort (cstr "/tmp/a") (newFile (cstr "a") .root)
  have hall : ∃ w₀ ∈ run (Operation.step insertionSort) (World.empty fun _ => []) threeNodes,
      copyHello.Along handle (Imports (cstr "hello")) w₀ importHello ∧
      ∃ x ∈ copyHello.exec handle w₀ importHello, x.1.toOption = some 1 ∧
      ∃ f ∈ x.2.files.findIdx (cstr "a", .root),
        Along (Operation.step insertionSort) (Operation.Meets insertionSort (Spares f.id)) x.2 twoLosses ∧
      ∃ w₂ ∈ run (Operation.step insertionSort) x.2 twoLosses,
      ∃ g ∈ w₂.files.findIdx (cstr "a", .root), g.blocks.map List.length = [2] := by decide +kernel
  have hcounts : ∀ w₀ ∈ run (Operation.step insertionSort) (World.empty fun _ => []) threeNodes,
      ∀ x ∈ copyHello.exec handle w₀ importHello, ∀ f ∈ x.2.files.findIdx (cstr "a", .root), f.blocks.length = 1 ∧
        countAlong (Operation.step insertionSort) (Operation.costs (cstr "a") .root 0) x.2 twoLosses = 2 := by
    decide +kernel
  obtain ⟨w₀, h₀, hreads, ⟨r, w₁⟩, h₁, hr, f, hf, hfs, w₂, h₂, g, hg, hnodes⟩ := hall
  obtain ⟨hlen, hcount⟩ := hcounts w₀ h₀ ⟨r, w₁⟩ h₁ f hf
  have himport : copyHello.exec handle w₀ importHello = some (.ok 1, w₁) := by
    cases r with
    | ok r => cases hr; exact h₁
    | error e => cases hr
  refine ⟨w₂, g, hg, hnodes, outlives_losses insertionSort (fun _ => []) threeNodes twoLosses w₀ w₁ w₂ (cstr "/tmp/a")
    (cstr "a") (cstr "hello") .root importHello f ∅ (by decide) (by decide +kernel) h₀ hreads himport hf hfs h₂ ?_⟩
  intro b hb
  obtain rfl : b = 0 := by omega
  have hthree : FILESYSTEM_BLOCK_COPIES = 3 := rfl
  rw [hcount, Finset.card_empty, hthree]
  omega

end Mdfs.FileSystem
