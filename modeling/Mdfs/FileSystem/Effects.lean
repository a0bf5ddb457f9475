import Mdfs.FileSystem.Plan

/-!
# What the operations do to the store

Each operation run alone, as the world it leaves behind. The bitmaps change as
`World.mapBits f`, which rewrites the bit of every slot by `f`: booking the slots
`S` is `mapBits (mark S)` and freeing them is `mapBits (unmark S)`.

* `freeBlockCopies_ok`: the loop over the copies of a file frees its slots.
* `distribute_ok`: a distribution that succeeds books the slots of the copies it
  returns and sets their blocks; one that fails books none.
-/

namespace Mdfs.FileSystem

open Lib

variable {C : World → Req → Choice → Prop} {E : Stop → World → Prop} {w w' : World}

/-- The world with every bit of every bitmap rewritten by `f`. -/
def World.mapBits (f : Slot → Bool → Bool) (w : World) : World :=
  { w with nodes := w.nodes.mapDocs (Node.withBits f) (fun _ => rfl) fun _ => rfl }

@[simp] theorem dirs_mapBits (f : Slot → Bool → Bool) : (w.mapBits f).dirs = w.dirs := rfl
@[simp] theorem files_mapBits (f : Slot → Bool → Bool) : (w.mapBits f).files = w.files := rfl
@[simp] theorem oids_mapBits (f : Slot → Bool → Bool) : (w.mapBits f).oids = w.oids := rfl
@[simp] theorem disk_mapBits (f : Slot → Bool → Bool) : (w.mapBits f).disk = w.disk := rfl
@[simp] theorem nodes_mapBits (f : Slot → Bool → Bool) :
    (w.mapBits f).nodes.docs = w.nodes.docs.map (Node.withBits f) := rfl

theorem mapBits_mapBits (f g : Slot → Bool → Bool) :
    (w.mapBits f).mapBits g = w.mapBits fun s b => g s (f s b) := by
  have h : ((w.mapBits f).mapBits g).nodes = (w.mapBits fun s b => g s (f s b)).nodes := by
    refine Collection.ext ?_
    simp only [nodes_mapBits, List.map_map]
    exact List.map_congr_left fun n _ => Node.withBits_withBits f g n
  simp only [World.mapBits] at h ⊢
  rw [h]

theorem mapBits_eq_self {f : Slot → Bool → Bool}
    (h : ∀ n ∈ w.nodes.docs, ∀ i, f (n.id, i) (n.blocks.testBit i) = n.blocks.testBit i) :
    w.mapBits f = w := by
  have : (w.mapBits f).nodes = w.nodes := by
    refine Collection.ext ?_
    rw [nodes_mapBits]
    exact (List.map_congr_left fun n hn => Node.withBits_eq_self fun i _ => h n hn i).trans (List.map_id _)
  simp only [World.mapBits] at this ⊢
  rw [this]

/-- `f` on the slots of the nodes `T`. -/
def onNodes (T : List CStr) (f : Slot → Bool → Bool) (s : Slot) (b : Bool) : Bool :=
  if s.1 ∈ T then f s b else b

theorem onNodes_eq {T : List CStr} {f : Slot → Bool → Bool} (h : ∀ s b, s.1 ∉ T → f s b = b) :
    onNodes T f = f := by
  funext s b
  unfold onNodes
  split
  · rfl
  · rename_i hs; exact (h s b hs).symm

theorem onNodes_onNodes {f : Slot → Bool → Bool} (hf : ∀ s b, f s (f s b) = f s b) (T U : List CStr)
    (s : Slot) (b : Bool) : onNodes U f s (onNodes T f s b) = onNodes (T ++ U) f s b := by
  unfold onNodes
  by_cases hT : s.1 ∈ T <;> by_cases hU : s.1 ∈ U <;> simp [hT, hU, hf]

/-- **Writing back a node** with rewritten bits rewrites its bits in the store. -/
theorem serve_nodeSetBlocks {n : Node} (hn : n ∈ w.nodes.docs) (f : Slot → Bool → Bool) (c : Choice) :
    serve w (.nodeSetBlocks (n.withBits f)) c = ((), w.mapBits (onNodes [n.id] f)) := by
  have h : w.nodes.update n.id (Node.setBlocks (n.withBits f)) = (w.mapBits (onNodes [n.id] f)).nodes := by
    refine Collection.ext ?_
    rw [docs_setBlocks, nodes_mapBits, Collection.rewrite]
    refine List.map_congr_left fun m hm => ?_
    by_cases hid : m.id = n.id
    · rw [if_pos hid, Collection.eq_of_key hm hn hid]
      refine Node.eq_of_bits rfl rfl rfl fun i hi => ?_
      have hi' : i < 8 * n.blocks.size := hi
      rw [Node.testBit_withBits hi']
      simp only [onNodes, List.mem_singleton, if_true]
      exact Node.testBit_withBits hi'
    · rw [if_neg hid]
      exact (Node.withBits_eq_self fun i _ => by simp [onNodes, hid]).symm
  simp only [serve, Node.withBits_id, h]
  rfl

theorem updateBlocks_ok {n : Node} (hn : n ∈ w.nodes.docs) {f : Slot → Bool → Bool}
    {Q : Unit → World → Prop} (hQ : Q () (w.mapBits (onNodes [n.id] f))) :
    (mongoNodeUpdateBlocks (n.withBits f)).Ok (worldSpec C) Q E w := by
  simp only [mongoNodeUpdateBlocks, ok_ask, Prog.ok_ret]
  intro c _
  rw [serve_nodeSetBlocks hn f c]
  exact hQ

/-- The bit of a slot is set in the store. -/
def World.Used (w : World) (s : Slot) : Prop :=
  ∃ n ∈ w.nodes.docs, n.id = s.1 ∧ n.blocks.testBit s.2 = true

/-- Every bitmap of the store fits its node. -/
def World.Fits (w : World) : Prop := ∀ n ∈ w.nodes.docs, n.Fits

/-- A slot of a stored node, whose bit is not set. -/
def World.Free (w : World) (s : Slot) : Prop :=
  ∃ n ∈ w.nodes.docs, n.id = s.1 ∧ s.2 < n.blocksCount.toNat ∧ n.blocks.testBit s.2 = false

theorem World.Free.not_used {s : Slot} (h : w.Free s) : ¬w.Used s := by
  rintro ⟨n, hn, hid, hb⟩
  obtain ⟨m, hm, hid', -, hb'⟩ := h
  rw [Collection.eq_of_key hn hm (hid.trans hid'.symm), hb'] at hb
  exact Bool.false_ne_true hb

theorem used_unmark {S : List Slot} {s : Slot} : (w.mapBits (unmark S)).Used s ↔ w.Used s ∧ s ∉ S := by
  simp only [World.Used, nodes_mapBits, List.mem_map]
  constructor
  · rintro ⟨_, ⟨n, hn, rfl⟩, hid, hb⟩
    have hi : s.2 < 8 * n.blocks.size := Bitarray.lt_of_testBit (a := (n.withBits _).blocks) hb
    rw [Node.testBit_withBits hi, show (n.id, s.2) = s from Prod.ext hid rfl, unmark_eq_true] at hb
    exact ⟨⟨n, hn, hid, hb.1⟩, hb.2⟩
  · rintro ⟨⟨n, hn, hid, hb⟩, hS⟩
    refine ⟨_, ⟨n, hn, rfl⟩, hid, ?_⟩
    rw [Node.testBit_withBits (Bitarray.lt_of_testBit hb), show (n.id, s.2) = s from Prod.ext hid rfl]
    exact unmark_eq_true.2 ⟨hb, hS⟩

theorem used_mark (hF : w.Fits) {S : List Slot} (hS : ∀ s ∈ S, w.Free s) {s : Slot} :
    (w.mapBits (mark S)).Used s ↔ w.Used s ∨ s ∈ S := by
  simp only [World.Used, nodes_mapBits, List.mem_map]
  constructor
  · rintro ⟨_, ⟨n, hn, rfl⟩, hid, hb⟩
    have hi : s.2 < 8 * n.blocks.size := Bitarray.lt_of_testBit (a := (n.withBits _).blocks) hb
    rw [Node.testBit_withBits hi, show (n.id, s.2) = s from Prod.ext hid rfl, mark_eq_true] at hb
    exact hb.imp_left fun h => ⟨n, hn, hid, h⟩
  · have key : ∀ n ∈ w.nodes.docs, n.id = s.1 → s.2 < 8 * n.blocks.size →
        (n.blocks.testBit s.2 = true ∨ s ∈ S) →
        ∃ a, (∃ a_1 ∈ w.nodes.docs, Node.withBits (mark S) a_1 = a) ∧ a.id = s.1 ∧
          a.blocks.testBit s.2 = true := by
      intro n hn hid hi hb
      refine ⟨_, ⟨n, hn, rfl⟩, hid, ?_⟩
      rw [Node.testBit_withBits hi, show (n.id, s.2) = s from Prod.ext hid rfl]
      exact mark_eq_true.2 hb
    rintro (⟨n, hn, hid, hb⟩ | hs)
    · exact key n hn hid (Bitarray.lt_of_testBit hb) (Or.inl hb)
    · obtain ⟨n, hn, hid, hlt, -⟩ := hS s hs
      exact key n hn hid ((hF n hn).bit_lt hlt) (Or.inr hs)

theorem World.Fits.unmark (hF : w.Fits) (S : List Slot) : (w.mapBits (unmark S)).Fits := by
  intro n hn
  obtain ⟨m, hm, rfl⟩ := List.mem_map.1 hn
  exact (hF m hm).withBits fun i hi => Or.inl (unmark_eq_true.1 hi).1

theorem World.Fits.mark (hF : w.Fits) {S : List Slot} (hS : ∀ s ∈ S, w.Free s) :
    (w.mapBits (mark S)).Fits := by
  intro n hn
  obtain ⟨m, hm, rfl⟩ := List.mem_map.1 hn
  refine (hF m hm).withBits fun i hi => (mark_eq_true.1 hi).imp_right fun hs => ?_
  obtain ⟨x, hx, hid, hlt, -⟩ := hS _ hs
  rwa [← Collection.eq_of_key hx hm hid]

/-! ## Freeing the copies of a file -/

theorem freeBlockCopy_ok {c : FileBlock} {Q : Unit → World → Prop} (hF : w.Fits)
    (hc : ∃ n ∈ w.nodes.docs, n.id = c.nodeId) (hQ : Q () (w.mapBits (unmark [c.slot]))) :
    (freeBlockCopy c).Ok (worldSpec C) Q E w := by
  obtain ⟨n, hn, hid⟩ := hc
  have hfind : w.nodes.findKey c.nodeId = some n := Collection.findKey_eq_some.2 ⟨hn, hid⟩
  have hlocal : onNodes [n.id] (unmark [c.slot]) = unmark [c.slot] := by
    refine onNodes_eq fun s b hs => ?_
    have : s ≠ c.slot := by rintro rfl; exact hs (by simp [FileBlock.slot, hid])
    simp [unmark, this]
  have hset : nodeSetBlockFree n c.blockIndex.toNat = n.withBits (unmark [c.slot]) := by
    rw [nodeSetBlockFree_eq (hF n hn), hid]; rfl
  simp only [freeBlockCopy, filesystemGetNodeById, mongoNodeGetById, Prog.ok_bind, ok_ask,
    Prog.ok_ret, serve, hfind, hset]
  intro _ _
  exact updateBlocks_ok hn (hlocal.symm ▸ hQ)

/-- **The loop over the copies of a file frees its slots.** -/
theorem freeBlockCopies_ok {blocks : List (List FileBlock)} {Q : Unit → World → Prop} (hF : w.Fits)
    (hc : ∀ c ∈ blocks.flatten, ∃ n ∈ w.nodes.docs, n.id = c.nodeId)
    (hQ : Q () (w.mapBits (unmark (blocks.flatten.map FileBlock.slot)))) :
    (Prog.iterate (Prog.iterate freeBlockCopy) blocks).Ok (worldSpec C) Q E w := by
  rw [Prog.iterate_flatten]
  refine (Prog.ok_iterate (K := fun done v => v = w.mapBits (unmark (done.map FileBlock.slot)))
    blocks.flatten ?_ ?_).imp ?_
  · rintro done c rest _ hd rfl
    refine freeBlockCopy_ok (hF.unmark _) ?_ ?_
    · obtain ⟨n, hn, hid⟩ := hc c (hd ▸ by simp)
      exact ⟨_, List.mem_map_of_mem hn, hid⟩
    · rw [mapBits_mapBits]
      simp only [unmark_unmark, List.map_append, List.map_cons, List.map_nil]
  · exact (mapBits_eq_self fun _ _ _ => by simp [unmark]).symm
  · rintro _ _ rfl
    exact hQ

/-! ## Distributing the blocks of a file -/

/-- The active nodes of the store are `N`, as they answer. -/
structure Activated (C : World → Req → Choice → Prop) (w : World) (N : List Node) : Prop where
  sub : N.Sublist w.nodes.docs
  asked : ∀ n ∈ w.nodes.docs, ∃ c, C w (.isActive n.id) c ∧ (c.ok = true ↔ n ∈ N)

theorem getAllActivatedNodes_ok {Q : List Node → World → Prop} (hQ : ∀ N, Activated C w N → Q N w) :
    filesystemGetAllActivatedNodes.Ok (worldSpec C) Q E w := by
  simp only [filesystemGetAllActivatedNodes, mongoNodeGetAll, Prog.ok_bind, ok_ask, Prog.ok_ret, serve]
  intro _ _
  refine (Prog.ok_foldlM (K := fun done N v => v = w ∧ N.Sublist done ∧
    ∀ n ∈ done, ∃ c, C w (.isActive n.id) c ∧ (c.ok = true ↔ n ∈ N)) w.nodes.docs ?_
    ⟨rfl, List.Sublist.slnil, fun n hn => absurd hn List.not_mem_nil⟩).imp ?_
  · rintro done n rest N v hd ⟨rfl, hN, hasked⟩
    simp only [Prog.ok_bind, ok_ask, Prog.ok_ret, serve]
    intro c hc
    -- the node is not among those asked before
    have hnew : n ∉ done := fun hm => by
      have hnodup : v.nodes.docs.Nodup := List.Nodup.of_map _ v.nodes.nodup_key
      rw [← hd, List.nodup_append] at hnodup
      exact hnodup.2.2 n hm n List.mem_cons_self rfl
    cases hok : c.ok with
    | true =>
      simp only [if_true, Prog.ok_pure]
      refine ⟨trivial, hN.append (List.Sublist.refl [n]), fun m hm => ?_⟩
      obtain hm | hm := List.mem_append.1 hm
      · obtain ⟨c', hc', hiff⟩ := hasked m hm
        have hne : m ≠ n := fun heq => hnew (heq ▸ hm)
        exact ⟨c', hc', by simp [hiff, hne]⟩
      · obtain rfl := List.mem_singleton.1 hm
        exact ⟨c, hc, by simp [hok]⟩
    | false =>
      simp only [Bool.false_eq_true, if_false, Prog.ok_pure]
      refine ⟨trivial, hN.trans (List.sublist_append_left done [n]), fun m hm => ?_⟩
      obtain hm | hm := List.mem_append.1 hm
      · exact hasked m hm
      · obtain rfl := List.mem_singleton.1 hm
        refine ⟨c, hc, ?_⟩
        rw [hok]
        exact iff_of_false Bool.false_ne_true fun hmem => hnew (hN.subset hmem)
  · rintro N _ ⟨rfl, hN, hasked⟩
    exact hQ N ⟨hN, hasked⟩

/-- **A distribution** of the blocks `bs` as the copies `css`: the copies are in
free slots, all different, those of one block on different nodes, and the world
has these slots booked and each block in the slots of its copies. -/
structure Distributed (w w' : World) (bs : List (List UInt8)) (css : List (List FileBlock)) : Prop where
  nodup : (css.flatten.map FileBlock.slot).Nodup
  free : ∀ s ∈ css.flatten.map FileBlock.slot, w.Free s
  apart : ∀ cs ∈ css, (cs.map FileBlock.nodeId).Nodup
  copies : ∀ cs ∈ css, cs.length = FILESYSTEM_BLOCK_COPIES
  length : bs.length = css.length
  frame : ∀ s ∉ css.flatten.map FileBlock.slot, w'.disk s = w.disk s
  disk : ∀ op ∈ sendsOf bs css, w'.disk op.slot = upToNul op.block
  world : w' = ({ w with disk := w'.disk } : World).mapBits (mark (css.flatten.map FileBlock.slot))

/-- A distribution that fails: the disk changed in free slots at most. -/
structure NotDistributed (w w' : World) : Prop where
  frame : ∀ s, w.Used s → w'.disk s = w.disk s
  world : w' = { w with disk := w'.disk }

/-- The sends of `ops`, up to a failure or not. -/
structure Sent (w w' : World) (ops : List NodeBlockSendOperation) (failed : Bool) : Prop where
  frame : ∀ s ∉ ops.map NodeBlockSendOperation.slot, w'.disk s = w.disk s
  disk : failed = false → ∀ op ∈ ops, w'.disk op.slot = upToNul op.block
  world : w' = { w with disk := w'.disk }

theorem sends_ok {ops : List NodeBlockSendOperation} {Q : Bool → World → Prop}
    (hn : (ops.map NodeBlockSendOperation.slot).Nodup) (hlt : ∀ op ∈ ops, op.blockIndex < 65536)
    (hQ : ∀ failed w', Sent w w' ops failed → Q failed w') :
    (ops.foldlM (fun failed op => do
      let sent ← connectionsNodeSendBlock op
      pure (failed || !sent)) false).Ok (worldSpec C) Q E w := by
  refine (Prog.ok_foldlM (K := fun done failed v => Sent w v done failed) ops ?_
    ⟨fun _ _ => rfl, by simp, rfl⟩).imp fun failed w' h => hQ failed w' h
  intro done op rest failed v hd hv
  have hidx : op.blockIndex.toUInt16.toNat = op.blockIndex := by
    simpa using Nat.mod_eq_of_lt (hlt op (hd ▸ by simp))
  have hfresh : op.slot ∉ done.map NodeBlockSendOperation.slot := by
    have := hd ▸ hn
    simp only [List.map_append, List.map_cons, List.nodup_append] at this
    exact fun h => this.2.2 _ h _ (by simp) rfl
  simp only [connectionsNodeSendBlock, Prog.ok_bind, ok_ask, Prog.ok_ret, Prog.ok_pure, serve, hidx]
  intro c _
  refine ⟨fun s hs => ?_, fun hf op' hop' => ?_, ?_⟩
  · simp only [List.map_append, List.map_cons, List.map_nil, List.mem_append, List.mem_singleton,
      not_or] at hs
    rw [← hv.frame s hs.1]
    split
    · exact Function.update_of_ne hs.2 _ _
    · rfl
  -- without a failure each block is where it was sent, as no later one goes there
  · simp only [Bool.or_eq_false_iff, Bool.not_eq_false'] at hf
    simp only [hf.2, if_true]
    rcases List.mem_append.1 hop' with h | h
    · rw [Function.update_of_ne, hv.disk hf.1 op' h]
      intro he
      have he' : op'.slot = op.slot := he
      exact hfresh (he' ▸ List.mem_map_of_mem h)
    · rw [List.mem_singleton.1 h]
      exact Function.update_self _ _ _
  · rw [hv.world]

/-- Writing the nodes of the plan back, one for each send operation, books all
its slots. -/
theorem updateNodes_ok {N : List Node} {p : Plan} (hN : N.Sublist w.nodes.docs) (hp : Planned N p)
    {Q : Unit → World → Prop} (hQ : Q () (w.mapBits (mark p.slots))) :
    (Prog.iterate (fun op : NodeBlockSendOperation => match p.nodes.find? fun node => node.id = op.node with
      | some node => mongoNodeUpdateBlocks node
      | none => .stop .crash) p.sendOperations).Ok (worldSpec C) Q E w := by
  have hmark : ∀ s b, mark p.slots s (mark p.slots s b) = mark p.slots s b := fun s b => by
    rw [Bool.eq_iff_iff]; simp
  refine (Prog.ok_iterate (K := fun done v =>
    v = w.mapBits (onNodes (done.map NodeBlockSendOperation.node) (mark p.slots))) p.sendOperations ?_ ?_).imp ?_
  · rintro done op rest _ hd rfl
    obtain ⟨m, hm, hid, hfind⟩ := hp.find (show op ∈ p.sendOperations from hd ▸ by simp)
    set f := onNodes (done.map NodeBlockSendOperation.node) (mark p.slots) with hf
    -- a node that was written before is written as it is
    have hwrite : m.withBits (mark p.slots) = (m.withBits f).withBits (mark p.slots) := by
      rw [Node.withBits_withBits]
      refine congrArg (fun g => m.withBits g) (funext fun s => funext fun b => ?_)
      rw [hf]; unfold onNodes; split <;> simp only [hmark]
    rw [hfind]
    simp only
    rw [hwrite]
    refine updateBlocks_ok (List.mem_map_of_mem (hN.subset hm)) ?_
    rw [mapBits_mapBits]
    refine congrArg (fun g => w.mapBits g) (funext fun s => funext fun b => ?_)
    rw [hf, Node.withBits_id, hid, List.map_append]
    exact onNodes_onNodes hmark _ _ s b
  · exact (mapBits_eq_self fun _ _ _ => by simp [onNodes]).symm
  · rintro _ _ rfl
    rw [onNodes_eq fun s b hs => ?_]
    · exact hQ
    · have : s ∉ p.slots := by
        intro h
        obtain ⟨op, hop, rfl⟩ := List.mem_map.1 h
        exact hs (List.mem_map_of_mem (f := NodeBlockSendOperation.node) hop)
      simp [mark, this]

/-- **The distribution of a new file's blocks.** -/
theorem distribute_ok {sort : NodeSort} {bs : List (List UInt8)} {file : File} {Q : Bool × File → World → Prop}
    (hF : w.Fits) (hfile : file.blocks = [])
    (hno : ∀ w' f, NotDistributed w w' → Q (false, f) w')
    (hyes : ∀ w' css, Distributed w w' bs css → Q (true, { file with blocks := css }) w') :
    (filesystemDistributeBlocksToNodes sort bs file).Ok (worldSpec C) Q E w := by
  simp only [filesystemDistributeBlocksToNodes, Prog.ok_bind, hfile]
  refine getAllActivatedNodes_ok fun N hactive => ?_
  have hN := hactive.sub
  have hNid : (N.map Node.id).Nodup := w.nodes.nodup_key.sublist (hN.map _)
  have hNF : ∀ n ∈ N, n.Fits := fun n hn => hF n (hN.subset hn)
  set p := bs.foldl (createSendOperations sort) ⟨N, [], [], true⟩
  split
  case isFalse => exact hno _ _ ⟨fun _ _ => rfl, rfl⟩
  case isTrue hsucc =>
    have hp := plan_ok hNid hNF sort bs hsucc
    have hfree : ∀ s ∈ p.slots, w.Free s := fun s hs => by
      obtain ⟨n, hn, h⟩ := hp.planned.free s hs
      exact ⟨n, hN.subset hn, h⟩
    have hlt : ∀ op ∈ p.sendOperations, op.blockIndex < 65536 := fun op hop => by
      obtain ⟨n, -, -, hi, -⟩ := hfree op.slot (List.mem_map_of_mem hop)
      exact lt_trans hi (UInt16.toNat_lt _)
    rw [Prog.ok_bind]
    refine sends_ok hp.planned.nodup hlt fun failed w' hw' => ?_
    change Sent w w' p.sendOperations failed at hw'
    cases failed with
    | true =>
      -- the blocks that were sent are in free places, and stay there unrecorded
      refine hno _ _ ⟨fun s hs => hw'.frame s fun h => ?_, hw'.world⟩
      exact (hfree s h).not_used hs
    | false =>
      have hN' : N.Sublist w'.nodes.docs := by rw [hw'.world]; exact hN
      simp only [Bool.false_eq_true, if_false, Prog.ok_bind]
      refine updateNodes_ok hN' hp.planned (hyes _ _ ?_)
      rw [hp.slots]
      refine ⟨hp.slots ▸ hp.planned.nodup, hp.slots ▸ hfree, hp.apart, hp.copies, hp.length, ?_, ?_, ?_⟩
      · exact fun s hs => hw'.frame s (hp.slots ▸ hs : s ∉ p.slots)
      · exact fun op hop => hw'.disk rfl op (hp.sends ▸ hop)
      · rw [hw'.world]; rfl

/-! ## Operations that only read -/

theorem canCreateResource_ok {name : CStr} {parentId : Oid} {Q : Bool → World → Prop} (hno : Q false w)
    (hyes : (∀ d ∈ w.dirs.docs, (d.name, d.parentId) ≠ (name, parentId)) →
      (∀ f ∈ w.files.docs, (f.name, f.parentId) ≠ (name, parentId)) → Q true w) :
    (filesystemCanCreateResource name parentId).Ok (worldSpec C) Q E w := by
  simp only [filesystemCanCreateResource, filesystemGetDirByNameInDir, mongoDirGetByNameInDir, Prog.ok_bind,
    ok_ask, Prog.ok_ret, serve]
  intro _ _
  cases hd : w.dirs.findIdx (name, parentId) with
  | some d => exact hno
  | none =>
    simp only [filesystemGetFileByNameInDir, mongoFileGetByNameInDir, Prog.ok_bind, ok_ask, Prog.ok_ret, serve]
    intro _ _
    cases hf : w.files.findIdx (name, parentId) with
    | some f => exact hno
    | none => exact hyes (Collection.findIdx_eq_none.1 hd) (Collection.findIdx_eq_none.1 hf)

theorem getFileName_ok {path : CStr} {Q : CStr → World → Prop} (hE : E .crash w) (hQ : ∀ name, Q name w) :
    (getFileName path).Ok (worldSpec C) Q E w := by
  unfold getFileName
  split
  · exact hQ _
  · exact hE

/-- The first block got is what one of the copies answers; none is got if none answers. -/
theorem firstBlockGot_ok {cs : List FileBlock} {Q : Option CStr → World → Prop}
    (hnone : (∀ c ∈ cs, ∃ ch, C w (.getBlock c) ch ∧ ch.content = none) → Q none w)
    (hsome : ∀ c ∈ cs, ∀ ch b, C w (.getBlock c) ch → ch.content = some b → Q (some (upToNul b)) w) :
    (firstBlockGot cs).Ok (worldSpec C) Q E w := by
  induction cs with
  | nil => exact hnone fun c hc => absurd hc List.not_mem_nil
  | cons c cs ih =>
    simp only [firstBlockGot, connectionsNodeGetBlock, Prog.ok_bind, ok_ask, Prog.ok_ret, serve, Prog.ok_pure]
    intro ch hch
    cases hb : ch.content with
    | none =>
      refine ih (fun hrest => hnone fun c' hc' => ?_) fun c' hc' => hsome c' (List.mem_cons_of_mem _ hc')
      obtain rfl | hc' := List.mem_cons.1 hc'
      · exact ⟨ch, hch, hb⟩
      · exact hrest c' hc'
    | some b => exact hsome c List.mem_cons_self ch b hch hb

/-- A lookup of a directory. -/
def Req.isDirLookup : Req → Bool
  | .dirById _ | .dirByName .. => true
  | _ => false

/-- A program that only looks up directories. -/
abbrev LooksUp {α : Type} (p : FsProg α) : Prop := p.Only fun r => r.isDirLookup = true

theorem looksUp_resolveParent (d : Dir) (path : CStr) : LooksUp (resolveParent d path) := by
  unfold resolveParent
  split
  · trivial
  · dsimp only
    split
    · trivial
    · refine Prog.only_bind (p := filesystemGetDirById d.parentId) ⟨rfl, fun _ => trivial⟩ fun x => ?_
      cases x <;> trivial

theorem looksUp_resolveDirNames : ∀ names d path, LooksUp (resolveDirNames names d path) := by
  intro names
  induction names with
  | nil => intro d path; trivial
  | cons name names ih =>
    intro d path
    rw [resolveDirNames]
    split
    · exact ih d path
    · split
      · exact Prog.only_bind (looksUp_resolveParent d path) fun x => ih x.1 x.2
      · refine Prog.only_bind (p := filesystemGetDirByNameInDir name d.id) ⟨rfl, fun _ => trivial⟩ fun x => ?_
        cases x with
        | none => trivial
        | some d => exact ih _ _

theorem looksUp_startingDir (id : Oid) : LooksUp (startingDir id) := by
  unfold startingDir
  split
  · trivial
  · exact ⟨rfl, fun _ => trivial⟩

/-- **A path is resolved** by looking up directories. -/
theorem looksUp_resolveDirPath (path : CStr) (id : Oid) (start : CStr) :
    LooksUp (filesystemResolveDirPath path id start) := by
  unfold filesystemResolveDirPath
  split
  · exact looksUp_resolveDirNames _ _ _
  · refine Prog.only_bind (looksUp_startingDir id) fun x => ?_
    cases x with
    | none => trivial
    | some d => exact looksUp_resolveDirNames _ _ _

theorem handle_dirLookup (w : World) {r : Req} (hr : r.isDirLookup = true) : ∃ x, ∀ c, handle w r c = some (x, w) := by
  cases r <;> first | exact ⟨_, fun _ => rfl⟩ | cases hr

/-- Lookups depend on the directories alone. -/
theorem handle_dirLookup_congr {v : World} (hd : v.dirs = w.dirs) (r : Req) (x : Resp r) (hr : r.isDirLookup = true)
    (hx : ∀ c, handle w r c = some (x, w)) (c : Choice) : handle v r c = some (x, v) := by
  cases r <;> try cases hr
  case dirById id =>
    obtain rfl : w.dirs.findKey id = x := (Prod.mk.inj (Option.some.inj (hx c))).1
    rw [← hd]
    rfl
  case dirByName name parentId =>
    obtain rfl : w.dirs.findIdx (name, parentId) = x := (Prod.mk.inj (Option.some.inj (hx c))).1
    rw [← hd]
    rfl

/-- The directory a path resolves to: the root or a stored one. -/
def World.IsDir (w : World) (d : Dir) : Prop := d = rootDir ∨ d ∈ w.dirs.docs

theorem resolveParent_ok {d : Dir} {path : CStr} {Q : Dir × CStr → World → Prop} (hE : E .crash w)
    (hd : w.IsDir d) (hQ : ∀ d path, w.IsDir d → Q (d, path) w) :
    (resolveParent d path).Ok (worldSpec C) Q E w := by
  unfold resolveParent
  split
  · exact hQ _ _ hd
  · split
    · exact hQ _ _ (Or.inl rfl)
    · simp only [filesystemGetDirById, mongoDirGetById, Prog.ok_bind, ok_ask, Prog.ok_ret, serve]
      intro _ _
      cases hp : w.dirs.findKey d.parentId with
      | none => exact hE
      | some p => exact hQ _ _ (Or.inr (Collection.findKey_eq_some.1 hp).1)

theorem resolveDirNames_ok {Q : Option (Dir × CStr) → World → Prop} (hE : E .crash w) (hnone : Q none w)
    (hsome : ∀ d path, w.IsDir d → Q (some (d, path)) w) : ∀ {names d path}, w.IsDir d →
      (resolveDirNames names d path).Ok (worldSpec C) Q E w := by
  intro names
  induction names with
  | nil => intro d path hd; exact hsome _ _ hd
  | cons name names ih =>
    intro d path hd
    rw [resolveDirNames]
    split
    · exact ih hd
    · split
      · rw [Prog.ok_bind]
        exact resolveParent_ok hE hd fun _ _ hd => ih hd
      · simp only [filesystemGetDirByNameInDir, mongoDirGetByNameInDir, Prog.ok_bind, ok_ask, Prog.ok_ret,
          serve]
        intro _ _
        cases hn : w.dirs.findIdx (name, d.id) with
        | none => exact hnone
        | some x => exact ih (Or.inr (Collection.findIdx_eq_some.1 hn).1)

/-- The start of a relative path. -/
theorem startingDir_ok {id : Oid} {Q : Option Dir → World → Prop} (hnone : Q none w)
    (hsome : ∀ d, w.IsDir d → Q (some d) w) :
    (startingDir id).Ok (worldSpec C) Q E w := by
  unfold startingDir
  split
  · exact hsome _ (Or.inl rfl)
  · simp only [filesystemGetDirById, mongoDirGetById, ok_ask, Prog.ok_ret, serve]
    intro _ _
    cases hd : w.dirs.findKey id with
    | none => exact hnone
    | some d => exact hsome _ (Or.inr (Collection.findKey_eq_some.1 hd).1)

/-- **A path resolves to the root, to a stored directory or to none.** -/
theorem resolveDirPath_ok {path startingPath : CStr} {id : Oid} {Q : Option (Dir × CStr) → World → Prop}
    (hE : E .crash w) (hnone : Q none w) (hsome : ∀ d path, w.IsDir d → Q (some (d, path)) w) :
    (filesystemResolveDirPath path id startingPath).Ok (worldSpec C) Q E w := by
  unfold filesystemResolveDirPath
  split
  · exact resolveDirNames_ok hE hnone hsome (Or.inl rfl)
  · rw [Prog.ok_bind]
    exact startingDir_ok hnone fun d hd => resolveDirNames_ok hE hnone hsome hd

theorem resolveFilePath_ok {path startingPath : CStr} {id : Oid} {Q : Option File → World → Prop}
    (hE : E .crash w) (hnone : Q none w) (hsome : ∀ f, f ∈ w.files.docs → Q (some f) w) :
    (filesystemResolveFilePath path id startingPath).Ok (worldSpec C) Q E w := by
  have hname : ∀ name parentId, (filesystemGetFileByNameInDir name parentId).Ok (worldSpec C) Q E w := by
    intro name parentId
    simp only [filesystemGetFileByNameInDir, mongoFileGetByNameInDir, ok_ask, Prog.ok_ret, serve]
    intro _ _
    cases hf : w.files.findIdx (name, parentId) with
    | none => exact hnone
    | some f => exact hsome _ (Collection.findIdx_eq_some.1 hf).1
  unfold filesystemResolveFilePath
  split
  · rw [Prog.ok_bind]
    exact resolveDirPath_ok hE hnone fun d path _ => hname _ d.id
  · rw [Prog.ok_bind]
    exact startingDir_ok hnone fun d _ => hname _ d.id

/-! ## Storing a file -/

theorem fileSave_ok {file : File} {Q : Bool × File → World → Prop}
    (hno : Q (false, { file with id := .gen w.oids }) { w with oids := w.oids + 1 })
    (hyes : ∀ files c, C { w with oids := w.oids + 1 } (.fileInsert { file with id := .gen w.oids }) c →
      c.ok = true →
      w.files.insert { file with id := .gen w.oids } = some files →
      Q (true, { file with id := .gen w.oids }) { w with files := files, oids := w.oids + 1 }) :
    (mongoFileSave file).Ok (worldSpec C) Q E w := by
  simp only [mongoFileSave, mongoGenerateId, Prog.ok_bind, ok_ask, Prog.ok_ret, serve, Prog.ok_pure]
  intro _ _ c hc
  cases hok : c.ok with
  | false => simpa using hno
  | true =>
    simp only [if_true]
    cases hi : w.files.insert { file with id := .gen w.oids } with
    | none => exact hno
    | some files => exact hyes files c hc hok hi

/-- The world without the stored file `f` and with its slots freed. -/
def World.dropFile (w : World) (f : File) : World :=
  { w.mapBits (unmark f.slots) with files := w.files.remove fun g => g.id = f.id }

/-- **Deleting a file** whose copies are on stored nodes. -/
theorem deleteFile_ok {f : File} {Q : Bool → World → Prop} (hF : w.Fits)
    (hc : ∀ c ∈ f.blocks.flatten, ∃ n ∈ w.nodes.docs, n.id = c.nodeId)
    (hQ : (∃ u c, C u (.fileDelete f.id) c) → Q true (w.dropFile f)) :
    (filesystemDeleteFile (some f)).Ok (worldSpec C) Q E w := by
  simp only [filesystemDeleteFile, Prog.ok_bind]
  refine freeBlockCopies_ok hF hc ?_
  simp only [mongoFileDeleteById, ok_ask, Prog.ok_ret, serve]
  exact fun c hc => hQ ⟨_, c, hc⟩

end Mdfs.FileSystem
