import Mathlib.Data.List.Induction
import Mdfs.FileSystem.Filesystem

/-!
# What the planning of a file produces

The pure part of `filesystem_distributeBlocksToNodes`. `Planned N p` ties the
outer variables of `createSendOperations` to the nodes `N` it started from: the
nodes are `N` with the blocks of the send operations marked, and these blocks are
distinct and were free in `N`.

* `Planned.book`: booking the first free block of a node keeps `Planned`.
* `plan_ok`: a plan that succeeds has one list of copies for each block, three
  copies on three different nodes, and one send operation for each copy.
-/

namespace Mdfs.FileSystem

open Lib

def Plan.slots (p : Plan) : List Slot := p.sendOperations.map NodeBlockSendOperation.slot

/-- A list with one element rewritten by a function that fixes the others. -/
theorem set_eq_map {α : Type} {l : List α} {f : α → α} {i : ℕ} {a : α} (hi : l[i]? = some a)
    (hf : ∀ j b, l[j]? = some b → j ≠ i → f b = b) : l.set i (f a) = l.map f := by
  refine List.ext_getElem? fun j => ?_
  rw [List.getElem?_set, List.getElem?_map]
  by_cases hji : i = j
  · subst hji
    rw [if_pos rfl, if_pos (List.getElem?_eq_some_iff.1 hi).1, hi]
    rfl
  · rw [if_neg hji]
    cases hb : l[j]? with
    | none => rfl
    | some b => simp [hf j b hb (Ne.symm hji)]

/-- **The state of the planning** over the nodes `N`. -/
structure Planned (N : List Node) (p : Plan) : Prop where
  nodes : p.nodes.Perm (N.map (Node.withBits (mark p.slots)))
  nodup : p.slots.Nodup
  free : ∀ s ∈ p.slots, ∃ n ∈ N, n.id = s.1 ∧ s.2 < n.blocksCount.toNat ∧ n.blocks.testBit s.2 = false

variable {N : List Node} {p : Plan}

theorem Planned.ids (h : Planned N p) : (p.nodes.map Node.id).Perm (N.map Node.id) := by
  simpa [List.map_map, Function.comp_def] using h.nodes.map Node.id

theorem Planned.mem (h : Planned N p) {n : Node} (hn : n ∈ p.nodes) :
    ∃ m ∈ N, n = m.withBits (mark p.slots) := by
  obtain ⟨m, hm, rfl⟩ := List.mem_map.1 (h.nodes.mem_iff.1 hn)
  exact ⟨m, hm, rfl⟩

/-- The node that a send operation is for, as the plan has it. -/
theorem Planned.find (h : Planned N p) {op : NodeBlockSendOperation} (hop : op ∈ p.sendOperations) :
    ∃ n ∈ N, n.id = op.node ∧ p.nodes.find? (fun node => node.id = op.node) = some (n.withBits (mark p.slots)) := by
  obtain ⟨m, hm, hid, -, -⟩ := h.free op.slot (List.mem_map_of_mem hop)
  have hmem : m.withBits (mark p.slots) ∈ p.nodes := h.nodes.mem_iff.2 (List.mem_map_of_mem hm)
  obtain ⟨x, hx⟩ : ∃ x, p.nodes.find? (fun node => node.id = op.node) = some x :=
    Option.isSome_iff_exists.1 (List.find?_isSome.2 ⟨_, hmem, decide_eq_true hid⟩)
  obtain ⟨n, hn, rfl⟩ := h.mem (List.mem_of_find?_eq_some hx)
  exact ⟨n, hn, of_decide_eq_true (List.find?_some hx :), hx⟩

/-- A slot of the plan is inside its node, and was free. -/
theorem Planned.slot (hN : (N.map Node.id).Nodup) (h : Planned N p) {n : Node} (hn : n ∈ N) {i : ℕ}
    (hi : (n.id, i) ∈ p.slots) :
    i < n.blocksCount.toNat ∧ n.blocks.testBit i = false := by
  obtain ⟨m, hm, hid, hlt, hbit⟩ := h.free _ hi
  have hmn : m = n := List.inj_on_of_nodup_map hN hm hn hid
  rw [hmn] at hlt hbit
  exact ⟨hlt, hbit⟩

theorem Planned.fits_mark (hN : (N.map Node.id).Nodup) (h : Planned N p) {n : Node} (hn : n ∈ N) (hF : n.Fits) :
    (n.withBits (mark p.slots)).Fits :=
  hF.withBits fun _ hi => (mark_eq_true.1 hi).imp_right fun hslot => (h.slot hN hn hslot).1

/-- The bits of a node in the plan: its own, and the slots of the plan. -/
theorem Planned.testBit_mark (hN : (N.map Node.id).Nodup) (h : Planned N p) {n : Node} (hn : n ∈ N)
    (hF : n.Fits) (i : ℕ) :
    (n.withBits (mark p.slots)).blocks.testBit i = true ↔ n.blocks.testBit i = true ∨ (n.id, i) ∈ p.slots := by
  by_cases hi : i < 8 * n.blocks.size
  · rw [Node.testBit_withBits hi, mark_eq_true]
  · constructor
    · exact fun hbit => absurd (Bitarray.lt_of_testBit (a := (n.withBits _).blocks) hbit) hi
    · rintro (hbit | hslot)
      · exact absurd (Bitarray.lt_of_testBit hbit) hi
      · exact absurd (hF.bit_lt (h.slot hN hn hslot).1) hi

/-- **Booking a block.** The first free block of a node of the plan is free in
`N` and not planned yet. -/
theorem Planned.book (hN : (N.map Node.id).Nodup) (hF : ∀ n ∈ N, n.Fits) (h : Planned N p) {i k : ℕ}
    {n : Node} (hi : p.nodes[i]? = some n) (hk : nodeGetFirstFreeBlock n = some k) (block : List UInt8) :
    Planned N { p with
      nodes := p.nodes.set i (nodeSetBlockUsed n k)
      sendOperations := p.sendOperations ++ [⟨n.id, k, block⟩] } := by
  obtain ⟨m, hm, rfl⟩ := h.mem (List.mem_of_getElem? hi)
  obtain ⟨hlt, hbit⟩ := firstFree_spec hk
  rw [Node.withBits_blocksCount] at hlt
  have hsz : k < 8 * m.blocks.size := (hF m hm).bit_lt hlt
  rw [Node.testBit_withBits hsz] at hbit
  have hfree : m.blocks.testBit k = false ∧ (m.id, k) ∉ p.slots := by
    simpa [mark] using hbit
  set q : Plan := { p with
    nodes := p.nodes.set i (nodeSetBlockUsed (m.withBits (mark p.slots)) k)
    sendOperations := p.sendOperations ++ [⟨m.id, k, block⟩] } with hq
  have hslots : q.slots = p.slots ++ [(m.id, k)] := by
    simp [hq, Plan.slots, NodeBlockSendOperation.slot]
  have hids : (p.nodes.map Node.id).Nodup := h.ids.nodup_iff.2 hN
  -- only the node with this id changes, as ids are distinct
  have hset : q.nodes =
      p.nodes.map (Node.withBits (mark [(m.id, k)])) := by
    simp only [hq]
    rw [nodeSetBlockUsed_eq (n := m.withBits (mark p.slots)) hsz hlt]
    refine set_eq_map hi fun j b hj hji => Node.withBits_eq_self fun l _ => ?_
    have hid : b.id ≠ m.id := by
      intro he
      refine hji ((List.getElem?_inj ?_ hids).1 ?_)
      · simpa using (List.getElem?_eq_some_iff.1 hj).1
      · simp [hj, hi, he]
    simp [mark, hid]
  change Planned N q
  refine ⟨?_, ?_, ?_⟩
  · rw [hslots, hset]
    refine (h.nodes.map (Node.withBits (mark [(m.id, k)]))).trans (List.Perm.of_eq ?_)
    rw [List.map_map]
    refine List.map_congr_left fun x _ => ?_
    simp only [Function.comp_apply, Node.withBits_withBits, mark_mark]
  · rw [hslots, List.nodup_append]
    refine ⟨h.nodup, List.nodup_singleton _, ?_⟩
    rintro a ha b hb rfl
    exact hfree.2 (List.mem_singleton.1 hb ▸ ha)
  · rw [hslots]
    intro s hs
    rcases List.mem_append.1 hs with hs | hs
    · exact h.free s hs
    · cases List.mem_singleton.1 hs
      exact ⟨m, hm, rfl, hlt, hfree.1⟩

theorem Planned.sort (h : Planned N p) (sort : NodeSort) : Planned N { p with nodes := sort.sort p.nodes } :=
  ⟨(sort.perm _).trans h.nodes, h.nodup, h.free⟩

/-- The send operation of a copy. -/
def FileBlock.sendOf (block : List UInt8) (c : FileBlock) : NodeBlockSendOperation :=
  ⟨c.nodeId, c.blockIndex.toNat, block⟩

@[simp] theorem slot_sendOf (block : List UInt8) (c : FileBlock) : (c.sendOf block).slot = c.slot := rfl

/-- The state after `k` copies of a block, planned from `p`. -/
structure CopiesPlanned (N : List Node) (p : Plan) (block : List UInt8) (k : ℕ)
    (x : Plan × List FileBlock) : Prop where
  planned : Planned N x.1
  ids : x.1.nodes.map Node.id = p.nodes.map Node.id
  ops : x.1.sendOperations = p.sendOperations ++ x.2.map (FileBlock.sendOf block)
  blocks : x.1.blocks = p.blocks
  copies : x.2.map FileBlock.nodeId = (p.nodes.map Node.id).take k
  length : x.2.length = k

theorem CopiesPlanned.step (hN : (N.map Node.id).Nodup) (hF : ∀ n ∈ N, n.Fits) {block : List UInt8} {k : ℕ}
    {x : Plan × List FileBlock} (hx : x.1.success = true → CopiesPlanned N p block k x)
    (hs : (planCopy block x k).1.success = true) : CopiesPlanned N p block (k + 1) (planCopy block x k) := by
  unfold planCopy at hs ⊢
  split at hs
  case isFalse h => exact absurd hs h
  case isTrue hsucc =>
    have hc := hx hsucc
    rw [if_pos hsucc]
    cases hn : x.1.nodes[k]? with
    | none => simp [hn] at hs
    | some n =>
      cases hk : nodeGetFirstFreeBlock n with
      | none => simp [hn, hk] at hs
      | some i =>
        simp only [hk]
        have hlt : i < 65536 := lt_trans (firstFree_spec hk).1 (UInt16.toNat_lt _)
        have hid : (p.nodes.map Node.id)[k]? = some n.id := by rw [← hc.ids]; simp [hn]
        refine ⟨hc.planned.book hN hF hn hk block, ?_, ?_, hc.blocks, ?_, by simp [hc.length]⟩
        · rw [List.map_set, nodeSetBlockUsed_id, hc.ids]
          simpa using set_eq_map (f := id) hid fun _ _ _ _ => rfl
        · simp [hc.ops, FileBlock.sendOf, Nat.mod_eq_of_lt hlt]
        · rw [List.map_append, hc.copies, List.take_add_one, hid]; rfl

theorem copiesPlanned (hN : (N.map Node.id).Nodup) (hF : ∀ n ∈ N, n.Fits) (hp : Planned N p)
    (block : List UInt8) : ∀ k, ((List.range k).foldl (planCopy block) (p, [])).1.success = true →
      CopiesPlanned N p block k ((List.range k).foldl (planCopy block) (p, [])) := by
  intro k
  induction k with
  | zero => intro _; exact ⟨hp, rfl, by simp, rfl, by simp, rfl⟩
  | succ k ih =>
    simp only [List.range_succ, List.foldl_append, List.foldl_cons, List.foldl_nil]
    exact CopiesPlanned.step hN hF ih

/-- The send operations of the blocks `bs` with the copies `css`. -/
def sendsOf (bs : List (List UInt8)) (css : List (List FileBlock)) : List NodeBlockSendOperation :=
  (List.zipWith (fun b cs => cs.map (FileBlock.sendOf b)) bs css).flatten

theorem sendsOf_append {bs : List (List UInt8)} {css : List (List FileBlock)} (h : bs.length = css.length)
    (b : List UInt8) (cs : List FileBlock) :
    sendsOf (bs ++ [b]) (css ++ [cs]) = sendsOf bs css ++ cs.map (FileBlock.sendOf b) := by
  simp [sendsOf, List.zipWith_append h]

theorem slot_sendsOf : ∀ {bs : List (List UInt8)} {css : List (List FileBlock)}, bs.length = css.length →
    (sendsOf bs css).map NodeBlockSendOperation.slot = css.flatten.map FileBlock.slot := by
  intro bs
  induction bs with
  | nil => intro css h; cases css with
    | nil => rfl
    | cons cs css => simp at h
  | cons b bs ih =>
    intro css h
    cases css with
    | nil => simp at h
    | cons cs css =>
      have := @ih css (by simpa using h)
      simp only [sendsOf] at this
      simp [sendsOf, this, Function.comp_def]

/-- **A plan that succeeds**, for the blocks `bs` over the nodes `N`. -/
structure PlanOk (N : List Node) (bs : List (List UInt8)) (p : Plan) : Prop where
  planned : Planned N p
  length : bs.length = p.blocks.length
  sends : p.sendOperations = sendsOf bs p.blocks
  apart : ∀ cs ∈ p.blocks, (cs.map FileBlock.nodeId).Nodup
  copies : ∀ cs ∈ p.blocks, cs.length = FILESYSTEM_BLOCK_COPIES

theorem PlanOk.slots {bs : List (List UInt8)} (h : PlanOk N bs p) :
    p.slots = p.blocks.flatten.map FileBlock.slot := by
  rw [Plan.slots, h.sends, slot_sendsOf h.length]

theorem plan_ok (hN : (N.map Node.id).Nodup) (hF : ∀ n ∈ N, n.Fits) (sort : NodeSort)
    (bs : List (List UInt8)) :
    (bs.foldl (createSendOperations sort) ⟨N, [], [], true⟩).success = true →
      PlanOk N bs (bs.foldl (createSendOperations sort) ⟨N, [], [], true⟩) := by
  induction bs using List.reverseRecOn with
  | nil =>
    intro _
    refine ⟨⟨List.Perm.of_eq ?_, List.nodup_nil, by simp [Plan.slots]⟩, rfl, rfl, by simp, by simp⟩
    refine (List.map_id N).symm.trans (List.map_congr_left fun n _ => ?_)
    exact (Node.withBits_eq_self fun i _ => by simp [mark, Plan.slots]).symm
  | append_singleton bs b ih =>
    rw [List.foldl_append, List.foldl_cons, List.foldl_nil]
    set p := bs.foldl (createSendOperations sort) ⟨N, [], [], true⟩
    intro hs
    unfold createSendOperations at hs ⊢
    split at hs
    case isFalse h => exact absurd hs h
    case isTrue hsucc =>
      have hp := ih hsucc
      rw [if_pos hsucc]
      have hc := copiesPlanned hN hF (hp.planned.sort sort) b FILESYSTEM_BLOCK_COPIES hs
      -- the copies are on the first nodes of the sorted list, which are different
      have hids : ((sort.sort p.nodes).map Node.id).Nodup :=
        ((sort.perm _).map Node.id).nodup_iff.2 (hp.planned.ids.nodup_iff.2 hN)
      dsimp only
      generalize (List.range FILESYSTEM_BLOCK_COPIES).foldl (planCopy b) _ = x at hc
      refine ⟨⟨hc.planned.nodes, hc.planned.nodup, hc.planned.free⟩, ?_, ?_, ?_, ?_⟩
      · simp [hc.blocks, hp.length]
      · rw [hc.blocks, sendsOf_append hp.length, ← hp.sends]; exact hc.ops
      · intro cs hcs
        simp only [hc.blocks, List.mem_append, List.mem_singleton] at hcs
        rcases hcs with hcs | rfl
        · exact hp.apart cs hcs
        · rw [hc.copies]; exact hids.sublist (List.take_sublist _ _)
      · intro cs hcs
        simp only [hc.blocks, List.mem_append, List.mem_singleton] at hcs
        rcases hcs with hcs | rfl
        · exact hp.copies cs hcs
        · exact hc.length

end Mdfs.FileSystem
