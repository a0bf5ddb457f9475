import Mdfs.FileSystem.Plan
import Mdfs.Lib.Spread

/-!
# When the planning of a file succeeds

`createSendOperations` sorts the nodes before each block and takes the three that have most
free blocks. It finds three for every block exactly when there is room: a node counts for its
free blocks, but for no more than there are blocks to store.

* `plan_room`: the planning succeeds exactly if there is room.
* `plan_sound_and_complete`: it succeeds exactly if the copies can be spread at all, and the
  plan is one of the ways to do so.
-/

namespace Mdfs.FileSystem

open Lib

variable {N : List Node} {n : Node} {p : Plan} {bs : List (List UInt8)} {k : ℕ}

/-! ## The free blocks of a node -/

/-- The node with its first free block set as used. -/
def bookFirst (n : Node) : Node :=
  match nodeGetFirstFreeBlock n with
  | some k => nodeSetBlockUsed n k
  | none => n

theorem bookFirst_eq (h : nodeGetFirstFreeBlock n = some k) : bookFirst n = nodeSetBlockUsed n k := by
  unfold bookFirst
  rw [h]

theorem fits_bookFirst (h : n.Fits) : (bookFirst n).Fits := by
  cases hk : nodeGetFirstFreeBlock n with
  | none =>
    unfold bookFirst
    rwa [hk]
  | some k =>
    obtain ⟨hlt, -⟩ := firstFree_spec hk
    rw [bookFirst_eq hk, nodeSetBlockUsed_eq (h.bit_lt hlt) hlt]
    apply h.withBits
    intro i hi
    obtain hbit | hmem := mark_eq_true.1 hi
    · exact Or.inl hbit
    · have hik : i = k := congrArg Prod.snd (List.mem_singleton.1 hmem)
      exact Or.inr (hik ▸ hlt)

/-- A booked node has one free block less. -/
theorem freeCount_bookFirst (h : n.Fits) : nodeGetBlocksFreeCount (bookFirst n) = nodeGetBlocksFreeCount n - 1 := by
  cases hk : nodeGetFirstFreeBlock n with
  | none =>
    have hzero := freeCount_eq_zero hk
    have hsame : bookFirst n = n := by
      unfold bookFirst
      rw [hk]
    rw [hsame, hzero]
  | some k =>
    obtain ⟨hlt, hfree⟩ := firstFree_spec hk
    have hfits := fits_bookFirst h
    rw [bookFirst_eq hk] at hfits ⊢
    have hbits : ∀ i, nodeIsBlockUsed (nodeSetBlockUsed n k) i = (nodeIsBlockUsed n i || decide (i = k)) := by
      intro i
      rw [nodeIsBlockUsed_eq hfits, nodeIsBlockUsed_eq h]
      simp only [nodeSetBlockUsed, nodeBlockIsValidIndex, hlt, decide_true, if_true]
      exact Bitarray.testBit_setBit (h.bit_lt hlt) i
    have hcount : (nodeSetBlockUsed n k).blocksCount = n.blocksCount := by
      simp only [nodeSetBlockUsed, nodeBlockIsValidIndex, hlt, decide_true, if_true]
    -- the indices are `k` and the others, which are as free as before
    have hperm := List.perm_cons_erase (List.mem_range.2 hlt)
    have hothers : ∀ i ∈ (List.range n.blocksCount.toNat).erase k,
        (!nodeIsBlockUsed (nodeSetBlockUsed n k) i) = !nodeIsBlockUsed n i := by
      intro i hi
      have hne : i ≠ k := (List.nodup_range.mem_erase_iff.1 hi).1
      rw [hbits, decide_eq_false hne, Bool.or_false]
    have hk0 : nodeIsBlockUsed n k = false := by rw [nodeIsBlockUsed_eq h, hfree]
    have hk1 : nodeIsBlockUsed (nodeSetBlockUsed n k) k = true := by simp [hbits]
    unfold nodeGetBlocksFreeCount
    rw [hcount, hperm.countP_eq, hperm.countP_eq, List.countP_cons, List.countP_cons, hk0, hk1,
      List.countP_congr fun i hi => by rw [hothers i hi]]
    simp

/-! ## One block -/

/-- **One copy more**, when the nodes before the `j`-th have been booked: it is found exactly if
that node has a free block, and then the node is booked too. -/
theorem planCopy_step {N : List Node} {x : Plan × List FileBlock} {j : ℕ} (block : List UInt8) (hx : x.1.success = true)
    (hnodes : x.1.nodes = (N.take j).map bookFirst ++ N.drop j) (hj : j ≤ N.length) :
    ((planCopy block x j).1.success = true ↔ ∃ n, N[j]? = some n ∧ 0 < nodeGetBlocksFreeCount n) ∧
    ((planCopy block x j).1.success = true →
      (planCopy block x j).1.nodes = (N.take (j + 1)).map bookFirst ++ N.drop (j + 1)) := by
  have htake : ((N.take j).map bookFirst).length = j := by
    rw [List.length_map, List.length_take]
    omega
  -- the nodes from the `j`-th on are as they were
  have hat : x.1.nodes[j]? = N[j]? := by
    rw [hnodes, List.getElem?_append_right (by omega), htake, Nat.sub_self, List.getElem?_drop, Nat.add_zero]
  cases hn : N[j]? with
  | none =>
    rw [hn] at hat
    have hfail : (planCopy block x j).1.success = false := by simp [planCopy, hx, hat]
    rw [hfail]
    simp
  | some n =>
    rw [hn] at hat
    cases hk : nodeGetFirstFreeBlock n with
    | none =>
      have hzero := freeCount_eq_zero hk
      have hfail : (planCopy block x j).1.success = false := by simp [planCopy, hx, hat, hk]
      rw [hfail]
      simp [hzero]
    | some k =>
      have hbook : planCopy block x j = ({ x.1 with
          nodes := x.1.nodes.set j (nodeSetBlockUsed n k)
          sendOperations := x.1.sendOperations ++ [⟨n.id, k, block⟩] }, x.2 ++ [⟨n.id, k.toUInt16⟩]) := by
        simp [planCopy, hx, hat, hk]
      obtain ⟨hlt, hget⟩ := List.getElem?_eq_some_iff.1 hn
      have hdrop : N.drop j = n :: N.drop (j + 1) := by rw [List.drop_eq_getElem_cons hlt, hget]
      have hmore : N.take (j + 1) = N.take j ++ [n] := by
        rw [List.take_add_one, hn]
        rfl
      rw [hbook]
      refine ⟨⟨fun _ => ⟨n, rfl, freeCount_pos hk⟩, fun _ => hx⟩, fun _ => ?_⟩
      dsimp only
      rw [hnodes, hdrop, List.set_append_right _ _ (by omega), htake, Nat.sub_self, List.set_cons_zero, hmore,
        List.map_append, List.map_singleton, List.append_assoc, List.singleton_append, bookFirst_eq hk]

/-- The copies of a block are found exactly if each of the first nodes has a free block. -/
theorem planCopies (hsucc : p.success = true) (block : List UInt8) : ∀ j,
    (((List.range j).foldl (planCopy block) (p, [])).1.success = true ↔
      j ≤ p.nodes.length ∧ ∀ n ∈ p.nodes.take j, 0 < nodeGetBlocksFreeCount n) ∧
    (((List.range j).foldl (planCopy block) (p, [])).1.success = true →
      ((List.range j).foldl (planCopy block) (p, [])).1.nodes = (p.nodes.take j).map bookFirst ++ p.nodes.drop j) := by
  intro j
  induction j with
  | zero => simp [hsucc]
  | succ j ih =>
    simp only [List.range_succ, List.foldl_append, List.foldl_cons, List.foldl_nil]
    generalize (List.range j).foldl (planCopy block) (p, []) = x at ih
    obtain ⟨hiff, hnodes⟩ := ih
    by_cases hx : x.1.success = true
    · obtain ⟨hlen, hpos⟩ := hiff.1 hx
      obtain ⟨hfound, hbooked⟩ := planCopy_step block hx (hnodes hx) hlen
      refine ⟨hfound.trans ⟨?_, ?_⟩, hbooked⟩
      · rintro ⟨n, hn, hfree⟩
        have hlt : j < p.nodes.length := (List.getElem?_eq_some_iff.1 hn).1
        refine ⟨hlt, fun m hm => ?_⟩
        rw [List.take_add_one, hn] at hm
        obtain hm | hm := List.mem_append.1 hm
        · exact hpos m hm
        · have hmn : m = n := by simpa using hm
          rw [hmn]
          exact hfree
      · rintro ⟨hlt, hall⟩
        have hn : p.nodes[j]? = some p.nodes[j] := List.getElem?_eq_getElem hlt
        refine ⟨p.nodes[j], hn, hall _ ?_⟩
        rw [List.take_add_one, hn]
        exact List.mem_append_right _ List.mem_cons_self
    · -- after a failure nothing more is looked for
      have hstay : planCopy block x j = x := by simp [planCopy, hx]
      rw [hstay]
      refine ⟨⟨fun h => absurd h hx, ?_⟩, fun h => absurd h hx⟩
      rintro ⟨hlen, hall⟩
      apply hiff.2
      refine ⟨by omega, fun n hn => hall n ?_⟩
      exact (List.take_sublist_take_left (Nat.le_succ j)).subset hn

/-- **The copies of a block** are found exactly if each of the three freest nodes has a free
block, and then these are booked. -/
theorem createSendOperations_books (sort : NodeSort) (hsucc : p.success = true) (block : List UInt8) :
    ((createSendOperations sort p block).success = true ↔ FILESYSTEM_BLOCK_COPIES ≤ (sort.sort p.nodes).length ∧
      ∀ n ∈ (sort.sort p.nodes).take FILESYSTEM_BLOCK_COPIES, 0 < nodeGetBlocksFreeCount n) ∧
    ((createSendOperations sort p block).success = true → (createSendOperations sort p block).nodes =
      ((sort.sort p.nodes).take FILESYSTEM_BLOCK_COPIES).map bookFirst ++
        (sort.sort p.nodes).drop FILESYSTEM_BLOCK_COPIES) := by
  have hcopies := planCopies (p := { p with nodes := sort.sort p.nodes }) hsucc block FILESYSTEM_BLOCK_COPIES
  have hsuccess : (createSendOperations sort p block).success =
      ((List.range FILESYSTEM_BLOCK_COPIES).foldl (planCopy block)
        ({ p with nodes := sort.sort p.nodes }, [])).1.success := by
    simp [createSendOperations, hsucc]
  have hnodes : (createSendOperations sort p block).nodes =
      ((List.range FILESYSTEM_BLOCK_COPIES).foldl (planCopy block)
        ({ p with nodes := sort.sort p.nodes }, [])).1.nodes := by
    simp [createSendOperations, hsucc]
  rw [hsuccess, hnodes]
  exact hcopies

/-! ## All the blocks -/

/-- The free blocks of the nodes of a plan. -/
def Plan.counts (p : Plan) : List ℕ := p.nodes.map nodeGetBlocksFreeCount

/-- After a failure nothing more is planned. -/
theorem foldl_failed (sort : NodeSort) (h : p.success = false) :
    (bs.foldl (createSendOperations sort) p).success = false := by
  induction bs generalizing p with
  | nil => exact h
  | cons b bs ih =>
    have hstay : createSendOperations sort p b = p := by simp [createSendOperations, h]
    rw [List.foldl_cons, hstay]
    exact ih h

/-- Three nodes at most are taken, and what is behind them has no more free blocks. -/
theorem sorted_apart (sort : NodeSort) (N : List Node) (k : ℕ) :
    ∀ a ∈ ((sort.sort N).take k).map nodeGetBlocksFreeCount, ∀ b ∈
      ((sort.sort N).drop k).map nodeGetBlocksFreeCount, b ≤ a := by
  intro a ha b hb
  obtain ⟨m, hm, rfl⟩ := List.mem_map.1 ha
  obtain ⟨n, hn, rfl⟩ := List.mem_map.1 hb
  have hsorted := sort.sorted N
  rw [← List.take_append_drop k (sort.sort N), List.pairwise_append] at hsorted
  have hmn := hsorted.2.2 m hm n hn
  simpa [filesystemNodeComparatorByBlocksFree] using hmn

theorem counts_apart (sort : NodeSort) (p : Plan) (k : ℕ) : (((sort.sort p.nodes).take k).map nodeGetBlocksFreeCount ++
    ((sort.sort p.nodes).drop k).map nodeGetBlocksFreeCount).Perm p.counts := by
  rw [← List.map_append, List.take_append_drop]
  exact (sort.perm p.nodes).map nodeGetBlocksFreeCount

/-- **A block whose copies are found**: what there must be room for before and after it. -/
theorem room_of_found (sort : NodeSort) (hF : ∀ n ∈ p.nodes, n.Fits) (hsucc : p.success = true) {block : List UInt8}
    (hok : (createSendOperations sort p block).success = true) (k : ℕ) :
    (∀ n ∈ (createSendOperations sort p block).nodes, n.Fits) ∧
      (Room FILESYSTEM_BLOCK_COPIES (k + 1) p.counts ↔
        Room FILESYSTEM_BLOCK_COPIES k (createSendOperations sort p block).counts) := by
  obtain ⟨hiff, hnodes⟩ := createSendOperations_books sort hsucc block
  obtain ⟨hlen, hpos⟩ := hiff.1 hok
  have hF' : ∀ n ∈ sort.sort p.nodes, n.Fits := fun n hn => hF n ((sort.perm p.nodes).subset hn)
  have hmost : (((sort.sort p.nodes).take FILESYSTEM_BLOCK_COPIES).map nodeGetBlocksFreeCount).length =
      FILESYSTEM_BLOCK_COPIES := by
    rw [List.length_map, List.length_take]
    exact Nat.min_eq_left hlen
  -- a block takes one from each of the freest nodes
  have hleft : (createSendOperations sort p block).counts =
      (((sort.sort p.nodes).take FILESYSTEM_BLOCK_COPIES).map nodeGetBlocksFreeCount).map (fun c => c - 1) ++
        ((sort.sort p.nodes).drop FILESYSTEM_BLOCK_COPIES).map nodeGetBlocksFreeCount := by
    unfold Plan.counts
    rw [hnodes hok, List.map_append, List.map_map, List.map_map]
    congr 1
    apply List.map_congr_left
    intro n hn
    exact freeCount_bookFirst (hF' n (List.mem_of_mem_take hn))
  constructor
  · rw [hnodes hok]
    intro n hn
    obtain hn | hn := List.mem_append.1 hn
    · obtain ⟨m, hm, rfl⟩ := List.mem_map.1 hn
      exact fits_bookFirst (hF' m (List.mem_of_mem_take hm))
    · exact hF' n (List.mem_of_mem_drop hn)
  · rw [← Room.perm (counts_apart sort p FILESYSTEM_BLOCK_COPIES), hleft]
    constructor
    · intro hroom
      exact hroom.step hmost (sorted_apart sort p.nodes FILESYSTEM_BLOCK_COPIES)
    · intro hroom
      apply hroom.of_step hmost
      intro a ha
      obtain ⟨n, hn, rfl⟩ := List.mem_map.1 ha
      exact hpos n hn

/-- **A block whose copies are not found** had no room. -/
theorem no_room_of_failed (sort : NodeSort) (hsucc : p.success = true) {block : List UInt8}
    (hfail : (createSendOperations sort p block).success = false) (k : ℕ) :
    ¬Room FILESYSTEM_BLOCK_COPIES (k + 1) p.counts := by
  intro hroom
  rw [← Room.perm (counts_apart sort p FILESYSTEM_BLOCK_COPIES)] at hroom
  have hfull : ((sort.sort p.nodes).drop FILESYSTEM_BLOCK_COPIES).map nodeGetBlocksFreeCount ≠ [] →
      (((sort.sort p.nodes).take FILESYSTEM_BLOCK_COPIES).map nodeGetBlocksFreeCount).length =
        FILESYSTEM_BLOCK_COPIES := by
    intro hrest
    have hlong : FILESYSTEM_BLOCK_COPIES < (sort.sort p.nodes).length := by
      by_contra hle
      rw [List.drop_eq_nil_of_le (Nat.le_of_not_lt hle)] at hrest
      exact hrest rfl
    rw [List.length_map, List.length_take]
    exact Nat.min_eq_left hlong.le
  obtain ⟨hlen, hpos⟩ := hroom.top (by simp) hfull (sorted_apart sort p.nodes FILESYSTEM_BLOCK_COPIES)
  rw [List.length_map, List.length_take] at hlen
  have hok : (createSendOperations sort p block).success = true := by
    apply (createSendOperations_books sort hsucc block).1.2
    exact ⟨by omega, fun n hn => hpos _ (List.mem_map_of_mem hn)⟩
  rw [hfail] at hok
  cases hok

/-- **The planning succeeds exactly if there is room.** -/
theorem plan_room (sort : NodeSort) (hF : ∀ n ∈ p.nodes, n.Fits) (hsucc : p.success = true) :
    (bs.foldl (createSendOperations sort) p).success = true ↔ Room FILESYSTEM_BLOCK_COPIES bs.length p.counts := by
  induction bs generalizing p with
  | nil => exact iff_of_true hsucc (room_zero _ _)
  | cons b bs ih =>
    rw [List.foldl_cons, List.length_cons]
    cases hb : (createSendOperations sort p b).success with
    | true =>
      obtain ⟨hF', hroom⟩ := room_of_found sort hF hsucc hb bs.length
      rw [ih hF' hb, hroom]
    | false =>
      rw [foldl_failed sort hb]
      exact iff_of_false Bool.false_ne_true (no_room_of_failed sort hsucc hb bs.length)

/-! ## Copies that are spread -/

/-- The nodes of the copies of a block. -/
def nodesOf (N : List Node) (cs : List FileBlock) : List Node := N.filter fun n => cs.any fun c =>
    decide (c.nodeId = n.id)

theorem mem_nodesOf {cs : List FileBlock} : n ∈ nodesOf N cs ↔ n ∈ N ∧ n.id ∈ cs.map FileBlock.nodeId := by
  simp only [nodesOf, List.mem_filter, List.any_eq_true, decide_eq_true_eq, List.mem_map]

/-- The indices that a plan uses on a node. -/
def Plan.indices (p : Plan) (id : CStr) : List ℕ := (p.slots.filter fun s => decide (s.1 = id)).map Prod.snd

/-- A plan uses no more blocks of a node than were free. -/
theorem Planned.length_indices (hN : (N.map Node.id).Nodup) (hF : ∀ n ∈ N, n.Fits) (h : Planned N p) (hn : n ∈ N) :
    (p.indices n.id).length ≤ nodeGetBlocksFreeCount n := by
  have hnodup : (p.indices n.id).Nodup := by
    unfold Plan.indices
    refine List.Nodup.map_on ?_ (h.nodup.filter _)
    rintro ⟨id, i⟩ hi ⟨id', j⟩ hj (rfl : i = j)
    have hid : id = n.id := by simpa using (List.mem_filter.1 hi).2
    have hid' : id' = n.id := by simpa using (List.mem_filter.1 hj).2
    rw [hid, hid']
  have hfree : ∀ i ∈ p.indices n.id, i ∈ (List.range n.blocksCount.toNat).filter fun i => !nodeIsBlockUsed n i := by
    intro i hi
    obtain ⟨⟨id, j⟩, hs, rfl⟩ := List.mem_map.1 hi
    obtain ⟨hslot, hid⟩ := List.mem_filter.1 hs
    have hid' : id = n.id := by simpa using hid
    rw [hid'] at hslot
    obtain ⟨hlt, hbit⟩ := h.slot hN hn hslot
    rw [List.mem_filter, nodeIsBlockUsed_eq (hF n hn)]
    exact ⟨List.mem_range.2 hlt, by rw [hbit]; rfl⟩
  have hle := (List.subperm_of_subset hnodup hfree).length_le
  unfold nodeGetBlocksFreeCount
  rwa [List.countP_eq_length_filter]

/-- A node has an index for each block that has a copy on it. -/
theorem countP_le_indices (css : List (List FileBlock)) (id : CStr) :
    css.countP (fun cs => decide (id ∈ cs.map FileBlock.nodeId)) ≤
      ((css.flatten.map FileBlock.slot).filter fun s => decide (s.1 = id)).length := by
  induction css with
  | nil => simp
  | cons cs css ih =>
    rw [List.flatten_cons, List.map_append, List.filter_append, List.length_append, List.countP_cons]
    by_cases hid : id ∈ cs.map FileBlock.nodeId
    · obtain ⟨c, hc, hcid⟩ := List.mem_map.1 hid
      have hmem : c.slot ∈ (cs.map FileBlock.slot).filter fun s => decide (s.1 = id) :=
        List.mem_filter.2 ⟨List.mem_map_of_mem hc, decide_eq_true hcid⟩
      have hpos := List.length_pos_of_mem hmem
      rw [if_pos (decide_eq_true hid)]
      omega
    · rw [if_neg (by simpa using hid)]
      omega

/-- **A plan spreads its copies.** -/
theorem PlanOk.spread (hN : (N.map Node.id).Nodup) (hF : ∀ n ∈ N, n.Fits) (h : PlanOk N bs p) :
    Spread FILESYSTEM_BLOCK_COPIES N nodeGetBlocksFreeCount (p.blocks.map (nodesOf N)) := by
  have hNodup : N.Nodup := hN.of_map
  have hstored : ∀ cs ∈ p.blocks, ∀ c ∈ cs, c.nodeId ∈ N.map Node.id := by
    intro cs hcs c hc
    have hslot : c.slot ∈ p.slots := by
      rw [h.slots]
      exact List.mem_map_of_mem (List.mem_flatten.2 ⟨cs, hcs, hc⟩)
    obtain ⟨m, hm, hid, -⟩ := h.planned.free _ hslot
    exact List.mem_map.2 ⟨m, hm, hid⟩
  refine ⟨?_, ?_, ?_, ?_⟩
  · intro ns hns
    obtain ⟨cs, hcs, rfl⟩ := List.mem_map.1 hns
    -- each copy is on a node of its own
    have hids : ((nodesOf N cs).map Node.id).Perm (cs.map FileBlock.nodeId) := by
      have hsub : ((nodesOf N cs).map Node.id).Nodup := hN.sublist (List.filter_sublist.map Node.id)
      rw [List.perm_ext_iff_of_nodup hsub (h.apart cs hcs)]
      intro id
      constructor
      · intro hid
        obtain ⟨n, hn, rfl⟩ := List.mem_map.1 hid
        exact (mem_nodesOf.1 hn).2
      · intro hid
        obtain ⟨c, hc, rfl⟩ := List.mem_map.1 hid
        obtain ⟨n, hn, hnid⟩ := List.mem_map.1 (hstored cs hcs c hc)
        exact List.mem_map.2 ⟨n, mem_nodesOf.2 ⟨hn, hnid ▸ hid⟩, hnid⟩
    have hlen := hids.length_eq
    rw [List.length_map, List.length_map, h.copies cs hcs] at hlen
    exact hlen
  · intro ns hns
    obtain ⟨cs, hcs, rfl⟩ := List.mem_map.1 hns
    exact hNodup.filter _
  · intro ns hns n hn
    obtain ⟨cs, hcs, rfl⟩ := List.mem_map.1 hns
    exact (mem_nodesOf.1 hn).1
  · intro n hn
    have hsame : ∀ cs, n ∈ nodesOf N cs ↔ n.id ∈ cs.map FileBlock.nodeId :=
      fun cs => mem_nodesOf.trans (and_iff_right hn)
    -- a block that has a copy on the node has an index there
    have hcount := countP_le_indices p.blocks n.id
    have hle := h.planned.length_indices hN hF hn
    unfold Plan.indices at hle
    rw [List.length_map, h.slots] at hle
    rw [List.countP_map]
    simp only [Function.comp_def, hsame]
    exact hcount.trans hle

/-- **The planning is sound and complete.** It succeeds exactly if the free blocks of the nodes,
each node counted for as many as there are blocks to store at most, come to three for each
block, which is exactly if three copies of each block can be spread over different nodes; and
then the plan does so. -/
theorem plan_sound_and_complete (sort : NodeSort) (N : List Node) (bs : List (List UInt8))
    (hN : (N.map Node.id).Nodup) (hF : ∀ n ∈ N, n.Fits) :
    ((bs.foldl (createSendOperations sort) ⟨N, [], [], true⟩).success = true ↔
      3 * bs.length ≤ (N.map fun n => min (nodeGetBlocksFreeCount n) bs.length).sum) ∧
    ((bs.foldl (createSendOperations sort) ⟨N, [], [], true⟩).success = true ↔
      ∃ copies, copies.length = bs.length ∧ Spread FILESYSTEM_BLOCK_COPIES N nodeGetBlocksFreeCount copies) ∧
    ((bs.foldl (createSendOperations sort) ⟨N, [], [], true⟩).success = true →
      PlanOk N bs (bs.foldl (createSendOperations sort) ⟨N, [], [], true⟩)) := by
  have hroom : (bs.foldl (createSendOperations sort) ⟨N, [], [], true⟩).success = true ↔
      Room FILESYSTEM_BLOCK_COPIES bs.length (N.map nodeGetBlocksFreeCount) :=
    plan_room (p := ⟨N, [], [], true⟩) sort hF rfl
  refine ⟨?_, ⟨?_, ?_⟩, plan_ok hN hF sort bs⟩
  · rw [hroom]
    unfold Room FILESYSTEM_BLOCK_COPIES
    rw [List.map_map]
    rfl
  · intro hsucc
    have hok := plan_ok hN hF sort bs hsucc
    refine ⟨_, ?_, hok.spread hN hF⟩
    rw [List.length_map]
    exact hok.length.symm
  · rintro ⟨copies, hlen, hspread⟩
    rw [hroom, ← hlen]
    exact hspread.room hN.of_map

/-- Three nodes with one block and two, all free. -/
def freshNodes : List Node := [nodeCreate (cstr "Nodo1") 1, nodeCreate (cstr "Nodo2") 1, nodeCreate (cstr "Nodo3") 2]

/-- A file of one block over them. -/
theorem plan_sound_and_complete_threeNodes :
    ∃ p, [cstr "a\n"].foldl (createSendOperations insertionSort) ⟨freshNodes, [], [], true⟩ = p ∧
    p.success = true ∧ PlanOk freshNodes [cstr "a\n"] p := by
  have hF : ∀ n ∈ freshNodes, n.Fits := by
    intro n hn
    simp only [freshNodes, List.mem_cons, List.not_mem_nil, or_false] at hn
    obtain rfl | rfl | rfl := hn <;> exact fits_nodeCreate _ _
  obtain ⟨hsum, -, hplan⟩ := plan_sound_and_complete insertionSort freshNodes [cstr "a\n"] (by decide) hF
  have hsucc := hsum.2 (by decide)
  exact ⟨_, rfl, hsucc, hplan hsucc⟩

end Mdfs.FileSystem
