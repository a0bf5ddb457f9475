import Mdfs.Lib.Bits
import Mdfs.Lib.Trace
import Mdfs.FileSystem.Structs

/-!
# The bitmap of a node, as a set

The functions of `structs/node.c` on the bitmap, over any bit array and with every bit
access checked against the bytes that were allocated: `none` is an access past them. An
index is an `off_t`, so that it may be negative.

What the bitmap is for is a set of block numbers: `BlockOp.onSet` says what an operation
does to the set, `MarkedLast` what the operations so far say of one block.

* `step_isSet`: an operation does to the bitmap what it does to the set.
* `isBlockUsed_eq`, `blocksFreeCount_eq`, `firstFreeBlock_spec`: what is read is the set's.
* `bitmap_is_set`: after any operations on a new node.
* `setBlockUsed_ofNode`, `setBlockFree_ofNode`, `blocksFreeCount_ofNode`, `firstFreeBlock_ofNode`:
  on the nodes of `Structs` nothing is accessed past the bytes, and the functions are those there.
-/

namespace Mdfs.FileSystem.Bitmap

open Lib

/-- `node_t`, without the id. -/
structure BitNode (α : Type) where
  blocks : α
  blocksCount : UInt16

variable {α : Type} {B : BitOps α} {node : BitNode α} {count : UInt16} {S : Finset ℕ}

def getByteArrayForBlocksCount (B : BitOps α) (count : UInt16) : α :=
  let size := (count.toNat + 7) / 8 -- rounds up the division
  B.create (List.replicate size 0)

def nodeCreate (B : BitOps α) (blocksCount : UInt16) : BitNode α :=
  ⟨getByteArrayForBlocksCount B blocksCount, blocksCount⟩

def nodeBlockIsValidIndex (node : BitNode α) (blockIndex : ℤ) : Bool :=
  blockIndex < node.blocksCount.toNat

def nodeSetAllBlocksFree (B : BitOps α) (node : BitNode α) : BitNode α :=
  { node with blocks := getByteArrayForBlocksCount B node.blocksCount }

def nodeSetBlockUsed (B : BitOps α) (node : BitNode α) (blockIndex : ℤ) : Option (BitNode α) :=
  if nodeBlockIsValidIndex node blockIndex then do
    let blocks ← B.setBit? node.blocks blockIndex
    pure { node with blocks := blocks }
  else pure node

def nodeSetBlockFree (B : BitOps α) (node : BitNode α) (blockIndex : ℤ) : Option (BitNode α) :=
  if nodeBlockIsValidIndex node blockIndex then do
    let blocks ← B.cleanBit? node.blocks blockIndex
    pure { node with blocks := blocks }
  else pure node

def nodeIsBlockUsed (B : BitOps α) (node : BitNode α) (blockIndex : ℤ) : Option Bool :=
  if nodeBlockIsValidIndex node blockIndex then B.testBit? node.blocks blockIndex else pure false

/-- The `for` of `node_getBlocksFreeCount`, from `i` on with `k` rounds to go. -/
def countFrom (B : BitOps α) (node : BitNode α) : ℕ → ℕ → ℕ → Option ℕ
  | 0, _, count => pure count
  | k + 1, i, count => do
    let used ← nodeIsBlockUsed B node i
    countFrom B node k (i + 1) (if used then count else count + 1)

def nodeGetBlocksFreeCount (B : BitOps α) (node : BitNode α) : Option ℕ :=
  countFrom B node node.blocksCount.toNat 0 0

/-- The `for` of `node_getFirstFreeBlock`, likewise. -/
def firstFrom (B : BitOps α) (node : BitNode α) : ℕ → ℕ → Option ℤ
  | 0, _ => pure (-1)
  | k + 1, i => do
    let used ← nodeIsBlockUsed B node i
    if used then firstFrom B node k (i + 1) else pure (i : ℤ)

def nodeGetFirstFreeBlock (B : BitOps α) (node : BitNode α) : Option ℤ :=
  firstFrom B node node.blocksCount.toNat 0

/-! ## The operations, on a set of block numbers -/

/-- An operation on the bitmap of a node. -/
inductive BlockOp
  | setUsed (i : ℕ)
  | setFree (i : ℕ)
  | setAllFree
  deriving DecidableEq

/-- The operation, on the node. -/
def step (B : BitOps α) (node : BitNode α) : BlockOp → Option (BitNode α)
  | .setUsed i => nodeSetBlockUsed B node i
  | .setFree i => nodeSetBlockFree B node i
  | .setAllFree => pure (nodeSetAllBlocksFree B node)

/-- The operation, on the set of the used blocks of `n`. -/
def BlockOp.onSet (n : ℕ) (S : Finset ℕ) : BlockOp → Finset ℕ
  | .setUsed i => if i < n then insert i S else S
  | .setFree i => S.erase i
  | .setAllFree => ∅

/-- The used blocks after the operations. -/
def usedBlocks (n : ℕ) (ops : List BlockOp) : Finset ℕ := ops.foldl (BlockOp.onSet n) ∅

/-- The operation is on block `i`. -/
def BlockOp.On (i : ℕ) : BlockOp → Prop
  | .setUsed j | .setFree j => j = i
  | .setAllFree => True

/-- The last one of the operations on block `i` marked it used. -/
def MarkedLast (ops : List BlockOp) (i : ℕ) : Prop :=
  ∃ before after, ops = before ++ BlockOp.setUsed i :: after ∧ ∀ op ∈ after, ¬op.On i

variable {n i : ℕ} {op : BlockOp} {ops : List BlockOp}

/-- The last operation on a block, by the last operation. -/
theorem markedLast_append : MarkedLast (ops ++ [op]) i ↔ op = .setUsed i ∨ ¬op.On i ∧ MarkedLast ops i := by
  constructor
  · rintro ⟨before, after, hsplit, hafter⟩
    obtain rfl | ⟨after, last, rfl⟩ := after.eq_nil_or_concat
    · have hop : op = .setUsed i := (List.append_inj' hsplit rfl).2 |> List.singleton_inj.1
      exact Or.inl hop
    · rw [List.concat_eq_append, ← List.cons_append, ← List.append_assoc] at hsplit
      obtain ⟨rfl, hlast⟩ := List.append_inj' hsplit rfl
      obtain rfl := List.singleton_inj.1 hlast
      refine Or.inr ⟨hafter op (by simp), before, after, rfl, fun o ho => ?_⟩
      exact hafter o (by simp [ho])
  · rintro (rfl | ⟨hop, before, after, rfl, hafter⟩)
    · exact ⟨ops, [], rfl, fun o ho => absurd ho List.not_mem_nil⟩
    · refine ⟨before, after ++ [op], by simp, fun o ho => ?_⟩
      obtain ho | ho := List.mem_append.1 ho
      · exact hafter o ho
      · obtain rfl := List.mem_singleton.1 ho
        exact hop

/-- Of a set of numbers below `n`. -/
theorem mem_onSet (hS : i ∈ S → i < n) :
    i ∈ op.onSet n S ↔ i < n ∧ (op = .setUsed i ∨ ¬op.On i ∧ i ∈ S) := by
  cases op with
  | setUsed j =>
    simp only [BlockOp.onSet, BlockOp.On, BlockOp.setUsed.injEq]
    split
    · rw [Finset.mem_insert]
      grind
    · grind
  | setFree j =>
    simp only [BlockOp.onSet, BlockOp.On, Finset.mem_erase]
    grind
  | setAllFree => simp [BlockOp.onSet, BlockOp.On]

theorem mem_usedBlocks : i ∈ usedBlocks n ops ↔ i < n ∧ MarkedLast ops i := by
  induction ops using List.reverseRecOn with
  | nil => simp [usedBlocks, MarkedLast]
  | append_singleton ops op ih =>
    have hlast : usedBlocks n (ops ++ [op]) = op.onSet n (usedBlocks n ops) := by simp [usedBlocks]
    rw [hlast, mem_onSet fun hi => (ih.1 hi).1, markedLast_append, ih]
    grind

/-! ## The bitmap is the set -/

/-- The node has `count` blocks, the bytes for them, and the bits of `S`. -/
structure IsSet (B : BitOps α) (count : UInt16) (S : Finset ℕ) (node : BitNode α) : Prop where
  blocksCount : node.blocksCount = count
  size : B.size node.blocks = (count.toNat + 7) / 8
  bits : B.Holds node.blocks count.toNat S

theorem isSet_fresh (hB : B.Lawful) (count : UInt16) :
    IsSet B count ∅ ⟨getByteArrayForBlocksCount B count, count⟩ := by
  have hroom : count.toNat ≤ 8 * ((count.toNat + 7) / 8) := by omega
  refine ⟨rfl, ?_, BitOps.holds_create hB hroom⟩
  unfold getByteArrayForBlocksCount
  rw [hB.size_create, List.length_replicate]

theorem IsSet.valid (h : IsSet B count S node) (i : ℕ) :
    nodeBlockIsValidIndex node i = decide (i < count.toNat) := by
  simp [nodeBlockIsValidIndex, h.blocksCount]

theorem setBlockUsed_isSet (hB : B.Lawful) (h : IsSet B count S node) (i : ℕ) :
    ∃ node', nodeSetBlockUsed B node i = some node' ∧
      IsSet B count (BlockOp.onSet count.toNat S (.setUsed i)) node' := by
  unfold nodeSetBlockUsed
  rw [h.valid i]
  by_cases hi : i < count.toNat
  · obtain ⟨blocks, hset, hsize, hbits⟩ := BitOps.setBit?_holds hB h.bits hi
    refine ⟨{ node with blocks := blocks }, ?_, h.blocksCount, hsize.trans h.size, ?_⟩
    · simp [hi, hset]
    · rwa [BlockOp.onSet, if_pos hi]
  · refine ⟨node, by simp [hi], ?_⟩
    rwa [BlockOp.onSet, if_neg hi]

theorem setBlockFree_isSet (hB : B.Lawful) (h : IsSet B count S node) (i : ℕ) :
    ∃ node', nodeSetBlockFree B node i = some node' ∧
      IsSet B count (BlockOp.onSet count.toNat S (.setFree i)) node' := by
  unfold nodeSetBlockFree
  rw [h.valid i]
  by_cases hi : i < count.toNat
  · obtain ⟨blocks, hclean, hsize, hbits⟩ := BitOps.cleanBit?_holds hB h.bits hi
    exact ⟨{ node with blocks := blocks }, by simp [hi, hclean], h.blocksCount, hsize.trans h.size, hbits⟩
  · have hout : i ∉ S := fun hmem => hi (h.bits.lt i hmem)
    refine ⟨node, by simp [hi], ?_⟩
    rwa [BlockOp.onSet, Finset.erase_eq_of_notMem hout]

/-- **An operation does to the bitmap what it does to the set**, inside the bytes. -/
theorem step_isSet (hB : B.Lawful) (h : IsSet B count S node) (op : BlockOp) :
    ∃ node', step B node op = some node' ∧ IsSet B count (op.onSet count.toNat S) node' := by
  cases op with
  | setUsed i => exact setBlockUsed_isSet hB h i
  | setFree i => exact setBlockFree_isSet hB h i
  | setAllFree =>
    have hcount := h.blocksCount
    refine ⟨nodeSetAllBlocksFree B node, rfl, ?_⟩
    unfold nodeSetAllBlocksFree
    rw [hcount]
    exact isSet_fresh hB count

theorem run_isSet (hB : B.Lawful) (count : UInt16) (ops : List BlockOp) :
    ∃ node, run (step B) (nodeCreate B count) ops = some node ∧
      IsSet B count (usedBlocks count.toNat ops) node := by
  have hstep : ∀ S node op, IsSet B count S node →
      ∃ node', step B node op = some node' ∧ IsSet B count (op.onSet count.toNat S) node' :=
    fun S node op h => step_isSet hB h op
  exact run_simulates hstep (isSet_fresh hB count)

/-! ## What is read of it -/

theorem isBlockUsed_eq (h : IsSet B count S node) (i : ℕ) : nodeIsBlockUsed B node i = some (decide (i ∈ S)) := by
  unfold nodeIsBlockUsed
  rw [h.valid i]
  by_cases hi : i < count.toNat
  · simp only [hi, decide_true, if_true]
    exact BitOps.testBit?_eq h.bits hi
  · have hout : i ∉ S := fun hmem => hi (h.bits.lt i hmem)
    simp [hi, hout]

theorem countFrom_eq (h : IsSet B count S node) (k i c : ℕ) :
    countFrom B node k i c = some (c + (List.range' i k).countP fun j => j ∉ S) := by
  induction k generalizing i c with
  | zero => rfl
  | succ k ih =>
    rw [countFrom, isBlockUsed_eq h i, List.range'_succ, List.countP_cons]
    simp only [Option.bind_eq_bind, Option.bind_some, ih]
    by_cases hi : i ∈ S
    · simp [hi]
    · simp [hi]
      omega

/-- **The free count is that of the numbers not in the set.** -/
theorem blocksFreeCount_eq (h : IsSet B count S node) :
    nodeGetBlocksFreeCount B node = some (clearOf count.toNat S).card := by
  unfold nodeGetBlocksFreeCount
  rw [countFrom_eq h, h.blocksCount, card_clearOf_eq_countP, List.range_eq_range', Nat.zero_add]

/-- The first round that finds a free block ends the loop. -/
theorem firstFrom_spec (h : IsSet B count S node) (k i : ℕ) :
    ∃ first, firstFrom B node k i = some first ∧
      (first = -1 ∧ (∀ j, i ≤ j → j < i + k → j ∈ S) ∨
        ∃ m : ℕ, first = m ∧ i ≤ m ∧ m < i + k ∧ m ∉ S ∧ ∀ j, i ≤ j → j < m → j ∈ S) := by
  induction k generalizing i with
  | zero => exact ⟨-1, rfl, Or.inl ⟨rfl, fun j hij hj => absurd hj (by omega)⟩⟩
  | succ k ih =>
    rw [firstFrom, isBlockUsed_eq h i]
    by_cases hi : i ∈ S
    · have hrest : ∀ {b}, (∀ j, i + 1 ≤ j → j < b → j ∈ S) → ∀ j, i ≤ j → j < b → j ∈ S := by
        intro b hall j hij hj
        obtain rfl | hlt := Nat.eq_or_lt_of_le hij
        · exact hi
        · exact hall j hlt hj
      obtain ⟨first, hfirst, hspec⟩ := ih (i + 1)
      refine ⟨first, by simpa [hi] using hfirst, ?_⟩
      obtain ⟨hnone, hall⟩ | ⟨m, hm, him, hmk, hfree, hall⟩ := hspec
      · exact Or.inl ⟨hnone, fun j hij hj => hrest hall j hij (by omega)⟩
      · exact Or.inr ⟨m, hm, by omega, by omega, hfree, hrest hall⟩
    · refine ⟨i, by simp [hi], Or.inr ⟨i, rfl, le_rfl, by omega, hi, fun j hij hj => absurd hj (by omega)⟩⟩

/-- **The first free block** is the least one; there is none just when no block is free. -/
theorem firstFreeBlock_spec (h : IsSet B count S node) :
    ∃ first, nodeGetFirstFreeBlock B node = some first ∧
      (first = -1 ∧ clearOf count.toNat S = ∅ ∨ ∃ m : ℕ, first = m ∧ IsLeast (clearOf count.toNat S : Set ℕ) m) := by
  obtain ⟨first, hfirst, hspec⟩ := firstFrom_spec h count.toNat 0
  refine ⟨first, ?_, ?_⟩
  · unfold nodeGetFirstFreeBlock
    rw [h.blocksCount]
    exact hfirst
  · obtain ⟨hnone, hall⟩ | ⟨m, hm, -, hmk, hfree, hall⟩ := hspec
    · refine Or.inl ⟨hnone, Finset.eq_empty_of_forall_notMem fun j hj => ?_⟩
      obtain ⟨hlt, hout⟩ := mem_clearOf.1 hj
      exact hout (hall j (Nat.zero_le j) (by omega))
    · refine Or.inr ⟨m, hm, by simpa using ⟨by omega, hfree⟩, fun j hj => ?_⟩
      obtain ⟨-, hout⟩ := mem_clearOf.1 (Finset.mem_coe.1 hj)
      by_contra hlt
      exact hout (hall j (Nat.zero_le j) (by omega))

/-- `t_bitarray`. -/
def bitarray : BitOps Bitarray := ⟨.ofBytes, Bitarray.size, Bitarray.testBit, Bitarray.setBit, Bitarray.cleanBit⟩

theorem ofBytes_zeros (n : ℕ) : Bitarray.ofBytes (List.replicate n 0) = Bitarray.zeroed n := by
  have hbits : (List.replicate n (0 : UInt8)).flatMap Bitarray.bitsOf = List.replicate (8 * n) false := by
    induction n with
    | zero => rfl
    | succ n ih =>
      have hbyte : Bitarray.bitsOf 0 = List.replicate 8 false := by decide
      rw [List.replicate_succ, List.flatMap_cons, ih, hbyte, List.replicate_append_replicate, Nat.mul_add_one,
        Nat.add_comm]
  exact Bitarray.ext' (List.length_replicate ..) hbits

theorem lawful_bitarray : bitarray.Lawful where
  size_create _ := rfl
  size_setBit _ _ := rfl
  size_cleanBit _ _ := rfl
  testBit_create n i _ := by
    show (Bitarray.ofBytes (List.replicate n 0)).testBit i = false
    rw [ofBytes_zeros, Bitarray.testBit_zeroed]
  testBit_setBit a i j hi _ := Bitarray.testBit_setBit hi j
  testBit_cleanBit a i j _ _ := Bitarray.testBit_cleanBit a i j

/-- **The bitmap implements a set of block numbers.** After any operations on a node made by `node_create`, every
access has been inside the bytes, and what the functions read of the bitmap, inside the bytes too, is read of the set
`U` of the blocks that were marked used last. -/
theorem bitmap_is_set (hB : B.Lawful) (blocksCount : UInt16) (ops : List BlockOp) :
    ∃ (node : BitNode α) (U : Finset ℕ) (free : ℕ) (first : ℤ),
      run (step B) (nodeCreate B blocksCount) ops = some node ∧
      B.size node.blocks = (blocksCount.toNat + 7) / 8 ∧
      (∀ i, i ∈ U ↔ i < blocksCount.toNat ∧ MarkedLast ops i) ∧
      (∀ i : ℕ, nodeIsBlockUsed B node i = some (decide (i ∈ U))) ∧
      nodeGetBlocksFreeCount B node = some free ∧ free + U.card = blocksCount.toNat ∧
      nodeGetFirstFreeBlock B node = some first ∧ (first = -1 ↔ free = 0) ∧
      (first ≠ -1 → ∃ m : ℕ, first = m ∧ IsLeast {i | i < blocksCount.toNat ∧ i ∉ U} m ∧
        ∃ node' free', nodeSetBlockUsed B node first = some node' ∧
          nodeGetBlocksFreeCount B node' = some free' ∧ free' + 1 = free) := by
  obtain ⟨node, hrun, h⟩ := run_isSet hB blocksCount ops
  obtain ⟨first, hfirst, hspec⟩ := firstFreeBlock_spec h
  set U := usedBlocks blocksCount.toNat ops
  refine ⟨node, U, (clearOf blocksCount.toNat U).card, first, hrun, h.size, fun i => mem_usedBlocks,
    isBlockUsed_eq h, blocksFreeCount_eq h, card_clearOf h.bits.lt, hfirst, ?_, ?_⟩
  · rw [Finset.card_eq_zero]
    obtain ⟨rfl, hempty⟩ | ⟨m, rfl, hleast⟩ := hspec
    · exact iff_of_true rfl hempty
    · exact iff_of_false (by omega) (Finset.ne_empty_of_mem hleast.1)
  · intro hne
    obtain ⟨rfl, -⟩ | ⟨m, rfl, hleast⟩ := hspec
    · exact absurd rfl hne
    · have hm : m ∈ clearOf blocksCount.toNat U := hleast.1
      have hlt : m < blocksCount.toNat := (mem_clearOf.1 hm).1
      have hclear : (clearOf blocksCount.toNat U : Set ℕ) = {i | i < blocksCount.toNat ∧ i ∉ U} := by
        ext i
        simp
      obtain ⟨node', hset, h'⟩ := setBlockUsed_isSet hB h m
      rw [BlockOp.onSet, if_pos hlt] at h'
      exact ⟨m, rfl, hclear ▸ hleast, node', _, hset, blocksFreeCount_eq h', card_clearOf_insert hm⟩

/-- Ten blocks, with an index past them and not past the bytes. -/
theorem bitmap_is_set_ten : ∃ (node : BitNode Bitarray) (U : Finset ℕ) (free : ℕ) (first : ℤ),
    run (step bitarray) (nodeCreate bitarray 10) [.setUsed 0, .setUsed 12, .setUsed 1, .setFree 0] = some node ∧
      bitarray.size node.blocks = 2 ∧
      (∀ i, i ∈ U ↔ i < 10 ∧ MarkedLast [.setUsed 0, .setUsed 12, .setUsed 1, .setFree 0] i) ∧
      (∀ i : ℕ, nodeIsBlockUsed bitarray node i = some (decide (i ∈ U))) ∧
      nodeGetBlocksFreeCount bitarray node = some free ∧ free + U.card = 10 ∧
      nodeGetFirstFreeBlock bitarray node = some first ∧ (first = -1 ↔ free = 0) ∧
      (first ≠ -1 → ∃ m : ℕ, first = m ∧ IsLeast {i | i < 10 ∧ i ∉ U} m ∧
        ∃ node' free', nodeSetBlockUsed bitarray node first = some node' ∧
          nodeGetBlocksFreeCount bitarray node' = some free' ∧ free' + 1 = free) :=
  bitmap_is_set lawful_bitarray 10 _

/-! ## On the nodes of the file system -/

/-- The bitmap of a node. -/
def ofNode (n : Node) : BitNode Bitarray := ⟨n.blocks, n.blocksCount⟩

variable {n : Node}

/-- The blocks that are used, of a node whose bitmap fits. -/
def usedOf (n : Node) : Finset ℕ := (Finset.range n.blocksCount.toNat).filter fun i => n.blocks.testBit i = true

theorem isSet_ofNode (h : n.Fits) : IsSet bitarray n.blocksCount (usedOf n) (ofNode n) := by
  refine ⟨rfl, h.size, ?_, fun i hi => ?_, fun i hi => ?_⟩
  · have hsize : bitarray.size (ofNode n).blocks = (n.blocksCount.toNat + 7) / 8 := h.size
    omega
  · exact Finset.mem_range.1 (Finset.mem_filter.1 hi).1
  · show n.blocks.testBit i = _
    rw [Bool.eq_iff_iff]
    simp [usedOf, hi]

theorem nodeCreate_ofNode (id : CStr) (count : UInt16) :
    nodeCreate bitarray count = ofNode (FileSystem.nodeCreate id count) := by
  show BitNode.mk (Bitarray.ofBytes (List.replicate _ 0)) count = _
  rw [ofBytes_zeros]
  rfl

theorem valid_ofNode (n : Node) (i : ℕ) :
    nodeBlockIsValidIndex (ofNode n) i = FileSystem.nodeBlockIsValidIndex n i := by
  unfold nodeBlockIsValidIndex FileSystem.nodeBlockIsValidIndex
  exact decide_eq_decide.2 Int.ofNat_lt

/-- A change of the bits behind the check of an index. -/
theorem checked_ofNode {change : Option Bitarray} {blocks : Bitarray} {i : ℕ}
    (h : i < n.blocksCount.toNat → change = some blocks) :
    (if nodeBlockIsValidIndex (ofNode n) i then
        change.bind fun blocks => pure { ofNode n with blocks := blocks } else pure (ofNode n)) =
      some (ofNode (if FileSystem.nodeBlockIsValidIndex n i then { n with blocks := blocks } else n)) := by
  rw [valid_ofNode]
  by_cases hi : i < n.blocksCount.toNat
  · have hvalid : FileSystem.nodeBlockIsValidIndex n i = true := decide_eq_true hi
    rw [if_pos hvalid, if_pos hvalid, h hi]
    rfl
  · have hvalid : ¬FileSystem.nodeBlockIsValidIndex n i = true := fun hyes => hi (of_decide_eq_true hyes)
    rw [if_neg hvalid, if_neg hvalid]
    rfl

/-- Marking a block, inside the bytes. -/
theorem setBlockUsed_ofNode (h : n.Fits) (i : ℕ) :
    nodeSetBlockUsed bitarray (ofNode n) i = some (ofNode (FileSystem.nodeSetBlockUsed n i)) := by
  refine checked_ofNode fun hi => ?_
  have hinside : bitarray.Inside n.blocks i := (isSet_ofNode h).bits.inside hi
  exact if_pos hinside

theorem setBlockFree_ofNode (h : n.Fits) (i : ℕ) :
    nodeSetBlockFree bitarray (ofNode n) i = some (ofNode (FileSystem.nodeSetBlockFree n i)) := by
  refine checked_ofNode fun hi => ?_
  have hinside : bitarray.Inside n.blocks i := (isSet_ofNode h).bits.inside hi
  exact if_pos hinside

theorem isBlockUsed_ofNode (h : n.Fits) (i : ℕ) :
    nodeIsBlockUsed bitarray (ofNode n) i = some (FileSystem.nodeIsBlockUsed n i) := by
  rw [isBlockUsed_eq (isSet_ofNode h), nodeIsBlockUsed_eq h, Option.some.injEq, Bool.eq_iff_iff]
  have hlt := h.lt i
  simp [usedOf]
  tauto

/-- The check of a block, as membership. -/
theorem isBlockUsed_usedOf (h : n.Fits) (i : ℕ) : FileSystem.nodeIsBlockUsed n i = decide (i ∈ usedOf n) :=
  Option.some.inj ((isBlockUsed_ofNode h i).symm.trans (isBlockUsed_eq (isSet_ofNode h) i))

theorem blocksFreeCount_ofNode (h : n.Fits) :
    nodeGetBlocksFreeCount bitarray (ofNode n) = some (FileSystem.nodeGetBlocksFreeCount n) := by
  have hused : ∀ i, decide (i ∉ usedOf n) = !FileSystem.nodeIsBlockUsed n i := fun i => by
    rw [isBlockUsed_usedOf h, decide_not]
  rw [blocksFreeCount_eq (isSet_ofNode h), card_clearOf_eq_countP]
  simp only [hused]
  rfl

theorem firstFreeBlock_ofNode (h : n.Fits) : nodeGetFirstFreeBlock bitarray (ofNode n) =
    some ((FileSystem.nodeGetFirstFreeBlock n).elim (-1) fun i => (i : ℤ)) := by
  have hused := isBlockUsed_usedOf h
  obtain ⟨first, hfirst, hspec⟩ := firstFreeBlock_spec (isSet_ofNode h)
  rw [hfirst]
  refine congrArg some ?_
  unfold FileSystem.nodeGetFirstFreeBlock
  cases hfind : (List.range n.blocksCount.toNat).find? fun i => !FileSystem.nodeIsBlockUsed n i with
  | none =>
    obtain ⟨rfl, -⟩ | ⟨m, -, hleast⟩ := hspec
    · rfl
    · obtain ⟨hlt, hout⟩ := mem_clearOf.1 hleast.1
      have hall := List.find?_range_eq_none.1 hfind m hlt
      simp [hused, hout] at hall
  | some k =>
    obtain ⟨hk, hlt, hall⟩ := List.find?_range_eq_some.1 hfind
    have hmem : k ∈ clearOf n.blocksCount.toNat (usedOf n) :=
      mem_clearOf.2 ⟨List.mem_range.1 hlt, by simpa [hused] using hk⟩
    obtain ⟨-, hempty⟩ | ⟨m, rfl, hleast⟩ := hspec
    · exact absurd hmem (hempty ▸ Finset.notMem_empty k)
    · have hle : m ≤ k := hleast.2 hmem
      obtain rfl | hlt := Nat.eq_or_lt_of_le hle
      · rfl
      · have hm := hall m hlt
        have hout : m ∉ usedOf n := (mem_clearOf.1 hleast.1).2
        simp [hused, hout] at hm

end Mdfs.FileSystem.Bitmap
