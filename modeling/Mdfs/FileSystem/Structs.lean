import Mdfs.Utils.Commons

/-!
# The records of the FileSystem process

`structs/node.c`, `structs/file.c` and `structs/dir.c`: a node and the bitmap of
its blocks, a file with the copies of each of its blocks, a directory.

`Node.withBits` is the abstract view of the bitmap operations: a node whose bits
are rewritten by a function. Marking a block used or free is one such rewriting
(`nodeSetBlockUsed_eq`, `nodeSetBlockFree_eq`).
-/

namespace Mdfs.FileSystem

/-- The id of a stored directory or file: `ROOT_DIR_ID`, or an object id.
`bson_oid_init` never returns the same id twice; `gen n` is the `n`-th one. -/
inductive Oid
  | root
  | gen (n : ℕ)
  deriving DecidableEq

/-- `dir_t`. -/
structure Dir where
  id : Oid
  parentId : Oid
  name : CStr
  deriving DecidableEq

/-- `file_block_t`: a copy of a block. -/
structure FileBlock where
  nodeId : CStr
  blockIndex : UInt16
  deriving DecidableEq

/-- `file_t`; `blocks` is the list of blocks with the list of their copies. -/
structure File where
  id : Oid
  parentId : Oid
  name : CStr
  size : ℕ
  blocks : List (List FileBlock)
  deriving DecidableEq

/-- `node_t`. -/
structure Node where
  id : CStr
  blocks : Bitarray
  blocksCount : UInt16
  deriving DecidableEq

/-- A block of a node: the node's id and the block's index there. -/
abbrev Slot := CStr × ℕ

def FileBlock.slot (c : FileBlock) : Slot := (c.nodeId, c.blockIndex.toNat)

/-- The blocks of nodes that a file's copies name, block by block. -/
def File.slots (f : File) : List Slot := f.blocks.flatten.map FileBlock.slot

theorem FileBlock.slot_injective : Function.Injective FileBlock.slot := by
  rintro ⟨a, i⟩ ⟨b, j⟩ h
  simp only [slot, Prod.mk.injEq, UInt16.toNat_inj] at h
  rw [h.1, h.2]

/-! ## Nodes -/

def getByteArrayForBlocksCount (count : UInt16) : Bitarray :=
  .zeroed ((count.toNat + 7) / 8) -- rounds up the division

def nodeCreate (id : CStr) (blocksCount : UInt16) : Node :=
  ⟨id, getByteArrayForBlocksCount blocksCount, blocksCount⟩

def nodeBlockIsValidIndex (node : Node) (blockIndex : ℕ) : Bool :=
  blockIndex < node.blocksCount.toNat

def nodeSetAllBlocksFree (node : Node) : Node :=
  { node with blocks := getByteArrayForBlocksCount node.blocksCount }

def nodeSetBlockUsed (node : Node) (blockIndex : ℕ) : Node :=
  if nodeBlockIsValidIndex node blockIndex then
    { node with blocks := node.blocks.setBit blockIndex }
  else node

def nodeSetBlockFree (node : Node) (blockIndex : ℕ) : Node :=
  if nodeBlockIsValidIndex node blockIndex then
    { node with blocks := node.blocks.cleanBit blockIndex }
  else node

def nodeIsBlockUsed (node : Node) (blockIndex : ℕ) : Bool :=
  if nodeBlockIsValidIndex node blockIndex then node.blocks.testBit blockIndex else false

def nodeGetBlocksFreeCount (node : Node) : ℕ :=
  (List.range node.blocksCount.toNat).countP fun i => !nodeIsBlockUsed node i

/-- The first free block; `none` is the source's `-1`. -/
def nodeGetFirstFreeBlock (node : Node) : Option ℕ :=
  (List.range node.blocksCount.toNat).find? fun i => !nodeIsBlockUsed node i

@[simp] theorem nodeSetBlockUsed_id (n : Node) (i : ℕ) : (nodeSetBlockUsed n i).id = n.id := by
  unfold nodeSetBlockUsed; split <;> rfl

@[simp] theorem nodeSetBlockFree_id (n : Node) (i : ℕ) : (nodeSetBlockFree n i).id = n.id := by
  unfold nodeSetBlockFree; split <;> rfl

/-- The bitmap has the bytes its blocks need, and no bit past them is set. -/
structure Node.Fits (n : Node) : Prop where
  size : n.blocks.size = (n.blocksCount.toNat + 7) / 8
  lt : ∀ i, n.blocks.testBit i = true → i < n.blocksCount.toNat

theorem Node.Fits.bit_lt {n : Node} (h : n.Fits) {i : ℕ} (hi : i < n.blocksCount.toNat) :
    i < 8 * n.blocks.size := by rw [h.size]; omega

theorem fits_nodeCreate (id : CStr) (count : UInt16) : (nodeCreate id count).Fits :=
  ⟨rfl, fun i h => by simp [nodeCreate, getByteArrayForBlocksCount] at h⟩

theorem fits_nodeSetAllBlocksFree (n : Node) : (nodeSetAllBlocksFree n).Fits :=
  ⟨rfl, fun i h => by simp [nodeSetAllBlocksFree, getByteArrayForBlocksCount] at h⟩

theorem nodeIsBlockUsed_eq {n : Node} (h : n.Fits) (i : ℕ) :
    nodeIsBlockUsed n i = n.blocks.testBit i := by
  unfold nodeIsBlockUsed nodeBlockIsValidIndex
  split
  · rfl
  · rename_i hi
    cases hb : n.blocks.testBit i with
    | false => rfl
    | true => exact absurd (h.lt i hb) (by simpa using hi)

/-- The first free block is free and inside the node. -/
theorem firstFree_spec {n : Node} {i : ℕ} (h : nodeGetFirstFreeBlock n = some i) :
    i < n.blocksCount.toNat ∧ n.blocks.testBit i = false := by
  have hi : i < n.blocksCount.toNat := List.mem_range.1 (List.mem_of_find?_eq_some h)
  have hf := List.find?_some h
  simp only [nodeIsBlockUsed, nodeBlockIsValidIndex, hi, decide_true, if_true,
    Bool.not_eq_true'] at hf
  exact ⟨hi, hf⟩

/-- A node without a first free block has none. -/
theorem freeCount_eq_zero {n : Node} (h : nodeGetFirstFreeBlock n = none) : nodeGetBlocksFreeCount n = 0 := by
  unfold nodeGetFirstFreeBlock at h
  unfold nodeGetBlocksFreeCount
  rw [List.countP_eq_zero]
  exact List.find?_eq_none.1 h

theorem freeCount_pos {n : Node} {k : ℕ} (h : nodeGetFirstFreeBlock n = some k) : 0 < nodeGetBlocksFreeCount n := by
  obtain ⟨hlt, hfree⟩ := firstFree_spec h
  unfold nodeGetBlocksFreeCount
  rw [List.countP_pos_iff]
  exact ⟨k, List.mem_range.2 hlt, by simp [nodeIsBlockUsed, nodeBlockIsValidIndex, hfree]⟩

/-! ## Bitmaps rewritten by a function -/

/-- The bit array with bit `i` rewritten by `f i`. -/
def rewriteBits (a : Bitarray) (f : ℕ → Bool → Bool) : Bitarray :=
  ⟨a.size, a.bits.mapIdx f, by simp [a.length_bits]⟩

theorem testBit_rewriteBits {a : Bitarray} {f : ℕ → Bool → Bool} {i : ℕ} (hi : i < 8 * a.size) :
    (rewriteBits a f).testBit i = f i (a.testBit i) := by
  have hi' : i < a.bits.length := by rw [a.length_bits]; exact hi
  simp [Bitarray.testBit, rewriteBits, List.getD_eq_getElem?_getD, hi']

/-- The node with the bits rewritten by `f`, which is given each bit's slot. -/
def Node.withBits (f : Slot → Bool → Bool) (n : Node) : Node :=
  { n with blocks := rewriteBits n.blocks fun i => f (n.id, i) }

@[simp] theorem Node.withBits_id (f : Slot → Bool → Bool) (n : Node) : (n.withBits f).id = n.id := rfl
@[simp] theorem Node.withBits_blocksCount (f : Slot → Bool → Bool) (n : Node) :
    (n.withBits f).blocksCount = n.blocksCount := rfl
@[simp] theorem Node.withBits_size (f : Slot → Bool → Bool) (n : Node) :
    (n.withBits f).blocks.size = n.blocks.size := rfl

theorem Node.testBit_withBits {f : Slot → Bool → Bool} {n : Node} {i : ℕ} (hi : i < 8 * n.blocks.size) :
    (n.withBits f).blocks.testBit i = f (n.id, i) (n.blocks.testBit i) := testBit_rewriteBits hi

/-- Two nodes with the same id, count and size are equal when their bits are. -/
theorem Node.eq_of_bits {m n : Node} (hid : m.id = n.id) (hc : m.blocksCount = n.blocksCount)
    (hs : m.blocks.size = n.blocks.size)
    (hb : ∀ i, i < 8 * n.blocks.size → m.blocks.testBit i = n.blocks.testBit i) : m = n := by
  cases m with
  | mk mid mb mc =>
    cases n with
    | mk nid nb nc =>
      simp only at hid hc hs hb
      subst hid hc
      congr 1
      refine Bitarray.eq_of_testBit hs fun i => ?_
      by_cases hi : i < 8 * nb.size
      · exact hb i hi
      · rw [Bool.eq_iff_iff]
        exact ⟨fun h => absurd (Bitarray.lt_of_testBit h) (by rw [hs]; exact hi),
          fun h => absurd (Bitarray.lt_of_testBit h) hi⟩

/-- The bits of `S` set. -/
def mark (S : List Slot) (s : Slot) (b : Bool) : Bool := b || decide (s ∈ S)

/-- The bits of `S` cleared. -/
def unmark (S : List Slot) (s : Slot) (b : Bool) : Bool := b && decide (s ∉ S)

theorem Node.withBits_withBits (f g : Slot → Bool → Bool) (n : Node) :
    (n.withBits f).withBits g = n.withBits fun s b => g s (f s b) := by
  refine Node.eq_of_bits rfl rfl rfl fun i hi => ?_
  have hn : i < 8 * n.blocks.size := hi
  rw [Node.testBit_withBits (n := n.withBits f) hn, Node.testBit_withBits hn, Node.testBit_withBits hn]
  rfl

/-- A function that changes no bit of the node leaves the node as it is. -/
theorem Node.withBits_eq_self {f : Slot → Bool → Bool} {n : Node}
    (h : ∀ i, i < 8 * n.blocks.size → f (n.id, i) (n.blocks.testBit i) = n.blocks.testBit i) :
    n.withBits f = n :=
  Node.eq_of_bits rfl rfl rfl fun i hi => by rw [Node.testBit_withBits (n := n) hi, h i hi]

theorem Node.Fits.withBits {n : Node} (h : n.Fits) {f : Slot → Bool → Bool}
    (hf : ∀ i, f (n.id, i) (n.blocks.testBit i) = true → n.blocks.testBit i = true ∨ i < n.blocksCount.toNat) :
    (n.withBits f).Fits := by
  refine ⟨h.size, fun i hi => ?_⟩
  have hlt : i < 8 * n.blocks.size := Bitarray.lt_of_testBit (a := (n.withBits f).blocks) hi
  rw [Node.testBit_withBits (n := n) hlt] at hi
  rcases hf i hi with hb | hb
  · exact h.lt i hb
  · exact hb

@[simp] theorem mark_eq_true {S : List Slot} {s : Slot} {b : Bool} :
    mark S s b = true ↔ b = true ∨ s ∈ S := by simp [mark]

@[simp] theorem unmark_eq_true {S : List Slot} {s : Slot} {b : Bool} :
    unmark S s b = true ↔ b = true ∧ s ∉ S := by simp [unmark]

theorem mark_mark (S T : List Slot) (s : Slot) (b : Bool) : mark T s (mark S s b) = mark (S ++ T) s b := by
  rw [Bool.eq_iff_iff]; simp [or_assoc]

theorem unmark_unmark (S T : List Slot) (s : Slot) (b : Bool) :
    unmark T s (unmark S s b) = unmark (S ++ T) s b := by
  rw [Bool.eq_iff_iff]; simp [and_assoc]

theorem nodeSetBlockUsed_eq {n : Node} {i : ℕ} (hs : i < 8 * n.blocks.size) (hi : i < n.blocksCount.toNat) :
    nodeSetBlockUsed n i = n.withBits (mark [(n.id, i)]) := by
  simp only [nodeSetBlockUsed, nodeBlockIsValidIndex, hi, decide_true, if_true]
  refine Node.eq_of_bits rfl rfl rfl fun j hj => ?_
  rw [Bitarray.testBit_setBit hs, Node.testBit_withBits (n := n) hj]
  simp [mark]

/-- Freeing a block clears its bit; past the last block there is none to clear. -/
theorem nodeSetBlockFree_eq {n : Node} (h : n.Fits) (i : ℕ) :
    nodeSetBlockFree n i = n.withBits (unmark [(n.id, i)]) := by
  by_cases hi : i < n.blocksCount.toNat
  · simp only [nodeSetBlockFree, nodeBlockIsValidIndex, hi, decide_true, if_true]
    refine Node.eq_of_bits rfl rfl rfl fun j hj => ?_
    rw [Bitarray.testBit_cleanBit, Node.testBit_withBits (n := n) hj]
    simp [unmark]
  · simp only [nodeSetBlockFree, nodeBlockIsValidIndex, hi, decide_false, Bool.false_eq_true, if_false]
    refine Node.eq_of_bits (n := n.withBits _) rfl rfl rfl fun j hj => ?_
    rw [Node.testBit_withBits (n := n) hj, Bool.eq_iff_iff, iff_comm]
    simp only [unmark_eq_true, List.mem_singleton, Prod.mk.injEq, true_and, and_iff_left_iff_imp]
    rintro hb rfl
    exact hi (h.lt _ hb)

end Mdfs.FileSystem
