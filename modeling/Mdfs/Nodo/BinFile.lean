import Mdfs.Nodo.BlockStore

/-!
# The bin file of a node

`node_init` of `node.c`: the bin file is created or checked, and mapped, in the size of
`node_getBinFileSize`. Sizes and offsets are products in an `int`, which holds the
addresses of 102 blocks. With more the product turns negative, and `ftruncate` refuses it,
or comes round to a size that is too small, and the node starts on it.

* `block_addresses`: a node that starts has every block at its own place inside the mapped
  file, exactly with at most 102 blocks and a file that was mapped.
-/

namespace Mdfs.Nodo

/-- What `node_init` finds and is answered: the size of the bin file, if it is there, and
the calls that succeed. -/
structure System where
  binFile : Option ℕ
  opens : Bool
  ftruncates : ℕ → Bool
  mmaps : ℕ → Bool
  initsLock : ℕ → Bool
  -- the size of a file is an `off_t`
  binFile_lt : ∀ size ∈ binFile, size < 2 ^ 63

/-- `node_getBinFileSize`: an `int` that becomes a `size_t`. -/
def nodeGetBinFileSize (blocksCount : UInt16) : ℕ := (blockOffset blocksCount % 2 ^ 64).toNat

/-- A `size_t` as an `off_t`. -/
def offT (size : ℕ) : ℤ := Int.bmod size (2 ^ 64)

/-- The bytes mapped at `binFileMap`; `none` for `MAP_FAILED`. -/
abbrev BinFileMap := Option ℕ

/-- `node_init`; `none` when it returns 0. -/
def nodeInit (sys : System) (newNode : Bool) (blocksCount : UInt16) : Option BinFileMap :=
  let createFile := newNode || sys.binFile.isNone
  let binFileSize := nodeGetBinFileSize blocksCount
  if !sys.opens then none
  -- `ftruncate` takes an `off_t`, and refuses a negative one
  else if createFile && !(decide (0 ≤ offT binFileSize) && sys.ftruncates binFileSize) then none
  else if !createFile && sys.binFile != some binFileSize then none
  -- no length is not mapped; the address of a failed `mmap` is not null
  else if (List.range blocksCount.toNat).all sys.initsLock then
    some (if binFileSize ≠ 0 ∧ sys.mmaps binFileSize then some binFileSize else none)
  else none

/-- **Every block at its own place** in the mapped file. -/
structure BlockAddresses (binFileMap : BinFileMap) (blocksCount : UInt16) : Prop where
  exact : ∀ n : UInt16, n.toNat < blocksCount.toNat → n.toNat * BLOCK_SIZE < 2 ^ 31 ∧
    blockOffset n = n.toNat * BLOCK_SIZE
  size : nodeGetBinFileSize blocksCount = blocksCount.toNat * BLOCK_SIZE
  apart : ∀ n k : UInt16, n.toNat < blocksCount.toNat → k.toNat < blocksCount.toNat → n ≠ k →
    blockOffset n + BLOCK_SIZE ≤ blockOffset k ∨ blockOffset k + BLOCK_SIZE ≤ blockOffset n
  inside : ∀ n : UInt16, n.toNat < blocksCount.toNat → ∃ length, binFileMap = some length ∧
    0 ≤ blockOffset n ∧ blockOffset n + BLOCK_SIZE ≤ length

variable {sys : System} {newNode : Bool} {blocksCount : UInt16} {binFileMap : BinFileMap}

/-! ## The size -/

/-- The size of the bin file of at most 102 blocks is right. -/
theorem binFileSize_eq (h : blocksCount.toNat ≤ 102) :
    nodeGetBinFileSize blocksCount = blocksCount.toNat * BLOCK_SIZE := by
  have hoff : blockOffset blocksCount = blocksCount.toNat * BLOCK_SIZE := by
    unfold blockOffset BLOCK_SIZE
    rw [Int.bmod_eq_of_le] <;> omega
  have hlt : (blocksCount.toNat * BLOCK_SIZE : ℤ) < 2 ^ 64 := by
    unfold BLOCK_SIZE
    omega
  rw [nodeGetBinFileSize, hoff, Int.emod_eq_of_lt (by unfold BLOCK_SIZE; omega) hlt, ← Int.natCast_mul,
    Int.toNat_natCast]

/-- With more blocks it is not: the product does not fit in an `int`. -/
theorem binFileSize_ne (h : 102 < blocksCount.toNat) :
    nodeGetBinFileSize blocksCount ≠ blocksCount.toNat * BLOCK_SIZE := by
  have hlt : blocksCount.toNat < 2 ^ 16 := blocksCount.toNat_lt
  have hlow : -2 ^ 31 ≤ blockOffset blocksCount := Int.le_bmod (by omega)
  have hhigh : blockOffset blocksCount < 2 ^ 31 := Int.bmod_lt (by omega)
  have hbig : 2 ^ 31 ≤ blocksCount.toNat * BLOCK_SIZE := by
    unfold BLOCK_SIZE
    omega
  have hfit : blocksCount.toNat * BLOCK_SIZE < 2 ^ 64 - 2 ^ 31 := by
    unfold BLOCK_SIZE
    omega
  intro heq
  have hmod : blockOffset blocksCount % 2 ^ 64 = blocksCount.toNat * BLOCK_SIZE := by
    rw [← Int.natCast_mul, ← heq, nodeGetBinFileSize, Int.toNat_of_nonneg (Int.emod_nonneg _ (by simp))]
  omega

/-- What is mapped in a node that starts. -/
theorem nodeInit_map (h : nodeInit sys newNode blocksCount = some binFileMap) : binFileMap =
    if nodeGetBinFileSize blocksCount ≠ 0 ∧ sys.mmaps (nodeGetBinFileSize blocksCount) then
      some (nodeGetBinFileSize blocksCount) else none := by
  unfold nodeInit at h
  dsimp only at h
  split at h
  · cases h
  split at h
  · cases h
  split at h
  · cases h
  split at h
  · exact (Option.some.inj h).symm
  · cases h

/-! ## The blocks -/

/-- At most 102 blocks lie in a row. -/
theorem blockAddresses_of_le (h : blocksCount.toNat ≤ 102)
    (hmap : blocksCount = 0 ∨ binFileMap = some (blocksCount.toNat * BLOCK_SIZE)) :
      BlockAddresses binFileMap blocksCount := by
  have hoff : ∀ n : UInt16, n.toNat < blocksCount.toNat → blockOffset n = n.toNat * BLOCK_SIZE :=
    fun n hn => blockOffset_eq (by omega)
  refine ⟨fun n hn => ⟨?_, hoff n hn⟩, binFileSize_eq h, fun n k hn hk hne => ?_, fun n hn => ?_⟩
  · unfold BLOCK_SIZE
    omega
  · have hnat : n.toNat ≠ k.toNat := fun heq => hne (UInt16.toNat_inj.1 heq)
    rw [hoff n hn, hoff k hk]
    unfold BLOCK_SIZE
    omega
  · obtain rfl | hmap := hmap
    · exact absurd hn (Nat.not_lt_zero _)
    · rw [hoff n hn]
      refine ⟨_, hmap, ?_, ?_⟩ <;> unfold BLOCK_SIZE <;> omega

/-- **The addresses of the blocks of a node that starts** are right, exactly with at most
102 blocks and, if it has any, a file that was mapped. -/
theorem block_addresses (sys : System) (newNode : Bool) (blocksCount : UInt16) (binFileMap : BinFileMap)
    (h : nodeInit sys newNode blocksCount = some binFileMap) : BlockAddresses binFileMap blocksCount ↔
      blocksCount ≤ 102 ∧ (blocksCount = 0 ∨ sys.mmaps (blocksCount.toNat * BLOCK_SIZE) = true) := by
  have hmap := nodeInit_map h
  have hle : blocksCount ≤ 102 ↔ blocksCount.toNat ≤ 102 := UInt16.le_iff_toNat_le
  rw [hle]
  constructor
  · intro hB
    have hcount : blocksCount.toNat ≤ 102 := by
      by_contra hmore
      exact binFileSize_ne (by omega) hB.size
    refine ⟨hcount, ?_⟩
    by_cases hzero : blocksCount = 0
    · exact Or.inl hzero
    right
    have hpos : 0 < blocksCount.toNat := Nat.pos_of_ne_zero fun heq => hzero (UInt16.toNat_inj.1 heq)
    -- the first block is inside what was mapped
    obtain ⟨length, hlength, -⟩ := hB.inside 0 hpos
    rw [hlength, binFileSize_eq hcount] at hmap
    by_contra hfail
    rw [if_neg (fun hand => hfail hand.2)] at hmap
    cases hmap
  · rintro ⟨hcount, hmapped⟩
    refine blockAddresses_of_le hcount ?_
    rw [binFileSize_eq hcount] at hmap
    by_cases hzero : blocksCount = 0
    · exact Or.inl hzero
    right
    have hpos : 0 < blocksCount.toNat := Nat.pos_of_ne_zero fun heq => hzero (UInt16.toNat_inj.1 heq)
    have hsize : blocksCount.toNat * BLOCK_SIZE ≠ 0 := by
      unfold BLOCK_SIZE
      omega
    rw [hmap, if_pos ⟨hsize, hmapped.resolve_left hzero⟩]

/-- A system where every call succeeds, without a bin file. -/
def willing : System where
  binFile := none
  opens := true
  ftruncates := fun _ => true
  mmaps := fun _ => true
  initsLock := fun _ => true
  binFile_lt := fun _ h => by cases h

theorem willing_starts (blocksCount : UInt16) (h : 0 ≤ offT (nodeGetBinFileSize blocksCount)) :
    ∃ binFileMap, nodeInit willing true blocksCount = some binFileMap := by
  unfold nodeInit
  simp [willing, h]

/-- As many blocks as an `int` can address. -/
theorem block_addresses_full : ∃ binFileMap, nodeInit willing true 102 = some binFileMap ∧
    BlockAddresses binFileMap 102 := by
  obtain ⟨binFileMap, h⟩ := willing_starts 102 (by decide)
  exact ⟨binFileMap, h, (block_addresses _ _ _ _ h).2 ⟨by decide, Or.inr rfl⟩⟩

/-- **A node of 205 blocks** starts on a file of four megabytes, shorter than a block. -/
theorem short_bin_file : nodeInit willing true 205 = some (some (4 * 1024 * 1024)) ∧
    ∀ binFileMap, nodeInit willing true 205 = some binFileMap → ¬BlockAddresses binFileMap 205 := by
  have hsize : nodeGetBinFileSize 205 = 4 * 1024 * 1024 := by decide
  refine ⟨?_, fun binFileMap _ hB => ?_⟩
  · unfold nodeInit
    simp [willing, hsize]
    decide
  · exact binFileSize_ne (by decide) hB.size

end Mdfs.Nodo
