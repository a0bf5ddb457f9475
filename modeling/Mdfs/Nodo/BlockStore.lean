import Mdfs.Lib.Memory
import Mdfs.Lib.Wire
import Mdfs.Utils.Commons
import Mdfs.Utils.Socket

/-!
# The block store of a node

`node_getBlock` and `node_setBlockFromPacket` of `node.c` on the mapped bin file,
and the loop of `connections_fs.c` that serves the requests of the FileSystem. The
bin file is at address 0 of a memory that goes on before and after it.

A block is set with a terminator behind it and read back up to its terminator,
which fits in the block only when the data is shorter than the block.

* `block_store_holds`: the last data set in each block is what is read back, and no set
  touches another block, exactly when no data is as long as a block.
-/

namespace Mdfs.Nodo

open Lib Wire

def BLOCK_SIZE : ℕ := 20 * 1024 * 1024
def COMMAND_FS_TO_NODE_SET_BLOCK : UInt8 := 1
def COMMAND_FS_TO_NODE_GET_BLOCK : UInt8 := 2
def COMMAND_NODE_GET_TMP_FILE_CONTENT : UInt8 := 3
def COMMAND_NODE_CHECK_ALIVE : UInt8 := 4

/-! ## `node.c` -/

/-- `numBlock * BLOCK_SIZE`, computed in an `int`. -/
def blockOffset (numBlock : UInt16) : ℤ := Int.bmod (numBlock.toNat * BLOCK_SIZE) (2 ^ 32)

/-- `node_getBlock`: a copy of the whole block, without a terminator. -/
def nodeGetBlock (binFileMap : Memory) (numBlock : UInt16) : List UInt8 :=
  binFileMap.read (blockOffset numBlock) BLOCK_SIZE

/-- `node_setBlockFromPacket`: the packet is received in place, and terminated. -/
def nodeSetBlockFromPacket (binFileMap : Memory) (numBlock : UInt16) (packet : Packet) : Memory :=
  (binFileMap.write (blockOffset numBlock) packet).write (blockOffset numBlock + packet.length) [0]

/-! ## `connections_fs.c` -/

/-- The number of a block, after the command. -/
def numBlockOf (buffer : Packet) : Option UInt16 :=
  ((do
    let _ ← u8
    u16 : Reader UInt16).run buffer).map Prod.fst

/-- `connections_fs_deserializeGetBlock`: the block up to its terminator; `none`
when `strlen` finds none inside the copied block. -/
def connectionsFsDeserializeGetBlock (binFileMap : Memory) (numBlock : UInt16) : Option Packet :=
  let blockData := nodeGetBlock binFileMap numBlock
  if 0 ∈ blockData then some (upToNul blockData) else none

/-- `connections_fs_listenActions` on the packets received: the bin file, and the
replies to the requests for a block. The content of a tmp file is not in the bin
file. A packet shorter than its header is read past its end. -/
def connectionsFsListenActions (binFileMap : Memory) : List Packet → Memory × List (Option Packet)
  | [] => (binFileMap, [])
  | buffer :: packets =>
    if buffer.head? = some COMMAND_FS_TO_NODE_SET_BLOCK then
      match numBlockOf buffer, packets with
      | some numBlock, packet :: packets =>
        connectionsFsListenActions (nodeSetBlockFromPacket binFileMap numBlock packet) packets
      | _, _ => (binFileMap, [])
    else if buffer.head? = some COMMAND_FS_TO_NODE_GET_BLOCK then
      match numBlockOf buffer with
      | some numBlock =>
        let x := connectionsFsListenActions binFileMap packets
        (x.1, connectionsFsDeserializeGetBlock binFileMap numBlock :: x.2)
      | none => (binFileMap, [])
    else connectionsFsListenActions binFileMap packets

/-- The packets of a `SET_BLOCK`: the command and the number, then the data. -/
def setBlockPackets (s : UInt16 × Packet) : List Packet := [COMMAND_FS_TO_NODE_SET_BLOCK :: be16 s.1, s.2]

/-- The packet of a `GET_BLOCK`. -/
def getBlockPacket (numBlock : UInt16) : Packet := COMMAND_FS_TO_NODE_GET_BLOCK :: be16 numBlock

/-! ## What the store is for -/

/-- The data last set in a block; empty when none was. -/
def lastSet (sets : List (UInt16 × Packet)) (n : UInt16) : Packet :=
  sets.foldl (fun data s => if s.1 = n then s.2 else data) []

/-- The bin file after the packets of `sets`. -/
def stored (binFileMap : Memory) (sets : List (UInt16 × Packet)) : Memory :=
  (connectionsFsListenActions binFileMap (sets.flatMap setBlockPackets)).1

/-- The addresses of a block. -/
def InBlock (n : UInt16) (a : ℤ) : Prop := n.toNat * BLOCK_SIZE ≤ a ∧ a < (n.toNat + 1) * BLOCK_SIZE

/-- **The block store**, over a sequence of sets: at every point, a block is
answered with the data last set in it, and a set changes no byte outside its block. -/
structure Holds (binFileMap : Memory) (blocksCount : ℕ) (sets : List (UInt16 × Packet)) : Prop where
  answers : ∀ done, done <+: sets → ∀ n : UInt16, n.toNat < blocksCount →
    (connectionsFsListenActions binFileMap (done.flatMap setBlockPackets ++ [getBlockPacket n])).2 =
      [some (lastSet done n)]
  frame : ∀ done s, done ++ [s] <+: sets → ∀ a, ¬InBlock s.1 a →
    stored binFileMap (done ++ [s]) a = stored binFileMap done a

/-! ## The loop -/

theorem numBlockOf_eq (c : UInt8) (n : UInt16) : numBlockOf (c :: be16 n) = some n := by
  have h : Reads (do
      let _ ← u8
      u16) ([c] ++ be16 n) n := reads_bind (reads_u8 c) (reads_u16 n)
  have hrun := h.run
  rw [List.singleton_append] at hrun
  rw [numBlockOf, hrun, Option.map_some]

variable {m : Memory} {sets done : List (UInt16 × Packet)} {n : UInt16} {data : Packet} {blocksCount : ℕ}

theorem listen_set (packet : Packet) (packets : List Packet) :
    connectionsFsListenActions m ((COMMAND_FS_TO_NODE_SET_BLOCK :: be16 n) :: packet :: packets) =
      connectionsFsListenActions (nodeSetBlockFromPacket m n packet) packets := by
  simp [connectionsFsListenActions, numBlockOf_eq]

/-- The packets of sets are served one set after the other. -/
theorem listen_sets (packets : List Packet) : connectionsFsListenActions m (sets.flatMap setBlockPackets ++ packets) =
    connectionsFsListenActions (sets.foldl (fun m s => nodeSetBlockFromPacket m s.1 s.2) m) packets := by
  induction sets generalizing m with
  | nil => rfl
  | cons s sets ih =>
    rw [List.flatMap_cons, List.append_assoc, List.foldl_cons, ← ih]
    simp only [setBlockPackets, List.cons_append, List.nil_append]
    exact listen_set s.2 _

theorem stored_eq : stored m sets = sets.foldl (fun m s => nodeSetBlockFromPacket m s.1 s.2) m := by
  have h : connectionsFsListenActions m (sets.flatMap setBlockPackets ++ []) = _ := listen_sets []
  rw [List.append_nil] at h
  rw [stored, h]
  rfl

theorem stored_append (s : UInt16 × Packet) :
    stored m (done ++ [s]) = nodeSetBlockFromPacket (stored m done) s.1 s.2 := by
  rw [stored_eq, stored_eq, List.foldl_append, List.foldl_cons, List.foldl_nil]

theorem listen_get : (connectionsFsListenActions m (sets.flatMap setBlockPackets ++ [getBlockPacket n])).2 =
    [connectionsFsDeserializeGetBlock (stored m sets) n] := by
  rw [listen_sets, ← stored_eq, getBlockPacket]
  simp [connectionsFsListenActions, numBlockOf_eq, COMMAND_FS_TO_NODE_GET_BLOCK, COMMAND_FS_TO_NODE_SET_BLOCK]

theorem lastSet_append (s : UInt16 × Packet) :
    lastSet (done ++ [s]) n = if s.1 = n then s.2 else lastSet done n := by
  rw [lastSet, List.foldl_append, List.foldl_cons, List.foldl_nil]
  rfl

/-! ## Blocks in memory -/

/-- With at most 102 blocks, offsets fit in an `int`. -/
theorem blockOffset_eq (h : n.toNat < 102) : blockOffset n = n.toNat * BLOCK_SIZE := by
  unfold blockOffset BLOCK_SIZE
  rw [Int.bmod_eq_of_le] <;> omega

/-- A set is one write: the data and its terminator. -/
theorem nodeSet_eq : nodeSetBlockFromPacket m n data = m.write (blockOffset n) (data ++ [0]) := by
  rw [nodeSetBlockFromPacket, Memory.write_append]

/-- The string `data` at the start of block `n`. -/
def StringAt (m : Memory) (n : UInt16) (data : Packet) : Prop :=
  m.read (blockOffset n) (data.length + 1) = data ++ [0]

/-- **A terminated string in a block is what is answered.** -/
theorem answer_of_stringAt (h : StringAt m n data) (hlen : data.length < BLOCK_SIZE) (h0 : 0 ∉ data) :
    connectionsFsDeserializeGetBlock m n = some data := by
  have hsize : BLOCK_SIZE = (data.length + 1) + (BLOCK_SIZE - (data.length + 1)) := by omega
  have hblock : nodeGetBlock m n = data ++ 0 :: m.read (blockOffset n + ↑(data.length + 1))
      (BLOCK_SIZE - (data.length + 1)) := by
    rw [nodeGetBlock, hsize, Memory.read_add, h, List.append_assoc, List.singleton_append, ← hsize]
  have hcut : upToNul (nodeGetBlock m n) = data := by
    rw [hblock, upToNul, List.takeWhile_append_of_pos]
    · simp
    · intro b hb
      simp only [ne_eq, decide_eq_true_eq]
      rintro rfl
      exact h0 hb
  rw [connectionsFsDeserializeGetBlock, if_pos (by rw [hblock]; simp), hcut]

/-- **A full block is answered without a terminator.** -/
theorem answer_of_full (hlen : data.length = BLOCK_SIZE) (h0 : 0 ∉ data) :
    connectionsFsDeserializeGetBlock (nodeSetBlockFromPacket m n data) n = none := by
  have hblock : nodeGetBlock (nodeSetBlockFromPacket m n data) n = data := by
    rw [nodeGetBlock, nodeSetBlockFromPacket, Memory.read_write_apart (by omega), ← hlen]
    exact Memory.read_write_self
  rw [connectionsFsDeserializeGetBlock, hblock, if_neg h0]

theorem stringAt_self : StringAt (nodeSetBlockFromPacket m n data) n data := by
  have h : (m.write (blockOffset n) (data ++ [0])).read (blockOffset n) (data ++ [0]).length = data ++ [0] :=
    Memory.read_write_self
  rw [List.length_append, List.length_singleton] at h
  rw [StringAt, nodeSet_eq, h]

/-- The terminator of a full block is the first byte of the block behind it. -/
theorem answer_behind_full {k : UInt16} (hn : n.toNat < 102) (hk : k.toNat < 102) (hnext : k.toNat = n.toNat + 1)
    (hlen : data.length = BLOCK_SIZE) :
    connectionsFsDeserializeGetBlock (nodeSetBlockFromPacket m n data) k = some [] := by
  have hoff : blockOffset k = blockOffset n + data.length := by
    rw [blockOffset_eq hk, blockOffset_eq hn, hlen, hnext]
    unfold BLOCK_SIZE
    omega
  have hstring : StringAt (nodeSetBlockFromPacket m n data) k [] := by
    rw [StringAt, nodeSetBlockFromPacket, hoff]
    have h : ∀ m : Memory, (m.write (blockOffset n + data.length) [0]).read (blockOffset n + data.length) 1 = [0] :=
      fun _ => Memory.read_write_self
    exact h _
  exact answer_of_stringAt hstring (by unfold BLOCK_SIZE; simp) (by simp)

/-- Data that fits with its terminator leaves the other blocks alone. -/
theorem StringAt.other {k : UInt16} {other : Packet} (h : StringAt m k other) (hk : k.toNat < 102)
    (hn : n.toNat < 102) (hne : n ≠ k) (hlen : data.length < BLOCK_SIZE) (hother : other.length < BLOCK_SIZE) :
    StringAt (nodeSetBlockFromPacket m n data) k other := by
  have hnat : n.toNat ≠ k.toNat := fun he => hne (UInt16.toNat_inj.1 he)
  unfold BLOCK_SIZE at hlen hother
  rw [StringAt, nodeSet_eq, Memory.read_write_apart, h]
  rw [blockOffset_eq hk, blockOffset_eq hn, List.length_append, List.length_singleton]
  unfold BLOCK_SIZE
  omega

/-! ## Sequences of sets -/

/-- Every block holds the data last set in it. -/
structure Kept (m : Memory) (blocksCount : ℕ) (done : List (UInt16 × Packet)) : Prop where
  string : ∀ n : UInt16, n.toNat < blocksCount → StringAt m n (lastSet done n)
  short : ∀ n, (lastSet done n).length < BLOCK_SIZE
  clean : ∀ n, 0 ∉ lastSet done n

theorem kept_stored (hcount : blocksCount ≤ 102) (hzero : ∀ a, 0 ≤ a → a < blocksCount * BLOCK_SIZE → m a = 0)
    (hvalid : ∀ s ∈ sets, s.1.toNat < blocksCount) (h0 : ∀ s ∈ sets, 0 ∉ s.2)
    (hshort : ∀ s ∈ sets, s.2.length < BLOCK_SIZE) : Kept (stored m sets) blocksCount sets := by
  induction sets using List.reverseRecOn with
  | nil =>
    refine ⟨fun n hn => ?_, fun n => by simp [lastSet, BLOCK_SIZE], fun n => by simp [lastSet]⟩
    have ha : m (blockOffset n) = 0 := by
      rw [blockOffset_eq (by omega)]
      unfold BLOCK_SIZE at hzero ⊢
      exact hzero _ (by omega) (by omega)
    rw [StringAt, stored_eq]
    simp [lastSet, Memory.read, ha]
  | append_singleton done s ih =>
    have hmem : s ∈ done ++ [s] := List.mem_append_right _ (List.mem_singleton_self s)
    have hK := ih (fun x hx => hvalid x (List.mem_append_left _ hx)) (fun x hx => h0 x (List.mem_append_left _ hx))
      fun x hx => hshort x (List.mem_append_left _ hx)
    have hs := hvalid s hmem
    refine ⟨fun n hn => ?_, fun n => ?_, fun n => ?_⟩
    · rw [stored_append, lastSet_append]
      split
      · rename_i he
        rw [← he]
        exact stringAt_self
      · rename_i hne
        -- the blocks are apart, so setting one leaves the string of another
        exact (hK.string n hn).other (by omega) (by omega) hne (hshort s hmem) (hK.short n)
    · rw [lastSet_append]
      split
      · exact hshort s hmem
      · exact hK.short n
    · rw [lastSet_append]
      split
      · exact h0 s hmem
      · exact hK.clean n

/-- **The store of a node.** Over every sequence of sets with data that has no zero
byte and fits in a block: what is last set is read back and no other byte changes,
exactly when every data is shorter than a block. -/
theorem block_store_holds (m : Memory) (blocksCount : ℕ) (sets : List (UInt16 × Packet)) (hcount : blocksCount ≤ 102)
    (hzero : ∀ a, 0 ≤ a → a < blocksCount * BLOCK_SIZE → m a = 0)
    (hvalid : ∀ s ∈ sets, s.1.toNat < blocksCount) (h0 : ∀ s ∈ sets, 0 ∉ s.2)
    (hfit : ∀ s ∈ sets, s.2.length ≤ BLOCK_SIZE) :
    Holds m blocksCount sets ↔ ∀ s ∈ sets, s.2.length < BLOCK_SIZE := by
  constructor
  · intro h s hs
    by_contra hlong
    have hlen : s.2.length = BLOCK_SIZE := by have := hfit s hs; omega
    obtain ⟨done, tail, rfl⟩ := List.append_of_mem hs
    -- right after the set, the block has no terminator
    have hget := h.answers (done ++ [s]) ⟨tail, by simp⟩ s.1 (hvalid s hs)
    rw [listen_get, stored_append, answer_of_full hlen (h0 s hs)] at hget
    simp at hget
  · intro hshort
    refine ⟨fun done hdone n hn => ?_, fun done s hdone a ha => ?_⟩
    · have hsub : ∀ s ∈ done, s ∈ sets := fun s hs => hdone.subset hs
      have hK := kept_stored hcount hzero (fun s hs => hvalid s (hsub s hs)) (fun s hs => h0 s (hsub s hs))
        fun s hs => hshort s (hsub s hs)
      rw [listen_get, answer_of_stringAt (hK.string n hn) (hK.short n) (hK.clean n)]
    · have hs : s ∈ sets := hdone.subset (List.mem_append_right _ (List.mem_singleton_self s))
      have hn := hvalid s hs
      have hlen := hshort s hs
      rw [stored_append, nodeSet_eq]
      refine Memory.write_off ?_
      rw [blockOffset_eq (by omega), List.length_append, List.length_singleton]
      unfold InBlock at ha
      unfold BLOCK_SIZE at ha hlen ⊢
      omega

/-- Two blocks set, and one of them again. -/
theorem block_store_three_sets : Holds (fun _ => 0) 2 [(0, cstr "one"), (1, cstr "two"), (0, cstr "three")] := by
  refine (block_store_holds _ 2 _ (by omega) (fun _ _ _ => rfl) (by decide) (by decide) ?_).2 ?_
  · unfold BLOCK_SIZE; decide
  · unfold BLOCK_SIZE; decide

/-- A block full of the letter `a`. -/
def fullBlock : Packet := List.replicate BLOCK_SIZE 97

/-- **A full block** is not read back, and it empties the block behind it. -/
theorem full_block_breaks : ¬Holds (fun _ => 0) 2 [(1, cstr "b"), (0, fullBlock)] ∧
    (connectionsFsListenActions (fun _ => 0)
      ([(1, cstr "b"), (0, fullBlock)].flatMap setBlockPackets ++ [getBlockPacket 1])).2 = [some []] := by
  have hlen : fullBlock.length = BLOCK_SIZE := List.length_replicate
  have h0 : 0 ∉ fullBlock := fun h => by simpa using List.eq_of_mem_replicate h
  have hsplit : [((1 : UInt16), cstr "b"), (0, fullBlock)] = [(1, cstr "b")] ++ [(0, fullBlock)] := rfl
  refine ⟨fun h => ?_, ?_⟩
  · have hget := h.answers _ (List.prefix_refl _) 0 (by decide)
    rw [listen_get, hsplit, stored_append, answer_of_full hlen h0] at hget
    simp at hget
  · rw [listen_get, hsplit, stored_append, answer_behind_full (by decide) (by decide) (by decide) hlen]

end Mdfs.Nodo
