import Mdfs.FileSystem.Filesystem
import Mdfs.Lib.Wire
import Mdfs.Utils.Socket

/-!
# The FileSystem's reply to a request for blocks

`connections_marta_sendFileBlocks` of `connections_marta.c`. The reply lists for each
block of the file the copies on active nodes, each behind its lengths: 32 bits for the
id of a node, 16 for its ip and for the counts. A count of no blocks says that the file
is not there, or that a block has no active copy.

* `fileBlocksReply_available`, `fileBlocksReply_unavailable`: the reply in one piece.
-/

namespace Mdfs.FileSystem

open Lib Wire

/-- `node_connection_t`, without its socket. -/
structure NodeConnection where
  ip : CStr
  listenPort : UInt16
  deriving DecidableEq

/-- `connections_node_getActiveNodeConnection`. -/
abbrev ActiveNodes := CStr → Option NodeConnection

/-- What `listBlockCopies` adds to the buffer for a copy on an active node. -/
def serializeCopy (blockCopy : FileBlock) (nodeConnection : NodeConnection) : Packet :=
  let sNodeId := blockCopy.nodeId.length.toUInt32
  let sNodeIp := nodeConnection.ip.length.toUInt16
  be32 sNodeId ++ blockCopy.nodeId.take sNodeId.toNat ++ be16 sNodeIp ++ nodeConnection.ip.take sNodeIp.toNat ++
    be16 nodeConnection.listenPort ++ be16 blockCopy.blockIndex

/-- `listBlockCopies`, on the count of the copies and their buffer. -/
def listBlockCopies (active : ActiveNodes) (x : UInt16 × Packet) (blockCopy : FileBlock) : UInt16 × Packet :=
  match active blockCopy.nodeId with
  | some nodeConnection => (x.1 + 1, x.2 ++ serializeCopy blockCopy nodeConnection)
  | none => x

/-- `listBlocks`, on `fileAvailable` and the buffer. -/
def listBlocks (active : ActiveNodes) (x : Bool × Packet) (blockCopies : List FileBlock) : Bool × Packet :=
  if x.1 then
    let copies := blockCopies.foldl (listBlockCopies active) (0, [])
    if copies.1 = 0 then (false, x.2) else (true, x.2 ++ be16 copies.1 ++ copies.2)
  else x

/-- The reply for the file that was found, or for none. -/
def fileBlocksReply (active : ActiveNodes) : Option File → Packet
  | none => be16 0
  | some file =>
    let x := file.blocks.foldl (listBlocks active) (true, be16 file.blocks.length.toUInt16)
    if x.1 then x.2 else be16 0

/-- The path in a request. -/
def readFilePath : Reader CStr := do
  let _ ← u8
  let filePathName ← prefixed32
  pure (upToNul filePathName)

/-- `connections_marta_sendFileBlocks`: the reply it sends. -/
def connectionsMartaSendFileBlocks (active : ActiveNodes) (bufferReceived : Packet) : FsProg Packet :=
  match readFilePath.run bufferReceived with
  | none => .stop .crash
  | some (filePathName, _) => do
    let file ← filesystemResolveFilePath filePathName .root (cstr "/")
    pure (fileBlocksReply active file)

/-- The active copies of a block, with their connections. -/
def activeCopies (active : ActiveNodes) (blockCopies : List FileBlock) : List (FileBlock × NodeConnection) :=
  blockCopies.filterMap fun blockCopy => (active blockCopy.nodeId).map (Prod.mk blockCopy)

/-- A block in the reply. -/
def serializeBlock (active : ActiveNodes) (blockCopies : List FileBlock) : Packet :=
  let copies := activeCopies active blockCopies
  be16 copies.length.toUInt16 ++ copies.flatMap fun x => serializeCopy x.1 x.2

variable {active : ActiveNodes} {blocks : List (List FileBlock)}

theorem activeCopies_cons (blockCopy : FileBlock) (blockCopies : List FileBlock) :
    activeCopies active (blockCopy :: blockCopies) =
      ((active blockCopy.nodeId).map (Prod.mk blockCopy)).toList ++ activeCopies active blockCopies := by
  unfold activeCopies
  rw [List.filterMap_cons]
  cases active blockCopy.nodeId <;> rfl

theorem length_activeCopies_le (blockCopies : List FileBlock) :
    (activeCopies active blockCopies).length ≤ blockCopies.length := List.length_filterMap_le _ _

/-- **The copies of a block**: the active ones, counted. -/
theorem listBlockCopies_eq (blockCopies : List FileBlock) (count : UInt16) (buffer : Packet) :
    blockCopies.foldl (listBlockCopies active) (count, buffer) =
      (count + (activeCopies active blockCopies).length.toUInt16,
        buffer ++ (activeCopies active blockCopies).flatMap fun x => serializeCopy x.1 x.2) := by
  induction blockCopies generalizing count buffer with
  | nil => simp [activeCopies]
  | cons blockCopy blockCopies ih =>
    rw [List.foldl_cons, activeCopies_cons, listBlockCopies]
    cases active blockCopy.nodeId with
    | none => exact ih count buffer
    | some nodeConnection =>
      have hcount : ((activeCopies active blockCopies).length + 1).toUInt16 =
          1 + (activeCopies active blockCopies).length.toUInt16 := by
        simp only [Nat.toUInt16_eq]
        rw [Nat.add_comm, UInt16.ofNat_add]
        rfl
      rw [ih]
      simp only [Option.map_some, Option.toList_some, List.singleton_append, List.length_cons,
        List.flatMap_cons, hcount,
        List.append_assoc, UInt16.add_assoc]

/-- One block of the reply. -/
theorem listBlocks_eq {blockCopies : List FileBlock} (hlen : blockCopies.length < 2 ^ 16) (buffer : Packet) :
    listBlocks active (true, buffer) blockCopies =
      if activeCopies active blockCopies = [] then (false, buffer)
      else (true, buffer ++ serializeBlock active blockCopies) := by
  have hle : (activeCopies active blockCopies).length ≤ blockCopies.length := length_activeCopies_le blockCopies
  have hcast : (activeCopies active blockCopies).length.toUInt16.toNat = (activeCopies active blockCopies).length :=
    toNat_toUInt16 (by omega)
  have hzero : (activeCopies active blockCopies).length.toUInt16 = 0 ↔ activeCopies active blockCopies = [] := by
    have hnat := UInt16.toNat_inj (a := (activeCopies active blockCopies).length.toUInt16) (b := 0)
    rw [hcast] at hnat
    rw [← hnat, ← List.length_eq_zero_iff]
    rfl
  simp only [listBlocks, if_true, listBlockCopies_eq, UInt16.zero_add, hzero, List.nil_append, serializeBlock,
    List.append_assoc]

/-- A file that is not available stays so. -/
theorem listBlocks_unavailable (buffer : Packet) :
    blocks.foldl (listBlocks active) (false, buffer) = (false, buffer) := by
  induction blocks with
  | nil => rfl
  | cons blockCopies blocks ih => exact ih

/-- Every block has a copy on an active node. -/
def Available (active : ActiveNodes) (blocks : List (List FileBlock)) : Prop :=
  ∀ blockCopies ∈ blocks, activeCopies active blockCopies ≠ []

/-- **The blocks of a file**, when each has an active copy. -/
theorem listBlocks_available (hlen : ∀ blockCopies ∈ blocks, blockCopies.length < 2 ^ 16) (h : Available active blocks)
    (buffer : Packet) : blocks.foldl (listBlocks active) (true, buffer) =
      (true, buffer ++ blocks.flatMap (serializeBlock active)) := by
  induction blocks generalizing buffer with
  | nil => simp
  | cons blockCopies blocks ih =>
    have hblock := h blockCopies List.mem_cons_self
    have hrest := ih (fun b hb => hlen b (List.mem_cons_of_mem _ hb)) (fun b hb => h b (List.mem_cons_of_mem _ hb))
    rw [List.foldl_cons, listBlocks_eq (hlen blockCopies List.mem_cons_self), if_neg hblock, hrest, List.flatMap_cons,
      List.append_assoc]

/-- **The blocks of a file**, when one has no active copy. -/
theorem listBlocks_missing (hlen : ∀ blockCopies ∈ blocks, blockCopies.length < 2 ^ 16) (h : ¬Available active blocks)
    (buffer : Packet) : (blocks.foldl (listBlocks active) (true, buffer)).1 = false := by
  induction blocks generalizing buffer with
  | nil => exact (h fun b hb => by cases hb).elim
  | cons blockCopies blocks ih =>
    rw [List.foldl_cons, listBlocks_eq (hlen blockCopies List.mem_cons_self)]
    by_cases hblock : activeCopies active blockCopies = []
    · rw [if_pos hblock, listBlocks_unavailable]
    · rw [if_neg hblock]
      refine ih (fun b hb => hlen b (List.mem_cons_of_mem _ hb)) (fun hall => h fun b hb => ?_) _
      rcases List.mem_cons.1 hb with rfl | hb
      · exact hblock
      · exact hall b hb

variable {file : File}

theorem fileBlocksReply_available (hlen : ∀ blockCopies ∈ file.blocks, blockCopies.length < 2 ^ 16)
    (h : Available active file.blocks) : fileBlocksReply active (some file) =
      be16 file.blocks.length.toUInt16 ++ file.blocks.flatMap (serializeBlock active) := by
  rw [fileBlocksReply, listBlocks_available hlen h]
  rfl

theorem fileBlocksReply_unavailable (hlen : ∀ blockCopies ∈ file.blocks, blockCopies.length < 2 ^ 16)
    (h : ¬Available active file.blocks) : fileBlocksReply active (some file) = be16 0 := by
  have hmissing := listBlocks_missing hlen h (be16 file.blocks.length.toUInt16)
  simp only [fileBlocksReply, hmissing]
  rfl

end Mdfs.FileSystem
