import Mdfs.FileSystem.MartaConnection
import Mdfs.MaRTA.FSConnection
import Mdfs.MaRTA.JobConnection
import Mdfs.MaRTA.Planning

/-!
# The blocks of a file, from the FileSystem to MaRTA

The reply that `connections_marta_sendFileBlocks` builds and the loops of
`requestFileBlocks` that read it. The number of blocks doubles as the mark of a file that
is not available, so the reply is read back for files of one block at least.

* `reads_fileBlocks`: what is read is what was listed, to the end of the reply.
* `blocks_agreed`: and the file and the registry of MaRTA become what it says.
-/

namespace Mdfs

open Lib Wire FileSystem

/-- The copies of a block on active nodes, as MaRTA gets them. -/
def listedCopies (active : ActiveNodes) (blockCopies : List FileBlock) : List MaRTA.FsCopy :=
  (activeCopies active blockCopies).map fun x => ⟨x.1.nodeId, x.2.ip, x.2.listenPort, x.1.blockIndex⟩

/-- **A file that can be listed**: it has blocks, and its numbers and strings fit the
fields of the reply. -/
structure Listable (active : ActiveNodes) (file : File) : Prop where
  blocks_ne : file.blocks ≠ []
  blocks_lt : file.blocks.length < 2 ^ 16
  copies_lt : ∀ blockCopies ∈ file.blocks, blockCopies.length < 2 ^ 16
  nodeId : ∀ blockCopies ∈ file.blocks, ∀ copy ∈ blockCopies, 0 ∉ copy.nodeId ∧ copy.nodeId.length < 2 ^ 32
  ip : ∀ nodeId nodeConnection, active nodeId = some nodeConnection → MaRTA.Short nodeConnection.ip

variable {active : ActiveNodes} {file : File} {blockCopies : List FileBlock} {copy : FileBlock}
  {nodeConnection : NodeConnection}

/-- **One copy**, as the FileSystem writes it and MaRTA reads it. -/
theorem reads_copy (hclean : 0 ∉ copy.nodeId) (hlen : copy.nodeId.length < 2 ^ 32)
    (hip : MaRTA.Short nodeConnection.ip) :
    Reads MaRTA.readCopy (serializeCopy copy nodeConnection)
      ⟨copy.nodeId, nodeConnection.ip, nodeConnection.listenPort, copy.blockIndex⟩ := by
  have hid : copy.nodeId.take copy.nodeId.length.toUInt32.toNat = copy.nodeId := by
    rw [toNat_toUInt32 hlen, List.take_length]
  have hpacket : serializeCopy copy nodeConnection = (be32 copy.nodeId.length.toUInt32 ++ copy.nodeId) ++
      ((be16 nodeConnection.ip.length.toUInt16 ++ nodeConnection.ip) ++
        (be16 nodeConnection.listenPort ++ be16 copy.blockIndex)) := by
    simp only [serializeCopy, hid, hip.take, List.append_assoc]
  rw [hpacket]
  unfold MaRTA.readCopy
  apply reads_bind (reads_prefixed32 hlen)
  apply reads_bind (reads_prefixed16 hip.length_lt)
  apply reads_bind (reads_u16 nodeConnection.listenPort)
  apply reads_map (reads_u16 copy.blockIndex)
  rw [upToNul_eq hclean, upToNul_eq hip.clean]

/-- A list that grows by the images of another, one by one. -/
theorem foldl_concat {α β : Type} (f : α → β) (xs : List α) (ys : List β) :
    xs.foldl (fun ys x => ys ++ [f x]) ys = ys ++ xs.map f := by
  induction xs generalizing ys with
  | nil => simp
  | cons x xs ih => rw [List.foldl_cons, ih, List.map_cons, List.append_assoc, List.singleton_append]

/-- **The copies of a block.** -/
theorem reads_copies (hlen : blockCopies.length < 2 ^ 16)
    (hid : ∀ copy ∈ blockCopies, 0 ∉ copy.nodeId ∧ copy.nodeId.length < 2 ^ 32)
    (hip : ∀ nodeId nodeConnection, active nodeId = some nodeConnection → MaRTA.Short nodeConnection.ip) :
    Reads MaRTA.readCopies (serializeBlock active blockCopies) (listedCopies active blockCopies) := by
  have hle : (activeCopies active blockCopies).length ≤ blockCopies.length := length_activeCopies_le blockCopies
  have hcount := toNat_toUInt16 (show (activeCopies active blockCopies).length < 2 ^ 16 by omega)
  unfold MaRTA.readCopies serializeBlock
  apply reads_bind (reads_u16 _)
  rw [hcount]
  have hloop := foldl_concat (fun x : FileBlock × NodeConnection =>
    (⟨x.1.nodeId, x.2.ip, x.2.listenPort, x.1.blockIndex⟩ : MaRTA.FsCopy)) (activeCopies active blockCopies) []
  rw [List.nil_append] at hloop
  rw [listedCopies, ← hloop]
  apply reads_foldlM _ _ List.length_range
  intro copies _ x hx
  obtain ⟨copy, hcopy, hx⟩ := List.mem_filterMap.1 hx
  obtain ⟨nodeConnection, hactive, rfl⟩ := Option.map_eq_some_iff.1 hx
  obtain ⟨hclean, hidlen⟩ := hid copy hcopy
  exact reads_map (reads_copy hclean hidlen (hip _ _ hactive)) rfl

/-- **The reply is read back**, to its end. -/
theorem reads_fileBlocks (h : Listable active file) (hactive : Available active file.blocks) :
    MaRTA.readFileBlocks.run (fileBlocksReply active (some file)) =
      some (file.blocks.map (listedCopies active), []) := by
  rw [fileBlocksReply_available h.copies_lt hactive]
  apply Reads.run
  unfold MaRTA.readFileBlocks
  apply reads_bind (reads_u16 _)
  rw [toNat_toUInt16 h.blocks_lt]
  have hloop := foldl_concat (listedCopies active) file.blocks []
  rw [List.nil_append] at hloop
  rw [← hloop]
  apply reads_foldlM _ _ List.length_range
  intro blocks _ blockCopies hblock
  exact reads_map (reads_copies (h.copies_lt _ hblock) (h.nodeId _ hblock) h.ip) rfl

/-- The mark of a file that is not available. -/
theorem reads_unavailable (h : Listable active file) (hmissing : ¬Available active file.blocks) :
    MaRTA.readFileBlocks.run (fileBlocksReply active (some file)) = some ([], []) := by
  rw [fileBlocksReply_unavailable h.copies_lt hmissing]
  rfl

/-! ## The request and the registry -/

/-- The FileSystem looks for the file at the path that was sent. -/
theorem sendFileBlocks_request {path : CStr} (hclean : 0 ∉ path) (hlen : path.length < 2 ^ 32) :
    connectionsMartaSendFileBlocks active (MaRTA.FSOperation.fileBlocks path).packet = (do
      let found ← filesystemResolveFilePath path .root (cstr "/")
      pure (fileBlocksReply active found)) := by
  have hpath : path.take path.length.toUInt32.toNat = path := by rw [toNat_toUInt32 hlen, List.take_length]
  have hpacket : (MaRTA.FSOperation.fileBlocks path).packet =
      [MaRTA.COMMAND_MARTA_TO_FS_GET_FILE_BLOCKS] ++ (be32 path.length.toUInt32 ++ path) := by
    simp only [MaRTA.FSOperation.packet, hpath, List.append_assoc]
  have hread : Reads readFilePath (MaRTA.FSOperation.fileBlocks path).packet path := by
    rw [hpacket]
    unfold readFilePath
    apply reads_bind (reads_u8 _)
    apply reads_map (reads_prefixed32 hlen)
    rw [upToNul_eq hclean]
  unfold connectionsMartaSendFileBlocks
  rw [hread.run]

/-- `updateNodes` on the copies of a reply. -/
def MaRTA.updateAll (nodes : List MaRTA.Node) (copies : List MaRTA.FsCopy) : List MaRTA.Node :=
  copies.foldl (fun nodes c => MaRTA.updateNodes nodes c.nodeId c.nodeIp c.nodePort) nodes

/-- The loop of `updateNodes`, on its own. -/
theorem exec_updateNodes {α : Type} (a : α) (t : ℕ) (copies : List MaRTA.FsCopy) (w : MaRTA.World)
    {inputs : List MaRTA.Choice} (hlen : copies.length ≤ inputs.length) :
    (Prog.iterate (fun c : MaRTA.FsCopy => MaRTA.request (.updateNodes c.nodeId c.nodeIp c.nodePort)) copies >>=
        fun _ => (pure a : MaRTA.JobProg α)).exec (MaRTA.serve t) w inputs =
      some (.ok a, { w with nodes := MaRTA.updateAll w.nodes copies }) := by
  induction copies generalizing w inputs with
  | nil => rfl
  | cons c copies ih =>
    cases inputs with
    | nil => cases hlen
    | cons i inputs =>
      have hrest : copies.length ≤ inputs.length := by simpa using hlen
      exact ih { w with nodes := MaRTA.updateNodes w.nodes c.nodeId c.nodeIp c.nodePort } hrest

/-- **`requestFileBlocks`** as it takes a reply that it reads to the end: the nodes one by one, then
the blocks. -/
theorem exec_requestFileBlocks (site : MaRTA.Site) (f : MaRTA.File) (t : ℕ) (w : MaRTA.World)
    {buffer : Packet} {blocks : List (List MaRTA.FsCopy)} {inputs : List MaRTA.Choice}
    (hread : MaRTA.readFileBlocks.run buffer = some (blocks, [])) (hlen : blocks.flatten.length ≤ inputs.length) :
    ∃ w', (MaRTA.requestFileBlocks site f).exec (MaRTA.serve t) w (.replied buffer :: inputs) =
        some (.ok ({ f with blocks := f.blocks ++ blocks.map fun copies => copies.map MaRTA.FsCopy.copy },
          blocks ≠ []), w') ∧
      w'.nodes = MaRTA.updateAll w.nodes blocks.flatten := by
  obtain rfl : MaRTA.fileBlocksOf buffer = blocks := by
    unfold MaRTA.fileBlocksOf
    rw [hread]
    rfl
  set blocks := MaRTA.fileBlocksOf buffer
  have hexec := exec_updateNodes
    (({ f with blocks := f.blocks ++ blocks.map fun copies => copies.map MaRTA.FsCopy.copy }, decide (blocks ≠ [])) :
      MaRTA.File × Bool) t blocks.flatten (w.say t fun l => l.blocksGot site blocks) hlen
  rw [← Prog.iterate_flatten] at hexec
  exact ⟨_, hexec, rfl⟩

/-- The copies of a block, as they stand in a `t_file`. -/
theorem copies_listed (blockCopies : List FileBlock) : (listedCopies active blockCopies).map MaRTA.FsCopy.copy =
    (activeCopies active blockCopies).map fun x => ⟨x.1.nodeId, x.1.blockIndex⟩ := by
  rw [listedCopies, List.map_map]
  rfl

/-- **The FileSystem and MaRTA agree on the blocks of a file.** The reply is read to its
end and no further. `requestFileBlocks`, when it gets the reply, gets the active copies of each
block, in order, or that a block has none. -/
theorem blocks_agreed {f : MaRTA.File} (hf : f.blocks = []) (hclean : 0 ∉ f.path) (hlen : f.path.length < 2 ^ 32)
    (h : Listable active file) (site : MaRTA.Site) (t : ℕ) (w : MaRTA.World) (inputs : List MaRTA.Choice) :
    connectionsMartaSendFileBlocks active (MaRTA.FSOperation.fileBlocks f.path).packet = (do
        let found ← filesystemResolveFilePath f.path .root (cstr "/")
        pure (fileBlocksReply active found)) ∧
      (Available active file.blocks →
        (file.blocks.map (listedCopies active)).flatten.length ≤ inputs.length →
        MaRTA.readFileBlocks.run (fileBlocksReply active (some file)) =
          some (file.blocks.map (listedCopies active), []) ∧
        ∃ w', (MaRTA.requestFileBlocks site f).exec (MaRTA.serve t) w
              (.replied (fileBlocksReply active (some file)) :: inputs) =
            some (.ok (⟨f.path, file.blocks.map fun blockCopies =>
              (activeCopies active blockCopies).map fun x => ⟨x.1.nodeId, x.1.blockIndex⟩⟩, true), w') ∧
          w'.nodes = MaRTA.updateAll w.nodes (file.blocks.map (listedCopies active)).flatten) ∧
      (¬Available active file.blocks →
        MaRTA.readFileBlocks.run (fileBlocksReply active (some file)) = some ([], []) ∧
        ∃ w', (MaRTA.requestFileBlocks site f).exec (MaRTA.serve t) w
              (.replied (fileBlocksReply active (some file)) :: inputs) =
            some (.ok (f, false), w') ∧
          w'.nodes = w.nodes) := by
  refine ⟨sendFileBlocks_request hclean hlen, fun hactive hinputs => ⟨reads_fileBlocks h hactive, ?_⟩,
    fun hmissing => ⟨reads_unavailable h hmissing, ?_⟩⟩
  · obtain ⟨w', hexec, hnodes⟩ := exec_requestFileBlocks site f t w (reads_fileBlocks h hactive) hinputs
    have hne : file.blocks.map (listedCopies active) ≠ [] := by
      rw [Ne, List.map_eq_nil_iff]
      exact h.blocks_ne
    refine ⟨w', ?_, hnodes⟩
    -- the blocks are appended to those of the file, which had none
    rw [hexec, hf, List.nil_append, List.map_map, decide_eq_true hne]
    simp only [Function.comp_def, copies_listed]
  · obtain ⟨w', hexec, hnodes⟩ :=
      exec_requestFileBlocks site f t w (reads_unavailable h hmissing) (Nat.zero_le inputs.length)
    refine ⟨w', ?_, hnodes⟩
    rw [hexec]
    simp

/-- One node is up. -/
def onlyA : ActiveNodes := fun nodeId => if nodeId = cstr "A" then some ⟨cstr "10.0.0.1", 3000⟩ else none

theorem short_onlyA (nodeId : CStr) (nodeConnection : NodeConnection) (h : onlyA nodeId = some nodeConnection) :
    MaRTA.Short nodeConnection.ip := by
  unfold onlyA at h
  split at h
  · have hip := Option.some.inj h
    rw [← hip]
    decide
  · cases h

/-- Two blocks; the second one is on a node that is down, too. -/
def twoBlocks : File where
  id := .root
  parentId := .root
  name := cstr "f"
  size := 9
  blocks := [[⟨cstr "A", 4⟩], [⟨cstr "B", 0⟩, ⟨cstr "A", 7⟩]]

theorem blocks_agreed_twoBlocks : ∃ w', (MaRTA.requestFileBlocks .plan ⟨cstr "/f", []⟩).exec (MaRTA.serve 0)
      ⟨[], fun _ => .start⟩ (.replied (fileBlocksReply onlyA (some twoBlocks)) :: List.replicate 2 .done) =
    some (.ok (⟨cstr "/f", [[⟨cstr "A", 4⟩], [⟨cstr "A", 7⟩]]⟩, true), w') := by
  have hlistable : Listable onlyA twoBlocks :=
    ⟨by decide, by decide, by decide, by decide, short_onlyA⟩
  have hactive : Available onlyA twoBlocks.blocks := by
    unfold Available
    decide
  have hagreed := blocks_agreed (f := ⟨cstr "/f", []⟩) rfl (by decide) (by decide) hlistable .plan 0
    ⟨[], fun _ => .start⟩ (List.replicate 2 .done)
  obtain ⟨-, w', hexec, -⟩ := hagreed.2.1 hactive (by decide)
  exact ⟨w', hexec⟩

end Mdfs
