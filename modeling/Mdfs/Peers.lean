import Mdfs.FileSystem.MartaConnection
import Mdfs.MaRTA.Amid
import Mdfs.MaRTA.FSConnection
import Mdfs.MaRTA.JobConnection

/-!
# What the FileSystem is told, and what it replies

A node that connects sends its configuration, and MaRTA sends where a final result is and under which
path it has to be stored. The FileSystem replies with one byte, or with two when it has failed: MaRTA
reads the second one only then, and ends the job for one reason.

* `reads_nodeInfo`, `reads_copyFinal`: the two packets, field by field.
* `amid_copyFinalTemporal`: what becomes of a job with the reply, whatever the other jobs do.
* `peers_decoded`: each packet is decoded as what was written into it.
-/

namespace Mdfs

open Lib Wire

/-! ## A node -/

/-- What `t_nodeCfg` holds for the FileSystem. -/
structure Nodo.NodeCfg where
  newNode : Bool
  blocksCount : UInt16
  listenPort : UInt16
  name : CStr
  deriving DecidableEq

/-- `connections_fs_sendInfo`: the packet it sends. -/
def Nodo.connectionsFsSendInfo (nodeConfig : Nodo.NodeCfg) : Packet :=
  let sName := nodeConfig.name.length.toUInt16
  [nodeConfig.newNode.toNat.toUInt8] ++ be16 nodeConfig.blocksCount ++ be16 nodeConfig.listenPort ++ be16 sName ++
    nodeConfig.name.take sName.toNat

/-- What `connections_node_accept` reads of a node. -/
structure FileSystem.NodeInfo where
  isNewNode : Bool
  blocksCount : UInt16
  listenPort : UInt16
  nodeId : CStr
  deriving DecidableEq

def FileSystem.readNodeInfo : Reader FileSystem.NodeInfo := do
  let isNewNode ← u8
  let blocksCount ← u16
  let listenPort ← u16
  let nodeId ← prefixed16
  pure ⟨isNewNode ≠ 0, blocksCount, listenPort, upToNul nodeId⟩

/-- The decoding in `connections_node_accept`; `none` when the packet is read past its end. -/
def FileSystem.connectionsNodeAccept (buffer : Packet) : Option FileSystem.NodeInfo :=
  (FileSystem.readNodeInfo.run buffer).map Prod.fst

theorem reads_nodeInfo {nodeConfig : Nodo.NodeCfg} (hname : MaRTA.Short nodeConfig.name) :
    Reads FileSystem.readNodeInfo (Nodo.connectionsFsSendInfo nodeConfig)
      ⟨nodeConfig.newNode, nodeConfig.blocksCount, nodeConfig.listenPort, nodeConfig.name⟩ := by
  have hpacket : Nodo.connectionsFsSendInfo nodeConfig = [nodeConfig.newNode.toNat.toUInt8] ++
    (be16 nodeConfig.blocksCount ++
      (be16 nodeConfig.listenPort ++ (be16 nodeConfig.name.length.toUInt16 ++ nodeConfig.name))) := by
    simp only [Nodo.connectionsFsSendInfo, hname.take, List.append_assoc]
  have hflag : (nodeConfig.newNode.toNat.toUInt8 ≠ 0 : Bool) = nodeConfig.newNode := by
    cases nodeConfig.newNode with
    | true => decide
    | false => decide
  rw [hpacket]
  unfold FileSystem.readNodeInfo
  apply reads_bind (reads_u8 nodeConfig.newNode.toNat.toUInt8)
  apply reads_bind (reads_u16 nodeConfig.blocksCount)
  apply reads_bind (reads_u16 nodeConfig.listenPort)
  apply reads_map (reads_prefixed16 hname.length_lt)
  rw [upToNul_eq hname.clean, hflag]

/-! ## A final result -/

/-- The request that `connections_marta_copyFinalResult` reads. -/
structure FileSystem.CopyFinal where
  nodeId : CStr
  resultFileName : CStr
  finalTmpName : CStr
  deriving DecidableEq

def FileSystem.readCopyFinal : Reader FileSystem.CopyFinal := do
  let _ ← u8
  let nodeId ← prefixed16
  let resultFileName ← prefixed16
  let finalTmpName ← cstring 60
  pure ⟨upToNul nodeId, upToNul resultFileName, finalTmpName⟩

/-- The reply: whether the file was copied, and if not the reason. -/
def FileSystem.copyFinalReply (result : Bool) (failReason : UInt8) : Packet := if result then [1] else [0, failReason]

/-- `connections_marta_copyFinalResult`: the reply it sends. -/
def FileSystem.connectionsMartaCopyFinalResult (sort : FileSystem.NodeSort) (bufferReceived : Packet) :
    FileSystem.FsProg Packet :=
  match FileSystem.readCopyFinal.run bufferReceived with
  | none => .stop .crash
  | some (x, _) => do
    let copied ← FileSystem.filesystemCopyTmpFileToMDFS sort x.nodeId x.finalTmpName x.resultFileName
      COMMAND_RESULT_CANT_COPY
    pure (FileSystem.copyFinalReply copied.1 copied.2)

/-- What `copyFinalTemporal` reads of the reply. -/
def MaRTA.readCopyReply : Reader MaRTA.CopyReply := do
  let result ← u8
  if result ≠ 0 then pure ⟨true, 0⟩
  else
    let reason ← u8
    pure ⟨false, reason⟩

theorem reads_copyFinal {finalNode resultFile : CStr} (hnode : MaRTA.Short finalNode) (hfile : MaRTA.Short resultFile)
    (tempResultName : MaRTA.TempName) :
    Reads FileSystem.readCopyFinal (MaRTA.FSOperation.packet (.copyFinal finalNode resultFile tempResultName))
      ⟨finalNode, resultFile, tempResultName.str⟩ := by
  have hlen : tempResultName.bytes.length = 60 := tempResultName.length_bytes
  have hpacket : MaRTA.FSOperation.packet (.copyFinal finalNode resultFile tempResultName) =
      [MaRTA.COMMAND_MARTA_TO_FS_GET_COPY_FINAL_RESULT] ++ ((be16 finalNode.length.toUInt16 ++ finalNode) ++
        ((be16 resultFile.length.toUInt16 ++ resultFile) ++ tempResultName.bytes)) := by
    simp only [MaRTA.FSOperation.packet, hnode.take, hfile.take, List.append_assoc]
  rw [hpacket]
  unfold FileSystem.readCopyFinal
  apply reads_bind (reads_u8 MaRTA.COMMAND_MARTA_TO_FS_GET_COPY_FINAL_RESULT)
  apply reads_bind (reads_prefixed16 hnode.length_lt)
  apply reads_bind (reads_prefixed16 hfile.length_lt)
  apply reads_map (hlen ▸ reads_cstring tempResultName.terminated)
  rw [upToNul_eq hnode.clean, upToNul_eq hfile.clean]
  rfl

/-- **The reply**: the reason is there just when it is read. -/
theorem reads_copyReply (result : Bool) (reason : UInt8) :
    Reads MaRTA.readCopyReply (FileSystem.copyFinalReply result reason) ⟨result, if result then 0 else reason⟩ := by
  unfold MaRTA.readCopyReply
  cases result with
  | true => exact reads_map (reads_u8 1) rfl
  | false =>
    have hreason : Reads (do
        let reason ← u8
        pure (⟨false, reason⟩ : MaRTA.CopyReply)) [reason] ⟨false, reason⟩ := reads_map (reads_u8 reason) rfl
    exact reads_bind (reads_u8 0) hreason

/-! ## What becomes of the job -/

/-- The request that waits for the reply. -/
def MaRTA.Req.awaitsCopy : MaRTA.Req → Bool
  | .copyFinal _ => true
  | _ => false

/-- The nodes of the maps stay registered, and the FileSystem replies with `packet`. -/
def MaRTA.Replied (maps : List MaRTA.Map) (packet : Packet) (_ : MaRTA.World) (r : MaRTA.Req)
    (x : List MaRTA.Node × MaRTA.Choice) : Prop :=
  MaRTA.MapsFound x.1 maps ∧ (r.awaitsCopy = true → MaRTA.readCopyReply.run packet = some (x.2.copyReply, []))

instance (maps : List MaRTA.Map) (packet : Packet) (w : MaRTA.World) (r : MaRTA.Req)
    (x : List MaRTA.Node × MaRTA.Choice) :
    Decidable (MaRTA.Replied maps packet w r x) :=
  inferInstanceAs (Decidable (MaRTA.MapsFound x.1 maps ∧ (r.awaitsCopy = true → _)))

/-- **`copyFinalTemporal`** returns the result of the reply, and ends the job for one reason of failure. -/
theorem amid_copyFinalTemporal (t : ℕ) (w : MaRTA.World) (job : MaRTA.Job) (result : Bool) (reason : UInt8) :
    (MaRTA.copyFinalTemporal job).Ok (Spec.total (MaRTA.amid t)
      (MaRTA.Replied job.maps (FileSystem.copyFinalReply result reason)))
      (fun x _ => x = result ∧ ¬(result = false ∧ reason = COMMAND_RESULT_CANT_COPY))
      (fun e _ => e = .cantCopy ∧ result = false ∧ reason = COMMAND_RESULT_CANT_COPY) w := by
  unfold MaRTA.copyFinalTemporal
  rw [Prog.ok_bind]
  refine MaRTA.amid_request fun nodes c hreplied => ⟨c.copyReply, _, rfl, ?_⟩
  have hreply : c.copyReply = ⟨result, if result then 0 else reason⟩ := by
    have hread := hreplied.2 rfl
    rw [(reads_copyReply result reason).run] at hread
    exact (Prod.mk.inj (Option.some.inj hread)).1.symm
  rw [hreply]
  by_cases hfinal : result = false ∧ reason = COMMAND_RESULT_CANT_COPY
  · obtain ⟨rfl, rfl⟩ := hfinal
    rw [if_pos ⟨rfl, rfl⟩, Prog.ok_bind]
    refine MaRTA.amid_request fun nodes₁ c₁ _ => ⟨(), _, rfl, ?_⟩
    have hleaves := MaRTA.amid_leave (t := t)
      (Q := fun x _ => x = false ∧ ¬(false = false ∧ COMMAND_RESULT_CANT_COPY = COMMAND_RESULT_CANT_COPY))
      (C := MaRTA.Replied job.maps (FileSystem.copyFinalReply false COMMAND_RESULT_CANT_COPY))
        (I := fun _ => True) (w := ⟨nodes₁, w.talk⟩)
      .cantCopy (fun _ _ _ _ hleft => ⟨hleft.1, fun _ _ => trivial⟩) trivial
    exact Prog.ok_mono (fun _ _ h => h) (fun e _ he => ⟨he, rfl, rfl⟩) hleaves
  · have hgoes : ¬((⟨result, if result then 0 else reason⟩ : MaRTA.CopyReply).result = false ∧
        (⟨result, if result then 0 else reason⟩ : MaRTA.CopyReply).reason = COMMAND_RESULT_CANT_COPY) := by
      rintro ⟨hno, hreason⟩
      have hno' : result = false := hno
      subst hno'
      exact hfinal ⟨rfl, hreason⟩
    rw [if_neg hgoes]
    exact ⟨rfl, hfinal⟩

/-- **The peers of the FileSystem are decoded faithfully**: the configuration of a node, the strings of a
final result, and the reply, which MaRTA takes for the last word only when the reason is
`COMMAND_RESULT_CANT_COPY`. No decoder reads past its packet. -/
theorem peers_decoded (nodeConfig : Nodo.NodeCfg) (finalNode resultFile : CStr)
    (tempResultName : MaRTA.TempName) (result : Bool)
    (reason : UInt8) (t : ℕ) (w : MaRTA.World) (job : MaRTA.Job) (f : ℕ → List MaRTA.Node × MaRTA.Choice)
    (hname : MaRTA.Short nodeConfig.name) (hnode : MaRTA.Short finalNode) (hfile : MaRTA.Short resultFile)
    (hC : ∀ n, (MaRTA.copyFinalTemporal job).Along (MaRTA.amid t)
      (MaRTA.Replied job.maps (FileSystem.copyFinalReply result reason)) w ((List.range n).map f)) :
    FileSystem.connectionsNodeAccept (Nodo.connectionsFsSendInfo nodeConfig) =
      some ⟨nodeConfig.newNode, nodeConfig.blocksCount, nodeConfig.listenPort, nodeConfig.name⟩ ∧
    (∀ sort, FileSystem.connectionsMartaCopyFinalResult sort
      (MaRTA.FSOperation.packet (.copyFinal finalNode resultFile tempResultName)) =
      (FileSystem.filesystemCopyTmpFileToMDFS sort finalNode tempResultName.str resultFile
        COMMAND_RESULT_CANT_COPY >>= fun copied =>
        pure (FileSystem.copyFinalReply copied.1 copied.2))) ∧
    (∃ reply, MaRTA.readCopyReply.run (FileSystem.copyFinalReply result reason) = some (reply, []) ∧
      reply.result = result) ∧
    ∃ n o w', (MaRTA.copyFinalTemporal job).exec (MaRTA.amid t) w ((List.range n).map f) = some (o, w') ∧
      (o = .error .cantCopy ↔ result = false ∧ reason = COMMAND_RESULT_CANT_COPY) ∧
        (o ≠ .error .cantCopy → o = .ok result) := by
  refine ⟨?_, fun sort => ?_, ⟨_, (reads_copyReply result reason).run, rfl⟩, ?_⟩
  · rw [FileSystem.connectionsNodeAccept, (reads_nodeInfo hname).run, Option.map_some]
  · rw [FileSystem.connectionsMartaCopyFinalResult, (reads_copyFinal hnode hfile tempResultName).run]
    rfl
  · obtain ⟨n, o, w', hexec, hend⟩ := (amid_copyFinalTemporal t w job result reason).exec_total hC
    refine ⟨n, o, w', hexec, ?_⟩
    cases o with
    | error e =>
      obtain ⟨rfl, hfinal⟩ := hend
      exact ⟨⟨fun _ => hfinal, fun _ => rfl⟩, fun hne => absurd rfl hne⟩
    | ok x =>
      obtain ⟨rfl, hgoes⟩ := hend
      exact ⟨⟨fun h => (by cases h), fun hfinal => absurd hfinal hgoes⟩, fun _ => rfl⟩

/-- A new node of ten blocks. -/
def newNodo1 : Nodo.NodeCfg := ⟨true, 10, 6001, cstr "Nodo1"⟩

/-- A failure that is not the last word. -/
theorem peers_decoded_again : FileSystem.connectionsNodeAccept (Nodo.connectionsFsSendInfo newNodo1) =
    some ⟨true, 10, 6001, cstr "Nodo1"⟩ ∧
    ∃ n w', (MaRTA.copyFinalTemporal (MaRTA.createJob 1 false (cstr "/r") [])).exec (MaRTA.amid 0) ⟨[], fun _ => .start⟩
      ((List.range n).map fun _ => ([], .copied ⟨false, 0⟩)) = some (.ok false, w') := by
  have hall := Prog.along_of_exec (p := MaRTA.copyFinalTemporal (MaRTA.createJob 1 false (cstr "/r") []))
    (h := MaRTA.amid 0)
    (C := MaRTA.Replied [] (FileSystem.copyFinalReply false 0)) (s := ⟨[], fun _ => .start⟩)
    (f := fun _ => ([], .copied ⟨false, 0⟩)) (N := 1) (by decide +kernel) (by decide +kernel)
  obtain ⟨hnode, -, -, n, o, w', hexec, hfinal, hok⟩ := peers_decoded newNodo1 (cstr "Nodo1") (cstr "/r")
    (.strcpy (cstr "Job1-Red0.txt") (by decide))
      false 0 0 ⟨[], fun _ => .start⟩ (MaRTA.createJob 1 false (cstr "/r") [])
    _ (by decide) (by decide) (by decide) hall
  have hlast : o ≠ .error .cantCopy := fun h => absurd (hfinal.1 h).2 (by decide)
  exact ⟨hnode, n, w', hok hlast ▸ hexec⟩

end Mdfs
