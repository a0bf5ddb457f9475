import Mdfs.Job.Reduce
import Mdfs.MaRTA.JobConnection
import Mdfs.Nodo.Reduce

/-!
# A REDUCE order from MaRTA to a node

The three programs write and read the order in four places, with lengths of 16 bits
up to the Job and of 32 bits after it. The temps go through the Job as bytes.

* `reduce_relayed`: what the node decodes is what MaRTA ordered.
-/

namespace Mdfs

open Lib Wire

/-- A temp of MaRTA, as the node asks for it. -/
def MaRTA.Temp.operation (temp : MaRTA.Temp) : Nodo.GetTmpFileOperation :=
  ⟨temp.nodeID, temp.nodeIP, temp.nodePort, temp.tempName.str⟩

/-- The part of the order that the Job passes on without decoding it. -/
def MaRTA.Reduce.opaqueTemps (reduce : MaRTA.Reduce) : Packet :=
  be16 reduce.temps.length.toUInt16 ++ reduce.temps.flatMap MaRTA.serializeTemp

/-- The order as the Job has it. -/
def MaRTA.Reduce.forJob (reduce : MaRTA.Reduce) : Job.Reduce :=
  ⟨reduce.id, reduce.nodeIP, reduce.nodePort, reduce.tempResultName.str, reduce.opaqueTemps.length.toUInt32,
    reduce.opaqueTemps⟩

/-- The order as the node called `name` has it. -/
def MaRTA.Reduce.forNode (reduce : MaRTA.Reduce) (name routine : CStr) : Nodo.ReduceOrder :=
  let temps := reduce.temps.map MaRTA.Temp.operation
  ⟨routine, reduce.tempResultName.str, temps,
    temps.foldl (Nodo.Operations.addTemp name reduce.temps.length.toUInt16) ⟨none, []⟩⟩

/-- **What survives the relay** of a reduce through the Job to the node called `name`. -/
structure Relayed (name routine : CStr) (reduce : MaRTA.Reduce) (job : Job.Reduce) (node : Nodo.ReduceOrder) :
    Prop where
  reduceID : job.reduceID = reduce.id
  ip : job.ipNodo = reduce.nodeIP
  port : job.portNodo = reduce.nodePort
  routine : node.reduceRutine = routine
  final : node.finalTmpName = reduce.tempResultName.str
  temps : node.temps = reduce.temps.map MaRTA.Temp.operation
  /-- The node reduces its own single temp in place, -/
  own : ∀ temp, reduce.temps = [temp] → temp.nodeID = name → node.operations = ⟨some temp.tempName.str, []⟩
  /-- and gets any others, in order. -/
  others : (∀ temp, reduce.temps = [temp] → temp.nodeID ≠ name) →
    node.operations = ⟨none, reduce.temps.map MaRTA.Temp.operation⟩

variable {name routine : CStr} {reduce : MaRTA.Reduce} {temp : MaRTA.Temp}

/-- **One temp**, as MaRTA writes it and the node reads it. -/
theorem reads_temp (hid : MaRTA.Short temp.nodeID) (hip : MaRTA.Short temp.nodeIP) :
    Reads Nodo.readTemp (MaRTA.serializeTemp temp) temp.operation := by
  have hlen : temp.tempName.bytes.length = 60 := temp.tempName.length_bytes
  have hpacket : MaRTA.serializeTemp temp = (be16 temp.nodeID.length.toUInt16 ++ temp.nodeID) ++
      ((be16 temp.nodeIP.length.toUInt16 ++ temp.nodeIP) ++ (be16 temp.nodePort ++ temp.tempName.bytes)) := by
    simp only [MaRTA.serializeTemp, hid.take, hip.take, List.append_assoc]
  rw [hpacket]
  unfold Nodo.readTemp
  apply reads_bind (reads_prefixed16 hid.length_lt)
  apply reads_bind (reads_prefixed16 hip.length_lt)
  apply reads_bind (reads_u16 temp.nodePort)
  apply reads_map (hlen ▸ reads_cstring temp.tempName.terminated)
  rw [upToNul_eq hid.clean, upToNul_eq hip.clean]
  rfl

/-- The Job's side: the header is decoded, the temps are kept as they came. -/
theorem recvOrder_sent (h : MaRTA.Sendable reduce) (hsize : reduce.opaqueTemps.length < 2 ^ 32) :
    Job.recvOrder (MaRTA.serializeReduceToOrder reduce) = some (.reduce reduce.forJob) := by
  have hname : reduce.tempResultName.bytes.length = 60 := reduce.tempResultName.length_bytes
  have hreads := Job.reads_reduceOrder reduce.id reduce.nodePort h.nodeIP.length_lt
    h.nodeIP.clean hname reduce.tempResultName.terminated hsize
  have hlen : (be16 reduce.id ++ (be16 reduce.nodeIP.length.toUInt16 ++ (reduce.nodeIP ++ (be16 reduce.nodePort ++
      (reduce.tempResultName.bytes ++ reduce.opaqueTemps))))).length =
      2 + 2 + reduce.nodeIP.length + 2 + 60 + reduce.opaqueTemps.length := by
    simp only [List.length_append, length_be16, hname]
    omega
  rw [← hlen] at hreads
  have hpacket := MaRTA.serializeReduceToOrder_eq h
  simp only [List.append_assoc, List.singleton_append] at hpacket
  rw [hpacket]
  exact Job.recvOrder_reduce hreads

/-- The node's side: it decodes the fields of the Job and then those of MaRTA, and
leaves the four bytes too many unread. -/
theorem deserializeReduce_sent (h : MaRTA.Sendable reduce) (hsize : reduce.opaqueTemps.length < 2 ^ 32)
    (hroutine : routine.length < 2 ^ 32) (hroutine0 : 0 ∉ routine) :
    Nodo.connectionsJobDeserializeReduce name (Job.serializeReduce routine reduce.forJob) =
      some (reduce.forNode name routine) := by
  have hfinal : reduce.tempResultName.str.length < 2 ^ 32 := by
    have hle := reduce.tempResultName.length_str_le
    unfold MaRTA.TEMP_NAME_SIZE at hle
    omega
  have hreads := Nodo.reads_reduce name MaRTA.Temp.operation
    (fun temp ht => reads_temp (h.nodeID temp ht) (h.tempIP temp ht)) h.count_lt hroutine hroutine0 hfinal
    reduce.tempResultName.zero_not_mem_str COMMAND_REDUCE
  have hpacket := Job.serializeReduce_eq reduce.forJob hroutine hfinal (toNat_toUInt32 hsize).symm
  have hrun := hreads [0, 0, 0, 0]
  simp only [List.append_assoc] at hrun
  simp only [MaRTA.Reduce.forJob, MaRTA.Reduce.opaqueTemps, List.append_assoc] at hpacket
  rw [Nodo.connectionsJobDeserializeReduce, MaRTA.Reduce.forJob, MaRTA.Reduce.opaqueTemps, hpacket, hrun]
  rfl

theorem operations_own (hone : reduce.temps = [temp]) (hown : temp.nodeID = name) :
    (reduce.forNode name routine).operations = ⟨some temp.tempName.str, []⟩ := by
  simp [MaRTA.Reduce.forNode, hone, Nodo.Operations.addTemp, MaRTA.Temp.operation, hown]

theorem operations_others (hcount : reduce.temps.length < 2 ^ 16)
    (hothers : ∀ temp, reduce.temps = [temp] → temp.nodeID ≠ name) :
    (reduce.forNode name routine).operations = ⟨none, reduce.temps.map MaRTA.Temp.operation⟩ := by
  have hfree : ∀ op ∈ reduce.temps.map MaRTA.Temp.operation,
      ¬(reduce.temps.length.toUInt16 = 1 ∧ name = op.nodeId) := by
    intro op hop hboth
    obtain ⟨temp, htemp, rfl⟩ := List.mem_map.1 hop
    have hone : reduce.temps.length = 1 := by
      have hcast := congrArg UInt16.toNat hboth.1
      rwa [toNat_toUInt16 hcount] at hcast
    obtain ⟨t, ht⟩ := List.length_eq_one_iff.1 hone
    rw [ht, List.mem_singleton] at htemp
    subst htemp
    exact hothers temp ht hboth.2.symm
  exact Nodo.addTemps_eq hfree ⟨none, []⟩

/-- **A REDUCE order survives the relay** from MaRTA through the Job to a node: no step
reads past its packet, and the node decodes the reducer, the final name and the ordered
temps that MaRTA and the Job were given. -/
theorem reduce_relayed (name routine : CStr) (reduce : MaRTA.Reduce) (h : MaRTA.Sendable reduce)
    (hroutine0 : 0 ∉ routine) (hroutine : routine.length < 2 ^ 31)
    (horder : (MaRTA.serializeReduceToOrder reduce).length < 2 ^ 31) :
    ∃ job node, Job.recvOrder (MaRTA.serializeReduceToOrder reduce) = some (.reduce job) ∧
      Nodo.connectionsJobDeserializeReduce name (Job.serializeReduce routine job) = some node ∧
      Relayed name routine reduce job node := by
  have hsize : reduce.opaqueTemps.length < 2 ^ 32 := by
    rw [MaRTA.serializeReduceToOrder_eq h, List.length_append] at horder
    unfold MaRTA.Reduce.opaqueTemps
    omega
  refine ⟨reduce.forJob, reduce.forNode name routine, recvOrder_sent h hsize,
    deserializeReduce_sent h hsize (by omega) hroutine0, rfl, rfl, rfl, rfl, rfl, rfl, ?_, ?_⟩
  · intro temp hone hown
    exact operations_own hone hown
  · intro hothers
    exact operations_others h.count_lt hothers

/-- A reduce over a temp of the node it is for and one of another node. -/
def twoTemps : MaRTA.Reduce where
  id := 3
  temps := [⟨cstr "Nodo1", cstr "10.0.0.1", 6001, 0, .strcpy (cstr "Job1-Map0.txt") (by decide)⟩,
    ⟨cstr "Nodo2", cstr "10.0.0.2", 6002, 1, .strcpy (cstr "Job1-Map1.txt") (by decide)⟩]
  finalNode := cstr "Nodo1"
  nodeIP := cstr "10.0.0.1"
  nodePort := 6001
  tempResultName := .strcpy (cstr "Job1-Red3.txt") (by decide)

theorem twoTemps_sendable : MaRTA.Sendable twoTemps := ⟨by decide, by decide, by decide, by decide⟩

theorem reduce_relayed_twoTemps : ∃ job node,
    Job.recvOrder (MaRTA.serializeReduceToOrder twoTemps) = some (.reduce job) ∧
      Nodo.connectionsJobDeserializeReduce (cstr "Nodo1") (Job.serializeReduce (cstr "#!/bin/sh\nsort") job) =
        some node ∧
      Relayed (cstr "Nodo1") (cstr "#!/bin/sh\nsort") twoTemps job node :=
  reduce_relayed _ _ twoTemps twoTemps_sendable (by decide) (by decide) (by decide +kernel)

end Mdfs
