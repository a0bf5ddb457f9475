import Mdfs.FailedNode
import Mdfs.Routine

/-!
# A MAP order from MaRTA to a node, and its result back

The order goes through the Job, which decodes it whole and writes another one with the text of
the mapper: the id, the IP and the port stay there, and the lengths have 32 bits instead of 16. The
result goes back with the id of the order.

* `recvOrder_map`: the Job's side of the order.
* `readResult_sendMapResult`: MaRTA's side of the result.
* `map_relayed`: what is decoded is what was written, on the way there and back.
-/

namespace Mdfs

open Lib Wire

/-- `desserializeMapOrder`. `strdup` copies the IP up to the terminator put behind it, and the name
up to its own. -/
def Job.readMapOrder : Reader Job.Map := do
  let idMap ← u16
  let nodeIP ← prefixed16
  let nodePort ← u16
  let numBlock ← u16
  let tempResultName ← cstring 60
  pure ⟨idMap, upToNul nodeIP, nodePort, numBlock, tempResultName⟩

/-- `desserializeMapOrder` on the packet behind its order; `none` when it is read past its end. -/
def Job.desserializeMapOrder (buffer : Packet) : Option Job.Map := (Job.readMapOrder.run buffer).map Prod.fst

/-- The order as the Job has it. -/
def MaRTA.Map.forJob (map : MaRTA.Map) : Job.Map :=
  ⟨map.id, map.nodeIP, map.nodePort, map.numBlock, map.tempResultName.str⟩

/-- **What survives the relay** of a map through the Job to its node. -/
structure MapRelayed (mapper : CStr) (map : MaRTA.Map) (job : Job.Map) (node : Nodo.MapOrder) : Prop where
  mapID : job.mapID = map.id
  ip : job.ipNodo = map.nodeIP
  port : job.portNodo = map.nodePort
  block : job.numBlock = map.numBlock
  name : job.tempResultName = map.tempResultName.str
  nodeBlock : node.numBlock = map.numBlock
  mapper : node.mapRutine = mapper
  nodeName : node.tmpName = map.tempResultName.str

variable {map : MaRTA.Map} {buffer : Packet}

/-- The Job leaves a MAP order as it came, for `desserializeMapOrder`. -/
theorem recvOrder_map (buffer : Packet) : Job.recvOrder ([COMMAND_MAP] ++ buffer) = some (.map buffer) := by
  have hrun : (Job.readOrder ([COMMAND_MAP] ++ buffer).length).run ([COMMAND_MAP] ++ buffer) =
    some (.map buffer, []) := by
    unfold Job.readOrder
    rw [StateT.run_bind, reads_u8 COMMAND_MAP buffer]
    rfl
  rw [Job.recvOrder, hrun, Option.map_some]

/-- **The Job decodes the fields of MaRTA.** -/
theorem desserializeMapOrder_sent (h : MaRTA.Short map.nodeIP) :
    ∃ buffer, Job.recvOrder (MaRTA.serializeMapToOrder map) = some (.map buffer) ∧
      Job.desserializeMapOrder buffer = some map.forJob := by
  have hname : map.tempResultName.bytes.length = 60 := map.tempResultName.length_bytes
  have hreads : Reads Job.readMapOrder (be16 map.id ++ ((be16 map.nodeIP.length.toUInt16 ++ map.nodeIP) ++
      (be16 map.nodePort ++ (be16 map.numBlock ++ map.tempResultName.bytes)))) map.forJob := by
    unfold Job.readMapOrder
    apply reads_bind (reads_u16 map.id)
    apply reads_bind (reads_prefixed16 h.length_lt)
    apply reads_bind (reads_u16 map.nodePort)
    apply reads_bind (reads_u16 map.numBlock)
    apply reads_map (hname ▸ reads_cstring map.tempResultName.terminated)
    rw [upToNul_eq h.clean]
    rfl
  rw [MaRTA.serializeMapToOrder_eq h]
  refine ⟨_, recvOrder_map _, ?_⟩
  rw [Job.desserializeMapOrder, hreads.run, Option.map_some]

/-- **MaRTA decodes the result of a map**: its id, and whether the byte is not zero. -/
theorem readResult_sendMapResult (order : Job.Map) (result : UInt8) :
    MaRTA.readResult.run (Job.sendMapResult order result) = some (some (.map order.mapID (result ≠ 0)), []) := by
  have hreads : Reads MaRTA.readResult ([COMMAND_MAP] ++ ([result] ++ be16 order.mapID))
      (some (.map order.mapID (result ≠ 0))) := by
    unfold MaRTA.readResult
    apply reads_bind (reads_u8 COMMAND_MAP)
    apply reads_bind (reads_u8 result)
    exact reads_map (reads_u16 order.mapID) rfl
  exact hreads.run

/-- **A MAP order survives the relay** from MaRTA through the Job to a node, and its result comes
back with its id. No step reads past its packet. -/
theorem map_relayed (map : MaRTA.Map) (mapper : CStr) (hip : MaRTA.Short map.nodeIP) (hmapper0 : 0 ∉ mapper)
    (hmapper : mapper.length < 2 ^ 31) :
    ∃ buffer job node, Job.recvOrder (MaRTA.serializeMapToOrder map) = some (.map buffer) ∧
      Job.desserializeMapOrder buffer = some job ∧
      Nodo.connectionsJobDeserializeMap (Job.serializeMap mapper job) = some node ∧ MapRelayed mapper map job node ∧
      ∀ result, MaRTA.readResult.run (Job.sendMapResult job result) = some (some (.map map.id (result ≠ 0)), []) := by
  obtain ⟨buffer, horder, hjob⟩ := desserializeMapOrder_sent hip
  have hname : map.forJob.tempResultName.length < 2 ^ 32 := by
    have hle : map.tempResultName.str.length ≤ MaRTA.TEMP_NAME_SIZE := map.tempResultName.length_str_le
    unfold MaRTA.TEMP_NAME_SIZE at hle
    change map.tempResultName.str.length < 2 ^ 32
    omega
  have hnode : Nodo.connectionsJobDeserializeMap (Job.serializeMap mapper map.forJob) =
      some ⟨map.numBlock, mapper, map.tempResultName.str⟩ :=
    deserializeMap_sent hmapper0 (by omega) map.tempResultName.zero_not_mem_str hname
  refine ⟨buffer, map.forJob, _, horder, hjob, hnode, ⟨rfl, rfl, rfl, rfl, rfl, rfl, rfl, rfl⟩, ?_⟩
  intro result
  exact readResult_sendMapResult map.forJob result

/-- A map of the block 3 of a node. -/
def mapOfThird : MaRTA.Map where
  id := 300
  copies := []
  nodeName := cstr "Nodo1"
  nodeIP := cstr "10.0.0.1"
  nodePort := 6001
  numBlock := 3
  tempResultName := .strcpy (cstr "Job1-Map300.txt") (by decide)
  done := false

theorem map_relayed_third : ∃ buffer job node, Job.recvOrder (MaRTA.serializeMapToOrder mapOfThird) =
    some (.map buffer) ∧
    Job.desserializeMapOrder buffer = some job ∧
    Nodo.connectionsJobDeserializeMap (Job.serializeMap (cstr "#!/bin/sh\nsort") job) = some node ∧
    MapRelayed (cstr "#!/bin/sh\nsort") mapOfThird job node ∧
    ∀ result, MaRTA.readResult.run (Job.sendMapResult job result) = some (some (.map 300 (result ≠ 0)), []) :=
  map_relayed mapOfThird _ (by decide) (by decide) (by decide)

end Mdfs
