import Mdfs.MaRTA.World

/-!
# The jobs of MaRTA

`acceptJob` and what it calls, in `MapPlanning.c`, `ReducePlanning.c` and
`JobConnection.c`. A `t_map` is reached by its place in `job->maps`. A loop that changes
the job passes it on.

The recursion of `recvResult` through `rePlanMap` and the loops that plan again are
bounded by a number of rounds: a thread that has used them up stops where it is.

The strings of a job are freed when it ends. A round of `noCombinerReducePlanning` that
failed frees two of them earlier, and keeps the pointers: that is told on.
-/

namespace Mdfs.MaRTA

open Lib

/-- Why a thread ends before `acceptJob` returns. -/
inductive Exit
  | died
  | unavailable
  | cantCopy
  /-- A `NULL` is followed. -/
  | crashed
  /-- What is free already is freed. -/
  | aborted
  /-- The rounds are used up. -/
  | unfinished
  deriving DecidableEq

abbrev JobProg := Prog Resp Exit

abbrev request (r : Req) : JobProg (Resp r) := .ask r .ret

/-- `list_iterate(job->maps, removeMapNode)`. -/
def removeMaps (site : Removal) (maps : List Map) : JobProg Unit :=
  Prog.iterate (fun map => request (.removeMapNode site map.nodeName map.numBlock)) maps

/-- `freeJob`. Its `freeReduce` frees `finalNode` and `nodeIP` of the final reduce unless they
are `NULL`; where they are `freed` already, it frees them again. -/
def freeJob (job : Job) (freed : Bool := false) : JobProg Unit := do
  removeMaps .free job.maps
  if freed then .stop .aborted else pure ()

/-- `freeJob` and `pthread_exit`. -/
def leave {α : Type} (job : Job) (exit : Exit) (freed : Bool := false) : JobProg α := do
  freeJob job freed
  request .exit
  .stop exit

/-! ## `MapPlanning.c` -/

/-- `notificarMap`. -/
def notificarMap (site : Site) (job : Job) (map : Map) : JobProg Unit := do
  if ← request (.sendMap site map) then pure () else leave job .died

/-- `notifFileUnavailable`. -/
def notifFileUnavailable {α : Type} (job : Job) (freed : Bool := false) : JobProg α := do
  request (.sendDie COMMAND_RESULT_FILEUNAVAILABLE)
  leave job .unavailable freed

/-- `requestFileBlocks`: the file, and whether it is available. -/
def requestFileBlocks (site : Site) (file : File) : JobProg (File × Bool) := do
  let buffer ← request (.fileBlocks site file.path)
  let blocks := fileBlocksOf buffer
  Prog.iterate (Prog.iterate fun c : FsCopy => request (.updateNodes c.nodeId c.nodeIp c.nodePort)) blocks
  pure ({ file with blocks := file.blocks ++ blocks.map fun copies => copies.map FsCopy.copy }, blocks ≠ [])

/-- `requestFileBlocks` on all files of a job. -/
def requestBlocks (site : Site) (files : List File) : JobProg (List File × Bool) :=
  files.foldlM (fun x file => do
    let y ← requestFileBlocks site file
    pure (x.1 ++ [y.1], x.2 && y.2)) ([], true)

/-- `mapPlanning` of `planMaps`. When no copy is active it sets `filesAvailables`, which
is not read again. -/
def mapPlanning (job : Job) (copies : List Copy) : JobProg Job := do
  match ← request (.selectNode .plan copies) with
  | none =>
    removeMaps .skip job.maps
    pure job
  | some (n, numBlock) =>
    request (.listAddMap n numBlock)
    let node ← request (.readNode n)
    let time ← request .getTime
    let mapPlanned := createMap job.maps.length.toUInt16 numBlock node.port node.name node.ip job.id time copies
    let job := { job with maps := job.maps ++ [mapPlanned] }
    notificarMap .plan job mapPlanned
    pure job

/-- What `recvResult` does for its callers. -/
abbrev Recv := Job → JobProg (Job × Option CStr)

/-- `rePlanMap` of the `i`-th map; false when no copy is active. -/
def rePlanMap (recvResult : Recv) (job : Job) (i : ℕ) : JobProg (Job × Bool) := do
  let files ← requestBlocks .replan job.files
  let job := { job with files := files.1 }
  match job.maps[i]? with
  | none => .stop .crashed
  | some map =>
    match ← request (.selectNode .replan map.copies) with
    | none => pure (job, false)
    | some (n, numBlock) =>
      let node ← request (.readNode n)
      let time ← request .getTime
      let map := { map with
        nodeName := node.name, nodeIP := node.ip, nodePort := node.port, numBlock
        tempResultName := setTempMapName time map.id job.id, done := false }
      let job := { job with maps := job.maps.set i map }
      notificarMap .replan job map
      let x ← recvResult job
      pure (x.1, true)

/-! ## `JobConnection.c` -/

/-- `desserializeMapResult`, decoded. -/
def desserializeMapResult (recvResult : Recv) (job : Job) (idMap : UInt16) (result : Bool) : JobProg Job := do
  match job.maps.findIdx? fun map => map.id = idMap with
  | none => .stop .crashed
  | some i =>
    match job.maps[i]? with
    | none => .stop .crashed
    | some map =>
      request (.removeMapNode .result map.nodeName map.numBlock)
      if result then
        pure { job with maps := job.maps.set i { map with done := true }, mapsDone := job.mapsDone + 1 }
      else
        request (.deactivateNode map.nodeName)
        let x ← rePlanMap recvResult job i
        if x.2 then pure x.1 else notifFileUnavailable x.1

/-- The text by which a Job says that it did not reach the node. -/
def ERROR_AL_CONECTAR : CStr := cstr "ErrorAlConectar"

/-- The reduce of a result: `0` is the final one. -/
def reduceOfResult (job : Job) (idReduce : UInt16) : Option Reduce :=
  if idReduce = 0 then some job.finalReduce else job.partialReduces.find? fun reduce => reduce.id = idReduce

/-- `desserializaReduceResult`, decoded: the node that failed. -/
def desserializaReduceResult (job : Job) (idReduce : UInt16) (failed : Option CStr) : JobProg (Option CStr) := do
  match reduceOfResult job idReduce with
  | none => .stop .crashed
  | some reduce =>
    request (.removeReduceNode reduce.finalNode)
    match failed with
    | none => pure none
    | some nodeID =>
      let nodeID := if nodeID = ERROR_AL_CONECTAR then reduce.finalNode else nodeID
      request (.deactivateNode nodeID)
      pure (some nodeID)

/-- `recvResult`; the name is `NULL` but for a reduce that failed. -/
def recvResult : ℕ → Recv
  | 0, _ => .stop .unfinished
  | rounds + 1, job => do
    match ← request .recv with
    | none => leave job .died
    | some (.map idMap result) =>
      let job ← desserializeMapResult (recvResult rounds) job idMap result
      pure (job, none)
    | some (.reduce idReduce failed) =>
      let nodeID ← desserializaReduceResult job idReduce failed
      pure (job, nodeID)

/-- `planMaps`. -/
def planMaps (recvResult : Recv) (job : Job) : JobProg Job := do
  let files ← requestBlocks .plan job.files
  let job := { job with files := files.1 }
  if files.2 then
    let job ← (job.files.flatMap File.blocks).foldlM mapPlanning job
    let job ← (List.range job.maps.length).foldlM (fun job _ => do
      let x ← recvResult job
      pure x.1) job
    request (.mark .planned job)
    pure job
  else notifFileUnavailable job

/-! ## `ReducePlanning.c` -/

/-- `notificarReduce`. -/
def notificarReduce (final : Bool) (job : Job) (reduce : Reduce) : JobProg Unit := do
  request (.addReduceNode reduce.finalNode)
  if ← request (.sendReduce final job reduce) then pure () else leave job .died

/-- `rePlanByNode` of `rePlanMapsFromNode`, on the `i`-th map. -/
def rePlanByNode (recvResult : Recv) (node : CStr) (x : Job × Bool) (i : ℕ) : JobProg (Job × Bool) := do
  match x.1.maps[i]? with
  | none => pure x
  | some map =>
    if map.nodeName = node then
      let y ← rePlanMap recvResult { x.1 with mapsDone := x.1.mapsDone - 1 } i
      pure (y.1, x.2 && y.2)
    else pure x

/-- `rePlanMapsFromNode`; false when a block has no active copy. -/
def rePlanMapsFromNode (recvResult : Recv) (job : Job) (node : CStr) : JobProg (Job × Bool) := do
  request (.mark .replan job)
  let x ← (List.range job.maps.length).foldlM (rePlanByNode recvResult node) (job, true)
  if x.2 then
    request (.mark .replanned x.1)
    pure x
  else pure x

/-- What both planners do with the node that they have selected: the final reduce is set, given
its temps and ordered. -/
def planFinalReduce (job : Job) (node : NodeInfo) (temps : List Temp) : JobProg Job := do
  let time ← request .getTime
  let finalReduce := setFinalReduce job.finalReduce node.name node.ip node.port job.id time
  let finalReduce := { finalReduce with temps := finalReduce.temps ++ temps }
  let job := { job with finalReduce }
  notificarReduce true job finalReduce
  pure job

/-- `copyFinalTemporal`, decoded. -/
def copyFinalTemporal (job : Job) : JobProg Bool := do
  let reply ← request (.copyFinal job)
  if reply.result = false ∧ reply.reason = COMMAND_RESULT_CANT_COPY then
    request (.sendDie reply.reason)
    leave job .cantCopy
  else pure reply.result

/-- The result of the final reduce, and its copy to the MDFS. The name is that of the node that
failed. -/
def finishFinalReduce (recvResult : Recv) (job : Job) : JobProg (Job × Option CStr) := do
  let x ← recvResult job
  match x.2 with
  | some fallenNode => pure (x.1, some fallenNode)
  | none =>
    let finalResult ← copyFinalTemporal x.1
    pure (x.1, if finalResult then none else some x.1.finalReduce.finalNode)

/-- The end of both planners' loops, and whether there is another round, for which the job is
cleaned. -/
def awaitFinalReduce (recvResult : Recv) (clean : Job → Job) (job : Job) : JobProg (Job × Bool) := do
  let x ← finishFinalReduce recvResult job
  match x.2 with
  | none => pure (x.1, false)
  | some fallenNode =>
    let y ← rePlanMapsFromNode recvResult x.1 fallenNode
    if y.2 then pure (clean y.1, true) else notifFileUnavailable y.1

/-- A round of `noCombinerReducePlanning` up to its order. A round before it has `freed` the
node and the ip of the final reduce. -/
def orderFinalReduce (freed : Bool) (job : Job) : JobProg Job := do
  match ← request (.selectMoreTemps job.maps) with
  | none => notifFileUnavailable job freed
  | some n =>
    let node ← request (.readNode n)
    planFinalReduce job node (job.maps.map mapToTemporal)

/-- What `noCombinerReducePlanning` cleans. The strings that it frees are not read again: here
they are empty. -/
def noCombinerClean (job : Job) : Job :=
  { job with finalReduce := { job.finalReduce with temps := [], finalNode := [], nodeIP := [] } }

/-- `noCombinerReducePlanning`, from a round on. The first one has nothing `freed`. -/
def noCombinerReducePlanning (recvResult : Recv) : ℕ → Bool → Job → JobProg Job
  | 0, _, _ => .stop .unfinished
  | rounds + 1, freed, job => do
    let job ← orderFinalReduce freed job
    let x ← awaitFinalReduce recvResult noCombinerClean job
    if x.2 then noCombinerReducePlanning recvResult rounds true x.1 else pure x.1

/-- `agregarAPartialReduces` of `combinerPartialsReducePlanning`. -/
def agregarAPartialReduces (jobID : UInt16) (reduces : List Reduce) (map : Map) : JobProg (List Reduce) := do
  match reduces.findIdx? fun reduce => reduce.finalNode = map.nodeName with
  | some i => pure (reduces.modify i fun reduce => { reduce with temps := reduce.temps ++ [mapToTemporal map] })
  | none =>
    let time ← request .getTime
    let reduce := createReduce (reduces.length + 1).toUInt16 map.nodeName map.nodeIP map.nodePort jobID time
    pure (reduces ++ [{ reduce with temps := [mapToTemporal map] }])

/-- `combinerPartialsReducePlanning`. -/
def combinerPartialsReducePlanning (job : Job) : JobProg Job := do
  let partialReduces ← job.maps.foldlM (agregarAPartialReduces job.id) job.partialReduces
  let job := { job with partialReduces }
  Prog.iterate (notificarReduce false job) job.partialReduces
  pure job

/-- `combinerFinalReducePlanning`. -/
def combinerFinalReducePlanning (job : Job) : JobProg Job := do
  let node ← request (.selectFinalNode job.partialReduces)
  planFinalReduce job node (job.partialReduces.map reduceToTemporal)

/-- One result of a round of partial reduces. -/
def recvPartial (recvResult : Recv) (x : Job × List CStr) (_ : ℕ) : JobProg (Job × List CStr) := do
  let y ← recvResult x.1
  pure (y.1, x.2 ++ y.2.toList)

/-- `replanMaps` of `combinerReducePlanning`. -/
def replanMaps (recvResult : Recv) (x : Job × Bool) (node : CStr) : JobProg (Job × Bool) := do
  let y ← rePlanMapsFromNode recvResult x.1 node
  pure (y.1, x.2 && y.2)

/-- The inner loop of `combinerReducePlanning`: until every partial reduce has succeeded. -/
def partialRounds (recvResult : Recv) : ℕ → Job → JobProg Job
  | 0, _ => .stop .unfinished
  | rounds + 1, job => do
    let job ← combinerPartialsReducePlanning job
    let x ← (List.range job.partialReduces.length).foldlM (recvPartial recvResult) (job, [])
    if x.2 = [] then pure x.1
    else
      let y ← x.2.foldlM (replanMaps recvResult) (x.1, true)
      if y.2 then partialRounds recvResult rounds { y.1 with partialReduces := [] } else notifFileUnavailable y.1

/-- What `combinerReducePlanning` cleans. -/
def combinerClean (job : Job) : Job :=
  { job with partialReduces := [], finalReduce := { job.finalReduce with temps := [] } }

/-- `combinerReducePlanning`. -/
def combinerReducePlanning (recvResult : Recv) (partials : ℕ) : ℕ → Job → JobProg Job
  | 0, _ => .stop .unfinished
  | rounds + 1, job => do
    let job ← partialRounds recvResult partials job
    let job ← combinerFinalReducePlanning job
    let x ← awaitFinalReduce recvResult combinerClean job
    if x.2 then combinerReducePlanning recvResult partials rounds x.1 else pure x.1

/-- `acceptJob` up to the packet that ends it, from the job that `desserializeJob` made. -/
def planJob (rounds : ℕ) (job : Job) : JobProg Job := do
  let job ← planMaps (recvResult rounds) job
  if job.combiner then combinerReducePlanning (recvResult rounds) rounds rounds job
  else noCombinerReducePlanning (recvResult rounds) rounds false job

/-- The end of `acceptJob`. -/
def finishJob (job : Job) : JobProg Unit := do
  request (.sendDie COMMAND_RESULT_OK)
  freeJob job
  request .exit

/-- `acceptJob`. -/
def acceptJob (rounds : ℕ) (job : Job) : JobProg Unit := do
  let job ← planJob rounds job
  finishJob job

/-- What `desserializeJob` reads. -/
structure Submission where
  id : UInt16
  combiner : Bool
  resultFile : CStr
  paths : List CStr
  deriving DecidableEq

def Submission.job (x : Submission) : Job := createJob x.id x.combiner x.resultFile x.paths

/-- MaRTA with the jobs that are submitted to it, none of them started. -/
def marta (rounds : ℕ) (jobs : List Submission) : Pool Resp Exit Unit World :=
  ⟨⟨[], fun _ => .start⟩, jobs.map fun x => acceptJob rounds x.job⟩

end Mdfs.MaRTA
