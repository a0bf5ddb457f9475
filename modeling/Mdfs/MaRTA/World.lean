import Mdfs.Lib.Pool
import Mdfs.Lib.Wire
import Mdfs.MaRTA.Nodes
import Mdfs.Utils.Socket

/-!
# What the jobs of MaRTA share

Each job has a thread; the threads share the list `nodes`. A request is what a thread
does at once: one critical section of `Mnodes`, one access to `nodes` outside of it, or
one exchange with the FileSystem or with the Job.

The list of nodes is what the code shares. `Talk` records for each job what has gone
over its socket and what it has booked on the nodes; no function of the source reads it.
The Job answers every order once, in any order and with any outcome, or its socket
breaks.
-/

namespace Mdfs.MaRTA

open Lib Wire

/-! ## What goes over the sockets -/

/-- A copy of a block in a reply of the FileSystem. -/
structure FsCopy where
  nodeId : CStr
  nodeIp : CStr
  nodePort : UInt16
  nodeBlockNumber : UInt16
  deriving DecidableEq

/-- `CreateCopy`. -/
def FsCopy.copy (c : FsCopy) : Copy := ⟨c.nodeId, c.nodeBlockNumber⟩

/-- A copy in the reply. -/
def readCopy : Reader FsCopy := do
  let nodeId ← prefixed32
  let nodeIp ← prefixed16
  let nodePort ← u16
  let nodeBlockNumber ← u16
  pure ⟨upToNul nodeId, upToNul nodeIp, nodePort, nodeBlockNumber⟩

/-- The copies of a block in the reply. -/
def readCopies : Reader (List FsCopy) := do
  let copyesCount ← u16
  (List.range copyesCount.toNat).foldlM (fun copies _ => do
    let copy ← readCopy
    pure (copies ++ [copy])) []

/-- What `requestFileBlocks` reads of the reply. -/
def readFileBlocks : Reader (List (List FsCopy)) := do
  let blocksCount ← u16
  (List.range blocksCount.toNat).foldlM (fun blocks _ => do
    let copies ← readCopies
    pure (blocks ++ [copies])) []

/-- The blocks in a reply. The FileSystem's are as long as their counts say; one that is not is taken
for one without blocks. -/
def fileBlocksOf (buffer : Packet) : List (List FsCopy) := (readFileBlocks.run buffer).elim [] Prod.fst

/-- A reply that lists blocks. -/
def listing (blocks : List (List FsCopy)) : Packet :=
  be16 blocks.length.toUInt16 ++ blocks.flatMap fun copies => be16 copies.length.toUInt16 ++ copies.flatMap fun c =>
    be32 c.nodeId.length.toUInt32 ++ c.nodeId ++ be16 c.nodeIp.length.toUInt16 ++ c.nodeIp ++ be16 c.nodePort ++
      be16 c.nodeBlockNumber

/-- An order sent to a Job. -/
inductive Order
  | map (map : Map)
  | reduce (reduce : Reduce)
  deriving DecidableEq

/-- A result of a Job; a reduce that failed comes with the name of a node. -/
inductive Result
  | map (id : UInt16) (result : Bool)
  | reduce (id : UInt16) (failed : Option CStr)
  deriving DecidableEq

/-- The answer to an order: its id, and the outcome. -/
def Order.result (failed : Option CStr) : Order → Result
  | .map m => .map m.id (failed = none)
  | .reduce r => .reduce r.id failed

inductive Event
  | order (order : Order)
  | result (result : Result)
  deriving DecidableEq

/-- Where a job is between the two halves of what it does to the nodes. -/
inductive Hand
  | free
  /-- A block was added to the `n`-th node, its order is not sent. -/
  | announced (n : ℕ) (nodeName : CStr) (numBlock : UInt16)
  /-- A reduce was counted on a node, its order is not sent. -/
  | counted (finalNode : CStr)
  /-- The order was answered, and is still on its node. -/
  | answered (order : Order)
  | dying
  deriving DecidableEq

/-- What is read of a node outside its mutex. -/
structure NodeInfo where
  name : CStr
  ip : CStr
  port : UInt16
  deriving DecidableEq

/-- A job as seen from its socket and from the nodes. -/
structure Talk where
  /-- The orders without an answer. -/
  pending : List Order
  history : List Event
  /-- The blocks of the job's files, as `planMaps` got them. -/
  blocks : List (List FsCopy)
  /-- `planMaps` found no active copy of a block. -/
  skipped : Bool
  /-- `planMaps` took the maps that it had sent off their nodes. -/
  dropped : Bool
  /-- `rePlanMap` found no active copy of a block. -/
  stranded : Bool
  /-- `rePlanMapsFromNode` was started after that. -/
  late : Bool
  /-- A map was planned again. -/
  replanned : Bool
  /-- The node and the block that were last selected, with the copies they were selected from. -/
  chosen : Option (ℕ × UInt16 × List Copy)
  /-- The nodes that were read, with their places. -/
  shown : List (ℕ × NodeInfo)
  /-- The blocks that the job has put on nodes. -/
  bookedMaps : List (CStr × UInt16)
  bookedReduces : List CStr
  hand : Hand
  alive : Bool
  deriving DecidableEq

/-- A job that has not started. -/
def Talk.start : Talk where
  pending := []
  history := []
  blocks := []
  skipped := false
  dropped := false
  stranded := false
  late := false
  replanned := false
  chosen := none
  shown := []
  bookedMaps := []
  bookedReduces := []
  hand := .free
  alive := true

structure World where
  nodes : List Node
  talk : ℕ → Talk

/-- What is written down about job `t`. -/
def World.say (w : World) (t : ℕ) (f : Talk → Talk) : World :=
  { w with talk := Function.update w.talk t (f (w.talk t)) }

/-! ## Requests -/

/-- The two places that plan a map. -/
inductive Site
  | plan
  | replan
  deriving DecidableEq

/-- The three places that take a map off its node. -/
inductive Removal
  | result
  | skip
  | free
  deriving DecidableEq

/-- Points of the source that do nothing to the shared state. -/
inductive Point
  /-- `planMaps` returns. -/
  | planned
  /-- `rePlanMapsFromNode` starts. -/
  | replan
  /-- `rePlanMapsFromNode` returns 1. -/
  | replanned
  deriving DecidableEq

inductive Req
  | fileBlocks (site : Site) (path : CStr)
  | updateNodes (nodeID nodeIP : CStr) (nodePort : UInt16)
  | selectNode (site : Site) (copies : List Copy)
  /-- The `list_add` of `mapPlanning`, which does not hold `Mnodes`: here it is one step all the same. -/
  | listAddMap (n : ℕ) (numBlock : UInt16)
  | readNode (n : ℕ)
  | getTime
  | removeMapNode (site : Removal) (nodeName : CStr) (numBlock : UInt16)
  | sendMap (site : Site) (map : Map)
  | recv
  | deactivateNode (nodeName : CStr)
  | selectMoreTemps (maps : List Map)
  | selectFinalNode (reduces : List Reduce)
  | addReduceNode (finalNode : CStr)
  /-- The order is the final one, or one of the partial ones, of the job. -/
  | sendReduce (final : Bool) (job : Job) (reduce : Reduce)
  | removeReduceNode (finalNode : CStr)
  | copyFinal (job : Job)
  | sendDie (result : UInt8)
  | exit
  | mark (point : Point) (job : Job)

/-- The reply to `copyFinalTemporal`. -/
structure CopyReply where
  result : Bool
  reason : UInt8
  deriving DecidableEq

abbrev Resp : Req → Type
  | .fileBlocks _ _ => Packet
  | .selectNode _ _ => Option (ℕ × UInt16)
  | .readNode _ => NodeInfo
  | .getTime => Time
  | .sendMap _ _ => Bool
  | .recv => Option Result
  | .selectMoreTemps _ => Option ℕ
  | .selectFinalNode _ => NodeInfo
  | .sendReduce _ _ _ => Bool
  | .copyFinal _ => CopyReply
  | _ => Unit

/-- What the outside decides. -/
inductive Choice
  /-- A packet to the Job gets through. -/
  | done
  /-- The FileSystem replies to a request for the blocks of a file. -/
  | replied (buffer : Packet)
  | time (time : Time)
  /-- The Job answers its `i`-th order. -/
  | answer (i : ℕ) (failed : Option CStr)
  | copied (reply : CopyReply)
  /-- The socket of the Job breaks. -/
  | broken
  deriving DecidableEq

/-- The FileSystem lists the blocks of a file; none when it is not available. -/
def Choice.blocks (blocks : List (List FsCopy)) : Choice := .replied (listing blocks)

def Choice.buffer : Choice → Packet
  | .replied buffer => buffer
  | _ => listing []

def Choice.reply (c : Choice) : List (List FsCopy) := fileBlocksOf c.buffer

def Choice.clock : Choice → Time
  | .time t => t
  | _ => ⟨List.replicate 24 48, rfl⟩

def Choice.copyReply : Choice → CopyReply
  | .copied reply => reply
  | _ => ⟨false, 0⟩

/-- The name of the node at a place. -/
def nameAt (nodes : List Node) (n : ℕ) : CStr := (nodes[n]?).elim [] Node.name

def Node.info (node : Node) : NodeInfo := ⟨node.name, node.ip, node.port⟩

/-- What is written down when an order gets through. -/
def Talk.sent (l : Talk) (o : Order) : Talk :=
  { l with pending := l.pending ++ [o], history := l.history ++ [.order o], hand := .free }

/-- What is written down when the order of a map is sent, or is lost. -/
def Talk.mapSent (l : Talk) (site : Site) (map : Map) (through : Bool) : Talk :=
  if through then { l.sent (.map map) with replanned := l.replanned || site = .replan } else { l with hand := .dying }

/-- What is written down when the order of a reduce is sent, or is lost. -/
def Talk.reduceSent (l : Talk) (reduce : Reduce) (through : Bool) : Talk :=
  if through then l.sent (.reduce reduce) else { l with hand := .dying }

/-- What is written down when `node` is put to work on a block. -/
def Talk.added (l : Talk) (n : ℕ) (name : CStr) (numBlock : UInt16) : Talk :=
  { l with bookedMaps := l.bookedMaps ++ [(name, numBlock)], hand := .announced n name numBlock }

def Talk.read (l : Talk) (n : ℕ) (node : NodeInfo) : Talk := { l with shown := l.shown ++ [(n, node)] }

/-- What is written down when a reduce is counted on the node `name`, and when it is taken off. -/
def Talk.reduceAdded (l : Talk) (finalNode name : CStr) : Talk :=
  { l with bookedReduces := l.bookedReduces ++ [name], hand := .counted finalNode }

def Talk.reduceRemoved (l : Talk) (name : CStr) : Talk :=
  { l with bookedReduces := l.bookedReduces.erase name, hand := .free }

def Talk.left (l : Talk) : Talk := { l with hand := .dying, alive := false }

/-- What is written down when the answer to the `i`-th order is received. -/
def Talk.answered (l : Talk) (i : ℕ) (o : Order) (failed : Option CStr) : Talk :=
  { l with pending := l.pending.eraseIdx i, history := l.history ++ [.result (o.result failed)], hand := .answered o }

/-- What is written down of the blocks of a file. -/
def Talk.blocksGot (l : Talk) (site : Site) (reply : List (List FsCopy)) : Talk :=
  if site = .plan then { l with blocks := l.blocks ++ reply } else l

/-- What is written down of a selection. -/
def Talk.selected (l : Talk) (site : Site) (copies : List Copy) : Option (ℕ × UInt16) → Talk
  | some x => { l with chosen := some (x.1, x.2, copies) }
  | none => { l with skipped := l.skipped || site = .plan, stranded := l.stranded || site = .replan }

/-- What is written down when a map is taken off the node `name`. -/
def Talk.removed (l : Talk) (site : Removal) (name : CStr) (numBlock : UInt16) : Talk :=
  { l with
    bookedMaps := l.bookedMaps.erase (name, numBlock)
    dropped := l.dropped || site = .skip
    hand := match site with
      | .result => .free
      | .skip => l.hand
      | .free => .dying }

/-- What is written down at a point of the source. -/
def Talk.marked (l : Talk) : Point → Talk
  | .replan => { l with late := l.late || l.stranded }
  | _ => l

/-- Job `t`'s requests. A request that follows a `NULL` node is not served: the process ends. -/
def serve (t : ℕ) : Handler Resp World Choice
  | w, .fileBlocks site _, c =>
    some (c.buffer, w.say t fun l => l.blocksGot site c.reply)
  | w, .updateNodes nodeID nodeIP nodePort, _ =>
      some ((), { w with nodes := updateNodes w.nodes nodeID nodeIP nodePort })
  | w, .selectNode site copies, _ =>
    (selectNodeToMap w.nodes copies).map fun x => (x, w.say t fun l => l.selected site copies x)
  | w, .listAddMap n numBlock, _ => (w.nodes[n]?).map fun node =>
    ((), { w with nodes := addMapNode w.nodes n numBlock }.say t fun l => l.added n node.name numBlock)
  | w, .readNode n, _ => (w.nodes[n]?).map fun node => (node.info, w.say t fun l => l.read n node.info)
  | w, .getTime, c => some (c.clock, w)
  | w, .removeMapNode site nodeName numBlock, _ =>
    (findNode w.nodes nodeName).bind fun n => (removeMapNode w.nodes nodeName numBlock).map fun nodes =>
      ((), { w with nodes }.say t fun l => l.removed site (nameAt w.nodes n) numBlock)
  | w, .sendMap site map, c =>
    some (c = .done, w.say t fun l => l.mapSent site map (c = .done))
  | w, .recv, .answer i failed =>
    ((w.talk t).pending[i]?).map fun o => (some (o.result failed), w.say t fun l => l.answered i o failed)
  | w, .recv, _ => some (none, w.say t fun l => { l with hand := .dying })
  | w, .deactivateNode nodeName, _ => (deactivateNode w.nodes nodeName).map fun nodes => ((), { w with nodes })
  | w, .selectMoreTemps maps, _ => (selectMoreTemps w.nodes maps).map fun x => (x, w)
  | w, .selectFinalNode reduces, _ =>
    (selectFinalNode w.nodes reduces).join.bind fun x => (w.nodes[x.1]?).map fun node =>
      (node.info, w.say t fun l => l.read x.1 node.info)
  | w, .addReduceNode finalNode, _ =>
    (findNode w.nodes finalNode).bind fun n => (addReduceNode w.nodes finalNode).map fun nodes =>
      ((), { w with nodes }.say t fun l => l.reduceAdded finalNode (nameAt w.nodes n))
  | w, .sendReduce _ _ reduce, c => some (c = .done, w.say t fun l => l.reduceSent reduce (c = .done))
  | w, .removeReduceNode finalNode, _ =>
    (findNode w.nodes finalNode).bind fun n => (removeReduceNode w.nodes finalNode).map fun nodes =>
      ((), { w with nodes }.say t fun l => l.reduceRemoved (nameAt w.nodes n))
  | w, .copyFinal _, c => some (c.copyReply, w)
  | w, .sendDie _, _ => some ((), w)
  | w, .exit, _ => some ((), w.say t Talk.left)
  | w, .mark point _, _ => some ((), w.say t fun l => l.marked point)

end Mdfs.MaRTA
