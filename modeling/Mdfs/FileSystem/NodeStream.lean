import Mdfs.Lib.Pool
import Mdfs.Nodo.BlockStore
import Mathlib.Data.List.Chain

/-!
# The stream to a node

`connections_node.c` of the FileSystem: any number of threads send packets on the
connection of one node and wait for its replies, each inside the mutex of the node.
`connections_node_getNodeMutex` looks the mutex up and puts a new one in two separate
critical sections, so threads that find none at the same time each make their own.

`OneMiss` is the condition that no lookup finds none after another has. Along it all
threads share one mutex (`Guarded`).

* `guarded_rule`: every step along it keeps the stream to one thread at a time.
* `stream_never_mixed`: so packets and replies stay together in every interleaving.
* `stream_mixed`: without the condition, an alive packet is taken for a block.
-/

namespace Mdfs.FileSystem.Connections

open Lib Wire Nodo

/-! ## The connection and its mutex -/

/-- Which of the sends of the source a packet comes from. -/
inductive Part
  | setBlock
  | blockData
  | request
  | alive
  deriving DecidableEq

/-- A packet on the connection, with the thread that sent it. -/
structure Sent where
  thread : ℕ
  part : Part
  packet : Packet
  deriving DecidableEq

/-- The mutexes made for a node. -/
structure NodeMutexes where
  /-- The mutex of the node in the dictionary `nodesMutex`. -/
  nodesMutex : Option ℕ
  /-- How many there are. -/
  count : ℕ
  holder : ℕ → Option ℕ
  /-- The threads whose lookup found none. -/
  missed : List ℕ

/-- The connection of a node, and what has gone over it. -/
structure NodeStream where
  connected : Bool
  /-- The packets that the node received. -/
  packets : List Sent
  /-- The node takes the next packet for the data of a block. -/
  settingBlock : Bool
  /-- The threads whose requests the node has answered, the replies on their way. -/
  replies : List ℕ
  /-- The replies received: the thread that asked, and the one that got it. -/
  received : List (ℕ × ℕ)

structure NodeLink where
  mutexes : NodeMutexes
  stream : NodeStream

/-- The node's `connections_fs_listenActions` on one packet of thread `t`. -/
def NodeStream.deliver (s : NodeStream) (t : ℕ) (packet : Packet) : NodeStream :=
  if s.settingBlock then { s with settingBlock := false }
  else if packet.head? = some COMMAND_FS_TO_NODE_SET_BLOCK then { s with settingBlock := true }
  else if packet.head? = some COMMAND_FS_TO_NODE_GET_BLOCK ∨ packet.head? = some COMMAND_NODE_GET_TMP_FILE_CONTENT then
    { s with replies := s.replies ++ [t] }
  else s

/-- A packet sent and received. -/
def NodeStream.send (s : NodeStream) (t : ℕ) (part : Part) (packet : Packet) : NodeStream :=
  { s.deliver t packet with packets := s.packets ++ [⟨t, part, packet⟩] }

/-- What the threads do one step at a time. -/
inductive NodeReq
  | getMutex
  | putMutex
  | lock (m : ℕ)
  | unlock (m : ℕ)
  | connection
  | send (part : Part) (packet : Packet)
  | recv
  | removeConnection
  deriving DecidableEq

abbrev NodeResp : NodeReq → Type
  | .getMutex => Option ℕ
  | .putMutex => ℕ
  | .connection => Bool
  | .send _ _ => Bool
  | .recv => Option Packet
  | _ => Unit

/-- Thread `t`'s steps. The outside decides whether a packet gets through, what a reply
holds, and whether `dictionary_put` replaces an entry that is there. A lock waits for
its mutex, a receive for a reply or for the end of the connection. -/
def serveNode (t : ℕ) : Handler NodeResp NodeLink (Option Packet)
  | ⟨x, s⟩, .getMutex, _ => some (x.nodesMutex, ⟨if x.nodesMutex = none then { x with missed := t :: x.missed }
      else x, s⟩)
  | ⟨x, s⟩, .putMutex, i =>
    let nodesMutex := if i = none then x.nodesMutex.or (some x.count) else some x.count
    some (x.count, ⟨{ x with nodesMutex, count := x.count + 1 }, s⟩)
  | ⟨x, s⟩, .lock m, _ =>
    if x.holder m = none then some ((), ⟨{ x with holder := Function.update x.holder m (some t) }, s⟩) else none
  | ⟨x, s⟩, .unlock m, _ => some ((), ⟨{ x with holder := Function.update x.holder m none }, s⟩)
  | ⟨x, s⟩, .connection, _ => some (s.connected, ⟨x, s⟩)
  | ⟨x, s⟩, .send _ _, none => some (false, ⟨x, s⟩)
  | ⟨x, s⟩, .send part packet, some _ => some (true, ⟨x, s.send t part packet⟩)
  | ⟨x, s⟩, .recv, none => some (none, ⟨x, s⟩)
  | ⟨x, s⟩, .recv, some content =>
    match s.replies with
    | [] => none
    | r :: rs => some (some content, ⟨x, { s with replies := rs, received := s.received ++ [(r, t)] }⟩)
  | ⟨x, s⟩, .removeConnection, _ => some ((), ⟨x, { s with connected := false }⟩)

/-! ## `connections_node.c` -/

abbrev NodeProg := Prog NodeResp Empty

abbrev nodeRequest (r : NodeReq) : NodeProg (NodeResp r) := .ask r .ret

/-- `connections_node_getNodeMutex`. -/
def connectionsNodeGetNodeMutex : NodeProg ℕ := do
  match ← nodeRequest .getMutex with
  | some nodeMutex => pure nodeMutex
  | none => nodeRequest .putMutex

/-- The end of an operation whose connection was lost. -/
def removeDisconnected {α : Type} (nodeMutex : ℕ) (result : α) : NodeProg α := do
  nodeRequest .removeConnection
  nodeRequest (.unlock nodeMutex)
  pure result

/-- `connections_node_sendBlock`. -/
def connectionsNodeSendBlock (blockIndex : UInt16) (block : CStr) : NodeProg Bool := do
  let nodeMutex ← connectionsNodeGetNodeMutex
  nodeRequest (.lock nodeMutex)
  if ← nodeRequest .connection then
    if ← nodeRequest (.send .setBlock (COMMAND_FS_TO_NODE_SET_BLOCK :: be16 blockIndex)) then
      if ← nodeRequest (.send .blockData block) then
        nodeRequest (.unlock nodeMutex)
        pure true
      else removeDisconnected nodeMutex false
    else removeDisconnected nodeMutex false
  else
    nodeRequest (.unlock nodeMutex)
    pure false

/-- `connections_node_getBlock`. Its test of the send, `0 > SOCKET_ERROR_NONE`, never
fails: a reply is waited for in any case. -/
def connectionsNodeGetBlock (blockIndex : UInt16) : NodeProg (Option Packet) := do
  let nodeMutex ← connectionsNodeGetNodeMutex
  nodeRequest (.lock nodeMutex)
  if ← nodeRequest .connection then
    let _ ← nodeRequest (.send .request (COMMAND_FS_TO_NODE_GET_BLOCK :: be16 blockIndex))
    match ← nodeRequest .recv with
    | some buffer =>
      nodeRequest (.unlock nodeMutex)
      pure (some buffer)
    | none => removeDisconnected nodeMutex none
  else
    nodeRequest (.unlock nodeMutex)
    pure none

/-- `connections_node_getFileContent`. -/
def connectionsNodeGetFileContent (tmpFileName : CStr) : NodeProg (Option Packet) := do
  let nodeMutex ← connectionsNodeGetNodeMutex
  nodeRequest (.lock nodeMutex)
  if ← nodeRequest .connection then
    if ← nodeRequest (.send .request (COMMAND_NODE_GET_TMP_FILE_CONTENT :: be32 tmpFileName.length.toUInt32 ++
      tmpFileName)) then
      match ← nodeRequest .recv with
      | some buffer =>
        nodeRequest (.unlock nodeMutex)
        pure (some buffer)
      | none => removeDisconnected nodeMutex none
    else removeDisconnected nodeMutex none
  else
    nodeRequest (.unlock nodeMutex)
    pure none

/-- The loop of `connections_node_checkAlive`, for as many rounds. -/
def checkAliveRounds (nodeMutex : ℕ) : ℕ → NodeProg Unit
  | 0 => pure ()
  | rounds + 1 => do
    nodeRequest (.lock nodeMutex)
    if ← nodeRequest .connection then
      if ← nodeRequest (.send .alive [COMMAND_NODE_CHECK_ALIVE]) then
        nodeRequest (.unlock nodeMutex)
        checkAliveRounds nodeMutex rounds
      else removeDisconnected nodeMutex ()
    else nodeRequest (.unlock nodeMutex)

/-- `connections_node_checkAlive`; it looks the mutex up once. -/
def connectionsNodeCheckAlive (rounds : ℕ) : NodeProg Unit := do
  let nodeMutex ← connectionsNodeGetNodeMutex
  checkAliveRounds nodeMutex rounds

/-- What a thread runs on the node. A thread that runs several operations one after the
other does what as many threads can do. -/
inductive NodeOperation
  | sendBlock (blockIndex : UInt16) (block : CStr)
  | getBlock (blockIndex : UInt16)
  | getFileContent (tmpFileName : CStr)
  | checkAlive (rounds : ℕ)

def NodeOperation.prog : NodeOperation → NodeProg Unit
  | .sendBlock blockIndex block => do
    let _ ← connectionsNodeSendBlock blockIndex block
  | .getBlock blockIndex => do
    let _ ← connectionsNodeGetBlock blockIndex
  | .getFileContent tmpFileName => do
    let _ ← connectionsNodeGetFileContent tmpFileName
  | .checkAlive rounds => connectionsNodeCheckAlive rounds

/-- The mutexes before the threads start: one is there, or none. -/
def NodeMutexes.start (mutex : Bool) : NodeMutexes where
  nodesMutex := if mutex then some 0 else none
  count := if mutex then 1 else 0
  holder := fun _ => none
  missed := []

/-- The threads about to start on a node that has just connected. -/
def atNode (mutex : Bool) (ops : List NodeOperation) : Pool NodeResp Empty Unit NodeLink :=
  ⟨⟨.start mutex, ⟨true, [], false, [], []⟩⟩, ops.map NodeOperation.prog⟩

/-! ## What the stream is for -/

/-- After the command of a block comes its own data. -/
def Paired (x y : Sent) : Prop := x.part = .setBlock → y.thread = x.thread ∧ y.part = .blockData

instance Paired.decidable (x y : Sent) : Decidable (Paired x y) :=
  inferInstanceAs (Decidable (x.part = .setBlock → y.thread = x.thread ∧ y.part = .blockData))

/-- **An unmixed stream**: a `SET_BLOCK` is followed by its own data, and a reply goes
to the thread that asked. -/
structure Unmixed (s : NodeStream) : Prop where
  paired : s.packets.IsChain Paired
  own : ∀ x ∈ s.received, x.1 = x.2

instance Unmixed.decidable (s : NodeStream) : Decidable (Unmixed s) :=
  decidable_of_iff (s.packets.IsChain Paired ∧ ∀ x ∈ s.received, x.1 = x.2)
    ⟨fun h => ⟨h.1, h.2⟩, fun h => ⟨h.paired, h.own⟩⟩

/-- **One mutex**: a lookup that finds none is the first to find none. -/
def OneMiss (_ : ℕ) (s : NodeLink) (r : NodeReq) (_ : Option Packet) : Prop :=
  r = .getMutex → s.mutexes.nodesMutex = none → s.mutexes.missed = []

instance OneMiss.decidable (t : ℕ) (s : NodeLink) (r : NodeReq) (i : Option Packet) : Decidable (OneMiss t s r i) :=
  inferInstanceAs (Decidable (r = .getMutex → s.mutexes.nodesMutex = none → s.mutexes.missed = []))

/-! ## Where a thread is -/

/-- Where a thread is, with the mutex that it got. -/
inductive Phase
  | start
  /-- Its lookup found no mutex. -/
  | missed
  | out (m : ℕ)
  /-- Inside the mutex, without the connection, -/
  | inside (m : ℕ)
  /-- with the connection and nothing on its way, -/
  | ready (m : ℕ)
  /-- between a command and its data, -/
  | setting (m : ℕ)
  /-- or with a request that is not answered. -/
  | waiting (m : ℕ)

/-- The mutex a thread got. -/
def Phase.mutex : Phase → Option ℕ
  | .start | .missed => none
  | .out m | .inside m | .ready m | .setting m | .waiting m => some m

/-- The mutex a thread is inside of. -/
def Phase.holds : Phase → Option ℕ
  | .start | .missed | .out _ => none
  | .inside m | .ready m | .setting m | .waiting m => some m

/-- What a thread may do next. -/
inductive Phase.MayAsk : Phase → NodeReq → Prop
  | getMutex : MayAsk .start .getMutex
  | putMutex : MayAsk .missed .putMutex
  | lock {m} : MayAsk (.out m) (.lock m)
  | unlock {m} : MayAsk (.inside m) (.unlock m)
  | unlockReady {m} : MayAsk (.ready m) (.unlock m)
  | connection {m} : MayAsk (.inside m) .connection
  | setBlock {m packet} (h : packet.head? = some COMMAND_FS_TO_NODE_SET_BLOCK) :
    MayAsk (.ready m) (.send .setBlock packet)
  | request {m packet} (h : packet.head? = some COMMAND_FS_TO_NODE_GET_BLOCK ∨
      packet.head? = some COMMAND_NODE_GET_TMP_FILE_CONTENT) : MayAsk (.ready m) (.send .request packet)
  | alive {m packet} (h : packet.head? = some COMMAND_NODE_CHECK_ALIVE) : MayAsk (.ready m) (.send .alive packet)
  | blockData {m packet} : MayAsk (.setting m) (.send .blockData packet)
  | recvReady {m} : MayAsk (.ready m) .recv
  | recv {m} : MayAsk (.waiting m) .recv
  | removeReady {m} : MayAsk (.ready m) .removeConnection
  | removeSetting {m} : MayAsk (.setting m) .removeConnection
  | removeWaiting {m} : MayAsk (.waiting m) .removeConnection

/-- Where a thread is after a step. -/
def Phase.move : Phase → (r : NodeReq) → NodeResp r → Phase
  | _, .getMutex, some m => .out m
  | _, .getMutex, none => .missed
  | _, .putMutex, m => .out m
  | .out m, .lock _, _ => .inside m
  | .inside m, .unlock _, _ => .out m
  | .ready m, .unlock _, _ => .out m
  | .inside m, .connection, true => .ready m
  | .ready m, .send .setBlock _, true => .setting m
  | .ready m, .send .request _, true => .waiting m
  | .setting m, .send .blockData _, true => .ready m
  | .waiting m, .recv, some _ => .ready m
  | .ready m, .removeConnection, _ => .inside m
  | .setting m, .removeConnection, _ => .inside m
  | .waiting m, .removeConnection, _ => .inside m
  | p, _, _ => p

/-- A thread does what its place allows. -/
def phaseSpec : Spec NodeResp Phase where
  pre p r := p.MayAsk r
  post p r a q := q = p.move r a

/-! ## Each operation from its place -/

section Places

variable {α β : Type} {E : Empty → Phase → Prop} {m : ℕ} {p : Phase}

/-- One step, and the rest from where it leads. -/
theorem ok_step {r : NodeReq} {k : NodeResp r → NodeProg α} {Q : α → Phase → Prop} (hr : p.MayAsk r)
    (hk : ∀ a, (k a).Ok phaseSpec Q E (p.move r a)) : (nodeRequest r >>= k).Ok phaseSpec Q E p := by
  rw [Prog.ok_bind]
  refine ⟨hr, fun a q hq => ?_⟩
  subst hq
  exact hk a

theorem getNodeMutex_ok : connectionsNodeGetNodeMutex.Ok phaseSpec (fun m p => p = .out m) E .start := by
  unfold connectionsNodeGetNodeMutex
  refine ok_step .getMutex fun a => ?_
  cases a with
  | some m => rfl
  | none => exact ⟨.putMutex, fun m p hp => hp⟩

/-- What follows the mutex starts outside of it. -/
theorem after_mutex {k : ℕ → NodeProg α} {Q : α → Phase → Prop} (hk : ∀ m, (k m).Ok phaseSpec Q E (.out m)) :
    (connectionsNodeGetNodeMutex >>= k).Ok phaseSpec Q E .start := by
  rw [Prog.ok_bind]
  refine getNodeMutex_ok.imp fun m p hp => ?_
  subst hp
  exact hk m

/-- An operation that ends by unlocking the mutex. -/
theorem unlock_ok (a : α) (hp : p = .inside m ∨ p = .ready m) :
    (do
      nodeRequest (.unlock m)
      pure a : NodeProg α).Ok phaseSpec (fun _ q => q = .out m) E p := by
  rcases hp with rfl | rfl
  · exact ok_step .unlock fun _ => rfl
  · exact ok_step .unlockReady fun _ => rfl

theorem removeDisconnected_ok (a : α) (hp : p = .ready m ∨ p = .setting m ∨ p = .waiting m) :
    (removeDisconnected m a).Ok phaseSpec (fun _ q => q = .out m) E p := by
  unfold removeDisconnected
  rcases hp with rfl | rfl | rfl
  · exact ok_step .removeReady fun _ => unlock_ok a (Or.inl rfl)
  · exact ok_step .removeSetting fun _ => unlock_ok a (Or.inl rfl)
  · exact ok_step .removeWaiting fun _ => unlock_ok a (Or.inl rfl)

/-- A thread that returns is outside. -/
def Outside (_ : α) (p : Phase) : Prop := ∃ m, p = .out m

theorem Outside.of_out {q : NodeProg α} (h : q.Ok phaseSpec (fun _ p => p = .out m) E p) : q.Ok phaseSpec Outside E p :=
  h.imp fun _ _ hq => ⟨m, hq⟩

theorem sendBlock_ok (blockIndex : UInt16) (block : CStr) :
    (connectionsNodeSendBlock blockIndex block).Ok phaseSpec Outside E .start := by
  refine after_mutex fun m => Outside.of_out (m := m) ?_
  refine ok_step .lock fun _ => ok_step .connection fun connected => ?_
  cases connected with
  | false => exact unlock_ok false (Or.inl rfl)
  | true =>
    refine ok_step (.setBlock rfl) fun sent => ?_
    cases sent with
    | false => exact removeDisconnected_ok false (Or.inl rfl)
    | true =>
      refine ok_step .blockData fun sent => ?_
      cases sent with
      | false => exact removeDisconnected_ok false (Or.inr (Or.inl rfl))
      | true => exact unlock_ok true (Or.inr rfl)

/-- A reply that is waited for, with the request on its way or not. -/
theorem recv_ok (hp : p = .ready m ∨ p = .waiting m) :
    (do
      match ← nodeRequest .recv with
      | some buffer =>
        nodeRequest (.unlock m)
        pure (some buffer)
      | none => removeDisconnected m none : NodeProg (Option Packet)).Ok phaseSpec (fun _ q => q = .out m) E p := by
  rcases hp with rfl | rfl
  · refine ok_step .recvReady fun reply => ?_
    cases reply with
    | some buffer => exact unlock_ok (some buffer) (Or.inr rfl)
    | none => exact removeDisconnected_ok none (Or.inl rfl)
  · refine ok_step .recv fun reply => ?_
    cases reply with
    | some buffer => exact unlock_ok (some buffer) (Or.inr rfl)
    | none => exact removeDisconnected_ok none (Or.inr (Or.inr rfl))

theorem getBlock_ok (blockIndex : UInt16) : (connectionsNodeGetBlock blockIndex).Ok phaseSpec Outside E .start := by
  refine after_mutex fun m => Outside.of_out (m := m) ?_
  refine ok_step .lock fun _ => ok_step .connection fun connected => ?_
  cases connected with
  | false => exact unlock_ok none (Or.inl rfl)
  | true =>
    refine ok_step (.request (Or.inl rfl)) fun sent => ?_
    cases sent with
    | false => exact recv_ok (Or.inl rfl)
    | true => exact recv_ok (Or.inr rfl)

theorem getFileContent_ok (tmpFileName : CStr) :
    (connectionsNodeGetFileContent tmpFileName).Ok phaseSpec Outside E .start := by
  refine after_mutex fun m => Outside.of_out (m := m) ?_
  refine ok_step .lock fun _ => ok_step .connection fun connected => ?_
  cases connected with
  | false => exact unlock_ok none (Or.inl rfl)
  | true =>
    refine ok_step (.request (Or.inr rfl)) fun sent => ?_
    cases sent with
    | false => exact removeDisconnected_ok none (Or.inl rfl)
    | true => exact recv_ok (Or.inr rfl)

/-- Each round of the checker starts and ends outside. -/
theorem checkAliveRounds_ok (rounds : ℕ) :
    (checkAliveRounds m rounds).Ok phaseSpec (fun _ q => q = .out m) E (.out m) := by
  induction rounds with
  | zero => rfl
  | succ rounds ih =>
    unfold checkAliveRounds
    refine ok_step .lock fun _ => ok_step .connection fun connected => ?_
    cases connected with
    | false => exact unlock_ok () (Or.inl rfl)
    | true =>
      refine ok_step (.alive rfl) fun sent => ?_
      cases sent with
      | false => exact removeDisconnected_ok () (Or.inl rfl)
      | true => exact ok_step .unlockReady fun _ => ih

theorem prog_ok (op : NodeOperation) : op.prog.Ok phaseSpec Outside E .start := by
  cases op with
  | sendBlock blockIndex block =>
    rw [NodeOperation.prog, Prog.ok_bind]
    exact sendBlock_ok blockIndex block
  | getBlock blockIndex =>
    rw [NodeOperation.prog, Prog.ok_bind]
    exact getBlock_ok blockIndex
  | getFileContent tmpFileName =>
    rw [NodeOperation.prog, Prog.ok_bind]
    exact getFileContent_ok tmpFileName
  | checkAlive rounds => exact after_mutex fun m => Outside.of_out (checkAliveRounds_ok rounds)

end Places

/-! ## One thread at a time -/

variable {x y : NodeMutexes} {s u : NodeStream} {g : ℕ → Phase} {t m : ℕ} {p : Phase}

/-- Nothing is on its way: no data is due, and no reply. -/
structure Settled (s : NodeStream) : Prop where
  noData : s.settingBlock = false
  noReply : s.replies = []
  last : ∀ x ∈ s.packets.getLast?, x.part ≠ .setBlock

/-- The stream as thread `t` leaves it at its place. -/
def NodeStream.LeftBy (s : NodeStream) (t : ℕ) : Phase → Prop
  | .inside _ => s.connected = true → Settled s
  | .ready _ => Settled s
  | .setting _ => s.settingBlock = true ∧ s.replies = [] ∧ ∃ packet, s.packets.getLast? = some ⟨t, .setBlock, packet⟩
  | .waiting _ => s.settingBlock = false ∧ s.replies = [t] ∧ ∀ x ∈ s.packets.getLast?, x.part ≠ .setBlock
  | _ => True

/-- What thread `t` at `p` relies on: its mutex is the one in the dictionary, where there
is none it is the only one to have missed it, and it holds the mutex it is inside of. -/
structure NodeMutexes.Fits (x : NodeMutexes) (t : ℕ) (p : Phase) : Prop where
  shared : ∀ m, p.mutex = some m → x.nodesMutex = some m
  missed : p = .missed → x.nodesMutex = none ∧ x.missed = [t]
  holder : ∀ m, p.holds = some m → x.holder m = some t

/-- **The invariant**: one mutex for all threads, and the stream as the thread inside of
it leaves it. -/
structure Guarded (l : NodeLink) (g : ℕ → Phase) : Prop where
  unmixed : Unmixed l.stream
  fits : ∀ t, l.mutexes.Fits t (g t)
  left : ∀ t, l.stream.LeftBy t (g t)
  free : (∀ t, (g t).holds = none) → l.stream.connected = true → Settled l.stream

theorem Phase.mutex_of_holds (h : p.holds = some m) : p.mutex = some m := by
  cases p with
  | start | missed | out m' => cases h
  | inside m' | ready m' | setting m' | waiting m' => exact h

/-- A thread outside leaves the stream to the others. -/
theorem leftBy_of_outside (h : p.holds = none) : s.LeftBy t p := by
  cases p with
  | start | missed | out m' => trivial
  | inside m' | ready m' | setting m' | waiting m' => cases h

/-- Only one thread is inside. -/
theorem Guarded.unique (h : Guarded ⟨x, s⟩ g) {t' m' : ℕ} (ht : (g t).holds = some m) (ht' : (g t').holds = some m') :
    t = t' := by
  have hm := (h.fits t).shared m (Phase.mutex_of_holds ht)
  have hm' := (h.fits t').shared m' (Phase.mutex_of_holds ht')
  have hmm : m = m' := Option.some.inj (hm.symm.trans hm')
  subst hmm
  exact Option.some.inj (((h.fits t).holder m ht).symm.trans ((h.fits t').holder m ht'))

theorem Guarded.outside (h : Guarded ⟨x, s⟩ g) (ht : (g t).holds = some m) {t' : ℕ} (hne : t' ≠ t) :
    (g t').holds = none := by
  cases hh : (g t').holds with
  | none => rfl
  | some m' => exact (hne (h.unique hh ht)).elim

/-- **A step inside the mutex** touches the stream only. -/
theorem Guarded.work (h : Guarded ⟨x, s⟩ g) (ht : (g t).holds = some m) (hp : p.holds = some m) (hu : Unmixed u)
    (hleft : u.LeftBy t p) : Guarded ⟨x, u⟩ (Function.update g t p) := by
  refine ⟨hu, ?_, ?_, fun hfree => ?_⟩
  · refine (Function.forall_update_iff g (p := fun t p => x.Fits t p)).2
      ⟨⟨fun m' hm => ?_, fun hm => ?_, fun m' hm => ?_⟩,
      fun t' _ => h.fits t'⟩
    · rw [Phase.mutex_of_holds hp] at hm
      exact Option.some.inj hm ▸ (h.fits t).shared m (Phase.mutex_of_holds ht)
    · subst hm
      cases hp
    · rw [hp] at hm
      exact Option.some.inj hm ▸ (h.fits t).holder m ht
  · exact (Function.forall_update_iff g (p := fun t p => u.LeftBy t p)).2
      ⟨hleft, fun t' hne => leftBy_of_outside (h.outside ht hne)⟩
  · have hnone := hfree t
    rw [Function.update_self, hp] at hnone
    cases hnone

/-- **A step outside the mutex** leaves the stream as it is. -/
theorem Guarded.pass (h : Guarded ⟨x, s⟩ g) (ht : (g t).holds = none) (hp : p.holds = none) (hfits : y.Fits t p)
    (hother : ∀ t', t' ≠ t → y.Fits t' (g t')) : Guarded ⟨y, s⟩ (Function.update g t p) := by
  refine ⟨h.unmixed, ?_, ?_, fun hfree => h.free fun t' => ?_⟩
  · exact (Function.forall_update_iff g (p := fun t p => y.Fits t p)).2 ⟨hfits, hother⟩
  · exact (Function.forall_update_iff g (p := fun t p => s.LeftBy t p)).2
      ⟨leftBy_of_outside hp, fun t' _ => h.left t'⟩
  · by_cases htt : t' = t
    · rw [htt, ht]
    · have hnone := hfree t'
      rwa [Function.update_of_ne htt] at hnone

/-- Finding the mutex. -/
theorem Guarded.found (h : Guarded ⟨x, s⟩ g) (ht : g t = .start) (hm : x.nodesMutex = some m) :
    Guarded ⟨x, s⟩ (Function.update g t (.out m)) := by
  refine h.pass (by rw [ht]; rfl) rfl ⟨fun m' hm' => ?_, nofun, nofun⟩
    fun t' _ => h.fits t'
  rw [hm]
  exact hm'

/-- Finding none, as the only one. -/
theorem Guarded.miss (h : Guarded ⟨x, s⟩ g) (ht : g t = .start) (hm : x.nodesMutex = none) (hone : x.missed = []) :
    Guarded ⟨{ x with missed := t :: x.missed }, s⟩ (Function.update g t .missed) := by
  refine h.pass (by rw [ht]; rfl) rfl ⟨nofun, fun _ => ⟨hm, by rw [hone]⟩,
    nofun⟩ fun t' _ => ⟨(h.fits t').shared, fun hp => ?_, (h.fits t').holder⟩
  -- no other thread has missed it
  have hmissed := ((h.fits t').missed hp).2
  rw [hone] at hmissed
  cases hmissed

/-- Putting a mutex where there is none. -/
theorem Guarded.put (h : Guarded ⟨x, s⟩ g) (ht : g t = .missed) (n k : ℕ) :
    Guarded ⟨{ x with nodesMutex := some n, count := k }, s⟩ (Function.update g t (.out n)) := by
  obtain ⟨hnone, hone⟩ := (h.fits t).missed ht
  refine h.pass (by rw [ht]; rfl) rfl ⟨fun m' hm' => hm', nofun, nofun⟩
    fun t' hne => ⟨fun m' hm' => ?_, fun hp => ?_, (h.fits t').holder⟩
  · have hsome := (h.fits t').shared m' hm'
    rw [hnone] at hsome
    cases hsome
  · have hmissed := ((h.fits t').missed hp).2
    rw [hone] at hmissed
    exact (hne (List.singleton_injective hmissed).symm).elim

/-- Taking the mutex, when no thread is inside. -/
theorem Guarded.lock (h : Guarded ⟨x, s⟩ g) (ht : g t = .out m) (hfree : x.holder m = none) :
    Guarded ⟨{ x with holder := Function.update x.holder m (some t) }, s⟩ (Function.update g t (.inside m)) := by
  have hm : x.nodesMutex = some m := (h.fits t).shared m (by rw [ht]; rfl)
  have hnone : ∀ t', (g t').holds = none := by
    intro t'
    cases hh : (g t').holds with
    | none => rfl
    | some m' =>
      have hm' := (h.fits t').shared m' (Phase.mutex_of_holds hh)
      have hmm : m' = m := Option.some.inj (hm'.symm.trans hm)
      subst hmm
      have hholder := (h.fits t').holder m' hh
      rw [hfree] at hholder
      cases hholder
  refine ⟨h.unmixed, ?_, ?_, fun hfree => ?_⟩
  · refine (Function.forall_update_iff g (p := fun t p => NodeMutexes.Fits _ t p)).2 ⟨⟨fun m' hm' => ?_,
      nofun, fun m' hm' => ?_⟩, fun t' _ => ⟨(h.fits t').shared, (h.fits t').missed, fun m' hm' => ?_⟩⟩
    · exact Option.some.inj hm' ▸ hm
    · cases hm'
      exact Function.update_self ..
    · rw [hnone t'] at hm'
      cases hm'
  · exact (Function.forall_update_iff g (p := fun t p => s.LeftBy t p)).2
      ⟨h.free hnone, fun t' _ => h.left t'⟩
  · have hin := hfree t
    rw [Function.update_self] at hin
    cases hin

/-- Leaving the mutex, with nothing on its way. -/
theorem Guarded.unlock (h : Guarded ⟨x, s⟩ g) (ht : g t = .inside m ∨ g t = .ready m) :
    Guarded ⟨{ x with holder := Function.update x.holder m none }, s⟩ (Function.update g t (.out m)) := by
  have hin : (g t).holds = some m := by
    rcases ht with ht | ht <;> rw [ht] <;> rfl
  have hsettled : s.connected = true → Settled s := by
    have hleft := h.left t
    rcases ht with ht | ht
    · rw [ht] at hleft
      exact hleft
    · rw [ht] at hleft
      exact fun _ => hleft
  refine ⟨h.unmixed, ?_, ?_, fun _ => hsettled⟩
  · refine (Function.forall_update_iff g (p := fun t p => NodeMutexes.Fits _ t p)).2 ⟨⟨fun m' hm' => ?_,
      nofun, nofun⟩,
      fun t' hne => ⟨(h.fits t').shared, (h.fits t').missed, fun m' hm' => ?_⟩⟩
    · exact (h.fits t).shared m' ((Phase.mutex_of_holds hin).trans hm')
    · rw [h.outside hin hne] at hm'
      cases hm'
  · exact (Function.forall_update_iff g (p := fun t p => s.LeftBy t p)).2
      ⟨trivial, fun t' hne => leftBy_of_outside (h.outside hin hne)⟩

/-! ## What a packet does to the stream -/

@[simp] theorem received_deliver (packet : Packet) : (s.deliver t packet).received = s.received := by
  unfold NodeStream.deliver
  split_ifs <;> rfl

/-- A packet that may follow the last one. -/
theorem Unmixed.send (h : Unmixed s) {part : Part} {packet : Packet}
    (hlast : ∀ x ∈ s.packets.getLast?, Paired x ⟨t, part, packet⟩) : Unmixed (s.send t part packet) := by
  refine ⟨h.paired.append (List.IsChain.singleton _) fun x hx y hy => ?_, ?_⟩
  · cases hy
    exact hlast x hx
  · unfold NodeStream.send
    rw [received_deliver]
    exact h.own

/-- With nothing on its way, any packet may follow. -/
theorem Settled.paired (h : Settled s) {y : Sent} : ∀ x ∈ s.packets.getLast?, Paired x y :=
  fun x hx hpart => (h.last x hx hpart).elim

theorem Settled.deliver_setBlock (h : Settled s) {packet : Packet}
    (hp : packet.head? = some COMMAND_FS_TO_NODE_SET_BLOCK) : s.deliver t packet = { s with settingBlock := true } := by
  unfold NodeStream.deliver
  rw [if_neg (by rw [h.noData]; exact Bool.false_ne_true), if_pos hp]

theorem Settled.deliver_request (h : Settled s) {packet : Packet}
    (hp : packet.head? = some COMMAND_FS_TO_NODE_GET_BLOCK ∨ packet.head? = some COMMAND_NODE_GET_TMP_FILE_CONTENT) :
    s.deliver t packet = { s with replies := s.replies ++ [t] } := by
  have hne : packet.head? ≠ some COMMAND_FS_TO_NODE_SET_BLOCK := by
    rcases hp with hp | hp <;> rw [hp] <;> decide
  unfold NodeStream.deliver
  rw [if_neg (by rw [h.noData]; exact Bool.false_ne_true), if_neg hne, if_pos hp]

theorem Settled.deliver_alive (h : Settled s) {packet : Packet} (hp : packet.head? = some COMMAND_NODE_CHECK_ALIVE) :
    s.deliver t packet = s := by
  unfold NodeStream.deliver
  rw [if_neg (by rw [h.noData]; exact Bool.false_ne_true), if_neg (by rw [hp]; decide), if_neg (by rw [hp]; decide)]

/-- **Every packet that its thread may send** keeps the stream unmixed, and leaves it as
the thread's next place says. -/
theorem send_ok {part : Part} {packet : Packet} (h : Unmixed s) (hleft : s.LeftBy t p)
    (hask : p.MayAsk (.send part packet)) :
    Unmixed (s.send t part packet) ∧ (s.send t part packet).LeftBy t (p.move (.send part packet) true) := by
  have hnew : ∀ x ∈ (s.packets ++ [(⟨t, part, packet⟩ : Sent)]).getLast?, x.part = part := by
    intro x hx
    rw [List.getLast?_concat] at hx
    cases hx
    rfl
  -- with the stream settled the node takes the packet for what it is
  cases hask with
  | setBlock hp =>
    have hs : Settled s := hleft
    refine ⟨h.send hs.paired, ?_⟩
    unfold NodeStream.send
    rw [hs.deliver_setBlock hp]
    exact ⟨rfl, hs.noReply, packet, List.getLast?_concat⟩
  | request hp =>
    have hs : Settled s := hleft
    refine ⟨h.send hs.paired, ?_⟩
    unfold NodeStream.send
    rw [hs.deliver_request hp, hs.noReply]
    refine ⟨hs.noData, rfl, fun x hx => ?_⟩
    rw [hnew x hx]
    decide
  | alive hp =>
    have hs : Settled s := hleft
    refine ⟨h.send hs.paired, ?_⟩
    unfold NodeStream.send
    rw [hs.deliver_alive hp]
    refine ⟨hs.noData, hs.noReply, fun x hx => ?_⟩
    rw [hnew x hx]
    decide
  | blockData =>
    obtain ⟨hdata, hreply, command, hlast⟩ := hleft
    have hdeliver : s.deliver t packet = { s with settingBlock := false } := if_pos hdata
    refine ⟨h.send fun x hx _ => ?_, ?_⟩
    · -- the last packet is the thread's own command
      rw [hlast] at hx
      cases hx
      exact ⟨rfl, rfl⟩
    · unfold NodeStream.send
      rw [hdeliver]
      refine ⟨rfl, hreply, fun x hx => ?_⟩
      rw [hnew x hx]
      decide

/-- Sending, whether the packet gets through or not. -/
theorem Guarded.sent (h : Guarded ⟨x, s⟩ g) {part : Part} {packet : Packet} (hp : g t = p)
    (hask : p.MayAsk (.send part packet)) :
    Guarded ⟨x, s⟩ (Function.update g t (p.move (.send part packet) false)) ∧
      Guarded ⟨x, s.send t part packet⟩ (Function.update g t (p.move (.send part packet) true)) := by
  have hleft : s.LeftBy t p := hp ▸ h.left t
  obtain ⟨hu, hnext⟩ := send_ok h.unmixed hleft hask
  cases hask with
  | @setBlock m | @request m | @alive m | @blockData m =>
    have hin : (g t).holds = some m := by rw [hp]; rfl
    exact ⟨h.work hin rfl h.unmixed hleft, h.work hin rfl hu hnext⟩

/-- A reply goes to the thread that waits for it. -/
theorem reply_ok {r : ℕ} {rs : List ℕ} (h : Unmixed s) (hleft : s.LeftBy t (.waiting m))
    (hreplies : s.replies = r :: rs) :
    Unmixed { s with replies := rs, received := s.received ++ [(r, t)] } ∧
      Settled { s with replies := rs, received := s.received ++ [(r, t)] } := by
  obtain ⟨hdata, hreply, hlast⟩ := hleft
  obtain ⟨rfl, rfl⟩ := List.cons.inj (hreplies.symm.trans hreply)
  refine ⟨⟨h.paired, fun x hx => ?_⟩, ⟨hdata, rfl, hlast⟩⟩
  rcases List.mem_append.1 hx with hx | hx
  · exact h.own x hx
  · rw [List.mem_singleton.1 hx]

/-- **The one obligation**: every step along `OneMiss` keeps the invariant. -/
theorem guarded_rule : Pool.Rule (fun _ => phaseSpec) Guarded serveNode OneMiss := by
  intro t ⟨x, s⟩ g r i a u h hask hC hs
  refine ⟨_, rfl, ?_⟩
  have hleft := h.left t
  have hask' : (g t).MayAsk r := hask
  generalize hp : g t = p at hask' hleft ⊢
  cases hask' with
  -- the lookup finds the mutex, or it is the only one that misses
  | getMutex =>
    by_cases hm : x.nodesMutex = none
    · simp only [serveNode, if_pos hm] at hs
      cases hs
      have hmiss := h.miss hp hm (hC rfl hm)
      rw [hm] at hmiss ⊢
      exact hmiss
    · obtain ⟨m, hm'⟩ := Option.ne_none_iff_exists'.1 hm
      simp only [serveNode, if_neg hm] at hs
      cases hs
      rw [hm']
      exact h.found hp hm'
  | putMutex =>
    have hnone : x.nodesMutex = none := ((h.fits t).missed hp).1
    simp only [serveNode, hnone, Option.none_or, ite_self] at hs
    cases hs
    exact h.put hp _ _
  | @lock m =>
    by_cases hfree : x.holder m = none
    · simp only [serveNode, if_pos hfree] at hs
      cases hs
      exact h.lock hp hfree
    · simp only [serveNode, if_neg hfree] at hs
      cases hs
  | unlock =>
    cases hs
    exact h.unlock (Or.inl hp)
  | unlockReady =>
    cases hs
    exact h.unlock (Or.inr hp)
  | @connection m =>
    have hin : (g t).holds = some m := by rw [hp]; rfl
    cases hs
    cases hc : s.connected with
    | true => exact h.work hin rfl h.unmixed (hleft hc)
    | false => exact h.work hin rfl h.unmixed hleft
  -- a packet that fails is not on the stream
  | setBlock | request | alive | blockData =>
    have hsent := h.sent hp (hp ▸ hask)
    cases i <;> cases hs
    · exact hsent.1
    · exact hsent.2
  | @recvReady m =>
    have hin : (g t).holds = some m := by rw [hp]; rfl
    cases i with
    | none =>
      cases hs
      exact h.work hin rfl h.unmixed hleft
    | some content =>
      -- nothing was asked, so nothing is received
      have hnone : s.replies = [] := Settled.noReply hleft
      simp only [serveNode, hnone] at hs
      cases hs
  | @recv m =>
    have hin : (g t).holds = some m := by rw [hp]; rfl
    cases i with
    | none =>
      cases hs
      exact h.work hin rfl h.unmixed hleft
    | some content =>
      obtain ⟨r, rs, hreplies⟩ : ∃ r rs, s.replies = r :: rs := ⟨t, [], hleft.2.1⟩
      simp only [serveNode, hreplies] at hs
      cases hs
      obtain ⟨hu, hsettled⟩ := reply_ok h.unmixed hleft hreplies
      exact h.work hin rfl hu hsettled
  | @removeReady m | @removeSetting m | @removeWaiting m =>
    have hin : (g t).holds = some m := by rw [hp]; rfl
    cases hs
    exact h.work hin rfl ⟨h.unmixed.paired, h.unmixed.own⟩ nofun

/-- **The stream to a node never mixes requests**, in any interleaving of any number of
threads, when no lookup of the mutex finds none after another has. -/
theorem stream_never_mixed (mutex : Bool) (ops : List NodeOperation) (es : List (ℕ × Option Packet))
    (P : Pool NodeResp Empty Unit NodeLink)
    (hC : Along (Pool.step serveNode) (fun P x => P.Meets OneMiss x) (atNode mutex ops) es)
    (hrun : run (Pool.step serveNode) (atNode mutex ops) es = some P) : Unmixed P.state.stream := by
  have hstart : (atNode mutex ops).Ok (fun _ => phaseSpec) (fun _ => Outside) (fun _ _ _ => True) Guarded := by
    refine ⟨fun _ => .start, ⟨⟨List.IsChain.nil, by simp [atNode]⟩, fun t => ⟨nofun, nofun, nofun⟩, fun t => trivial,
      fun _ _ => ⟨rfl, rfl, by simp [atNode]⟩⟩, fun t p hp => ?_⟩
    obtain ⟨op, -, rfl⟩ := List.mem_map.1 (List.mem_of_getElem? hp)
    exact prog_ok op
  obtain ⟨g, hg, -⟩ := Pool.ok_run guarded_rule hstart hC hrun
  exact hg.unmixed

/-- The turns of the threads, all of whose packets get through. -/
def turns (ts : List ℕ) : List (ℕ × Option Packet) := ts.map fun t => (t, some [])

/-- A block set, a node checked and a block read at the first use of the node. -/
theorem stream_never_mixed_first_use :
    ∃ P, run (Pool.step serveNode) (atNode false [.sendBlock 0 (cstr "abc"), .checkAlive 1, .getBlock 0])
        (turns [0, 0, 1, 1, 1, 1, 1, 0, 0, 0, 0, 0, 2, 2, 2, 2, 2, 2]) = some P ∧
      P.state.stream.packets.length = 4 ∧ P.state.stream.received = [(2, 2)] ∧ Unmixed P.state.stream := by
  obtain ⟨P, hP, hlen, hgot, hC⟩ : ∃ P ∈ run (Pool.step serveNode)
      (atNode false [.sendBlock 0 (cstr "abc"), .checkAlive 1, .getBlock 0])
      (turns [0, 0, 1, 1, 1, 1, 1, 0, 0, 0, 0, 0, 2, 2, 2, 2, 2, 2]),
      P.state.stream.packets.length = 4 ∧ P.state.stream.received = [(2, 2)] ∧
        Along (Pool.step serveNode) (fun P x => P.Meets OneMiss x)
          (atNode false [.sendBlock 0 (cstr "abc"), .checkAlive 1, .getBlock 0])
          (turns [0, 0, 1, 1, 1, 1, 1, 0, 0, 0, 0, 0, 2, 2, 2, 2, 2, 2]) := by
    decide +kernel
  exact ⟨P, hP, hlen, hgot, stream_never_mixed _ _ _ _ hC hP⟩

/-- **Two mutexes for one node.** Both threads find none and make their own: the alive
packet comes where the node takes it for a block, and a reply goes to the other thread. -/
theorem stream_mixed :
    (∃ P, run (Pool.step serveNode) (atNode false [.sendBlock 0 (cstr "abc"), .checkAlive 1])
      (turns [0, 1, 0, 1, 0, 1, 0, 1, 0, 1]) = some P ∧
      P.state.stream.packets.map Sent.part = [.setBlock, .alive] ∧ ¬Unmixed P.state.stream) ∧
    ∃ P, run (Pool.step serveNode) (atNode false [.getBlock 0, .getBlock 1])
      (turns [0, 1, 0, 1, 0, 1, 0, 1, 0, 1, 1]) = some P ∧
      P.state.stream.received = [(0, 1)] ∧ ¬Unmixed P.state.stream := by
  decide +kernel

end Mdfs.FileSystem.Connections
