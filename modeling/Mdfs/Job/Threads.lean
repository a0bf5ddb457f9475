import Mdfs.Job.Reduce
import Mdfs.Utils.Handshake

/-!
# The threads of the Job

`atenderMapper` and `atenderReducer` of `marta.c`: the thread of an order connects to its
node, greets it, sends it the routine and sends the result to MaRTA. The test `!hand_nodo`
after the handshake is never met, since a handshake that fails returns a negative number;
the thread goes on, and takes the next packet for the reply.

The thread reads the reply without looking at its size. What is behind a packet in memory
is given by `past`.

* `atenderMapper_answers`, `atenderReducer_answers`: one result for an order, and what
  it says.
* `one_result`: it is a success only if the reply said so, but for an empty reply.
-/

namespace Mdfs.Job

open Lib Wire

/-- `t_map` of the Job. -/
structure Map where
  mapID : UInt16
  ipNodo : CStr
  portNodo : UInt16
  numBlock : UInt16
  tempResultName : CStr
  deriving DecidableEq

/-- `serializeMap`, with the text of the mapper: the packet it sends. -/
def serializeMap (fileMap : CStr) (map : Map) : Packet :=
  let sfileMap := fileMap.length.toUInt32
  let sTempName := map.tempResultName.length.toUInt32
  [COMMAND_MAP] ++ be16 map.numBlock ++ be32 sfileMap ++ fileMap.take sfileMap.toNat ++ be32 sTempName ++
    map.tempResultName.take sTempName.toNat

/-- What a thread finds at the ip and port of its order: a connection or none, what comes
of the handshake, whether the routine gets through, and the reply received or none. -/
structure Peer where
  connected : Bool
  greeting : Greeting
  routineSent : Bool
  reply : Option Packet
  deriving DecidableEq

/-- The packets of a thread that get through to the node, and those it sends to MaRTA. -/
structure Said where
  node : List Packet
  marta : List Packet
  deriving DecidableEq

/-- The byte `i` of a packet, or of what is behind it. -/
def byteAt (past : ℕ → UInt8) (buffer : Packet) (i : ℕ) : UInt8 := buffer.getD i (past i)

/-- The `n` bytes from byte `offset` on. -/
def bytesAt (past : ℕ → UInt8) (buffer : Packet) (offset n : ℕ) : List UInt8 :=
  (List.range n).map fun i => byteAt past buffer (offset + i)

/-- `sendMapResult`. -/
def sendMapResult (map : Map) (result : UInt8) : Packet := [COMMAND_MAP, result] ++ be16 map.mapID

/-- The text for MaRTA by which the Job says that it did not reach the node. -/
def errorAlConectar : CStr := cstr "ErrorAlConectar"

/-- `failReduce`. -/
def failReduce (reduce : Reduce) (fallenNode : CStr) : Packet :=
  let sfallenNode := fallenNode.length.toUInt16
  [COMMAND_REDUCE, 0] ++ be16 reduce.reduceID ++ be16 sfallenNode ++ fallenNode.take sfallenNode.toNat

/-- `confirmarReduce`, on the reply `bufferNodo`. -/
def confirmarReduce (past : ℕ → UInt8) (reduce : Reduce) (result : UInt8) (bufferNodo : Packet) (bufferOffset : ℕ) :
    Packet :=
  if result ≠ 0 then [COMMAND_REDUCE, result] ++ be16 reduce.reduceID
  else
    let snodeID := (value (bytesAt past bufferNodo bufferOffset 2)).toUInt16
    failReduce reduce (upToNul (bytesAt past bufferNodo (bufferOffset + 2) snodeID.toNat))

/-- `atenderMapper`, with the text of the mapper. -/
def atenderMapper (fileMap : CStr) (past : ℕ → UInt8) (peer : Peer) (map : Map) : Said :=
  if peer.connected then
    let handNodo := socketHandshakeToServer peer.greeting HANDSHAKE_NODO HANDSHAKE_JOB
    if handNodo.1 = 0 then ⟨handNodo.2, []⟩
    else
      let node := handNodo.2 ++ if peer.routineSent then [serializeMap fileMap map] else []
      match peer.reply with
      | none => ⟨node, [sendMapResult map 0]⟩
      | some buffer => ⟨node, [sendMapResult map (byteAt past buffer 0)]⟩
  else ⟨[], [sendMapResult map 0]⟩

/-- `atenderReducer`, with the text of the reducer. -/
def atenderReducer (fileReduce : CStr) (past : ℕ → UInt8) (peer : Peer) (reduce : Reduce) : Said :=
  if peer.connected then
    let handNodo := socketHandshakeToServer peer.greeting HANDSHAKE_NODO HANDSHAKE_JOB
    if handNodo.1 = 0 then ⟨handNodo.2, [failReduce reduce errorAlConectar]⟩
    else
      let node := handNodo.2 ++ if peer.routineSent then [serializeReduce fileReduce reduce] else []
      match peer.reply with
      | none => ⟨node, [failReduce reduce errorAlConectar]⟩
      | some buffer => ⟨node, [confirmarReduce past reduce (byteAt past buffer 0) buffer 1]⟩
  else ⟨[], [failReduce reduce errorAlConectar]⟩

/-! ## One result for an order -/

/-- The reply says that the routine succeeded. -/
def SaidSo (reply : Option Packet) : Prop := ∃ result buffer, reply = some (result :: buffer) ∧ result ≠ 0

/-- **One result**: a single packet for MaRTA with the command and the id of the order,
which reports success only if the reply said so. -/
def OneResult (command : UInt8) (id : UInt16) (reply : Option Packet) (packets : List Packet) : Prop :=
  ∃ result text, packets = [[command, result] ++ be16 id ++ text] ∧ (result ≠ 0 → SaidSo reply)

variable {past : ℕ → UInt8} {peer : Peer} {map : Map} {reduce : Reduce}

/-- The result byte that the thread goes by: none where it does not get to the reply. -/
def Peer.resultByte (past : ℕ → UInt8) (peer : Peer) : UInt8 :=
  if peer.connected then peer.reply.elim 0 fun buffer => byteAt past buffer 0 else 0

/-- **One result for a map**, with the byte read. -/
theorem atenderMapper_answers (routine : CStr) (past : ℕ → UInt8) (peer : Peer) (map : Map) :
    (atenderMapper routine past peer map).marta = [[COMMAND_MAP, peer.resultByte past] ++ be16 map.mapID] := by
  have hhand := socketHandshakeToServer_ne_zero peer.greeting HANDSHAKE_NODO HANDSHAKE_JOB
  unfold atenderMapper Peer.resultByte
  by_cases hconn : peer.connected = true
  · simp only [if_pos hconn, if_neg hhand]
    cases peer.reply with
    | none => rfl
    | some buffer => rfl
  · simp only [if_neg hconn]
    rfl

/-- **One result for a reduce**, with the byte read. -/
theorem atenderReducer_answers (routine : CStr) (past : ℕ → UInt8) (peer : Peer) (reduce : Reduce) :
    ∃ text, (atenderReducer routine past peer reduce).marta =
      [[COMMAND_REDUCE, peer.resultByte past] ++ be16 reduce.reduceID ++ text] := by
  have hhand := socketHandshakeToServer_ne_zero peer.greeting HANDSHAKE_NODO HANDSHAKE_JOB
  have hfail : ∀ fallenNode, ∃ text, failReduce reduce fallenNode = [COMMAND_REDUCE, 0] ++
    be16 reduce.reduceID ++ text :=
    fun fallenNode => ⟨_, by rw [failReduce, List.append_assoc]⟩
  unfold atenderReducer Peer.resultByte
  by_cases hconn : peer.connected = true
  · simp only [if_pos hconn, if_neg hhand]
    cases peer.reply with
    | none =>
      obtain ⟨text, htext⟩ := hfail errorAlConectar
      exact ⟨text, congrArg (fun p => [p]) htext⟩
    | some buffer =>
      simp only [confirmarReduce, Option.elim_some]
      by_cases hzero : byteAt past buffer 0 = 0
      · rw [if_neg (not_not.2 hzero), hzero]
        obtain ⟨text, htext⟩ := hfail (upToNul (bytesAt past buffer (1 + 2)
          (value (bytesAt past buffer 1 2)).toUInt16.toNat))
        exact ⟨text, congrArg (fun p => [p]) htext⟩
      · rw [if_pos hzero]
        exact ⟨[], by rw [List.append_nil]⟩
  · simp only [if_neg hconn]
    obtain ⟨text, htext⟩ := hfail errorAlConectar
    exact ⟨text, congrArg (fun p => [p]) htext⟩

/-- A byte that the reply holds is what the reply said. -/
theorem saidSo_of_resultByte (hreply : peer.connected = true → peer.reply ≠ some []) (h : peer.resultByte past ≠ 0) :
    SaidSo peer.reply := by
  unfold Peer.resultByte at h
  by_cases hconn : peer.connected = true
  · rw [if_pos hconn] at h
    cases hr : peer.reply with
    | none =>
      rw [hr] at h
      exact (h rfl).elim
    | some buffer =>
      rw [hr] at h
      cases buffer with
      | nil => exact (hreply hconn hr).elim
      | cons result buffer => exact ⟨result, buffer, rfl, h⟩
  · rw [if_neg hconn] at h
    exact (h rfl).elim

/-- An empty reply says nothing, and the thread goes by what is behind it. -/
theorem resultByte_empty (hconn : peer.connected = true) (hreply : peer.reply = some []) :
    peer.resultByte (fun _ => 1) = 1 ∧ ¬SaidSo peer.reply := by
  refine ⟨?_, ?_⟩
  · rw [Peer.resultByte, if_pos hconn, hreply]
    rfl
  · rintro ⟨result, buffer, hcons, -⟩
    rw [hreply] at hcons
    cases hcons

/-- The results that start alike report the same. -/
theorem result_eq {command r r' : UInt8} {id id' : UInt16} {text text' : Packet}
    (h : [[command, r] ++ be16 id ++ text] = [[command, r'] ++ be16 id' ++ text']) : r = r' := by
  simp only [List.cons_append, List.nil_append, List.cons.injEq] at h
  exact h.1.2.1

/-- **Exactly one result for an order**, whatever comes of connecting, greeting, sending
and receiving and whatever is behind the reply in memory; it carries the id of the order,
and it is a success only if the reply said so: if and only if the reply received on a
connection is not empty. -/
theorem one_result (fileMap fileReduce : CStr) (peer : Peer) (map : Map) (reduce : Reduce) :
    ((∀ past, OneResult COMMAND_MAP map.mapID peer.reply (atenderMapper fileMap past peer map).marta) ↔
      (peer.connected = true → peer.reply ≠ some [])) ∧
    ((∀ past, OneResult COMMAND_REDUCE reduce.reduceID peer.reply (atenderReducer fileReduce past peer reduce).marta) ↔
      (peer.connected = true → peer.reply ≠ some [])) := by
  refine ⟨⟨fun h hconn hreply => ?_, fun h past => ?_⟩, ⟨fun h hconn hreply => ?_, fun h past => ?_⟩⟩
  · obtain ⟨hbyte, hnot⟩ := resultByte_empty hconn hreply
    obtain ⟨result, text, heq, hsaid⟩ := h fun _ => 1
    rw [atenderMapper_answers, hbyte, ← List.append_nil ([COMMAND_MAP, 1] ++ be16 map.mapID)] at heq
    exact hnot (hsaid (by rw [← result_eq heq]; decide))
  · exact ⟨peer.resultByte past, [], by rw [atenderMapper_answers, List.append_nil], saidSo_of_resultByte h⟩
  · obtain ⟨hbyte, hnot⟩ := resultByte_empty hconn hreply
    obtain ⟨result, text, heq, hsaid⟩ := h fun _ => 1
    obtain ⟨text', htext⟩ := atenderReducer_answers fileReduce (fun _ => 1) peer reduce
    rw [htext, hbyte] at heq
    exact hnot (hsaid (by rw [← result_eq heq]; decide))
  · obtain ⟨text, htext⟩ := atenderReducer_answers fileReduce past peer reduce
    exact ⟨peer.resultByte past, text, htext, saidSo_of_resultByte h⟩

/-- A peer that does not greet as a node and replies with an empty packet. -/
def emptyReply : Peer := ⟨true, ⟨some (cstr "hola"), true, none⟩, true, some []⟩

/-- **A success that nobody reported.** The byte behind the empty reply is taken for its result. -/
theorem one_result_emptyReply :
    (atenderMapper [] (fun _ => 1) emptyReply ⟨7, [], 0, 0, []⟩).marta = [[COMMAND_MAP, 1, 0, 7]] ∧
      ¬∀ past, OneResult COMMAND_MAP 7 emptyReply.reply (atenderMapper [] past emptyReply ⟨7, [], 0, 0, []⟩).marta := by
  have hsent : (atenderMapper [] (fun _ => 1) emptyReply ⟨7, [], 0, 0, []⟩).marta = [[COMMAND_MAP, 1, 0, 7]] := by
    decide +kernel
  refine ⟨hsent, fun h => ?_⟩
  obtain ⟨result, text, heq, hsaid⟩ := h fun _ => 1
  rw [hsent] at heq
  simp only [List.cons_append, List.nil_append, List.cons.injEq] at heq
  obtain ⟨r, buffer, hreply, -⟩ := hsaid (by rw [← heq.1.2.1]; decide)
  cases hreply

end Mdfs.Job
