import Mdfs.Lib.Format
import Mdfs.Nodo.Buffers
import Mdfs.Nodo.Fetch
import Mdfs.Utils.ReceivedString

/-!
# The requests at a node's port, byte by byte

`connections_job_listenAction` and `connections_node_listenActions` with the decoders they
call, and with the buffers that are allocated on the way. The lengths and counts are taken
from the packet, which nobody compares with its size. A handler is `none` where it reads
behind the packet or behind a buffer, or copies more than a buffer holds; `sMapRutine + 1`
and its like are sums in 32 bits.

The decoders have the names of those of `Routine` and `Reduce`, which leave the buffers out.
Here a decoder fails more often, and where it does not, it decodes what those do
(`stricter_deserializeMap`, `stricter_deserializeReduce`).

* `accepts_deserializeMap`, `accepts_deserializeReduce`, `accepts_deserializeGetFileContent`: the
  formats of the decoders.
* `decoders_inside_iff`: a payload is handled inside its bytes and its buffers, exactly if
  it starts with a request that is written out to its end.
* `stricter_deserializeMap`, `stricter_deserializeReduce`: what is decoded is what `readMap` and `readReduce` read.
-/

namespace Mdfs.Nodo

open Lib Wire Mapping

namespace Decoders

/-! ## Buffers -/

/-- `malloc(size)` and `memcpy`. -/
def memcpy (size : ℕ) (bs : List UInt8) : Reader (List UInt8) := fun s => if bs.length ≤ size then some (bs, s)
    else none

/-- The same for a string, with the terminator that is set behind it. -/
def memcpyString (size : ℕ) (bs : List UInt8) : Reader (List UInt8) := fun s =>
  match Sized.put size bs with
  | .ok buffer => some (buffer.text, s)
  | .error _ => none

/-- `strdup` reads a buffer up to a terminator. -/
def strdup (buffer : List UInt8) : Reader CStr := fun s => (stringAt 0 buffer).map fun string => (string, s)

/-- A string behind its length in 32 bits. -/
def string32 : Reader (List UInt8) := do
  let n ← u32
  let bs ← bytes n.toNat
  memcpyString (n + 1).toNat bs

/-- A string behind its length in 16 bits, which is an `int` when one is added. -/
def string16 : Reader (List UInt8) := do
  let n ← u16
  let bs ← bytes n.toNat
  memcpyString (n.toNat + 1) bs

/-- `tmpFileName`, and its copy that is kept. -/
def tmpFileName60 : Reader CStr := do
  let bs ← bytes 60
  let tmpFileName ← memcpy 60 bs
  strdup tmpFileName

/-! ## The decoders -/

/-- `connections_job_deserializeMap`. -/
def connectionsJobDeserializeMap : Reader MapOrder := do
  let _ ← u8
  let numBlock ← u16
  let mapRutine ← string32
  let tmpName ← string32
  pure ⟨numBlock, upToNul mapRutine, upToNul tmpName⟩

def readTemp : Reader GetTmpFileOperation := do
  let nodeId ← string16
  let nodeIp ← string16
  let nodePort ← u16
  let tmpFileName ← tmpFileName60
  pure ⟨upToNul nodeId, upToNul nodeIp, nodePort, tmpFileName⟩

def readRound (name : CStr) (countTemps : UInt16) (x : List GetTmpFileOperation × Operations) :
    Reader (List GetTmpFileOperation × Operations) := do
  let temp ← readTemp
  pure (x.1 ++ [temp], x.2.addTemp name countTemps temp)

/-- `connections_job_deserializeReduce` up to the end of the loop, in the node called `name`. -/
def connectionsJobDeserializeReduce (name : CStr) : Reader ReduceOrder := do
  let _ ← u8
  let reduceRutine ← string32
  let finalTmpName ← string32
  let countTemps ← u16
  let x ← (List.range countTemps.toNat).foldlM (fun x _ => readRound name countTemps x) ([], ⟨none, []⟩)
  pure ⟨upToNul reduceRutine, upToNul finalTmpName, x.1, x.2⟩

/-- `connections_deserializeGetFileContent`: the name. -/
def connectionsDeserializeGetFileContent : Reader CStr := do
  let _ ← u8
  let tmpName ← string32
  pure (upToNul tmpName)

/-! ## Behind the loop of a reduce -/

/-- What a reduce comes to when it is decoded: how its threads end, whether the joined file
could be written, and what `system` returns. -/
structure Aftermath where
  fetch : Fetch
  joined : Bool
  system : ℤ

/-- Bytes that are written one behind the other into a buffer of `size`. -/
def filled (size : ℕ) (parts : List (List UInt8)) : Option Packet :=
  if parts.flatten.length ≤ size then some parts.flatten else none

/-- The `bufferResponse` of a reduce. -/
def bufferResponse (name : CStr) (ok : Bool) (nodeIdFailed : Option CStr) : Option Packet :=
  if ok then filled 1 [[1]]
  else do
    let nodeIdFailed := nodeIdFailed.getD name
    let sNodeId := nodeIdFailed.length.toUInt16
    let sent ← (bytes sNodeId.toNat).run nodeIdFailed
    filled (1 + 2 + sNodeId.toNat) [[0], be16 sNodeId, sent.1]

/-- The end of `connections_job_deserializeReduce`, with the name of the joined file. -/
def finishReduce (name : CStr) (order : ReduceOrder) (after : Aftermath) : Option Packet := do
  if order.operations.tmpFileNameToReduce.isSome then bufferResponse name (after.system ≠ -1) none
  else if after.fetch.failed then bufferResponse name false after.fetch.nodeIdFailed
  else
    let _ ← (Buffers.tmpFileNameJoined order.finalTmpName).toOption
    bufferResponse name (after.joined && after.system ≠ -1) after.fetch.nodeIdFailed

/-! ## The connections -/

/-- Who is accepted. -/
inductive Peer
  | job
  | node
  deriving DecidableEq

/-- What becomes of a payload. -/
inductive Handled
  | nothing
  | map (order : MapOrder)
  | reduce (order : ReduceOrder) (reply : Packet)
  | content (tmpName : CStr)
  | invalid (command : UInt8)
  deriving DecidableEq

/-- `connections_job_listenAction`, with a packet. -/
def connectionsJobListenAction (name : CStr) (after : Aftermath) (buffer : Packet) : Option Handled := do
  let command ← u8.run buffer
  if command.1 = COMMAND_MAP then
    let order ← connectionsJobDeserializeMap.run buffer
    pure (.map order.1)
  else if command.1 = COMMAND_REDUCE then
    let order ← (connectionsJobDeserializeReduce name).run buffer
    let reply ← finishReduce name order.1 after
    pure (.reduce order.1 reply)
  else pure (.invalid command.1)

/-- `connections_node_listenActions`, with a packet. -/
def connectionsNodeListenActions (buffer : Packet) : Option Handled := do
  let command ← u8.run buffer
  if command.1 = COMMAND_NODE_GET_TMP_FILE_CONTENT then
    let tmpName ← connectionsDeserializeGetFileContent.run buffer
    pure (.content tmpName.1)
  else pure (.invalid command.1)

/-- A payload that a peer sends. If `socket_recv_packet` has no buffer for it, the connection is closed. -/
def request (l : Heap.Layout) (name : CStr) (after : Aftermath) (peer : Peer) (payload : Packet) : Option Handled :=
  match Heap.socketRecvPacket l (.whole payload) .start with
  | some (.ok buffer, _) =>
    match peer with
    | .job => connectionsJobListenAction name after buffer
    | .node => connectionsNodeListenActions buffer
  | _ => some .nothing

/-- **The decoders stay inside**: what they read is of the payload, and what they copy goes
into buffers that are as long. -/
def Inside (l : Heap.Layout) (name : CStr) (after : Aftermath) (peer : Peer) (payload : Packet) : Prop :=
  (request l name after peer payload).isSome = true

/-! ## Requests that are written out -/

/-- A text for which there is a buffer whose size is a number of 32 bits. -/
abbrev Text32 := Sized UInt8 (2 ^ 32 - 1)

def written32 (x : Text32) : List UInt8 := be32 x.text.length.toUInt32 ++ x.text

abbrev Text16 := Sized UInt8 (2 ^ 16)

def written16 (x : Text16) : List UInt8 := be16 x.text.length.toUInt16 ++ x.text

/-- The fields of a MAP. -/
structure MapFields where
  numBlock : UInt16
  mapRutine : Text32
  tmpName : Text32

def MapFields.written (x : MapFields) : List UInt8 := be16 x.numBlock ++ (written32 x.mapRutine ++ written32 x.tmpName)

/-- The fields of a temp. -/
structure TempFields where
  nodeId : Text16
  nodeIp : Text16
  nodePort : UInt16
  tmpFileName : List UInt8
  length_tmpFileName : tmpFileName.length = 60
  terminated : 0 ∈ tmpFileName

def TempFields.written (x : TempFields) : List UInt8 :=
  written16 x.nodeId ++ (written16 x.nodeIp ++ (be16 x.nodePort ++ x.tmpFileName))

/-- The fields of a REDUCE. -/
structure ReduceFields where
  reduceRutine : Text32
  finalTmpName : Text32
  temps : List TempFields
  countTemps_lt : temps.length < 2 ^ 16

def ReduceFields.written (x : ReduceFields) : List UInt8 :=
  written32 x.reduceRutine ++ (written32 x.finalTmpName ++
    (be16 x.temps.length.toUInt16 ++ x.temps.flatMap TempFields.written))

/-- **A payload that holds what it announces**: a command, and behind it the fields that the
command has. Other commands have none. -/
def WellFormed (peer : Peer) (payload : Packet) : Prop :=
  ∃ command rest, payload = command :: rest ∧
    match peer with
    | .job => (command = COMMAND_MAP → ∃ x : MapFields, x.written <+: rest) ∧
      (command = COMMAND_REDUCE → ∃ x : ReduceFields, x.written <+: rest)
    | .node => command = COMMAND_NODE_GET_TMP_FILE_CONTENT → ∃ x : Text32, written32 x <+: rest

variable {l : Heap.Layout} {name : CStr} {after : Aftermath} {size : ℕ} {bs : List UInt8}

/-! ## Fields -/

theorem memcpyString_of_lt (h : bs.length < size) : memcpyString size bs = pure bs := by
  funext s
  unfold memcpyString
  rw [Sized.put_of_lt h]
  rfl

theorem memcpyString_of_le (h : ¬bs.length < size) (s : List UInt8) : (memcpyString size bs).run s = none := by
  have hrun : (memcpyString size bs).run s = memcpyString size bs s := rfl
  rw [hrun, memcpyString, Sized.put_of_le (Nat.not_lt.1 h)]

/-- The size of a buffer is one more than the length, but for the greatest of 32 bits. -/
theorem lt_toNat_add_one (n : UInt32) : n.toNat < (n + 1).toNat ↔ n.toNat < 2 ^ 32 - 1 := by
  have hadd : (n + 1).toNat = (n.toNat + 1) % 2 ^ 32 := UInt32.toNat_add n 1
  have hlt := n.toNat_lt
  rw [hadd]
  omega

theorem accepts_string32 : Accepts string32 fun bs a => ∃ x : Text32, bs = written32 x ∧ a = x.text := by
  have hcopy : ∀ n : UInt32, Accepts (bytes n.toNat >>= memcpyString (n + 1).toNat) fun bs a =>
      ∃ c, (bs.length = n.toNat ∧ c = bs) ∧ c.length < (n + 1).toNat ∧ a = c :=
    fun n => accepts_filter (accepts_bytes n.toNat) (fun _ h => memcpyString_of_lt h) fun _ h s =>
      memcpyString_of_le h s
  refine (accepts_bind accepts_u32 hcopy).congr fun bs a => ?_
  constructor
  · rintro ⟨_, ds, n, rfl, rfl, c, ⟨hlen, hc⟩, hlt, ha⟩
    rw [hc, hlen, lt_toNat_add_one] at hlt
    refine ⟨⟨ds, hlen ▸ hlt⟩, ?_, ha.trans hc⟩
    simp [written32, hlen]
  · rintro ⟨x, rfl, rfl⟩
    have hfits := x.fits
    have hlen : x.text.length.toUInt32.toNat = x.text.length := toNat_toUInt32 (by omega)
    have hroom := (lt_toNat_add_one x.text.length.toUInt32).2 (by omega)
    rw [hlen] at hroom
    exact ⟨_, x.text, _, rfl, rfl, _, ⟨hlen.symm, rfl⟩, hroom, rfl⟩

/-- Two sizes of 16 bits never wrap. -/
theorem string16_eq : string16 = prefixed16 := by
  funext s
  unfold string16 prefixed16
  refine congrFun (congrArg (u16 >>= ·) (funext fun n => ?_)) s
  funext t
  by_cases h : n.toNat ≤ t.length
  · have hlen : (t.take n.toNat).length < n.toNat + 1 := by
      rw [List.length_take]
      omega
    simp only [bytes, bind, StateT.bind, if_pos h, Option.bind_some]
    rw [memcpyString_of_lt hlen]
    rfl
  · simp only [bytes, bind, StateT.bind, if_neg h, Option.bind_none]

theorem accepts_string16 : Accepts string16 fun bs a => ∃ x : Text16, bs = written16 x ∧ a = x.text := by
  rw [string16_eq]
  refine accepts_prefixed16.congr fun bs a => ?_
  constructor
  · rintro ⟨hlt, rfl⟩
    exact ⟨⟨a, hlt⟩, rfl, rfl⟩
  · rintro ⟨x, rfl, rfl⟩
    exact ⟨x.fits, rfl⟩

/-- The copy of a name is read as a string of at most 60 bytes. -/
theorem tmpFileName60_eq : tmpFileName60 = cstring 60 := by
  funext s
  by_cases h : 60 ≤ s.length
  · have hlen : (s.take 60).length ≤ 60 := List.length_take_le 60 s
    simp only [tmpFileName60, cstring, bytes, bind, StateT.bind, if_pos h, Option.bind_some, memcpy, if_pos hlen]
    by_cases h0 : (0 : UInt8) ∈ s.take 60
    · rw [if_pos h0, strdup, stringAt, if_pos h0]
      rfl
    · rw [if_neg h0, strdup, stringAt, if_neg h0]
      rfl
  · simp only [tmpFileName60, cstring, bytes, bind, StateT.bind, if_neg h, Option.bind_none]

/-! ## Formats -/

def MapFields.order (x : MapFields) : MapOrder := ⟨x.numBlock, upToNul x.mapRutine.text, upToNul x.tmpName.text⟩

def TempFields.operation (x : TempFields) : GetTmpFileOperation :=
  ⟨upToNul x.nodeId.text, upToNul x.nodeIp.text, x.nodePort, upToNul x.tmpFileName⟩

def ReduceFields.order (name : CStr) (x : ReduceFields) : ReduceOrder where
  reduceRutine := upToNul x.reduceRutine.text
  finalTmpName := upToNul x.finalTmpName.text
  temps := x.temps.map TempFields.operation
  operations := (x.temps.map TempFields.operation).foldl (Operations.addTemp name x.temps.length.toUInt16) ⟨none, []⟩

/-- **A MAP** is decoded from its fields. -/
theorem accepts_deserializeMap : Accepts connectionsJobDeserializeMap fun bs order =>
    ∃ command, ∃ x : MapFields, bs = command :: x.written ∧ order = x.order := by
  refine (accepts_bind accepts_u8 fun _ => accepts_bind accepts_u16 fun _ => accepts_bind accepts_string32 fun _ =>
    accepts_map accepts_string32 fun _ => rfl).congr fun bs order => ?_
  constructor
  · rintro ⟨_, _, command, rfl, rfl, _, _, numBlock, rfl, rfl, _, _, _, rfl, ⟨mapRutine, rfl, rfl⟩, _,
      ⟨tmpName, rfl, rfl⟩, rfl⟩
    exact ⟨command, ⟨numBlock, mapRutine, tmpName⟩, rfl, rfl⟩
  · rintro ⟨command, x, rfl, rfl⟩
    exact ⟨[command], _, _, rfl, rfl, _, _, _, rfl, rfl, _, _, _, rfl, ⟨x.mapRutine, rfl, rfl⟩, _,
      ⟨x.tmpName, rfl, rfl⟩, rfl⟩

theorem accepts_readTemp : Accepts readTemp fun bs operation =>
    ∃ x : TempFields, bs = x.written ∧ operation = x.operation := by
  unfold readTemp
  rw [tmpFileName60_eq]
  refine (accepts_bind accepts_string16 fun _ => accepts_bind accepts_string16 fun _ => accepts_bind accepts_u16
    fun _ =>
    accepts_map (accepts_cstring 60) fun _ => rfl).congr fun bs operation => ?_
  constructor
  · rintro ⟨_, _, _, rfl, ⟨nodeId, rfl, rfl⟩, _, _, _, rfl, ⟨nodeIp, rfl, rfl⟩, _, tmpFileName, nodePort, rfl, rfl, _,
      ⟨hlen, h0, rfl⟩, rfl⟩
    exact ⟨⟨nodeId, nodeIp, nodePort, tmpFileName, hlen, h0⟩, rfl, rfl⟩
  · rintro ⟨x, rfl, rfl⟩
    exact ⟨_, _, _, rfl, ⟨x.nodeId, rfl, rfl⟩, _, _, _, rfl, ⟨x.nodeIp, rfl, rfl⟩, _, _, _, rfl, rfl, _,
      ⟨x.length_tmpFileName, x.terminated, rfl⟩, rfl⟩

/-- One round takes the fields of one temp. -/
theorem accepts_readRound (name : CStr) (countTemps : UInt16) (x : List GetTmpFileOperation × Operations) :
    Accepts (readRound name countTemps x) fun bs y => ∃ temp : TempFields, bs = temp.written ∧
      y = (x.1 ++ [temp.operation], x.2.addTemp name countTemps temp.operation) := by
  refine (accepts_map accepts_readTemp fun _ => rfl).congr fun bs y => ?_
  constructor
  · rintro ⟨_, ⟨temp, rfl, rfl⟩, rfl⟩
    exact ⟨temp, rfl, rfl⟩
  · rintro ⟨temp, rfl, rfl⟩
    exact ⟨_, ⟨temp, rfl, rfl⟩, rfl⟩

/-- **A REDUCE** is decoded from its fields, with as many temps as it counts. -/
theorem accepts_deserializeReduce (name : CStr) : Accepts (connectionsJobDeserializeReduce name) fun bs order =>
    ∃ command, ∃ x : ReduceFields, bs = command :: x.written ∧ order = x.order name := by
  have hloop : ∀ countTemps : UInt16, Accepts ((List.range countTemps.toNat).foldlM
      (fun x _ => readRound name countTemps x) ([], ⟨none, []⟩)) _ := fun countTemps =>
    accepts_foldlM (fun x _ => accepts_readRound name countTemps x) (List.range countTemps.toNat) ([], ⟨none, []⟩)
  refine (accepts_bind accepts_u8 fun _ => accepts_bind accepts_string32 fun _ => accepts_bind accepts_string32 fun _ =>
    accepts_bind accepts_u16 fun countTemps => accepts_map (hloop countTemps) fun _ => rfl).congr fun bs order => ?_
  constructor
  · rintro ⟨_, _, command, rfl, rfl, _, _, _, rfl, ⟨routine, rfl, rfl⟩, _, _, _, rfl, ⟨final, rfl, rfl⟩, _, _,
      countTemps,
      rfl, rfl, _, ⟨temps, hlen, rfl, rfl⟩, rfl⟩
    rw [List.length_range] at hlen
    have hcount : temps.length.toUInt16 = countTemps := by
      rw [hlen]
      exact UInt16.ofNat_toNat
    refine ⟨command, ⟨routine, final, temps, hlen ▸ countTemps.toNat_lt⟩, ?_, ?_⟩
    · simp only [ReduceFields.written, hcount]
      rfl
    · simp only [ReduceFields.order, rounds_eq, hcount, List.nil_append]
  · rintro ⟨command, x, rfl, rfl⟩
    have hlen : x.temps.length = (List.range x.temps.length.toUInt16.toNat).length := by
      rw [List.length_range, toNat_toUInt16 x.countTemps_lt]
    refine ⟨[command], _, _, rfl, rfl, _, _, _, rfl, ⟨x.reduceRutine, rfl, rfl⟩, _, _, _, rfl,
      ⟨x.finalTmpName, rfl, rfl⟩, _, _,
      _, rfl, rfl, _, ⟨x.temps, hlen, rfl, rfl⟩, ?_⟩
    simp only [ReduceFields.order, rounds_eq, List.nil_append]

theorem accepts_deserializeGetFileContent : Accepts connectionsDeserializeGetFileContent fun bs tmpName =>
    ∃ command, ∃ x : Text32, bs = command :: written32 x ∧ tmpName = upToNul x.text := by
  refine (accepts_bind accepts_u8 fun _ => accepts_map accepts_string32 fun _ => rfl).congr fun bs tmpName => ?_
  constructor
  · rintro ⟨_, _, command, rfl, rfl, _, ⟨x, rfl, rfl⟩, rfl⟩
    exact ⟨command, x, rfl, rfl⟩
  · rintro ⟨command, x, rfl, rfl⟩
    exact ⟨[command], _, _, rfl, rfl, _, ⟨x, rfl, rfl⟩, rfl⟩

/-- A decoder succeeds exactly if its fields are behind the command. -/
theorem isSome_deserialize {α γ : Type} {r : Reader α} {enc : γ → List UInt8} {val : γ → α}
    (h : Accepts r fun bs a => ∃ command, ∃ x : γ, bs = command :: enc x ∧ a = val x) (command : UInt8)
      (rest : List UInt8) :
    (r.run (command :: rest)).isSome = true ↔ ∃ x, enc x <+: rest := by
  rw [h.isSome_iff]
  constructor
  · rintro ⟨_, _, ⟨_, x, rfl, rfl⟩, hprefix⟩
    exact ⟨x, (List.cons_prefix_cons.1 hprefix).2⟩
  · rintro ⟨x, hprefix⟩
    exact ⟨_, _, ⟨command, x, rfl, rfl⟩, List.cons_prefix_cons.2 ⟨rfl, hprefix⟩⟩

/-! ## The decoders of `Nodo.Reduce` and `Routine` -/

theorem stricter_string32 : Stricter string32 prefixed32 := by
  refine stricter_bind (.refl u32) fun n => ?_
  intro s x h
  rw [StateT.run_bind] at h
  obtain ⟨⟨bs, t⟩, hbytes, hcopy⟩ := Option.bind_eq_some_iff.1 h
  have hrun : (memcpyString (n + 1).toNat bs).run t = some x := hcopy
  by_cases hlt : bs.length < (n + 1).toNat
  · rw [memcpyString_of_lt hlt] at hrun
    cases hrun
    exact hbytes
  · rw [memcpyString_of_le hlt] at hrun
    cases hrun

/-- What is decoded from a MAP is what `readMap` reads. -/
theorem stricter_deserializeMap : Stricter connectionsJobDeserializeMap readMap :=
  stricter_bind (.refl u8) fun _ => stricter_bind (.refl u16) fun _ => stricter_bind stricter_string32 fun _ =>
    stricter_bind stricter_string32 fun _ => .refl _

theorem readTemp_eq : readTemp = Nodo.readTemp := by
  unfold readTemp Nodo.readTemp
  rw [string16_eq, tmpFileName60_eq]

/-- What is decoded from a REDUCE is what `readReduce` reads. -/
theorem stricter_deserializeReduce (name : CStr) :
    Stricter (connectionsJobDeserializeReduce name) (readReduce name) := by
  have hround : readRound = Nodo.readRound := by
    unfold readRound Nodo.readRound
    rw [readTemp_eq]
  unfold connectionsJobDeserializeReduce
  rw [hround]
  exact stricter_bind (.refl u8) fun _ => stricter_bind stricter_string32 fun _ =>
    stricter_bind stricter_string32 fun _ =>
    .refl _

/-! ## The reply of a reduce -/

/-- The response fills its buffer. -/
theorem bufferResponse_eq (name : CStr) (ok : Bool) (nodeIdFailed : Option CStr) :
    bufferResponse name ok nodeIdFailed = some (reduceReply name ok nodeIdFailed) := by
  cases ok with
  | true => rfl
  | false =>
    have hle : (nodeIdFailed.getD name).length.toUInt16.toNat ≤ (nodeIdFailed.getD name).length := by
      rw [Nat.toUInt16_eq, UInt16.toNat_ofNat']
      exact Nat.mod_le _ _
    have hsent : (bytes (nodeIdFailed.getD name).length.toUInt16.toNat).run (nodeIdFailed.getD name) =
        some ((nodeIdFailed.getD name).take (nodeIdFailed.getD name).length.toUInt16.toNat,
          (nodeIdFailed.getD name).drop (nodeIdFailed.getD name).length.toUInt16.toNat) := if_pos hle
    simp only [bufferResponse, hsent, Option.bind_eq_bind, Option.bind_some, filled, reduceReply,
      Bool.false_eq_true, if_false]
    rw [if_pos]
    · simp
    · simp
      omega

/-- Behind the loop nothing is taken from the packet, and every copy has its room. -/
theorem finishReduce_isSome (name : CStr) (order : ReduceOrder) (after : Aftermath) :
    (finishReduce name order after).isSome = true := by
  unfold finishReduce
  split
  · rw [bufferResponse_eq]
    rfl
  · split
    · rw [bufferResponse_eq]
      rfl
    · rw [Buffers.tmpFileNameJoined_eq, bufferResponse_eq]
      rfl

/-- The reply is that of `Fetch`, for the threads of the operations. -/
theorem finishReduce_eq {order : ReduceOrder} {r : ReduceRequest} {f : Fetch}
    (hoperations : order.operations = operationsOf name r.temps)
    (hf : getTmpFiles order.operations.getTmpFileOperations r.schedule = some f) :
    finishReduce name order ⟨f, r.joined, r.system⟩ = (replyReduce (some name) r).map Prod.fst := by
  rw [hoperations] at hf
  unfold finishReduce replyReduce tmpFileToReduce nodeExecuteReduceRutine
  rw [hoperations, Option.getD_some, hf]
  split
  next hown =>
    rw [bufferResponse_eq]
    rfl
  next hown =>
    cases hfailed : f.failed with
    | true =>
      rw [if_pos rfl, bufferResponse_eq]
      simp [hfailed]
    | false =>
      rw [if_neg Bool.false_ne_true, Buffers.tmpFileNameJoined_eq, bufferResponse_eq]
      simp [hfailed, Except.toOption]

/-! ## Requests -/

/-- A command of a Job. -/
theorem listenAction_isSome (name : CStr) (after : Aftermath) (command : UInt8) (rest : List UInt8) :
    (connectionsJobListenAction name after (command :: rest)).isSome = true ↔
      (command = COMMAND_MAP → ∃ x : MapFields, x.written <+: rest) ∧
        (command = COMMAND_REDUCE → ∃ x : ReduceFields, x.written <+: rest) := by
  have hcommand : u8.run (command :: rest) = some (command, rest) := reads_u8 command rest
  have hdiffer : COMMAND_MAP ≠ COMMAND_REDUCE := by decide
  unfold connectionsJobListenAction
  rw [hcommand]
  simp only [Option.bind_eq_bind, Option.bind_some]
  by_cases hmap : command = COMMAND_MAP
  · have hnot : command ≠ COMMAND_REDUCE := hmap ▸ hdiffer
    rw [if_pos hmap, ← isSome_deserialize accepts_deserializeMap command rest]
    cases hrun : connectionsJobDeserializeMap.run (command :: rest) with
    | none => simp [hmap]
    | some order => simp [hnot]
  · rw [if_neg hmap]
    by_cases hreduce : command = COMMAND_REDUCE
    · rw [if_pos hreduce, ← isSome_deserialize (accepts_deserializeReduce name) command rest]
      cases hrun : (connectionsJobDeserializeReduce name).run (command :: rest) with
      | none => simp [hreduce]
      | some order =>
        obtain ⟨reply, hreply⟩ := Option.isSome_iff_exists.1 (finishReduce_isSome name order.1 after)
        simp [hreply, hmap]
    · rw [if_neg hreduce]
      simp [hmap, hreduce]

/-- A command of a node. -/
theorem listenActions_isSome (command : UInt8) (rest : List UInt8) :
    (connectionsNodeListenActions (command :: rest)).isSome = true ↔
      (command = COMMAND_NODE_GET_TMP_FILE_CONTENT → ∃ x : Text32, written32 x <+: rest) := by
  have hcommand : u8.run (command :: rest) = some (command, rest) := reads_u8 command rest
  unfold connectionsNodeListenActions
  rw [hcommand]
  simp only [Option.bind_eq_bind, Option.bind_some]
  by_cases hget : command = COMMAND_NODE_GET_TMP_FILE_CONTENT
  · rw [if_pos hget, ← isSome_deserialize accepts_deserializeGetFileContent command rest]
    cases hrun : connectionsDeserializeGetFileContent.run (command :: rest) with
    | none => simp [hget]
    | some tmpName => simp
  · rw [if_neg hget]
    simp [hget]

/-- **The decoders stay inside their packet and their buffers** exactly if the payload starts
with a request that is written out, or is empty and has no buffer to be received into. -/
theorem decoders_inside_iff (l : Heap.Layout) (name : CStr) (after : Aftermath) (peer : Peer) (payload : Packet) :
    Inside l name after peer payload ↔ (payload = [] ∧ l.mallocZero = false) ∨ WellFormed peer payload := by
  by_cases hnone : payload = [] ∧ l.mallocZero = false
  · obtain ⟨rfl, hzero⟩ := hnone
    have hmalloc := Heap.malloc_run l 0 .start
    rw [if_pos ⟨rfl, hzero⟩] at hmalloc
    have hrecv : Heap.socketRecvPacket l (.whole []) .start = some (.error SOCKET_ERROR_RECV, .start) := by
      simp only [Heap.socketRecvPacket, List.length_nil, bind, StateT.bind, hmalloc, Option.bind_some]
      rfl
    refine iff_of_true ?_ (Or.inl ⟨rfl, hzero⟩)
    unfold Inside request
    rw [hrecv]
    rfl
  · have hbuffer : payload ≠ [] ∨ l.mallocZero = true := by
      by_cases hpayload : payload = []
      · exact Or.inr (Bool.eq_true_of_not_eq_false fun h => hnone ⟨hpayload, h⟩)
      · exact Or.inl hpayload
    rw [or_iff_right hnone, Inside, request, Heap.recvPacket_run hbuffer]
    cases payload with
    | nil =>
      refine iff_of_false ?_ ?_
      · cases peer <;> exact Bool.false_ne_true
      · rintro ⟨command, rest, hpayload, -⟩
        cases hpayload
    | cons command rest =>
      have hwhole : ∀ {P : UInt8 → List UInt8 → Prop},
          (∃ c r, command :: rest = c :: r ∧ P c r) ↔ P command rest := by
        intro P
        constructor
        · rintro ⟨c, r, heq, hP⟩
          cases heq
          exact hP
        · exact fun hP => ⟨command, rest, rfl, hP⟩
      unfold WellFormed
      rw [hwhole]
      cases peer with
      | job => exact listenAction_isSome name after command rest
      | node => exact listenActions_isSome command rest

/-- **Three requests that are cut short**: a REDUCE without anything behind its command, a MAP whose routine has 256
bytes of which one comes, and a name that is announced with as many bytes as 32 bits can say. -/
theorem decoders_overread : ¬Inside ⟨true, []⟩ (cstr "nodo1") ⟨Fetch.start [], true, 0⟩ .job [COMMAND_REDUCE] ∧
    ¬Inside ⟨true, []⟩ (cstr "nodo1") ⟨Fetch.start [], true, 0⟩ .job [COMMAND_MAP, 0, 0, 0, 0, 1, 0, 35] ∧
    ¬Inside ⟨true, []⟩ (cstr "nodo1") ⟨Fetch.start [], true, 0⟩ .node
      [COMMAND_NODE_GET_TMP_FILE_CONTENT, 255, 255, 255, 255, 97] := by
  unfold Inside
  decide

end Decoders

end Mdfs.Nodo
