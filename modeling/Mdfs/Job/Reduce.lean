import Mdfs.Lib.Wire
import Mdfs.Utils.Commons
import Mdfs.Utils.Socket

/-!
# A REDUCE order in the Job

`recvOrder` and `desserializeReduceOrder` of `marta.c`, which take the order of MaRTA,
and `serializeReduce` of `node.c`, which sends it on to a node with the text of the
reducer. The temps are not decoded: they are what the packet holds behind the header,
a number of bytes found by subtraction.

* `reads_reduceOrder`: what is decoded from a header and any bytes behind it.
* `serializeReduce_eq`: the packet that is sent on.
-/

namespace Mdfs.Job

open Lib Wire

/-- `t_reduce` of the Job. -/
structure Reduce where
  reduceID : UInt16
  ipNodo : CStr
  portNodo : UInt16
  tempResultName : CStr
  sizetmps : UInt32
  bufferTmps : Packet
  deriving DecidableEq

/-- An order of MaRTA; a MAP order is left as it came. -/
inductive Order where
  | map (buffer : Packet)
  | reduce (reduce : Reduce)
  | die (finalResult : UInt8)
  | unknown
  deriving DecidableEq

/-- `desserializeReduceOrder` on a buffer of `sbuffer` bytes. `strdup` copies the IP up
to the terminator put behind it, and the name up to its own. -/
def desserializeReduceOrder (sbuffer : ℕ) : Reader Reduce := do
  let reduceID ← u16
  let snodeIP ← u16
  let nodeIP ← bytes snodeIP.toNat
  let nodePort ← u16
  let tempResultName ← cstring 60
  let stemps := (sbuffer - (2 + 2 + snodeIP.toNat + 2 + 60)).toUInt32
  let bufferTmps ← bytes stemps.toNat
  pure ⟨reduceID, upToNul nodeIP, nodePort, tempResultName, stemps, bufferTmps⟩

/-- The order in a packet of `sbuffer` bytes. -/
def readOrder (sbuffer : ℕ) : Reader Order := do
  let order ← u8
  if order = COMMAND_MAP then
    let buffer ← rest
    pure (.map buffer)
  else if order = COMMAND_REDUCE then
    let reduce ← desserializeReduceOrder (sbuffer - 1)
    pure (.reduce reduce)
  else if order = COMMAND_MARTA_TO_JOB_DIE then
    let finalResult ← u8
    pure (.die finalResult)
  else pure .unknown

/-- `recvOrder` on the packet received; `none` when it is read past its end. -/
def recvOrder (buffer : Packet) : Option Order := ((readOrder buffer.length).run buffer).map Prod.fst

/-- `serializeReduce`, with the text of the reducer: the packet it sends. The buffer
is filled with zeros and made four bytes too long. -/
def serializeReduce (fileReduce : CStr) (reduce : Reduce) : Packet :=
  let sTempName := reduce.tempResultName.length.toUInt32
  let sfileReduce := fileReduce.length.toUInt32
  [COMMAND_REDUCE] ++ be32 sfileReduce ++ fileReduce.take sfileReduce.toNat ++ be32 sTempName ++
    reduce.tempResultName.take sTempName.toNat ++ reduce.bufferTmps.take reduce.sizetmps.toNat ++ [0, 0, 0, 0]

variable {ip name tmps : List UInt8} {fileReduce : CStr} {reduce : Reduce}

/-- **The header of an order and the bytes behind it.** -/
theorem reads_reduceOrder (reduceID nodePort : UInt16) (hip : ip.length < 2 ^ 16) (hip0 : 0 ∉ ip)
    (hname : name.length = 60) (hname0 : 0 ∈ name)
    (htmps : tmps.length < 2 ^ 32) :
    Reads (desserializeReduceOrder (2 + 2 + ip.length + 2 + 60 + tmps.length))
      (be16 reduceID ++ (be16 ip.length.toUInt16 ++ (ip ++ (be16 nodePort ++ (name ++ tmps)))))
      ⟨reduceID, ip, nodePort, upToNul name, tmps.length.toUInt32, tmps⟩ := by
  have hsize := toNat_toUInt16 hip
  have hbuffer : Reads (bytes tmps.length.toUInt32.toNat) tmps tmps := by
    rw [toNat_toUInt32 htmps]
    exact reads_bytes tmps
  -- what is left behind the header is the size of the temps
  have hrest : 2 + 2 + ip.length + 2 + 60 + tmps.length - (2 + 2 + ip.length + 2 + 60) = tmps.length := by omega
  unfold desserializeReduceOrder
  apply reads_bind (reads_u16 reduceID)
  apply reads_bind (reads_u16 ip.length.toUInt16)
  rw [hsize, hrest]
  apply reads_bind (reads_bytes ip)
  apply reads_bind (reads_u16 nodePort)
  apply reads_bind (hname ▸ reads_cstring hname0)
  apply reads_map hbuffer
  rw [upToNul_eq hip0]
  rfl

theorem recvOrder_reduce (h : Reads (desserializeReduceOrder tmps.length) tmps reduce) :
    recvOrder (COMMAND_REDUCE :: tmps) = some (.reduce reduce) := by
  have hreads : Reads (readOrder (tmps.length + 1)) ([COMMAND_REDUCE] ++ tmps) (.reduce reduce) := by
    unfold readOrder
    apply reads_bind (reads_u8 COMMAND_REDUCE)
    exact reads_map h rfl
  have hrun := hreads.run
  rw [List.singleton_append] at hrun
  rw [recvOrder, List.length_cons, hrun, Option.map_some]

/-- Whatever is behind it, the id of an order is decoded. -/
theorem reduceID_of_recvOrder {reduceID : UInt16} (h : recvOrder ([COMMAND_REDUCE] ++ be16 reduceID ++ tmps) =
    some (.reduce reduce)) : reduce.reduceID = reduceID := by
  obtain ⟨⟨order, left⟩, hrun, rfl : order = .reduce reduce⟩ := Option.map_eq_some_iff.1 h
  rw [List.append_assoc] at hrun
  generalize ([COMMAND_REDUCE] ++ (be16 reduceID ++ tmps)).length = size at hrun
  unfold readOrder at hrun
  rw [StateT.run_bind, reads_u8 COMMAND_REDUCE] at hrun
  have hread : (desserializeReduceOrder (size - 1) >>= fun reduce => pure (Order.reduce reduce)).run
      (be16 reduceID ++ tmps) = some (.reduce reduce, left) := hrun
  rw [StateT.run_bind] at hread
  obtain ⟨⟨decoded, rest⟩, hdecoded, hpure⟩ := Option.bind_eq_some_iff.1 hread
  cases hpure
  unfold desserializeReduceOrder at hdecoded
  rw [StateT.run_bind, reads_u16 reduceID] at hdecoded
  simp only [Option.bind_eq_bind, Option.bind_some, StateT.run_bind, Option.bind_eq_some_iff] at hdecoded
  obtain ⟨_, -, _, -, _, -, _, -, _, -, hpure⟩ := hdecoded
  cases hpure
  rfl

/-- The packet of a reduce whose lengths fit. -/
theorem serializeReduce_eq (reduce : Reduce) (hfile : fileReduce.length < 2 ^ 32)
    (hname : reduce.tempResultName.length < 2 ^ 32)
    (htmps : reduce.bufferTmps.length = reduce.sizetmps.toNat) :
    serializeReduce fileReduce reduce = [COMMAND_REDUCE] ++ (be32 fileReduce.length.toUInt32 ++ fileReduce) ++
      (be32 reduce.tempResultName.length.toUInt32 ++ reduce.tempResultName) ++ reduce.bufferTmps ++ [0, 0, 0, 0] := by
  have hsize : ∀ bs : List UInt8, bs.length < 2 ^ 32 → bs.take bs.length.toUInt32.toNat = bs := by
    intro bs hbs
    rw [toNat_toUInt32 hbs, List.take_length]
  have hall : reduce.bufferTmps.take reduce.sizetmps.toNat = reduce.bufferTmps := by
    rw [← htmps, List.take_length]
  simp only [serializeReduce, hsize _ hfile, hsize _ hname, hall, List.append_assoc]

end Mdfs.Job
