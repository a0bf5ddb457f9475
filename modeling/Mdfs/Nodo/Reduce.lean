import Mdfs.Lib.Wire
import Mdfs.Utils.Commons
import Mdfs.Utils.Socket

/-!
# A REDUCE order in a node

The decoding in `connections_job_deserializeReduce` of `connections_job.c`: the text of
the reducer and the final name, then what MaRTA wrote, a count and the temps one by one.
A single temp of the node itself is reduced in place; any other is put on the list of
temps to get.

* `reads_reduce`: what is decoded from the fields written one after the other.
-/

namespace Mdfs.Nodo

open Lib Wire

/-- `node_connection_getTmpFileOperation_t`. -/
structure GetTmpFileOperation where
  nodeId : CStr
  ip : CStr
  port : UInt16
  tmpFileName : CStr
  deriving DecidableEq

/-- The two outcomes of the loop over the temps. -/
structure Operations where
  tmpFileNameToReduce : Option CStr
  getTmpFileOperations : List GetTmpFileOperation
  deriving DecidableEq

/-- What `connections_job_deserializeReduce` decodes. `temps` are the locals `nodeId`,
`nodeIp`, `nodePort` and `tmpFileName` of each round of its loop. -/
structure ReduceOrder where
  reduceRutine : CStr
  finalTmpName : CStr
  temps : List GetTmpFileOperation
  operations : Operations
  deriving DecidableEq

/-- The fields of one temp. The string functions see each up to its terminator. -/
def readTemp : Reader GetTmpFileOperation := do
  let nodeId ← prefixed16
  let nodeIp ← prefixed16
  let nodePort ← u16
  let tmpFileName ← cstring 60
  pure ⟨upToNul nodeId, upToNul nodeIp, nodePort, tmpFileName⟩

/-- Where a temp goes, in the node called `name`. -/
def Operations.addTemp (name : CStr) (countTemps : UInt16) (o : Operations) (temp : GetTmpFileOperation) : Operations :=
  if countTemps = 1 ∧ name = temp.nodeId then { o with tmpFileNameToReduce := some temp.tmpFileName }
  else { o with getTmpFileOperations := o.getTmpFileOperations ++ [temp] }

/-- One round of the loop. -/
def readRound (name : CStr) (countTemps : UInt16) (x : List GetTmpFileOperation × Operations) :
    Reader (List GetTmpFileOperation × Operations) := do
  let temp ← readTemp
  pure (x.1 ++ [temp], x.2.addTemp name countTemps temp)

/-- `connections_job_deserializeReduce` up to the end of the loop, in the node called `name`. -/
def readReduce (name : CStr) : Reader ReduceOrder := do
  let _ ← u8
  let reduceRutine ← prefixed32
  let finalTmpName ← prefixed32
  let countTemps ← u16
  let x ← (List.range countTemps.toNat).foldlM (fun x _ => readRound name countTemps x) ([], ⟨none, []⟩)
  pure ⟨upToNul reduceRutine, upToNul finalTmpName, x.1, x.2⟩

/-- The decoding of a packet; `none` when it is read past its end. -/
def connectionsJobDeserializeReduce (name : CStr) (buffer : Packet) : Option ReduceOrder :=
  ((readReduce name).run buffer).map Prod.fst

/-- The reply at the end of `connections_job_deserializeReduce`, with the node that
failed, in the node called `name`. -/
def reduceReply (name : CStr) (ok : Bool) (nodeIdFailed : Option CStr) : Packet :=
  if ok then [1]
  else
    let nodeIdFailed := nodeIdFailed.getD name
    let sNodeId := nodeIdFailed.length.toUInt16
    [0] ++ be16 sNodeId ++ nodeIdFailed.take sNodeId.toNat

variable {name : CStr} {temps : List GetTmpFileOperation}

/-- The temps of a request, when it is not a single one of the node. -/
theorem addTemps_eq {countTemps : UInt16} (h : ∀ temp ∈ temps, ¬(countTemps = 1 ∧ name = temp.nodeId))
    (o : Operations) : temps.foldl (Operations.addTemp name countTemps) o =
      { o with getTmpFileOperations := o.getTmpFileOperations ++ temps } := by
  induction temps generalizing o with
  | nil => simp
  | cons temp temps ih =>
    have htemp := h temp List.mem_cons_self
    have hadd : o.addTemp name countTemps temp =
        { o with getTmpFileOperations := o.getTmpFileOperations ++ [temp] } := if_neg htemp
    rw [List.foldl_cons, hadd, ih (fun t ht => h t (List.mem_cons_of_mem _ ht))]
    simp

/-- The rounds of the loop keep the temps in order. -/
theorem rounds_eq {α : Type} (op : α → GetTmpFileOperation) (countTemps : UInt16) (xs : List α)
    (done : List GetTmpFileOperation) (o : Operations) :
    xs.foldl (fun x a => (x.1 ++ [op a], x.2.addTemp name countTemps (op a))) (done, o) =
      (done ++ xs.map op, (xs.map op).foldl (Operations.addTemp name countTemps) o) := by
  induction xs generalizing done o with
  | nil => simp
  | cons a xs ih => rw [List.foldl_cons, ih, List.map_cons, List.foldl_cons, List.append_assoc, List.singleton_append]

variable {α : Type} {enc : α → List UInt8} {xs : List α} {routine final : CStr}

/-- **The fields of an order**, and what is behind them. -/
theorem reads_reduce (name : CStr) (op : α → GetTmpFileOperation)
    (henc : ∀ x ∈ xs, Reads readTemp (enc x) (op x)) (hcount : xs.length < 2 ^ 16)
    (hroutine : routine.length < 2 ^ 32) (hroutine0 : 0 ∉ routine) (hfinal : final.length < 2 ^ 32)
    (hfinal0 : 0 ∉ final) (c : UInt8) :
    Reads (readReduce name)
      ([c] ++ ((be32 routine.length.toUInt32 ++ routine) ++ ((be32 final.length.toUInt32 ++ final) ++
        (be16 xs.length.toUInt16 ++ xs.flatMap enc))))
      ⟨routine, final, xs.map op, (xs.map op).foldl (Operations.addTemp name xs.length.toUInt16) ⟨none, []⟩⟩ := by
  have hlen : (List.range xs.length.toUInt16.toNat).length = xs.length := by
    rw [List.length_range, toNat_toUInt16 hcount]
  unfold readReduce
  apply reads_bind (reads_u8 c)
  apply reads_bind (reads_prefixed32 hroutine)
  apply reads_bind (reads_prefixed32 hfinal)
  apply reads_bind (reads_u16 xs.length.toUInt16)
  have hround : ∀ x (_ : ℕ) a, a ∈ xs → Reads (readRound name xs.length.toUInt16 x) (enc a)
      (x.1 ++ [op a], x.2.addTemp name xs.length.toUInt16 (op a)) :=
    fun x _ a ha => reads_map (henc a ha) rfl
  apply reads_map (reads_foldlM hround ([], ⟨none, []⟩) hlen)
  rw [rounds_eq, upToNul_eq hroutine0, upToNul_eq hfinal0, List.nil_append]

end Mdfs.Nodo
