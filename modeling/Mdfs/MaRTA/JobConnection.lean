import Mdfs.Lib.Wire
import Mdfs.MaRTA.Structs
import Mdfs.Utils.Socket

/-!
# The orders of MaRTA

`serializeMapToOrder`, `serializeTemp` and `serializeReduceToOrder` of `JobConnection.c`. A
string is sent behind its length in 16 bits, as many bytes as this length says; a name of
60 bytes is sent whole.

* `serializeMapToOrder_eq`: the packet of a map whose IP its 16-bit length can count.
* `serializeReduceToOrder_eq`: the packet of a reduce with strings and temps that their
  16-bit lengths can count.
-/

namespace Mdfs.MaRTA

open Lib Wire

/-- `serializeMapToOrder`: the packet it sends. -/
def serializeMapToOrder (map : Map) : Packet :=
  let snodeIP := map.nodeIP.length.toUInt16
  [COMMAND_MAP] ++ be16 map.id ++ be16 snodeIP ++ map.nodeIP.take snodeIP.toNat ++ be16 map.nodePort ++
    be16 map.numBlock ++
    map.tempResultName.bytes

/-- `totalTempsSize`. -/
def totalTempsSize (temps : List Temp) : ℕ :=
  (temps.map fun temp =>
    2 + temp.nodeID.length.toUInt16.toNat + 2 + temp.nodeIP.length.toUInt16.toNat + 2 + TEMP_NAME_SIZE).sum

/-- `serializeTemp`: the bytes it adds to the buffer. -/
def serializeTemp (temp : Temp) : Packet :=
  let snodeID := temp.nodeID.length.toUInt16
  let snodeIP := temp.nodeIP.length.toUInt16
  be16 snodeID ++ temp.nodeID.take snodeID.toNat ++ be16 snodeIP ++ temp.nodeIP.take snodeIP.toNat ++
    be16 temp.nodePort ++ temp.tempName.bytes

/-- `serializeReduceToOrder`: the packet it sends. -/
def serializeReduceToOrder (reduce : Reduce) : Packet :=
  let snodeIP := reduce.nodeIP.length.toUInt16
  let stemps := totalTempsSize reduce.temps
  let tempsBuffer := reduce.temps.flatMap serializeTemp
  let countTemps := reduce.temps.length.toUInt16
  [COMMAND_REDUCE] ++ be16 reduce.id ++ be16 snodeIP ++ reduce.nodeIP.take snodeIP.toNat ++ be16 reduce.nodePort ++
    reduce.tempResultName.bytes ++ be16 countTemps ++ tempsBuffer.take stemps

/-- A string that a 16-bit length can count. -/
structure Short (s : CStr) : Prop where
  clean : 0 ∉ s
  length_lt : s.length < 2 ^ 16

instance Short.decidable (s : CStr) : Decidable (Short s) :=
  decidable_of_iff (0 ∉ s ∧ s.length < 2 ^ 16) ⟨fun h => ⟨h.1, h.2⟩, fun h => ⟨h.clean, h.length_lt⟩⟩

/-- **A reduce that can be sent**: short strings, and temps that 16 bits can count. -/
structure Sendable (reduce : Reduce) : Prop where
  nodeIP : Short reduce.nodeIP
  count_lt : reduce.temps.length < 2 ^ 16
  nodeID : ∀ temp ∈ reduce.temps, Short temp.nodeID
  tempIP : ∀ temp ∈ reduce.temps, Short temp.nodeIP

variable {s : CStr} {reduce : Reduce}

/-- A short string is sent whole. -/
theorem Short.take (h : Short s) : s.take s.length.toUInt16.toNat = s := by
  rw [toNat_toUInt16 h.length_lt, List.take_length]

theorem take_toUInt16_length (s : CStr) : (s.take s.length.toUInt16.toNat).length = s.length.toUInt16.toNat := by
  rw [List.length_take]
  simp only [Nat.toUInt16_eq, UInt16.toNat_ofNat']
  omega

/-- The packet of a map whose IP is short. -/
theorem serializeMapToOrder_eq {map : Map} (h : Short map.nodeIP) :
    serializeMapToOrder map = [COMMAND_MAP] ++ (be16 map.id ++ ((be16 map.nodeIP.length.toUInt16 ++ map.nodeIP) ++
      (be16 map.nodePort ++ (be16 map.numBlock ++ map.tempResultName.bytes)))) := by
  simp only [serializeMapToOrder, h.take, List.append_assoc]

/-- **The temps fill their buffer**: no byte is written past it, none is left out. -/
theorem length_tempsBuffer (temps : List Temp) : (temps.flatMap serializeTemp).length = totalTempsSize temps := by
  induction temps with
  | nil => rfl
  | cons temp temps ih =>
    have hname := temp.tempName.length_bytes
    have hsize : totalTempsSize (temp :: temps) = 2 + temp.nodeID.length.toUInt16.toNat + 2 +
        temp.nodeIP.length.toUInt16.toNat + 2 + TEMP_NAME_SIZE + totalTempsSize temps := by
      simp [totalTempsSize]
    rw [List.flatMap_cons, List.length_append, ih, hsize]
    simp only [serializeTemp, List.length_append, length_be16, take_toUInt16_length, hname]

/-- The packet of a sendable reduce. -/
theorem serializeReduceToOrder_eq (h : Sendable reduce) :
    serializeReduceToOrder reduce = [COMMAND_REDUCE] ++ be16 reduce.id ++
      (be16 reduce.nodeIP.length.toUInt16 ++ reduce.nodeIP) ++ be16 reduce.nodePort ++
      reduce.tempResultName.bytes ++ (be16 reduce.temps.length.toUInt16 ++ reduce.temps.flatMap serializeTemp) := by
  have htemps : (reduce.temps.flatMap serializeTemp).take (totalTempsSize reduce.temps) =
      reduce.temps.flatMap serializeTemp := by
    rw [← length_tempsBuffer, List.take_length]
  simp only [serializeReduceToOrder, h.nodeIP.take, htemps, List.append_assoc]

end Mdfs.MaRTA
