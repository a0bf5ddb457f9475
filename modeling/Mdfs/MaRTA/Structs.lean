import Mdfs.Utils.Commons
import Mathlib.Data.Nat.Digits.Defs
import Mathlib.Data.UInt

/-!
# The structures of MaRTA

`job.h` and `node.h` of MaRTA, with the functions of `job.c` that fill them. The name
of a temporary file is a `char[60]` that `memset`, `sprintf` and `strcpy` leave
terminated: `TempName` carries that.
-/

namespace Mdfs.MaRTA

/-- The size of the name of a temporary file. -/
def TEMP_NAME_SIZE : ℕ := 60

/-- `char tempResultName[60]`, terminated. -/
structure TempName where
  bytes : List UInt8
  length_bytes : bytes.length = TEMP_NAME_SIZE
  terminated : 0 ∈ bytes
  deriving DecidableEq

/-- `strcpy` of a string that fits, into an array of zeros. -/
def TempName.strcpy (s : CStr) (h : s.length < TEMP_NAME_SIZE) : TempName where
  bytes := s ++ List.replicate (TEMP_NAME_SIZE - s.length) 0
  length_bytes := by rw [List.length_append, List.length_replicate]; omega
  terminated := List.mem_append_right _ (List.mem_replicate.2 ⟨by omega, rfl⟩)

/-- The string in the array. -/
def TempName.str (name : TempName) : CStr := upToNul name.bytes

theorem TempName.length_str_le (name : TempName) : name.str.length ≤ TEMP_NAME_SIZE := by
  rw [← name.length_bytes]
  exact (List.takeWhile_sublist _).length_le

theorem TempName.zero_not_mem_str (name : TempName) : 0 ∉ name.str := zero_not_mem_upToNul name.bytes

/-- `t_temp`. -/
structure Temp where
  nodeID : CStr
  nodeIP : CStr
  nodePort : UInt16
  originMap : UInt16
  tempName : TempName
  deriving DecidableEq

/-- `t_reduce`. -/
structure Reduce where
  id : UInt16
  temps : List Temp
  finalNode : CStr
  nodeIP : CStr
  nodePort : UInt16
  tempResultName : TempName
  deriving DecidableEq

/-- `t_copy`. -/
structure Copy where
  nodeName : CStr
  numBlock : UInt16
  deriving DecidableEq

/-- `t_map`. -/
structure Map where
  id : UInt16
  copies : List Copy
  nodeName : CStr
  nodeIP : CStr
  nodePort : UInt16
  numBlock : UInt16
  tempResultName : TempName
  done : Bool
  deriving DecidableEq

/-- `t_file`: for each block its copies. -/
structure File where
  path : CStr
  blocks : List (List Copy)
  deriving DecidableEq

/-- `t_job`; its socket is the thread that serves it. -/
structure Job where
  id : UInt16
  combiner : Bool
  resultFile : CStr
  files : List File
  maps : List Map
  mapsDone : UInt16
  partialReduces : List Reduce
  finalReduce : Reduce
  deriving DecidableEq

/-- `t_node`: `maps` are the blocks that it is working on. -/
structure Node where
  name : CStr
  ip : CStr
  port : UInt16
  active : Bool
  maps : List UInt16
  reduces : UInt16
  deriving DecidableEq

/-! ## The names of temporary files -/

/-- The text of `getTime`: the 24 characters of `asctime`. -/
structure Time where
  text : CStr
  length_text : text.length = 24
  deriving DecidableEq

/-- `sprintf` of a number with `%i`. -/
def decimal (n : UInt16) : CStr := cstr (Nat.repr n.toNat)

theorem length_decimal_le (n : UInt16) : (decimal n).length ≤ 5 := by
  have hn := n.toNat_lt
  have hle := Nat.repr_length n.toNat 5 (by omega) (by omega)
  unfold decimal cstr
  rw [List.length_map]
  exact hle

/-- `setTempMapName` and `setTempReduceName`, with the text between the two numbers. -/
def tempName (time : Time) (kind : CStr) (hkind : kind.length = 4) (number jobID : UInt16) : TempName :=
  .strcpy (time.text ++ cstr "-Job" ++ decimal jobID ++ kind ++ decimal number ++ cstr ".txt") (by
    have hj := length_decimal_le jobID
    have hn := length_decimal_le number
    have ht := time.length_text
    simp only [List.length_append, hkind, ht]
    have h1 : (cstr "-Job").length = 4 := rfl
    have h2 : (cstr ".txt").length = 4 := rfl
    unfold TEMP_NAME_SIZE
    omega)

def setTempMapName (time : Time) (mapID jobID : UInt16) : TempName := tempName time (cstr "-Map") rfl mapID jobID

def setTempReduceName (time : Time) (reduceID jobID : UInt16) :
    TempName := tempName time (cstr "-Red") rfl reduceID jobID

/-! ## The functions of `job.c` -/

/-- `CreateMap`, with the copies that `planMaps` sets. -/
def createMap (id numBlock nodePort : UInt16) (nodeName nodeIP : CStr) (jobID : UInt16) (time : Time)
    (copies : List Copy) :
    Map where
  id := id
  copies := copies
  nodeName := nodeName
  nodeIP := nodeIP
  nodePort := nodePort
  numBlock := numBlock
  tempResultName := setTempMapName time id jobID
  done := false

/-- `CreateReduce`. -/
def createReduce (id : UInt16) (nodeName nodeIP : CStr) (nodePort jobID : UInt16) (time : Time) : Reduce where
  id := id
  temps := []
  finalNode := nodeName
  nodeIP := nodeIP
  nodePort := nodePort
  tempResultName := setTempReduceName time id jobID

/-- `initReduce`. Its strings are `NULL` until `setFinalReduce`, here empty. -/
def initReduce : Reduce where
  id := 0
  temps := []
  finalNode := []
  nodeIP := []
  nodePort := 0
  tempResultName := .strcpy [] (by unfold TEMP_NAME_SIZE; decide)

/-- `setFinalReduce`. -/
def setFinalReduce (reduce : Reduce) (nodeName nodeIP : CStr) (nodePort jobID : UInt16) (time : Time) : Reduce :=
  { reduce with id := 0, finalNode := nodeName, nodeIP, nodePort, tempResultName := setTempReduceName time 0 jobID }

/-- `CreateJob`, with the files that `desserializeJob` adds. -/
def createJob (id : UInt16) (combiner : Bool) (resultFile : CStr) (paths : List CStr) : Job where
  id := id
  combiner := combiner
  resultFile := resultFile
  files := paths.map fun path => ⟨path, []⟩
  maps := []
  mapsDone := 0
  partialReduces := []
  finalReduce := initReduce

/-- `mapToTemporal`. -/
def mapToTemporal (map : Map) : Temp := ⟨map.nodeName, map.nodeIP, map.nodePort, map.id, map.tempResultName⟩

/-- `reduceToTemporal`. -/
def reduceToTemporal (reduce : Reduce) : Temp :=
  ⟨reduce.finalNode, reduce.nodeIP, reduce.nodePort, 0, reduce.tempResultName⟩

/-! ## Reduces with the ids 1, 2, … -/

variable {reduces : List Reduce} {reduce : Reduce}

/-- One more temp in one of them. -/
theorem ids_addTemp (h : ∀ (i : ℕ) (r : Reduce), reduces[i]? = some r → r.id = (i + 1).toUInt16) (k : ℕ) (t : Temp)
    (i : ℕ) (r : Reduce) (hr : (reduces.modify k fun r => { r with temps := r.temps ++ [t] })[i]? = some r) :
    r.id = (i + 1).toUInt16 := by
  rw [List.getElem?_modify, Option.map_eq_map, Option.map_eq_some_iff] at hr
  obtain ⟨r', hr', rfl⟩ := hr
  rw [← h i r' hr']
  by_cases hki : k = i
  · rw [if_pos hki]
  · rw [if_neg hki]

/-- One more of them. -/
theorem ids_append (h : ∀ (i : ℕ) (r : Reduce), reduces[i]? = some r → r.id = (i + 1).toUInt16)
    (hid : reduce.id = (reduces.length + 1).toUInt16) (i : ℕ) (r : Reduce) (hr : (reduces ++ [reduce])[i]? = some r) :
    r.id = (i + 1).toUInt16 := by
  rcases Nat.lt_or_ge i reduces.length with hi | hi
  · rw [List.getElem?_append_left hi] at hr
    exact h i r hr
  · rw [List.getElem?_append_right hi] at hr
    obtain ⟨hzero, hget⟩ := List.getElem?_eq_some_iff.1 hr
    rw [List.length_singleton] at hzero
    have hplace : i = reduces.length := by omega
    rw [← hget, List.getElem_singleton, hid, hplace]

end Mdfs.MaRTA
