import Mdfs.Job.Threads
import Mdfs.Nodo.TmpFile
import Mdfs.Relay

/-!
# The routine of a MAP or a REDUCE, from a Job to a node

`getMapReduceRoutine` of `Job.c` maps the program file in the size that fits in an `int`.
The string at the start of the mapping goes with the order, behind its length in 32 bits;
the node puts a terminator behind it and writes the string into an executable file.

* `routine_arrives`: what the node writes is the program file, exactly for a file with no
  zero in it that does not fill its pages and whose size fits in an `int`.
-/

namespace Mdfs

open Lib Wire Mapping

/-! ## The programs -/

/-- `getMapReduceRoutine` on a file: what can be read at the address it returns, on pages of
`page` bytes; `none` when it aborts. A negative size is more than can be mapped. -/
def Job.getMapReduceRoutine (page : ℕ) (file : List UInt8) : Option (List UInt8) :=
  let size := Int.bmod file.length (2 ^ 32)
  if size < 0 then none else mapped page 0 size.toNat file

/-- The routine that `serializeMap` and `serializeReduce` send: `strlen` and `memcpy` read the
mapping up to its first zero. `none` also when there is none. -/
def Job.fileRoutine (page : ℕ) (file : List UInt8) :
    Option CStr := (Job.getMapReduceRoutine page file).bind (stringAt 0)

/-- What `connections_job_deserializeMap` decodes. -/
structure Nodo.MapOrder where
  numBlock : UInt16
  mapRutine : CStr
  tmpName : CStr
  deriving DecidableEq

def Nodo.readMap : Reader Nodo.MapOrder := do
  let _ ← u8
  let numBlock ← u16
  let mapRutine ← prefixed32
  let tmpName ← prefixed32
  pure ⟨numBlock, upToNul mapRutine, upToNul tmpName⟩

/-- `connections_job_deserializeMap`; `none` when the packet is read past its end. -/
def Nodo.connectionsJobDeserializeMap (buffer : Packet) : Option Nodo.MapOrder := (Nodo.readMap.run buffer).map Prod.fst

/-- `node_createExecutableFileFromString`, where its calls succeed. -/
def Nodo.nodeCreateExecutableFileFromString (files : Nodo.Files) (pathToFile str : CStr) : Nodo.Files :=
  fun path => if path = pathToFile then some str else files path

/-- The start of `node_executeMapRutine`: the path of the routine, and the files with it. -/
def Nodo.pathToMapRutine (tmpDir : CStr) (order : Nodo.MapOrder) : CStr :=
  Nodo.pathToTmpFile tmpDir order.tmpName ++ cstr "_maprutine"

def Nodo.withMapRutine (files : Nodo.Files) (tmpDir : CStr) (order : Nodo.MapOrder) : Nodo.Files :=
  Nodo.nodeCreateExecutableFileFromString files (Nodo.pathToMapRutine tmpDir order) order.mapRutine

/-- The same of `node_executeReduceRutine`. -/
def Nodo.pathToReduceRutine (tmpDir : CStr) (order : Nodo.ReduceOrder) : CStr :=
  Nodo.pathToTmpFile tmpDir order.finalTmpName ++ cstr "_reducerutine"

def Nodo.withReduceRutine (files : Nodo.Files) (tmpDir : CStr) (order : Nodo.ReduceOrder) : Nodo.Files :=
  Nodo.nodeCreateExecutableFileFromString files (Nodo.pathToReduceRutine tmpDir order) order.reduceRutine

/-! ## What should arrive -/

/-- **The mapper arrives whole**: the Job reads inside its mapping, and the node writes what
is in the program file. -/
def MapperArrives (page : ℕ) (file : List UInt8) (files : Nodo.Files) (tmpDir : CStr) (map : Job.Map) : Prop :=
  ∃ fileMap order, Job.fileRoutine page file = some fileMap ∧
    Nodo.connectionsJobDeserializeMap (Job.serializeMap fileMap map) = some order ∧
    Nodo.withMapRutine files tmpDir order (Nodo.pathToMapRutine tmpDir order) = some file

/-- **The reducer arrives whole**, at the node called `name`. -/
def ReducerArrives (page : ℕ) (file : List UInt8) (files : Nodo.Files) (tmpDir name : CStr)
    (reduce : Job.Reduce) : Prop :=
  ∃ fileReduce order, Job.fileRoutine page file = some fileReduce ∧
    Nodo.connectionsJobDeserializeReduce name (Job.serializeReduce fileReduce reduce) = some order ∧
    Nodo.withReduceRutine files tmpDir order (Nodo.pathToReduceRutine tmpDir order) = some file

/-- A program file that survives: a text that does not fill its pages and has fewer than two
gigabytes. -/
structure Survives (page : ℕ) (file : List UInt8) : Prop where
  text : 0 ∉ file
  short : ¬page ∣ file.length
  size : file.length < 2 ^ 31

variable {page : ℕ} {file routine : List UInt8} {files : Nodo.Files} {tmpDir name : CStr} {map : Job.Map}
  {reduce : MaRTA.Reduce}

/-! ## The Job -/

/-- The mapping of a file whose size fits in an `int`. -/
theorem getMapReduceRoutine_eq (h : file.length < 2 ^ 31) :
    Job.getMapReduceRoutine page file = mapped page 0 file.length file := by
  have hsize : Int.bmod file.length (2 ^ 32) = file.length := Int.bmod_eq_of_le (by omega) (by omega)
  unfold Job.getMapReduceRoutine
  rw [hsize]
  dsimp only
  rw [if_neg (by omega), Int.toNat_natCast]

/-- A file of two to four gigabytes has a negative size. -/
theorem getMapReduceRoutine_big (h : 2 ^ 31 ≤ file.length) (hlt : file.length < 2 ^ 32) :
    Job.getMapReduceRoutine page file = none := by
  have hsize : Int.bmod file.length (2 ^ 32) = file.length - 2 ^ 32 := by
    rw [Int.bmod_def]
    omega
  unfold Job.getMapReduceRoutine
  rw [hsize]
  dsimp only
  rw [if_pos (by omega)]

/-- A file that survives is the routine that is sent. -/
theorem fileRoutine_of_survives (hpage : 0 < page) (h : Survives page file) :
    Job.fileRoutine page file = some file := by
  unfold Job.fileRoutine
  rw [getMapReduceRoutine_eq h.size]
  exact stringAt_short hpage h.text h.short

/-- The routine has no zero in it. -/
theorem zero_not_mem_fileRoutine (h : Job.fileRoutine page file = some routine) : 0 ∉ routine := by
  obtain ⟨m, -, hm⟩ := Option.bind_eq_some_iff.1 h
  exact nul_not_mem_of_stringAt hm

/-- **A file that is the first bytes of its routine**, as many as 32 bits can count. -/
theorem survives_of_prefix (hpage : 0 < page) (h : Job.fileRoutine page file = some routine)
    (hfile : routine.take routine.length.toUInt32.toNat = file) : Survives page file := by
  have htext : 0 ∉ file := by
    rw [← hfile]
    exact fun hmem => zero_not_mem_fileRoutine h (List.mem_of_mem_take hmem)
  have hcount : file.length < 2 ^ 32 := by
    have hlt : routine.length.toUInt32.toNat < 2 ^ 32 := UInt32.toNat_lt _
    have hle := List.length_take_le routine.length.toUInt32.toNat routine
    rw [hfile] at hle
    omega
  have hsize : file.length < 2 ^ 31 := by
    by_contra hbig
    rw [Job.fileRoutine, getMapReduceRoutine_big (by omega) hcount] at h
    cases h
  refine ⟨htext, fun hfull => ?_, hsize⟩
  rw [Job.fileRoutine, getMapReduceRoutine_eq hsize, stringAt_full hpage htext hfull] at h
  cases h

/-! ## The node -/

theorem zero_not_mem_take (n : ℕ) (h : 0 ∉ routine) : 0 ∉ routine.take n := fun hmem => h (List.mem_of_mem_take hmem)

theorem length_take_toUInt32 (routine : List UInt8) :
    (routine.take routine.length.toUInt32.toNat).length = routine.length.toUInt32.toNat := by
  rw [List.length_take, Nat.toUInt32_eq, UInt32.toNat_ofNat']
  exact Nat.min_eq_left (Nat.mod_le _ _)

theorem toUInt32_toNat_toUInt32 (n : ℕ) : n.toUInt32.toNat.toUInt32 = n.toUInt32 := UInt32.ofNat_toNat

/-- A routine is sent as its first bytes are. -/
theorem serializeMap_take (routine : List UInt8) (map : Job.Map) :
    Job.serializeMap (routine.take routine.length.toUInt32.toNat) map = Job.serializeMap routine map := by
  unfold Job.serializeMap
  simp only [length_take_toUInt32, toUInt32_toNat_toUInt32, List.take_take, Nat.min_self]

theorem serializeReduce_take (routine : List UInt8) (reduce : Job.Reduce) :
    Job.serializeReduce (routine.take routine.length.toUInt32.toNat) reduce = Job.serializeReduce routine reduce := by
  unfold Job.serializeReduce
  simp only [length_take_toUInt32, toUInt32_toNat_toUInt32, List.take_take, Nat.min_self]

/-- A MAP order is decoded as it was written. -/
theorem deserializeMap_sent (h0 : 0 ∉ routine) (hlen : routine.length < 2 ^ 32) (hname0 : 0 ∉ map.tempResultName)
    (hname : map.tempResultName.length < 2 ^ 32) :
    Nodo.connectionsJobDeserializeMap (Job.serializeMap routine map) =
      some ⟨map.numBlock, routine, map.tempResultName⟩ := by
  have hreads : Reads Nodo.readMap ([COMMAND_MAP] ++ (be16 map.numBlock ++ ((be32 routine.length.toUInt32 ++ routine) ++
      (be32 map.tempResultName.length.toUInt32 ++ map.tempResultName))))
      ⟨map.numBlock, routine, map.tempResultName⟩ := by
    unfold Nodo.readMap
    apply reads_bind (reads_u8 COMMAND_MAP)
    apply reads_bind (reads_u16 map.numBlock)
    apply reads_bind (reads_prefixed32 hlen)
    apply reads_map (reads_prefixed32 hname)
    rw [upToNul_eq h0, upToNul_eq hname0]
  have hsize : ∀ bs : List UInt8, bs.length < 2 ^ 32 → bs.take bs.length.toUInt32.toNat = bs := by
    intro bs hbs
    rw [toNat_toUInt32 hbs, List.take_length]
  have hpacket : Job.serializeMap routine map = [COMMAND_MAP] ++ (be16 map.numBlock ++
      ((be32 routine.length.toUInt32 ++ routine) ++
      (be32 map.tempResultName.length.toUInt32 ++ map.tempResultName))) := by
    simp only [Job.serializeMap, hsize _ hlen, hsize _ hname, List.append_assoc]
  rw [Nodo.connectionsJobDeserializeMap, hpacket, hreads.run, Option.map_some]

/-- The routine of a MAP that a node decodes is what of it was sent. -/
theorem mapRutine_sent (h0 : 0 ∉ routine) (hname0 : 0 ∉ map.tempResultName)
    (hname : map.tempResultName.length < 2 ^ 32) :
    Nodo.connectionsJobDeserializeMap (Job.serializeMap routine map) =
      some ⟨map.numBlock, routine.take routine.length.toUInt32.toNat, map.tempResultName⟩ := by
  rw [← serializeMap_take]
  refine deserializeMap_sent (zero_not_mem_take _ h0) ?_ hname0 hname
  rw [length_take_toUInt32]
  exact UInt32.toNat_lt _

theorem reduceRutine_sent (h : MaRTA.Sendable reduce) (hsize : reduce.opaqueTemps.length < 2 ^ 32) (h0 : 0 ∉ routine) :
    Nodo.connectionsJobDeserializeReduce name (Job.serializeReduce routine reduce.forJob) =
      some (reduce.forNode name (routine.take routine.length.toUInt32.toNat)) := by
  rw [← serializeReduce_take]
  refine deserializeReduce_sent h hsize ?_ (zero_not_mem_take _ h0)
  rw [length_take_toUInt32]
  exact UInt32.toNat_lt _

theorem nodeCreateExecutableFileFromString_self (path str : CStr) :
    Nodo.nodeCreateExecutableFileFromString files path str path = some str := if_pos rfl

/-! ## Both ends -/

theorem mapper_arrives_iff (hpage : 0 < page) (hname0 : 0 ∉ map.tempResultName)
    (hname : map.tempResultName.length < 2 ^ 32) : MapperArrives page file files tmpDir map ↔ Survives page file := by
  constructor
  · rintro ⟨fileMap, order, hroutine, horder, hfile⟩
    rw [mapRutine_sent (zero_not_mem_fileRoutine hroutine) hname0 hname] at horder
    rw [Nodo.withMapRutine, nodeCreateExecutableFileFromString_self] at hfile
    cases horder
    exact survives_of_prefix hpage hroutine (Option.some.inj hfile)
  · intro h
    have hlen : file.length < 2 ^ 32 := by
      have hsize := h.size
      omega
    exact ⟨file, _, fileRoutine_of_survives hpage h, deserializeMap_sent h.text hlen hname0 hname,
      nodeCreateExecutableFileFromString_self _ _⟩

theorem reducer_arrives_iff (hpage : 0 < page) (h : MaRTA.Sendable reduce)
    (hsize : reduce.opaqueTemps.length < 2 ^ 32) :
    ReducerArrives page file files tmpDir name reduce.forJob ↔ Survives page file := by
  constructor
  · rintro ⟨fileReduce, order, hroutine, horder, hfile⟩
    rw [reduceRutine_sent h hsize (zero_not_mem_fileRoutine hroutine)] at horder
    rw [Nodo.withReduceRutine, nodeCreateExecutableFileFromString_self] at hfile
    cases horder
    exact survives_of_prefix hpage hroutine (Option.some.inj hfile)
  · intro hfile
    have hlen : file.length < 2 ^ 32 := by
      have hfits := hfile.size
      omega
    exact ⟨file, _, fileRoutine_of_survives hpage hfile, deserializeReduce_sent h hsize hlen hfile.text,
      nodeCreateExecutableFileFromString_self _ _⟩

/-- **The routine of an order arrives whole**, of a MAP as of a REDUCE, exactly for a program
file that is a text, does not fill its pages and has fewer than two gigabytes. -/
theorem routine_arrives (page : ℕ) (file : List UInt8) (files : Nodo.Files) (tmpDir name : CStr) (map : Job.Map)
    (reduce : MaRTA.Reduce) (hpage : 0 < page) (hname0 : 0 ∉ map.tempResultName)
    (hname : map.tempResultName.length < 2 ^ 32) (hsend : MaRTA.Sendable reduce)
    (hsize : reduce.opaqueTemps.length < 2 ^ 32) :
    (MapperArrives page file files tmpDir map ↔ Survives page file) ∧
      (ReducerArrives page file files tmpDir name reduce.forJob ↔ Survives page file) :=
  ⟨mapper_arrives_iff hpage hname0 hname, reducer_arrives_iff hpage hsend hsize⟩

/-- A map of the first block. -/
def mapOfBlock : Job.Map := ⟨0, cstr "10.0.0.1", 6001, 0, cstr "Job1-Map0.txt"⟩

/-- A script. -/
theorem routine_arrives_script :
    (MapperArrives 4096 (cstr "#!/bin/sh\nsort") (fun _ => none) (cstr "/tmp") mapOfBlock ↔
        Survives 4096 (cstr "#!/bin/sh\nsort")) ∧
      (ReducerArrives 4096 (cstr "#!/bin/sh\nsort") (fun _ => none) (cstr "/tmp") (cstr "Nodo1") twoTemps.forJob ↔
        Survives 4096 (cstr "#!/bin/sh\nsort")) ∧ Survives 4096 (cstr "#!/bin/sh\nsort") := by
  have h := routine_arrives 4096 (cstr "#!/bin/sh\nsort") (fun _ => none) (cstr "/tmp") (cstr "Nodo1")
    mapOfBlock twoTemps
    (by omega) (by decide) (by decide) twoTemps_sendable (by decide +kernel)
  exact ⟨h.1, h.2, ⟨by decide, by decide, by decide⟩⟩

/-- The first bytes of a compiled program. -/
def compiled : List UInt8 := [127, 69, 76, 70, 2, 1, 1, 0]

/-- **A compiled program does not arrive**: only its bytes before the first zero do. -/
theorem compiled_cut : ¬MapperArrives 4096 compiled (fun _ => none) (cstr "/tmp") mapOfBlock ∧
    ¬ReducerArrives 4096 compiled (fun _ => none) (cstr "/tmp") (cstr "Nodo1") twoTemps.forJob := by
  have hbinary : ¬Survives 4096 compiled := fun h => h.text (by decide)
  exact ⟨fun h => hbinary ((mapper_arrives_iff (by omega) (by decide) (by decide)).1 h),
    fun h => hbinary ((reducer_arrives_iff (by omega) twoTemps_sendable (by decide +kernel)).1 h)⟩

end Mdfs
