import Mdfs.MaRTA.JobConnection
import Mdfs.MaRTA.Structs

/-!
# A job, from its configuration to MaRTA

The first packet of a Job: the combiner flag, the path of the result behind its length in 16 bits,
and the list of files behind no length. The Job counts the bytes of the list in 16 bits as well; MaRTA
finds their number by subtraction.

* `desserializeJob_sent`: the job that MaRTA makes of any configuration.
* `job_submitted_iff`: it is the job of the configuration.
* `files_dropped`: a list of 65536 bytes is not sent at all.
-/

namespace Mdfs

open Lib Wire

/-- `htons`: the bytes change places. -/
def htons (n : UInt16) : UInt16 := (n.toNat % 256 * 256 + n.toNat / 256).toUInt16

/-- `serializeConfigMaRTA`: the packet it sends. -/
def Job.serializeConfigMaRTA (combiner : Bool) (fileResult stringFiles : CStr) : Packet :=
  let filesLength := stringFiles.length.toUInt16
  let sizeResult := fileResult.length.toUInt16
  -- a `bool` is one whenever it is not zero
  let combiner := htons combiner.toNat.toUInt16 ≠ 0
  [if combiner then 1 else 0] ++ be16 sizeResult ++ fileResult.take sizeResult.toNat ++
    stringFiles.take filesLength.toNat

/-- `desserializeJob` on a packet of `sbuffer` bytes: `CreateJob` copies the path up to the terminator
put behind it, and `stringsToPathFile` splits the list at its spaces. -/
def MaRTA.readJob (sbuffer : ℕ) (id : UInt16) : Reader MaRTA.Job := do
  let combiner ← u8
  let sresultadoFinal ← u16
  let resultadoFinal ← bytes sresultadoFinal.toNat
  let sfiles := sbuffer - 1 - 2 - sresultadoFinal.toNat
  let stringFiles ← bytes sfiles
  pure (MaRTA.createJob id (combiner ≠ 0) (upToNul resultadoFinal) (stringSplit (upToNul stringFiles) 32))

/-- `desserializeJob` on the packet received; `none` when it is read past its end. -/
def MaRTA.desserializeJob (id : UInt16) (buffer : Packet) : Option MaRTA.Job :=
  ((MaRTA.readJob buffer.length id).run buffer).map Prod.fst

/-- **The job of a configuration**: its flag, its path, and the files of its list in order. -/
structure Submitted (combiner : Bool) (fileResult stringFiles : CStr) (job : MaRTA.Job) : Prop where
  combiner : job.combiner = combiner
  resultFile : job.resultFile = fileResult
  files : job.files.map MaRTA.File.path = stringSplit stringFiles 32

variable {combiner : Bool} {fileResult stringFiles s : CStr} {id : UInt16}

/-- The flag survives `htons`. -/
theorem flag_sent (combiner : Bool) :
    ((if htons combiner.toNat.toUInt16 ≠ 0 then 1 else 0 : UInt8) ≠ 0 : Bool) = combiner := by
  cases combiner <;> decide

theorem upToNul_take (h : 0 ∉ s) (n : ℕ) : upToNul (s.take n) = s.take n := upToNul_eq fun hmem =>
    h (List.mem_of_mem_take hmem)

/-- **The job that MaRTA makes** of a packet: of each string as much as its 16-bit length counts. -/
theorem desserializeJob_sent (hresult : 0 ∉ fileResult) (hfiles : 0 ∉ stringFiles) :
    MaRTA.desserializeJob id (Job.serializeConfigMaRTA combiner fileResult stringFiles) =
      some (MaRTA.createJob id combiner (fileResult.take fileResult.length.toUInt16.toNat)
        (stringSplit (stringFiles.take stringFiles.length.toUInt16.toNat) 32)) := by
  set path := fileResult.take fileResult.length.toUInt16.toNat with hpath
  set list := stringFiles.take stringFiles.length.toUInt16.toNat with hlist
  have hlength : path.length = fileResult.length.toUInt16.toNat := MaRTA.take_toUInt16_length fileResult
  set flag : UInt8 := if htons combiner.toNat.toUInt16 ≠ 0 then 1 else 0 with hflag
  have hpacket : Job.serializeConfigMaRTA combiner fileResult stringFiles =
      [flag] ++ (be16 fileResult.length.toUInt16 ++ (path ++ list)) := by
    simp only [Job.serializeConfigMaRTA, List.append_assoc]
    rfl
  have hsize : (Job.serializeConfigMaRTA combiner fileResult stringFiles).length - 1 - 2 - path.length =
    list.length := by
    rw [hpacket]
    simp only [List.length_append, List.length_singleton, length_be16]
    omega
  have hreads : Reads (MaRTA.readJob (Job.serializeConfigMaRTA combiner fileResult stringFiles).length id)
      ([flag] ++ (be16 fileResult.length.toUInt16 ++ (path ++ list)))
        (MaRTA.createJob id combiner path (stringSplit list 32)) := by
    unfold MaRTA.readJob
    apply reads_bind (reads_u8 flag)
    apply reads_bind (reads_u16 fileResult.length.toUInt16)
    rw [← hlength, hsize]
    apply reads_bind (reads_bytes path)
    apply reads_map (reads_bytes list)
    rw [hpath, hlist, upToNul_take hresult, upToNul_take hfiles, hflag, flag_sent]
  rw [hpacket] at hreads ⊢
  rw [MaRTA.desserializeJob, hreads.run, Option.map_some]

theorem paths_createJob (paths : List CStr) :
    (MaRTA.createJob id combiner fileResult paths).files.map MaRTA.File.path = paths := by
  unfold MaRTA.createJob
  rw [List.map_map]
  exact List.map_id paths

/-- A string is its first bytes, as many as its 16-bit length counts, just when it is short. -/
theorem take_toUInt16_eq_self : s.take s.length.toUInt16.toNat = s ↔ s.length < 2 ^ 16 := by
  constructor
  · intro hsame
    have hlen := congrArg List.length hsame
    rw [MaRTA.take_toUInt16_length] at hlen
    rw [← hlen]
    exact UInt16.toNat_lt _
  · intro hlt
    rw [toNat_toUInt16 hlt, List.take_length]

/-- **A job is submitted as it is configured** just when the path has fewer than 65536 bytes and only
spaces follow the bytes of the list that 16 bits count. -/
theorem job_submitted_iff (id : UInt16) (combiner : Bool) (fileResult stringFiles : CStr) (hresult : 0 ∉ fileResult)
    (hfiles : 0 ∉ stringFiles) :
    (∃ job, MaRTA.desserializeJob id (Job.serializeConfigMaRTA combiner fileResult stringFiles) = some job ∧
      Submitted combiner fileResult stringFiles job) ↔
    fileResult.length < 2 ^ 16 ∧ ∀ b ∈ stringFiles.drop (stringFiles.length % 2 ^ 16), b = 32 := by
  have hmod : stringFiles.length.toUInt16.toNat = stringFiles.length % 2 ^ 16 := by
    rw [Nat.toUInt16_eq, UInt16.toNat_ofNat']
  rw [desserializeJob_sent hresult hfiles, ← take_toUInt16_eq_self, ← stringSplit_take, ← hmod]
  constructor
  · rintro ⟨job, hjob, hsubmitted⟩
    obtain rfl := Option.some.inj hjob
    refine ⟨hsubmitted.resultFile, ?_⟩
    rw [← hsubmitted.files, paths_createJob]
  · rintro ⟨hpath, hlist⟩
    refine ⟨_, rfl, rfl, hpath, ?_⟩
    rw [paths_createJob, hlist]

theorem job_submitted_two : ∃ job, MaRTA.desserializeJob 7 (Job.serializeConfigMaRTA true (cstr "/r")
    (cstr "/a  /b ")) = some job ∧
    Submitted true (cstr "/r") (cstr "/a  /b ") job :=
  (job_submitted_iff 7 true (cstr "/r") (cstr "/a  /b ") (by decide) (by decide)).2 ⟨by decide, by decide +kernel⟩

/-- A single path of 65536 bytes. -/
def longPath : CStr := List.replicate 65536 97

/-- **The files are dropped**: the Job counts no byte of the list. -/
theorem files_dropped : 0 ∉ cstr "/r" ∧ 0 ∉ longPath ∧
    ¬∃ job, MaRTA.desserializeJob 1 (Job.serializeConfigMaRTA false (cstr "/r") longPath) = some job ∧
      Submitted false (cstr "/r") longPath job := by
  have hpath : 0 ∉ cstr "/r" := by decide
  have hlong : 0 ∉ longPath := fun hmem => absurd (List.eq_of_mem_replicate hmem) (by decide)
  refine ⟨hpath, hlong, ?_⟩
  rintro ⟨job, hjob, hsubmitted⟩
  rw [desserializeJob_sent hpath hlong] at hjob
  obtain rfl := Option.some.inj hjob
  -- no byte of the list is sent, so there is no piece of it
  have hcount : longPath.length.toUInt16.toNat = 0 := by
    rw [longPath, List.length_replicate]
    rfl
  have hfiles := congrArg List.flatten hsubmitted.files
  rw [paths_createJob, hcount, List.take_zero, flatten_stringSplit, flatten_stringSplit] at hfiles
  have hmem : (97 : UInt8) ∈ longPath.filter fun b => b ≠ 32 :=
    List.mem_filter.2 ⟨List.mem_replicate.2 ⟨by decide, rfl⟩, by decide⟩
  rw [← hfiles] at hmem
  cases hmem

end Mdfs
