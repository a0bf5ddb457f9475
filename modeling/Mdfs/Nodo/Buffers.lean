import Mdfs.Lib.Sized
import Mdfs.Routine

/-!
# The arrays of a node

The paths and the commands that `node.c` and `connections_job.c` build from `TMP_DIR` and
the name of a temporary file, in the arrays that are declared or allocated for them. Each
size is a sum of lengths and of a number for what is between; a program is an error where a
string does not fit with its terminator, or a command is cut off by `snprintf`.

Three functions here have the name of a source function that acts on what it has built, and
are only the building. `nodeGetTmpFileContent` is the path, with its array, of the file that
the function of this name in `TmpFile` reads, where the path is `pathToTmpFile`;
`nodeExecuteMapRutine` and `nodeExecuteReduceRutine` are the paths and the command of which
`Routines` has the files that they leave and `Fetch` the status (`mapRutine_built`,
`reduceRutine_built`: the routine is written where the orders say).

* `rutinePaths_eq`: the three paths of a routine, for a suffix of at most 20 bytes.
* `nodeExecuteMapRutine_eq`, `nodeExecuteReduceRutine_eq`: the commands that are run.
* `buffers_fit_iff`: everything fits, but for the path of `node_getTmpFileContent`.
-/

namespace Mdfs.Nodo

open Lib

namespace Buffers

/-! ## `node.c` -/

/-- `strcpy` and two `strcat`: the path of a file in `TMP_DIR`, in a `char[size]`. -/
def pathIn (size : ℕ) (tmpDir tmpFileName : CStr) : Except Misfit (Sized UInt8 size) := do
  let path ← Sized.put size tmpDir
  let path ← path.append (cstr "/")
  path.append tmpFileName

/-- The three paths of a routine. -/
structure Paths where
  pathToRutine : CStr
  pathToSTDERRFile : CStr
  pathToFinalFile : CStr
  deriving DecidableEq

/-- What `node_executeMapRutine` and `node_executeReduceRutine` write first, with the suffix
of the one or the other. -/
def rutinePaths (rutine tmpDir tmpFileName : CStr) : Except Misfit Paths := do
  let pathToTmpFileSize := tmpDir.length + 1 + tmpFileName.length + 1
  let pathToRutine ← pathIn (pathToTmpFileSize + 20) tmpDir tmpFileName
  let pathToSTDERRFile ← pathIn (pathToTmpFileSize + 20) tmpDir tmpFileName
  let pathToFinalFile ← pathIn pathToTmpFileSize tmpDir tmpFileName
  let pathToRutine ← pathToRutine.append rutine
  let pathToSTDERRFile ← pathToSTDERRFile.append (cstr "_stderr")
  pure ⟨pathToRutine.text, pathToSTDERRFile.text, pathToFinalFile.text⟩

/-- `node_executeMapRutine`, up to the call of `system`: the paths and the command. -/
def nodeExecuteMapRutine (tmpDir tmpFileName : CStr) : Except Misfit (Paths × CStr) := do
  let p ← rutinePaths (cstr "_maprutine") tmpDir tmpFileName
  let commandSize := p.pathToRutine.length + 9 + p.pathToFinalFile.length + 3 + p.pathToSTDERRFile.length + 1
  let command ← Sized.print commandSize
    (p.pathToRutine ++ cstr " | sort >" ++ p.pathToFinalFile ++ cstr " 2>" ++ p.pathToSTDERRFile)
  pure (p, command.text)

/-- `node_executeReduceRutine`, up to the call of `system`: the paths and the command. -/
def nodeExecuteReduceRutine (tmpDir tmpFileNameToReduce finalTmpFileName : CStr) : Except Misfit (Paths × CStr) := do
  let p ← rutinePaths (cstr "_reducerutine") tmpDir finalTmpFileName
  let commandSize := 4 + tmpDir.length + 1 + tmpFileNameToReduce.length + 3 + p.pathToRutine.length + 2 +
    p.pathToFinalFile.length + 3 + p.pathToSTDERRFile.length + 10
  let command ← Sized.print commandSize (cstr "cat " ++ tmpDir ++ cstr "/" ++ tmpFileNameToReduce ++
    cstr " | sort | " ++
    p.pathToRutine ++ cstr " >" ++ p.pathToFinalFile ++ cstr " 2>" ++ p.pathToSTDERRFile)
  pure (p, command.text)

/-- `node_getTmpFileContent`, up to `open`: the path. -/
def nodeGetTmpFileContent (tmpDir tmpFileName : CStr) : Except Misfit CStr := do
  let path ← pathIn (tmpDir.length + 1 + tmpFileName.length) tmpDir tmpFileName
  pure path.text

/-- `node_createTmpFileFromStringList`: the path that it opens. -/
def nodeCreateTmpFileFromStringList (tmpDir tmpFileName : CStr) : Except Misfit CStr := do
  let path ← pathIn (tmpDir.length + 1 + tmpFileName.length + 1) tmpDir tmpFileName
  pure path.text

/-- The name of the joined file in `connections_job_deserializeReduce`. -/
def tmpFileNameJoined (finalTmpName : CStr) : Except Misfit CStr := do
  let tmpFileNameJoined ← Sized.put (finalTmpName.length + 20) finalTmpName
  let tmpFileNameJoined ← tmpFileNameJoined.append (cstr "_prereduce_joined")
  pure tmpFileNameJoined.text

/-- A call that builds paths or commands, with the names it is given. -/
inductive Call
  | executeMapRutine (tmpFileName : CStr)
  | executeReduceRutine (tmpFileNameToReduce finalTmpFileName : CStr)
  | getTmpFileContent (tmpFileName : CStr)
  | createTmpFileFromStringList (tmpFileName : CStr)
  | joinTmpFiles (finalTmpName : CStr)
  deriving DecidableEq

/-- **What a call builds fits**: every path is in its array, with its terminator, and the
command is whole. -/
def Fits (tmpDir : CStr) : Call → Prop
  | .executeMapRutine tmpFileName => ∃ built, nodeExecuteMapRutine tmpDir tmpFileName = .ok built
  | .executeReduceRutine tmpFileNameToReduce finalTmpFileName =>
    ∃ built, nodeExecuteReduceRutine tmpDir tmpFileNameToReduce finalTmpFileName = .ok built
  | .getTmpFileContent tmpFileName => ∃ path, nodeGetTmpFileContent tmpDir tmpFileName = .ok path
  | .createTmpFileFromStringList tmpFileName => ∃ path, nodeCreateTmpFileFromStringList tmpDir tmpFileName = .ok path
  | .joinTmpFiles finalTmpName => ∃ name, tmpFileNameJoined finalTmpName = .ok name

variable {size : ℕ} {tmpDir tmpFileName rutine : CStr}

/-! ## Paths -/

theorem length_pathToTmpFile (tmpDir tmpFileName : CStr) :
    (pathToTmpFile tmpDir tmpFileName).length = tmpDir.length + 1 + tmpFileName.length := by
  have hslash : (cstr "/").length = 1 := rfl
  simp only [pathToTmpFile, List.length_append, hslash]

/-- A path is written as it is written down at once. -/
theorem pathIn_eq (size : ℕ) (tmpDir tmpFileName : CStr) :
    pathIn size tmpDir tmpFileName = Sized.put size (pathToTmpFile tmpDir tmpFileName) := by
  unfold pathIn
  rw [← bind_assoc, Sized.put_bind_append, Sized.put_bind_append]
  rfl

theorem pathIn_of_lt (h : tmpDir.length + 1 + tmpFileName.length < size) : pathIn size tmpDir tmpFileName =
    .ok ⟨pathToTmpFile tmpDir tmpFileName, by rwa [length_pathToTmpFile]⟩ := by
  rw [pathIn_eq, Sized.put_of_lt]

/-- An array for the bytes of the path alone has no room for the terminator. -/
theorem pathIn_of_le (h : size ≤ tmpDir.length + 1 + tmpFileName.length) :
    pathIn size tmpDir tmpFileName = .error .overrun := by
  rw [pathIn_eq, Sized.put_of_le]
  rwa [length_pathToTmpFile]

/-- **The paths of a routine** fit, for a suffix of at most 20 bytes. -/
theorem rutinePaths_eq (h : rutine.length ≤ 20) : rutinePaths rutine tmpDir tmpFileName =
    .ok ⟨pathToTmpFile tmpDir tmpFileName ++ rutine, pathToTmpFile tmpDir tmpFileName ++ cstr "_stderr",
      pathToTmpFile tmpDir tmpFileName⟩ := by
  have hpath := length_pathToTmpFile tmpDir tmpFileName
  have hstderr : (cstr "_stderr").length = 7 := rfl
  have hrutine : (pathToTmpFile tmpDir tmpFileName ++ rutine).length <
    tmpDir.length + 1 + tmpFileName.length + 1 + 20 := by
    rw [List.length_append]
    omega
  have herr : (pathToTmpFile tmpDir tmpFileName ++ cstr "_stderr").length <
      tmpDir.length + 1 + tmpFileName.length + 1 + 20 := by
    rw [List.length_append]
    omega
  unfold rutinePaths
  dsimp only
  rw [pathIn_of_lt (by omega), pathIn_of_lt (by omega)]
  simp only [Sized.append, Sized.put_of_lt hrutine, Sized.put_of_lt herr, bind, Except.bind, pure, Except.pure]

/-! ## Commands -/

/-- **A MAP**: its paths, and its command to the last byte. -/
theorem nodeExecuteMapRutine_eq (tmpDir tmpFileName : CStr) : nodeExecuteMapRutine tmpDir tmpFileName =
    .ok (⟨pathToTmpFile tmpDir tmpFileName ++ cstr "_maprutine", pathToTmpFile tmpDir tmpFileName ++ cstr "_stderr",
      pathToTmpFile tmpDir tmpFileName⟩,
      pathToTmpFile tmpDir tmpFileName ++ cstr "_maprutine" ++ cstr " | sort >" ++ pathToTmpFile tmpDir tmpFileName ++
        cstr " 2>" ++ (pathToTmpFile tmpDir tmpFileName ++ cstr "_stderr")) := by
  have hsort : (cstr " | sort >").length = 9 := rfl
  have herr : (cstr " 2>").length = 3 := rfl
  have hmap : (cstr "_maprutine").length ≤ 20 := by decide
  unfold nodeExecuteMapRutine
  rw [rutinePaths_eq hmap]
  simp only [bind, Except.bind]
  rw [Sized.print_of_lt (by simp only [List.length_append, hsort, herr]; omega)]
  rfl

/-- **A REDUCE**: two bytes of the 23 that its command gets for the text between are left over. -/
theorem nodeExecuteReduceRutine_eq (tmpDir tmpFileNameToReduce finalTmpFileName : CStr) :
    nodeExecuteReduceRutine tmpDir tmpFileNameToReduce finalTmpFileName =
    .ok (⟨pathToTmpFile tmpDir finalTmpFileName ++ cstr "_reducerutine",
      pathToTmpFile tmpDir finalTmpFileName ++ cstr "_stderr", pathToTmpFile tmpDir finalTmpFileName⟩,
      cstr "cat " ++ tmpDir ++ cstr "/" ++ tmpFileNameToReduce ++ cstr " | sort | " ++
        (pathToTmpFile tmpDir finalTmpFileName ++ cstr "_reducerutine") ++ cstr " >" ++
        pathToTmpFile tmpDir finalTmpFileName ++ cstr " 2>" ++
        (pathToTmpFile tmpDir finalTmpFileName ++ cstr "_stderr")) := by
  have hcat : (cstr "cat ").length = 4 := rfl
  have hslash : (cstr "/").length = 1 := rfl
  have hsort : (cstr " | sort | ").length = 10 := rfl
  have hto : (cstr " >").length = 2 := rfl
  have herr : (cstr " 2>").length = 3 := rfl
  have hreduce : (cstr "_reducerutine").length ≤ 20 := by decide
  unfold nodeExecuteReduceRutine
  rw [rutinePaths_eq hreduce]
  simp only [bind, Except.bind]
  rw [Sized.print_of_lt (by simp only [List.length_append, hcat, hslash, hsort, hto, herr]; omega)]
  rfl

/-- The routines are written where the orders say. -/
theorem mapRutine_built (tmpDir : CStr) (order : MapOrder) :
    (nodeExecuteMapRutine tmpDir order.tmpName).map (fun built => built.1.pathToRutine) =
      .ok (pathToMapRutine tmpDir order) := by
  rw [nodeExecuteMapRutine_eq]
  rfl

theorem reduceRutine_built (tmpDir tmpFileNameToReduce : CStr) (order : ReduceOrder) :
    (nodeExecuteReduceRutine tmpDir tmpFileNameToReduce order.finalTmpName).map (fun built => built.1.pathToRutine) =
      .ok (pathToReduceRutine tmpDir order) := by
  rw [nodeExecuteReduceRutine_eq]
  rfl

/-- The path of `node_getTmpFileContent` is one byte too long, its terminator. -/
theorem nodeGetTmpFileContent_eq (tmpDir tmpFileName : CStr) :
    nodeGetTmpFileContent tmpDir tmpFileName = .error .overrun := by
  unfold nodeGetTmpFileContent
  rw [pathIn_of_le le_rfl]
  rfl

theorem nodeCreateTmpFileFromStringList_eq (tmpDir tmpFileName : CStr) :
    nodeCreateTmpFileFromStringList tmpDir tmpFileName = .ok (pathToTmpFile tmpDir tmpFileName) := by
  unfold nodeCreateTmpFileFromStringList
  rw [pathIn_of_lt (by omega)]
  rfl

theorem tmpFileNameJoined_eq (finalTmpName : CStr) :
    tmpFileNameJoined finalTmpName = .ok (finalTmpName ++ cstr "_prereduce_joined") := by
  have hjoined : (cstr "_prereduce_joined").length = 17 := rfl
  have hlt : (finalTmpName ++ cstr "_prereduce_joined").length < finalTmpName.length + 20 := by
    rw [List.length_append]
    omega
  unfold tmpFileNameJoined
  rw [← bind_assoc, Sized.put_bind_append, Sized.put_of_lt hlt]
  rfl

/-- **Everything that is built fits**, for every `TMP_DIR` and every name, exactly but for the
path of `node_getTmpFileContent`. -/
theorem buffers_fit_iff (tmpDir : CStr) (call : Call) :
    Fits tmpDir call ↔ ∀ tmpFileName, call ≠ .getTmpFileContent tmpFileName := by
  cases call with
  | executeMapRutine tmpFileName => exact iff_of_true ⟨_, nodeExecuteMapRutine_eq _ _⟩ (by simp)
  | executeReduceRutine tmpFileNameToReduce finalTmpFileName =>
    exact iff_of_true ⟨_, nodeExecuteReduceRutine_eq _ _ _⟩ (by simp)
  | getTmpFileContent tmpFileName =>
    refine iff_of_false ?_ fun h => h tmpFileName rfl
    rintro ⟨path, hpath⟩
    rw [nodeGetTmpFileContent_eq] at hpath
    cases hpath
  | createTmpFileFromStringList tmpFileName => exact iff_of_true ⟨_, nodeCreateTmpFileFromStringList_eq _ _⟩ (by simp)
  | joinTmpFiles finalTmpName => exact iff_of_true ⟨_, tmpFileNameJoined_eq _⟩ (by simp)

/-- **The terminator of `/tmp/a`** is written behind the six bytes that there are for the path to
be read from. There are seven for the path of the same file to be written to. -/
theorem tmp_file_path_overruns : ¬Fits (cstr "/tmp") (.getTmpFileContent (cstr "a")) ∧
    Fits (cstr "/tmp") (.createTmpFileFromStringList (cstr "a")) := by
  constructor
  · rintro ⟨path, hpath⟩
    have herror : nodeGetTmpFileContent (cstr "/tmp") (cstr "a") = .error .overrun := nodeGetTmpFileContent_eq _ _
    rw [herror] at hpath
    cases hpath
  · exact ⟨_, nodeCreateTmpFileFromStringList_eq _ _⟩

end Buffers

end Mdfs.Nodo
