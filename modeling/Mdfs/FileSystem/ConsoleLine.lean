import Mdfs.FileSystem.BlockCommands
import Mdfs.FileSystem.FreeSpace

/-!
# The command line

The loop of `console_start` in `console/console.c`, from the line that is typed. The line is split at its blanks, and
`parameters` holds the pieces with a NULL after them. The handlers index it with constants and test what they find
with `isNull`; here they are written over pointers, and a program on a line stops with a `Fault` where it reads an
entry after the NULL (`entry`) or passes a NULL on as a string (`passed`).

* `run_command`: over the arguments that are there, the branch of a command is the console's program for it.
* `arguments_there_iff`: the lines that are read without a fault.
* `session_stops`: a session of such lines.
* `argument_missing`: lines that are not.
-/

namespace Mdfs.FileSystem

open Lib

/-- `filesystem_saveFileToLocalFS`, with the local file that it makes. -/
def filesystemSaveFileToLocalFS (file : Option File) (pathToFile : CStr) : FsProg (ℤ × Option SavedFile) :=
  match file with
  | none => pure (-2, none)
  | some file => do
    match ← filesystemGetAllFileContent file with
    | none => pure (-1, none)
    | some fileBuffer => pure (1, some (pathToFile, fileBuffer))

namespace Line

variable {sort : NodeSort} {fuel : ℕ} {c : Console} {word : CStr} {args : List CStr}

/-- How the work on a line stops: at an entry after the NULL, at a NULL in the place of a string, or as the file
system does. -/
inductive Fault
  | outOfBounds (i : ℕ)
  | null
  | stop (e : Stop)
  deriving DecidableEq

abbrev LineProg := Prog Resp Fault

/-- A program of the file system, called from a handler. -/
abbrev fs {α : Type} (p : FsProg α) : LineProg α := p.mapStop Fault.stop

/-! ## Entries and pointers -/

/-- `parameters[i]`: the pieces of the line, and a NULL after them. -/
def entry (parameters : List CStr) (i : ℕ) : LineProg (Option CStr) :=
  if i ≤ parameters.length then pure parameters[i]? else .stop (.outOfBounds i)

/-- A pointer that is passed on to a comparison, a resolution of a path or `getFileName`. -/
def passed : Option CStr → LineProg CStr
  | some s => pure s
  | none => .stop .null

/-- `isNull`. -/
def isNull (parameter : Option CStr) : Bool := parameter.isNone

/-- `string_equals_ignore_case`, on a pointer. -/
def equalsIgnoreCase (actual : Option CStr) (expected : CStr) : LineProg Bool := do
  let actual ← passed actual
  pure (stringEqualsIgnoreCase actual expected)

/-- `filesystem_resolveDirPath`, on a pointer. -/
def resolveDirPath (c : Console) (path : Option CStr) : LineProg (Option (Dir × CStr)) := do
  let path ← passed path
  fs (filesystemResolveDirPath path c.currentDirId c.currentDirPrompt)

/-- `filesystem_resolveFilePath`, on a pointer. -/
def resolveFilePath (c : Console) (path : Option CStr) : LineProg (Option File) := do
  let path ← passed path
  fs (filesystemResolveFilePath path c.currentDirId c.currentDirPrompt)

/-- `getFileName`, on a pointer. -/
def fileName (path : Option CStr) : LineProg CStr := do
  let path ← passed path
  fs (getFileName path)

/-! ## The handlers -/

def format (c : Console) : LineProg Console := fs c.format

def diskFree : LineProg (Option ℕ) := fs filesystemGetFreeSpaceKiloBytes

def deleteResource (fuel : ℕ) (c : Console) (parameters : List CStr) : LineProg Unit := do
  let parameter1 ← entry parameters 1
  if isNull parameter1 then pure ()
  else if ← equalsIgnoreCase parameter1 (cstr "-r") then do
    let parameter2 ← entry parameters 2
    match ← resolveDirPath c parameter2 with
    | some (dir, _) =>
      let _ ← fs (filesystemDeleteDir fuel (some dir))
      pure ()
    | none => pure ()
  else do
    match ← resolveFilePath c parameter1 with
    | some file =>
      let _ ← fs (filesystemDeleteFile (some file))
      pure ()
    | none => pure ()

def moveResource (c : Console) (resource destination : Option CStr) : LineProg Unit :=
  if isNull resource || isNull destination then pure ()
  else do
    match ← resolveDirPath c destination with
    | none => pure ()
    | some (destinationDir, _) =>
      match ← resolveDirPath c resource with
      | some (dirToMove, _) => fs (filesystemMoveDir dirToMove destinationDir.id)
      | none =>
        -- If couldn't find a dir, then try to find a file:
        match ← resolveFilePath c resource with
        | some fileToMove => fs (filesystemMoveFile fileToMove destinationDir.id)
        | none => pure ()

def renameResource (c : Console) (resource newName : Option CStr) : LineProg Unit :=
  if isNull resource || isNull newName then pure ()
  else do
    match ← resolveDirPath c resource with
    | some (dirToMove, _) =>
      let newName ← fs (notNull newName)
      fs (filesystemRenameDir dirToMove newName)
    | none =>
      match ← resolveFilePath c resource with
      | some fileToMove =>
        let newName ← fs (notNull newName)
        fs (filesystemRenameFile fileToMove newName)
      | none => pure ()

def makeDir (c : Console) (dirName : Option CStr) : LineProg Unit :=
  if isNull dirName then pure ()
  else do
    let name ← fs (notNull dirName)
    let _ ← fs (filesystemAddDir ⟨.root, c.currentDirId, name⟩)
    pure ()

def changeDir (c : Console) (dirName : Option CStr) : LineProg Console := do
  match ← resolveDirPath c (if dirName.isSome then dirName else some (cstr "/")) with
  | some (changeToDir, newDirPrompt) => pure ⟨newDirPrompt, changeToDir.id⟩
  | none => pure c

def listResources (c : Console) : LineProg (List Dir × List File) := do
  let dirs ← fs (filesystemGetDirsInDir c.currentDirId)
  let files ← fs (filesystemGetFilesInDir c.currentDirId)
  pure (dirs, files)

/-- The name and the directory of the file that `copyFile` creates at `dest`. -/
def copyDestination (c : Console) (localFileName : CStr) (dest : Option CStr) : LineProg (Option (CStr × Oid)) := do
  match ← resolveDirPath c dest with
  | some (dir, _) => pure (some (localFileName, dir.id))
  | none =>
    let destFileName ← fileName dest
    let dest ← fs (notNull dest)
    if destFileName.length < dest.length then
      let pathToFolder := dest.take (dest.length - destFileName.length)
      match ← resolveDirPath c (some pathToFolder) with
      | some (dir, _) => pure (some (destFileName, dir.id))
      | none => pure none
    else pure (some (destFileName, c.currentDirId)) -- just a file in the current folder

def copyFile (sort : NodeSort) (c : Console) (parameters : List CStr) : LineProg Unit := do
  let option ← entry parameters 1
  let source ← entry parameters 2
  let dest ← entry parameters 3
  if isNull option || isNull source || isNull dest then pure ()
  else if ← equalsIgnoreCase option (cstr "-fromfs") then do
    let localFileName ← fileName source
    match ← copyDestination c localFileName dest with
    | none => pure ()
    | some (name, parentId) =>
      let route ← fs (notNull source)
      let _ ← fs (filesystemCopyFileFromFS sort route ⟨.root, parentId, name, 0, []⟩)
      pure ()
  else if ← equalsIgnoreCase option (cstr "-tofs") then do
    match ← resolveFilePath c source with
    | some file =>
      let pathToFile ← fs (notNull dest)
      let _ ← fs (filesystemSaveFileToLocalFS (some file) pathToFile)
      pure ()
    | none => pure ()
  else pure ()

/-- The content of the file, of which the sum is printed. -/
def md5sum (c : Console) (filePath : Option CStr) : LineProg (Option CStr) :=
  if isNull filePath then pure none
  else do
    match ← resolveFilePath c filePath with
    | some file => fs (filesystemGetAllFileContent file)
    | none => pure none

def saveBlockContents (c : Console) (parameters : List CStr) : LineProg (Option SavedFile) := do
  let filePath ← entry parameters 1
  let blockN ← entry parameters 2
  if isNull filePath || isNull blockN then pure none
  else do
    let blockNumber := getIntFromString (← fs (notNull blockN))
    if blockNumber < 0 then pure none
    else
      match ← resolveFilePath c filePath with
      | some file =>
        let (_, saved) ← fs (filesystemSaveFileBlockToLocalFS (some file) (toUInt16 blockNumber)
          (tempFilePath file blockNumber))
        pure saved
      | none => pure none

def copyBlock (sort : NodeSort) (c : Console) (parameters : List CStr) : LineProg Unit := do
  let filePath ← entry parameters 1
  let blockN ← entry parameters 2
  if isNull filePath || isNull blockN then pure ()
  else do
    let blockNumber := getIntFromString (← fs (notNull blockN))
    if blockNumber < 0 then pure ()
    else
      match ← resolveFilePath c filePath with
      | some file =>
        let _ ← fs (filesystemMakeNewFileBlockCopy sort (some file) (toUInt16 blockNumber))
        pure ()
      | none => pure ()

def deleteBlock (c : Console) (parameters : List CStr) : LineProg Unit := do
  let filePath ← entry parameters 1
  let blockN ← entry parameters 2
  let copyN ← entry parameters 3
  if isNull filePath || isNull blockN || isNull copyN then pure ()
  else do
    let blockNumber := getIntFromString (← fs (notNull blockN))
    if blockNumber < 0 then pure ()
    else do
      let copyNumber := getIntFromString (← fs (notNull copyN))
      if copyNumber < 0 then pure ()
      else
        match ← resolveFilePath c filePath with
        | some file =>
          let _ ← fs (filesystemDeleteFileBlockCopy (some file) (toUInt16 blockNumber) (toUInt16 copyNumber))
          pure ()
        | none => pure ()

/-- The node that a command on a node works with. -/
def namedNode (nodeName : Option CStr) : LineProg (Option Node) :=
  if isNull nodeName then pure none
  else do
    let name ← fs (notNull nodeName)
    fs (filesystemGetNodeById name)

/-- The node whose bitmap is printed. -/
def printNodeStatus (nodeName : Option CStr) : LineProg (Option Node) := namedNode nodeName

/-- The node whose connection is moved to the active ones. -/
def enableNode (nodeName : Option CStr) : LineProg (Option Node) := namedNode nodeName

/-- The node whose connection is moved to the standby ones. -/
def disableNode (nodeName : Option CStr) : LineProg (Option Node) := namedNode nodeName

/-- The file whose blocks are printed. -/
def printFileBlocks (c : Console) (filePath : Option CStr) : LineProg (Option File) :=
  if isNull filePath then pure none else resolveFilePath c filePath

/-! ## The line -/

/-- The commands, in the order in which `console_start` compares with them. -/
inductive CommandName
  | format | df | rm | mv | rename | mkdir | cd | ll | md5sum | cp | blocks | catb | cpb | rmb
  | nodestat | enablen | disablen | help | exit | enter
  deriving DecidableEq

def CommandName.all : List CommandName :=
  [.format, .df, .rm, .mv, .rename, .mkdir, .cd, .ll, .md5sum, .cp, .blocks, .catb, .cpb, .rmb,
    .nodestat, .enablen, .disablen, .help, .exit, .enter]

def CommandName.text : CommandName → CStr
  | .format => cstr "format"
  | .df => cstr "df"
  | .rm => cstr "rm"
  | .mv => cstr "mv"
  | .rename => cstr "rename"
  | .mkdir => cstr "mkdir"
  | .cd => cstr "cd"
  | .ll => cstr "ll"
  | .md5sum => cstr "md5sum"
  | .cp => cstr "cp"
  | .blocks => cstr "blocks"
  | .catb => cstr "catb"
  | .cpb => cstr "cpb"
  | .rmb => cstr "rmb"
  | .nodestat => cstr "nodestat"
  | .enablen => cstr "enablen"
  | .disablen => cstr "disablen"
  | .help => cstr "help"
  | .exit => cstr "exit"
  | .enter => cstr "\n"

/-- The comparisons of `console_start`: the first that succeeds. -/
def commandOf (parameter0 : CStr) : Option CommandName :=
  CommandName.all.find? fun name => stringEqualsIgnoreCase parameter0 name.text

/-- A handler that leaves the console as it is. -/
def keeping {α : Type} (c : Console) (p : LineProg α) : LineProg Console := do
  let _ ← p
  pure c

/-- The branch of `console_start` for a command. -/
def CommandName.run (sort : NodeSort) (fuel : ℕ) (c : Console) (parameters : List CStr) :
    CommandName → LineProg Console
  | .format => Line.format c
  | .df => keeping c diskFree
  | .rm => keeping c (deleteResource fuel c parameters)
  | .mv => do
    let resource ← entry parameters 1
    let destination ← entry parameters 2
    keeping c (moveResource c resource destination)
  | .rename => do
    let resource ← entry parameters 1
    let newName ← entry parameters 2
    keeping c (renameResource c resource newName)
  | .mkdir => do
    let dirName ← entry parameters 1
    keeping c (makeDir c dirName)
  | .cd => do
    let dirName ← entry parameters 1
    changeDir c dirName
  | .ll => keeping c (listResources c)
  | .md5sum => do
    let filePath ← entry parameters 1
    keeping c (Line.md5sum c filePath)
  | .cp => keeping c (copyFile sort c parameters)
  | .blocks => do
    let filePath ← entry parameters 1
    keeping c (printFileBlocks c filePath)
  | .catb => keeping c (saveBlockContents c parameters)
  | .cpb => keeping c (copyBlock sort c parameters)
  | .rmb => keeping c (deleteBlock c parameters)
  | .nodestat => do
    let nodeName ← entry parameters 1
    keeping c (printNodeStatus nodeName)
  | .enablen => do
    let nodeName ← entry parameters 1
    keeping c (enableNode nodeName)
  | .disablen => do
    let nodeName ← entry parameters 1
    keeping c (disableNode nodeName)
  | .help => pure c
  | .exit => pure c
  | .enter => pure c -- ignore enter

/-- `freeSplits` from the entry `i` on; `left` bounds the loop. -/
def freeSplits (parameters : List CStr) : (left i : ℕ) → LineProg Unit
  | 0, _ => .stop (.stop .diverge)
  | left + 1, i => do
    match ← entry parameters i with
    | some _ => freeSplits parameters left (i + 1)
    | none => pure ()

/-- The body of the loop of `console_start`: the console after the line, and `exit`. -/
def consoleLine (sort : NodeSort) (fuel : ℕ) (c : Console) (command : CStr) : LineProg (Console × Bool) :=
  if command = [] then pure (c, false) -- Ignore empty enter
  else do
    let parameters := stringSplit command 32
    let parameter0 ← passed (← entry parameters 0)
    let c ← match commandOf parameter0 with
      | some name => name.run sort fuel c parameters
      | none => pure c -- Invalid command
    freeSplits parameters (parameters.length + 1) 0
    pure (c, commandOf parameter0 = some .exit)

/-- `console_start` over the lines that are typed. -/
def consoleStart (sort : NodeSort) (fuel : ℕ) : List CStr → Console → LineProg Console
  | [], c => pure c
  | command :: commands, c => do
    let (c, exit) ← consoleLine sort fuel c command
    if exit then pure c else consoleStart sort fuel commands c

/-! ## The handlers and the console -/

@[simp] theorem passed_some (s : CStr) : passed (some s) = pure s := rfl
@[simp] theorem isNull_some (s : CStr) : isNull (some s) = false := rfl
@[simp] theorem isNull_none : isNull none = true := rfl

@[simp] theorem fs_notNull (s : CStr) : fs (notNull (some s)) = pure s := rfl

@[simp] theorem equalsIgnoreCase_some (s t : CStr) :
    equalsIgnoreCase (some s) t = pure (stringEqualsIgnoreCase s t) := rfl

@[simp] theorem resolveDirPath_some (path : CStr) :
    resolveDirPath c (some path) = fs (filesystemResolveDirPath path c.currentDirId c.currentDirPrompt) := rfl

@[simp] theorem resolveFilePath_some (path : CStr) :
    resolveFilePath c (some path) = fs (filesystemResolveFilePath path c.currentDirId c.currentDirPrompt) := rfl

@[simp] theorem fileName_some (path : CStr) : fileName (some path) = fs (getFileName path) := rfl

theorem moveResource_eq (resource destination : Option CStr) :
    moveResource c resource destination = fs (FileSystem.moveResource c resource destination) := by
  unfold moveResource FileSystem.moveResource
  cases resource with
  | none => rfl
  | some resource =>
    cases destination with
    | none => rfl
    | some destination =>
      simp only [isNull_some, Bool.or_self, Bool.false_eq_true, if_false, resolveDirPath_some, Prog.mapStop_bind]
      refine bind_congr fun x => ?_
      cases x with
      | none => rfl
      | some x =>
        simp only [Prog.mapStop_bind]
        refine bind_congr fun y => ?_
        cases y with
        | some y => rfl
        | none =>
          simp only [resolveFilePath_some, Prog.mapStop_bind]
          refine bind_congr fun z => ?_
          cases z with
          | none => rfl
          | some z => rfl

theorem renameResource_eq (resource newName : Option CStr) :
    renameResource c resource newName = fs (FileSystem.renameResource c resource newName) := by
  unfold renameResource FileSystem.renameResource
  cases resource with
  | none => rfl
  | some resource =>
    cases newName with
    | none => rfl
    | some newName =>
      simp only [isNull_some, Bool.or_self, Bool.false_eq_true, if_false, resolveDirPath_some, Prog.mapStop_bind]
      refine bind_congr fun x => ?_
      cases x with
      | some x => rfl
      | none =>
        simp only [resolveFilePath_some, Prog.mapStop_bind]
        refine bind_congr fun z => ?_
        cases z with
        | none => rfl
        | some z => rfl

theorem makeDir_eq (dirName : Option CStr) : makeDir c dirName = fs (FileSystem.makeDir c dirName) := by
  unfold makeDir FileSystem.makeDir
  cases dirName with
  | none => rfl
  | some dirName =>
    simp only [isNull_some, Bool.false_eq_true, if_false, Prog.mapStop_bind, fs_notNull, pure_bind]
    rfl

theorem changeDir_eq (dirName : Option CStr) : changeDir c dirName = fs (FileSystem.changeDir c dirName) := by
  unfold changeDir FileSystem.changeDir
  have hpath : (if dirName.isSome then dirName else some (cstr "/")) = some (dirName.getD (cstr "/")) := by
    cases dirName with
    | none => rfl
    | some dirName => rfl
  simp only [hpath, resolveDirPath_some, Prog.mapStop_bind]
  refine bind_congr fun x => ?_
  cases x with
  | none => rfl
  | some x => rfl

theorem copyDestination_eq (localFileName dest : CStr) :
    copyDestination c localFileName (some dest) = fs (FileSystem.copyDestination c localFileName dest) := by
  unfold copyDestination FileSystem.copyDestination
  simp only [resolveDirPath_some, Prog.mapStop_bind]
  refine bind_congr fun x => ?_
  cases x with
  | some x => rfl
  | none =>
    simp only [fileName_some, fs_notNull, pure_bind, Prog.mapStop_bind]
    refine bind_congr fun destFileName => ?_
    by_cases hfolders : destFileName.length < dest.length
    · simp only [if_pos hfolders, Prog.mapStop_bind]
      refine bind_congr fun y => ?_
      cases y with
      | none => rfl
      | some y => rfl
    · simp only [if_neg hfolders]
      rfl

/-- A result that is not looked at. -/
theorem fs_ignore {α β : Type} (p : FsProg α) (b : β) : (do
    let _ ← fs p
    pure b) = fs (do
    let _ ← p
    pure b) := by
  simp only [Prog.mapStop_bind, Prog.mapStop_pure]

theorem keeping_fs {α : Type} (p : FsProg α) : keeping c (fs p) = fs (do
    let _ ← p
    pure c) := fs_ignore p c

theorem entry_succ {i : ℕ} (h : i ≤ args.length) : entry (word :: args) (i + 1) = pure args[i]? := by
  have hlen : i + 1 ≤ (word :: args).length := by
    rw [List.length_cons]
    omega
  unfold entry
  rw [if_pos hlen, List.getElem?_cons_succ]

/-- The arguments without which the command reads past the end or passes on a NULL. -/
def CommandName.argumentsNeeded : CommandName → List CStr → ℕ
  | .rm, option :: _ => if stringEqualsIgnoreCase option (cstr "-r") then 2 else 0
  | .mv, _ => 1
  | .rename, _ => 1
  | .cp, _ => 2
  | .catb, _ => 1
  | .cpb, _ => 1
  | .rmb, _ => 2
  | _, _ => 0

theorem deleteResource_eq (h : CommandName.rm.argumentsNeeded args ≤ args.length) :
    deleteResource fuel c (word :: args) = fs (FileSystem.deleteResource fuel c args[0]? args[1]?) := by
  unfold deleteResource FileSystem.deleteResource
  rw [entry_succ (Nat.zero_le _), pure_bind]
  cases args with
  | nil => rfl
  | cons option args =>
    simp only [List.getElem?_cons_zero, isNull_some, Bool.false_eq_true, if_false, equalsIgnoreCase_some, pure_bind]
    by_cases hoption : stringEqualsIgnoreCase option (cstr "-r") = true
    · simp only [if_pos hoption]
      have henough : 1 ≤ args.length := by
        simp only [CommandName.argumentsNeeded, if_pos hoption, List.length_cons] at h
        omega
      rw [entry_succ (by rw [List.length_cons]; omega), pure_bind, List.getElem?_cons_succ]
      cases args with
      | nil => exact absurd henough (by decide)
      | cons path args =>
        simp only [List.getElem?_cons_zero, resolveDirPath_some, Prog.mapStop_bind, fs_notNull, pure_bind]
        refine bind_congr fun x => ?_
        cases x with
        | none => rfl
        | some x => exact fs_ignore _ _
    · simp only [if_neg hoption, resolveFilePath_some, Prog.mapStop_bind]
      refine bind_congr fun x => ?_
      cases x with
      | none => rfl
      | some x => exact fs_ignore _ _

/-- `cp -fromfs`. -/
theorem copyFile_fromfs {option source dest : CStr} (h : stringEqualsIgnoreCase option (cstr "-fromfs") = true) :
    copyFile sort c (word :: option :: source :: dest :: args) =
      fs (copyFileFromfs sort c (some source) (some dest)) := by
  unfold copyFile copyFileFromfs
  rw [entry_succ (Nat.zero_le _), entry_succ (by simp), entry_succ (by simp)]
  simp only [pure_bind, List.getElem?_cons_zero, List.getElem?_cons_succ, isNull_some, Bool.or_self, Bool.false_eq_true,
    if_false, equalsIgnoreCase_some, if_pos h, fileName_some, Prog.mapStop_bind, copyDestination_eq]
  refine bind_congr fun localFileName => bind_congr fun x => ?_
  cases x with
  | none => rfl
  | some x =>
    simp only [fs_notNull, pure_bind]
    exact fs_ignore _ _

theorem saveBlockContents_eq {filePath blockN : CStr} : saveBlockContents c (word :: filePath :: blockN :: args) =
    fs (FileSystem.saveBlockContents c (some filePath) (some blockN)) := by
  unfold saveBlockContents FileSystem.saveBlockContents
  rw [entry_succ (Nat.zero_le _), entry_succ (by simp)]
  simp only [pure_bind, List.getElem?_cons_zero, List.getElem?_cons_succ, isNull_some, Bool.or_self, Bool.false_eq_true,
    if_false, fs_notNull]
  by_cases hnegative : getIntFromString blockN < 0
  · simp only [if_pos hnegative]
    rfl
  · simp only [if_neg hnegative, resolveFilePath_some, Prog.mapStop_bind]
    refine bind_congr fun x => ?_
    cases x with
    | none => rfl
    | some file =>
      simp only [Prog.mapStop_bind]
      rfl

theorem copyBlock_eq {filePath blockN : CStr} : copyBlock sort c (word :: filePath :: blockN :: args) =
    fs (FileSystem.copyBlock sort c (some filePath) (some blockN)) := by
  unfold copyBlock FileSystem.copyBlock
  rw [entry_succ (Nat.zero_le _), entry_succ (by simp)]
  simp only [pure_bind, List.getElem?_cons_zero, List.getElem?_cons_succ, isNull_some, Bool.or_self, Bool.false_eq_true,
    if_false, fs_notNull]
  by_cases hnegative : getIntFromString blockN < 0
  · simp only [if_pos hnegative]
    rfl
  · simp only [if_neg hnegative, resolveFilePath_some, Prog.mapStop_bind]
    refine bind_congr fun x => ?_
    cases x with
    | none => rfl
    | some file => exact fs_ignore _ _

theorem deleteBlock_eq {filePath blockN copyN : CStr} : deleteBlock c (word :: filePath :: blockN :: copyN :: args) =
    fs (FileSystem.deleteBlock c (some filePath) (some blockN) (some copyN)) := by
  unfold deleteBlock FileSystem.deleteBlock
  rw [entry_succ (Nat.zero_le _), entry_succ (by simp), entry_succ (by simp)]
  simp only [pure_bind, List.getElem?_cons_zero, List.getElem?_cons_succ, isNull_some, Bool.or_self, Bool.false_eq_true,
    if_false, fs_notNull]
  by_cases hnegative : getIntFromString blockN < 0
  · simp only [if_pos hnegative]
    rfl
  · by_cases hnegative' : getIntFromString copyN < 0
    · simp only [if_neg hnegative, if_pos hnegative']
      rfl
    · simp only [if_neg hnegative, if_neg hnegative', resolveFilePath_some, Prog.mapStop_bind]
      refine bind_congr fun x => ?_
      cases x with
      | none => rfl
      | some file => exact fs_ignore _ _

/-! ## The lines without a fault -/

/-- The file system stops by itself. -/
def Fault.Own : Fault → Prop
  | .stop _ => True
  | _ => False

theorem fs_stops {α : Type} (p : FsProg α) : (fs p).Stops Fault.Own := Prog.stops_mapStop (fun _ => trivial) p

theorem keeping_stops {α : Type} {p : LineProg α} (h : p.Stops Fault.Own) : (keeping c p).Stops Fault.Own :=
  Prog.stops_bind h fun _ => trivial

theorem resolveFilePath_stops (path : CStr) : (resolveFilePath c (some path)).Stops Fault.Own := fs_stops _

/-- A handler of two strings, or a third one that is missing. -/
theorem copyFile_stops {option source : CStr} :
    (copyFile sort c (word :: option :: source :: args)).Stops Fault.Own := by
  cases args with
  | nil => trivial
  | cons dest args =>
    by_cases hfromfs : stringEqualsIgnoreCase option (cstr "-fromfs") = true
    · rw [copyFile_fromfs hfromfs]
      exact fs_stops _
    · unfold copyFile
      rw [entry_succ (Nat.zero_le _), entry_succ (by simp), entry_succ (by simp)]
      simp only [pure_bind, List.getElem?_cons_zero, List.getElem?_cons_succ, isNull_some, Bool.or_self,
        Bool.false_eq_true,
        if_false, equalsIgnoreCase_some, if_neg hfromfs]
      by_cases htofs : stringEqualsIgnoreCase option (cstr "-tofs") = true
      · rw [if_pos htofs]
        refine Prog.stops_bind (resolveFilePath_stops source) fun x => ?_
        cases x with
        | none => trivial
        | some file =>
          simp only [fs_notNull, pure_bind]
          exact Prog.stops_bind (fs_stops _) fun _ => trivial
      · rw [if_neg htofs]
        trivial

theorem saveBlockContents_stops {filePath : CStr} :
    (saveBlockContents c (word :: filePath :: args)).Stops Fault.Own := by
  cases args with
  | nil => trivial
  | cons blockN args =>
    rw [saveBlockContents_eq]
    exact fs_stops _

theorem copyBlock_stops {filePath : CStr} : (copyBlock sort c (word :: filePath :: args)).Stops Fault.Own := by
  cases args with
  | nil => trivial
  | cons blockN args =>
    rw [copyBlock_eq]
    exact fs_stops _

theorem deleteBlock_stops {filePath blockN : CStr} :
    (deleteBlock c (word :: filePath :: blockN :: args)).Stops Fault.Own := by
  cases args with
  | nil => trivial
  | cons copyN args =>
    rw [deleteBlock_eq]
    exact fs_stops _

theorem md5sum_stops (filePath : Option CStr) : (Line.md5sum c filePath).Stops Fault.Own := by
  cases filePath with
  | none => trivial
  | some filePath =>
    refine Prog.stops_bind (resolveFilePath_stops filePath) fun x => ?_
    cases x with
    | none => trivial
    | some file => exact fs_stops _

theorem namedNode_stops (nodeName : Option CStr) : (namedNode nodeName).Stops Fault.Own := by
  cases nodeName with
  | none => trivial
  | some nodeName => exact fs_stops (filesystemGetNodeById nodeName)

theorem printFileBlocks_stops (filePath : Option CStr) : (printFileBlocks c filePath).Stops Fault.Own := by
  cases filePath with
  | none => trivial
  | some filePath => exact resolveFilePath_stops filePath

theorem exists_two (h : 2 ≤ args.length) : ∃ a b rest, args = a :: b :: rest := by
  obtain ⟨a, tail, rfl⟩ := List.exists_cons_of_length_pos (show 0 < args.length by omega)
  obtain ⟨b, rest, rfl⟩ := List.exists_cons_of_length_pos (show 0 < tail.length by rw [List.length_cons] at h; omega)
  exact ⟨a, b, rest, rfl⟩

/-- The command on directories and files that a line calls for. -/
def CommandName.command : CommandName → List CStr → Option Command
  | .format, _ => some .format
  | .rm, args => some (.rm args[0]? args[1]?)
  | .mv, args => some (.mv args[0]? args[1]?)
  | .rename, args => some (.rename args[0]? args[1]?)
  | .mkdir, args => some (.mkdir args[0]?)
  | .cd, args => some (.cd args[0]?)
  | .cp, option :: source :: dest :: _ =>
    if stringEqualsIgnoreCase option (cstr "-fromfs") then some (.cpFromfs (some source) (some dest)) else none
  | _, _ => none

/-- **A line with its arguments is the command of the console** on what is there of them. -/
theorem run_command {name : CommandName} {cmd : Command} (hcmd : name.command args = some cmd)
    (h : name.argumentsNeeded args ≤ args.length) :
    name.run sort fuel c (word :: args) = fs (cmd.prog sort fuel c) := by
  have hfirst : entry (word :: args) 1 = pure args[0]? := entry_succ (Nat.zero_le _)
  cases name with
  | format =>
    obtain rfl := Option.some.inj hcmd
    rfl
  | rm =>
    obtain rfl := Option.some.inj hcmd
    simp only [CommandName.run, deleteResource_eq h]
    exact keeping_fs _
  | mv =>
    obtain rfl := Option.some.inj hcmd
    have hsecond : entry (word :: args) 2 = pure args[1]? := entry_succ h
    simp only [CommandName.run, hfirst, hsecond, pure_bind, moveResource_eq]
    exact keeping_fs _
  | rename =>
    obtain rfl := Option.some.inj hcmd
    have hsecond : entry (word :: args) 2 = pure args[1]? := entry_succ h
    simp only [CommandName.run, hfirst, hsecond, pure_bind, renameResource_eq]
    exact keeping_fs _
  | mkdir =>
    obtain rfl := Option.some.inj hcmd
    simp only [CommandName.run, hfirst, pure_bind, makeDir_eq]
    exact keeping_fs _
  | cd =>
    obtain rfl := Option.some.inj hcmd
    simp only [CommandName.run, hfirst, pure_bind, changeDir_eq]
    rfl
  | cp =>
    obtain ⟨option, source, rest, rfl⟩ := exists_two h
    cases rest with
    | nil => exact absurd hcmd.symm (Option.some_ne_none _)
    | cons dest rest =>
      by_cases hfromfs : stringEqualsIgnoreCase option (cstr "-fromfs") = true
      · simp only [CommandName.command, if_pos hfromfs] at hcmd
        obtain rfl := Option.some.inj hcmd
        simp only [CommandName.run, copyFile_fromfs hfromfs]
        exact keeping_fs _
      · simp only [CommandName.command, if_neg hfromfs] at hcmd
        exact absurd hcmd.symm (Option.some_ne_none _)
  | _ => exact absurd hcmd.symm (Option.some_ne_none _)

/-- **A command that has its arguments** never meets a fault. -/
theorem run_stops {name : CommandName} (h : name.argumentsNeeded args ≤ args.length) :
    (name.run sort fuel c (word :: args)).Stops Fault.Own := by
  have hfirst : entry (word :: args) 1 = pure args[0]? := entry_succ (Nat.zero_le _)
  cases hcmd : name.command args with
  | some cmd =>
    rw [run_command hcmd h]
    exact fs_stops _
  | none =>
    cases name with
    | df => exact keeping_stops (fs_stops _)
    | ll => exact keeping_stops (Prog.stops_bind (fs_stops _) fun _ => Prog.stops_bind (fs_stops _) fun _ => trivial)
    | md5sum =>
      simp only [CommandName.run, hfirst, pure_bind]
      exact keeping_stops (md5sum_stops _)
    | cp =>
      obtain ⟨_, _, _, rfl⟩ := exists_two h
      exact keeping_stops copyFile_stops
    | blocks =>
      simp only [CommandName.run, hfirst, pure_bind]
      exact keeping_stops (printFileBlocks_stops _)
    | catb =>
      obtain ⟨_, _, rfl⟩ := List.exists_cons_of_length_pos h
      exact keeping_stops saveBlockContents_stops
    | cpb =>
      obtain ⟨_, _, rfl⟩ := List.exists_cons_of_length_pos h
      exact keeping_stops copyBlock_stops
    | rmb =>
      obtain ⟨_, _, _, rfl⟩ := exists_two h
      exact keeping_stops deleteBlock_stops
    | nodestat =>
      simp only [CommandName.run, hfirst, pure_bind]
      exact keeping_stops (namedNode_stops _)
    | enablen =>
      simp only [CommandName.run, hfirst, pure_bind]
      exact keeping_stops (namedNode_stops _)
    | disablen =>
      simp only [CommandName.run, hfirst, pure_bind]
      exact keeping_stops (namedNode_stops _)
    | help => trivial
    | exit => trivial
    | enter => trivial
    | _ => exact absurd hcmd (Option.some_ne_none _)

theorem argumentsNeeded_le (name : CommandName) (args : List CStr) : name.argumentsNeeded args ≤ 2 := by
  cases name with
  | rm =>
    cases args with
    | nil => exact Nat.zero_le 2
    | cons option args =>
      simp only [CommandName.argumentsNeeded]
      split
      · exact le_rfl
      · exact Nat.zero_le 2
  | mv => exact Nat.le_succ 1
  | rename => exact Nat.le_succ 1
  | cp => exact le_rfl
  | catb => exact Nat.le_succ 1
  | cpb => exact Nat.le_succ 1
  | rmb => exact le_rfl
  | _ => exact Nat.zero_le 2

/-- **A command without its arguments** begins with a fault. -/
theorem run_fault {name : CommandName} (h : args.length < name.argumentsNeeded args) :
    ∃ e, name.run sort fuel c (word :: args) = .stop e ∧ ¬e.Own := by
  -- by the number of arguments that are there
  cases args with
  | nil =>
    cases name with
    | mv => exact ⟨.outOfBounds 2, rfl, id⟩
    | rename => exact ⟨.outOfBounds 2, rfl, id⟩
    | cp => exact ⟨.outOfBounds 2, rfl, id⟩
    | catb => exact ⟨.outOfBounds 2, rfl, id⟩
    | cpb => exact ⟨.outOfBounds 2, rfl, id⟩
    | rmb => exact ⟨.outOfBounds 2, rfl, id⟩
    | _ => exact absurd h (Nat.not_lt_zero _)
  | cons option args =>
    cases args with
    | nil =>
      cases name with
      | rm =>
        have hoption : stringEqualsIgnoreCase option (cstr "-r") = true := by
          by_contra hother
          simp only [CommandName.argumentsNeeded, if_neg hother, Nat.not_lt_zero] at h
        refine ⟨.null, ?_, id⟩
        unfold CommandName.run deleteResource
        rw [entry_succ (Nat.zero_le _), pure_bind]
        simp only [List.getElem?_cons_zero, isNull_some, Bool.false_eq_true, if_false, equalsIgnoreCase_some, pure_bind,
          hoption, if_true]
        rfl
      | cp => exact ⟨.outOfBounds 3, rfl, id⟩
      | rmb => exact ⟨.outOfBounds 3, rfl, id⟩
      | mv => exact absurd h (lt_irrefl 1)
      | rename => exact absurd h (lt_irrefl 1)
      | catb => exact absurd h (lt_irrefl 1)
      | cpb => exact absurd h (lt_irrefl 1)
      | _ => exact absurd h (Nat.not_lt_zero _)
    | cons path args =>
      have htwo := argumentsNeeded_le name (option :: path :: args)
      simp only [List.length_cons] at h
      omega

theorem freeSplits_eq {parameters : List CStr} : ∀ {left i : ℕ}, i + left = parameters.length + 1 → 0 < left →
    freeSplits parameters left i = pure () := by
  intro left
  induction left with
  | zero =>
    intro i _ hleft
    omega
  | succ left ih =>
    intro i hi _
    have hbound : i ≤ parameters.length := by omega
    unfold freeSplits entry
    rw [if_pos hbound, pure_bind]
    by_cases hlast : i = parameters.length
    · rw [List.getElem?_eq_none (by omega)]
    · rw [List.getElem?_eq_getElem (by omega)]
      exact ih (by omega) (by omega)

/-- The line is empty, or it has a piece, and after it the arguments that the command needs. -/
def EnoughArguments (command : CStr) : Prop :=
  command = [] ∨ ∃ word args, stringSplit command 32 = word :: args ∧
    ∀ name ∈ commandOf word, name.argumentsNeeded args ≤ args.length

/-- A line that is not empty, from the pieces it has. -/
theorem consoleLine_eq {command : CStr} (hne : command ≠ []) (hsplit : stringSplit command 32 = word :: args) :
    consoleLine sort fuel c command = (do
      let c ← match commandOf word with
        | some name => name.run sort fuel c (word :: args)
        | none => pure c
      pure (c, commandOf word = some .exit)) := by
  have hfree : freeSplits (word :: args) ((word :: args).length + 1) 0 = pure () :=
    freeSplits_eq (Nat.zero_add _) (Nat.succ_pos _)
  unfold consoleLine
  rw [if_neg hne, hsplit]
  simp only [hfree, pure_bind]
  rfl

/-- The command of a line, and its arguments. -/
def lineCommand (command : CStr) : Option (CommandName × List CStr) :=
  match stringSplit command 32 with
  | [] => none
  | word :: args => (commandOf word).map fun name => (name, args)

/-- **A line with its arguments** does what its command does. -/
theorem consoleLine_command {command : CStr} {name : CommandName} {cmd : Command}
    (hline : lineCommand command = some (name, args)) (hcmd : name.command args = some cmd)
    (h : name.argumentsNeeded args ≤ args.length) :
    consoleLine sort fuel c command = (do
      let c ← fs (cmd.prog sort fuel c)
      pure (c, decide (name = .exit))) := by
  unfold lineCommand at hline
  cases hsplit : stringSplit command 32 with
  | nil =>
    rw [hsplit] at hline
    exact absurd hline.symm (Option.some_ne_none _)
  | cons word args' =>
    rw [hsplit] at hline
    obtain ⟨name', hname, heq⟩ := Option.map_eq_some_iff.1 hline
    obtain ⟨rfl, rfl⟩ := Prod.mk.inj heq
    have hne : command ≠ [] := by
      rintro rfl
      exact absurd hsplit.symm (List.cons_ne_nil word args')
    have hexit : (some name' = some CommandName.exit) = (name' = .exit) := by rw [Option.some.injEq]
    rw [consoleLine_eq hne hsplit, hname]
    simp only [run_command hcmd h, hexit]

theorem consoleLine_stops {command : CStr} (h : EnoughArguments command) :
    (consoleLine sort fuel c command).Stops Fault.Own := by
  by_cases hne : command = []
  · unfold consoleLine
    rw [if_pos hne]
    trivial
  · obtain ⟨word, args, hsplit, henough⟩ := h.resolve_left hne
    rw [consoleLine_eq hne hsplit]
    cases hname : commandOf word with
    | none => trivial
    | some name => exact Prog.stops_bind (run_stops (henough name hname)) fun _ => trivial

theorem consoleLine_fault {command : CStr} (h : ¬EnoughArguments command) :
    ∃ e, consoleLine sort fuel c command = .stop e ∧ ¬e.Own := by
  have hne : command ≠ [] := fun hnil => h (Or.inl hnil)
  cases hsplit : stringSplit command 32 with
  | nil =>
    refine ⟨.null, ?_, id⟩
    unfold consoleLine
    rw [if_neg hne, hsplit]
    rfl
  | cons word args =>
    have hmissing : ∃ name, commandOf word = some name ∧ args.length < name.argumentsNeeded args := by
      by_contra hall
      push Not at hall
      exact h (Or.inr ⟨word, args, hsplit, hall⟩)
    obtain ⟨name, hname, hlt⟩ := hmissing
    have hfault : ∃ e, name.run sort fuel c (word :: args) = .stop e ∧ ¬e.Own := run_fault hlt
    obtain ⟨e, he, hown⟩ := hfault
    refine ⟨e, ?_, hown⟩
    rw [consoleLine_eq hne hsplit, hname]
    simp only [he]
    rfl

/-- **The lines that are read without a fault**: no run on the line, in any world and whatever is decided on the way,
reads an entry after the NULL, or passes a NULL on to a comparison, a resolution of a path or `getFileName`, just when
the line is empty or has a command with the arguments that it needs. -/
theorem arguments_there_iff (sort : NodeSort) (fuel : ℕ) (c : Console) (w : World) (command : CStr) :
    (∀ is e v, (consoleLine sort fuel c command).exec handle w is = some (.error e, v) → ∃ s, e = .stop s) ↔
      EnoughArguments command := by
  constructor
  · intro hsafe
    by_contra hmissing
    have hfault : ∃ e, consoleLine sort fuel c command = .stop e ∧ ¬e.Own := consoleLine_fault hmissing
    obtain ⟨e, he, hown⟩ := hfault
    obtain ⟨s, rfl⟩ := hsafe [] e w (by rw [he]; rfl)
    exact hown trivial
  · intro henough is e v hrun
    have hown : e.Own := (consoleLine_stops henough).exec hrun
    cases e with
    | stop s => exact ⟨s, rfl⟩
    | outOfBounds i => exact hown.elim
    | null => exact hown.elim

/-- **A session** whose lines all have their arguments. -/
theorem session_stops {commands : List CStr} (h : ∀ command ∈ commands, EnoughArguments command) :
    (consoleStart sort fuel commands c).Stops Fault.Own := by
  induction commands generalizing c with
  | nil => trivial
  | cons command commands ih =>
    refine Prog.stops_bind (consoleLine_stops (h command List.mem_cons_self)) fun x => ?_
    obtain ⟨c', exit⟩ := x
    cases exit with
    | true => trivial
    | false => exact ih fun command' hmem => h command' (List.mem_cons_of_mem command hmem)

/-- The lines `rm -r`, `mv`, `cp a` and one of blanks only. -/
theorem argument_missing : (cstr "rm -r").length ≤ 510 ∧
    (consoleLine insertionSort 1 .start (cstr "rm -r")).exec handle (.empty fun _ => []) [] =
      some (.error .null, .empty fun _ => []) ∧
    (consoleLine insertionSort 1 .start (cstr "mv")).exec handle (.empty fun _ => []) [] =
      some (.error (.outOfBounds 2), .empty fun _ => []) ∧
    (consoleLine insertionSort 1 .start (cstr "cp a")).exec handle (.empty fun _ => []) [] =
      some (.error (.outOfBounds 3), .empty fun _ => []) ∧
    (consoleLine insertionSort 1 .start (cstr "  ")).exec handle (.empty fun _ => []) [] =
      some (.error .null, .empty fun _ => []) := by
  have hlength : (cstr "rm -r").length ≤ 510 := by decide
  exact ⟨hlength, rfl, rfl, rfl, rfl⟩

end Line

end Mdfs.FileSystem
