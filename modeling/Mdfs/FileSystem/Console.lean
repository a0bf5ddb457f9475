import Mdfs.Lib.Trace
import Mdfs.FileSystem.Effects

/-!
# The console of the FileSystem process

The commands of `console/console.c` that change directories and files, with the
current directory that the console keeps between them. The parameters of a
command are as `string_split` leaves them: a missing one is null.

A session is the console over the world; its actions are the commands and the
imports that MaRTA asks for, each run to its end.
-/

namespace Mdfs.FileSystem

open Lib

/-- `currentDirPrompt` and `currentDirId`. -/
structure Console where
  currentDirPrompt : CStr
  currentDirId : Oid

/-- The console at its start. -/
def Console.start : Console := ⟨cstr "/", .root⟩

/-- `format`. -/
def Console.format (c : Console) : FsProg Console := do
  if ← filesystemFormat then pure ⟨cstr "/", .root⟩ else pure c

/-- A string that is read: a null one crashes. -/
def notNull : Option CStr → FsProg CStr
  | some s => pure s
  | none => .stop .crash

/-- `deleteResource`; `fuel` bounds the depth of the tree that is removed. -/
def deleteResource (fuel : ℕ) (c : Console) (parameter1 parameter2 : Option CStr) : FsProg Unit :=
  match parameter1 with
  | none => pure ()
  | some parameter1 =>
    if stringEqualsIgnoreCase parameter1 (cstr "-r") then do
      let path ← notNull parameter2
      match ← filesystemResolveDirPath path c.currentDirId c.currentDirPrompt with
      | some (dir, _) =>
        let _ ← filesystemDeleteDir fuel (some dir)
        pure ()
      | none => pure ()
    else do
      match ← filesystemResolveFilePath parameter1 c.currentDirId c.currentDirPrompt with
      | some file =>
        let _ ← filesystemDeleteFile (some file)
        pure ()
      | none => pure ()

def moveResource (c : Console) (resource destination : Option CStr) : FsProg Unit :=
  match resource, destination with
  | some resource, some destination => do
    match ← filesystemResolveDirPath destination c.currentDirId c.currentDirPrompt with
    | none => pure ()
    | some (destinationDir, _) =>
      match ← filesystemResolveDirPath resource c.currentDirId c.currentDirPrompt with
      | some (dirToMove, _) => filesystemMoveDir dirToMove destinationDir.id
      | none =>
        -- If couldn't find a dir, then try to find a file:
        match ← filesystemResolveFilePath resource c.currentDirId c.currentDirPrompt with
        | some fileToMove => filesystemMoveFile fileToMove destinationDir.id
        | none => pure ()
  | _, _ => pure ()

def renameResource (c : Console) (resource newName : Option CStr) : FsProg Unit :=
  match resource, newName with
  | some resource, some newName => do
    match ← filesystemResolveDirPath resource c.currentDirId c.currentDirPrompt with
    | some (dirToMove, _) => filesystemRenameDir dirToMove newName
    | none =>
      match ← filesystemResolveFilePath resource c.currentDirId c.currentDirPrompt with
      | some fileToMove => filesystemRenameFile fileToMove newName
      | none => pure ()
  | _, _ => pure ()

/-- The id of the record is overwritten when it is saved. -/
def makeDir (c : Console) (dirName : Option CStr) : FsProg Unit :=
  match dirName with
  | none => pure ()
  | some dirName => do
    let _ ← filesystemAddDir ⟨.root, c.currentDirId, dirName⟩
    pure ()

def changeDir (c : Console) (dirName : Option CStr) : FsProg Console := do
  match ← filesystemResolveDirPath (dirName.getD (cstr "/")) c.currentDirId c.currentDirPrompt with
  | some (changeToDir, newDirPrompt) => pure ⟨newDirPrompt, changeToDir.id⟩
  | none => pure c

/-- The name and the directory of the file that `copyFile` creates at `dest`. -/
def copyDestination (c : Console) (localFileName dest : CStr) : FsProg (Option (CStr × Oid)) := do
  match ← filesystemResolveDirPath dest c.currentDirId c.currentDirPrompt with
  | some (dir, _) => pure (some (localFileName, dir.id))
  | none =>
    let destFileName ← getFileName dest
    if destFileName.length < dest.length then
      let pathToFolder := dest.take (dest.length - destFileName.length)
      match ← filesystemResolveDirPath pathToFolder c.currentDirId c.currentDirPrompt with
      | some (dir, _) => pure (some (destFileName, dir.id))
      | none => pure none
    else pure (some (destFileName, c.currentDirId)) -- just a file in the current folder

/-- `copyFile` with the option `-fromfs`. -/
def copyFileFromfs (sort : NodeSort) (c : Console) (source dest : Option CStr) : FsProg Unit :=
  match source, dest with
  | some source, some dest => do
    let localFileName ← getFileName source
    match ← copyDestination c localFileName dest with
    | none => pure ()
    | some (name, parentId) =>
      let _ ← filesystemCopyFileFromFS sort source ⟨.root, parentId, name, 0, []⟩
      pure ()
  | _, _ => pure ()

/-- A command with its parameters. -/
inductive Command
  | format
  | rm (parameter1 parameter2 : Option CStr)
  | mv (resource destination : Option CStr)
  | rename (resource newName : Option CStr)
  | mkdir (dirName : Option CStr)
  | cd (dirName : Option CStr)
  | cpFromfs (source dest : Option CStr)

/-- The body of the loop of `console_start`. -/
def Command.prog (sort : NodeSort) (fuel : ℕ) (c : Console) : Command → FsProg Console
  | .format => c.format
  | .rm parameter1 parameter2 => do
    deleteResource fuel c parameter1 parameter2
    pure c
  | .mv resource destination => do
    moveResource c resource destination
    pure c
  | .rename resource newName => do
    renameResource c resource newName
    pure c
  | .mkdir dirName => do
    makeDir c dirName
    pure c
  | .cd dirName => changeDir c dirName
  | .cpFromfs source dest => do
    copyFileFromfs sort c source dest
    pure c

/-- A command, or a result that is imported for MaRTA. -/
inductive Action
  | command (cmd : Command)
  | importResult (nodeId finalTmpName resultFilePath : CStr)

def Action.prog (sort : NodeSort) (fuel : ℕ) (c : Console) : Action → FsProg Console
  | .command cmd => cmd.prog sort fuel c
  | .importResult nodeId finalTmpName resultFilePath => do
    let _ ← filesystemCopyTmpFileToMDFS sort nodeId finalTmpName resultFilePath COMMAND_RESULT_CANT_COPY
    pure c

/-- The console and the world. -/
structure Session where
  console : Console
  world : World

/-- An action run to its end: with a bound on its recursion, and with what the
outside world decides on the way. -/
def Session.step (sort : NodeSort) (s : Session) (x : Action × ℕ × List Choice) : Option Session :=
  match (x.1.prog sort x.2.1 s.console).exec handle s.world x.2.2 with
  | some (.ok c, w) => some ⟨c, w⟩
  | _ => none

/-- Every request of the action meets `C`, which also sees the console. -/
def Session.Meets (sort : NodeSort) (C : Console → World → Req → Choice → Prop) (s : Session)
    (x : Action × ℕ × List Choice) : Prop :=
  (x.1.prog sort x.2.1 s.console).Along handle (C s.console) s.world x.2.2

instance Session.decidableMeets (sort : NodeSort) (C : Console → World → Req → Choice → Prop)
    [∀ c w r x, Decidable (C c w r x)]
    (s : Session) (x : Action × ℕ × List Choice) : Decidable (Session.Meets sort C s x) :=
  inferInstanceAs (Decidable ((x.1.prog sort x.2.1 s.console).Along handle (C s.console) s.world x.2.2))

/-- An action that completes ends as its program does. -/
theorem Session.step_ok {sort : NodeSort} {C : Console → World → Req → Choice → Prop} {s s' : Session}
    {x : Action × ℕ × List Choice} {I : Session → Prop}
    (hp : (x.1.prog sort x.2.1 s.console).Ok (worldSpec (C s.console)) (fun c w => I ⟨c, w⟩) (fun _ _ => True)
      s.world) (hC : Session.Meets sort C s x) (hs : Session.step sort s x = some s') : I s' := by
  unfold Session.step at hs
  split at hs
  · rename_i h
    cases hs
    exact hp.exec_along hC h
  · cases hs

end Mdfs.FileSystem
