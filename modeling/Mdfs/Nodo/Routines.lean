import Mdfs.Lib.MapReduce
import Mdfs.Nodo.Joined
import Mdfs.Routine

/-!
# The routines in a node

`node_executeMapRutine` and `node_executeReduceRutine` of `node.c` on the files of a node: each
writes the routine into an executable file and has the shell run a pipeline with it and `sort`,
from the block or from a file of the node to the file of the order.

* `runMapRutine_final`, `runReduceRutine_final`: what the file of the order has in it.
* `runMapRutine_frame`, `runReduceRutine_frame`: no other file is touched.
-/

namespace Mdfs.Nodo

open Lib Lines

/-- What the machines of the nodes have in common: the size of a page, the order of `sort`, and
what a program writes for what it reads. -/
structure Shell where
  page : ℕ
  page_pos : 0 < page
  collation : Collation UInt8
  stdout : (program stdin : CStr) → CStr
  stderr : (program stdin : CStr) → CStr

/-- A redirection to a file. -/
def Files.write (files : Files) (path content : CStr) : Files := Function.update files path (some content)

/-- What follows the path of an order's file in those of the files that go with it. -/
def suffixes : List CStr := [cstr "_maprutine", cstr "_reducerutine", cstr "_stderr", cstr "_prereduce_joined"]

/-- The files that an order with this file name touches. -/
def Touches (tmpDir tmpFileName path : CStr) : Prop :=
  path = pathToTmpFile tmpDir tmpFileName ∨ ∃ suffix ∈ suffixes, path = pathToTmpFile tmpDir tmpFileName ++ suffix

/-- `node_executeMapRutine`, behind `node_getBlock`: `routine | sort >final 2>stderr`. The last
redirection is of `sort`, which has nothing to say. -/
def runMapRutine (sh : Shell) (tmpDir : CStr) (files : Files) (order : MapOrder) (blockData : CStr) : Files :=
  let files := withMapRutine files tmpDir order
  let program := (files (pathToMapRutine tmpDir order)).getD []
  let path := pathToTmpFile tmpDir order.tmpName
  (files.write (path ++ cstr "_stderr") []).write path (sh.collation.sorted newline (sh.stdout program blockData))

/-- `node_executeReduceRutine`: `cat file | sort | routine >final 2>stderr`. There is nothing in a
file that is not there. -/
def runReduceRutine (sh : Shell) (tmpDir : CStr) (files : Files) (order : ReduceOrder) (tmpFileNameToReduce : CStr) :
    Files :=
  let files := withReduceRutine files tmpDir order
  let program := (files (pathToReduceRutine tmpDir order)).getD []
  let stdin := sh.collation.sorted newline ((files (pathToTmpFile tmpDir tmpFileNameToReduce)).getD [])
  let path := pathToTmpFile tmpDir order.finalTmpName
  (files.write (path ++ cstr "_stderr") (sh.stderr program stdin)).write path (sh.stdout program stdin)

/-- The file that is joined from parts, before the reduce. -/
def joinedName (finalTmpName : CStr) : CStr := finalTmpName ++ cstr "_prereduce_joined"

/-- `node_createTmpFileFromStringList`, with its file. -/
def withJoined (files : Files) (tmpDir finalTmpName : CStr) (joined : List UInt8) : Files :=
  files.write (pathToTmpFile tmpDir (joinedName finalTmpName)) joined

variable {sh : Shell} {tmpDir path : CStr} {files : Files} {mapOrder : MapOrder} {order : ReduceOrder}
  {blockData name content : CStr}

@[simp] theorem Files.write_self : files.write path content path = some content := Function.update_self ..

theorem Files.write_of_ne {other : CStr} (h : other ≠ path) : files.write path content other = files other :=
  Function.update_of_ne h ..

theorem touches_self : Touches tmpDir name (pathToTmpFile tmpDir name) := Or.inl rfl

theorem touches_suffix {suffix : CStr} (h : suffix ∈ suffixes) :
    Touches tmpDir name (pathToTmpFile tmpDir name ++ suffix) := Or.inr ⟨suffix, h, rfl⟩

/-- **The file of a map**: what the routine writes for the block, sorted. -/
theorem runMapRutine_final : runMapRutine sh tmpDir files mapOrder blockData (pathToTmpFile tmpDir mapOrder.tmpName) =
    some (sh.collation.sorted newline (sh.stdout mapOrder.mapRutine blockData)) := by
  unfold runMapRutine withMapRutine
  rw [nodeCreateExecutableFileFromString_self, Option.getD_some]
  exact Files.write_self

theorem withMapRutine_of_ne (h : path ≠ pathToMapRutine tmpDir mapOrder) :
    withMapRutine files tmpDir mapOrder path = files path := if_neg h

theorem withReduceRutine_of_ne (h : path ≠ pathToReduceRutine tmpDir order) :
    withReduceRutine files tmpDir order path = files path := if_neg h

/-- **A map touches its own files only.** -/
theorem runMapRutine_frame (h : ¬Touches tmpDir mapOrder.tmpName path) :
    runMapRutine sh tmpDir files mapOrder blockData path = files path := by
  have hfinal : path ≠ pathToTmpFile tmpDir mapOrder.tmpName := fun heq => h (Or.inl heq)
  have hstderr : path ≠ pathToTmpFile tmpDir mapOrder.tmpName ++ cstr "_stderr" :=
    fun heq => h (Or.inr ⟨_, by simp [suffixes], heq⟩)
  have hroutine : path ≠ pathToMapRutine tmpDir mapOrder := fun heq => h (Or.inr ⟨_, by simp [suffixes], heq⟩)
  unfold runMapRutine
  rw [Files.write_of_ne hfinal, Files.write_of_ne hstderr, withMapRutine_of_ne hroutine]

/-- **The file of a reduce**: what the routine writes for the lines of the file that it is started
on, sorted. -/
theorem runReduceRutine_final (h : pathToTmpFile tmpDir name ≠ pathToReduceRutine tmpDir order) :
    runReduceRutine sh tmpDir files order name (pathToTmpFile tmpDir order.finalTmpName) =
      some (sh.stdout order.reduceRutine
        (sh.collation.sorted newline ((files (pathToTmpFile tmpDir name)).getD []))) := by
  unfold runReduceRutine
  rw [Files.write_self, withReduceRutine_of_ne h]
  unfold withReduceRutine
  rw [nodeCreateExecutableFileFromString_self, Option.getD_some]

/-- **A reduce touches its own files only.** -/
theorem runReduceRutine_frame (h : ¬Touches tmpDir order.finalTmpName path) :
    runReduceRutine sh tmpDir files order name path = files path := by
  have hfinal : path ≠ pathToTmpFile tmpDir order.finalTmpName := fun heq => h (Or.inl heq)
  have hstderr : path ≠ pathToTmpFile tmpDir order.finalTmpName ++ cstr "_stderr" :=
    fun heq => h (Or.inr ⟨_, by simp [suffixes], heq⟩)
  have hroutine : path ≠ pathToReduceRutine tmpDir order := fun heq => h (Or.inr ⟨_, by simp [suffixes], heq⟩)
  unfold runReduceRutine
  rw [Files.write_of_ne hfinal, Files.write_of_ne hstderr, withReduceRutine_of_ne hroutine]

/-- The joined file is one of the files of its reduce. -/
theorem path_joined (tmpDir finalTmpName : CStr) : pathToTmpFile tmpDir (joinedName finalTmpName) =
    pathToTmpFile tmpDir finalTmpName ++ cstr "_prereduce_joined" := by
  unfold pathToTmpFile joinedName
  simp only [List.append_assoc]

theorem withJoined_frame (h : ¬Touches tmpDir name path) : withJoined files tmpDir name content path = files path := by
  refine Files.write_of_ne fun heq => h ?_
  rw [path_joined] at heq
  exact Or.inr ⟨_, by simp [suffixes], heq⟩

/-! ## The names of orders -/

/-- A name that MaRTA gives ends like this. -/
def TxtName (name : CStr) : Prop := ∃ stem, name = stem ++ cstr ".txt"

/-- A path that ends with a suffix is of no such name. -/
theorem path_ne_suffix (hname : TxtName name) {other suffix : CStr} (h : suffix ∈ suffixes) :
    pathToTmpFile tmpDir name ≠ pathToTmpFile tmpDir other ++ suffix := by
  obtain ⟨stem, rfl⟩ := hname
  intro heq
  unfold pathToTmpFile at heq
  simp only [List.append_assoc, List.append_cancel_left_eq] at heq
  have hcases : ∀ s ∈ suffixes, s ≠ [] ∧ s.getLast? ≠ (cstr ".txt").getLast? := by decide
  obtain ⟨hnil, hdiff⟩ := hcases suffix h
  have hlast := congrArg List.getLast? heq
  rw [List.getLast?_append_of_ne_nil _ (by decide), List.getLast?_append_of_ne_nil _ hnil] at hlast
  exact hdiff hlast.symm

/-- **The files of another order** are not touched. -/
theorem not_touches (hname : TxtName name) {other : CStr} (hne : name ≠ other) :
    ¬Touches tmpDir other (pathToTmpFile tmpDir name) := by
  rintro (heq | ⟨suffix, hsuffix, heq⟩)
  · exact hne (List.append_cancel_left heq)
  · exact path_ne_suffix hname hsuffix heq

end Mdfs.Nodo
