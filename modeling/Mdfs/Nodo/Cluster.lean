import Mdfs.Nodo.BlockStore
import Mdfs.Nodo.Routines

/-!
# The nodes at work

The nodes with their bin files and their temporary files. They are given blocks by the FileSystem,
and maps and reduces by the Jobs, in any order; a reduce gets its temps from the nodes that have
them, with threads that end in any order, and an order that fails leaves anything in its files.

An `Origin` records for a file what it was made from: a text that was mapped, or the texts below
the files that were reduced to it. No function of the source reads it.

* `cluster_computes`: in every run, the file of a reduce has what one machine would give for all
  texts below it; for a reduce of reduces, when the reducer can be used as a combiner.
-/

namespace Mdfs.Nodo

open Lib Lines MapReduce

/-! ## The nodes -/

/-- The bin file and the files of each node, by its name. -/
structure Cluster where
  binFileMap : CStr → Memory
  files : CStr → Files

/-- What happens in the nodes. -/
inductive ClusterEvent
  | setBlock (node : CStr) (numBlock : UInt16) (packet : Packet)
  | map (node : CStr) (order : MapOrder)
  | reduce (node : CStr) (order : ReduceOrder) (schedule : List FetchEvent)
  /-- An order fails, with anything in its files. -/
  | fails (node tmpName : CStr) (left : Files)

def Cluster.setFiles (w : Cluster) (node : CStr) (files : Files) : Cluster :=
  { w with files := Function.update w.files node files }

/-- What `node_executeMapRutine` writes into the pipe: the block up to its terminator. -/
def Cluster.blockData (w : Cluster) (node : CStr) (numBlock : UInt16) : Option CStr :=
  connectionsFsDeserializeGetBlock (w.binFileMap node) numBlock

/-- `getTmpFileFromNode` in the node `name`: its own file, or what another node sends. -/
def Cluster.getTmpFile (sh : Shell) (tmpDir : CStr → CStr) (w : Cluster) (name : CStr)
    (operation : GetTmpFileOperation) :
    Except Fault (Option CStr) :=
  if name = operation.nodeId then nodeGetTmpFileContent sh.page (w.files name) (tmpDir name) operation.tmpFileName
  else (connectionsDeserializeGetFileContent sh.page (w.files operation.nodeId) (tmpDir operation.nodeId)
    (getFileContentPacket operation.tmpFileName)).map nodeReceived

/-- The parts that the threads of `f` have got are those that the nodes have. -/
def Cluster.Got (sh : Shell) (tmpDir : CStr → CStr) (w : Cluster) (name : CStr) (f : Fetch) : Prop :=
  f.failed = false ∧ ∀ x ∈ f.tmpFileParts, w.getTmpFile sh tmpDir name x.1 = .ok x.2

instance (sh : Shell) (tmpDir : CStr → CStr) (w : Cluster) (name : CStr) (f : Fetch) :
    Decidable (w.Got sh tmpDir name f) := inferInstanceAs (Decidable (_ ∧ _))

/-- `connections_job_deserializeReduce` behind the decoding, where it succeeds. -/
def Cluster.reduced (sh : Shell) (tmpDir : CStr → CStr) (w : Cluster) (node : CStr) (order : ReduceOrder)
    (schedule : List FetchEvent) : Option Files :=
  match (operationsOf node order.temps).tmpFileNameToReduce with
  | some tmpFileNameToReduce => some (runReduceRutine sh (tmpDir node) (w.files node) order tmpFileNameToReduce)
  | none =>
    match getTmpFiles (operationsOf node order.temps).getTmpFileOperations schedule with
    | some f =>
      if w.Got sh tmpDir node f then
        some (runReduceRutine sh (tmpDir node) (withJoined (w.files node) (tmpDir node) order.finalTmpName f.joinedFile)
          order (joinedName order.finalTmpName))
      else none
    | none => none

/-- One event; `none` when it cannot happen. -/
def Cluster.step (sh : Shell) (tmpDir : CStr → CStr) (w : Cluster) : ClusterEvent → Option Cluster
  | .setBlock node numBlock packet =>
    some { w with
      binFileMap := Function.update w.binFileMap node (nodeSetBlockFromPacket (w.binFileMap node) numBlock packet) }
  | .map node order => (w.blockData node order.numBlock).map fun blockData =>
    w.setFiles node (runMapRutine sh (tmpDir node) (w.files node) order blockData)
  | .reduce node order schedule => (w.reduced sh tmpDir node order schedule).map (w.setFiles node)
  | .fails node tmpName left =>
    let files := fun path => if ∃ suffix ∈ [] :: suffixes, path = pathToTmpFile (tmpDir node) tmpName ++ suffix
      then left path else w.files node path
    some (w.setFiles node files)

/-! ## Where a file comes from -/

/-- **The origin of a file**: how many reduces are one above the other in it, and the texts that
were mapped for it. -/
structure Origin where
  depth : ℕ
  texts : List CStr
  deriving DecidableEq

/-- The origin of a reduce, from those of its temps. -/
def Origin.reduce (origins : List Origin) : Origin :=
  ⟨1 + (origins.map Origin.depth).foldr max 0, origins.flatMap Origin.texts⟩

/-- What is written down of the nodes: the data last set in their blocks, and the origins of their
files, by the names in the orders. -/
structure Notes where
  blocks : CStr → UInt16 → Option Packet
  origins : CStr → CStr → Option Origin

def Notes.start : Notes := ⟨fun _ _ => none, fun _ _ => none⟩

def Notes.setOrigin (g : Notes) (node name : CStr) (o : Option Origin) : Notes :=
  { g with origins := Function.update g.origins node (Function.update (g.origins node) name o) }

/-- The origins of the temps of a reduce, if all have one. -/
def Notes.ofTemps (g : Notes) (temps : List GetTmpFileOperation) : Option (List Origin) :=
  temps.mapM fun temp => g.origins temp.nodeId temp.tmpFileName

/-- What is written down of an event, for a job with these two routines. -/
def Notes.after (mapper reducer : CStr) (g : Notes) : ClusterEvent → Notes
  | .setBlock node numBlock packet =>
    { g with blocks := Function.update g.blocks node (Function.update (g.blocks node) numBlock (some packet)) }
  | .map node order => g.setOrigin node order.tmpName (if order.mapRutine = mapper then
      (g.blocks node order.numBlock).map fun text => ⟨0, [text]⟩ else none)
  | .reduce node order _ => g.setOrigin node order.finalTmpName (if order.reduceRutine = reducer then
      (g.ofTemps order.temps).map Origin.reduce else none)
  | .fails node tmpName _ => g.setOrigin node tmpName none

/-- One event in the nodes and in the notes. -/
def notedStep (sh : Shell) (tmpDir : CStr → CStr) (mapper reducer : CStr) (x : Cluster × Notes) (e : ClusterEvent) :
    Option (Cluster × Notes) :=
  (x.1.step sh tmpDir e).map fun w => (w, x.2.after mapper reducer e)

/-- A name of an order: as MaRTA gives it, in a C string. -/
def OrderName (name : CStr) : Prop := TxtName name ∧ 0 ∉ name ∧ name.length < 60

/-- Data that a block can hold with its terminator. -/
structure Fits (numBlock : UInt16) (packet : Packet) : Prop where
  small : numBlock.toNat < 102
  short : packet.length < BLOCK_SIZE
  text : 0 ∉ packet

/-- **An event as it can come**: data that fits in its block, and an order with a good name and
its temps counted in 16 bits. -/
def ClusterEvent.Decoded : ClusterEvent → Prop
  | .setBlock _ numBlock packet => Fits numBlock packet
  | .map _ order => OrderName order.tmpName
  | .reduce _ order _ => OrderName order.finalTmpName ∧ order.temps.length < 2 ^ 16
  | .fails _ tmpName _ => OrderName tmpName

/-! ## What one machine gives -/

/-- The lines that the mapper writes for texts. -/
def mappedLines (sh : Shell) (mapper : CStr) (texts : List CStr) : Multiset CStr :=
  (texts.map fun text => (lines newline (sh.stdout mapper text) : Multiset CStr)).sum

/-- **The result on one machine**: the reducer on the sorted lines of the mapper for all texts. -/
def onOneMachine (sh : Shell) (mapper reducer : CStr) (texts : List CStr) : CStr :=
  sh.stdout reducer (unlines newline (sh.collation.sort (mappedLines sh mapper texts)))

/-- The lines that the reducer writes for lines in order. -/
def reducedLines (sh : Shell) (reducer : CStr) (s : Multiset CStr) : List CStr :=
  lines newline (sh.stdout reducer (unlines newline (sh.collation.sort s)))

/-- **A routine that writes text**: no zero byte without one in what it reads. -/
def WritesText (sh : Shell) (program : CStr) : Prop := ∀ stdin, 0 ∉ stdin → 0 ∉ sh.stdout program stdin

/-- **The reducer as a combiner** of what the mapper writes. -/
structure Combiner (sh : Shell) (Record : CStr → Prop) (mapper reducer : CStr) : Prop where
  mapped : ∀ text, 0 ∉ text → ∀ line ∈ lines newline (sh.stdout mapper text), Record line
  combinable : Combinable Record (reducedLines sh reducer)
  ended : ∀ s : Multiset CStr, (∀ line ∈ s, Record line) →
    ¬Open newline (sh.stdout reducer (unlines newline (sh.collation.sort s)))

/-- **What a file should have** that comes from `o`. -/
structure Sound (sh : Shell) (Record : CStr → Prop) (mapper reducer : CStr) (o : Origin) (file : CStr) : Prop where
  text : 0 ∉ file
  texts : ∀ t ∈ o.texts, 0 ∉ t
  map : o.depth = 0 → ∃ t, o.texts = [t] ∧ file = sh.collation.sorted newline (sh.stdout mapper t)
  reduce : o.depth = 1 ∨ (1 < o.depth ∧ Combiner sh Record mapper reducer) →
    file = onOneMachine sh mapper reducer o.texts

/-- **The nodes agree with the notes.** -/
structure Agrees (sh : Shell) (tmpDir : CStr → CStr) (Record : CStr → Prop) (mapper reducer : CStr)
    (x : Cluster × Notes) :
    Prop where
  blocks : ∀ node n p, x.2.blocks node n = some p → Fits n p ∧ StringAt (x.1.binFileMap node) n p
  files : ∀ node name o, x.2.origins node name = some o → OrderName name ∧
    ∃ file, x.1.files node (pathToTmpFile (tmpDir node) name) = some file ∧ Sound sh Record mapper reducer o file

variable {sh : Shell} {tmpDir : CStr → CStr} {Record : CStr → Prop} {mapper reducer node name : CStr} {w : Cluster}
  {g : Notes} {o : Origin} {file input text : CStr} {temps : List GetTmpFileOperation}

/-! ## Lines on one machine -/

theorem mappedLines_flatMap {ι : Type} (is : List ι) (texts : ι → List CStr) :
    mappedLines sh mapper (is.flatMap texts) =
    (is.map fun i => mappedLines sh mapper (texts i)).sum := by
  induction is with
  | nil => rfl
  | cons i is ih =>
    rw [List.map_cons, List.sum_cons, ← ih]
    unfold mappedLines
    rw [List.flatMap_cons, List.map_append, List.sum_append]

/-- There is no zero in a sorted text without one. -/
theorem zero_not_mem_sorted (h : 0 ∉ text) : 0 ∉ sh.collation.sorted newline text := by
  intro hmem
  obtain ⟨line, hline, hb⟩ := List.mem_flatMap.1 hmem
  rcases List.mem_append.1 hb with hb | hb
  · exact h (mem_of_mem_lines (Multiset.mem_coe.1 (sh.collation.mem_sort.1 hline)) hb)
  · exact absurd (List.mem_singleton.1 hb) (by decide)

/-- What the mapper writes are records. -/
theorem records_mappedLines (hC : Combiner sh Record mapper reducer) {texts : List CStr} (h : ∀ t ∈ texts, 0 ∉ t) :
    ∀ line ∈ mappedLines sh mapper texts, Record line := by
  induction texts with
  | nil => exact fun _ hline => absurd hline (Multiset.notMem_zero _)
  | cons t texts ih =>
    have hrest := ih fun u hu => h u (List.mem_cons_of_mem t hu)
    have hfirst : ∀ line ∈ (lines newline (sh.stdout mapper t) : Multiset CStr), Record line :=
      fun line hline => hC.mapped t (h t List.mem_cons_self) line (Multiset.mem_coe.1 hline)
    unfold mappedLines at hrest ⊢
    rw [List.map_cons, List.sum_cons]
    exact forall_mem_add.2 ⟨hfirst, hrest⟩

/-- The lines of a map are those of its text. -/
theorem lines_of_map (h : Sound sh Record mapper reducer o file) (hdepth : o.depth = 0) : ¬Open newline file ∧
    (lines newline file : Multiset CStr) = mappedLines sh mapper o.texts := by
  obtain ⟨t, htexts, rfl⟩ := h.map hdepth
  refine ⟨sh.collation.not_open_sorted, ?_⟩
  rw [sh.collation.coe_lines_sorted, htexts]
  simp [mappedLines]

/-- **With a combiner, the lines of a file stand for those of its texts.** -/
theorem stands_of_sound (hC : Combiner sh Record mapper reducer) (h : Sound sh Record mapper reducer o file) :
    ¬Open newline file ∧ Stands Record (reducedLines sh reducer) (lines newline file)
      (mappedLines sh mapper o.texts) := by
  have hrecords := records_mappedLines hC h.texts
  by_cases hdepth : o.depth = 0
  · obtain ⟨hended, hlines⟩ := lines_of_map h hdepth
    rw [hlines]
    exact ⟨hended, .maps hrecords⟩
  · have hfile : file = onOneMachine sh mapper reducer o.texts := h.reduce (by
      have hone : o.depth = 1 ∨ 1 < o.depth := by omega
      exact hone.imp id fun hlt => ⟨hlt, hC⟩)
    rw [hfile]
    exact ⟨hC.ended _ hrecords, .reduced (.maps hrecords)⟩

/-! ## A reduce -/

/-- The depth of a reduce. -/
theorem depth_le_of_mem {origins : List Origin} (h : o ∈ origins) :
    o.depth ≤ (origins.map Origin.depth).foldr max 0 := by
  induction origins with
  | nil => exact absurd h List.not_mem_nil
  | cons p origins ih =>
    rw [List.map_cons, List.foldr_cons]
    rcases List.mem_cons.1 h with rfl | h
    · exact Nat.le_max_left _ _
    · exact (ih h).trans (Nat.le_max_right _ _)

/-- **The result of a reduce is sound**, when it is given the lines of sound files. -/
theorem sound_reduce (hreduce : WritesText sh reducer) {origin : GetTmpFileOperation → Origin}
    {content : GetTmpFileOperation → CStr} (h : ∀ t ∈ temps, Sound sh Record mapper reducer (origin t) (content t))
    (htext : 0 ∉ input) (hinput : (∀ t ∈ temps, ¬Open newline (content t)) →
      (lines newline input : Multiset CStr) = (temps.map fun t => (lines newline (content t) : Multiset CStr)).sum) :
    Sound sh Record mapper reducer (Origin.reduce (temps.map origin))
      (sh.stdout reducer (sh.collation.sorted newline input)) where
  text := hreduce _ (zero_not_mem_sorted htext)
  texts := by
    intro t ht
    obtain ⟨o, ho, ht⟩ := List.mem_flatMap.1 ht
    obtain ⟨temp, htemp, rfl⟩ := List.mem_map.1 ho
    exact (h temp htemp).texts t ht
  map := fun hdepth => absurd hdepth (by simp [Origin.reduce])
  reduce := by
    have hall : mappedLines sh mapper (Origin.reduce (temps.map origin)).texts =
        (temps.map fun t => mappedLines sh mapper (origin t).texts).sum := by
      unfold Origin.reduce
      rw [List.flatMap_map, mappedLines_flatMap]
    rintro (hdepth | ⟨-, hC⟩)
    · -- all temps are of maps
      have hzero : ∀ t ∈ temps, (origin t).depth = 0 := by
        intro t ht
        have hle := depth_le_of_mem (List.mem_map_of_mem (f := origin) ht)
        unfold Origin.reduce at hdepth
        dsimp only at hdepth
        omega
      have hmaps := fun t ht => lines_of_map (h t ht) (hzero t ht)
      have hsum : (lines newline input : Multiset CStr) =
        mappedLines sh mapper (Origin.reduce (temps.map origin)).texts := by
        rw [hinput fun t ht => (hmaps t ht).1, hall]
        exact congrArg List.sum (List.map_congr_left fun t ht => (hmaps t ht).2)
      unfold onOneMachine Collation.sorted
      rw [hsum]
    · have hstand := fun t ht => stands_of_sound hC (h t ht)
      have hsum := Stands.sum temps fun t ht => (hstand t ht).2
      rw [← hinput fun t ht => (hstand t ht).1, ← hall] at hsum
      obtain ⟨hrecords, hsame⟩ := stands_iff.2 hC.combinable _ _ hsum
      have htexts : ∀ line ∈ mappedLines sh mapper (Origin.reduce (temps.map origin)).texts, Record line :=
        (hsum.records hC.combinable).2
      -- both results end with their last line, so that their lines are all there is to them
      have hleft := hC.ended _ hrecords
      have hright := hC.ended _ htexts
      unfold onOneMachine Collation.sorted
      unfold reducedLines at hsame
      rw [← unlines_lines hleft, ← unlines_lines hright, hsame]

/-! ## The temps of a reduce -/

/-- **A temp that is got** is the file that is there. -/
theorem getTmpFile_eq {operation : GetTmpFileOperation} {part : Option CStr} (hname : OrderName operation.tmpFileName)
    (hfile : w.files operation.nodeId (pathToTmpFile (tmpDir operation.nodeId) operation.tmpFileName) = some file)
    (htext : 0 ∉ file) (h : w.getTmpFile sh tmpDir node operation = .ok part) : part = some file := by
  have hlen : operation.tmpFileName.length < 2 ^ 32 := by
    have hshort := hname.2.2
    omega
  unfold Cluster.getTmpFile at h
  split at h
  · rename_i hown
    subst hown
    unfold nodeGetTmpFileContent at h
    rw [hfile] at h
    dsimp only at h
    by_cases hfull : sh.page ∣ file.length
    · rw [Mapping.stringAt_full sh.page_pos htext hfull] at h
      cases h
    · rw [Mapping.stringAt_short sh.page_pos htext hfull] at h
      exact (Except.ok.inj h).symm
  · by_cases hfull : sh.page ∣ file.length
    · rw [served_full hname.2.1 hlen sh.page_pos hfile htext hfull] at h
      cases h
    · rw [served_short hname.2.1 hlen sh.page_pos hfile htext hfull] at h
      have hpart : nodeReceived (file ++ [0]) = part := Except.ok.inj h
      rw [← hpart, (received_sent htext).1]

/-- The origins of temps, one by one. -/
theorem ofTemps_eq {origins : List Origin} (h : g.ofTemps temps = some origins) :
    ∃ origin : GetTmpFileOperation → Origin, origins = temps.map origin ∧
      ∀ t ∈ temps, g.origins t.nodeId t.tmpFileName = some (origin t) := by
  refine ⟨fun t => (g.origins t.nodeId t.tmpFileName).getD ⟨0, []⟩, ?_⟩
  unfold Notes.ofTemps at h
  induction temps generalizing origins with
  | nil =>
    rw [List.mapM_nil] at h
    exact ⟨(Option.some.inj h).symm, fun _ ht => absurd ht List.not_mem_nil⟩
  | cons temp temps ih =>
    rw [List.mapM_cons, Option.bind_eq_bind, Option.bind_eq_some_iff] at h
    obtain ⟨o, ho, h⟩ := h
    rw [Option.bind_eq_bind, Option.bind_eq_some_iff] at h
    obtain ⟨rest, hrest, hpure⟩ := h
    obtain rfl : o :: rest = origins := Option.some.inj hpure
    obtain ⟨heq, hall⟩ := ih hrest
    refine ⟨?_, List.forall_mem_cons.2 ⟨?_, hall⟩⟩
    · rw [List.map_cons, ← heq, ho, Option.getD_some]
    · dsimp only
      rw [ho, Option.getD_some]

/-- A single temp of the node is reduced in place. -/
theorem operationsOf_single (temp : GetTmpFileOperation) (h : node = temp.nodeId) :
    operationsOf node [temp] = ⟨some temp.tmpFileName, []⟩ := by
  simp [operationsOf, Operations.addTemp, h]

/-- The joined file has the lines of all temps, in whatever order the threads end. -/
theorem joinedFile_lines {content : GetTmpFileOperation → CStr} {f : Fetch} {schedule : List FetchEvent}
    (h : AllGot content temps f schedule) :
    ((∀ t ∈ temps, 0 ∉ content t) → 0 ∉ f.joinedFile) ∧ ((∀ t ∈ temps, ¬Open newline (content t)) →
      (lines newline f.joinedFile : Multiset CStr) =
        (temps.map fun t => (lines newline (content t) : Multiset CStr)).sum) := by
  have hperm := h.perm
  rw [h.joinedFile_eq]
  constructor
  · intro htext hmem
    obtain ⟨t, ht, hzero⟩ := List.mem_flatMap.1 hmem
    exact htext t (hperm.subset ht) hzero
  · intro hended
    have hparts : ∀ part ∈ (f.tmpFileParts.map Prod.fst).map content, ¬Open newline part := by
      intro part hpart
      obtain ⟨t, ht, rfl⟩ := List.mem_map.1 hpart
      exact hended t (hperm.subset ht)
    rw [List.flatMap_def, lines_flatten _ hparts, List.map_map]
    exact (hperm.map fun t => (lines newline (content t) : Multiset CStr)).sum_eq

/-- **A reduce of files that agree with the notes** gives one that does. -/
theorem reduced_sound (hreduce : WritesText sh reducer) (h : Agrees sh tmpDir Record mapper reducer (w, g))
    {order : ReduceOrder} {schedule : List FetchEvent} {files : Files} {origins : List Origin}
    (hcount : order.temps.length < 2 ^ 16) (hroutine : order.reduceRutine = reducer)
    (horigins : g.ofTemps order.temps = some origins) (hfiles : w.reduced sh tmpDir node order schedule = some files) :
    ∃ file, files (pathToTmpFile (tmpDir node) order.finalTmpName) = some file ∧
      Sound sh Record mapper reducer (Origin.reduce origins) file := by
  obtain ⟨origin, rfl, horigin⟩ := ofTemps_eq horigins
  -- the files of the temps
  obtain ⟨content, hcontent⟩ : ∃ content : GetTmpFileOperation → CStr, ∀ t ∈ order.temps, OrderName t.tmpFileName ∧
      w.files t.nodeId (pathToTmpFile (tmpDir t.nodeId) t.tmpFileName) = some (content t) ∧
      Sound sh Record mapper reducer (origin t) (content t) := by
    refine ⟨fun t => (w.files t.nodeId (pathToTmpFile (tmpDir t.nodeId) t.tmpFileName)).getD [], fun t ht => ?_⟩
    obtain ⟨hname, file, hfile, hsound⟩ := h.files _ _ _ (horigin t ht)
    dsimp only at hfile ⊢
    rw [hfile, Option.getD_some]
    exact ⟨hname, rfl, hsound⟩
  have hsound := fun t ht => (hcontent t ht).2.2
  unfold Cluster.reduced at hfiles
  by_cases hown : Own node order.temps
  · obtain ⟨temp, htemps, hid⟩ := hown
    obtain ⟨hname, hfile, -⟩ := hcontent temp (by rw [htemps]; exact List.mem_cons_self)
    rw [htemps, operationsOf_single temp hid] at hfiles
    obtain rfl := Option.some.inj hfiles
    rw [← hid] at hfile
    refine ⟨_, runReduceRutine_final (path_ne_suffix hname.1 (by simp [suffixes])), ?_⟩
    rw [hfile, Option.getD_some, hroutine]
    have htext : 0 ∉ content temp := (hsound temp (by rw [htemps]; exact List.mem_cons_self)).text
    refine sound_reduce hreduce hsound htext fun _ => ?_
    rw [htemps]
    simp
  · rw [operationsOf_others hcount hown] at hfiles
    dsimp only at hfiles
    cases hf : getTmpFiles order.temps schedule with
    | none =>
      rw [hf] at hfiles
      cases hfiles
    | some f =>
      rw [hf] at hfiles
      dsimp only at hfiles
      by_cases hgot : w.Got sh tmpDir node f
      · rw [if_pos hgot] at hfiles
        obtain rfl := Option.some.inj hfiles
        obtain ⟨hfetched, hops, hthreads⟩ := fetched hf
        have hall : AllGot content order.temps f schedule := by
          refine ⟨hf, hgot.1, fun x hx => ?_⟩
          have hmem : x.1 ∈ order.temps := by
            apply hfetched.origin
            simp only [List.mem_append]
            exact Or.inl (Or.inl (List.mem_map_of_mem hx))
          obtain ⟨hname, hfile, hs⟩ := hcontent x.1 hmem
          exact getTmpFile_eq hname hfile hs.text (hgot.2 x hx)
        obtain ⟨htext, hlines⟩ := joinedFile_lines hall
        have hpath : pathToTmpFile (tmpDir node) (joinedName order.finalTmpName) ≠ pathToReduceRutine
          (tmpDir node) order := by
          rw [path_joined]
          intro heq
          have hsuffix := List.append_cancel_left heq
          exact absurd hsuffix (by decide)
        refine ⟨_, runReduceRutine_final hpath, ?_⟩
        rw [withJoined, Files.write_self, Option.getD_some, hroutine]
        exact sound_reduce hreduce hsound (htext fun t ht => (hsound t ht).text) hlines
      · rw [if_neg hgot] at hfiles
        cases hfiles

/-- A reduce of a single temp of the node can always be made. -/
theorem exists_reduce_single (order : ReduceOrder) (schedule : List FetchEvent) {temp : GetTmpFileOperation}
    (htemps : order.temps = [temp]) (hid : node = temp.nodeId) :
    ∃ w', w.step sh tmpDir (.reduce node order schedule) = some w' := by
  rw [Cluster.step, Cluster.reduced, htemps, operationsOf_single temp hid]
  exact ⟨_, rfl⟩

/-! ## Runs -/

/-- **An order that is done** touches its own files, and its file gets the origin. -/
theorem Agrees.setFiles (h : Agrees sh tmpDir Record mapper reducer (w, g)) (hname : OrderName name) {files : Files}
    (hframe : ∀ path, ¬Touches (tmpDir node) name path → files path = w.files node path) {origin : Option Origin}
    (horigin : ∀ o, origin = some o → ∃ file, files (pathToTmpFile (tmpDir node) name) = some file ∧
      Sound sh Record mapper reducer o file) :
    Agrees sh tmpDir Record mapper reducer (w.setFiles node files, g.setOrigin node name origin) where
  blocks := h.blocks
  files := by
    intro m other o ho
    dsimp only [Notes.setOrigin, Cluster.setFiles] at ho ⊢
    by_cases hm : m = node
    · subst hm
      rw [Function.update_self] at ho ⊢
      by_cases hother : other = name
      · subst hother
        rw [Function.update_self] at ho
        exact ⟨hname, horigin o ho⟩
      · rw [Function.update_of_ne hother] at ho
        obtain ⟨hgood, file, hfile, hsound⟩ := h.files m other o ho
        exact ⟨hgood, file, (hframe _ (not_touches hgood.1 hother)).trans hfile, hsound⟩
    · rw [Function.update_of_ne hm] at ho ⊢
      exact h.files m other o ho

/-- The files that a reduce does not touch. -/
theorem reduced_frame {order : ReduceOrder} {schedule : List FetchEvent} {files : Files} {path : CStr}
    (hfiles : w.reduced sh tmpDir node order schedule = some files)
      (h : ¬Touches (tmpDir node) order.finalTmpName path) :
    files path = w.files node path := by
  unfold Cluster.reduced at hfiles
  split at hfiles
  · obtain rfl := Option.some.inj hfiles
    exact runReduceRutine_frame h
  · split at hfiles
    · split at hfiles
      · obtain rfl := Option.some.inj hfiles
        rw [runReduceRutine_frame h, withJoined_frame h]
      · cases hfiles
    · cases hfiles

/-- **One event keeps the agreement.** -/
theorem agrees_step (hmapper : WritesText sh mapper) (hreducer : WritesText sh reducer)
    (h : Agrees sh tmpDir Record mapper reducer (w, g)) {e : ClusterEvent} (he : e.Decoded) {x : Cluster × Notes}
    (hstep : notedStep sh tmpDir mapper reducer (w, g) e = some x) : Agrees sh tmpDir Record mapper reducer x := by
  obtain ⟨w', hw', rfl⟩ := Option.map_eq_some_iff.1 hstep
  clear hstep
  cases e with
  | setBlock node n packet =>
    obtain rfl := Option.some.inj hw'
    refine ⟨fun m k p hp => ?_, h.files⟩
    dsimp only [Notes.after] at hp ⊢
    by_cases hm : m = node
    · subst hm
      rw [Function.update_self] at hp ⊢
      by_cases hk : k = n
      · subst hk
        rw [Function.update_self] at hp
        obtain rfl := Option.some.inj hp
        exact ⟨he, stringAt_self⟩
      · rw [Function.update_of_ne hk] at hp
        obtain ⟨hfits, hstring⟩ := h.blocks m k p hp
        exact ⟨hfits, hstring.other hfits.small he.small (Ne.symm hk) he.short hfits.short⟩
    · rw [Function.update_of_ne hm] at hp ⊢
      exact h.blocks m k p hp
  | map node order =>
    simp only [Cluster.step, Option.map_eq_some_iff] at hw'
    obtain ⟨blockData, hdata, rfl⟩ := hw'
    refine h.setFiles he (fun path hpath => runMapRutine_frame hpath) fun o ho => ⟨_, runMapRutine_final, ?_⟩
    split at ho
    · rename_i hroutine
      obtain ⟨text, htext, rfl⟩ := Option.map_eq_some_iff.1 ho
      obtain ⟨hfits, hstring⟩ := h.blocks node order.numBlock text htext
      -- the block has what was last set in it
      have hanswer := answer_of_stringAt hstring hfits.short hfits.text
      unfold Cluster.blockData at hdata
      rw [hanswer] at hdata
      obtain rfl := Option.some.inj hdata
      rw [hroutine]
      refine ⟨zero_not_mem_sorted (hmapper text hfits.text), ?_, fun _ => ⟨text, rfl, rfl⟩, fun hdepth => ?_⟩
      · intro t ht
        rw [List.mem_singleton.1 ht]
        exact hfits.text
      · exfalso
        dsimp only at hdepth
        omega
    · cases ho
  | reduce node order schedule =>
    obtain ⟨files, hfiles, rfl⟩ := Option.map_eq_some_iff.1 hw'
    refine h.setFiles he.1 (fun path hpath => reduced_frame hfiles hpath) fun o ho => ?_
    split at ho
    · rename_i hroutine
      obtain ⟨origins, horigins, rfl⟩ := Option.map_eq_some_iff.1 ho
      exact reduced_sound hreducer h he.2 hroutine horigins hfiles
    · cases ho
  | fails node tmpName left =>
    obtain rfl := Option.some.inj hw'
    refine h.setFiles he (fun path hpath => if_neg fun htouch => hpath ?_) fun o ho => ?_
    · obtain ⟨suffix, hsuffix, rfl⟩ := htouch
      rcases List.mem_cons.1 hsuffix with rfl | hsuffix
      · rw [List.append_nil]
        exact touches_self
      · exact touches_suffix hsuffix
    · cases ho

/-- Nothing is written down at the start. -/
theorem agrees_start (w : Cluster) : Agrees sh tmpDir Record mapper reducer (w, Notes.start) where
  blocks := fun _ _ _ h => by cases h
  files := fun _ _ _ h => by cases h

theorem agrees_run (hmapper : WritesText sh mapper) (hreducer : WritesText sh reducer) {es : List ClusterEvent}
    (hes : ∀ e ∈ es, e.Decoded) {x : Cluster × Notes}
    (hrun : run (notedStep sh tmpDir mapper reducer) (w, Notes.start) es = some x) :
    Agrees sh tmpDir Record mapper reducer x :=
  run_inv (C := fun _ e => e.Decoded) (fun _ _ _ hI hC hs => agrees_step hmapper hreducer hI hC hs) (agrees_start w)
    (along_of_mem hes) hrun

/-- The notes go along with every run of the nodes. -/
theorem exists_notes (mapper reducer : CStr) (g : Notes) {es : List ClusterEvent} {w' : Cluster}
    (h : run (Cluster.step sh tmpDir) w es = some w') :
    ∃ g', run (notedStep sh tmpDir mapper reducer) (w, g) es = some (w', g') := by
  induction es generalizing w g with
  | nil => exact ⟨g, by rw [run_nil, ← Option.some.inj h]⟩
  | cons e es ih =>
    obtain ⟨w₁, hw₁, hrest⟩ := run_cons.1 h
    obtain ⟨g', hg'⟩ := ih (g.after mapper reducer e) hrest
    refine ⟨g', run_cons.2 ⟨_, ?_, hg'⟩⟩
    unfold notedStep
    rw [hw₁, Option.map_some]

/-- The notes are those of the events. -/
theorem notes_run {es : List ClusterEvent} {x : Cluster × Notes}
    (hrun : run (notedStep sh tmpDir mapper reducer) (w, g) es = some x) :
    x.2 = es.foldl (Notes.after mapper reducer) g := by
  induction es generalizing w g with
  | nil => rw [← Option.some.inj hrun, List.foldl_nil]
  | cons e es ih =>
    obtain ⟨y, hy, hrest⟩ := run_cons.1 hrun
    obtain ⟨w', -, rfl⟩ := Option.map_eq_some_iff.1 hy
    exact ih hrest

/-- **The nodes compute what one machine would.** In every run of the nodes, with orders of any
jobs in any order and whatever fails: the file of a reduce that was made from texts has what the
reducer gives for the sorted lines of the mapper for these texts. It may be a reduce of reduces
when the reducer can be used as a combiner. -/
theorem cluster_computes (sh : Shell) (tmpDir : CStr → CStr) (Record : CStr → Prop) (mapper reducer : CStr)
    (hmapper : WritesText sh mapper) (hreducer : WritesText sh reducer) (w : Cluster) (es : List ClusterEvent)
    (hes : ∀ e ∈ es, e.Decoded) (x : Cluster × Notes)
    (hrun : run (notedStep sh tmpDir mapper reducer) (w, Notes.start) es = some x) (node name : CStr) (o : Origin)
    (ho : x.2.origins node name = some o)
    (hdepth : o.depth = 1 ∨ (1 < o.depth ∧ Combiner sh Record mapper reducer)) :
    x.1.files node (pathToTmpFile (tmpDir node) name) = some (onOneMachine sh mapper reducer o.texts) := by
  have hagrees : Agrees sh tmpDir Record mapper reducer x := agrees_run hmapper hreducer hes hrun
  obtain ⟨-, file, hfile, hsound⟩ := hagrees.files node name o ho
  rw [hfile, hsound.reduce hdepth]

end Mdfs.Nodo
