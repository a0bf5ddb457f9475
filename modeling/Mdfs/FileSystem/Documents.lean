import Mdfs.Lib.Document
import Mdfs.FileSystem.Mongo

/-!
# Files and nodes as documents

`structs/file.c` and `structs/node.c` write a file and a node as documents and read them back. The
blocks of a file are an array of arrays of documents, whose keys are written into one buffer by two
nested loops; they are read by iterators that do not look at them.

A copy is added to a block or taken from it by an update of the stored document. What the database
does there is taken as `Documented`.

* `fileGetBSON_eq`: the document that the loops build.
* `fileGetFileFromBSON_sent`, `nodeGetNodeFromBSON_sent`: what is read is what was written.
* `update_addBlockCopy`, `update_deleteBlockCopy`: an updated document is that of the updated file.
* `documents_round_trip`: the three together.
-/

namespace Mdfs.FileSystem

open Lib Document

/-! ## Records -/

def ID_SIZE : ℕ := 25

/-- `char id[ID_SIZE]`, terminated. -/
structure IdText where
  text : CStr
  length_lt : text.length < ID_SIZE
  clean : 0 ∉ text
  deriving DecidableEq

/-- `strcpy` into it; `none` when it is written past its end. -/
def IdText.strcpy (s : CStr) : Option IdText :=
  if h : (upToNul s).length < ID_SIZE then some ⟨upToNul s, h, zero_not_mem_upToNul s⟩ else none

/-- `file_t`, with its ids as text; the name of a file that was just created is `NULL`. -/
structure FileRecord where
  id : IdText
  parentId : IdText
  name : Option CStr
  size : UInt64
  blocks : List (List FileBlock)
  deriving DecidableEq

/-- The numbers of a document: an `int32_t` made of a `uint16_t`, and back. -/
def toInt32 (n : UInt16) : Int32 := .ofBitVec (n.toBitVec.setWidth 32)

def toUInt16 (n : Int32) : UInt16 := .ofBitVec (n.toBitVec.setWidth 16)

/-! ## Writing -/

/-- `file_block_getBSON`. -/
def fileBlockGetBSON (fileBlock : FileBlock) : Doc :=
  [(key "nodeId", .utf8 fileBlock.nodeId), (key "blockIndex", .int32 (toInt32 fileBlock.blockIndex))]

/-- The locals of a loop that writes an array: the key buffer, which the loops share, the array, and the
index of its next element. -/
structure ArrayLoop where
  arrayKey : Key
  array : Doc
  index : ℕ

/-- `listBlockCopy`. -/
def listBlockCopy (x : ArrayLoop) (blockCopy : FileBlock) : ArrayLoop :=
  let arrayKey := decimalKey x.index
  ⟨arrayKey, x.array ++ [(arrayKey, .document (fileBlockGetBSON blockCopy))], x.index + 1⟩

/-- `listBlocks`. The inner loop leaves its last key in the buffer. -/
def listBlockArrays (x : ArrayLoop) (blockCopies : List FileBlock) : ArrayLoop :=
  let copies := blockCopies.foldl listBlockCopy ⟨x.arrayKey, [], 0⟩
  let arrayKey := decimalKey x.index
  ⟨arrayKey, x.array ++ [(arrayKey, .array copies.array)], x.index + 1⟩

/-- `file_getBSON`; `none` when the name is `NULL`. -/
def fileGetBSON (file : FileRecord) : Option Doc := do
  let name ← file.name
  let blocks := file.blocks.foldl listBlockArrays ⟨[], [], 0⟩
  pure [(key "_id", .utf8 file.id.text), (key "name", .utf8 name), (key "size", .int64 file.size.toInt64),
    (key "parentId", .utf8 file.parentId.text), (key "blocks", .array blocks.array)]

/-- `node_getBSON`. -/
def nodeGetBSON (node : Node) : Doc :=
  [(key "_id", .utf8 node.id), (key "blocks", .binary node.blocks.bytes),
    (key "blocksCount", .int32 (toInt32 node.blocksCount))]

/-! ## Reading

A value is read as the field of the union that its key stands for: `none` when it is of another type. What
`malloc` finds in memory is `junk`. -/

def vUtf8 : Value → Option CStr
  | .utf8 text => some (upToNul text)
  | _ => none

def vInt32 : Value → Option Int32
  | .int32 n => some n
  | _ => none

def vInt64 : Value → Option Int64
  | .int64 n => some n
  | _ => none

def vBinary : Value → Option (List UInt8)
  | .binary data => some data
  | _ => none

def vDoc : Value → Option Doc
  | .document fields => some fields
  | .array fields => some fields
  | _ => none

/-- One field of a copy. -/
def readFileBlockField (fileBlock : FileBlock) (x : Key × Value) : Option FileBlock :=
  if x.1 = key "nodeId" then (vUtf8 x.2).map fun text => { fileBlock with nodeId := text }
  else if x.1 = key "blockIndex" then (vInt32 x.2).map fun n => { fileBlock with blockIndex := toUInt16 n }
  else some fileBlock

/-- `file_block_getFileFromBSON`. -/
def fileBlockGetFileFromBSON (junk : FileBlock) (doc : Doc) : Option FileBlock := doc.foldlM readFileBlockField junk

/-- The inner loop of `file_getFileFromBSON`. -/
def readBlockCopy (junk : FileBlock) (blockCopies : List FileBlock) (value : Value) : Option (List FileBlock) := do
  let doc ← vDoc value
  let fileBlock ← fileBlockGetFileFromBSON junk doc
  pure (blockCopies ++ [fileBlock])

/-- The loop around it. -/
def readBlock (junk : FileBlock) (blocks : List (List FileBlock)) (value : Value) : Option (List (List FileBlock)) := do
  let array ← vDoc value
  let blockCopies ← array.foldlM (fun blockCopies x => readBlockCopy junk blockCopies x.2) []
  pure (blocks ++ [blockCopies])

/-- One field of a file. -/
def readFileField (junk : FileBlock) (file : FileRecord) (x : Key × Value) : Option FileRecord :=
  if x.1 = key "_id" then do
    let id ← IdText.strcpy (← vUtf8 x.2)
    pure { file with id }
  else if x.1 = key "name" then do
    let name ← vUtf8 x.2
    pure { file with name }
  else if x.1 = key "size" then do
    let size ← vInt64 x.2
    pure { file with size := size.toUInt64 }
  else if x.1 = key "parentId" then do
    let parentId ← IdText.strcpy (← vUtf8 x.2)
    pure { file with parentId }
  else if x.1 = key "blocks" then do
    let array ← vDoc x.2
    let blocks ← array.foldlM (fun blocks x => readBlock junk blocks x.2) file.blocks
    pure { file with blocks }
  else some file

/-- `file_create`. -/
def fileCreate (junk : FileRecord) : FileRecord := { junk with blocks := [], name := none }

/-- `file_getFileFromBSON`. -/
def fileGetFileFromBSON (junk : FileRecord) (junkBlock : FileBlock) (doc : Doc) : Option FileRecord :=
  doc.foldlM (readFileField junkBlock) (fileCreate junk)

/-- One field of a node. -/
def readNodeField (node : Node) (x : Key × Value) : Option Node :=
  if x.1 = key "_id" then (vUtf8 x.2).map fun text => { node with id := text }
  else if x.1 = key "blocks" then (vBinary x.2).map fun data => { node with blocks := .ofBytes data }
  else if x.1 = key "blocksCount" then (vInt32 x.2).map fun n => { node with blocksCount := toUInt16 n }
  else some node

/-- `node_getNodeFromBSON`. -/
def nodeGetNodeFromBSON (junk : Node) (doc : Doc) : Option Node := doc.foldlM readNodeField junk

/-! ## Updates -/

/-- The update of `mongo_file_addBlockCopyToFile`. -/
def addBlockCopyUpdate (blockIndex : UInt16) (fileBlockCopy : FileBlock) : Doc :=
  addToSet (key "blocks." ++ decimalKey blockIndex.toNat) (.document (fileBlockGetBSON fileBlockCopy))

/-- The update of `mongo_file_deleteBlockCopy`. -/
def deleteBlockCopyUpdate (blockIndex : UInt16) (fileBlockCopy : FileBlock) : Doc :=
  pull (key "blocks." ++ decimalKey blockIndex.toNat) (.document (fileBlockGetBSON fileBlockCopy))

/-- A file with a copy added to a block, if it was not there. -/
def FileRecord.addCopy (b : ℕ) (copy : FileBlock) (file : FileRecord) : FileRecord :=
  { file with blocks := file.blocks.modify b fun cs => if copy ∈ cs then cs else cs ++ [copy] }

/-- A file with all copies that are equal to one removed from a block. -/
def FileRecord.pullCopy (b : ℕ) (copy : FileBlock) (file : FileRecord) : FileRecord :=
  { file with blocks := file.blocks.modify b fun cs => cs.filter fun c => c ≠ copy }

/-- A stored file with its ids as text. -/
def File.record (text : Oid → IdText) (f : File) : FileRecord :=
  ⟨text f.id, text f.parentId, some f.name, f.size.toUInt64, f.blocks⟩

variable {file : FileRecord} {name : CStr} {junk : FileRecord} {junkBlock : FileBlock} {copy fileBlock : FileBlock}
  {copies : List FileBlock} {blocks : List (List FileBlock)} {before after : Doc} {update : Doc → Doc → Doc}
    {b : UInt16} {i : ℕ}

/-! ## The document of a file -/

/-- A copy, and the copies of a block, as elements of an array. -/
def copyValue (copy : FileBlock) : Value := .document (fileBlockGetBSON copy)

def blockValue (copies : List FileBlock) : Value := .array (ofValues (copies.map copyValue))

/-- The fields before the blocks. -/
def fileHeader (file : FileRecord) (name : CStr) : Doc :=
  [(key "_id", .utf8 file.id.text), (key "name", .utf8 name), (key "size", .int64 file.size.toInt64),
    (key "parentId", .utf8 file.parentId.text)]

theorem foldl_listBlockCopy (copies : List FileBlock) (arrayKey : Key) :
    (copies.foldl listBlockCopy ⟨arrayKey, [], 0⟩).array = ofValues (copies.map copyValue) ∧
      (copies.foldl listBlockCopy ⟨arrayKey, [], 0⟩).index = copies.length := by
  induction copies using List.reverseRecOn with
  | nil => exact ⟨rfl, rfl⟩
  | append_singleton copies copy ih =>
    obtain ⟨harray, hindex⟩ := ih
    rw [List.foldl_append, List.foldl_cons, List.foldl_nil, List.map_append, List.map_singleton, ofValues_append]
    unfold listBlockCopy at harray hindex ⊢
    rw [harray, hindex, List.length_map, List.length_append]
    exact ⟨rfl, rfl⟩

theorem foldl_listBlockArrays (blocks : List (List FileBlock)) (arrayKey : Key) :
    (blocks.foldl listBlockArrays ⟨arrayKey, [], 0⟩).array = ofValues (blocks.map blockValue) ∧
      (blocks.foldl listBlockArrays ⟨arrayKey, [], 0⟩).index = blocks.length := by
  induction blocks using List.reverseRecOn with
  | nil => exact ⟨rfl, rfl⟩
  | append_singleton blocks copies ih =>
    obtain ⟨harray, hindex⟩ := ih
    rw [List.foldl_append, List.foldl_cons, List.foldl_nil, List.map_append, List.map_singleton, ofValues_append]
    generalize blocks.foldl listBlockArrays ⟨arrayKey, [], 0⟩ = x at harray hindex
    unfold listBlockArrays
    rw [harray, hindex, List.length_map, List.length_append]
    -- whatever the loops before have left in the buffer
    obtain ⟨hcopies, -⟩ := foldl_listBlockCopy copies x.arrayKey
    exact ⟨congrArg (fun array => ofValues (blocks.map blockValue) ++
      [(decimalKey blocks.length, .array array)]) hcopies, rfl⟩

/-- **The document of a file**: its blocks are an array of arrays under their numbers. -/
theorem fileGetBSON_eq (hname : file.name = some name) :
    fileGetBSON file = some (withArray (fileHeader file name) (key "blocks") (file.blocks.map blockValue) []) := by
  unfold fileGetBSON
  rw [hname]
  obtain ⟨harray, -⟩ := foldl_listBlockArrays file.blocks []
  exact congrArg (fun array => some (fileHeader file name ++ [(key "blocks", .array array)])) harray

/-! ## Round trips -/

theorem toUInt16_toInt32 (n : UInt16) : toUInt16 (toInt32 n) = n := by simp [toUInt16, toInt32]

theorem strcpy_text (id : IdText) : IdText.strcpy id.text = some id := by
  have hclean : upToNul id.text = id.text := upToNul_eq id.clean
  unfold IdText.strcpy
  simp only [hclean, id.length_lt, dif_pos]

/-- **A copy is read as it was written.** -/
theorem fileBlockGetFileFromBSON_sent (hclean : 0 ∉ fileBlock.nodeId) (junk : FileBlock) :
    fileBlockGetFileFromBSON junk (fileBlockGetBSON fileBlock) = some fileBlock := by
  have hnode : readFileBlockField junk (key "nodeId", .utf8 fileBlock.nodeId) =
    some { junk with nodeId := fileBlock.nodeId } := by
    rw [readFileBlockField, if_pos rfl, vUtf8, upToNul_eq hclean, Option.map_some]
  have hindex : ∀ c, readFileBlockField c (key "blockIndex", .int32 (toInt32 fileBlock.blockIndex)) =
      some { c with blockIndex := fileBlock.blockIndex } := by
    intro c
    have hne : key "blockIndex" ≠ key "nodeId" := by decide
    rw [readFileBlockField, if_neg hne, if_pos rfl, vInt32, Option.map_some, toUInt16_toInt32]
  unfold fileBlockGetFileFromBSON fileBlockGetBSON
  rw [List.foldlM_cons, hnode, Option.bind_eq_bind, Option.bind_some, List.foldlM_cons, hindex,
    Option.bind_eq_bind, Option.bind_some,
    List.foldlM_nil]
  rfl

/-- The names of the nodes are texts. -/
def Clean (blocks : List (List FileBlock)) : Prop := ∀ copies ∈ blocks, ∀ copy ∈ copies, 0 ∉ copy.nodeId

theorem foldlM_readBlockCopy (hclean : ∀ copy ∈ copies, 0 ∉ copy.nodeId) :
    (copies.map copyValue).foldlM (readBlockCopy junkBlock) [] = some copies := by
  induction copies using List.reverseRecOn with
  | nil => rfl
  | append_singleton copies copy ih =>
    have hcopies := ih fun c hc => hclean c (List.mem_append_left _ hc)
    have hcopy : 0 ∉ copy.nodeId := hclean copy (List.mem_append_right _ List.mem_cons_self)
    rw [List.map_append, List.foldlM_append, hcopies, List.map_singleton]
    simp only [Option.bind_eq_bind, Option.bind_some, List.foldlM_cons, List.foldlM_nil, readBlockCopy, copyValue, vDoc,
      fileBlockGetFileFromBSON_sent hcopy]
    rfl

theorem foldlM_readBlock (hclean : Clean blocks) :
    (blocks.map blockValue).foldlM (readBlock junkBlock) [] = some blocks := by
  induction blocks using List.reverseRecOn with
  | nil => rfl
  | append_singleton blocks copies ih =>
    have hblocks := ih fun cs hcs => hclean cs (List.mem_append_left _ hcs)
    have hcopies : ∀ copy ∈ copies, 0 ∉ copy.nodeId := hclean copies (List.mem_append_right _ List.mem_cons_self)
    rw [List.map_append, List.foldlM_append, hblocks, List.map_singleton]
    simp only [Option.bind_eq_bind, Option.bind_some, List.foldlM_cons, List.foldlM_nil, readBlock, blockValue, vDoc,
      foldlM_ofValues, foldlM_readBlockCopy hcopies]
    rfl

/-- **A file is read as it was written.** -/
theorem fileGetFileFromBSON_sent (hname : file.name = some name) (hclean : 0 ∉ name)
    (hblocks : Clean file.blocks) (junk : FileRecord)
    (junkBlock : FileBlock) :
    fileGetFileFromBSON junk junkBlock (withArray (fileHeader file name) (key "blocks")
      (file.blocks.map blockValue) []) = some file := by
  have hid : ∀ f : FileRecord, readFileField junkBlock f (key "_id", .utf8 file.id.text) =
    some { f with id := file.id } := by
    intro f
    have hutf8 : vUtf8 (.utf8 file.id.text) = some file.id.text := congrArg some (upToNul_eq file.id.clean)
    change (vUtf8 (.utf8 file.id.text) >>= fun text => IdText.strcpy text >>= fun id => some { f with id }) = _
    simp only [hutf8, Option.bind_eq_bind, Option.bind_some, strcpy_text]
  have hnamed : ∀ f : FileRecord, readFileField junkBlock f (key "name", .utf8 name) =
    some { f with name := some name } := by
    intro f
    have hutf8 : vUtf8 (.utf8 name) = some name := congrArg some (upToNul_eq hclean)
    change (vUtf8 (.utf8 name) >>= fun name => some { f with name := some name }) = _
    simp only [hutf8, Option.bind_eq_bind, Option.bind_some]
  have hsize : ∀ f : FileRecord, readFileField junkBlock f (key "size", .int64 file.size.toInt64) =
    some { f with size := file.size } := by
    intro f
    have hback : file.size.toInt64.toUInt64 = file.size := by simp
    change some { f with size := file.size.toInt64.toUInt64 } = _
    rw [hback]
  have hparent : ∀ f : FileRecord, readFileField junkBlock f (key "parentId", .utf8 file.parentId.text) =
      some { f with parentId := file.parentId } := by
    intro f
    have hutf8 : vUtf8 (.utf8 file.parentId.text) = some file.parentId.text :=
      congrArg some (upToNul_eq file.parentId.clean)
    change (vUtf8 (.utf8 file.parentId.text) >>= fun text => IdText.strcpy text >>= fun parentId => some
      { f with parentId }) = _
    simp only [hutf8, Option.bind_eq_bind, Option.bind_some, strcpy_text]
  have harray : ∀ id parentId name size, readFileField junkBlock ⟨id, parentId, name, size, []⟩
      (key "blocks", .array (ofValues (file.blocks.map blockValue))) =
        some ⟨id, parentId, name, size, file.blocks⟩ := by
    intro id parentId name size
    change ((ofValues (file.blocks.map blockValue)).foldlM (fun blocks x => readBlock junkBlock blocks x.2) [] >>=
      fun blocks => some (⟨id, parentId, name, size, blocks⟩ : FileRecord)) = _
    simp only [foldlM_ofValues, foldlM_readBlock hblocks, Option.bind_eq_bind, Option.bind_some]
  unfold fileGetFileFromBSON withArray fileHeader fileCreate
  simp only [List.cons_append, List.nil_append, List.foldlM_cons, List.foldlM_nil, hid, hnamed, hsize, hparent, harray,
    Option.bind_eq_bind, Option.bind_some, ← hname]
  rfl

/-- **A node is read as it was written.** -/
theorem nodeGetNodeFromBSON_sent {node : Node} (hclean : 0 ∉ node.id) (junk : Node) :
    nodeGetNodeFromBSON junk (nodeGetBSON node) = some node := by
  have hid : ∀ n : Node, readNodeField n (key "_id", .utf8 node.id) = some { n with id := node.id } := by
    intro n
    rw [readNodeField, if_pos rfl, vUtf8, upToNul_eq hclean, Option.map_some]
  have hblocks : ∀ n : Node, readNodeField n (key "blocks", .binary node.blocks.bytes) =
    some { n with blocks := node.blocks } := by
    intro n
    change some { n with blocks := .ofBytes node.blocks.bytes } = _
    rw [Bitarray.ofBytes_bytes]
  have hcount : ∀ n : Node, readNodeField n (key "blocksCount", .int32 (toInt32 node.blocksCount)) =
      some { n with blocksCount := node.blocksCount } := by
    intro n
    change some { n with blocksCount := toUInt16 (toInt32 node.blocksCount) } = _
    rw [toUInt16_toInt32]
  unfold nodeGetNodeFromBSON nodeGetBSON
  simp only [List.foldlM_cons, List.foldlM_nil, hid, hblocks, hcount, Option.bind_eq_bind, Option.bind_some]
  rfl

/-! ## Updated documents -/

/-- A copy is known by its document. -/
theorem copyValue_injective {c c' : FileBlock} (h : copyValue c = copyValue c') : c = c' := by
  simp only [copyValue, fileBlockGetBSON, Value.document.injEq, List.cons.injEq, Prod.mk.injEq,
    Value.utf8.injEq, Value.int32.injEq,
    true_and, and_true] at h
  obtain ⟨hnode, hindex⟩ := h
  have hblock : c.blockIndex = c'.blockIndex := by rw [← toUInt16_toInt32 c.blockIndex, hindex, toUInt16_toInt32]
  cases c
  cases c'
  exact congrArg₂ FileBlock.mk hnode hblock

theorem copyValue_mem : copyValue copy ∈ copies.map copyValue ↔ copy ∈ copies := by
  constructor
  · intro hmem
    obtain ⟨c, hc, hsame⟩ := List.mem_map.1 hmem
    exact copyValue_injective hsame ▸ hc
  · exact List.mem_map_of_mem

/-- The form of the document of a copy. -/
theorem form_fileBlockGetBSON (copy : FileBlock) :
    form (fileBlockGetBSON copy) = [(key "nodeId", .utf8), (key "blockIndex", .int32)] := rfl

theorem flat_fileBlockGetBSON (copy : FileBlock) : Flat (form (fileBlockGetBSON copy)) := by
  have hnode : Plain (key "nodeId") := by
    unfold Plain
    decide
  have hindex : Plain (key "blockIndex") := by
    unfold Plain
    decide
  intro x hx
  rw [form_fileBlockGetBSON, List.mem_cons, List.mem_singleton] at hx
  rcases hx with rfl | rfl
  · exact ⟨hnode, Or.inl rfl⟩
  · exact ⟨hindex, Or.inr rfl⟩

/-- The blocks of a file are addressed by their numbers. -/
theorem addressed (hplace : blocks[i]? = some copies) (file : FileRecord) (name : CStr) (copy : FileBlock) :
    Addressed (fileHeader file name) (key "blocks") (blocks.map blockValue) [] i (copies.map copyValue)
      (copyValue copy) where
  plain := by
    unfold Plain
    decide
  unique := by
    have hkeys : ∀ k ∈ [key "_id", key "name", key "size", key "parentId"], k ≠ key "blocks" := by decide
    intro x hx
    rw [List.append_nil] at hx
    exact hkeys x.1 (List.mem_map_of_mem (f := Prod.fst) hx)
  place := by
    rw [List.getElem?_map, hplace]
    rfl
  alike := by
    intro e he
    obtain ⟨c, -, rfl⟩ := List.mem_map.1 he
    have hsame : form (fileBlockGetBSON c) = form (fileBlockGetBSON copy) := form_fileBlockGetBSON c
    exact ⟨_, _, rfl, rfl, hsame, flat_fileBlockGetBSON copy⟩
  form := ⟨_, rfl, flat_fileBlockGetBSON copy⟩

/-- The path of an update is that of the element of its block. -/
theorem path_eq (b : UInt16) : key "blocks." ++ decimalKey b.toNat = elementPath (key "blocks") b.toNat := by
  have hdot : key "blocks." = key "blocks" ++ key "." := rfl
  unfold elementPath
  rw [hdot]

/-- A document with one of its blocks set is that of the file with that block modified. -/
theorem withArray_modify (f : List FileBlock → List FileBlock) (hplace : blocks[i]? = some copies) :
    (blocks.map blockValue).set i (blockValue (f copies)) = (blocks.modify i f).map blockValue := by
  refine List.ext_getElem? fun j => ?_
  rw [List.getElem?_set, List.getElem?_map, List.getElem?_map, List.getElem?_modify, List.length_map]
  by_cases hij : i = j
  · subst hij
    obtain ⟨hlt, -⟩ := List.getElem?_eq_some_iff.1 hplace
    rw [if_pos rfl, if_pos hlt, hplace]
    simp
  · rw [if_neg hij]
    simp [hij]

/-- **A copy that is added** to the document is added to the file. -/
theorem update_addBlockCopy (hdb : Documented update) (hplace : file.blocks[b.toNat]? = some copies)
    (name : CStr) (copy : FileBlock) :
    update (withArray (fileHeader file name) (key "blocks") (file.blocks.map blockValue) [])
      (addBlockCopyUpdate b copy) =
      withArray (fileHeader file name) (key "blocks") ((file.addCopy b.toNat copy).blocks.map blockValue) [] := by
  have haddressed := addressed hplace file name copy
  have hset := withArray_modify (fun cs => if copy ∈ cs then cs else cs ++ [copy]) hplace
  unfold addBlockCopyUpdate FileRecord.addCopy
  rw [path_eq, ← hset]
  by_cases hmem : copy ∈ copies
  · have hsame : (file.blocks.map blockValue).set b.toNat (blockValue copies) = file.blocks.map blockValue := by
      have hblock := withArray_modify id hplace
      rw [id_eq, List.modify_id] at hblock
      exact hblock
    rw [if_pos hmem, hsame]
    exact hdb.present haddressed (copyValue_mem.2 hmem)
  · have hadded := hdb.added haddressed fun h => hmem (copyValue_mem.1 h)
    have hend : (copies ++ [copy]).map copyValue = copies.map copyValue ++ [copyValue copy] := List.map_append
    rw [if_neg hmem, blockValue, hend]
    exact hadded

/-- **A copy that is pulled** from the document is removed from the file. -/
theorem update_deleteBlockCopy (hdb : Documented update) (hplace : file.blocks[b.toNat]? = some copies) (name : CStr)
    (copy : FileBlock) :
    update (withArray (fileHeader file name) (key "blocks") (file.blocks.map blockValue) [])
      (deleteBlockCopyUpdate b copy) =
      withArray (fileHeader file name) (key "blocks") ((file.pullCopy b.toNat copy).blocks.map blockValue) [] := by
  classical
  have haddressed := addressed hplace file name copy
  have hset := withArray_modify (fun cs => cs.filter fun c => c ≠ copy) hplace
  have hpulled := hdb.pulled (fun e => decide (e ≠ copyValue copy)) haddressed fun e _ => decide_eq_true_iff
  have hkept : (copies.map copyValue).filter (fun e => decide (e ≠ copyValue copy)) =
      (copies.filter fun c => c ≠ copy).map copyValue := by
    rw [List.filter_map]
    refine congrArg (List.map copyValue) (List.filter_congr fun c _ => ?_)
    have hiff : copyValue c ≠ copyValue copy ↔ c ≠ copy :=
      not_congr ⟨fun h => copyValue_injective h, congrArg copyValue⟩
    exact decide_eq_decide.2 hiff
  unfold deleteBlockCopyUpdate FileRecord.pullCopy
  rw [path_eq, ← hset, blockValue, ← hkept]
  exact hpulled

/-! ## All together -/

theorem clean_addCopy (hclean : Clean file.blocks) (hcopy : 0 ∉ copy.nodeId) (i : ℕ) :
    Clean (file.addCopy i copy).blocks := by
  intro cs hcs c hc
  obtain ⟨j, hj⟩ := List.mem_iff_getElem?.1 hcs
  have hmodified : (file.blocks.modify i fun cs => if copy ∈ cs then cs else cs ++ [copy])[j]? = some cs := hj
  rw [List.getElem?_modify] at hmodified
  obtain ⟨old, hold, rfl⟩ := Option.map_eq_some_iff.1 hmodified
  have hkept := hclean old (List.mem_of_getElem? hold)
  have hor : c ∈ old ∨ c = copy := by
    split_ifs at hc with _ _
    · exact Or.inl hc
    · exact (List.mem_append.1 hc).imp_right List.eq_of_mem_singleton
    · exact Or.inl hc
  rcases hor with hmem | rfl
  · exact hkept c hmem
  · exact hcopy

theorem clean_pullCopy (hclean : Clean file.blocks) (i : ℕ) (copy : FileBlock) :
    Clean (file.pullCopy i copy).blocks := by
  intro cs hcs c hc
  obtain ⟨j, hj⟩ := List.mem_iff_getElem?.1 hcs
  have hmodified : (file.blocks.modify i fun cs => cs.filter fun c => c ≠ copy)[j]? = some cs := hj
  rw [List.getElem?_modify] at hmodified
  obtain ⟨old, hold, rfl⟩ := Option.map_eq_some_iff.1 hmodified
  refine hclean old (List.mem_of_getElem? hold) c ?_
  split_ifs at hc with _
  · exact (List.mem_filter.1 hc).1
  · exact hc

/-- **Documents round-trip**: a file and a node are read as they were written, and an update of a copy in the
document of a file is that of the copy in the file, whatever else `malloc` and the database do. -/
theorem documents_round_trip (hdb : Documented update) (junk : FileRecord) (junkBlock : FileBlock) (junkNode : Node) :
    (∀ (file : FileRecord) (name : CStr), file.name = some name → 0 ∉ name → Clean file.blocks →
      ∃ doc, fileGetBSON file = some doc ∧ fileGetFileFromBSON junk junkBlock doc = some file ∧
        ∀ (b : UInt16) (copy : FileBlock), b.toNat < file.blocks.length → 0 ∉ copy.nodeId →
          fileGetFileFromBSON junk junkBlock (update doc (addBlockCopyUpdate b copy)) =
            some (file.addCopy b.toNat copy) ∧
            fileGetFileFromBSON junk junkBlock (update doc (deleteBlockCopyUpdate b copy)) =
              some (file.pullCopy b.toNat copy)) ∧
      ∀ node : Node, 0 ∉ node.id → nodeGetNodeFromBSON junkNode (nodeGetBSON node) = some node := by
  constructor
  · intro file name hname hclean hblocks
    have hread := fileGetFileFromBSON_sent hname hclean hblocks junk junkBlock
    refine ⟨_, fileGetBSON_eq hname, hread, ?_⟩
    intro b copy hb hcopy
    have hplace := List.getElem?_eq_getElem hb
    constructor
    · have hadded : (file.addCopy b.toNat copy).name = some name := hname
      rw [update_addBlockCopy hdb hplace]
      exact fileGetFileFromBSON_sent hadded hclean (clean_addCopy hblocks hcopy b.toNat) junk junkBlock
    · have hpulled : (file.pullCopy b.toNat copy).name = some name := hname
      rw [update_deleteBlockCopy hdb hplace]
      exact fileGetFileFromBSON_sent hpulled hclean (clean_pullCopy hblocks b.toNat copy) junk junkBlock
  · intro node hnode
    exact nodeGetNodeFromBSON_sent hnode junkNode

/-- A file of three blocks, the second without copies. -/
def threeBlocks : FileRecord :=
  ⟨⟨cstr "54b2", by decide, by decide⟩, ⟨cstr "0", by decide, by decide⟩, some (cstr "a"), 20971523,
    [[⟨cstr "n1", 7⟩, ⟨cstr "n2", 300⟩], [], [⟨cstr "n1", 65535⟩]]⟩

theorem documents_round_trip_three :
    ∃ doc, fileGetBSON threeBlocks = some doc ∧
      fileGetFileFromBSON threeBlocks ⟨[], 0⟩ (Document.update doc (addBlockCopyUpdate 1 ⟨cstr "n2", 4⟩)) =
        some (threeBlocks.addCopy 1 ⟨cstr "n2", 4⟩) ∧
      fileGetFileFromBSON threeBlocks ⟨[], 0⟩ (Document.update doc (deleteBlockCopyUpdate 0 ⟨cstr "n1", 7⟩)) =
        some (threeBlocks.pullCopy 0 ⟨cstr "n1", 7⟩) := by
  have hclean : Clean threeBlocks.blocks := by
    unfold Clean
    decide
  have hall := (documents_round_trip update_documented threeBlocks ⟨[], 0⟩ (nodeCreate (cstr "n1") 8)).1
    threeBlocks (cstr "a") rfl
    (by decide) hclean
  obtain ⟨doc, hdoc, -, hupdates⟩ := hall
  have hadd := hupdates 1 ⟨cstr "n2", 4⟩ (by decide) (by decide)
  have hpull := hupdates 0 ⟨cstr "n1", 7⟩ (by decide) (by decide)
  exact ⟨doc, hdoc, hadd.1, hpull.2⟩

end Mdfs.FileSystem
