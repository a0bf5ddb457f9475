import Mdfs.Lib.Mapping
import Mdfs.Nodo.BlockStore

/-!
# Temporary files of a node

`node_getTmpFileContent` of `node.c` and `connections_deserializeGetFileContent` of
`connections.c`: another node or the FileSystem asks for a file by its name, and is sent
the string at the start of its mapping, with the terminator. No length goes along, so that
the content ends where the zeros behind the file begin.

* `tmp_file_intact`: a request is served and the file received as it is, exactly for a file
  that is there and does not fill its pages.
-/

namespace Mdfs.Nodo

open Lib Wire Mapping

/-- What a node must not read. -/
inductive Fault
  | nullPointer
  | outsideMapping
  | outsidePacket
  deriving DecidableEq

/-- The files of a node, by their path. -/
abbrev Files := CStr → Option (List UInt8)

def pathToTmpFile (tmpDir tmpFileName : CStr) : CStr := tmpDir ++ cstr "/" ++ tmpFileName

/-- `node_getTmpFileContent`, on a system whose pages have `page` bytes; `none` for the null
pointer. `strdup` reads what was mapped, or the address of a failed `mmap`. -/
def nodeGetTmpFileContent (page : ℕ) (files : Files) (tmpDir tmpFileName : CStr) : Except Fault (Option CStr) :=
  match files (pathToTmpFile tmpDir tmpFileName) with
  | none => .ok none
  | some file =>
    match (mapped page 0 file.length file).bind (stringAt 0) with
    | none => .error .outsideMapping
    | some fileStr => .ok (some fileStr)

/-- `connections_deserializeGetFileContent`: the packet that is sent. -/
def connectionsDeserializeGetFileContent (page : ℕ) (files : Files) (tmpDir : CStr) (buffer : Packet) :
    Except Fault Packet :=
  match ((do
    let _ ← u8
    prefixed32 : Reader (List UInt8)).run buffer).map Prod.fst with
  | none => .error .outsidePacket
  | some tmpName => do
    match ← nodeGetTmpFileContent page files tmpDir (upToNul tmpName) with
    | none => .error .nullPointer -- `strlen` of the null pointer
    | some tmpFileContent => pure (tmpFileContent ++ [0])

/-- The request of `connections_node_getFileContent`, of a node as of the FileSystem. -/
def getFileContentPacket (tmpFileName : CStr) : Packet :=
  [COMMAND_NODE_GET_TMP_FILE_CONTENT] ++ (be32 tmpFileName.length.toUInt32 ++ tmpFileName)

/-- What `connections_node_getFileContent` returns to a node: the packet, as a string. -/
def nodeReceived (packet : Packet) : Option CStr := stringAt 0 packet

/-- What `filesystem_copyTmpFileToMDFS` goes on with: the packet but for its last byte. -/
def fileSystemReceived (packet : Packet) : Option (List UInt8) := if packet = [] then none else some packet.dropLast

/-- **A file fetched intact**: the request is served without a fault, and if there is such a
file, its content is what either of the two receives. -/
def Intact (page : ℕ) (files : Files) (tmpDir tmpFileName : CStr) : Prop :=
  ∃ packet, connectionsDeserializeGetFileContent page files tmpDir (getFileContentPacket tmpFileName) = .ok packet ∧
    ∀ file, files (pathToTmpFile tmpDir tmpFileName) = some file →
      nodeReceived packet = some file ∧ fileSystemReceived packet = some file

variable {page : ℕ} {files : Files} {tmpDir tmpFileName : CStr} {file : List UInt8}

/-- A name with no zero in it is read as it was sent. -/
theorem deserialize_sent (h0 : 0 ∉ tmpFileName) (hlen : tmpFileName.length < 2 ^ 32) :
    connectionsDeserializeGetFileContent page files tmpDir (getFileContentPacket tmpFileName) = (do
      match ← nodeGetTmpFileContent page files tmpDir tmpFileName with
      | none => .error .nullPointer
      | some tmpFileContent => pure (tmpFileContent ++ [0])) := by
  have hread : Reads (do
      let _ ← u8
      prefixed32 : Reader (List UInt8)) (getFileContentPacket tmpFileName) tmpFileName :=
    reads_bind (reads_u8 COMMAND_NODE_GET_TMP_FILE_CONTENT) (reads_prefixed32 hlen)
  unfold connectionsDeserializeGetFileContent
  rw [hread.run, Option.map_some]
  dsimp only
  rw [upToNul_eq h0]

/-- For a file that is not there, the length of the null pointer is taken. -/
theorem served_missing (h0 : 0 ∉ tmpFileName) (hlen : tmpFileName.length < 2 ^ 32)
    (hfile : files (pathToTmpFile tmpDir tmpFileName) = none) :
    connectionsDeserializeGetFileContent page files tmpDir (getFileContentPacket tmpFileName) =
      .error .nullPointer := by
  rw [deserialize_sent h0 hlen, nodeGetTmpFileContent, hfile]
  rfl

/-- A file that fills its pages, or has none, is read past its mapping. -/
theorem served_full (h0 : 0 ∉ tmpFileName) (hlen : tmpFileName.length < 2 ^ 32) (hpage : 0 < page)
    (hfile : files (pathToTmpFile tmpDir tmpFileName) = some file) (htext : 0 ∉ file) (hfull : page ∣ file.length) :
    connectionsDeserializeGetFileContent page files tmpDir (getFileContentPacket tmpFileName) =
      .error .outsideMapping := by
  rw [deserialize_sent h0 hlen, nodeGetTmpFileContent, hfile]
  dsimp only
  rw [stringAt_full hpage htext hfull]
  rfl

/-- Any other file is sent, with a terminator. -/
theorem served_short (h0 : 0 ∉ tmpFileName) (hlen : tmpFileName.length < 2 ^ 32) (hpage : 0 < page)
    (hfile : files (pathToTmpFile tmpDir tmpFileName) = some file) (htext : 0 ∉ file) (hfull : ¬page ∣ file.length) :
    connectionsDeserializeGetFileContent page files tmpDir (getFileContentPacket tmpFileName) = .ok (file ++ [0]) := by
  rw [deserialize_sent h0 hlen, nodeGetTmpFileContent, hfile]
  dsimp only
  rw [stringAt_short hpage htext hfull]
  rfl

/-- What was sent with a terminator is received without. -/
theorem received_sent (htext : 0 ∉ file) :
    nodeReceived (file ++ [0]) = some file ∧ fileSystemReceived (file ++ [0]) = some file := by
  constructor
  · exact stringAt_append_nul htext []
  · unfold fileSystemReceived
    rw [if_neg (by simp), List.dropLast_concat]

/-- **A temporary file is fetched intact** exactly if it is there and does not fill its
pages. -/
theorem tmp_file_intact (page : ℕ) (files : Files) (tmpDir tmpFileName : CStr) (hpage : 0 < page)
    (h0 : 0 ∉ tmpFileName) (hlen : tmpFileName.length < 2 ^ 32)
    (htext : ∀ file, files (pathToTmpFile tmpDir tmpFileName) = some file → 0 ∉ file) :
    Intact page files tmpDir tmpFileName ↔
      ∃ file, files (pathToTmpFile tmpDir tmpFileName) = some file ∧ ¬page ∣ file.length := by
  constructor
  · rintro ⟨packet, hserved, -⟩
    cases hfile : files (pathToTmpFile tmpDir tmpFileName) with
    | none =>
      rw [served_missing h0 hlen hfile] at hserved
      cases hserved
    | some file =>
      refine ⟨file, rfl, fun hfull => ?_⟩
      rw [served_full h0 hlen hpage hfile (htext file hfile) hfull] at hserved
      cases hserved
  · rintro ⟨file, hfile, hfull⟩
    have hnul := htext file hfile
    refine ⟨file ++ [0], served_short h0 hlen hpage hfile hnul hfull, fun other hother => ?_⟩
    have heq : file = other := Option.some.inj (hfile.symm.trans hother)
    rw [← heq]
    exact received_sent hnul

/-- The files of a node with a text in `/tmp/words`. -/
def words (text : CStr) : Files := fun path => if path = cstr "/tmp/words" then some text else none

/-- A file of five bytes on pages of four. -/
theorem tmp_file_intact_words : Intact 4 (words (cstr "b\na\nc")) (cstr "/tmp") (cstr "words") := by
  refine (tmp_file_intact 4 _ _ _ (by omega) (by decide) (by decide) ?_).2 ⟨cstr "b\na\nc", by decide, by decide⟩
  intro file hfile
  have heq : cstr "b\na\nc" = file := Option.some.inj (Eq.trans (by decide) hfile)
  rw [← heq]
  decide

/-- **A file of one page, one of none, and one that is not there.** -/
theorem tmp_files_not_intact : ¬Intact 4 (words (cstr "b\na\n")) (cstr "/tmp") (cstr "words") ∧
    ¬Intact 4 (words []) (cstr "/tmp") (cstr "words") ∧ ¬Intact 4 (words []) (cstr "/tmp") (cstr "missing") := by
  refine ⟨?_, ?_, ?_⟩ <;> rintro ⟨packet, hserved, -⟩
  · have hfile : words (cstr "b\na\n") (pathToTmpFile (cstr "/tmp") (cstr "words")) = some (cstr "b\na\n") := by decide
    rw [served_full (by decide) (by decide) (by omega) hfile (by decide) (by decide)] at hserved
    cases hserved
  · have hfile : words [] (pathToTmpFile (cstr "/tmp") (cstr "words")) = some [] := by decide
    rw [served_full (by decide) (by decide) (by omega) hfile (by decide) (by decide)] at hserved
    cases hserved
  · rw [served_missing (by decide) (by decide) (by decide)] at hserved
    cases hserved

end Mdfs.Nodo
