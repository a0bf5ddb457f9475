import Mdfs.Lib.Prog
import Mdfs.Lib.Collection
import Mdfs.FileSystem.Structs

/-!
# The world of the FileSystem process

`mongo/*.c`: the three collections of the database and the requests made on
them, together with what the process asks of the nodes and of the local file
system. Each request is one atomic step. `serve` answers it; `Choice` is what the
outside world decides there (is the document taken, does the send succeed, what
does the node answer). A removal or an update always reaches the database.

The collections of directories and files have the unique index
`name_1_parentId_1`; every collection has distinct `_id`s.
-/

namespace Mdfs.FileSystem

open Lib

abbrev Dirs := Collection Dir.id fun d : Dir => (d.name, d.parentId)
abbrev Files := Collection File.id fun f : File => (f.name, f.parentId)
abbrev Nodes := Collection Node.id Node.id

/-- The database, the number of object ids generated so far, and the contents
of the nodes' blocks: the string last set in each. -/
structure World where
  dirs : Dirs
  files : Files
  nodes : Nodes
  oids : ℕ
  disk : Slot → CStr

/-- The requests of the process: on the collections `dir`, `file` and `node`, to
the nodes, and to the local file system. -/
inductive Req
  | generateId
  | dirInsert (dir : Dir)
  | dirById (id : Oid)
  | dirsByParent (parentId : Oid)
  | dirByName (name : CStr) (parentId : Oid)
  | dirDelete (id : Oid)
  | dirDeleteAll
  | dirSetParent (id newParentId : Oid)
  | dirSetName (id : Oid) (newName : CStr)
  | fileInsert (file : File)
  | filesByParent (parentId : Oid)
  | filesWithNode (nodeId : CStr)
  | fileByName (name : CStr) (parentId : Oid)
  | fileDelete (id : Oid)
  | fileDeleteAll
  | fileSetParent (id newParentId : Oid)
  | fileSetName (id : Oid) (newName : CStr)
  | fileAddCopy (id : Oid) (blockIndex : UInt16) (copy : FileBlock)
  | filePullCopy (id : Oid) (blockIndex : UInt16) (copy : FileBlock)
  | nodeInsert (node : Node)
  | nodeById (id : CStr)
  | nodeAll
  | nodeSetBlocks (node : Node)
  | isActive (nodeId : CStr)
  | setBlock (nodeId : CStr) (numBlock : UInt16) (data : CStr)
  | getBlock (copy : FileBlock)
  | getFileContent (nodeId tmpFileName : CStr)
  | openFile (route : CStr)

abbrev Resp : Req → Type
  | .generateId => Oid
  | .dirInsert _ | .dirDelete _ | .dirDeleteAll => Bool
  | .fileInsert _ | .fileDelete _ | .fileDeleteAll => Bool
  | .nodeInsert _ | .isActive _ | .setBlock .. => Bool
  | .dirById _ | .dirByName .. => Option Dir
  | .dirsByParent _ => List Dir
  | .filesByParent _ | .filesWithNode _ => List File
  | .fileByName .. => Option File
  | .nodeById _ => Option Node
  | .nodeAll => List Node
  | .getBlock _ | .getFileContent .. | .openFile _ => Option CStr
  | .dirSetParent .. | .dirSetName .. | .fileSetParent .. | .fileSetName .. => Unit
  | .fileAddCopy .. | .filePullCopy .. | .nodeSetBlocks _ => Unit

/-- What the outside world decides at a request: whether it succeeds, and the
bytes that come back (or, for a failed send, that reach the node's block). -/
structure Choice where
  ok : Bool := true
  content : Option CStr := none

/-- Success, and no bytes. -/
def Choice.done : Choice := {}

/-- Success, and the bytes `s` come back. -/
def Choice.bytes (s : CStr) : Choice := { content := some s }

/-- `$addToSet` on the copies of block `b`. -/
def File.addCopy (b : ℕ) (copy : FileBlock) (f : File) : File :=
  { f with blocks := f.blocks.modify b fun cs => if copy ∈ cs then cs else cs ++ [copy] }

/-- `$pull` on the copies of block `b`: every equal copy goes. -/
def File.pullCopy (b : ℕ) (copy : FileBlock) (f : File) : File :=
  { f with blocks := f.blocks.modify b fun cs => cs.filter fun c => c ≠ copy }

/-- The documents whose blocks have a copy on a node (`$elemMatch`). -/
def File.hasNode (nodeId : CStr) (f : File) : Bool :=
  f.blocks.any fun cs => cs.any fun c => c.nodeId = nodeId

/-- `$set` of the bitmap and the count of a node to those of `n`. -/
def Node.setBlocks (n m : Node) : Node := { m with blocks := n.blocks, blocksCount := n.blocksCount }

/-- The answer to a request and the world after it. -/
def serve (w : World) : (r : Req) → Choice → Resp r × World
  | .generateId, _ => (.gen w.oids, { w with oids := w.oids + 1 })
  | .dirInsert d, c =>
    match if c.ok then w.dirs.insert d else none with
    | some dirs => (true, { w with dirs := dirs })
    | none => (false, w)
  | .dirById id, _ => (w.dirs.findKey id, w)
  | .dirsByParent p, _ => (w.dirs.docs.filter fun d => d.parentId = p, w)
  | .dirByName name p, _ => (w.dirs.findIdx (name, p), w)
  | .dirDelete id, _ => (true, { w with dirs := w.dirs.remove fun d => d.id = id })
  | .dirDeleteAll, _ => (true, { w with dirs := .empty })
  | .dirSetParent id p, _ => ((), { w with dirs := w.dirs.update id fun d => { d with parentId := p } })
  | .dirSetName id n, _ => ((), { w with dirs := w.dirs.update id fun d => { d with name := n } })
  | .fileInsert f, c =>
    match if c.ok then w.files.insert f else none with
    | some files => (true, { w with files := files })
    | none => (false, w)
  | .filesByParent p, _ => (w.files.docs.filter fun f => f.parentId = p, w)
  | .filesWithNode n, _ => (w.files.docs.filter fun f => f.hasNode n, w)
  | .fileByName name p, _ => (w.files.findIdx (name, p), w)
  | .fileDelete id, _ => (true, { w with files := w.files.remove fun f => f.id = id })
  | .fileDeleteAll, _ => (true, { w with files := .empty })
  | .fileSetParent id p, _ => ((), { w with files := w.files.update id fun f => { f with parentId := p } })
  | .fileSetName id n, _ => ((), { w with files := w.files.update id fun f => { f with name := n } })
  | .fileAddCopy id b copy, _ => ((), { w with files := w.files.update id (File.addCopy b.toNat copy) })
  | .filePullCopy id b copy, _ => ((), { w with files := w.files.update id (File.pullCopy b.toNat copy) })
  | .nodeInsert n, c =>
    match if c.ok then w.nodes.insert n else none with
    | some nodes => (true, { w with nodes := nodes })
    | none => (false, w)
  | .nodeById id, _ => (w.nodes.findKey id, w)
  | .nodeAll, _ => (w.nodes.docs, w)
  | .nodeSetBlocks n, _ => ((), { w with nodes := w.nodes.update n.id (Node.setBlocks n) })
  | .isActive _, c => (c.ok, w)
  | .setBlock n i data, c =>
    let written := if c.ok then some data else c.content
    (c.ok, { w with disk := match written with
      | some d => Function.update w.disk (n, i.toNat) d
      | none => w.disk })
  | .getBlock _, c => (c.content, w)
  | .getFileContent .., c => (c.content, w)
  | .openFile _, c => (c.content, w)

def handle : Handler Resp World Choice := fun w r c => some (serve w r c)

/-- Why an operation does not return: a null pointer is followed, a loop or a
recursion goes on past the bound given, or `int` arithmetic overflows. -/
inductive Stop
  | crash
  | diverge
  | overflow
  deriving DecidableEq

abbrev FsProg := Prog Resp Stop

/-- The program that makes one request. -/
abbrev request (r : Req) : FsProg (Resp r) := .ask r .ret

/-! ## The functions of `mongo_dir.c`, `mongo_file.c` and `mongo_node.c` -/

def mongoGenerateId : FsProg Oid := request .generateId

def mongoDirSave (dir : Dir) : FsProg Bool := do
  let id ← mongoGenerateId
  request (.dirInsert { dir with id := id })

def mongoDirGetById (id : Oid) : FsProg (Option Dir) := request (.dirById id)
def mongoDirGetByParentId (parentId : Oid) : FsProg (List Dir) := request (.dirsByParent parentId)
def mongoDirGetByNameInDir (name : CStr) (parentId : Oid) : FsProg (Option Dir) :=
  request (.dirByName name parentId)
def mongoDirDeleteById (id : Oid) : FsProg Bool := request (.dirDelete id)
def mongoDirDeleteAll : FsProg Bool := request .dirDeleteAll
def mongoDirUpdateParentId (id newParentId : Oid) : FsProg Unit := request (.dirSetParent id newParentId)
def mongoDirUpdateName (id : Oid) (newName : CStr) : FsProg Unit := request (.dirSetName id newName)

/-- The file's id is overwritten, whether it is then stored or not. -/
def mongoFileSave (file : File) : FsProg (Bool × File) := do
  let id ← mongoGenerateId
  let saved ← request (.fileInsert { file with id := id })
  pure (saved, { file with id := id })

def mongoFileGetByParentId (parentId : Oid) : FsProg (List File) := request (.filesByParent parentId)
def mongoFileGetFilesThatHaveNode (nodeId : CStr) : FsProg (List File) := request (.filesWithNode nodeId)
def mongoFileGetByNameInDir (name : CStr) (parentId : Oid) : FsProg (Option File) :=
  request (.fileByName name parentId)
def mongoFileDeleteById (id : Oid) : FsProg Bool := request (.fileDelete id)
def mongoFileDeleteAll : FsProg Bool := request .fileDeleteAll
def mongoFileUpdateParentId (id newParentId : Oid) : FsProg Unit := request (.fileSetParent id newParentId)
def mongoFileUpdateName (id : Oid) (newName : CStr) : FsProg Unit := request (.fileSetName id newName)
def mongoFileAddBlockCopyToFile (id : Oid) (blockIndex : UInt16) (copy : FileBlock) : FsProg Unit :=
  request (.fileAddCopy id blockIndex copy)
def mongoFileDeleteBlockCopy (id : Oid) (blockIndex : UInt16) (copy : FileBlock) : FsProg Unit :=
  request (.filePullCopy id blockIndex copy)

def mongoNodeSave (node : Node) : FsProg Bool := request (.nodeInsert node)
def mongoNodeGetById (id : CStr) : FsProg (Option Node) := request (.nodeById id)
def mongoNodeGetAll : FsProg (List Node) := request .nodeAll
def mongoNodeUpdateBlocks (node : Node) : FsProg Unit := request (.nodeSetBlocks node)

/-! ## Updates that keep name and place -/

theorem docs_addCopy (files : Files) (id : Oid) (b : ℕ) (c : FileBlock) :
    (files.update id (File.addCopy b c)).docs = files.rewrite id (File.addCopy b c) :=
  Collection.docs_update (f := File.addCopy b c) (fun _ => rfl) fun _ => rfl

theorem docs_pullCopy (files : Files) (id : Oid) (b : ℕ) (c : FileBlock) :
    (files.update id (File.pullCopy b c)).docs = files.rewrite id (File.pullCopy b c) :=
  Collection.docs_update (f := File.pullCopy b c) (fun _ => rfl) fun _ => rfl

theorem docs_setBlocks (nodes : Nodes) (id : CStr) (n : Node) :
    (nodes.update id (Node.setBlocks n)).docs = nodes.rewrite id (Node.setBlocks n) :=
  Collection.docs_update (f := Node.setBlocks n) (fun _ => rfl) fun _ => rfl

/-- The specification of the requests as `serve` answers them, on the steps that satisfy `C`. -/
abbrev worldSpec (C : World → Req → Choice → Prop) : Spec Resp World := .ofHandler handle C

/-- One request, in the program logic. -/
@[simp] theorem ok_ask {C : World → Req → Choice → Prop} {r : Req} {α : Type} {k : Resp r → FsProg α}
    {Q : α → World → Prop} {E : Stop → World → Prop} {w : World} :
    Prog.Ok (worldSpec C) Q E (.ask r k) w ↔
      ∀ c, C w r c → (k (serve w r c).1).Ok (worldSpec C) Q E (serve w r c).2 := by
  simp only [Prog.ok_ask, worldSpec, Spec.ofHandler, handle, Option.some.injEq, true_and]
  constructor
  · intro h c hc
    exact h _ _ ⟨c, hc, rfl⟩
  · rintro h x w' ⟨c, hc, hs⟩
    have := h c hc
    rwa [hs] at this

end Mdfs.FileSystem
