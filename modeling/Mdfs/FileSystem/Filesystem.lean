import Mathlib.Algebra.Group.Int.Defs
import Mathlib.Algebra.Group.Nat.Defs
import Mathlib.Data.List.Sort
import Mdfs.FileSystem.Mongo

/-!
# The operations of the FileSystem process

`filesystem/filesystem.c`, function by function, as programs over the requests
of `Mongo`. What a C loop does to the outer variables is the value it carries.

* A loop or a recursion without a bound of its own takes one (`fuel`), and stops
  with `diverge` beyond it; a null or freed pointer that is followed stops with
  `crash`. The split of a text stops with `overflow` where its position leaves the
  range of `int`.
* The threads of `filesystem_distributeBlocksToNodes` send different blocks to
  different places; they are gone through in the order of the list. A thread
  that sees the failure of another one sends nothing: an unsuccessful `setBlock`
  that leaves the disk as it is.
-/

namespace Mdfs.FileSystem

open Lib

def FILESYSTEM_BLOCK_COPIES : ℕ := 3
def NODE_BLOCK_SIZE : ℕ := 20 * 1024 * 1024
def COMMAND_RESULT_CANT_COPY : UInt8 := 22

/-! ## Blocks of a text -/

/-- What the loop of `filesystem_getBlocksFromStr` must not do, and that it has not
ended after its rounds. -/
inductive SplitFault
  | overflow
  | outside
  | rounds
  deriving DecidableEq

/-- A result of `int` arithmetic. -/
def int (x : ℤ) : Except SplitFault ℤ := if -2 ^ 31 ≤ x ∧ x < 2 ^ 31 then .ok x else .error .overflow

/-- An `int` as a `size_t`. -/
def sizeT (x : ℤ) : ℤ := x % 2 ^ 64

/-- A `size_t` passed on as an `int`. -/
def intOfSizeT (x : ℤ) : ℤ := Int.bmod x (2 ^ 32)

/-- `n` bytes of the buffer from `start` on. -/
def readBytes (str : List UInt8) (start n : ℤ) : Except SplitFault (List UInt8) :=
  if 0 ≤ start ∧ 0 ≤ n ∧ start + n ≤ str.length then .ok ((str.drop start.toNat).take n.toNat) else .error .outside

/-- The `for` over `j`: `j` goes from `i + k` down to `i + 1`, up to a line end. -/
def searchLineEnd (str : List UInt8) (i : ℤ) : ℕ → Except SplitFault (Option ℤ)
  | 0 => .ok none
  | k + 1 => do
    let char ← readBytes str (i + (k + 1 : ℕ)) 1
    if char = [newline] then pure (some (i + (k + 1 : ℕ))) else searchLineEnd str i k

/-- One round of the `while`, for blocks of `size` bytes: the block that it adds, if
it adds one, and where the next round starts, if there is one. A round that finds no
line end leaves `i` as it is. -/
def splitRound (size : ℕ) (str : List UInt8) (length : ℕ) (i : ℤ) :
    Except SplitFault (Option (List UInt8) × Option ℤ) := do
  let windowEnd ← int (i + size)
  if sizeT windowEnd > length then -- It's the last block.
    let block ← readBytes str i (intOfSizeT (sizeT (length - i)))
    pure (some block, none)
  else
    match ← searchLineEnd str i (size - 1) with
    | some j => do
      let blockLength ← int (j - i + 1)
      let block ← readBytes str i blockLength
      let i ← int (j + 1)
      pure (some block, some i)
    | none => pure (none, some i)

/-- The `while` of `filesystem_getBlocksFromStr`. -/
def splitRounds (size : ℕ) (str : List UInt8) (length : ℕ) : ℕ → ℤ → Except SplitFault (List (List UInt8))
  | 0, _ => .error .rounds
  | rounds + 1, i => do
    let (block, next) ← splitRound size str length i
    match next with
    | none => pure block.toList
    | some i => do
      let blocks ← splitRounds size str length rounds i
      pure (block.toList ++ blocks)

/-- `filesystem_getBlocksFromStr`. Every round that goes on moves past a line
end, so `length + 1` rounds are enough when it ends at all. -/
@[irreducible] def filesystemGetBlocksFromStr (str : List UInt8) (length : ℕ) : Except SplitFault (List (List UInt8)) :=
  splitRounds NODE_BLOCK_SIZE str length (length + 1) 0

/-- Why an operation stops when its split does not return. -/
def SplitFault.stop : SplitFault → Stop
  | .overflow => .overflow
  | .outside => .crash
  | .rounds => .diverge

/-- The blocks of a split, for the operation that asked for it. -/
def blocksOrStop : Except SplitFault (List (List UInt8)) → FsProg (List (List UInt8))
  | .ok blocks => pure blocks
  | .error fault => .stop fault.stop

/-! ## Connections to the nodes -/

/-- `nodeBlockSendOperation_t`; the pointer to a node is its id. -/
structure NodeBlockSendOperation where
  node : CStr
  blockIndex : ℕ
  block : List UInt8

def NodeBlockSendOperation.slot (op : NodeBlockSendOperation) : Slot := (op.node, op.blockIndex)

/-- `connections_node_sendBlock`: the block is sent up to its terminator. -/
def connectionsNodeSendBlock (op : NodeBlockSendOperation) : FsProg Bool :=
  request (.setBlock op.node op.blockIndex.toUInt16 (upToNul op.block))

/-- `connections_node_getBlock`: the reply, terminated. -/
def connectionsNodeGetBlock (fileBlock : FileBlock) : FsProg (Option CStr) := do
  let buffer ← request (.getBlock fileBlock)
  pure (buffer.map upToNul)

/-- `connections_node_getFileContent`: the reply as it comes. -/
def connectionsNodeGetFileContent (nodeId tmpFileName : CStr) : FsProg (Option (List UInt8)) :=
  request (.getFileContent nodeId tmpFileName)

/-! ## Directories and files -/

def filesystemIsRootDirId (id : Oid) : Bool := id = .root
def filesystemIsRootDir (dir : Dir) : Bool := filesystemIsRootDirId dir.id

/-- The directory record made up for the root, which is not stored. -/
def rootDir : Dir := ⟨.root, .root, []⟩

def filesystemGetDirById (id : Oid) : FsProg (Option Dir) := mongoDirGetById id
def filesystemGetDirByNameInDir (dirName : CStr) (parentId : Oid) : FsProg (Option Dir) :=
  mongoDirGetByNameInDir dirName parentId
def filesystemGetFileByNameInDir (fileName : CStr) (parentId : Oid) : FsProg (Option File) :=
  mongoFileGetByNameInDir fileName parentId
def filesystemGetDirsInDir (parentId : Oid) : FsProg (List Dir) := mongoDirGetByParentId parentId
def filesystemGetFilesInDir (parentId : Oid) : FsProg (List File) := mongoFileGetByParentId parentId
def filesystemGetNodeById (nodeId : CStr) : FsProg (Option Node) := mongoNodeGetById nodeId

def filesystemCanCreateResource (resourceName : CStr) (parentId : Oid) : FsProg Bool := do
  match ← filesystemGetDirByNameInDir resourceName parentId with
  | some _ => pure false
  | none =>
    match ← filesystemGetFileByNameInDir resourceName parentId with
    | some _ => pure false
    | none => pure true

def filesystemFormatNode (node : Node) : FsProg Unit := mongoNodeUpdateBlocks (nodeSetAllBlocksFree node)

def filesystemFormat : FsProg Bool := do
  if ← mongoDirDeleteAll then
    if ← mongoFileDeleteAll then
      let nodes ← mongoNodeGetAll
      Prog.iterate filesystemFormatNode nodes
      pure true
    else pure false
  else pure false

/-- `listBlockCopies` of `filesystem_deleteFile`. -/
def freeBlockCopy (blockCopy : FileBlock) : FsProg Unit := do
  match ← filesystemGetNodeById blockCopy.nodeId with
  | some node => mongoNodeUpdateBlocks (nodeSetBlockFree node blockCopy.blockIndex.toNat)
  | none => .stop .crash

def filesystemDeleteFile : Option File → FsProg Bool
  | none => pure false
  | some file => do
    Prog.iterate (Prog.iterate freeBlockCopy) file.blocks -- Free nodes space
    mongoFileDeleteById file.id

/-- `fuel` bounds the depth of the recursion. -/
def filesystemDeleteDir : ℕ → Option Dir → FsProg Bool
  | 0, _ => .stop .diverge
  | _ + 1, none => pure false
  | fuel + 1, some dir => do
    let childFiles ← filesystemGetFilesInDir dir.id
    Prog.iterate (fun file => do let _ ← filesystemDeleteFile (some file)) childFiles
    let childDirs ← filesystemGetDirsInDir dir.id
    Prog.iterate (fun child => do let _ ← filesystemDeleteDir fuel (some child)) childDirs
    mongoDirDeleteById dir.id

def filesystemMoveFile (file : File) (destinationId : Oid) : FsProg Unit :=
  mongoFileUpdateParentId file.id destinationId
def filesystemMoveDir (dir : Dir) (destinationId : Oid) : FsProg Unit :=
  mongoDirUpdateParentId dir.id destinationId
def filesystemRenameFile (file : File) (newName : CStr) : FsProg Unit := mongoFileUpdateName file.id newName
def filesystemRenameDir (dir : Dir) (newName : CStr) : FsProg Unit := mongoDirUpdateName dir.id newName

def filesystemAddDir (dir : Dir) : FsProg Bool := do
  if ← filesystemCanCreateResource dir.name dir.parentId then mongoDirSave dir else pure false

/-! ## Paths -/

/-- The last slash of a path. -/
def lastSlashPos (path : CStr) : Option ℕ :=
  (List.range path.length).reverse.find? fun i => path[i]? = some 47

/-- `newFullPath[k] = '\0'`; before the buffer, the string is not touched. -/
def cutAt (newFullPath : CStr) (k : ℤ) : CStr := if 0 ≤ k then newFullPath.take k.toNat else newFullPath

/-- The name `..` of `filesystem_resolveDirPath`. -/
def resolveParent (currentDir : Dir) (newFullPath : CStr) : FsProg (Dir × CStr) :=
  if filesystemIsRootDir currentDir then pure (currentDir, newFullPath)
  else
    -- Removes the last folder in the prompt
    let newFullPath := cutAt newFullPath (newFullPath.length - currentDir.name.length - 1)
    if filesystemIsRootDirId currentDir.parentId then pure (rootDir, newFullPath ++ cstr "/")
    else do
      match ← filesystemGetDirById currentDir.parentId with
      | some newDir =>
        pure (newDir, if filesystemIsRootDir newDir then newFullPath ++ cstr "/" else newFullPath)
      | none => .stop .crash

/-- The loop over the names of `filesystem_resolveDirPath`. -/
def resolveDirNames : List CStr → Dir → CStr → FsProg (Option (Dir × CStr))
  | [], currentDir, newFullPath => pure (some (currentDir, newFullPath))
  | dirName :: dirNames, currentDir, newFullPath =>
    if dirName = [] ∨ dirName = cstr "." then resolveDirNames dirNames currentDir newFullPath
    else if dirName = cstr ".." then do
      let (newDir, newFullPath) ← resolveParent currentDir newFullPath
      resolveDirNames dirNames newDir newFullPath
    else do
      match ← filesystemGetDirByNameInDir dirName currentDir.id with
      | some newDir =>
        let newFullPath := if filesystemIsRootDirId newDir.parentId then newFullPath
          else newFullPath ++ cstr "/"
        resolveDirNames dirNames newDir (newFullPath ++ newDir.name)
      | none => pure none

/-- The directory a relative path starts from. -/
def startingDir (startingDirId : Oid) : FsProg (Option Dir) :=
  if filesystemIsRootDirId startingDirId then pure (some rootDir) else filesystemGetDirById startingDirId

/-- `filesystem_resolveDirPath`: the directory, and the full path set in `fullPath`. -/
def filesystemResolveDirPath (path : CStr) (startingDirId : Oid) (startingPath : CStr) :
    FsProg (Option (Dir × CStr)) :=
  match path with
  | 47 :: path => resolveDirNames (stringSplit path 47) rootDir (cstr "/") -- Avoid the first slash
  | _ => do
    match ← startingDir startingDirId with
    | some currentDir => resolveDirNames (stringSplit path 47) currentDir startingPath
    | none => pure none

def filesystemResolveFilePath (path : CStr) (startingDirId : Oid) (startingPath : CStr) :
    FsProg (Option File) :=
  match lastSlashPos path with
  | some pos => do
    match ← filesystemResolveDirPath (path.take (pos + 1)) startingDirId startingPath with
    | some (fileDir, _) => filesystemGetFileByNameInDir (path.drop (pos + 1)) fileDir.id
    | none => pure none
  | none => do
    match ← startingDir startingDirId with
    | some fileDir => filesystemGetFileByNameInDir path fileDir.id
    | none => pure none

/-- `getFileName`: the last name of the path. A path without names leaves the
pointer unset. -/
def getFileName (path : CStr) : FsProg CStr :=
  match (stringSplit path 47).getLast? with
  | some fileName => pure fileName
  | none => .stop .crash

/-! ## Blocks on the nodes -/

def filesystemNodeComparatorByBlocksFree (node node2 : Node) : Bool :=
  nodeGetBlocksFreeCount node2 < nodeGetBlocksFreeCount node

/-- The sort of the nodes. -/
abbrev NodeSort := ListSort filesystemNodeComparatorByBlocksFree

/-- A sort of the nodes: each one goes before the first that has fewer free blocks. -/
def insertionSort : NodeSort where
  sort := List.insertionSort fun a b => nodeGetBlocksFreeCount b ≤ nodeGetBlocksFreeCount a
  perm := List.perm_insertionSort _
  sorted l := by
    have : Std.Total fun a b : Node => nodeGetBlocksFreeCount b ≤ nodeGetBlocksFreeCount a :=
      ⟨fun a b => le_total _ _⟩
    have : IsTrans Node fun a b => nodeGetBlocksFreeCount b ≤ nodeGetBlocksFreeCount a :=
      ⟨fun a b c h1 h2 => le_trans h2 h1⟩
    refine (List.pairwise_insertionSort (fun a b : Node =>
      nodeGetBlocksFreeCount b ≤ nodeGetBlocksFreeCount a) l).imp fun h => ?_
    simpa [filesystemNodeComparatorByBlocksFree] using h

def filesystemGetAllActivatedNodes : FsProg (List Node) := do
  let allNodes ← mongoNodeGetAll
  allNodes.foldlM (fun connectedNodes node => do
    if ← request (.isActive node.id) then pure (connectedNodes ++ [node]) else pure connectedNodes) []

/-- The outer variables of `createSendOperations`. -/
structure Plan where
  nodes : List Node
  sendOperations : List NodeBlockSendOperation
  blocks : List (List FileBlock)
  success : Bool

/-- The body of the `for`: copy `i` of the block goes to the `i`-th node. The
loop is left as soon as a copy fails. -/
def planCopy (block : List UInt8) (x : Plan × List FileBlock) (i : ℕ) : Plan × List FileBlock :=
  if x.1.success then
    match x.1.nodes[i]? with
    | some selectedNode =>
      match nodeGetFirstFreeBlock selectedNode with
      | some firstBlockFreeIndex =>
        ({ x.1 with
            -- Set as used to go on planning; not saved until the blocks are sent.
            nodes := x.1.nodes.set i (nodeSetBlockUsed selectedNode firstBlockFreeIndex)
            sendOperations := x.1.sendOperations ++ [⟨selectedNode.id, firstBlockFreeIndex, block⟩] },
          x.2 ++ [⟨selectedNode.id, firstBlockFreeIndex.toUInt16⟩])
      | none => ({ x.1 with success := false }, x.2)
    | none => ({ x.1 with success := false }, x.2)
  else x

def createSendOperations (sort : NodeSort) (p : Plan) (block : List UInt8) : Plan :=
  if p.success then
    let x := (List.range FILESYSTEM_BLOCK_COPIES).foldl (planCopy block)
      ({ p with nodes := sort.sort p.nodes }, [])
    { x.1 with blocks := x.1.blocks ++ [x.2] }
  else p

/-- The file comes back with the copies planned for its blocks. -/
def filesystemDistributeBlocksToNodes (sort : NodeSort) (blocks : List (List UInt8)) (file : File) :
    FsProg (Bool × File) := do
  let nodes ← filesystemGetAllActivatedNodes
  let plan := blocks.foldl (createSendOperations sort) ⟨nodes, [], file.blocks, true⟩
  let file := { file with blocks := plan.blocks }
  if plan.success then
    let failed ← plan.sendOperations.foldlM (fun failed op => do
      let sent ← connectionsNodeSendBlock op
      pure (failed || !sent)) false
    if failed then pure (false, file)
    else
      -- Everything went ok: update the nodes' blocks (set as used)
      Prog.iterate (fun op => match plan.nodes.find? fun node => node.id = op.node with
        | some node => mongoNodeUpdateBlocks node
        | none => .stop .crash) plan.sendOperations
      pure (true, file)
  else pure (false, file)

/-- `filesystem_getFSFileBlocks`: the size of the local file and its blocks. -/
def filesystemGetFSFileBlocks (route : CStr) : FsProg (Option (ℕ × List (List UInt8))) := do
  match ← request (.openFile route) with
  | none => pure none
  | some fileStr =>
    let blocks ← blocksOrStop (filesystemGetBlocksFromStr fileStr fileStr.length)
    pure (some (fileStr.length, blocks))

def filesystemCopyFileFromFS (sort : NodeSort) (route : CStr) (file : File) : FsProg ℤ := do
  if ← filesystemCanCreateResource file.name file.parentId then
    match ← filesystemGetFSFileBlocks route with
    | none => pure (-2)
    | some (fileSize, blocks) =>
      let (distributed, file) ← filesystemDistributeBlocksToNodes sort blocks { file with size := fileSize }
      if distributed then
        let (saved, file) ← mongoFileSave file
        if saved then pure 1
        else
          -- The blocks that were used for that file are freed.
          let _ ← filesystemDeleteFile (some file)
          pure (-4)
      else pure (-3)
  else pure (-1)

/-- `listBlockCopies` of `filesystem_makeNewFileBlockCopy` and
`filesystem_getAllFileContent`: the first copy that is got. -/
def firstBlockGot : List FileBlock → FsProg (Option CStr)
  | [] => pure none
  | blockCopy :: blockCopies => do
    match ← connectionsNodeGetBlock blockCopy with
    | some block => pure (some block)
    | none => firstBlockGot blockCopies

/-- The body of `filesystem_makeNewFileBlockCopy`: what it returns, and the file in
memory as it leaves it. -/
def makeNewFileBlockCopyInMemory (sort : NodeSort) (file : Option File) (blockIndex : UInt16) :
    FsProg (ℤ × Option File) :=
  match file with
  | none => pure (-4, none)
  | some file =>
    match file.blocks[blockIndex.toNat]? with
    | none => pure (-1, some file)
    | some blockCopies => do
      match ← firstBlockGot blockCopies with
      | none => pure (-2, some file)
      | some block =>
        let nodes ← filesystemGetAllActivatedNodes
        match (sort.sort nodes).find? fun node => !blockCopies.any fun c => c.nodeId = node.id with
        | none => pure (-3, some file)
        | some selectedNode =>
          match nodeGetFirstFreeBlock selectedNode with
          | none => pure (-3, some file)
          | some firstBlockFreeIndex =>
            let sent ← connectionsNodeSendBlock ⟨selectedNode.id, firstBlockFreeIndex, block⟩
            if sent then
              mongoNodeUpdateBlocks (nodeSetBlockUsed selectedNode firstBlockFreeIndex)
              let blockCopy : FileBlock := ⟨selectedNode.id, firstBlockFreeIndex.toUInt16⟩
              let file := { file with blocks := file.blocks.modify blockIndex.toNat fun cs => cs ++ [blockCopy] }
              mongoFileAddBlockCopyToFile file.id blockIndex blockCopy
              pure (1, some file)
            else pure (-3, some file)

def filesystemMakeNewFileBlockCopy (sort : NodeSort) (file : Option File) (blockIndex : UInt16) :
    FsProg ℤ := do
  let (result, _) ← makeNewFileBlockCopyInMemory sort file blockIndex
  pure result

def filesystemDeleteFileBlockCopy (file : Option File) (blockIndex copyIndex : UInt16) : FsProg ℤ :=
  match file with
  | none => pure (-3)
  | some file =>
    match file.blocks[blockIndex.toNat]? with
    | none => pure (-1)
    | some blockCopies =>
      match blockCopies[copyIndex.toNat]? with
      | none => pure (-2)
      | some blockCopy => do
        mongoFileDeleteBlockCopy file.id blockIndex blockCopy
        match ← filesystemGetNodeById blockCopy.nodeId with
        | some node => mongoNodeUpdateBlocks (nodeSetBlockFree node blockCopy.blockIndex.toNat)
        | none => pure ()
        pure 1

/-- `listBlocks` of `filesystem_addNode`, over all the blocks of a file: the
copies on the node are deleted, block by block; `blockIndex` is a `uint16_t`. -/
def deleteCopiesOf (nodeId : CStr) (file : File) : FsProg Unit :=
  Prog.iterate (fun x : List FileBlock × ℕ => Prog.iterate (fun blockCopy =>
    if blockCopy.nodeId = nodeId then mongoFileDeleteBlockCopy file.id x.2.toUInt16 blockCopy
    else pure ()) x.1) file.blocks.zipIdx

def filesystemAddNode (nodeId : CStr) (blocksCount : UInt16) (isNewNode : Bool) : FsProg Unit := do
  match ← filesystemGetNodeById nodeId with
  | some node =>
    if isNewNode then
      -- The node says that it is new: all the copies that are in it are deleted.
      let files ← mongoFileGetFilesThatHaveNode node.id
      Prog.iterate (deleteCopiesOf node.id) files
      filesystemFormatNode { node with blocksCount := blocksCount }
    else pure ()
  | none =>
    let _ ← mongoNodeSave (nodeCreate nodeId blocksCount)
    pure ()

/-- `filesystem_getAllFileContent`: the blocks got, concatenated; `none` when one
of them is in no node that answers. -/
def filesystemGetAllFileContent (file : File) : FsProg (Option CStr) := do
  let blocksData ← file.blocks.foldlM (fun blocksData blockCopies => do
    match blocksData with
    | none => pure none -- not complete
    | some blocksData =>
      match ← firstBlockGot blockCopies with
      | some block => pure (some (blocksData ++ [block]))
      | none => pure none) (some [])
  pure (blocksData.map List.flatten)

/-- The directory of the result file: the folders of its path, from the root. -/
def resultParentId (resultFilePath destFileName : CStr) : FsProg (Option Oid) :=
  if destFileName.length < resultFilePath.length then do
    let pathToFolder := resultFilePath.take (resultFilePath.length - destFileName.length)
    let dir ← filesystemResolveDirPath pathToFolder .root (cstr "/")
    pure (dir.map fun x => x.1.id)
  else pure (some .root) -- There are no folders just a file in the ROOT folder.

/-- `filesystem_copyTmpFileToMDFS` up to the save: the file, its blocks sent; or the value
left in `failReason` when it returns 0 before that. -/
def distributeTmpFile (sort : NodeSort) (nodeId finalTmpName resultFilePath : CStr) (failReason : UInt8) :
    FsProg (UInt8 ⊕ File) := do
  let destFileName ← getFileName resultFilePath
  match ← resultParentId resultFilePath destFileName with
  | none => pure (.inl failReason)
  | some parentId =>
    if ← filesystemCanCreateResource destFileName parentId then
      match ← connectionsNodeGetFileContent nodeId finalTmpName with
      | none => pure (.inl 0)
      | some [] => .stop .crash -- the length wraps below zero
      | some tmpFileContent =>
        -- the last byte is the terminator
        let tmpFileLength := tmpFileContent.length - 1
        let blocks ← blocksOrStop (filesystemGetBlocksFromStr tmpFileContent tmpFileLength)
        let (distributed, file) ← filesystemDistributeBlocksToNodes sort blocks
          ⟨.root, parentId, destFileName, tmpFileLength, []⟩
        if distributed then pure (.inr file) else pure (.inl failReason)
    else pure (.inl failReason)

/-- The save of `filesystem_copyTmpFileToMDFS`. -/
def saveTmpFileOrCrash (failReason : UInt8) (file : File) : FsProg (Bool × UInt8) := do
  let (saved, _) ← mongoFileSave file
  if saved then pure (true, failReason)
  else .stop .crash -- the file is freed before it is deleted

/-- `filesystem_copyTmpFileToMDFS`, with the value left in `failReason`. -/
def filesystemCopyTmpFileToMDFS (sort : NodeSort) (nodeId finalTmpName resultFilePath : CStr)
    (failReason : UInt8) : FsProg (Bool × UInt8) := do
  match ← distributeTmpFile sort nodeId finalTmpName resultFilePath failReason with
  | .inl failReason => pure (false, failReason)
  | .inr file => saveTmpFileOrCrash failReason file

end Mdfs.FileSystem
