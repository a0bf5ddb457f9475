import Mdfs.Utils.Numbers
import Mdfs.FileSystem.Documents
import Mdfs.FileSystem.ResultPath

/-!
# The commands on single blocks

`catb`, `cpb` and `rmb` of `console/console.c`. A number that is typed goes through `unsigned long`, `int` and
`uint16_t`, with a sign test on the `int`: what comes out is the number modulo `65536` (`getIntFromString_index`).

A command up to its call of the file system is `BlockCommand.call`, and `prog_eq` puts the two together. The call is
refused when the file has no such copy (`refused_iff`), and otherwise it works with the block and the copy that the
numbers address.

* `block_numbers_iff`: when these are the ones that were typed.
* `block_numbers_wrap`: the copy that `rmb f 65536 0` deletes.
-/

namespace Mdfs.FileSystem

open Lib

variable {w v : World} {sort : NodeSort} {c : Console}

/-! ## The commands -/

/-- A file made at the local file system: its path and its content. -/
abbrev SavedFile := CStr × CStr

/-- `filesystem_saveFileBlockToLocalFS`, with the local file that it makes. -/
def filesystemSaveFileBlockToLocalFS (file : Option File) (blockIndex : UInt16) (pathToFile : CStr) :
    FsProg (ℤ × Option SavedFile) :=
  match file with
  | none => pure (-3, none)
  | some file =>
    match file.blocks[blockIndex.toNat]? with
    | none => pure (-1, none)
    | some blockCopies => do
      match ← firstBlockGot blockCopies with
      | none => pure (-2, none)
      | some block => pure (1, some (pathToFile, block))

/-- `getIntFromString`. -/
def getIntFromString (string : CStr) : Int32 :=
  let ⟨val, stringTail, errno⟩ := strtoul string
  if errno || stringTail = string || stringTail ≠ [] then -1 else val.toUInt32.toInt32

/-- The path of the local file of `catb`, in 512 bytes. -/
def tempFilePath (file : File) (blockNumber : Int32) : CStr :=
  (cstr "/tmp/MDFS_FILE_BLOCK_" ++ file.name ++ cstr "__" ++ cstr (toString blockNumber.toInt)).take 511

/-- `saveBlockContents`. -/
def saveBlockContents (c : Console) (filePath blockN : Option CStr) : FsProg (Option SavedFile) :=
  match filePath, blockN with
  | some filePath, some blockN => do
    let blockNumber := getIntFromString blockN
    if blockNumber < 0 then pure none
    else
      match ← filesystemResolveFilePath filePath c.currentDirId c.currentDirPrompt with
      | some file =>
        let (_, saved) ← filesystemSaveFileBlockToLocalFS (some file) (toUInt16 blockNumber)
          (tempFilePath file blockNumber)
        pure saved
      | none => pure none
  | _, _ => pure none

/-- `copyBlock`. -/
def copyBlock (sort : NodeSort) (c : Console) (filePath blockN : Option CStr) : FsProg Unit :=
  match filePath, blockN with
  | some filePath, some blockN => do
    let blockNumber := getIntFromString blockN
    if blockNumber < 0 then pure ()
    else
      match ← filesystemResolveFilePath filePath c.currentDirId c.currentDirPrompt with
      | some file =>
        let _ ← filesystemMakeNewFileBlockCopy sort (some file) (toUInt16 blockNumber)
        pure ()
      | none => pure ()
  | _, _ => pure ()

/-- `deleteBlock`. -/
def deleteBlock (c : Console) (filePath blockN copyN : Option CStr) : FsProg Unit :=
  match filePath, blockN, copyN with
  | some filePath, some blockN, some copyN => do
    let blockNumber := getIntFromString blockN
    if blockNumber < 0 then pure ()
    else
      let copyNumber := getIntFromString copyN
      if copyNumber < 0 then pure ()
      else
        match ← filesystemResolveFilePath filePath c.currentDirId c.currentDirPrompt with
        | some file =>
          let _ ← filesystemDeleteFileBlockCopy (some file) (toUInt16 blockNumber) (toUInt16 copyNumber)
          pure ()
        | none => pure ()
  | _, _, _ => pure ()

/-- A command on a block, with its arguments. -/
inductive BlockCommand
  | catb (filePath blockN : CStr)
  | cpb (filePath blockN : CStr)
  | rmb (filePath blockN copyN : CStr)

/-- A command, and the local file that it makes. -/
def BlockCommand.prog (sort : NodeSort) (c : Console) : BlockCommand → FsProg (Option SavedFile)
  | .catb filePath blockN => saveBlockContents c (some filePath) (some blockN)
  | .cpb filePath blockN => do
    copyBlock sort c (some filePath) (some blockN)
    pure none
  | .rmb filePath blockN copyN => do
    deleteBlock c (some filePath) (some blockN) (some copyN)
    pure none

/-- The numbers of a command, as they are typed. -/
def BlockCommand.numbers : BlockCommand → List CStr
  | .catb _ blockN => [blockN]
  | .cpb _ blockN => [blockN]
  | .rmb _ blockN copyN => [blockN, copyN]

/-! ## The call of a command -/

/-- What a command calls: `filesystem_saveFileBlockToLocalFS`, `filesystem_makeNewFileBlockCopy` or
`filesystem_deleteFileBlockCopy`. -/
inductive BlockCall
  | save (file : File) (blockIndex : UInt16) (pathToFile : CStr)
  | copy (file : File) (blockIndex : UInt16)
  | delete (file : File) (blockIndex copyIndex : UInt16)

def BlockCall.prog (sort : NodeSort) : BlockCall → FsProg (ℤ × Option SavedFile)
  | .save file blockIndex pathToFile => filesystemSaveFileBlockToLocalFS (some file) blockIndex pathToFile
  | .copy file blockIndex => do
    let result ← filesystemMakeNewFileBlockCopy sort (some file) blockIndex
    pure (result, none)
  | .delete file blockIndex copyIndex => do
    let result ← filesystemDeleteFileBlockCopy (some file) blockIndex copyIndex
    pure (result, none)

def BlockCall.file : BlockCall → File
  | .save file _ _ => file
  | .copy file _ => file
  | .delete file _ _ => file

/-- The indices that a function works with. -/
def BlockCall.indices : BlockCall → List ℕ
  | .save _ blockIndex _ => [blockIndex.toNat]
  | .copy _ blockIndex => [blockIndex.toNat]
  | .delete _ blockIndex copyIndex => [blockIndex.toNat, copyIndex.toNat]

/-- A command up to its call; `none` when it is rejected before. -/
def BlockCommand.call (c : Console) : BlockCommand → FsProg (Option BlockCall)
  | .catb filePath blockN =>
    if getIntFromString blockN < 0 then pure none
    else do
      let file ← filesystemResolveFilePath filePath c.currentDirId c.currentDirPrompt
      pure (file.map fun file => .save file (toUInt16 (getIntFromString blockN))
        (tempFilePath file (getIntFromString blockN)))
  | .cpb filePath blockN =>
    if getIntFromString blockN < 0 then pure none
    else do
      let file ← filesystemResolveFilePath filePath c.currentDirId c.currentDirPrompt
      pure (file.map fun file => .copy file (toUInt16 (getIntFromString blockN)))
  | .rmb filePath blockN copyN =>
    if getIntFromString blockN < 0 then pure none
    else if getIntFromString copyN < 0 then pure none
    else do
      let file ← filesystemResolveFilePath filePath c.currentDirId c.currentDirPrompt
      pure (file.map fun file => .delete file (toUInt16 (getIntFromString blockN)) (toUInt16 (getIntFromString copyN)))

/-- The call made, if there is one. -/
def finishCall (sort : NodeSort) : Option BlockCall → FsProg (Option SavedFile)
  | none => pure none
  | some call => do
    let (_, saved) ← call.prog sort
    pure saved

/-- **A command is its call**, made. -/
theorem prog_eq (sort : NodeSort) (c : Console) (cmd : BlockCommand) :
    cmd.prog sort c = cmd.call c >>= finishCall sort := by
  cases cmd with
  | catb filePath blockN =>
    unfold BlockCommand.prog BlockCommand.call saveBlockContents
    dsimp only
    split
    · rfl
    · rw [bind_assoc]
      refine bind_congr fun file => ?_
      cases file <;> rfl
  | cpb filePath blockN =>
    unfold BlockCommand.prog BlockCommand.call copyBlock
    dsimp only
    split
    · rfl
    · rw [bind_assoc, bind_assoc]
      refine bind_congr fun file => ?_
      cases file with
      | none => rfl
      | some file =>
        simp only [Option.map_some, pure_bind, finishCall, BlockCall.prog, bind_assoc]
  | rmb filePath blockN copyN =>
    unfold BlockCommand.prog BlockCommand.call deleteBlock
    dsimp only
    split
    · rfl
    · split
      · rfl
      · rw [bind_assoc, bind_assoc]
        refine bind_congr fun file => ?_
        cases file with
        | none => rfl
        | some file =>
          simp only [Option.map_some, pure_bind, finishCall, BlockCall.prog, bind_assoc]

/-! ## Indices -/

theorem toNat_index (n : UInt64) : (toUInt16 n.toUInt32.toInt32).toNat = n.toNat % 65536 := by
  have hbits : (toUInt16 n.toUInt32.toInt32).toNat = n.toNat % 4294967296 % 65536 := by simp [toUInt16]
  rw [hbits]
  omega

/-- **A number that is not rejected** is an integer that is typed, and comes out modulo `65536`. -/
theorem getIntFromString_index {s : CStr} (h : ¬getIntFromString s < 0) :
    ∃ n, written s = some n ∧ ((toUInt16 (getIntFromString s)).toNat : ℤ) = n % 65536 := by
  unfold getIntFromString at *
  generalize hread : strtoul s = x at *
  obtain ⟨val, stringTail, errno⟩ := x
  dsimp only at *
  by_cases hbad : (errno || decide (stringTail = s) || decide (stringTail ≠ [])) = true
  · rw [if_pos hbad] at h
    exact absurd (by decide) h
  · rw [if_neg hbad]
    simp only [Bool.or_eq_true, decide_eq_true_eq, not_or, not_not, Bool.not_eq_true] at hbad
    obtain ⟨⟨herrno, hne⟩, htail⟩ := hbad
    have hstrtoul := @strtoul_read s
    rw [hread] at hstrtoul
    obtain ⟨n, hn, hval⟩ := hstrtoul herrno hne htail
    refine ⟨n, hn, ?_⟩
    dsimp only at hval
    rw [toNat_index]
    omega

/-- The file has a copy at these indices: any copy of a block, or a given one. -/
def File.HasCopy (file : File) : List ℕ → Prop
  | [b] => ∃ copies ∈ file.blocks[b]?, copies ≠ []
  | [b, i] => ∃ copies ∈ file.blocks[b]?, i < copies.length
  | _ => False

/-- A call that is rejected, and changes nothing. -/
def BlockCall.Refused (sort : NodeSort) (call : BlockCall) : Prop := ∃ r < 0, call.prog sort = pure (r, none)

/-- A program that begins with a request is not over. -/
theorem not_pure_of_asks {α : Type} {p : FsProg α} (h : p.returned = false) (a : α) : p ≠ pure a := by
  rintro rfl
  cases h

/-- A program that looks for any copy of a block. -/
theorem refused_iff_nonempty {o : Option (List FileBlock)} {p : FsProg (ℤ × Option SavedFile)}
    (hnone : o = none → p = pure (-1, none)) (hnil : o = some [] → p = pure (-2, none))
    (hcons : ∀ copy copies, o = some (copy :: copies) → p.returned = false) :
    (∃ r < 0, p = pure (r, none)) ↔ ¬∃ copies ∈ o, copies ≠ [] := by
  rcases o with _ | _ | ⟨copy, copies⟩
  · exact iff_of_true ⟨-1, by omega, hnone rfl⟩ (by simp)
  · exact iff_of_true ⟨-2, by omega, hnil rfl⟩ (by simp)
  · refine iff_of_false ?_ (by simp)
    rintro ⟨r, -, hpure⟩
    exact not_pure_of_asks (hcons copy copies rfl) _ hpure

/-- **A call is refused** when the file has no copy at its indices, and only then. -/
theorem refused_iff (sort : NodeSort) (call : BlockCall) : call.Refused sort ↔ ¬call.file.HasCopy call.indices := by
  cases call with
  | save file b path =>
    refine refused_iff_nonempty (fun ho => ?_) (fun ho => ?_) fun copy copies ho => ?_
    · have hblock : file.blocks[b.toNat]? = none := ho
      simp only [BlockCall.prog, filesystemSaveFileBlockToLocalFS, hblock]
    · have hblock : file.blocks[b.toNat]? = some [] := ho
      simp only [BlockCall.prog, filesystemSaveFileBlockToLocalFS, hblock]
      rfl
    · have hblock : file.blocks[b.toNat]? = some (copy :: copies) := ho
      simp only [BlockCall.prog, filesystemSaveFileBlockToLocalFS, hblock]
      rfl
  | copy file b =>
    refine refused_iff_nonempty (fun ho => ?_) (fun ho => ?_) fun copy copies ho => ?_
    · have hblock : file.blocks[b.toNat]? = none := ho
      simp only [BlockCall.prog, filesystemMakeNewFileBlockCopy, makeNewFileBlockCopyInMemory, hblock]
      rfl
    · have hblock : file.blocks[b.toNat]? = some [] := ho
      simp only [BlockCall.prog, filesystemMakeNewFileBlockCopy, makeNewFileBlockCopyInMemory, hblock]
      rfl
    · have hblock : file.blocks[b.toNat]? = some (copy :: copies) := ho
      simp only [BlockCall.prog, filesystemMakeNewFileBlockCopy, makeNewFileBlockCopyInMemory, hblock]
      rfl
  | delete file b i =>
    have hblocks : ∀ o, file.blocks[b.toNat]? = o →
        ((BlockCall.delete file b i).Refused sort ↔ ¬∃ copies ∈ o, i.toNat < copies.length) := by
      intro o ho
      unfold BlockCall.Refused BlockCall.prog filesystemDeleteFileBlockCopy
      simp only [ho]
      cases o with
      | none => exact iff_of_true ⟨-1, by omega, rfl⟩ (by simp)
      | some copies =>
        dsimp only
        cases hcopy : copies[i.toNat]? with
        | none =>
          have hge := List.getElem?_eq_none_iff.1 hcopy
          refine iff_of_true ⟨-2, by omega, rfl⟩ ?_
          rintro ⟨copies', hsame, hlt⟩
          obtain rfl := Option.some.inj hsame
          omega
        | some copy =>
          obtain ⟨hlt, -⟩ := List.getElem?_eq_some_iff.1 hcopy
          refine iff_of_false ?_ (not_not_intro ⟨copies, rfl, hlt⟩)
          rintro ⟨r, -, hpure⟩
          exact not_pure_of_asks rfl _ hpure
    exact hblocks _ rfl

/-! ## When the numbers are the ones that were typed -/

/-- A number as an index. -/
def wrapped (n : ℤ) : ℕ := (n % 65536).toNat

/-- **A command up to its call** changes nothing, and calls with the numbers that are typed, wrapped. -/
theorem call_ok {C : World → Req → Choice → Prop} (cmd : BlockCommand) (c : Console) : (cmd.call c).Ok (worldSpec C)
    (fun o v => v = w ∧ ∀ call ∈ o, ∃ ns : List ℤ, cmd.numbers.map written = ns.map some ∧ call.indices =
      ns.map wrapped)
    (fun _ _ => True) w := by
  have hindex : ∀ {s : CStr}, ¬getIntFromString s < 0 →
      ∃ n, written s = some n ∧ (toUInt16 (getIntFromString s)).toNat = wrapped n := by
    intro s hs
    obtain ⟨n, hn, hval⟩ := getIntFromString_index hs
    refine ⟨n, hn, ?_⟩
    unfold wrapped
    omega
  have hrejected : ∀ ns : List CStr, ∀ call ∈ (none : Option BlockCall),
      ∃ ns' : List ℤ, ns.map written = ns'.map some ∧ call.indices = ns'.map wrapped := fun _ _ h =>
        absurd h (Option.not_mem_none _)
  have hone : ∀ (filePath blockN : CStr) (k : File → BlockCall),
      (∀ file, (k file).indices = [(toUInt16 (getIntFromString blockN)).toNat]) →
      (if getIntFromString blockN < 0 then pure none else do
        let file ← filesystemResolveFilePath filePath c.currentDirId c.currentDirPrompt
        pure (file.map k) : FsProg (Option BlockCall)).Ok (worldSpec C)
        (fun o v => v = w ∧ ∀ call ∈ o, ∃ ns : List ℤ, [blockN].map written = ns.map some ∧ call.indices =
          ns.map wrapped)
        (fun _ _ => True) w := by
    intro filePath blockN k hk
    split
    · exact ⟨rfl, hrejected _⟩
    · rename_i hb
      obtain ⟨n, hn, hval⟩ := hindex hb
      rw [Prog.ok_bind]
      refine resolveFilePath_ok trivial ⟨rfl, hrejected _⟩ fun file _ => ⟨rfl, fun call hcall => ⟨[n], ?_, ?_⟩⟩
      · rw [List.map_singleton, hn, List.map_singleton]
      · obtain rfl := Option.some.inj hcall
        rw [hk, hval, List.map_singleton]
  cases cmd with
  | catb filePath blockN => exact hone filePath blockN _ fun _ => rfl
  | cpb filePath blockN => exact hone filePath blockN _ fun _ => rfl
  | rmb filePath blockN copyN =>
    dsimp only [BlockCommand.call, BlockCommand.numbers]
    split
    · exact ⟨rfl, hrejected _⟩
    · rename_i hb
      split
      · exact ⟨rfl, hrejected _⟩
      · rename_i hi
        obtain ⟨n, hn, hval⟩ := hindex hb
        obtain ⟨m, hm, hval'⟩ := hindex hi
        rw [Prog.ok_bind]
        refine resolveFilePath_ok trivial ⟨rfl, hrejected _⟩ fun file _ => ⟨rfl, fun call hcall => ⟨[n, m], ?_, ?_⟩⟩
        · simp only [List.map_cons, List.map_nil, hn, hm]
        · obtain rfl := Option.some.inj hcall
          simp only [BlockCall.indices, hval, hval', List.map_cons, List.map_nil]

/-- **When the numbers mean what was typed.** A command is its call, made; up to the call nothing changes. The call is
refused, or works with the integers that were typed, just when integers that wrap to a copy of the file are from
`0` to `65535`. -/
theorem block_numbers_iff (sort : NodeSort) (cmd : BlockCommand) (c : Console) :
    cmd.prog sort c = cmd.call c >>= finishCall sort ∧
    ∀ w cs o v, (cmd.call c).exec handle w cs = some (.ok o, v) → v = w ∧ ∀ call ∈ o,
      ((call.Refused sort ∨ cmd.numbers.map written = call.indices.map fun i : ℕ => some (i : ℤ)) ↔
        ∀ ns : List ℤ, cmd.numbers.map written = ns.map some → call.file.HasCopy (ns.map wrapped) →
          ∀ n ∈ ns, 0 ≤ n ∧ n < 65536) := by
  refine ⟨prog_eq sort c cmd, ?_⟩
  intro w cs o v hexec
  have hrun := (call_ok (C := fun _ _ _ => True) cmd c).exec_along (Prog.along_of_mem fun _ _ _ _ => trivial) hexec
  refine ⟨hrun.1, fun call hcall => ?_⟩
  obtain ⟨ns, hwritten, hindices⟩ := hrun.2 call hcall
  have hsome : Function.Injective (List.map (some : ℤ → Option ℤ)) := List.map_injective_iff.2 (Option.some_injective ℤ)
  have hcast : (call.indices.map fun i : ℕ => some (i : ℤ)) = (ns.map fun n => (wrapped n : ℤ)).map some := by
    rw [hindices, List.map_map, List.map_map]
    rfl
  rw [hwritten, hcast, hsome.eq_iff, refused_iff, hindices]
  constructor
  · intro hor ns' hsame hcopy n hn
    obtain rfl := hsome hsame
    have hequal := hor.resolve_left (not_not_intro hcopy)
    have hplace : (wrapped n : ℤ) = n := by
      have hid : ns.map (fun n => (wrapped n : ℤ)) = ns.map fun n => n := hequal.symm.trans (List.map_id' ns).symm
      exact List.map_inj_left.1 hid n hn
    unfold wrapped at hplace
    omega
  · intro hrange
    by_cases hcopy : call.file.HasCopy (ns.map wrapped)
    · refine Or.inr ?_
      have hall := hrange ns rfl hcopy
      have hid : ns.map (fun n => (wrapped n : ℤ)) = ns.map fun n => n := by
        refine List.map_congr_left fun n hn => ?_
        have hbounds := hall n hn
        unfold wrapped
        omega
      rw [hid, List.map_id']
    · exact Or.inl hcopy

/-- A file of one block with a copy on the node `n1`, in the root. -/
def oneBlock : World :=
  { World.empty fun _ => [] with
    files := ⟨[⟨.gen 0, .root, cstr "f", 1, [[⟨cstr "n1", 0⟩]]⟩], by decide, by decide⟩
    nodes := ⟨[nodeSetBlockUsed (nodeCreate (cstr "n1") 2) 0], by decide, by decide⟩
    oids := 1 }

theorem block_numbers_zero : ∃ call v, ((BlockCommand.rmb (cstr "f") (cstr "0") (cstr "+0")).call .start).exec
    handle oneBlock [.done] =
      some (.ok (some call), v) ∧ v = oneBlock ∧
    (call.Refused insertionSort ∨ [cstr "0", cstr "+0"].map written = call.indices.map fun i : ℕ => some (i : ℤ)) := by
  have hexec : ((BlockCommand.rmb (cstr "f") (cstr "0") (cstr "+0")).call .start).exec handle oneBlock [.done] =
      some (.ok (some (.delete ⟨.gen 0, .root, cstr "f", 1, [[⟨cstr "n1", 0⟩]]⟩ 0 0)), oneBlock) := rfl
  obtain ⟨-, hall⟩ := block_numbers_iff insertionSort (.rmb (cstr "f") (cstr "0") (cstr "+0")) .start
  obtain ⟨hworld, hcall⟩ := hall _ _ _ _ hexec
  refine ⟨_, _, hexec, hworld, (hcall _ rfl).2 ?_⟩
  have hwritten : (BlockCommand.rmb (cstr "f") (cstr "0") (cstr "+0")).numbers.map written =
    [(0 : ℤ), 0].map some := by decide
  intro ns hns _ n hn
  have hzero : ns = [0, 0] := (List.map_injective_iff.2 (Option.some_injective ℤ)) (hns.symm.trans hwritten)
  rw [hzero] at hn
  simp only [List.mem_cons, List.not_mem_nil, or_false, or_self] at hn
  omega

/-- **A copy that was not named**: `rmb f 65536 0` deletes the copy `0` of the block `0`; and the block that
`-18446744073709551615` stands for is the block `1`. -/
theorem block_numbers_wrap :
    (∃ v, ((BlockCommand.rmb (cstr "f") (cstr "65536") (cstr "0")).prog insertionSort .start).exec handle oneBlock
        (List.replicate 4 .done) = some (.ok none, v) ∧ v.files.docs.map File.blocks = [[[]]]) ∧
    (∃ call, ((BlockCommand.rmb (cstr "f") (cstr "65536") (cstr "0")).call .start).exec handle oneBlock [.done] =
        some (.ok (some call), oneBlock) ∧ ¬call.Refused insertionSort ∧ call.indices = [0, 0] ∧
      [cstr "65536", cstr "0"].map written ≠ call.indices.map fun i : ℕ => some (i : ℤ)) ∧
    ¬getIntFromString (cstr "-18446744073709551615") < 0 ∧
      toUInt16 (getIntFromString (cstr "-18446744073709551615")) = 1 := by
  refine ⟨?_, ?_, by decide, by decide⟩
  · have hall : ∃ x ∈ ((BlockCommand.rmb (cstr "f") (cstr "65536") (cstr "0")).prog insertionSort .start).exec
      handle oneBlock
        (List.replicate 4 .done), x.1.toOption = some none ∧ x.2.files.docs.map File.blocks = [[[]]] := by
          decide +kernel
    obtain ⟨⟨r, v⟩, hx, hr, hblocks⟩ := hall
    cases r with
    | error e => cases hr
    | ok r =>
      obtain rfl : r = none := Option.some.inj hr
      exact ⟨v, hx, hblocks⟩
  · refine ⟨.delete ⟨.gen 0, .root, cstr "f", 1, [[⟨cstr "n1", 0⟩]]⟩ 0 0, rfl, ?_, rfl, by decide⟩
    rintro ⟨r, -, hpure⟩
    exact not_pure_of_asks rfl _ hpure

end Mdfs.FileSystem
