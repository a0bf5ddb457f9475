import Mdfs.Lib.Pool
import Mdfs.FileSystem.Ownership

/-!
# The console and MaRTA on one database

The console thread and the thread that serves MaRTA run as a pool: each request
of either is one step. A node's bitmap is read whole, changed in the thread's own
copy and written back whole, so a write can undo what the other thread wrote in
between.

`UpToDate` is the condition that no write does: it finds in the database the
node that its thread last read or wrote. Along it every slot has one owner: a
recorded copy, or a thread that holds it (`Shared`).

* `shared_rule`: every step that is up to date keeps the owners apart.
* `no_double_booking`: so does every interleaving, up to the end of both threads.
* `double_booking`: without the condition, two imports book the same blocks.
-/

namespace Mdfs.FileSystem

open Lib

/-! ## The pool -/

/-- The world, and for each thread the nodes as it last read or wrote them. -/
structure Watched where
  world : World
  seen : ℕ → CStr → Option Node

/-- What a thread has seen of the nodes after a request. -/
def look (seen : CStr → Option Node) : (r : Req) → Resp r → CStr → Option Node
  | .nodeById id, some n => Function.update seen id (some n)
  | .nodeAll, nodes => fun id => (nodes.find? fun n => n.id = id).or (seen id)
  | .nodeSetBlocks n, _ => Function.update seen n.id (some n)
  | _, _ => seen

/-- Thread `t`'s requests, served by the world. -/
def watch (t : ℕ) : Handler Resp Watched Choice := fun x r c =>
  let y := serve x.world r c
  some (y.1, ⟨y.2, Function.update x.seen t (look (x.seen t) r y.1)⟩)

/-- The node that a request writes. -/
def Req.nodeWritten : Req → Option Node
  | .nodeSetBlocks n => some n
  | _ => none

/-- **No lost update**: a node that is written back is in the database as its
thread last read or wrote it. -/
def UpToDate (t : ℕ) (x : Watched) (r : Req) (_ : Choice) : Prop :=
  ∀ n ∈ r.nodeWritten, x.world.nodes.findKey n.id = x.seen t n.id

instance (t : ℕ) (x : Watched) (r : Req) (c : Choice) : Decidable (UpToDate t x r c) :=
  inferInstanceAs (Decidable (∀ n ∈ r.nodeWritten, x.world.nodes.findKey n.id = x.seen t n.id))

/-- The operations that the console runs against an import. -/
def Operation.ofConsole : Operation → Bool
  | .copyFileFromFS .. => true
  | .makeNewFileBlockCopy .. => true
  | .deleteFileBlockCopy .. => true
  | .deleteFile .. => true
  | _ => false

/-- A console operation and an import for MaRTA, about to start. -/
def together (sort : NodeSort) (w : World) (op : Operation) (nodeId finalTmpName resultFilePath : CStr) :
    Pool Resp Stop Unit Watched :=
  ⟨⟨w, fun _ _ => none⟩, [op.prog sort, (Operation.copyTmpFileToMDFS nodeId finalTmpName resultFilePath).prog sort]⟩

/-- Both operations have returned. -/
def Finished (P : Pool Resp Stop Unit Watched) : Bool := P.threads.all Prog.returned

/-! ## The specification of a thread -/

/-- What a thread knows and owns: the nodes it has seen, the slots it holds, the
stored file it is going to change and the one it is deleting. -/
structure Ghost where
  seen : CStr → Option Node
  held : Slot → Prop
  file : Option File
  dying : Option Oid

/-- What an operation does with the file that it loads by name. -/
inductive Mode
  | importing -- only looks whether the name is taken
  | changing
  | deleting

/-- What an operation does with the file that it names. -/
def Operation.mode : Operation → Mode
  | .makeNewFileBlockCopy .. => .changing
  | .deleteFileBlockCopy .. => .changing
  | .deleteFile .. => .deleting
  | _ => .importing

/-- What a thread owns after a request. -/
def Ghost.move (mode : Mode) (l : Ghost) : (r : Req) → Resp r → Ghost
  | .fileByName _ _, x =>
    match mode, x with
    | .changing, x => { l with file := x }
    | .deleting, some f => { l with held := fun s => s ∈ f.slots, dying := some f.id }
    | _, _ => l
  | .fileInsert f, true => { l with held := fun s => l.held s ∧ s ∉ f.slots }
  | .fileAddCopy _ _ c, _ => { l with file := none, held := fun s => l.held s ∧ s ≠ c.slot }
  | .filePullCopy _ _ c, _ => { l with file := none, held := fun s => l.held s ∨ s = c.slot }
  | .fileDelete _, _ => { l with dying := none }
  | .nodeSetBlocks n, x =>
    { l with
      seen := look l.seen (.nodeSetBlocks n) x
      -- the bits it clears are given up, the bits it sets are taken
      held := fun s => (l.held s ∧ (s.1 = n.id → (l.seen n.id).any (fun m => m.blocks.testBit s.2) = true →
          n.blocks.testBit s.2 = true)) ∨
        (s.1 = n.id ∧ n.blocks.testBit s.2 = true ∧
          (l.seen n.id).any (fun m => m.blocks.testBit s.2) = false) }
  | .nodeById id, x => { l with seen := look l.seen (.nodeById id) x }
  | .nodeAll, x => { l with seen := look l.seen .nodeAll x }
  | _, _ => l

/-- What a thread may ask: it stores only copies in slots that it holds, clears
only bits of slots that it holds, and only the console changes stored files. -/
def Ghost.MayAsk (t : ℕ) (mode : Mode) (l : Ghost) : Req → Prop
  | .fileByName _ _ => match mode with
    | .importing => True
    | _ => t = 0 ∧ l.file = none ∧ l.dying = none ∧ ∀ s, ¬l.held s
  | .fileInsert f => f.slots.Nodup ∧ ∀ s ∈ f.slots, l.held s
  | .fileAddCopy id b c => t = 0 ∧ l.held c.slot ∧ ∃ f cs, l.file = some f ∧ f.id = id ∧
      f.blocks[b.toNat]? = some cs
  | .filePullCopy id b c => t = 0 ∧ ∃ f cs, l.file = some f ∧ f.id = id ∧
      f.blocks[b.toNat]? = some cs ∧ c ∈ cs
  | .fileDelete id => t = 0 ∧ l.file = none ∧ (l.dying = none ∨ l.dying = some id)
  | .nodeSetBlocks n => ∃ m, l.seen n.id = some m ∧ n.blocksCount = m.blocksCount ∧ n.Fits ∧
      ∀ i, m.blocks.testBit i = true → n.blocks.testBit i = true ∨ l.held (n.id, i)
  | .nodeById _ | .nodeAll | .generateId | .dirById _ | .dirByName .. => True
  | .isActive _ | .setBlock .. | .getBlock _ | .getFileContent .. | .openFile _ => True
  | _ => False

/-- What the answers of the database are like. -/
def Facts (mode : Mode) : (r : Req) → Resp r → Prop
  | .nodeById id, x => ∀ n, x = some n → n.id = id ∧ n.Fits
  | .nodeAll, nodes => (nodes.map Node.id).Nodup ∧ ∀ n ∈ nodes, n.Fits
  | .fileByName _ _, x => match mode with
    | .importing => True
    | _ => ∀ f, x = some f → f.slots.Nodup
  | _, _ => True

/-- **The specification of thread `t`.** -/
def threadSpec (mode : Mode) (t : ℕ) : Spec Resp Ghost where
  pre l r := l.MayAsk t mode r
  post l r x m := Facts mode r x ∧ m = l.move mode r x

variable {mode : Mode} {t : ℕ} {E : Stop → Ghost → Prop} {l : Ghost} {sort : NodeSort}

/-- One request of a thread, in the program logic. -/
theorem ok_turn {r : Req} {α : Type} {k : Resp r → FsProg α} {Q : α → Ghost → Prop} :
    Prog.Ok (threadSpec mode t) Q E (.ask r k) l ↔
      l.MayAsk t mode r ∧ ∀ x, Facts mode r x → (k x).Ok (threadSpec mode t) Q E (l.move mode r x) := by
  rw [Prog.ok_ask]
  refine and_congr_right fun _ => ⟨fun h x hx => h x _ ⟨hx, rfl⟩, ?_⟩
  rintro h x m ⟨hx, rfl⟩
  exact h x hx

/-! ## Requests that do not concern the bitmaps -/

/-- The requests that leave a thread's knowledge as it is. -/
def Req.quiet : Req → Bool
  | .generateId | .dirById _ | .dirByName .. | .isActive _ => true
  | .setBlock .. | .getBlock _ | .getFileContent .. | .openFile _ => true
  | _ => false

/-- A program that makes only quiet requests. -/
abbrev Quiet {α : Type} (p : FsProg α) : Prop := p.Only fun r => r.quiet = true

theorem Quiet.ok {α : Type} {p : FsProg α} {Q : α → Ghost → Prop} (hp : Quiet p) (hE : ∀ e, E e l)
    (hQ : ∀ a, Q a l) : p.Ok (threadSpec mode t) Q E l := by
  refine Prog.Only.ok hp (fun r hr => ?_) hQ hE
  cases r <;> first | exact ⟨trivial, fun _ _ hx => hx.2⟩ | cases hr

theorem quiet_request {r : Req} (hr : r.quiet = true) : Quiet (request r) := ⟨hr, fun _ => trivial⟩

theorem LooksUp.quiet {α : Type} {p : FsProg α} (hp : LooksUp p) : Quiet p := by
  refine Prog.Only.mono (fun r hr => ?_) hp
  cases r <;> first | rfl | cases hr

theorem quiet_startingDir (id : Oid) : Quiet (startingDir id) := (looksUp_startingDir id).quiet

theorem quiet_resolveDirPath (path : CStr) (id : Oid) (start : CStr) :
    Quiet (filesystemResolveDirPath path id start) := (looksUp_resolveDirPath path id start).quiet

theorem quiet_resultParentId (path name : CStr) : Quiet (resultParentId path name) := by
  unfold resultParentId
  split
  · exact Prog.only_bind (quiet_resolveDirPath _ _ _) fun _ => trivial
  · trivial

theorem quiet_getFileName (path : CStr) : Quiet (getFileName path) := by
  unfold getFileName
  split <;> trivial

theorem quiet_firstBlockGot (cs : List FileBlock) : Quiet (firstBlockGot cs) := by
  induction cs with
  | nil => trivial
  | cons c cs ih =>
    refine Prog.only_bind (Prog.only_bind (quiet_request rfl) fun _ => trivial) fun x => ?_
    cases x with
    | none => exact ih
    | some b => trivial

theorem quiet_blocksOrStop (split : Except SplitFault (List (List UInt8))) : Quiet (blocksOrStop split) := by
  cases split <;> trivial

theorem quiet_getFSFileBlocks (route : CStr) : Quiet (filesystemGetFSFileBlocks route) := by
  refine Prog.only_bind (quiet_request rfl) fun x => ?_
  cases x with
  | none => trivial
  | some s => exact Prog.only_bind (quiet_blocksOrStop _) fun _ => trivial

/-! ## The operations meet the specification -/

theorem look_nodeAll {seen : CStr → Option Node} {nodes : List Node} (hn : (nodes.map Node.id).Nodup)
    {n : Node} (h : n ∈ nodes) : look seen .nodeAll nodes n.id = some n := by
  obtain ⟨m, hm⟩ : ∃ m, nodes.find? (fun m => m.id = n.id) = some m :=
    Option.isSome_iff_exists.1 (List.find?_isSome.2 ⟨n, h, by simp⟩)
  have hid : m.id = n.id := of_decide_eq_true (List.find?_some hm :)
  have hmn : m = n := List.inj_on_of_nodup_map hn (List.mem_of_find?_eq_some hm) h hid
  simp only [look, hm, hmn, Option.some_or]

theorem canCreateResource_turn {name : CStr} {parentId : Oid} {Q : Bool → Ghost → Prop} (hQ : ∀ b, Q b l) :
    (filesystemCanCreateResource name parentId).Ok (threadSpec .importing t) Q E l := by
  simp only [filesystemCanCreateResource, filesystemGetDirByNameInDir, mongoDirGetByNameInDir,
    filesystemGetFileByNameInDir, mongoFileGetByNameInDir, Prog.ok_bind, ok_turn, Prog.ok_ret]
  refine ⟨trivial, fun d _ => ?_⟩
  cases d with
  | some d => exact hQ false
  | none =>
    simp only [Prog.ok_bind, ok_turn, Prog.ok_ret]
    refine ⟨trivial, fun f _ => ?_⟩
    cases f <;> exact hQ _

theorem getAllActivatedNodes_turn {Q : List Node → Ghost → Prop} (hE : ∀ e l, E e l)
    (hQ : ∀ nodes N, (nodes.map Node.id).Nodup → (∀ n ∈ nodes, n.Fits) → N.Sublist nodes →
      Q N { l with seen := look l.seen .nodeAll nodes }) :
    filesystemGetAllActivatedNodes.Ok (threadSpec mode t) Q E l := by
  simp only [filesystemGetAllActivatedNodes, mongoNodeGetAll, Prog.ok_bind, ok_turn, Prog.ok_ret]
  refine ⟨trivial, fun nodes hn => ?_⟩
  refine (Prog.ok_foldlM (K := fun done N m =>
    m = { l with seen := look l.seen .nodeAll nodes } ∧ N.Sublist done) nodes ?_
    ⟨rfl, List.Sublist.slnil⟩).imp ?_
  · intro done n rest N m _ hK
    obtain ⟨rfl, hN⟩ := hK
    rw [Prog.ok_bind]
    refine Quiet.ok (quiet_request rfl) (fun e => hE e _) fun b => ?_
    split
    · exact ⟨rfl, hN.append (List.Sublist.refl [n])⟩
    · exact ⟨rfl, hN.trans (List.sublist_append_left done [n])⟩
  · intro N m hK
    obtain ⟨rfl, hN⟩ := hK
    exact hQ nodes N hn.1 hn.2 hN

/-- A node written back with all the bits that were seen set gives up nothing. -/
theorem held_take {n m : Node} {x : Resp (.nodeSetBlocks n)} (hm : l.seen n.id = some m)
    (hb : ∀ i, m.blocks.testBit i = true → n.blocks.testBit i = true) {s : Slot} :
    (l.move mode (.nodeSetBlocks n) x).held s ↔ l.held s ∨
      (s.1 = n.id ∧ n.blocks.testBit s.2 = true ∧ m.blocks.testBit s.2 = false) := by
  simp only [Ghost.move, hm, Option.any_some]
  exact or_congr_left (and_iff_left fun _ => hb s.2)

/-- A node written back with no bit set that was not seen set takes nothing. -/
theorem held_drop {n m : Node} {x : Resp (.nodeSetBlocks n)} (hm : l.seen n.id = some m)
    (hb : ∀ i, n.blocks.testBit i = true → m.blocks.testBit i = true) {s : Slot} :
    (l.move mode (.nodeSetBlocks n) x).held s ↔ l.held s ∧
      (s.1 = n.id → m.blocks.testBit s.2 = true → n.blocks.testBit s.2 = true) := by
  simp only [Ghost.move, hm, Option.any_some]
  refine or_iff_left ?_
  rintro ⟨-, h, h'⟩
  rw [hb s.2 h] at h'
  cases h'

/-- **Where the writing of a plan is**, when the nodes `done` are written: the thread has
seen their new bitmaps, and holds the slots of the plan on them. -/
structure Written (N : List Node) (p : Plan) (l : Ghost) (done : List CStr) (m : Ghost) : Prop where
  file : m.file = l.file
  dying : m.dying = l.dying
  held : ∀ s, m.held s ↔ s ∈ p.slots ∧ s.1 ∈ done
  seen : ∀ n ∈ N, m.seen n.id = some (if n.id ∈ done then n.withBits (mark p.slots) else n)

section

variable {N : List Node} {p : Plan} {done : List CStr} {m : Ghost} {n : Node}

/-- The bitmap that is written has every bit that was seen set. -/
theorem Written.kept (h : Written N p l done m) (hN : (N.map Node.id).Nodup) (hF : ∀ n ∈ N, n.Fits) (hp : Planned N p)
    (hn : n ∈ N) : ∃ old, m.seen n.id = some old ∧ old.blocksCount = n.blocksCount ∧
      ∀ i, old.blocks.testBit i = true → (n.withBits (mark p.slots)).blocks.testBit i = true := by
  refine ⟨_, h.seen n hn, ?_, fun i hi => ?_⟩
  · split <;> rfl
  · split at hi
    · exact hi
    · exact (hp.testBit_mark hN hn (hF n hn) i).2 (Or.inl hi)

theorem Written.mayAsk (h : Written N p l done m) (hN : (N.map Node.id).Nodup) (hF : ∀ n ∈ N, n.Fits)
    (hp : Planned N p) (hn : n ∈ N) : m.MayAsk t mode (.nodeSetBlocks (n.withBits (mark p.slots))) := by
  obtain ⟨old, hseen, hcount, hkept⟩ := h.kept hN hF hp hn
  exact ⟨old, hseen, hcount.symm, hp.fits_mark hN hn (hF n hn), fun i hi => Or.inl (hkept i hi)⟩

/-- One more node is written. -/
theorem Written.step (h : Written N p l done m) (hN : (N.map Node.id).Nodup) (hF : ∀ n ∈ N, n.Fits) (hp : Planned N p)
    (hn : n ∈ N) (x : Resp (.nodeSetBlocks (n.withBits (mark p.slots)))) :
    Written N p l (done ++ [n.id]) (m.move mode (.nodeSetBlocks (n.withBits (mark p.slots))) x) := by
  have hbit := hp.testBit_mark hN hn (hF n hn)
  refine ⟨h.file, h.dying, fun s => ?_, fun n' hn' => ?_⟩
  · have hlast : m.seen (n.withBits (mark p.slots)).id =
        some (if n.id ∈ done then n.withBits (mark p.slots) else n) := h.seen n hn
    rw [held_take hlast fun i hi => ?_, h.held s, List.mem_append, List.mem_singleton, Node.withBits_id]
    -- a node is written once for every copy of the plan on it
    · by_cases hdone : n.id ∈ done
      · -- the node was written before: nothing new is taken
        rw [if_pos hdone]
        constructor
        · rintro (h | ⟨-, h, h'⟩)
          · exact ⟨h.1, Or.inl h.2⟩
          · rw [h] at h'
            cases h'
        · rintro ⟨h, h' | h'⟩
          · exact Or.inl ⟨h, h'⟩
          · exact Or.inl ⟨h, h' ▸ hdone⟩
      · rw [if_neg hdone, and_or_left]
        refine or_congr_right ?_
        constructor
        · rintro ⟨h, hnew, hold⟩
          have he : s = (n.id, s.2) := Prod.ext h rfl
          have hsn : (n.id, s.2) ∈ p.slots := by simpa [hold] using (hbit s.2).1 hnew
          exact ⟨he ▸ hsn, h⟩
        · rintro ⟨h, hsn⟩
          have he : s = (n.id, s.2) := Prod.ext hsn rfl
          have hsn' : (n.id, s.2) ∈ p.slots := he ▸ h
          exact ⟨hsn, (hbit s.2).2 (Or.inr hsn'), (hp.slot hN hn hsn').2⟩
    · split at hi
      · exact hi
      · exact (hbit i).2 (Or.inl hi)
  · simp only [Ghost.move, look, Node.withBits_id, List.mem_append, List.mem_singleton]
    by_cases hnn : n'.id = n.id
    · cases List.inj_on_of_nodup_map hN hn' hn hnn
      simp
    · rw [Function.update_of_ne hnn, h.seen n' hn']
      simp [hnn]

end

/-- Writing the nodes of a plan back takes the slots of the plan. -/
theorem updateNodes_turn {N : List Node} {p : Plan} (hN : (N.map Node.id).Nodup) (hF : ∀ n ∈ N, n.Fits)
    (hp : Planned N p) (hseen : ∀ n ∈ N, l.seen n.id = some n) (hheld : ∀ s, ¬l.held s)
    {Q : Unit → Ghost → Prop}
    (hQ : ∀ m : Ghost, m.file = l.file → m.dying = l.dying → (∀ s, m.held s ↔ s ∈ p.slots) → Q () m) :
    (Prog.iterate (fun op : NodeBlockSendOperation => match p.nodes.find? fun node => node.id = op.node with
      | some node => mongoNodeUpdateBlocks node
      | none => .stop .crash) p.sendOperations).Ok (threadSpec mode t) Q E l := by
  refine (Prog.ok_iterate (K := fun done m => Written N p l (done.map NodeBlockSendOperation.node) m)
    p.sendOperations ?_ ?_).imp ?_
  · intro done op rest m hd hK
    obtain ⟨n, hn, hid, hfind⟩ := hp.find (show op ∈ p.sendOperations from hd ▸ by simp)
    rw [hfind]
    simp only [mongoNodeUpdateBlocks, ok_turn, Prog.ok_ret]
    refine ⟨hK.mayAsk hN hF hp hn, fun x _ => ?_⟩
    rw [List.map_append, List.map_singleton, ← hid]
    exact hK.step hN hF hp hn x
  · exact ⟨rfl, rfl, fun s => by simp [hheld s], fun n hn => by simpa using hseen n hn⟩
  · intro _ m hK
    refine hQ m hK.file hK.dying fun s => (hK.held s).trans (and_iff_left_of_imp fun hs => ?_)
    obtain ⟨op, hop, rfl⟩ := List.mem_map.1 hs
    exact List.mem_map_of_mem (f := NodeBlockSendOperation.node) hop

/-- **The distribution of a file's blocks**: when it succeeds, the thread holds
the slots of the copies. -/
theorem distribute_turn {bs : List (List UInt8)} {file : File} {Q : Bool × File → Ghost → Prop}
    (hfile : file.blocks = []) (hheld : ∀ s, ¬l.held s) (hE : ∀ e l, E e l)
    (hno : ∀ m f, m.dying = l.dying → Q (false, f) m)
    (hyes : ∀ m css, m.file = l.file → m.dying = l.dying → (css.flatten.map FileBlock.slot).Nodup →
      (∀ s, m.held s ↔ s ∈ css.flatten.map FileBlock.slot) → Q (true, { file with blocks := css }) m) :
    (filesystemDistributeBlocksToNodes sort bs file).Ok (threadSpec mode t) Q E l := by
  simp only [filesystemDistributeBlocksToNodes, Prog.ok_bind, hfile]
  refine getAllActivatedNodes_turn hE fun nodes N hn hF hN => ?_
  have hNid : (N.map Node.id).Nodup := hn.sublist (hN.map _)
  have hNF : ∀ n ∈ N, n.Fits := fun n h => hF n (hN.subset h)
  set p := bs.foldl (createSendOperations sort) ⟨N, [], [], true⟩
  split
  case isFalse => exact hno _ _ rfl
  case isTrue hsucc =>
    have hp := plan_ok hNid hNF sort bs hsucc
    have hsend : ∀ (failed : Bool) op, Quiet (do
        let sent ← connectionsNodeSendBlock op
        pure (failed || !sent)) := fun _ _ => Prog.only_bind (quiet_request rfl) fun _ => trivial
    rw [Prog.ok_bind]
    refine Quiet.ok (Prog.only_foldlM hsend _ _) (fun e => hE e _) fun failed => ?_
    cases failed with
    | true => exact hno _ _ rfl
    | false =>
      simp only [Bool.false_eq_true, if_false, Prog.ok_bind]
      refine updateNodes_turn (l := { l with seen := look l.seen .nodeAll nodes }) hNid hNF hp.planned
        (fun n h => look_nodeAll hn (hN.subset h)) hheld fun m hfile hdying hm => ?_
      rw [hp.slots] at hm
      exact hyes m p.blocks hfile hdying (hp.slots ▸ hp.planned.nodup) hm

/-- Freeing a slot that the thread holds. -/
theorem setFree_turn {n : Node} {i : ℕ} {Q : Unit → Ghost → Prop} (hn : l.seen n.id = some n) (hF : n.Fits)
    (hheld : l.held (n.id, i))
    (hQ : ∀ m : Ghost, m.file = l.file → m.dying = l.dying → (∀ s, s ≠ (n.id, i) → l.held s → m.held s) →
      Q () m) : (mongoNodeUpdateBlocks (nodeSetBlockFree n i)).Ok (threadSpec mode t) Q E l := by
  rw [nodeSetBlockFree_eq hF]
  have hseen : l.seen (n.withBits (unmark [(n.id, i)])).id = some n := hn
  have hbit : ∀ j, j ≠ i → n.blocks.testBit j = true →
      (n.withBits (unmark [(n.id, i)])).blocks.testBit j = true := by
    intro j hj hb
    rw [Node.testBit_withBits (Bitarray.lt_of_testBit hb)]
    simp [hb, hj]
  have hsub : ∀ j, (n.withBits (unmark [(n.id, i)])).blocks.testBit j = true → n.blocks.testBit j = true := by
    intro j hb
    have hj : j < 8 * n.blocks.size := Bitarray.lt_of_testBit (a := (n.withBits _).blocks) hb
    rw [Node.testBit_withBits hj, unmark_eq_true] at hb
    exact hb.1
  simp only [mongoNodeUpdateBlocks, ok_turn, Prog.ok_ret]
  refine ⟨⟨n, hseen, rfl, hF.withBits fun j hj => Or.inl (unmark_eq_true.1 hj).1, fun j hj => ?_⟩,
    fun _ _ => hQ _ rfl rfl fun s hs hl => ?_⟩
  · by_cases hji : j = i
    · subst hji; exact Or.inr hheld
    · exact Or.inl (hbit j hji hj)
  · rw [held_drop hseen hsub]
    refine ⟨hl, fun hid hb => hbit s.2 (fun hi => hs (Prod.ext hid hi)) hb⟩

/-- The loop over the copies of a file whose slots the thread holds. -/
theorem freeBlockCopies_turn {blocks : List (List FileBlock)} {Q : Unit → Ghost → Prop} (hE : ∀ e l, E e l)
    (hn : (blocks.flatten.map FileBlock.slot).Nodup) (hheld : ∀ s ∈ blocks.flatten.map FileBlock.slot, l.held s)
    (hQ : ∀ m : Ghost, m.file = l.file → m.dying = l.dying → Q () m) :
    (Prog.iterate (Prog.iterate freeBlockCopy) blocks).Ok (threadSpec mode t) Q E l := by
  rw [Prog.iterate_flatten]
  -- the slots of the copies to come are still held
  refine (Prog.ok_iterate (K := fun done m => m.file = l.file ∧ m.dying = l.dying ∧
    ∀ s ∈ blocks.flatten.map FileBlock.slot, s ∉ done.map FileBlock.slot → m.held s) blocks.flatten ?_
    ⟨rfl, rfl, fun s hs _ => hheld s hs⟩).imp fun _ m hK => hQ m hK.1 hK.2.1
  intro done c rest m hd hK
  obtain ⟨hfile, hdying, hm⟩ := hK
  have hfresh : c.slot ∉ done.map FileBlock.slot := by
    have := hd ▸ hn
    simp only [List.map_append, List.map_cons, List.nodup_append] at this
    exact fun h => this.2.2 _ h _ (by simp) rfl
  simp only [freeBlockCopy, filesystemGetNodeById, mongoNodeGetById, Prog.ok_bind, ok_turn, Prog.ok_ret]
  refine ⟨trivial, fun x hx => ?_⟩
  cases x with
  | none => exact hE _ _
  | some n =>
    obtain ⟨hid, hF⟩ := hx n rfl
    have hslot : (n.id, c.blockIndex.toNat) = c.slot := by rw [hid]; rfl
    refine setFree_turn ?_ hF ?_ fun m' hfile' hdying' hm' => ⟨hfile'.trans hfile, hdying'.trans hdying,
      fun s hs hnot => hm' s ?_ (hm s hs fun h => hnot (by simp [h]))⟩
    · simp [Ghost.move, look, hid]
    · rw [hslot]
      exact hm _ (hd ▸ by simp) hfresh
    · rintro rfl
      exact hnot (by simp [hslot])

theorem fileSave_turn {file : File} {Q : Bool × File → Ghost → Prop} (hn : file.slots.Nodup)
    (hheld : ∀ s ∈ file.slots, l.held s) (hE : ∀ e l, E e l) (hno : ∀ id, Q (false, { file with id := id }) l)
    (hyes : ∀ id m, m.dying = l.dying → Q (true, { file with id := id }) m) :
    (mongoFileSave file).Ok (threadSpec mode t) Q E l := by
  simp only [mongoFileSave, mongoGenerateId, Prog.ok_bind]
  refine Quiet.ok (quiet_request rfl) (fun e => hE e l) fun id => ?_
  simp only [ok_turn, Prog.ok_ret, Prog.ok_pure]
  refine ⟨⟨hn, hheld⟩, fun saved _ => ?_⟩
  cases saved with
  | true => exact hyes id _ rfl
  | false => exact hno id

/-! ## The threads -/

/-- A thread that owns nothing. -/
def Ghost.start : Ghost := ⟨fun _ => none, fun _ => False, none, none⟩

theorem copyFileFromFS_turn {route : CStr} {file : File} (hfile : file.blocks = []) :
    (filesystemCopyFileFromFS sort route file).Ok (threadSpec .importing 0) (fun _ m => m.dying = none)
      (fun _ _ => True) .start := by
  simp only [filesystemCopyFileFromFS, Prog.ok_bind]
  refine canCreateResource_turn fun b => ?_
  cases b with
  | false => rfl
  | true =>
    simp only [if_true, Prog.ok_bind]
    refine Quiet.ok (quiet_getFSFileBlocks route) (fun _ => trivial) fun x => ?_
    cases x with
    | none => rfl
    | some x =>
      simp only [Prog.ok_bind]
      refine distribute_turn hfile (fun _ => id) (fun _ _ => trivial) (fun m _ h => h) fun m css hf hd hn hm => ?_
      simp only [if_true, Prog.ok_bind]
      refine fileSave_turn hn (fun s => (hm s).2) (fun _ _ => trivial) (fun id => ?_) fun id m' h => h.trans hd
      simp only [Bool.false_eq_true, if_false, filesystemDeleteFile, Prog.ok_bind]
      refine freeBlockCopies_turn (fun _ _ => trivial) hn (fun s => (hm s).2) fun m' hf' hd' => ?_
      simp only [mongoFileDeleteById, ok_turn, Prog.ok_ret]
      exact ⟨⟨rfl, hf'.trans hf, Or.inl (hd'.trans hd)⟩, fun _ _ => rfl⟩

theorem copyTmpFileToMDFS_turn {nodeId tmpName path : CStr} {reason : UInt8} :
    (filesystemCopyTmpFileToMDFS sort nodeId tmpName path reason).Ok (threadSpec .importing t)
      (fun _ m => m.dying = none) (fun _ _ => True) .start := by
  simp only [filesystemCopyTmpFileToMDFS, distributeTmpFile, Prog.ok_bind]
  refine Quiet.ok (quiet_getFileName path) (fun _ => trivial) fun name => ?_
  refine Quiet.ok (quiet_resultParentId path name) (fun _ => trivial) fun parent => ?_
  cases parent with
  | none => rfl
  | some parentId =>
    simp only [Prog.ok_bind]
    refine canCreateResource_turn fun b => ?_
    cases b with
    | false => rfl
    | true =>
      simp only [if_true, connectionsNodeGetFileContent, Prog.ok_bind]
      refine Quiet.ok (quiet_request rfl) (fun _ => trivial) fun content => ?_
      rcases content with _ | ⟨_ | ⟨b, content⟩⟩
      · rfl
      · trivial
      · simp only [Prog.ok_bind]
        refine Quiet.ok (quiet_blocksOrStop _) (fun _ => trivial) fun blocks => ?_
        refine distribute_turn rfl (fun _ => id) (fun _ _ => trivial) (fun m _ h => h)
          fun m css _ hd hn hm => ?_
        simp only [if_true, Prog.ok_pure, saveTmpFileOrCrash, Prog.ok_bind]
        exact fileSave_turn hn (fun s => (hm s).2) (fun _ _ => trivial) (fun _ => trivial)
          fun id m' h => h.trans hd

theorem makeNewFileBlockCopy_turn {file : Option File} {b : UInt16} (hl : l.file = file) (hd : l.dying = none) :
    (filesystemMakeNewFileBlockCopy sort file b).Ok (threadSpec .changing 0) (fun _ m => m.dying = none)
      (fun _ _ => True) l := by
  simp only [filesystemMakeNewFileBlockCopy, makeNewFileBlockCopyInMemory, Prog.ok_bind]
  cases file with
  | none => exact hd
  | some f =>
    simp only
    cases hcs : f.blocks[b.toNat]? with
    | none => exact hd
    | some cs =>
      simp only [Prog.ok_bind]
      refine Quiet.ok (quiet_firstBlockGot cs) (fun _ => trivial) fun block => ?_
      cases block with
      | none => exact hd
      | some block =>
        simp only [Prog.ok_bind]
        refine getAllActivatedNodes_turn (fun _ _ => trivial) fun nodes N hnodup hF hN => ?_
        cases hn : (sort.sort N).find? fun node => !cs.any fun c => c.nodeId = node.id with
        | none => exact hd
        | some n =>
          have hmem : n ∈ nodes := hN.subset ((sort.perm N).mem_iff.1 (List.mem_of_find?_eq_some hn))
          simp only
          cases hk : nodeGetFirstFreeBlock n with
          | none => exact hd
          | some k =>
            obtain ⟨hlt, hbit⟩ := firstFree_spec hk
            have hk' : k.toUInt16.toNat = k := by
              simpa using Nat.mod_eq_of_lt (lt_trans hlt (UInt16.toNat_lt _))
            simp only [connectionsNodeSendBlock, Prog.ok_bind]
            refine Quiet.ok (quiet_request rfl) (fun _ => trivial) fun sent => ?_
            cases sent with
            | false => exact hd
            | true =>
              simp only [if_true, Prog.ok_bind]
              rw [nodeSetBlockUsed_eq ((hF n hmem).bit_lt hlt) hlt]
              -- the chosen bit is clear in the bitmap just read, so the thread takes the slot by writing it
              set n' := n.withBits (mark [(n.id, k)])
              have hset : ∀ i, n.blocks.testBit i = true → n'.blocks.testBit i = true := by
                intro i hi
                rw [Node.testBit_withBits (Bitarray.lt_of_testBit hi)]
                simp [hi]
              have hfits : n'.Fits := (hF n hmem).withBits fun i hi =>
                (mark_eq_true.1 hi).imp_right fun h => by simp at h; omega
              have hseen : look l.seen .nodeAll nodes n'.id = some n := look_nodeAll hnodup hmem
              simp only [mongoNodeUpdateBlocks, mongoFileAddBlockCopyToFile, ok_turn, Prog.ok_ret, Prog.ok_pure]
              refine ⟨⟨n, hseen, rfl, hfits, fun i hi => Or.inl (hset i hi)⟩, fun _ _ =>
                ⟨⟨rfl, ?_, f, cs, hl, rfl, hcs⟩, fun _ _ => hd⟩⟩
              rw [held_take (l := { l with seen := look l.seen .nodeAll nodes }) hseen hset]
              refine Or.inr ⟨rfl, ?_, ?_⟩
              · simp only [FileBlock.slot, hk']
                rw [Node.testBit_withBits ((hF n hmem).bit_lt hlt)]
                simp
              · simpa [FileBlock.slot, hk'] using hbit

theorem deleteFileBlockCopy_turn {file : Option File} {b i : UInt16} (hl : l.file = file) (hd : l.dying = none) :
    (filesystemDeleteFileBlockCopy file b i).Ok (threadSpec .changing 0) (fun _ m => m.dying = none)
      (fun _ _ => True) l := by
  unfold filesystemDeleteFileBlockCopy
  cases file with
  | none => exact hd
  | some f =>
    simp only
    cases hcs : f.blocks[b.toNat]? with
    | none => exact hd
    | some cs =>
      simp only
      cases hcopy : cs[i.toNat]? with
      | none => exact hd
      | some c =>
        simp only [mongoFileDeleteBlockCopy, filesystemGetNodeById, mongoNodeGetById, ok_turn, Prog.ok_bind,
          Prog.ok_ret]
        refine ⟨⟨rfl, f, cs, hl, rfl, hcs, List.mem_of_getElem? hcopy⟩, fun _ _ => ⟨trivial, fun x hx => ?_⟩⟩
        cases x with
        | none => exact hd
        | some n =>
          obtain ⟨hid, hF⟩ := hx n rfl
          simp only [Prog.ok_bind, Prog.ok_pure]
          refine setFree_turn ?_ hF ?_ fun m _ hdying _ => hdying.trans hd
          · simp [Ghost.move, look, hid]
          · exact Or.inr (by rw [hid]; rfl)

/-- **Every console operation meets the specification of its thread.** -/
theorem console_turn (op : Operation) (hop : op.ofConsole = true) :
    (op.prog sort).Ok (threadSpec op.mode 0) (fun _ m => m.dying = none) (fun _ _ => True) .start := by
  cases op <;> simp only [Operation.ofConsole, Bool.false_eq_true] at hop <;>
    simp only [Operation.prog, Operation.mode, Prog.ok_bind, Prog.ok_pure]
  case copyFileFromFS route name parentId => exact copyFileFromFS_turn rfl
  case makeNewFileBlockCopy name parentId b =>
    simp only [filesystemGetFileByNameInDir, mongoFileGetByNameInDir, ok_turn, Prog.ok_ret]
    refine ⟨⟨rfl, rfl, rfl, fun _ => id⟩, fun file _ => ?_⟩
    exact makeNewFileBlockCopy_turn rfl rfl
  case deleteFileBlockCopy name parentId b i =>
    simp only [filesystemGetFileByNameInDir, mongoFileGetByNameInDir, ok_turn, Prog.ok_ret]
    refine ⟨⟨rfl, rfl, rfl, fun _ => id⟩, fun file _ => ?_⟩
    exact deleteFileBlockCopy_turn rfl rfl
  case deleteFile name parentId =>
    simp only [filesystemGetFileByNameInDir, mongoFileGetByNameInDir, ok_turn, Prog.ok_ret]
    refine ⟨⟨rfl, rfl, rfl, fun _ => id⟩, fun file hfile => ?_⟩
    cases file with
    | none => rfl
    | some f =>
      simp only [filesystemDeleteFile, Prog.ok_bind]
      refine freeBlockCopies_turn (fun _ _ => trivial) (hfile f rfl) (fun s hs => hs) fun m hf hd => ?_
      simp only [mongoFileDeleteById, ok_turn, Prog.ok_ret]
      exact ⟨⟨rfl, hf, Or.inr hd⟩, fun _ _ => rfl⟩

/-! ## The invariant of the pool -/

/-- The slots of the recorded copies, but for those of a file that is being deleted. -/
def World.live (w : World) (dying : Option Oid) : List Slot :=
  (w.files.docs.filter fun f => some f.id ≠ dying).flatMap File.slots

theorem live_none (w : World) : w.live none = w.slots := by simp [World.live, World.slots]

/-- **Every slot has one owner**: a recorded copy, or the thread that holds it. -/
structure Shared (x : Watched) (g : ℕ → Ghost) : Prop where
  seen : ∀ t, x.seen t = (g t).seen
  fits : x.world.Fits
  nodup : (x.world.live (g 0).dying).Nodup
  used : ∀ s ∈ x.world.live (g 0).dying, x.world.Used s
  held : ∀ t s, (g t).held s → x.world.Used s ∧ s ∉ x.world.live (g 0).dying
  apart : ∀ t v s, t ≠ v → (g t).held s → ¬(g v).held s
  file : ∀ f, (g 0).file = some f → f ∈ x.world.files.docs ∧ (g 0).dying = none

variable {x u : Watched} {g : ℕ → Ghost} {m : Ghost}

/-- The invariant after a request of thread `t`, from what it says of `t` and of
the threads that do not move. -/
theorem Shared.turn (h : Shared x g) {D : Option Oid} (hD : (Function.update g t m 0).dying = D)
    (hseen : u.seen = Function.update x.seen t m.seen) (hfits : u.world.Fits)
    (hnodup : (u.world.live D).Nodup) (hused : ∀ s ∈ u.world.live D, u.world.Used s)
    (hown : ∀ s, m.held s → u.world.Used s ∧ s ∉ u.world.live D ∧ ∀ v ≠ t, ¬(g v).held s)
    (hothers : ∀ v ≠ t, ∀ s, (g v).held s → u.world.Used s ∧ s ∉ u.world.live D)
    (hfile : ∀ f, (Function.update g t m 0).file = some f → f ∈ u.world.files.docs ∧ D = none) :
    Shared u (Function.update g t m) := by
  refine ⟨fun v => ?_, hfits, hD ▸ hnodup, hD ▸ hused, fun v s hs => ?_, fun v v' s hv hs => ?_, hD ▸ hfile⟩
  · rw [hseen]
    by_cases hv : v = t
    · subst hv; simp
    · simp [Function.update_of_ne hv, h.seen v]
  · rw [hD]
    by_cases hv : v = t
    · subst hv
      rw [Function.update_self] at hs
      exact ⟨(hown s hs).1, (hown s hs).2.1⟩
    · rw [Function.update_of_ne hv] at hs
      exact hothers v hv s hs
  · by_cases hvt : v = t
    · subst hvt
      rw [Function.update_self] at hs
      rw [Function.update_of_ne (Ne.symm hv)]
      exact (hown s hs).2.2 v' (Ne.symm hv)
    · rw [Function.update_of_ne hvt] at hs
      by_cases hvt' : v' = t
      · subst hvt'
        rw [Function.update_self]
        exact fun hs' => (hown s hs').2.2 v hvt hs
      · rw [Function.update_of_ne hvt']
        exact h.apart v v' s hv hs

theorem update_zero {β : Type} {P : Ghost → β} (h : P m = P (g t)) : P (Function.update g t m 0) = P (g 0) := by
  by_cases ht : t = 0
  · subst ht; rw [Function.update_self, h]
  · rw [Function.update_of_ne (Ne.symm ht)]

/-- A request that changes neither the files nor the bitmaps, of a thread that
keeps what it owns. -/
theorem Shared.look (h : Shared x g) (hf : u.world.files = x.world.files) (hn : u.world.nodes = x.world.nodes)
    (hseen : u.seen = Function.update x.seen t m.seen) (hm : m.held = (g t).held)
    (hd : m.dying = (g t).dying) (hfile : m.file = (g t).file) : Shared u (Function.update g t m) := by
  have hlive : ∀ D, u.world.live D = x.world.live D := fun D => by simp only [World.live, hf]
  have hus : ∀ s, u.world.Used s ↔ x.world.Used s := fun s => by simp only [World.Used, hn]
  refine h.turn (D := (g 0).dying) (update_zero hd) hseen ?_ ?_ ?_ ?_ ?_ ?_
  · simp only [World.Fits, hn]; exact h.fits
  · rw [hlive]; exact h.nodup
  · intro s hs
    rw [hus]
    exact h.used s (hlive _ ▸ hs)
  · intro s hs
    rw [hm] at hs
    rw [hus, hlive]
    exact ⟨(h.held t s hs).1, (h.held t s hs).2, fun v hv => h.apart t v s (Ne.symm hv) hs⟩
  · intro v _ s hs
    rw [hus, hlive]
    exact h.held v s hs
  · intro f hf'
    rw [update_zero hfile] at hf'
    rw [hf]
    exact h.file f hf'

theorem mem_live {w : World} {D : Option Oid} {s : Slot} :
    s ∈ w.live D ↔ ∃ f ∈ w.files.docs, some f.id ≠ D ∧ s ∈ f.slots := by
  simp [World.live, and_assoc]

theorem live_sublist (w : World) (D : Option Oid) : (w.live D).Sublist w.slots :=
  List.filter_sublist.flatMap File.slots

/-- The slots of a file are set apart when its deletion begins. -/
theorem Shared.load (h : Shared x g) {f : File} (hf : f ∈ x.world.files.docs) (hd : (g 0).dying = none)
    (hfile : (g 0).file = none) :
    Shared x (Function.update g 0 { g 0 with held := fun s => s ∈ f.slots, dying := some f.id }) := by
  have hn := h.nodup
  have hu := h.used
  have hh := h.held
  simp only [hd, live_none] at hn hu hh
  obtain ⟨A, B, hAB, -, -⟩ := Collection.split hf
  have hin : ∀ s ∈ f.slots, s ∈ x.world.slots := fun s hs => List.mem_flatMap.2 ⟨f, hf, hs⟩
  -- no other file has one of its slots
  have hout : ∀ s ∈ f.slots, s ∉ x.world.live (some f.id) := by
    intro s hs hlive
    obtain ⟨f', hf', hne, hs'⟩ := mem_live.1 hlive
    have hff : f' ∈ A ∨ f' ∈ B := by
      rw [hAB] at hf'
      rcases List.mem_append.1 hf' with hf' | hf'
      · exact Or.inl hf'
      · rcases List.mem_cons.1 hf' with rfl | hf'
        · exact absurd rfl hne
        · exact Or.inr hf'
    simp only [World.slots, hAB, List.flatMap_append, List.flatMap_cons, List.nodup_append] at hn
    rcases hff with hf' | hf'
    · exact hn.2.2 s (List.mem_flatMap.2 ⟨f', hf', hs'⟩) s (List.mem_append_left _ hs) rfl
    · exact hn.2.1.2.2 s hs s (List.mem_flatMap.2 ⟨f', hf', hs'⟩) rfl
  refine h.turn (D := some f.id) (by simp) ?_ h.fits (hn.sublist (live_sublist _ _)) ?_ ?_ ?_ ?_
  · exact (Function.update_eq_self_iff.2 (h.seen 0).symm).symm
  · exact fun s hs => hu s ((live_sublist _ _).subset hs)
  · exact fun s hs => ⟨hu s (hin s hs), hout s hs, fun v _ hs' => (hh v s hs').2 (hin s hs)⟩
  · exact fun v _ s hs => ⟨(hh v s hs).1, fun hs' => (hh v s hs).2 ((live_sublist _ _).subset hs')⟩
  · intro f' hf'
    rw [Function.update_self] at hf'
    rw [hfile] at hf'
    cases hf'

/-- A change of the files alone that keeps the live slots, up to some that the
thread held (`hgain`) or that it holds from now on (`hloss`). -/
theorem Shared.files (h : Shared x g) {D : Option Oid} (hD : (Function.update g t m 0).dying = D)
    (hn : u.world.nodes = x.world.nodes) (hseen : u.seen = x.seen) (hm : m.seen = (g t).seen)
    (hnodup : (u.world.live D).Nodup)
    (hgain : ∀ s ∈ u.world.live D, s ∈ x.world.live (g 0).dying ∨ (g t).held s)
    (hloss : ∀ s, m.held s → ((g t).held s ∨ s ∈ x.world.live (g 0).dying) ∧ s ∉ u.world.live D)
    (hfile : ∀ f, (Function.update g t m 0).file = some f → f ∈ u.world.files.docs ∧ D = none) :
    Shared u (Function.update g t m) := by
  have hus : ∀ s, u.world.Used s ↔ x.world.Used s := fun s => by simp only [World.Used, hn]
  refine h.turn hD ?_ ?_ hnodup ?_ ?_ ?_ hfile
  · rw [hseen, hm, ← h.seen t, Function.update_eq_self]
  · simp only [World.Fits, hn]; exact h.fits
  · intro s hs
    rw [hus]
    rcases hgain s hs with hs | hs
    · exact h.used s hs
    · exact (h.held t s hs).1
  · intro s hs
    rw [hus]
    obtain ⟨hs | hs, hnot⟩ := hloss s hs
    · exact ⟨(h.held t s hs).1, hnot, fun v hv => h.apart t v s (Ne.symm hv) hs⟩
    · exact ⟨h.used s hs, hnot, fun v _ hv => (h.held v s hv).2 hs⟩
  · intro v hv s hs
    rw [hus]
    refine ⟨(h.held v s hs).1, fun hlive => ?_⟩
    rcases hgain s hlive with hs' | hs'
    · exact (h.held v s hs).2 hs'
    · exact h.apart v t s hv hs hs'

/-- **Writing a bitmap back** that is up to date. -/
theorem Shared.write (h : Shared x g) {n n' : Node} (hmem : n' ∈ x.world.nodes.docs) (hid : n'.id = n.id)
    (hc : n.blocksCount = n'.blocksCount) (hF : n.Fits)
    (hb : ∀ i, n'.blocks.testBit i = true → n.blocks.testBit i = true ∨ (g t).held (n.id, i))
    (hw : u.world = { x.world with nodes := x.world.nodes.update n.id (Node.setBlocks n) })
    (hseen : u.seen = Function.update x.seen t m.seen) (hd : m.dying = (g t).dying) (hfile : m.file = (g t).file)
    (hm : ∀ s, m.held s ↔ ((g t).held s ∧ (s.1 = n.id → n'.blocks.testBit s.2 = true →
        n.blocks.testBit s.2 = true)) ∨
      (s.1 = n.id ∧ n.blocks.testBit s.2 = true ∧ n'.blocks.testBit s.2 = false)) :
    Shared u (Function.update g t m) := by
  have hset : Node.setBlocks n n' = n := by
    cases n; cases n'
    simp only [Node.setBlocks, Node.mk.injEq] at hid ⊢
    exact ⟨hid, trivial, trivial⟩
  have hdocs : u.world.nodes.docs = x.world.nodes.docs.map fun a => if a.id = n.id then n else a := by
    rw [hw]
    refine (docs_setBlocks _ _ _).trans (rewrite_setBlocks fun a ha haid => ?_)
    rw [Collection.eq_of_key ha hmem (haid.trans hid.symm), hset]
  have hlive : ∀ D, u.world.live D = x.world.live D := fun D => by simp only [World.live, hw]
  -- what is used on the node is what the thread wrote; elsewhere nothing changed
  have hold : ∀ s, x.world.Used s → s.1 = n.id → n'.blocks.testBit s.2 = true := by
    rintro s ⟨a, ha, haid, hbit⟩ hs
    rwa [Collection.eq_of_key ha hmem (haid.trans (hs.trans hid.symm))] at hbit
  have hon : ∀ s, s.1 = n.id → n.blocks.testBit s.2 = true → u.world.Used s := fun s hs hbit =>
    ⟨n, by rw [hdocs]; exact List.mem_map.2 ⟨n', hmem, if_pos hid⟩, hs.symm, hbit⟩
  have hoff : ∀ s, s.1 ≠ n.id → x.world.Used s → u.world.Used s := by
    rintro s hs ⟨a, ha, haid, hbit⟩
    refine ⟨a, ?_, haid, hbit⟩
    rw [hdocs]
    exact List.mem_map.2 ⟨a, ha, if_neg (haid ▸ hs)⟩
  -- a bit is cleared only where the thread holds the slot
  have hkeep : ∀ s, x.world.Used s → ¬(g t).held s → u.world.Used s := by
    intro s hs hnot
    by_cases hsn : s.1 = n.id
    · refine hon s hsn ((hb s.2 (hold s hs hsn)).resolve_right fun hheld => hnot ?_)
      rwa [← hsn] at hheld
    · exact hoff s hsn hs
  refine h.turn (D := (g 0).dying) (update_zero hd) hseen ?_ ?_ ?_ ?_ ?_ ?_
  · intro a ha
    rw [hdocs] at ha
    obtain ⟨b, hb', rfl⟩ := List.mem_map.1 ha
    split
    · exact hF
    · exact h.fits b hb'
  · rw [hlive]; exact h.nodup
  · intro s hs
    rw [hlive] at hs
    exact hkeep s (h.used s hs) fun hheld => (h.held t s hheld).2 hs
  · intro s hs
    rw [hlive]
    rcases (hm s).1 hs with ⟨hheld, hbit⟩ | ⟨hsn, hnew, hfree⟩
    · refine ⟨?_, (h.held t s hheld).2, fun v hv => h.apart t v s (Ne.symm hv) hheld⟩
      have hus := (h.held t s hheld).1
      by_cases hsn : s.1 = n.id
      · exact hon s hsn (hbit hsn (hold s hus hsn))
      · exact hoff s hsn hus
    -- a bit that was clear belonged to nobody
    · have hnot : ¬x.world.Used s := fun hus => by rw [hold s hus hsn] at hfree; cases hfree
      exact ⟨hon s hsn hnew, fun hs' => hnot (h.used s hs'), fun v _ hv => hnot (h.held v s hv).1⟩
  · intro v hv s hs
    rw [hlive]
    exact ⟨hkeep s (h.held v s hs).1 (h.apart v t s hv hs), (h.held v s hs).2⟩
  · intro f hf
    rw [update_zero hfile] at hf
    rw [hw]
    exact h.file f hf

/-- Storing a file in slots that the thread holds. -/
theorem Shared.insert (h : Shared x g) {f : File} (hn : f.slots.Nodup) (hheld : ∀ s ∈ f.slots, (g t).held s)
    (hw : u.world.files.docs = x.world.files.docs ++ [f]) (hnodes : u.world.nodes = x.world.nodes)
    (hseen : u.seen = x.seen) :
    Shared u (Function.update g t { g t with held := fun s => (g t).held s ∧ s ∉ f.slots }) := by
  have hlive : ∀ s, s ∈ u.world.live (g 0).dying → s ∈ x.world.live (g 0).dying ∨ s ∈ f.slots := by
    intro s hs
    obtain ⟨f', hf', hne, hs'⟩ := mem_live.1 hs
    rcases List.mem_append.1 (hw ▸ hf') with hf' | hf'
    · exact Or.inl (mem_live.2 ⟨f', hf', hne, hs'⟩)
    · exact Or.inr (List.mem_singleton.1 hf' ▸ hs')
  refine h.files (D := (g 0).dying) (update_zero (P := Ghost.dying) rfl) hnodes hseen rfl ?_ ?_ ?_ ?_
  · have hsub : (u.world.live (g 0).dying).Sublist (x.world.live (g 0).dying ++ f.slots) := by
      simp only [World.live, hw, List.filter_append, List.flatMap_append]
      refine (List.Sublist.refl _).append ?_
      rw [List.filter_singleton]
      cases decide (some f.id ≠ (g 0).dying) <;> simp
    refine List.Nodup.sublist hsub (List.nodup_append.2 ⟨h.nodup, hn, ?_⟩)
    rintro s hs _ hs' rfl
    exact (h.held t s (hheld s hs')).2 hs
  · exact fun s hs => (hlive s hs).imp_right (hheld s)
  · rintro s ⟨hs, hnot⟩
    refine ⟨Or.inl hs, fun hs' => ?_⟩
    rcases hlive s hs' with hs' | hs'
    · exact (h.held t s hs).2 hs'
    · exact hnot hs'
  · intro f' hf'
    obtain ⟨hmem, hd⟩ := h.file f' (Eq.trans (Eq.symm (update_zero (P := Ghost.file) (by rfl))) hf')
    exact ⟨hw ▸ List.mem_append_left _ hmem, hd⟩

/-- Recording a copy in a slot that the console holds. -/
theorem Shared.addCopy (h : Shared x g) {f : File} {b : ℕ} {cs : List FileBlock} {c : FileBlock}
    (hfile : (g 0).file = some f) (hcs : f.blocks[b]? = some cs) (hheld : (g 0).held c.slot)
    (hw : u.world.files = x.world.files.update f.id (File.addCopy b c)) (hnodes : u.world.nodes = x.world.nodes)
    (hseen : u.seen = x.seen) :
    Shared u (Function.update g 0 { g 0 with file := none, held := fun s => (g 0).held s ∧ s ≠ c.slot }) := by
  obtain ⟨hf, hd⟩ := h.file f hfile
  have hn := h.nodup
  have hnot := (h.held 0 c.slot hheld).2
  have hh := fun s hs => (h.held 0 s hs).2
  simp only [hd, live_none] at hn hnot hh
  have hnew : c ∉ cs := fun hm =>
    hnot (mem_slots_of_copy hf (List.mem_flatten.2 ⟨cs, List.mem_of_getElem? hcs, hm⟩))
  have hperm : (u.world.live none).Perm (c.slot :: x.world.slots) := by
    rw [live_none, World.slots, hw]; exact slots_addCopy hf hcs hnew
  refine h.files (D := none) (by rw [Function.update_self]; exact hd) hnodes hseen rfl ?_ ?_ ?_ ?_
  · rw [hperm.nodup_iff, List.nodup_cons]
    exact ⟨hnot, hn⟩
  · intro s hs
    rw [hd, live_none]
    rcases List.mem_cons.1 (hperm.mem_iff.1 hs) with rfl | hs
    · exact Or.inr hheld
    · exact Or.inl hs
  · rintro s ⟨hs, hne⟩
    refine ⟨Or.inl hs, fun hs' => ?_⟩
    rcases List.mem_cons.1 (hperm.mem_iff.1 hs') with hs' | hs'
    · exact hne hs'
    · exact hh s hs hs'
  · intro f' hf'
    rw [Function.update_self] at hf'
    cases hf'

/-- Dropping a recorded copy, whose slot the console holds from then on. -/
theorem Shared.pullCopy (h : Shared x g) {f : File} {b : ℕ} {cs : List FileBlock} {c : FileBlock}
    (hfile : (g 0).file = some f) (hcs : f.blocks[b]? = some cs) (hc : c ∈ cs)
    (hw : u.world.files = x.world.files.update f.id (File.pullCopy b c)) (hnodes : u.world.nodes = x.world.nodes)
    (hseen : u.seen = x.seen) :
    Shared u (Function.update g 0 { g 0 with file := none, held := fun s => (g 0).held s ∨ s = c.slot }) := by
  obtain ⟨hf, hd⟩ := h.file f hfile
  have hn := h.nodup
  have hh := fun s hs => (h.held 0 s hs).2
  simp only [hd, live_none] at hn hh
  have hin := mem_slots_of_copy hf (List.mem_flatten.2 ⟨cs, List.mem_of_getElem? hcs, hc⟩)
  obtain ⟨hsub, hmem⟩ := slots_pullCopy hn hf hcs hc
  have hlive : u.world.live none = (x.world.files.update f.id (File.pullCopy b c)).docs.flatMap File.slots := by
    rw [live_none, World.slots, hw]
  refine h.files (D := none) (by rw [Function.update_self]; exact hd) hnodes hseen rfl ?_ ?_ ?_ ?_
  · rw [hlive]; exact hn.sublist hsub
  · intro s hs
    rw [hd, live_none]
    rw [hlive] at hs
    exact Or.inl (hsub.subset hs)
  · intro s hs
    rw [hd, live_none, hlive, hmem]
    rcases hs with hs | rfl
    · exact ⟨Or.inl hs, fun hs' => hh s hs hs'.1⟩
    · exact ⟨Or.inr hin, fun hs' => hs'.2 rfl⟩
  · intro f' hf'
    rw [Function.update_self] at hf'
    cases hf'

/-- Removing the file that is being deleted, or one that no thread works on. -/
theorem Shared.delete (h : Shared x g) {id : Oid} (hfile : (g 0).file = none)
    (hd : (g 0).dying = none ∨ (g 0).dying = some id)
    (hw : u.world.files = x.world.files.remove fun f => f.id = id) (hnodes : u.world.nodes = x.world.nodes)
    (hseen : u.seen = x.seen) : Shared u (Function.update g 0 { g 0 with dying := none }) := by
  have hsub : (u.world.live none).Sublist (x.world.live (g 0).dying) := by
    rw [live_none, World.slots, World.live, hw]
    refine (List.monotone_filter_right _ fun f hf => ?_).flatMap File.slots
    rcases hd with hd | hd
    · simp [hd]
    · simpa [hd] using hf
  refine h.files (D := none) (by simp) hnodes hseen rfl (h.nodup.sublist hsub)
    (fun s hs => Or.inl (hsub.subset hs)) (fun s hs => ⟨Or.inl hs, fun hs' => (h.held 0 s hs).2 (hsub.subset hs')⟩) ?_
  intro f' hf'
  rw [Function.update_self] at hf'
  rw [hfile] at hf'
  cases hf'

/-- A thread knows what it has seen. -/
theorem move_seen {r : Req} {a : Resp r} : (l.move mode r a).seen = look l.seen r a := by
  cases r <;> try rfl
  case fileByName name p => cases mode <;> cases a <;> rfl
  case fileInsert f => cases a <;> rfl

/-- The file that is changed next. -/
theorem Shared.change (h : Shared x g) {f : File} (hf : f ∈ x.world.files.docs) (hd : (g 0).dying = none)
    (hheld : ∀ s, ¬(g 0).held s) : Shared x (Function.update g 0 { g 0 with file := some f }) := by
  refine h.files (D := none) (by rw [Function.update_self]; exact hd) rfl rfl rfl ?_ ?_ ?_ ?_
  · exact hd ▸ h.nodup
  · exact fun s hs => Or.inl (hd.symm ▸ hs)
  · exact fun s hs => absurd hs (hheld s)
  · intro f' hf'
    rw [Function.update_self] at hf'
    cases hf'
    exact ⟨hf, rfl⟩

/-- While no file is being deleted, a stored file has no slot twice. -/
theorem Shared.nodup_slots (h : Shared x g) {f : File} (hf : f ∈ x.world.files.docs) (hd : (g 0).dying = none) :
    f.slots.Nodup := by
  have hn := h.nodup
  rw [hd, live_none] at hn
  exact (List.nodup_flatMap.1 hn).1 f hf

/-- Looking a file up: an import does it for its name alone, a deletion to take
its slots, the other operations to change it. -/
theorem shared_found (h : Shared x g) {name : CStr} {p : Oid} {c : Choice}
    (hask : (g t).MayAsk t mode (.fileByName name p))
    (hseen : Function.update x.seen t (look (x.seen t) (.fileByName name p) (serve x.world (.fileByName name p) c).1) =
      Function.update x.seen t ((g t).move mode (.fileByName name p) (serve x.world (.fileByName name p) c).1).seen) :
    Facts mode (.fileByName name p) (serve x.world (.fileByName name p) c).1 ∧
      Shared ⟨(serve x.world (.fileByName name p) c).2,
          Function.update x.seen t (look (x.seen t) (.fileByName name p) (serve x.world (.fileByName name p) c).1)⟩
        (Function.update g t ((g t).move mode (.fileByName name p) (serve x.world (.fileByName name p) c).1)) := by
  have hsame : Function.update x.seen t (x.seen t) = x.seen := Function.update_eq_self t x.seen
  simp only [serve] at hseen ⊢
  cases hfile : x.world.files.findIdx (name, p) with
  | none =>
    rw [hfile] at hseen
    cases mode with
    | importing => exact ⟨trivial, h.look rfl rfl hseen rfl rfl rfl⟩
    | deleting => exact ⟨fun f hf => (by cases hf), h.look rfl rfl hseen rfl rfl rfl⟩
    | changing =>
      obtain ⟨rfl, hf, -⟩ := hask
      exact ⟨fun f hf => (by cases hf), h.look rfl rfl hseen rfl rfl hf.symm⟩
  | some f =>
    rw [hfile] at hseen
    have hmem := (Collection.findIdx_eq_some.1 hfile).1
    cases mode with
    | importing => exact ⟨trivial, h.look rfl rfl hseen rfl rfl rfl⟩
    | deleting =>
      obtain ⟨rfl, hf, hd, -⟩ := hask
      refine ⟨fun f' hf' => by cases hf'; exact h.nodup_slots hmem hd, ?_⟩
      simp only [look, hsame]
      exact h.load hmem hd hf
    | changing =>
      obtain ⟨rfl, -, hd, hheld⟩ := hask
      refine ⟨fun f' hf' => by cases hf'; exact h.nodup_slots hmem hd, ?_⟩
      simp only [look, hsame]
      exact h.change hmem hd hheld

/-- **Every request that is up to date keeps the owners apart.** -/
theorem shared_turn {r : Req} {c : Choice} {a : Resp r} (h : Shared x g) (hask : (g t).MayAsk t mode r)
    (hC : UpToDate t x r c) (hs : watch t x r c = some (a, u)) :
    Facts mode r a ∧ Shared u (Function.update g t ((g t).move mode r a)) := by
  obtain ⟨rfl, rfl⟩ : (serve x.world r c).1 = a ∧
      ⟨(serve x.world r c).2, Function.update x.seen t (look (x.seen t) r (serve x.world r c).1)⟩ = u := by
    simpa [watch] using hs
  have hseen : Function.update x.seen t (look (x.seen t) r (serve x.world r c).1) =
      Function.update x.seen t ((g t).move mode r (serve x.world r c).1).seen := by rw [move_seen, h.seen]
  have hsame : Function.update x.seen t (x.seen t) = x.seen := Function.update_eq_self t x.seen
  cases r with
  | generateId | dirById | dirByName | isActive | setBlock | getBlock | getFileContent | openFile =>
    exact ⟨trivial, h.look rfl rfl hseen rfl rfl rfl⟩
  | nodeById id =>
    refine ⟨fun n hn => ?_, h.look rfl rfl hseen rfl rfl rfl⟩
    obtain ⟨hmem, hid⟩ := Collection.findKey_eq_some.1 hn
    exact ⟨hid, h.fits n hmem⟩
  | nodeAll => exact ⟨⟨x.world.nodes.nodup_key, h.fits⟩, h.look rfl rfl hseen rfl rfl rfl⟩
  | nodeSetBlocks n =>
    obtain ⟨n', hn', hc, hF, hb⟩ := hask
    have hfind : x.world.nodes.findKey n.id = some n' := (hC n rfl).trans ((congrFun (h.seen t) n.id).trans hn')
    obtain ⟨hmem, hid⟩ := Collection.findKey_eq_some.1 hfind
    refine ⟨trivial, h.write hmem hid hc hF hb rfl hseen rfl rfl fun s => ?_⟩
    simp only [Ghost.move, hn', Option.any_some]
  | fileByName name p => exact shared_found h hask hseen
  | fileInsert f =>
    obtain ⟨hn, hheld⟩ := hask
    refine ⟨trivial, ?_⟩
    simp only [serve] at hseen ⊢
    cases hins : (if c.ok then x.world.files.insert f else none) with
    | none =>
      rw [hins] at hseen
      exact h.look rfl rfl hseen rfl rfl rfl
    | some files =>
      have hins' : x.world.files.insert f = some files := by
        split at hins
        · exact hins
        · cases hins
      exact h.insert hn hheld (Collection.insert_eq_some.1 hins').2 rfl hsame
  | fileAddCopy id b c =>
    obtain ⟨rfl, hheld, f, cs, hf, rfl, hcs⟩ := hask
    exact ⟨trivial, h.addCopy hf hcs hheld rfl rfl hsame⟩
  | filePullCopy id b c =>
    obtain ⟨rfl, f, cs, hf, rfl, hcs, hc⟩ := hask
    exact ⟨trivial, h.pullCopy hf hcs hc rfl rfl hsame⟩
  | fileDelete id =>
    obtain ⟨rfl, hf, hd⟩ := hask
    exact ⟨trivial, h.delete hf hd rfl rfl hsame⟩
  | dirInsert | dirsByParent | dirDelete | dirDeleteAll | dirSetParent | dirSetName | filesByParent
  | filesWithNode | fileDeleteAll | fileSetParent | fileSetName | nodeInsert => exact hask.elim

theorem shared_rule (mode : ℕ → Mode) :
    Pool.Rule (fun t => threadSpec (mode t) t) Shared watch UpToDate := by
  intro t x g r c a u h hask hC hs
  obtain ⟨hfacts, hshared⟩ := shared_turn h hask hC hs
  exact ⟨_, ⟨hfacts, rfl⟩, hshared⟩

/-! ## Two operations at once -/

/-- A store in which recorded copies and used bits agree. -/
structure Agreed (w : World) : Prop where
  fits : w.Fits
  used : ∀ s, w.Used s ↔ s ∈ w.slots
  nodup : w.slots.Nodup

theorem Owned.agreed {w : World} (h : Owned w) : Agreed w := ⟨h.fits, h.used, h.nodup⟩

variable {w : World} {op : Operation} {nodeId finalTmpName resultFilePath : CStr} {P : Pool Resp Stop Unit Watched}

/-- The invariant of the two threads, at their start. -/
theorem together_ok (hop : op.ofConsole = true) (hw : Agreed w) :
    (together sort w op nodeId finalTmpName resultFilePath).Ok
      (fun t => threadSpec (if t = 0 then op.mode else .importing) t) (fun _ _ m => m.dying = none)
      (fun _ _ _ => True) Shared := by
  refine ⟨fun _ => .start, ⟨fun _ => rfl, hw.fits, ?_, fun s hs => ?_, fun _ _ hs => hs.elim,
    fun _ _ _ _ hs => hs.elim, fun f hf => by cases hf⟩, fun t p hp => ?_⟩
  · exact (live_none w).symm ▸ hw.nodup
  · exact (hw.used s).2 (live_none w ▸ hs)
  · rcases t with _ | _ | t
    · cases hp
      exact console_turn op hop
    · cases hp
      simp only [Operation.prog, Prog.ok_bind, Prog.ok_pure]
      exact copyTmpFileToMDFS_turn
    · cases hp

/-- **No double-booked block.** A console operation and an import for MaRTA, in
any interleaving in which every bitmap that is written back is up to date, leave
no slot with two copies and every recorded copy with its bit set. -/
theorem no_double_booking (sort : NodeSort) (w : World) (op : Operation)
    (nodeId finalTmpName resultFilePath : CStr) (es : List (ℕ × Choice)) (P : Pool Resp Stop Unit Watched)
    (hop : op.ofConsole = true) (hw : Agreed w)
    (hC : Along (Pool.step watch) (fun P x => P.Meets UpToDate x)
      (together sort w op nodeId finalTmpName resultFilePath) es)
    (hrun : run (Pool.step watch) (together sort w op nodeId finalTmpName resultFilePath) es = some P)
    (hend : Finished P = true) :
    P.state.world.slots.Nodup ∧ ∀ s ∈ P.state.world.slots, P.state.world.Used s := by
  have hP := Pool.ok_run (shared_rule _) (together_ok hop hw) hC hrun
  obtain ⟨g, hg, hthreads⟩ := hP
  -- the console has returned, so no file is half deleted
  have hlen : P.threads.length = 2 := Pool.length_run hrun
  obtain ⟨p, hp⟩ : ∃ p, P.threads[0]? = some p := ⟨_, List.getElem?_eq_getElem (by omega)⟩
  obtain ⟨a, rfl⟩ := Prog.returned_iff.1 (List.all_eq_true.1 hend p (List.mem_of_getElem? hp))
  have hd : (g 0).dying = none := hthreads 0 _ hp
  have hn := hg.nodup
  have hu := hg.used
  rw [hd, live_none] at hn hu
  exact ⟨hn, hu⟩

/-- Thread `t`'s turns. -/
def turns (t : ℕ) (cs : List Choice) : List (ℕ × Choice) := cs.map (Prod.mk t)

/-- What is decided while MaRTA's result `hello` is imported on three nodes. -/
def importResult : List Choice := [.done, .done, .bytes (cstr "hello" ++ [0])] ++ List.replicate 12 .done

theorem no_double_booking_in_turn :
    ∃ w P, run (Operation.step insertionSort) (World.empty fun _ => []) threeNodes = some w ∧
      run (Pool.step watch) (together insertionSort w (.copyFileFromFS (cstr "/tmp/a") (cstr "a") .root)
        (cstr "n1") (cstr "tmp") (cstr "b")) (turns 0 importHello ++ turns 1 importResult) = some P ∧
      P.state.world.slots.length = 6 ∧ P.state.world.slots.Nodup ∧
      ∀ s ∈ P.state.world.slots, P.state.world.Used s := by
  obtain ⟨w, hw, h⟩ : ∃ w, run (Operation.step insertionSort) (World.empty fun _ => []) threeNodes = some w ∧
      ∃ P ∈ run (Pool.step watch) (together insertionSort w (.copyFileFromFS (cstr "/tmp/a") (cstr "a") .root)
        (cstr "n1") (cstr "tmp") (cstr "b")) (turns 0 importHello ++ turns 1 importResult),
        Finished P = true ∧ P.state.world.slots.length = 6 ∧
        Along (Pool.step watch) (fun P x => P.Meets UpToDate x)
          (together insertionSort w (.copyFileFromFS (cstr "/tmp/a") (cstr "a") .root)
            (cstr "n1") (cstr "tmp") (cstr "b")) (turns 0 importHello ++ turns 1 importResult) := by
    decide +kernel
  obtain ⟨P, hP, hend, hlen, hC⟩ := h
  have hw' : Agreed w := (kept_run kept_owned (owned_empty _) (by decide +kernel) hw).agreed
  exact ⟨w, P, hw, hP, hlen, no_double_booking _ _ _ _ _ _ _ _ rfl hw' hC hP hend⟩

/-- **A lost update.** Both imports read the bitmaps before either writes one
back: they book the same blocks, and the final store records each twice. -/
theorem double_booking :
    ∃ w P, run (Operation.step insertionSort) (World.empty fun _ => []) threeNodes = some w ∧ Agreed w ∧
      run (Pool.step watch) (together insertionSort w (.copyFileFromFS (cstr "/tmp/a") (cstr "a") .root)
        (cstr "n1") (cstr "tmp") (cstr "b"))
        (turns 0 (importHello.take 4) ++ turns 1 importResult ++ turns 0 (importHello.drop 4)) = some P ∧
      Finished P = true ∧ ¬P.state.world.slots.Nodup := by
  obtain ⟨w, hw, P, hP, h⟩ : ∃ w, run (Operation.step insertionSort) (World.empty fun _ => []) threeNodes = some w ∧
      ∃ P ∈ run (Pool.step watch) (together insertionSort w (.copyFileFromFS (cstr "/tmp/a") (cstr "a") .root)
        (cstr "n1") (cstr "tmp") (cstr "b"))
        (turns 0 (importHello.take 4) ++ turns 1 importResult ++ turns 0 (importHello.drop 4)),
        Finished P = true ∧ ¬P.state.world.slots.Nodup := by
    decide +kernel
  exact ⟨w, P, hw, (kept_run kept_owned (owned_empty _) (by decide +kernel) hw).agreed, hP, h⟩

end Mdfs.FileSystem
