import Mdfs.FileSystem.Content
import Mdfs.FileSystem.Imports

/-!
# One more copy of a block

`filesystem_makeNewFileBlockCopy` looks at the first active node without a copy of the block, in
the order of the free blocks, and gives up when that node is full: then they all are.

* `new_copy`: it records one more copy, or nothing, and it does so when it can.
-/

namespace Mdfs.FileSystem

open Lib

/-- The node that is asked whether it is active. -/
def Req.activeAsked : Req → Option CStr
  | .isActive nodeId => some nodeId
  | _ => none

/-- The node that a block is sent to. -/
def Req.sentTo : Req → Option CStr
  | .setBlock nodeId _ _ => some nodeId
  | _ => none

/-- The nodes in `active` are, and a copy that is asked for comes as it is or not at all. -/
def Surroundings (active : CStr → Bool) (w : World) (r : Req) (c : Choice) : Prop :=
  (∀ nodeId ∈ r.activeAsked, c.ok = active nodeId) ∧ Honest w r c

/-- The copy can be read, and every send succeeds. -/
def Serving (active : CStr → Bool) (copy : FileBlock) (w : World) (r : Req) (c : Choice) : Prop :=
  Surroundings active w r c ∧ (r.copyAsked = some copy → c.content ≠ none) ∧ ∀ _nodeId ∈ r.sentTo, c.ok = true

instance (active : CStr → Bool) (w : World) (r : Req) (c : Choice) : Decidable (Surroundings active w r c) :=
  inferInstanceAs (Decidable ((∀ nodeId ∈ r.activeAsked, c.ok = active nodeId) ∧
    ∀ copy ∈ r.copyAsked, c.content = none ∨ c.content = some (w.disk copy.slot)))

instance (active : CStr → Bool) (copy : FileBlock) (w : World) (r : Req) (c : Choice) :
    Decidable (Serving active copy w r c) :=
  inferInstanceAs (Decidable (Surroundings active w r c ∧ (r.copyAsked = some copy → c.content ≠ none) ∧
    ∀ _nodeId ∈ r.sentTo, c.ok = true))

/-- **One new copy** of block `b` of the file `f`, which had the copies `copies`; `f'` is the file
in memory. -/
structure NewCopy (active : CStr → Bool) (w w' : World) (f : File) (b : ℕ) (copies : List FileBlock) (copy : FileBlock)
    (f' : File) : Prop where
  block : f.blocks[b]? = some copies
  memory : f' = { f with blocks := f.blocks.set b (copies ++ [copy]) }
  files : w'.files.docs = w.files.docs.map fun g => if g.id = f.id then f' else g
  active : active copy.nodeId = true
  apart : copy.nodeId ∉ copies.map FileBlock.nodeId
  free : w.Free copy.slot
  used : ∀ s, w'.Used s ↔ w.Used s ∨ s = copy.slot
  nodes : w'.nodes.docs = w.nodes.docs.map (Node.withBits (mark [copy.slot]))
  data : ∃ c ∈ copies, w'.disk copy.slot = upToNul (w.disk c.slot)
  frame : ∀ s, s ≠ copy.slot → w'.disk s = w.disk s
  dirs : w'.dirs = w.dirs

/-- Some copy is to be had, and some active node without one has a free block. -/
def CanCopy (active : CStr → Bool) (w : World) (f : File) (b : ℕ) (copy : FileBlock) : Prop :=
  ∃ copies, f.blocks[b]? = some copies ∧ copy ∈ copies ∧
    ∃ s, w.Free s ∧ active s.1 = true ∧ s.1 ∉ copies.map FileBlock.nodeId

variable {active : CStr → Bool} {C : World → Req → Choice → Prop} {E : Stop → World → Prop} {w w' : World}
  {sort : NodeSort} {f : File} {b : UInt16} {copies : List FileBlock} {copy : FileBlock}

theorem Copied.newCopy (hF : w.Fits) (hf : f ∈ w.files.docs) (hcs : f.blocks[b.toNat]? = some copies) {block : CStr}
    (h : Copied w w' f.id copies b.toNat copy block) (hactive : active copy.nodeId = true)
    (hdata : ∃ c ∈ copies, block = upToNul (w.disk c.slot)) :
    NewCopy active w w' f b.toNat copies copy { f with blocks := f.blocks.modify b.toNat fun cs => cs ++ [copy] } := by
  obtain ⟨hlt, hget⟩ := List.getElem?_eq_some_iff.1 hcs
  have hset : f.blocks.modify b.toNat (fun cs => cs ++ [copy]) = f.blocks.set b.toNat (copies ++ [copy]) := by
    rw [List.modify_eq_set, hcs]
    rfl
  have hnodes : w'.nodes = (({ w with disk := w'.disk } : World).mapBits (mark [copy.slot])).nodes := by
    have hworld := congrArg World.nodes h.world
    exact hworld
  have hfree : ∀ s ∈ [copy.slot], World.Free { w with disk := w'.disk } s := fun s hs => by
    rw [List.mem_singleton.1 hs]; exact h.free
  refine ⟨hcs, ?_, ?_, hactive, h.apart, h.free, fun s => ?_, ?_, ?_, h.frame, ?_⟩
  · rw [hset]
  · have hnew : copy ∉ copies := fun hm => h.apart (List.mem_map_of_mem hm)
    have hfiles : w'.files = w.files.update f.id (File.addCopy b.toNat copy) := by rw [h.world]
    rw [hfiles, docs_addCopy]
    refine List.map_congr_left fun g hg => ?_
    split
    case isFalse => rfl
    case isTrue hid =>
      -- the document is the file in memory, and `$addToSet` adds a copy that it has not
      rw [Collection.eq_of_key hg hf hid, File.addCopy, List.modify_eq_set, hcs, hset]
      simp [hnew]
  · have hused := used_mark (w := { w with disk := w'.disk }) hF hfree (s := s)
    rw [List.mem_singleton] at hused
    simp only [World.Used, hnodes] at hused ⊢
    exact hused
  · rw [hnodes]
    rfl
  · obtain ⟨c, hc, hblock⟩ := hdata
    exact ⟨c, hc, by rw [h.disk, hblock]⟩
  · rw [h.world]
    rfl

/-- The outcome of a call on a file that is stored. -/
theorem new_copy_ok (hF : w.Fits) (hf : f ∈ w.files.docs) :
    (makeNewFileBlockCopyInMemory sort (some f) b).Ok (worldSpec (Surroundings active))
      (fun x v => (x.1 = 1 ∧ ∃ copies copy f', x.2 = some f' ∧ NewCopy active w v f b.toNat copies copy f') ∨
        (x.1 ≠ 1 ∧ x.2 = some f ∧ Unchanged w v)) (fun _ _ => False) w := by
  have hsame : Unchanged w w := ⟨rfl, rfl, rfl⟩
  refine makeNewFileBlockCopyInMemory_ok hF ?_ ?_ ?_ ?_ ?_
  · exact fun _ => Or.inr ⟨show (-1 : ℤ) ≠ 1 from by decide, rfl, hsame⟩
  · exact fun _ _ _ => Or.inr ⟨show (-2 : ℤ) ≠ 1 from by decide, rfl, hsame⟩
  · exact fun _ _ _ _ _ => Or.inr ⟨show (-3 : ℤ) ≠ 1 from by decide, rfl, hsame⟩
  · exact fun _ hu _ => Or.inr ⟨show (-3 : ℤ) ≠ 1 from by decide, rfl, hu.unchanged⟩
  · intro v copies N n c ch block copy hcs hc hch hblock hN hn hid hcopied
    have hactive : active copy.nodeId = true := by
      obtain ⟨ch', hch', hiff⟩ := hN.asked n (hN.sub.subset hn)
      rw [hid, ← hch'.1 n.id rfl]
      exact hiff.2 hn
    have hdata : block = w.disk c.slot := by
      obtain hnone | hsome := hch.2 c rfl
      · rw [hnone] at hblock
        cases hblock
      · exact Option.some.inj (hblock.symm.trans hsome)
    exact Or.inl ⟨rfl, copies, copy, _, rfl, hcopied.newCopy hF hf hcs hactive ⟨c, hc, by rw [hdata]⟩⟩

/-- **Where it can, it does**: no reason to give up is left. -/
theorem new_copy_complete (hF : w.Fits) (hcan : CanCopy active w f b.toNat copy) :
    (makeNewFileBlockCopyInMemory sort (some f) b).Ok (worldSpec (Serving active copy)) (fun x _ => x.1 = 1)
      (fun _ _ => False) w := by
  obtain ⟨copies, hcopies, hcopy, s, hfree, hactive, hapart⟩ := hcan
  refine makeNewFileBlockCopyInMemory_ok hF ?_ ?_ ?_ ?_ ?_
  · intro hnone
    rw [hnone] at hcopies
    cases hcopies
  · intro cs hcs hdown
    cases hcopies.symm.trans hcs
    obtain ⟨ch, hch, hnone⟩ := hdown copy hcopy
    exact absurd hnone (hch.2.1 rfl)
  · intro cs N hcs hN hfull
    cases hcopies.symm.trans hcs
    obtain ⟨n, hn, hid, hlt, hbit⟩ := hfree
    -- the node is among the active ones, and it has a free block
    obtain ⟨ch, hch, hiff⟩ := hN.asked n hn
    have hnN : n ∈ N := hiff.1 (by rw [hch.1.1 n.id rfl, hid]; exact hactive)
    have hnone := hfull n hnN (hid ▸ hapart)
    have hused := List.find?_eq_none.1 hnone s.2 (List.mem_range.2 hlt)
    rw [nodeIsBlockUsed_eq (hF n hn), hbit] at hused
    exact absurd Bool.not_false hused
  · rintro v - ⟨n, i, data, ch, hch, hfail⟩
    rw [hch.2.2 n rfl] at hfail
    cases hfail
  · exact fun _ _ _ _ _ _ _ _ _ _ _ _ _ _ _ _ => rfl

/-- **One more copy.** On a stored file, the call comes to its end; it returns 1 with one new copy
recorded, in the store as in memory, or something else with nothing recorded; and it returns 1
when a copy can be read, the sends succeed and an active node without a copy has a free block. -/
theorem new_copy (sort : NodeSort) (h : Ownership w) (hf : f ∈ w.files.docs) (b : UInt16) (active : CStr → Bool) :
    (∀ answers : ℕ → Choice, ∃ n x, (makeNewFileBlockCopyInMemory sort (some f) b).exec handle w
      ((List.range n).map answers) = some x) ∧
    ∀ is o w', (makeNewFileBlockCopyInMemory sort (some f) b).Along handle (Surroundings active) w is →
      (makeNewFileBlockCopyInMemory sort (some f) b).exec handle w is = some (o, w') →
      ∃ r memory, o = .ok (r, memory) ∧
        (r = 1 → ∃ copies copy f', memory = some f' ∧ NewCopy active w w' f b.toNat copies copy f') ∧
        (r ≠ 1 → memory = some f ∧ Unchanged w w') ∧
        ∀ copy, CanCopy active w f b.toNat copy →
          (makeNewFileBlockCopyInMemory sort (some f) b).Along handle (Serving active copy) w is → r = 1 := by
  refine ⟨fun answers => Prog.exec_total (fun _ _ _ => rfl) _ _ _, fun is o w' halong hexec => ?_⟩
  have hout := (new_copy_ok h.fits hf).exec_along halong hexec
  cases o with
  | error e => exact hout.elim
  | ok x =>
    obtain ⟨r, memory⟩ := x
    refine ⟨r, memory, rfl, fun hr => ?_, fun hr => ?_, fun copy hcan hserving => ?_⟩
    · obtain ⟨-, hnew⟩ | ⟨hne, -⟩ := hout
      · exact hnew
      · exact absurd hr hne
    · obtain ⟨heq, -⟩ | ⟨-, hsame⟩ := hout
      · exact absurd heq hr
      · exact hsame
    · exact (new_copy_complete h.fits hcan).exec_along hserving hexec

/-- The text `hello` on three nodes, and a fourth one. -/
def helloAndFourth : List (Operation × List Choice) :=
  threeNodes ++ [(.copyFileFromFS (cstr "/tmp/a") (cstr "a") .root, importHello),
    (.addNode (cstr "n4") 2 true, List.replicate 2 .done)]

/-- What is decided while the only block of it is copied. -/
def copyHello : List Choice := .bytes (cstr "hello") :: List.replicate 8 .done

theorem new_copy_fourth : ∃ w w' f copies copy f', run (Operation.step insertionSort) (World.empty fun _ => [])
    helloAndFourth = some w ∧
    f ∈ w.files.docs ∧
    (makeNewFileBlockCopyInMemory insertionSort (some f) 0).exec handle w copyHello = some (.ok (1, some f'), w') ∧
    NewCopy (fun _ => true) w w' f 0 copies copy f' := by
  have hall : ∃ w ∈ run (Operation.step insertionSort) (World.empty fun _ => []) helloAndFourth, ∃ f ∈ w.files.docs,
      (makeNewFileBlockCopyInMemory insertionSort (some f) 0).Along handle (Surroundings fun _ => true) w copyHello ∧
      ∃ x ∈ (makeNewFileBlockCopyInMemory insertionSort (some f) 0).exec handle w copyHello,
        x.1.toOption.map Prod.fst = some 1 := by decide +kernel
  obtain ⟨w, hw, f, hf, halong, ⟨o, w'⟩, hexec, hr⟩ := hall
  have howned := kept_run kept_owned (owned_empty fun _ => []) (by decide +kernel) hw
  obtain ⟨r, memory, rfl, hnew, -⟩ :=
    (new_copy insertionSort howned.ownership hf 0 fun _ => true).2 copyHello o w' halong hexec
  obtain rfl : r = 1 := Option.some.inj hr
  obtain ⟨copies, copy, f', rfl, hcopied⟩ := hnew rfl
  exact ⟨w, w', f, copies, copy, f', hw, hf, hexec, hcopied⟩

end Mdfs.FileSystem
