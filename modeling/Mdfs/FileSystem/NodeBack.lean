import Mdfs.FileSystem.Ownership

/-!
# A node that comes back

`filesystem_addNode` of a node that is stored. If it says that it is new it has lost its blocks:
the copies on it are deleted one by one, and then it is formatted.

* `node_comes_back`: just these copies and that bitmap change.
-/

namespace Mdfs.FileSystem

open Lib

/-- **What a node loses that comes back as new**: its copies, and its bitmap. -/
structure CameBack (w w' : World) (nodeId : CStr) (count : UInt16) : Prop where
  /-- Each block of each file keeps the copies on other nodes, in their order. -/
  files : w'.files.docs = w.files.docs.map fun f =>
    { f with blocks := f.blocks.map fun copies => copies.filter fun copy => copy.nodeId ≠ nodeId }
  /-- The other nodes are as they were, in their places. -/
  others : List.Forall₂ (fun n n' => n'.id = n.id ∧ (n.id ≠ nodeId → n' = n)) w.nodes.docs w'.nodes.docs
  blocksCount : ∀ n ∈ w'.nodes.docs, n.id = nodeId → n.blocksCount = count
  size : ∀ n ∈ w'.nodes.docs, n.id = nodeId → n.blocks.size = (count.toNat + 7) / 8
  free : ∀ n ∈ w'.nodes.docs, n.id = nodeId → ∀ i, n.blocks.testBit i = false
  rest : w' = { w with files := w'.files, nodes := w'.nodes }

variable {w w' : World} {nodeId : CStr} {count : UInt16} {isNew : Bool}

theorem Renewed.cameBack (h : Renewed w w' nodeId count) : CameBack w w' nodeId count := by
  -- the node in its place is the formatted one
  have hnode : ∀ n ∈ w'.nodes.docs, n.id = nodeId → n = nodeCreate nodeId count := by
    intro n hn hid
    rw [h.nodes, List.mem_map] at hn
    obtain ⟨m, -, rfl⟩ := hn
    split
    · rfl
    · rename_i hne
      rw [if_neg hne] at hid
      exact absurd hid hne
  refine ⟨h.files, ?_, ?_, ?_, ?_, ?_⟩
  · rw [h.nodes, List.forall₂_map_right_iff, List.forall₂_same]
    intro m _
    by_cases hid : m.id = nodeId
    · rw [if_pos hid]
      exact ⟨hid.symm, fun hne => absurd hid hne⟩
    · rw [if_neg hid]
      exact ⟨rfl, fun _ => rfl⟩
  · intro n hn hid
    rw [hnode n hn hid]
    rfl
  · intro n hn hid
    rw [hnode n hn hid]
    rfl
  · intro n hn hid i
    rw [hnode n hn hid]
    simp [nodeCreate, getByteArrayForBlocksCount]
  · exact h.world

/-- **A node coming back loses its own copies**, and nothing else changes; one that says that it
is not new changes nothing. -/
theorem node_comes_back (hshort : ∀ f ∈ w.files.docs, f.blocks.length < 65536) {n : Node} (hn : n ∈ w.nodes.docs)
    (count : UInt16) (isNew : Bool) :
    (∀ answers : ℕ → Choice, ∃ k x, (filesystemAddNode n.id count isNew).exec handle w
      ((List.range k).map answers) = some x) ∧
    ∀ is o w', (filesystemAddNode n.id count isNew).exec handle w is = some (o, w') →
      o = .ok () ∧ if isNew then CameBack w w' n.id count else w' = w := by
  refine ⟨fun answers => Prog.exec_total (fun _ _ _ => rfl) _ _ _, fun is o w' hexec => ?_⟩
  have hok : (filesystemAddNode n.id count isNew).Ok (worldSpec fun _ _ _ => True)
      (fun _ v => if isNew then CameBack w v n.id count else v = w) (fun _ _ => False) w := by
    refine addNode_known_ok hshort hn (fun hno => ?_) fun hyes v hr => ?_
    · simp [hno]
    · simpa [hyes] using hr.cameBack
  have hout := hok.exec_along (Prog.along_of_mem fun _ _ _ _ => trivial) hexec
  cases o with
  | error e => exact hout.elim
  | ok _ => exact ⟨rfl, hout⟩

/-- The text `hello` on three nodes. -/
def helloStored : List (Operation × List Choice) :=
  threeNodes ++ [(.copyFileFromFS (cstr "/tmp/a") (cstr "a") .root, importHello)]

/-- The second node comes back with nine blocks: its copy is gone, and the others stay. -/
theorem node_comes_back_second : ∃ w w' n, run (Operation.step insertionSort) (World.empty fun _ => [])
    helloStored = some w ∧
    n ∈ w.nodes.docs ∧ n.id = cstr "n2" ∧
    (filesystemAddNode n.id 9 true).exec handle w (List.replicate 4 .done) = some (.ok (), w') ∧
    (w'.files.docs.map fun f => f.blocks.map fun cs => cs.map FileBlock.nodeId) = [[[cstr "n1", cstr "n3"]]] ∧
    CameBack w w' n.id 9 := by
  have hall : ∃ w ∈ run (Operation.step insertionSort) (World.empty fun _ => []) helloStored,
      (∀ f ∈ w.files.docs, f.blocks.length < 65536) ∧ ∃ n ∈ w.nodes.docs, n.id = cstr "n2" ∧
      ∃ x ∈ (filesystemAddNode n.id 9 true).exec handle w (List.replicate 4 .done),
        (x.2.files.docs.map fun f => f.blocks.map fun cs => cs.map FileBlock.nodeId) = [[[cstr "n1", cstr "n3"]]] := by
    decide +kernel
  obtain ⟨w, hw, hshort, n, hn, hid, ⟨o, w'⟩, hexec, hcopies⟩ := hall
  obtain ⟨rfl, hback⟩ := (node_comes_back hshort hn 9 true).2 (List.replicate 4 .done) o w' hexec
  exact ⟨w, w', n, hw, hn, hid, hexec, hcopies, hback⟩

end Mdfs.FileSystem
