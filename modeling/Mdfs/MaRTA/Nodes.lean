import Mdfs.MaRTA.Structs

/-!
# The nodes that MaRTA knows

`node.c` of MaRTA and what the planners do to the list `nodes` under its mutex. Nodes
are added at the end and never removed, so a pointer to one is its place in the list.
A function that follows a `NULL` node returns `none`.

A node is looked up by its name without regard to case, so the names in the list
differ in more than case (`Distinct`).

* `findNode_spec`: what a lookup finds.
* `distinct_updateNodes`: the names stay distinct.
-/

namespace Mdfs.MaRTA

/-- `findNode`, with `nodeByName`: the first node of that name. -/
def findNode (nodes : List Node) (nodeName : CStr) : Option ℕ :=
  nodes.findIdx? fun node => stringEqualsIgnoreCase node.name nodeName

/-- `workLoad`. -/
def Node.workLoad (node : Node) : ℕ := node.maps.length + node.reduces.toNat

def workLoadAt (nodes : List Node) (n : ℕ) : ℕ := (nodes[n]?).elim 0 Node.workLoad

/-- `isActive`. -/
def isActiveAt (nodes : List Node) (n : ℕ) : Bool := (nodes[n]?).any Node.active

/-- `updateNodes`. -/
def updateNodes (nodes : List Node) (nodeID nodeIP : CStr) (nodePort : UInt16) : List Node :=
  match findNode nodes nodeID with
  | some n => nodes.modify n fun node => { node with ip := nodeIP, port := nodePort, active := true }
  | none => nodes ++ [⟨nodeID, nodeIP, nodePort, true, [], 0⟩]

/-- `deactivateNode`. -/
def deactivateNode (nodes : List Node) (nodeName : CStr) : Option (List Node) :=
  (findNode nodes nodeName).map fun n => nodes.modify n fun node => { node with active := false }

/-- `removeMapNode`, with the name and the block of its map. -/
def removeMapNode (nodes : List Node) (nodeName : CStr) (numBlock : UInt16) : Option (List Node) :=
  (findNode nodes nodeName).map fun n => nodes.modify n fun node => { node with maps := node.maps.erase numBlock }

/-- `removeReduceNode`, with the node of its reduce. -/
def removeReduceNode (nodes : List Node) (finalNode : CStr) : Option (List Node) :=
  (findNode nodes finalNode).map fun n => nodes.modify n fun node => { node with reduces := node.reduces - 1 }

/-- `selectedNode->reduces++`, as `notificarReduce` does. -/
def addReduceNode (nodes : List Node) (finalNode : CStr) : Option (List Node) :=
  (findNode nodes finalNode).map fun n => nodes.modify n fun node => { node with reduces := node.reduces + 1 }

/-- `list_add(selectedNode->maps, numBlock)`, as `planMaps` does. -/
def addMapNode (nodes : List Node) (n : ℕ) (numBlock : UInt16) : List Node :=
  nodes.modify n fun node => { node with maps := node.maps ++ [numBlock] }

/-! ## Selection -/

section Selection

variable {α : Type}

/-- The choice of `selectNode` and `searchNode` between the node selected so far and the
node `name`, which would be selected with `a`: the active one with less work. -/
def lessBusy (nodes : List Node) (name : CStr) (a : α) (selected : Option (ℕ × α)) : Option (Option (ℕ × α)) :=
  match findNode nodes name, selected with
  | none, none => none
  | none, some x => some (some x)
  | some n, none => some (if isActiveAt nodes n then some (n, a) else none)
  | some n, some x =>
    some (if workLoadAt nodes n < workLoadAt nodes x.1 ∧ isActiveAt nodes n = true then some (n, a) else some x)

/-- `selectNode`. -/
def selectNode (nodes : List Node) (selected : Option (ℕ × UInt16)) (copy : Copy) : Option (Option (ℕ × UInt16)) :=
  lessBusy nodes copy.nodeName copy.numBlock selected

/-- `searchNode`. -/
def searchNode (nodes : List Node) (selected : Option (ℕ × Unit)) (reduce : Reduce) : Option (Option (ℕ × Unit)) :=
  lessBusy nodes reduce.finalNode () selected

/-- The loop of `planMaps` and `rePlanMap` over the copies of a block. -/
def selectNodeToMap (nodes : List Node) (copies : List Copy) : Option (Option (ℕ × UInt16)) :=
  copies.foldlM (selectNode nodes) none

/-- The loop of `combinerFinalReducePlanning` over the partial reduces. -/
def selectFinalNode (nodes : List Node) (reduces : List Reduce) : Option (Option (ℕ × Unit)) :=
  reduces.foldlM (searchNode nodes) none

/-- `countTemporals`: for each node how many maps it has done. The nodes of maps are
registered, so none is found through `NULL`. -/
def countTemporals (nodes : List Node) (counts : List (ℕ × UInt16)) (map : Map) : Option (List (ℕ × UInt16)) :=
  match counts.findIdx? fun count => (nodes[count.1]?).any fun node => node.name = map.nodeName with
  | some i => some (counts.modify i fun count => (count.1, count.2 + 1))
  | none => (findNode nodes map.nodeName).map fun n => counts ++ [(n, 1)]

/-- `selectMoreTempsNode`. -/
def selectMoreTempsNode (nodes : List Node) (selectedCount : Option (ℕ × UInt16)) (count : ℕ × UInt16) :
    Option (ℕ × UInt16) :=
  match selectedCount with
  | none => if isActiveAt nodes count.1 then some count else none
  | some selected => if selected.2 < count.2 ∧ isActiveAt nodes count.1 = true then some count else some selected

/-- The selection of `noCombinerReducePlanning`. -/
def selectMoreTemps (nodes : List Node) (maps : List Map) : Option (Option ℕ) :=
  (maps.foldlM (countTemporals nodes) []).map fun counts =>
    (counts.foldl (selectMoreTempsNode nodes) none).map Prod.fst

end Selection

/-! ## Names that differ in more than case -/

/-- No two nodes have the same name but for case. -/
def Distinct (nodes : List Node) : Prop :=
  nodes.Pairwise fun a b => stringEqualsIgnoreCase a.name b.name = false

variable {nodes : List Node} {name : CStr} {n : ℕ}

/-- **What a lookup finds.** -/
theorem findNode_spec (h : findNode nodes name = some n) :
    ∃ node, nodes[n]? = some node ∧ stringEqualsIgnoreCase node.name name = true := by
  obtain ⟨hn, hname, -⟩ := List.findIdx?_eq_some_iff_getElem.1 h
  exact ⟨nodes[n], List.getElem?_eq_getElem hn, hname⟩

/-- A node is found by any name that is the same but for the case. -/
theorem findNode_congr {other : CStr} (h : stringEqualsIgnoreCase name other = true) (nodes : List Node) :
    findNode nodes name = findNode nodes other := by
  have hlower : name.map tolower = other.map tolower := of_decide_eq_true h
  unfold findNode stringEqualsIgnoreCase
  rw [hlower]

theorem findNode_eq_none (h : findNode nodes name = none) :
    ∀ node ∈ nodes, stringEqualsIgnoreCase node.name name = false := by
  intro node hnode
  simpa using List.findIdx?_eq_none_iff.1 h node hnode

/-- A selection that changes is for the node of the copy. -/
theorem selectNode_spec {selected : Option (ℕ × UInt16)} {copy : Copy} {x : ℕ × UInt16}
    (h : selectNode nodes selected copy = some (some x)) :
    selected = some x ∨ findNode nodes copy.nodeName = some x.1 ∧ copy.numBlock = x.2 := by
  unfold selectNode lessBusy at h
  cases hfind : findNode nodes copy.nodeName with
  | none =>
    cases selected with
    | none => simp [hfind] at h
    | some y => simpa [hfind] using h
  | some n =>
    cases selected with
    | none =>
      simp only [hfind, Option.some.injEq, Option.ite_none_right_eq_some] at h
      obtain ⟨-, rfl⟩ := h
      exact Or.inr ⟨rfl, rfl⟩
    | some y =>
      simp only [hfind, Option.some.injEq] at h
      split at h
      · obtain rfl := Option.some.inj h
        exact Or.inr ⟨rfl, rfl⟩
      · exact Or.inl h

/-- **What is selected for a block**: the node of one of its copies, with the copy's number. -/
theorem selectNodeToMap_spec {copies : List Copy} {x : ℕ × UInt16} (h : selectNodeToMap nodes copies = some (some x)) :
    ∃ copy ∈ copies, findNode nodes copy.nodeName = some x.1 ∧ copy.numBlock = x.2 := by
  suffices ∀ (copies : List Copy) selected, copies.foldlM (selectNode nodes) selected = some (some x) →
      selected = some x ∨ ∃ copy ∈ copies, findNode nodes copy.nodeName = some x.1 ∧ copy.numBlock = x.2 from
    (this copies none h).resolve_left (by simp)
  intro copies
  induction copies with
  | nil => exact fun selected h => Or.inl (Option.some.inj h)
  | cons copy copies ih =>
    intro selected h
    rw [List.foldlM_cons, Option.bind_eq_bind, Option.bind_eq_some_iff] at h
    obtain ⟨next, hnext, h⟩ := h
    rcases ih next h with rfl | ⟨copy', hcopy', hx⟩
    · rcases selectNode_spec hnext with hsame | hx
      · exact Or.inl hsame
      · exact Or.inr ⟨copy, List.mem_cons_self, hx⟩
    · exact Or.inr ⟨copy', List.mem_cons_of_mem _ hcopy', hx⟩

/-- In a list of distinct names a node is found by its own name. -/
theorem Distinct.findNode (h : Distinct nodes) {node : Node} (hn : nodes[n]? = some node) :
    findNode nodes node.name = some n := by
  obtain ⟨hlt, rfl⟩ := List.getElem?_eq_some_iff.1 hn
  refine List.findIdx?_eq_some_iff_getElem.2 ⟨hlt, stringEqualsIgnoreCase_refl _, fun j hj => ?_⟩
  have hne := List.pairwise_iff_getElem.1 h j n (by omega) hlt hj
  simpa using hne

/-- Changing a node, but not its name. -/
theorem Distinct.modify (h : Distinct nodes) (f : Node → Node) (hf : ∀ node, (f node).name = node.name) (n : ℕ) :
    Distinct (nodes.modify n f) := by
  unfold Distinct at *
  rw [List.pairwise_iff_getElem] at *
  intro i j hi hj hij
  rw [List.length_modify] at hi hj
  have hname : ∀ k (hk : k < (nodes.modify n f).length) (hk' : k < nodes.length),
      (nodes.modify n f)[k].name = nodes[k].name := by
    intro k hk hk'
    rw [List.getElem_modify]
    split
    · exact hf _
    · rfl
  rw [hname i _ hi, hname j _ hj]
  exact h i j hi hj hij

/-- **The names stay distinct.** -/
theorem distinct_updateNodes (h : Distinct nodes) (nodeID nodeIP : CStr) (nodePort : UInt16) :
    Distinct (updateNodes nodes nodeID nodeIP nodePort) := by
  unfold updateNodes
  split
  · exact h.modify (fun node => { node with ip := nodeIP, port := nodePort, active := true }) (fun _ => rfl) _
  · rename_i hnone
    refine List.pairwise_append.2 ⟨h, List.pairwise_singleton _ _, fun a ha b hb => ?_⟩
    rw [List.mem_singleton.1 hb]
    exact findNode_eq_none hnone a ha

end Mdfs.MaRTA
