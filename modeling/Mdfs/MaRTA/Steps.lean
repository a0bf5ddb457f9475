import Mdfs.MaRTA.Turns

/-!
# The steps of the jobs of MaRTA

A place in the list of nodes keeps its name (`Steady`), so a node that a job has read is
found again by its name, whatever the other jobs did to the nodes in between. `Tied` is
what the nodes and the records of all jobs have to do with each other.

* `serve_turn`: every step answers what the job that made the request expects.
-/

namespace Mdfs.MaRTA

open Lib

/-- The places of the nodes keep their names. -/
def Steady (nodes nodes' : List Node) : Prop :=
  ∀ (n : ℕ) (node : Node), nodes[n]? = some node → ∃ node', nodes'[n]? = some node' ∧ node'.name = node.name

variable {nodes nodes' : List Node} {n : ℕ} {name : CStr} {node : Node}

theorem Steady.refl (nodes : List Node) : Steady nodes nodes := fun _ node h => ⟨node, h, rfl⟩

theorem Steady.trans {nodes'' : List Node} (h : Steady nodes nodes') (h' : Steady nodes' nodes'') :
    Steady nodes nodes'' := by
  intro k node hk
  obtain ⟨node', hk', hname'⟩ := h k node hk
  obtain ⟨node'', hk'', hname''⟩ := h' k node' hk'
  exact ⟨node'', hk'', hname''.trans hname'⟩

theorem steady_modify (f : Node → Node) (hf : ∀ node, (f node).name = node.name) (n : ℕ) :
    Steady nodes (nodes.modify n f) := by
  intro k node hk
  rw [List.getElem?_modify, hk]
  by_cases hnk : n = k
  · exact ⟨f node, by simp [hnk], hf node⟩
  · exact ⟨node, by simp [hnk], rfl⟩

theorem steady_updateNodes (nodeID nodeIP : CStr) (nodePort : UInt16) :
    Steady nodes (updateNodes nodes nodeID nodeIP nodePort) := by
  unfold updateNodes
  split
  · exact steady_modify (fun node => { node with ip := nodeIP, port := nodePort, active := true }) (fun _ => rfl) _
  · intro k node hk
    obtain ⟨hlt, -⟩ := List.getElem?_eq_some_iff.1 hk
    exact ⟨node, by rw [List.getElem?_append_left hlt, hk], rfl⟩

/-- **What stays of the nodes** after one request. -/
structure NamesKept (nodes nodes' : List Node) : Prop where
  steady : Steady nodes nodes'
  distinct : Distinct nodes → Distinct nodes'

theorem NamesKept.refl (nodes : List Node) : NamesKept nodes nodes := ⟨.refl nodes, id⟩

theorem namesKept_modify (f : Node → Node) (hf : ∀ node, (f node).name = node.name) (n : ℕ) :
    NamesKept nodes (nodes.modify n f) := ⟨steady_modify f hf n, fun h => h.modify f hf n⟩

/-- A node that is found by a name and changed. -/
theorem namesKept_found {f : Node → Node} (h : ((findNode nodes name).map fun n => nodes.modify n f) = some nodes')
    (hf : ∀ node, (f node).name = node.name) : NamesKept nodes nodes' := by
  obtain ⟨n, -, rfl⟩ := Option.map_eq_some_iff.1 h
  exact namesKept_modify f hf n

/-- **The nodes and the records of all jobs.** -/
structure Tied (w : World) (g : ℕ → Talk) : Prop where
  talk : w.talk = g
  distinct : Distinct w.nodes
  shown : ∀ t, ∀ x ∈ (g t).shown, ∃ node, w.nodes[x.1]? = some node ∧ node.name = x.2.name
  announced : ∀ t n name b, (g t).hand = .announced n name b → ∃ node, w.nodes[n]? = some node ∧ node.name = name

variable {w : World} {g : ℕ → Talk} {t : ℕ} {l : Talk}

/-- One record changes, and the nodes keep their names. -/
theorem Tied.step (h : Tied w g) (hnodes : NamesKept w.nodes nodes)
    (hshown : ∀ x ∈ l.shown, x ∈ (g t).shown ∨ ∃ node, nodes[x.1]? = some node ∧ node.name = x.2.name)
    (hhand : ∀ n name b, l.hand = .announced n name b → (g t).hand = .announced n name b ∨
      ∃ node, nodes[n]? = some node ∧ node.name = name) :
    Tied ⟨nodes, Function.update w.talk t l⟩ (Function.update g t l) where
  talk := by rw [h.talk]
  distinct := hnodes.distinct h.distinct
  shown := by
    -- what another job was shown is still at its place
    have hold : ∀ t', ∀ x ∈ (g t').shown, ∃ node, nodes[x.1]? = some node ∧ node.name = x.2.name := by
      intro t' x hx
      obtain ⟨node, hnode, hname⟩ := h.shown t' x hx
      obtain ⟨node', hnode', hname'⟩ := hnodes.steady x.1 node hnode
      exact ⟨node', hnode', hname'.trans hname⟩
    intro t' x hx
    by_cases ht : t' = t
    · subst ht
      rw [Function.update_self] at hx
      rcases hshown x hx with hx | hx
      · exact hold t' x hx
      · exact hx
    · rw [Function.update_of_ne ht] at hx
      exact hold t' x hx
  announced := by
    have hold : ∀ t' n name b, (g t').hand = .announced n name b → ∃ node, nodes[n]? = some node ∧
      node.name = name := by
      intro t' n name b hx
      obtain ⟨node, hnode, hname⟩ := h.announced t' n name b hx
      obtain ⟨node', hnode', hname'⟩ := hnodes.steady n node hnode
      exact ⟨node', hnode', hname'.trans hname⟩
    intro t' n name b hx
    by_cases ht : t' = t
    · subst ht
      rw [Function.update_self] at hx
      rcases hhand n name b hx with hx | hx
      · exact hold t' n name b hx
      · exact hx
    · rw [Function.update_of_ne ht] at hx
      exact hold t' n name b hx

/-- A request of which something is written down. -/
theorem Tied.say (h : Tied w w.talk) (hnodes : NamesKept w.nodes nodes) {f : Talk → Talk}
    (hshown : ∀ x ∈ (f (w.talk t)).shown, x ∈ (w.talk t).shown ∨ ∃ node, nodes[x.1]? = some node ∧ node.name = x.2.name)
    (hhand : ∀ n name b, (f (w.talk t)).hand = .announced n name b → (w.talk t).hand = .announced n name b ∨
      ∃ node, nodes[n]? = some node ∧ node.name = name) :
    Tied (World.say ⟨nodes, w.talk⟩ t f) (Function.update w.talk t ((World.say ⟨nodes, w.talk⟩ t f).talk t)) := by
  have hself : (World.say ⟨nodes, w.talk⟩ t f).talk t = f (w.talk t) := Function.update_self ..
  rw [hself]
  exact h.step hnodes hshown hhand

/-- A request of which nothing is. -/
theorem Tied.same (h : Tied w w.talk) (hnodes : NamesKept w.nodes nodes) :
    Tied ⟨nodes, w.talk⟩ (Function.update w.talk t (w.talk t)) := by
  have hstep := h.step (t := t) (l := w.talk t) hnodes (fun x hx => Or.inl hx) fun n name b hx => Or.inl hx
  rw [Function.update_eq_self] at hstep
  rw [Function.update_eq_self]
  exact hstep

/-- **A node that was read is found by its name.** -/
theorem Tied.nameAt (h : Tied w g) (hfind : findNode w.nodes name = some n) (hknown : (g t).Knows name) :
    nameAt w.nodes n = name := by
  obtain ⟨x, hx, hname⟩ := hknown
  obtain ⟨node, hnode, hname'⟩ := h.shown t x hx
  have hplace := h.distinct.findNode hnode
  rw [hname', hname, hfind, Option.some.injEq] at hplace
  unfold MaRTA.nameAt
  rw [hplace, hnode]
  exact hname'.trans hname

variable {r : Req} {c : Choice} {x : Resp r} {u : World}

/-- The record of a job, after what it says. -/
theorem Tied.say_talk (h : Tied w g) {f : Talk → Talk} : (World.say ⟨nodes, w.talk⟩ t f).talk t = f (g t) := by
  rw [← h.talk]
  exact Function.update_self ..

/-- **Every step answers what its job expects**, and keeps the nodes and the records tied. -/
theorem serve_turn (h : Tied w g) (hs : serve t w r c = some (x, u)) :
    Turn (g t) r x (u.talk t) ∧ NamesKept w.nodes u.nodes ∧ Tied u (Function.update g t (u.talk t)) := by
  obtain rfl : w.talk = g := h.talk
  have hkept := NamesKept.refl w.nodes
  -- what a request writes down is of its own job; of the nodes it may change all but the names
  cases r with
  | fileBlocks site path =>
    simp only [serve, Option.some.injEq, Prod.mk.injEq] at hs
    obtain ⟨rfl, rfl⟩ := hs
    refine ⟨h.say_talk, hkept, h.say hkept (fun x hx => Or.inl ?_) fun n name b hx => Or.inl ?_⟩
    · cases site with
      | plan => exact hx
      | replan => exact hx
    · cases site with
      | plan => exact hx
      | replan => exact hx
  | updateNodes nodeID nodeIP nodePort =>
    simp only [serve, Option.some.injEq, Prod.mk.injEq] at hs
    obtain ⟨-, rfl⟩ := hs
    have hupdated : NamesKept w.nodes (updateNodes w.nodes nodeID nodeIP nodePort) :=
      ⟨steady_updateNodes nodeID nodeIP nodePort, fun hd => distinct_updateNodes hd nodeID nodeIP nodePort⟩
    exact ⟨rfl, hupdated, h.same hupdated⟩
  | selectNode site copies =>
    simp only [serve, Option.map_eq_some_iff, Prod.mk.injEq] at hs
    obtain ⟨y, -, rfl, rfl⟩ := hs
    refine ⟨h.say_talk, hkept, h.say hkept (fun x hx => Or.inl ?_) fun n name b hx => Or.inl ?_⟩
    · cases y with
      | none => exact hx
      | some y => exact hx
    · cases y with
      | none => exact hx
      | some y => exact hx
  | listAddMap n numBlock =>
    simp only [serve, Option.map_eq_some_iff, Prod.mk.injEq] at hs
    obtain ⟨node, hnode, -, rfl⟩ := hs
    have hadded : NamesKept w.nodes (addMapNode w.nodes n numBlock) :=
      namesKept_modify (fun node => { node with maps := node.maps ++ [numBlock] }) (fun _ => rfl) n
    refine ⟨⟨node.name, h.say_talk⟩, hadded, h.say hadded (fun x hx => Or.inl hx) fun k name b hx => Or.inr ?_⟩
    obtain ⟨rfl, rfl, -⟩ := Hand.announced.inj hx
    exact hadded.steady n node hnode
  -- what is read is shown to the job, and is at its place
  | readNode n =>
    simp only [serve, Option.map_eq_some_iff, Prod.mk.injEq] at hs
    obtain ⟨node, hnode, rfl, rfl⟩ := hs
    refine ⟨⟨fun name b hx => ?_, h.say_talk⟩, hkept, h.say hkept (fun x hx => ?_) fun k name b hx => Or.inl hx⟩
    · obtain ⟨node', hnode', hname⟩ := h.announced t n name b hx
      rw [hnode, Option.some.injEq] at hnode'
      exact (congrArg Node.name hnode').trans hname
    · rcases List.mem_append.1 hx with hx | hx
      · exact Or.inl hx
      · rw [List.mem_singleton.1 hx]
        exact Or.inr ⟨node, hnode, rfl⟩
  | getTime =>
    simp only [serve, Option.some.injEq, Prod.mk.injEq] at hs
    obtain ⟨rfl, rfl⟩ := hs
    exact ⟨rfl, hkept, h.same hkept⟩
  -- the node is found by the name that the job has for it
  | removeMapNode site nodeName numBlock =>
    simp only [serve, Option.bind_eq_some_iff, Option.map_eq_some_iff, Prod.mk.injEq] at hs
    obtain ⟨n, hfind, nodes, hnodes, -, rfl⟩ := hs
    have hremoved : NamesKept w.nodes nodes := namesKept_found hnodes fun _ => rfl
    refine ⟨⟨nameAt w.nodes n, fun hknown => h.nameAt hfind hknown, h.say_talk⟩,
      hremoved, h.say hremoved (fun x hx => Or.inl hx) fun k name b hx => ?_⟩
    cases site with
    | result => cases hx
    | skip => exact Or.inl hx
    | free => cases hx
  | sendMap site map =>
    simp only [serve, Option.some.injEq, Prod.mk.injEq] at hs
    obtain ⟨rfl, rfl⟩ := hs
    refine ⟨h.say_talk, hkept, h.say hkept (fun x hx => Or.inl ?_) fun n name b hx => ?_⟩
    · unfold Talk.mapSent at hx
      split at hx <;> exact hx
    · unfold Talk.mapSent at hx
      split at hx <;> cases hx
  | recv =>
    cases c with
    | answer i failed =>
      simp only [serve, Option.map_eq_some_iff, Prod.mk.injEq] at hs
      obtain ⟨o, ho, rfl, rfl⟩ := hs
      exact ⟨Or.inr ⟨i, o, failed, ho, rfl, h.say_talk⟩, hkept, h.say hkept (fun x hx => Or.inl hx)
        fun n name b hx => by cases hx⟩
    | _ =>
      simp only [serve, Option.some.injEq, Prod.mk.injEq] at hs
      obtain ⟨rfl, rfl⟩ := hs
      exact ⟨Or.inl ⟨rfl, h.say_talk⟩, hkept, h.say hkept (fun x hx => Or.inl hx) fun n name b hx => by cases hx⟩
  | deactivateNode nodeName =>
    simp only [serve, Option.map_eq_some_iff, Prod.mk.injEq] at hs
    obtain ⟨nodes, hnodes, -, rfl⟩ := hs
    have hdeactivated : NamesKept w.nodes nodes := namesKept_found hnodes fun _ => rfl
    exact ⟨rfl, hdeactivated, h.same hdeactivated⟩
  | selectMoreTemps maps =>
    simp only [serve, Option.map_eq_some_iff, Prod.mk.injEq] at hs
    obtain ⟨y, -, rfl, rfl⟩ := hs
    exact ⟨rfl, hkept, h.same hkept⟩
  | selectFinalNode reduces =>
    simp only [serve, Option.bind_eq_some_iff, Option.map_eq_some_iff, Prod.mk.injEq] at hs
    obtain ⟨y, -, node, hnode, rfl, rfl⟩ := hs
    refine ⟨⟨y.1, h.say_talk⟩, hkept, h.say hkept (fun x hx => ?_) fun n name b hx => Or.inl hx⟩
    rcases List.mem_append.1 hx with hx | hx
    · exact Or.inl hx
    · rw [List.mem_singleton.1 hx]
      exact Or.inr ⟨node, hnode, rfl⟩
  | addReduceNode finalNode =>
    simp only [serve, Option.bind_eq_some_iff, Option.map_eq_some_iff, Prod.mk.injEq] at hs
    obtain ⟨n, hfind, nodes, hnodes, -, rfl⟩ := hs
    have hchanged : NamesKept w.nodes nodes := namesKept_found hnodes fun _ => rfl
    exact ⟨⟨nameAt w.nodes n, fun hknown => h.nameAt hfind hknown, h.say_talk⟩, hchanged,
      h.say hchanged (fun x hx => Or.inl hx) fun k name b hx => by cases hx⟩
  | sendReduce final job reduce =>
    simp only [serve, Option.some.injEq, Prod.mk.injEq] at hs
    obtain ⟨rfl, rfl⟩ := hs
    refine ⟨h.say_talk, hkept, h.say hkept (fun x hx => Or.inl ?_) fun n name b hx => ?_⟩
    · unfold Talk.reduceSent at hx
      split at hx <;> exact hx
    · unfold Talk.reduceSent at hx
      split at hx <;> cases hx
  | removeReduceNode finalNode =>
    simp only [serve, Option.bind_eq_some_iff, Option.map_eq_some_iff, Prod.mk.injEq] at hs
    obtain ⟨n, hfind, nodes, hnodes, -, rfl⟩ := hs
    have hchanged : NamesKept w.nodes nodes := namesKept_found hnodes fun _ => rfl
    exact ⟨⟨nameAt w.nodes n, fun hknown => h.nameAt hfind hknown, h.say_talk⟩, hchanged,
      h.say hchanged (fun x hx => Or.inl hx) fun k name b hx => by cases hx⟩
  | copyFinal job =>
    simp only [serve, Option.some.injEq, Prod.mk.injEq] at hs
    obtain ⟨rfl, rfl⟩ := hs
    exact ⟨rfl, hkept, h.same hkept⟩
  | sendDie result =>
    simp only [serve, Option.some.injEq, Prod.mk.injEq] at hs
    obtain ⟨-, rfl⟩ := hs
    exact ⟨rfl, hkept, h.same hkept⟩
  | exit =>
    simp only [serve, Option.some.injEq, Prod.mk.injEq] at hs
    obtain ⟨-, rfl⟩ := hs
    exact ⟨h.say_talk, hkept, h.say hkept (fun x hx => Or.inl hx) fun n name b hx => by cases hx⟩
  | mark point job =>
    simp only [serve, Option.some.injEq, Prod.mk.injEq] at hs
    obtain ⟨-, rfl⟩ := hs
    refine ⟨h.say_talk, hkept, h.say hkept (fun x hx => Or.inl ?_) fun n name b hx => Or.inl ?_⟩
    · cases point with
      | _ => exact hx
    · cases point with
      | _ => exact hx

/-- The requests that change the list of nodes. -/
def Req.changesNodes : Req → Bool
  | .updateNodes _ _ _ | .listAddMap _ _ | .removeMapNode _ _ _ | .deactivateNode _ | .addReduceNode _
  | .removeReduceNode _ => true
  | _ => false

theorem serve_nodes (hs : serve t w r c = some (x, u)) (hr : r.changesNodes = false) : u.nodes = w.nodes := by
  cases r with
  | updateNodes | listAddMap | removeMapNode | deactivateNode | addReduceNode | removeReduceNode => cases hr
  | recv =>
    cases c with
    | answer i failed =>
      simp only [serve, Option.map_eq_some_iff, Prod.mk.injEq] at hs
      obtain ⟨o, -, -, rfl⟩ := hs
      rfl
    | _ =>
      simp only [serve, Option.some.injEq, Prod.mk.injEq] at hs
      obtain ⟨-, rfl⟩ := hs
      rfl
  | selectNode site copies =>
    simp only [serve, Option.map_eq_some_iff, Prod.mk.injEq] at hs
    obtain ⟨y, -, -, rfl⟩ := hs
    rfl
  | readNode n =>
    simp only [serve, Option.map_eq_some_iff, Prod.mk.injEq] at hs
    obtain ⟨node, -, -, rfl⟩ := hs
    rfl
  | selectMoreTemps maps =>
    simp only [serve, Option.map_eq_some_iff, Prod.mk.injEq] at hs
    obtain ⟨y, -, -, rfl⟩ := hs
    rfl
  | selectFinalNode reduces =>
    simp only [serve, Option.bind_eq_some_iff, Option.map_eq_some_iff, Prod.mk.injEq] at hs
    obtain ⟨y, -, node, -, -, rfl⟩ := hs
    rfl
  | _ =>
    simp only [serve, Option.some.injEq, Prod.mk.injEq] at hs
    obtain ⟨-, rfl⟩ := hs
    rfl

end Mdfs.MaRTA
