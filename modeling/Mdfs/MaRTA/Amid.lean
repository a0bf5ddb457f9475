import Mdfs.MaRTA.Steps

/-!
# One function, amid the other jobs

`Pool` runs whole jobs. For what is said of one function, the other jobs are what they may have
made of the list of nodes before each of its requests.

* `amid_request`: a request that is served on all lists that the others may leave.
* `amid_leave`: a job that leaves takes its maps off, while their nodes are registered.
* `amid_notificarReduce`: `notificarReduce` sends its order once, or the job dies.
-/

namespace Mdfs.MaRTA

open Lib

/-- Job `t`'s requests, each served on the nodes that the other jobs leave it. -/
def amid (t : ℕ) : Handler Resp World (List Node × Choice) := fun w r x => serve t { w with nodes := x.1 } r x.2

/-- The nodes of the maps are registered. -/
def MapsFound (nodes : List Node) (maps : List Map) : Prop := ∀ m ∈ maps, (findNode nodes m.nodeName).isSome = true

instance (nodes : List Node) (maps : List Map) : Decidable (MapsFound nodes maps) :=
    inferInstanceAs (Decidable (∀ m ∈ maps, _))

/-- What a job asks is served, while the nodes of its maps are registered. -/
abbrev amidSpec (t : ℕ) (maps : List Map) : Spec Resp World := Spec.total (amid t) fun _ _ x => MapsFound x.1 maps

/-! ## Nodes that stay registered -/

instance (nodes nodes' : List Node) : Decidable (Steady nodes nodes') :=
  decidable_of_iff (∀ n ∈ List.range nodes.length, (nodes'[n]?).map Node.name = (nodes[n]?).map Node.name) (by
    constructor
    · intro h n node hn
      obtain ⟨hlt, -⟩ := List.getElem?_eq_some_iff.1 hn
      have hsame := h n (List.mem_range.2 hlt)
      rw [hn, Option.map_some, Option.map_eq_some_iff] at hsame
      exact hsame
    · intro h n hn
      obtain ⟨node', hn', hname⟩ := h n _ (List.getElem?_eq_getElem (List.mem_range.1 hn))
      rw [hn', List.getElem?_eq_getElem (List.mem_range.1 hn), Option.map_some, Option.map_some, hname])

variable {nodes nodes' : List Node} {maps : List Map} {t : ℕ} {w : World} {α : Type} {E : Exit → World → Prop}
  {C : World → Req → List Node × Choice → Prop}

theorem Steady.found (h : Steady nodes nodes') {name : CStr} (hname : (findNode nodes name).isSome = true) :
    (findNode nodes' name).isSome = true := by
  obtain ⟨n, hn⟩ := Option.isSome_iff_exists.1 hname
  obtain ⟨node, hnode, hcase⟩ := findNode_spec hn
  obtain ⟨node', hnode', hsame⟩ := h n node hnode
  unfold findNode
  rw [List.findIdx?_isSome, List.any_eq_true]
  exact ⟨node', List.mem_of_getElem? hnode', by rw [hsame]; exact hcase⟩

theorem Steady.mapsFound (h : Steady nodes nodes') (hmaps : MapsFound nodes maps) : MapsFound nodes' maps :=
  fun m hm => h.found (hmaps m hm)

theorem found_of_getElem? {n : ℕ} {node : Node} (h : nodes[n]? = some node) :
    (findNode nodes node.name).isSome = true := by
  unfold findNode
  rw [List.findIdx?_isSome, List.any_eq_true]
  exact ⟨node, List.mem_of_getElem? h, stringEqualsIgnoreCase_refl node.name⟩

/-! ## Requests -/

/-- What a job writes down is in its record. -/
theorem World.say_talk (w : World) (t : ℕ) (f : Talk → Talk) : (w.say t f).talk t = f (w.talk t) :=
    Function.update_self ..

/-- **A request that is served** whatever the others do. -/
theorem amid_request {r : Req} {Q : Resp r → World → Prop}
    (h : ∀ nodes c, C w r (nodes, c) → ∃ x u, serve t { w with nodes } r c = some (x, u) ∧ Q x u) :
    (request r).Ok (Spec.total (amid t) C) Q E w := by
  constructor
  · intro y hy
    obtain ⟨x, u, hs, -⟩ := h y.1 y.2 hy
    rw [show amid t w r y = some (x, u) from hs]
    rfl
  · rintro x u ⟨y, hy, hs⟩
    obtain ⟨x', u', hs', hQ⟩ := h y.1 y.2 hy
    obtain ⟨rfl, rfl⟩ := Prod.mk.inj (Option.some.inj (hs'.symm.trans hs))
    exact hQ

/-- The maps of a job are taken off their nodes: `I` is what it takes to find these. -/
theorem amid_removeMaps {job : Job} {I : World → Prop}
    (hC : ∀ w r x, I w → C w r x → MapsFound x.1 job.maps ∧ ∀ w' : World, Steady x.1 w'.nodes → I w') (hI : I w) :
    (removeMaps .free job.maps).Ok (Spec.total (amid t) C) (fun _ => I) E w := by
  refine Prog.ok_iterate (K := fun _ => I) job.maps ?_ hI
  intro done m rest w₁ hsplit hw₁
  refine amid_request fun nodes c hleft => ?_
  obtain ⟨hreg, hnext⟩ := hC w₁ _ (nodes, c) hw₁ hleft
  have hm : m ∈ job.maps := hsplit ▸ List.mem_append_right done List.mem_cons_self
  obtain ⟨n, hn⟩ := Option.isSome_iff_exists.1 (hreg m hm)
  set w₂ := World.say ⟨nodes.modify n fun node => { node with maps := node.maps.erase m.numBlock }, w₁.talk⟩ t
    fun l =>
    l.removed .free (nameAt nodes n) m.numBlock
  have hs : serve t { w₁ with nodes } (.removeMapNode .free m.nodeName m.numBlock) c = some ((), w₂) := by
    simp only [serve, removeMapNode, hn, Option.map_some, Option.bind_some, w₂]
  have hsteady : Steady nodes w₂.nodes :=
    steady_modify (fun node : Node => { node with maps := node.maps.erase m.numBlock }) (fun _ => rfl) n
  exact ⟨(), w₂, hs, hnext w₂ hsteady⟩

/-- A job leaves for the reason it has. -/
theorem amid_leave {job : Job} {Q : α → World → Prop} {I : World → Prop} (exit : Exit)
    (hC : ∀ w r x, I w → C w r x → MapsFound x.1 job.maps ∧ ∀ w' : World, Steady x.1 w'.nodes → I w') (hI : I w) :
    (leave job exit : JobProg α).Ok (Spec.total (amid t) C) Q (fun e _ => e = exit) w := by
  unfold leave
  rw [Prog.ok_bind]
  refine (ok_freeJob (amid_removeMaps hC hI) fun hfreed => by cases hfreed).imp fun _ w₁ _ => ?_
  rw [Prog.ok_bind]
  exact amid_request fun nodes c _ => ⟨(), _, rfl, rfl⟩

/-- A job is aborted where it frees again what is free. -/
theorem amid_freesAgain {job : Job} {Q : α → World → Prop} {I : World → Prop} (exit : Exit)
    (hC : ∀ w r x, I w → C w r x → MapsFound x.1 job.maps ∧ ∀ w' : World, Steady x.1 w'.nodes → I w') (hI : I w) :
    (leave job exit true : JobProg α).Ok (Spec.total (amid t) C) Q (fun e _ => e = .aborted) w := by
  unfold leave freeJob
  rw [Prog.ok_bind, Prog.ok_bind]
  exact (amid_removeMaps hC hI).imp fun _ _ _ => rfl

/-- **`notificarReduce`** on a node that is registered sends its order once, or the job dies: `I` is what
it takes to find this node and those of its maps. -/
theorem amid_notificarReduce (final : Bool) (job : Job) {reduce : Reduce} {history : List Event} {I : World → Prop}
    (hC : ∀ w r x, I w → C w r x → MapsFound x.1 job.maps ∧ ∀ w' : World, Steady x.1 w'.nodes → I w') (hI : I w)
    (hnode : ∀ w r x, I w → C w r x → (findNode x.1 reduce.finalNode).isSome = true)
    (hhistory : (w.talk t).history = history) :
    (notificarReduce final job reduce).Ok (Spec.total (amid t) C)
      (fun _ w' => (w'.talk t).history = history ++ [.order (.reduce reduce)]) (fun e _ => e = .died) w := by
  unfold notificarReduce
  rw [Prog.ok_bind]
  refine amid_request fun nodes c hleft => ?_
  obtain ⟨-, hnext⟩ := hC w _ (nodes, c) hI hleft
  obtain ⟨n, hn⟩ := Option.isSome_iff_exists.1 (hnode w _ (nodes, c) hI hleft)
  -- the node has one reduce more, and the order is sent from there
  set w₁ := World.say ⟨nodes.modify n fun node => { node with reduces := node.reduces + 1 }, w.talk⟩ t fun l =>
    l.reduceAdded reduce.finalNode (nameAt nodes n) with hw₁
  have hs : serve t { w with nodes } (.addReduceNode reduce.finalNode) c = some ((), w₁) := by
    simp only [serve, addReduceNode, hn, Option.map_some, Option.bind_some, hw₁]
  have hsteady : Steady nodes w₁.nodes :=
    steady_modify (fun node : Node => { node with reduces := node.reduces + 1 }) (fun _ => rfl) n
  have hhistory₁ : (w₁.talk t).history = history := by
    rw [← hhistory, hw₁, World.say_talk]
    rfl
  refine ⟨(), w₁, hs, ?_⟩
  rw [Prog.ok_bind]
  refine amid_request fun nodes₁ c₁ hleft₁ => ⟨c₁ = .done, _, rfl, ?_⟩
  obtain ⟨-, hlast⟩ := hC w₁ _ (nodes₁, c₁) (hnext w₁ hsteady) hleft₁
  by_cases hthrough : c₁ = .done
  · rw [if_pos (decide_eq_true hthrough)]
    change ((World.say ⟨nodes₁, w₁.talk⟩ t _).talk t).history = _
    rw [World.say_talk, decide_eq_true hthrough, ← hhistory₁]
    rfl
  · rw [if_neg (by simp [hthrough])]
    exact amid_leave .died hC (hlast _ (Steady.refl nodes₁))

/-- **What `planFinalReduce` has done**: the final reduce is on the node and has the temps besides those
that it had, and it was ordered once. -/
structure FinalOrdered (t : ℕ) (w : World) (job : Job) (name : CStr) (temps : List Temp) (job' : Job) (w' : World) :
    Prop where
  rest : job' = { job with finalReduce := job'.finalReduce }
  node : job'.finalReduce.finalNode = name
  temps : job'.finalReduce.temps = job.finalReduce.temps ++ temps
  ordered : (w'.talk t).history = (w.talk t).history ++ [.order (.reduce job'.finalReduce)]

/-- **`planFinalReduce`** on a node that is registered orders the final reduce, or the job dies. -/
theorem amid_planFinalReduce {job : Job} {node : NodeInfo} {temps : List Temp} {I : World → Prop}
    (hC : ∀ w r x, I w → C w r x → MapsFound x.1 job.maps ∧ ∀ w' : World, Steady x.1 w'.nodes → I w') (hI : I w)
    (hnode : ∀ w r x, I w → C w r x → (findNode x.1 node.name).isSome = true) :
    (planFinalReduce job node temps).Ok (Spec.total (amid t) C) (FinalOrdered t w job node.name temps)
      (fun e _ => e = .died) w := by
  unfold planFinalReduce
  rw [Prog.ok_bind]
  refine amid_request fun nodes c hleft => ⟨c.clock, _, rfl, ?_⟩
  obtain ⟨-, hnext⟩ := hC w _ (nodes, c) hI hleft
  set reduce := setFinalReduce job.finalReduce node.name node.ip node.port job.id c.clock with hreduce
  set final : Reduce := { reduce with temps := reduce.temps ++ temps } with hfinal
  have hordered : (notificarReduce true { job with finalReduce := final } final).Ok (Spec.total (amid t) C)
      (fun _ w' => (w'.talk t).history = (w.talk t).history ++ [.order (.reduce final)]) (fun e _ => e = .died)
      ⟨nodes, w.talk⟩ :=
    amid_notificarReduce true { job with finalReduce := final } hC (hnext _ (Steady.refl nodes)) hnode rfl
  rw [Prog.ok_bind]
  exact hordered.imp fun _ w' hhistory => ⟨rfl, rfl, rfl, hhistory⟩

end Mdfs.MaRTA
