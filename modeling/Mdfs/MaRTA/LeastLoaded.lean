import Mdfs.MaRTA.Coverage
import Mdfs.MaRTA.Selection

/-!
# The least busy node for each block

`selectNode`, folded over the copies of a block, selects the first of the least busy active
nodes. When `planMaps` goes through the blocks it puts each map on its node before it comes to
the next block, so the loads it compares have the earlier maps in them. A block without an
active copy takes all of them off again, and the loop goes on.

* `plan_blocks`: the loads of a planning have the earlier maps in them just when the loop does
  not go on after such a block.
* `least_loaded`: both, for `selectNode` and for `planMaps`.
* `emptied_node`: two maps are sent to one node, and another one is less busy.
-/

namespace Mdfs.MaRTA

open Lib

/-! ## What a planning has sent -/

/-- The block of a map order to a node. -/
def Event.blockOn (name : CStr) : Event → Option UInt16
  | .order (.map m) => if m.nodeName = name then some m.numBlock else none
  | _ => none

/-- The blocks of the map orders to a node. -/
def sentTo (history : List Event) (name : CStr) : List UInt16 := history.filterMap (Event.blockOn name)

/-- A node with the maps that a job has sent to it. -/
def Node.withSent (history : List Event) (node : Node) :
    Node := { node with maps := node.maps ++ sentTo history node.name }

/-- **Where `planMaps` selects** the nodes are those of `nodes`, with the maps that the job has
sent since. -/
def Included (t : ℕ) (nodes : List Node) (w : World) (r : Req) (_ : Choice) : Prop :=
  ∀ copies ∈ r.copiesPlanned, w.nodes = nodes.map (Node.withSent (w.talk t).history)

instance (t : ℕ) (nodes : List Node) (w : World) (r : Req) (c : Choice) : Decidable (Included t nodes w r c) :=
  inferInstanceAs (Decidable (∀ copies ∈ r.copiesPlanned, _))

/-- Some copy of a block is on an active node. -/
def Offers (nodes : List Node) (copies : List Copy) : Prop := ∃ copy ∈ copies, OnActive nodes copy.nodeName

/-- **The loop goes on after it has taken maps off**: a block with an active copy is followed by
a block without one, and that by another block. -/
def GoesOn (nodes : List Node) (blocks : List (List Copy)) : Prop :=
  ∃ before copies after, blocks = before ++ copies :: after ∧ (∃ earlier ∈ before, Offers nodes earlier) ∧
    ¬Offers nodes copies ∧ after ≠ []

/-- The same for a loop that has `begun` with a map. -/
def GoesOnFrom (nodes : List Node) (begun : Prop) (blocks : List (List Copy)) : Prop :=
  ∃ before copies after, blocks = before ++ copies :: after ∧ ¬Offers nodes copies ∧ after ≠ [] ∧
    (begun ∨ ∃ earlier ∈ before, Offers nodes earlier)

variable {nodes : List Node} {copies : List Copy} {blocks : List (List Copy)} {begun : Prop}

/-- A loop that has not begun. -/
theorem goesOnFrom_iff (h : ¬begun) : GoesOnFrom nodes begun blocks ↔ GoesOn nodes blocks := by
  constructor
  · rintro ⟨before, copies, after, hsplit, hskipped, hafter, hearlier⟩
    exact ⟨before, copies, after, hsplit, hearlier.resolve_left h, hskipped, hafter⟩
  · rintro ⟨before, copies, after, hsplit, hearlier, hskipped, hafter⟩
    exact ⟨before, copies, after, hsplit, hskipped, hafter, Or.inr hearlier⟩

theorem goesOn_nil : ¬GoesOnFrom nodes begun [] := by
  rintro ⟨before, copies, after, hsplit, -⟩
  cases before <;> cases hsplit

/-- A block that is planned. -/
theorem goesOn_cons_offers (h : Offers nodes copies) : GoesOnFrom nodes begun (copies :: blocks) ↔
    GoesOnFrom nodes True blocks := by
  constructor
  · rintro ⟨before, skipped, after, hsplit, hskipped, hafter, -⟩
    cases before with
    | nil =>
      obtain ⟨rfl, -⟩ := List.cons.inj hsplit
      exact absurd h hskipped
    | cons _ before =>
      obtain ⟨rfl, rfl⟩ := List.cons.inj hsplit
      exact ⟨before, skipped, after, rfl, hskipped, hafter, Or.inl trivial⟩
  · rintro ⟨before, skipped, after, rfl, hskipped, hafter, -⟩
    exact ⟨copies :: before, skipped, after, rfl, hskipped, hafter, Or.inr ⟨copies, List.mem_cons_self, h⟩⟩

/-- A block that is skipped before any was planned. -/
theorem goesOn_cons_skip (h : ¬Offers nodes copies) (hbegun : ¬begun) :
    GoesOnFrom nodes begun (copies :: blocks) ↔ GoesOnFrom nodes begun blocks := by
  constructor
  · rintro ⟨before, skipped, after, hsplit, hskipped, hafter, hearlier⟩
    obtain ⟨earlier, hmem, hoffers⟩ := hearlier.resolve_left hbegun
    cases before with
    | nil => exact absurd hmem List.not_mem_nil
    | cons _ before =>
      obtain ⟨rfl, rfl⟩ := List.cons.inj hsplit
      rcases List.mem_cons.1 hmem with rfl | hmem
      · exact absurd hoffers h
      · exact ⟨before, skipped, after, rfl, hskipped, hafter, Or.inr ⟨earlier, hmem, hoffers⟩⟩
  · rintro ⟨before, skipped, after, rfl, hskipped, hafter, hearlier⟩
    obtain ⟨earlier, hmem, hoffers⟩ := hearlier.resolve_left hbegun
    exact ⟨copies :: before, skipped, after, rfl, hskipped, hafter,
      Or.inr ⟨earlier, List.mem_cons_of_mem _ hmem, hoffers⟩⟩

/-- A block that is skipped after one was planned. -/
theorem goesOn_cons_drop (h : ¬Offers nodes copies) (hbegun : begun) :
    GoesOnFrom nodes begun (copies :: blocks) ↔ blocks ≠ [] := by
  constructor
  · rintro ⟨before, skipped, after, hsplit, -, hafter, -⟩ rfl
    cases before with
    | nil =>
      obtain ⟨-, rfl⟩ := List.cons.inj hsplit
      exact hafter rfl
    | cons _ before =>
      obtain ⟨-, hnil⟩ := List.cons.inj hsplit
      cases before <;> cases hnil
  · intro hblocks
    exact ⟨[], copies, blocks, rfl, h, hblocks, Or.inl hbegun⟩

/-! ## Nodes that keep their names -/

variable {f : Node → Node} {name : CStr} {n : ℕ} {node : Node}

theorem findNode_map (hf : ∀ node, (f node).name = node.name) : findNode (nodes.map f) name = findNode nodes name := by
  unfold findNode
  rw [List.findIdx?_map]
  exact congrArg (nodes.findIdx? ·) (funext fun node => by rw [Function.comp_apply, hf])

theorem isActiveAt_map (hf : ∀ node, (f node).active = node.active) :
    isActiveAt (nodes.map f) n = isActiveAt nodes n := by
  unfold isActiveAt
  rw [List.getElem?_map, Option.any_map]
  exact congrArg (nodes[n]?.any ·) (funext hf)

theorem onActive_map (hname : ∀ node, (f node).name = node.name) (hactive : ∀ node, (f node).active = node.active) :
    OnActive (nodes.map f) name ↔ OnActive nodes name := by
  unfold OnActive
  rw [findNode_map hname]
  exact exists_congr fun n => by rw [isActiveAt_map hactive]

theorem Distinct.map (h : Distinct nodes) (hf : ∀ node, (f node).name = node.name) : Distinct (nodes.map f) := by
  unfold Distinct at *
  rw [List.pairwise_map]
  exact h.imp fun hab => by rw [hf, hf]; exact hab

/-- Changing a node, but not its name, changes no lookup. -/
theorem findNode_modify (hf : ∀ node, (f node).name = node.name) :
    findNode (nodes.modify n f) name = findNode nodes name := by
  unfold findNode
  induction nodes generalizing n with
  | nil => rw [List.modify_nil]
  | cons node nodes ih =>
    cases n with
    | zero =>
      rw [List.modify_zero_cons, List.findIdx?_cons, List.findIdx?_cons, hf]
    | succ n =>
      rw [List.modify_succ_cons, List.findIdx?_cons, List.findIdx?_cons, ih]

/-! ## The steps of a planning -/

/-- How many maps the node at a place has. -/
def mapsAt (nodes : List Node) (n : ℕ) : ℕ := (nodes[n]?).elim 0 fun node => node.maps.length

/-- The specification of a planning: every selection is where the maps sent so far are included. -/
abbrev planSpec (t : ℕ) (nodes : List Node) : Spec Resp World :=
  ⟨fun w r => ∀ c, Included t nodes w r c, fun w r x u => ∃ c, serve t w r c = some (x, u)⟩

abbrev anyEnd : Exit → World → Prop := fun _ _ => True

variable {t : ℕ} {w u : World} {α : Type} {job : Job} {maps : List Map} {map : Map}

theorem included_of_none {r : Req} {c : Choice} (h : r.copiesPlanned = none) : Included t nodes w r c := by
  intro copies hcopies
  rw [h] at hcopies
  cases hcopies

/-- A request that is served in one way. -/
theorem plan_served {r : Req} {x : Resp r} {Q : Resp r → World → Prop} (hr : ∀ c, Included t nodes w r c)
    (h : ∀ c, serve t w r c = some (x, u)) : (request r).Ok (planSpec t nodes) Q anyEnd w ↔ Q x u := by
  constructor
  · exact fun hok => hok.2 x u ⟨.done, h .done⟩
  · intro hQ
    refine ⟨hr, ?_⟩
    rintro y v ⟨c, hc⟩
    rw [h c, Option.some.injEq, Prod.mk.injEq] at hc
    obtain ⟨rfl, rfl⟩ := hc
    exact hQ

theorem plan_request {r : Req} {x : Resp r} {Q : Resp r → World → Prop} (hr : r.copiesPlanned = none)
    (h : ∀ c, serve t w r c = some (x, u)) : (request r).Ok (planSpec t nodes) Q anyEnd w ↔ Q x u :=
  plan_served (fun _ => included_of_none hr) h

theorem plan_leave {Q : α → World → Prop} (job : Job) (exit : Exit) :
    (leave job exit : JobProg α).Ok (planSpec t nodes) Q anyEnd w := by
  have hremove : (removeMaps .free job.maps).Always (planSpec t nodes) :=
    Prog.always_iterate job.maps fun _ _ => Prog.always_ask (fun _ _ => included_of_none rfl) fun _ _ _ _ _ => trivial
  unfold leave
  rw [Prog.ok_bind]
  refine (ok_freeJob (hremove w) fun _ _ _ => trivial).imp fun _ w₁ _ => ?_
  rw [Prog.ok_bind]
  exact ⟨fun _ => included_of_none rfl, fun _ _ _ => trivial⟩

/-- **`notificarMap`** goes on when the order is through. -/
theorem plan_notificarMap {Q : Unit → World → Prop} : (notificarMap .plan job map).Ok (planSpec t nodes) Q anyEnd w ↔
    Q () (w.say t fun l => l.mapSent .plan map true) := by
  unfold notificarMap
  rw [Prog.ok_bind]
  constructor
  · intro hok
    have hsent := hok.2 true _ ⟨.done, rfl⟩
    rw [Prog.ok_ret, if_pos rfl, Prog.ok_pure] at hsent
    exact hsent
  · intro hQ
    refine ⟨fun _ => included_of_none rfl, ?_⟩
    rintro through u ⟨c, hc⟩
    simp only [serve, Option.some.injEq, Prod.mk.injEq] at hc
    obtain ⟨rfl, rfl⟩ := hc
    rw [Prog.ok_ret]
    by_cases hthrough : c = .done
    · rw [if_pos (decide_eq_true hthrough), decide_eq_true hthrough]
      exact hQ
    · rw [if_neg (by simp [hthrough])]
      exact plan_leave job .died

/-! ## A block is skipped -/

/-- `removeMapNode` of one map that was sent. -/
def dropMap (t : ℕ) (w : World) (m : Map) : World :=
  match findNode w.nodes m.nodeName with
  | none => w
  | some n => World.say ⟨w.nodes.modify n fun node => { node with maps := node.maps.erase m.numBlock }, w.talk⟩
      t fun l =>
      l.removed .skip (nameAt w.nodes n) m.numBlock

theorem dropMap_history (m : Map) : ((dropMap t w m).talk t).history = (w.talk t).history := by
  unfold dropMap
  split
  · rfl
  · change (Function.update w.talk t _ t).history = _
    rw [Function.update_self]
    rfl

theorem findNode_dropMap (m : Map) (name : CStr) : findNode (dropMap t w m).nodes name = findNode w.nodes name := by
  unfold dropMap
  split
  · rfl
  · exact findNode_modify fun _ => rfl

theorem mapsAt_dropMap_le (m : Map) (n : ℕ) : mapsAt (dropMap t w m).nodes n ≤ mapsAt w.nodes n := by
  unfold dropMap
  split
  · exact le_rfl
  · rename_i k hk
    simp only [World.say, mapsAt, List.getElem?_modify]
    cases w.nodes[n]? with
    | none => exact le_rfl
    | some node =>
      rw [Option.map_eq_map, Option.map_some, Option.elim_some, Option.elim_some]
      split
      · exact List.length_erase_le
      · exact le_rfl

/-- A map that is on its node is taken off it. -/
theorem mapsAt_dropMap_lt {m : Map} (hfind : findNode w.nodes m.nodeName = some n) (hn : w.nodes[n]? = some node)
    (hm : m.numBlock ∈ node.maps) : mapsAt (dropMap t w m).nodes n < mapsAt w.nodes n := by
  have hpos := List.length_pos_of_mem hm
  unfold dropMap
  simp only [hfind, World.say, mapsAt, List.getElem?_modify, hn, Option.map_eq_map, Option.map_some,
    Option.elim_some, if_true]
  rw [List.length_erase_of_mem hm]
  omega

/-- The maps that were sent are taken off one by one. -/
theorem plan_removeMaps {Q : Unit → World → Prop} (h : ∀ m ∈ maps, (findNode w.nodes m.nodeName).isSome = true) :
    (removeMaps .skip maps).Ok (planSpec t nodes) Q anyEnd w ↔ Q () (maps.foldl (dropMap t) w) := by
  unfold removeMaps
  induction maps generalizing w with
  | nil => rfl
  | cons m maps ih =>
    obtain ⟨n, hn⟩ := Option.isSome_iff_exists.1 (h m List.mem_cons_self)
    have hserved : ∀ c, serve t w (.removeMapNode .skip m.nodeName m.numBlock) c = some ((), dropMap t w m) := by
      intro c
      simp only [serve, removeMapNode, dropMap, hn, Option.bind_some, Option.map_some]
    rw [Prog.iterate, ← Prog.bind_def, Prog.ok_bind, plan_request rfl hserved, List.foldl_cons]
    refine ih fun m' hm' => ?_
    rw [findNode_dropMap]
    exact h m' (List.mem_cons_of_mem m hm')

theorem foldl_dropMap_history : ((maps.foldl (dropMap t) w).talk t).history = (w.talk t).history := by
  induction maps generalizing w with
  | nil => rfl
  | cons m maps ih => rw [List.foldl_cons, ih, dropMap_history]

theorem mapsAt_foldl_dropMap_le (w : World) (maps : List Map) (n : ℕ) :
    mapsAt (maps.foldl (dropMap t) w).nodes n ≤ mapsAt w.nodes n := by
  induction maps generalizing w with
  | nil => exact le_rfl
  | cons m maps ih => exact (ih (dropMap t w m)).trans (mapsAt_dropMap_le m n)

/-! ## A block is planned -/

/-- What is left when a block was planned on the node `n`, and its order is through. -/
def World.plannedOn (w : World) (t : ℕ) (copies : List Copy) (n : ℕ) (numBlock : UInt16) (node : Node)
    (map : Map) : World :=
  World.say ⟨addMapNode w.nodes n numBlock, w.talk⟩ t fun l =>
    (((l.selected .plan copies (some (n, numBlock))).added n node.name numBlock).read n node.info).mapSent .plan
      map true

theorem plannedOn_history (copies : List Copy) (numBlock : UInt16) :
    ((w.plannedOn t copies n numBlock node map).talk t).history = (w.talk t).history ++ [.order (.map map)] := by
  change (Function.update w.talk t _ t).history = _
  rw [Function.update_self]
  rfl

/-- The map of a block that is planned. -/
def Job.mapOn (job : Job) (node : Node) (numBlock : UInt16) (copies : List Copy) (time : Time) : Map :=
  createMap job.maps.length.toUInt16 numBlock node.port node.name node.ip job.id time copies

/-- **`mapPlanning` of a block with an active copy**, on the node that is selected. -/
theorem plan_mapPlanning_some {Q : Job → World → Prop} {numBlock : UInt16}
    (hinc : w.nodes = nodes.map (Node.withSent (w.talk t).history))
    (hsel : selectNodeToMap w.nodes copies = some (some (n, numBlock))) (hn : w.nodes[n]? = some node) :
    (mapPlanning job copies).Ok (planSpec t nodes) Q anyEnd w ↔
      ∀ time, Q { job with maps := job.maps ++ [job.mapOn node numBlock copies time] }
        (w.plannedOn t copies n numBlock node (job.mapOn node numBlock copies time)) := by
  have hplace : (addMapNode w.nodes n numBlock)[n]? = some { node with maps := node.maps ++ [numBlock] } := by
    rw [addMapNode, List.getElem?_modify_eq, hn]
    rfl
  set w₁ := w.say t fun l => l.selected .plan copies (some (n, numBlock)) with hw₁
  set w₂ := World.say ⟨addMapNode w.nodes n numBlock, w₁.talk⟩ t fun l => l.added n node.name numBlock with hw₂
  set w₃ := w₂.say t fun l => l.read n node.info with hw₃
  have hselect : ∀ c, serve t w (.selectNode .plan copies) c = some (some (n, numBlock), w₁) := by
    intro c
    simp only [serve, hsel, Option.map_some, hw₁]
  have hadd : ∀ c, serve t w₁ (.listAddMap n numBlock) c = some ((), w₂) := by
    intro c
    simp only [serve, hw₁, World.say, hn, Option.map_some, hw₂]
  have hread : ∀ c, serve t w₂ (.readNode n) c = some (node.info, w₃) := by
    intro c
    have hinfo : ({ node with maps := node.maps ++ [numBlock] } : Node).info = node.info := rfl
    simp only [serve, hw₂, World.say, hplace, Option.map_some, hw₃, hinfo]
  have hlast : ∀ map, (w₃.say t fun l => l.mapSent .plan map true) = w.plannedOn t copies n numBlock node map := by
    intro map
    simp only [hw₃, hw₂, hw₁, World.plannedOn, World.say, Function.update_self, Function.update_idem]
  unfold mapPlanning
  rw [Prog.ok_bind, plan_served (fun _ _ _ => hinc) hselect]
  dsimp only
  rw [Prog.ok_bind, plan_request rfl hadd, Prog.ok_bind, plan_request rfl hread, Prog.ok_bind]
  constructor
  · intro hok time
    have htime := hok.2 time w₃ ⟨.time time, rfl⟩
    rw [Prog.ok_ret, Prog.ok_bind, plan_notificarMap, hlast] at htime
    exact htime
  · intro hQ
    refine ⟨fun _ => included_of_none rfl, ?_⟩
    rintro time v ⟨c', hc'⟩
    simp only [serve, Option.some.injEq, Prod.mk.injEq] at hc'
    obtain ⟨rfl, rfl⟩ := hc'
    rw [Prog.ok_ret, Prog.ok_bind, plan_notificarMap, hlast]
    exact hQ _

/-- **`mapPlanning` of a block without one** takes the maps of the job off their nodes. -/
theorem plan_mapPlanning_none {Q : Job → World → Prop} (hinc : w.nodes = nodes.map (Node.withSent (w.talk t).history))
    (hsel : selectNodeToMap w.nodes copies = some none)
    (hfound : ∀ m ∈ job.maps, (findNode w.nodes m.nodeName).isSome = true) :
    (mapPlanning job copies).Ok (planSpec t nodes) Q anyEnd w ↔
      Q job (job.maps.foldl (dropMap t) (w.say t fun l => l.selected .plan copies none)) := by
  set w₁ := w.say t fun l => l.selected .plan copies none with hw₁
  have hselect : ∀ c, serve t w (.selectNode .plan copies) c = some (none, w₁) := by
    intro c
    simp only [serve, hsel, Option.map_some, hw₁]
  have hfound₁ : ∀ m ∈ job.maps, (findNode w₁.nodes m.nodeName).isSome = true := hfound
  unfold mapPlanning
  rw [Prog.ok_bind, plan_served (fun _ _ _ => hinc) hselect]
  dsimp only
  rw [Prog.ok_bind, plan_removeMaps hfound₁]
  exact Iff.rfl

/-! ## All blocks -/

/-- **A planning between two blocks**: the job has sent its maps, and the nodes have them. -/
structure Planning (t : ℕ) (nodes : List Node) (job : Job) (w : World) : Prop where
  loads : w.nodes = nodes.map (Node.withSent (w.talk t).history)
  sent : (w.talk t).history = job.maps.map fun m => .order (.map m)
  found : ∀ m ∈ job.maps, ∃ (n : ℕ) (node : Node), nodes[n]? = some node ∧ node.name = m.nodeName

theorem sentTo_append (history : List Event) (e : Event) (name : CStr) :
    sentTo (history ++ [e]) name = sentTo history name ++ (e.blockOn name).toList := by
  unfold sentTo
  rw [List.filterMap_append]
  cases h : e.blockOn name with
  | none => rw [List.filterMap_cons_none h]; rfl
  | some b => rw [List.filterMap_cons_some h]; rfl

/-- One more map was sent, to the node at one place. -/
theorem addMapNode_withSent (hd : Distinct nodes) {history : List Event} (hn : nodes[n]? = some node) {m : Map}
    (hm : m.nodeName = node.name) : addMapNode (nodes.map (Node.withSent history)) n m.numBlock =
      nodes.map (Node.withSent (history ++ [.order (.map m)])) := by
  refine List.ext_getElem? fun k => ?_
  unfold addMapNode
  rw [List.getElem?_modify, List.getElem?_map, List.getElem?_map]
  cases hk : nodes[k]? with
  | none => rfl
  | some other =>
    simp only [Option.map_eq_map, Option.map_some, Node.withSent, sentTo_append, Event.blockOn, hm]
    by_cases hnk : n = k
    · obtain rfl : node = other := Option.some.inj (hn.symm.trans (hnk ▸ hk))
      rw [if_pos hnk, if_pos rfl, Option.toList_some, List.append_assoc]
    · have hname : node.name ≠ other.name := by
        intro hname
        have hplace := hd.findNode hn
        rw [hname, hd.findNode hk, Option.some.injEq] at hplace
        exact hnk hplace.symm
      rw [if_neg hnk, if_neg hname, Option.toList_none, List.append_nil]

namespace Planning

variable {numBlock : UInt16}

/-- A node at its place, with the maps that were sent to it. -/
theorem at_place (h : Planning t nodes job w) (hn : w.nodes[n]? = some node) :
    ∃ old, nodes[n]? = some old ∧ node = old.withSent (w.talk t).history := by
  rw [h.loads, List.getElem?_map, Option.map_eq_some_iff] at hn
  obtain ⟨old, hold, rfl⟩ := hn
  exact ⟨old, hold, rfl⟩

theorem findNode_eq (h : Planning t nodes job w) (name : CStr) : findNode w.nodes name = findNode nodes name := by
  rw [h.loads]
  exact findNode_map fun _ => rfl

theorem onActive_iff (h : Planning t nodes job w) (name : CStr) : OnActive w.nodes name ↔ OnActive nodes name := by
  rw [h.loads]
  exact onActive_map (fun _ => rfl) fun _ => rfl

/-- **The map of a block is sent.** -/
theorem append (h : Planning t nodes job w) (hd : Distinct nodes) (hn : w.nodes[n]? = some node) (time : Time) :
    Planning t nodes { job with maps := job.maps ++ [job.mapOn node numBlock copies time] }
      (w.plannedOn t copies n numBlock node (job.mapOn node numBlock copies time)) := by
  obtain ⟨old, hold, rfl⟩ := h.at_place hn
  refine ⟨?_, ?_, ?_⟩
  · rw [plannedOn_history]
    change addMapNode w.nodes n numBlock = _
    have hname : (job.mapOn (old.withSent (w.talk t).history) numBlock copies time).nodeName = old.name := rfl
    rw [h.loads]
    exact addMapNode_withSent hd hold hname
  · rw [plannedOn_history, h.sent, List.map_append]
    rfl
  · intro m hm
    rcases List.mem_append.1 hm with hm | hm
    · exact h.found m hm
    · rw [List.mem_singleton.1 hm]
      exact ⟨n, old, hold, rfl⟩

/-- **A block is skipped** before any was planned. -/
theorem skip (h : Planning t nodes job w) (copies : List Copy) :
    Planning t nodes job (w.say t fun l => l.selected .plan copies none) := by
  have hhistory : ((w.say t fun l => l.selected .plan copies none).talk t).history = (w.talk t).history := by
    change (Function.update w.talk t _ t).history = _
    rw [Function.update_self]
    rfl
  refine ⟨?_, ?_, h.found⟩
  · rw [hhistory]
    exact h.loads
  · rw [hhistory]
    exact h.sent

/-- A map that was sent is on its node. -/
theorem on_node (h : Planning t nodes job w) (hd : Distinct nodes) {m : Map} (hm : m ∈ job.maps) :
    ∃ n node, findNode w.nodes m.nodeName = some n ∧ w.nodes[n]? = some node ∧ m.numBlock ∈ node.maps := by
  obtain ⟨n, old, hold, hname⟩ := h.found m hm
  refine ⟨n, old.withSent (w.talk t).history, ?_, ?_, ?_⟩
  · rw [h.findNode_eq, ← hname]
    exact hd.findNode hold
  · rw [h.loads, List.getElem?_map, hold]
    rfl
  · refine List.mem_append_right _ (List.mem_filterMap.2 ⟨.order (.map m), ?_, if_pos hname.symm⟩)
    rw [h.sent]
    exact List.mem_map_of_mem hm

/-- **Once the maps are taken off**, the nodes do not have what was sent. -/
theorem not_included (h : Planning t nodes job w) (hd : Distinct nodes) (hmaps : job.maps ≠ []) :
    (job.maps.foldl (dropMap t) w).nodes ≠
      nodes.map (Node.withSent ((job.maps.foldl (dropMap t) w).talk t).history) := by
  rw [foldl_dropMap_history, ← h.loads]
  intro hsame
  obtain ⟨m, maps, hcons⟩ := List.exists_cons_of_ne_nil hmaps
  obtain ⟨n, node, hfind, hn, hblock⟩ := h.on_node hd (show m ∈ job.maps by rw [hcons]; exact List.mem_cons_self)
  -- the node of the first map has lost it, and gets nothing back
  have hlt := mapsAt_dropMap_lt (t := t) hfind hn hblock
  have hle := mapsAt_foldl_dropMap_le (t := t) (dropMap t w m) maps n
  rw [hcons, List.foldl_cons] at hsame
  rw [hsame] at hle
  omega

end Planning

/-- Before a map is sent, or after: only whether there is one matters. -/
theorem goesOn_congr {begun' : Prop} (h : begun ↔ begun') : GoesOnFrom nodes begun blocks ↔
    GoesOnFrom nodes begun' blocks := by
  rw [propext h]

/-- **The loads of a planning.** From a state where the nodes have the maps that the job has
sent, every later selection is made in such a state just when the loop does not go on after
it has taken maps off. -/
theorem plan_blocks (hd : Distinct nodes)
    (hreg : ∀ copies ∈ blocks, ∀ copy ∈ copies, (findNode nodes copy.nodeName).isSome = true)
    (h : Planning t nodes job w) :
    (blocks.foldlM mapPlanning job).Ok (planSpec t nodes) (fun _ _ => True) anyEnd w ↔
      ¬GoesOnFrom nodes (job.maps ≠ []) blocks := by
  induction blocks generalizing job w with
  | nil => exact ⟨fun _ => goesOn_nil, fun _ => trivial⟩
  | cons copies blocks ih =>
    have hrest := fun copies hcopies => hreg copies (List.mem_cons_of_mem _ hcopies)
    have hreg₁ : ∀ copy ∈ copies, (findNode w.nodes copy.nodeName).isSome = true := by
      intro copy hcopy
      rw [h.findNode_eq]
      exact hreg copies List.mem_cons_self copy hcopy
    obtain ⟨selected, hsel, hnone, hsome⟩ := selectNodeToMap_selects hreg₁
    rw [List.foldlM_cons, Prog.ok_bind]
    rcases selected with _ | ⟨n, numBlock⟩
    · have hskip : ¬Offers nodes copies := by
        rintro ⟨copy, hcopy, hactive⟩
        exact hnone.1 rfl copy hcopy ((h.onActive_iff _).2 hactive)
      have hfound : ∀ m ∈ job.maps, (findNode w.nodes m.nodeName).isSome = true := by
        intro m hm
        obtain ⟨n, node, hfind, -, -⟩ := h.on_node hd hm
        rw [hfind]
        rfl
      rw [plan_mapPlanning_none h.loads hsel hfound]
      by_cases hmaps : job.maps = []
      · -- there is nothing to take off
        have hbegun : ¬job.maps ≠ [] := fun hne => hne hmaps
        have hsame : job.maps.foldl (dropMap t) (w.say t fun l => l.selected .plan copies none) =
            w.say t fun l => l.selected .plan copies none := by
          rw [hmaps]
          rfl
        rw [goesOn_cons_skip hskip hbegun, hsame]
        exact ih hrest (h.skip copies)
      · rw [goesOn_cons_drop hskip hmaps, not_not]
        constructor
        · intro hok
          cases blocks with
          | nil => rfl
          | cons next blocks =>
            -- the next selection is made without the maps that were sent
            rw [List.foldlM_cons, Prog.ok_bind, mapPlanning, Prog.ok_bind] at hok
            exact absurd (hok.1 .done next rfl) (h.skip copies |>.not_included hd hmaps)
        · rintro rfl
          trivial
    · have hleast := (hsome n numBlock).1 rfl
      obtain ⟨before, name, after, -, hfind, -, -, -⟩ := hleast
      obtain ⟨node, hn, -⟩ := findNode_spec hfind
      have hoffers : Offers nodes copies := by
        obtain ⟨x, hx, hactive⟩ := ((hsome n numBlock).1 rfl).onActive
        obtain ⟨copy, hcopy, rfl⟩ := List.mem_map.1 hx
        exact ⟨copy, hcopy, (h.onActive_iff _).1 hactive⟩
      rw [plan_mapPlanning_some h.loads hsel hn, goesOn_cons_offers hoffers]
      have hnext : ∀ time, (blocks.foldlM mapPlanning { job with maps := job.maps ++
        [job.mapOn node numBlock copies time] }).Ok
          (planSpec t nodes) (fun _ _ => True)
            anyEnd (w.plannedOn t copies n numBlock node (job.mapOn node numBlock copies time)) ↔
          ¬GoesOnFrom nodes True blocks := by
        intro time
        rw [ih hrest (h.append hd hn time),
          goesOn_congr (show job.maps ++ [job.mapOn node numBlock copies time] ≠ [] ↔ True by simp)]
      constructor
      · exact fun hall => (hnext Choice.done.clock).1 (hall Choice.done.clock)
      · exact fun hnot time => (hnext time).2 hnot

/-- **The least busy node.** Folded over copies of registered nodes, `selectNode` selects no
node just when no copy is on an active one, and else the first of the least busy active
nodes, with the number of a copy on it. When a job that has sent nothing plans its blocks,
every selection is made with the loads that have its earlier maps in them, in all runs, just
when no block without an active copy comes after one that has and before another. -/
theorem least_loaded (t : ℕ) (w : World) (job : Job) (blocks : List (List Copy)) (hd : Distinct w.nodes)
    (hreg : ∀ copies ∈ blocks, ∀ copy ∈ copies, (findNode w.nodes copy.nodeName).isSome = true) (hmaps : job.maps = [])
    (hhistory : (w.talk t).history = []) :
    (∀ nodes copies, (∀ copy ∈ copies, (findNode nodes copy.nodeName).isSome = true) →
      ∃ selected, selectNodeToMap nodes copies = some selected ∧
        (selected = none ↔ ∀ copy ∈ copies, ¬OnActive nodes copy.nodeName) ∧
        ∀ n numBlock, selected = some (n, numBlock) ↔ LeastBusy nodes (copies.map Copy.offer) n numBlock) ∧
    ((∀ is, (blocks.foldlM mapPlanning job).Along (serve t) (Included t w.nodes) w is) ↔ ¬GoesOn w.nodes blocks) := by
  refine ⟨fun nodes copies h => selectNodeToMap_selects h, ?_⟩
  have hstart : Planning t w.nodes job w := by
    refine ⟨?_, ?_, ?_⟩
    · have hsame : Node.withSent [] = id := funext fun node => by simp [Node.withSent, sentTo]
      rw [hhistory, hsame, List.map_id]
    · rw [hhistory, hmaps]
      rfl
    · intro m hm
      rw [hmaps] at hm
      exact absurd hm List.not_mem_nil
  rw [Prog.along_iff_ok, plan_blocks hd hreg hstart, goesOnFrom_iff (fun hne => hne hmaps)]

/-- The nodes `A` and `B`, both idle, and `C`, which is not active. -/
def idleNodes : World :=
  ⟨[⟨cstr "A", cstr "10.0.0.1", 6001, true, [], 0⟩, ⟨cstr "B", cstr "10.0.0.2", 6002, true, [], 0⟩,
    ⟨cstr "C", cstr "10.0.0.3", 6003, false, [], 0⟩], fun _ => .start⟩

/-- A block with copies on `A` and `B`. -/
def onBoth : List Copy := [⟨cstr "A", 1⟩, ⟨cstr "B", 2⟩]

theorem least_loaded_two : selectNodeToMap idleNodes.nodes onBoth = some (some (0, 1)) ∧
    LeastBusy idleNodes.nodes (onBoth.map Copy.offer) 0 1 ∧
    ([onBoth, onBoth].foldlM mapPlanning (oneFile 1).job).Along (serve 0) (Included 0 idleNodes.nodes) idleNodes
      (List.replicate 10 .done) := by
  have hdistinct : Distinct idleNodes.nodes := by
    unfold Distinct
    decide +kernel
  obtain ⟨hselect, hplan⟩ := least_loaded 0 idleNodes (oneFile 1).job [onBoth, onBoth]
    hdistinct (by decide +kernel) rfl rfl
  refine ⟨by decide +kernel, ?_, ?_⟩
  · obtain ⟨selected, hsel, -, hleast⟩ := hselect idleNodes.nodes onBoth (by decide +kernel)
    have hfirst : selectNodeToMap idleNodes.nodes onBoth = some (some (0, 1)) := by decide +kernel
    exact (hleast 0 1).1 (Option.some.inj (hsel.symm.trans hfirst))
  · refine hplan.2 ?_ _
    -- no block is without an active copy
    rintro ⟨before, copies, after, hsplit, -, hnone, -⟩
    have hmem : copies ∈ [onBoth, onBoth] := hsplit ▸ List.mem_append_right before List.mem_cons_self
    obtain rfl : copies = onBoth := by simpa using hmem
    exact hnone ⟨⟨cstr "A", 1⟩, List.mem_cons_self, by decide +kernel⟩

/-- **A node is emptied.** After a block whose only copy is on `C`, the map on `A` is not in its
load: the next block goes to `A` again, although `B` has no map. -/
theorem emptied_node : ∃ job w, ([onBoth, [⟨cstr "C", 3⟩], onBoth].foldlM mapPlanning (oneFile 1).job).exec
    (serve 0) idleNodes
      (List.replicate 12 .done) = some (.ok job, w) ∧ job.maps.map Map.nodeName = [cstr "A", cstr "A"] ∧
    ¬([onBoth, [⟨cstr "C", 3⟩], onBoth].foldlM mapPlanning (oneFile 1).job).Along (serve 0)
      (Included 0 idleNodes.nodes) idleNodes
      (List.replicate 12 .done) := by
  obtain ⟨x, hx, job, hjob, hnames⟩ : ∃ x ∈ ([onBoth, [⟨cstr "C", 3⟩], onBoth].foldlM mapPlanning (oneFile 1).job).exec
      (serve 0) idleNodes (List.replicate 12 .done), ∃ job ∈ x.1.toOption, job.maps.map Map.nodeName =
        [cstr "A", cstr "A"] := by
    decide +kernel
  have hok : x.1 = .ok job := by
    cases hout : x.1 with
    | ok job' => rw [hout] at hjob; cases hjob; rfl
    | error e => rw [hout] at hjob; cases hjob
  refine ⟨job, x.2, ?_, hnames, by decide +kernel⟩
  rw [← hok]
  exact hx

end Mdfs.MaRTA
