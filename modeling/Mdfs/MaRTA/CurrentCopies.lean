import Mdfs.MaRTA.Amid
import Mdfs.MaRTA.LeastLoaded
import Mdfs.MaRTA.MovedOff

/-!
# The copies that a map is planned again from

`rePlanMap` asks for the files of the job once more. The copies of a reply are added behind those
that the file has, and `map->copies` still points to the ones of the first planning: it is among
these that a node is selected.

* `rePlanMap_eq`: `rePlanMap` calls `recvResult` last, after the order is sent.
* `amid_rePlanMap`: what it has done by then, whatever the other jobs do.
* `current_copies`: it keeps to the reply just when the copy that it selects is still listed.
* `moved_away`: the block is on another node by now, and the map is given up.
-/

namespace Mdfs.MaRTA

open Lib

/-! ## Up to the order -/

/-- A `recvResult` that returns at once. -/
def atOnce : Recv := fun job => pure (job, none)

/-- **`rePlanMap`** waits for a result when it has sent the order, and does nothing after. -/
theorem rePlanMap_eq (recv : Recv) (job : Job) (i : ℕ) :
    rePlanMap recv job i = rePlanMap atOnce job i >>= fun x =>
      if x.2 then recv x.1 >>= fun y => pure (y.1, true) else pure x := by
  unfold rePlanMap
  rw [bind_assoc]
  refine congrArg (requestBlocks .replan job.files >>= ·) (funext fun files => ?_)
  dsimp only
  cases job.maps[i]? with
  | none => rfl
  | some m =>
    simp only [bind_assoc]
    refine congrArg (request (.selectNode .replan m.copies) >>= ·) (funext fun x => ?_)
    cases x with
    | none => rfl
    | some y => simp only [atOnce, bind_assoc, pure_bind, if_true]

/-! ## Amid the other jobs -/

/-- What the other jobs may do around the requests of a job: the nodes keep their places, and they
are `nodes` where it selects one of them. -/
def Around (nodes : List Node) (w : World) (r : Req) (x : List Node × Choice) : Prop :=
  Steady w.nodes x.1 ∧ (r.selects = true → x.1 = nodes)

instance (nodes : List Node) (w : World) (r : Req) (x : List Node × Choice) : Decidable (Around nodes w r x) :=
  inferInstanceAs (Decidable (Steady w.nodes x.1 ∧ (r.selects = true → x.1 = nodes)))

variable {nodes nodes' : List Node} {maps : List Map} {t i : ℕ} {w : World} {job job' : Job} {m : Map}
  {copies fresh : List Copy}

/-- A map of the job is put on a registered node. -/
theorem MapsFound.set (h : MapsFound nodes maps) {m : Map} (hm : (findNode nodes m.nodeName).isSome = true) (i : ℕ) :
    MapsFound nodes (maps.set i m) := by
  intro m' hm'
  rcases List.mem_or_eq_of_mem_set hm' with hmem | rfl
  · exact h m' hmem
  · exact hm

/-- The specification of a job amid the others. -/
abbrev aroundSpec (t : ℕ) (nodes : List Node) : Spec Resp World := Spec.total (amid t) (Around nodes)

/-- A request that leaves the nodes as they are. -/
theorem around_request {r : Req} {E : Exit → World → Prop} (hmaps : MapsFound w.nodes maps)
    (h : ∀ nodes' c, Steady w.nodes nodes' → ∃ x u, serve t { w with nodes := nodes' } r c = some (x, u) ∧
      Steady nodes' u.nodes) :
    (request r).Ok (aroundSpec t nodes) (fun _ (w' : World) => MapsFound w'.nodes maps) E w := by
  refine amid_request fun nodes' c hleft => ?_
  obtain ⟨x, u, hs, hsteady⟩ := h nodes' c hleft.1
  exact ⟨x, u, hs, hsteady.mapsFound (hleft.1.mapsFound hmaps)⟩

/-- The files are asked for. -/
theorem around_requestBlocks {E : Exit → World → Prop} (site : Site) (files : List File)
    (hmaps : MapsFound w.nodes maps) :
    (requestBlocks site files).Ok (aroundSpec t nodes) (fun _ (w' : World) => MapsFound w'.nodes maps) E w := by
  unfold requestBlocks
  refine Prog.ok_foldlM (K := fun _ _ (w' : World) => MapsFound w'.nodes maps) files ?_ hmaps
  intro done file rest x w₁ hsplit hw₁
  unfold requestFileBlocks
  rw [Prog.ok_bind, Prog.ok_bind]
  refine (around_request hw₁ fun nodes' c _ => ⟨_, _, rfl, Steady.refl nodes'⟩).imp ?_
  intro buffer w₂ hw₂
  rw [Prog.ok_bind]
  refine (Prog.ok_iterate (K := fun _ (w' : World) => MapsFound w'.nodes maps) (fileBlocksOf buffer) ?_ hw₂).imp ?_
  · intro _ listed _ w₃ _ hw₃
    refine Prog.ok_iterate (K := fun _ (w' : World) => MapsFound w'.nodes maps) listed ?_ hw₃
    intro _ c _ w₄ _ hw₄
    exact around_request hw₄ fun nodes' _ _ => ⟨_, _, rfl, steady_updateNodes c.nodeId c.nodeIp c.nodePort⟩
  · intro _ w₃ hw₃
    exact hw₃

/-- The order of a map is sent, or the job dies. -/
theorem around_notificarMap (site : Site) (map : Map) (hmaps : MapsFound w.nodes job.maps) :
    (notificarMap site job map).Ok (aroundSpec t nodes) (fun _ _ => True) (fun e _ => e = .died) w := by
  unfold notificarMap
  rw [Prog.ok_bind]
  refine amid_request fun nodes' c hleft => ⟨c = .done, _, rfl, ?_⟩
  by_cases hthrough : c = .done
  · rw [if_pos (decide_eq_true hthrough)]
    trivial
  · rw [if_neg (by simp [hthrough])]
    refine amid_leave (I := fun w' => MapsFound w'.nodes job.maps) .died ?_ (hleft.1.mapsFound hmaps)
    intro w' r x hw' hleft'
    exact ⟨hleft'.1.mapsFound hw', fun w'' hsteady => hsteady.mapsFound (hleft'.1.mapsFound hw')⟩

/-! ## What is ordered -/

/-- **What `rePlanMap` has done** when it would wait for the result: the map is on the first of the
least busy active nodes of its own copies, or there is no such node. -/
def PlannedOn (nodes : List Node) (copies : List Copy) (i : ℕ) (x : Job × Bool) : Prop :=
  (x.2 = false ∧ ∀ n b, ¬LeastBusy nodes (copies.map Copy.offer) n b) ∨
    x.2 = true ∧ ∃ n b node m, LeastBusy nodes (copies.map Copy.offer) n b ∧ nodes[n]? = some node ∧
      x.1.maps[i]? = some m ∧ m.nodeName = node.name ∧ m.numBlock = b

/-- **`rePlanMap` up to the order**, whatever the other jobs do, or the job dies. -/
theorem amid_rePlanMap (hm : job.maps[i]? = some m) (hmaps : MapsFound w.nodes job.maps)
    (hcopies : ∀ copy ∈ m.copies, (findNode nodes copy.nodeName).isSome = true) :
    (rePlanMap atOnce job i).Ok (aroundSpec t nodes) (fun x _ => PlannedOn nodes m.copies i x)
      (fun e _ => e = .died) w := by
  unfold rePlanMap
  rw [Prog.ok_bind]
  refine (around_requestBlocks .replan job.files hmaps).imp ?_
  intro files w₁ hmaps₁
  simp only [hm]
  rw [Prog.ok_bind]
  -- the list of nodes is `nodes` here
  refine amid_request fun nodes₁ c hleft => ?_
  obtain rfl : nodes₁ = nodes := hleft.2 rfl
  obtain ⟨selected, hselected, hnone, hsome⟩ := selectNodeToMap_selects hcopies
  have hs : serve t { w₁ with nodes := nodes₁ } (.selectNode .replan m.copies) c =
      some (selected, World.say ⟨nodes₁, w₁.talk⟩ t fun l => l.selected .replan m.copies selected) := by
    simp only [serve, hselected, Option.map_some]
  refine ⟨selected, _, hs, ?_⟩
  cases selected with
  | none =>
    refine Or.inl ⟨rfl, fun n b hleast => ?_⟩
    cases (hsome n b).2 hleast
  | some y =>
    obtain ⟨n, b⟩ := y
    have hleast := (hsome n b).1 rfl
    obtain ⟨before, name, after, -, hfind, -⟩ := id hleast
    obtain ⟨node, hnode, -⟩ := findNode_spec hfind
    dsimp only
    rw [Prog.ok_bind]
    -- the node is read at its place, where it still has its name
    set l₁ := (World.say ⟨nodes₁, w₁.talk⟩ t fun l => l.selected .replan m.copies (some (n, b))).talk with hl₁
    refine amid_request fun nodes₂ c₂ hleft₂ => ?_
    obtain ⟨node₂, hnode₂, hname₂⟩ := hleft₂.1 n node hnode
    have hs₂ : serve t ⟨nodes₂, l₁⟩ (.readNode n) c₂ =
      some (node₂.info, World.say ⟨nodes₂, l₁⟩ t fun l => l.read n node₂.info) := by
      simp only [serve, hnode₂, Option.map_some]
    refine ⟨node₂.info, _, hs₂, ?_⟩
    -- from here on the nodes of the other maps and this one stay registered
    have hmaps₂ : MapsFound nodes₂ ({ m with nodeName := node₂.name } :: job.maps) :=
      List.forall_mem_cons.2 ⟨found_of_getElem? hnode₂, hleft₂.1.mapsFound (hleft.1.mapsFound hmaps₁)⟩
    rw [Prog.ok_bind]
    refine (around_request (w := World.say ⟨nodes₂, l₁⟩ t fun l => l.read n node₂.info) hmaps₂
      fun nodes' _ _ => ⟨_, _, rfl, Steady.refl nodes'⟩).imp ?_
    intro time w₃ hmaps₃
    obtain ⟨hname₃, hrest₃⟩ := List.forall_mem_cons.1 hmaps₃
    have hjob₃ : ∀ map : Map, map.nodeName = node₂.name → MapsFound w₃.nodes (job.maps.set i map) := by
      intro map hname
      have hall : MapsFound w₃.nodes job.maps := hrest₃
      exact hall.set (hname ▸ hname₃) i
    have hplanned : ∀ map : Map, map.nodeName = node₂.name → map.numBlock = b → ∀ job' :
      Job, job'.maps = job.maps.set i map →
        PlannedOn nodes₁ m.copies i (job', true) := by
      intro map hname hblock job' hjob'
      obtain ⟨hlt, -⟩ := List.getElem?_eq_some_iff.1 hm
      refine Or.inr ⟨rfl, n, b, node, map, hleast, hnode, ?_, hname.trans hname₂, hblock⟩
      rw [hjob', List.getElem?_set_self hlt]
    rw [Prog.ok_bind]
    refine (around_notificarMap .replan _ (hjob₃ _ rfl)).imp ?_
    intro _ _ _
    exact hplanned _ rfl rfl _ rfl

/-- The reply that was just fetched has `fresh` for the block of a map: it is added behind the blocks
that its file had, as many places further as the block of the map is. -/
def Refreshed (job job' : Job) (copies fresh : List Copy) : Prop :=
  ∃ (f k : ℕ) (file file' : File), job.files[f]? = some file ∧ file.blocks[k]? = some copies ∧
    job'.files[f]? = some file' ∧
    file'.blocks[file.blocks.length + k]? = some fresh

/-- **The copy that would be selected is still listed**: the first of the least busy active nodes
of the old copies has its block in the new ones too. -/
def StillListed (nodes : List Node) (copies fresh : List Copy) : Prop :=
  ∃ n node b, LeastBusy nodes (copies.map Copy.offer) n b ∧ nodes[n]? = some node ∧ ⟨node.name, b⟩ ∈ fresh

/-- **Re-planning uses the current copies** just when the one it selects is among them. For every
job and map, whatever the FileSystem replies and the other jobs do, `rePlanMap` comes to the wait
for a result, or to its end, or the job dies on a broken socket; `nodes` is the list at the
selection. -/
theorem current_copies (t : ℕ) (w : World) (job : Job) (i : ℕ) (m : Map) (nodes : List Node)
    (f : ℕ → List Node × Choice)
    (hm : job.maps[i]? = some m) (hmaps : MapsFound w.nodes job.maps)
    (hcopies : ∀ copy ∈ m.copies, (findNode nodes copy.nodeName).isSome = true)
    (hC : ∀ n, (rePlanMap atOnce job i).Along (amid t) (Around nodes) w ((List.range n).map f)) :
    (∀ recv, rePlanMap recv job i = rePlanMap atOnce job i >>= fun x =>
      if x.2 then recv x.1 >>= fun y => pure (y.1, true) else pure x) ∧
    ∃ n o w', (rePlanMap atOnce job i).exec (amid t) w ((List.range n).map f) = some (o, w') ∧
      (∀ e, o = .error e → e = .died) ∧
      ∀ job' again, o = .ok (job', again) → ∀ fresh, Refreshed job job' m.copies fresh →
        ((Offers nodes fresh → again = true ∧ ∃ m', job'.maps[i]? = some m' ∧ ⟨m'.nodeName, m'.numBlock⟩ ∈ fresh) ↔
          (Offers nodes fresh → StillListed nodes m.copies fresh)) := by
  refine ⟨fun recv => rePlanMap_eq recv job i, ?_⟩
  obtain ⟨n, o, w', hexec, hend⟩ := (amid_rePlanMap hm hmaps hcopies).exec_total hC
  refine ⟨n, o, w', hexec, ?_, ?_⟩
  · rintro e rfl
    exact hend
  rintro job' again rfl fresh -
  refine imp_congr_right fun _ => ?_
  rcases hend with ⟨hagain, hnone⟩ | ⟨hagain, k, b, node, m', hleast, hnode, hm', hname, hblock⟩
  · constructor
    · rintro ⟨hyes, -⟩
      cases hagain.symm.trans hyes
    · rintro ⟨k, node, b, hleast, -, -⟩
      exact absurd hleast (hnone k b)
  · constructor
    · rintro ⟨-, m'', hm'', hmem⟩
      obtain rfl : m' = m'' := Option.some.inj (hm'.symm.trans hm'')
      rw [hname, hblock] at hmem
      exact ⟨k, node, b, hleast, hnode, hmem⟩
    · rintro ⟨k', node', b', hleast', hnode', hmem⟩
      -- there is only one such node
      obtain ⟨rfl, rfl⟩ := Prod.mk.inj
        (Option.some.inj ((bestOffer_eq_some.2 hleast).symm.trans (bestOffer_eq_some.2 hleast')))
      obtain rfl : node = node' := Option.some.inj (hnode.symm.trans hnode')
      refine ⟨hagain, m', hm', ?_⟩
      rw [hname, hblock]
      exact hmem

/-- A job with a map on `A`, whose block had another copy on `B`. -/
def mapOnA : Job :=
  { createJob 1 false (cstr "/r") [cstr "/a"] with
    files := [⟨cstr "/a", [[⟨cstr "A", 3⟩, ⟨cstr "B", 4⟩]]⟩]
    maps := [createMap 0 3 6001 (cstr "A") (cstr "10.0.0.1") 1 Choice.done.clock [⟨cstr "A", 3⟩, ⟨cstr "B", 4⟩]] }

/-- The node `A` has failed, `B` has not. -/
def fallenA : List Node :=
  [⟨cstr "A", cstr "10.0.0.1", 6001, false, [], 0⟩, ⟨cstr "B", cstr "10.0.0.2", 6002, true, [], 0⟩]

/-- The FileSystem lists the copy on `B`, and no other job does anything. -/
def listsB (n : ℕ) : List Node × Choice := (fallenA, if n = 0 then .blocks [[copyOn (cstr "B") 4]] else .done)

theorem current_copies_one : ∃ n job' w', (rePlanMap atOnce mapOnA 0).exec (amid 0) ⟨fallenA, fun _ => .start⟩
      ((List.range n).map listsB) = some (.ok (job', true), w') ∧
    Refreshed mapOnA job' [⟨cstr "A", 3⟩, ⟨cstr "B", 4⟩] [⟨cstr "B", 4⟩] ∧
    ∃ m', job'.maps[0]? = some m' ∧ ⟨m'.nodeName, m'.numBlock⟩ ∈ [(⟨cstr "B", 4⟩ : Copy)] := by
  obtain ⟨x, hx, hC, y, hy, file', hfile', hfresh⟩ :
      ∃ x ∈ (rePlanMap atOnce mapOnA 0).exec (amid 0) ⟨fallenA, fun _ => .start⟩ ((List.range 6).map listsB),
        (rePlanMap atOnce mapOnA 0).Along (amid 0) (Around fallenA)
          ⟨fallenA, fun _ => .start⟩ ((List.range 6).map listsB) ∧
          ∃ y ∈ x.1.toOption, ∃ file' ∈ y.1.files[0]?, file'.blocks[1]? = some [⟨cstr "B", 4⟩] := by
    decide +kernel
  have hall := Prog.along_of_exec (by rw [hx]; rfl) hC
  obtain ⟨-, n, o, w', hexec, -, hok⟩ := current_copies 0 ⟨fallenA, fun _ => .start⟩ mapOnA 0 _ fallenA listsB rfl
    (by decide +kernel) (by decide +kernel) hall
  obtain rfl : x = (o, w') := Prog.exec_unique hx hexec
  cases o with
  | error e => cases hy
  | ok z =>
    obtain rfl : z = y := Option.some.inj hy
    have hlisted : Refreshed mapOnA z.1 [⟨cstr "A", 3⟩, ⟨cstr "B", 4⟩] [⟨cstr "B", 4⟩] :=
      ⟨0, 0, _, file', rfl, rfl, hfile', hfresh⟩
    have hstill : StillListed fallenA [⟨cstr "A", 3⟩, ⟨cstr "B", 4⟩] [⟨cstr "B", 4⟩] :=
      ⟨1, _, 4, bestOffer_eq_some.1 (by decide), rfl, List.mem_singleton.2 rfl⟩
    have hoffers : Offers fallenA [⟨cstr "B", 4⟩] := ⟨⟨cstr "B", 4⟩, List.mem_singleton.2 rfl, 1, rfl, rfl⟩
    obtain ⟨hagain, hmap⟩ := (hok z.1 z.2 rfl _ hlisted).2 (fun _ => hstill) hoffers
    refine ⟨n, z.1, w', ?_, hlisted, hmap⟩
    rw [hexec, ← hagain]

/-- The block of the map was only on `A`. -/
def mapOnlyA : Job :=
  { mapOnA with
    files := [⟨cstr "/a", [[⟨cstr "A", 3⟩]]⟩]
    maps := [createMap 0 3 6001 (cstr "A") (cstr "10.0.0.1") 1 Choice.done.clock [⟨cstr "A", 3⟩]] }

/-- **The block is on `B` by now**, and the map is given up: `A` has failed, and it is the only node of the
old copies. -/
theorem moved_away : ∃ job' w', (rePlanMap atOnce mapOnlyA 0).exec (serve 0) ⟨fallenA, fun _ => .start⟩
      [.blocks [[copyOn (cstr "B") 4]], .done, .done] = some (.ok (job', false), w') ∧
    Refreshed mapOnlyA job' [⟨cstr "A", 3⟩] [⟨cstr "B", 4⟩] ∧ Offers w'.nodes [⟨cstr "B", 4⟩] := by
  obtain ⟨x, hx, y, hy, hno, ⟨file', hfile', hfresh⟩, hactive⟩ :
      ∃ x ∈ (rePlanMap atOnce mapOnlyA 0).exec (serve 0) ⟨fallenA, fun _ => .start⟩
          [.blocks [[copyOn (cstr "B") 4]], .done, .done],
        ∃ y ∈ x.1.toOption, y.2 = false ∧ (∃ file' ∈ y.1.files[0]?, file'.blocks[1]? = some [⟨cstr "B", 4⟩]) ∧
          OnActive x.2.nodes (cstr "B") := by
    decide +kernel
  obtain ⟨o, w'⟩ := x
  cases o with
  | error e => cases hy
  | ok z =>
    obtain rfl : z = y := Option.some.inj hy
    refine ⟨z.1, w', ?_, ⟨0, 0, _, file', rfl, rfl, hfile', hfresh⟩, ⟨cstr "B", 4⟩, List.mem_singleton.2 rfl, hactive⟩
    rw [hx, ← hno]

end Mdfs.MaRTA
