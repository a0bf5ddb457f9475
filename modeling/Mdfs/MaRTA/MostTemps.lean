import Mdfs.Lib.Grouping
import Mdfs.MaRTA.Amid
import Mdfs.MaRTA.FinalNode
import Mdfs.MaRTA.PartialReduces

/-!
# The node with most temps

`noCombinerReducePlanning` counts the maps on each node, in a list that it builds on the way, and
selects among the counts the first greatest one of an active node. The final reduce goes there, with
a temp for each map; before a round is planned again its temps are taken off, and its node and its ip
are freed. A round that then finds no active node frees these a second time.

* `tallied`: each node is counted with all its maps.
* `selectMoreTemps_selects`: the selection, by the place of its first map.
* `most_temps`: a round whatever the other jobs do, and the temps in every run.
* `freed_again`: a retried round without an active node.
-/

namespace Mdfs.MaRTA

open Lib

variable {nodes : List Node} {maps : List Map} {counts : List (ℕ × UInt16)} {name : CStr} {n : ℕ} {m : Map}

/-! ## The counts -/

/-- How many maps are assigned to a node. -/
def countOn (maps : List Map) (name : CStr) : ℕ := maps.countP fun m => m.nodeName = name

/-- Each map is on a node that is registered under its name. -/
def Named (nodes : List Node) (maps : List Map) : Prop := ∀ m ∈ maps, ∃ node ∈ nodes, node.name = m.nodeName

instance (nodes : List Node) (maps : List Map) : Decidable (Named nodes maps) :=
  inferInstanceAs (Decidable (∀ m ∈ maps, ∃ node ∈ nodes, node.name = m.nodeName))

/-- **The counts of the maps gone through**: one for each of their nodes, as they come first. -/
structure Tallied (nodes : List Node) (done : List Map) (counts : List (ℕ × UInt16)) : Prop where
  groups : Groups Map.nodeName (fun _ => ()) (fun c : ℕ × UInt16 => nameAt nodes c.1)
    (fun c => List.replicate c.2.toNat ()) done counts
  inOrder : InOrder Map.nodeName (fun c : ℕ × UInt16 => nameAt nodes c.1) done counts
  placed : ∀ c ∈ counts, ∃ node, nodes[c.1]? = some node

/-- A count is that of the maps of its node. -/
theorem Tallied.count_eq (h : Tallied nodes maps counts) {c : ℕ × UInt16} (hc : c ∈ counts) :
    c.2.toNat = countOn maps (nameAt nodes c.1) := by
  have hlen := congrArg List.length (h.groups.items c hc)
  rw [List.length_replicate, List.length_map, ← List.countP_eq_length_filter] at hlen
  exact hlen

/-- **One more map** is counted on its node. -/
theorem Tallied.step {done : List Map} (h : Tallied nodes done counts) (hdistinct : Distinct nodes)
    (hnamed : ∃ node ∈ nodes, node.name = m.nodeName) (hroom : done.length + 1 < 2 ^ 16) :
    ∃ counts', countTemporals nodes counts m = some counts' ∧ Tallied nodes (done ++ [m]) counts' := by
  have hname : ∀ c ∈ counts, ((nodes[c.1]?).any fun node => node.name = m.nodeName) =
    decide (nameAt nodes c.1 = m.nodeName) := by
    intro c hc
    obtain ⟨node, hnode⟩ := h.placed c hc
    simp [nameAt, hnode]
  unfold countTemporals
  cases hfind : counts.findIdx? fun count => (nodes[count.1]?).any fun node => node.name = m.nodeName with
  | some i =>
    obtain ⟨hi, hat, -⟩ := List.findIdx?_eq_some_iff_getElem.1 hfind
    rw [hname _ (List.getElem_mem hi)] at hat
    have hget : counts[i]? = some counts[i] := List.getElem?_eq_getElem hi
    have hkey : nameAt nodes counts[i].1 = m.nodeName := of_decide_eq_true hat
    -- a count is no more than the maps gone through
    have hle : counts[i].2.toNat ≤ done.length := by
      rw [h.count_eq (List.getElem_mem hi)]
      exact List.countP_le_length
    have hitems : List.replicate (counts[i].2 + 1).toNat () = List.replicate counts[i].2.toNat () ++ [()] := by
      have hnat : (counts[i].2 + 1).toNat = counts[i].2.toNat + 1 := by
        rw [UInt16.toNat_add, UInt16.toNat_one]
        omega
      rw [hnat, List.replicate_succ']
    set f : ℕ × UInt16 → ℕ × UInt16 := fun count => (count.1, count.2 + 1) with hf
    have hnames : (counts.modify i f).map (fun c => nameAt nodes c.1) = counts.map fun c => nameAt nodes c.1 := by
      refine List.ext_getElem? fun j => ?_
      rw [List.getElem?_map, List.getElem?_map, List.getElem?_modify, Option.map_eq_map, Option.map_map]
      congr 1
      funext c
      by_cases hij : i = j
      · simp [hij, hf]
      · simp [hij]
    refine ⟨counts.modify i f, rfl, h.groups.modify hget hkey rfl hitems, h.inOrder.modify hnames m, ?_⟩
    intro c hc
    obtain ⟨j, hj⟩ := List.mem_iff_getElem?.1 hc
    rw [List.getElem?_modify, Option.map_eq_map, Option.map_eq_some_iff] at hj
    obtain ⟨old, hold, rfl⟩ := hj
    by_cases hij : i = j
    · rw [if_pos hij]
      exact h.placed old (List.mem_of_getElem? hold)
    · rw [if_neg hij]
      exact h.placed old (List.mem_of_getElem? hold)
  | none =>
    obtain ⟨node, hnode, hnodeName⟩ := hnamed
    obtain ⟨n, hn⟩ := List.mem_iff_getElem?.1 hnode
    have hplace : findNode nodes m.nodeName = some n := hnodeName ▸ hdistinct.findNode hn
    have hnew : ∀ c ∈ counts, nameAt nodes c.1 ≠ m.nodeName := by
      intro c hc heq
      have hnot := List.findIdx?_eq_none_iff.1 hfind c hc
      rw [hname c hc, decide_eq_false_iff_not] at hnot
      exact hnot heq
    have hnameAt : nameAt nodes n = m.nodeName := by
      unfold nameAt
      rw [hn]
      exact hnodeName
    refine ⟨counts ++ [(n, 1)], by rw [hplace]; rfl, h.groups.append hnew hnameAt rfl,
      h.inOrder.append h.groups.covers hnameAt, ?_⟩
    intro c hc
    rcases List.mem_append.1 hc with hc | hc
    · exact h.placed c hc
    · rw [List.mem_singleton.1 hc]
      exact ⟨node, hn⟩

/-- **Each node is counted** with all its maps. -/
theorem tallied (hdistinct : Distinct nodes) (hnamed : Named nodes maps) (hfew : maps.length < 2 ^ 16) :
    ∃ counts, maps.foldlM (countTemporals nodes) [] = some counts ∧ Tallied nodes maps counts := by
  suffices ∀ rest done counts, done ++ rest = maps → Tallied nodes done counts →
      ∃ counts', rest.foldlM (countTemporals nodes) counts = some counts' ∧ Tallied nodes maps counts' by
    refine this maps [] [] rfl ⟨groups_nil, inOrder_nil, ?_⟩
    exact fun c hc => absurd hc List.not_mem_nil
  intro rest
  induction rest with
  | nil =>
    intro done counts hsplit h
    rw [List.append_nil] at hsplit
    exact ⟨counts, rfl, hsplit ▸ h⟩
  | cons m rest ih =>
    intro done counts hsplit h
    have hm : m ∈ maps := hsplit ▸ List.mem_append_right done List.mem_cons_self
    have hlen := congrArg List.length hsplit
    rw [List.length_append, List.length_cons] at hlen
    obtain ⟨next, hnext, htallied⟩ := h.step hdistinct (hnamed m hm) (by omega)
    obtain ⟨last, hlast, hall⟩ := ih (done ++ [m]) next (by simpa using hsplit) htallied
    refine ⟨last, ?_, hall⟩
    rw [List.foldlM_cons, hnext]
    exact hlast

/-! ## The selection -/

/-- **The node with most temps**: it is active, it is that of the map `m`, every active node of a map
before `m` has fewer maps, and none of a map after it has more. -/
def MostTemps (nodes : List Node) (maps : List Map) (n : ℕ) : Prop :=
  ∃ before m after node, maps = before ++ m :: after ∧ nodes[n]? = some node ∧ node.name = m.nodeName ∧
    node.active = true ∧
    (∀ m' ∈ before, OnActive nodes m'.nodeName → countOn maps m'.nodeName < countOn maps m.nodeName) ∧
    ∀ m' ∈ after, OnActive nodes m'.nodeName → countOn maps m'.nodeName ≤ countOn maps m.nodeName

/-- The count of an active node. -/
def activeCount (nodes : List Node) (count : ℕ × UInt16) : Option (ℕ × UInt16) :=
  if isActiveAt nodes count.1 then some count else none

/-- The fold over the counts selects the first greatest one of an active node. -/
theorem foldl_selectMoreTempsNode (counts : List (ℕ × UInt16)) : counts.foldl (selectMoreTempsNode nodes) none =
    (counts.filterMap (activeCount nodes)).argmin fun count => OrderDual.toDual count.2.toNat := by
  induction counts using List.reverseRecOn with
  | nil => rfl
  | append_singleton counts count ih =>
    rw [List.foldl_append, List.foldl_cons, List.foldl_nil, ih, List.filterMap_append]
    by_cases hactive : isActiveAt nodes count.1 = true
    · have hone : [count].filterMap (activeCount nodes) = [count] := List.filterMap_cons_some (if_pos hactive)
      rw [hone, List.argmin_concat]
      cases (counts.filterMap (activeCount nodes)).argmin fun count => OrderDual.toDual count.2.toNat with
      | none => exact if_pos hactive
      | some selected =>
        simp only [selectMoreTempsNode, hactive, and_true, OrderDual.toDual_lt_toDual, UInt16.lt_iff_toNat_lt]
    · have hone : [count].filterMap (activeCount nodes) = [] := List.filterMap_cons_none (if_neg hactive)
      rw [hone, List.append_nil]
      cases (counts.filterMap (activeCount nodes)).argmin fun count => OrderDual.toDual count.2.toNat with
      | none => exact if_neg hactive
      | some selected => exact if_neg fun h => hactive h.2

theorem activeCount_eq_some {c c' : ℕ × UInt16} : activeCount nodes c = some c' ↔ isActiveAt nodes c.1 = true ∧
    c = c' := by
  rw [activeCount, Option.ite_none_right_eq_some, Option.some.injEq]

/-- The node of a map, by its name. -/
theorem onActive_of_named (hdistinct : Distinct nodes) {node : Node} (hn : nodes[n]? = some node) :
    OnActive nodes node.name ↔ node.active = true := by
  unfold OnActive isActiveAt
  rw [hdistinct.findNode hn]
  constructor
  · rintro ⟨k, hk, hactive⟩
    obtain rfl : n = k := Option.some.inj hk
    rw [hn] at hactive
    exact hactive
  · intro hactive
    refine ⟨n, rfl, ?_⟩
    rw [hn]
    exact hactive

namespace Tallied

/-- The node of a count. -/
theorem onActive (h : Tallied nodes maps counts) (hdistinct : Distinct nodes) {c : ℕ × UInt16} (hc : c ∈ counts) :
    OnActive nodes (nameAt nodes c.1) ↔ isActiveAt nodes c.1 = true := by
  obtain ⟨node, hnode⟩ := h.placed c hc
  have hname : nameAt nodes c.1 = node.name := by
    unfold nameAt
    rw [hnode]
    rfl
  rw [hname, onActive_of_named hdistinct hnode, isActiveAt, hnode]
  rfl

/-- **No count is selected** when no node of a map is active. -/
theorem none_iff (h : Tallied nodes maps counts) (hdistinct : Distinct nodes) :
    counts.foldl (selectMoreTempsNode nodes) none = none ↔ ∀ m ∈ maps, ¬OnActive nodes m.nodeName := by
  rw [foldl_selectMoreTempsNode, argmin_filterMap_eq_none]
  constructor
  · intro hall m hm hactive
    obtain ⟨c, hc, hname⟩ := h.groups.covers m hm
    have hnone := hall c hc
    rw [activeCount, if_pos ((h.onActive hdistinct hc).1 (hname.symm ▸ hactive))] at hnone
    cases hnone
  · intro hall c hc
    obtain ⟨m, hm, hname⟩ := h.groups.used c hc
    refine if_neg fun hactive => hall m hm ?_
    rw [hname]
    exact (h.onActive hdistinct hc).2 hactive

/-- **The count that is selected** is that of the node with most temps. -/
theorem mostTemps (h : Tallied nodes maps counts) (hdistinct : Distinct nodes) {c : ℕ × UInt16}
    (hc : counts.foldl (selectMoreTempsNode nodes) none = some c) : MostTemps nodes maps c.1 := by
  rw [foldl_selectMoreTempsNode, argmin_filterMap_eq_some] at hc
  obtain ⟨left, c', right, hsplit, hc', hleft, hright⟩ := hc
  obtain ⟨hactive, rfl⟩ := activeCount_eq_some.1 hc'
  have hmem : ∀ d, d ∈ left ∨ d = c' ∨ d ∈ right → d ∈ counts := by
    rintro d (hd | rfl | hd)
    · exact hsplit ▸ List.mem_append_left _ hd
    · exact hsplit ▸ List.mem_append_right _ List.mem_cons_self
    · exact hsplit ▸ List.mem_append_right _ (List.mem_cons_of_mem _ hd)
  obtain ⟨node, hnode⟩ := h.placed c' (hmem c' (Or.inr (Or.inl rfl)))
  obtain ⟨before, m, after, rfl, hname, hbefore⟩ := h.inOrder left c' right hsplit
  have hnodeName : nameAt nodes c'.1 = node.name := by
    unfold nameAt
    rw [hnode]
    rfl
  have hcount := h.count_eq (hmem c' (Or.inr (Or.inl rfl)))
  refine ⟨before, m, after, node, rfl, hnode, (hname.trans hnodeName).symm, ?_, ?_, ?_⟩
  · rw [isActiveAt, hnode] at hactive
    exact hactive
  · intro m' hm' hon
    obtain ⟨d, hd, hsame⟩ : ∃ d ∈ left, nameAt nodes d.1 = m'.nodeName := hbefore m' hm'
    have hd' := hmem d (Or.inl hd)
    have hlt := hleft d hd d (activeCount_eq_some.2 ⟨(h.onActive hdistinct hd').1 (hsame ▸ hon), rfl⟩)
    rw [← hsame, hname, ← h.count_eq hd', ← hcount]
    exact hlt
  · intro m' hm' hon
    obtain ⟨d, hd, hsame⟩ : ∃ d ∈ counts, nameAt nodes d.1 = m'.nodeName :=
      h.groups.covers m' (List.mem_append_right _ (List.mem_cons_of_mem m hm'))
    have hactive' := (h.onActive hdistinct hd).1 (hsame ▸ hon)
    rw [← hsame, hname, ← h.count_eq hd, ← hcount]
    rw [hsplit] at hd
    rcases List.mem_append.1 hd with hd | hd
    · exact (hleft d hd d (activeCount_eq_some.2 ⟨hactive', rfl⟩)).le
    · rcases List.mem_cons.1 hd with rfl | hd
      · exact le_rfl
      · exact hright d hd d (activeCount_eq_some.2 ⟨hactive', rfl⟩)

end Tallied

/-- **The selection** of a round. -/
theorem selectMoreTemps_selects (hdistinct : Distinct nodes) (hnamed : Named nodes maps) (hfew : maps.length < 2 ^ 16) :
    ∃ selected, selectMoreTemps nodes maps = some selected ∧
      (selected = none ↔ ∀ m ∈ maps, ¬OnActive nodes m.nodeName) ∧
      ∀ n, selected = some n → MostTemps nodes maps n := by
  obtain ⟨counts, hcounts, h⟩ := tallied hdistinct hnamed hfew
  refine ⟨_, by rw [selectMoreTemps, hcounts]; rfl, ?_, ?_⟩
  · rw [Option.map_eq_none_iff]
    exact h.none_iff hdistinct
  · intro n hn
    obtain ⟨c, hc, rfl⟩ := Option.map_eq_some_iff.1 hn
    exact h.mostTemps hdistinct hc

/-- The node with most temps is active. -/
theorem MostTemps.onActive (h : MostTemps nodes maps n) (hdistinct : Distinct nodes) :
    ∃ m ∈ maps, OnActive nodes m.nodeName := by
  obtain ⟨before, m, after, node, rfl, hn, hname, hactive, -, -⟩ := h
  refine ⟨m, List.mem_append_right before List.mem_cons_self, ?_⟩
  rw [← hname, onActive_of_named hdistinct hn]
  exact hactive

/-! ## A round -/

variable {recv : Recv} {rounds t : ℕ} {w w' : World} {job job' : Job}

/-- The request that counts the maps. -/
def Req.countsMaps : Req → Bool
  | .selectMoreTemps _ => true
  | _ => false

/-- What the other jobs may do around a round: the nodes keep their places, and they are `nodes` where
the maps are counted. -/
def AroundRound (nodes : List Node) (w : World) (r : Req) (x : List Node × Choice) : Prop :=
  Steady w.nodes x.1 ∧ (r.countsMaps = true → x.1 = nodes)

instance (nodes : List Node) (w : World) (r : Req) (x : List Node × Choice) : Decidable (AroundRound nodes w r x) :=
  inferInstanceAs (Decidable (Steady w.nodes x.1 ∧ (r.countsMaps = true → x.1 = nodes)))

/-- **The final reduce is for all maps**, on the node with most temps. -/
structure SentToMost (nodes : List Node) (job job' : Job) : Prop where
  most : ∃ n node, MostTemps nodes job.maps n ∧ nodes[n]? = some node ∧ job'.finalReduce.finalNode = node.name
  temps : job'.finalReduce.temps = job.finalReduce.temps ++ job.maps.map mapToTemporal
  rest : job' = { job with finalReduce := job'.finalReduce }

theorem Named.mapsFound (hnamed : Named nodes maps) : MapsFound nodes maps := by
  intro m hm
  obtain ⟨node, hnode, hname⟩ := hnamed m hm
  obtain ⟨n, hn⟩ := List.mem_iff_getElem?.1 hnode
  rw [← hname]
  exact found_of_getElem? hn

/-- How a round ends that sends nothing. -/
def EndsUnsent (nodes : List Node) (freed : Bool) (job : Job) : Exit → Prop
  | .unavailable => freed = false ∧ ∀ m ∈ job.maps, ¬OnActive nodes m.nodeName
  | .aborted => freed = true ∧ ∀ m ∈ job.maps, ¬OnActive nodes m.nodeName
  | .died => ∃ m ∈ job.maps, OnActive nodes m.nodeName
  | _ => False

/-- The Job is told that no node is active, and the job leaves or is aborted. -/
theorem amid_tellUnavailable {α : Type} (freed : Bool) {Q : α → World → Prop}
    (hkeeps : ∀ (w' : World) r x, MapsFound w'.nodes job.maps → AroundRound nodes w' r x →
      MapsFound x.1 job.maps ∧ ∀ w'' : World, Steady x.1 w''.nodes → MapsFound w''.nodes job.maps)
    (hfound : MapsFound w.nodes job.maps) (hall : ∀ m ∈ job.maps, ¬OnActive nodes m.nodeName) :
    (notifFileUnavailable job freed : JobProg α).Ok (Spec.total (amid t) (AroundRound nodes)) Q
      (fun e _ => EndsUnsent nodes freed job e) w := by
  unfold notifFileUnavailable
  rw [Prog.ok_bind]
  refine amid_request fun nodes₁ c hleft => ⟨(), _, rfl, ?_⟩
  have hfound₁ : MapsFound nodes₁ job.maps := hleft.1.mapsFound hfound
  cases freed with
  | false =>
    refine Prog.ok_mono (fun _ _ h => h) ?_ (amid_leave .unavailable hkeeps hfound₁)
    rintro e - rfl
    exact ⟨rfl, hall⟩
  | true =>
    refine Prog.ok_mono (fun _ _ h => h) ?_ (amid_freesAgain .unavailable hkeeps hfound₁)
    rintro e - rfl
    exact ⟨rfl, hall⟩

/-- **A round up to its order**, whatever the other jobs do. -/
theorem amid_orderFinalReduce (freed : Bool) (hdistinct : Distinct nodes) (hnamed : Named nodes job.maps)
    (hfew : job.maps.length < 2 ^ 16) :
    (orderFinalReduce freed job).Ok (Spec.total (amid t) (AroundRound nodes))
      (fun job' (w' : World) => SentToMost nodes job job' ∧
        (w'.talk t).history = (w.talk t).history ++ [.order (.reduce job'.finalReduce)])
      (fun e _ => EndsUnsent nodes freed job e) w := by
  obtain ⟨selected, hselected, hnone, hsome⟩ := selectMoreTemps_selects hdistinct hnamed hfew
  -- the nodes of the maps stay registered
  have hkeeps : ∀ (w' : World) r x, MapsFound w'.nodes job.maps → AroundRound nodes w' r x →
      MapsFound x.1 job.maps ∧ ∀ w'' : World, Steady x.1 w''.nodes → MapsFound w''.nodes job.maps := by
    intro w' r x hfound hleft
    have hnext := hleft.1.mapsFound hfound
    exact ⟨hnext, fun w'' hsteady => hsteady.mapsFound hnext⟩
  have hfound := hnamed.mapsFound
  unfold orderFinalReduce
  rw [Prog.ok_bind]
  refine amid_request fun nodes₁ c hleft => ?_
  obtain rfl : nodes₁ = nodes := hleft.2 rfl
  have hs : serve t { w with nodes := nodes₁ } (.selectMoreTemps job.maps) c = some (selected, ⟨nodes₁, w.talk⟩) := by
    simp only [serve, hselected, Option.map_some]
  refine ⟨selected, _, hs, ?_⟩
  cases selected with
  | none => exact amid_tellUnavailable freed hkeeps hfound (hnone.1 rfl)
  | some n =>
    have hmost := hsome n rfl
    obtain ⟨before, m, after, node, hsplit, hnode, hname, -⟩ := id hmost
    have hm : m ∈ job.maps := hsplit ▸ List.mem_append_right before List.mem_cons_self
    dsimp only
    rw [Prog.ok_bind]
    -- the node is read at its place, where it still has its name
    refine amid_request fun nodes₂ c₂ hleft₂ => ?_
    obtain ⟨node₂, hnode₂, hname₂⟩ := hleft₂.1 n node hnode
    set w₂ := World.say ⟨nodes₂, w.talk⟩ t fun l => l.read n node₂.info with hw₂
    have hs₂ : serve t ⟨nodes₂, w.talk⟩ (.readNode n) c₂ = some (node₂.info, w₂) := by
      simp only [serve, hnode₂, Option.map_some, hw₂]
    have hhistory₂ : (w₂.talk t).history = (w.talk t).history := by
      rw [hw₂, World.say_talk]
      rfl
    refine ⟨node₂.info, w₂, hs₂, ?_⟩
    have hplanned : (planFinalReduce job node₂.info (job.maps.map mapToTemporal)).Ok
        (Spec.total (amid t) (AroundRound nodes₁)) (FinalOrdered t w₂ job node₂.name (job.maps.map mapToTemporal))
        (fun e _ => e = .died) w₂ := by
      refine amid_planFinalReduce hkeeps (hleft₂.1.mapsFound hfound) fun w₃ r x hfound₃ hleft₃ => ?_
      rw [show node₂.info.name = m.nodeName from hname₂.trans hname]
      exact (hkeeps w₃ r x hfound₃ hleft₃).1 m hm
    refine Prog.ok_mono ?_ ?_ hplanned
    · intro job' w' hordered
      refine ⟨⟨⟨n, node, hmost, hnode, hordered.node.trans hname₂⟩, hordered.temps, hordered.rest⟩, ?_⟩
      rw [hordered.ordered, hhistory₂]
    · rintro e - rfl
      exact hmost.onActive hdistinct

/-! ## Round after round -/

/-- What has to hold where a job without a combiner plans its final reduce: the nodes of its maps were
read, and there is a temp for each map when it is ordered. -/
def MayReduce (l : Talk) : Req → Prop
  | .selectMoreTemps maps => ∀ m ∈ maps, l.Knows m.nodeName
  | .sendReduce final job reduce => final = true → reduce.temps = job.maps.map mapToTemporal
  | _ => True

/-- **The specification of a job** as to its temps, where it has no combiner. -/
def tempsSpec (noCombiner : Prop) : Spec Resp Talk := ⟨fun l r => noCombiner → MayReduce l r, Turn⟩

variable {noCombiner : Prop} {l l' : Talk} {r : Req} {α : Type} {Q : α → Talk → Prop} {p : JobProg α}

theorem mayReduce_mapSide (h : r.isRound = false) : MayReduce l r := by
  cases r with
  | selectMoreTemps | sendReduce => cases h
  | _ => trivial

theorem temps_request {Q : Resp r → Talk → Prop} (hmay : MayReduce l r) (hQ : ∀ x l', Turn l r x l' → Q x l') :
    (request r).Ok (tempsSpec noCombiner) Q anyExit l := ⟨fun _ => hmay, hQ⟩

/-- What is known from the rounds of the job, where it is about its maps. -/
theorem temps_of_rounds (h : p.Ok roundSpec Q anyExit l) (hp : MapSide p) :
    p.Ok (tempsSpec noCombiner) Q anyExit l := by
  have hpost : ∀ l r (x : Resp r) l', (tempsSpec noCombiner).post l r x l' → roundSpec.post l r x l' :=
    fun _ _ _ _ hturn => hturn
  exact Prog.Ok.of_only (fun _ _ hr _ => mayReduce_mapSide hr) hpost h hp

theorem only_copyFinalTemporal (job : Job) : MapSide (copyFinalTemporal job) := by
  refine Prog.only_bind (only_request rfl) fun reply => ?_
  split
  · exact Prog.only_bind (only_request rfl) fun _ => only_leave job .cantCopy
  · trivial

theorem only_finishFinalReduce (hrecv : ∀ job, MapSide (recv job)) (job : Job) :
    MapSide (finishFinalReduce recv job) := by
  refine Prog.only_bind (hrecv job) fun x => ?_
  split
  · trivial
  · exact Prog.only_bind (only_copyFinalTemporal x.1) fun finalResult => trivial

theorem only_rePlanMapsFromNode (hrecv : ∀ job, MapSide (recv job)) (job : Job) (node : CStr) :
    MapSide (rePlanMapsFromNode recv job node) := by
  refine Prog.only_bind (only_request rfl) fun _ => Prog.only_bind (Prog.only_foldlM ?_ _ _) fun x => ?_
  · intro x i
    unfold rePlanByNode
    split
    · trivial
    · split
      · exact Prog.only_bind (only_rePlanMap hrecv _ i) fun y => trivial
      · trivial
  · split
    · exact Prog.only_bind (only_request rfl) fun _ => trivial
    · trivial

theorem only_awaitFinalReduce (hrecv : ∀ job, MapSide (recv job)) (clean : Job → Job) (job : Job) :
    MapSide (awaitFinalReduce recv clean job) := by
  refine Prog.only_bind (only_finishFinalReduce hrecv job) fun x => ?_
  split
  · trivial
  · refine Prog.only_bind (only_rePlanMapsFromNode hrecv x.1 _) fun y => ?_
    split
    · trivial
    · exact only_notifFileUnavailable y.1

theorem only_planMaps (hrecv : ∀ job, MapSide (recv job)) (job : Job) : MapSide (planMaps recv job) := by
  refine Prog.only_bind (only_requestBlocks .plan job.files) fun files => ?_
  dsimp only
  split
  · refine Prog.only_bind (Prog.only_foldlM ?_ _ _) fun job => Prog.only_bind (Prog.only_foldlM ?_ _ _) fun job => ?_
    · intro job copies
      refine Prog.only_bind (only_request rfl) fun x => ?_
      split
      · exact Prog.only_bind (only_removeMaps .skip job.maps) fun _ => trivial
      · refine Prog.only_bind (only_request rfl) fun _ => Prog.only_bind (only_request rfl) fun node => ?_
        exact Prog.only_bind (only_request rfl) fun time =>
          Prog.only_bind (only_notificarMap .plan _ _) fun _ => trivial
    · exact fun job _ => Prog.only_bind (hrecv job) fun x => trivial
    · exact Prog.only_bind (only_request rfl) fun _ => trivial
  · exact only_notifFileUnavailable _

/-- **`notificarReduce`** of the final reduce, with a temp for each map. -/
theorem temps_notificarReduce {reduce : Reduce} (h : Kept job l) (hstranded : l.stranded = false)
    (htemps : reduce.temps = job.maps.map mapToTemporal) :
    (notificarReduce true job reduce).Ok (tempsSpec noCombiner) (fun _ l' => Kept job l' ∧ l'.stranded = false)
      anyExit l := by
  unfold notificarReduce
  rw [Prog.ok_bind]
  refine temps_request trivial fun _ l₁ hadded => ?_
  rw [Prog.ok_bind]
  refine temps_request (fun _ => htemps) fun through l₂ hsent => ?_
  have hstranded₂ : l₂.stranded = false := (hsent.kept.2.2.2 rfl).trans ((hadded.kept.2.2.2 rfl).trans hstranded)
  cases through with
  | true => exact ⟨(h.turn hadded rfl).turn hsent rfl, hstranded₂⟩
  | false => exact temps_of_rounds (rounds_leave job .died) (only_leave job .died)

/-- **The final reduce is planned** for all maps, where it had no temps. -/
theorem temps_planFinalReduce (node : NodeInfo) (h : Kept job l) (hstranded : l.stranded = false)
    (htemps : job.finalReduce.temps = []) :
    (planFinalReduce job node (job.maps.map mapToTemporal)).Ok (tempsSpec noCombiner)
      (fun job' l' => Kept job' l' ∧ l'.stranded = false) anyExit l := by
  unfold planFinalReduce
  rw [Prog.ok_bind]
  refine temps_request trivial ?_
  rintro time l₁ rfl
  rw [Prog.ok_bind]
  -- the temps of a round are those that it adds
  have hadded : (setFinalReduce job.finalReduce node.name node.ip node.port job.id time).temps ++
      job.maps.map mapToTemporal = job.maps.map mapToTemporal := by
    change job.finalReduce.temps ++ _ = _
    rw [htemps, List.nil_append]
  exact Prog.Ok.imp (temps_notificarReduce (h.of_maps rfl) hstranded hadded) fun _ _ hkept => hkept

/-- **A round up to its order.** -/
theorem temps_orderFinalReduce {freed : Bool} (h : Kept job l) (hstranded : l.stranded = false)
    (htemps : job.finalReduce.temps = []) :
    (orderFinalReduce freed job).Ok (tempsSpec noCombiner) (fun job' l' => Kept job' l' ∧ l'.stranded = false)
      anyExit l := by
  unfold orderFinalReduce
  rw [Prog.ok_bind]
  refine temps_request h.known fun x l₁ hsel => ?_
  obtain rfl : l₁ = l := hsel
  rcases x with _ | n
  · exact temps_of_rounds (rounds_notifFileUnavailable job) (only_notifFileUnavailable job)
  dsimp only
  rw [Prog.ok_bind]
  refine temps_request trivial fun node l₂ hread => ?_
  exact temps_planFinalReduce node (h.turn hread rfl) ((hread.kept.2.2.2 rfl).trans hstranded) htemps

/-- **No temp of a round is left for the next.** -/
theorem temps_noCombinerReducePlanning (hrecv : RecvKept recv) (honly : ∀ job, MapSide (recv job)) (rounds : ℕ) :
    ∀ {freed : Bool} {job : Job} {l : Talk}, Kept job l → l.stranded = false → job.finalReduce.temps = [] →
      (noCombinerReducePlanning recv rounds freed job).Ok (tempsSpec noCombiner) (fun _ _ => True) anyExit l := by
  induction rounds with
  | zero => intro freed job l _ _ _; trivial
  | succ rounds ih =>
    intro freed job l h hstranded htemps
    unfold noCombinerReducePlanning
    rw [Prog.ok_bind]
    refine (temps_orderFinalReduce h hstranded htemps).imp ?_
    rintro job₁ l₁ ⟨hkept₁, hstranded₁⟩
    rw [Prog.ok_bind]
    refine (temps_of_rounds (rounds_awaitFinalReduce hrecv noCombinerClean hkept₁ hstranded₁)
      (only_awaitFinalReduce honly noCombinerClean job₁)).imp ?_
    rintro ⟨job₂, again⟩ l₂ ⟨hstranded₂, hagain⟩
    cases again with
    | true =>
      obtain ⟨job₃, rfl, hkept₃, -⟩ := hagain rfl
      exact ih (hkept₃.of_maps rfl) hstranded₂ rfl
    | false => trivial

/-- MaRTA starts with every job keeping to its specification. -/
theorem marta_temps (rounds : ℕ) (jobs : List Submission) :
    (marta rounds jobs).Ok (fun t => tempsSpec (∃ x, jobs[t]? = some x ∧ x.combiner = false)) (fun _ _ _ => True)
      (fun _ => anyExit) Tied := by
  refine ⟨fun _ => .start, tied_start, fun t p hp => ?_⟩
  obtain ⟨x, hx, rfl⟩ : ∃ x, jobs[t]? = some x ∧ acceptJob rounds x.job = p := by
    rw [← Option.map_eq_some_iff, ← List.getElem?_map]
    exact hp
  by_cases hcombiner : x.combiner = true
  · -- a job with a combiner is left alone
    have hnot : ¬∃ x, jobs[t]? = some x ∧ x.combiner = false := by
      rintro ⟨y, hy, hno⟩
      obtain rfl : x = y := Option.some.inj (hx.symm.trans hy)
      cases hcombiner.symm.trans hno
    refine Prog.Only.keeps (I := fun _ => True) (Prog.only_true _) ?_ trivial
    exact fun l r _ _ => ⟨fun hno => absurd hno hnot, fun _ _ _ => trivial⟩
  have hrecv := recvKept_recvResult rounds
  have honly := only_recvResult rounds
  have hnew : x.job.New := createJob_new ..
  unfold acceptJob planJob
  rw [Prog.ok_bind, Prog.ok_bind]
  refine (temps_of_rounds (rounds_planMaps hrecv hnew) (only_planMaps honly x.job)).imp ?_
  rintro job l ⟨hkept, hkeeps, hstranded⟩
  have htemps : job.finalReduce.temps = [] := by rw [hkeeps.finalReduce, hnew.temps]
  have hplain : ∀ job : Job, MapSide (finishJob job) := by
    intro job
    refine Prog.only_bind (only_request rfl) fun _ => ?_
    exact Prog.only_bind (only_freeJob (only_removeMaps .free job.maps)) fun _ => only_request rfl
  rw [if_neg (by rw [hkeeps.combiner]; exact hcombiner)]
  refine (temps_noCombinerReducePlanning hrecv honly rounds hkept hstranded htemps).imp fun job' l' _ => ?_
  refine Prog.ok_mono (fun _ _ _ => trivial) (fun _ _ _ => trivial)
    (Prog.Only.keeps (I := fun _ => True) (hplain job') ?_ trivial)
  exact fun l r hr _ => ⟨fun _ => mayReduce_mapSide hr, fun _ _ _ => trivial⟩

/-- **A round is right** when the maps are counted on `nodes`: the final reduce for them is sent to the node
with most temps, and it is just without an active node that the job ends as unavailable. -/
structure RoundRight (t : ℕ) (nodes : List Node) (w : World) (job : Job) (o : Except Exit Job) (w' : World) : Prop where
  unavailable : o = .error .unavailable ↔ ∀ m ∈ job.maps, ¬OnActive nodes m.nodeName
  exits : ∀ e, o = .error e → e = .unavailable ∨ e = .died
  sent : ∀ job', o = .ok job' → SentToMost nodes job job' ∧
    (w'.talk t).history = (w.talk t).history ++ [.order (.reduce job'.finalReduce)]

/-- **What a round comes to**: each node is counted with all its maps, and the round is right but for one that
is retried without an active node. That one is aborted. -/
def EndsAtMost (t : ℕ) (nodes : List Node) (w : World) (freed : Bool) (job : Job) (f : ℕ → List Node × Choice) : Prop :=
  (∃ counts, job.maps.foldlM (countTemporals nodes) [] = some counts ∧ Tallied nodes job.maps counts ∧
    ∀ count ∈ counts, count.2.toNat = countOn job.maps (nameAt nodes count.1)) ∧
  ∃ k o w', (orderFinalReduce freed job).exec (amid t) w ((List.range k).map f) = some (o, w') ∧
    (RoundRight t nodes w job o w' ↔ (freed = true → ∃ m ∈ job.maps, OnActive nodes m.nodeName)) ∧
    (o = .error .aborted ↔ freed = true ∧ ∀ m ∈ job.maps, ¬OnActive nodes m.nodeName)

theorem endsAtMost {freed : Bool} {f : ℕ → List Node × Choice} (hdistinct : Distinct nodes)
    (hnamed : Named nodes job.maps) (hfew : job.maps.length < 2 ^ 16)
    (hC : ∀ k, (orderFinalReduce freed job).Along (amid t) (AroundRound nodes) w ((List.range k).map f)) :
    EndsAtMost t nodes w freed job f := by
  obtain ⟨counts, hcounts, htallied⟩ := tallied hdistinct hnamed hfew
  refine ⟨⟨counts, hcounts, htallied, fun count hcount => htallied.count_eq hcount⟩, ?_⟩
  obtain ⟨k, o, w', hexec, hend⟩ := (amid_orderFinalReduce freed hdistinct hnamed hfew).exec_total hC
  refine ⟨k, o, w', hexec, ?_⟩
  cases o with
  | ok job' =>
    obtain ⟨hsent, hhistory⟩ := hend
    obtain ⟨n, node, hmost, -⟩ := hsent.most
    obtain ⟨m, hm, hactive⟩ := hmost.onActive hdistinct
    have hright : RoundRight t nodes w job (.ok job') w' := by
      refine ⟨⟨fun h => (by cases h), fun hnone => absurd hactive (hnone m hm)⟩, fun e h => (by cases h), ?_⟩
      intro job'' h
      obtain rfl : job' = job'' := Except.ok.inj h
      exact ⟨hsent, hhistory⟩
    exact ⟨⟨fun _ _ => ⟨m, hm, hactive⟩, fun _ => hright⟩, fun h => (by cases h),
      fun hnone => absurd hactive (hnone.2 m hm)⟩
  | error e =>
    cases e with
    | unavailable =>
      obtain ⟨rfl, hnone⟩ := hend
      have hright : RoundRight t nodes w job (.error .unavailable) w' :=
        ⟨⟨fun _ => hnone, fun _ => rfl⟩, fun e he => Or.inl (Except.error.inj he).symm, fun job' h => (by cases h)⟩
      exact ⟨⟨fun _ hfreed => (by cases hfreed), fun _ => hright⟩, fun h => (by cases h), fun h => (by cases h.1)⟩
    | died =>
      obtain ⟨m, hm, hactive⟩ := hend
      have hright : RoundRight t nodes w job (.error .died) w' := by
        refine ⟨⟨fun h => (by cases h), fun hnone => absurd hactive (hnone m hm)⟩, ?_, fun job' h => (by cases h)⟩
        exact fun e he => Or.inr (Except.error.inj he).symm
      exact ⟨⟨fun _ _ => ⟨m, hm, hactive⟩, fun _ => hright⟩, fun h => (by cases h),
        fun hnone => absurd hactive (hnone.2 m hm)⟩
    | aborted =>
      -- the job should end as unavailable, and does not
      obtain ⟨rfl, hnone⟩ := hend
      refine ⟨⟨fun hright => ?_, fun hactive => ?_⟩, fun _ => ⟨rfl, hnone⟩, fun _ => rfl⟩
      · cases hright.unavailable.2 hnone
      · obtain ⟨m, hm, hon⟩ := hactive rfl
        exact absurd hon (hnone m hm)
    | cantCopy => exact hend.elim
    | crashed => exact hend.elim
    | unfinished => exact hend.elim

/-- **The no-combiner reduce goes where most temps are.** In every run of any jobs, each round of a job without
a combiner counts maps of registered nodes, and its order has exactly one temp for each map. Whatever the other
jobs do, the order of a round goes to the node with most temps, and the job ends as unavailable just without an
active node, when the round is the first one or one of the nodes is active. -/
theorem most_temps (rounds : ℕ) (jobs : List Submission) (es : List (ℕ × Choice)) (P : Pool Resp Exit Unit World)
    (hrun : run (Pool.step serve) (marta rounds jobs) es = some P) (t : ℕ) (x : Submission) (hx : jobs[t]? = some x)
    (hcombiner : x.combiner = false) :
    (∀ maps, P.At t (.selectMoreTemps maps) → Distinct P.state.nodes ∧ Named P.state.nodes maps) ∧
    (∀ job reduce, P.At t (.sendReduce true job reduce) → reduce.temps = job.maps.map mapToTemporal) ∧
    ∀ nodes w freed job f, Distinct nodes → Named nodes job.maps → job.maps.length < 2 ^ 16 →
      (∀ k, (orderFinalReduce freed job).Along (amid t) (AroundRound nodes) w ((List.range k).map f)) →
      EndsAtMost t nodes w freed job f := by
  have hrule : Pool.Rule (fun t => tempsSpec (∃ x, jobs[t]? = some x ∧ x.combiner = false))
    Tied serve fun _ _ _ _ => True := by
    rintro t w g r c y u htied - - hs
    obtain ⟨hturn, -, htied'⟩ := serve_turn htied hs
    exact ⟨u.talk t, hturn, htied'⟩
  have hP := Pool.ok_run hrule (marta_temps rounds jobs) Pool.along_meets_true hrun
  refine ⟨fun maps ht => ?_, fun job reduce ht => ?_, ?_⟩
  · obtain ⟨g, htied, hmay⟩ := hP.pre ht
    refine ⟨htied.distinct, fun m hm => ?_⟩
    obtain ⟨y, hy, hname⟩ := hmay ⟨x, hx, hcombiner⟩ m hm
    obtain ⟨node, hnode, hname'⟩ := htied.shown t y hy
    exact ⟨node, List.mem_of_getElem? hnode, hname'.trans hname⟩
  · obtain ⟨g, -, hmay⟩ := hP.pre ht
    exact hmay ⟨x, hx, hcombiner⟩ rfl
  · exact fun nodes w freed job f hdistinct hnamed hfew hC => endsAtMost hdistinct hnamed hfew hC

/-- What is decided from the start of a job with one map to the end of the map. -/
def mapDone : List Choice := planOne ++ [.answer 0 none, .done, .done]

/-- The maps that are counted. -/
def Req.mapsCounted : Req → Option (List Map)
  | .selectMoreTemps maps => some maps
  | _ => none

theorem Req.mapsCounted_eq {r : Req} {maps : List Map} (h : r.mapsCounted = some maps) : r = .selectMoreTemps maps := by
  unfold Req.mapsCounted at h
  split at h
  · cases h
    rfl
  · cases h

theorem most_temps_two : ∃ P maps, run (Pool.step serve) (marta 1 [oneFile 1]) (mapDone.map (Prod.mk 0)) = some P ∧
    P.At 0 (.selectMoreTemps maps) ∧ maps.length = 1 ∧ Named P.state.nodes maps ∧
    EndsAtMost 0 nodesAB ⟨nodesAB, fun _ => .start⟩ true threeMaps fun _ => (nodesAB, .done) := by
  obtain ⟨P, hP, r, hr, maps, hmaps, hlen⟩ :
      ∃ P ∈ run (Pool.step serve) (marta 1 [oneFile 1]) (mapDone.map (Prod.mk 0)),
        ∃ r ∈ P.asked 0, ∃ maps ∈ r.mapsCounted, maps.length = 1 := by
    decide +kernel
  have ht : P.At 0 (.selectMoreTemps maps) := Req.mapsCounted_eq hmaps ▸ Pool.at_of_asked hr
  obtain ⟨hnamed, -, hround⟩ := most_temps 1 [oneFile 1] _ P hP 0 (oneFile 1) rfl rfl
  have hdistinct : Distinct nodesAB := by
    unfold Distinct
    decide +kernel
  have hall := Prog.along_of_exec (p := orderFinalReduce true threeMaps) (h := amid 0) (C := AroundRound nodesAB)
    (s := ⟨nodesAB, fun _ => .start⟩) (f := fun _ => (nodesAB, .done)) (N := 5) (by decide +kernel) (by decide +kernel)
  exact ⟨P, maps, hP, ht, hlen, (hnamed maps ht).2, hround nodesAB _ true threeMaps _ hdistinct (by decide +kernel)
    (by decide) hall⟩

/-- What is decided until the result of a final reduce is not copied, and its map is planned again. -/
def roundFailed : List Choice :=
  mapDone ++ List.replicate 5 .done ++ [.answer 0 none, .done, .copied ⟨false, 0⟩, .done] ++ planOne.dropLast ++
    [.answer 0 none, .done, .done]

/-- After that the map of a second job fails on the same node. -/
def roundRetried : List (ℕ × Choice) :=
  roundFailed.map (Prod.mk 0) ++ planOne.map (Prod.mk 1) ++ [.answer 0 (some []), .done, .done].map (Prod.mk 1)

/-- **What is freed is freed again.** The retried round has no active node for its map: the job is told that the
file is unavailable, and is aborted by the second release of the node of its final reduce. -/
theorem freed_again : ∃ P P' maps, run (Pool.step serve) (marta 2 [oneFile 1, oneFile 2]) roundRetried = some P ∧
    P.At 0 (.selectMoreTemps maps) ∧ maps.length = 1 ∧ (∀ m ∈ maps, ¬OnActive P.state.nodes m.nodeName) ∧
    run (Pool.step serve) P (List.replicate 3 (0, .done)) = some P' ∧ P'.threads[0]? = some (.stop .aborted) := by
  obtain ⟨P, hP, r, hr, ⟨maps, hmaps, hlen, hnone⟩, P', hP', hstop⟩ :
      ∃ P ∈ run (Pool.step serve) (marta 2 [oneFile 1, oneFile 2]) roundRetried, ∃ r ∈ P.asked 0,
        (∃ maps ∈ r.mapsCounted, maps.length = 1 ∧ ∀ m ∈ maps, ¬OnActive P.state.nodes m.nodeName) ∧
        ∃ P' ∈ run (Pool.step serve) P (List.replicate 3 (0, .done)), P'.stopped 0 = some .aborted := by
    decide +kernel
  exact ⟨P, P', maps, hP, Req.mapsCounted_eq hmaps ▸ Pool.at_of_asked hr, hlen, hnone, hP', Pool.stop_of_stopped hstop⟩

end Mdfs.MaRTA
