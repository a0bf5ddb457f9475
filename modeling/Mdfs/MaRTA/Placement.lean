import Mdfs.MaRTA.Coverage

/-!
# Where a map is sent

`planMaps` selects a copy of a block, and takes the name and the place of its node from
the list of nodes. A node of that list has the name of the first copy that MaRTA heard of
and the place of the last one, of all those whose names are the same without regard to
case. So a map goes where its copy is as long as the names in the replies of the
FileSystem differ in more than case.

* `place_rule`: every step keeps the nodes and what the jobs have read of them to the
  copies that the FileSystem listed.
* `map_placed`: a map that is planned is sent to the place of a copy of its block.
* `map_misplaced`: with two names that differ in case only it is not.
-/

namespace Mdfs.MaRTA

open Lib

/-- The node of a copy, as the FileSystem lists it. -/
def FsCopy.info (c : FsCopy) : NodeInfo := ⟨c.nodeId, c.nodeIp, c.nodePort⟩

/-- A block on a node: where the FileSystem says it is, and where a map is sent. -/
def FsCopy.place (c : FsCopy) : NodeInfo × UInt16 := (c.info, c.nodeBlockNumber)

def Map.place (map : Map) : NodeInfo × UInt16 := (⟨map.nodeName, map.nodeIP, map.nodePort⟩, map.numBlock)

/-- A request for the blocks of a file. -/
def Req.asksFile : Req → Bool
  | .fileBlocks _ _ => true
  | _ => false

/-- Every copy in a reply of the FileSystem is one of `listed`. -/
def Lists (listed : List FsCopy) (_ : ℕ) (_ : World) (r : Req) (c : Choice) : Prop :=
  r.asksFile = true → ∀ copies ∈ c.reply, ∀ copy ∈ copies, copy ∈ listed

instance (listed : List FsCopy) (t : ℕ) (w : World) (r : Req) (c : Choice) : Decidable (Lists listed t w r c) :=
  inferInstanceAs (Decidable (_ → _))

/-- Each name, compared byte by byte, comes with one IP and port. -/
def OnePlace (listed : List FsCopy) : Prop := ∀ c ∈ listed, ∀ c' ∈ listed, c.nodeId = c'.nodeId → c.info = c'.info

/-- No two names are the same but for case. -/
def OneCase (listed : List FsCopy) : Prop :=
  ∀ c ∈ listed, ∀ c' ∈ listed, stringEqualsIgnoreCase c.nodeId c'.nodeId = true → c.nodeId = c'.nodeId

instance (listed : List FsCopy) : Decidable (OnePlace listed) := inferInstanceAs (Decidable (∀ c ∈ listed, _))

instance (listed : List FsCopy) : Decidable (OneCase listed) := inferInstanceAs (Decidable (∀ c ∈ listed, _))

/-! ## What a job may ask -/

/-- What has to hold where nodes are updated and where a map is sent. -/
def MaySend (listed : List FsCopy) (l : Talk) : Req → Prop
  | .updateNodes nodeID nodeIP nodePort => ∃ c ∈ listed, c.info = ⟨nodeID, nodeIP, nodePort⟩
  | .sendMap .plan map => ∃ n, l.chosen = some (n, map.numBlock, map.copies) ∧
      (n, ⟨map.nodeName, map.nodeIP, map.nodePort⟩) ∈ l.shown ∧ ∃ copies ∈ l.blocks, copies.map FsCopy.copy = map.copies
  | _ => True

/-- The blocks of a reply are of copies that are listed. -/
def Answers (listed : List FsCopy) : (r : Req) → Resp r → Prop
  | .fileBlocks _ _, buffer => ∀ copies ∈ fileBlocksOf buffer, ∀ copy ∈ copies, copy ∈ listed
  | _, _ => True

/-- **The specification of a job** as to where it sends maps. -/
def placeSpec (listed : List FsCopy) : Spec Resp Talk where
  pre := MaySend listed
  post l r x l' := Turn l r x l' ∧ Answers listed r x

variable {listed : List FsCopy} {l l' : Talk} {α : Type}

theorem placed_request {r : Req} {Q : Resp r → Talk → Prop} (hmay : MaySend listed l r)
    (hQ : ∀ x l', Turn l r x l' → Answers listed r x → Q x l') : (request r).Ok (placeSpec listed) Q anyExit l :=
  ⟨hmay, fun x l' h => hQ x l' h.1 h.2⟩

/-- The requests of a thread outside the loop of `planMaps` over the blocks. -/
abbrev Aside (listed : List FsCopy) (p : JobProg α) : Prop := p.Always (placeSpec listed)

theorem aside_request {r : Req} (h : ∀ l, MaySend listed l r) : Aside listed (request r) :=
  Prog.always_ask h fun _ _ _ _ _ => trivial

theorem aside_removeMaps (site : Removal) (maps : List Map) : Aside listed (removeMaps site maps) :=
  Prog.always_iterate maps fun _ _ => aside_request fun _ => trivial

theorem aside_leave {freed : Bool} (job : Job) (exit : Exit) : Aside listed (leave job exit freed : JobProg α) :=
  Prog.always_bind (always_freeJob (aside_removeMaps .free job.maps)) fun _ =>
    Prog.always_bind (aside_request fun _ => trivial) fun _ _ => trivial

/-- A thread that leaves does not come back. -/
theorem placed_leave {Q : α → Talk → Prop} (job : Job) (exit : Exit) :
    (leave job exit : JobProg α).Ok (placeSpec listed) Q anyExit l := by
  unfold leave
  rw [Prog.ok_bind]
  refine (ok_freeJob (aside_removeMaps .free job.maps l) fun _ _ _ => trivial).imp fun _ l₁ _ => ?_
  rw [Prog.ok_bind]
  exact placed_request trivial fun _ _ _ _ => trivial

theorem aside_notifFileUnavailable {freed : Bool} (job : Job) :
    Aside listed (notifFileUnavailable job freed : JobProg α) :=
  Prog.always_bind (aside_request fun _ => trivial) fun _ => aside_leave job .unavailable

theorem aside_updateNodes {reply : List (List FsCopy)} (h : ∀ copies ∈ reply, ∀ copy ∈ copies, copy ∈ listed) :
    Aside listed (Prog.iterate (Prog.iterate fun c : FsCopy => request
      (.updateNodes c.nodeId c.nodeIp c.nodePort)) reply) :=
  Prog.always_iterate reply fun copies hcopies => Prog.always_iterate copies fun c hc =>
    aside_request fun _ => ⟨c, h copies hcopies c hc, rfl⟩

theorem aside_requestFileBlocks (site : Site) (file : File) : Aside listed (requestFileBlocks site file) := by
  intro l
  unfold requestFileBlocks
  rw [Prog.ok_bind]
  refine placed_request trivial fun buffer l₁ _ hreply => ?_
  rw [Prog.ok_bind]
  exact (aside_updateNodes hreply l₁).imp fun _ _ _ => trivial

theorem aside_requestBlocks (site : Site) (files : List File) : Aside listed (requestBlocks site files) := by
  refine Prog.always_foldlM (fun x file => ?_) files _
  refine Prog.always_bind (aside_requestFileBlocks site file) fun y => ?_
  intro l
  trivial

theorem aside_replanned (job : Job) (map : Map) : Aside listed (notificarMap .replan job map) := by
  refine Prog.always_bind (aside_request fun _ => trivial) fun through => ?_
  split
  · exact fun _ => trivial
  · exact aside_leave job .died

variable {recv : Recv} {rounds : ℕ}

theorem aside_rePlanMap (hrecv : ∀ job, Aside listed (recv job)) (job : Job) (i : ℕ) :
    Aside listed (rePlanMap recv job i) := by
  refine Prog.always_bind (aside_requestBlocks .replan job.files) fun files => ?_
  dsimp only
  split
  · exact fun _ => trivial
  · refine Prog.always_bind (aside_request fun _ => trivial) fun x => ?_
    split
    · exact fun _ => trivial
    · refine Prog.always_bind (aside_request fun _ => trivial) fun node => ?_
      refine Prog.always_bind (aside_request fun _ => trivial) fun time => ?_
      refine Prog.always_bind (aside_replanned _ _) fun _ => ?_
      exact Prog.always_bind (hrecv _) fun _ _ => trivial

/-- A round of `recvResult` is aside. -/
theorem aside_recvResult (rounds : ℕ) : ∀ job, Aside listed (recvResult rounds job) := by
  induction rounds with
  | zero => exact fun _ _ => trivial
  | succ rounds ih =>
    intro job
    refine Prog.always_bind (aside_request fun _ => trivial) fun x => ?_
    split
    · exact aside_leave job .died
    · refine Prog.always_bind ?_ fun job _ => trivial
      unfold desserializeMapResult
      split
      · exact fun _ => trivial
      · split
        · exact fun _ => trivial
        · refine Prog.always_bind (aside_request fun _ => trivial) fun _ => ?_
          split
          · exact fun _ => trivial
          · refine Prog.always_bind (aside_request fun _ => trivial) fun _ => ?_
            refine Prog.always_bind (aside_rePlanMap ih job _) fun y => ?_
            split
            · exact fun _ => trivial
            · exact aside_notifFileUnavailable y.1
    · refine Prog.always_bind ?_ fun nodeID _ => trivial
      unfold desserializaReduceResult
      split
      · exact fun _ => trivial
      · refine Prog.always_bind (aside_request fun _ => trivial) fun _ => ?_
        split
        · exact fun _ => trivial
        · exact Prog.always_bind (aside_request fun _ => trivial) fun _ _ => trivial

/-! ## `ReducePlanning.c` -/

theorem aside_notificarReduce (final : Bool) (job : Job) (reduce : Reduce) :
    Aside listed (notificarReduce final job reduce) := by
  refine Prog.always_bind (aside_request fun _ => trivial) fun _ => ?_
  refine Prog.always_bind (aside_request fun _ => trivial) fun through => ?_
  split
  · exact fun _ => trivial
  · exact aside_leave job .died

theorem aside_rePlanMapsFromNode (hrecv : ∀ job, Aside listed (recv job)) (job : Job) (node : CStr) :
    Aside listed (rePlanMapsFromNode recv job node) := by
  refine Prog.always_bind (aside_request fun _ => trivial) fun _ => ?_
  refine Prog.always_bind (Prog.always_foldlM (fun x i => ?_) _ _) fun x => ?_
  · unfold rePlanByNode
    split
    · exact fun _ => trivial
    · split
      · exact Prog.always_bind (aside_rePlanMap hrecv _ i) fun _ _ => trivial
      · exact fun _ => trivial
  · split
    · exact Prog.always_bind (aside_request fun _ => trivial) fun _ _ => trivial
    · exact fun _ => trivial

theorem aside_finishFinalReduce (hrecv : ∀ job, Aside listed (recv job)) (job : Job) :
    Aside listed (finishFinalReduce recv job) := by
  refine Prog.always_bind (hrecv job) fun x => ?_
  split
  · exact fun _ => trivial
  · refine Prog.always_bind ?_ fun _ _ => trivial
    refine Prog.always_bind (aside_request fun _ => trivial) fun reply => ?_
    split
    · exact Prog.always_bind (aside_request fun _ => trivial) fun _ => aside_leave x.1 .cantCopy
    · exact fun _ => trivial

theorem aside_awaitFinalReduce (hrecv : ∀ job, Aside listed (recv job)) (clean : Job → Job) (job : Job) :
    Aside listed (awaitFinalReduce recv clean job) := by
  refine Prog.always_bind (aside_finishFinalReduce hrecv job) fun x => ?_
  split
  · exact fun _ => trivial
  · refine Prog.always_bind (aside_rePlanMapsFromNode hrecv x.1 _) fun y => ?_
    split
    · exact fun _ => trivial
    · exact aside_notifFileUnavailable y.1

theorem aside_planFinalReduce (job : Job) (node : NodeInfo) (temps : List Temp) :
    Aside listed (planFinalReduce job node temps) := by
  refine Prog.always_bind (aside_request fun _ => trivial) fun time => ?_
  exact Prog.always_bind (aside_notificarReduce true _ _) fun _ _ => trivial

theorem aside_orderFinalReduce (freed : Bool) (job : Job) : Aside listed (orderFinalReduce freed job) := by
  refine Prog.always_bind (aside_request fun _ => trivial) fun x => ?_
  split
  · exact aside_notifFileUnavailable job
  · exact Prog.always_bind (aside_request fun _ => trivial) fun node => aside_planFinalReduce job node _

theorem aside_noCombinerReducePlanning (hrecv : ∀ job, Aside listed (recv job)) (rounds : ℕ) :
    ∀ freed job, Aside listed (noCombinerReducePlanning recv rounds freed job) := by
  induction rounds with
  | zero => exact fun _ _ _ => trivial
  | succ rounds ih =>
    intro freed job
    refine Prog.always_bind (aside_orderFinalReduce freed job) fun job₁ => ?_
    refine Prog.always_bind (aside_awaitFinalReduce hrecv noCombinerClean job₁) fun x => ?_
    split
    · exact ih true x.1
    · exact fun _ => trivial

theorem aside_combinerPartialsReducePlanning (job : Job) : Aside listed (combinerPartialsReducePlanning job) := by
  refine Prog.always_bind (Prog.always_foldlM (fun reduces map => ?_) _ _) fun partialReduces => ?_
  · unfold agregarAPartialReduces
    split
    · exact fun _ => trivial
    · exact Prog.always_bind (aside_request fun _ => trivial) fun _ _ => trivial
  · refine Prog.always_bind (Prog.always_iterate _ fun reduce _ => aside_notificarReduce false _ reduce)
      fun _ _ => trivial

theorem aside_partialRounds (hrecv : ∀ job, Aside listed (recv job)) (rounds : ℕ) :
    ∀ job, Aside listed (partialRounds recv rounds job) := by
  induction rounds with
  | zero => exact fun _ _ => trivial
  | succ rounds ih =>
    intro job
    refine Prog.always_bind (aside_combinerPartialsReducePlanning job) fun job => ?_
    refine Prog.always_bind (Prog.always_foldlM (fun x _ => ?_) _ _) fun x => ?_
    · exact Prog.always_bind (hrecv x.1) fun _ _ => trivial
    · split
      · exact fun _ => trivial
      · refine Prog.always_bind (Prog.always_foldlM (fun y node => ?_) _ _) fun y => ?_
        · exact Prog.always_bind (aside_rePlanMapsFromNode hrecv y.1 node) fun _ _ => trivial
        · split
          · exact ih _
          · exact aside_notifFileUnavailable y.1

theorem aside_combinerReducePlanning (hrecv : ∀ job, Aside listed (recv job)) (partials rounds : ℕ) :
    ∀ job, Aside listed (combinerReducePlanning recv partials rounds job) := by
  induction rounds with
  | zero => exact fun _ _ => trivial
  | succ rounds ih =>
    intro job
    refine Prog.always_bind (aside_partialRounds hrecv partials job) fun job => ?_
    refine Prog.always_bind ?_ fun job => ?_
    · exact Prog.always_bind (aside_request fun _ => trivial) fun node => aside_planFinalReduce job node _
    · refine Prog.always_bind (aside_awaitFinalReduce hrecv combinerClean job) fun x => ?_
      split
      · exact ih x.1
      · exact fun _ => trivial

/-! ## `MapPlanning.c` -/

/-- The blocks of a job that is planned are those of the replies, in order. -/
theorem placed_requestBlocks_plan (files : List File) (hfiles : ∀ file ∈ files, file.blocks = []) (hl : l.blocks = []) :
    (requestBlocks .plan files).Ok (placeSpec listed) (fun x (l' : Talk) =>
      x.1.flatMap File.blocks = l'.blocks.map fun copies => copies.map FsCopy.copy) anyExit l := by
  unfold requestBlocks
  refine Prog.ok_foldlM (K := fun _ (x : List File × Bool) (l' : Talk) =>
    x.1.flatMap File.blocks = l'.blocks.map fun copies => copies.map FsCopy.copy) files ?_ (by rw [hl]; rfl)
  intro done file rest x l₁ hsplit hblocks
  have hfile : file.blocks = [] := hfiles file (by rw [← hsplit]; simp)
  unfold requestFileBlocks
  rw [Prog.ok_bind, Prog.ok_bind]
  refine placed_request trivial ?_
  rintro buffer l₂ rfl hreply
  set reply := fileBlocksOf buffer
  -- the nodes are updated, and nothing is written down of it
  have hupdated : (Prog.iterate (Prog.iterate fun c : FsCopy => request
    (.updateNodes c.nodeId c.nodeIp c.nodePort)) reply).Ok
      (placeSpec listed) (fun _ l' => l' = l₁.blocksGot .plan reply) anyExit (l₁.blocksGot .plan reply) := by
    refine Prog.ok_iterate (K := fun _ q => q = l₁.blocksGot .plan reply) reply ?_ rfl
    rintro done copies rest - hcopies rfl
    have hcopies : copies ∈ reply := hcopies ▸ List.mem_append_right done List.mem_cons_self
    refine Prog.ok_iterate (K := fun _ q => q = l₁.blocksGot .plan reply) copies ?_ rfl
    rintro done c rest - hc rfl
    have hc : c ∈ copies := hc ▸ List.mem_append_right done List.mem_cons_self
    exact ⟨⟨c, hreply copies hcopies c hc, rfl⟩, fun _ _ h => h.1⟩
  rw [Prog.ok_bind]
  refine hupdated.imp ?_
  rintro - l₃ rfl
  change (x.1 ++ [_]).flatMap File.blocks = (l₁.blocksGot .plan reply).blocks.map _
  have hgot : (l₁.blocksGot .plan reply).blocks = l₁.blocks ++ reply := by
    unfold Talk.blocksGot
    rw [if_pos rfl]
  rw [hgot, List.flatMap_append, hblocks, List.map_append, List.flatMap_singleton, hfile, List.nil_append]

/-- `mapPlanning`: the map is sent to the node that was selected for its block. -/
theorem placed_mapPlanning (job : Job) {copies : List FsCopy} (h : copies ∈ l.blocks) :
    (mapPlanning job (copies.map FsCopy.copy)).Ok (placeSpec listed) (fun _ l' => l'.blocks = l.blocks) anyExit l := by
  unfold mapPlanning
  rw [Prog.ok_bind]
  refine placed_request trivial ?_
  rintro (_ | ⟨n, numBlock⟩) l₁ rfl -
  · -- the maps that were sent are taken off their nodes
    dsimp only
    rw [Prog.ok_bind]
    refine Prog.ok_iterate (K := fun _ (q : Talk) => q.blocks = l.blocks) job.maps ?_ rfl
    rintro - map - l₂ - hl₂
    refine placed_request trivial ?_
    rintro - l₃ ⟨name, -, rfl⟩ -
    exact hl₂
  · dsimp only
    rw [Prog.ok_bind]
    refine placed_request trivial ?_
    rintro - l₂ ⟨name, rfl⟩ -
    rw [Prog.ok_bind]
    refine placed_request trivial ?_
    rintro node l₃ ⟨-, rfl⟩ -
    rw [Prog.ok_bind]
    refine placed_request trivial ?_
    rintro time l₄ rfl -
    rw [Prog.ok_bind]
    unfold notificarMap
    rw [Prog.ok_bind]
    refine placed_request ⟨n, rfl, List.mem_append_right _ List.mem_cons_self, copies, h, rfl⟩ ?_
    rintro through l₅ rfl -
    cases through with
    | true => rfl
    | false =>
      rw [if_neg Bool.false_ne_true]
      exact placed_leave _ .died

/-- **`planMaps`** plans the maps from the copies that were listed. -/
theorem placed_planMaps (rounds : ℕ) {job : Job} (h : job.New) :
    (planMaps (recvResult rounds) job).Ok (placeSpec listed) (fun _ _ => True) anyExit .start := by
  unfold planMaps
  rw [Prog.ok_bind]
  refine (placed_requestBlocks_plan job.files h.files rfl).imp ?_
  intro files l₁ hblocks
  dsimp only
  split
  · rw [Prog.ok_bind]
    refine (Prog.ok_foldlM (K := fun _ _ (l' : Talk) => l'.blocks = l₁.blocks) _ ?_ rfl).imp fun job₁ l₂ _ => ?_
    · intro done copies rest job₁ l₂ hsplit hl₂
      have hmem : copies ∈ files.1.flatMap File.blocks := hsplit ▸ List.mem_append_right done List.mem_cons_self
      rw [hblocks] at hmem
      obtain ⟨listing, hlisting, rfl⟩ := List.mem_map.1 hmem
      rw [← hl₂] at hlisting
      refine (placed_mapPlanning job₁ hlisting).imp fun _ l₃ hl₃ => ?_
      exact hl₃.trans hl₂
    · -- the results plan no map for the first time
      refine Prog.always_bind (Prog.always_foldlM (fun job _ => ?_) _ _) (fun job => ?_) l₂
      · exact Prog.always_bind (aside_recvResult rounds job) fun _ _ => trivial
      · exact Prog.always_bind (aside_request fun _ => trivial) fun _ _ => trivial
  · exact aside_notifFileUnavailable _ l₁

/-- **A job keeps to the specification**: only `planMaps` plans maps of its own. -/
theorem placed_acceptJob (rounds : ℕ) {job : Job} (h : job.New) :
    (acceptJob rounds job).Ok (placeSpec listed) (fun _ _ => True) anyExit .start := by
  unfold acceptJob planJob
  rw [Prog.ok_bind, Prog.ok_bind]
  refine (placed_planMaps rounds h).imp fun job l _ => ?_
  rw [← Prog.ok_bind]
  have hend : ∀ job : Job, Aside listed (finishJob job) := by
    intro job
    refine Prog.always_bind (aside_request fun _ => trivial) fun _ => ?_
    exact Prog.always_bind (always_freeJob (aside_removeMaps .free job.maps)) fun _ => aside_request fun _ => trivial
  split
  · exact Prog.always_bind (aside_combinerReducePlanning (aside_recvResult rounds) rounds rounds job) hend l
  · exact Prog.always_bind (aside_noCombinerReducePlanning (aside_recvResult rounds) rounds false job) hend l

/-! ## What the nodes and the jobs know of them -/

/-- Every node is one that was listed. -/
def Registry (listed : List FsCopy) (nodes : List Node) : Prop := ∀ node ∈ nodes, ∃ c ∈ listed, c.info = node.info

/-- **What a job has seen** is what was listed, and it has selected a node by the name of a copy. -/
structure Seen (listed : List FsCopy) (nodes : List Node) (l : Talk) : Prop where
  blocks : ∀ copies ∈ l.blocks, ∀ c ∈ copies, c ∈ listed
  shown : ∀ x ∈ l.shown, ∃ c ∈ listed, c.info = x.2
  chosen : ∀ n numBlock copies, l.chosen = some (n, numBlock, copies) → ∃ node, nodes[n]? = some node ∧
    ∃ copy ∈ copies, stringEqualsIgnoreCase node.name copy.nodeName = true ∧ copy.numBlock = numBlock

variable {nodes nodes' : List Node} {w u : World} {g : ℕ → Talk} {t n : ℕ} {r : Req} {c : Choice} {x : Resp r}

theorem Registry.modify (h : Registry listed nodes) {f : Node → Node} (hf : ∀ node, (f node).info = node.info) (n : ℕ) :
    Registry listed (nodes.modify n f) := by
  intro node' hnode'
  obtain ⟨k, hk⟩ := List.mem_iff_getElem?.1 hnode'
  rw [List.getElem?_modify, Option.map_eq_map, Option.map_eq_some_iff] at hk
  obtain ⟨node, hnode, rfl⟩ := hk
  obtain ⟨c, hc, hinfo⟩ := h node (List.mem_of_getElem? hnode)
  refine ⟨c, hc, ?_⟩
  split
  · rw [hf, hinfo]
  · exact hinfo

theorem Registry.found (h : Registry listed nodes) {name : CStr} {f : Node → Node}
    (hnodes : ((findNode nodes name).map fun n => nodes.modify n f) = some nodes')
      (hf : ∀ node, (f node).info = node.info) :
    Registry listed nodes' := by
  obtain ⟨n, -, rfl⟩ := Option.map_eq_some_iff.1 hnodes
  exact h.modify hf n

/-- **`updateNodes` gives a node the place of a copy of its own name.** -/
theorem Registry.updateNodes (h : Registry listed nodes) (hcase : OneCase listed) {c : FsCopy} (hc : c ∈ listed) :
    Registry listed (updateNodes nodes c.nodeId c.nodeIp c.nodePort) := by
  unfold MaRTA.updateNodes
  cases hfind : findNode nodes c.nodeId with
  | none =>
    intro node hnode
    rcases List.mem_append.1 hnode with hnode | hnode
    · exact h node hnode
    · rw [List.mem_singleton.1 hnode]
      exact ⟨c, hc, rfl⟩
  | some n =>
    obtain ⟨old, hold, hname⟩ := findNode_spec hfind
    intro node hnode
    obtain ⟨k, hk⟩ := List.mem_iff_getElem?.1 hnode
    simp only [List.getElem?_modify, Option.map_eq_map, Option.map_eq_some_iff] at hk
    obtain ⟨before, hbefore, rfl⟩ := hk
    split
    · rename_i hnk
      subst hnk
      obtain rfl : old = before := Option.some.inj (hold.symm.trans hbefore)
      -- the node has the name of a copy, which is the same name
      obtain ⟨c', hc', hinfo⟩ := h old (List.mem_of_getElem? hold)
      have hid : c'.nodeId = old.name := congrArg NodeInfo.name hinfo
      rw [← hid] at hname
      have hsame : c.nodeId = old.name := (hcase c' hc' c hc hname).symm.trans hid
      refine ⟨c, hc, ?_⟩
      rw [FsCopy.info, hsame]
      rfl
    · exact h before (List.mem_of_getElem? hbefore)

theorem Seen.steady (h : Seen listed nodes l) (hnodes : Steady nodes nodes') : Seen listed nodes' l where
  blocks := h.blocks
  shown := h.shown
  chosen := by
    intro n numBlock copies hchosen
    obtain ⟨node, hnode, copy, hcopy, hname, hnum⟩ := h.chosen n numBlock copies hchosen
    obtain ⟨node', hnode', hname'⟩ := hnodes n node hnode
    rw [← hname'] at hname
    exact ⟨node', hnode', copy, hcopy, hname, hnum⟩

theorem Seen.of_same (h : Seen listed nodes l) (hblocks : l'.blocks = l.blocks) (hshown : l'.shown = l.shown)
    (hchosen : l'.chosen = l.chosen) : Seen listed nodes l' where
  blocks := by rw [hblocks]; exact h.blocks
  shown := by rw [hshown]; exact h.shown
  chosen := by rw [hchosen]; exact h.chosen

/-- A node is read that is one that was listed. -/
theorem Seen.read (h : Seen listed nodes l) (hnodes : Registry listed nodes) {node : Node}
    (hnode : nodes[n]? = some node) :
    Seen listed nodes (l.read n node.info) where
  blocks := h.blocks
  shown := by
    intro x hx
    rcases List.mem_append.1 hx with hx | hx
    · exact h.shown x hx
    · rw [List.mem_singleton.1 hx]
      exact hnodes node (List.mem_of_getElem? hnode)
  chosen := h.chosen

/-- The requests by which a job sees nodes and copies. -/
def Req.sees : Req → Bool
  | .fileBlocks _ _ | .selectNode _ _ | .readNode _ | .selectFinalNode _ => true
  | _ => false

/-- What other requests leave as it is. -/
theorem Turn.unseen (h : Turn l r x l') (hr : r.sees = false) :
    l'.blocks = l.blocks ∧ l'.shown = l.shown ∧ l'.chosen = l.chosen := by
  cases r with
  | fileBlocks | selectNode | readNode | selectFinalNode => cases hr
  | listAddMap n numBlock =>
    obtain ⟨name, rfl⟩ := h
    exact ⟨rfl, rfl, rfl⟩
  | removeMapNode site nodeName numBlock =>
    obtain ⟨name, -, rfl⟩ := h
    exact ⟨rfl, rfl, rfl⟩
  | addReduceNode finalNode =>
    obtain ⟨name, -, rfl⟩ := h
    exact ⟨rfl, rfl, rfl⟩
  | removeReduceNode finalNode =>
    obtain ⟨name, -, rfl⟩ := h
    exact ⟨rfl, rfl, rfl⟩
  | sendMap site map =>
    subst h
    cases x with
    | _ => exact ⟨rfl, rfl, rfl⟩
  | sendReduce final job reduce =>
    subst h
    cases x with
    | _ => exact ⟨rfl, rfl, rfl⟩
  | recv =>
    rcases h with ⟨-, rfl⟩ | ⟨i, o, failed, -, -, rfl⟩
    · exact ⟨rfl, rfl, rfl⟩
    · exact ⟨rfl, rfl, rfl⟩
  | mark point job =>
    subst h
    cases point with
    | _ => exact ⟨rfl, rfl, rfl⟩
  | _ =>
    subst h
    exact ⟨rfl, rfl, rfl⟩

/-- A request changes no node but by `updateNodes`, as far as its name and its place go. -/
theorem serve_registry (h : Registry listed w.nodes) (hs : serve t w r c = some (x, u))
    (hr : ∀ nodeID nodeIP nodePort, r ≠ .updateNodes nodeID nodeIP nodePort) : Registry listed u.nodes := by
  cases r with
  | updateNodes nodeID nodeIP nodePort => exact absurd rfl (hr nodeID nodeIP nodePort)
  | listAddMap n numBlock =>
    simp only [serve, Option.map_eq_some_iff, Prod.mk.injEq] at hs
    obtain ⟨node, -, -, rfl⟩ := hs
    exact h.modify (f := fun node => { node with maps := node.maps ++ [numBlock] }) (fun _ => rfl) n
  | removeMapNode site nodeName numBlock =>
    simp only [serve, Option.bind_eq_some_iff, Option.map_eq_some_iff, Prod.mk.injEq] at hs
    obtain ⟨n, -, nodes, hnodes, -, rfl⟩ := hs
    exact h.found hnodes fun _ => rfl
  | deactivateNode nodeName =>
    simp only [serve, Option.map_eq_some_iff, Prod.mk.injEq] at hs
    obtain ⟨nodes, hnodes, -, rfl⟩ := hs
    exact h.found hnodes fun _ => rfl
  | addReduceNode finalNode =>
    simp only [serve, Option.bind_eq_some_iff, Option.map_eq_some_iff, Prod.mk.injEq] at hs
    obtain ⟨n, -, nodes, hnodes, -, rfl⟩ := hs
    exact h.found hnodes fun _ => rfl
  | removeReduceNode finalNode =>
    simp only [serve, Option.bind_eq_some_iff, Option.map_eq_some_iff, Prod.mk.injEq] at hs
    obtain ⟨n, -, nodes, hnodes, -, rfl⟩ := hs
    exact h.found hnodes fun _ => rfl
  | _ =>
    rw [serve_nodes hs rfl]
    exact h

/-- What a job has seen after its step. -/
theorem Seen.served (h : Seen listed w.nodes (g t)) (htied : Tied w g) (hnodes : Registry listed w.nodes)
    (hturn : Turn (g t) r x (u.talk t)) (hanswers : Answers listed r x) (hs : serve t w r c = some (x, u)) :
    Seen listed w.nodes (u.talk t) := by
  cases r with
  | fileBlocks site path =>
    rw [show u.talk t = (g t).blocksGot site (fileBlocksOf x) from hturn]
    refine ⟨?_, ?_, ?_⟩
    · intro copies hcopies copy hcopy
      cases site with
      | plan =>
        rcases List.mem_append.1 hcopies with hcopies | hcopies
        · exact h.blocks copies hcopies copy hcopy
        · exact hanswers copies hcopies copy hcopy
      | replan => exact h.blocks copies hcopies copy hcopy
    · cases site with
      | _ => exact h.shown
    · cases site with
      | _ => exact h.chosen
  | selectNode site copies =>
    simp only [serve, Option.map_eq_some_iff, Prod.mk.injEq] at hs
    obtain ⟨y, hy, -, rfl⟩ := hs
    rw [htied.say_talk]
    cases y with
    | none => exact h.of_same rfl rfl rfl
    | some y =>
      refine ⟨h.blocks, h.shown, ?_⟩
      intro n numBlock copies' hchosen
      obtain ⟨rfl, rfl, rfl⟩ : y.1 = n ∧ y.2 = numBlock ∧ copies = copies' := by
        simpa [Talk.selected] using hchosen
      -- the node is found by the name of one of these copies
      obtain ⟨copy, hcopy, hfind, hnum⟩ := selectNodeToMap_spec hy
      obtain ⟨node, hnode, hname⟩ := findNode_spec hfind
      exact ⟨node, hnode, copy, hcopy, hname, hnum⟩
  | readNode n =>
    simp only [serve, Option.map_eq_some_iff, Prod.mk.injEq] at hs
    obtain ⟨node, hnode, -, rfl⟩ := hs
    rw [htied.say_talk]
    exact h.read hnodes hnode
  | selectFinalNode reduces =>
    simp only [serve, Option.bind_eq_some_iff, Option.map_eq_some_iff, Prod.mk.injEq] at hs
    obtain ⟨y, -, node, hnode, -, rfl⟩ := hs
    rw [htied.say_talk]
    exact h.read hnodes hnode
  | _ =>
    obtain ⟨hblocks, hshown, hchosen⟩ := hturn.unseen rfl
    exact h.of_same hblocks hshown hchosen

/-- **Every step keeps the nodes and what the jobs have seen** to the copies that were listed. -/
theorem place_rule (hcase : OneCase listed) : Pool.Rule (fun _ => placeSpec listed)
    (fun w g => Tied w g ∧ Registry listed w.nodes ∧ ∀ t, Seen listed w.nodes (g t)) serve (Lists listed) := by
  rintro t w g r c x u ⟨htied, hnodes, hseen⟩ hpre hC hs
  obtain ⟨hturn, hkept, htied'⟩ := serve_turn htied hs
  have hnodes' : Registry listed u.nodes := by
    by_cases hr : ∃ nodeID nodeIP nodePort, r = .updateNodes nodeID nodeIP nodePort
    · obtain ⟨nodeID, nodeIP, nodePort, rfl⟩ := hr
      obtain ⟨copy, hcopy, hinfo⟩ := hpre
      obtain ⟨rfl, rfl, rfl⟩ := NodeInfo.mk.inj hinfo
      simp only [serve, Option.some.injEq, Prod.mk.injEq] at hs
      obtain ⟨-, rfl⟩ := hs
      exact hnodes.updateNodes hcase hcopy
    · exact serve_registry hnodes hs fun nodeID nodeIP nodePort heq => hr ⟨nodeID, nodeIP, nodePort, heq⟩
  have hanswers : Answers listed r x := by
    cases r with
    | fileBlocks site path =>
      simp only [serve, Option.some.injEq, Prod.mk.injEq] at hs
      obtain ⟨rfl, -⟩ := hs
      exact hC rfl
    | _ => trivial
  have hnew := (hseen t).served htied hnodes hturn hanswers hs
  refine ⟨u.talk t, ⟨hturn, hanswers⟩, htied', hnodes', fun t' => ?_⟩
  by_cases ht : t' = t
  · rw [ht, Function.update_self]
    exact hnew.steady hkept.steady
  · rw [Function.update_of_ne ht]
    exact (hseen t').steady hkept.steady

/-! ## A map goes where its copy is -/

/-- **A map is sent to the place of a copy.** In every run of any jobs along replies of the
FileSystem in which each name comes with one place, and no two names are the same but for
case: a map that `planMaps` sends has the name, the place and the number of a copy of its
block. -/
theorem map_placed (rounds : ℕ) (jobs : List Submission) (listed : List FsCopy) (hplace : OnePlace listed)
    (hcase : OneCase listed) (es : List (ℕ × Choice)) (P : Pool Resp Exit Unit World)
    (hC : Along (Pool.step serve) (fun P x => P.Meets (Lists listed) x) (marta rounds jobs) es)
    (hrun : run (Pool.step serve) (marta rounds jobs) es = some P) (t : ℕ) (map : Map)
    (ht : P.At t (.sendMap .plan map)) :
    ∃ copies ∈ (P.state.talk t).blocks, copies.map FsCopy.copy = map.copies ∧ ∃ c ∈ copies, map.place = c.place := by
  have hstart : (marta rounds jobs).Ok (fun _ => placeSpec listed) (fun _ _ _ => True) (fun _ => anyExit)
      fun w g => Tied w g ∧ Registry listed w.nodes ∧ ∀ t, Seen listed w.nodes (g t) := by
    refine ⟨fun _ => .start, ⟨tied_start, fun _ hnode => absurd hnode List.not_mem_nil, fun _ => ?_⟩, fun t p hp => ?_⟩
    · exact ⟨fun _ h => absurd h List.not_mem_nil, fun _ h => absurd h List.not_mem_nil, fun _ _ _ h => by cases h⟩
    · obtain ⟨x, -, rfl⟩ := List.mem_map.1 (List.mem_of_getElem? hp)
      exact placed_acceptJob rounds (createJob_new ..)
  obtain ⟨g, ⟨htied, -, hseen⟩, hpre⟩ := (Pool.ok_run (place_rule hcase) hstart hC hrun).pre ht
  rw [htied.talk]
  obtain ⟨n, hchosen, hshown, copies, hcopies, hmap⟩ := hpre
  refine ⟨copies, hcopies, hmap, ?_⟩
  -- the copy that was selected, and the one whose place the node has
  obtain ⟨node, hnode, copy, hcopy, hname, hnum⟩ := (hseen t).chosen n _ _ hchosen
  obtain ⟨c', hc', hinfo⟩ := (hseen t).shown _ hshown
  rw [← hmap] at hcopy
  obtain ⟨c, hc, rfl⟩ := List.mem_map.1 hcopy
  have hlisted : c ∈ listed := (hseen t).blocks copies hcopies c hc
  -- the node that was read is the one that was selected
  obtain ⟨node', hnode', hname'⟩ := htied.shown t _ hshown
  obtain rfl : node = node' := Option.some.inj (hnode.symm.trans hnode')
  have hid : c'.nodeId = node.name := (congrArg NodeInfo.name hinfo).trans hname'.symm
  rw [← hid] at hname
  have hsame : c.info = c'.info := hplace c hlisted c' hc' (hcase c' hc' c hlisted hname).symm
  refine ⟨c, hc, ?_⟩
  unfold Map.place FsCopy.place
  rw [hsame.trans hinfo, ← hnum]
  rfl

/-- The map of an order that `planMaps` sends. -/
def Req.mapPlanned : Req → Option Map
  | .sendMap .plan map => some map
  | _ => none

theorem Req.mapPlanned_eq {r : Req} {map : Map} (h : r.mapPlanned = some map) : r = .sendMap .plan map := by
  unfold Req.mapPlanned at h
  split at h
  · cases h
    rfl
  · cases h

theorem map_placed_one : ∃ P map, run (Pool.step serve) (marta 1 [oneFile 1])
    (planOne.dropLast.map (Prod.mk 0)) = some P ∧
    P.At 0 (.sendMap .plan map) ∧ map.nodePort = 6001 ∧
    ∃ copies ∈ (P.state.talk 0).blocks, copies.map FsCopy.copy = map.copies ∧ ∃ c ∈ copies, map.place = c.place := by
  obtain ⟨P, hP, hC, r, hr, map, hmap, hport⟩ :
      ∃ P ∈ run (Pool.step serve) (marta 1 [oneFile 1]) (planOne.dropLast.map (Prod.mk 0)),
        Along (Pool.step serve) (fun P x => P.Meets (Lists [copyOn (cstr "A") 3]) x) (marta 1 [oneFile 1])
          (planOne.dropLast.map (Prod.mk 0)) ∧
        ∃ r ∈ P.asked 0, ∃ map ∈ r.mapPlanned, map.nodePort = 6001 := by
    decide +kernel
  have ht : P.At 0 (.sendMap .plan map) := Req.mapPlanned_eq hmap ▸ Pool.at_of_asked hr
  exact ⟨P, map, hP, ht, hport, map_placed 1 _ [copyOn (cstr "A") 3] (by decide) (by decide) _ P hC hP 0 map ht⟩

/-- Two nodes whose names differ in case only, each with a block of one file. -/
def twoCases : List (List FsCopy) :=
  [[⟨cstr "Nodo1", cstr "10.0.0.1", 6001, 3⟩], [⟨cstr "nodo1", cstr "10.0.0.2", 6002, 4⟩]]

/-- **A map is sent to another node.** Each name comes with one place, and the map of the
first block, which `Nodo1` has, is sent to the place of `nodo1`. -/
theorem map_misplaced : OnePlace twoCases.flatten ∧ ∃ P map,
    run (Pool.step serve) (marta 1 [oneFile 1]) ((.blocks twoCases :: List.replicate 6 .done).map (Prod.mk 0)) =
      some P ∧
    P.At 0 (.sendMap .plan map) ∧ (P.state.talk 0).blocks = twoCases ∧
    map.place = (⟨cstr "Nodo1", cstr "10.0.0.2", 6002⟩, 3) ∧
    ∀ c ∈ twoCases.flatten, map.place ≠ c.place := by
  obtain ⟨P, hP, r, hr, map, hmap, hblocks, hplace⟩ :
      ∃ P ∈ run (Pool.step serve) (marta 1 [oneFile 1]) ((.blocks twoCases :: List.replicate 6 .done).map (Prod.mk 0)),
        ∃ r ∈ P.asked 0, ∃ map ∈ r.mapPlanned, (P.state.talk 0).blocks = twoCases ∧
          map.place = (⟨cstr "Nodo1", cstr "10.0.0.2", 6002⟩, 3) := by
    decide +kernel
  have ht : P.At 0 (.sendMap .plan map) := Req.mapPlanned_eq hmap ▸ Pool.at_of_asked hr
  refine ⟨by decide, P, map, hP, ht, hblocks, hplace, ?_⟩
  rw [hplace]
  decide

end Mdfs.MaRTA
