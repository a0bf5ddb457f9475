import Mdfs.MaRTA.Coverage
import Mdfs.MaRTA.MostTemps

/-!
# Where MaRTA follows a `NULL` node

A node is looked up by its name, and the pointer is followed without a check. The names that a
job looks up come from the replies of the FileSystem, whose nodes it has just registered, and
nodes are never removed; so the lookups find them, whatever the other jobs do. There are two
exceptions. A Job may blame a node that no one has registered, and when the maps have no
active node left `combinerFinalReducePlanning` has no node to choose.

A job never waits for a result that no one owes it: each order is answered once, and no more
results are waited for than orders are out (`Waits`). A result with an id that was not ordered, a
name that overruns its array and what is freed twice are not treated here.

* `crash_acceptJob`: the whole of `acceptJob` keeps to this.
* `null_followed`: the requests that follow a `NULL` node, in any run.
-/

namespace Mdfs.MaRTA

open Lib Wire

/-- What a job knows of the nodes. -/
structure Scope where
  talk : Talk
  /-- The names of nodes that were registered when it met them. -/
  names : List CStr
  /-- The place of the node that it selected last. -/
  place : Option ℕ

/-- The names that a request tells. -/
def Req.meets : (r : Req) → Resp r → List CStr
  | .updateNodes nodeID _ _, _ => [nodeID]
  | .readNode _, x => [x.name]
  | .selectFinalNode _, x => [x.name]
  | _, _ => []

/-- The place that is selected after a request. -/
def Req.placed : (r : Req) → Resp r → Option ℕ → Option ℕ
  | .selectNode _ _, x, _ => x.map Prod.fst
  | .selectMoreTemps _, x, _ => x
  | _, _, place => place

/-- The Job has just said that a reduce failed because of the node `name`. -/
def Talk.Blames (l : Talk) (name : CStr) : Prop := ∃ id, l.history.getLast? = some (.result (.reduce id (some name)))

/-- What has to hold where a node is looked up, or a result is waited for. -/
def Finds (s : Scope) : Req → Prop
  | .recv => s.talk.pending ≠ []
  | .selectNode _ copies => ∀ copy ∈ copies, copy.nodeName ∈ s.names
  | .listAddMap n _ => s.place = some n
  | .readNode n => s.place = some n
  | .removeMapNode _ nodeName _ => nodeName ∈ s.names
  | .addReduceNode finalNode => finalNode ∈ s.names
  | .removeReduceNode finalNode => finalNode ∈ s.names
  | .deactivateNode nodeName => nodeName ∈ s.names ∨ s.talk.Blames nodeName
  | .selectMoreTemps maps => ∀ m ∈ maps, m.nodeName ∈ s.names
  | .selectFinalNode reduces => ∀ reduce ∈ reduces, reduce.finalNode ∈ s.names
  | _ => True

/-- **The specification of a job** as to the nodes that it looks up. -/
def crashSpec : Spec Resp Scope where
  pre s r := s.talk.blocks.length < 2 ^ 16 → Finds s r
  post s r x s' := Turn s.talk r x s'.talk ∧ s'.names = r.meets x ++ s.names ∧ s'.place = r.placed x s.place

/-- No thread stops because of a `NULL` map or reduce. -/
abbrev noCrash (e : Exit) (s : Scope) : Prop := e = .crashed → 2 ^ 16 ≤ s.talk.blocks.length

variable {α : Type} {Q : α → Scope → Prop} {s s' s'' : Scope} {r : Req} {x : Resp r} {job job' : Job} {n : ℕ}

theorem crash_request {Q : Resp r → Scope → Prop} (h : Finds s r) (hQ : ∀ x s', crashSpec.post s r x s' → Q x s') :
    (request r).Ok crashSpec Q noCrash s := ⟨fun _ => h, hQ⟩

/-! ## What requests keep -/

/-- What only grows. -/
structure Later (s s' : Scope) : Prop where
  names : s.names ⊆ s'.names
  blocks : s.talk.blocks.length ≤ s'.talk.blocks.length

theorem Later.refl (s : Scope) : Later s s := ⟨List.Subset.refl _, le_rfl⟩

theorem Later.trans (h : Later s s') (h' : Later s' s'') : Later s s'' :=
  ⟨List.Subset.trans h.names h'.names, h.blocks.trans h'.blocks⟩

theorem later_of_post (h : crashSpec.post s r x s') : Later s s' := by
  obtain ⟨hturn, hnames, -⟩ := h
  refine ⟨?_, hturn.grows.2.2.1⟩
  rw [hnames]
  exact List.subset_append_right _ _

/-- The requests that send an order or receive a result. -/
def Req.exchanges : Req → Bool
  | .sendMap _ _ | .sendReduce _ _ _ | .recv => true
  | _ => false

/-- Other requests leave the orders and the results as they are. -/
theorem Turn.unexchanged {l l' : Talk} (h : Turn l r x l') (hr : r.exchanges = false) :
    l'.pending = l.pending ∧ l'.history = l.history := by
  cases r with
  | sendMap | sendReduce | recv => cases hr
  | fileBlocks site path =>
    subst h
    cases site with
    | _ => exact ⟨rfl, rfl⟩
  | selectNode site copies =>
    subst h
    cases x with
    | _ => exact ⟨rfl, rfl⟩
  | listAddMap n numBlock =>
    obtain ⟨name, rfl⟩ := h
    exact ⟨rfl, rfl⟩
  | readNode n =>
    obtain ⟨-, rfl⟩ := h
    exact ⟨rfl, rfl⟩
  | removeMapNode site nodeName numBlock =>
    obtain ⟨name, -, rfl⟩ := h
    exact ⟨rfl, rfl⟩
  | selectFinalNode reduces =>
    obtain ⟨k, rfl⟩ := h
    exact ⟨rfl, rfl⟩
  | addReduceNode finalNode =>
    obtain ⟨name, -, rfl⟩ := h
    exact ⟨rfl, rfl⟩
  | removeReduceNode finalNode =>
    obtain ⟨name, -, rfl⟩ := h
    exact ⟨rfl, rfl⟩
  | mark point job =>
    subst h
    cases point with
    | _ => exact ⟨rfl, rfl⟩
  | _ =>
    subst h
    exact ⟨rfl, rfl⟩

/-- **A job whose nodes are all registered**, and whose maps 16 bits can count. -/
structure Safe (job : Job) (s : Scope) : Prop where
  files : ∀ file ∈ job.files, ∀ copies ∈ file.blocks, ∀ copy ∈ copies, copy.nodeName ∈ s.names
  maps : ∀ m ∈ job.maps, m.nodeName ∈ s.names ∧ ∀ copy ∈ m.copies, copy.nodeName ∈ s.names
  reduces : ∀ reduce ∈ job.partialReduces, reduce.finalNode ∈ s.names
  few : job.maps.length < 2 ^ 16

/-- **An order whose answer finds its map or its reduce.** -/
def Order.Found (job : Job) (names : List CStr) : Order → Prop
  | .map m => ∃ m' ∈ job.maps, m'.id = m.id
  | .reduce r => ∃ r', reduceOfResult job r.id = some r' ∧ r'.finalNode ∈ names

/-- **A job with `n` orders out.** -/
structure Waits (n : ℕ) (job : Job) (s : Scope) : Prop where
  safe : Safe job s
  found : ∀ o ∈ s.talk.pending, o.Found job s.names
  count : s.talk.pending.length = n

/-- The job is the same, but for where its maps are. -/
structure Job.Alike (job job' : Job) : Prop where
  keeps : job.Keeps job'
  ids : job'.maps.map Map.id = job.maps.map Map.id

theorem Job.Alike.refl (job : Job) : job.Alike job := ⟨.refl job, rfl⟩

theorem Job.Alike.trans {job'' : Job} (h : job.Alike job') (h' : job'.Alike job'') : job.Alike job'' :=
  ⟨h.keeps.trans h'.keeps, h'.ids.trans h.ids⟩

theorem Job.Alike.length_eq (h : job.Alike job') : job'.maps.length = job.maps.length := by
  have hlen := congrArg List.length h.ids
  rwa [List.length_map, List.length_map] at hlen

theorem Safe.later (h : Safe job s) (hs : Later s s') : Safe job s' where
  files := fun file hfile copies hcopies copy hcopy => hs.names (h.files file hfile copies hcopies copy hcopy)
  maps := fun m hm => ⟨hs.names (h.maps m hm).1, fun copy hcopy => hs.names ((h.maps m hm).2 copy hcopy)⟩
  reduces := fun reduce hreduce => hs.names (h.reduces reduce hreduce)
  few := h.few

theorem reduceOfResult_of_keeps (h : job.Keeps job') (id : UInt16) :
    reduceOfResult job' id = reduceOfResult job id := by
  unfold reduceOfResult
  rw [h.partialReduces, h.finalReduce]

theorem Order.Found.of_alike {o : Order} {names names' : List CStr} (h : o.Found job names) (hjob : job.Alike job')
    (hnames : names ⊆ names') : o.Found job' names' := by
  cases o with
  | map m =>
    obtain ⟨m', hm', hid⟩ := h
    have hmem : m.id ∈ job'.maps.map Map.id := by
      rw [hjob.ids, ← hid]
      exact List.mem_map_of_mem hm'
    obtain ⟨m'', hm'', hid''⟩ := List.mem_map.1 hmem
    exact ⟨m'', hm'', hid''⟩
  | reduce r =>
    obtain ⟨r', hr', hname⟩ := h
    exact ⟨r', (reduceOfResult_of_keeps hjob.keeps r.id).trans hr', hnames hname⟩

/-- The same orders are out. -/
theorem Waits.later (h : Waits n job s) (hlater : Later s s') (hpending : s'.talk.pending = s.talk.pending) :
    Waits n job s' where
  safe := h.safe.later hlater
  found := by
    rw [hpending]
    exact fun o ho => (h.found o ho).of_alike (.refl job) hlater.names
  count := by
    rw [hpending]
    exact h.count

/-- **A request that sends no order and receives no result.** -/
theorem Waits.quiet (h : Waits n job s) (hr : r.exchanges = false) (hpost : crashSpec.post s r x s') :
    Waits n job s' := h.later (later_of_post hpost) (hpost.1.unexchanged hr).1

/-- A job whose orders find what they found before. -/
theorem Waits.of_alike (h : Waits n job s) (hjob : job.Alike job') (hsafe : Safe job' s) : Waits n job' s :=
  ⟨hsafe, fun o ho => (h.found o ho).of_alike hjob (List.Subset.refl _), h.count⟩

/-- A job with no order out. -/
theorem Waits.idle (h : Waits 0 job s) (hsafe : Safe job' s) : Waits 0 job' s := by
  have hnone : s.talk.pending = [] := List.length_eq_zero_iff.1 h.count
  refine ⟨hsafe, ?_, h.count⟩
  rw [hnone]
  exact fun o ho => absurd ho List.not_mem_nil

/-! ## A job that ends -/

theorem crash_removeMaps (site : Removal) (h : Waits n job s) :
    (removeMaps site job.maps).Ok crashSpec (fun _ s' => Waits n job s') noCrash s := by
  refine Prog.ok_iterate (K := fun _ s' => Waits n job s') job.maps ?_ h
  intro done m rest s₁ hsplit hwaits
  have hm : m ∈ job.maps := hsplit ▸ List.mem_append_right done List.mem_cons_self
  exact crash_request (hwaits.safe.maps m hm).1 fun x s₂ hpost => hwaits.quiet rfl hpost

theorem crash_freeJob {freed : Bool} (h : Waits n job s) :
    (freeJob job freed).Ok crashSpec (fun _ s' => Waits n job s') noCrash s :=
  ok_freeJob (crash_removeMaps .free h) fun _ _ _ hnot => by cases hnot

theorem crash_leave {freed : Bool} (h : Waits n job s) {exit : Exit} (hexit : exit ≠ .crashed) :
    (leave job exit freed : JobProg α).Ok crashSpec Q noCrash s := by
  unfold leave
  rw [Prog.ok_bind]
  refine (crash_freeJob h).imp fun _ s₁ _ => ?_
  rw [Prog.ok_bind]
  exact crash_request trivial fun _ s₂ _ hnot => absurd hnot hexit

theorem crash_notifFileUnavailable {freed : Bool} (h : Waits n job s) :
    (notifFileUnavailable job freed : JobProg α).Ok crashSpec Q noCrash s := by
  unfold notifFileUnavailable
  rw [Prog.ok_bind]
  exact crash_request trivial fun _ s₁ hpost => crash_leave (h.quiet rfl hpost) (by decide)

/-! ## Orders -/

/-- One more order is out. -/
theorem Waits.sent {o : Order} (h : Waits n job s) (hlater : Later s s') (ho : o.Found job s.names)
    (hpending : s'.talk.pending = s.talk.pending ++ [o]) : Waits (n + 1) job s' where
  safe := h.safe.later hlater
  found := by
    rw [hpending]
    intro o' ho'
    rcases List.mem_append.1 ho' with ho' | ho'
    · exact (h.found o' ho').of_alike (.refl job) hlater.names
    · rw [List.mem_singleton.1 ho']
      exact ho.of_alike (.refl job) hlater.names
  count := by
    have hcount := h.count
    rw [hpending, List.length_append, List.length_singleton]
    omega

theorem crash_notificarMap (site : Site) {map : Map} (h : Waits n job s) (hmap : map ∈ job.maps) :
    (notificarMap site job map).Ok crashSpec (fun _ s' => Waits (n + 1) job s') noCrash s := by
  unfold notificarMap
  rw [Prog.ok_bind]
  refine crash_request trivial fun through s₁ hpost => ?_
  have hlater := later_of_post hpost
  have hturn : s₁.talk = s.talk.mapSent site map through := hpost.1
  cases through with
  | true =>
    have hpending : s₁.talk.pending = s.talk.pending ++ [.map map] := by
      rw [hturn]
      rfl
    have hfound : (Order.map map).Found job s.names := ⟨map, hmap, rfl⟩
    exact h.sent hlater hfound hpending
  | false =>
    have hpending : s₁.talk.pending = s.talk.pending := by
      rw [hturn]
      rfl
    rw [if_neg Bool.false_ne_true]
    exact crash_leave (h.later hlater hpending) (by decide)

theorem crash_notificarReduce (final : Bool) {reduce : Reduce} (h : Waits n job s) (hnode : reduce.finalNode ∈ s.names)
    (hfound : (Order.reduce reduce).Found job s.names) :
    (notificarReduce final job reduce).Ok crashSpec (fun _ s' => Waits (n + 1) job s') noCrash s := by
  unfold notificarReduce
  rw [Prog.ok_bind]
  refine crash_request hnode fun _ s₁ hadded => ?_
  have h₁ := h.quiet rfl hadded
  have hfound₁ := hfound.of_alike (.refl job) (later_of_post hadded).names
  rw [Prog.ok_bind]
  refine crash_request trivial fun through s₂ hpost => ?_
  have hlater := later_of_post hpost
  have hturn : s₂.talk = s₁.talk.reduceSent reduce through := hpost.1
  cases through with
  | true =>
    have hpending : s₂.talk.pending = s₁.talk.pending ++ [.reduce reduce] := by
      rw [hturn]
      rfl
    exact h₁.sent hlater hfound₁ hpending
  | false =>
    have hpending : s₂.talk.pending = s₁.talk.pending := by
      rw [hturn]
      rfl
    rw [if_neg Bool.false_ne_true]
    exact crash_leave (h₁.later hlater hpending) (by decide)

/-! ## `MapPlanning.c` -/

/-- The nodes of a reply are registered. -/
theorem crash_updateNodes (reply : List (List FsCopy)) (h : Waits n job s) :
    (Prog.iterate (Prog.iterate fun c : FsCopy => request (.updateNodes c.nodeId c.nodeIp c.nodePort)) reply).Ok
      crashSpec
      (fun _ s' => Waits n job s' ∧ Later s s' ∧ ∀ copies ∈ reply, ∀ c ∈ copies, c.nodeId ∈ s'.names) noCrash s := by
  refine Prog.ok_iterate (K := fun done s' => Waits n job s' ∧ Later s s' ∧
    ∀ copies ∈ done, ∀ c ∈ copies, c.nodeId ∈ s'.names) reply ?_ ⟨h, .refl s, fun _ hnot =>
      absurd hnot List.not_mem_nil⟩
  rintro done copies rest s₁ - ⟨hwaits, hlater, hdone⟩
  refine (Prog.ok_iterate (K := fun (met : List FsCopy) s' => Waits n job s' ∧ Later s₁ s' ∧
    ∀ c ∈ met, c.nodeId ∈ s'.names) copies ?_ ⟨hwaits, .refl s₁, fun _ hnot => absurd hnot List.not_mem_nil⟩).imp ?_
  · rintro met c more s₂ - ⟨hwaits₂, hlater₂, hmet⟩
    refine crash_request trivial fun x s₃ hpost => ?_
    have hlater₃ := later_of_post hpost
    have hnames : s₃.names = c.nodeId :: s₂.names := hpost.2.1
    refine ⟨hwaits₂.quiet rfl hpost, hlater₂.trans hlater₃, fun c' hc' => ?_⟩
    rcases List.mem_append.1 hc' with hc' | hc'
    · exact hlater₃.names (hmet c' hc')
    · rw [List.mem_singleton.1 hc', hnames]
      exact List.mem_cons_self
  · rintro - s₂ ⟨hwaits₂, hlater₂, hmet⟩
    refine ⟨hwaits₂, hlater.trans hlater₂, fun copies' hcopies' c hc => ?_⟩
    rcases List.mem_append.1 hcopies' with hcopies' | hcopies'
    · exact hlater₂.names (hdone copies' hcopies' c hc)
    · rw [List.mem_singleton.1 hcopies'] at hc
      exact hmet c hc

/-- **`requestFileBlocks`**: the nodes of all copies are registered. -/
theorem crash_requestFileBlocks (site : Site) {file : File} (h : Waits n job s)
    (hfile : ∀ copies ∈ file.blocks, ∀ copy ∈ copies, copy.nodeName ∈ s.names) :
    (requestFileBlocks site file).Ok crashSpec (fun x s' => Waits n job s' ∧ Later s s' ∧
      (∀ copies ∈ x.1.blocks, ∀ copy ∈ copies, copy.nodeName ∈ s'.names) ∧
      (site = .plan → s.talk.blocks.length + x.1.blocks.length ≤ s'.talk.blocks.length + file.blocks.length))
      noCrash s := by
  unfold requestFileBlocks
  rw [Prog.ok_bind]
  refine crash_request trivial fun buffer s₁ hpost => ?_
  set reply := fileBlocksOf buffer
  have hturn : s₁.talk = s.talk.blocksGot site reply := hpost.1
  have hlater := later_of_post hpost
  rw [Prog.ok_bind]
  refine (crash_updateNodes reply (h.quiet rfl hpost)).imp ?_
  rintro - s₂ ⟨hwaits, hlater₂, hreply⟩
  refine ⟨hwaits, hlater.trans hlater₂, fun copies hcopies copy hcopy => ?_, fun hsite => ?_⟩
  · rcases List.mem_append.1 hcopies with hcopies | hcopies
    · exact hlater₂.names (hlater.names (hfile copies hcopies copy hcopy))
    · obtain ⟨told, htold, rfl⟩ := List.mem_map.1 hcopies
      obtain ⟨c, hc, rfl⟩ := List.mem_map.1 hcopy
      exact hreply told htold c hc
  · have hblocks : s₁.talk.blocks = s.talk.blocks ++ reply := by
      rw [hturn, hsite]
      rfl
    have hgrown := hlater₂.blocks
    rw [hblocks, List.length_append] at hgrown
    rw [List.length_append, List.length_map]
    omega

/-- **`requestFileBlocks` on all files of a job.** -/
theorem crash_requestBlocks (site : Site) (h : Waits n job s) :
    (requestBlocks site job.files).Ok crashSpec (fun x s' => Waits n { job with files := x.1 } s' ∧ Later s s' ∧
      (site = .plan → (∀ file ∈ job.files, file.blocks = []) →
        s.talk.blocks.length + (x.1.flatMap File.blocks).length ≤ s'.talk.blocks.length)) noCrash s := by
  refine (Prog.ok_foldlM (K := fun _ (x : List File × Bool) s' => Waits n job s' ∧ Later s s' ∧
    (∀ file ∈ x.1, ∀ copies ∈ file.blocks, ∀ copy ∈ copies, copy.nodeName ∈ s'.names) ∧
    (site = .plan → (∀ file ∈ job.files, file.blocks = []) →
      s.talk.blocks.length + (x.1.flatMap File.blocks).length ≤ s'.talk.blocks.length)) job.files ?_ ?_).imp ?_
  · rintro done file rest x s₁ hsplit ⟨hwaits, hlater, hfiles, hblocks⟩
    have hmem : file ∈ job.files := hsplit ▸ List.mem_append_right done List.mem_cons_self
    rw [Prog.ok_bind]
    refine (crash_requestFileBlocks site hwaits (hwaits.safe.files file hmem)).imp ?_
    rintro y s₂ ⟨hwaits₂, hlater₂, hfile, hmore⟩
    refine ⟨hwaits₂, hlater.trans hlater₂, fun file' hfile' copies hcopies copy hcopy => ?_, fun hsite hnew => ?_⟩
    · rcases List.mem_append.1 hfile' with hfile' | hfile'
      · exact hlater₂.names (hfiles file' hfile' copies hcopies copy hcopy)
      · rw [List.mem_singleton.1 hfile'] at hcopies
        exact hfile copies hcopies copy hcopy
    · have hsofar := hblocks hsite hnew
      have hthis := hmore hsite
      rw [hnew file hmem, List.length_nil] at hthis
      rw [List.flatMap_append, List.flatMap_singleton, List.length_append]
      omega
  · exact ⟨h, .refl s, fun _ hnot => absurd hnot List.not_mem_nil, fun _ _ => le_rfl⟩
  · rintro x s₁ ⟨hwaits, hlater, hfiles, hblocks⟩
    have hsafe : Safe { job with files := x.1 } s₁ :=
      ⟨hfiles, hwaits.safe.maps, hwaits.safe.reduces, hwaits.safe.few⟩
    exact ⟨hwaits.of_alike ⟨⟨rfl, rfl, rfl⟩, rfl⟩ hsafe, hlater, hblocks⟩

/-- **`mapPlanning`**: one more order is out when there is one more map. -/
theorem crash_mapPlanning {copies : List Copy} (h : Waits job.maps.length job s)
    (hcopies : ∀ copy ∈ copies, copy.nodeName ∈ s.names) (hfew : job.maps.length + 1 < 2 ^ 16) :
    (mapPlanning job copies).Ok crashSpec (fun job' s' => Waits job'.maps.length job' s' ∧ Later s s' ∧
      job'.files = job.files ∧ job.Keeps job' ∧ job'.maps.length ≤ job.maps.length + 1) noCrash s := by
  unfold mapPlanning
  rw [Prog.ok_bind]
  refine crash_request hcopies fun x s₁ hsel => ?_
  have h₁ := h.quiet rfl hsel
  have hlater₁ := later_of_post hsel
  rcases x with _ | ⟨k, numBlock⟩
  · dsimp only
    rw [Prog.ok_bind]
    refine ((crash_removeMaps .skip h₁).and_keeps (I := Later s) (fun _ _ _ _ hlater hpost =>
      hlater.trans (later_of_post hpost)) hlater₁).imp ?_
    rintro - s₂ ⟨h₂, hlater₂⟩
    exact ⟨h₂, hlater₂, rfl, .refl job, Nat.le_succ _⟩
  · have hplace : s₁.place = some k := hsel.2.2
    dsimp only
    rw [Prog.ok_bind]
    refine crash_request hplace fun _ s₂ hadd => ?_
    have hplace₂ : s₂.place = some k := hadd.2.2.trans hplace
    have hlater₂ := hlater₁.trans (later_of_post hadd)
    rw [Prog.ok_bind]
    refine crash_request hplace₂ fun node s₃ hread => ?_
    have hnames : s₃.names = node.name :: s₂.names := hread.2.1
    have hlater₃ := hlater₂.trans (later_of_post hread)
    rw [Prog.ok_bind]
    refine crash_request trivial fun time s₄ htime => ?_
    have hlater₄ := hlater₃.trans (later_of_post htime)
    have h₄ := ((h₁.quiet rfl hadd).quiet rfl hread).quiet rfl htime
    set map := createMap job.maps.length.toUInt16 numBlock node.port node.name node.ip job.id time copies with hmap
    have hnode : node.name ∈ s₄.names := (later_of_post htime).names (by rw [hnames]; exact List.mem_cons_self)
    have hsafe : Safe { job with maps := job.maps ++ [map] } s₄ := by
      refine ⟨h₄.safe.files, fun m hm => ?_, h₄.safe.reduces, ?_⟩
      · rcases List.mem_append.1 hm with hm | hm
        · exact h₄.safe.maps m hm
        · rw [List.mem_singleton.1 hm]
          exact ⟨hnode, fun copy hcopy => hlater₄.names (hcopies copy hcopy)⟩
      · show (job.maps ++ [map]).length < 2 ^ 16
        rw [List.length_append, List.length_singleton]
        exact hfew
    have hfound : ∀ o ∈ s₄.talk.pending, o.Found { job with maps := job.maps ++ [map] } s₄.names := by
      intro o ho
      have hold := h₄.found o ho
      cases o with
      | map m =>
        obtain ⟨m', hm', hid⟩ := hold
        exact ⟨m', List.mem_append_left _ hm', hid⟩
      | reduce r => exact hold
    rw [Prog.ok_bind]
    refine ((crash_notificarMap .plan ⟨hsafe, hfound, h₄.count⟩ (List.mem_append_right _ List.mem_cons_self)).and_keeps
      (I := Later s) (fun _ _ _ _ hlater hpost => hlater.trans (later_of_post hpost)) hlater₄).imp ?_
    rintro - s₅ ⟨h₅, hlater₅⟩
    have hlen : (job.maps ++ [map]).length = job.maps.length + 1 := by rw [List.length_append, List.length_singleton]
    refine ⟨?_, hlater₅, rfl, ⟨rfl, rfl, rfl⟩, hlen.le⟩
    show Waits (job.maps ++ [map]).length _ s₅
    rw [hlen]
    exact h₅

/-- **What receiving a result does**: one order less is out. -/
def RecvWaits (recv : Recv) : Prop := ∀ n job s, Waits (n + 1) job s →
  (recv job).Ok crashSpec (fun x s' => Waits n x.1 s' ∧ job.Alike x.1) noCrash s

variable {recv : Recv} {i : ℕ} {m : Map}

/-- A map that is set anew is still the map with its id. -/
theorem ids_set (maps : List Map) (hm : maps[i]? = some m) {m' : Map} (hid : m'.id = m.id) :
    (maps.set i m').map Map.id = maps.map Map.id := by
  refine List.ext_getElem? fun j => ?_
  rw [List.getElem?_map, List.getElem?_map]
  by_cases hij : i = j
  · subst hij
    obtain ⟨hi, -⟩ := List.getElem?_eq_some_iff.1 hm
    rw [List.getElem?_set_self hi, hm, Option.map_some, Option.map_some, hid]
  · rw [List.getElem?_set_ne hij]

/-- A map is set anew, on a node that was met. -/
theorem Safe.set (h : Safe job s) (m' : Map) (hname : m'.nodeName ∈ s.names)
    (hcopies : ∀ copy ∈ m'.copies, copy.nodeName ∈ s.names) (i : ℕ) (mapsDone : UInt16) :
    Safe { job with maps := job.maps.set i m', mapsDone } s where
  files := h.files
  maps := by
    intro m hm
    rcases List.mem_or_eq_of_mem_set hm with hm | rfl
    · exact h.maps m hm
    · exact ⟨hname, hcopies⟩
  reduces := h.reduces
  few := by
    show (job.maps.set i m').length < 2 ^ 16
    rw [List.length_set]
    exact h.few

/-- **`rePlanMap`**: the order that it sends is answered before it returns. -/
theorem crash_rePlanMap (hrecv : RecvWaits recv) (h : Waits n job s) (hm : job.maps[i]? = some m) :
    (rePlanMap recv job i).Ok crashSpec (fun x s' => Waits n x.1 s' ∧ job.Alike x.1) noCrash s := by
  unfold rePlanMap
  rw [Prog.ok_bind]
  refine (crash_requestBlocks .replan h).imp ?_
  rintro files s₁ ⟨h₁, -, -⟩
  have hfiles : job.Alike { job with files := files.1 } := ⟨⟨rfl, rfl, rfl⟩, rfl⟩
  dsimp only
  rw [hm]
  dsimp only
  have hmem : m ∈ job.maps := List.mem_of_getElem? hm
  rw [Prog.ok_bind]
  refine crash_request (h₁.safe.maps m hmem).2 fun x s₂ hsel => ?_
  have h₂ := h₁.quiet rfl hsel
  rcases x with _ | ⟨k, numBlock⟩
  · exact ⟨h₂, hfiles⟩
  have hplace : s₂.place = some k := hsel.2.2
  dsimp only
  rw [Prog.ok_bind]
  refine crash_request hplace fun node s₃ hread => ?_
  have hnames : s₃.names = node.name :: s₂.names := hread.2.1
  rw [Prog.ok_bind]
  refine crash_request trivial fun time s₄ htime => ?_
  have h₄ := (h₂.quiet rfl hread).quiet rfl htime
  have hnode : node.name ∈ s₄.names := (later_of_post htime).names (by rw [hnames]; exact List.mem_cons_self)
  set map : Map := { m with
    nodeName := node.name, nodeIP := node.ip, nodePort := node.port, numBlock
    tempResultName := setTempMapName time m.id job.id, done := false } with hmap
  have hsafe : Safe { job with files := files.1, maps := job.maps.set i map } s₄ :=
    h₄.safe.set map hnode (h₄.safe.maps m hmem).2 i job.mapsDone
  have hids : (job.maps.set i map).map Map.id = job.maps.map Map.id := ids_set job.maps hm rfl
  have hagain : Job.Alike { job with files := files.1 } { job with files := files.1, maps := job.maps.set i map } :=
    ⟨⟨rfl, rfl, rfl⟩, hids⟩
  have hmem' : map ∈ job.maps.set i map := by
    obtain ⟨hi, -⟩ := List.getElem?_eq_some_iff.1 hm
    exact List.mem_set hi map
  rw [Prog.ok_bind]
  refine (crash_notificarMap .replan (h₄.of_alike hagain hsafe) hmem').imp fun _ s₅ h₅ => ?_
  rw [Prog.ok_bind]
  refine (hrecv n _ s₅ h₅).imp ?_
  rintro x s₆ ⟨h₆, halike⟩
  exact ⟨h₆, hfiles.trans (hagain.trans halike)⟩

/-! ## `JobConnection.c` -/

/-- **The result of a map** finds its map. -/
theorem crash_desserializeMapResult (hrecv : RecvWaits recv) (h : Waits n job s) {idMap : UInt16}
    (hfound : ∃ m ∈ job.maps, m.id = idMap) (result : Bool) :
    (desserializeMapResult recv job idMap result).Ok crashSpec (fun job' s' => Waits n job' s' ∧ job.Alike job')
      noCrash s := by
  unfold desserializeMapResult
  cases hfind : job.maps.findIdx? fun map => map.id = idMap with
  | none =>
    obtain ⟨m, hm, hid⟩ := hfound
    have hnone := List.findIdx?_eq_none_iff.1 hfind m hm
    simp [hid] at hnone
  | some i =>
    obtain ⟨hi, -⟩ := List.findIdx?_eq_some_iff_getElem.1 hfind
    have hm : job.maps[i]? = some job.maps[i] := List.getElem?_eq_getElem hi
    have hmem : job.maps[i] ∈ job.maps := List.getElem_mem hi
    dsimp only
    rw [hm]
    dsimp only
    rw [Prog.ok_bind]
    refine crash_request (h.safe.maps _ hmem).1 fun _ s₁ hremove => ?_
    have h₁ := h.quiet rfl hremove
    cases result with
    | true =>
      have hsafe := h₁.safe.set { job.maps[i] with done := true } (h₁.safe.maps _ hmem).1 (h₁.safe.maps _ hmem).2 i
        (job.mapsDone + 1)
      have halike : job.Alike { job with maps := job.maps.set i { job.maps[i] with done := true }
                                         mapsDone := job.mapsDone + 1 } := ⟨⟨rfl, rfl, rfl⟩, ids_set job.maps hm rfl⟩
      exact ⟨h₁.of_alike halike hsafe, halike⟩
    | false =>
      rw [if_neg Bool.false_ne_true, Prog.ok_bind]
      refine crash_request (Or.inl (h₁.safe.maps _ hmem).1) fun _ s₂ hdeactivate => ?_
      rw [Prog.ok_bind]
      refine (crash_rePlanMap hrecv (h₁.quiet rfl hdeactivate) hm).imp ?_
      rintro ⟨job₁, available⟩ s₃ ⟨h₃, halike⟩
      cases available with
      | true => exact ⟨h₃, halike⟩
      | false => exact crash_notifFileUnavailable h₃

/-- **The result of a reduce** finds its reduce; the node that it blames may be unknown. -/
theorem crash_desserializaReduceResult (h : Waits n job s) {idReduce : UInt16} {failed : Option CStr}
    (hfound : ∃ r, reduceOfResult job idReduce = some r ∧ r.finalNode ∈ s.names)
    (hlast : s.talk.history.getLast? = some (.result (.reduce idReduce failed))) :
    (desserializaReduceResult job idReduce failed).Ok crashSpec (fun _ s' => Waits n job s') noCrash s := by
  obtain ⟨reduce, hreduce, hname⟩ := hfound
  unfold desserializaReduceResult
  rw [hreduce]
  dsimp only
  rw [Prog.ok_bind]
  refine crash_request hname fun _ s₁ hremove => ?_
  have h₁ := h.quiet rfl hremove
  cases failed with
  | none => exact h₁
  | some nodeID =>
    have hfinds : Finds s₁ (.deactivateNode (if nodeID = ERROR_AL_CONECTAR then reduce.finalNode else nodeID)) := by
      by_cases herror : nodeID = ERROR_AL_CONECTAR
      · rw [if_pos herror]
        exact Or.inl ((later_of_post hremove).names hname)
      · rw [if_neg herror]
        refine Or.inr ⟨idReduce, ?_⟩
        rw [(hremove.1.unexchanged rfl).2]
        exact hlast
    dsimp only
    rw [Prog.ok_bind]
    exact crash_request hfinds fun _ s₂ hdeactivate => h₁.quiet rfl hdeactivate

/-- **`recvResult`**: one order less is out. -/
theorem recvWaits_recvResult (rounds : ℕ) : RecvWaits (recvResult rounds) := by
  induction rounds with
  | zero => intro n job s _ hnot; cases hnot
  | succ rounds ih =>
    intro n job s h
    have hsome : s.talk.pending ≠ [] := by
      intro hnil
      have hcount := h.count
      rw [hnil, List.length_nil] at hcount
      omega
    unfold recvResult
    rw [Prog.ok_bind]
    refine crash_request hsome fun x s₁ hpost => ?_
    have hlater := later_of_post hpost
    rcases hpost.1 with ⟨rfl, hdying⟩ | ⟨i, o, failed, ho, rfl, hanswered⟩
    · have hpending : s₁.talk.pending = s.talk.pending := by rw [hdying]
      exact crash_leave (h.later hlater hpending) (by decide)
    have hpending : s₁.talk.pending = s.talk.pending.eraseIdx i := by rw [hanswered]; rfl
    have hmem : o ∈ s.talk.pending := List.mem_of_getElem? ho
    have hfound := (h.found o hmem).of_alike (.refl job) hlater.names
    have h₁ : Waits n job s₁ := by
      refine ⟨h.safe.later hlater, ?_, ?_⟩
      · rw [hpending]
        exact fun o' ho' => (h.found o' (List.mem_of_mem_eraseIdx ho')).of_alike (.refl job) hlater.names
      · obtain ⟨hi, -⟩ := List.getElem?_eq_some_iff.1 ho
        have hcount := h.count
        rw [hpending, List.length_eraseIdx_of_lt hi]
        omega
    cases o with
    | map m =>
      show ((desserializeMapResult (recvResult rounds) job m.id (decide (failed = none))) >>= _).Ok _ _ _ _
      rw [Prog.ok_bind]
      exact crash_desserializeMapResult ih h₁ hfound _
    | reduce r =>
      have hlast : s₁.talk.history.getLast? = some (.result (.reduce r.id failed)) := by
        rw [hanswered]
        exact List.getLast?_concat ..
      show ((desserializaReduceResult job r.id failed) >>= _).Ok _ _ _ _
      rw [Prog.ok_bind]
      exact (crash_desserializaReduceResult h₁ hfound hlast).imp fun _ s₂ h₂ => ⟨h₂, .refl job⟩

/-- **As many results are received as orders are out.** -/
theorem crash_recvAll {β : Type} {f : β → ℕ → JobProg β} {K : β → Scope → Prop} {n : ℕ} {b : β}
    (hf : ∀ k b i s, K b s → s.talk.pending.length = k + 1 →
      (f b i).Ok crashSpec (fun b' s' => K b' s' ∧ s'.talk.pending.length = k) noCrash s)
    (hK : K b s) (hlen : s.talk.pending.length = n) :
    ((List.range n).foldlM f b).Ok crashSpec (fun b' s' => K b' s' ∧ s'.talk.pending.length = 0) noCrash s := by
  refine (Prog.ok_foldlM (K := fun done b' s' => K b' s' ∧ s'.talk.pending.length + done.length = n) (List.range n) ?_
    ⟨hK, hlen⟩).imp ?_
  · rintro done i rest b₁ s₁ hsplit ⟨hK₁, hlen₁⟩
    have hleft := congrArg List.length hsplit
    rw [List.length_append, List.length_cons, List.length_range] at hleft
    obtain ⟨k, hk⟩ : ∃ k, s₁.talk.pending.length = k + 1 := ⟨rest.length, by omega⟩
    refine (hf k b₁ i s₁ hK₁ hk).imp ?_
    rintro b₂ s₂ ⟨hK₂, hlen₂⟩
    refine ⟨hK₂, ?_⟩
    rw [List.length_append, List.length_singleton]
    omega
  · rintro b₁ s₁ ⟨hK₁, hlen₁⟩
    rw [List.length_range] at hlen₁
    exact ⟨hK₁, by omega⟩

/-- **A job with too many blocks** has nothing to keep to. -/
theorem crash_large (h : 2 ^ 16 ≤ s.talk.blocks.length) (p : JobProg α) :
    p.Ok crashSpec (fun _ s' => 2 ^ 16 ≤ s'.talk.blocks.length) noCrash s := by
  refine Prog.ok_mono (fun _ _ h => h) (fun _ _ h _ => h)
    (Prog.Only.keeps (I := fun s' : Scope => 2 ^ 16 ≤ s'.talk.blocks.length) (Prog.only_true p) ?_ h)
  intro s₁ r _ hs₁
  exact ⟨fun hsmall => absurd hsmall (by omega), fun x s₂ hpost => hs₁.trans (later_of_post hpost).blocks⟩

/-- **`planMaps`** returns with no order out. -/
theorem crash_planMaps (hrecv : RecvWaits recv) (hnew : job.New) (h : Waits 0 job s) :
    (planMaps recv job).Ok crashSpec (fun job' s' => 2 ^ 16 ≤ s'.talk.blocks.length ∨
      Waits 0 job' s' ∧ job.Keeps job') noCrash s := by
  unfold planMaps
  rw [Prog.ok_bind]
  refine (crash_requestBlocks .plan h).imp ?_
  rintro ⟨files, available⟩ s₁ ⟨h₁, -, hblocks⟩
  have htotal : s.talk.blocks.length + (files.flatMap File.blocks).length ≤ s₁.talk.blocks.length :=
    hblocks rfl hnew.files
  have hnone : job.maps.length = 0 := by rw [hnew.maps, List.length_nil]
  by_cases hlarge : 2 ^ 16 ≤ s₁.talk.blocks.length
  · exact (crash_large hlarge _).imp fun _ _ hl => Or.inl hl
  dsimp only
  cases available with
  | false => exact crash_notifFileUnavailable h₁
  | true =>
    rw [if_pos rfl, Prog.ok_bind]
    have hstart : Waits job.maps.length { job with files } s₁ := by
      rw [hnone]
      exact h₁
    refine (Prog.ok_foldlM (K := fun done (job' : Job) s' => Waits job'.maps.length job' s' ∧ Later s₁ s' ∧
      job'.files = files ∧ job'.maps.length ≤ done.length ∧ job.Keeps job') (files.flatMap File.blocks) ?_ ?_).imp ?_
    · rintro done copies rest job₁ s₂ hsplit ⟨h₂, hlater, hfiles, hlen, hkeeps⟩
      have hmem : copies ∈ files.flatMap File.blocks := hsplit ▸ List.mem_append_right done List.mem_cons_self
      obtain ⟨file, hfile, hcopies⟩ := List.mem_flatMap.1 hmem
      -- the blocks that are left have no map yet
      have hfew : job₁.maps.length + 1 < 2 ^ 16 := by
        have hleft := congrArg List.length hsplit
        rw [List.length_append, List.length_cons] at hleft
        omega
      refine (crash_mapPlanning h₂ (h₂.safe.files file (hfiles ▸ hfile) copies hcopies) hfew).imp ?_
      rintro job₂ s₃ ⟨h₃, hlater₃, hfiles₃, hkeeps₃, hlen₃⟩
      refine ⟨h₃, hlater.trans hlater₃, hfiles₃.trans hfiles, ?_, hkeeps.trans hkeeps₃⟩
      rw [List.length_append, List.length_singleton]
      omega
    · exact ⟨hstart, .refl s₁, rfl, hnone.le, rfl, rfl, rfl⟩
    · rintro job₁ s₂ ⟨h₂, -, -, -, hkeeps⟩
      rw [Prog.ok_bind]
      refine (crash_recvAll (K := fun job' s' => Waits s'.talk.pending.length job' s' ∧ job.Keeps job') ?_ ?_
        h₂.count).imp ?_
      · rintro k job₂ i s₃ ⟨h₃, hkeeps₃⟩ hlen
        rw [hlen] at h₃
        rw [Prog.ok_bind]
        refine (hrecv k job₂ s₃ h₃).imp ?_
        rintro x s₄ ⟨h₄, halike⟩
        have hcount := h₄.count
        refine ⟨⟨?_, hkeeps₃.trans halike.keeps⟩, hcount⟩
        rw [hcount]
        exact h₄
      · refine ⟨?_, hkeeps⟩
        rw [h₂.count]
        exact h₂
      · rintro job₂ s₃ ⟨⟨h₃, hkeeps₃⟩, hzero⟩
        rw [hzero] at h₃
        rw [Prog.ok_bind]
        exact crash_request trivial fun _ s₄ hpost => Or.inr ⟨h₃.quiet rfl hpost, hkeeps₃⟩

/-! ## `ReducePlanning.c` -/

/-- **`rePlanMapsFromNode`** leaves as many orders out as there were. -/
theorem crash_rePlanMapsFromNode (hrecv : RecvWaits recv) (h : Waits n job s) (node : CStr) :
    (rePlanMapsFromNode recv job node).Ok crashSpec (fun x s' => Waits n x.1 s') noCrash s := by
  unfold rePlanMapsFromNode
  rw [Prog.ok_bind]
  refine crash_request trivial fun _ s₁ hpost => ?_
  rw [Prog.ok_bind]
  refine (Prog.ok_foldlM (K := fun _ (x : Job × Bool) s' => Waits n x.1 s') (List.range job.maps.length) ?_
    (h.quiet rfl hpost)).imp ?_
  · rintro done i rest x s₂ - h₂
    unfold rePlanByNode
    split
    · exact h₂
    · rename_i m hm
      split
      · have hundone : x.1.Alike { x.1 with mapsDone := x.1.mapsDone - 1 } := ⟨⟨rfl, rfl, rfl⟩, rfl⟩
        have hsafe : Safe { x.1 with mapsDone := x.1.mapsDone - 1 } s₂ :=
          ⟨h₂.safe.files, h₂.safe.maps, h₂.safe.reduces, h₂.safe.few⟩
        rw [Prog.ok_bind]
        exact (crash_rePlanMap hrecv (h₂.of_alike hundone hsafe) hm).imp fun y s₃ hy => hy.1
      · exact h₂
  · intro x s₂ h₂
    split
    · rw [Prog.ok_bind]
      exact crash_request trivial fun _ s₃ hpost => h₂.quiet rfl hpost
    · exact h₂

/-- **The result of the final reduce**, and its copy to the MDFS. -/
theorem crash_finishFinalReduce (hrecv : RecvWaits recv) (h : Waits 1 job s) :
    (finishFinalReduce recv job).Ok crashSpec (fun x s' => Waits 0 x.1 s') noCrash s := by
  unfold finishFinalReduce
  rw [Prog.ok_bind]
  refine (hrecv 0 job s h).imp ?_
  rintro ⟨job₁, fallenNode⟩ s₁ ⟨h₁, -⟩
  cases fallenNode with
  | some name => exact h₁
  | none =>
    dsimp only
    unfold copyFinalTemporal
    rw [Prog.ok_bind, Prog.ok_bind]
    refine crash_request trivial fun reply s₂ hpost => ?_
    have h₂ := h₁.quiet rfl hpost
    split
    · rw [Prog.ok_bind]
      exact crash_request trivial fun _ s₃ hpost => crash_leave (h₂.quiet rfl hpost) (by decide)
    · exact h₂

/-- **The final reduce is ordered** on a node that was read. -/
theorem crash_orderFinal (h : Waits 0 job s) {final : Reduce} (hid : final.id = 0) (hname : final.finalNode ∈ s.names) :
    (notificarReduce true { job with finalReduce := final } final).Ok crashSpec
      (fun _ s' => Waits 1 { job with finalReduce := final } s') noCrash s := by
  have hsafe : Safe { job with finalReduce := final } s := ⟨h.safe.files, h.safe.maps, h.safe.reduces, h.safe.few⟩
  refine crash_notificarReduce true (h.idle hsafe) hname ⟨final, ?_, hname⟩
  unfold reduceOfResult
  rw [if_pos hid]

/-- **The final reduce is planned** on a node that was read. -/
theorem crash_planFinalReduce (h : Waits 0 job s) {node : NodeInfo} (hnode : node.name ∈ s.names) (temps : List Temp) :
    (planFinalReduce job node temps).Ok crashSpec (fun job' s' => Waits 1 job' s') noCrash s := by
  unfold planFinalReduce
  rw [Prog.ok_bind]
  refine crash_request trivial fun time s₁ htime => ?_
  rw [Prog.ok_bind]
  exact (crash_orderFinal (h.quiet rfl htime) rfl ((later_of_post htime).names hnode)).imp fun _ s₂ h₂ => h₂

/-- **The end of a round**: the job is over, or its maps are planned again on other nodes. -/
theorem crash_awaitFinalReduce (hrecv : RecvWaits recv) (clean : Job → Job)
    (hclean : ∀ job s, Safe job s → Safe (clean job) s) (h : Waits 1 job s) :
    (awaitFinalReduce recv clean job).Ok crashSpec (fun x s' => Waits 0 x.1 s' ∧
      (x.2 = true → ∃ job', x.1 = clean job')) noCrash s := by
  unfold awaitFinalReduce
  rw [Prog.ok_bind]
  refine (crash_finishFinalReduce hrecv h).imp ?_
  rintro ⟨job₁, fallenNode⟩ s₁ h₁
  cases fallenNode with
  | none => exact ⟨h₁, fun hagain => by cases hagain⟩
  | some name =>
    dsimp only
    rw [Prog.ok_bind]
    refine (crash_rePlanMapsFromNode hrecv h₁ name).imp ?_
    rintro ⟨job₂, again⟩ s₂ h₂
    cases again with
    | true => exact ⟨h₂.idle (hclean job₂ s₂ h₂.safe), fun _ => ⟨job₂, rfl⟩⟩
    | false => exact crash_notifFileUnavailable h₂

/-- **A round up to its order.** -/
theorem crash_orderFinalReduce {freed : Bool} (h : Waits 0 job s) :
    (orderFinalReduce freed job).Ok crashSpec (fun job' s' => Waits 1 job' s') noCrash s := by
  unfold orderFinalReduce
  rw [Prog.ok_bind]
  refine crash_request (fun m hm => (h.safe.maps m hm).1) fun x s₁ hsel => ?_
  have h₁ := h.quiet rfl hsel
  cases x with
  | none => exact crash_notifFileUnavailable h₁
  | some k =>
    have hplace : s₁.place = some k := hsel.2.2
    dsimp only
    rw [Prog.ok_bind]
    refine crash_request hplace fun node s₂ hread => ?_
    have hnames : s₂.names = node.name :: s₁.names := hread.2.1
    have hnode : node.name ∈ s₂.names := by
      rw [hnames]
      exact List.mem_cons_self
    exact crash_planFinalReduce (h₁.quiet rfl hread) hnode _

/-- **`noCombinerReducePlanning`.** -/
theorem crash_noCombinerReducePlanning (hrecv : RecvWaits recv) (rounds : ℕ) : ∀ freed job s, Waits 0 job s →
    (noCombinerReducePlanning recv rounds freed job).Ok crashSpec (fun job' s' => Waits 0 job' s') noCrash s := by
  induction rounds with
  | zero => intro freed job s _ hnot; cases hnot
  | succ rounds ih =>
    intro freed job s h
    have hclean : ∀ job s, Safe job s → Safe (noCombinerClean job) s :=
      fun job s hsafe => ⟨hsafe.files, hsafe.maps, hsafe.reduces, hsafe.few⟩
    unfold noCombinerReducePlanning
    rw [Prog.ok_bind]
    refine (crash_orderFinalReduce h).imp fun job₁ s₁ h₁ => ?_
    rw [Prog.ok_bind]
    refine (crash_awaitFinalReduce hrecv noCombinerClean hclean h₁).imp ?_
    rintro ⟨job₂, again⟩ s₂ ⟨h₂, -⟩
    cases again with
    | true => exact ih true job₂ s₂ h₂
    | false => exact h₂

/-- **`combinerPartialsReducePlanning`**: a result is due for each partial reduce. -/
theorem crash_combinerPartialsReducePlanning (h : Waits 0 job s) (hnone : job.partialReduces = []) :
    (combinerPartialsReducePlanning job).Ok crashSpec (fun job' s' => Waits job'.partialReduces.length job' s')
      noCrash s := by
  unfold combinerPartialsReducePlanning
  rw [Prog.ok_bind, hnone]
  refine (Prog.ok_foldlM (K := fun done reduces s' => Waits 0 job s' ∧ Grouped done reduces) job.maps ?_
    ⟨h, grouped_nil⟩).imp ?_
  · rintro done map rest reduces s₁ - ⟨h₁, hgrouped⟩
    unfold agregarAPartialReduces
    cases hfind : reduces.findIdx? fun reduce => reduce.finalNode = map.nodeName with
    | some i =>
      obtain ⟨hi, -⟩ := List.findIdx?_eq_some_iff_getElem.1 hfind
      exact ⟨h₁, hgrouped.add hi⟩
    | none =>
      dsimp only
      rw [Prog.ok_bind]
      exact crash_request trivial fun time s₂ hpost => ⟨h₁.quiet rfl hpost, hgrouped.append rfl rfl rfl⟩
  · rintro reduces s₁ ⟨h₁, hgrouped⟩
    have hnames : ∀ reduce ∈ reduces, reduce.finalNode ∈ s₁.names := by
      intro reduce hreduce
      obtain ⟨m, hm, hname⟩ := hgrouped.nodes reduce hreduce
      rw [hname]
      exact (h₁.safe.maps m hm).1
    have hsafe : Safe { job with partialReduces := reduces } s₁ := ⟨h₁.safe.files, h₁.safe.maps, hnames, h₁.safe.few⟩
    rw [Prog.ok_bind]
    refine (Prog.ok_iterate (K := fun done s' => Waits done.length { job with partialReduces := reduces } s') reduces ?_
      (h₁.idle hsafe)).imp fun _ s₂ h₂ => h₂
    intro done reduce rest s₂ hsplit h₂
    have hmem : reduce ∈ reduces := hsplit ▸ List.mem_append_right done List.mem_cons_self
    have hfound : reduceOfResult { job with partialReduces := reduces } reduce.id = some reduce :=
      Grouped.found hgrouped h₁.safe.few hmem
    have hname : reduce.finalNode ∈ s₂.names := h₂.safe.reduces reduce hmem
    rw [List.length_append, List.length_singleton]
    exact crash_notificarReduce false h₂ hname ⟨reduce, hfound, hname⟩

/-- **The inner loop of `combinerReducePlanning`** returns with no order out. -/
theorem crash_partialRounds (hrecv : RecvWaits recv) (rounds : ℕ) : ∀ job s, Waits 0 job s → job.partialReduces = [] →
    (partialRounds recv rounds job).Ok crashSpec (fun job' s' => Waits 0 job' s') noCrash s := by
  induction rounds with
  | zero => intro job s _ _ hnot; cases hnot
  | succ rounds ih =>
    intro job s h hnone
    unfold partialRounds
    rw [Prog.ok_bind]
    refine (crash_combinerPartialsReducePlanning h hnone).imp fun job₁ s₁ h₁ => ?_
    rw [Prog.ok_bind]
    refine (crash_recvAll (K := fun x s' => Waits s'.talk.pending.length x.1 s') ?_ ?_ h₁.count).imp ?_
    · intro k x i s₂ h₂ hlen
      rw [hlen] at h₂
      unfold recvPartial
      rw [Prog.ok_bind]
      refine (hrecv k x.1 s₂ h₂).imp ?_
      rintro y s₃ ⟨h₃, -⟩
      have hcount := h₃.count
      refine ⟨?_, hcount⟩
      rw [hcount]
      exact h₃
    · rw [h₁.count]
      exact h₁
    · rintro x s₂ ⟨h₂, hzero⟩
      rw [hzero] at h₂
      split
      · exact h₂
      · rw [Prog.ok_bind]
        refine (Prog.ok_foldlM (K := fun _ (y : Job × Bool) s' => Waits 0 y.1 s') x.2 ?_ h₂).imp ?_
        · intro done node rest y s₃ _ h₃
          unfold replanMaps
          rw [Prog.ok_bind]
          exact (crash_rePlanMapsFromNode hrecv h₃ node).imp fun z s₄ h₄ => h₄
        · intro y s₃ h₃
          split
          · have hsafe : Safe { y.1 with partialReduces := [] } s₃ :=
              ⟨h₃.safe.files, h₃.safe.maps, fun _ hnot => absurd hnot List.not_mem_nil, h₃.safe.few⟩
            exact ih _ s₃ (h₃.idle hsafe) rfl
          · exact crash_notifFileUnavailable h₃

/-- **`combinerFinalReducePlanning`** orders the final reduce. -/
theorem crash_combinerFinalReducePlanning (h : Waits 0 job s) :
    (combinerFinalReducePlanning job).Ok crashSpec (fun job' s' => Waits 1 job' s') noCrash s := by
  unfold combinerFinalReducePlanning
  rw [Prog.ok_bind]
  refine crash_request h.safe.reduces fun node s₁ hread => ?_
  have hnames : s₁.names = node.name :: s.names := hread.2.1
  have hnode : node.name ∈ s₁.names := by
    rw [hnames]
    exact List.mem_cons_self
  exact crash_planFinalReduce (h.quiet rfl hread) hnode _

/-- **`combinerReducePlanning`.** -/
theorem crash_combinerReducePlanning (hrecv : RecvWaits recv) (partials rounds : ℕ) : ∀ job s, Waits 0 job s →
    job.partialReduces = [] →
    (combinerReducePlanning recv partials rounds job).Ok crashSpec (fun job' s' => Waits 0 job' s') noCrash s := by
  induction rounds with
  | zero => intro job s _ _ hnot; cases hnot
  | succ rounds ih =>
    intro job s h hnone
    unfold combinerReducePlanning
    rw [Prog.ok_bind]
    refine (crash_partialRounds hrecv partials job s h hnone).imp fun job₁ s₁ h₁ => ?_
    rw [Prog.ok_bind]
    refine (crash_combinerFinalReducePlanning h₁).imp fun job₂ s₂ h₂ => ?_
    rw [Prog.ok_bind]
    have hclean : ∀ job s, Safe job s → Safe (combinerClean job) s :=
      fun job s hsafe => ⟨hsafe.files, hsafe.maps, fun _ hnot => absurd hnot List.not_mem_nil, hsafe.few⟩
    refine (crash_awaitFinalReduce hrecv combinerClean hclean h₂).imp ?_
    rintro ⟨job₃, again⟩ s₃ ⟨h₃, hagain⟩
    cases again with
    | true =>
      obtain ⟨job₄, rfl⟩ := hagain rfl
      exact ih (combinerClean job₄) s₃ h₃ rfl
    | false => exact h₃

theorem crash_finishJob (h : Waits n job s) : (finishJob job).Ok crashSpec (fun _ _ => True) noCrash s := by
  unfold finishJob
  rw [Prog.ok_bind]
  refine crash_request trivial fun _ s₁ hpost => ?_
  rw [Prog.ok_bind]
  refine (crash_freeJob (h.quiet rfl hpost)).imp fun _ s₂ _ => ?_
  exact crash_request trivial fun _ _ _ => trivial

/-- **`acceptJob`** looks up registered nodes only, and waits for results that are due. -/
theorem crash_acceptJob (rounds : ℕ) (hnew : job.New) :
    (acceptJob rounds job).Ok crashSpec (fun _ _ => True) noCrash ⟨.start, [], none⟩ := by
  have hsafe : Safe job ⟨.start, [], none⟩ := by
    refine ⟨fun file hfile copies hcopies => ?_, ?_, ?_, ?_⟩
    · rw [hnew.files file hfile] at hcopies
      exact absurd hcopies List.not_mem_nil
    · rw [hnew.maps]
      exact fun m hm => absurd hm List.not_mem_nil
    · rw [hnew.partialReduces]
      exact fun reduce hreduce => absurd hreduce List.not_mem_nil
    · rw [hnew.maps]
      decide
  have hstart : Waits 0 job ⟨.start, [], none⟩ := ⟨hsafe, fun o ho => absurd ho List.not_mem_nil, rfl⟩
  have hrecv := recvWaits_recvResult rounds
  unfold acceptJob planJob
  rw [Prog.ok_bind]
  rw [Prog.ok_bind]
  refine (crash_planMaps hrecv hnew hstart).imp ?_
  rintro job₁ s₁ (hlarge | ⟨h₁, hkeeps⟩)
  · refine (crash_large hlarge _).imp fun job₂ s₂ hlarge₂ => ?_
    exact (crash_large hlarge₂ _).imp fun _ _ _ => trivial
  have hnone : job₁.partialReduces = [] := hkeeps.partialReduces.trans hnew.partialReduces
  split
  · exact (crash_combinerReducePlanning hrecv rounds rounds job₁ s₁ h₁ hnone).imp fun job₂ s₂ h₂ => crash_finishJob h₂
  · exact (crash_noCombinerReducePlanning hrecv rounds false job₁ s₁ h₁).imp fun job₂ s₂ h₂ => crash_finishJob h₂

/-! ## All jobs together -/

/-- **What the jobs know of the nodes** is so. -/
structure Met (w : World) (g : ℕ → Scope) : Prop where
  tied : Tied w fun t => (g t).talk
  names : ∀ t, ∀ name ∈ (g t).names, (findNode w.nodes name).isSome = true
  place : ∀ t k, (g t).place = some k → k < w.nodes.length

variable {nodes nodes' : List Node} {w u : World} {g : ℕ → Scope} {t : ℕ} {c : Choice}

theorem Steady.length_le (h : Steady nodes nodes') : nodes.length ≤ nodes'.length := by
  by_contra hlt
  obtain ⟨node', hnode', -⟩ := h nodes'.length nodes[nodes'.length] (List.getElem?_eq_getElem (by omega))
  obtain ⟨hi, -⟩ := List.getElem?_eq_some_iff.1 hnode'
  exact absurd hi (lt_irrefl _)

theorem lt_of_isActiveAt {k : ℕ} (h : isActiveAt nodes k = true) : k < nodes.length := by
  by_contra hlt
  unfold isActiveAt at h
  rw [List.getElem?_eq_none (by omega)] at h
  cases h

/-- The node with the most temporals is active. -/
theorem isActiveAt_selectMoreTemps {maps : List Map} {k : ℕ} (h : selectMoreTemps nodes maps = some (some k)) :
    isActiveAt nodes k = true := by
  obtain ⟨counts, -, hfold⟩ := Option.map_eq_some_iff.1 h
  obtain ⟨count, hcount, rfl⟩ := Option.map_eq_some_iff.1 hfold
  rw [foldl_selectMoreTempsNode] at hcount
  obtain ⟨count', -, hselected⟩ := List.mem_filterMap.1 (List.argmin_mem hcount)
  obtain ⟨hactive, rfl⟩ := activeCount_eq_some.1 hselected
  exact hactive

/-- The count of the maps finds their nodes. -/
theorem isSome_selectMoreTemps {maps : List Map} (h : MapsFound nodes maps) :
    (selectMoreTemps nodes maps).isSome = true := by
  suffices ∀ (maps : List Map) counts, MapsFound nodes maps → ∃ counts', maps.foldlM (countTemporals nodes) counts =
      some counts' by
    obtain ⟨counts, hcounts⟩ := this maps [] h
    rw [selectMoreTemps, hcounts]
    rfl
  intro maps
  induction maps with
  | nil => exact fun counts _ => ⟨counts, rfl⟩
  | cons m maps ih =>
    intro counts hfound
    obtain ⟨k, hk⟩ := Option.isSome_iff_exists.1 (hfound m List.mem_cons_self)
    have hstep : ∃ next, countTemporals nodes counts m = some next := by
      unfold countTemporals
      rw [hk]
      split
      · exact ⟨_, rfl⟩
      · exact ⟨_, rfl⟩
    obtain ⟨next, hnext⟩ := hstep
    rw [List.foldlM_cons, hnext]
    exact ih next fun m' hm' => hfound m' (List.mem_cons_of_mem m hm')

/-- **A node that is met** is registered. -/
theorem serve_meets (hs : serve t w r c = some (x, u)) : ∀ name ∈ r.meets x, (findNode u.nodes name).isSome = true := by
  cases r with
  | updateNodes nodeID nodeIP nodePort =>
    obtain ⟨-, rfl⟩ := Prod.mk.inj (Option.some.inj hs)
    intro name hname
    rw [List.mem_singleton.1 hname]
    cases hfind : findNode w.nodes nodeID with
    | some k =>
      have hfound : (findNode w.nodes nodeID).isSome = true := by rw [hfind]; rfl
      exact (steady_updateNodes nodeID nodeIP nodePort).found hfound
    | none =>
      have hlast : (updateNodes w.nodes nodeID nodeIP nodePort)[w.nodes.length]? =
          some ⟨nodeID, nodeIP, nodePort, true, [], 0⟩ := by
        unfold updateNodes
        rw [hfind]
        exact List.getElem?_concat_length
      exact found_of_getElem? hlast
  | readNode k =>
    obtain ⟨node, hnode, hu⟩ := Option.map_eq_some_iff.1 hs
    obtain ⟨rfl, rfl⟩ := Prod.mk.inj hu
    intro name hname
    rw [List.mem_singleton.1 hname]
    exact found_of_getElem? hnode
  | selectFinalNode reduces =>
    obtain ⟨y, -, hy⟩ := Option.bind_eq_some_iff.1 hs
    obtain ⟨node, hnode, hu⟩ := Option.map_eq_some_iff.1 hy
    obtain ⟨rfl, rfl⟩ := Prod.mk.inj hu
    intro name hname
    rw [List.mem_singleton.1 hname]
    exact found_of_getElem? hnode
  | _ => exact fun name hname => absurd hname List.not_mem_nil

/-- **A place that is selected** is one of the list. -/
theorem serve_placed (hs : serve t w r c = some (x, u)) {place : Option ℕ} {k : ℕ} (hk : r.placed x place = some k) :
    place = some k ∨ k < w.nodes.length := by
  cases r with
  | selectNode site copies =>
    obtain ⟨selected, hsel, hu⟩ := Option.map_eq_some_iff.1 hs
    obtain ⟨rfl, -⟩ := Prod.mk.inj hu
    obtain ⟨y, rfl, rfl⟩ := Option.map_eq_some_iff.1 hk
    obtain ⟨copy, -, hfind, -⟩ := selectNodeToMap_spec hsel
    obtain ⟨node, hnode, -⟩ := findNode_spec hfind
    exact Or.inr (List.getElem?_eq_some_iff.1 hnode).1
  | selectMoreTemps maps =>
    obtain ⟨selected, hsel, hu⟩ := Option.map_eq_some_iff.1 hs
    obtain ⟨rfl, -⟩ := Prod.mk.inj hu
    have hk : selected = some k := hk
    rw [hk] at hsel
    exact Or.inr (lt_of_isActiveAt (isActiveAt_selectMoreTemps hsel))
  | _ => exact Or.inl hk

/-- **Every step keeps what the jobs know of the nodes.** -/
theorem crash_rule : Pool.Rule (fun _ => crashSpec) Met serve fun _ _ _ _ => True := by
  rintro t w g r c x u h - - hs
  obtain ⟨hturn, hkept, htied⟩ := serve_turn h.tied hs
  refine ⟨⟨u.talk t, r.meets x ++ (g t).names, r.placed x (g t).place⟩, ⟨hturn, rfl, rfl⟩, ?_, ?_, ?_⟩
  · have htalk : (fun t' => (Function.update g t ⟨u.talk t, r.meets x ++ (g t).names, r.placed x (g t).place⟩
      t').talk) =
        Function.update (fun t => (g t).talk) t (u.talk t) := Function.comp_update Scope.talk g t _
    rw [htalk]
    exact htied
  · intro t' name hname
    by_cases ht : t' = t
    · subst ht
      rw [Function.update_self] at hname
      rcases List.mem_append.1 hname with hname | hname
      · exact serve_meets hs name hname
      · exact hkept.steady.found (h.names t' name hname)
    · rw [Function.update_of_ne ht] at hname
      exact hkept.steady.found (h.names t' name hname)
  · intro t' k hk
    have hlen := hkept.steady.length_le
    by_cases ht : t' = t
    · subst ht
      rw [Function.update_self] at hk
      rcases serve_placed hs hk with hplace | hlt
      · have hlt := h.place t' k hplace
        omega
      · omega
    · rw [Function.update_of_ne ht] at hk
      have hlt := h.place t' k hk
      omega

theorem marta_crash (rounds : ℕ) (jobs : List Submission) :
    (marta rounds jobs).Ok (fun _ => crashSpec) (fun _ _ _ => True) (fun _ => noCrash) Met := by
  refine ⟨fun _ => ⟨.start, [], none⟩, ⟨tied_start, ?_, ?_⟩, fun t p hp => ?_⟩
  · exact fun _ _ hname => absurd hname List.not_mem_nil
  · exact fun _ _ hk => by cases hk
  · obtain ⟨x, -, rfl⟩ := List.mem_map.1 (List.mem_of_getElem? hp)
    exact crash_acceptJob rounds (createJob_new ..)

/-! ## Where a `NULL` is followed -/

/-- **A `NULL` that is followed.** -/
def FollowsNull (w : World) (l : Talk) : Req → Prop
  | .selectFinalNode reduces => ∀ reduce ∈ reduces, ¬OnActive w.nodes reduce.finalNode
  | .deactivateNode nodeName => findNode w.nodes nodeName = none ∧ l.Blames nodeName
  | _ => False

/-- **A request of a job** is served but for the `NULL`s. -/
theorem Met.serve_eq_none (h : Met w g) (hfinds : Finds (g t) r) (hc : ∀ i failed, c ≠ .answer i failed) :
    serve t w r c = none ↔ FollowsNull w (w.talk t) r := by
  have hfound := h.names t
  -- what is found by its name, or by its place, is not a `NULL`
  have hserved : serve t w r c ≠ none → ¬FollowsNull w (w.talk t) r →
    (serve t w r c = none ↔ FollowsNull w (w.talk t) r) :=
    fun hserve hnull => ⟨fun hnot => absurd hnot hserve, fun hnot => absurd hnot hnull⟩
  have hplace : ∀ k, (g t).place = some k → ∃ node, w.nodes[k]? = some node :=
    fun k hk => ⟨_, List.getElem?_eq_getElem (h.place t k hk)⟩
  cases r with
  | selectNode site copies =>
    obtain ⟨selected, hsel, -⟩ := selectNodeToMap_selects fun copy hcopy => hfound copy.nodeName (hfinds copy hcopy)
    refine hserved ?_ id
    simp only [serve, hsel, Option.map_some, ne_eq, reduceCtorEq, not_false_eq_true]
  | listAddMap k numBlock =>
    obtain ⟨node, hnode⟩ := hplace k hfinds
    refine hserved ?_ id
    simp only [serve, hnode, Option.map_some, ne_eq, reduceCtorEq, not_false_eq_true]
  | readNode k =>
    obtain ⟨node, hnode⟩ := hplace k hfinds
    refine hserved ?_ id
    simp only [serve, hnode, Option.map_some, ne_eq, reduceCtorEq, not_false_eq_true]
  | removeMapNode site nodeName numBlock =>
    obtain ⟨k, hk⟩ := Option.isSome_iff_exists.1 (hfound nodeName hfinds)
    refine hserved ?_ id
    simp only [serve, removeMapNode, hk, Option.map_some, Option.bind_some, ne_eq, reduceCtorEq, not_false_eq_true]
  | addReduceNode finalNode =>
    obtain ⟨k, hk⟩ := Option.isSome_iff_exists.1 (hfound finalNode hfinds)
    refine hserved ?_ id
    simp only [serve, addReduceNode, hk, Option.map_some, Option.bind_some, ne_eq, reduceCtorEq, not_false_eq_true]
  | removeReduceNode finalNode =>
    obtain ⟨k, hk⟩ := Option.isSome_iff_exists.1 (hfound finalNode hfinds)
    refine hserved ?_ id
    simp only [serve, removeReduceNode, hk, Option.map_some, Option.bind_some, ne_eq, reduceCtorEq, not_false_eq_true]
  | selectMoreTemps maps =>
    obtain ⟨selected, hsel⟩ := Option.isSome_iff_exists.1 (isSome_selectMoreTemps fun m hm => hfound _ (hfinds m hm))
    refine hserved ?_ id
    simp only [serve, hsel, Option.map_some, ne_eq, reduceCtorEq, not_false_eq_true]
  | deactivateNode nodeName =>
    show (deactivateNode w.nodes nodeName).map _ = none ↔ findNode w.nodes nodeName = none ∧ (w.talk t).Blames nodeName
    rw [Option.map_eq_none_iff, deactivateNode, Option.map_eq_none_iff]
    refine ⟨fun hnone => ⟨hnone, ?_⟩, fun hnull => hnull.1⟩
    rcases hfinds with hname | hblames
    · have hsome := hfound nodeName hname
      rw [hnone] at hsome
      cases hsome
    · rw [h.tied.talk]
      exact hblames
  | selectFinalNode reduces =>
    obtain ⟨selected, hsel, hnone, hleast⟩ :=
      selectFinalNode_selects fun reduce hreduce => hfound reduce.finalNode (hfinds reduce hreduce)
    show _ ↔ ∀ reduce ∈ reduces, ¬OnActive w.nodes reduce.finalNode
    rw [← hnone]
    cases selected with
    | none => simp only [serve, hsel, Option.join_some, Option.bind_none]
    | some y =>
      obtain ⟨k, ⟨⟩⟩ := y
      obtain ⟨-, -, -, -, -, hactive, -⟩ := (hleast k).1 rfl
      have hnode := List.getElem?_eq_getElem (lt_of_isActiveAt hactive)
      simp only [serve, hsel, Option.join_some, Option.bind_some, hnode, Option.map_some, reduceCtorEq]
  | recv =>
    refine hserved ?_ id
    cases c with
    | answer i failed => exact absurd rfl (hc i failed)
    | _ => exact Option.some_ne_none _
  | _ => exact hserved (Option.some_ne_none _) id

/-- A thread that makes a request steps when it is served. -/
theorem step_eq_none {P : Pool Resp Exit Unit World} (ht : P.At t r) :
    Pool.step serve P (t, c) = none ↔ serve t P.state r c = none := by
  obtain ⟨k, hk⟩ := ht
  unfold Pool.step
  simp only [hk, Option.map_eq_none_iff]

/-- **Where a `NULL` node is followed.** In every run of any jobs, whatever the FileSystem replies
and whichever of the orders that are out the Jobs answer next, a job whose blocks 16 bits can count
waits for a result only when an order is without an answer. Each of its other requests is served
unless it chooses a final node when no node of a partial reduce is active, or deactivates a node
that its Job has just blamed and that is not registered. It never looks for a map or a reduce that
is not there. -/
theorem null_followed (rounds : ℕ) (jobs : List Submission) (t : ℕ) (es : List (ℕ × Choice))
    (P : Pool Resp Exit Unit World) (hrun : run (Pool.step serve) (marta rounds jobs) es = some P)
    (hsmall : (P.state.talk t).blocks.length < 2 ^ 16) :
    (∀ r, P.At t r → (r = .recv → (P.state.talk t).pending ≠ []) ∧ ∀ c, (∀ i failed, c ≠ .answer i failed) →
      (Pool.step serve P (t, c) = none ↔ FollowsNull P.state (P.state.talk t) r)) ∧
    P.threads[t]? ≠ some (.stop .crashed) := by
  obtain ⟨g, hmet, hheld⟩ := Pool.ok_run crash_rule (marta_crash rounds jobs) Pool.along_meets_true hrun
  have htalk : P.state.talk t = (g t).talk := by rw [hmet.tied.talk]
  rw [htalk] at hsmall
  constructor
  · intro r ht
    obtain ⟨k, hk⟩ := ht
    have hfinds : Finds (g t) r := (hheld t _ hk).1 hsmall
    refine ⟨?_, fun c hc => ?_⟩
    · rintro rfl
      rw [htalk]
      exact hfinds
    · rw [step_eq_none ⟨k, hk⟩]
      exact hmet.serve_eq_none hfinds hc
  · intro hstop
    have hlarge : 2 ^ 16 ≤ (g t).talk.blocks.length := hheld t _ hstop rfl
    omega

/-- The node that a request deactivates. -/
def Req.deactivates : Req → Option CStr
  | .deactivateNode nodeName => some nodeName
  | _ => none

theorem Req.deactivates_eq {r : Req} {name : CStr} (h : r.deactivates = some name) : r = .deactivateNode name := by
  unfold Req.deactivates at h
  split at h
  · cases h
    rfl
  · cases h

/-- What is decided until the Job blames a node that no one knows for the failure of its reduce. -/
def blameUnknown : List Choice := planOne ++ reduceOne ++ [.done, .answer 0 (some (cstr "B")), .done]

theorem null_followed_blamed : ∃ P, run (Pool.step serve) (marta 1 [oneFile 1]) (blameUnknown.map (Prod.mk 0)) =
    some P ∧
    P.At 0 (.deactivateNode (cstr "B")) ∧ Pool.step serve P (0, .done) = none := by
  obtain ⟨P, hP, hsmall, hfind, r, hr, hname, hlast⟩ :
      ∃ P ∈ run (Pool.step serve) (marta 1 [oneFile 1]) (blameUnknown.map (Prod.mk 0)),
        (P.state.talk 0).blocks.length < 2 ^ 16 ∧ findNode P.state.nodes (cstr "B") = none ∧
        ∃ r ∈ P.asked 0, r.deactivates = some (cstr "B") ∧
          (P.state.talk 0).history.getLast? = some (.result (.reduce 0 (some (cstr "B")))) := by
    decide +kernel
  have ht : P.At 0 (.deactivateNode (cstr "B")) := Req.deactivates_eq hname ▸ Pool.at_of_asked hr
  have hnull : FollowsNull P.state (P.state.talk 0) (.deactivateNode (cstr "B")) := ⟨hfind, 0, hlast⟩
  have hiff := ((null_followed 1 _ 0 _ P hP hsmall).1 _ ht).2 .done fun _ _ hnot => by cases hnot
  exact ⟨P, hP, ht, hiff.2 hnull⟩

end Mdfs.MaRTA
