import Mdfs.MaRTA.Turns

/-!
# The map phase of a job

`planMaps`, and the maps that are planned again, keep to the specification: between two
steps the ledger and the chart of the job are right (`AtRest`).

A result of a map that failed plans the map again and waits for the next result, whatever
map it is for. So each call of `recvResult` takes exactly one order off those without an
answer, by induction on the rounds (`recvOk_recvResult`).

* `ok_planMaps`: what `planMaps` returns with.
* `ok_rePlanMapsFromNode`: what `rePlanMapsFromNode` returns with.
-/

namespace Mdfs.MaRTA

open Lib Wire

/-- **A job between two steps**: `lost` are the maps that found no active copy, `rest` the
blocks without a map, `due` the reduces without an answer. -/
structure AtRest (lost : Multiset Map) (rest : List (List Copy)) (due : Multiset Reduce) (job : Job)
    (l : Talk) : Prop where
  counted : ∃ counted, (job.maps : Multiset Map) = lost + counted ∧ Ledger counted job.mapsDone due l
  chart : Chart rest job.maps l
  hand : l.hand = .free

/-- **A job that plans its `i`-th map again**: `counted` are the maps in the accounts. -/
structure Replanning (i : ℕ) (m : Map) (lost counted : Multiset Map) (job : Job) (l : Talk) : Prop where
  place : job.maps[i]? = some m
  maps : (job.maps : Multiset Map) = m ::ₘ (lost + counted)
  ledger : Ledger counted job.mapsDone 0 l
  chart : Chart [] job.maps l
  hand : l.hand = .free

/-- The reduces of a job stay as they are. -/
structure Job.Keeps (job job' : Job) : Prop where
  combiner : job'.combiner = job.combiner
  partialReduces : job'.partialReduces = job.partialReduces
  finalReduce : job'.finalReduce = job.finalReduce

theorem Job.Keeps.refl (job : Job) : job.Keeps job := ⟨rfl, rfl, rfl⟩

theorem Job.Keeps.trans {job job' job'' : Job} (h : job.Keeps job') (h' : job'.Keeps job'') : job.Keeps job'' :=
  ⟨h'.combiner.trans h.combiner, h'.partialReduces.trans h.partialReduces, h'.finalReduce.trans h.finalReduce⟩

variable {rest : List (List Copy)} {due : Multiset Reduce} {job job' : Job} {l l' : Talk} {lost counted : Multiset Map}
  {d : UInt16} {i : ℕ} {m : Map} {recv : Recv}

/-- With no map lost, all maps are in the accounts. -/
theorem atRest_zero : AtRest 0 rest due job l ↔
    Ledger (job.maps : Multiset Map) job.mapsDone due l ∧ Chart rest job.maps l ∧ l.hand = .free := by
  constructor
  · rintro ⟨⟨counted, hmaps, hledger⟩, hchart, hhand⟩
    rw [Multiset.zero_add] at hmaps
    exact ⟨hmaps ▸ hledger, hchart, hhand⟩
  · rintro ⟨hledger, hchart, hhand⟩
    exact ⟨⟨job.maps, (Multiset.zero_add _).symm, hledger⟩, hchart, hhand⟩

theorem AtRest.ledger (h : AtRest 0 rest due job l) : Ledger (job.maps : Multiset Map) job.mapsDone due l :=
  (atRest_zero.1 h).1

/-- The reduces and the files of a job play no part. -/
theorem AtRest.of_job (h : AtRest lost rest due job l) (hmaps : job'.maps = job.maps)
    (hmapsDone : job'.mapsDone = job.mapsDone) :
    AtRest lost rest due job' l where
  counted := by rw [hmaps, hmapsDone]; exact h.counted
  chart := by rw [hmaps]; exact h.chart
  hand := h.hand

/-- What the maps in the accounts have booked is there for maps of the job. -/
theorem Ledger.leaving (h : Ledger counted d due l) {maps : List Map} (hmaps : counted ≤ (maps : Multiset Map))
    (hknown : ∀ m ∈ maps, l.Knows m.nodeName) : Leaving maps l := by
  intro hreplanned hdropped
  refine ⟨hknown, ?_⟩
  rw [h.booked hreplanned hdropped]
  exact Multiset.map_le_map ((Multiset.filter_le _ counted).trans hmaps)

theorem AtRest.leaving (h : AtRest lost rest due job l) : Leaving job.maps l := by
  obtain ⟨counted, hmaps, hledger⟩ := h.counted
  refine hledger.leaving ?_ h.chart.known
  rw [hmaps]
  exact Multiset.le_add_left counted lost

theorem Replanning.leaving (h : Replanning i m lost counted job l) : Leaving job.maps l := by
  refine h.ledger.leaving ?_ h.chart.known
  rw [h.maps]
  exact (Multiset.le_add_left counted lost).trans (Multiset.le_cons_self _ m)

/-! ## Planning -/

/-- The maps of a job that skips a block are taken off their nodes. -/
theorem ok_removeMaps_skip (maps : List Map) (l : Talk) :
    (removeMaps .skip maps).Ok jobSpec (fun _ l' => ∃ booked dropped, l' = { l with bookedMaps := booked, dropped } ∧
      (dropped = false → l.dropped = false ∧ booked = l.bookedMaps)) anyExit l := by
  refine Prog.ok_iterate (K := fun _ l' => ∃ booked dropped, l' = { l with bookedMaps := booked, dropped } ∧
    (dropped = false → l.dropped = false ∧ booked = l.bookedMaps)) maps ?_
    ⟨l.bookedMaps, l.dropped, rfl, fun hdropped => ⟨hdropped, rfl⟩⟩
  rintro - m - l₁ - ⟨booked, dropped, rfl, -⟩
  refine ok_request trivial ?_
  rintro - l₂ ⟨name, -, rfl⟩
  exact ⟨booked.erase (name, m.numBlock), true, by simp [Talk.removed], nofun⟩

/-- **A block is planned**, or skipped. -/
theorem ok_mapPlanning {copies : List Copy} (h : AtRest 0 (copies :: rest) 0 job l)
    (hlen : l.pending.length = job.maps.length) :
    (mapPlanning job copies).Ok jobSpec (fun job' l' => AtRest 0 rest 0 job' l' ∧
      l'.pending.length = job'.maps.length ∧ job.Keeps job') anyExit l := by
  unfold mapPlanning
  rw [Prog.ok_bind]
  refine ok_request trivial ?_
  rintro (_ | ⟨n, numBlock⟩) l₁ rfl
  · -- no copy is active
    have hskipped : (l.selected .plan copies none).skipped = true := Bool.or_true _
    dsimp only
    rw [Prog.ok_bind]
    refine (ok_removeMaps_skip job.maps _).imp ?_
    rintro - l₂ ⟨booked, dropped, rfl, hsame⟩
    refine ⟨atRest_zero.2 ⟨?_, ?_, h.hand⟩, hlen, .refl job⟩
    · exact h.ledger.of_same rfl rfl rfl fun hreplanned hdropped => ⟨hreplanned, hsame hdropped⟩
    · refine Chart.skip (h.chart.of_same rfl (fun hnot => ?_) (List.Subset.refl _)) hskipped
      exact absurd (hskipped.symm.trans hnot) (by decide)
  · dsimp only
    rw [Prog.ok_bind]
    refine ok_request h.hand ?_
    rintro - l₂ ⟨name, rfl⟩
    rw [Prog.ok_bind]
    refine ok_request trivial ?_
    rintro node l₃ ⟨hname, rfl⟩
    -- the node that is read is the one that got the block
    obtain rfl : node.name = name := hname name numBlock rfl
    rw [Prog.ok_bind]
    refine ok_request trivial ?_
    rintro time l₄ rfl
    set map := createMap job.maps.length.toUInt16 numBlock node.port node.name node.ip job.id time copies with hmap
    set q := ((l.selected .plan copies (some (n, numBlock))).added n node.name numBlock).read n node with hq
    have hknows : q.Knows node.name := ⟨(n, node), List.mem_append_right _ List.mem_cons_self, rfl⟩
    have hchart : Chart (copies :: rest) job.maps q := h.chart.of_same rfl id (List.subset_append_left _ _)
    -- the id of the map is its place, which no map before it has
    have hnew : ∀ x ∈ job.maps, x.id ≠ map.id := hchart.ids_ne_length (List.cons_ne_nil _ _)
    have hmaps : ((job.maps ++ [map] : List Map) : Multiset Map) = map ::ₘ (job.maps : Multiset Map) :=
      coe_append_singleton job.maps map
    have hbooked : q.replanned = false → q.dropped = false →
        (q.bookedMaps : Multiset (CStr × UInt16)) = map.spot ::ₘ (waiting (job.maps : Multiset Map)).map Map.spot := by
      intro hreplanned hdropped
      rw [← h.ledger.booked hreplanned hdropped]
      exact coe_append_singleton l.bookedMaps (node.name, numBlock)
    have hleaving : Leaving (job.maps ++ [map]) q := by
      intro hreplanned hdropped
      refine ⟨(hchart.append rfl rfl hknows).known, ?_⟩
      rw [hbooked hreplanned hdropped, hmaps, Multiset.map_cons]
      exact Multiset.cons_le_cons _ (Multiset.map_le_map (Multiset.filter_le _ _))
    have hmay : MayAsk q (.sendMap .plan map) := ⟨n, rfl⟩
    rw [Prog.ok_bind]
    refine (ok_notificarMap hmay hleaving).imp ?_
    rintro - l₅ rfl
    refine ⟨atRest_zero.2 ⟨?_, ?_, rfl⟩, ?_, ⟨rfl, rfl, rfl⟩⟩
    · have hledger : Ledger (map ::ₘ (job.maps : Multiset Map)) job.mapsDone 0 (q.mapSent .plan map true) := by
        refine h.ledger.sent_map rfl hnew ⟨rfl, rfl, rfl⟩ fun hreplanned hdropped => hbooked ?_ hdropped
        exact (Bool.or_eq_false_iff.1 hreplanned).1
      rw [← hmaps] at hledger
      exact hledger
    · exact (hchart.append rfl rfl hknows).of_same rfl id (List.Subset.refl _)
    · change (l.pending ++ [Order.map map]).length = (job.maps ++ [map]).length
      rw [List.length_append, List.length_append, hlen]
      rfl

/-! ## Planning again -/

/-- **What `recvResult` does when maps are without an answer**: there is one less. -/
def RecvOk (recv : Recv) : Prop := ∀ lost job l, AtRest lost [] 0 job l → l.pending ≠ [] →
  (recv job).Ok jobSpec (fun x l' => AtRest lost [] 0 x.1 l' ∧ l'.pending.length + 1 = l.pending.length ∧
    job.Keeps x.1) anyExit l

/-- The map as `rePlanMap` sets it, for a copy in a node. -/
def Map.again (m : Map) (idJob : UInt16) (node : NodeInfo) (numBlock : UInt16) (time : Time) : Map :=
  { m with
    nodeName := node.name, nodeIP := node.ip, nodePort := node.port, numBlock
    tempResultName := setTempMapName time m.id idJob, done := false }

/-- **The rule of `rePlanMap`**: no copy is active, or the map is ordered again and `recv` goes on. -/
theorem ok_rePlanMap_rule {Q : Job × Bool → Talk → Prop} (hplace : job.maps[i]? = some m) (hhand : l.hand = .free)
    (hnone : ∀ files, Q ({ job with files }, false) (l.selected .replan m.copies none))
    (hsent : ∀ files n numBlock node time q, q = (l.selected .replan m.copies (some (n, numBlock))).read n node →
      Leaving (job.maps.set i (m.again job.id node numBlock time)) q ∧
      (recv { job with files, maps := job.maps.set i (m.again job.id node numBlock time) }).Ok jobSpec
        (fun x l' => Q (x.1, true) l') anyExit (q.mapSent .replan (m.again job.id node numBlock time) true)) :
    (rePlanMap recv job i).Ok jobSpec Q anyExit l := by
  unfold rePlanMap
  rw [Prog.ok_bind]
  refine (ok_requestBlocks_replan job.files l).imp ?_
  rintro files l₁ rfl
  simp only [hplace]
  rw [Prog.ok_bind]
  refine ok_request trivial ?_
  rintro (_ | ⟨n, numBlock⟩) l₂ rfl
  · exact hnone files.1
  · dsimp only
    rw [Prog.ok_bind]
    refine ok_request trivial ?_
    rintro node l₃ ⟨-, rfl⟩
    rw [Prog.ok_bind]
    refine ok_request trivial ?_
    rintro time l₄ rfl
    obtain ⟨hleaving, hrecv⟩ := hsent files.1 n numBlock node time _ rfl
    have hmay : MayAsk ((l₁.selected .replan m.copies (some (n, numBlock))).read n node)
        (.sendMap .replan (m.again job.id node numBlock time)) := hhand
    rw [Prog.ok_bind]
    refine (ok_notificarMap hmay hleaving).imp ?_
    rintro - l₅ rfl
    rw [Prog.ok_bind]
    exact hrecv

/-- **`rePlanMap`** orders the map again and waits for a result, or finds no active copy. -/
theorem ok_rePlanMap (hrecv : RecvOk recv) (h : Replanning i m lost counted job l) :
    (rePlanMap recv job i).Ok jobSpec (fun x l' => job.Keeps x.1 ∧ (x.2 = true ∧ AtRest lost [] 0 x.1 l' ∧
      l'.pending.length = l.pending.length ∨
      x.2 = false ∧ l' = l.selected .replan m.copies none ∧ x.1.maps = job.maps ∧ x.1.mapsDone = job.mapsDone))
        anyExit l := by
  refine ok_rePlanMap_rule h.place h.hand ?_ ?_
  · intro files
    exact ⟨⟨rfl, rfl, rfl⟩, Or.inr ⟨rfl, rfl, rfl, rfl⟩⟩
  · intro files n numBlock node time q hq
    set map := m.again job.id node numBlock time with hmap
    have hknows : q.Knows node.name := by
      rw [hq]
      exact ⟨(n, node), List.mem_append_right _ List.mem_cons_self, rfl⟩
    have hchart : Chart [] job.maps q := by
      rw [hq]
      exact h.chart.of_same rfl id (List.subset_append_left _ _)
    have hset : Chart [] (job.maps.set i map) q := hchart.set h.place rfl rfl hknows
    have hmaps : (job.maps.set i map : Multiset Map) = map ::ₘ (lost + counted) := coe_set h.place h.maps map
    have hnew : ∀ x ∈ counted, x.id ≠ m.id := fun x hx =>
      hchart.ids_ne h.place h.maps x (Multiset.mem_add.2 (Or.inr hx))
    have hledger : Ledger counted job.mapsDone 0 q := by
      rw [hq]
      exact h.ledger.of_same rfl rfl rfl fun hreplanned hdropped => ⟨hreplanned, hdropped, rfl⟩
    have hleaving : Leaving (job.maps.set i map) q := by
      refine hledger.leaving ?_ hset.known
      rw [hmaps]
      exact (Multiset.le_add_left counted lost).trans (Multiset.le_cons_self _ map)
    refine ⟨hleaving, ?_⟩
    have hrest : AtRest lost [] 0 { job with files, maps := job.maps.set i map } (q.mapSent .replan map true) := by
      have hdone : map.done = false := rfl
      refine ⟨⟨map ::ₘ counted, hmaps.trans (Multiset.add_cons ..).symm, ?_⟩,
        hset.of_same rfl id (List.Subset.refl _), rfl⟩
      refine hledger.sent_map hdone hnew ⟨rfl, rfl, rfl⟩ fun hreplanned => ?_
      -- a map that is planned again is put on no node
      exact absurd hreplanned (by simp [Talk.mapSent])
    have hlen : (q.mapSent .replan map true).pending.length = l.pending.length + 1 := by
      rw [hq]
      change (l.pending ++ [Order.map map]).length = _
      rw [List.length_append, List.length_singleton]
    have hpending : (q.mapSent .replan map true).pending ≠ [] := by
      intro hnil
      rw [hnil] at hlen
      simp at hlen
    refine (hrecv lost _ _ hrest hpending).imp ?_
    rintro x l₆ ⟨hx, hless, hkeeps⟩
    refine ⟨⟨hkeeps.combiner, hkeeps.partialReduces, hkeeps.finalReduce⟩, Or.inl ⟨rfl, hx, ?_⟩⟩
    omega

/-- **The result of a map**: its success is noted, or it is planned again. -/
theorem ok_desserializeMapResult (hrecv : RecvOk recv) (h : AtRest lost [] 0 job l) (hm : l.pending[i]? = some (.map m))
    (failed : Option CStr) :
    (desserializeMapResult recv job m.id (decide (failed = none))).Ok jobSpec (fun job' l' => AtRest lost [] 0 job' l' ∧
      l'.pending.length + 1 = l.pending.length ∧ job.Keeps job') anyExit (l.answered i (.map m) failed) := by
  obtain ⟨all, hall, hledger⟩ := h.counted
  obtain ⟨hcounted, hdone⟩ := mem_waiting.1 (hledger.mem_of_map hm)
  obtain ⟨counted, rfl⟩ := Multiset.exists_cons_of_mem hcounted
  have hmaps : (job.maps : Multiset Map) = m ::ₘ (lost + counted) := hall.trans (Multiset.add_cons ..)
  have hmem : m ∈ job.maps := by
    have hcoe : m ∈ (job.maps : Multiset Map) := hmaps ▸ Multiset.mem_cons_self m _
    exact hcoe
  -- the map of the answer is found by its id at its place
  obtain ⟨k, hfind, hk⟩ := h.chart.findIdx_eq hmem
  have hnew : ∀ x ∈ counted, x.id ≠ m.id := fun x hx => h.chart.ids_ne hk hmaps x (Multiset.mem_add.2 (Or.inr hx))
  have hanswered := hledger.answered_map hm hdone hnew failed
  have hless : (l.pending.eraseIdx i).length + 1 = l.pending.length := by
    obtain ⟨hi, -⟩ := List.getElem?_eq_some_iff.1 hm
    rw [List.length_eraseIdx, if_pos hi]
    omega
  unfold desserializeMapResult
  simp only [hfind, hk]
  rw [Prog.ok_bind]
  have hknown : (l.answered i (.map m) failed).Knows m.nodeName := h.chart.known m hmem
  have hmay : MayAsk (l.answered i (.map m) failed) (.removeMapNode .result m.nodeName m.numBlock) :=
    ⟨m, rfl, rfl, rfl, hknown⟩
  refine ok_request hmay ?_
  rintro - l₁ ⟨name, hname, rfl⟩
  obtain rfl : name = m.nodeName := hname hknown
  have hchart : Chart [] job.maps ((l.answered i (.map m) failed).removed .result m.nodeName m.numBlock) :=
    h.chart.of_same rfl id (List.Subset.refl _)
  cases failed with
  | none =>
    have hheard := hledger.heard_answered (i := i) hdone none
    refine ⟨⟨⟨_, ?_, hanswered.done_map hheard hdone⟩, hchart.set hk rfl rfl (h.chart.known m hmem), rfl⟩,
      hless, ⟨rfl, rfl, rfl⟩⟩
    rw [coe_set hk hmaps, Multiset.add_cons]
  | some nodeID =>
    rw [if_neg (by simp), Prog.ok_bind]
    refine ok_request trivial ?_
    rintro - l₂ rfl
    rw [Prog.ok_bind]
    -- the node is not active any more, and the map is planned on another
    have hagain : Replanning k m lost counted job
        ((l.answered i (.map m) (some nodeID)).removed .result m.nodeName m.numBlock) :=
      ⟨hk, hmaps, hanswered, hchart, rfl⟩
    refine (ok_rePlanMap hrecv hagain).imp ?_
    rintro x l₃ ⟨hkeeps, ⟨hx, hrest, hlen⟩ | ⟨hx, rfl, hsame, -⟩⟩
    · rw [if_pos hx]
      refine ⟨hrest, ?_, hkeeps⟩
      rw [hlen]
      exact hless
    · rw [if_neg (by simp [hx])]
      have hleaving := hagain.leaving
      rw [← hsame] at hleaving
      exact ok_notifFileUnavailable (hleaving.of_same rfl rfl rfl rfl)

/-- **`recvResult` in the map phase**, whatever maps fail. -/
theorem recvOk_recvResult (rounds : ℕ) : RecvOk (recvResult rounds) := by
  induction rounds with
  | zero => intro lost job l _ _; trivial
  | succ rounds ih =>
    intro lost job l h hpending
    rw [recvResult, Prog.ok_bind]
    refine ok_request ⟨h.hand, hpending⟩ ?_
    rintro x l₁ (⟨rfl, rfl⟩ | ⟨i, o, failed, ho, rfl, rfl⟩)
    · have hdying : Leaving job.maps { l with hand := .dying } := h.leaving.of_same rfl rfl rfl rfl
      exact ok_leave hdying .died
    · cases o with
      | map m =>
        change ((desserializeMapResult (recvResult rounds) job m.id (decide (failed = none))) >>= _).Ok _ _ _ _
        rw [Prog.ok_bind]
        exact ok_desserializeMapResult ih h ho failed
      | reduce r =>
        obtain ⟨counted, -, hledger⟩ := h.counted
        exact absurd (hledger.mem_of_reduce ho) (Multiset.notMem_zero r)

/-! ## Planning the maps of a node again -/

/-- **A job without an order to answer.** -/
structure Still (lost : Multiset Map) (job : Job) (l : Talk) : Prop where
  rest : AtRest lost [] 0 job l
  pending : l.pending = []

/-- **A job whose maps are all done.** -/
abbrev Settled (job : Job) (l : Talk) : Prop := Still 0 job l

/-- **A job of which a map found no active copy**: it is lost, or no order is without an answer. -/
structure Gone (job : Job) (l : Talk) : Prop where
  stranded : l.stranded = true
  still : l.Lost ∨ l.hand = .free ∧ l.pending = [] ∧
    (l.replanned = false → l.dropped = false → l.bookedMaps = [] ∧ ∀ m ∈ job.maps, l.Knows m.nodeName)

/-- The maps in the accounts are done. -/
theorem Ledger.waiting_eq_zero (h : Ledger counted d 0 l) (hpending : l.pending = []) : waiting counted = 0 := by
  have hsum := h.pending
  rw [hpending, Multiset.map_zero, Multiset.add_zero] at hsum
  exact Multiset.map_eq_zero.1 hsum.symm

theorem done_of_waiting (h : waiting counted = 0) (hm : m ∈ counted) : m.done = true := by
  by_contra hdone
  have hmem : m ∈ waiting counted := mem_waiting.2 ⟨hm, by simpa using hdone⟩
  rw [h] at hmem
  exact Multiset.notMem_zero m hmem

theorem Still.done (h : Settled job l) : ∀ m ∈ job.maps, m.done = true := fun _ hm =>
  done_of_waiting (h.rest.ledger.waiting_eq_zero h.pending) hm

theorem Still.balanced (h : Settled job l) : Balanced l job := h.rest.ledger.balanced h.done h.rest.chart.length_lt

/-- A job that has lost a map is gone. -/
theorem Still.gone (h : Still lost job l) (hstranded : l.stranded = true) : Gone job l where
  stranded := hstranded
  still := by
    refine Or.inr ⟨h.rest.hand, h.pending, fun hreplanned hdropped => ⟨?_, h.rest.chart.known⟩⟩
    obtain ⟨counted, -, hledger⟩ := h.rest.counted
    have hbooked := hledger.booked hreplanned hdropped
    rw [hledger.waiting_eq_zero h.pending] at hbooked
    exact (Multiset.coe_eq_zero _).1 hbooked

theorem Gone.leaving (h : Gone job l) : Leaving job.maps l := by
  intro hreplanned hdropped
  rcases h.still with hlost | ⟨-, -, hbooked⟩
  · exact absurd (hlost.2.symm.trans hreplanned) (by decide)
  · obtain ⟨hnone, hknown⟩ := hbooked hreplanned hdropped
    refine ⟨hknown, ?_⟩
    rw [hnone]
    exact Multiset.zero_le _

theorem only_rePlanMap (hrecv : ∀ job, MapSide (recv job)) (job : Job) (i : ℕ) : MapSide (rePlanMap recv job i) := by
  refine Prog.only_bind (only_requestBlocks .replan job.files) fun files => ?_
  dsimp only
  split
  · trivial
  · refine Prog.only_bind (only_request rfl) fun x => ?_
    split
    · trivial
    · refine Prog.only_bind (only_request rfl) fun node => Prog.only_bind (only_request rfl) fun time => ?_
      exact Prog.only_bind (only_notificarMap .replan _ _) fun _ => Prog.only_bind (hrecv _) fun _ => trivial

/-- A round of `recvResult` is about the maps. -/
theorem only_recvResult (rounds : ℕ) : ∀ job, MapSide (recvResult rounds job) := by
  induction rounds with
  | zero => intro job; trivial
  | succ rounds ih =>
    intro job
    refine Prog.only_bind (only_request rfl) fun x => ?_
    split
    · exact only_leave job .died
    · refine Prog.only_bind ?_ fun job => trivial
      unfold desserializeMapResult
      split
      · trivial
      · split
        · trivial
        · refine Prog.only_bind (only_request rfl) fun _ => ?_
          split
          · trivial
          · refine Prog.only_bind (only_request rfl) fun _ => Prog.only_bind (only_rePlanMap ih job _) fun y => ?_
            split
            · trivial
            · exact only_notifFileUnavailable y.1
    · refine Prog.only_bind ?_ fun nodeID => trivial
      unfold desserializaReduceResult
      split
      · trivial
      · refine Prog.only_bind (only_request rfl) fun _ => ?_
        split
        · trivial
        · exact Prog.only_bind (only_request rfl) fun _ => trivial

/-- **`rePlanMap` of a job that is gone.** -/
theorem ok_rePlanMap_gone (hrecv : ∀ job, MapSide (recv job)) (h : Gone job l) (hlate : l.late = true) (i : ℕ) :
    (rePlanMap recv job i).Ok jobSpec (fun x l' => Gone x.1 l') anyExit l := by
  have hkept : ∀ l r (x : Resp r) l', l.stranded = true → Turn l r x l' → l'.stranded = true :=
    fun l r x l' hl hturn => hturn.grows.2.2.2 hl
  rcases h.still with hlost | ⟨hfree, hpending, hbooked⟩
  · refine ((ok_lost (noReduce_of_mapSide (only_rePlanMap hrecv job i)) hlost).and_keeps
      (I := fun l => l.stranded = true) hkept h.stranded).imp ?_
    exact fun x l' hl' => ⟨hl'.2, Or.inl hl'.1⟩
  -- the job is not lost: nothing of it is booked
  cases hm : job.maps[i]? with
  | none =>
    unfold rePlanMap
    rw [Prog.ok_bind]
    refine (ok_requestBlocks_replan job.files l).imp ?_
    rintro files l₁ rfl
    simp only [hm]
    trivial
  | some m =>
    refine ok_rePlanMap_rule hm hfree ?_ ?_
    · intro files
      exact ⟨Bool.or_true _, Or.inr ⟨hfree, hpending, hbooked⟩⟩
    · intro files n numBlock node time q hq
      set map := m.again job.id node numBlock time with hmap
      have hleaving : Leaving (job.maps.set i map) q := by
        rw [hq]
        intro hreplanned hdropped
        obtain ⟨hnone, hknown⟩ := hbooked hreplanned hdropped
        refine ⟨fun x hx => ?_, ?_⟩
        · rcases List.mem_or_eq_of_mem_set hx with hx | rfl
          · obtain ⟨y, hy, hname⟩ := hknown x hx
            exact ⟨y, List.mem_append_left _ hy, hname⟩
          · exact ⟨(n, node), List.mem_append_right _ List.mem_cons_self, rfl⟩
        · change (l.bookedMaps : Multiset (CStr × UInt16)) ≤ _
          rw [hnone]
          exact Multiset.zero_le _
      refine ⟨hleaving, ?_⟩
      -- an order is sent again: the job is lost
      have hlost : (q.mapSent .replan map true).Lost := by
        rw [hq]
        exact ⟨hlate, by simp [Talk.mapSent]⟩
      have hstranded : (q.mapSent .replan map true).stranded = true := by
        rw [hq]
        exact h.stranded
      refine ((ok_lost (noReduce_of_mapSide (hrecv _)) hlost).and_keeps (I := fun l => l.stranded = true)
        hkept hstranded).imp ?_
      exact fun x l₆ hl₆ => ⟨hl₆.2, Or.inl hl₆.1⟩

/-- **What `rePlanMapsFromNode` has done**: no order is without an answer, and the maps that
are lost are among those it has gone through. -/
structure Sought (done : List ℕ) (job : Job) (x : Job × Bool) (l : Talk) : Prop where
  keeps : job.Keeps x.1
  still : ∃ lost, Still lost x.1 l ∧ (∀ m ∈ lost, ∃ i ∈ done, m.id = i.toUInt16) ∧ (x.2 = true → lost = 0)
  stranded : x.2 = false → l.stranded = true

theorem Still.sought (h : Settled job l) : Sought [] job (job, true) l where
  keeps := .refl job
  still := ⟨0, h, fun m hm => absurd hm (Multiset.notMem_zero m), fun _ => rfl⟩
  stranded := nofun

/-- One more map that is not on the node. -/
theorem Sought.pass {done : List ℕ} {x : Job × Bool} (h : Sought done job x l) (i : ℕ) :
    Sought (done ++ [i]) job x l where
  keeps := h.keeps
  still := by
    obtain ⟨lost, hstill, hlost, hflag⟩ := h.still
    refine ⟨lost, hstill, fun m hm => ?_, hflag⟩
    obtain ⟨j, hj, hid⟩ := hlost m hm
    exact ⟨j, List.mem_append_left _ hj, hid⟩
  stranded := h.stranded

/-- A map that no earlier place has lost can be planned again: it is in the accounts,
since no other place has its id, and its result was received. -/
theorem Still.replanning (h : Still lost job l) {done : List ℕ} (hlost : ∀ m ∈ lost, ∃ j ∈ done, m.id = j.toUInt16)
    (hdone : ∀ j ∈ done, j < 2 ^ 16) (hi : i ∉ done) {m : Map} (hm : job.maps[i]? = some m) :
    ∃ counted, Replanning i m lost counted { job with mapsDone := job.mapsDone - 1 } l := by
  obtain ⟨all, hall, hledger⟩ := h.rest.counted
  have hid : m.id = i.toUInt16 := h.rest.chart.id_eq hm
  have hcounted : m ∈ all := by
    have hmem : m ∈ (job.maps : Multiset Map) := List.mem_of_getElem? hm
    rw [hall] at hmem
    rcases Multiset.mem_add.1 hmem with hmem | hmem
    · obtain ⟨j, hj, hid'⟩ := hlost m hmem
      obtain ⟨hlt, -⟩ := List.getElem?_eq_some_iff.1 hm
      have hsmall := h.rest.chart.length_lt
      have hnat := congrArg UInt16.toNat (hid.symm.trans hid')
      rw [toNat_toUInt16 (by omega), toNat_toUInt16 (hdone j hj)] at hnat
      exact absurd (hnat ▸ hj) hi
    · exact hmem
  have hmdone : m.done = true := done_of_waiting (hledger.waiting_eq_zero h.pending) hcounted
  obtain ⟨counted, rfl⟩ := Multiset.exists_cons_of_mem hcounted
  exact ⟨counted, hm, hall.trans (Multiset.add_cons ..), hledger.undone_map hmdone, h.rest.chart, h.rest.hand⟩

/-- **`rePlanByNode`** plans a map again, or loses it. -/
theorem ok_rePlanByNode (hrecv : RecvOk recv) {done : List ℕ} {x : Job × Bool} (h : Sought done job x l)
    (hdone : ∀ j ∈ done, j < 2 ^ 16) (hi : i ∉ done) (node : CStr) :
    (rePlanByNode recv node x i).Ok jobSpec (fun x' l' => Sought (done ++ [i]) job x' l') anyExit l := by
  unfold rePlanByNode
  cases hm : x.1.maps[i]? with
  | none => exact h.pass i
  | some m =>
    dsimp only
    split
    swap
    · exact h.pass i
    obtain ⟨lost, hstill, hlost, hflag⟩ := h.still
    have hid : m.id = i.toUInt16 := hstill.rest.chart.id_eq hm
    obtain ⟨counted, hagain⟩ := hstill.replanning hlost hdone hi hm
    rw [Prog.ok_bind]
    have hkept : ∀ l₁ r (z : Resp r) l₂, (l.stranded = true → l₁.stranded = true) → Turn l₁ r z l₂ →
        l.stranded = true → l₂.stranded = true := fun l₁ r z l₂ hl hturn hs => hturn.grows.2.2.2 (hl hs)
    refine ((ok_rePlanMap hrecv hagain).and_keeps (I := fun l' => l.stranded = true → l'.stranded = true)
      hkept id).imp ?_
    rintro y l₁ ⟨⟨hkeeps, hy⟩, hstranded⟩
    have hall' : x.1.Keeps y.1 := ⟨hkeeps.combiner, hkeeps.partialReduces, hkeeps.finalReduce⟩
    rcases hy with ⟨hy, hrest, hlen⟩ | ⟨hy, rfl, hmaps, hmapsDone⟩
    · have hnone : l₁.pending = [] := by
        rw [hstill.pending, List.length_nil, List.length_eq_zero_iff] at hlen
        exact hlen
      have hsame : (x.2 && y.2) = x.2 := by rw [hy, Bool.and_true]
      refine ⟨h.keeps.trans hall', ⟨lost, ⟨hrest, hnone⟩, fun m' hm' => ?_, ?_⟩, ?_⟩
      · obtain ⟨j, hj, hid'⟩ := hlost m' hm'
        exact ⟨j, List.mem_append_left _ hj, hid'⟩
      · rw [hsame]
        exact hflag
      · rw [hsame]
        exact fun hx => hstranded (h.stranded hx)
    · -- the map stays as it was, and is not counted any more
      have hfalse : (x.2 && y.2) = false := by rw [hy, Bool.and_false]
      have hlosing : Still (m ::ₘ lost) y.1 (l.selected .replan m.copies none) := by
        refine ⟨⟨⟨counted, ?_, ?_⟩, ?_, hstill.rest.hand⟩, hstill.pending⟩
        · rw [hmaps, Multiset.cons_add]
          exact hagain.maps
        · rw [hmapsDone]
          exact hagain.ledger.of_same rfl rfl rfl fun hreplanned hdropped => ⟨hreplanned, hdropped, rfl⟩
        · rw [hmaps]
          exact hstill.rest.chart.of_same rfl (fun hskipped => (Bool.or_false _).symm.trans hskipped)
            (List.Subset.refl _)
      refine ⟨h.keeps.trans hall', ⟨m ::ₘ lost, hlosing, fun m' hm' => ?_, ?_⟩, fun _ => Bool.or_true _⟩
      · rcases Multiset.mem_cons.1 hm' with rfl | hm'
        · exact ⟨i, List.mem_append_right _ List.mem_cons_self, hid⟩
        · obtain ⟨j, hj, hid'⟩ := hlost m' hm'
          exact ⟨j, List.mem_append_left _ hj, hid'⟩
      · rw [hfalse]
        nofun

/-- **`rePlanMapsFromNode`** returns 1 with all maps done, or reports that a map found no
active copy. -/
theorem ok_rePlanMapsFromNode (rounds : ℕ) (h : Settled job l) (node : CStr) :
    (rePlanMapsFromNode (recvResult rounds) job node).Ok jobSpec (fun x l' => job.Keeps x.1 ∧
      (x.2 = true ∧ Settled x.1 l' ∨ x.2 = false ∧ Gone x.1 l')) anyExit l := by
  have hnone : MayAsk l (.mark .replan job) := by
    intro r hr
    rw [h.pending] at hr
    exact absurd hr List.not_mem_nil
  have hlen := h.rest.chart.length_lt
  unfold rePlanMapsFromNode
  rw [Prog.ok_bind]
  refine ok_request hnone ?_
  rintro - l₁ rfl
  have hmarked : Settled job (l.marked .replan) := by
    refine ⟨atRest_zero.2 ⟨?_, h.rest.chart.of_same rfl id (List.Subset.refl _), h.rest.hand⟩, h.pending⟩
    exact h.rest.ledger.of_same rfl rfl rfl fun hreplanned hdropped => ⟨hreplanned, hdropped, rfl⟩
  rw [Prog.ok_bind]
  refine (Prog.ok_foldlM (K := fun done (x : Job × Bool) l' => Sought done job x l') (List.range job.maps.length) ?_
    hmarked.sought).imp ?_
  · intro done i rest x l₂ hsplit hsought
    have hrange : done ++ i :: rest = List.range job.maps.length := hsplit
    have hnodup := List.nodup_range (n := job.maps.length)
    rw [← hrange] at hnodup
    -- the loop comes to each place once
    have hi : i ∉ done := fun hmem => List.disjoint_of_nodup_append hnodup hmem List.mem_cons_self
    have hlt : ∀ j ∈ done, j < 2 ^ 16 := by
      intro j hj
      have hmem : j ∈ List.range job.maps.length := hrange ▸ List.mem_append_left _ hj
      exact (List.mem_range.1 hmem).trans hlen
    exact ok_rePlanByNode (recvOk_recvResult rounds) hsought hlt hi node
  · rintro ⟨job₁, flag⟩ l₂ hsought
    obtain ⟨lost, hstill, -, hflag⟩ := hsought.still
    cases flag with
    | true =>
      obtain rfl : lost = 0 := hflag rfl
      rw [if_pos rfl, Prog.ok_bind]
      refine ok_request (fun _ => hstill.balanced) ?_
      rintro - l₃ rfl
      exact ⟨hsought.keeps, Or.inl ⟨rfl, hstill⟩⟩
    | false =>
      rw [if_neg Bool.false_ne_true]
      exact ⟨hsought.keeps, Or.inr ⟨rfl, hstill.gone (hsought.stranded rfl)⟩⟩

/-- `rePlanMapsFromNode` of a job that is gone. -/
theorem ok_rePlanMapsFromNode_gone (rounds : ℕ) (h : Gone job l) (node : CStr) :
    (rePlanMapsFromNode (recvResult rounds) job node).Ok jobSpec (fun x l' => Gone x.1 l') anyExit l := by
  unfold rePlanMapsFromNode
  rw [Prog.ok_bind]
  refine ⟨fun _ => ?_, ?_⟩
  · rcases h.still with hlost | ⟨-, hpending, -⟩
    · exact Or.inl ⟨hlost, rfl⟩
    · refine Or.inr fun r hr => ?_
      rw [hpending] at hr
      exact absurd hr List.not_mem_nil
  rintro - l₁ rfl
  -- from here on the job is late, which is all that is kept
  have hlate : (l.marked .replan).late = true := by simp [Talk.marked, h.stranded]
  have hmarked : Gone job (l.marked .replan) := by
    refine ⟨h.stranded, ?_⟩
    rcases h.still with hlost | hstill
    · exact Or.inl ⟨hlate, hlost.2⟩
    · exact Or.inr hstill
  have hkept : ∀ l r (x : Resp r) l', l.late = true → Turn l r x l' → l'.late = true :=
    fun l r x l' hl hturn => hturn.grows.1 hl
  rw [Prog.ok_ret, Prog.ok_bind]
  refine (Prog.ok_foldlM (K := fun _ (x : Job × Bool) l' => Gone x.1 l' ∧ l'.late = true)
    (List.range job.maps.length) ?_
    ⟨hmarked, hlate⟩).imp ?_
  · rintro - i - x l₂ - ⟨hgone, hlate₂⟩
    unfold rePlanByNode
    cases hm : x.1.maps[i]? with
    | none => exact ⟨hgone, hlate₂⟩
    | some m =>
      dsimp only
      split
      · have hundone : Gone { x.1 with mapsDone := x.1.mapsDone - 1 } l₂ := ⟨hgone.stranded, hgone.still⟩
        rw [Prog.ok_bind]
        exact ((ok_rePlanMap_gone (only_recvResult rounds) hundone hlate₂ i).and_keeps (I := fun l => l.late =
          true) hkept hlate₂)
      · exact ⟨hgone, hlate₂⟩
  · rintro x l₂ ⟨hgone, hlate₂⟩
    split
    · rw [Prog.ok_bind]
      refine ok_request (fun hnot => ?_) ?_
      · exact absurd (hlate₂.symm.trans hnot) (by decide)
      · rintro - l₃ rfl
        exact hgone
    · exact hgone

/-- **The maps of all fallen nodes are planned again.** -/
theorem ok_replanMaps (rounds : ℕ) (h : Settled job l) (nodes : List CStr) :
    (nodes.foldlM (replanMaps (recvResult rounds)) (job, true)).Ok jobSpec (fun x l' =>
      x.2 = true ∧ Settled x.1 l' ∧ job.Keeps x.1 ∨ x.2 = false ∧ Gone x.1 l') anyExit l := by
  refine Prog.ok_foldlM (K := fun _ (x : Job × Bool) l' => x.2 = true ∧ Settled x.1 l' ∧ job.Keeps x.1 ∨
    x.2 = false ∧ Gone x.1 l') nodes ?_ (Or.inl ⟨rfl, h, .refl job⟩)
  rintro - node - ⟨job₁, flag⟩ l₁ - (⟨rfl, hsettled, hkeeps⟩ | ⟨rfl, hgone⟩)
  · unfold replanMaps
    rw [Prog.ok_bind]
    refine (ok_rePlanMapsFromNode rounds hsettled node).imp ?_
    rintro x l₂ ⟨hkeeps', ⟨hx, hsettled'⟩ | ⟨hx, hgone⟩⟩
    · refine Or.inl ⟨?_, hsettled', hkeeps.trans hkeeps'⟩
      rw [hx, Bool.and_true]
    · refine Or.inr ⟨?_, hgone⟩
      rw [hx, Bool.and_false]
  · unfold replanMaps
    rw [Prog.ok_bind]
    refine (ok_rePlanMapsFromNode_gone rounds hgone node).imp fun x l₂ hgone' => ?_
    exact Or.inr ⟨Bool.false_and x.2, hgone'⟩

/-! ## `planMaps` -/

/-- A job as `CreateJob` makes it. -/
structure Job.New (job : Job) : Prop where
  files : ∀ file ∈ job.files, file.blocks = []
  maps : job.maps = []
  mapsDone : job.mapsDone = 0
  partialReduces : job.partialReduces = []
  temps : job.finalReduce.temps = []

theorem createJob_new (id : UInt16) (combiner : Bool) (resultFile : CStr) (paths : List CStr) :
    (createJob id combiner resultFile paths).New where
  files := by
    intro file hfile
    obtain ⟨path, -, rfl⟩ := List.mem_map.1 hfile
    rfl
  maps := rfl
  mapsDone := rfl
  partialReduces := rfl
  temps := rfl

/-- The files of a new job are known: none of their blocks has a map. -/
theorem atRest_new (h : job.New) {reply : List (List FsCopy)} (hsmall : reply.length < 2 ^ 16) (files : List File) :
    AtRest 0 (reply.map fun copies => copies.map FsCopy.copy) 0 { job with files }
      { Talk.start with blocks := reply } := by
  refine atRest_zero.2 ⟨?_, ?_, rfl⟩
  · simp only [h.maps, h.mapsDone]
    exact ⟨rfl, fun m hm => absurd hm (Multiset.notMem_zero m), rfl, rfl, fun _ _ => rfl, rfl⟩
  · simp only [h.maps]
    refine ⟨rfl, fun m hm => absurd hm List.not_mem_nil, ?_, hsmall, fun _ => rfl⟩
    rw [List.length_map, List.length_nil, Nat.zero_add]

/-- **Every block of the files is planned**, so there is an order out for each map. -/
theorem ok_planBlocks {blocks : List (List Copy)} (h : AtRest 0 blocks 0 job l)
    (hlen : l.pending.length = job.maps.length) :
    (blocks.foldlM mapPlanning job).Ok jobSpec (fun job' l' => AtRest 0 [] 0 job' l' ∧
      l'.pending.length = job'.maps.length ∧ job.Keeps job') anyExit l := by
  refine (Prog.ok_foldlM (K := fun done (job₁ : Job) l' => ∀ rest, done ++ rest = blocks →
    AtRest 0 rest 0 job₁ l' ∧ l'.pending.length = job₁.maps.length ∧ job.Keeps job₁) _ ?_ ?_).imp ?_
  · intro done copies rest job₁ l₂ hsplit hK
    obtain ⟨hrest, hlen, hkeeps⟩ := hK (copies :: rest) hsplit
    refine (ok_mapPlanning hrest hlen).imp ?_
    rintro job₂ l₃ ⟨hrest', hlen', hkeeps'⟩ rest' hsplit'
    have hsame : rest' = rest := by
      rw [← hsplit, List.append_assoc, List.append_cancel_left_eq, List.singleton_append, List.cons.injEq] at hsplit'
      exact hsplit'.2
    rw [hsame]
    exact ⟨hrest', hlen', hkeeps.trans hkeeps'⟩
  · rintro rest rfl
    exact ⟨h, hlen, .refl job⟩
  · intro job₁ l₂ hK
    exact hK [] (List.append_nil _)

/-- **As many results are received as maps were sent**, so all maps are done. -/
theorem ok_recvMaps (rounds : ℕ) (h : AtRest 0 [] 0 job l) (hlen : l.pending.length = job.maps.length) :
    ((List.range job.maps.length).foldlM (fun job _ => do
      let x ← recvResult rounds job
      pure x.1) job).Ok jobSpec (fun job' l' => Settled job' l' ∧ job.Keeps job') anyExit l := by
  refine (Prog.ok_foldlM (K := fun done (job₂ : Job) l' => AtRest 0 [] 0 job₂ l' ∧
    l'.pending.length + done.length = job.maps.length ∧ job.Keeps job₂) (List.range job.maps.length) ?_ ?_).imp ?_
  · rintro done n rest job₂ l₃ hsplit ⟨hrest₂, hlen₂, hkeeps₂⟩
    have hleft := congrArg List.length hsplit
    rw [List.length_append, List.length_cons, List.length_range] at hleft
    have hpending : l₃.pending ≠ [] := by
      intro hnil
      rw [hnil, List.length_nil] at hlen₂
      omega
    rw [Prog.ok_bind]
    refine (recvOk_recvResult rounds 0 job₂ l₃ hrest₂ hpending).imp ?_
    rintro x l₄ ⟨hrest₃, hless, hkeeps₃⟩
    refine ⟨hrest₃, ?_, hkeeps₂.trans hkeeps₃⟩
    rw [List.length_append, List.length_singleton]
    omega
  · exact ⟨h, hlen, .refl job⟩
  · rintro job₂ l₃ ⟨hrest₂, hlen₂, hkeeps₂⟩
    have hnone : l₃.pending = [] := by
      rw [List.length_range] at hlen₂
      exact List.length_eq_zero_iff.1 (by omega)
    exact ⟨⟨hrest₂, hnone⟩, hkeeps₂⟩

/-- **`planMaps`** returns with all maps done. -/
theorem ok_planMaps (rounds : ℕ) (h : job.New) :
    (planMaps (recvResult rounds) job).Ok jobSpec (fun job' l' => 2 ^ 16 ≤ l'.blocks.length ∨
      Settled job' l' ∧ job.Keeps job') anyExit .start := by
  unfold planMaps
  rw [Prog.ok_bind]
  refine (ok_requestBlocks_plan job.files h.files rfl).imp ?_
  rintro files l₁ ⟨reply, rfl, hblocks⟩
  by_cases hlarge : 2 ^ 16 ≤ reply.length
  · exact (ok_large hlarge _).imp fun _ _ hl => Or.inl hl
  have hnew := atRest_new h (Nat.lt_of_not_le hlarge) files.1
  dsimp only
  split
  · rw [Prog.ok_bind, hblocks]
    refine (ok_planBlocks hnew ?_).imp ?_
    · simp only [h.maps]
      rfl
    · rintro job₁ l₂ ⟨hrest, hlen, hkeeps⟩
      rw [Prog.ok_bind]
      refine (ok_recvMaps rounds hrest hlen).imp ?_
      rintro job₂ l₃ ⟨hsettled, hkeeps₂⟩
      rw [Prog.ok_bind]
      refine ok_request hsettled.balanced ?_
      rintro - l₄ rfl
      exact Or.inr ⟨hsettled, (⟨rfl, rfl, rfl⟩ : job.Keeps { job with files := files.1 }).trans (hkeeps.trans hkeeps₂)⟩
  · exact ok_notifFileUnavailable hnew.leaving

end Mdfs.MaRTA
