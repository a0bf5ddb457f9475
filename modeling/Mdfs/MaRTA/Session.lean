import Mdfs.Lib.Exchanges
import Mdfs.MaRTA.Coverage

/-!
# The session with a Job

What the thread of a job asks of the nodes, of the FileSystem and of the Job is a run of one
automaton (`Phase.next`), whatever the other jobs do. While it is `talking` it plans, orders
and receives. The session ends in one of three ways: the result was copied to the MDFS and
the Job is told so; the copy was refused, or a file is unavailable, and the Job is told that;
or the socket broke, and the Job is told nothing. After that the thread only takes its maps
off their nodes, and leaves.

* `talks_planJob`: planning goes on until the result is copied, or the session ends.
* `session_conforms`: the exchanges of every job are a run of the automaton.
* `told_ok`: a Job that is told that all is well has sent all results, the final reduce
  succeeded after everything else, and its result was copied.
-/

namespace Mdfs.MaRTA

open Lib

/-- How far a session has come. -/
inductive Phase
  | talking
  /-- The result of the job was copied to the MDFS. -/
  | copied (job : Job)
  /-- The MDFS refused to copy the result. -/
  | refused
  /-- The Job was told to end, or its socket broke. -/
  | ended
  | gone

/-- The requests that go on with a session. -/
def Req.isTalk : Req → Bool
  | .sendMap _ _ | .recv | .sendReduce _ _ _ | .copyFinal _ | .sendDie _ | .exit => false
  | .removeMapNode .free _ _ => false
  | _ => true

/-- **The automaton of a session.** -/
def Phase.next : Phase → (r : Req) → Resp r → Option Phase
  | .talking, .sendMap _ _, through => some (if through then .talking else .ended)
  | .talking, .sendReduce _ _ _, through => some (if through then .talking else .ended)
  | .talking, .recv, x => some (if x.isSome then .talking else .ended)
  | .talking, .copyFinal job, reply => some (if reply.result then .copied job
      else if reply.reason = COMMAND_RESULT_CANT_COPY then .refused else .talking)
  | .talking, .sendDie result, _ => if result = COMMAND_RESULT_FILEUNAVAILABLE then some .ended else none
  | .talking, r, _ => if r.isTalk then some .talking else none
  | .copied _, .sendDie result, _ => if result = COMMAND_RESULT_OK then some .ended else none
  | .refused, .sendDie result, _ => if result = COMMAND_RESULT_CANT_COPY then some .ended else none
  | .ended, .removeMapNode .free _ _, _ => some .ended
  | .ended, .exit, _ => some .gone
  | _, _, _ => none

abbrev Phase.step (ph : Phase) (x : Call Resp) : Option Phase := ph.next x.request x.answer

/-- The exits that leave. -/
def Exit.leaves : Exit → Bool
  | .died | .unavailable | .cantCopy => true
  | .crashed | .aborted | .unfinished => false

/-- A thread that has left is gone. -/
abbrev exits (e : Exit) (ph : Phase) : Prop := e.leaves = true → ph = .gone

def Req.tellsOk : Req → Bool
  | .sendDie result => result = COMMAND_RESULT_OK
  | _ => false

/-- **The specification of the planning**: the session as the automaton says, and the Job is not
told that all is well. -/
def talkSpec : Spec Resp Phase where
  pre ph r := (Spec.ofStep Phase.next).pre ph r ∧ r.tellsOk = false
  post := (Spec.ofStep Phase.next).post

variable {α β : Type} {Q : α → Phase → Prop} {r : Req} {job : Job} {ph : Phase}

/-! ## Talking -/

/-- A thread that goes on with the session. -/
abbrev Talks (p : JobProg α) : Prop := p.Ok talkSpec (fun _ ph => ph = .talking) exits .talking

theorem next_talking (h : r.isTalk = true) (x : Resp r) : Phase.talking.next r x = some .talking := by
  cases r with
  | sendMap | recv | sendReduce | copyFinal | sendDie | exit => cases h
  | removeMapNode site nodeName numBlock =>
    cases site with
    | free => cases h
    | _ => rfl
  | _ => rfl

theorem talks_request (h : r.isTalk = true) : Talks (request r) := by
  have htells : r.tellsOk = false := by
    cases r with
    | sendDie => cases h
    | _ => rfl
  refine ⟨⟨fun x => Option.isSome_of_mem (next_talking h x), htells⟩, fun x ph hx => ?_⟩
  have hx : Phase.talking.next r x = some ph := hx
  rw [next_talking h] at hx
  exact (Option.some.inj hx).symm

theorem talks_bind {p : JobProg α} {f : α → JobProg β} (hp : Talks p) (hf : ∀ a, Talks (f a)) : Talks (p >>= f) := by
  refine Prog.ok_bind.2 (hp.imp ?_)
  rintro a ph rfl
  exact hf a

theorem talks_iterate {f : β → JobProg Unit} (bs : List β) (hf : ∀ b, Talks (f b)) : Talks (Prog.iterate f bs) := by
  refine Prog.ok_iterate (K := fun _ (ph : Phase) => ph = .talking) bs ?_ rfl
  rintro done b rest ph - rfl
  exact hf b

theorem talks_foldlM {f : β → α → JobProg β} (as : List α) (b : β) (hf : ∀ b a, Talks (f b a)) :
    Talks (as.foldlM f b) := by
  refine Prog.ok_foldlM (K := fun _ _ (ph : Phase) => ph = .talking) as ?_ rfl
  rintro done a rest b ph - rfl
  exact hf b a

/-! ## The end of a session -/

/-- `freeJob`, when the session is over. -/
theorem ended_removeMaps (maps : List Map) :
    (removeMaps .free maps).Ok talkSpec (fun _ ph => ph = .ended) exits .ended := by
  refine Prog.ok_iterate (K := fun _ (ph : Phase) => ph = .ended) maps ?_ rfl
  rintro done map rest ph - rfl
  refine ⟨⟨fun _ => rfl, rfl⟩, fun x ph hx => ?_⟩
  exact (Option.some.inj hx).symm

theorem ended_leave {freed : Bool} (job : Job) (exit : Exit) :
    (leave job exit freed : JobProg α).Ok talkSpec Q exits .ended := by
  unfold leave
  rw [Prog.ok_bind]
  refine (ok_freeJob (ended_removeMaps job.maps) fun _ _ _ hleaves => by cases hleaves).imp ?_
  rintro - ph rfl
  rw [Prog.ok_bind]
  refine ⟨⟨fun _ => rfl, rfl⟩, fun x ph hx => ?_⟩
  exact fun _ => (Option.some.inj hx).symm

theorem talks_notifFileUnavailable {freed : Bool} (job : Job) :
    (notifFileUnavailable job freed : JobProg α).Ok talkSpec Q exits .talking := by
  unfold notifFileUnavailable
  rw [Prog.ok_bind]
  refine ⟨⟨fun _ => rfl, rfl⟩, fun x ph hx => ?_⟩
  obtain rfl := Option.some.inj hx
  exact ended_leave job .unavailable

/-- An order goes through, or the session is over. -/
theorem talks_notificarMap (site : Site) (job : Job) (map : Map) : Talks (notificarMap site job map) := by
  unfold notificarMap
  refine Prog.ok_bind.2 ⟨⟨fun _ => rfl, rfl⟩, fun through ph hx => ?_⟩
  obtain rfl := Option.some.inj hx
  cases through with
  | true => rfl
  | false => exact ended_leave job .died

theorem talks_notificarReduce (final : Bool) (job : Job) (reduce : Reduce) :
    Talks (notificarReduce final job reduce) := by
  unfold notificarReduce
  refine talks_bind (talks_request rfl) fun _ => ?_
  refine Prog.ok_bind.2 ⟨⟨fun _ => rfl, rfl⟩, fun through ph hx => ?_⟩
  obtain rfl := Option.some.inj hx
  cases through with
  | true => rfl
  | false => exact ended_leave job .died

/-! ## `MapPlanning.c` and `JobConnection.c` -/

theorem talks_requestBlocks (site : Site) (files : List File) : Talks (requestBlocks site files) := by
  refine talks_foldlM files _ fun x file => talks_bind ?_ fun y => rfl
  refine talks_bind (talks_request rfl) fun buffer => talks_bind ?_ fun _ => rfl
  exact talks_iterate (fileBlocksOf buffer) fun copies => talks_iterate copies fun c => talks_request rfl

theorem talks_mapPlanning (job : Job) (copies : List Copy) : Talks (mapPlanning job copies) := by
  unfold mapPlanning
  refine talks_bind (talks_request rfl) fun x => ?_
  rcases x with _ | ⟨n, numBlock⟩
  · exact talks_bind (talks_iterate job.maps fun map => talks_request rfl) fun _ => rfl
  · refine talks_bind (talks_request rfl) fun _ => talks_bind (talks_request rfl) fun node => ?_
    refine talks_bind (talks_request rfl) fun time => ?_
    exact talks_bind (talks_notificarMap .plan _ _) fun _ => rfl

variable {recv : Recv}

theorem talks_rePlanMap (hrecv : ∀ job, Talks (recv job)) (job : Job) (i : ℕ) : Talks (rePlanMap recv job i) := by
  unfold rePlanMap
  refine talks_bind (talks_requestBlocks .replan job.files) fun files => ?_
  dsimp only
  split
  · exact fun hleaves => by cases hleaves
  · refine talks_bind (talks_request rfl) fun x => ?_
    rcases x with _ | ⟨n, numBlock⟩
    · rfl
    · refine talks_bind (talks_request rfl) fun node => talks_bind (talks_request rfl) fun time => ?_
      refine talks_bind (talks_notificarMap .replan _ _) fun _ => ?_
      exact talks_bind (hrecv _) fun x => rfl

theorem talks_desserializeMapResult (hrecv : ∀ job, Talks (recv job)) (job : Job) (idMap : UInt16) (result : Bool) :
    Talks (desserializeMapResult recv job idMap result) := by
  unfold desserializeMapResult
  split
  · exact fun hleaves => by cases hleaves
  · split
    · exact fun hleaves => by cases hleaves
    · refine talks_bind (talks_request rfl) fun _ => ?_
      split
      · rfl
      · refine talks_bind (talks_request rfl) fun _ => talks_bind (talks_rePlanMap hrecv job _) fun x => ?_
        split
        · rfl
        · exact talks_notifFileUnavailable x.1

theorem talks_desserializaReduceResult (job : Job) (idReduce : UInt16) (failed : Option CStr) :
    Talks (desserializaReduceResult job idReduce failed) := by
  unfold desserializaReduceResult
  split
  · exact fun hleaves => by cases hleaves
  · refine talks_bind (talks_request rfl) fun _ => ?_
    cases failed with
    | none => rfl
    | some nodeID => exact talks_bind (talks_request rfl) fun _ => rfl

/-- **A result is received**, or the session is over. -/
theorem talks_recvResult (rounds : ℕ) : ∀ job, Talks (recvResult rounds job) := by
  induction rounds with
  | zero => exact fun job hleaves => by cases hleaves
  | succ rounds ih =>
    intro job
    unfold recvResult
    refine Prog.ok_bind.2 ⟨⟨fun _ => rfl, rfl⟩, fun x ph hx => ?_⟩
    obtain rfl := Option.some.inj hx
    rcases x with _ | (⟨idMap, result⟩ | ⟨idReduce, failed⟩)
    · exact ended_leave job .died
    · exact talks_bind (talks_desserializeMapResult ih job idMap result) fun job => rfl
    · exact talks_bind (talks_desserializaReduceResult job idReduce failed) fun nodeID => rfl

theorem talks_planMaps (hrecv : ∀ job, Talks (recv job)) (job : Job) : Talks (planMaps recv job) := by
  unfold planMaps
  refine talks_bind (talks_requestBlocks .plan job.files) fun files => ?_
  dsimp only
  split
  · refine talks_bind (talks_foldlM _ _ fun job copies => talks_mapPlanning job copies) fun job => ?_
    refine talks_bind (talks_foldlM _ _ fun job _ => talks_bind (hrecv job) fun x => rfl) fun job => ?_
    exact talks_bind (talks_request rfl) fun _ => rfl
  · exact talks_notifFileUnavailable _

/-! ## `ReducePlanning.c` -/

theorem talks_rePlanMapsFromNode (hrecv : ∀ job, Talks (recv job)) (job : Job) (node : CStr) :
    Talks (rePlanMapsFromNode recv job node) := by
  unfold rePlanMapsFromNode
  refine talks_bind (talks_request rfl) fun _ => talks_bind (talks_foldlM _ _ fun x i => ?_) fun x => ?_
  · unfold rePlanByNode
    split
    · rfl
    · split
      · exact talks_bind (talks_rePlanMap hrecv _ i) fun y => rfl
      · rfl
  · split
    · exact talks_bind (talks_request rfl) fun _ => rfl
    · rfl

/-- **The result of the final reduce**: the job is over only when its result was copied. -/
theorem talks_finishFinalReduce (hrecv : ∀ job, Talks (recv job)) (job : Job) :
    (finishFinalReduce recv job).Ok talkSpec (fun x ph => ph = if x.2 = none then .copied x.1 else .talking) exits
      .talking := by
  unfold finishFinalReduce
  rw [Prog.ok_bind]
  refine (hrecv job).imp ?_
  rintro ⟨job₁, fallenNode⟩ ph rfl
  cases fallenNode with
  | some name => rfl
  | none =>
    dsimp only
    unfold copyFinalTemporal
    rw [Prog.ok_bind, Prog.ok_bind]
    refine ⟨⟨fun _ => rfl, rfl⟩, fun reply ph hx => ?_⟩
    obtain rfl := Option.some.inj hx
    rw [Prog.ok_ret]
    obtain ⟨result, reason⟩ := reply
    cases result with
    | true => rfl
    | false =>
      by_cases hreason : reason = COMMAND_RESULT_CANT_COPY
      · subst hreason
        refine ⟨⟨fun _ => rfl, rfl⟩, fun x ph hx => ?_⟩
        obtain rfl := Option.some.inj hx
        exact ended_leave job₁ .cantCopy
      · have hnot : ¬(false = false ∧ reason = COMMAND_RESULT_CANT_COPY) := fun h => hreason h.2
        dsimp only
        rw [if_neg hnot, if_neg hreason]
        rfl

/-- A round is the last one when the result of the job was copied. -/
theorem talks_awaitFinalReduce (hrecv : ∀ job, Talks (recv job)) (clean : Job → Job) (job : Job) :
    (awaitFinalReduce recv clean job).Ok talkSpec (fun x ph => ph = if x.2 then .talking else .copied x.1) exits
      .talking := by
  unfold awaitFinalReduce
  rw [Prog.ok_bind]
  refine (talks_finishFinalReduce hrecv job).imp ?_
  rintro ⟨job₁, fallenNode⟩ ph rfl
  cases fallenNode with
  | none => rfl
  | some name =>
    dsimp only
    rw [Prog.ok_bind]
    refine (talks_rePlanMapsFromNode hrecv job₁ name).imp ?_
    rintro ⟨job₂, again⟩ ph rfl
    cases again with
    | true => rfl
    | false => exact talks_notifFileUnavailable job₂

theorem talks_planFinalReduce (job : Job) (node : NodeInfo) (temps : List Temp) :
    Talks (planFinalReduce job node temps) := by
  refine talks_bind (talks_request rfl) fun time => ?_
  exact talks_bind (talks_notificarReduce true _ _) fun _ => rfl

theorem talks_orderFinalReduce (freed : Bool) (job : Job) : Talks (orderFinalReduce freed job) := by
  unfold orderFinalReduce
  refine talks_bind (talks_request rfl) fun x => ?_
  cases x with
  | none => exact talks_notifFileUnavailable job
  | some n =>
    exact talks_bind (talks_request rfl) fun node => talks_planFinalReduce job node _

/-- **`noCombinerReducePlanning`** returns when the result of the job was copied. -/
theorem talks_noCombinerReducePlanning (hrecv : ∀ job, Talks (recv job)) (rounds : ℕ) : ∀ freed job,
    (noCombinerReducePlanning recv rounds freed job).Ok talkSpec (fun job' ph => ph = .copied job') exits .talking := by
  induction rounds with
  | zero => exact fun freed job hleaves => by cases hleaves
  | succ rounds ih =>
    intro freed job
    unfold noCombinerReducePlanning
    rw [Prog.ok_bind]
    refine (talks_orderFinalReduce freed job).imp ?_
    rintro job₁ ph rfl
    rw [Prog.ok_bind]
    refine (talks_awaitFinalReduce hrecv noCombinerClean job₁).imp ?_
    rintro ⟨job₂, again⟩ ph rfl
    cases again with
    | true => exact ih true job₂
    | false => rfl

theorem talks_combinerPartialsReducePlanning (job : Job) : Talks (combinerPartialsReducePlanning job) := by
  unfold combinerPartialsReducePlanning
  refine talks_bind (talks_foldlM _ _ fun reduces map => ?_) fun reduces => ?_
  · unfold agregarAPartialReduces
    split
    · rfl
    · exact talks_bind (talks_request rfl) fun time => rfl
  · exact talks_bind (talks_iterate _ fun reduce => talks_notificarReduce false _ reduce) fun _ => rfl

theorem talks_combinerFinalReducePlanning (job : Job) : Talks (combinerFinalReducePlanning job) := by
  unfold combinerFinalReducePlanning
  exact talks_bind (talks_request rfl) fun node => talks_planFinalReduce job node _

theorem talks_partialRounds (hrecv : ∀ job, Talks (recv job)) (rounds : ℕ) : ∀ job,
    Talks (partialRounds recv rounds job) := by
  induction rounds with
  | zero => exact fun job hleaves => by cases hleaves
  | succ rounds ih =>
    intro job
    unfold partialRounds
    refine talks_bind (talks_combinerPartialsReducePlanning job) fun job => ?_
    refine talks_bind (talks_foldlM _ _ fun x n => talks_bind (hrecv x.1) fun y => rfl) fun x => ?_
    split
    · rfl
    · refine talks_bind (talks_foldlM _ _ fun x node => ?_) fun y => ?_
      · exact talks_bind (talks_rePlanMapsFromNode hrecv x.1 node) fun y => rfl
      · split
        · exact ih _
        · exact talks_notifFileUnavailable y.1

/-- **`combinerReducePlanning`** returns when the result of the job was copied. -/
theorem talks_combinerReducePlanning (hrecv : ∀ job, Talks (recv job)) (partials rounds : ℕ) : ∀ job,
    (combinerReducePlanning recv partials rounds job).Ok talkSpec (fun job' ph => ph = .copied job')
      exits .talking := by
  induction rounds with
  | zero => exact fun job hleaves => by cases hleaves
  | succ rounds ih =>
    intro job
    unfold combinerReducePlanning
    rw [Prog.ok_bind]
    refine (talks_partialRounds hrecv partials job).imp ?_
    rintro job₁ ph rfl
    rw [Prog.ok_bind]
    refine (talks_combinerFinalReducePlanning job₁).imp ?_
    rintro job₂ ph rfl
    rw [Prog.ok_bind]
    refine (talks_awaitFinalReduce hrecv combinerClean job₂).imp ?_
    rintro ⟨job₃, again⟩ ph rfl
    cases again with
    | true => exact ih job₃
    | false => rfl

/-- **The planning of a job** returns when its result was copied. -/
theorem talks_planJob (rounds : ℕ) (job : Job) :
    (planJob rounds job).Ok talkSpec (fun job' ph => ph = .copied job') exits .talking := by
  unfold planJob
  rw [Prog.ok_bind]
  refine (talks_planMaps (talks_recvResult rounds) job).imp ?_
  rintro job₁ ph rfl
  split
  · exact talks_combinerReducePlanning (talks_recvResult rounds) rounds rounds job₁
  · exact talks_noCombinerReducePlanning (talks_recvResult rounds) rounds false job₁

/-! ## The whole session -/

/-- **The specification of a whole session**: the automaton and the accounts of the job, and a
Job is told that all is well when its job is over. -/
def closingSpec : Spec Resp (Talk × Phase) where
  pre s r := (jobSpec.prod (Spec.ofStep Phase.next)).pre s r ∧ (r.tellsOk = true →
    ∃ job, s.2 = .copied job ∧ (2 ^ 16 ≤ s.1.blocks.length ∨ Settled job s.1 ∧ Closed job s.1))
  post := (jobSpec.prod (Spec.ofStep Phase.next)).post

/-- A program that does not tell that all is well. -/
theorem closing_of_ok {p : JobProg α} {Q' : α → Talk → Prop} {l : Talk} (h : p.Ok jobSpec Q' anyExit l)
    (hp : p.Ok talkSpec Q exits ph) :
    p.Ok closingSpec (fun a s => Q' a s.1 ∧ Q a s.2) (fun e s => exits e s.2) (l, ph) := by
  have hpre : ∀ s r, (jobSpec.prod talkSpec).pre s r → closingSpec.pre s r := by
    rintro s r ⟨hjob, hnext, htells⟩
    refine ⟨⟨hjob, hnext⟩, fun hnot => ?_⟩
    rw [htells] at hnot
    cases hnot
  have hpost : ∀ s r (x : Resp r) t, closingSpec.post s r x t → (jobSpec.prod talkSpec).post s r x t :=
    fun _ _ _ _ h => h
  exact Prog.ok_mono (fun _ _ h => h) (fun _ _ h => h.2) (Prog.Ok.of_spec hpre hpost (h.prod hp))

/-- What follows the packet that ends a job. -/
theorem ended_freeJob (job : Job) : (do freeJob job; request .exit : JobProg Unit).Ok talkSpec
    (fun _ ph => ph = .gone) exits .ended := by
  rw [Prog.ok_bind]
  refine (ok_freeJob (ended_removeMaps job.maps) fun hfreed => by cases hfreed).imp ?_
  rintro - ph rfl
  refine ⟨⟨fun _ => rfl, rfl⟩, fun x ph hx => ?_⟩
  exact (Option.some.inj hx).symm

/-- **`acceptJob`** keeps to the session. -/
theorem closing_acceptJob (rounds : ℕ) (h : job.New) :
    (acceptJob rounds job).Ok closingSpec (fun _ s => s.2 = .gone) (fun e s => exits e s.2) (.start, .talking) := by
  unfold acceptJob
  rw [Prog.ok_bind]
  refine (closing_of_ok (ok_planJob rounds h) (talks_planJob rounds job)).imp ?_
  rintro job₁ ⟨l, ph⟩ ⟨hclosing, rfl⟩
  have hfinish : (finishJob job₁).Ok jobSpec (fun _ _ => True) anyExit l := by
    rcases hclosing with hlarge | ⟨hsettled, -⟩
    · exact (ok_large hlarge _).imp fun _ _ _ => trivial
    · exact ok_finishJob hsettled
  unfold finishJob at hfinish ⊢
  rw [Prog.ok_bind] at hfinish ⊢
  refine ⟨⟨⟨hfinish.1, fun _ => rfl⟩, fun _ => ⟨job₁, rfl, hclosing⟩⟩, ?_⟩
  rintro x ⟨l₁, ph₁⟩ ⟨hsame, hclosing₁⟩
  obtain rfl := Option.some.inj hclosing₁
  have hfree : (do freeJob job₁; request .exit : JobProg Unit).Ok jobSpec (fun _ _ => True) anyExit l₁ :=
    hfinish.2 x l₁ hsame
  exact (closing_of_ok hfree (ended_freeJob job₁)).imp fun _ s hs => hs.2

/-- **Every step keeps the sessions and the nodes together.** -/
theorem closing_rule : Pool.Rule (fun _ => closingSpec) (fun w g => Tied w fun t => (g t).1)
    serve fun _ _ _ _ => True := by
  rintro t w g r c x u htied ⟨⟨-, hnext⟩, -⟩ - hs
  obtain ⟨hturn, -, htied'⟩ := serve_turn htied hs
  obtain ⟨ph, hph⟩ := Option.isSome_iff_exists.1 (hnext x)
  refine ⟨(u.talk t, ph), ⟨hturn, hph⟩, ?_⟩
  have hfirst : (fun t' => (Function.update g t (u.talk t, ph) t').1) = Function.update (fun t => (g t).1)
    t (u.talk t) :=
    Function.comp_update Prod.fst g t _
  show Tied u fun t' => (Function.update g t (u.talk t, ph) t').1
  rw [hfirst]
  exact htied'

theorem marta_closing (rounds : ℕ) (jobs : List Submission) :
    (marta rounds jobs).Held (fun _ => closingSpec) (fun _ _ s => s.2 = .gone) (fun _ e s => exits e s.2)
      (fun w g => Tied w fun t => (g t).1) fun _ => (.start, .talking) := by
  refine ⟨tied_start, fun t p hp => ?_⟩
  obtain ⟨x, -, rfl⟩ := List.mem_map.1 (List.mem_of_getElem? hp)
  exact closing_acceptJob rounds (createJob_new ..)

/-- What every run keeps of its sessions. -/
theorem closing_run {rounds : ℕ} {jobs : List Submission} {es : List (ℕ × Choice)} {P : Pool Resp Exit Unit World}
    (hrun : run (Pool.step serve) (marta rounds jobs) es = some P) :
    ∃ g, P.Held (fun _ => closingSpec) (fun _ _ s => s.2 = .gone) (fun _ e s => exits e s.2)
      (fun w g => Tied w fun t => (g t).1) g ∧
      ∀ t, run Phase.step .talking (Pool.exchanges serve t (marta rounds jobs) es) = some (g t).2 := by
  obtain ⟨g, hheld, htrace⟩ := Pool.trace_run closing_rule (marta_closing rounds jobs) Pool.along_meets_true hrun
  refine ⟨g, hheld, fun t => ?_⟩
  have hpre : ∀ s r, closingSpec.pre s r → (jobSpec.prod (Spec.ofStep Phase.next)).pre s r := fun _ _ h => h.1
  exact ((htrace t).mono hpre fun _ _ _ _ h => h).snd.run_eq

/-! ## What a session is -/

/-- The requests of a thread whose session is over. -/
def Req.frees : Req → Bool
  | .removeMapNode .free _ _ | .exit => true
  | _ => false

def Req.copies : Req → Bool
  | .copyFinal _ => true
  | _ => false

def Req.isDie : Req → Bool
  | .sendDie _ => true
  | _ => false

variable {xs : List (Call Resp)} {x : Call Resp} {ph' : Phase}

theorem Phase.ended_frees (h : Phase.ended.step x = some ph) : x.request.frees = true ∧ (ph = .ended ∨ ph = .gone) := by
  obtain ⟨r, a⟩ := x
  cases r with
  | removeMapNode site nodeName numBlock =>
    cases site with
    | free => exact ⟨rfl, .inl (Option.some.inj h).symm⟩
    | _ => cases h
  | exit => exact ⟨rfl, .inr (Option.some.inj h).symm⟩
  | _ => cases h

theorem Phase.gone_step : Phase.gone.step x = none := by
  obtain ⟨r, a⟩ := x
  cases r <;> rfl

/-- **After its end** a session only frees. -/
theorem Phase.frees_of_ended (h : run Phase.step ph xs = some ph') (hph : ph = .ended ∨ ph = .gone) :
    ∀ x ∈ xs, x.request.frees = true := by
  induction xs generalizing ph with
  | nil => exact fun x hx => absurd hx List.not_mem_nil
  | cons y xs ih =>
    obtain ⟨ph₁, hstep, hrest⟩ := run_cons.1 h
    rcases hph with rfl | rfl
    · obtain ⟨hfrees, hph₁⟩ := Phase.ended_frees hstep
      exact List.forall_mem_cons.2 ⟨hfrees, ih hrest hph₁⟩
    · rw [Phase.gone_step] at hstep
      cases hstep

/-- The end of a session. -/
theorem Phase.ended_of_die (h : ph.step x = some ph') (hdie : x.request.isDie = true) : ph' = .ended := by
  obtain ⟨r, a⟩ := x
  cases r with
  | sendDie result =>
    cases ph with
    | ended | gone => cases h
    | _ =>
      obtain ⟨-, hclosing⟩ : _ ∧ Phase.ended = ph' := by simpa [Phase.step, Phase.next] using h
      exact hclosing.symm
  | _ => cases hdie

/-- Only a copy makes a session one whose result was copied. -/
theorem Phase.next_ne_copied (hr : r.copies = false) (x : Resp r) : ph.next r x ≠ some (.copied job) := by
  intro h
  unfold Phase.next at h
  split at h
  case h_4 => cases hr
  -- the other requests go on talking, end the session or have no place in it
  all_goals first
    | cases h
    | split at h
      · cases h
      · cases h

/-- A result was copied last. -/
theorem Phase.copied_last (h : run Phase.step .talking xs = some (.copied job)) :
    ∃ before reply, xs = before ++ [⟨.copyFinal job, reply⟩] ∧ reply.result = true := by
  rcases List.eq_nil_or_concat xs with rfl | ⟨before, ⟨r, a⟩, rfl⟩
  · cases h
  rw [List.concat_eq_append] at h ⊢
  obtain ⟨ph, -, hlast⟩ := run_append.1 h
  obtain ⟨ph', hstep, hnil⟩ := run_cons.1 hlast
  obtain rfl := Option.some.inj hnil
  refine ⟨before, ?_⟩
  cases r with
  | copyFinal job' =>
    cases ph with
    | talking =>
      have hcopied := Option.some.inj hstep
      by_cases hresult : a.result = true
      · rw [if_pos hresult, Phase.copied.injEq] at hcopied
        subst hcopied
        exact ⟨a, rfl, hresult⟩
      · rw [if_neg hresult] at hcopied
        split at hcopied
        · cases hcopied
        · cases hcopied
    | _ => cases hstep
  | _ => exact absurd hstep (Phase.next_ne_copied rfl a)

/-- **Every session is one of the automaton.** In every run of any jobs, whatever the other jobs do, what the thread
of a job has asked and been answered is a run of the session automaton, which has come to its end when the thread has
returned or has left; and after the Job was told to end nothing is sent to it or received from it. -/
theorem session_conforms (rounds : ℕ) (jobs : List Submission) (t : ℕ) (es : List (ℕ × Choice))
    (P : Pool Resp Exit Unit World) (hrun : run (Pool.step serve) (marta rounds jobs) es = some P) :
    ∃ ph, run Phase.step .talking (Pool.exchanges serve t (marta rounds jobs) es) = some ph ∧
      (P.threads[t]? = some (.ret ()) → ph = .gone) ∧
      (∀ e, P.threads[t]? = some (.stop e) → e.leaves = true → ph = .gone) ∧
      ∀ before x after, Pool.exchanges serve t (marta rounds jobs) es = before ++ x :: after → x.request.isDie = true →
        ∀ y ∈ after, y.request.frees = true := by
  obtain ⟨g, ⟨-, hheld⟩, hruns⟩ := closing_run hrun
  refine ⟨(g t).2, hruns t, fun hret => hheld t _ hret, fun e hstop => hheld t _ hstop, ?_⟩
  intro before x after hsplit hdie
  have hwhole := hruns t
  rw [hsplit] at hwhole
  obtain ⟨ph₁, -, hrest⟩ := run_append.1 hwhole
  obtain ⟨ph₂, hstep, hafter⟩ := run_cons.1 hrest
  exact Phase.frees_of_ended hafter (.inl (Phase.ended_of_die hstep hdie))

/-- What is decided until the result of a job is copied. -/
def copyOne : List Choice := planOne ++ reduceOne ++ [.done, .answer 0 none, .done, .copied ⟨true, 0⟩]

theorem session_conforms_one : ∃ P,
    run (Pool.step serve) (marta 1 [oneFile 1]) ((copyOne ++ List.replicate 3 Choice.done).map (Prod.mk 0)) = some P ∧
    run Phase.step .talking (Pool.exchanges serve 0 (marta 1 [oneFile 1])
      ((copyOne ++ List.replicate 3 Choice.done).map (Prod.mk 0))) = some .gone := by
  obtain ⟨P, hP, p, hp, hreturned⟩ :
    ∃ P ∈ run (Pool.step serve) (marta 1 [oneFile 1]) ((copyOne ++ List.replicate 3 Choice.done).map (Prod.mk 0)),
      ∃ p ∈ P.threads[0]?, p.returned = true := by
    decide +kernel
  obtain ⟨⟨⟩, rfl⟩ := Prog.returned_iff.1 hreturned
  obtain ⟨ph, hph, hgone, -⟩ := session_conforms 1 _ 0 _ P hP
  exact ⟨P, hP, hgone hp ▸ hph⟩

/-- **A Job that is told that all is well.** In every run of any jobs, where a Job is told so its result was just copied
to the MDFS. When 16 bits can count its blocks, no order is without an answer, the counts are those of its
orders, and the last order was the final reduce and the last result its success; and when no block was skipped, that
reduce covers every block. -/
theorem told_ok (rounds : ℕ) (jobs : List Submission) (t : ℕ) (es : List (ℕ × Choice)) (P : Pool Resp Exit Unit World)
    (hrun : run (Pool.step serve) (marta rounds jobs) es = some P) (ht : P.At t (.sendDie COMMAND_RESULT_OK)) :
    ∃ job before reply, Pool.exchanges serve t (marta rounds jobs) es = before ++ [⟨.copyFinal job, reply⟩] ∧
      reply.result = true ∧ ((P.state.talk t).blocks.length < 2 ^ 16 → (P.state.talk t).pending = [] ∧
        Balanced (P.state.talk t) job ∧ Closed job (P.state.talk t)) := by
  obtain ⟨g, ⟨htied, hheld⟩, hruns⟩ := closing_run hrun
  obtain ⟨k, hk⟩ := ht
  obtain ⟨⟨-, htells⟩, -⟩ := hheld t _ hk
  obtain ⟨job, hcopied, hclosing⟩ := htells rfl
  have hwhole := hruns t
  rw [hcopied] at hwhole
  obtain ⟨before, reply, hlast, hresult⟩ := Phase.copied_last hwhole
  refine ⟨job, before, reply, hlast, hresult, fun hsmall => ?_⟩
  rw [htied.talk] at hsmall ⊢
  have hsmall : (g t).1.blocks.length < 2 ^ 16 := hsmall
  rcases hclosing with hlarge | ⟨hsettled, hclosed⟩
  · omega
  · exact ⟨hsettled.pending, hsettled.reducing.balanced, hclosed⟩

theorem Req.tellsOk_eq {r : Req} (h : r.tellsOk = true) : r = .sendDie COMMAND_RESULT_OK := by
  cases r with
  | sendDie result => rw [of_decide_eq_true h]
  | _ => cases h

theorem told_ok_one : ∃ P job,
    run (Pool.step serve) (marta 1 [oneFile 1]) (copyOne.map (Prod.mk 0)) = some P ∧
      P.At 0 (.sendDie COMMAND_RESULT_OK) ∧ (P.state.talk 0).pending = [] ∧ Closed job (P.state.talk 0) := by
  obtain ⟨P, hP, hblocks, r, hr, htells⟩ :
      ∃ P ∈ run (Pool.step serve) (marta 1 [oneFile 1]) (copyOne.map (Prod.mk 0)),
        (P.state.talk 0).blocks.length < 2 ^ 16 ∧ ∃ r ∈ P.asked 0, r.tellsOk = true := by
    decide +kernel
  have ht : P.At 0 (.sendDie COMMAND_RESULT_OK) := Req.tellsOk_eq htells ▸ Pool.at_of_asked hr
  obtain ⟨job, -, -, -, -, hclosed⟩ := told_ok 1 _ 0 _ P hP ht
  obtain ⟨hpending, -, hclosed⟩ := hclosed hblocks
  exact ⟨P, job, hP, ht, hpending, hclosed⟩

end Mdfs.MaRTA
