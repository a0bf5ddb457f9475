import Mdfs.Lib.Trace
import Mdfs.Nodo.Reduce
import Mathlib.Data.List.Forall2

/-!
# The replies of a node to its reduces

`connections_job_deserializeReduce` of `connections_job.c` behind the decoding: a thread is
started for each temp to get, unless one has failed, and adds its part to a list as it ends;
the parts are joined in a file, and a shell is to start the routine on it.

A reply that says no names the node of a temp that was not got, or else the node itself,
and the name that was sent is freed: the copy of a thread, or `node_config->name`.

* `fetched`: what is known of the temps at the end of any schedule of the threads.
* `replies_truthful`: the replies to a sequence of reduces are true, exactly if only the last
  fails for another reason than a temp, and no reply says ok without a reason to: `system`
  returns what the shell makes of its commands, also where it cannot start the routine.
-/

namespace Mdfs.Nodo

open Lib Wire

/-! ## The threads -/

/-- What happens while temps are got: `runOperations` comes to the next operation, with a new
thread, without one, or after a failure; the `i`-th thread ends, with a part or with none. -/
inductive FetchEvent
  | create
  | createFails
  | skip
  | finish (i : ℕ) (part : Option CStr)
  deriving DecidableEq

/-- The variables of the threads: the operations still to come, those of the threads that run,
the parts, each with its operation, in the order of `list_add`, and the two for a failure. -/
structure Fetch where
  getTmpFileOperations : List GetTmpFileOperation
  threads : List GetTmpFileOperation
  tmpFileParts : List (GetTmpFileOperation × Option CStr)
  failed : Bool
  nodeIdFailed : Option CStr
  deriving DecidableEq

def Fetch.start (getTmpFileOperations : List GetTmpFileOperation) : Fetch := ⟨getTmpFileOperations, [], [], false, none⟩

/-- `addPartToList`. -/
def Fetch.addPartToList (f : Fetch) (part : Option CStr) (operation : GetTmpFileOperation) : Fetch :=
  { f with
    tmpFileParts := f.tmpFileParts ++ [(operation, part)]
    failed := f.failed || part.isNone
    nodeIdFailed := if part.isNone then some operation.nodeId else f.nodeIdFailed }

/-- One event; `none` when it cannot happen. -/
def Fetch.step (f : Fetch) : FetchEvent → Option Fetch
  | .create =>
    match f.getTmpFileOperations with
    | operation :: operations =>
      if f.failed then none
      else some { f with getTmpFileOperations := operations, threads := f.threads ++ [operation] }
    | [] => none
  | .createFails =>
    match f.getTmpFileOperations with
    | _ :: operations => if f.failed then none else some { f with getTmpFileOperations := operations, failed := true }
    | [] => none
  | .skip =>
    match f.getTmpFileOperations with
    | _ :: operations => if f.failed then some { f with getTmpFileOperations := operations } else none
    | [] => none
  | .finish i part =>
    match f.threads[i]? with
    | some operation => some ({ f with threads := f.threads.eraseIdx i }.addPartToList part operation)
    | none => none

/-- The threads from `list_iterate` to the last `pthread_join`; `none` for a schedule that
cannot happen, or has not come to its end. -/
def getTmpFiles (getTmpFileOperations : List GetTmpFileOperation) (schedule : List FetchEvent) : Option Fetch :=
  match run Fetch.step (Fetch.start getTmpFileOperations) schedule with
  | some f => if f.getTmpFileOperations = [] ∧ f.threads = [] then some f else none
  | none => none

/-! ## A request -/

/-- A reduce as it is decoded, and what happens while it is served: the schedule of its
threads, whether the file of a temp used in place is there, what
`node_createTmpFileFromStringList` and `node_createExecutableFileFromString` come to, what
`system` returns, and whether the shell that it runs started the routine, on the temps. -/
structure ReduceRequest where
  temps : List GetTmpFileOperation
  schedule : List FetchEvent
  tmpFileExists : Bool
  joined : Bool
  fileCreated : Bool
  system : ℤ
  started : Bool
  -- the lengths that a packet can carry
  countTemps_lt : temps.length < 2 ^ 16
  nodeId_lt : ∀ temp ∈ temps, temp.nodeId.length < 2 ^ 16

/-- The operations of a request, as its loop leaves them. -/
def operationsOf (name : CStr) (temps : List GetTmpFileOperation) : Operations :=
  temps.foldl (Operations.addTemp name temps.length.toUInt16) ⟨none, []⟩

/-- `node_executeReduceRutine`, which does not look at whether the routine could be written,
nor at the status of the shell. -/
def nodeExecuteReduceRutine (r : ReduceRequest) : Bool := r.system ≠ -1

theorem nodeExecuteReduceRutine_eq_true {r : ReduceRequest} : nodeExecuteReduceRutine r = true ↔ r.system ≠ -1 := by
  simp [nodeExecuteReduceRutine]

theorem nodeExecuteReduceRutine_eq_false {r : ReduceRequest} : nodeExecuteReduceRutine r = false ↔ r.system = -1 := by
  simp [nodeExecuteReduceRutine]

/-- The node's `tmpFileNameToReduce`, if it has one, and `nodeIdFailed`. -/
def tmpFileToReduce (name : CStr) (r : ReduceRequest) : Option (Bool × Option CStr) :=
  if (operationsOf name r.temps).tmpFileNameToReduce.isSome then some (true, none)
  else (getTmpFiles (operationsOf name r.temps).getTmpFileOperations r.schedule).map fun f =>
    (!f.failed && r.joined, f.nodeIdFailed)

/-- A reduce in a node with `node_config->name` at `name`, which has no contents once it is
freed: the reply, and the name after it. -/
def replyReduce (name : Option CStr) (r : ReduceRequest) : Option (Packet × Option CStr) :=
  (tmpFileToReduce (name.getD []) r).map fun x =>
    let ok := x.1 && nodeExecuteReduceRutine r
    -- without another name, the one that is sent and freed is that of the node
    (reduceReply (name.getD []) ok x.2, if !ok && x.2.isNone then none else name)

/-- One request after the other: the name before each, and its reply. -/
def replyReduces : Option CStr → List ReduceRequest → Option (List (Option CStr × Packet))
  | _, [] => some []
  | name, r :: rs =>
    match replyReduce name r with
    | some x => (replyReduces x.2 rs).map fun log => (name, x.1) :: log
    | none => none

/-! ## What the replies should say -/

/-- A single temp of the node itself, which it reduces in place. -/
def Own (name : CStr) (temps : List GetTmpFileOperation) : Prop := ∃ temp, temps = [temp] ∧ name = temp.nodeId

/-- **Every temp was obtained**: it is there, or each was got by a thread. -/
structure Obtained (name : CStr) (r : ReduceRequest) : Prop where
  own : Own name r.temps → r.tmpFileExists = true
  others : ¬Own name r.temps → ∃ f, getTmpFiles r.temps r.schedule = some f ∧
    (f.tmpFileParts.map Prod.fst).Perm r.temps ∧ ∀ x ∈ f.tmpFileParts, x.2.isSome = true

/-- A temp of the node `n` was not obtained. -/
def NotObtained (r : ReduceRequest) (n : CStr) : Prop := ∃ f operation, getTmpFiles r.temps r.schedule = some f ∧
  operation ∈ r.temps ∧ (operation, none) ∈ f.tmpFileParts ∧ operation.nodeId = n

/-- The routine of the request was written, and the shell started it. -/
def ReduceRequest.routineStarted (r : ReduceRequest) : Bool := r.fileCreated && r.started

/-- **A true reply**, of the node configured with `name`, to a request before which it has the
name `before`. -/
structure Truthful (name : CStr) (r : ReduceRequest) (before : Option CStr) (reply : Packet) : Prop where
  kept : before = some name
  ok : reply.head? = some 1 → Obtained name r ∧ r.routineStarted = true
  failed : reply.head? ≠ some 1 → ∃ n : CStr, reply = [0] ++ be16 n.length.toUInt16 ++ n ∧ n.length < 2 ^ 16 ∧
    (n = name ∨ NotObtained r n)

/-- A thread ends without a part. -/
def FetchEvent.GaveNothing (x : FetchEvent) : Prop := ∃ i, x = .finish i none

/-- **A failure that no temp explains**: all the threads that were started got their part, and
one could not be started, or the file or `system` failed. -/
def Unexplained (name : CStr) (r : ReduceRequest) : Prop :=
  (¬Own name r.temps → (∀ x ∈ r.schedule, ¬x.GaveNothing) ∧
    (FetchEvent.createFails ∈ r.schedule ∨ r.joined = false ∨ r.system = -1)) ∧
    (Own name r.temps → r.system = -1)

/-- **A success with no reason to it**: `system` ran a shell, but the temp used in place is not
there, or the routine could not be written, or the shell did not start it. -/
def Unfounded (name : CStr) (r : ReduceRequest) : Prop := r.system ≠ -1 ∧
  (¬Own name r.temps → (∀ x ∈ r.schedule, ¬x.GaveNothing) ∧ FetchEvent.createFails ∉ r.schedule ∧ r.joined = true ∧
    r.routineStarted = false) ∧
  (Own name r.temps → r.tmpFileExists = false ∨ r.routineStarted = false)

/-! ## Decoding -/

/-- The name in a temp that is decoded fits in 16 bits. -/
theorem nodeId_lt_of_readTemp {temp : GetTmpFileOperation} {s left : List UInt8}
    (h : readTemp.run s = some (temp, left)) : temp.nodeId.length < 2 ^ 16 := by
  unfold readTemp at h
  rw [StateT.run_bind] at h
  obtain ⟨⟨nodeId, t⟩, hid, hrun⟩ := Option.bind_eq_some_iff.1 h
  simp only [StateT.run_bind, Option.bind_eq_bind, Option.bind_eq_some_iff] at hrun
  obtain ⟨_, -, _, -, _, -, hpure⟩ := hrun
  cases hpure
  have hlt := length_prefixed16 hid
  have hle : (upToNul nodeId).length ≤ nodeId.length := (List.takeWhile_sublist _).length_le
  exact lt_of_le_of_lt hle hlt

/-- **What is decoded is a request**: its temps can be counted and its names too, and the
operations are those of its temps. -/
theorem decoded_request {name : CStr} {buffer : Packet} {order : ReduceOrder}
    (h : connectionsJobDeserializeReduce name buffer = some order) : order.temps.length < 2 ^ 16 ∧
      (∀ temp ∈ order.temps, temp.nodeId.length < 2 ^ 16) ∧ order.operations = operationsOf name order.temps := by
  obtain ⟨⟨decoded, left⟩, hrun, rfl : decoded = order⟩ := Option.map_eq_some_iff.1 h
  unfold readReduce at hrun
  simp only [StateT.run_bind, Option.bind_eq_bind, Option.bind_eq_some_iff] at hrun
  obtain ⟨_, -, _, -, _, -, ⟨count, _⟩, -, ⟨x, _⟩, hloop, hpure⟩ := hrun
  cases hpure
  -- after `n` rounds there are `n` temps
  have hI := foldlM_inv (I := fun n (x : List GetTmpFileOperation × Operations) => x.1.length = n ∧
      (∀ temp ∈ x.1, temp.nodeId.length < 2 ^ 16) ∧ x.2 = x.1.foldl (Operations.addTemp name count) ⟨none, []⟩)
    ?_ (n := 0) ⟨rfl, by simp, rfl⟩ hloop
  · obtain ⟨hlen, hshort, hops⟩ := hI
    rw [Nat.zero_add, List.length_range] at hlen
    refine ⟨hlen ▸ count.toNat_lt, hshort, ?_⟩
    have hcount : x.1.length.toUInt16 = count := by
      rw [hlen]
      exact UInt16.ofNat_toNat
    rw [operationsOf, hcount]
    exact hops
  · rintro n ⟨temps, operations⟩ i s ⟨temps', operations'⟩ s' ⟨hlen, hshort, hops⟩ hround
    unfold readRound at hround
    rw [StateT.run_bind] at hround
    obtain ⟨⟨temp, t⟩, htemp, hpure⟩ := Option.bind_eq_some_iff.1 hround
    cases hpure
    refine ⟨by simpa using hlen, ?_, ?_⟩
    · intro other hother
      obtain hother | hother := List.mem_append.1 hother
      · exact hshort other hother
      · rw [List.mem_singleton] at hother
        rw [hother]
        exact nodeId_lt_of_readTemp htemp
    · rw [List.foldl_append, ← hops]
      rfl

/-! ## Schedules -/

variable {f g : Fetch} {x : FetchEvent} {done schedule : List FetchEvent} {operations : List GetTmpFileOperation}

/-- **What an event can do.** -/
theorem Fetch.step_cases (h : f.step x = some g) :
    (∃ operation operations, f.getTmpFileOperations = operation :: operations ∧
      ((x = .create ∧ f.failed = false ∧
          g = { f with getTmpFileOperations := operations, threads := f.threads ++ [operation] }) ∨
        (x = .createFails ∧ f.failed = false ∧ g = { f with getTmpFileOperations := operations, failed := true }) ∨
        (x = .skip ∧ f.failed = true ∧ g = { f with getTmpFileOperations := operations }))) ∨
      ∃ i part operation, x = .finish i part ∧ f.threads[i]? = some operation ∧
        g = { f with threads := f.threads.eraseIdx i }.addPartToList part operation := by
  cases x with
  | finish i part =>
    right
    cases hthread : f.threads[i]? with
    | none => simp [Fetch.step, hthread] at h
    | some operation =>
      simp only [Fetch.step, hthread, Option.some.injEq] at h
      exact ⟨i, part, operation, rfl, hthread, h.symm⟩
  | _ =>
    left
    cases hops : f.getTmpFileOperations with
    | nil => simp [Fetch.step, hops] at h
    | cons operation operations =>
      refine ⟨operation, operations, rfl, ?_⟩
      cases hfailed : f.failed <;> simp_all [Fetch.step]

/-- **What is known of the temps** after the events `done`. -/
structure Fetched (operations : List GetTmpFileOperation) (done : List FetchEvent) (f : Fetch) : Prop where
  origin : ∀ operation ∈ f.tmpFileParts.map Prod.fst ++ f.threads ++ f.getTmpFileOperations, operation ∈ operations
  all : f.failed = false → (f.tmpFileParts.map Prod.fst ++ f.threads ++ f.getTmpFileOperations).Perm operations
  failed : f.failed = true ↔ (∃ x ∈ done, x.GaveNothing) ∨ FetchEvent.createFails ∈ done
  named : f.nodeIdFailed.isSome = true ↔ ∃ x ∈ done, x.GaveNothing
  who : ∀ n, f.nodeIdFailed = some n → ∃ operation, (operation, none) ∈ f.tmpFileParts ∧ operation.nodeId = n
  nothing : ∀ operation, (operation, none) ∈ f.tmpFileParts → ∃ x ∈ done, x.GaveNothing

theorem fetched_start (operations : List GetTmpFileOperation) : Fetched operations [] (Fetch.start operations) where
  origin := fun operation h => by simpa [Fetch.start] using h
  all := fun _ => by simp [Fetch.start]
  failed := by simp [Fetch.start]
  named := by simp [Fetch.start]
  who := fun n h => by simp [Fetch.start] at h
  nothing := fun operation h => by simp [Fetch.start] at h

/-- Something in a list that grows by one. -/
theorem exists_mem_concat {P : FetchEvent → Prop} : (∃ y ∈ done ++ [x], P y) ↔ (∃ y ∈ done, P y) ∨ P x := by
  constructor
  · rintro ⟨y, hy, hP⟩
    obtain hy | hy := List.mem_append.1 hy
    · exact Or.inl ⟨y, hy, hP⟩
    · rw [List.mem_singleton] at hy
      exact Or.inr (hy ▸ hP)
  · rintro (⟨y, hy, hP⟩ | hP)
    · exact ⟨y, List.mem_append_left _ hy, hP⟩
    · exact ⟨x, List.mem_append_right _ (List.mem_singleton_self x), hP⟩

/-- A thread that ends hands its operation over to the parts. -/
theorem finish_perm {α : Type} {threads parts rest : List α} {i : ℕ} {a : α} (h : threads[i]? = some a) :
    (parts ++ [a] ++ threads.eraseIdx i ++ rest).Perm (parts ++ threads ++ rest) := by
  obtain ⟨hi, ha⟩ := List.getElem?_eq_some_iff.1 h
  have hperm : (a :: threads.eraseIdx i).Perm threads := by
    rw [← ha]
    exact List.getElem_cons_eraseIdx_perm hi
  rw [List.append_assoc parts, List.singleton_append]
  exact (hperm.append_left parts).append_right rest

theorem gaveNothing_finish {i : ℕ} {part : Option CStr} : (FetchEvent.finish i part).GaveNothing ↔ part = none := by
  simp [FetchEvent.GaveNothing]

/-- The end of a thread. -/
theorem fetched_finish (hI : Fetched operations done f) {i : ℕ} {part : Option CStr} {operation : GetTmpFileOperation}
    (hthread : f.threads[i]? = some operation) : Fetched operations (done ++ [.finish i part])
      ({ f with threads := f.threads.eraseIdx i }.addPartToList part operation) := by
  have hperm : ((f.tmpFileParts ++ [(operation, part)]).map Prod.fst ++ f.threads.eraseIdx i ++
      f.getTmpFileOperations).Perm (f.tmpFileParts.map Prod.fst ++ f.threads ++ f.getTmpFileOperations) := by
    rw [List.map_append, List.map_singleton]
    exact finish_perm hthread
  refine ⟨?_, ?_, ?_, ?_, ?_, ?_⟩
  · intro op hop
    exact hI.origin op (hperm.mem_iff.1 hop)
  · intro hok
    have hbefore : f.failed = false := (Bool.or_eq_false_iff.1 hok).1
    exact hperm.trans (hI.all hbefore)
  · -- a part that is missing is a failure
    rw [exists_mem_concat, gaveNothing_finish]
    simp only [Fetch.addPartToList, Bool.or_eq_true, hI.failed, Option.isNone_iff_eq_none]
    simp only [List.mem_append, List.mem_singleton, reduceCtorEq, or_false]
    exact or_right_comm
  · rw [exists_mem_concat, gaveNothing_finish, ← hI.named]
    cases part <;> simp [Fetch.addPartToList]
  · intro n hn
    cases part with
    | none =>
      have hid : operation.nodeId = n := Option.some.inj hn
      exact ⟨operation, List.mem_append_right _ (List.mem_singleton_self _), hid⟩
    | some part =>
      obtain ⟨op, hop, hid⟩ := hI.who n hn
      exact ⟨op, List.mem_append_left _ hop, hid⟩
  · intro op hop
    obtain hop | hop := List.mem_append.1 hop
    · rw [exists_mem_concat]
      exact Or.inl (hI.nothing op hop)
    · rw [List.mem_singleton, Prod.mk.injEq] at hop
      exact exists_mem_concat.2 (Or.inr (gaveNothing_finish.2 hop.2.symm))

/-- An event that does not end a thread gives no part. -/
theorem not_gaveNothing (h : ∀ i part, x ≠ .finish i part) : ¬x.GaveNothing := by
  rintro ⟨i, hx⟩
  exact h i none hx

theorem fetched_step (hI : Fetched operations done f) (h : f.step x = some g) : Fetched operations (done ++ [x]) g := by
  obtain ⟨operation, rest, hops, hstep⟩ | ⟨i, part, operation, rfl, hthread, rfl⟩ := Fetch.step_cases h
  · have hnone : ¬x.GaveNothing := by
      apply not_gaveNothing
      obtain ⟨rfl, -⟩ | ⟨rfl, -⟩ | ⟨rfl, -⟩ := hstep <;> intro i part heq <;> cases heq
    have hsame : (∃ y ∈ done ++ [x], y.GaveNothing) ↔ ∃ y ∈ done, y.GaveNothing := by
      rw [exists_mem_concat, or_iff_left hnone]
    have hnothing : ∀ op, (op, none) ∈ f.tmpFileParts → ∃ y ∈ done ++ [x], y.GaveNothing :=
      fun op hop => hsame.2 (hI.nothing op hop)
    -- an operation that gets no thread is gone from the list
    have hgone : ∀ op ∈ f.tmpFileParts.map Prod.fst ++ f.threads ++ rest, op ∈ operations := by
      intro op hop
      apply hI.origin
      rw [hops]
      exact ((List.sublist_cons_self operation rest).append_left _).subset hop
    obtain ⟨rfl, hfailed, rfl⟩ | ⟨rfl, hfailed, rfl⟩ | ⟨rfl, hfailed, rfl⟩ := hstep
    · have hmove : f.tmpFileParts.map Prod.fst ++ (f.threads ++ [operation]) ++ rest =
          f.tmpFileParts.map Prod.fst ++ f.threads ++ f.getTmpFileOperations := by
        rw [hops]
        simp only [List.append_assoc, List.singleton_append]
      refine ⟨hmove ▸ hI.origin, hmove ▸ hI.all, ?_, hI.named.trans hsame.symm, hI.who, hnothing⟩
      rw [hsame, hI.failed]
      simp
    · refine ⟨hgone, ?_, by simp, hI.named.trans hsame.symm, hI.who, hnothing⟩
      intro hok
      cases hok
    · refine ⟨hgone, ?_, ?_, hI.named.trans hsame.symm, hI.who, hnothing⟩
      · intro hok
        rw [hfailed] at hok
        cases hok
      · rw [hsame, hI.failed]
        simp
  · exact fetched_finish hI hthread

/-- **At the end of a schedule.** -/
theorem fetched (h : getTmpFiles operations schedule = some f) :
    Fetched operations schedule f ∧ f.getTmpFileOperations = [] ∧ f.threads = [] := by
  unfold getTmpFiles at h
  split at h
  · rename_i g hrun
    split at h
    · rename_i hend
      cases h
      have hI := run_done (I := Fetched operations) (fun _ _ _ _ hI hstep => fetched_step hI hstep)
        (fetched_start operations) hrun
      exact ⟨hI, hend⟩
    · cases h
  · cases h

/-! ## One request -/

variable {name : CStr} {temps : List GetTmpFileOperation} {r : ReduceRequest} {reply : Packet}
  {before after : Option CStr}

/-- A single temp of the node is used in place. -/
theorem operationsOf_own (h : Own name temps) : (operationsOf name temps).tmpFileNameToReduce.isSome = true := by
  obtain ⟨temp, rfl, hid⟩ := h
  simp [operationsOf, Operations.addTemp, hid]

/-- Any others are to be got. -/
theorem operationsOf_others (hcount : temps.length < 2 ^ 16) (h : ¬Own name temps) :
    operationsOf name temps = ⟨none, temps⟩ := by
  refine addTemps_eq (fun temp htemp hboth => h ?_) ⟨none, []⟩
  have hone : temps.length = 1 := by
    have hcast := congrArg UInt16.toNat hboth.1
    rwa [toNat_toUInt16 hcount] at hcast
  obtain ⟨t, ht⟩ := List.length_eq_one_iff.1 hone
  rw [ht, List.mem_singleton] at htemp
  exact ⟨t, ht, htemp ▸ hboth.2⟩

/-- The reply to a request for a temp used in place. -/
theorem replyReduce_own (h : Own name r.temps) : replyReduce (some name) r =
    some (reduceReply name (nodeExecuteReduceRutine r) none,
      if nodeExecuteReduceRutine r = true then some name else none) := by
  unfold replyReduce tmpFileToReduce
  rw [Option.getD_some, if_pos (operationsOf_own h)]
  cases nodeExecuteReduceRutine r <;> simp

/-- The reply to a request whose temps are got. -/
theorem replyReduce_others (h : ¬Own name r.temps) (hreply : replyReduce (some name) r = some (reply, after)) :
    ∃ f, getTmpFiles r.temps r.schedule = some f ∧
      reply = reduceReply name (!f.failed && r.joined && nodeExecuteReduceRutine r) f.nodeIdFailed ∧
      after = if (!(!f.failed && r.joined && nodeExecuteReduceRutine r) && f.nodeIdFailed.isNone) = true then none
        else some name := by
  unfold replyReduce tmpFileToReduce at hreply
  rw [Option.getD_some, operationsOf_others r.countTemps_lt h, if_neg (by simp)] at hreply
  dsimp only at hreply
  cases hf : getTmpFiles r.temps r.schedule with
  | none =>
    rw [hf] at hreply
    cases hreply
  | some f =>
    rw [hf] at hreply
    cases hreply
    exact ⟨f, rfl, rfl, rfl⟩

/-- **What comes of a request**: a success, a failure with a temp that was not got, or one
without. -/
inductive Outcome (name : CStr) (r : ReduceRequest) : Packet → Option CStr → Prop
  | success (hexplained : ¬Unexplained name r)
      (hfounded : Unfounded name r ↔ ¬(Obtained name r ∧ r.routineStarted = true)) : Outcome name r [1] (some name)
  | missing (n : CStr) (hn : NotObtained r n) (hexplained : ¬Unexplained name r) (hfounded : ¬Unfounded name r) :
      Outcome name r (reduceReply name false (some n)) (some name)
  | unexplained (h : Unexplained name r) (hfounded : ¬Unfounded name r) :
      Outcome name r (reduceReply name false none) none

theorem outcome_own (h : Own name r.temps) (hreply : replyReduce (some name) r = some (reply, after)) :
    Outcome name r reply after := by
  rw [replyReduce_own h] at hreply
  cases hrun : nodeExecuteReduceRutine r with
  | true =>
    have hsystem := nodeExecuteReduceRutine_eq_true.1 hrun
    rw [hrun] at hreply
    cases hreply
    refine .success (fun hU => hsystem (hU.2 h)) ?_
    have hobt : Obtained name r ↔ r.tmpFileExists = true :=
      ⟨fun hO => hO.own h, fun hexists => ⟨fun _ => hexists, fun hother => absurd h hother⟩⟩
    rw [hobt, not_and_or, Bool.not_eq_true, Bool.not_eq_true]
    exact ⟨fun hU => hU.2.2 h, fun hor => ⟨hsystem, fun hother => absurd h hother, fun _ => hor⟩⟩
  | false =>
    have hsystem := nodeExecuteReduceRutine_eq_false.1 hrun
    rw [hrun] at hreply
    cases hreply
    exact .unexplained ⟨fun hother => absurd h hother, fun _ => hsystem⟩ fun hU => hU.1 hsystem

section Others

variable {f : Fetch}

/-- A temp was not got. -/
theorem outcome_missing (h : ¬Own name r.temps) (hf : getTmpFiles r.temps r.schedule = some f) {n : CStr}
    (hid : f.nodeIdFailed = some n) :
    f.failed = true ∧ Outcome name r (reduceReply name false (some n)) (some name) := by
  obtain ⟨hI, hops, hthreads⟩ := fetched hf
  have hsome : ∃ x ∈ r.schedule, x.GaveNothing := by
    apply hI.named.1
    rw [hid]
    rfl
  obtain ⟨operation, hpart, hn⟩ := hI.who n hid
  have hmem : operation ∈ r.temps := by
    apply hI.origin
    rw [hops, hthreads, List.append_nil, List.append_nil]
    exact List.mem_map_of_mem hpart
  have hno : ¬∀ x ∈ r.schedule, ¬x.GaveNothing := by
    obtain ⟨x, hx, hgave⟩ := hsome
    exact fun hall => hall x hx hgave
  exact ⟨hI.failed.2 (Or.inl hsome),
    .missing n ⟨f, operation, hf, hmem, hpart, hn⟩ (fun hU => hno (hU.1 h).1) fun hU => hno (hU.2.1 h).1⟩

/-- Every thread that was started has its part. -/
theorem no_gaveNothing (hf : getTmpFiles r.temps r.schedule = some f) (hid : f.nodeIdFailed = none) :
    (∀ x ∈ r.schedule, ¬x.GaveNothing) ∧ (f.failed = true ↔ FetchEvent.createFails ∈ r.schedule) := by
  obtain ⟨hI, -, -⟩ := fetched hf
  have hno : ∀ x ∈ r.schedule, ¬x.GaveNothing := by
    intro x hx hgave
    have hsome := hI.named.2 ⟨x, hx, hgave⟩
    rw [hid] at hsome
    cases hsome
  refine ⟨hno, ?_⟩
  rw [hI.failed]
  exact or_iff_right fun ⟨x, hx, hgave⟩ => hno x hx hgave

/-- All parts are there, joined, and the routine has run. -/
theorem outcome_done (h : ¬Own name r.temps) (hf : getTmpFiles r.temps r.schedule = some f)
    (hid : f.nodeIdFailed = none)
    (hfine : f.failed = false) (hjoined : r.joined = true) (hsystem : r.system ≠ -1) :
      Outcome name r [1] (some name) := by
  obtain ⟨hI, hops, hthreads⟩ := fetched hf
  obtain ⟨hno, hfailed⟩ := no_gaveNothing hf hid
  have hcreate : FetchEvent.createFails ∉ r.schedule := by
    rw [← hfailed, hfine]
    simp
  have hall : (f.tmpFileParts.map Prod.fst).Perm r.temps := by
    have hperm := hI.all hfine
    rwa [hops, hthreads, List.append_nil, List.append_nil] at hperm
  have hparts : ∀ x ∈ f.tmpFileParts, x.2.isSome = true := by
    rintro ⟨operation, part⟩ hx
    cases part with
    | some part => rfl
    | none =>
      obtain ⟨x, hx, hgave⟩ := hI.nothing operation hx
      exact absurd hgave (hno x hx)
  have hobt : Obtained name r := ⟨fun hown => absurd hown h, fun _ => ⟨f, hf, hall, hparts⟩⟩
  refine .success ?_ ?_
  · intro hU
    obtain hbad | hbad | hbad := (hU.1 h).2
    · exact hcreate hbad
    · simp [hjoined] at hbad
    · exact hsystem hbad
  · rw [not_and, Bool.not_eq_true]
    exact ⟨fun hU _ => (hU.2.1 h).2.2.2,
      fun hfile => ⟨hsystem, fun _ => ⟨hno, hcreate, hjoined, hfile hobt⟩, fun hown => absurd hown h⟩⟩

/-- All parts are there, and something else went wrong. -/
theorem outcome_unexplained (h : ¬Own name r.temps) (hf : getTmpFiles r.temps r.schedule = some f)
    (hid : f.nodeIdFailed = none)
    (hbad : f.failed = true ∨ r.joined = false ∨ r.system = -1) :
    Outcome name r (reduceReply name false none) none := by
  obtain ⟨hno, hfailed⟩ := no_gaveNothing hf hid
  rw [hfailed] at hbad
  refine .unexplained ⟨fun _ => ⟨hno, hbad⟩, fun hown => absurd hown h⟩ ?_
  intro hU
  obtain ⟨-, hcreate, hjoined, -⟩ := hU.2.1 h
  obtain hbad | hbad | hbad := hbad
  · exact hcreate hbad
  · simp [hjoined] at hbad
  · exact hU.1 hbad

end Others

theorem outcome_others (h : ¬Own name r.temps) (hreply : replyReduce (some name) r = some (reply, after)) :
    Outcome name r reply after := by
  obtain ⟨f, hf, rfl, rfl⟩ := replyReduce_others h hreply
  cases hid : f.nodeIdFailed with
  | some n =>
    obtain ⟨hfailed, hout⟩ := outcome_missing h hf hid
    simpa [hfailed] using hout
  | none =>
    by_cases hok : (!f.failed && r.joined && nodeExecuteReduceRutine r) = true
    · have hgood := hok
      simp only [Bool.and_eq_true, Bool.not_eq_true'] at hgood
      have hout := outcome_done h hf hid hgood.1.1 hgood.1.2 (nodeExecuteReduceRutine_eq_true.1 hgood.2)
      simpa [hok, reduceReply] using hout
    · rw [Bool.not_eq_true] at hok
      have hbad : f.failed = true ∨ r.joined = false ∨ r.system = -1 := by
        rw [Bool.and_eq_false_iff, Bool.and_eq_false_iff, Bool.not_eq_false', or_assoc,
          nodeExecuteReduceRutine_eq_false] at hok
        exact hok
      have hout := outcome_unexplained h hf hid hbad
      simpa [hok] using hout

theorem outcome (hreply : replyReduce (some name) r = some (reply, after)) : Outcome name r reply after := by
  by_cases h : Own name r.temps
  · exact outcome_own h hreply
  · exact outcome_others h hreply

/-- A reply that names a node whose name 16 bits can count. -/
theorem reduceReply_named {n : CStr} (hn : n.length < 2 ^ 16) :
    reduceReply name false (some n) = [0] ++ be16 n.length.toUInt16 ++ n := by
  simp only [reduceReply, Bool.false_eq_true, if_false, Option.getD_some]
  rw [toNat_toUInt16 hn, List.take_length]

/-- A node that was not the node itself can be named only for a temp that was not got. -/
theorem not_notObtained {n : CStr} (hU : Unexplained name r) (h : NotObtained r n) : n = name := by
  obtain ⟨f, operation, hf, hmem, hpart, rfl⟩ := h
  by_cases hown : Own name r.temps
  · obtain ⟨temp, htemps, hid⟩ := hown
    rw [htemps, List.mem_singleton] at hmem
    rw [hmem, hid]
  · obtain ⟨x, hx, hgave⟩ := (fetched hf).1.nothing operation hpart
    exact absurd hgave ((hU.1 hown).1 x hx)

/-- **A reply is true** exactly if it says ok with a reason to, and the name of the node, when
it is the one sent, fits in the reply. -/
theorem truthful_iff (h : Outcome name r reply after) : Truthful name r (some name) reply ↔
    (Unexplained name r → name.length < 2 ^ 16) ∧ ¬Unfounded name r := by
  cases h with
  | success hexplained hfounded =>
    rw [hfounded, not_not]
    constructor
    · intro hT
      exact ⟨fun hU => absurd hU hexplained, hT.ok rfl⟩
    · rintro ⟨-, hreason⟩
      exact ⟨rfl, fun _ => hreason, fun hne => absurd rfl hne⟩
  | missing n hn hexplained hfounded =>
    have hlt : n.length < 2 ^ 16 := by
      obtain ⟨f, operation, -, hmem, -, rfl⟩ := hn
      exact r.nodeId_lt operation hmem
    rw [reduceReply_named hlt]
    constructor
    · exact fun _ => ⟨fun hU => absurd hU hexplained, hfounded⟩
    · intro _
      exact ⟨rfl, fun hok => by simp at hok, fun _ => ⟨n, rfl, hlt, Or.inr hn⟩⟩
  -- the reply names the node itself, which is true when the name is not cut
  | unexplained hU hfounded =>
    constructor
    · intro hT
      obtain ⟨n, -, hlt, hn⟩ := hT.failed (by simp [reduceReply])
      refine ⟨fun _ => ?_, hfounded⟩
      obtain rfl | hn := hn
      · exact hlt
      · rw [← not_notObtained hU hn]
        exact hlt
    · rintro ⟨hlt, -⟩
      have hname : reduceReply name false (some name) = [0] ++ be16 name.length.toUInt16 ++ name :=
        reduceReply_named (hlt hU)
      have hreply : reduceReply name false none = [0] ++ be16 name.length.toUInt16 ++ name := by
        rw [← hname]
        rfl
      rw [hreply]
      exact ⟨rfl, fun hok => by simp at hok, fun _ => ⟨name, rfl, hlt hU, Or.inl rfl⟩⟩

/-- The name is lost with a failure that no temp explains, and only then. -/
theorem after_eq (h : Outcome name r reply after) : (Unexplained name r → after = none) ∧
    (¬Unexplained name r → after = some name) := by
  cases h with
  | success hexplained hfounded => exact ⟨fun hU => absurd hU hexplained, fun _ => rfl⟩
  | missing n hn hexplained hfounded => exact ⟨fun hU => absurd hU hexplained, fun _ => rfl⟩
  | unexplained hU hfounded => exact ⟨fun _ => rfl, fun hno => absurd hU hno⟩

/-! ## Runs -/

variable {r₀ : ReduceRequest} {rs : List ReduceRequest} {log : List (Option CStr × Packet)}

theorem replyReduces_cons (h : replyReduces before (r :: rs) = some log) :
    ∃ reply after log', replyReduce before r = some (reply, after) ∧ replyReduces after rs = some log' ∧
      log = (before, reply) :: log' := by
  rw [replyReduces] at h
  split at h
  · rename_i x hx
    obtain ⟨log', hlog, rfl⟩ := Option.map_eq_some_iff.1 h
    exact ⟨x.1, x.2, log', hx, hlog, rfl⟩
  · cases h

/-- A temp of another node. -/
def tempOf (nodeId : CStr) : GetTmpFileOperation := ⟨nodeId, cstr "10.0.0.2", 6002, cstr "Job1-Map0.txt"⟩

/-- A reduce of two temps, the second of which is not got. -/
def secondMissing : ReduceRequest where
  temps := [tempOf (cstr "Nodo2"), tempOf (cstr "Nodo3")]
  schedule := [.create, .create, .finish 1 none, .finish 0 (some (cstr "a\n"))]
  tmpFileExists := true
  joined := true
  fileCreated := true
  system := 0
  started := true
  countTemps_lt := by decide
  nodeId_lt := by decide

/-- A reduce of two temps whose file cannot be created. -/
def notJoined : ReduceRequest where
  temps := [tempOf (cstr "Nodo2"), tempOf (cstr "Nodo3")]
  schedule := [.create, .create, .finish 1 (some (cstr "b\n")), .finish 0 (some (cstr "a\n"))]
  tmpFileExists := true
  joined := false
  fileCreated := true
  system := 0
  started := true
  countTemps_lt := by decide
  nodeId_lt := by decide

/-- A shell that cannot find the routine's interpreter returns 127, and the reply says ok. -/
example : replyReduce (some (cstr "Nodo1")) { notJoined with joined := true, system := 127 * 256, started := false } =
    some ([1], some (cstr "Nodo1")) := by decide

end Mdfs.Nodo
