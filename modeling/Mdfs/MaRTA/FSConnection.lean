import Mdfs.Lib.Pool
import Mdfs.Lib.Wire
import Mdfs.MaRTA.Structs
import Mdfs.Utils.Socket

/-!
# MaRTA's connection to the FileSystem

`FSConnection.c`: the jobs share one connection, `fsSocket`, and each sends its request
and waits for the reply inside the mutex `MFileSystem`. A send or a receive that fails
is followed by `FSConnectionLost`, which connects again. After a receive that failed
`requestFileBlocks` sends its request again; `copyFinalTemporal` does not.

`CopyAnswered` is the condition that no receive of `copyFinalTemporal` fails. Along it
who waits has sent (`Asked`).

* `asked_rule`: every step along it keeps that.
* `waits_on_its_request`: so a thread that waits for a reply has its request, complete
  and without an answer, on the connection it waits on.
* `waits_unasked`: without the condition a thread waits on a connection that has seen
  nothing.
-/

namespace Mdfs.MaRTA

open Lib Wire

/-! ## The connection -/

def COMMAND_MARTA_TO_FS_GET_FILE_BLOCKS : UInt8 := 1
def COMMAND_MARTA_TO_FS_GET_COPY_FINAL_RESULT : UInt8 := 3

/-- What a job asks of the FileSystem. -/
inductive FSOperation
  | fileBlocks (path : CStr)
  | copyFinal (finalNode resultFile : CStr) (tempResultName : TempName)
  deriving DecidableEq

/-- The request, as `request` of `requestFileBlocks` and `copyFinalTemporal` build it. -/
def FSOperation.packet : FSOperation → Packet
  | .fileBlocks path =>
    let sfilePath := path.length.toUInt32
    [COMMAND_MARTA_TO_FS_GET_FILE_BLOCKS] ++ be32 sfilePath ++ path.take sfilePath.toNat
  | .copyFinal finalNode resultFile tempResultName =>
    let sNodeID := finalNode.length.toUInt16
    let sResultFile := resultFile.length.toUInt16
    [COMMAND_MARTA_TO_FS_GET_COPY_FINAL_RESULT] ++ be16 sNodeID ++ finalNode.take sNodeID.toNat ++
      be16 sResultFile ++ resultFile.take sResultFile.toNat ++ tempResultName.bytes

def FSOperation.isCopyFinal : FSOperation → Bool
  | .fileBlocks _ => false
  | .copyFinal _ _ _ => true

/-- What has gone over a connection, in full. -/
inductive Exchange
  | sent (packet : Packet)
  | received (packet : Packet)
  deriving DecidableEq

structure FSLink where
  /-- The connection behind `fsSocket`, if it is not `-1`: which one of those made. -/
  fsSocket : Option ℕ
  made : ℕ
  /-- What has gone over this connection. -/
  log : List Exchange
  /-- The thread inside `MFileSystem`. -/
  holder : Option ℕ
  deriving DecidableEq

inductive FSReq
  | lock
  | unlock
  /-- `socket_close(fsSocket)` and `fsSocket = -1`. -/
  | close
  /-- One attempt of `socket_connect`. -/
  | connect
  | handshake
  | send (operation : FSOperation)
  /-- `socket_recv_packet`, for the reply to the operation. -/
  | recv (operation : FSOperation)
  deriving DecidableEq

abbrev FSResp : FSReq → Type
  | .connect => Bool
  | .handshake => Bool
  | .send _ => Bool
  | .recv _ => Option Packet
  | _ => Unit

/-- Thread `t`'s steps. The outside decides what gets through, and what a reply holds. -/
def serveFS (t : ℕ) : Handler FSResp FSLink (Option Packet)
  | s, .lock, _ => if s.holder = none then some ((), { s with holder := some t }) else none
  | s, .unlock, _ => some ((), { s with holder := none })
  | s, .close, _ => some ((), { s with fsSocket := none, log := [] })
  | s, .connect, none => some (false, s)
  | s, .connect, some _ => some (true, { s with fsSocket := some s.made, made := s.made + 1, log := [] })
  | s, .handshake, i => some (i.isSome, s)
  | s, .send _, none => some (false, s)
  | s, .send operation, some _ => some (true, { s with log := s.log ++ [.sent operation.packet] })
  | s, .recv _, none => some (none, s)
  | s, .recv _, some reply => some (some reply, { s with log := s.log ++ [.received reply] })

/-! ## `FSConnection.c` -/

/-- The rounds are used up. -/
inductive FSExit
  | unfinished

abbrev FSProg := Prog FSResp FSExit

abbrev fsRequest (r : FSReq) : FSProg (FSResp r) := .ask r .ret

/-- `connectFS`, on `fsSocket = -1`. After a handshake that failed `FSConnectionLost`
runs it again. -/
def connectFS : ℕ → FSProg Unit
  | 0 => .stop .unfinished
  | rounds + 1 => do
    if ← fsRequest .connect then
      if ← fsRequest .handshake then pure ()
      else
        fsRequest .close
        connectFS rounds
    else connectFS rounds

/-- `FSConnectionLost`. -/
def fsConnectionLost (rounds : ℕ) : FSProg Unit := do
  fsRequest .close
  connectFS rounds

/-- The loop around `socket_send_packet`. -/
def sendRequest (operation : FSOperation) : ℕ → FSProg Unit
  | 0 => .stop .unfinished
  | rounds + 1 => do
    if ← fsRequest (.send operation) then pure ()
    else
      fsConnectionLost rounds
      sendRequest operation rounds

/-- The loop around `socket_recv_packet` of `requestFileBlocks`. -/
def recvFileBlocks (operation : FSOperation) : ℕ → FSProg Packet
  | 0 => .stop .unfinished
  | rounds + 1 => do
    match ← fsRequest (.recv operation) with
    | some buffer => pure buffer
    | none =>
      fsConnectionLost rounds
      sendRequest operation rounds
      recvFileBlocks operation rounds

/-- The loop around `socket_recv_packet` of `copyFinalTemporal`. -/
def recvCopyFinal (operation : FSOperation) : ℕ → FSProg Packet
  | 0 => .stop .unfinished
  | rounds + 1 => do
    match ← fsRequest (.recv operation) with
    | some finalBuffer => pure finalBuffer
    | none =>
      fsConnectionLost rounds
      recvCopyFinal operation rounds

/-- The loop around `socket_recv_packet` of an operation. -/
def FSOperation.recvReply (rounds : ℕ) (operation : FSOperation) : FSProg Packet :=
  if operation.isCopyFinal then recvCopyFinal operation rounds else recvFileBlocks operation rounds

/-- What `requestFileBlocks` and `copyFinalTemporal` do inside `MFileSystem`. -/
def FSOperation.exchange (rounds : ℕ) (operation : FSOperation) : FSProg Unit := do
  fsRequest .lock
  sendRequest operation rounds
  let _ ← operation.recvReply rounds
  fsRequest .unlock

/-- The jobs, each with its operations, on the connection of `initFSConnection`. -/
def fsThreads (rounds : ℕ) (operations : List (List FSOperation)) : Pool FSResp FSExit Unit FSLink :=
  ⟨⟨some 0, 1, [], none⟩, operations.map (Prog.iterate (FSOperation.exchange rounds))⟩

/-- The request of an operation is the last thing on a connection: it has been sent
there, and has no answer. -/
def Awaited (s : FSLink) (operation : FSOperation) : Prop :=
  s.fsSocket ≠ none ∧ s.log.getLast? = some (.sent operation.packet)

instance Awaited.decidable (s : FSLink) (operation : FSOperation) : Decidable (Awaited s operation) :=
  inferInstanceAs (Decidable (s.fsSocket ≠ none ∧ s.log.getLast? = some (.sent operation.packet)))

/-- No receive of `copyFinalTemporal` fails. -/
def CopyAnswered (_ : ℕ) (_ : FSLink) (r : FSReq) (i : Option Packet) : Prop :=
  match r with
  | .recv operation => operation.isCopyFinal = true → i ≠ none
  | _ => True

instance CopyAnswered.decidable (t : ℕ) (s : FSLink) (r : FSReq) (i : Option Packet) :
    Decidable (CopyAnswered t s r i) :=
  match r with
  | .recv operation => inferInstanceAs (Decidable (operation.isCopyFinal = true → i ≠ none))
  | .lock => .isTrue trivial
  | .unlock => .isTrue trivial
  | .close => .isTrue trivial
  | .connect => .isTrue trivial
  | .handshake => .isTrue trivial
  | .send _ => .isTrue trivial

/-! ## Where a thread is -/

inductive FSPhase
  | out
  /-- Inside `MFileSystem`, with a connection that is in use, -/
  | ready
  /-- with a request that has no answer, -/
  | waiting (operation : FSOperation)
  /-- with a connection that failed, or one not tried yet, -/
  | broken
  | fresh
  /-- or with none. -/
  | closed

/-- What a thread may do next. -/
inductive FSPhase.MayAsk : FSPhase → FSReq → Prop
  | lock : MayAsk .out .lock
  | unlock : MayAsk .ready .unlock
  | send {operation} : MayAsk .ready (.send operation)
  | recv {operation} : MayAsk (.waiting operation) (.recv operation)
  | close : MayAsk .broken .close
  | connect : MayAsk .closed .connect
  | handshake : MayAsk .fresh .handshake

/-- Where a thread is after a step. -/
def FSPhase.move : (r : FSReq) → FSResp r → FSPhase
  | .lock, _ => .ready
  | .unlock, _ => .out
  | .close, _ => .closed
  | .connect, through => if through then .fresh else .closed
  | .handshake, through => if through then .ready else .broken
  | .send operation, through => if through then .waiting operation else .broken
  | .recv _, reply => if reply = none then .broken else .ready

/-- A thread does what its place allows; a copy is answered. -/
def fsSpec : Spec FSResp FSPhase where
  pre p r := p.MayAsk r
  post _ r a q := q = FSPhase.move r a ∧ match r, a with
    | .recv operation, reply => operation.isCopyFinal = true → reply ≠ none
    | _, _ => True

/-- The connection as a thread at a place leaves it. -/
def FSLink.LeftBy (s : FSLink) : FSPhase → Prop
  | .out => True
  | .ready => s.fsSocket ≠ none
  | .waiting operation => Awaited s operation
  | .broken => True
  | .fresh => s.fsSocket ≠ none
  | .closed => True

/-- **The invariant**: one thread is inside the mutex, and the connection is as it leaves it. -/
structure Asked (s : FSLink) (g : ℕ → FSPhase) : Prop where
  holder : ∀ t, g t ≠ .out → s.holder = some t
  left : ∀ t, s.LeftBy (g t)
  free : s.holder = none → s.fsSocket ≠ none

/-! ## Each function from its place -/

section Places

variable {α : Type} {Q : α → FSPhase → Prop} {E : FSExit → FSPhase → Prop} {p : FSPhase} {rounds : ℕ}
  {operation : FSOperation}

/-- One step, and the rest from where it leads. -/
theorem ok_fsStep {r : FSReq} {k : FSResp r → FSProg α} (hr : p.MayAsk r)
    (hk : ∀ a, fsSpec.post p r a (FSPhase.move r a) → (k a).Ok fsSpec Q E (FSPhase.move r a)) :
    (fsRequest r >>= k).Ok fsSpec Q E p := by
  rw [Prog.ok_bind]
  refine ⟨hr, fun a q hq => ?_⟩
  have hmove : q = FSPhase.move r a := hq.1
  subst hmove
  exact hk a hq

/-- The threads that use up their rounds stop wherever they are. -/
def Anywhere (_ : FSExit) (_ : FSPhase) : Prop := True

theorem connectFS_ok (rounds : ℕ) : (connectFS rounds).Ok fsSpec (fun _ q => q = .ready) Anywhere .closed := by
  induction rounds with
  | zero => trivial
  | succ rounds ih =>
    unfold connectFS
    refine ok_fsStep .connect fun made _ => ?_
    cases made with
    | false => exact ih
    | true =>
      refine ok_fsStep .handshake fun welcome _ => ?_
      cases welcome with
      | true => rfl
      | false => exact ok_fsStep .close fun _ _ => ih

theorem fsConnectionLost_ok (rounds : ℕ) :
    (fsConnectionLost rounds).Ok fsSpec (fun _ q => q = .ready) Anywhere .broken :=
  ok_fsStep .close fun _ _ => connectFS_ok rounds

/-- What follows a new connection. -/
theorem after_fsConnectionLost {k : FSProg α} (hk : k.Ok fsSpec Q Anywhere .ready) :
    (fsConnectionLost rounds >>= fun _ => k).Ok fsSpec Q Anywhere .broken := by
  rw [Prog.ok_bind]
  refine (fsConnectionLost_ok rounds).imp fun _ q hq => ?_
  subst hq
  exact hk

theorem sendRequest_ok (rounds : ℕ) :
    (sendRequest operation rounds).Ok fsSpec (fun _ q => q = .waiting operation) Anywhere .ready := by
  induction rounds with
  | zero => trivial
  | succ rounds ih =>
    unfold sendRequest
    refine ok_fsStep .send fun through _ => ?_
    cases through with
    | true => rfl
    | false => exact after_fsConnectionLost ih

/-- What follows a request that was sent. -/
theorem after_sendRequest {k : FSProg α} (hk : k.Ok fsSpec Q Anywhere (.waiting operation)) :
    (sendRequest operation rounds >>= fun _ => k).Ok fsSpec Q Anywhere .ready := by
  rw [Prog.ok_bind]
  refine (sendRequest_ok rounds).imp fun _ q hq => ?_
  subst hq
  exact hk

theorem recvFileBlocks_ok (rounds : ℕ) :
    (recvFileBlocks operation rounds).Ok fsSpec (fun _ q => q = .ready) Anywhere (.waiting operation) := by
  induction rounds with
  | zero => trivial
  | succ rounds ih =>
    unfold recvFileBlocks
    refine ok_fsStep .recv fun reply _ => ?_
    cases reply with
    | some buffer => rfl
    | none => exact after_fsConnectionLost (after_sendRequest ih)

/-- A copy is answered at its first receive. -/
theorem recvCopyFinal_ok (hop : operation.isCopyFinal = true) (rounds : ℕ) :
    (recvCopyFinal operation rounds).Ok fsSpec (fun _ q => q = .ready) Anywhere (.waiting operation) := by
  cases rounds with
  | zero => trivial
  | succ rounds =>
    unfold recvCopyFinal
    refine ok_fsStep .recv fun reply hreply => ?_
    cases reply with
    | some finalBuffer => rfl
    | none => exact (hreply.2 hop rfl).elim

theorem recvReply_ok (rounds : ℕ) (operation : FSOperation) :
    (operation.recvReply rounds).Ok fsSpec (fun _ q => q = .ready) Anywhere (.waiting operation) := by
  unfold FSOperation.recvReply
  split
  · rename_i hop
    exact recvCopyFinal_ok hop rounds
  · exact recvFileBlocks_ok rounds

/-- **An operation** starts and ends outside of the mutex. -/
theorem exchange_ok (rounds : ℕ) (operation : FSOperation) :
    (operation.exchange rounds).Ok fsSpec (fun _ q => q = .out) Anywhere .out := by
  unfold FSOperation.exchange
  refine ok_fsStep .lock fun _ _ => after_sendRequest ?_
  rw [Prog.ok_bind]
  refine (recvReply_ok rounds operation).imp fun _ q hq => ?_
  subst hq
  exact ⟨.unlock, fun _ q hq => hq.1⟩

end Places

/-! ## One thread at a time -/

variable {s u : FSLink} {g : ℕ → FSPhase} {t : ℕ} {p : FSPhase}

/-- Only one thread is inside. -/
theorem Asked.outside (h : Asked s g) (ht : g t ≠ .out) {t' : ℕ} (hne : t' ≠ t) : g t' = .out := by
  by_contra hout
  have hboth := (h.holder t ht).symm.trans (h.holder t' hout)
  exact hne (Option.some.inj hboth).symm

/-- **A step inside the mutex.** -/
theorem Asked.work (h : Asked s g) (ht : g t ≠ .out) (hholder : u.holder = s.holder) (hleft : u.LeftBy p) :
    Asked u (Function.update g t p) := by
  have hin : s.holder = some t := h.holder t ht
  refine ⟨?_, ?_, fun hfree => ?_⟩
  · refine (Function.forall_update_iff g (p := fun t p => p ≠ .out → u.holder = some t)).2
      ⟨fun _ => hholder.trans hin, fun t' hne hout => ?_⟩
    exact (hout (h.outside ht hne)).elim
  · refine (Function.forall_update_iff g (p := fun _ p => u.LeftBy p)).2 ⟨hleft, fun t' hne => ?_⟩
    rw [h.outside ht hne]
    trivial
  · rw [hholder, hin] at hfree
    cases hfree

/-- Entering, when no thread is inside. -/
theorem Asked.lock (h : Asked s g) (hfree : s.holder = none) :
    Asked { s with holder := some t } (Function.update g t .ready) := by
  have hout : ∀ t', g t' = .out := by
    intro t'
    by_contra hin
    have hholder := h.holder t' hin
    rw [hfree] at hholder
    cases hholder
  refine ⟨?_, ?_, nofun⟩
  · refine (Function.forall_update_iff g (p := fun t' p => p ≠ .out → some t = some t')).2
      ⟨fun _ => rfl, fun t' _ hin => ?_⟩
    exact (hin (hout t')).elim
  · refine (Function.forall_update_iff g (p := fun _ p => FSLink.LeftBy _ p)).2 ⟨h.free hfree, fun t' _ => ?_⟩
    rw [hout t']
    trivial

/-- Leaving, with a connection that is in use. -/
theorem Asked.unlock (h : Asked s g) (ht : g t = .ready) :
    Asked { s with holder := none } (Function.update g t .out) := by
  have hin : g t ≠ .out := by
    rw [ht]
    nofun
  have hsocket := h.left t
  rw [ht] at hsocket
  refine ⟨?_, ?_, fun _ => hsocket⟩
  · refine (Function.forall_update_iff g (p := fun t' p => p ≠ .out → none = some t')).2
      ⟨fun hout => (hout rfl).elim, fun t' hne hout => ?_⟩
    exact (hout (h.outside hin hne)).elim
  · refine (Function.forall_update_iff g (p := fun _ p => FSLink.LeftBy _ p)).2 ⟨trivial, fun t' hne => ?_⟩
    rw [h.outside hin hne]
    trivial

/-- **The one obligation**: every step along `CopyAnswered` keeps the invariant. -/
theorem asked_rule : Pool.Rule (fun _ => fsSpec) Asked serveFS CopyAnswered := by
  intro t s g r i a u h hask hC hs
  have hask' : (g t).MayAsk r := hask
  have hleft := h.left t
  generalize hp : g t = p at hask' hleft
  cases hask' with
  | lock =>
    by_cases hfree : s.holder = none
    · simp only [serveFS, if_pos hfree] at hs
      cases hs
      exact ⟨_, ⟨rfl, trivial⟩, h.lock hfree⟩
    · simp only [serveFS, if_neg hfree] at hs
      cases hs
  | unlock =>
    cases hs
    exact ⟨_, ⟨rfl, trivial⟩, h.unlock hp⟩
  | close =>
    cases hs
    exact ⟨_, ⟨rfl, trivial⟩, h.work (by rw [hp]; nofun) rfl trivial⟩
  | connect =>
    have hin : g t ≠ .out := by rw [hp]; nofun
    cases i with
    | none =>
      cases hs
      exact ⟨_, ⟨rfl, trivial⟩, h.work hin rfl trivial⟩
    | some x =>
      cases hs
      exact ⟨_, ⟨rfl, trivial⟩, h.work hin rfl (Option.some_ne_none s.made)⟩
  | handshake =>
    have hin : g t ≠ .out := by rw [hp]; nofun
    cases hs
    cases i with
    | none => exact ⟨_, ⟨rfl, trivial⟩, h.work hin rfl trivial⟩
    | some x => exact ⟨_, ⟨rfl, trivial⟩, h.work hin rfl hleft⟩
  | send =>
    have hin : g t ≠ .out := by rw [hp]; nofun
    cases i with
    | none =>
      cases hs
      exact ⟨_, ⟨rfl, trivial⟩, h.work hin rfl trivial⟩
    | some x =>
      cases hs
      exact ⟨_, ⟨rfl, trivial⟩, h.work hin rfl ⟨hleft, List.getLast?_concat⟩⟩
  -- a receive of a copy does not fail, by the condition
  | recv =>
    have hin : g t ≠ .out := by rw [hp]; nofun
    cases i with
    | none =>
      cases hs
      exact ⟨_, ⟨rfl, fun hop => (hC hop rfl).elim⟩, h.work hin rfl trivial⟩
    | some reply =>
      cases hs
      exact ⟨_, ⟨rfl, fun _ => Option.some_ne_none reply⟩, h.work hin rfl hleft.1⟩

/-- **Who waits has asked**: in every run of any number of jobs, through any losses of the
connection, a thread that waits for a reply has sent its request on that connection,
when no receive of `copyFinalTemporal` fails. -/
theorem waits_on_its_request (rounds : ℕ) (operations : List (List FSOperation)) (es : List (ℕ × Option Packet))
    (P : Pool FSResp FSExit Unit FSLink)
    (hC : Along (Pool.step serveFS) (fun P x => P.Meets CopyAnswered x) (fsThreads rounds operations) es)
    (hrun : run (Pool.step serveFS) (fsThreads rounds operations) es = some P) (t : ℕ) (operation : FSOperation)
    (hat : P.At t (.recv operation)) : Awaited P.state operation := by
  have hstart : (fsThreads rounds operations).Ok (fun _ => fsSpec) (fun _ _ q => q = .out) (fun _ => Anywhere)
    Asked := by
    refine ⟨fun _ => .out, ⟨fun t hout => (hout rfl).elim, fun t => trivial, fun _ => Option.some_ne_none 0⟩,
      fun t p hp => ?_⟩
    obtain ⟨ops, -, rfl⟩ := List.mem_map.1 (List.mem_of_getElem? hp)
    exact Prog.ok_iterate (K := fun _ q => q = FSPhase.out)
      ops (fun done op rest q _ hq => hq ▸ exchange_ok rounds op) rfl
  obtain ⟨g, hg, hask⟩ := (Pool.ok_run asked_rule hstart hC hrun).pre hat
  have hleft := hg.left t
  have hask' : (g t).MayAsk (.recv operation) := hask
  generalize g t = p at hask' hleft
  cases hask'
  exact hleft

/-- A job that asks for the blocks of a file, and one that asks for the copy of a result. -/
def twoJobs : Pool FSResp FSExit Unit FSLink :=
  fsThreads 3 [[.fileBlocks (cstr "/a")], [.copyFinal (cstr "n") (cstr "/r") (.strcpy (cstr "t") (by decide))]]

/-- The connection is lost at the request for the blocks, at its reply and at its second sending. -/
def threeLosses : List (ℕ × Option Packet) :=
  [(0, some []), (0, none), (0, some []), (0, some []), (0, some []), (0, some []), (0, none), (0, some []),
    (0, some []), (0, some []), (0, none), (0, some []), (0, some []), (0, some []), (0, some [])]

theorem waits_on_its_request_threeLosses : ∃ P, run (Pool.step serveFS) twoJobs threeLosses = some P ∧
    P.At 0 (.recv (.fileBlocks (cstr "/a"))) ∧ Awaited P.state (.fileBlocks (cstr "/a")) := by
  obtain ⟨P, hP, hat, hC⟩ : ∃ P ∈ run (Pool.step serveFS) twoJobs threeLosses,
      P.At 0 (.recv (.fileBlocks (cstr "/a"))) ∧
        Along (Pool.step serveFS) (fun P x => P.Meets CopyAnswered x) twoJobs threeLosses := by
    decide +kernel
  exact ⟨P, hP, hat, waits_on_its_request _ _ _ _ hC hP _ _ hat⟩

/-- **A wait for nothing.** The reply to a copy is lost: the job waits, inside
`MFileSystem`, on a new connection that nothing has been sent on. -/
theorem waits_unasked : ∃ P, run (Pool.step serveFS)
      (fsThreads 2 [[.copyFinal (cstr "n") (cstr "/r") (.strcpy (cstr "t") (by decide))]])
      [(0, some []), (0, some []), (0, none), (0, some []), (0, some []), (0, some [])] = some P ∧
    P.At 0 (.recv (.copyFinal (cstr "n") (cstr "/r") (.strcpy (cstr "t") (by decide)))) ∧
    P.state.log = [] ∧ ¬Awaited P.state (.copyFinal (cstr "n") (cstr "/r") (.strcpy (cstr "t") (by decide))) := by
  decide +kernel

end Mdfs.MaRTA
