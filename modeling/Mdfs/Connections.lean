import Mdfs.Lib.Links
import Mdfs.Utils.Handshake

/-!
# Who connects to whom

The FileSystem, MaRTA and the nodes listen. Each has a loop that accepts a connection, shakes
hands on it (`socket_handshake_to_client`) and starts a thread for it; the handshake is made
inside the loop, so that one client is served after the other. MaRTA and the nodes connect to
the FileSystem, a Job to MaRTA and to the nodes, and a node to another, and each begins with
`socket_handshake_to_server`. Here both sides are programs over the connections of a
`Lib.Links` pool.

* `ok_handshakeToClient`, `ok_handshakeToServer`: what each side can return, and what it has
  sent and received by then.
* `ok_listen`: after each round of the loop every connection accepted is settled.
* `exec_handshakeToServer`: alone, the client's side is `socketHandshakeToServer`.
-/

namespace Mdfs.Connections

open Lib Links

def SOCKET_ERROR_CONNECT : ℤ := -7

/-- What a thread is started for. -/
inductive Kind
  | node
  | marta
  | job
  deriving DecidableEq

def Kind.handshake : Kind → ℕ
  | .node => HANDSHAKE_NODO
  | .marta => HANDSHAKE_MARTA
  | .job => HANDSHAKE_JOB

/-- What a listener asks beside its sockets. -/
inductive Aside
  /-- Whether `connections_node_getActiveConnectedCount` has reached `minNodesCount`. -/
  | enough (c : ℕ)
  /-- `pthread_create`, for the connection: whether there is a thread. -/
  | create (kind : Kind) (c : ℕ)
  deriving DecidableEq

abbrev Says (_ : Aside) : Type := Bool

abbrev SockReq := Links.Req Packet Aside
abbrev Answer (r : SockReq) : Type := r.Ans Says
abbrev SockProg := Prog Answer Empty
abbrev SockRecord := Record Says Packet

def ask (r : SockReq) : SockProg (Answer r) := .ask r .ret

/-- `socket_send_string`. -/
def socketSendString (socket : ℕ) : Option CStr → SockProg ℤ
  | none => pure SOCKET_ERROR_SEND
  | some string => do
    let sent : Bool ← ask (.send socket (stringPacket string))
    pure (if sent then SOCKET_ERROR_NONE else SOCKET_ERROR_SEND)

/-- `_check_handshake`, on what comes from the socket. -/
def recvHandshake (socket : ℕ) (handshake : ℕ) : SockProg ℤ := do
  let packet : Option Packet ← ask (.recv socket)
  pure (checkHandshake packet handshake)

/-- `socket_handshake_to_server`. -/
def handshakeToServer (socket : ℕ) (hiserver hiclient : ℕ) : SockProg ℤ := do
  let server ← recvHandshake socket hiserver
  if server < 0 then
    pure server
  else
    let sent ← socketSendString socket (getHandshakeMsg hiclient)
    if sent < 0 then
      pure SOCKET_ERROR_SEND
    else
      let wellcome ← recvHandshake socket HANDSHAKE_WELCOME
      let wellcome := if wellcome = SOCKET_ERROR_HANDSHAKE then SOCKET_ERROR_WELCOME else wellcome
      pure (if wellcome < 0 then wellcome else server)

/-- `socket_handshake_to_client`. -/
def handshakeToClient (socket : ℕ) (hiserver hiclient : ℕ) : SockProg ℤ := do
  let sent ← socketSendString socket (getHandshakeMsg hiserver)
  if sent < 0 then
    pure SOCKET_ERROR_SEND
  else
    let client ← recvHandshake socket hiclient
    if client < 0 then
      pure client
    else
      let sent ← socketSendString socket (some (cstr "WELCOME"))
      if sent < 0 then pure SOCKET_ERROR_WELCOME else pure client

/-! ## The listeners -/

/-- The loop of a listener, for so many connections. `stops`: the loop is left when there is
nothing to accept. Otherwise it goes on with an invalid socket, on which the handshake fails at
its first send. -/
def listen (hiserver hiclient : ℕ) (stops : Bool) (attend : ℕ → ℤ → SockProg Unit) : ℕ → SockProg ℤ
  | 0 => pure 0
  | rounds + 1 => do
    let accepted : Option ℕ ← ask .accept
    match accepted with
    | none => if stops then pure 0 else listen hiserver hiclient stops attend rounds
    | some socket =>
      let handshake ← handshakeToClient socket hiserver hiclient
      attend socket handshake
      listen hiserver hiclient stops attend rounds

def create (kind : Kind) (socket : ℕ) : SockProg Bool := ask (.other (.create kind socket))

/-- The FileSystem starts a thread for a node, and one for MaRTA when there are nodes enough. -/
def fileSystemAttend (socket : ℕ) (handshake : ℤ) : SockProg Unit := do
  if handshake = HANDSHAKE_NODO then
    let _ ← create .node socket
  else if handshake = HANDSHAKE_MARTA then
    let enough : Bool ← ask (.other (.enough socket))
    if enough then
      let _ ← create .marta socket
    else
      ask (.close socket)

/-- MaRTA starts a thread for a Job. -/
def martaAttend (socket : ℕ) (handshake : ℤ) : SockProg Unit := do
  if handshake = HANDSHAKE_JOB then
    let _ ← create .job socket

/-- A node starts a thread for a Job or for another node, and shuts the socket when it cannot. -/
def nodoAttend (socket : ℕ) (handshake : ℤ) : SockProg Unit := do
  if handshake = HANDSHAKE_JOB then
    let created ← create .job socket
    if !created then ask (.close socket)
  else if handshake = HANDSHAKE_NODO then
    let created ← create .node socket
    if !created then ask (.close socket)

/-- The programs that listen. -/
inductive Server
  | fileSystem
  | marta
  | nodo
  deriving DecidableEq

def Server.hiserver : Server → ℕ
  | .fileSystem => HANDSHAKE_FILESYSTEM
  | .marta => HANDSHAKE_MARTA
  | .nodo => HANDSHAKE_NODO

/-- Whom a listener lets in. -/
def Server.hiclient : Server → ℕ
  | .fileSystem => HANDSHAKE_MARTA ||| HANDSHAKE_NODO
  | .marta => HANDSHAKE_JOB
  | .nodo => HANDSHAKE_JOB ||| HANDSHAKE_NODO

def Server.attend : Server → ℕ → ℤ → SockProg Unit
  | .fileSystem => fileSystemAttend
  | .marta => martaAttend
  | .nodo => nodoAttend

/-- `connections_listenerThread` of the FileSystem and of the nodes, and `listenJobs` of MaRTA, which does not stop
when there is nothing to accept. -/
def Server.listener (server : Server) : ℕ → SockProg ℤ :=
  listen server.hiserver server.hiclient (server ≠ .marta) server.attend

/-! ## The callers -/

/-- The codes that a greeting can stand for. -/
def handshakes : List ℕ := [HANDSHAKE_WELCOME, HANDSHAKE_MARTA, HANDSHAKE_FILESYSTEM, HANDSHAKE_JOB, HANDSHAKE_NODO]

/-- Whom a program connects to, as whom, and what makes it shut the socket after the handshake. It has a greeting of
its own, and does not shut the socket when the handshake went well. -/
structure Caller where
  hiserver : ℕ
  hiclient : ℕ
  shuts : ℤ → Bool
  greets : (getHandshakeMsg hiclient).isSome = true
  keeps : ∀ code ∈ handshakes, code &&& hiserver ≠ 0 → shuts code = false

/-- `connectFS` of MaRTA. -/
def connectFS : Caller where
  hiserver := HANDSHAKE_FILESYSTEM
  hiclient := HANDSHAKE_MARTA
  shuts server := server ≠ HANDSHAKE_FILESYSTEM
  greets := rfl
  keeps := by decide

/-- `connections_fs_connect` of a node. -/
def fsConnect : Caller where
  hiserver := HANDSHAKE_FILESYSTEM
  hiclient := HANDSHAKE_NODO
  shuts server := server ≠ HANDSHAKE_FILESYSTEM
  greets := rfl
  keeps := by decide

/-- `connections_node_getFileContent` of a node. -/
def getFileContent : Caller where
  hiserver := HANDSHAKE_NODO
  hiclient := HANDSHAKE_NODO
  shuts server := server ≠ HANDSHAKE_NODO
  greets := rfl
  keeps := by decide

/-- `conectarMarta` of a Job. -/
def conectarMarta : Caller where
  hiserver := HANDSHAKE_MARTA
  hiclient := HANDSHAKE_JOB
  shuts server := server = 0
  greets := rfl
  keeps := by decide

/-- `atenderMapper` and `atenderReducer` of a Job, which do not shut the socket when the handshake fails. -/
def conectarNodo : Caller where
  hiserver := HANDSHAKE_NODO
  hiclient := HANDSHAKE_JOB
  shuts _ := false
  greets := rfl
  keeps _ _ _ := rfl

/-- Connecting, and the handshake. -/
def Caller.call (caller : Caller) (socket : ℕ) : SockProg ℤ := do
  let connected : Bool ← ask .connect
  if connected then
    let server ← handshakeToServer socket caller.hiserver caller.hiclient
    if caller.shuts server then
      ask (.close socket)
    pure server
  else
    pure SOCKET_ERROR_CONNECT

/-- Each lets the other in. -/
def Suits (server : Server) (caller : Caller) : Prop :=
  server.hiserver &&& caller.hiserver ≠ 0 ∧ caller.hiclient &&& server.hiclient ≠ 0

instance (server : Server) (caller : Caller) : Decidable (Suits server caller) :=
  inferInstanceAs (Decidable (_ ∧ _))

/-! ## Greetings -/

/-- The packet of a greeting. -/
def greeting (handshake : ℕ) : Packet := stringPacket ((getHandshakeMsg handshake).getD [])

def welcome : Packet := stringPacket (cstr "WELCOME")

/-- Those with a greeting of their own. -/
theorem greets_cases {handshake : ℕ} (h : (getHandshakeMsg handshake).isSome = true) :
    handshake = HANDSHAKE_MARTA ∨ handshake = HANDSHAKE_FILESYSTEM ∨ handshake = HANDSHAKE_NODO ∨
      handshake = HANDSHAKE_JOB := by
  by_contra hne
  push Not at hne
  obtain ⟨hmarta, hfs, hnodo, hjob⟩ := hne
  unfold getHandshakeMsg at h
  rw [if_neg hmarta, if_neg hfs, if_neg hnodo, if_neg hjob] at h
  cases h

/-- **A greeting stands for its code.** -/
theorem checkHandshake_greeting {handshake : ℕ} (h : (getHandshakeMsg handshake).isSome = true) (permitted : ℕ) :
    checkHandshake (some (greeting handshake)) permitted =
      if handshake &&& permitted ≠ 0 then (handshake : ℤ) else SOCKET_ERROR_HANDSHAKE := by
  have hrecv : socketRecvString (some (greeting handshake)) = .ok ((getHandshakeMsg handshake).getD []) ∧
      getHandshakeCode ((getHandshakeMsg handshake).getD []) = handshake := by
    rcases greets_cases h with rfl | rfl | rfl | rfl
    · decide +kernel
    · decide +kernel
    · decide +kernel
    · decide +kernel
  unfold checkHandshake
  rw [hrecv.1]
  dsimp only
  rw [hrecv.2]

/-- Who is let through with its greeting is permitted. -/
theorem permitted_of_greeting {handshake permitted : ℕ} (h : (getHandshakeMsg handshake).isSome = true)
    (hin : 0 ≤ checkHandshake (some (greeting handshake)) permitted) :
    handshake &&& permitted ≠ 0 ∧ checkHandshake (some (greeting handshake)) permitted = handshake := by
  rw [checkHandshake_greeting h] at hin ⊢
  by_cases hpermitted : handshake &&& permitted ≠ 0
  · exact ⟨hpermitted, if_pos hpermitted⟩
  · rw [if_neg hpermitted] at hin
    exact absurd hin (by decide)

theorem checkHandshake_welcome : checkHandshake (some welcome) HANDSHAKE_WELCOME = HANDSHAKE_WELCOME := by
  decide +kernel

/-- What a check lets through is a known code. -/
theorem checkHandshake_mem {packet : Option Packet} {permitted : ℕ} (h : 0 ≤ checkHandshake packet permitted) :
    ∃ code ∈ handshakes, code &&& permitted ≠ 0 ∧ checkHandshake packet permitted = code := by
  unfold checkHandshake at h ⊢
  cases hrecv : socketRecvString packet with
  | error recive =>
    rw [hrecv] at h
    have hneg := socketRecvString_error hrecv
    dsimp only at h
    omega
  | ok hi =>
    rw [hrecv] at h
    dsimp only at h ⊢
    by_cases hcode : getHandshakeCode hi &&& permitted ≠ 0
    · refine ⟨getHandshakeCode hi, ?_, hcode, if_pos hcode⟩
      have hcases : getHandshakeCode hi = 0 ∨ getHandshakeCode hi ∈ handshakes := by
        unfold getHandshakeCode
        split_ifs <;> simp [handshakes]
      rcases hcases with hzero | hmem
      · rw [hzero, Nat.zero_and] at hcode
        exact absurd rfl hcode
      · exact hmem
    · rw [if_neg hcode] at h
      exact absurd h (by decide)

theorem Server.greets (server : Server) : (getHandshakeMsg server.hiserver).isSome = true := by
  cases server <;> rfl

/-! ## Requests -/

section Requests

variable {sure : Prop} {t c : ℕ} {P : SockRecord → SockReq → Prop} {Q : ℤ → SockRecord → Prop}
  {E : Empty → SockRecord → Prop} {g : SockRecord}

theorem ok_socketSendString {hi : CStr} (hown : Own t (.send c (stringPacket hi) : SockReq))
    (hP : P g (.send c (stringPacket hi)))
    (hsent : Q SOCKET_ERROR_NONE (g.note c ((g.log c).say (stringPacket hi)))) (hfail : ¬sure → Q SOCKET_ERROR_SEND g) :
    (socketSendString c (some hi)).Ok (spec sure t P) Q E g := by
  unfold socketSendString ask
  rw [Prog.ok_bind]
  apply ok_ask hown hP
  intro sent _ hsure
  cases sent with
  | true => exact hsent
  | false => exact hfail fun h => by simpa [failing] using hsure h

theorem ok_recvHandshake {handshake : ℕ} (hown : Own t (.recv c : SockReq)) (hP : P g (.recv c))
    (hheard : ∀ m, Q (checkHandshake (some m) handshake) (g.note c ((g.log c).hear m)))
    (hfail : ¬sure → Q SOCKET_ERROR_RECV g) : (recvHandshake c handshake).Ok (spec sure t P) Q E g := by
  unfold recvHandshake ask
  rw [Prog.ok_bind]
  apply ok_ask hown hP
  intro packet _ hsure
  cases packet with
  | some m => exact hheard m
  | none => exact hfail fun h => by simpa [failing] using hsure h

end Requests

/-! ## The server's side -/

/-- The server has let a client in, as `v`. -/
structure Admits (server : Server) (l : Log Packet) (v : ℤ) : Prop where
  sent : l.sent = [greeting server.hiserver, welcome]
  received : ∃ m, l.received = [m] ∧ checkHandshake (some m) server.hiclient = v
  nonneg : 0 ≤ v

/-- The server has not let a client in. -/
def Refuses (server : Server) (l : Log Packet) : Prop := ∃ m, l.received = [m] ∧
    checkHandshake (some m) server.hiclient < 0

/-- There has been a thread for the client let in as `v`, or an attempt at one, or too few nodes for MaRTA. -/
def Attended (others : List (Call Says)) (c : ℕ) (v : ℤ) : Prop :=
  (∃ kind : Kind, (kind.handshake : ℤ) = v ∧ Aside.create kind c ∈ others.map Call.request) ∨
    (v = HANDSHAKE_MARTA ∧ (⟨.enough c, false⟩ : Call Says) ∈ others)

/-- The server is done with a connection. -/
structure Settled (sure : Prop) (server : Server) (g : SockRecord) (c : ℕ) : Prop where
  attended : ∀ v, Admits server (g.log c) v → Attended g.others c v
  decided : sure → (∃ v, Admits server (g.log c) v) ∨ Refuses server (g.log c)

/-- The server has done nothing on a connection yet. -/
structure Untouched (g : SockRecord) (c : ℕ) : Prop where
  log : g.log c = .blank
  closed : g.closed c = false
  created : ∀ kind, Aside.create kind c ∉ g.others.map Call.request

/-- What is true of all connections between two rounds. -/
def Idle (sure : Prop) (server : Server) (g : SockRecord) : Prop :=
  ∀ c, (c ∈ g.accepted → Settled sure server g c) ∧ (c ∉ g.accepted → Untouched g c)

/-- **What a listener may ask**, by what it has done. -/
def serverAsks (sure : Prop) (server : Server) (g : SockRecord) : SockReq → Prop
  | .accept => Idle sure server g
  | .send c b => c ∈ g.accepted ∧ g.closed c = false ∧ (g.log c = .blank ∧ b = greeting server.hiserver ∨
      (∃ m, g.log c = ⟨[greeting server.hiserver], [m]⟩ ∧ 0 ≤ checkHandshake (some m) server.hiclient) ∧ b = welcome)
  | .recv c => c ∈ g.accepted ∧ g.closed c = false ∧ g.log c = ⟨[greeting server.hiserver], []⟩
  | .close c => ∃ v, Admits server (g.log c) v
  | .other (.create kind c) => Admits server (g.log c) kind.handshake ∧
      ∀ kind', Aside.create kind' c ∉ g.others.map Call.request
  | .other (.enough _) => True
  | .connect => False

/-- `g'` goes on from `g` on connection `c` alone. -/
structure Beside (c : ℕ) (g g' : SockRecord) : Prop where
  log : ∀ c', c' ≠ c → g'.log c' = g.log c'
  closed : ∀ c', c' ≠ c → g'.closed c' = g.closed c'
  accepted : g'.accepted = g.accepted
  others : ∃ new, g'.others = g.others ++ new ∧ ∀ kind c', Aside.create kind c' ∈ new.map Call.request → c' = c

/-- What is true of the other connections than `c` between two rounds. -/
def Apart (sure : Prop) (server : Server) (g : SockRecord) (c : ℕ) : Prop :=
  ∀ c', c' ≠ c → (c' ∈ g.accepted → Settled sure server g c') ∧ (c' ∉ g.accepted → Untouched g c')

variable {sure : Prop} {server : Server} {g g' g'' : SockRecord} {c : ℕ} {v : ℤ} {E : Empty → SockRecord → Prop}

namespace Beside

theorem refl (c : ℕ) (g : SockRecord) : Beside c g g :=
  ⟨fun _ _ => rfl, fun _ _ => rfl, rfl, [], (List.append_nil _).symm, fun _ _ h => absurd h List.not_mem_nil⟩

theorem trans (h : Beside c g g') (h' : Beside c g' g'') : Beside c g g'' := by
  obtain ⟨new, hnew, honly⟩ := h.others
  obtain ⟨new', hnew', honly'⟩ := h'.others
  refine ⟨fun c' hne => ?_, fun c' hne => ?_, h'.accepted.trans h.accepted, new ++ new', ?_, fun kind c' hmem => ?_⟩
  · rw [h'.log c' hne, h.log c' hne]
  · rw [h'.closed c' hne, h.closed c' hne]
  · rw [hnew', hnew, List.append_assoc]
  · rw [List.map_append, List.mem_append] at hmem
    rcases hmem with hmem | hmem
    · exact honly kind c' hmem
    · exact honly' kind c' hmem

theorem note (c : ℕ) (g : SockRecord) (l : Log Packet) : Beside c g (g.note c l) :=
  ⟨fun _ hne => g.note_log_of_ne l hne, fun _ _ => rfl, rfl, [], (List.append_nil _).symm,
    fun _ _ h => absurd h List.not_mem_nil⟩

theorem hangUp (c : ℕ) (g : SockRecord) : Beside c g (g.hangUp c) :=
  ⟨fun _ _ => rfl, fun _ hne => Function.update_of_ne hne .., rfl, [], (List.append_nil _).symm,
    fun _ _ h => absurd h List.not_mem_nil⟩

/-- The other connections stay as they are. -/
theorem apart (h : Beside c g g') (hapart : Apart sure server g c) : Apart sure server g' c := by
  obtain ⟨new, hnew, honly⟩ := h.others
  intro c' hne
  obtain ⟨hsettled, huntouched⟩ := hapart c' hne
  rw [h.accepted]
  constructor
  · intro hmem
    have hbefore := hsettled hmem
    constructor
    · intro v hv
      rw [h.log c' hne] at hv
      rw [hnew]
      rcases hbefore.attended v hv with ⟨kind, hkind, hcreate⟩ | ⟨hmarta, hfew⟩
      · exact Or.inl ⟨kind, hkind, by rw [List.map_append]; exact List.mem_append_left _ hcreate⟩
      · exact Or.inr ⟨hmarta, List.mem_append_left _ hfew⟩
    · rw [h.log c' hne]
      exact hbefore.decided
  · intro hmem
    have hbefore := huntouched hmem
    constructor
    · rw [h.log c' hne]
      exact hbefore.log
    · rw [h.closed c' hne]
      exact hbefore.closed
    · intro kind hcreate
      rw [hnew, List.map_append, List.mem_append] at hcreate
      rcases hcreate with hold | hnew
      · exact hbefore.created kind hold
      · exact hne (honly kind c' hnew)

end Beside

/-- What a handshake of the server has come to. -/
def Shaken (sure : Prop) (server : Server) (l : Log Packet) (v : ℤ) : Prop :=
  Admits server l v ∨ (v < 0 ∧ (∀ w, ¬Admits server l w) ∧ (sure → Refuses server l))

/-- What is new on one connection only. -/
abbrev Talked (c : ℕ) (g g' : SockRecord) : Prop :=
  Beside c g g' ∧ g'.others = g.others ∧ g'.closed = g.closed

/-- **The handshake of the server.** -/
theorem ok_handshakeToClient (hc : c ≠ 0) (hmem : c ∈ g.accepted) (hblank : g.log c = .blank)
    (hclosed : g.closed c = false) :
    (handshakeToClient c server.hiserver server.hiclient).Ok (spec sure 0 (serverAsks sure server))
      (fun v g' => Talked c g g' ∧ Shaken sure server (g'.log c) v) E g := by
  have hfew : ∀ {l : Log Packet} {w : ℤ}, l.sent.length ≤ 1 → ¬Admits server l w := by
    intro l w hl hadmits
    rw [hadmits.sent] at hl
    simp at hl
  have hown : c ≠ 0 ∧ (0 = 0 ∨ c = 0) := ⟨hc, Or.inl rfl⟩
  obtain ⟨hi, hhi⟩ := Option.isSome_iff_exists.1 server.greets
  have hgreeting : stringPacket hi = greeting server.hiserver := by rw [greeting, hhi]; rfl
  unfold handshakeToClient
  rw [Prog.ok_bind, hhi]
  refine ok_socketSendString hown ⟨hmem, hclosed, Or.inl ⟨hblank, hgreeting⟩⟩ ?_ ?_
  · rw [if_neg (by decide), Prog.ok_bind, hgreeting, hblank]
    have hsaid : (g.note c (Log.blank.say (greeting server.hiserver))).log c = ⟨[greeting server.hiserver], []⟩ :=
      Record.note_log ..
    refine ok_recvHandshake hown ⟨hmem, hclosed, hsaid⟩ ?_ ?_
    · intro m
      rw [hsaid, Record.note_note]
      have hheard : (g.note c (Log.hear ⟨[greeting server.hiserver], []⟩ m)).log c =
        ⟨[greeting server.hiserver], [m]⟩ :=
        Record.note_log ..
      by_cases hneg : checkHandshake (some m) server.hiclient < 0
      · rw [if_pos hneg]
        refine ⟨⟨Beside.note c g _, rfl, rfl⟩, Or.inr ⟨hneg, fun w => hfew ?_, fun _ => ?_⟩⟩
        · rw [hheard]
          exact le_refl 1
        · rw [hheard]
          exact ⟨m, rfl, hneg⟩
      · have hnonneg : 0 ≤ checkHandshake (some m) server.hiclient := by omega
        rw [if_neg hneg, Prog.ok_bind]
        refine ok_socketSendString hown ⟨hmem, hclosed, Or.inr ⟨⟨m, hheard, hnonneg⟩, rfl⟩⟩ ?_ ?_
        · rw [if_neg (by decide), hheard, Record.note_note]
          refine ⟨⟨Beside.note c g _, rfl, rfl⟩, Or.inl ?_⟩
          rw [Record.note_log]
          exact ⟨rfl, ⟨m, rfl, rfl⟩, hnonneg⟩
        · intro hunsure
          rw [if_pos (by decide)]
          refine ⟨⟨Beside.note c g _, rfl, rfl⟩, Or.inr ⟨by decide, fun w => hfew ?_, fun h => absurd h hunsure⟩⟩
          rw [hheard]
          exact le_refl 1
    · intro hunsure
      rw [if_pos (by decide)]
      refine ⟨⟨Beside.note c g _, rfl, rfl⟩, Or.inr ⟨by decide, fun w => hfew ?_, fun h => absurd h hunsure⟩⟩
      rw [hsaid]
      exact le_refl 1
  · intro hunsure
    rw [if_pos (by decide)]
    refine ⟨⟨Beside.refl c g, rfl, rfl⟩, Or.inr ⟨by decide, fun w => hfew ?_, fun h => absurd h hunsure⟩⟩
    rw [hblank]
    exact Nat.zero_le 1

theorem Admits.unique {l : Log Packet} {w : ℤ} (h : Admits server l v) (h' : Admits server l w) : w = v := by
  obtain ⟨m, hm, hv⟩ := h.received
  obtain ⟨m', hm', hw⟩ := h'.received
  rw [hm, List.cons.injEq] at hm'
  rw [← hw, ← hv, hm'.1]

theorem Admits.settled (h : Admits server (g.log c) v) (hattended : Attended g.others c v) :
    Settled sure server g c := by
  refine ⟨fun w hw => ?_, fun _ => Or.inl ⟨v, h⟩⟩
  rw [h.unique hw]
  exact hattended

/-- The codes of those that a server lets in. -/
theorem Admits.code {l : Log Packet} (h : Admits server l v) :
    ∃ code ∈ handshakes, code &&& server.hiclient ≠ 0 ∧ v = code := by
  obtain ⟨m, hm, hv⟩ := h.received
  have hnonneg := h.nonneg
  rw [← hv] at hnonneg ⊢
  exact checkHandshake_mem hnonneg

theorem ok_create (kind : Kind) (hadmits : Admits server (g.log c) kind.handshake)
    (hnew : ∀ kind', Aside.create kind' c ∉ g.others.map Call.request) :
    (create kind c).Ok (spec sure 0 (serverAsks sure server))
      (fun _ g' => Beside c g g' ∧ g'.log = g.log ∧ Aside.create kind c ∈ g'.others.map Call.request) E g := by
  unfold create ask
  refine ok_ask rfl ⟨hadmits, hnew⟩ ?_
  intro created _ _
  refine ⟨⟨fun _ _ => rfl, fun _ _ => rfl, rfl, [⟨.create kind c, created⟩], rfl, ?_⟩, rfl, ?_⟩
  · intro kind' c' hmem
    cases List.mem_singleton.1 hmem
    rfl
  · simp [Record.after]

theorem ok_shut (hc : c ≠ 0) (hadmits : Admits server (g.log c) v) :
    (ask (.close c)).Ok (spec sure 0 (serverAsks sure server))
      (fun _ g' => Beside c g g' ∧ g'.log = g.log ∧ g'.others = g.others) E g := by
  unfold ask
  refine ok_ask ⟨hc, Or.inl rfl⟩ ⟨v, hadmits⟩ ?_
  intro _ _ _
  exact ⟨Beside.hangUp c g, rfl, rfl⟩

/-- A thread for a client let in, and the socket shut when there is none. -/
theorem ok_createElseShut (kind : Kind) (hc : c ≠ 0) (hadmits : Admits server (g.log c) kind.handshake)
    (hnew : ∀ kind', Aside.create kind' c ∉ g.others.map Call.request) :
    (do let created ← create kind c; if !created then ask (.close c) : SockProg Unit).Ok
      (spec sure 0 (serverAsks sure server))
      (fun _ g' => Beside c g g' ∧ Settled sure server g' c) E g := by
  rw [Prog.ok_bind]
  refine (ok_create kind hadmits hnew).imp fun created g' hg' => ?_
  obtain ⟨hbeside, hlog, hcreated⟩ := hg'
  have hadmits' : Admits server (g'.log c) kind.handshake := by rwa [hlog]
  have hattended : Attended g'.others c kind.handshake := Or.inl ⟨kind, rfl, hcreated⟩
  cases created with
  | true => exact ⟨hbeside, hadmits'.settled hattended⟩
  | false =>
    refine (ok_shut hc hadmits').imp fun _ g'' hg'' => ?_
    obtain ⟨hbeside', hlog', hothers⟩ := hg''
    refine ⟨hbeside.trans hbeside', Admits.settled (v := kind.handshake) ?_ ?_⟩
    · rwa [hlog']
    · rwa [hothers]

/-- **What becomes of a connection after the handshake.** -/
theorem ok_attend (hc : c ≠ 0) (hshaken : Shaken sure server (g.log c) v)
    (hnew : ∀ kind, Aside.create kind c ∉ g.others.map Call.request) :
    (server.attend c v).Ok (spec sure 0 (serverAsks sure server))
      (fun _ g' => Beside c g g' ∧ Settled sure server g' c) E g := by
  rcases hshaken with hadmits | ⟨hneg, hnot, hrefuses⟩
  · obtain ⟨code, hmem, hmask, rfl⟩ := hadmits.code
    cases server with
    | fileSystem =>
      have hpermitted : ∀ code ∈ handshakes, code &&& Server.fileSystem.hiclient ≠ 0 → code = HANDSHAKE_NODO ∨
        code = HANDSHAKE_MARTA := by decide
      have hcode := hpermitted code hmem hmask
      show (fileSystemAttend c code).Ok _ _ _ _
      unfold fileSystemAttend
      rcases hcode with rfl | rfl
      · rw [if_pos rfl, Prog.ok_bind]
        refine (ok_create .node hadmits hnew).imp fun _ g' hg' => ?_
        obtain ⟨hbeside, hlog, hcreated⟩ := hg'
        exact ⟨hbeside, Admits.settled (by rwa [hlog]) (Or.inl ⟨.node, rfl, hcreated⟩)⟩
      · rw [if_neg (by decide), if_pos rfl, Prog.ok_bind]
        refine ok_ask (k := .ret) rfl trivial ?_
        intro enough _ _
        have hbeside : Beside c g (g.after (.other (.enough c)) enough) := by
          refine ⟨fun _ _ => rfl, fun _ _ => rfl, rfl, [⟨.enough c, enough⟩], rfl, fun kind c' hmem => ?_⟩
          cases List.mem_singleton.1 hmem
        have hnew' : ∀ kind, Aside.create kind c ∉ (g.after (.other (.enough c)) enough).others.map Call.request := by
          simpa [Record.after] using hnew
        have hadmits' : Admits .fileSystem ((g.after (.other (.enough c)) enough).log c) HANDSHAKE_MARTA := hadmits
        cases enough with
        | true =>
          rw [Prog.ok_ret, if_pos rfl, Prog.ok_bind]
          refine (ok_create .marta hadmits' hnew').imp fun _ g' hg' => ?_
          obtain ⟨hbeside', hlog, hcreated⟩ := hg'
          exact ⟨hbeside.trans hbeside', Admits.settled (by rwa [hlog]) (Or.inl ⟨.marta, rfl, hcreated⟩)⟩
        | false =>
          rw [Prog.ok_ret, if_neg (by decide)]
          refine (ok_shut hc hadmits').imp fun _ g' hg' => ?_
          obtain ⟨hbeside', hlog, hothers⟩ := hg'
          refine ⟨hbeside.trans hbeside', Admits.settled (by rwa [hlog]) (Or.inr ⟨rfl, ?_⟩)⟩
          rw [hothers]
          exact List.mem_append_right _ List.mem_cons_self
    | marta =>
      have hpermitted : ∀ code ∈ handshakes, code &&& Server.marta.hiclient ≠ 0 → code = HANDSHAKE_JOB := by decide
      have hcode := hpermitted code hmem hmask
      show (martaAttend c code).Ok _ _ _ _
      unfold martaAttend
      subst hcode
      rw [if_pos rfl, Prog.ok_bind]
      refine (ok_create .job hadmits hnew).imp fun _ g' hg' => ?_
      obtain ⟨hbeside, hlog, hcreated⟩ := hg'
      exact ⟨hbeside, Admits.settled (by rwa [hlog]) (Or.inl ⟨.job, rfl, hcreated⟩)⟩
    | nodo =>
      have hpermitted : ∀ code ∈ handshakes, code &&& Server.nodo.hiclient ≠ 0 → code = HANDSHAKE_JOB ∨
        code = HANDSHAKE_NODO := by decide
      have hcode := hpermitted code hmem hmask
      show (nodoAttend c code).Ok _ _ _ _
      unfold nodoAttend
      rcases hcode with rfl | rfl
      · rw [if_pos rfl]
        exact ok_createElseShut .job hc hadmits hnew
      · rw [if_neg (by decide), if_pos rfl]
        exact ok_createElseShut .node hc hadmits hnew
  · have hnothing : Beside c g g ∧ Settled sure server g c :=
      ⟨Beside.refl c g, fun w hw => absurd hw (hnot w), fun h => Or.inr (hrefuses h)⟩
    have hnodo : v ≠ HANDSHAKE_NODO := fun heq => by rw [heq] at hneg; exact absurd hneg (by decide)
    have hmarta : v ≠ HANDSHAKE_MARTA := fun heq => by rw [heq] at hneg; exact absurd hneg (by decide)
    have hjob : v ≠ HANDSHAKE_JOB := fun heq => by rw [heq] at hneg; exact absurd hneg (by decide)
    cases server with
    | fileSystem =>
      show (fileSystemAttend c v).Ok _ _ _ _
      unfold fileSystemAttend
      rw [if_neg hnodo, if_neg hmarta]
      exact hnothing
    | marta =>
      show (martaAttend c v).Ok _ _ _ _
      unfold martaAttend
      rw [if_neg hjob]
      exact hnothing
    | nodo =>
      show (nodoAttend c v).Ok _ _ _ _
      unfold nodoAttend
      rw [if_neg hjob, if_neg hnodo]
      exact hnothing

theorem idle_blank : Idle sure server Record.blank :=
  fun _ => ⟨fun h => absurd h List.not_mem_nil, fun _ => ⟨rfl, rfl, fun _ h => absurd h List.not_mem_nil⟩⟩

/-- **The loop of a listener**, whatever comes. -/
theorem ok_listen {rounds : ℕ} (hidle : Idle sure server g) :
    (listen server.hiserver server.hiclient (server ≠ .marta) server.attend rounds).Ok
      (spec sure 0 (serverAsks sure server))
      (fun _ g' => Idle sure server g' ∧ (sure → g'.accepted.length = g.accepted.length + rounds)) E g := by
  induction rounds generalizing g with
  | zero => exact ⟨hidle, fun _ => rfl⟩
  | succ rounds ih =>
    unfold listen
    rw [Prog.ok_bind]
    refine ok_ask (k := .ret) rfl hidle fun accepted hfine hsure => ?_
    rw [Prog.ok_ret]
    cases accepted with
    | none =>
      have hunsure : ¬sure := fun h => by simpa [failing] using hsure h
      show Prog.Ok _ _ _ (if decide (server ≠ .marta) = true then pure 0 else _) g
      split
      · exact ⟨hidle, fun h => absurd h hunsure⟩
      · exact (ih hidle).imp fun _ g' hg' => ⟨hg'.1, fun h => absurd h hunsure⟩
    | some c =>
      obtain ⟨hc, hnew⟩ : c ≠ 0 ∧ c ∉ g.accepted := hfine
      have huntouched := (hidle c).2 hnew
      have hmem : c ∈ (g.after .accept (some c)).accepted := List.mem_append_right _ List.mem_cons_self
      have hapart : Apart sure server (g.after .accept (some c)) c := by
        intro c' hne
        refine ⟨fun hmem' => ?_, fun hmem' => ?_⟩
        · rcases List.mem_append.1 hmem' with hold | hlast
          · have hsettled := (hidle c').1 hold
            exact ⟨hsettled.attended, hsettled.decided⟩
          · exact absurd (List.mem_singleton.1 hlast) hne
        · have hbefore := (hidle c').2 fun hold => hmem' (List.mem_append_left _ hold)
          exact ⟨hbefore.log, hbefore.closed, hbefore.created⟩
      show Prog.Ok _ _ _ (handshakeToClient c server.hiserver server.hiclient >>= _) (g.after .accept (some c))
      rw [Prog.ok_bind]
      refine (ok_handshakeToClient hc hmem huntouched.log huntouched.closed).imp fun v g₁ hg₁ => ?_
      obtain ⟨⟨hbeside, hothers, -⟩, hshaken⟩ := hg₁
      rw [Prog.ok_bind]
      refine (ok_attend hc hshaken (by rw [hothers]; exact huntouched.created)).imp fun _ g₂ hg₂ => ?_
      obtain ⟨hbeside', hsettled⟩ := hg₂
      have haccepted : g₂.accepted = g.accepted ++ [c] := hbeside'.accepted.trans hbeside.accepted
      have hapart' := (hbeside.trans hbeside').apart hapart
      have hidle' : Idle sure server g₂ := by
        intro c'
        by_cases hne : c' = c
        · subst hne
          exact ⟨fun _ => hsettled, fun hnot => absurd (haccepted ▸ hmem) hnot⟩
        · exact hapart' c' hne
      refine (ih hidle').imp fun _ g' hg' => ⟨hg'.1, fun h => ?_⟩
      rw [hg'.2 h, haccepted, List.length_append, List.length_singleton]
      omega

/-! ## The client's side -/

variable {caller : Caller}

/-- A client has turned the server away, or was answered something else than a welcome. -/
def Spurns (caller : Caller) (l : Log Packet) : Prop :=
  (∃ m, l.received = [m] ∧ checkHandshake (some m) caller.hiserver < 0) ∨
    ∃ m w, l.received = [m, w] ∧ checkHandshake (some w) HANDSHAKE_WELCOME < 0

/-- **What a caller may ask**, by what it has done. -/
def callerAsks (sure : Prop) (caller : Caller) (g : SockRecord) : SockReq → Prop
  | .connect => g.connected = false
  | .recv c => g.connected = true ∧ (g.log c = .blank ∨
      ∃ m, g.log c = ⟨[greeting caller.hiclient], [m]⟩ ∧ 0 ≤ checkHandshake (some m) caller.hiserver)
  | .send c b => b = greeting caller.hiclient ∧
      ∃ m, g.log c = ⟨[], [m]⟩ ∧ 0 ≤ checkHandshake (some m) caller.hiserver
  | .close c => sure → Spurns caller (g.log c)
  | .accept => False
  | .other _ => False

/-- What a call has come to. -/
structure Called (sure : Prop) (caller : Caller) (c : ℕ) (v : ℤ) (g : SockRecord) : Prop where
  went : 0 ≤ v → ∃ m w, g.log c = ⟨[greeting caller.hiclient], [m, w]⟩ ∧ checkHandshake (some m) caller.hiserver = v
  spurned : sure → v < 0 → Spurns caller (g.log c)
  connected : sure → g.connected = true

/-- **The handshake of the client.** -/
theorem ok_handshakeToServer (hc : c ≠ 0) (hblank : g.log c = .blank) (hconnected : g.connected = true) :
    (handshakeToServer c caller.hiserver caller.hiclient).Ok (spec sure c (callerAsks sure caller))
      (Called sure caller c) E g := by
  have hown : c ≠ 0 ∧ (c = 0 ∨ c = c) := ⟨hc, Or.inr rfl⟩
  have hlost : ∀ {g : SockRecord} {v : ℤ}, g.connected = true → v < 0 → ¬sure → Called sure caller c v g := by
    intro g v hconnected hneg hunsure
    exact ⟨fun h => by omega, fun h => absurd h hunsure, fun _ => hconnected⟩
  obtain ⟨hi, hhi⟩ := Option.isSome_iff_exists.1 caller.greets
  have hgreeting : stringPacket hi = greeting caller.hiclient := by rw [greeting, hhi]; rfl
  unfold handshakeToServer
  rw [Prog.ok_bind]
  refine ok_recvHandshake hown ⟨hconnected, Or.inl hblank⟩ (fun m => ?_) fun hunsure => ?_
  · rw [hblank]
    have hheard : (g.note c (Log.blank.hear m)).log c = ⟨[], [m]⟩ := Record.note_log ..
    by_cases hneg : checkHandshake (some m) caller.hiserver < 0
    · rw [if_pos hneg]
      refine ⟨fun h => by omega, fun _ _ => Or.inl ⟨m, ?_, hneg⟩, fun _ => hconnected⟩
      rw [hheard]
    · have hnonneg : 0 ≤ checkHandshake (some m) caller.hiserver := by omega
      rw [if_neg hneg, Prog.ok_bind, hhi]
      refine ok_socketSendString hown ⟨hgreeting, m, hheard, hnonneg⟩ ?_ fun hunsure => ?_
      · rw [if_neg (by decide), Prog.ok_bind, hheard, Record.note_note, hgreeting]
        have hsaid : (g.note c (Log.say ⟨[], [m]⟩ (greeting caller.hiclient))).log c =
          ⟨[greeting caller.hiclient], [m]⟩ :=
          Record.note_log ..
        refine ok_recvHandshake hown ⟨hconnected, Or.inr ⟨m, hsaid, hnonneg⟩⟩ (fun w => ?_) fun hunsure => ?_
        · rw [hsaid, Record.note_note]
          have hend : (g.note c (Log.hear ⟨[greeting caller.hiclient], [m]⟩ w)).log c =
            ⟨[greeting caller.hiclient], [m, w]⟩ :=
            Record.note_log ..
          have hwelcome : checkHandshake (some w) HANDSHAKE_WELCOME < 0 ↔
              (if checkHandshake (some w) HANDSHAKE_WELCOME = SOCKET_ERROR_HANDSHAKE then SOCKET_ERROR_WELCOME
                else checkHandshake (some w) HANDSHAKE_WELCOME) < 0 := by
            by_cases herror : checkHandshake (some w) HANDSHAKE_WELCOME = SOCKET_ERROR_HANDSHAKE
            · rw [if_pos herror, herror]
              decide
            · rw [if_neg herror]
          by_cases hunwelcome : checkHandshake (some w) HANDSHAKE_WELCOME < 0
          · have hneg' := hwelcome.1 hunwelcome
            show Called sure caller c (if _ < 0 then _ else _) _
            rw [if_pos hneg']
            refine ⟨fun h => by omega, fun _ _ => Or.inr ⟨m, w, ?_, hunwelcome⟩, fun _ => hconnected⟩
            rw [hend]
          · show Called sure caller c (if _ < 0 then _ else _) _
            rw [if_neg fun h => hunwelcome (hwelcome.2 h)]
            exact ⟨fun _ => ⟨m, w, hend, rfl⟩, fun _ h => by omega, fun _ => hconnected⟩
        · have hrecv : (if SOCKET_ERROR_RECV = SOCKET_ERROR_HANDSHAKE then SOCKET_ERROR_WELCOME
            else SOCKET_ERROR_RECV) < 0 := by
            decide
          show Called sure caller c (if _ < 0 then _ else _) _
          rw [if_pos hrecv]
          exact hlost hconnected hrecv hunsure
      · rw [if_pos (by decide)]
        exact hlost hconnected (by decide) hunsure
  · rw [if_pos (by decide)]
    exact hlost hconnected (by decide) hunsure

/-- **The call of a client.** -/
theorem ok_call (hc : c ≠ 0) (hblank : g.log c = .blank) (hconnected : g.connected = false) :
    (caller.call c).Ok (spec sure c (callerAsks sure caller)) (Called sure caller c) E g := by
  unfold Caller.call
  rw [Prog.ok_bind]
  refine ok_ask (k := .ret) hc hconnected fun connected _ hsure => ?_
  rw [Prog.ok_ret]
  cases connected with
  | false =>
    have hunsure : ¬sure := fun h => by simpa [failing] using hsure h
    exact ⟨fun h => absurd h (by decide), fun h => absurd h hunsure, fun h => absurd h hunsure⟩
  | true =>
    have hdone : (g.after .connect true).connected = true := by simp [Record.after]
    have hfresh : (g.after .connect true).log c = .blank := hblank
    rw [if_pos rfl, Prog.ok_bind]
    refine (ok_handshakeToServer hc hfresh hdone).imp fun v g' hcalled => ?_
    by_cases hshuts : caller.shuts v = true
    · have hneg : v < 0 := by
        by_contra hnonneg
        obtain ⟨m, w, -, hv⟩ := hcalled.went (by omega)
        obtain ⟨code, hmem, hmask, hcode⟩ :=
          checkHandshake_mem (show 0 ≤ checkHandshake (some m) caller.hiserver by omega)
        rw [← hv, hcode, caller.keeps code hmem hmask] at hshuts
        cases hshuts
      rw [if_pos hshuts, Prog.ok_bind]
      refine ok_ask (k := .ret) ⟨hc, Or.inr rfl⟩ (fun h => hcalled.spurned h hneg) fun _ _ _ => ?_
      exact ⟨hcalled.went, hcalled.spurned, hcalled.connected⟩
    · rw [if_neg hshuts]
      exact hcalled

/-! ## The client's side alone -/

/-- A peer of whom is known what comes from it, and whether it can be sent to. The state is the packets to come, and
those that got through. -/
def peer : Handler Answer (List (Option Packet) × List Packet) Bool
  | s, .recv _, _ => some (s.1.head?.join, s.1.tail, s.2)
  | s, .send _ b, through => some (through, s.1, if through then s.2 ++ [b] else s.2)
  | _, _, _ => none

/-- **Alone, the client's side is `socketHandshakeToServer`.** -/
theorem exec_handshakeToServer (c : ℕ) (greeting : Greeting) (hiserver hiclient : ℕ) :
    ∃ rest, (handshakeToServer c hiserver hiclient).exec peer ([greeting.server, greeting.welcome], [])
      (List.replicate 3 greeting.sent) =
        some (.ok (socketHandshakeToServer greeting hiserver hiclient).1, rest,
          (socketHandshakeToServer greeting hiserver hiclient).2) := by
  have hsend : SOCKET_ERROR_SEND < 0 := by decide
  unfold socketHandshakeToServer
  by_cases hserver : checkHandshake greeting.server hiserver < 0
  · rw [if_pos hserver]
    refine ⟨[greeting.welcome], ?_⟩
    show Prog.exec peer (if checkHandshake greeting.server hiserver < 0 then _ else _) _ _ = _
    rw [if_pos hserver]
    rfl
  · rw [if_neg hserver]
    cases hmsg : getHandshakeMsg hiclient with
    | none =>
      refine ⟨[greeting.welcome], ?_⟩
      show Prog.exec peer (if checkHandshake greeting.server hiserver < 0 then _ else _) _ _ = _
      rw [if_neg hserver, hmsg]
      rfl
    | some hi =>
      cases hsent : greeting.sent with
      | false =>
        refine ⟨[greeting.welcome], ?_⟩
        show Prog.exec peer (if checkHandshake greeting.server hiserver < 0 then _ else _) _ _ = _
        rw [if_neg hserver, hmsg]
        rfl
      | true =>
        refine ⟨[], ?_⟩
        show Prog.exec peer (if checkHandshake greeting.server hiserver < 0 then _ else _) _ _ = _
        rw [if_neg hserver, hmsg]
        rfl

end Mdfs.Connections
