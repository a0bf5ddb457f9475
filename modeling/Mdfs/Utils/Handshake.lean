import Mdfs.Utils.Commons
import Mdfs.Utils.Socket
import Mathlib.Data.Nat.Bitwise

/-!
# The handshake

`socket_handshake_to_server` of `socket.c`, with what it calls: the client receives the
greeting of the server, sends its own and receives the welcome. A greeting stands for a
code, and the codes are single bits.

* `socketHandshakeToServer_cases`: the handshake returns a code that it was to accept, or
  a negative number.
-/

namespace Mdfs

def SOCKET_ERROR_HANDSHAKE : ℤ := -11
def SOCKET_ERROR_WELCOME : ℤ := -12

def HANDSHAKE_WELCOME : ℕ := 0x01
def HANDSHAKE_MARTA : ℕ := 0x02
def HANDSHAKE_FILESYSTEM : ℕ := 0x04
def HANDSHAKE_JOB : ℕ := 0x08
def HANDSHAKE_NODO : ℕ := 0x10

/-- `_get_handshake_code`. -/
def getHandshakeCode (handshake : CStr) : ℕ :=
  if handshake = cstr "WELCOME" then HANDSHAKE_WELCOME
  else if handshake = cstr "IMMARTA" then HANDSHAKE_MARTA
  else if handshake = cstr "IMFILESYSTEM" then HANDSHAKE_FILESYSTEM
  else if handshake = cstr "IMNODO" then HANDSHAKE_NODO
  else if handshake = cstr "IMJOB" then HANDSHAKE_JOB
  else 0

/-- `_get_handshake_msg`. -/
def getHandshakeMsg (handshake : ℕ) : Option CStr :=
  if handshake = HANDSHAKE_MARTA then some (cstr "IMMARTA")
  else if handshake = HANDSHAKE_FILESYSTEM then some (cstr "IMFILESYSTEM")
  else if handshake = HANDSHAKE_NODO then some (cstr "IMNODO")
  else if handshake = HANDSHAKE_JOB then some (cstr "IMJOB")
  else none

/-- The packet of `socket_send_string`. -/
def stringPacket (string : CStr) : Packet := string ++ [0]

/-- `socket_recv_string`, from the packet received or none. In a packet without a
terminator `strlen` runs on behind its end, so that the sizes differ as well. -/
def socketRecvString : Option Packet → Except ℤ CStr
  | none => .error SOCKET_ERROR_RECV
  | some packet =>
    if 0 ∈ packet ∧ packet.length = 1 + (upToNul packet).length then .ok (upToNul packet) else .error SOCKET_ERROR_SEND

/-- `_check_handshake`, from the packet received or none. -/
def checkHandshake (packet : Option Packet) (handshake : ℕ) : ℤ :=
  match socketRecvString packet with
  | .error recive => recive
  | .ok hi =>
    let hscode := getHandshakeCode hi
    if hscode &&& handshake ≠ 0 then hscode else SOCKET_ERROR_HANDSHAKE

/-- What comes of the steps of a handshake: the packets received or none, and whether
the client's own greeting gets through. -/
structure Greeting where
  server : Option Packet
  sent : Bool
  welcome : Option Packet
  deriving DecidableEq

/-- `socket_handshake_to_server`: what it returns, and the packets that get through. -/
def socketHandshakeToServer (greeting : Greeting) (hiserver hiclient : ℕ) : ℤ × List Packet :=
  let server := checkHandshake greeting.server hiserver
  if server < 0 then (server, [])
  else
    match getHandshakeMsg hiclient with
    | none => (SOCKET_ERROR_SEND, [])
    | some hi =>
      if greeting.sent then
        let wellcome := checkHandshake greeting.welcome HANDSHAKE_WELCOME
        let wellcome := if wellcome = SOCKET_ERROR_HANDSHAKE then SOCKET_ERROR_WELCOME else wellcome
        (if wellcome < 0 then wellcome else server, [stringPacket hi])
      else (SOCKET_ERROR_SEND, [])

/-- The errors are negative. -/
theorem socketRecvString_error {packet : Option Packet} {recive : ℤ} (h : socketRecvString packet = .error recive) :
    recive < 0 := by
  unfold socketRecvString at h
  split at h
  · cases h
    decide
  · split at h
    · cases h
    · cases h
      decide

/-- What a check can return. -/
theorem checkHandshake_cases (packet : Option Packet) (handshake : ℕ) :
    checkHandshake packet handshake < 0 ∨
      ∃ code : ℕ, code &&& handshake ≠ 0 ∧ checkHandshake packet handshake = code := by
  unfold checkHandshake
  cases hrecv : socketRecvString packet with
  | error recive => exact Or.inl (socketRecvString_error hrecv)
  | ok hi =>
    by_cases hcode : getHandshakeCode hi &&& handshake ≠ 0
    · exact Or.inr ⟨_, hcode, if_pos hcode⟩
    · simp only [if_neg hcode]
      exact Or.inl (by decide)

/-- **What the handshake can return**, whatever the server sends: a code that it was to
accept, or a negative number. -/
theorem socketHandshakeToServer_cases (greeting : Greeting) (hiserver hiclient : ℕ) :
    (socketHandshakeToServer greeting hiserver hiclient).1 < 0 ∨
      ∃ code : ℕ, code &&& hiserver ≠ 0 ∧ (socketHandshakeToServer greeting hiserver hiclient).1 = code := by
  have hsend : SOCKET_ERROR_SEND < 0 := by decide
  unfold socketHandshakeToServer
  by_cases hserver : checkHandshake greeting.server hiserver < 0
  · simp only [if_pos hserver]
    exact Or.inl hserver
  · simp only [if_neg hserver]
    have hcode := (checkHandshake_cases greeting.server hiserver).resolve_left hserver
    cases getHandshakeMsg hiclient with
    | none => exact Or.inl hsend
    | some hi =>
      cases greeting.sent with
      | false => exact Or.inl hsend
      | true =>
        generalize (if checkHandshake greeting.welcome HANDSHAKE_WELCOME = SOCKET_ERROR_HANDSHAKE then
          SOCKET_ERROR_WELCOME else checkHandshake greeting.welcome HANDSHAKE_WELCOME) = wellcome
        by_cases hwelcome : wellcome < 0
        · simp only [if_true, if_pos hwelcome]
          exact Or.inl hwelcome
        · simp only [if_true, if_neg hwelcome]
          exact Or.inr hcode

/-- The handshake never returns zero. -/
theorem socketHandshakeToServer_ne_zero (greeting : Greeting) (hiserver hiclient : ℕ) :
    (socketHandshakeToServer greeting hiserver hiclient).1 ≠ 0 := by
  rcases socketHandshakeToServer_cases greeting hiserver hiclient with hneg | ⟨code, hcode, heq⟩
  · exact hneg.ne
  · intro hzero
    have hcode0 : code = 0 := by omega
    subst hcode0
    exact hcode (Nat.zero_and hiserver)

end Mdfs
