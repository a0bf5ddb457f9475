import Mdfs.Lib.Prog
import Mdfs.Utils.Socket
import Mathlib.Data.List.GetD
import Mathlib.Data.List.Infix
import Mathlib.Tactic.Ring

/-!
# Packets over a stream

`socket_send`, `socket_recv`, `socket_send_packet` and `socket_recv_packet` of
`socket.c`. A packet goes behind its size, a `size_t` that `hton` turns round in place.
Each `send` and `recv` of the kernel moves any part of what it is asked for, or fails; a
failure that can be retried is, three times.

The stream holds the bytes that are on their way. It can break on either side: then what
is sent is lost, or no more is received. A call that is asked for bytes at the end of the
stream finds it closed.

* `hton_hton`: the size is read as it was written.
* `socketSend_ok`, `socketRecv_ok`: what the two loops move, however the stream is split.
* `packets_framed`: the packets received are those sent, or the first of them.
-/

namespace Mdfs

open Lib

/-! ## The size of a packet -/

/-- The bytes of a `size_t` and their order. A `size_t` has four bytes at least. -/
structure Machine where
  sizeofSizeT : ℕ
  isLittleEndian : Bool
  four_le : 4 ≤ sizeofSizeT

/-- The lowest `n` bytes of a number, the lowest one first. -/
def lowBytes : ℕ → ℕ → List UInt8
  | 0, _ => []
  | n + 1, v => v.toUInt8 :: lowBytes n (v / 256)

/-- The number that bytes spell, the lowest one first. -/
def lowValue : List UInt8 → ℕ
  | [] => 0
  | b :: bs => b.toNat + 256 * lowValue bs

/-- A `size_t` in memory. -/
def Machine.memory (m : Machine) (size : ℕ) : List UInt8 :=
  if m.isLittleEndian then lowBytes m.sizeofSizeT size else (lowBytes m.sizeofSizeT size).reverse

/-- The `size_t` that is in memory. -/
def Machine.size (m : Machine) (value : List UInt8) : ℕ :=
  if m.isLittleEndian then lowValue value else lowValue value.reverse

/-- The loop of `hton`: the bytes at `l` and `r` are swapped until these meet. -/
def htonLoop : ℕ → ℕ → ℕ → List UInt8 → List UInt8
  | 0, _, _, value => value
  | rounds + 1, l, r, value =>
    if l < r then htonLoop rounds (l + 1) (r - 1) ((value.set l (value.getD r 0)).set r (value.getD l 0)) else value

/-- `hton`. -/
def Machine.hton (m : Machine) (value : List UInt8) : List UInt8 :=
  if m.isLittleEndian then htonLoop value.length 0 (value.length - 1) value else value

@[simp] theorem length_lowBytes (n v : ℕ) : (lowBytes n v).length = n := by
  induction n generalizing v with
  | zero => rfl
  | succ n ih => simp [lowBytes, ih]

/-- A number that fits is spelled by its bytes. -/
theorem lowValue_lowBytes {n v : ℕ} (h : v < 256 ^ n) : lowValue (lowBytes n v) = v := by
  induction n generalizing v with
  | zero =>
    have hv : v = 0 := by omega
    rw [hv]
    rfl
  | succ n ih =>
    have hhigh : v / 256 < 256 ^ n := by
      rw [pow_succ] at h
      omega
    have hlow : v.toUInt8.toNat = v % 256 := by simp
    rw [lowBytes, lowValue, ih hhigh, hlow]
    omega

/-- Where the swapped bytes are, after the rounds that are left. -/
theorem getElem?_htonLoop {n rounds l r : ℕ} {value : List UInt8} (hlen : value.length = n) (hlr : l + r + 1 = n)
    (hrounds : r + 1 ≤ rounds + l) (i : ℕ) :
    (htonLoop rounds l r value)[i]? = if l ≤ i ∧ i ≤ r then value[n - 1 - i]? else value[i]? := by
  induction rounds generalizing l r value with
  | zero =>
    have hout : ¬(l ≤ i ∧ i ≤ r) := by omega
    rw [htonLoop, if_neg hout]
  | succ rounds ih =>
    rw [htonLoop]
    by_cases hlt : l < r
    · rw [if_pos hlt, ih (by simpa using hlen) (by omega) (by omega)]
      have hl : l < value.length := by omega
      have hr : r < value.length := by omega
      simp only [List.getElem?_set, List.length_set, List.getD_eq_getElem _ _ hl, List.getD_eq_getElem _ _ hr]
      grind
    · rw [if_neg hlt]
      by_cases hi : l ≤ i ∧ i ≤ r
      · -- the byte in the middle stays
        have hmid : n - 1 - i = i := by omega
        rw [if_pos hi, hmid]
      · rw [if_neg hi]

/-- **`hton` turns the bytes round**, where that is to be done. -/
theorem hton_eq (m : Machine) (value : List UInt8) : m.hton value = if m.isLittleEndian then value.reverse
    else value := by
  unfold Machine.hton
  split
  · cases value with
    | nil => rfl
    | cons b bs =>
      have hlen : (b :: bs).length = bs.length + 1 := rfl
      refine List.ext_getElem? fun i => ?_
      rw [getElem?_htonLoop rfl (by omega) (by omega)]
      by_cases hi : i < (b :: bs).length
      · rw [if_pos (by omega), List.getElem?_reverse hi]
      · have hrev : (b :: bs).reverse[i]? = none := List.getElem?_eq_none (by rw [List.length_reverse]; omega)
        rw [if_neg (by omega), hrev, List.getElem?_eq_none (by omega)]
  · rfl

/-- The header of a packet of that size, as it goes over the stream. -/
def Machine.header (m : Machine) (size : ℕ) : List UInt8 := m.hton (m.memory size)

@[simp] theorem length_header (m : Machine) (size : ℕ) : (m.header size).length = m.sizeofSizeT := by
  rw [Machine.header, hton_eq, Machine.memory]
  split <;> simp

/-- **The size is read as it was written.** -/
theorem size_hton_header (m : Machine) {size : ℕ} (h : size < 2 ^ 31) : m.size (m.hton (m.header size)) = size := by
  have hfits : size < 256 ^ m.sizeofSizeT := by
    have hpow : 256 ^ 4 ≤ 256 ^ m.sizeofSizeT := Nat.pow_le_pow_right (by omega) m.four_le
    omega
  have hvalue := lowValue_lowBytes hfits
  rw [Machine.header, hton_eq, hton_eq, Machine.memory, Machine.size]
  cases m.isLittleEndian <;> simpa using hvalue

/-! ## The stream -/

/-- A stream between two ends. -/
structure Stream where
  /-- The bytes sent and not received yet. -/
  bytes : List UInt8
  /-- What is sent is lost. -/
  sendBroken : Bool
  /-- No more is received. -/
  recvBroken : Bool
  deriving DecidableEq

/-- A call of the kernel, with how often it can be tried again after it. -/
inductive SockReq
  | send (retry : ℕ) (data : List UInt8)
  | recv (retry left : ℕ)
  deriving DecidableEq

/-- How many bytes were sent, or which were received; or that `errno` allows another try, or not. -/
abbrev SockResp : SockReq → Type
  | .send _ _ => Except Bool ℕ
  | .recv _ _ => Except Bool (List UInt8)

/-- What the kernel does at a call. -/
inductive Kernel
  /-- It moves one byte and up to `n` more. -/
  | moves (n : ℕ)
  | retry
  | breaks
  deriving DecidableEq

/-- The calls of the kernel. The end of the stream is an end of file,
where `errno` is an old one. -/
def serveSock : Handler SockResp Stream Kernel
  | s, .send _ data, .moves n =>
    some (.ok (min (n + 1) data.length), if s.sendBroken then s else { s with bytes := s.bytes ++ data.take (n + 1) })
  | s, .send _ _, .retry => some (.error true, s)
  | s, .send _ _, .breaks => some (.error false, { s with sendBroken := true })
  | s, .recv _ left, .moves n =>
    if s.recvBroken = true ∨ s.bytes = [] then some (.error false, { s with recvBroken := true })
    else some (.ok (s.bytes.take (min (n + 1) left)), { s with bytes := s.bytes.drop (min (n + 1) left) })
  | s, .recv _ _, .retry => some (.error true, if s.bytes = [] then { s with recvBroken := true } else s)
  | s, .recv _ _, .breaks => some (.error false, { s with recvBroken := true })

/-! ## `socket.c` -/

abbrev SockProg := Prog SockResp Empty

abbrev sockRequest (r : SockReq) : SockProg (SockResp r) := .ask r .ret

/-- The inner loop of `socket_send`; none when it ends with `SOCKET_ERROR_SEND`. -/
def sendTry (data : List UInt8) : ℕ → SockProg (Option ℕ)
  | 0 => do
    match ← sockRequest (.send 0 data) with
    | .ok count => pure (some count)
    | .error _ => pure none
  | retry + 1 => do
    match ← sockRequest (.send (retry + 1) data) with
    | .ok count => pure (some count)
    | .error again => if again then sendTry data retry else pure none

/-- The outer loop of `socket_send`. Each round sends something, so there are as many
rounds as bytes at most. -/
def sendRounds : ℕ → List UInt8 → SockProg ℤ
  | 0, _ => pure SOCKET_ERROR_NONE
  | rounds + 1, data => do
    if data = [] then pure SOCKET_ERROR_NONE
    else
      match ← sendTry data 3 with
      | none => pure SOCKET_ERROR_SEND
      | some count => sendRounds rounds (data.drop count)

/-- `socket_send`. -/
def socketSend (stream : List UInt8) : SockProg ℤ := sendRounds stream.length stream

/-- The inner loop of `socket_recv`; none when it ends with `SOCKET_ERROR_RECV`. -/
def recvTry (left : ℕ) : ℕ → SockProg (Option (List UInt8))
  | 0 => do
    match ← sockRequest (.recv 0 left) with
    | .ok data => pure (some data)
    | .error _ => pure none
  | retry + 1 => do
    match ← sockRequest (.recv (retry + 1) left) with
    | .ok data => pure (some data)
    | .error again => if again then recvTry left retry else pure none

/-- The outer loop of `socket_recv`, with the bytes received so far. -/
def recvRounds : ℕ → ℕ → List UInt8 → SockProg (Option (List UInt8))
  | 0, _, data => pure (some data)
  | rounds + 1, left, data => do
    if left = 0 then pure (some data)
    else
      match ← recvTry left 3 with
      | none => pure none
      | some count => recvRounds rounds (left - count.length) (data ++ count)

/-- `socket_recv`; none when it fails. -/
def socketRecv (size : ℕ) : SockProg (Option (List UInt8)) := recvRounds size size []

/-- `socket_send_packet`. -/
def socketSendPacket (m : Machine) (packet : Packet) : SockProg ℤ := do
  let status ← socketSend (m.hton (m.memory packet.length))
  if status < 0 then pure status else socketSend packet

/-- What `socket_recv_packet` returns and writes. -/
structure Received where
  status : ℤ
  packet : Packet
  size : ℕ
  deriving DecidableEq

/-- `socket_recv_packet`. -/
def socketRecvPacket (m : Machine) : SockProg Received := do
  match ← socketRecv m.sizeofSizeT with
  | none => pure ⟨SOCKET_ERROR_RECV, [], 0⟩
  | some value =>
    let size := m.size (m.hton value)
    match ← socketRecv size with
    | none => pure ⟨SOCKET_ERROR_RECV, [], size⟩
    | some packet => pure ⟨SOCKET_ERROR_NONE, packet, size⟩

/-- Packets sent in order, with the status of each. -/
def sendPackets (m : Machine) (packets : List Packet) : SockProg (List ℤ) :=
  packets.foldlM (fun statuses packet => do
    let status ← socketSendPacket m packet
    pure (statuses ++ [status])) []

/-- So many calls of `socket_recv_packet`. -/
def recvPackets (m : Machine) (calls : ℕ) : SockProg (List Received) :=
  (List.range calls).foldlM (fun results _ => do
    let result ← socketRecvPacket m
    pure (results ++ [result])) []

/-- Packets sent on a stream, and received at its other end. -/
def overStream (m : Machine) (packets : List Packet) (calls : ℕ) : SockProg (List ℤ × List Received) := do
  let statuses ← sendPackets m packets
  let results ← recvPackets m calls
  pure (statuses, results)

/-- The stream of a new connection. -/
def Stream.start : Stream := ⟨[], false, false⟩

/-- The failures that are allowed: the stream breaks, if it may, and where it is neither
broken nor at its end the last try does not fail. -/
def Allowed (mayBreak : Bool) (s : Stream) (r : SockReq) : Kernel → Prop
  | .moves _ => True
  | .retry =>
    match r with
    | .send retry _ => retry = 0 → s.sendBroken = true
    | .recv retry _ => retry = 0 → s.recvBroken = true ∨ s.bytes = []
  | .breaks => mayBreak = true

instance Allowed.decidable (mayBreak : Bool) (s : Stream) (r : SockReq) (i : Kernel) :
    Decidable (Allowed mayBreak s r i) :=
  match r, i with
  | .send _ _, .moves _ => .isTrue trivial
  | .recv _ _, .moves _ => .isTrue trivial
  | .send retry _, .retry => inferInstanceAs (Decidable (retry = 0 → s.sendBroken = true))
  | .recv retry _, .retry => inferInstanceAs (Decidable (retry = 0 → s.recvBroken = true ∨ s.bytes = []))
  | .send _ _, .breaks => inferInstanceAs (Decidable (mayBreak = true))
  | .recv _ _, .breaks => inferInstanceAs (Decidable (mayBreak = true))

/-- The kernel, as far as it fails as allowed. -/
abbrev kernelSpec (mayBreak : Bool) : Spec SockResp Stream := Spec.ofHandler serveSock (Allowed mayBreak)

/-! ## Sending -/

variable {mayBreak : Bool} {data a b : List UInt8} {s t u : Stream} {E : Empty → Stream → Prop} {m : Machine}

/-- **What sending `data` does to the stream**: all of it is on its way, or the stream is
broken and a first part of it is. -/
structure Sent (mayBreak : Bool) (data : List UInt8) (s t : Stream) : Prop where
  recv : t.recvBroken = s.recvBroken
  whole : t.sendBroken = false → s.sendBroken = false ∧ t.bytes = s.bytes ++ data
  part : ∃ sent, sent <+: data ∧ t.bytes = s.bytes ++ sent
  lost : s.sendBroken = true → t.sendBroken = true ∧ t.bytes = s.bytes
  broken : t.sendBroken = true → s.sendBroken = true ∨ mayBreak = true

theorem Sent.refl (s : Stream) : Sent mayBreak [] s s where
  recv := rfl
  whole h := ⟨h, (List.append_nil _).symm⟩
  part := ⟨[], List.prefix_refl _, (List.append_nil _).symm⟩
  lost h := ⟨h, rfl⟩
  broken h := Or.inl h

/-- A stream that is broken takes no more. -/
theorem Sent.stop (h : Sent mayBreak a s t) (hbroken : t.sendBroken = true) : Sent mayBreak (a ++ b) s t := by
  refine ⟨h.recv, fun hwhole => ?_, ?_, h.lost, h.broken⟩
  · rw [hbroken] at hwhole
    cases hwhole
  · obtain ⟨sent, hsent, hbytes⟩ := h.part
    exact ⟨sent, hsent.trans (List.prefix_append a b), hbytes⟩

/-- One part after another. -/
theorem Sent.trans (h : Sent mayBreak a s t) (h' : Sent mayBreak b t u) : Sent mayBreak (a ++ b) s u := by
  refine ⟨h'.recv.trans h.recv, fun hu => ?_, ?_, fun hs => ?_, fun hu => ?_⟩
  · obtain ⟨ht, hbytes'⟩ := h'.whole hu
    obtain ⟨hs, hbytes⟩ := h.whole ht
    exact ⟨hs, by rw [hbytes', hbytes, List.append_assoc]⟩
  · cases ht : t.sendBroken with
    | true =>
      obtain ⟨sent, hsent, hbytes⟩ := h.part
      exact ⟨sent, hsent.trans (List.prefix_append a b), by rw [(h'.lost ht).2, hbytes]⟩
    | false =>
      obtain ⟨sent, hsent, hbytes'⟩ := h'.part
      exact ⟨a ++ sent, (List.prefix_append_right_inj a).2 hsent, by rw [hbytes', (h.whole ht).2, List.append_assoc]⟩
  · obtain ⟨ht, hbytes⟩ := h.lost hs
    obtain ⟨hu, hbytes'⟩ := h'.lost ht
    exact ⟨hu, hbytes'.trans hbytes⟩
  · rcases h'.broken hu with ht | hmay
    · exact h.broken ht
    · exact Or.inr hmay

/-- One `send` of the kernel. -/
theorem sent_moves (n : ℕ) (data : List UInt8) (s : Stream) : Sent mayBreak (data.take (min (n + 1) data.length)) s
    (if s.sendBroken then s else { s with bytes := s.bytes ++ data.take (n + 1) }) := by
  rw [← List.take_eq_take_min]
  cases hs : s.sendBroken with
  | true =>
    have hstop : Sent mayBreak ([] ++ data.take (n + 1)) s s := (Sent.refl s).stop hs
    simpa using hstop
  | false =>
    refine ⟨by simp, fun _ => ⟨hs, by simp⟩, ⟨_, List.prefix_refl _, by simp⟩, fun h => ?_, fun h => ?_⟩
    · rw [hs] at h
      cases h
    · simp at h

theorem sent_breaks (hmay : mayBreak = true) : Sent mayBreak [] s { s with sendBroken := true } where
  recv := rfl
  whole h := by cases h
  part := ⟨[], List.prefix_refl _, (List.append_nil _).symm⟩
  lost _ := ⟨rfl, rfl⟩
  broken _ := Or.inr hmay

/-- What comes of a try: some bytes are on their way, or the stream is broken. -/
def Tried (mayBreak : Bool) (data : List UInt8) (s : Stream) (count : Option ℕ) (t : Stream) : Prop :=
  match count with
  | some n => 0 < n ∧ Sent mayBreak (data.take n) s t
  | none => t.sendBroken = true ∧ Sent mayBreak [] s t

theorem sendTry_ok (hdata : data ≠ []) (retry : ℕ) (s : Stream) :
    (sendTry data retry).Ok (kernelSpec mayBreak) (Tried mayBreak data s) E s := by
  have hlen := List.length_pos_iff.2 hdata
  induction retry with
  | zero =>
    refine ⟨trivial, fun x t hx => ?_⟩
    obtain ⟨i, hallowed, hserve⟩ := hx
    cases i with
    | moves n =>
      cases hserve
      exact ⟨by omega, sent_moves n data s⟩
    | retry =>
      -- the last try fails on a broken stream only
      cases hserve
      exact ⟨hallowed rfl, Sent.refl s⟩
    | breaks =>
      cases hserve
      exact ⟨rfl, sent_breaks hallowed⟩
  | succ retry ih =>
    refine ⟨trivial, fun x t hx => ?_⟩
    obtain ⟨i, hallowed, hserve⟩ := hx
    cases i with
    | moves n =>
      cases hserve
      exact ⟨by omega, sent_moves n data s⟩
    | retry =>
      cases hserve
      exact ih
    | breaks =>
      cases hserve
      exact ⟨rfl, sent_breaks hallowed⟩

/-- What comes of sending `data`: it is on its way, or the status is an error and the
stream is broken. -/
def SentStatus (mayBreak : Bool) (data : List UInt8) (s : Stream) (status : ℤ) (t : Stream) : Prop :=
  Sent mayBreak data s t ∧ (status = SOCKET_ERROR_NONE ∨ status = SOCKET_ERROR_SEND ∧ t.sendBroken = true)

theorem sendRounds_ok (rounds : ℕ) (hrounds : data.length ≤ rounds) (s : Stream) :
    (sendRounds rounds data).Ok (kernelSpec mayBreak) (SentStatus mayBreak data s) E s := by
  induction rounds generalizing data s with
  | zero =>
    have hdata : data = [] := List.length_eq_zero_iff.1 (by omega)
    subst hdata
    exact ⟨Sent.refl s, Or.inl rfl⟩
  | succ rounds ih =>
    unfold sendRounds
    by_cases hdata : data = []
    · subst hdata
      exact ⟨Sent.refl s, Or.inl rfl⟩
    · rw [if_neg hdata, Prog.ok_bind]
      refine (sendTry_ok hdata 3 s).imp fun count t ht => ?_
      cases count with
      | none =>
        obtain ⟨hbroken, hsent⟩ := ht
        exact ⟨hsent.stop hbroken, Or.inr ⟨rfl, hbroken⟩⟩
      | some n =>
        obtain ⟨hpos, hsent⟩ := ht
        have hlen : (data.drop n).length ≤ rounds := by
          rw [List.length_drop]
          omega
        refine (ih hlen t).imp fun status u hu => ?_
        have hall := hsent.trans hu.1
        rw [List.take_append_drop] at hall
        exact ⟨hall, hu.2⟩

/-- **`socket_send`**, however the kernel splits what it sends. -/
theorem socketSend_ok (data : List UInt8) (s : Stream) :
    (socketSend data).Ok (kernelSpec mayBreak) (SentStatus mayBreak data s) E s :=
  sendRounds_ok data.length le_rfl s

/-- A packet behind its size. -/
def frame (m : Machine) (packet : Packet) : List UInt8 := m.header packet.length ++ packet

theorem socketSendPacket_ok (packet : Packet) (s : Stream) :
    (socketSendPacket m packet).Ok (kernelSpec mayBreak) (SentStatus mayBreak (frame m packet) s) E s := by
  unfold socketSendPacket frame
  rw [Prog.ok_bind]
  refine (socketSend_ok (m.header packet.length) s).imp fun status t ht => ?_
  obtain ⟨hsent, hstatus⟩ := ht
  rcases hstatus with rfl | ⟨rfl, hbroken⟩
  · exact (socketSend_ok packet t).imp fun status u hu => ⟨hsent.trans hu.1, hu.2⟩
  · exact ⟨hsent.stop hbroken, Or.inr ⟨rfl, hbroken⟩⟩

/-- **Packets sent in order.** -/
theorem sendPackets_ok (packets : List Packet) (s : Stream) :
    (sendPackets m packets).Ok (kernelSpec mayBreak) (fun statuses t => Sent mayBreak (packets.flatMap (frame m)) s t ∧
      (t.sendBroken = false → statuses = packets.map fun _ => SOCKET_ERROR_NONE)) E s := by
  unfold sendPackets
  refine Prog.ok_foldlM (K := fun done statuses t => Sent mayBreak (done.flatMap (frame m)) s t ∧
    (t.sendBroken = false → statuses = done.map fun _ => SOCKET_ERROR_NONE)) packets
    (fun done packet rest statuses t _ ht => ?_) ⟨Sent.refl s, fun _ => rfl⟩
  obtain ⟨hsent, hstatuses⟩ := ht
  rw [Prog.ok_bind]
  refine (socketSendPacket_ok packet t).imp fun status u hu => ?_
  obtain ⟨hsent', hstatus⟩ := hu
  refine ⟨?_, fun hwhole => ?_⟩
  · have hall := hsent.trans hsent'
    rwa [List.flatMap_append, List.flatMap_singleton]
  · rcases hstatus with rfl | ⟨-, hbroken⟩
    · rw [hstatuses (hsent'.whole hwhole).1, List.map_append]
      rfl
    · rw [hwhole] at hbroken
      cases hbroken

/-! ## Receiving -/

/-- What comes of a try to receive: the next bytes, or the stream is broken. -/
def RecvTried (mayBreak : Bool) (left : ℕ) (s : Stream) (data : Option (List UInt8)) (t : Stream) : Prop :=
  match data with
  | some bs => bs ≠ [] ∧ bs.length ≤ left ∧ s.bytes = bs ++ t.bytes ∧ s.recvBroken = false ∧ t.recvBroken = false
  | none => t.recvBroken = true ∧ (s.recvBroken = true ∨ mayBreak = true ∨ s.bytes = [])

/-- One `recv` of the kernel. -/
theorem recvTried_moves {n left retry : ℕ} {x : Except Bool (List UInt8)} (hleft : 0 < left)
    (hserve : serveSock s (.recv retry left) (.moves n) = some (x, t)) :
    RecvTried mayBreak left s x.toOption t ∧ ∀ again, x = .error again → again = false := by
  by_cases hend : s.recvBroken = true ∨ s.bytes = []
  · simp only [serveSock, if_pos hend] at hserve
    cases hserve
    refine ⟨⟨rfl, ?_⟩, fun again h => by cases h; rfl⟩
    rcases hend with hbroken | hempty
    · exact Or.inl hbroken
    · exact Or.inr (Or.inr hempty)
  · simp only [serveSock, if_neg hend] at hserve
    simp only [not_or, Bool.not_eq_true] at hend
    cases hserve
    refine ⟨⟨fun hnil => ?_, ?_, (List.take_append_drop _ _).symm, hend.1, hend.1⟩, fun again h => by cases h⟩
    · rcases List.take_eq_nil_iff.1 hnil with hmin | hempty
      · omega
      · exact hend.2 hempty
    · rw [List.length_take]
      omega

/-- The end of the stream is found, whatever `errno` says. -/
theorem recvTried_retry {left : ℕ} {data : Option (List UInt8)}
    (h : RecvTried mayBreak left (if s.bytes = [] then { s with recvBroken := true } else s) data t) :
    RecvTried mayBreak left s data t := by
  by_cases hempty : s.bytes = []
  · rw [if_pos hempty] at h
    cases data with
    | none => exact ⟨h.1, Or.inr (Or.inr hempty)⟩
    | some bs =>
      obtain ⟨-, -, -, hbroken, -⟩ := h
      cases hbroken
  · rwa [if_neg hempty] at h

theorem recvTry_ok {left : ℕ} (hleft : 0 < left) (retry : ℕ) (s : Stream) :
    (recvTry left retry).Ok (kernelSpec mayBreak) (RecvTried mayBreak left s) E s := by
  induction retry generalizing s with
  | zero =>
    refine ⟨trivial, fun x t hx => ?_⟩
    obtain ⟨i, hallowed, hserve⟩ := hx
    cases i with
    | moves n =>
      have htried : RecvTried mayBreak left s x.toOption t := (recvTried_moves hleft hserve).1
      cases x <;> exact htried
    | retry =>
      cases hserve
      -- the last try fails on a broken stream, or at its end
      by_cases hempty : s.bytes = []
      · rw [if_pos hempty]
        exact ⟨rfl, Or.inr (Or.inr hempty)⟩
      · rw [if_neg hempty]
        have hbroken := (hallowed rfl).resolve_right hempty
        exact ⟨hbroken, Or.inl hbroken⟩
    | breaks =>
      cases hserve
      exact ⟨rfl, Or.inr (Or.inl hallowed)⟩
  | succ retry ih =>
    refine ⟨trivial, fun x t hx => ?_⟩
    obtain ⟨i, hallowed, hserve⟩ := hx
    cases i with
    | moves n =>
      obtain ⟨htried, hagain⟩ : RecvTried mayBreak left s x.toOption t ∧ _ := recvTried_moves hleft hserve
      cases x with
      | ok bs => exact htried
      | error again =>
        rw [hagain again rfl]
        exact htried
    | retry =>
      cases hserve
      exact (ih _).imp fun data u hu => recvTried_retry hu
    | breaks =>
      cases hserve
      exact ⟨rfl, Or.inr (Or.inl hallowed)⟩

/-- What comes of receiving `n` bytes: they are the next ones on the stream, or the
stream is broken, was broken, or did not hold as many. -/
def Got (mayBreak : Bool) (n : ℕ) (s : Stream) (data : Option (List UInt8)) (t : Stream) : Prop :=
  match data with
  | some bs => bs.length = n ∧ s.bytes = bs ++ t.bytes ∧ t.recvBroken = s.recvBroken ∧ (0 < n → s.recvBroken = false)
  | none => t.recvBroken = true ∧ (s.recvBroken = true ∨ mayBreak = true ∨ s.bytes.length < n)

theorem recvRounds_ok (rounds left : ℕ) (hrounds : left ≤ rounds) (data : List UInt8) (s : Stream) :
    (recvRounds rounds left data).Ok (kernelSpec mayBreak)
      (fun got t => ∃ more, got = more.map (data ++ ·) ∧ Got mayBreak left s more t) E s := by
  induction rounds generalizing left data s with
  | zero =>
    have hleft : left = 0 := by omega
    subst hleft
    exact ⟨some [], by simp, rfl, rfl, rfl, fun h => by omega⟩
  | succ rounds ih =>
    unfold recvRounds
    by_cases hleft : left = 0
    · subst hleft
      exact ⟨some [], by simp, rfl, rfl, rfl, fun h => by omega⟩
    · rw [if_neg hleft, Prog.ok_bind]
      -- a round that returns has received a byte, so as many rounds as bytes are enough
      refine (recvTry_ok (by omega) 3 s).imp fun count t ht => ?_
      cases count with
      | none =>
        obtain ⟨hbroken, hwhy⟩ := ht
        refine ⟨none, rfl, hbroken, ?_⟩
        rcases hwhy with hs | hmay | hempty
        · exact Or.inl hs
        · exact Or.inr (Or.inl hmay)
        · rw [hempty]
          exact Or.inr (Or.inr (by simpa using Nat.pos_of_ne_zero hleft))
      | some bs =>
        obtain ⟨hne, hlen, hbytes, hs, ht⟩ := ht
        have hpos := List.length_pos_iff.2 hne
        refine (ih (left - bs.length) (by omega) (data ++ bs) t).imp fun got u hu => ?_
        obtain ⟨more, rfl, hgot⟩ := hu
        refine ⟨more.map (bs ++ ·), ?_, ?_⟩
        · cases more <;> simp
        · cases more with
          | none =>
            obtain ⟨hbroken, hwhy⟩ := hgot
            refine ⟨hbroken, ?_⟩
            rcases hwhy with hbad | hmay | hshort
            · rw [ht] at hbad
              cases hbad
            · exact Or.inr (Or.inl hmay)
            · rw [hbytes, List.length_append]
              exact Or.inr (Or.inr (by omega))
          | some more =>
            obtain ⟨hmore, hrest, hu, -⟩ := hgot
            refine ⟨?_, ?_, ?_, fun _ => hs⟩
            · rw [List.length_append, hmore]
              omega
            · rw [hbytes, hrest, List.append_assoc]
            · rw [hu, ht, hs]

/-- **`socket_recv`**, however the kernel splits what it receives. -/
theorem socketRecv_ok (size : ℕ) (s : Stream) :
    (socketRecv size).Ok (kernelSpec mayBreak) (Got mayBreak size s) E s := by
  refine (recvRounds_ok size size le_rfl [] s).imp fun got t ht => ?_
  obtain ⟨more, rfl, hgot⟩ := ht
  cases more <;> exact hgot

/-- A packet received. -/
def received (packet : Packet) : Received := ⟨SOCKET_ERROR_NONE, packet, packet.length⟩

/-- A first part of `xs ++ ys` that is as long as `xs`, and what follows it. -/
theorem prefix_split {xs ys bs rest : List UInt8} (h : bs ++ rest <+: xs ++ ys) (hlen : bs.length = xs.length) :
    bs = xs ∧ rest <+: ys := by
  obtain ⟨tail, htail⟩ := h
  rw [List.append_assoc] at htail
  obtain ⟨hbs, hrest⟩ := List.append_inj htail hlen
  exact ⟨hbs, tail, hrest⟩

/-- What comes of a call of `socket_recv_packet` on a stream that is not broken and holds
a first part of `packets`: the first packet, or an error and a broken stream. -/
def RecvPacket (m : Machine) (mayBreak : Bool) (packets : List Packet) (s : Stream) (r : Received)
    (t : Stream) : Prop :=
  (∃ packet rest, packets = packet :: rest ∧ r = received packet ∧ t.recvBroken = false ∧
    s.bytes = frame m packet ++ t.bytes) ∨
  (r.status = SOCKET_ERROR_RECV ∧ t.recvBroken = true ∧
    (mayBreak = true ∨ packets = [] ∨ s.bytes ≠ packets.flatMap (frame m)))

theorem socketRecvPacket_ok {packets : List Packet} (hsize : ∀ packet ∈ packets, packet.length < 2 ^ 31)
    (hs : s.recvBroken = false) (hbytes : s.bytes <+: packets.flatMap (frame m)) :
    (socketRecvPacket m).Ok (kernelSpec mayBreak) (RecvPacket m mayBreak packets s) E s := by
  have hfour := m.four_le
  unfold socketRecvPacket
  rw [Prog.ok_bind]
  refine (socketRecv_ok m.sizeofSizeT s).imp fun value t ht => ?_
  cases value with
  | none =>
    obtain ⟨hbroken, hwhy⟩ := ht
    refine Or.inr ⟨rfl, hbroken, ?_⟩
    rcases hwhy with hbad | hmay | hshort
    · rw [hs] at hbad
      cases hbad
    · exact Or.inl hmay
    · cases packets with
      | nil => exact Or.inr (Or.inl rfl)
      | cons packet rest =>
        refine Or.inr (Or.inr fun heq => ?_)
        rw [heq, List.flatMap_cons, frame, List.length_append, List.length_append, length_header] at hshort
        omega
  | some value =>
    obtain ⟨hlen, hvalue, ht, -⟩ := ht
    cases packets with
    | nil =>
      rw [List.flatMap_nil, List.prefix_nil, hvalue] at hbytes
      have hnil := congrArg List.length hbytes
      rw [List.length_append, hlen, List.length_nil] at hnil
      omega
    | cons packet rest =>
      rw [hvalue, List.flatMap_cons, frame, List.append_assoc] at hbytes
      -- the bytes read are the header of the first packet, so the length is its own
      obtain ⟨rfl, hbody⟩ := prefix_split hbytes (by rw [hlen, length_header])
      simp only [size_hton_header m (hsize packet List.mem_cons_self)]
      rw [Prog.ok_bind]
      refine (socketRecv_ok packet.length t).imp fun data u hu => ?_
      cases data with
      | none =>
        obtain ⟨hbroken, hwhy⟩ := hu
        refine Or.inr ⟨rfl, hbroken, ?_⟩
        rcases hwhy with hbad | hmay | hshort
        · rw [ht, hs] at hbad
          cases hbad
        · exact Or.inl hmay
        · refine Or.inr (Or.inr fun heq => ?_)
          rw [hvalue, List.flatMap_cons, frame, List.append_assoc] at heq
          rw [List.append_cancel_left heq, List.length_append] at hshort
          omega
      | some data =>
        obtain ⟨hdata, hrest, hu, -⟩ := hu
        rw [hrest] at hbody
        obtain ⟨rfl, -⟩ := prefix_split hbody hdata
        exact Or.inl ⟨data, rest, rfl, rfl, hu.trans (ht.trans hs), by rw [hvalue, hrest, frame, List.append_assoc]⟩

/-- On a stream that is broken the next call fails. -/
theorem socketRecvPacket_broken (hs : s.recvBroken = true) :
    (socketRecvPacket m).Ok (kernelSpec mayBreak)
      (fun r t => r.status = SOCKET_ERROR_RECV ∧ t.recvBroken = true) E s := by
  have hfour := m.four_le
  unfold socketRecvPacket
  rw [Prog.ok_bind]
  refine (socketRecv_ok m.sizeofSizeT s).imp fun value t ht => ?_
  cases value with
  | none => exact ⟨rfl, ht.1⟩
  | some value =>
    have hgood := ht.2.2.2 (by omega)
    rw [hs] at hgood
    cases hgood

/-- The results that are not errors. -/
def successes (results : List Received) : List Received := results.filter fun r => 0 ≤ r.status

/-- **Where a receiver is** after `k` calls, on a stream that held `bytes`: it has the
first packets; while the stream is not broken it has `k` of them, and the stream holds
what follows; and the stream breaks only if it may, or if it does not hold all. -/
structure Reading (m : Machine) (mayBreak : Bool) (packets : List Packet) (bytes : List UInt8) (k : ℕ)
    (results : List Received) (t : Stream) : Prop where
  first : successes results <+: packets.map received
  clean : t.recvBroken = false → k ≤ packets.length ∧ results = (packets.take k).map received ∧
    bytes = (packets.take k).flatMap (frame m) ++ t.bytes
  broken : t.recvBroken = true → mayBreak = true ∨ packets.length < k ∨ bytes ≠ packets.flatMap (frame m)

theorem successes_received (packets : List Packet) : successes (packets.map received) = packets.map received :=
  List.filter_eq_self.2 fun r hr => by
    obtain ⟨packet, -, rfl⟩ := List.mem_map.1 hr
    rfl

theorem successes_error {results : List Received} {r : Received} (hr : r.status = SOCKET_ERROR_RECV) :
    successes (results ++ [r]) = successes results := by
  have hneg : ¬(0 : ℤ) ≤ SOCKET_ERROR_RECV := by decide
  simp [successes, List.filter_append, hr, hneg]

/-- **One more call** of a receiver. -/
theorem Reading.next {packets : List Packet} (hsize : ∀ packet ∈ packets, packet.length < 2 ^ 31) {bytes : List UInt8}
    (hbytes : bytes <+: packets.flatMap (frame m)) {k : ℕ} {results : List Received} {t : Stream}
    (h : Reading m mayBreak packets bytes k results t) :
    (socketRecvPacket m).Ok (kernelSpec mayBreak)
      (fun r u => Reading m mayBreak packets bytes (k + 1) (results ++ [r]) u) E t := by
  cases hbroken : t.recvBroken with
  | true =>
    -- a broken stream gives no packet more
    refine (socketRecvPacket_broken hbroken).imp fun r u hu => ?_
    obtain ⟨hr, hu⟩ := hu
    refine ⟨by rw [successes_error hr]; exact h.first, fun hgood => ?_, fun _ => ?_⟩
    · rw [hu] at hgood
      cases hgood
    · rcases h.broken hbroken with hmay | hmany | hpart
      · exact Or.inl hmay
      · exact Or.inr (Or.inl (by omega))
      · exact Or.inr (Or.inr hpart)
  | false =>
    obtain ⟨hk, hresults, hheld⟩ := h.clean hbroken
    -- what is left on the stream is a first part of the packets that are left
    have hsplit : packets.flatMap (frame m) = (packets.take k).flatMap (frame m) ++
      (packets.drop k).flatMap (frame m) := by
      rw [← List.flatMap_append, List.take_append_drop]
    have hleft : t.bytes <+: (packets.drop k).flatMap (frame m) := by
      rw [hheld, hsplit] at hbytes
      exact (List.prefix_append_right_inj _).1 hbytes
    refine (socketRecvPacket_ok (fun packet hp => hsize packet (List.mem_of_mem_drop hp)) hbroken hleft).imp
      fun r u hu => ?_
    rcases hu with ⟨packet, rest, hdrop, rfl, hu, hframe⟩ | ⟨hr, hu, hwhy⟩
    · have hlt : k < packets.length := by
        have hlen := congrArg List.length hdrop
        rw [List.length_drop, List.length_cons] at hlen
        omega
      have htake : packets.take (k + 1) = packets.take k ++ [packet] := by
        rw [List.take_add, hdrop]
        rfl
      have hnext : results ++ [received packet] = (packets.take (k + 1)).map received := by
        rw [htake, hresults, List.map_append]
        rfl
      refine ⟨?_, fun _ => ⟨hlt, hnext, ?_⟩, fun hbad => ?_⟩
      · rw [hnext, successes_received]
        exact (List.take_prefix _ _).map received
      · rw [htake, List.flatMap_append, List.flatMap_singleton, List.append_assoc, ← hframe, hheld]
      · rw [hu] at hbad
        cases hbad
    · refine ⟨by rw [successes_error hr]; exact h.first, fun hgood => ?_, fun _ => ?_⟩
      · rw [hu] at hgood
        cases hgood
      · rcases hwhy with hmay | hnil | hpart
        · exact Or.inl hmay
        · have hlen := congrArg List.length hnil
          rw [List.length_drop, List.length_nil] at hlen
          exact Or.inr (Or.inl (by omega))
        · refine Or.inr (Or.inr fun heq => hpart ?_)
          rw [hheld, hsplit] at heq
          exact List.append_cancel_left heq

/-- **The calls of a receiver**, one after another. -/
theorem recvPackets_ok {packets : List Packet} (hsize : ∀ packet ∈ packets, packet.length < 2 ^ 31)
    (hs : s.recvBroken = false) (hbytes : s.bytes <+: packets.flatMap (frame m)) (calls : ℕ) :
    (recvPackets m calls).Ok (kernelSpec mayBreak) (Reading m mayBreak packets s.bytes calls) E s := by
  have hstart : Reading m mayBreak packets s.bytes 0 [] s :=
    ⟨List.nil_prefix, fun _ => ⟨Nat.zero_le _, rfl, rfl⟩, fun h => by rw [hs] at h; cases h⟩
  have hall : (recvPackets m calls).Ok (kernelSpec mayBreak)
      (fun results t => Reading m mayBreak packets s.bytes (List.range calls).length results t) E s := by
    unfold recvPackets
    refine Prog.ok_foldlM (K := fun done results t => Reading m mayBreak packets s.bytes done.length results t)
      (List.range calls) (fun done i rest results t _ ht => ?_) hstart
    rw [Prog.ok_bind, List.length_append, List.length_singleton]
    exact ht.next hsize hbytes
  rwa [List.length_range] at hall

/-! ## Packets over the stream -/

theorem overStream_ok {packets : List Packet} (hsize : ∀ packet ∈ packets, packet.length < 2 ^ 31) (calls : ℕ) :
    (overStream m packets calls).Ok (kernelSpec mayBreak) (fun x _ => successes x.2 <+: packets.map received ∧
      (mayBreak = false → calls = packets.length →
        x = (packets.map fun _ => SOCKET_ERROR_NONE, packets.map received))) E .start := by
  unfold overStream
  rw [Prog.ok_bind]
  refine (sendPackets_ok packets .start).imp fun statuses t ht => ?_
  obtain ⟨hsent, hstatuses⟩ := ht
  obtain ⟨sent, hprefix, hbytes⟩ := hsent.part
  have hpart : t.bytes <+: packets.flatMap (frame m) := by
    rw [hbytes]
    exact hprefix
  rw [Prog.ok_bind]
  refine (recvPackets_ok hsize hsent.recv hpart calls).imp fun results u hu => ?_
  refine ⟨hu.first, fun hmay hcalls => ?_⟩
  subst hmay
  have hsend : t.sendBroken = false := by
    by_contra hbroken
    rcases hsent.broken (by simpa using hbroken) with h | h <;> cases h
  have hwhole : t.bytes = packets.flatMap (frame m) := (hsent.whole hsend).2
  have hrecv : u.recvBroken = false := by
    by_contra hbroken
    rcases hu.broken (by simpa using hbroken) with h | h | h
    · cases h
    · omega
    · exact h hwhole
  rw [hstatuses hsend, (hu.clean hrecv).2.1, hcalls, List.take_length]

theorem serveSock_isSome (s : Stream) (r : SockReq) (i : Kernel) : (serveSock s r i).isSome = true := by
  cases r <;> cases i <;> simp only [serveSock] <;> first | rfl | (split <;> rfl)

/-- **Packet framing.** Packets below 2^31 bytes are sent in order, and received by any
number of calls, through any splits of the stream and any failures that can be retried,
below the limit. Both ends come to their end; the packets received with a status that is
not negative are the first of those sent, wherever the stream breaks; and if it does not
break, as many calls as packets receive exactly these, with their sizes, and every status
is that of success. -/
theorem packets_framed (m : Machine) (packets : List Packet) (hsize : ∀ packet ∈ packets, packet.length < 2 ^ 31)
    (calls : ℕ) (mayBreak : Bool) (kernel : ℕ → Kernel)
    (hallowed : ∀ n, (overStream m packets calls).Along serveSock (Allowed mayBreak)
      .start ((List.range n).map kernel)) :
    ∃ n statuses results t,
      (overStream m packets calls).exec serveSock .start ((List.range n).map kernel) =
        some (.ok (statuses, results), t) ∧
      (results.filter fun r => 0 ≤ r.status).map Received.packet <+: packets ∧
      (mayBreak = false → calls = packets.length → results = packets.map received ∧
        statuses = packets.map fun _ => SOCKET_ERROR_NONE) := by
  obtain ⟨n, ⟨o, t⟩, hexec⟩ := Prog.exec_total serveSock_isSome (overStream m packets calls) .start kernel
  have hok := Prog.Ok.exec_along (overStream_ok (E := fun _ _ => False) hsize calls) (hallowed n) hexec
  cases o with
  | error e => cases e
  | ok x =>
    obtain ⟨hfirst, hclean⟩ := hok
    refine ⟨n, x.1, x.2, t, hexec, ?_, fun hmay hcalls => ?_⟩
    · have hpackets := hfirst.map Received.packet
      have hback : Received.packet ∘ received = id := rfl
      rwa [List.map_map, hback, List.map_id] at hpackets
    · have hx := hclean hmay hcalls
      exact ⟨congrArg Prod.snd hx, congrArg Prod.fst hx⟩

/-- Eight bytes, the lowest one first. -/
def x86_64 : Machine := ⟨8, true, by decide⟩

/-- A first call that has to be tried again, and bytes in ones, twos and threes. -/
def unevenly : ℕ → Kernel
  | 0 => .retry
  | n + 1 => .moves (n % 3)

/-- Three packets, one of them empty. -/
theorem packets_framed_unevenly : ∃ n statuses results t,
    (overStream x86_64 [[1, 2, 3], [], [4]] 3).exec serveSock .start ((List.range n).map unevenly) =
        some (.ok (statuses, results), t) ∧
      (results.filter fun r => 0 ≤ r.status).map Received.packet <+: [[1, 2, 3], [], [4]] ∧
      (false = false → 3 = 3 → results = [[1, 2, 3], [], [4]].map received ∧
        statuses = [[1, 2, 3], [], [4]].map fun _ => SOCKET_ERROR_NONE) := by
  refine packets_framed x86_64 [[1, 2, 3], [], [4]] (by decide) 3 false unevenly fun n => ?_
  cases n with
  | zero => trivial
  | succ n =>
    rw [Prog.map_range_succ]
    refine ⟨nofun, fun x t _ => Prog.along_of_mem fun i hi s r => ?_⟩
    obtain ⟨k, -, rfl⟩ := List.mem_map.1 hi
    trivial

end Mdfs
