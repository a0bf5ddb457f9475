import Mdfs.Utils.Handshake

/-!
# A string that is received, on the heap

`socket_recv_packet`, `socket_recv_string` and `_check_handshake` again, now with the
buffer of the packet: which of its bytes are examined, and whether it is still allocated.
`strlen` and `strcmp` go on up to a zero byte, if need be into the bytes that are mapped
behind the buffer. A program is `none` where it runs past those too, or frees what is not
allocated. The functions have the names of those in `Handshake`, which are about strings:
they are the same programs one level further down, and for a packet that gets a buffer the
results are the same where there is one (`recvString_eq`, `getHandshakeCode_eq`).

* `recvString_eq_of_length`: a string is received by where the search for its end ends.
* `getHandshakeCode_run`: the greetings are looked up in the string alone.
* `validated_iff`: the payloads that are validated safely; `unterminated_examined`: one that is not.
* `recvString_eq`, `getHandshakeCode_eq`: the results are those of `Handshake`.
-/

namespace Mdfs.Heap

/-- What the heap adds to a packet: whether `malloc(0)` gives a buffer, and the bytes behind a buffer up to the end of
the mapped memory. -/
structure Layout where
  mallocZero : Bool
  behind : List UInt8

/-- What arrives of a packet: not even its size, its size and not all of its bytes, or the whole of it. -/
inductive Arrival
  | nothing
  | cut (size : ℕ)
  | whole (payload : Packet)

/-- The first bytes that have been examined, from the start of the buffer on, and whether it is allocated. -/
structure Trace where
  examined : ℕ
  live : Bool
  deriving DecidableEq

def Trace.start : Trace := ⟨0, false⟩

abbrev HeapProg := StateT Trace Option

/-- The bytes at the buffer, up to the end of the mapped memory. -/
def Layout.from (l : Layout) (payload : Packet) : List UInt8 := payload ++ l.behind

/-! ## The C library -/

/-- `malloc`; whether it gives a buffer. -/
def malloc (l : Layout) (size : ℕ) : HeapProg Bool :=
  if size = 0 ∧ l.mallocZero = false then pure false
  else fun t => some (true, { t with live := true })

def free : HeapProg Unit := fun t => if t.live then some ((), { t with live := false }) else none

/-- The first `n` bytes are examined. -/
def examine (n : ℕ) : HeapProg Unit := fun t =>
  if t.live then some ((), { t with examined := max t.examined n }) else none

/-- The number of bytes before the first zero byte. -/
def lengthToNul : List UInt8 → Option ℕ
  | [] => none
  | b :: bytes => if b = 0 then some 0 else (lengthToNul bytes).map (· + 1)

def strlen (bytes : List UInt8) : HeapProg ℕ := do
  let length ← (lengthToNul bytes : Option ℕ)
  examine (length + 1)
  pure length

/-- Whether the strings are equal, and the number of bytes that tell. -/
def compare : List UInt8 → CStr → Option (Bool × ℕ)
  | [], _ => none
  | b :: _, [] => some (b = 0, 1)
  | b :: bytes, c :: s => if b = c then (compare bytes s).map fun r => (r.1, r.2 + 1) else some (false, 1)

/-- `!strcmp`, with a literal. -/
def strcmp (bytes : List UInt8) (s : CStr) : HeapProg Bool := do
  let r ← (compare bytes s : Option (Bool × ℕ))
  examine r.2
  pure r.1

/-! ## The functions of `socket.c` -/

/-- `socket_recv_packet`: the status, or the packet. How its bytes come is in `Framing`. -/
def socketRecvPacket (l : Layout) : Arrival → HeapProg (Except ℤ Packet)
  | .nothing => pure (.error SOCKET_ERROR_RECV)
  | .cut size => do
    if ← malloc l size then free
    pure (.error SOCKET_ERROR_RECV)
  | .whole payload => do
    -- without a buffer nothing is received, and there is nothing to free
    if ← malloc l payload.length then pure (.ok payload) else pure (.error SOCKET_ERROR_RECV)

/-- `socket_recv_string`: the status, or the bytes at the string, of which `Handshake` has those before the zero. -/
def socketRecvString (l : Layout) (arrival : Arrival) : HeapProg (Except ℤ (List UInt8)) := do
  match ← socketRecvPacket l arrival with
  | .error status => pure (.error status)
  | .ok packet =>
    let length ← strlen (l.from packet)
    if packet.length ≠ 1 + length then
      free
      pure (.error SOCKET_ERROR_SEND)
    else pure (.ok (l.from packet))

/-- The `if`s of `_get_handshake_code`, with the codes that they return. -/
def greetings : List (CStr × ℕ) :=
  [(cstr "WELCOME", HANDSHAKE_WELCOME), (cstr "IMMARTA", HANDSHAKE_MARTA), (cstr "IMFILESYSTEM", HANDSHAKE_FILESYSTEM),
    (cstr "IMNODO", HANDSHAKE_NODO), (cstr "IMJOB", HANDSHAKE_JOB)]

/-- `_get_handshake_code`, on the bytes of the string and for the `if`s that are left. -/
def getHandshakeCode (bytes : List UInt8) : List (CStr × ℕ) → HeapProg ℕ
  | [] => pure 0
  | (greeting, code) :: rest => do
    if ← strcmp bytes greeting then pure code else getHandshakeCode bytes rest

/-- `_check_handshake`. -/
def checkHandshake (l : Layout) (arrival : Arrival) (handshake : ℕ) : HeapProg ℤ := do
  match ← socketRecvString l arrival with
  | .error recive => pure recive
  | .ok hi =>
    let hscode ← getHandshakeCode hi greetings
    free
    pure (if hscode &&& handshake ≠ 0 then hscode else SOCKET_ERROR_HANDSHAKE)

/-! ## Strings in memory -/

variable {l : Layout} {s : CStr} {rest bytes : List UInt8} {t : Trace}

theorem upToNul_append_zero (hs : 0 ∉ s) (rest : List UInt8) : upToNul (s ++ 0 :: rest) = s := by
  induction s with
  | nil => rfl
  | cons b s ih =>
    obtain ⟨hb, hs⟩ := not_or.1 (fun h => hs (List.mem_cons.2 h))
    have hb' : b ≠ 0 := fun h => hb h.symm
    rw [List.cons_append, upToNul, List.takeWhile_cons, if_pos (by simpa using hb')]
    exact congrArg _ (ih hs)

theorem lengthToNul_append_zero (hs : 0 ∉ s) (rest : List UInt8) : lengthToNul (s ++ 0 :: rest) = some s.length := by
  induction s with
  | nil => rfl
  | cons b s ih =>
    obtain ⟨hb, hs⟩ := not_or.1 (fun h => hs (List.mem_cons.2 h))
    have hb' : b ≠ 0 := fun h => hb h.symm
    rw [List.cons_append, lengthToNul, if_neg hb', ih hs]
    rfl

/-- Without a zero byte, the search goes on behind. -/
theorem lengthToNul_append (h : 0 ∉ bytes) (behind : List UInt8) :
    lengthToNul (bytes ++ behind) = (lengthToNul behind).map (bytes.length + ·) := by
  induction bytes with
  | nil => simp
  | cons b bytes ih =>
    obtain ⟨hb, hrest⟩ := not_or.1 (fun hmem => h (List.mem_cons.2 hmem))
    have hb' : b ≠ 0 := fun h => hb h.symm
    rw [List.cons_append, lengthToNul, if_neg hb', ih hrest, Option.map_map]
    refine congrArg (fun f => Option.map f _) (funext fun n => ?_)
    simp only [Function.comp_apply, List.length_cons]
    omega

/-- Two strings are compared up to the terminator at most. -/
theorem compare_append_zero (hs : 0 ∉ s) (rest : List UInt8) {c : CStr} (hc : 0 ∉ c) :
    ∃ n, n ≤ s.length + 1 ∧ compare (s ++ 0 :: rest) c = some (decide (s = c), n) := by
  induction s generalizing c with
  | nil =>
    cases c with
    | nil => exact ⟨1, le_rfl, rfl⟩
    | cons b c =>
      have hb : (0 : UInt8) ≠ b := fun h => hc (h ▸ List.mem_cons_self)
      refine ⟨1, le_rfl, ?_⟩
      rw [List.nil_append, compare, if_neg hb]
      rfl
  | cons a s ih =>
    have ha : a ≠ 0 := fun h => hs (h ▸ List.mem_cons_self)
    cases c with
    | nil => exact ⟨1, by simp, by simp [compare, ha]⟩
    | cons b c =>
      by_cases hab : a = b
      · obtain ⟨n, hn, heq⟩ := ih (fun h => hs (List.mem_cons_of_mem a h)) (fun h => hc (List.mem_cons_of_mem b h))
        refine ⟨n + 1, by simpa using hn, ?_⟩
        rw [List.cons_append, compare, if_pos hab, heq]
        simp [hab]
      · exact ⟨1, by simp, by simp [compare, hab]⟩

/-! ## Runs -/

theorem malloc_run (l : Layout) (size : ℕ) (t : Trace) : malloc l size t =
    some (if size = 0 ∧ l.mallocZero = false then (false, t) else (true, { t with live := true })) := by
  unfold malloc
  split <;> rfl

/-- A payload that gets a buffer. -/
theorem recvPacket_run {payload : Packet} (h : payload ≠ [] ∨ l.mallocZero = true) :
    socketRecvPacket l (.whole payload) .start = some (.ok payload, ⟨0, true⟩) := by
  have hbuffer : ¬(payload.length = 0 ∧ l.mallocZero = false) := by
    rintro ⟨hlen, hzero⟩
    rcases h with h | h
    · exact h (List.eq_nil_of_length_eq_zero hlen)
    · rw [h] at hzero
      exact absurd hzero (by decide)
  have hmalloc := malloc_run l payload.length .start
  rw [if_neg hbuffer] at hmalloc
  simp only [socketRecvPacket, bind, StateT.bind, hmalloc, Option.bind_some]
  rfl

/-- An empty payload, where `malloc(0)` is NULL. -/
theorem recvString_null (h : l.mallocZero = false) :
    socketRecvString l (.whole []) .start = some (.error SOCKET_ERROR_RECV, .start) := by
  have hmalloc := malloc_run l 0 .start
  rw [if_pos ⟨rfl, h⟩] at hmalloc
  simp only [socketRecvString, socketRecvPacket, List.length_nil, bind, StateT.bind, hmalloc, Option.bind_some]
  rfl

/-- From the buffer on, by where the search for the zero byte ends. -/
theorem recvString_eq_of_length {payload : Packet} (h : payload ≠ [] ∨ l.mallocZero = true) :
    socketRecvString l (.whole payload) .start = (lengthToNul (l.from payload)).map fun n =>
      if payload.length ≠ 1 + n then (.error SOCKET_ERROR_SEND, ⟨n + 1, false⟩)
        else (.ok (l.from payload), ⟨n + 1, true⟩) := by
  have hpacket := recvPacket_run h
  simp only [socketRecvString, bind, StateT.bind, hpacket, Option.bind_some]
  cases hlength : lengthToNul (l.from payload) with
  | none => simp [strlen, hlength, bind, StateT.bind, liftM, monadLift, MonadLift.monadLift, StateT.lift]
  | some n =>
    have hstrlen : strlen (l.from payload) ⟨0, true⟩ = some (n, ⟨n + 1, true⟩) := by
      simp [strlen, hlength, examine, bind, StateT.bind, liftM, monadLift, MonadLift.monadLift, StateT.lift]
      rfl
    rw [hstrlen, Option.bind_some, Option.map_some]
    split <;> rfl

/-- **The code of a greeting**: the strings are compared inside the terminated one. -/
theorem getHandshakeCode_run (hs : 0 ∉ s) (rest : List UInt8) {table : List (CStr × ℕ)} (htable : ∀ p ∈ table, 0 ∉ p.1)
    {k : ℕ} (hseen : s.length + 1 ≤ k) :
    getHandshakeCode (s ++ 0 :: rest) table ⟨k, true⟩ = some ((table.lookup s).getD 0, ⟨k, true⟩) := by
  induction table with
  | nil => rfl
  | cons p table ih =>
    obtain ⟨greeting, code⟩ := p
    obtain ⟨n, hn, hcompare⟩ := compare_append_zero hs rest (htable _ List.mem_cons_self)
    have hmax : max k n = k := by omega
    have hstrcmp : strcmp (s ++ 0 :: rest) greeting ⟨k, true⟩ = some (decide (s = greeting), ⟨k, true⟩) := by
      simp [strcmp, hcompare, examine, hmax, bind, StateT.bind, liftM, monadLift, MonadLift.monadLift, StateT.lift]
      rfl
    have hrest := ih fun q hq => htable q (List.mem_cons_of_mem _ hq)
    simp only [getHandshakeCode, bind, StateT.bind, hstrcmp, Option.bind_some, List.lookup_cons]
    by_cases heq : s = greeting
    · have hbeq : (s == greeting) = true := beq_iff_eq.2 heq
      rw [hbeq, decide_eq_true heq]
      rfl
    · have hbeq : (s == greeting) = false := beq_eq_false_iff_ne.2 heq
      rw [hbeq, decide_eq_false heq]
      exact hrest

theorem greetings_zero : ∀ p ∈ greetings, 0 ∉ p.1 := by decide

/-- A greeting stands for one code. -/
theorem lookup_greetings {c : ℕ} (h : (s, c) ∈ greetings) : greetings.lookup s = some c := by
  have hall : ∀ p ∈ greetings, greetings.lookup p.1 = some p.2 := by decide
  exact hall _ h

theorem mem_greetings_of_lookup {c : ℕ} (h : greetings.lookup s = some c) : (s, c) ∈ greetings := by
  obtain ⟨before, after, hsplit, -⟩ := List.lookup_eq_some_iff.1 h
  rw [hsplit]
  simp

/-- What is said of a payload that is validated safely: the string that is received is the payload without its one
terminator, an error leaves nothing to free, and the greetings that are permitted are accepted and nothing else; no byte
behind the payload is examined. -/
structure Validated (l : Layout) (payload : Packet) : Prop where
  string : ∃ r t, socketRecvString l (.whole payload) .start = some (r, t) ∧ t.examined ≤ payload.length ∧
    match r with
    | .ok bytes => payload = upToNul bytes ++ [0] ∧ t.live = true
    | .error status => status < 0 ∧ t.live = false
  check : ∀ handshake, ∃ (code : ℤ) (t : Trace), checkHandshake l (.whole payload) handshake .start = some (code, t) ∧
    t.examined ≤ payload.length ∧ t.live = false ∧ code ≠ 0 ∧
    ∀ c : ℕ, code = c ↔ ∃ s, (s, c) ∈ greetings ∧ c &&& handshake ≠ 0 ∧ payload = s ++ [0]

/-- An error in the receiving is what the check returns. -/
theorem checkHandshake_error {payload : Packet} {status : ℤ} {t : Trace}
    (h : socketRecvString l (.whole payload) .start = some (.error status, t)) (handshake : ℕ) :
    checkHandshake l (.whole payload) handshake .start = some (status, t) := by
  simp only [checkHandshake, bind, StateT.bind, h, Option.bind_some]
  rfl

/-- An error that examines no byte too many, for a payload that is not a greeting. -/
theorem validated_of_error {payload : Packet} {status : ℤ} {k : ℕ}
    (h : socketRecvString l (.whole payload) .start = some (.error status, ⟨k, false⟩)) (hk : k ≤ payload.length)
    (hneg : status < 0) (hnot : ∀ s, 0 ∉ s → payload ≠ s ++ [0]) : Validated l payload := by
  refine ⟨⟨_, _, h, hk, hneg, rfl⟩, fun handshake => ⟨status, _, checkHandshake_error h handshake, hk, rfl, by omega,
    fun c => ?_⟩⟩
  constructor
  · intro hc
    omega
  · rintro ⟨s, hs, -, hpayload⟩
    exact absurd hpayload (hnot s (greetings_zero _ hs))

/-- **A terminated string** is received, and compared with the greetings, inside the payload. -/
theorem validated_string (l : Layout) (hs : 0 ∉ s) : Validated l (s ++ [0]) := by
  have hlength : lengthToNul (l.from (s ++ [0])) = some s.length := by
    rw [Layout.from, List.append_assoc]
    exact lengthToNul_append_zero hs l.behind
  have hne : s ++ [0] ≠ [] ∨ l.mallocZero = true := Or.inl (by simp)
  have hrecv := recvString_eq_of_length hne
  rw [hlength, Option.map_some, if_neg (by simp [Nat.add_comm])] at hrecv
  refine ⟨⟨_, _, hrecv, by simp, ?_, rfl⟩, fun handshake => ?_⟩
  · rw [Layout.from, List.append_assoc]
    exact (congrArg (· ++ [0]) (upToNul_append_zero hs l.behind)).symm
  · set code := (greetings.lookup s).getD 0 with hcode
    have hcheck : checkHandshake l (.whole (s ++ [0])) handshake .start =
        some (if code &&& handshake ≠ 0 then (code : ℤ) else SOCKET_ERROR_HANDSHAKE, ⟨s.length + 1, false⟩) := by
      have hcompared := getHandshakeCode_run hs l.behind greetings_zero (le_refl (s.length + 1))
      simp only [checkHandshake, bind, StateT.bind, hrecv, Option.bind_some, Layout.from, List.append_assoc,
        List.singleton_append, hcompared]
      rfl
    have hcode0 : code &&& handshake ≠ 0 → code ≠ 0 := by
      intro hmask hzero
      rw [hzero, Nat.zero_and] at hmask
      exact hmask rfl
    have hgreeting : ∀ {s' c}, (s', c) ∈ greetings → s ++ [0] = s' ++ [0] → code = c := by
      intro s' c hmem heq
      obtain rfl := List.append_cancel_right heq
      rw [hcode, lookup_greetings hmem]
      rfl
    refine ⟨_, _, hcheck, by simp, rfl, ?_, fun c => ?_⟩
    · split
      · rename_i hmask
        have hne := hcode0 hmask
        omega
      · decide
    · split
      · rename_i hmask
        rw [Nat.cast_inj]
        constructor
        · rintro rfl
          have hsome : greetings.lookup s = some code := by
            cases hlookup : greetings.lookup s with
            | none => exact absurd (by rw [hcode, hlookup]; rfl) (hcode0 hmask)
            | some c => rw [hcode, hlookup]; rfl
          exact ⟨s, mem_greetings_of_lookup hsome, hmask, rfl⟩
        · rintro ⟨s', hmem, -, heq⟩
          exact hgreeting hmem heq
      · rename_i hmask
        constructor
        · intro hc
          have hneg : SOCKET_ERROR_HANDSHAKE < 0 := by decide
          omega
        · rintro ⟨s', hmem, hmask', heq⟩
          rw [← hgreeting hmem heq] at hmask'
          exact absurd hmask' hmask

/-- **The payloads that are validated safely** are those with a zero byte, and the empty one where `malloc(0)` is NULL,
whatever is behind the buffer. -/
theorem validated_iff (l : Layout) (payload : Packet) :
    Validated l payload ↔ 0 ∈ payload ∨ payload = [] ∧ l.mallocZero = false := by
  constructor
  · intro h
    by_contra hnot
    obtain ⟨hzero, hbuffer⟩ := not_or.1 hnot
    have hallocated : payload ≠ [] ∨ l.mallocZero = true := by
      by_contra hall
      obtain ⟨hempty, hmalloc⟩ := not_or.1 hall
      exact hbuffer ⟨not_not.1 hempty, Bool.eq_false_iff.2 hmalloc⟩
    obtain ⟨r, t, hrun, hexamined, -⟩ := h.string
    rw [recvString_eq_of_length hallocated, Layout.from, lengthToNul_append hzero] at hrun
    -- the search has ended behind the payload
    cases hlength : lengthToNul l.behind with
    | none =>
      rw [hlength] at hrun
      exact absurd hrun.symm (Option.some_ne_none _)
    | some n =>
      rw [hlength, Option.map_some, Option.map_some, Option.some.injEq, if_pos (by omega)] at hrun
      obtain ⟨-, rfl⟩ := Prod.mk.inj hrun
      have hbeyond : payload.length + n + 1 ≤ payload.length := hexamined
      omega
  · rintro (hzero | ⟨rfl, hnull⟩)
    · obtain ⟨s, rest, rfl, hs⟩ := List.eq_append_cons_of_mem hzero
      by_cases hrest : rest = []
      · rw [hrest]
        exact validated_string l hs
      · have hlength : lengthToNul (l.from (s ++ 0 :: rest)) = some s.length := by
          rw [Layout.from, List.append_assoc]
          exact lengthToNul_append_zero hs _
        have hlong : 0 < rest.length := List.length_pos_of_ne_nil hrest
        have hne : s ++ 0 :: rest ≠ [] ∨ l.mallocZero = true := Or.inl (by simp)
        have hrecv := recvString_eq_of_length hne
        rw [hlength, Option.map_some, if_pos (by simp; omega)] at hrecv
        refine validated_of_error hrecv (by simp) (by decide) fun s' hs' heq => hrest ?_
        have hsame : s = s' := by
          rw [← upToNul_append_zero hs rest, heq, upToNul_append_zero hs' []]
        rw [hsame] at heq
        exact (List.cons.inj (List.append_cancel_left heq)).2
    · exact validated_of_error (recvString_null hnull) le_rfl (by decide) fun s _ h => by simp at h

/-- The greeting `IMJOB` without its terminator, before a zero byte: the sixth byte of five is examined. -/
theorem unterminated_examined :
    socketRecvString ⟨true, [0]⟩ (.whole (cstr "IMJOB")) .start = some (.error SOCKET_ERROR_SEND, ⟨6, false⟩) ∧
      (cstr "IMJOB").length = 5 ∧ ¬Validated ⟨true, [0]⟩ (cstr "IMJOB") := by
  refine ⟨by decide, by decide, fun h => ?_⟩
  obtain ⟨r, t, hrun, hexamined, -⟩ := h.string
  have hsix : socketRecvString ⟨true, [0]⟩ (.whole (cstr "IMJOB")) .start =
    some (.error SOCKET_ERROR_SEND, ⟨6, false⟩) := by
    decide
  obtain ⟨-, rfl⟩ := Prod.mk.inj (Option.some.inj (hrun.symm.trans hsix))
  exact absurd hexamined (by decide)

/-! ## The results of `Handshake` -/

theorem lookup_cons_getD (s greeting : CStr) (code : ℕ) (rest : List (CStr × ℕ)) :
    (((greeting, code) :: rest).lookup s).getD 0 = if s = greeting then code else (rest.lookup s).getD 0 := by
  rw [List.lookup_cons]
  by_cases h : s = greeting
  · rw [beq_iff_eq.2 h, if_pos h]
    rfl
  · rw [beq_eq_false_iff_ne.2 h, if_neg h]

theorem getHandshakeCode_eq (s : CStr) : Mdfs.getHandshakeCode s = (greetings.lookup s).getD 0 := by
  unfold Mdfs.getHandshakeCode greetings
  simp only [lookup_cons_getD]
  rfl

/-- A payload that gets a buffer is received, or refused, as `Handshake` says, when the search for its end ends. -/
theorem recvString_eq {payload : Packet} (h : payload ≠ [] ∨ l.mallocZero = true) {r : Except ℤ (List UInt8)}
    {t : Trace}
    (hrun : socketRecvString l (.whole payload) .start = some (r, t)) :
    r.map upToNul = Mdfs.socketRecvString (some payload) := by
  rw [recvString_eq_of_length h] at hrun
  obtain ⟨n, hn, hout⟩ := Option.map_eq_some_iff.1 hrun
  simp only [Mdfs.socketRecvString]
  by_cases hzero : 0 ∈ payload
  · obtain ⟨s, rest, rfl, hs⟩ := List.eq_append_cons_of_mem hzero
    rw [Layout.from, List.append_assoc, List.cons_append, lengthToNul_append_zero hs, Option.some.injEq] at hn
    rw [upToNul_append_zero hs, hn]
    by_cases hlength : (s ++ 0 :: rest).length ≠ 1 + n
    · rw [if_pos hlength] at hout
      rw [if_neg fun hboth => hlength hboth.2, ← (Prod.mk.inj hout).1]
      rfl
    · rw [if_neg hlength] at hout
      rw [if_pos ⟨hzero, not_not.1 hlength⟩, ← (Prod.mk.inj hout).1, Layout.from, List.append_assoc]
      exact congrArg Except.ok (upToNul_append_zero hs _)
  · rw [Layout.from, lengthToNul_append hzero] at hn
    obtain ⟨m, -, rfl⟩ := Option.map_eq_some_iff.1 hn
    rw [if_pos (by omega)] at hout
    rw [if_neg fun hboth => hzero hboth.1, ← (Prod.mk.inj hout).1]
    rfl

end Mdfs.Heap
