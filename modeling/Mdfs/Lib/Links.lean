import Mdfs.Lib.Exchanges

/-!
# A server and the connections to it

Thread 0 of a pool listens, and every other thread can connect to it, once. What is sent on a
connection waits for the other side, in order. A call can fail at any time, and a connection
that one side has shut brings nothing but what waits already.

A thread knows what it has done: `Record` is what it sent and heard on each connection, and
what else it did. `Tied` says how the records of all threads and the state of
the connections go together, and `tied_step` that no step of a thread that keeps to its own
sides (`Own`) breaks this.

* `Tied.down`, `Tied.up`: what one side has sent is what the other has heard and what waits.
* `serve_stuck`: a thread that cannot go on waits for a client, or to hear from the other side.
* `serve_fails`: where the calls work, one fails only on a connection that is shut.
-/

namespace Lib

namespace Links

variable {β ρ : Type} {V : ρ → Type}

/-- What a thread asks of its sockets, or of something else. -/
inductive Req (β ρ : Type)
  | connect
  | accept
  | send (c : ℕ) (b : β)
  | recv (c : ℕ)
  | close (c : ℕ)
  | other (r : ρ)

abbrev Req.Ans (V : ρ → Type) : Req β ρ → Type
  | .connect => Bool
  | .accept => Option ℕ
  | .send _ _ => Bool
  | .recv _ => Option β
  | .close _ => Unit
  | .other r => V r

/-- What the outside decides at a step: whether the call works, and the answers of all else. -/
structure Luck (V : ρ → Type) where
  works : Bool
  answers : (r : ρ) → V r

/-- The connections, each under the thread of its client. -/
structure Net (V : ρ → Type) (β : Type) where
  /-- Who has connected, and who of these is not accepted yet. -/
  dialed : ℕ → Bool
  backlog : List ℕ
  /-- What waits for the client, and what waits for the server. -/
  down : ℕ → List β
  up : ℕ → List β
  shut : ℕ → Bool
  others : List (Call V)

namespace Net

def start (V : ρ → Type) (β : Type) : Net V β := ⟨fun _ => false, [], fun _ => [], fun _ => [], fun _ => false, []⟩

variable (s : Net V β) (t c : ℕ)

/-- What waits for thread `t` on connection `c`. -/
def waiting : List β := if t = 0 then s.up c else s.down c

def put (b : β) : Net V β :=
  if t = 0 then { s with down := Function.update s.down c (s.down c ++ [b]) }
  else { s with up := Function.update s.up c (s.up c ++ [b]) }

def take (bs : List β) : Net V β :=
  if t = 0 then { s with up := Function.update s.up c bs } else { s with down := Function.update s.down c bs }

end Net

/-- What comes of a request of thread `t`. -/
def serve (t : ℕ) (s : Net V β) : (r : Req β ρ) → Luck V → Option (r.Ans V × Net V β)
  | .connect, i =>
    if i.works && !s.dialed t then
      some (true, { s with dialed := Function.update s.dialed t true, backlog := s.backlog ++ [t] })
    else some (false, s)
  | .accept, i =>
    if i.works then
      match s.backlog with
      | [] => none
      | c :: cs => some (some c, { s with backlog := cs })
    else some (none, s)
  | .send c b, i => if i.works && !s.shut c then some (true, s.put t c b) else some (false, s)
  | .recv c, i =>
    if i.works then
      match s.waiting t c with
      | [] => if s.shut c then some (none, s) else none
      | b :: bs => some (some b, s.take t c bs)
    else some (none, s)
  | .close c, _ => some ((), { s with shut := Function.update s.shut c true })
  | .other r, i => some (i.answers r, { s with others := s.others ++ [⟨r, i.answers r⟩] })

/-! ## Records -/

/-- What one side has done on a connection. -/
structure Log (β : Type) where
  sent : List β
  received : List β

namespace Log

def blank : Log β := ⟨[], []⟩

def say (l : Log β) (b : β) : Log β := { l with sent := l.sent ++ [b] }
def hear (l : Log β) (b : β) : Log β := { l with received := l.received ++ [b] }

end Log

/-- What a thread has done. -/
structure Record (V : ρ → Type) (β : Type) where
  log : ℕ → Log β
  connected : Bool
  accepted : List ℕ
  closed : ℕ → Bool
  others : List (Call V)

namespace Record

def blank : Record V β := ⟨fun _ => .blank, false, [], fun _ => false, []⟩

def note (g : Record V β) (c : ℕ) (l : Log β) : Record V β := { g with log := Function.update g.log c l }

def hangUp (g : Record V β) (c : ℕ) : Record V β := { g with closed := Function.update g.closed c true }

/-- The record after a request is answered. A call that fails leaves no trace. -/
def after (g : Record V β) : (r : Req β ρ) → r.Ans V → Record V β
  | .connect, x => { g with connected := g.connected || x }
  | .accept, some c => { g with accepted := g.accepted ++ [c] }
  | .accept, none => g
  | .send c b, true => g.note c ((g.log c).say b)
  | .send _ _, false => g
  | .recv c, some b => g.note c ((g.log c).hear b)
  | .recv _, none => g
  | .close c, _ => g.hangUp c
  | .other r, x => { g with others := g.others ++ [⟨r, x⟩] }

@[simp] theorem note_log (g : Record V β) (c : ℕ) (l : Log β) : (g.note c l).log c = l := Function.update_self ..
@[simp] theorem note_connected (g : Record V β) (c : ℕ) (l : Log β) : (g.note c l).connected = g.connected := rfl
@[simp] theorem note_accepted (g : Record V β) (c : ℕ) (l : Log β) : (g.note c l).accepted = g.accepted := rfl
@[simp] theorem note_closed (g : Record V β) (c : ℕ) (l : Log β) : (g.note c l).closed = g.closed := rfl
@[simp] theorem note_others (g : Record V β) (c : ℕ) (l : Log β) : (g.note c l).others = g.others := rfl

@[simp] theorem note_note (g : Record V β) (c : ℕ) (l l' : Log β) : (g.note c l).note c l' = g.note c l' := by
  unfold note
  rw [Function.update_idem]

theorem note_log_of_ne (g : Record V β) {c c' : ℕ} (l : Log β) (h : c' ≠ c) : (g.note c l).log c' = g.log c' :=
  Function.update_of_ne h ..

end Record

/-- The requests of thread `t` that are about its own side of a connection. -/
def Own (t : ℕ) : Req β ρ → Prop
  | .connect => t ≠ 0
  | .accept | .other _ => t = 0
  | .send c _ | .recv c | .close c => c ≠ 0 ∧ (t = 0 ∨ c = t)

/-- **How the records of the threads and the connections go together.** -/
structure Tied (s : Net V β) (g : ℕ → Record V β) : Prop where
  down : ∀ c, c ≠ 0 → ((g 0).log c).sent = ((g c).log c).received ++ s.down c
  up : ∀ c, c ≠ 0 → ((g c).log c).sent = ((g 0).log c).received ++ s.up c
  shut : ∀ c, c ≠ 0 → s.shut c = ((g 0).closed c || (g c).closed c)
  dialed : ∀ c, c ≠ 0 → s.dialed c = (g c).connected
  known : ∀ c, c ∈ (g 0).accepted ++ s.backlog ↔ c ≠ 0 ∧ s.dialed c = true
  nodup : ((g 0).accepted ++ s.backlog).Nodup
  others : s.others = (g 0).others

variable {s s' : Net V β} {g : ℕ → Record V β} {t c : ℕ} {b : β}

theorem tied_start : Tied (Net.start V β) fun _ => Record.blank where
  down _ _ := rfl
  up _ _ := rfl
  shut _ _ := rfl
  dialed _ _ := rfl
  known c := by simp [Net.start, Record.blank]
  nodup := List.nodup_nil
  others := rfl

/-- What a thread keeps of its record, all threads keep. -/
theorem apply_update_of_eq {F : Record V β → α} {r : Record V β} (h : F r = F (g t)) (u : ℕ) :
    F (Function.update g t r u) = F (g u) := by
  by_cases hut : u = t
  · subst hut
    rw [Function.update_self, h]
  · rw [Function.update_of_ne hut]

/-- A new log of thread `t` on connection `c`, with all else as it was. -/
theorem Tied.note {l : Log β} (h : Tied s g) (hc : c ≠ 0) (hown : t = 0 ∨ c = t) (hothers : s'.others = s.others)
    (hshut : s'.shut = s.shut) (hdialed : s'.dialed = s.dialed) (hbacklog : s'.backlog = s.backlog)
    (hdown : ∀ c', c' ≠ c → s'.down c' = s.down c') (hup : ∀ c', c' ≠ c → s'.up c' = s.up c')
    (hserver : t = 0 → l.sent = ((g c).log c).received ++ s'.down c ∧ ((g c).log c).sent = l.received ++ s'.up c)
    (hclient : t = c → ((g 0).log c).sent = l.received ++ s'.down c ∧ l.sent = ((g 0).log c).received ++ s'.up c) :
    Tied s' (Function.update g t ((g t).note c l)) := by
  have hclosed := apply_update_of_eq (F := Record.closed) ((g t).note_closed c l)
  have hconnected := apply_update_of_eq (F := Record.connected) ((g t).note_connected c l)
  have haccepted := apply_update_of_eq (F := Record.accepted) ((g t).note_accepted c l) 0
  have hothers' := apply_update_of_eq (F := Record.others) ((g t).note_others c l) 0
  have hlog : ∀ u c', c' ≠ c → (Function.update g t ((g t).note c l) u).log c' = (g u).log c' :=
    fun u c' hne => apply_update_of_eq (F := fun r => r.log c') ((g t).note_log_of_ne l hne) u
  have hboth : ∀ c', c' = c → ((Function.update g t ((g t).note c l) 0).log c').sent =
        ((Function.update g t ((g t).note c l) c').log c').received ++ s'.down c' ∧
      ((Function.update g t ((g t).note c l) c').log c').sent =
        ((Function.update g t ((g t).note c l) 0).log c').received ++ s'.up c' := by
    intro c' heq
    subst heq
    rcases hown with rfl | rfl
    · rw [Function.update_self, Function.update_of_ne hc, Record.note_log]
      exact hserver rfl
    · rw [Function.update_self, Function.update_of_ne (Ne.symm hc), Record.note_log]
      exact hclient rfl
  constructor
  · intro c' hc'
    by_cases hne : c' = c
    · exact (hboth c' hne).1
    · rw [hlog 0 c' hne, hlog c' c' hne, hdown c' hne]
      exact h.down c' hc'
  · intro c' hc'
    by_cases hne : c' = c
    · exact (hboth c' hne).2
    · rw [hlog 0 c' hne, hlog c' c' hne, hup c' hne]
      exact h.up c' hc'
  · intro c' hc'
    rw [hclosed, hclosed, hshut]
    exact h.shut c' hc'
  · intro c' hc'
    rw [hconnected, hdialed]
    exact h.dialed c' hc'
  · intro c'
    rw [haccepted, hbacklog, hdialed]
    exact h.known c'
  · rw [haccepted, hbacklog]
    exact h.nodup
  · rw [hothers', hothers]
    exact h.others

/-- A call that fails changes nothing. -/
theorem Tied.same (h : Tied s g) : Tied s (Function.update g t (g t)) := by
  rwa [Function.update_eq_self]

theorem Tied.say (h : Tied s g) (hc : c ≠ 0) (hown : t = 0 ∨ c = t) :
    Tied (s.put t c b) (Function.update g t ((g t).note c (((g t).log c).say b))) := by
  rcases hown with rfl | rfl
  · refine h.note hc (Or.inl rfl) rfl rfl rfl rfl (fun c' hne => Function.update_of_ne hne ..) (fun _ _ => rfl) ?_ ?_
    · intro _
      have hdown : (s.put 0 c b).down c = s.down c ++ [b] := Function.update_self ..
      refine ⟨?_, h.up c hc⟩
      rw [hdown, ← List.append_assoc, ← h.down c hc]
      rfl
    · exact fun heq => absurd heq.symm hc
  · have hput : s.put c c b = { s with up := Function.update s.up c (s.up c ++ [b]) } := if_neg hc
    rw [hput]
    refine h.note hc (Or.inr rfl) rfl rfl rfl rfl (fun _ _ => rfl) (fun c' hne => Function.update_of_ne hne ..) ?_ ?_
    · exact fun heq => absurd heq hc
    · intro _
      refine ⟨h.down c hc, ?_⟩
      show ((g c).log c).sent ++ [b] = _ ++ Function.update s.up c (s.up c ++ [b]) c
      rw [Function.update_self, ← List.append_assoc, ← h.up c hc]

theorem Tied.hear {bs : List β} (h : Tied s g) (hc : c ≠ 0) (hown : t = 0 ∨ c = t) (hwait : s.waiting t c = b :: bs) :
    Tied (s.take t c bs) (Function.update g t ((g t).note c (((g t).log c).hear b))) := by
  rcases hown with rfl | rfl
  · have hup : s.up c = b :: bs := hwait
    refine h.note hc (Or.inl rfl) rfl rfl rfl rfl (fun _ _ => rfl) (fun c' hne => Function.update_of_ne hne ..) ?_ ?_
    · intro _
      have htake : (s.take 0 c bs).up c = bs := Function.update_self ..
      refine ⟨h.down c hc, ?_⟩
      rw [htake, h.up c hc, hup]
      show _ = _ ++ [b] ++ bs
      rw [List.append_assoc, List.singleton_append]
    · exact fun heq => absurd heq.symm hc
  · have hdown : s.down c = b :: bs := by
      unfold Net.waiting at hwait
      rwa [if_neg hc] at hwait
    have htake : s.take c c bs = { s with down := Function.update s.down c bs } := if_neg hc
    rw [htake]
    refine h.note hc (Or.inr rfl) rfl rfl rfl rfl (fun c' hne => Function.update_of_ne hne ..) (fun _ _ => rfl) ?_ ?_
    · exact fun heq => absurd heq hc
    · intro _
      refine ⟨?_, h.up c hc⟩
      show ((g 0).log c).sent = ((g c).log c).received ++ [b] ++ Function.update s.down c bs c
      rw [Function.update_self, h.down c hc, hdown, List.append_assoc, List.singleton_append]

theorem Tied.close (h : Tied s g) (hc : c ≠ 0) (hown : t = 0 ∨ c = t) :
    Tied { s with shut := Function.update s.shut c true } (Function.update g t ((g t).hangUp c)) := by
  have hlog := apply_update_of_eq (g := g) (F := Record.log) (r := (g t).hangUp c) rfl
  have hconnected := apply_update_of_eq (g := g) (F := Record.connected) (r := (g t).hangUp c) rfl
  have haccepted := apply_update_of_eq (g := g) (F := Record.accepted) (r := (g t).hangUp c) rfl 0
  have hothers := apply_update_of_eq (g := g) (F := Record.others) (r := (g t).hangUp c) rfl 0
  constructor
  · intro c' hc'
    rw [hlog, hlog]
    exact h.down c' hc'
  · intro c' hc'
    rw [hlog, hlog]
    exact h.up c' hc'
  · intro c' hc'
    show Function.update s.shut c true c' = _
    by_cases hne : c' = c
    · subst hne
      rw [Function.update_self]
      rcases hown with rfl | rfl
      · simp [Record.hangUp]
      · simp [Record.hangUp]
    · have hclosed : ∀ u, (Function.update g t ((g t).hangUp c) u).closed c' = (g u).closed c' :=
        apply_update_of_eq (F := fun r => r.closed c') (Function.update_of_ne hne ..)
      rw [Function.update_of_ne hne, hclosed, hclosed]
      exact h.shut c' hc'
  · intro c' hc'
    rw [hconnected]
    exact h.dialed c' hc'
  · intro c'
    rw [haccepted]
    exact h.known c'
  · rw [haccepted]
    exact h.nodup
  · rw [hothers]
    exact h.others

theorem Tied.connect (h : Tied s g) (ht : t ≠ 0) (hnew : s.dialed t = false) :
    Tied { s with dialed := Function.update s.dialed t true, backlog := s.backlog ++ [t] }
      (Function.update g t { g t with connected := true }) := by
  have hlog := apply_update_of_eq (g := g) (F := Record.log) (r := { g t with connected := true }) rfl
  have hclosed := apply_update_of_eq (g := g) (F := Record.closed) (r := { g t with connected := true }) rfl
  have haccepted := apply_update_of_eq (g := g) (F := Record.accepted) (r := { g t with connected := true }) rfl 0
  have hothers := apply_update_of_eq (g := g) (F := Record.others) (r := { g t with connected := true }) rfl 0
  have hfresh : t ∉ (g 0).accepted ++ s.backlog := fun hmem => by simp [((h.known t).1 hmem).2] at hnew
  constructor
  · intro c hc
    rw [hlog, hlog]
    exact h.down c hc
  · intro c hc
    rw [hlog, hlog]
    exact h.up c hc
  · intro c hc
    rw [hclosed, hclosed]
    exact h.shut c hc
  · intro c hc
    show Function.update s.dialed t true c = _
    by_cases hct : c = t
    · subst hct
      rw [Function.update_self, Function.update_self]
    · rw [Function.update_of_ne hct, Function.update_of_ne hct]
      exact h.dialed c hc
  · intro c
    rw [haccepted, ← List.append_assoc, List.mem_append, h.known c, List.mem_singleton]
    by_cases hct : c = t
    · subst hct
      simp [ht]
    · simp [hct]
  · rw [haccepted, ← List.append_assoc]
    exact h.nodup.append (List.nodup_singleton t) (List.disjoint_singleton.2 hfresh)
  · rw [hothers]
    exact h.others

theorem Tied.accept {cs : List ℕ} (h : Tied s g) (hbacklog : s.backlog = c :: cs) :
    Tied { s with backlog := cs } (Function.update g 0 { g 0 with accepted := (g 0).accepted ++ [c] }) := by
  have hlog := apply_update_of_eq (g := g) (t := 0) (F := Record.log)
    (r := { g 0 with accepted := (g 0).accepted ++ [c] }) rfl
  have hclosed := apply_update_of_eq (g := g) (t := 0) (F := Record.closed)
    (r := { g 0 with accepted := (g 0).accepted ++ [c] }) rfl
  have hconnected := apply_update_of_eq (g := g) (t := 0) (F := Record.connected)
    (r := { g 0 with accepted := (g 0).accepted ++ [c] }) rfl
  have hall : (g 0).accepted ++ [c] ++ cs = (g 0).accepted ++ s.backlog := by
    rw [hbacklog, List.append_assoc, List.singleton_append]
  constructor
  · intro c' hc'
    rw [hlog, hlog]
    exact h.down c' hc'
  · intro c' hc'
    rw [hlog, hlog]
    exact h.up c' hc'
  · intro c' hc'
    rw [hclosed, hclosed]
    exact h.shut c' hc'
  · intro c' hc'
    rw [hconnected]
    exact h.dialed c' hc'
  · intro c'
    rw [Function.update_self, hall]
    exact h.known c'
  · rw [Function.update_self, hall]
    exact h.nodup
  · rw [Function.update_self]
    exact h.others

theorem Tied.other {r : ρ} {x : V r} (h : Tied s g) : Tied { s with others := s.others ++ [⟨r, x⟩] }
    (Function.update g 0 { g 0 with others := (g 0).others ++ [⟨r, x⟩] }) := by
  have hlog := apply_update_of_eq (g := g) (t := 0) (F := Record.log)
    (r := { g 0 with others := (g 0).others ++ [⟨r, x⟩] }) rfl
  have hclosed := apply_update_of_eq (g := g) (t := 0) (F := Record.closed)
    (r := { g 0 with others := (g 0).others ++ [⟨r, x⟩] }) rfl
  have hconnected := apply_update_of_eq (g := g) (t := 0) (F := Record.connected)
    (r := { g 0 with others := (g 0).others ++ [⟨r, x⟩] }) rfl
  constructor
  · intro c hc
    rw [hlog, hlog]
    exact h.down c hc
  · intro c hc
    rw [hlog, hlog]
    exact h.up c hc
  · intro c hc
    rw [hclosed, hclosed]
    exact h.shut c hc
  · intro c hc
    rw [hconnected]
    exact h.dialed c hc
  · intro c
    rw [Function.update_self]
    exact h.known c
  · rw [Function.update_self]
    exact h.nodup
  · rw [Function.update_self]
    exact congrArg (· ++ [⟨r, x⟩]) h.others

/-! ## Steps -/

/-- What the server can count on: it accepts nobody twice. -/
def Fine (g : Record V β) : (r : Req β ρ) → r.Ans V → Prop
  | .accept, some c => c ≠ 0 ∧ c ∉ g.accepted
  | _, _ => True

/-- The answers of a call that fails. -/
def failing : (r : Req β ρ) → r.Ans V → Bool
  | .connect, x => !x
  | .accept, x => x.isNone
  | .send _ _, x => !x
  | .recv _, x => x.isNone
  | _, _ => false

variable {r : Req β ρ} {i : Luck V} {x : r.Ans V}

/-- **A step keeps the records and the connections together.** -/
theorem tied_step (h : Tied s g) (hown : Own t r) (hs : serve t s r i = some (x, s')) :
    Fine (g t) r x ∧ Tied s' (Function.update g t ((g t).after r x)) := by
  cases r with
  | connect =>
    refine ⟨trivial, ?_⟩
    simp only [serve] at hs
    split at hs
    · rename_i hdial
      cases hs
      rw [Bool.and_eq_true, Bool.not_eq_true'] at hdial
      simp only [Record.after, Bool.or_true]
      exact h.connect hown hdial.2
    · cases hs
      simp only [Record.after, Bool.or_false]
      exact h.same
  | accept =>
    have ht : t = 0 := hown
    subst ht
    simp only [serve] at hs
    split at hs
    · split at hs
      · cases hs
      · rename_i c cs hbacklog
        cases hs
        have hmem : c ∈ (g 0).accepted ++ s.backlog := by simp [hbacklog]
        have hnodup := h.nodup
        rw [hbacklog] at hnodup
        have hnew : c ∉ (g 0).accepted := fun hold => List.disjoint_of_nodup_append hnodup hold List.mem_cons_self
        exact ⟨⟨((h.known c).1 hmem).1, hnew⟩, h.accept hbacklog⟩
    · cases hs
      exact ⟨trivial, h.same⟩
  | send c b =>
    refine ⟨trivial, ?_⟩
    simp only [serve] at hs
    split at hs
    · cases hs
      exact h.say hown.1 hown.2
    · cases hs
      exact h.same
  | recv c =>
    refine ⟨trivial, ?_⟩
    simp only [serve] at hs
    split at hs
    · split at hs
      · split at hs
        · cases hs
          exact h.same
        · cases hs
      · rename_i hwait
        cases hs
        exact h.hear hown.1 hown.2 hwait
    · cases hs
      exact h.same
  | close c =>
    cases hs
    exact ⟨trivial, h.close hown.1 hown.2⟩
  | other r =>
    have ht : t = 0 := hown
    subst ht
    cases hs
    exact ⟨trivial, h.other⟩

/-- **Where the calls work, one fails only on a connection that is shut**, or at a second try to connect. -/
theorem serve_fails (hs : serve t s r i = some (x, s')) (hworks : i.works = true) (hfail : failing r x = true) :
    (r = .connect ∧ s.dialed t = true) ∨
      ∃ c, s.shut c = true ∧ ((∃ b, r = .send c b) ∨ (r = .recv c ∧ s.waiting t c = [])) := by
  cases r with
  | connect =>
    simp only [serve] at hs
    split at hs
    · cases hs
      simp [failing] at hfail
    · rename_i hdial
      rw [hworks, Bool.true_and, Bool.not_eq_true', Bool.not_eq_false] at hdial
      exact Or.inl ⟨rfl, hdial⟩
  | accept =>
    simp only [serve, hworks, if_true] at hs
    split at hs
    · cases hs
    · cases hs
      simp [failing] at hfail
  | send c b =>
    simp only [serve] at hs
    split at hs
    · cases hs
      simp [failing] at hfail
    · rename_i hshut
      rw [hworks, Bool.true_and, Bool.not_eq_true', Bool.not_eq_false] at hshut
      exact Or.inr ⟨c, hshut, Or.inl ⟨b, rfl⟩⟩
  | recv c =>
    simp only [serve, hworks, if_true] at hs
    split at hs
    · rename_i hwait
      split at hs
      · rename_i hshut
        exact Or.inr ⟨c, hshut, Or.inr ⟨rfl, hwait⟩⟩
      · cases hs
    · cases hs
      simp [failing] at hfail
  | close c => simp [failing] at hfail
  | other r => simp [failing] at hfail

/-- **Who cannot go on** waits for somebody to connect, or to hear from the other side. -/
theorem serve_stuck (hs : serve t s r i = none) : (r = .accept ∧ s.backlog = []) ∨
    ∃ c, r = .recv c ∧ s.waiting t c = [] ∧ s.shut c = false := by
  cases r with
  | connect =>
    simp only [serve] at hs
    split at hs
    · cases hs
    · cases hs
  | accept =>
    simp only [serve] at hs
    split at hs
    · split at hs
      · rename_i hbacklog
        exact Or.inl ⟨rfl, hbacklog⟩
      · cases hs
    · cases hs
  | send c b =>
    simp only [serve] at hs
    split at hs
    · cases hs
    · cases hs
  | recv c =>
    simp only [serve] at hs
    split at hs
    · split at hs
      · rename_i hwait
        split at hs
        · cases hs
        · rename_i hshut
          exact Or.inr ⟨c, rfl, hwait, by simpa using hshut⟩
      · cases hs
    · cases hs
  | close c => cases hs
  | other r => cases hs

/-! ## Specifications -/

/-- A thread that keeps to its own sides, and of which `P` says when it asks what. Where `sure` holds no call fails. -/
def spec (sure : Prop) (t : ℕ) (P : Record V β → Req β ρ → Prop) : Spec (R := Req β ρ) (Req.Ans V) (Record V β) where
  pre g r := Own t r ∧ P g r
  post g r x g' := g' = g.after r x ∧ Fine g r x ∧ (sure → failing r x = false)

section Ok

variable {ε α : Type} {sure : Prop} {P : Record V β → Req β ρ → Prop} {E : ε → Record V β → Prop} {g : Record V β}

/-- One request. -/
theorem ok_ask {k : r.Ans V → Prog (R := Req β ρ) (Req.Ans V) ε α} {Q : α → Record V β → Prop} (hown : Own t r)
    (hP : P g r)
    (hQ : ∀ x, Fine g r x → (sure → failing r x = false) → (k x).Ok (spec sure t P) Q E (g.after r x)) :
    (Prog.ask r k).Ok (spec sure t P) Q E g := by
  refine ⟨⟨hown, hP⟩, fun x g' hpost => ?_⟩
  rw [hpost.1]
  exact hQ x hpost.2.1 hpost.2.2

end Ok

/-- **The obligation for one request**, beside the connections: `I` is kept, and where `sure` holds the call does
not fail. -/
theorem rule {sure : Prop} {P : ℕ → Record V β → Req β ρ → Prop} {I : (ℕ → Record V β) → Prop}
    (hstep : ∀ t s s' g (r : Req β ρ) i x, Tied s g → I g → Own t r → P t (g t) r → (sure → i.works = true) →
      serve t s r i = some (x, s') → (sure → failing r x = false) ∧ I (Function.update g t ((g t).after r x))) :
    Pool.Rule (fun t => spec sure t (P t)) (fun s g => Tied s g ∧ I g) serve fun _ _ _ i => sure → i.works = true := by
  intro t s g r i x s' hJ hpre hworks hs
  obtain ⟨hfine, htied⟩ := tied_step hJ.1 hpre.1 hs
  obtain ⟨hfail, hI⟩ := hstep t s s' g r i x hJ.1 hJ.2 hpre.1 hpre.2 hworks hs
  exact ⟨_, ⟨rfl, hfine, hfail⟩, htied, hI⟩

end Links

end Lib
