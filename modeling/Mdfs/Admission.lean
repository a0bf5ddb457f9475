import Mdfs.Connections

/-!
# Who is let in

A listener and its clients, interleaved in any way, on connections that can fail at any time. A
client is one of the callers of the programs, or anything else that keeps to its own connection
(`Stranger`): what it sends there is its own affair.

* `serving_after`, `calling_after`: what each step keeps of what a server, or a client, has done.
* `admitted`: a thread is started for a caller at most once, as what the caller says it is, and
  only where each lets the other in; and a caller whose call went well has such a thread, or MaRTA
  was turned away for want of nodes, by the time the listener waits for somebody else.
* `all_admitted`: where no call fails and all may come in, the system does not stop before all are in.
-/

namespace Mdfs.Connections

open Lib Links

/-- A program that keeps to its own connection. -/
structure Stranger where
  prog : ℕ → SockProg ℤ
  own : ∀ c, (prog c).Only (Own c)

inductive Client
  | caller (k : Caller)
  | stranger (p : Stranger)

def Client.prog : Client → ℕ → SockProg ℤ
  | .caller k => k.call
  | .stranger p => p.prog

/-- A listener and its clients. -/
def meeting (server : Server) (rounds : ℕ) (clients : List Client) : Pool Answer Empty ℤ (Net Says Packet) :=
  ⟨.start Says Packet, server.listener rounds :: clients.mapIdx fun i client => client.prog (i + 1)⟩

/-- What a thread may ask. -/
def asks (sure : Prop) (server : Server) (clients : List Client) : ℕ → SockRecord → SockReq → Prop
  | 0 => serverAsks sure server
  | i + 1 =>
    match clients[i]? with
    | some (.caller caller) => callerAsks sure caller
    | some (.stranger _) => fun _ _ => ¬sure
    | none => fun _ _ => False

/-- What a thread comes to. -/
def comes (sure : Prop) (server : Server) (rounds : ℕ) (clients : List Client) : ℕ → ℤ → SockRecord → Prop
  | 0 => fun _ g => Idle sure server g ∧ (sure → g.accepted.length = rounds)
  | i + 1 =>
    match clients[i]? with
    | some (.caller caller) => Called sure caller (i + 1)
    | some (.stranger _) => fun _ _ => ¬sure
    | none => fun _ _ => False

/-- The threads created for a connection. -/
def creations (others : List (Call Says)) (c : ℕ) : ℕ :=
  others.countP fun x => match x.request with
    | .create _ c' => c' = c
    | .enough _ => false

variable {sure : Prop} {server : Server} {clients : List Client} {g : SockRecord} {r : SockReq} {x : Answer r} {c : ℕ}

/-- What is always true of what the server has done. -/
structure Serving (sure : Prop) (server : Server) (g : SockRecord) : Prop where
  sent : ∀ c, (g.log c).sent = [] ∨ (g.log c).sent = [greeting server.hiserver] ∨ ∃ v, Admits server (g.log c) v
  created : ∀ kind c, Aside.create kind c ∈ g.others.map Call.request → Admits server (g.log c) kind.handshake
  once : ∀ c, creations g.others c ≤ 1
  closed : ∀ c, g.closed c = true → ∃ v, Admits server (g.log c) v

/-- What is always true of what a caller has done on its connection: it greets whom it lets in. -/
def Polite (caller : Caller) (l : Log Packet) : Prop :=
  l.sent = [] ∨ (l.sent = [greeting caller.hiclient] ∧
    ∃ m rest, l.received = m :: rest ∧ 0 ≤ checkHandshake (some m) caller.hiserver)

/-- What is always true of what thread `i + 1` has done. -/
structure Calling (sure : Prop) (clients : List Client) (i : ℕ) (g : SockRecord) : Prop where
  polite : ∀ caller, clients[i]? = some (.caller caller) → Polite caller (g.log (i + 1))
  stays : sure → g.closed (i + 1) = false
  present : g.connected = true → i < clients.length

theorem creations_append (others new : List (Call Says)) (c : ℕ) :
    creations (others ++ new) c = creations others c + creations new c := List.countP_append ..

theorem creations_eq_zero {others : List (Call Says)} (h : ∀ kind, Aside.create kind c ∉ others.map Call.request) :
    creations others c = 0 := by
  refine List.countP_eq_zero.2 fun x hx => ?_
  obtain ⟨request, answer⟩ := x
  cases request with
  | enough c' => simp
  | create kind c' =>
    have hne : c' ≠ c := by
      rintro rfl
      exact h kind (List.mem_map.2 ⟨_, hx, rfl⟩)
    simpa using hne

/-- A new log on a connection that the server has not let anyone in on. -/
theorem Serving.note {l : Log Packet} (h : Serving sure server g) (hopen : g.closed c = false)
    (hnot : ∀ v, ¬Admits server (g.log c) v)
    (hl : l.sent = [greeting server.hiserver] ∨ ∃ v, Admits server l v) : Serving sure server (g.note c l) := by
  constructor
  · intro c'
    by_cases hne : c' = c
    · subst hne
      rw [Record.note_log]
      exact Or.inr hl
    · rw [Record.note_log_of_ne _ _ hne]
      exact h.sent c'
  · intro kind c' hcreate
    have hbefore := h.created kind c' hcreate
    have hne : c' ≠ c := fun heq => hnot _ (heq ▸ hbefore)
    rwa [Record.note_log_of_ne _ _ hne]
  · exact h.once
  · intro c' hclosed
    have hne : c' ≠ c := fun heq => by
      rw [Record.note_closed, heq, hopen] at hclosed
      cases hclosed
    rw [Record.note_log_of_ne _ _ hne]
    exact h.closed c' hclosed

/-- **A step of the server.** -/
theorem serving_after (h : Serving sure server g) (hasks : serverAsks sure server g r) :
    Serving sure server (g.after r x) := by
  have hfew : ∀ {l : Log Packet} {v : ℤ}, l.sent.length ≤ 1 → ¬Admits server l v := by
    intro l v hl hadmits
    rw [hadmits.sent] at hl
    simp at hl
  cases r with
  | connect => exact hasks.elim
  | accept =>
    cases x with
    | none => exact h
    | some c => exact ⟨h.sent, h.created, h.once, h.closed⟩
  | send c b =>
    obtain ⟨-, hopen, hsay⟩ := hasks
    cases x with
    | false => exact h
    | true =>
      rcases hsay with ⟨hblank, rfl⟩ | ⟨⟨m, hlog, hm⟩, rfl⟩
      · refine h.note hopen (fun v => hfew ?_) (Or.inl ?_)
        · rw [hblank]
          exact Nat.zero_le 1
        · rw [hblank]
          rfl
      · refine h.note hopen (fun v => hfew ?_) (Or.inr ?_)
        · rw [hlog]
          exact le_refl 1
        · rw [hlog]
          exact ⟨_, rfl, ⟨m, rfl, rfl⟩, hm⟩
  | recv c =>
    obtain ⟨-, hopen, hlog⟩ := hasks
    cases x with
    | none => exact h
    | some m =>
      refine h.note hopen (fun v => hfew ?_) (Or.inl ?_)
      · rw [hlog]
        exact le_refl 1
      · rw [hlog]
        rfl
  | close c =>
    refine ⟨h.sent, h.created, h.once, fun c' hclosed => ?_⟩
    by_cases hne : c' = c
    · rw [hne]
      exact hasks
    · have hbefore : Function.update g.closed c true c' = true := hclosed
      rw [Function.update_of_ne hne] at hbefore
      exact h.closed c' hbefore
  | other r =>
    cases r with
    | enough c =>
      refine ⟨h.sent, fun kind c' hcreate => h.created kind c' ?_, fun c' => ?_, h.closed⟩
      · simpa [Record.after] using hcreate
      · show creations (g.others ++ [⟨.enough c, x⟩]) c' ≤ 1
        rw [creations_append]
        exact h.once c'
    | create kind c =>
      obtain ⟨hadmits, hnew⟩ := hasks
      refine ⟨h.sent, fun kind' c' hcreate => ?_, fun c' => ?_, h.closed⟩
      · have hcases : Aside.create kind' c' ∈ g.others.map Call.request ∨ Aside.create kind' c' = .create kind c := by
          simpa [Record.after] using hcreate
        rcases hcases with hold | heq
        · exact h.created kind' c' hold
        · cases heq
          exact hadmits
      · show creations (g.others ++ [⟨.create kind c, x⟩]) c' ≤ 1
        rw [creations_append]
        by_cases hne : c' = c
        · subst hne
          rw [creations_eq_zero hnew]
          simp [creations]
        · have hzero : creations [(⟨.create kind c, x⟩ : Call Says)] c' = 0 := by
            simpa [creations] using Ne.symm hne
          rw [hzero]
          exact h.once c'

/-- **A step of a client**, which does not shut its connection where that is excluded. -/
theorem calling_after {i : ℕ} (h : Calling sure clients i g) (hown : Own (i + 1) r)
    (hasks : asks sure server clients (i + 1) g r) (hstays : sure → r ≠ .close (i + 1)) :
    Calling sure clients i (g.after r x) := by
  have hi : i < clients.length := by
    by_contra hge
    have hnone : clients[i]? = none := List.getElem?_eq_none (by omega)
    simp only [asks, hnone] at hasks
  have hpolite : ∀ caller, clients[i]? = some (.caller caller) → Polite caller ((g.after r x).log (i + 1)) := by
    intro caller hcaller
    have hbefore := h.polite caller hcaller
    simp only [asks, hcaller] at hasks
    cases r with
    | connect => exact hbefore
    | accept => exact hasks.elim
    | other r => exact hasks.elim
    | close c => exact hbefore
    | send c b =>
      obtain ⟨rfl, m, hlog, hm⟩ := hasks
      have hc : c = i + 1 := hown.2.resolve_left (by omega)
      subst hc
      cases x with
      | false => exact hbefore
      | true =>
        show Polite caller ((g.note _ _).log (i + 1))
        rw [Record.note_log, hlog]
        exact Or.inr ⟨rfl, m, [], rfl, hm⟩
    | recv c =>
      have hc : c = i + 1 := hown.2.resolve_left (by omega)
      subst hc
      cases x with
      | none => exact hbefore
      | some b =>
        show Polite caller ((g.note _ _).log (i + 1))
        rw [Record.note_log]
        rcases hbefore with hnone | ⟨hsent, m, rest, hreceived, hm⟩
        · exact Or.inl hnone
        · refine Or.inr ⟨hsent, m, rest ++ [b], ?_, hm⟩
          show (g.log (i + 1)).received ++ [b] = _
          rw [hreceived]
          rfl
  refine ⟨hpolite, fun hsure => ?_, fun _ => hi⟩
  have hbefore := h.stays hsure
  cases r with
  | connect => exact hbefore
  | accept => cases x <;> exact hbefore
  | other r => exact hbefore
  | send c b => cases x <;> exact hbefore
  | recv c => cases x <;> exact hbefore
  | close c =>
    have hc : c = i + 1 := hown.2.resolve_left (by omega)
    subst hc
    exact absurd rfl (hstays hsure)

/-- What is always true. -/
def Met (sure : Prop) (server : Server) (clients : List Client) (g : ℕ → SockRecord) : Prop :=
  Serving sure server (g 0) ∧ ∀ i, Calling sure clients i (g (i + 1))

theorem met_start : Met sure server clients fun _ => Record.blank := by
  refine ⟨⟨fun _ => Or.inl rfl, fun _ _ h => absurd h List.not_mem_nil, fun _ => Nat.zero_le 1, fun _ h => by
    cases h⟩, ?_⟩
  exact fun i => ⟨fun _ _ => Or.inl rfl, fun _ => rfl, fun h => by cases h⟩

section Both

variable {s : Net Says Packet} {g : ℕ → SockRecord} {i : ℕ} {caller : Caller}

/-- What a client has heard first is the greeting of the server, and then a welcome. -/
theorem heard_of_tied (htied : Tied s g) (hmet : Met sure server clients g) {m : Packet} {rest : List Packet}
    (hreceived : ((g (i + 1)).log (i + 1)).received = m :: rest) :
    m = greeting server.hiserver ∧ (rest = [] ∨ (rest = [welcome] ∧ ∃ v, Admits server ((g 0).log (i + 1)) v)) := by
  have hdown := htied.down (i + 1) (by omega)
  rw [hreceived] at hdown
  rcases hmet.1.sent (i + 1) with hsent | hsent | ⟨v, hadmits⟩
  · rw [hsent] at hdown
    cases hdown
  · rw [hsent] at hdown
    obtain ⟨hm, hrest⟩ := List.cons.inj hdown
    exact ⟨hm.symm, Or.inl (List.append_eq_nil_iff.1 hrest.symm).1⟩
  · rw [hadmits.sent] at hdown
    obtain ⟨hm, hrest⟩ := List.cons.inj hdown
    refine ⟨hm.symm, ?_⟩
    cases rest with
    | nil => exact Or.inl rfl
    | cons w rest =>
      obtain ⟨hw, hmore⟩ := List.cons.inj hrest
      rw [(List.append_eq_nil_iff.1 hmore.symm).1, ← hw]
      exact Or.inr ⟨rfl, v, hadmits⟩

/-- A server lets in who is allowed and has greeted it. -/
theorem suits_of_admits (htied : Tied s g) (hmet : Met sure server clients g)
    (hcaller : clients[i]? = some (.caller caller))
    {v : ℤ} (hadmits : Admits server ((g 0).log (i + 1)) v) : v = caller.hiclient ∧ Suits server caller := by
  obtain ⟨m, hm, hv⟩ := hadmits.received
  have hup := htied.up (i + 1) (by omega)
  rw [hm] at hup
  rcases (hmet.2 i).polite caller hcaller with hsent | ⟨hsent, m', rest, hreceived, hm'⟩
  · rw [hsent] at hup
    cases hup
  · rw [hsent] at hup
    have hclient := (List.cons.inj hup).1
    obtain ⟨hserver, -⟩ := heard_of_tied htied hmet hreceived
    have hnonneg := hadmits.nonneg
    rw [← hv, ← hclient] at hnonneg
    rw [hserver] at hm'
    obtain ⟨hin, hcode⟩ := permitted_of_greeting caller.greets hnonneg
    obtain ⟨hout, -⟩ := permitted_of_greeting server.greets hm'
    refine ⟨?_, hout, hin⟩
    rw [← hv, ← hclient, hcode]

/-- A client that a server suits does not turn it away. -/
theorem not_spurns (htied : Tied s g) (hmet : Met sure server clients g) (hsuits : Suits server caller) :
    ¬Spurns caller ((g (i + 1)).log (i + 1)) := by
  rintro (⟨m, hreceived, hneg⟩ | ⟨m, w, hreceived, hneg⟩)
  · obtain ⟨hm, -⟩ := heard_of_tied htied hmet hreceived
    rw [hm, checkHandshake_greeting server.greets, if_pos hsuits.1] at hneg
    omega
  · obtain ⟨-, hrest⟩ := heard_of_tied htied hmet hreceived
    rcases hrest with hnil | ⟨hwelcome, -⟩
    · cases hnil
    · cases hwelcome
      rw [checkHandshake_welcome] at hneg
      exact absurd hneg (by decide)

/-- Those that can only be callers which the server suits. -/
abbrev AllSuit (server : Server) (clients : List Client) : Prop :=
  ∀ client ∈ clients, ∃ k, client = .caller k ∧ Suits server k

theorem asks_of_suit (h : AllSuit server clients) (hasks : asks sure server clients (i + 1) (g (i + 1)) r) :
    ∃ k, clients[i]? = some (.caller k) ∧ Suits server k ∧ callerAsks sure k (g (i + 1)) r := by
  cases hi : clients[i]? with
  | none => simp only [asks, hi] at hasks
  | some client =>
    obtain ⟨k, rfl, hk⟩ := h client (List.mem_of_getElem? hi)
    simp only [asks, hi] at hasks
    exact ⟨k, rfl, hk, hasks⟩

/-- **Where all suit and the calls work, none fails.** -/
theorem not_failing {t : ℕ} {s' : Net Says Packet} {l : Luck Says} (hsure : sure) (hsuits : AllSuit server clients)
    (htied : Tied s g) (hmet : Met sure server clients g) (hown : Own t r) (hasks : asks sure server clients t (g t) r)
    (hworks : l.works = true) (hs : serve t s r l = some (x, s')) : failing r x = false := by
  by_contra hne
  rcases serve_fails hs hworks (by simpa using hne) with ⟨rfl, hdialed⟩ | ⟨c, hshut, hcall⟩
  · cases t with
    | zero => exact hown rfl
    | succ i =>
      obtain ⟨k, -, -, hconnected⟩ := asks_of_suit hsuits hasks
      rw [htied.dialed (i + 1) (by omega), show (g (i + 1)).connected = false from hconnected] at hdialed
      cases hdialed
  · have hend : c ≠ 0 ∧ (t = 0 ∨ c = t) := by
      rcases hcall with ⟨b, rfl⟩ | ⟨rfl, -⟩
      · exact hown
      · exact hown
    obtain ⟨j, rfl⟩ : ∃ j, c = j + 1 := ⟨c - 1, by omega⟩
    have hclosed : (g 0).closed (j + 1) = true := by
      have hboth := htied.shut (j + 1) hend.1
      rwa [hshut, (hmet.2 j).stays hsure, Bool.or_false, eq_comm] at hboth
    obtain ⟨v, hadmits⟩ := hmet.1.closed _ hclosed
    rcases hend.2 with rfl | rfl
    · rcases hcall with ⟨b, rfl⟩ | ⟨rfl, -⟩
      · rw [show (g 0).closed (j + 1) = false from hasks.2.1] at hclosed
        cases hclosed
      · rw [show (g 0).closed (j + 1) = false from hasks.2.1] at hclosed
        cases hclosed
    · obtain ⟨k, -, -, hcaller⟩ := asks_of_suit hsuits hasks
      rcases hcall with ⟨b, rfl⟩ | ⟨rfl, hwaiting⟩
      · obtain ⟨-, m, hlog, -⟩ := hcaller
        obtain ⟨m', hm', -⟩ := hadmits.received
        have hup := htied.up (j + 1) hend.1
        rw [hlog, hm'] at hup
        cases hup
      · have hdown := htied.down (j + 1) hend.1
        have hnone : s.down (j + 1) = [] := by
          unfold Net.waiting at hwaiting
          rwa [if_neg (by omega)] at hwaiting
        rw [hnone, hadmits.sent] at hdown
        rcases hcaller.2 with hblank | ⟨m, hlog, -⟩
        · rw [hblank] at hdown
          cases hdown
        · rw [hlog] at hdown
          cases hdown

/-- **One request of anyone.** -/
theorem meeting_rule (hsuits : sure → AllSuit server clients) :
    Pool.Rule (fun t => spec sure t (asks sure server clients t))
      (fun s g => Tied s g ∧ Met sure server clients g) serve
      fun _ _ _ l => sure → l.works = true := by
  apply rule
  intro t s s' g r l x htied hmet hown hasks hworks hs
  refine ⟨fun hsure => not_failing hsure (hsuits hsure) htied hmet hown hasks (hworks hsure) hs, ?_⟩
  cases t with
  | zero =>
    refine ⟨?_, fun i => ?_⟩
    · rw [Function.update_self]
      exact serving_after hmet.1 hasks
    · rw [Function.update_of_ne (by omega)]
      exact hmet.2 i
  | succ j =>
    refine ⟨?_, fun i => ?_⟩
    · rw [Function.update_of_ne (by omega)]
      exact hmet.1
    · by_cases hij : i = j
      · subst hij
        rw [Function.update_self]
        refine calling_after (hmet.2 i) hown hasks fun hsure heq => ?_
        subst heq
        obtain ⟨k, -, hk, hspurns⟩ := asks_of_suit (hsuits hsure) hasks
        exact not_spurns htied hmet hk (hspurns hsure)
      · rw [Function.update_of_ne (by omega)]
        exact hmet.2 i

end Both

/-! ## Runs -/

variable {rounds : ℕ} {es : List (ℕ × Luck Says)} {P' : Pool Answer Empty ℤ (Net Says Packet)}

/-- The invariant of a meeting, with what each thread has done. -/
abbrev Holds (sure : Prop) (server : Server) (rounds : ℕ) (clients : List Client)
    (P : Pool Answer Empty ℤ (Net Says Packet)) (g : ℕ → SockRecord) : Prop :=
  P.Held (fun t => spec sure t (asks sure server clients t)) (comes sure server rounds clients) (fun _ _ _ => True)
    (fun s g => Tied s g ∧ Met sure server clients g) g

/-- **What holds in every interleaving.** -/
theorem meeting_run (hsuits : sure → AllSuit server clients)
    (hworks : ∀ e ∈ es, sure → e.2.works = true) (hr : run (Pool.step serve) (meeting server rounds clients)
      es = some P') :
    ∃ g, Holds sure server rounds clients P' g := by
  have hstart : ∃ g, Holds sure server rounds clients (meeting server rounds clients) g := by
    refine ⟨fun _ => Record.blank, ⟨tied_start, met_start⟩, fun t p hp => ?_⟩
    cases t with
    | zero =>
      cases hp
      refine (ok_listen idle_blank).imp fun _ g hg => ⟨hg.1, fun h => ?_⟩
      rw [hg.2 h]
      exact Nat.zero_add rounds
    | succ i =>
      have hmap : (clients.mapIdx fun i client => client.prog (i + 1))[i]? = some p := hp
      rw [List.getElem?_mapIdx, Option.map_eq_some_iff] at hmap
      obtain ⟨client, hclient, rfl⟩ := hmap
      show Prog.Ok (spec sure (i + 1) (asks sure server clients (i + 1)))
        (comes sure server rounds clients (i + 1)) _ _ _
      cases client with
      | caller k =>
        have hasks : asks sure server clients (i + 1) = callerAsks sure k := by simp only [asks, hclient]
        have hcomes : comes sure server rounds clients (i + 1) = Called sure k (i + 1) := by simp only [comes, hclient]
        rw [hasks, hcomes]
        exact ok_call (by omega) rfl rfl
      | stranger p =>
        have hasks : asks sure server clients (i + 1) = fun _ _ => ¬sure := by simp only [asks, hclient]
        have hcomes : comes sure server rounds clients (i + 1) = fun _ _ => ¬sure := by simp only [comes, hclient]
        have hunsure : ¬sure := by
          intro hsure
          obtain ⟨k, hk, -⟩ := hsuits hsure _ (List.mem_of_getElem? hclient)
          cases hk
        rw [hasks, hcomes]
        have hkeeps := (p.own (i + 1)).keeps (S := spec sure (i + 1) fun _ _ => ¬sure) (I := fun _ : SockRecord => True)
          (s := Record.blank) (fun _ _ hown _ => ⟨⟨hown, hunsure⟩, fun _ _ _ => trivial⟩) trivial
        exact Prog.ok_mono (fun _ _ _ => hunsure) (fun _ _ _ => trivial) hkeeps
  refine Pool.ok_run (meeting_rule hsuits) hstart ?_ hr
  refine (along_of_mem (P := fun e => sure → e.2.works = true) hworks).mono fun P x hx => ?_
  unfold Pool.Meets
  split
  · exact hx
  · trivial

/-- The listener waits for somebody else, or it has left its loop. -/
def Waits (P : Pool Answer Empty ℤ (Net Says Packet)) : Prop :=
  P.asked 0 = some .accept ∨ ∃ v, P.threads[0]? = some (.ret v)

theorem mem_creations {others : List (Call Says)} {kind : Kind} (h : Aside.create kind c ∈ others.map Call.request) :
    0 < creations others c := by
  obtain ⟨⟨request, answer⟩, hmem, heq⟩ := List.mem_map.1 h
  refine List.countP_pos_iff.2 ⟨_, hmem, ?_⟩
  cases heq
  simp

/-- A listener that waits is done with whom it has let in. -/
theorem attended_of_waits {g : ℕ → SockRecord} {v : ℤ} (hwaits : Waits P') (hg : Holds sure server rounds clients P' g)
    (hadmits : Admits server ((g 0).log c) v) : Attended (g 0).others c v := by
  have hidle : Idle sure server (g 0) := by
    rcases hwaits with haccept | ⟨w, hret⟩
    · obtain ⟨k, hk⟩ := Pool.at_of_asked haccept
      exact (hg.2 0 _ hk).1.2
    · exact (hg.2 0 _ hret).1
  have hmem : c ∈ (g 0).accepted := by
    by_contra hnot
    have hsent := hadmits.sent
    rw [((hidle c).2 hnot).log] at hsent
    cases hsent
  exact ((hidle c).1 hmem).attended v hadmits

/-- What thread `t` has returned. -/
def returns (P : Pool Answer Empty ℤ (Net Says Packet)) (t : ℕ) : Option ℤ :=
  match P.threads[t]? with
  | some (.ret v) => some v
  | _ => none

theorem threads_of_returns {t : ℕ} {v : ℤ} (h : returns P' t = some v) : P'.threads[t]? = some (.ret v) := by
  unfold returns at h
  split at h
  · rename_i hret
    cases h
    exact hret
  · cases h

/-- **Who is let in.** Whatever the clients do, in every interleaving and whichever calls fail: the listener starts at
most one thread for a connection, for a caller only of its own kind, and only where each lets the other in. A caller
whose call went well has reached whom it meant to reach, and the listener has seen to it before it waits again. -/
theorem admitted (hr : run (Pool.step serve) (meeting server rounds clients) es = some P') :
    (∀ kind c, Aside.create kind c ∈ P'.state.others.map Call.request → creations P'.state.others c = 1 ∧
      ∀ i caller, c = i + 1 → clients[i]? = some (.caller caller) →
        kind.handshake = caller.hiclient ∧ Suits server caller) ∧
    ∀ i caller (v : ℤ), clients[i]? = some (.caller caller) → P'.threads[i + 1]? = some (.ret v) → 0 ≤ v →
      v = server.hiserver ∧ Suits server caller ∧ (Waits P' → Attended P'.state.others (i + 1) caller.hiclient) := by
  have hnever : False → AllSuit server clients := fun h => h.elim
  obtain ⟨g, hg⟩ := meeting_run hnever (fun _ _ h => h.elim) hr
  have htied := hg.1.1
  have hmet := hg.1.2
  rw [htied.others]
  constructor
  · intro kind c hcreate
    have hadmits := hmet.1.created kind c hcreate
    have honce := hmet.1.once c
    have hsome := mem_creations hcreate
    refine ⟨by omega, ?_⟩
    rintro i caller rfl hcaller
    obtain ⟨hcode, hsuits⟩ := suits_of_admits htied hmet hcaller hadmits
    exact ⟨by exact_mod_cast hcode, hsuits⟩
  · intro i caller v hcaller hret hnonneg
    have hcalled : Called False caller (i + 1) v (g (i + 1)) := by
      have hcomes := hg.2 (i + 1) _ hret
      simpa only [Prog.ok_ret, comes, hcaller] using hcomes
    obtain ⟨m, w, hlog, hv⟩ := hcalled.went hnonneg
    have hheard : ((g (i + 1)).log (i + 1)).received = [m, w] := by rw [hlog]
    obtain ⟨hserver, hrest⟩ := heard_of_tied htied hmet hheard
    rcases hrest with hnil | ⟨-, v', hadmits⟩
    · cases hnil
    · obtain ⟨rfl, hsuits⟩ := suits_of_admits htied hmet hcaller hadmits
      rw [hserver] at hv
      rw [← hv] at hnonneg ⊢
      obtain ⟨-, hcode⟩ := permitted_of_greeting server.greets hnonneg
      exact ⟨hcode, hsuits, fun hwaits => attended_of_waits hwaits hg hadmits⟩

/-- MaRTA and a node connect to the FileSystem at once. -/
def arrivals : List (ℕ × Luck Says) :=
  [2, 1, 0, 0, 2, 2, 0, 0, 0, 2, 0, 0, 1, 1, 0, 0, 1, 0, 0].map fun t => (t, ⟨true, fun _ => true⟩)

theorem admitted_fileSystem : ∃ P',
    run (Pool.step serve) (meeting .fileSystem 2 [.caller connectFS, .caller fsConnect]) arrivals = some P' ∧
    creations P'.state.others 1 = 1 ∧ P'.threads[1]? = some (.ret HANDSHAKE_FILESYSTEM) ∧
    Attended P'.state.others 1 HANDSHAKE_MARTA := by
  obtain ⟨P', hP', hserver, hmarta, hcreated⟩ : ∃ P' ∈ run (Pool.step serve)
      (meeting .fileSystem 2 [.caller connectFS, .caller fsConnect]) arrivals, returns P' 0 = some 0 ∧
      returns P' 1 = some HANDSHAKE_FILESYSTEM ∧ Aside.create .marta 1 ∈ P'.state.others.map Call.request := by
    decide +kernel
  obtain ⟨hthreads, hcalls⟩ := admitted hP'
  have hleft : Waits P' := Or.inr ⟨0, threads_of_returns hserver⟩
  have hcall := hcalls 0 connectFS _ rfl (threads_of_returns hmarta) (by decide)
  exact ⟨P', hP', (hthreads .marta 1 hcreated).1, threads_of_returns hmarta, hcall.2.2 hleft⟩

/-! ## When nothing can go on -/

section Stuck

variable {callers : List Caller} {i : ℕ} {caller : Caller} {g : ℕ → SockRecord}

/-- No thread can make a step in which its call works. -/
def Stuck (P : Pool Answer Empty ℤ (Net Says Packet)) : Prop :=
  ∀ t (l : Luck Says), l.works = true → Pool.step serve P (t, l) = none

/-- All threads have returned. -/
theorem stuck_of_returned (h : ∀ p ∈ P'.threads, p.returned = true) : Stuck P' := by
  intro t l _
  unfold Pool.step
  cases ht : P'.threads[t]? with
  | none => rfl
  | some p =>
    obtain ⟨v, rfl⟩ := Prog.returned_iff.1 (h p (List.mem_of_getElem? ht))
    rfl

/-- Who cannot go on waits for somebody to connect, or to hear from the other side. -/
theorem Stuck.waits (hstuck : Stuck P') {t : ℕ} {k : Answer r → SockProg ℤ} (ht : P'.threads[t]? = some (.ask r k)) :
    (r = .accept ∧ P'.state.backlog = []) ∨ ∃ c, r = .recv c ∧ P'.state.waiting t c = [] := by
  have hnone := hstuck t ⟨true, fun _ => true⟩ rfl
  have hserve : serve t P'.state r ⟨true, fun _ => true⟩ = none := by
    unfold Pool.step at hnone
    simpa only [ht, Option.map_eq_none_iff] using hnone
  rcases serve_stuck hserve with haccept | ⟨c, hr, hwaiting, -⟩
  · exact Or.inl haccept
  · exact Or.inr ⟨c, hr, hwaiting⟩

/-- How far a caller has come that cannot go on: to its end, or to where the server has not answered. -/
def Rests (P : Pool Answer Empty ℤ (Net Says Packet)) (i : ℕ) (caller : Caller) (l : Log Packet) : Prop :=
  (∃ m w, P.threads[i + 1]? = some (.ret (checkHandshake (some m) caller.hiserver)) ∧
    l = ⟨[greeting caller.hiclient], [m, w]⟩) ∨
  (P.state.down (i + 1) = [] ∧ (l = .blank ∨ ∃ m, l = ⟨[greeting caller.hiclient], [m]⟩))

/-- **Where a caller rests.** -/
theorem rests_of_stuck (hstuck : Stuck P') (hg : Holds True server rounds (callers.map .caller) P' g)
    (hi : callers[i]? = some caller) (hsuits : Suits server caller) (hlen : i + 1 < P'.threads.length) :
    (g (i + 1)).connected = true ∧ Rests P' i caller ((g (i + 1)).log (i + 1)) := by
  obtain ⟨⟨htied, hmet⟩, hthreads⟩ := hg
  have hcaller : (callers.map Client.caller)[i]? = some (.caller caller) := by rw [List.getElem?_map, hi]; rfl
  have hp := List.getElem?_eq_getElem hlen
  have hok := hthreads (i + 1) _ hp
  cases hthread : P'.threads[i + 1] with
  | stop e => exact e.elim
  | ret v =>
    rw [hthread] at hok hp
    have hcalled : Called True caller (i + 1) v (g (i + 1)) := by
      simpa only [Prog.ok_ret, comes, hcaller] using hok
    have hnonneg : 0 ≤ v := by
      by_contra hneg
      exact not_spurns htied hmet hsuits (hcalled.spurned trivial (by omega))
    obtain ⟨m, w, hlog, hv⟩ := hcalled.went hnonneg
    exact ⟨hcalled.connected trivial, Or.inl ⟨m, w, by rw [hv]; exact hp, hlog⟩⟩
  | ask r k =>
    rw [hthread] at hok hp
    have hasks : callerAsks True caller (g (i + 1)) r := by
      have hpre := hok.1.2
      simpa only [asks, hcaller] using hpre
    rcases hstuck.waits hp with ⟨rfl, -⟩ | ⟨c, rfl, hwaiting⟩
    · exact hasks.elim
    · have hc : c = i + 1 := hok.1.1.2.resolve_left (by omega)
      subst hc
      have hdown : P'.state.down (i + 1) = [] := by
        unfold Net.waiting at hwaiting
        rwa [if_neg (by omega)] at hwaiting
      obtain ⟨hconnected, hlog⟩ := hasks
      refine ⟨hconnected, Or.inr ⟨hdown, ?_⟩⟩
      rcases hlog with hblank | ⟨m, hlog, -⟩
      · exact Or.inl hblank
      · exact Or.inr ⟨m, hlog⟩

/-- **The server rests between two rounds.** -/
theorem idle_of_stuck (hstuck : Stuck P') (hg : Holds True server rounds (callers.map .caller) P' g)
    (hlen : P'.threads.length = callers.length + 1)
    (hrests : ∀ i caller, callers[i]? = some caller →
      (g (i + 1)).connected = true ∧ Rests P' i caller ((g (i + 1)).log (i + 1))) :
    Idle True server (g 0) ∧ ((g 0).accepted.length = rounds ∨ P'.state.backlog = []) := by
  obtain ⟨⟨htied, hmet⟩, hthreads⟩ := hg
  have hp := List.getElem?_eq_getElem (show 0 < P'.threads.length by omega)
  have hok := hthreads 0 _ hp
  cases hthread : P'.threads[0] with
  | stop e => exact e.elim
  | ret v =>
    rw [hthread] at hok
    exact ⟨hok.1, Or.inl (hok.2 trivial)⟩
  | ask r k =>
    rw [hthread] at hok hp
    have hasks : serverAsks True server (g 0) r := hok.1.2
    rcases hstuck.waits hp with ⟨rfl, hbacklog⟩ | ⟨c, rfl, hwaiting⟩
    · exact ⟨hasks, Or.inr hbacklog⟩
    · obtain ⟨hmem, -, hlog⟩ := hasks
      have hup : P'.state.up c = [] := hwaiting
      have hknown := (htied.known c).1 (List.mem_append_left _ hmem)
      obtain ⟨j, rfl⟩ : ∃ j, c = j + 1 := ⟨c - 1, by omega⟩
      have hj : j < callers.length := by
        rw [htied.dialed _ hknown.1] at hknown
        simpa using (hmet.2 j).present hknown.2
      obtain ⟨-, hends | ⟨hdown, hwhere⟩⟩ := hrests j _ (List.getElem?_eq_getElem hj)
      · obtain ⟨m, w, -, hclient⟩ := hends
        have hheard : ((g (j + 1)).log (j + 1)).received = [m, w] := by rw [hclient]
        obtain ⟨-, hrest⟩ := heard_of_tied htied hmet hheard
        rcases hrest with hnil | ⟨-, v, hadmits⟩
        · cases hnil
        · have hsent := hadmits.sent
          rw [hlog] at hsent
          cases hsent
      · rcases hwhere with hblank | ⟨m, hclient⟩
        · have hsent := htied.down (j + 1) hknown.1
          rw [hblank, hdown, hlog] at hsent
          cases hsent
        · have hsent := htied.up (j + 1) hknown.1
          rw [hclient, hup, hlog] at hsent
          cases hsent

/-- **All clients are accepted** once the server rests. -/
theorem accepted_of_stuck (htied : Tied P'.state g) (hmet : Met True server (callers.map .caller) g)
    (hrounds : callers.length ≤ rounds) (hrest : (g 0).accepted.length = rounds ∨ P'.state.backlog = [])
    (hconnected : ∀ i, i < callers.length → (g (i + 1)).connected = true) {i : ℕ} (hi : i < callers.length) :
    i + 1 ∈ (g 0).accepted := by
  rcases hrest with hall | hnone
  · have hsub : (g 0).accepted ⊆ (List.range callers.length).map (· + 1) := by
      intro c hc
      obtain ⟨hne, hdialed⟩ := (htied.known c).1 (List.mem_append_left _ hc)
      obtain ⟨j, rfl⟩ : ∃ j, c = j + 1 := ⟨c - 1, by omega⟩
      rw [htied.dialed _ hne] at hdialed
      have hj := (hmet.2 j).present hdialed
      rw [List.length_map] at hj
      exact List.mem_map.2 ⟨j, List.mem_range.2 hj, rfl⟩
    have hnodup := (List.nodup_append.1 htied.nodup).1
    have hlong : ((List.range callers.length).map (· + 1)).length ≤ (g 0).accepted.length := by
      rw [List.length_map, List.length_range, hall]
      exact hrounds
    have hperm := (hnodup.subperm hsub).perm_of_length_le hlong
    exact hperm.mem_iff.2 (List.mem_map.2 ⟨i, List.mem_range.2 hi, rfl⟩)
  · have hknown := (htied.known (i + 1)).2 ⟨by omega, by rw [htied.dialed _ (by omega)]; exact hconnected i hi⟩
    rwa [hnone, List.append_nil] at hknown

/-- **All are let in.** In every interleaving of a listener and callers that it suits, in which no call fails, where no
thread can go on each caller has reached the listener, and the listener has seen to it as what it is. -/
theorem all_admitted (hsuits : ∀ caller ∈ callers, Suits server caller) (hrounds : callers.length ≤ rounds)
    (hworks : ∀ e ∈ es, e.2.works = true)
    (hr : run (Pool.step serve) (meeting server rounds (callers.map .caller)) es = some P') (hstuck : Stuck P')
    (hi : callers[i]? = some caller) :
    P'.threads[i + 1]? = some (.ret server.hiserver) ∧ Attended P'.state.others (i + 1) caller.hiclient := by
  have hall : True → AllSuit server (callers.map Client.caller) := by
    intro _ client hmem
    obtain ⟨k, hk, rfl⟩ := List.mem_map.1 hmem
    exact ⟨k, rfl, hsuits k hk⟩
  obtain ⟨g, hg⟩ := meeting_run hall (fun e he _ => hworks e he) hr
  have htied := hg.1.1
  have hmet := hg.1.2
  have hlen : P'.threads.length = callers.length + 1 := by
    rw [Pool.length_run hr]
    simp [meeting]
  have hrests : ∀ i caller, callers[i]? = some caller →
      (g (i + 1)).connected = true ∧ Rests P' i caller ((g (i + 1)).log (i + 1)) := by
    intro i caller hi
    have hlt := (List.getElem?_eq_some_iff.1 hi).1
    exact rests_of_stuck hstuck hg hi (hsuits caller (List.mem_of_getElem? hi)) (by omega)
  obtain ⟨hidle, hdone⟩ := idle_of_stuck hstuck hg hlen hrests
  have hlt := (List.getElem?_eq_some_iff.1 hi).1
  have hmem := accepted_of_stuck htied hmet hrounds hdone (fun i h => (hrests i _ (List.getElem?_eq_getElem h)).1) hlt
  have hsettled := (hidle (i + 1)).1 hmem
  have hcaller : (callers.map Client.caller)[i]? = some (.caller caller) := by rw [List.getElem?_map, hi]; rfl
  have hown := hsuits caller (List.mem_of_getElem? hi)
  rcases hsettled.decided trivial with ⟨v, hadmits⟩ | ⟨m, hm, hneg⟩
  · obtain ⟨rfl, -⟩ := suits_of_admits htied hmet hcaller hadmits
    rw [htied.others]
    refine ⟨?_, hsettled.attended _ hadmits⟩
    obtain ⟨-, ⟨m, w, hret, hlog⟩ | ⟨hdown, hwhere⟩⟩ := hrests i caller hi
    · have hheard : ((g (i + 1)).log (i + 1)).received = [m, w] := by rw [hlog]
      obtain ⟨hm, -⟩ := heard_of_tied htied hmet hheard
      rw [hret, hm, checkHandshake_greeting server.greets, if_pos hown.1]
    · have hsent := htied.down (i + 1) (by omega)
      rw [hdown, hadmits.sent] at hsent
      rcases hwhere with hblank | ⟨m, hlog⟩
      · rw [hblank] at hsent
        cases hsent
      · rw [hlog] at hsent
        cases hsent
  · have hup := htied.up (i + 1) (by omega)
    rw [hm] at hup
    rcases (hmet.2 i).polite caller hcaller with hsent | ⟨hsent, -⟩
    · rw [hsent] at hup
      cases hup
    · rw [hsent] at hup
      rw [← (List.cons.inj hup).1, checkHandshake_greeting caller.greets, if_pos hown.2] at hneg
      omega

end Stuck

theorem all_admitted_fileSystem : ∃ P',
    run (Pool.step serve) (meeting .fileSystem 2 ([connectFS, fsConnect].map .caller)) arrivals = some P' ∧
    P'.threads[2]? = some (.ret HANDSHAKE_FILESYSTEM) ∧ Attended P'.state.others 2 HANDSHAKE_NODO := by
  obtain ⟨P', hP', hreturned⟩ : ∃ P' ∈ run (Pool.step serve)
    (meeting .fileSystem 2 ([connectFS, fsConnect].map .caller)) arrivals,
      ∀ p ∈ P'.threads, p.returned = true := by
    decide +kernel
  have hsuits : ∀ caller ∈ [connectFS, fsConnect], Suits .fileSystem caller := by
    rintro caller (_ | ⟨_, _ | ⟨_, ⟨⟩⟩⟩)
    · decide
    · decide
  have hworks : ∀ e ∈ arrivals, e.2.works = true := by decide
  exact ⟨P', hP', all_admitted (i := 1) hsuits (le_refl 2) hworks hP' (stuck_of_returned hreturned) rfl⟩

end Mdfs.Connections
