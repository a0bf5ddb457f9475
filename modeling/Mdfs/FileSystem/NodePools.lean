import Mdfs.Lib.Pool
import Mdfs.Utils.Commons

/-!
# The two pools of nodes

`connections_node.c` of the FileSystem: the dictionaries `activeNodesSockets` and
`standbyNodesSockets`, each behind a lock of its own. A node that connects is put on
standby; it is activated and deactivated by taking its connection out of one dictionary
and putting it into the other, in two critical sections.

`Alone` is the condition that a connection is accepted while no other connection of the
node is active or on its way between the dictionaries. Along it there is at most one
connection for a node, the last one accepted (`Single`).

* `single_rule`: every step along it keeps that.
* `one_pool`: so a node is in one pool at a time, in every interleaving.
* `two_pools`: without the condition a lost connection ends up active.
-/

namespace Mdfs.FileSystem.Connections

open Lib

/-! ## The dictionaries -/

/-- A dictionary from node ids to connections. More than one entry for a key is what a
`dictionary_put` that does not replace leaves behind. -/
abbrev Sockets := CStr → List ℕ

/-- `dictionary_put`, replacing an entry that is there or not. -/
def Sockets.put (d : Sockets) (replaces : Bool) (nodeId : CStr) (conn : ℕ) : Sockets :=
  Function.update d nodeId (if replaces then [conn] else d nodeId ++ [conn])

/-- `dictionary_remove`, without the connection it returns. -/
def Sockets.remove (d : Sockets) (nodeId : CStr) : Sockets := Function.update d nodeId (d nodeId).tail

structure NodePools where
  activeNodesSockets : Sockets
  standbyNodesSockets : Sockets
  /-- The connection last accepted for a node. -/
  accepted : CStr → Option ℕ
  /-- The connections taken out of one dictionary for the other, with the threads that
  have taken them. -/
  moving : List (ℕ × CStr × ℕ)

/-- The critical sections. -/
inductive PoolReq
  /-- The connection taken out of the active ones is kept, or it is freed. -/
  | removeActive (keep : Bool) (nodeId : CStr)
  | removeStandby (nodeId : CStr)
  | putActive (nodeId : CStr) (conn : ℕ)
  | putStandby (nodeId : CStr) (conn : ℕ)
  /-- An old connection is taken out, and the new one put. -/
  | acceptStandby (nodeId : CStr) (conn : ℕ)
  deriving DecidableEq

abbrev PoolResp : PoolReq → Type
  | .removeActive _ _ => Option ℕ
  | .removeStandby _ => Option ℕ
  | _ => Unit

/-- A connection taken out by thread `t`. -/
def NodePools.taken (s : NodePools) (t : ℕ) (nodeId : CStr) (conn : Option ℕ) : NodePools :=
  { s with moving := s.moving ++ conn.toList.map fun c => (t, nodeId, c) }

/-- A connection that thread `t` had taken out is put. -/
def NodePools.left (s : NodePools) (t : ℕ) (nodeId : CStr) (conn : ℕ) : NodePools :=
  { s with moving := s.moving.erase (t, nodeId, conn) }

/-- Thread `t`'s critical sections; the input says whether a `dictionary_put` replaces. -/
def servePools (t : ℕ) : Handler PoolResp NodePools Bool
  | s, .removeActive keep nodeId, _ =>
    let conn := (s.activeNodesSockets nodeId).head?
    let s := { s with activeNodesSockets := s.activeNodesSockets.remove nodeId }
    some (conn, if keep then s.taken t nodeId conn else s)
  | s, .removeStandby nodeId, _ =>
    let conn := (s.standbyNodesSockets nodeId).head?
    some (conn, { s with standbyNodesSockets := s.standbyNodesSockets.remove nodeId }.taken t nodeId conn)
  | s, .putActive nodeId conn, replaces =>
    some ((), { s with activeNodesSockets := s.activeNodesSockets.put replaces nodeId conn }.left t nodeId conn)
  | s, .putStandby nodeId conn, replaces =>
    some ((), { s with standbyNodesSockets := s.standbyNodesSockets.put replaces nodeId conn }.left t nodeId conn)
  | s, .acceptStandby nodeId conn, replaces =>
    some ((), { s with
      standbyNodesSockets := (s.standbyNodesSockets.remove nodeId).put replaces nodeId conn
      accepted := Function.update s.accepted nodeId (some conn) })

/-! ## `connections_node.c` -/

abbrev PoolProg := Prog PoolResp Empty

abbrev poolRequest (r : PoolReq) : PoolProg (PoolResp r) := .ask r .ret

/-- `connections_node_removeActiveNodeConnection`. -/
def connectionsNodeRemoveActiveNodeConnection (nodeId : CStr) : PoolProg Unit := do
  let _ ← poolRequest (.removeActive false nodeId)

/-- `connections_node_setAcceptedNodeConnection`. -/
def connectionsNodeSetAcceptedNodeConnection (nodeId : CStr) (conn : ℕ) : PoolProg Unit := do
  connectionsNodeRemoveActiveNodeConnection nodeId
  poolRequest (.acceptStandby nodeId conn)

/-- `connections_node_activateNode`. -/
def connectionsNodeActivateNode (nodeId : CStr) : PoolProg Bool := do
  match ← poolRequest (.removeStandby nodeId) with
  | some conn =>
    poolRequest (.putActive nodeId conn)
    pure true
  | none => pure false

/-- `connections_node_deactivateNode`. -/
def connectionsNodeDeactivateNode (nodeId : CStr) : PoolProg Bool := do
  match ← poolRequest (.removeActive true nodeId) with
  | some conn =>
    poolRequest (.putStandby nodeId conn)
    pure true
  | none => pure false

/-- A call on the pools. -/
inductive PoolCall
  | setAccepted (nodeId : CStr) (conn : ℕ)
  | activate (nodeId : CStr)
  | deactivate (nodeId : CStr)
  | removeActive (nodeId : CStr)

def PoolCall.prog : PoolCall → PoolProg Unit
  | .setAccepted nodeId conn => connectionsNodeSetAcceptedNodeConnection nodeId conn
  | .activate nodeId => do
    let _ ← connectionsNodeActivateNode nodeId
  | .deactivate nodeId => do
    let _ ← connectionsNodeDeactivateNode nodeId
  | .removeActive nodeId => connectionsNodeRemoveActiveNodeConnection nodeId

/-- The threads of the FileSystem, each with its calls, on the empty dictionaries of
`connections_node_initialize`. -/
def poolThreads (calls : List (List PoolCall)) : Pool PoolResp Empty Unit NodePools :=
  ⟨⟨fun _ => [], fun _ => [], fun _ => none, []⟩, calls.map (Prog.iterate PoolCall.prog)⟩

/-! ## One connection for a node -/

/-- **A node is in one pool at a time**, with the connection last accepted. -/
structure OnePool (s : NodePools) (nodeId : CStr) : Prop where
  one : s.activeNodesSockets nodeId = [] ∨ s.standbyNodesSockets nodeId = []
  active : ∀ conn ∈ s.activeNodesSockets nodeId, s.accepted nodeId = some conn
  standby : ∀ conn ∈ s.standbyNodesSockets nodeId, s.accepted nodeId = some conn

instance OnePool.decidable (s : NodePools) (nodeId : CStr) : Decidable (OnePool s nodeId) :=
  decidable_of_iff ((s.activeNodesSockets nodeId = [] ∨ s.standbyNodesSockets nodeId = []) ∧
      (∀ conn ∈ s.activeNodesSockets nodeId, s.accepted nodeId = some conn) ∧
      ∀ conn ∈ s.standbyNodesSockets nodeId, s.accepted nodeId = some conn)
    ⟨fun h => ⟨h.1, h.2.1, h.2.2⟩, fun h => ⟨h.one, h.active, h.standby⟩⟩

/-- A connection is accepted alone: no other one of the node is active, or between the pools. -/
def Alone (_ : ℕ) (s : NodePools) (r : PoolReq) (_ : Bool) : Prop :=
  match r with
  | .acceptStandby nodeId _ => s.activeNodesSockets nodeId = [] ∧ ∀ x ∈ s.moving, x.2.1 ≠ nodeId
  | _ => True

instance Alone.decidable (t : ℕ) (s : NodePools) (r : PoolReq) (i : Bool) : Decidable (Alone t s r i) :=
  match r with
  | .acceptStandby nodeId _ =>
    inferInstanceAs (Decidable (s.activeNodesSockets nodeId = [] ∧ ∀ x ∈ s.moving, x.2.1 ≠ nodeId))
  | .removeActive _ _ => .isTrue trivial
  | .removeStandby _ => .isTrue trivial
  | .putActive _ _ => .isTrue trivial
  | .putStandby _ _ => .isTrue trivial

/-- The connections of a node between the pools. -/
def NodePools.movingOf (s : NodePools) (nodeId : CStr) : List (ℕ × CStr × ℕ) := s.moving.filter fun x => x.2.1 = nodeId

/-- All connections of a node. -/
def NodePools.conns (s : NodePools) (nodeId : CStr) : List ℕ :=
  s.activeNodesSockets nodeId ++ s.standbyNodesSockets nodeId ++ (s.movingOf nodeId).map fun x => x.2.2

/-- What a thread has in hand between its two critical sections. -/
abbrev PoolHand := Option (CStr × ℕ)

inductive MayAskPool : PoolHand → PoolReq → Prop
  | removeActive {keep nodeId} : MayAskPool none (.removeActive keep nodeId)
  | removeStandby {nodeId} : MayAskPool none (.removeStandby nodeId)
  | acceptStandby {nodeId conn} : MayAskPool none (.acceptStandby nodeId conn)
  | putActive {nodeId conn} : MayAskPool (some (nodeId, conn)) (.putActive nodeId conn)
  | putStandby {nodeId conn} : MayAskPool (some (nodeId, conn)) (.putStandby nodeId conn)

/-- What a thread has in hand after a critical section. -/
def handAfter : (r : PoolReq) → PoolResp r → PoolHand
  | .removeActive true nodeId, conn => conn.map (Prod.mk nodeId)
  | .removeStandby nodeId, conn => conn.map (Prod.mk nodeId)
  | _, _ => none

/-- A thread puts what it has in hand. -/
def handSpec : Spec PoolResp PoolHand where
  pre := MayAskPool
  post _ r a q := q = handAfter r a

/-- **The invariant**: one connection for a node, the last one accepted. -/
structure Single (s : NodePools) (g : ℕ → PoolHand) : Prop where
  le_one : ∀ nodeId, (s.conns nodeId).length ≤ 1
  accepted : ∀ nodeId, ∀ conn ∈ s.conns nodeId, s.accepted nodeId = some conn
  moving : ∀ t x, g t = some x → (t, x) ∈ s.moving

variable {s : NodePools} {g : ℕ → PoolHand} {t : ℕ} {nodeId : CStr} {conn : ℕ}

/-! ## Each call -/

theorem prog_ok_hand {E : Empty → PoolHand → Prop} (call : PoolCall) :
    call.prog.Ok handSpec (fun _ p => p = none) E none := by
  cases call with
  | setAccepted nodeId conn =>
    refine ⟨.removeActive, fun old p hp => ?_⟩
    subst hp
    exact ⟨.acceptStandby, fun _ p hp => hp⟩
  | activate nodeId =>
    refine ⟨.removeStandby, fun old p hp => ?_⟩
    subst hp
    cases old with
    | none => rfl
    | some conn => exact ⟨.putActive, fun _ p hp => hp⟩
  | deactivate nodeId =>
    refine ⟨.removeActive, fun old p hp => ?_⟩
    subst hp
    cases old with
    | none => rfl
    | some conn => exact ⟨.putStandby, fun _ p hp => hp⟩
  | removeActive nodeId => exact ⟨.removeActive, fun _ p hp => hp⟩

/-! ## Each critical section -/

theorem movingOf_taken (keep : Option ℕ) (id : CStr) : (s.taken t nodeId keep).movingOf id =
    s.movingOf id ++ if nodeId = id then keep.toList.map (fun c => (t, nodeId, c)) else [] := by
  unfold NodePools.movingOf NodePools.taken
  rw [List.filter_append]
  cases keep with
  | none => simp
  | some c => by_cases hid : nodeId = id <;> simp [hid]

/-- A connection that is put somewhere else is not between the pools any more. -/
theorem movingOf_left (hone : s.movingOf nodeId = [(t, nodeId, conn)]) (id : CStr) :
    (s.left t nodeId conn).movingOf id = if nodeId = id then [] else s.movingOf id := by
  unfold NodePools.movingOf NodePools.left at *
  by_cases hid : nodeId = id
  · subst hid
    have hcomm : (s.moving.erase (t, nodeId, conn)).filter (fun x => x.2.1 = nodeId) =
        (s.moving.filter fun x => x.2.1 = nodeId).erase (t, nodeId, conn) := by
      rw [List.erase_filter]
    rw [if_pos rfl, hcomm, hone, List.erase_cons_head]
  · have hcomm : (s.moving.erase (t, nodeId, conn)).filter (fun x => x.2.1 = id) =
        (s.moving.filter fun x => x.2.1 = id).erase (t, nodeId, conn) := by
      rw [List.erase_filter]
    rw [if_neg hid, hcomm, List.erase_of_not_mem]
    simp [hid]

/-- **A critical section that adds no connection** to a node. -/
theorem Single.step (h : Single s g) {u : NodePools} {p : PoolHand}
    (hconns : ∀ id, List.Subperm (u.conns id) (s.conns id))
    (hacc : u.accepted = s.accepted) (hself : ∀ x, p = some x → (t, x) ∈ u.moving)
    (hother : ∀ t' x, t' ≠ t → (t', x) ∈ s.moving → (t', x) ∈ u.moving) : Single u (Function.update g t p) := by
  refine ⟨fun id => (hconns id).length_le.trans (h.le_one id), fun id c hc => ?_, ?_⟩
  · rw [hacc]
    exact h.accepted id c ((hconns id).subset hc)
  · exact (Function.forall_update_iff g (p := fun t p => ∀ x, p = some x → (t, x) ∈ u.moving)).2
      ⟨hself, fun t' hne x hx => hother t' x hne (h.moving t' x hx)⟩

theorem Sockets.remove_self (d : Sockets) : d.remove nodeId nodeId = (d nodeId).tail := Function.update_self ..

theorem Sockets.remove_of_ne (d : Sockets) {id : CStr} (hid : id ≠ nodeId) : d.remove nodeId id = d id :=
  Function.update_of_ne hid ..

theorem Sockets.put_of_ne (d : Sockets) {id : CStr} (hid : id ≠ nodeId) (replaces : Bool) :
    d.put replaces nodeId conn id = d id := Function.update_of_ne hid ..

/-- Where there is no entry, it does not matter whether `dictionary_put` replaces. -/
theorem Sockets.put_self {d : Sockets} (hd : d nodeId = []) (replaces : Bool) :
    d.put replaces nodeId conn nodeId = [conn] := by
  unfold Sockets.put
  rw [Function.update_self, hd]
  cases replaces <;> rfl

theorem conns_removeActive (id : CStr) :
    List.Subperm ({ s with activeNodesSockets := s.activeNodesSockets.remove nodeId }.conns id) (s.conns id) := by
  have hsub : (s.activeNodesSockets.remove nodeId id).Sublist (s.activeNodesSockets id) := by
    by_cases hid : id = nodeId
    · subst hid
      rw [Sockets.remove_self]
      exact List.tail_sublist _
    · rw [Sockets.remove_of_ne _ hid]
  exact ((hsub.append (List.Sublist.refl _)).append (List.Sublist.refl _)).subperm

/-- What is taken out of the active ones to be kept is between the pools. -/
theorem conns_takeActive (id : CStr) :
    List.Perm (({ s with activeNodesSockets := s.activeNodesSockets.remove nodeId }.taken t nodeId
      (s.activeNodesSockets nodeId).head?).conns id) (s.conns id) := by
  unfold NodePools.conns
  rw [movingOf_taken]
  by_cases hid : id = nodeId
  · subst hid
    simp only [NodePools.taken, Sockets.remove_self, NodePools.movingOf, if_true]
    cases s.activeNodesSockets id with
    | nil => simp
    | cons c rest =>
      have hlast := List.perm_append_singleton c (rest ++ s.standbyNodesSockets id ++
        (s.movingOf id).map fun x => x.2.2)
      simpa [NodePools.movingOf] using hlast
  · simp only [NodePools.taken, Sockets.remove_of_ne _ hid, NodePools.movingOf, if_neg (Ne.symm hid), List.append_nil]
    exact List.Perm.refl _

theorem conns_takeStandby (id : CStr) :
    List.Perm (({ s with standbyNodesSockets := s.standbyNodesSockets.remove nodeId }.taken t nodeId
      (s.standbyNodesSockets nodeId).head?).conns id) (s.conns id) := by
  unfold NodePools.conns
  rw [movingOf_taken]
  by_cases hid : id = nodeId
  · subst hid
    simp only [NodePools.taken, Sockets.remove_self, NodePools.movingOf, if_true]
    cases s.standbyNodesSockets id with
    | nil => simp
    | cons c rest =>
      have hlast := List.perm_append_singleton c (rest ++ (s.movingOf id).map fun x => x.2.2)
      simpa [NodePools.movingOf] using hlast.append_left (s.activeNodesSockets id)
  · simp only [NodePools.taken, Sockets.remove_of_ne _ hid, NodePools.movingOf, if_neg (Ne.symm hid), List.append_nil]
    exact List.Perm.refl _

/-- A connection on its way is the only one of its node. -/
theorem Single.only (h : Single s g) (ht : g t = some (nodeId, conn)) : s.activeNodesSockets nodeId = [] ∧
    s.standbyNodesSockets nodeId = [] ∧ s.movingOf nodeId = [(t, nodeId, conn)] := by
  have hmem : (t, nodeId, conn) ∈ s.movingOf nodeId := List.mem_filter.2 ⟨h.moving t _ ht, by simp⟩
  have hpos := List.length_pos_of_mem hmem
  have hlen := h.le_one nodeId
  simp only [NodePools.conns, List.length_append, List.length_map] at hlen
  refine ⟨List.length_eq_zero_iff.1 (by omega), List.length_eq_zero_iff.1 (by omega), ?_⟩
  obtain ⟨x, hx⟩ := List.length_eq_one_iff.1 (show (s.movingOf nodeId).length = 1 by omega)
  rw [hx, List.mem_singleton] at hmem
  rw [hx, hmem]

/-- **Putting the connection on its way**, into either dictionary. -/
theorem Single.put (h : Single s g) (ht : g t = some (nodeId, conn)) {active standby : Sockets}
    (hself : active nodeId ++ standby nodeId = [conn])
    (hother : ∀ id, id ≠ nodeId → active id = s.activeNodesSockets id ∧ standby id = s.standbyNodesSockets id) :
    Single ({ s with activeNodesSockets := active, standbyNodesSockets := standby }.left t nodeId conn)
      (Function.update g t none) := by
  obtain ⟨hactive, hstandby, hmoving⟩ := h.only ht
  have hleft : ∀ id, NodePools.movingOf ({ s with activeNodesSockets := active, standbyNodesSockets := standby }.left
      t nodeId conn) id = if nodeId = id then [] else s.movingOf id := movingOf_left hmoving
  refine h.step (fun id => ?_) rfl nofun fun t' x hne hx => ?_
  · unfold NodePools.conns
    rw [hleft]
    by_cases hid : id = nodeId
    · subst hid
      rw [hactive, hstandby, hmoving, if_pos rfl]
      simp only [NodePools.left, hself]
      exact List.Subperm.refl _
    · obtain ⟨ha, hs⟩ := hother id hid
      rw [if_neg (Ne.symm hid)]
      simp only [NodePools.left, ha, hs, NodePools.movingOf]
      exact List.Subperm.refl _
  · refine (List.mem_erase_of_ne fun heq => hne ?_).2 hx
    exact congrArg Prod.fst heq

/-- **Accepting a connection alone.** -/
theorem Single.accept (h : Single s g) (hg : g t = none) (hactive : s.activeNodesSockets nodeId = [])
    (hmoving : ∀ x ∈ s.moving, x.2.1 ≠ nodeId) (replaces : Bool) :
    Single { s with
      standbyNodesSockets := (s.standbyNodesSockets.remove nodeId).put replaces nodeId conn
      accepted := Function.update s.accepted nodeId (some conn) } (Function.update g t none) := by
  have hnone : s.movingOf nodeId = [] := by
    refine List.filter_eq_nil_iff.2 fun x hx => ?_
    simpa using hmoving x hx
  -- a connection that was on standby is removed first
  have hstandby : s.standbyNodesSockets.remove nodeId nodeId = [] := by
    have hlen := h.le_one nodeId
    simp only [NodePools.conns, List.length_append, List.length_map] at hlen
    rw [Sockets.remove_self]
    refine List.length_eq_zero_iff.1 ?_
    rw [List.length_tail]
    omega
  have hself : NodePools.conns { s with
      standbyNodesSockets := (s.standbyNodesSockets.remove nodeId).put replaces nodeId conn
      accepted := Function.update s.accepted nodeId (some conn) } nodeId = [conn] := by
    have hput : (s.standbyNodesSockets.remove nodeId).put replaces nodeId conn nodeId = [conn] :=
      Sockets.put_self hstandby replaces
    simp only [NodePools.movingOf] at hnone
    simp only [NodePools.conns, NodePools.movingOf, hactive, hput, hnone]
    rfl
  have hother : ∀ id, id ≠ nodeId → NodePools.conns { s with
      standbyNodesSockets := (s.standbyNodesSockets.remove nodeId).put replaces nodeId conn
      accepted := Function.update s.accepted nodeId (some conn) } id = s.conns id := by
    intro id hid
    simp only [NodePools.conns, NodePools.movingOf, Sockets.put_of_ne _ hid, Sockets.remove_of_ne _ hid]
  have hg' : Function.update g t none = g := by rw [← hg, Function.update_eq_self]
  rw [hg']
  refine ⟨fun id => ?_, fun id c hc => ?_, h.moving⟩
  · by_cases hid : id = nodeId
    · rw [hid, hself]
      exact le_refl 1
    · rw [hother id hid]
      exact h.le_one id
  · by_cases hid : id = nodeId
    · subst hid
      rw [hself] at hc
      rw [List.mem_singleton.1 hc]
      exact Function.update_self ..
    · rw [hother id hid] at hc
      exact (Function.update_of_ne hid ..).trans (h.accepted id c hc)

/-- **The one obligation**: every step along `Alone` keeps the invariant. -/
theorem single_rule : Pool.Rule (fun _ => handSpec) Single servePools Alone := by
  intro t s g r i a u h hask hC hs
  refine ⟨_, rfl, ?_⟩
  have hask' : MayAskPool (g t) r := hask
  generalize hp : g t = p at hask'
  cases hask' with
  | @removeActive keep nodeId =>
    cases hs
    cases keep with
    | false => exact h.step conns_removeActive rfl nofun fun _ _ _ hx => hx
    | true =>
      refine h.step (fun id => (conns_takeActive id).subperm) rfl (fun x hx => ?_) fun _ _ _ hx =>
        List.mem_append_left _ hx
      obtain ⟨c, hc, rfl⟩ := Option.map_eq_some_iff.1 hx
      rw [NodePools.taken, hc]
      exact List.mem_append_right _ (List.mem_singleton_self _)
  | @removeStandby nodeId =>
    cases hs
    refine h.step (fun id => (conns_takeStandby id).subperm) rfl (fun x hx => ?_) fun _ _ _ hx =>
      List.mem_append_left _ hx
    obtain ⟨c, hc, rfl⟩ := Option.map_eq_some_iff.1 hx
    rw [NodePools.taken, hc]
    exact List.mem_append_right _ (List.mem_singleton_self _)
  -- here the node must have no connection but one on standby
  | @acceptStandby nodeId conn =>
    cases hs
    exact h.accept hp hC.1 hC.2 i
  | @putActive nodeId conn =>
    cases hs
    obtain ⟨hactive, hstandby, -⟩ := h.only hp
    refine h.put hp ?_ fun id hid => ⟨Sockets.put_of_ne _ hid i, rfl⟩
    rw [Sockets.put_self hactive, hstandby]
    rfl
  | @putStandby nodeId conn =>
    cases hs
    obtain ⟨hactive, hstandby, -⟩ := h.only hp
    refine h.put hp ?_ fun id hid => ⟨rfl, Sockets.put_of_ne _ hid i⟩
    rw [Sockets.put_self hstandby, hactive]
    rfl

/-- One connection of a node is in one pool. -/
theorem Single.onePool (h : Single s g) (nodeId : CStr) : OnePool s nodeId := by
  have hlen := h.le_one nodeId
  have hacc := h.accepted nodeId
  unfold NodePools.conns at hlen hacc
  simp only [List.length_append] at hlen
  refine ⟨?_, fun c hc => hacc c (by simp [hc]), fun c hc => hacc c (by simp [hc])⟩
  by_cases hactive : (s.activeNodesSockets nodeId).length = 0
  · exact Or.inl (List.length_eq_zero_iff.1 hactive)
  · exact Or.inr (List.length_eq_zero_iff.1 (by omega))

/-- **A node is in one pool at a time**, with the connection last accepted, in every
interleaving of any calls of any number of threads, when each connection is accepted
while no other one of the node is active or between the pools. -/
theorem one_pool (calls : List (List PoolCall)) (es : List (ℕ × Bool)) (P : Pool PoolResp Empty Unit NodePools)
    (hC : Along (Pool.step servePools) (fun P x => P.Meets Alone x) (poolThreads calls) es)
    (hrun : run (Pool.step servePools) (poolThreads calls) es = some P) (nodeId : CStr) : OnePool P.state nodeId := by
  have hstart : (poolThreads calls).Ok (fun _ => handSpec) (fun _ _ p => p = none) (fun _ _ _ => True) Single := by
    refine ⟨fun _ => none, ⟨fun id => Nat.zero_le 1, nofun, nofun⟩, fun t p hp => ?_⟩
    obtain ⟨cs, -, rfl⟩ := List.mem_map.1 (List.mem_of_getElem? hp)
    exact Prog.ok_iterate (K := fun _ p => p = none) cs (fun done c rest p _ hp => hp ▸ prog_ok_hand c) rfl
  obtain ⟨g, hg, -⟩ := Pool.ok_run single_rule hstart hC hrun
  exact hg.onePool nodeId

/-- A node connects, is activated, is deactivated while another one connects, and connects again. -/
theorem one_pool_reconnect :
    ∃ P, run (Pool.step servePools)
        (poolThreads [[.setAccepted (cstr "a") 1, .setAccepted (cstr "a") 2],
          [.activate (cstr "a"), .deactivate (cstr "a")],
          [.setAccepted (cstr "b") 3]])
        [(0, true), (0, true), (1, true), (1, true), (2, true), (1, true), (2, true), (1, true), (0, true), (0, true)] =
          some P ∧
      P.state.standbyNodesSockets (cstr "a") = [2] ∧ P.state.standbyNodesSockets (cstr "b") = [3] ∧
      OnePool P.state (cstr "a") := by
  obtain ⟨P, hP, ha, hb, hC⟩ : ∃ P ∈ run (Pool.step servePools)
      (poolThreads [[.setAccepted (cstr "a") 1, .setAccepted (cstr "a") 2],
        [.activate (cstr "a"), .deactivate (cstr "a")],
        [.setAccepted (cstr "b") 3]])
      [(0, true), (0, true), (1, true), (1, true), (2, true), (1, true), (2, true), (1, true), (0, true), (0, true)],
      P.state.standbyNodesSockets (cstr "a") = [2] ∧ P.state.standbyNodesSockets (cstr "b") = [3] ∧
        Along (Pool.step servePools) (fun P x => P.Meets Alone x)
          (poolThreads [[.setAccepted (cstr "a") 1, .setAccepted (cstr "a") 2],
            [.activate (cstr "a"), .deactivate (cstr "a")], [.setAccepted (cstr "b") 3]])
          [(0, true), (0, true), (1, true), (1, true), (2, true), (1, true), (2, true), (1, true), (0, true),
            (0, true)] := by
    decide +kernel
  exact ⟨P, hP, ha, hb, one_pool _ _ _ hC hP _⟩

/-- **A lost connection becomes active.** The node reconnects between the two halves of
its activation: no call is in progress any more, its old connection is active and its
new one on standby. -/
theorem two_pools :
    ∃ P, run (Pool.step servePools)
        (poolThreads [[.setAccepted (cstr "a") 1], [.activate (cstr "a")], [.setAccepted (cstr "a") 2]])
        [(0, true), (0, true), (1, true), (2, true), (2, true), (1, true)] = some P ∧
      (∀ p ∈ P.threads, p.returned = true) ∧ P.state.activeNodesSockets (cstr "a") = [1] ∧
      P.state.standbyNodesSockets (cstr "a") = [2] ∧ ¬OnePool P.state (cstr "a") := by
  decide +kernel

end Mdfs.FileSystem.Connections
