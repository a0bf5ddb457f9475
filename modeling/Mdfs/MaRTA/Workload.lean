import Mathlib.Algebra.Order.Group.Multiset
import Mdfs.MaRTA.Coverage

/-!
# The work load of the nodes

A node's `maps` and `reduces` are to be the orders that the jobs have sent to it and that
are not answered. They are so while every change of a node goes with the order it is for
(`Fair`). Six things in the source break this: `rePlanMap` sends an order without putting
the block on the node; `planMaps` takes maps off their nodes although their orders are
out, when it skips a block; `freeJob` takes a block off a node by its number alone, which
may be that of another job; `freeJob` leaves the reduces of a job that dies; `reduces` and
the ids of maps have 16 bits.

The records of the jobs add up to the nodes (`Booked`), and each record is squared with
the orders of its job (`Squared`).

* `booked_rule`: every fair step keeps both.
* `workload_accounts`: in every state, the load of a node is the orders out on it.
* `workload_drifts`: a map that is planned again is not on its node.
-/

namespace Mdfs.MaRTA

open Lib

/-! ## The orders that are out -/

/-- Where an order of a map runs. -/
def Order.mapSpot : Order → Option (CStr × UInt16)
  | .map m => some m.spot
  | .reduce _ => none

/-- Where an order of a reduce runs. -/
def Order.reduceNode : Order → Option CStr
  | .map _ => none
  | .reduce r => some r.finalNode

/-- The block of the order that is about to be sent, or that was just answered. -/
def Hand.spots : Hand → List (CStr × UInt16)
  | .announced _ nodeName numBlock => [(nodeName, numBlock)]
  | .answered o => o.mapSpot.toList
  | _ => []

/-- The node of the reduce that is about to be ordered, or that was just answered. -/
def Hand.reduceNodes : Hand → List CStr
  | .counted finalNode => [finalNode]
  | .answered o => o.reduceNode.toList
  | _ => []

@[simp] theorem Hand.spots_free : Hand.free.spots = [] := rfl
@[simp] theorem Hand.reduceNodes_free : Hand.free.reduceNodes = [] := rfl

/-- **The map orders of a job that are out**, by node and block. For a job between its
steps these are the orders without an answer; an order is out until it is off its node.
A job that is dying has those that `freeJob` has not come to, and then none. -/
def Talk.mapsOut (l : Talk) : List (CStr × UInt16) :=
  if l.alive = false then [] else if l.hand = .dying then l.bookedMaps
  else l.pending.filterMap Order.mapSpot ++ l.hand.spots

/-- **The reduce orders of a job that are out**, by node. -/
def Talk.reducesOut (l : Talk) : List CStr :=
  if l.alive = false then [] else if l.hand = .dying then l.bookedReduces
  else l.pending.filterMap Order.reduceNode ++ l.hand.reduceNodes

/-- What is booked for orders of one kind: those without an answer, and what is in hand. -/
def Settles {α : Type} (f : Order → Option α) (booked : List α) (pending : List Order) (inHand : List α) : Prop :=
  booked.Perm (pending.filterMap f ++ inHand)

/-- **The record of a job is squared with its orders.** -/
structure Squared (l : Talk) : Prop where
  maps : l.hand ≠ .dying → Settles Order.mapSpot l.bookedMaps l.pending l.hand.spots
  reduces : l.hand ≠ .dying → Settles Order.reduceNode l.bookedReduces l.pending l.hand.reduceNodes
  ended : l.alive = false → l.hand = .dying ∧ l.bookedMaps = [] ∧ l.bookedReduces = []

section Settles

variable {α : Type} {f : Order → Option α} {booked inHand : List α} {pending : List Order} {o : Order}

/-- An order is announced. -/
theorem Settles.announce (h : Settles f booked pending []) (a : α) : Settles f (booked ++ [a]) pending [a] := by
  unfold Settles at *
  rw [List.append_nil] at h
  exact h.append_right [a]

/-- An order is sent. -/
theorem Settles.send (h : Settles f booked pending (f o).toList) : Settles f booked (pending ++ [o]) [] := by
  have hone : [o].filterMap f = (f o).toList := by
    cases hf : f o with
    | none => exact List.filterMap_cons_none hf
    | some a => exact List.filterMap_cons_some hf
  unfold Settles at *
  rw [List.filterMap_append, List.append_nil, hone]
  exact h

/-- An order is answered. -/
theorem Settles.answer (h : Settles f booked pending []) {i : ℕ} (ho : pending[i]? = some o) :
    Settles f booked (pending.eraseIdx i) (f o).toList := by
  obtain ⟨hi, rfl⟩ := List.getElem?_eq_some_iff.1 ho
  have hperm := (List.getElem_cons_eraseIdx_perm hi).symm.filterMap f
  unfold Settles at *
  rw [List.append_nil] at h
  refine (h.trans hperm).trans ?_
  cases hf : f pending[i] with
  | none =>
    rw [List.filterMap_cons_none hf, Option.toList_none, List.append_nil]
  | some a =>
    rw [List.filterMap_cons_some hf]
    exact (List.perm_append_singleton a _).symm

/-- What was answered is taken off. -/
theorem Settles.remove [BEq α] [LawfulBEq α] {a : α} (h : Settles f booked pending [a]) :
    Settles f (booked.erase a) pending [] := by
  have herase := (h.trans (List.perm_append_singleton a _)).erase a
  rw [List.erase_cons_head] at herase
  unfold Settles
  rw [List.append_nil]
  exact herase

theorem Settles.mem {a : α} (h : Settles f booked pending [a]) : a ∈ booked :=
  h.mem_iff.2 (List.mem_append_right _ List.mem_cons_self)

end Settles

variable {l l' : Talk}

theorem Squared.mapsOut (h : Squared l) : l.bookedMaps.Perm l.mapsOut := by
  unfold Talk.mapsOut
  split
  · rename_i halive
    rw [(h.ended halive).2.1]
  · split
    · exact List.Perm.refl _
    · rename_i hhand
      exact h.maps hhand

theorem Squared.reducesOut (h : Squared l) : l.bookedReduces.Perm l.reducesOut := by
  unfold Talk.reducesOut
  split
  · rename_i halive
    rw [(h.ended halive).2.2]
  · split
    · exact List.Perm.refl _
    · rename_i hhand
      exact h.reduces hhand

/-- A job that is not dying is alive. -/
theorem Squared.alive (h : Squared l) (hhand : l.hand ≠ .dying) : l.alive ≠ false := fun hdead =>
    hhand (h.ended hdead).1

/-- The record is about these fields only. -/
theorem Squared.of_same (h : Squared l) (hpending : l'.pending = l.pending) (hmaps : l'.bookedMaps = l.bookedMaps)
    (hreduces : l'.bookedReduces = l.bookedReduces) (hhand : l'.hand = l.hand) (halive : l'.alive = l.alive) :
      Squared l' where
  maps := by rw [hpending, hmaps, hhand]; exact h.maps
  reduces := by rw [hpending, hreduces, hhand]; exact h.reduces
  ended := by rw [halive, hhand, hmaps, hreduces]; exact h.ended

/-- A job that dies, with what it had on the nodes. -/
theorem squared_dying (hhand : l.hand = .dying) (hended : l.alive = false → l.bookedMaps = [] ∧ l.bookedReduces = []) :
    Squared l where
  maps := fun h => absurd hhand h
  reduces := fun h => absurd hhand h
  ended := fun halive => ⟨hhand, hended halive⟩

namespace Squared

theorem maps_free (h : Squared l) (hfree : l.hand = .free) : Settles Order.mapSpot l.bookedMaps l.pending [] := by
  have hmaps := h.maps (by simp [hfree])
  rw [hfree] at hmaps
  exact hmaps

theorem reduces_free (h : Squared l) (hfree : l.hand = .free) :
    Settles Order.reduceNode l.bookedReduces l.pending [] := by
  have hreduces := h.reduces (by simp [hfree])
  rw [hfree] at hreduces
  exact hreduces

theorem maps_answered (h : Squared l) {o : Order} (hhand : l.hand = .answered o) :
    Settles Order.mapSpot l.bookedMaps l.pending o.mapSpot.toList := by
  have hmaps := h.maps (by simp [hhand])
  rw [hhand] at hmaps
  exact hmaps

theorem reduces_answered (h : Squared l) {o : Order} (hhand : l.hand = .answered o) :
    Settles Order.reduceNode l.bookedReduces l.pending o.reduceNode.toList := by
  have hreduces := h.reduces (by simp [hhand])
  rw [hhand] at hreduces
  exact hreduces

/-- A block is put on a node. -/
theorem added (h : Squared l) (hfree : l.hand = .free) (n : ℕ) (name : CStr) (numBlock : UInt16) :
    Squared (l.added n name numBlock) where
  maps := fun _ => (h.maps_free hfree).announce (name, numBlock)
  reduces := fun _ => h.reduces_free hfree
  ended := fun halive => absurd halive (h.alive (by simp [hfree]))

/-- The order of a map that was put on a node is sent, or lost. -/
theorem mapSent (h : Squared l) {n : ℕ} {map : Map} (hhand : l.hand = .announced n map.nodeName map.numBlock)
    (through : Bool) :
    Squared (l.mapSent .plan map through) := by
  have hlive := h.alive (by simp [hhand])
  have hmaps := h.maps (by simp [hhand])
  have hreduces := h.reduces (by simp [hhand])
  rw [hhand] at hmaps hreduces
  cases through with
  | false => exact squared_dying rfl fun halive => absurd halive hlive
  | true => exact ⟨fun _ => Settles.send (o := .map map) hmaps, fun _ => Settles.send (o := .map map) hreduces,
      fun halive => absurd halive hlive⟩

/-- An order is answered. -/
theorem answered (h : Squared l) (hfree : l.hand = .free) {i : ℕ} {o : Order} (ho : l.pending[i]? = some o)
    (failed : Option CStr) : Squared (l.answered i o failed) where
  maps := fun _ => (h.maps_free hfree).answer ho
  reduces := fun _ => (h.reduces_free hfree).answer ho
  ended := fun halive => absurd halive (h.alive (by simp [hfree]))

/-- The map of an answer is taken off its node. -/
theorem removed (h : Squared l) {m : Map} (hhand : l.hand = .answered (.map m)) :
    Squared (l.removed .result m.nodeName m.numBlock) where
  maps := fun _ => (h.maps_answered hhand).remove
  reduces := fun _ => h.reduces_answered hhand
  ended := fun halive => absurd halive (h.alive (by simp [hhand]))

/-- A reduce is counted on a node. -/
theorem reduceAdded (h : Squared l) (hfree : l.hand = .free) (finalNode : CStr) :
    Squared (l.reduceAdded finalNode finalNode) where
  maps := fun _ => h.maps_free hfree
  reduces := fun _ => (h.reduces_free hfree).announce finalNode
  ended := fun halive => absurd halive (h.alive (by simp [hfree]))

/-- The order of a reduce is sent, or lost. -/
theorem reduceSent (h : Squared l) {reduce : Reduce} (hhand : l.hand = .counted reduce.finalNode) (through : Bool) :
    Squared (l.reduceSent reduce through) := by
  have hlive := h.alive (by simp [hhand])
  have hmaps := h.maps (by simp [hhand])
  have hreduces := h.reduces (by simp [hhand])
  rw [hhand] at hmaps hreduces
  cases through with
  | false => exact squared_dying rfl fun halive => absurd halive hlive
  | true => exact ⟨fun _ => Settles.send (o := .reduce reduce) hmaps,
      fun _ => Settles.send (o := .reduce reduce) hreduces,
      fun halive => absurd halive hlive⟩

/-- The reduce of an answer is taken off its node. -/
theorem reduceRemoved (h : Squared l) {r : Reduce} (hhand : l.hand = .answered (.reduce r)) :
    Squared (l.reduceRemoved r.finalNode) where
  maps := fun _ => h.maps_answered hhand
  reduces := fun _ => (h.reduces_answered hhand).remove
  ended := fun halive => absurd halive (h.alive (by simp [hhand]))

end Squared

/-! ## The records add up to the nodes -/

/-- The blocks of a list of bookings that are on a node. -/
def blocksOn (spots : List (CStr × UInt16)) (name : CStr) : Multiset UInt16 :=
  ((spots.filter fun x => x.1 = name).map Prod.snd : List UInt16)

theorem blocksOn_perm {spots spots' : List (CStr × UInt16)} (h : spots.Perm spots') (name : CStr) :
    blocksOn spots name = blocksOn spots' name := Multiset.coe_eq_coe.2 ((h.filter _).map _)

theorem blocksOn_cons_self (spots : List (CStr × UInt16)) (name : CStr) (b : UInt16) :
    blocksOn ((name, b) :: spots) name = b ::ₘ blocksOn spots name := by
  unfold blocksOn
  rw [List.filter_cons_of_pos (by simp)]
  rfl

theorem blocksOn_cons_of_ne (spots : List (CStr × UInt16)) {name name' : CStr} (h : name ≠ name') (b : UInt16) :
    blocksOn ((name, b) :: spots) name' = blocksOn spots name' := by
  unfold blocksOn
  rw [List.filter_cons_of_neg (by simp [h])]

/-- As many blocks on a node as bookings of it. -/
theorem card_blocksOn (spots : List (CStr × UInt16)) (name : CStr) :
    (blocksOn spots name).card = spots.countP fun x => x.1 = name := by
  unfold blocksOn
  rw [Multiset.coe_card, List.length_map, List.countP_eq_length_filter]

/-- There is a node of this name. -/
def Registered (nodes : List Node) (name : CStr) : Prop := ∃ (n : ℕ) (node : Node), nodes[n]? = some node ∧
    node.name = name

/-- **The load of a node** is what the first `k` jobs have booked on it. -/
structure Loaded (k : ℕ) (g : ℕ → Talk) (node : Node) : Prop where
  maps : (node.maps : Multiset UInt16) = total k (fun l => blocksOn l.bookedMaps node.name) g
  reduces : node.reduces.toNat = total k (fun l => l.bookedReduces.count node.name) g

/-- **The records of `k` jobs add up to the nodes.** -/
structure Booked (k : ℕ) (w : World) (g : ℕ → Talk) : Prop where
  tied : Tied w g
  small : ∀ t, (g t).blocks.length < 2 ^ 16
  replanned : ∀ t, (g t).replanned = false
  dropped : ∀ t, (g t).dropped = false
  squared : ∀ t, Squared (g t)
  maps : ∀ t, ∀ x ∈ (g t).bookedMaps, Registered w.nodes x.1
  reduces : ∀ t, ∀ name ∈ (g t).bookedReduces, Registered w.nodes name
  load : ∀ (n : ℕ) (node : Node), w.nodes[n]? = some node → Loaded k g node

variable {k t n : ℕ} {w u : World} {g : ℕ → Talk} {nodes nodes' : List Node} {node : Node} {name : CStr}

theorem Registered.steady (h : Registered nodes name) (hnodes : Steady nodes nodes') : Registered nodes' name := by
  obtain ⟨n, node, hn, hname⟩ := h
  obtain ⟨node', hn', hname'⟩ := hnodes n node hn
  exact ⟨n, node', hn', hname'.trans hname⟩

/-- Nobody has booked a node that is not there. -/
theorem Booked.total_eq_zero (h : Booked k w g) (hname : ¬Registered w.nodes name) :
    total k (fun l => blocksOn l.bookedMaps name) g = 0 ∧ total k (fun l => l.bookedReduces.count name) g = 0 := by
  constructor
  · refine Finset.sum_eq_zero fun t _ => ?_
    have hnone : (g t).bookedMaps.filter (fun x => x.1 = name) = [] := by
      refine List.filter_eq_nil_iff.2 fun x hx hnot => hname ?_
      obtain rfl : x.1 = name := of_decide_eq_true hnot
      exact h.maps t x hx
    change blocksOn (g t).bookedMaps name = 0
    unfold blocksOn
    rw [hnone]
    rfl
  · refine Finset.sum_eq_zero fun t _ => ?_
    refine List.count_eq_zero.2 fun hmem => hname ?_
    exact h.reduces t name hmem

/-- **One job's record changes**, and the nodes are loaded as it says. -/
theorem Booked.step (h : Booked k w g) (htied : Tied u (Function.update g t l)) (hnodes : Steady w.nodes u.nodes)
    (hsmall : l.blocks.length < 2 ^ 16) (hreplanned : l.replanned = false) (hdropped : l.dropped = false)
    (hsquared : Squared l) (hmaps : ∀ x ∈ l.bookedMaps, x ∈ (g t).bookedMaps ∨ Registered u.nodes x.1)
    (hreduces : ∀ name ∈ l.bookedReduces, name ∈ (g t).bookedReduces ∨ Registered u.nodes name)
    (hload : ∀ (n : ℕ) (node : Node), u.nodes[n]? = some node → Loaded k (Function.update g t l) node) :
    Booked k u (Function.update g t l) := by
  have hall : ∀ I : Talk → Prop, (∀ t, I (g t)) → I l → ∀ t', I (Function.update g t l t') := by
    intro I hold hl t'
    by_cases ht : t' = t
    · rw [ht, Function.update_self]
      exact hl
    · rw [Function.update_of_ne ht]
      exact hold t'
  refine ⟨htied, hall (fun l => l.blocks.length < 2 ^ 16) h.small hsmall, hall (fun l => l.replanned = false)
    h.replanned hreplanned,
    hall (fun l => l.dropped = false) h.dropped hdropped, hall Squared h.squared hsquared, ?_, ?_, hload⟩
  · refine hall (fun l => ∀ x ∈ l.bookedMaps, Registered u.nodes x.1) (fun t' x hx => (h.maps t' x hx).steady hnodes) ?_
    intro x hx
    rcases hmaps x hx with hx | hx
    · exact (h.maps t x hx).steady hnodes
    · exact hx
  · refine hall (fun l => ∀ name ∈ l.bookedReduces, Registered u.nodes name)
      (fun t' x hx => (h.reduces t' x hx).steady hnodes) ?_
    intro x hx
    rcases hreduces x hx with hx | hx
    · exact (h.reduces t x hx).steady hnodes
    · exact hx

/-- **No node is loaded otherwise**, and the job has booked what it had. -/
theorem Booked.load_same (h : Booked k w g) (ht : t < k) (hmaps : l.bookedMaps = (g t).bookedMaps)
    (hreduces : l.bookedReduces = (g t).bookedReduces)
    (hnodes : ∀ (n : ℕ) (node' : Node), nodes[n]? = some node' →
      (∃ node, w.nodes[n]? = some node ∧ node'.name = node.name ∧ node'.maps = node.maps ∧ node'.reduces =
        node.reduces) ∨
      ¬Registered w.nodes node'.name ∧ node'.maps = [] ∧ node'.reduces = 0) :
    ∀ (n : ℕ) (node : Node), nodes[n]? = some node → Loaded k (Function.update g t l) node := by
  intro n node' hn
  have hsame : total k (fun l => blocksOn l.bookedMaps node'.name) (Function.update g t l) =
      total k (fun l => blocksOn l.bookedMaps node'.name) g := total_congr _ g ht (by rw [hmaps])
  have hsame' : total k (fun l => l.bookedReduces.count node'.name) (Function.update g t l) =
      total k (fun l => l.bookedReduces.count node'.name) g := total_congr _ g ht (by rw [hreduces])
  rcases hnodes n node' hn with ⟨node, hnode, hname, hm, hr⟩ | ⟨hnew, hm, hr⟩
  · have hload := h.load n node hnode
    refine ⟨?_, ?_⟩
    · rw [hsame, hm, hname]
      exact hload.maps
    · rw [hsame', hr, hname]
      exact hload.reduces
  · obtain ⟨hzero, hzero'⟩ := h.total_eq_zero hnew
    refine ⟨?_, ?_⟩
    · rw [hsame, hm, hzero]
      rfl
    · rw [hsame', hr, hzero']
      rfl

/-- **One node is loaded otherwise**, by as much as the job has booked on it. -/
theorem Booked.load_modify (h : Booked k w g) (ht : t < k) {f : Node → Node} (hn : w.nodes[n]? = some node)
    (hname : (f node).name = node.name)
    (hmaps : ∀ rest : Multiset UInt16, (node.maps : Multiset UInt16) = blocksOn (g t).bookedMaps node.name + rest →
      ((f node).maps : Multiset UInt16) = blocksOn l.bookedMaps node.name + rest)
    (hreduces : ∀ rest : ℕ, node.reduces.toNat = (g t).bookedReduces.count node.name + rest →
      (f node).reduces.toNat = l.bookedReduces.count node.name + rest)
    (hother : ∀ name, name ≠ node.name → blocksOn l.bookedMaps name = blocksOn (g t).bookedMaps name ∧
      l.bookedReduces.count name = (g t).bookedReduces.count name) :
    ∀ (m : ℕ) (node' : Node), (w.nodes.modify n f)[m]? = some node' → Loaded k (Function.update g t l) node' := by
  intro m node' hm
  rw [List.getElem?_modify, Option.map_eq_map, Option.map_eq_some_iff] at hm
  obtain ⟨old, hold, rfl⟩ := hm
  have hload := h.load m old hold
  by_cases hnm : n = m
  · subst hnm
    obtain rfl : node = old := by
      rw [hn] at hold
      exact Option.some.inj hold
    rw [if_pos rfl]
    obtain ⟨rest, hg, hupdate⟩ := total_split (fun l => blocksOn l.bookedMaps node.name) g ht
    obtain ⟨rest', hg', hupdate'⟩ := total_split (fun l => l.bookedReduces.count node.name) g ht
    refine ⟨?_, ?_⟩
    · rw [hname, hupdate l]
      exact hmaps rest (hload.maps.trans hg)
    · rw [hname, hupdate' l]
      exact hreduces rest' (hload.reduces.trans hg')
  · rw [if_neg hnm]
    -- another place has another name
    have hne : old.name ≠ node.name := by
      intro heq
      have hplace := h.tied.distinct.findNode hold
      rw [heq, h.tied.distinct.findNode hn, Option.some.injEq] at hplace
      exact hnm hplace
    obtain ⟨hsame, hsame'⟩ := hother old.name hne
    refine ⟨?_, ?_⟩
    · rw [total_congr (fun l => blocksOn l.bookedMaps old.name) g ht hsame]
      exact hload.maps
    · rw [total_congr (fun l => l.bookedReduces.count old.name) g ht hsame']
      exact hload.reduces

/-! ## Fair steps -/

/-- A request that changes a node only with the order it is for. -/
def Req.fair (w : World) (l : Talk) (c : Choice) : Req → Bool
  -- the order would be sent without its block on the node
  | .sendMap .replan _ => c ≠ .done
  -- the orders of these maps are out
  | .removeMapNode .skip _ _ => false
  -- the block may be that of another job
  | .removeMapNode .free nodeName numBlock => (findNode w.nodes nodeName).all fun n =>
    (nameAt w.nodes n, numBlock) ∈ l.bookedMaps || (w.nodes[n]?).all fun node => numBlock ∉ node.maps
  | .addReduceNode finalNode => (findNode w.nodes finalNode).all fun n => (w.nodes[n]?).all fun node =>
      node.reduces ≠ 65535
  -- the reduces of the job stay on their nodes
  | .exit => l.bookedReduces = []
  | _ => true

/-- **A fair step**: it changes a node only with the order it is for, and 16 bits can count
the job's blocks. -/
def Fair (t : ℕ) (w : World) (r : Req) (c : Choice) : Prop := Countable w t r c ∧ r.fair w (w.talk t) c = true

instance (t : ℕ) (w : World) (r : Req) (c : Choice) : Decidable (Fair t w r c) :=
  inferInstanceAs (Decidable (_ ∧ _))

variable {r : Req} {c : Choice} {x : Resp r}

/-- A request that leaves the list of nodes and the bookings of its job as they are keeps
the record squared. -/
theorem Squared.turn (h : Squared l) (hturn : Turn l r x l') (hmay : MayAsk l r) (hr : r.changesNodes = false)
    (hreplan : ∀ map, r = .sendMap .replan map → l'.replanned = false)
    (hexit : r = .exit → l.bookedMaps = [] ∧ l.bookedReduces = []) :
    Squared l' ∧ l'.bookedMaps = l.bookedMaps ∧ l'.bookedReduces = l.bookedReduces := by
  cases r with
  | updateNodes | listAddMap | removeMapNode | deactivateNode | addReduceNode | removeReduceNode => cases hr
  | fileBlocks site path =>
    subst hturn
    cases site with
    | _ => exact ⟨h.of_same rfl rfl rfl rfl rfl, rfl, rfl⟩
  | selectNode site copies =>
    subst hturn
    cases x with
    | _ => exact ⟨h.of_same rfl rfl rfl rfl rfl, rfl, rfl⟩
  | readNode n =>
    obtain ⟨-, rfl⟩ := hturn
    exact ⟨h.of_same rfl rfl rfl rfl rfl, rfl, rfl⟩
  | selectFinalNode reduces =>
    obtain ⟨n, rfl⟩ := hturn
    exact ⟨h.of_same rfl rfl rfl rfl rfl, rfl, rfl⟩
  | sendMap site map =>
    subst hturn
    cases site with
    | plan =>
      obtain ⟨n, hhand⟩ := hmay
      refine ⟨h.mapSent hhand x, ?_⟩
      cases x with
      | _ => exact ⟨rfl, rfl⟩
    -- an order that gets through is not fair, so this one did not
    | replan =>
      cases x with
      | true =>
        have hagain := hreplan map rfl
        simp [Talk.mapSent] at hagain
      | false => exact ⟨squared_dying rfl fun halive => (h.ended halive).2, rfl, rfl⟩
  | recv =>
    rcases hturn with ⟨-, rfl⟩ | ⟨i, o, failed, ho, -, rfl⟩
    · exact ⟨squared_dying rfl fun halive => (h.ended halive).2, rfl, rfl⟩
    · exact ⟨h.answered hmay.1 ho failed, rfl, rfl⟩
  | sendReduce final job reduce =>
    subst hturn
    refine ⟨h.reduceSent hmay.1 x, ?_⟩
    cases x with
    | _ => exact ⟨rfl, rfl⟩
  | exit =>
    subst hturn
    exact ⟨squared_dying rfl fun _ => hexit rfl, rfl, rfl⟩
  | mark point job =>
    subst hturn
    cases point with
    | _ => exact ⟨h.of_same rfl rfl rfl rfl rfl, rfl, rfl⟩
  | _ =>
    subst hturn
    exact ⟨h, rfl, rfl⟩

/-! ## The nodes that a request changes -/

theorem blocksOn_append_self (spots : List (CStr × UInt16)) (name : CStr) (b : UInt16) :
    blocksOn (spots ++ [(name, b)]) name = b ::ₘ blocksOn spots name := by
  rw [blocksOn_perm (List.perm_append_singleton (name, b) spots), blocksOn_cons_self]

theorem blocksOn_append_of_ne (spots : List (CStr × UInt16)) {name name' : CStr} (h : name ≠ name') (b : UInt16) :
    blocksOn (spots ++ [(name, b)]) name' = blocksOn spots name' := by
  rw [blocksOn_perm (List.perm_append_singleton (name, b) spots), blocksOn_cons_of_ne spots h]

theorem blocksOn_erase_of_ne (spots : List (CStr × UInt16)) {name name' : CStr} (h : name ≠ name') (b : UInt16) :
    blocksOn (spots.erase (name, b)) name' = blocksOn spots name' := by
  by_cases hmem : (name, b) ∈ spots
  · rw [blocksOn_perm (List.perm_cons_erase hmem), blocksOn_cons_of_ne _ h]
  · rw [List.erase_of_not_mem hmem]

/-- A block that is booked goes with its booking; one that is not, and not on the node, changes nothing. -/
theorem blocksOn_erase_self {spots : List (CStr × UInt16)} {name : CStr} {b : UInt16} {maps : List UInt16}
    {rest : Multiset UInt16} (h : (name, b) ∈ spots ∨ b ∉ maps)
    (hmaps : (maps : Multiset UInt16) = blocksOn spots name + rest) :
    (maps.erase b : Multiset UInt16) = blocksOn (spots.erase (name, b)) name + rest := by
  rw [← Multiset.coe_erase]
  by_cases hmem : (name, b) ∈ spots
  · rw [hmaps, blocksOn_perm (List.perm_cons_erase hmem), blocksOn_cons_self, Multiset.cons_add,
      Multiset.erase_cons_head]
  · have hnot : b ∉ (maps : Multiset UInt16) := h.resolve_left hmem
    rw [Multiset.erase_of_notMem hnot, hmaps, List.erase_of_not_mem hmem]

/-- A node that is found. -/
theorem nameAt_found (h : findNode nodes name = some n) : ∃ node, nodes[n]? = some node ∧
    nameAt nodes n = node.name := by
  obtain ⟨node, hn, -⟩ := findNode_spec h
  refine ⟨node, hn, ?_⟩
  unfold nameAt
  rw [hn]
  rfl

/-- A node is as it was after `updateNodes`, or it is new. -/
theorem updateNodes_work (h : Distinct nodes) {nodeID nodeIP : CStr} {nodePort : UInt16} {node' : Node}
    (hn : (updateNodes nodes nodeID nodeIP nodePort)[n]? = some node') :
    (∃ node, nodes[n]? = some node ∧ node'.name = node.name ∧ node'.maps = node.maps ∧ node'.reduces = node.reduces) ∨
      ¬Registered nodes node'.name ∧ node'.maps = [] ∧ node'.reduces = 0 := by
  unfold updateNodes at hn
  cases hfind : findNode nodes nodeID with
  | some k =>
    rw [hfind] at hn
    simp only [List.getElem?_modify, Option.map_eq_map, Option.map_eq_some_iff] at hn
    obtain ⟨node, hnode, rfl⟩ := hn
    refine Or.inl ⟨node, hnode, ?_⟩
    split
    · exact ⟨rfl, rfl, rfl⟩
    · exact ⟨rfl, rfl, rfl⟩
  | none =>
    rw [hfind] at hn
    rcases Nat.lt_or_ge n nodes.length with hlt | hge
    · rw [List.getElem?_append_left hlt] at hn
      exact Or.inl ⟨node', hn, rfl, rfl, rfl⟩
    · rw [List.getElem?_append_right hge] at hn
      obtain ⟨hzero, rfl⟩ := List.getElem?_eq_some_iff.1 hn
      rw [List.getElem_singleton]
      refine Or.inr ⟨?_, rfl, rfl⟩
      rintro ⟨k, node, hk, hname⟩
      have hfound := h.findNode hk
      rw [hname, hfind] at hfound
      cases hfound

/-- **A fair step of a job**, with what holds of it whatever it asks for. -/
structure Stepped (k : ℕ) (w : World) (g : ℕ → Talk) (t : ℕ) (u : World) : Prop where
  booked : Booked k w g
  lt : t < k
  tied : Tied u (Function.update g t (u.talk t))
  steady : Steady w.nodes u.nodes
  small : (u.talk t).blocks.length < 2 ^ 16
  replanned : (u.talk t).replanned = false
  dropped : (u.talk t).dropped = false

namespace Stepped

theorem lands (h : Stepped k w g t u) (hl : u.talk t = l) (hsquared : Squared l)
    (hmaps : ∀ x ∈ l.bookedMaps, x ∈ (g t).bookedMaps ∨ Registered u.nodes x.1)
    (hreduces : ∀ name ∈ l.bookedReduces, name ∈ (g t).bookedReduces ∨ Registered u.nodes name)
    (hload : ∀ (n : ℕ) (node : Node), u.nodes[n]? = some node → Loaded k (Function.update g t l) node) :
    Booked k u (Function.update g t (u.talk t)) := by
  subst hl
  exact h.booked.step h.tied h.steady h.small h.replanned h.dropped hsquared hmaps hreduces hload

theorem updateNodes (h : Stepped k w g t u) {nodeID nodeIP : CStr} {nodePort : UInt16} {x : Unit}
    (hs : serve t w (.updateNodes nodeID nodeIP nodePort) c = some (x, u)) :
      Booked k u (Function.update g t (u.talk t)) := by
  have hB := h.booked
  simp only [serve, Option.some.injEq, Prod.mk.injEq] at hs
  obtain ⟨-, rfl⟩ := hs
  have hsame : w.talk t = g t := by rw [hB.tied.talk]
  refine h.lands hsame (hB.squared t) (fun x hx => Or.inl hx) (fun name hx => Or.inl hx) ?_
  exact hB.load_same h.lt rfl rfl fun n node' hn => updateNodes_work hB.tied.distinct hn

theorem deactivateNode (h : Stepped k w g t u) {nodeName : CStr} {x : Unit}
    (hs : serve t w (.deactivateNode nodeName) c = some (x, u)) : Booked k u (Function.update g t (u.talk t)) := by
  have hB := h.booked
  simp only [serve, Option.map_eq_some_iff, Prod.mk.injEq] at hs
  obtain ⟨nodes, hnodes, -, rfl⟩ := hs
  obtain ⟨k', -, rfl⟩ := Option.map_eq_some_iff.1 hnodes
  have hsame : w.talk t = g t := by rw [hB.tied.talk]
  refine h.lands hsame (hB.squared t) (fun x hx => Or.inl hx) (fun name hx => Or.inl hx) ?_
  refine hB.load_same h.lt rfl rfl fun n node' hn => Or.inl ?_
  simp only [List.getElem?_modify, Option.map_eq_map, Option.map_eq_some_iff] at hn
  obtain ⟨node, hnode, rfl⟩ := hn
  refine ⟨node, hnode, ?_⟩
  split
  · exact ⟨rfl, rfl, rfl⟩
  · exact ⟨rfl, rfl, rfl⟩

/-- A block is put on a node, and booked. -/
theorem listAddMap (h : Stepped k w g t u) {numBlock : UInt16} {x : Unit}
    (hs : serve t w (.listAddMap n numBlock) c = some (x, u)) (hmay : MayAsk (g t) (.listAddMap n numBlock)) :
    Booked k u (Function.update g t (u.talk t)) := by
  have hB := h.booked
  simp only [serve, Option.map_eq_some_iff, Prod.mk.injEq] at hs
  obtain ⟨node, hn, -, rfl⟩ := hs
  have hreg : Registered (addMapNode w.nodes n numBlock) node.name := Registered.steady ⟨n, node, hn, rfl⟩ h.steady
  refine h.lands hB.tied.say_talk ((hB.squared t).added hmay n node.name numBlock) (fun x hx => ?_)
    (fun name hx => Or.inl hx) ?_
  · rcases List.mem_append.1 hx with hx | hx
    · exact Or.inl hx
    · rw [List.mem_singleton.1 hx]
      exact Or.inr hreg
  · refine hB.load_modify h.lt (f := fun node => { node with maps := node.maps ++ [numBlock] })
      hn rfl ?_ (fun rest hrest => hrest) ?_
    · intro rest hrest
      change ((node.maps ++ [numBlock] : List UInt16) : Multiset UInt16) =
        blocksOn ((g t).bookedMaps ++ [(node.name, numBlock)]) node.name + rest
      rw [coe_append_singleton, hrest, blocksOn_append_self, Multiset.cons_add]
    · intro name hne
      exact ⟨blocksOn_append_of_ne _ (Ne.symm hne) numBlock, rfl⟩

/-- A block is taken off a node, and its booking with it. -/
theorem removeMapNode (h : Stepped k w g t u) {site : Removal} {nodeName : CStr} {numBlock : UInt16} {x : Unit}
    (hs : serve t w (.removeMapNode site nodeName numBlock) c = some (x, u))
    (hmay : MayAsk (g t) (.removeMapNode site nodeName numBlock))
    (hfair : (Req.removeMapNode site nodeName numBlock).fair w (w.talk t) c = true) :
    Booked k u (Function.update g t (u.talk t)) := by
  have hB := h.booked
  have hsquared := hB.squared t
  simp only [serve, Option.bind_eq_some_iff, Option.map_eq_some_iff, Prod.mk.injEq] at hs
  obtain ⟨n, hfind, nodes, hnodes, -, rfl⟩ := hs
  rw [MaRTA.removeMapNode, hfind] at hnodes
  obtain rfl := Option.some.inj hnodes
  obtain ⟨node, hn, hname⟩ := nameAt_found hfind
  have hbooked : ((node.name, numBlock) ∈ (g t).bookedMaps ∨ numBlock ∉ node.maps) ∧
      Squared ((g t).removed site node.name numBlock) := by
    cases site with
    | result =>
      obtain ⟨m, hhand, rfl, rfl, hknown⟩ := hmay
      have hsame := hB.tied.nameAt hfind hknown
      rw [hname] at hsame
      rw [hsame]
      exact ⟨Or.inl (hsquared.maps_answered hhand).mem, hsquared.removed hhand⟩
    | skip => cases hfair
    | free =>
      -- `freeJob`: the block is one that this job booked, or the node does not have it
      refine ⟨?_, squared_dying rfl fun halive => ?_⟩
      · rw [hB.tied.talk] at hfair
        simpa [Req.fair, hfind, hname, hn] using hfair
      · obtain ⟨-, hmaps, hreduces⟩ := hsquared.ended halive
        refine ⟨?_, hreduces⟩
        change (g t).bookedMaps.erase (node.name, numBlock) = []
        rw [hmaps]
        rfl
  refine h.lands (by rw [hB.tied.say_talk, hname]) hbooked.2 (fun x hx => Or.inl (List.mem_of_mem_erase hx))
    (fun name hx => Or.inl hx) ?_
  refine hB.load_modify h.lt (f := fun node => { node with maps := node.maps.erase numBlock })
    hn rfl ?_ (fun rest hrest => hrest) ?_
  · exact fun rest hrest => blocksOn_erase_self hbooked.1 hrest
  · exact fun name hne => ⟨blocksOn_erase_of_ne _ (Ne.symm hne) numBlock, rfl⟩

/-- A reduce is counted on a node, and booked. -/
theorem addReduceNode (h : Stepped k w g t u) {finalNode : CStr} {x : Unit}
    (hs : serve t w (.addReduceNode finalNode) c = some (x, u)) (hmay : MayAsk (g t) (.addReduceNode finalNode))
    (hfair : (Req.addReduceNode finalNode).fair w (w.talk t) c = true) :
      Booked k u (Function.update g t (u.talk t)) := by
  have hB := h.booked
  simp only [serve, Option.bind_eq_some_iff, Option.map_eq_some_iff, Prod.mk.injEq] at hs
  obtain ⟨n, hfind, nodes, hnodes, -, rfl⟩ := hs
  rw [MaRTA.addReduceNode, hfind] at hnodes
  obtain rfl := Option.some.inj hnodes
  obtain ⟨node, hn, hname⟩ := nameAt_found hfind
  have hsame := hB.tied.nameAt hfind hmay.2
  have hreg := Registered.steady ⟨n, node, hn, rfl⟩ h.steady
  rw [hname] at hsame
  refine h.lands (by rw [hB.tied.say_talk, hname, hsame]) ((hB.squared t).reduceAdded hmay.1 finalNode)
    (fun x hx => Or.inl hx) (fun name hx => ?_) ?_
  · rcases List.mem_append.1 hx with hx | hx
    · exact Or.inl hx
    · rw [List.mem_singleton.1 hx, ← hsame]
      exact Or.inr hreg
  · refine hB.load_modify h.lt (f := fun node => { node with reduces := node.reduces + 1 })
      hn rfl (fun rest hrest => hrest) ?_ ?_
    · intro rest hrest
      have hcount : ((g t).bookedReduces ++ [finalNode]).count node.name = (g t).bookedReduces.count node.name + 1 := by
        rw [hsame, List.count_append, List.count_singleton_self]
      change (node.reduces + 1).toNat = ((g t).bookedReduces ++ [finalNode]).count node.name + rest
      rw [hcount]
      -- one more still fits in 16 bits
      have hroom : node.reduces ≠ 65535 := by simpa [Req.fair, hfind, hn] using hfair
      have hlt := node.reduces.toNat_lt
      have hne : node.reduces.toNat ≠ 65535 := fun heq => hroom (UInt16.toNat_inj.1 heq)
      rw [UInt16.toNat_add]
      simp only [UInt16.reduceToNat]
      omega
    · intro name hne
      refine ⟨rfl, ?_⟩
      change ((g t).bookedReduces ++ [finalNode]).count name = _
      have hzero : [finalNode].count name = 0 := List.count_eq_zero.2 (by simpa [← hsame] using hne)
      rw [List.count_append, hzero, Nat.add_zero]

/-- A reduce that was answered is taken off its node, and its booking with it. -/
theorem removeReduceNode (h : Stepped k w g t u) {finalNode : CStr} {x : Unit}
    (hs : serve t w (.removeReduceNode finalNode) c = some (x, u)) (hmay : MayAsk (g t) (.removeReduceNode finalNode)) :
    Booked k u (Function.update g t (u.talk t)) := by
  have hB := h.booked
  obtain ⟨r, hhand, rfl, hknown⟩ := hmay
  simp only [serve, Option.bind_eq_some_iff, Option.map_eq_some_iff, Prod.mk.injEq] at hs
  obtain ⟨n, hfind, nodes, hnodes, -, rfl⟩ := hs
  rw [MaRTA.removeReduceNode, hfind] at hnodes
  obtain rfl := Option.some.inj hnodes
  obtain ⟨node, hn, hname⟩ := nameAt_found hfind
  have hsame := hB.tied.nameAt hfind hknown
  rw [hname] at hsame
  have hmem : r.finalNode ∈ (g t).bookedReduces := ((hB.squared t).reduces_answered hhand).mem
  refine h.lands (by rw [hB.tied.say_talk, hname, hsame]) ((hB.squared t).reduceRemoved hhand) (fun x hx => Or.inl hx)
    (fun name hx => Or.inl (List.mem_of_mem_erase hx)) ?_
  refine hB.load_modify h.lt (f := fun node => { node with reduces := node.reduces - 1 })
    hn rfl (fun rest hrest => hrest) ?_ ?_
  · intro rest hrest
    have hpos : 0 < (g t).bookedReduces.count node.name := List.count_pos_iff.2 (hsame ▸ hmem)
    change (node.reduces - 1).toNat = ((g t).bookedReduces.erase r.finalNode).count node.name + rest
    rw [hsame, List.count_erase_self, ← hsame]
    -- the count of a node with a reduce does not wrap
    have hone : (1 : UInt16) ≤ node.reduces := by
      rw [UInt16.le_iff_toNat_le]
      simp only [UInt16.reduceToNat]
      omega
    rw [UInt16.toNat_sub_of_le _ _ hone]
    simp only [UInt16.reduceToNat]
    omega
  · intro name hne
    refine ⟨rfl, ?_⟩
    change ((g t).bookedReduces.erase r.finalNode).count name = _
    rw [List.count_erase_of_ne (hsame ▸ hne)]

/-- The other requests change no node and book nothing. -/
theorem unchanged (h : Stepped k w g t u) (hs : serve t w r c = some (x, u)) (hturn : Turn (g t) r x (u.talk t))
    (hmay : MayAsk (g t) r) (hr : r.changesNodes = false) (hfair : r.fair w (w.talk t) c = true) :
    Booked k u (Function.update g t (u.talk t)) := by
  have hB := h.booked
  obtain ⟨hsquared, hmaps, hreduces⟩ := (hB.squared t).turn hturn hmay hr (fun _ _ => h.replanned) fun hexit => by
    subst hexit
    rw [hB.tied.talk] at hfair
    exact ⟨hmay (hB.replanned t) (hB.dropped t), by simpa [Req.fair] using hfair⟩
  refine h.lands rfl hsquared (fun x hx => Or.inl (hmaps ▸ hx)) (fun name hx => Or.inl (hreduces ▸ hx)) ?_
  refine hB.load_same h.lt hmaps hreduces fun n node' hn => ?_
  rw [serve_nodes hs hr] at hn
  exact Or.inl ⟨node', hn, rfl, rfl, rfl⟩

end Stepped

/-- What a fair step keeps of its job. -/
theorem Booked.stepped (h : Booked k w g) (ht : t < k) (hfair : Fair t w r c) (hs : serve t w r c = some (x, u)) :
    Stepped k w g t u := by
  obtain ⟨hturn, hkept, htied⟩ := serve_turn h.tied hs
  obtain ⟨hcount, hfair⟩ := hfair
  refine ⟨h, ht, htied, hkept.steady, countable_turn h.tied (h.small t) hcount hs, ?_, ?_⟩
  · rcases hturn.frame.2.2.2.1 with hsame | ⟨map, rfl⟩
    · rw [hsame]
      exact h.replanned t
    · -- the order did not get through
      have hlost : c ≠ .done := by simpa [Req.fair] using hfair
      simp only [serve, Option.some.injEq, Prod.mk.injEq] at hs
      obtain ⟨-, rfl⟩ := hs
      simp only [World.say, Function.update_self, Talk.mapSent, hlost, decide_false, Bool.false_eq_true,
        if_false, h.tied.talk]
      exact h.replanned t
  · rcases hturn.frame.2.2.2.2 with hsame | ⟨nodeName, numBlock, rfl⟩
    · rw [hsame]
      exact h.dropped t
    · cases hfair

/-- **Every fair step keeps the records and the nodes together.** -/
theorem booked_rule (k : ℕ) : Pool.Rule (fun t => ⟨fun l r => t < k ∧ jobSpec.pre l r, jobSpec.post⟩) (Booked k)
    serve Fair := by
  rintro t w g r c x u h ⟨ht, hpre⟩ hfair hs
  have hturn := (serve_turn h.tied hs).1
  have hmay : MayAsk (g t) r := by
    rcases hpre (h.small t) with ⟨hlost, -⟩ | hmay
    · exact absurd (hlost.2.symm.trans (h.replanned t)) (by decide)
    · exact hmay
  have hstepped := h.stepped ht hfair hs
  refine ⟨u.talk t, hturn, ?_⟩
  cases hr : r.changesNodes with
  | false => exact hstepped.unchanged hs hturn hmay hr hfair.2
  | true =>
    cases r with
    | updateNodes nodeID nodeIP nodePort => exact hstepped.updateNodes hs
    | deactivateNode nodeName => exact hstepped.deactivateNode hs
    | listAddMap n numBlock => exact hstepped.listAddMap hs hmay
    | removeMapNode site nodeName numBlock => exact hstepped.removeMapNode hs hmay hfair.2
    | addReduceNode finalNode => exact hstepped.addReduceNode hs hmay hfair.2
    | removeReduceNode finalNode => exact hstepped.removeReduceNode hs hmay
    | _ => cases hr

/-! ## The load of a node -/

/-- MaRTA starts with nothing booked, and every job keeping to its specification. -/
theorem marta_booked (rounds : ℕ) (jobs : List Submission) :
    (marta rounds jobs).Ok (fun t => ⟨fun l r => t < jobs.length ∧ jobSpec.pre l r, jobSpec.post⟩) (fun _ _ _ => True)
      (fun _ => anyExit) (Booked jobs.length) := by
  refine ⟨fun _ => .start, ?_, fun t p hp => ?_⟩
  · exact {
      tied := tied_start
      small := fun _ => start_small
      replanned := fun _ => rfl
      dropped := fun _ => rfl
      squared := fun _ => ⟨fun _ => List.Perm.nil, fun _ => List.Perm.nil, fun halive => by cases halive⟩
      maps := fun _ _ hx => absurd hx List.not_mem_nil
      reduces := fun _ _ hx => absurd hx List.not_mem_nil
      load := fun _ _ hn => by cases hn }
  · obtain ⟨x, hx, rfl⟩ := List.mem_map.1 (List.mem_of_getElem? hp)
    have ht : t < (marta rounds jobs).threads.length := (List.getElem?_eq_some_iff.1 hp).1
    rw [show (marta rounds jobs).threads.length = jobs.length from List.length_map _] at ht
    exact (ok_acceptJob rounds (createJob_new ..)).guard ht

/-- **The load of the nodes.** In every state of every run of any jobs along fair steps,
each node has as many maps and reduces as there are orders of maps and of reduces out on it. -/
theorem workload_accounts (rounds : ℕ) (jobs : List Submission) (es : List (ℕ × Choice)) (P : Pool Resp Exit Unit World)
    (hC : Along (Pool.step serve) (fun P x => P.Meets Fair x) (marta rounds jobs) es)
    (hrun : run (Pool.step serve) (marta rounds jobs) es = some P) (node : Node) (hnode : node ∈ P.state.nodes) :
    node.maps.length = ∑ t ∈ Finset.range jobs.length, ((P.state.talk t).mapsOut.countP fun x => x.1 = node.name) ∧
      node.reduces.toNat = ∑ t ∈ Finset.range jobs.length, (P.state.talk t).reducesOut.count node.name := by
  obtain ⟨g, hbooked, -⟩ := Pool.ok_run (booked_rule jobs.length) (marta_booked rounds jobs) hC hrun
  obtain ⟨n, hn⟩ := List.mem_iff_getElem?.1 hnode
  have hload := hbooked.load n node hn
  rw [hbooked.tied.talk]
  constructor
  · have hcard := congrArg Multiset.card hload.maps
    rw [Multiset.coe_card, total, Multiset.card_sum] at hcard
    rw [hcard]
    refine Finset.sum_congr rfl fun t _ => ?_
    rw [card_blocksOn, (hbooked.squared t).mapsOut.countP_eq]
  · rw [hload.reduces, total]
    exact Finset.sum_congr rfl fun t _ => (hbooked.squared t).reducesOut.count_eq node.name

theorem workload_accounts_one :
    ∃ P node, run (Pool.step serve) (marta 1 [oneFile 1]) (planOne.map (Prod.mk 0)) = some P ∧
    node ∈ P.state.nodes ∧ node.maps = [3] ∧
    node.maps.length = ∑ t ∈ Finset.range 1, ((P.state.talk t).mapsOut.countP fun x => x.1 = node.name) ∧
    node.reduces.toNat = ∑ t ∈ Finset.range 1, (P.state.talk t).reducesOut.count node.name := by
  obtain ⟨P, hP, hC, node, hnode, hmaps⟩ :
      ∃ P ∈ run (Pool.step serve) (marta 1 [oneFile 1]) (planOne.map (Prod.mk 0)),
        Along (Pool.step serve) (fun P x => P.Meets Fair x) (marta 1 [oneFile 1]) (planOne.map (Prod.mk 0)) ∧
        ∃ node ∈ P.state.nodes, node.maps = [3] := by
    decide +kernel
  exact ⟨P, node, hP, hnode, hmaps, workload_accounts 1 _ _ P hC hP node hnode⟩

/-- What is decided while the map of a job fails and is planned again. -/
def plannedAgain : List Choice :=
  planOne ++ [Choice.answer 0 (some []), Choice.done, Choice.done] ++
    Choice.blocks [[copyOn (cstr "A") 3]] :: List.replicate 5 Choice.done

/-- **The load drifts.** The map was sent again to its node, which has no map. -/
theorem workload_drifts : ∃ P node, run (Pool.step serve) (marta 1 [oneFile 1]) (plannedAgain.map (Prod.mk 0)) =
    some P ∧
    node ∈ P.state.nodes ∧ (P.state.talk 0).hand = .free ∧ node.maps.length = 0 ∧
    ∑ t ∈ Finset.range 1, ((P.state.talk t).mapsOut.countP fun x => x.1 = node.name) = 1 := by
  obtain ⟨P, hP, node, hnode, hload⟩ :
      ∃ P ∈ run (Pool.step serve) (marta 1 [oneFile 1]) (plannedAgain.map (Prod.mk 0)), ∃ node ∈ P.state.nodes,
        (P.state.talk 0).hand = .free ∧ node.maps.length = 0 ∧
        ∑ t ∈ Finset.range 1, ((P.state.talk t).mapsOut.countP fun x => x.1 = node.name) = 1 := by
    decide +kernel
  exact ⟨P, node, hP, hnode, hload⟩

end Mdfs.MaRTA
