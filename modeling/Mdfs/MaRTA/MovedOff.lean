import Mdfs.MaRTA.Rounds
import Mdfs.MaRTA.Selection
import Mdfs.MaRTA.Workload

/-!
# A map that is planned again

A node that was found failed is deactivated, and the map that was on it is planned again from
the copies that it has. In between every file of the job is asked for again, and each copy in a
reply activates its node. So the map may go to the node that it comes from.

* `Looked`: the nodes as they were at a job's last selection.
* `moved_iff`: the node of a map changes just when its old one was passed over.
* `moved_off`: this in every run; a map without an active copy is reported.
* `sent_back`: the map is sent to the node that has just failed.
-/

namespace Mdfs.MaRTA

open Lib

/-! ## What a job looked at -/

/-- The nodes as they were when job `t₀` last selected one of them for a map. -/
def selecting (t₀ : ℕ) : ℕ → World → (r : Req) → Resp r → List Node → List Node
  | t, w, .selectNode _ _, some _, nodes => if t = t₀ then w.nodes else nodes
  | _, _, _, _, nodes => nodes

/-- The requests that select a node for a map. -/
def Req.selects : Req → Bool
  | .selectNode _ _ => true
  | _ => false

/-- **What a job looked at**: the nodes have kept their names since, and the node that it has
chosen is the one that is selected among them. -/
structure Looked (nodes : List Node) (w : World) (l : Talk) : Prop where
  steady : Steady nodes w.nodes
  distinct : Distinct nodes
  chosen : ∀ n numBlock copies, l.chosen = some (n, numBlock, copies) →
    selectNodeToMap nodes copies = some (some (n, numBlock))

variable {nodes : List Node} {w u : World} {g : ℕ → Talk} {l l' : Talk} {t t₀ n : ℕ} {r : Req} {c : Choice} {x : Resp r}
  {P P' : Pool Resp Exit Unit World} {copies : List Copy} {name : CStr}

/-- Only a selection changes what is chosen. -/
theorem Turn.chosen_eq (h : Turn l r x l') (hr : r.selects = false) : l'.chosen = l.chosen := by
  cases hsees : r.sees with
  | false => exact (h.unseen hsees).2.2
  | true =>
    cases r with
    | fileBlocks site path =>
      subst h
      cases site with
      | _ => rfl
    | selectNode => cases hr
    | readNode n => obtain ⟨-, rfl⟩ := h; rfl
    | selectFinalNode reduces => obtain ⟨n, rfl⟩ := h; rfl
    | _ => cases hsees

/-- What is noted of a step that selects no node. -/
theorem selecting_of_not (h : r.selects = false) : selecting t₀ t w r x nodes = nodes := by
  cases r with
  | selectNode => cases h
  | _ => rfl

theorem Looked.kept (h : Looked nodes w l) (hnodes : Steady w.nodes u.nodes) (hchosen : l'.chosen = l.chosen) :
    Looked nodes u l' where
  steady := h.steady.trans hnodes
  distinct := h.distinct
  chosen := by
    rw [hchosen]
    exact h.chosen

/-- 16 bits can count the blocks of job `t₀`. -/
def FewBlocks (t₀ t : ℕ) (w : World) (r : Req) (c : Choice) : Prop := t = t₀ → Countable w t r c

instance (t₀ t : ℕ) (w : World) (r : Req) (c : Choice) : Decidable (FewBlocks t₀ t w r c) :=
  inferInstanceAs (Decidable (t = t₀ → Countable w t r c))

/-- **Every step keeps the note and what is chosen to each other.** -/
theorem looked_rule (t₀ : ℕ) : Pool.Rule (fun _ => roundSpec)
    (fun s g => Tied s.1 g ∧ Looked s.2 s.1 (g t₀) ∧ (g t₀).blocks.length < 2 ^ 16) (Pool.noting (selecting t₀) serve)
    (fun t s r c => FewBlocks t₀ t s.1 r c) := by
  refine Pool.rule_noting ?_
  rintro t w nodes g r c x u ⟨htied, hlooked, hsmall⟩ - hC hs
  obtain ⟨hturn, hkept, htied'⟩ := serve_turn htied hs
  refine ⟨u.talk t, hturn, htied', ?_⟩
  by_cases ht : t = t₀
  swap
  · have hnote : selecting t₀ t w r x nodes = nodes := by
      cases r with
      | selectNode site copies =>
        cases x with
        | none => rfl
        | some y => exact if_neg ht
      | _ => rfl
    rw [Function.update_of_ne (Ne.symm ht), hnote]
    exact ⟨hlooked.kept hkept.steady rfl, hsmall⟩
  subst ht
  rw [Function.update_self]
  refine ⟨?_, countable_turn htied hsmall (hC rfl) hs⟩
  cases hselects : r.selects with
  | false =>
    rw [selecting_of_not hselects]
    exact hlooked.kept hkept.steady (hturn.chosen_eq hselects)
  | true =>
    cases r with
    | selectNode site copies =>
      simp only [serve, Option.map_eq_some_iff, Prod.mk.injEq] at hs
      obtain ⟨y, hy, rfl, rfl⟩ := hs
      rw [htied.say_talk]
      cases y with
      | none => exact hlooked.kept hkept.steady rfl
      | some y =>
        -- what is chosen now is selected among the nodes as they are
        have hnote : selecting t t w (.selectNode site copies) (some y) nodes = w.nodes := if_pos rfl
        rw [hnote]
        refine ⟨hkept.steady, htied.distinct, ?_⟩
        intro n numBlock copies' hchosen
        obtain ⟨rfl, rfl, rfl⟩ : y.1 = n ∧ y.2 = numBlock ∧ copies = copies' := by
          simpa [Talk.selected] using hchosen
        exact hy
    | _ => cases hselects

/-! ## The node of the map -/

theorem Distinct.place_eq (h : Distinct nodes) {i j : ℕ} {a b : Node} (hi : nodes[i]? = some a)
    (hj : nodes[j]? = some b)
    (hname : stringEqualsIgnoreCase a.name b.name = true) : i = j := by
  obtain ⟨hi', rfl⟩ := List.getElem?_eq_some_iff.1 hi
  obtain ⟨hj', rfl⟩ := List.getElem?_eq_some_iff.1 hj
  have hall := List.pairwise_iff_getElem.1 h
  rcases Nat.lt_trichotomy i j with hij | hij | hij
  · rw [hall i j hi' hj' hij] at hname
    cases hname
  · exact hij
  · have hswap : stringEqualsIgnoreCase nodes[j].name nodes[i].name = true := by
      unfold stringEqualsIgnoreCase at *
      exact decide_eq_true (of_decide_eq_true hname).symm
    rw [hall j i hj' hi' hij] at hswap
    cases hswap

/-- **The node of a map changes** just when its old one was passed over. -/
theorem moved_iff (htied : Tied w g) (h : Looked nodes w (g t)) {numBlock : UInt16} {info : NodeInfo}
    (hchosen : (g t).chosen = some (n, numBlock, copies)) (hshown : (n, info) ∈ (g t).shown)
      (hknown : (g t).Knows name) :
    info.name ≠ name ↔ PassedOver nodes (copies.map Copy.offer) name := by
  have hbest := selectNodeToMap_eq (h.chosen n numBlock copies hchosen)
  have hleast := bestOffer_eq_some.1 hbest.symm
  obtain ⟨before, name', after, -, hfind, -, -, -⟩ := id hleast
  obtain ⟨node, hnode, -⟩ := findNode_spec hfind
  -- the node that was selected still has its name
  obtain ⟨node', hnode', hname'⟩ := h.steady n node hnode
  obtain ⟨node'', hnode'', hinfo⟩ := htied.shown t _ hshown
  obtain rfl : node' = node'' := Option.some.inj (hnode'.symm.trans hnode'')
  have hsame : info.name = node.name := hinfo.symm.trans hname'
  rw [passedOver_iff]
  constructor
  · intro hne k a hk hleast'
    obtain ⟨rfl, -⟩ := Prod.mk.inj (Option.some.inj ((bestOffer_eq_some.2 hleast').symm.trans hbest.symm))
    -- the old node is at this place as well
    obtain ⟨node₁, hnode₁, hcase⟩ := findNode_spec hk
    obtain rfl : node = node₁ := Option.some.inj (hnode.symm.trans hnode₁)
    obtain ⟨y, hy, hyname⟩ := hknown
    obtain ⟨old, hold, holdname⟩ := htied.shown t y hy
    have holdname : old.name = name := holdname.trans hyname
    have hplace : k = y.1 := htied.distinct.place_eq hnode' hold (by rw [hname', holdname]; exact hcase)
    rw [← hplace, hnode', Option.some.injEq] at hold
    exact hne (hsame.trans (hname'.symm.trans ((congrArg Node.name hold).trans holdname)))
  · intro hpassed heq
    refine hpassed n numBlock ?_ hleast
    rw [← heq, hsame]
    exact h.distinct.findNode hnode

/-- A map that finds no active copy is stranded. -/
theorem step_selectNode (htied : Tied P.state g) (ht : P.At t (.selectNode .replan copies))
    (hs : Pool.step serve P (t, c) = some P') :
    (P'.state.talk t).stranded = true ↔ (P.state.talk t).stranded = true ∨
      ∀ copy ∈ copies, ¬OnActive P.state.nodes copy.nodeName := by
  obtain ⟨k, hk⟩ := ht
  obtain ⟨r, k', x, u, hk', hserve, rfl⟩ := Pool.step_eq_some.1 hs
  obtain ⟨rfl, -⟩ := Prog.ask.inj (Option.some.inj (hk.symm.trans hk'))
  simp only [serve, Option.map_eq_some_iff, Prod.mk.injEq] at hserve
  obtain ⟨y, hy, -, rfl⟩ := hserve
  have hnone : y = none ↔ ∀ copy ∈ copies, ¬OnActive P.state.nodes copy.nodeName := by
    rw [selectNodeToMap_eq hy, bestOffer_eq_none, List.forall_mem_map]
    exact Iff.rfl
  rw [← hnone, htied.talk]
  change ((P.state.say t fun l => l.selected .replan copies y).talk t).stranded = true ↔ _
  rw [htied.say_talk]
  cases y with
  | none => simp [Talk.selected]
  | some y => simp [Talk.selected]

/-- **What becomes of the maps of job `t` that are planned again**: the node of a map changes just
when the node of its last order was passed over at the selection; a map without an active copy is
stranded; and a job with a stranded map orders no reduce and does not return: if it is told
anything, it is that its file is unavailable. -/
structure Moved (P : Pool Resp Exit Unit World) (nodes : List Node) (t : ℕ) : Prop where
  order : ∀ map, P.At t (.sendMap .replan map) → ∃ m, lastOrder (P.state.talk t).history map.id = some m ∧
    m.copies = map.copies ∧
    (map.nodeName ≠ m.nodeName ↔ PassedOver nodes (map.copies.map Copy.offer) m.nodeName)
  stranded : ∀ copies, P.At t (.selectNode .replan copies) → ∀ c P', Pool.step serve P (t, c) = some P' →
    ((P'.state.talk t).stranded = true ↔
      (P.state.talk t).stranded = true ∨ ∀ copy ∈ copies, ¬OnActive P.state.nodes copy.nodeName)
  unavailable : (P.state.talk t).stranded = true → (∀ final job reduce, ¬P.At t (.sendReduce final job reduce)) ∧
    (∀ result, P.At t (.sendDie result) → result = COMMAND_RESULT_FILEUNAVAILABLE) ∧ P.threads[t]? ≠ some (.ret ())

/-- **Work is moved off a failed node**, just when it is passed over. In every run of any jobs, in
which 16 bits can count the blocks of job `t`, with `nodes` as they were when the job last
selected one. -/
theorem moved_off (rounds : ℕ) (jobs : List Submission) (t : ℕ) (es : List (ℕ × Choice)) (P : Pool Resp Exit Unit World)
    (hC : Along (Pool.step serve) (fun P x => P.Meets (FewBlocks t) x) (marta rounds jobs) es)
    (hrun : run (Pool.step serve) (marta rounds jobs) es = some P) :
    ∃ nodes, run (Pool.step (Pool.noting (selecting t) serve)) ((marta rounds jobs).withNote []) es =
      some (P.withNote nodes) ∧
      Moved P nodes t := by
  obtain ⟨nodes, hnoted⟩ := Pool.run_withNote (selecting t) [] hrun
  have hstart := marta_rounds rounds jobs (J := fun w g => Tied w g ∧ Looked [] w (g t) ∧ (g t).blocks.length < 2 ^ 16)
    ⟨tied_start, ⟨fun _ _ h => by simp at h, List.Pairwise.nil, fun _ _ _ h => by cases h⟩, start_small⟩
  have hP : P.Ok (fun _ => roundSpec) (fun _ _ l => l.stranded = false) (fun _ => anyExit)
      fun w g => Tied w g ∧ Looked nodes w (g t) ∧ (g t).blocks.length < 2 ^ 16 :=
    Pool.ok_withNote.1 (Pool.ok_run (looked_rule t) (Pool.ok_withNote.2 hstart) (Pool.along_withNote hC) hnoted)
  refine ⟨nodes, hnoted, ?_, ?_, ?_⟩
  · intro map ht
    obtain ⟨g, ⟨htied, hlooked, hsmall⟩, hpre⟩ := hP.pre ht
    obtain ⟨m, n, info, hlast, hcopies, hknown, hchosen, hshown, hname⟩ := hpre hsmall
    refine ⟨m, ?_, hcopies, ?_⟩
    · rw [htied.talk, hlast]
    · rw [← hname]
      exact moved_iff htied hlooked hchosen hshown hknown
  · intro copies ht c P' hs
    obtain ⟨g, ⟨htied, -, -⟩, -⟩ := hP.pre ht
    exact step_selectNode htied ht hs
  · intro hstranded
    refine ⟨?_, ?_, ?_⟩
    · intro final job reduce ht
      obtain ⟨g, ⟨htied, -, -⟩, hnot, -⟩ := hP.pre ht
      rw [htied.talk, hnot] at hstranded
      cases hstranded
    · intro result ht
      obtain ⟨g, ⟨htied, -, -⟩, honly⟩ := hP.pre ht
      rw [htied.talk] at hstranded
      exact honly hstranded
    · intro hret
      obtain ⟨g, ⟨htied, -, -⟩, hthreads⟩ := hP
      have hnot := hthreads t _ hret
      rw [htied.talk, hnot] at hstranded
      cases hstranded

/-- The map of an order that plans it again. -/
def Req.mapReplanned : Req → Option Map
  | .sendMap .replan map => some map
  | _ => none

theorem Req.mapReplanned_eq {r : Req} {map : Map} (h : r.mapReplanned = some map) : r = .sendMap .replan map := by
  unfold Req.mapReplanned at h
  split at h
  · cases h
    rfl
  · cases h

/-- What is decided while a map fails on `A` and is planned again: the block has a copy on `B`, and
the FileSystem does not list `A` any more. -/
def movedToB : List Choice :=
  .blocks [[copyOn (cstr "A") 3, copyOn (cstr "B") 4]] :: List.replicate 7 .done ++
    [.answer 0 (some []), .done, .done] ++
    .blocks [[copyOn (cstr "B") 4]] :: List.replicate 4 .done

theorem moved_off_one : ∃ P nodes map m, run (Pool.step serve) (marta 1 [oneFile 1])
    (movedToB.map (Prod.mk 0)) = some P ∧
    run (Pool.step (Pool.noting (selecting 0) serve)) ((marta 1 [oneFile 1]).withNote []) (movedToB.map (Prod.mk 0)) =
      some (P.withNote nodes) ∧
    P.At 0 (.sendMap .replan map) ∧ lastOrder (P.state.talk 0).history map.id = some m ∧ m.nodeName = cstr "A" ∧
    map.nodeName = cstr "B" ∧ PassedOver nodes (map.copies.map Copy.offer) m.nodeName := by
  obtain ⟨P, hP, hC, r, hr, map, hmap, m, hm, hold, hnew⟩ :
      ∃ P ∈ run (Pool.step serve) (marta 1 [oneFile 1]) (movedToB.map (Prod.mk 0)),
        Along (Pool.step serve) (fun P x => P.Meets (FewBlocks 0) x) (marta 1 [oneFile 1]) (movedToB.map (Prod.mk 0)) ∧
        ∃ r ∈ P.asked 0, ∃ map ∈ r.mapReplanned, ∃ m ∈ lastOrder (P.state.talk 0).history map.id,
          m.nodeName = cstr "A" ∧ map.nodeName = cstr "B" := by
    decide +kernel
  have ht : P.At 0 (.sendMap .replan map) := Req.mapReplanned_eq hmap ▸ Pool.at_of_asked hr
  obtain ⟨nodes, hnoted, hmoved⟩ := moved_off 1 _ 0 _ P hC hP
  obtain ⟨m', hm', -, hiff⟩ := hmoved.order map ht
  obtain rfl : m = m' := Option.some.inj (hm.symm.trans hm')
  have hne : map.nodeName ≠ m.nodeName := by
    rw [hold, hnew]
    decide
  exact ⟨P, nodes, map, m, hP, hnoted, ht, hm, hold, hnew, hiff.1 hne⟩

/-- **The map is sent back.** It has failed on `A`, `A` was deactivated, and the reply of the
FileSystem activates it again. -/
theorem sent_back : ∃ P map m, run (Pool.step serve) (marta 1 [oneFile 1])
    (plannedAgain.dropLast.map (Prod.mk 0)) = some P ∧
    P.At 0 (.sendMap .replan map) ∧ lastOrder (P.state.talk 0).history map.id = some m ∧
    lastResult (P.state.talk 0).history map.id = some false ∧ m.nodeName = cstr "A" ∧ map.nodeName = cstr "A" := by
  obtain ⟨P, hP, r, hr, map, hmap, m, hm, hfailed, hold, hnew⟩ :
      ∃ P ∈ run (Pool.step serve) (marta 1 [oneFile 1]) (plannedAgain.dropLast.map (Prod.mk 0)), ∃ r ∈ P.asked 0,
        ∃ map ∈ r.mapReplanned, ∃ m ∈ lastOrder (P.state.talk 0).history map.id,
          lastResult (P.state.talk 0).history map.id = some false ∧ m.nodeName = cstr "A" ∧
            map.nodeName = cstr "A" := by
    decide +kernel
  exact ⟨P, map, m, hP, Req.mapReplanned_eq hmap ▸ Pool.at_of_asked hr, hm, hfailed, hold, hnew⟩

end Mdfs.MaRTA
