import Mdfs.MaRTA.Ledger

/-!
# What a job may ask

The specification that a job's program keeps to, whatever the other jobs do to the nodes
between two of its requests. `Turn` is what a request answers and what is written down of
it; `MayAsk` is what has to hold where a request is made.

A job with more maps than a `uint16_t` can count has nothing to keep to. A job is `Lost`
when it goes on to plan the maps of another node after a map found no active copy; it
orders no more reduces.

* `ok_leave`, `ok_notificarMap`, `ok_requestBlocks`: what these functions do.
* `only_leave`, `only_notificarMap`, `only_requestBlocks`: they are about the maps only.
-/

namespace Mdfs.MaRTA

open Lib

/-- What a request answers and what is written down of it. -/
def Turn (l : Talk) : (r : Req) → Resp r → Talk → Prop
  | .fileBlocks site _, buffer, l' => l' = l.blocksGot site (fileBlocksOf buffer)
  | .selectNode site copies, x, l' => l' = l.selected site copies x
  | .listAddMap n numBlock, _, l' => ∃ name, l' = l.added n name numBlock
  | .readNode n, x, l' => (∀ name b, l.hand = .announced n name b → x.name = name) ∧ l' = l.read n x
  | .removeMapNode site nodeName numBlock, _, l' => ∃ name, (l.Knows nodeName → name = nodeName) ∧
      l' = l.removed site name numBlock
  | .sendMap site map, through, l' => l' = l.mapSent site map through
  | .recv, x, l' => x = none ∧ l' = { l with hand := .dying } ∨
      ∃ i o failed, l.pending[i]? = some o ∧ x = some (o.result failed) ∧ l' = l.answered i o failed
  | .selectFinalNode _, x, l' => ∃ n, l' = l.read n x
  | .addReduceNode finalNode, _, l' => ∃ name, (l.Knows finalNode → name = finalNode) ∧
      l' = l.reduceAdded finalNode name
  | .sendReduce _ _ reduce, through, l' => l' = l.reduceSent reduce through
  | .removeReduceNode finalNode, _, l' => ∃ name, (l.Knows finalNode → name = finalNode) ∧ l' = l.reduceRemoved name
  | .exit, _, l' => l' = l.left
  | .updateNodes _ _ _, _, l' => l' = l
  | .getTime, _, l' => l' = l
  | .deactivateNode _, _, l' => l' = l
  | .selectMoreTemps _, _, l' => l' = l
  | .copyFinal _, _, l' => l' = l
  | .sendDie _, _, l' => l' = l
  | .mark point _, _, l' => l' = l.marked point

/-- What has to hold where a request is made. -/
def MayAsk (l : Talk) : Req → Prop
  | .recv => l.hand = .free ∧ l.pending ≠ []
  | .listAddMap _ _ => l.hand = .free
  | .removeMapNode .result nodeName numBlock =>
    ∃ m, l.hand = .answered (.map m) ∧ m.nodeName = nodeName ∧ m.numBlock = numBlock ∧ l.Knows nodeName
  | .sendMap .plan map => ∃ n, l.hand = .announced n map.nodeName map.numBlock
  | .sendMap .replan _ => l.hand = .free
  | .addReduceNode finalNode => l.hand = .free ∧ l.Knows finalNode
  | .sendReduce final job reduce => l.hand = .counted reduce.finalNode ∧ Balanced l job ∧
      (final = true → l.skipped = false → Covers l job reduce)
  | .removeReduceNode finalNode => ∃ r, l.hand = .answered (.reduce r) ∧ r.finalNode = finalNode ∧ l.Knows finalNode
  | .mark .planned job => Balanced l job
  | .mark .replan _ => ∀ r, .reduce r ∉ l.pending
  | .mark .replanned job => l.late = false → Balanced l job
  | .exit => l.replanned = false → l.dropped = false → l.bookedMaps = []
  | _ => True

/-- `rePlanMapsFromNode` was started after a map found no active copy, and maps were planned again. -/
def Talk.Lost (l : Talk) : Prop := l.late = true ∧ l.replanned = true

def Req.isReduceOrder : Req → Bool
  | .sendReduce _ _ _ => true
  | _ => false

/-- **The specification of a job.** -/
def jobSpec : Spec Resp Talk where
  pre l r := l.blocks.length < 2 ^ 16 → l.Lost ∧ r.isReduceOrder = false ∨ MayAsk l r
  post := Turn

/-- Nothing is asked of a job where it ends. -/
abbrev anyExit : Exit → Talk → Prop := fun _ _ => True

variable {l l' : Talk} {α : Type} {Q : α → Talk → Prop} {job job' : Job} {maps : List Map}

theorem ok_request {r : Req} {Q : Resp r → Talk → Prop} (hmay : MayAsk l r) (hQ : ∀ x l', Turn l r x l' → Q x l') :
    (request r).Ok jobSpec Q anyExit l := ⟨fun _ => .inr hmay, hQ⟩

/-- What stays once it is so. -/
theorem Turn.grows {r : Req} {x : Resp r} (h : Turn l r x l') : (l.late = true → l'.late = true) ∧
    (l.replanned = true → l'.replanned = true) ∧ l.blocks.length ≤ l'.blocks.length ∧
    (l.stranded = true → l'.stranded = true) := by
  cases r with
  | fileBlocks site path =>
    subst h
    cases site with
    | plan => exact ⟨id, id, by simp [Talk.blocksGot], id⟩
    | replan => exact ⟨id, id, le_rfl, id⟩
  | selectNode site copies =>
    subst h
    cases x with
    | none => exact ⟨id, id, le_rfl, fun h => by simp [Talk.selected, h]⟩
    | some y => exact ⟨id, id, le_rfl, id⟩
  | sendMap site map =>
    subst h
    cases x with
    | true => exact ⟨id, fun h => by simp [Talk.mapSent, h], le_rfl, id⟩
    | false => exact ⟨id, id, le_rfl, id⟩
  | sendReduce final job reduce =>
    subst h
    cases x with
    | true => exact ⟨id, id, le_rfl, id⟩
    | false => exact ⟨id, id, le_rfl, id⟩
  | recv =>
    rcases h with ⟨-, rfl⟩ | ⟨i, o, failed, -, -, rfl⟩
    · exact ⟨id, id, le_rfl, id⟩
    · exact ⟨id, id, le_rfl, id⟩
  | listAddMap n numBlock => obtain ⟨name, rfl⟩ := h; exact ⟨id, id, le_rfl, id⟩
  | readNode n => obtain ⟨-, rfl⟩ := h; exact ⟨id, id, le_rfl, id⟩
  | removeMapNode site nodeName numBlock => obtain ⟨name, -, rfl⟩ := h; exact ⟨id, id, le_rfl, id⟩
  | selectFinalNode reduces => obtain ⟨n, rfl⟩ := h; exact ⟨id, id, le_rfl, id⟩
  | addReduceNode finalNode => obtain ⟨name, -, rfl⟩ := h; exact ⟨id, id, le_rfl, id⟩
  | removeReduceNode finalNode => obtain ⟨name, -, rfl⟩ := h; exact ⟨id, id, le_rfl, id⟩
  | mark point job =>
    subst h
    cases point with
    | replan => exact ⟨fun h => by simp [Talk.marked, h], id, le_rfl, id⟩
    | _ => exact ⟨id, id, le_rfl, id⟩
  | _ => subst h; exact ⟨id, id, le_rfl, id⟩

/-- What only one kind of request changes. -/
theorem Turn.frame {r : Req} {x : Resp r} (h : Turn l r x l') :
    (l'.blocks = l.blocks ∨ ∃ path, r = .fileBlocks .plan path) ∧
    (l'.skipped = l.skipped ∨ ∃ copies, r = .selectNode .plan copies) ∧
    (l'.late = l.late ∨ ∃ job, r = .mark .replan job) ∧
    (l'.replanned = l.replanned ∨ ∃ map, r = .sendMap .replan map) ∧
    (l'.dropped = l.dropped ∨ ∃ nodeName numBlock, r = .removeMapNode .skip nodeName numBlock) := by
  cases r with
  | fileBlocks site path =>
    subst h
    cases site with
    | plan => exact ⟨.inr ⟨path, rfl⟩, .inl rfl, .inl rfl, .inl rfl, .inl rfl⟩
    | replan => exact ⟨.inl rfl, .inl rfl, .inl rfl, .inl rfl, .inl rfl⟩
  | selectNode site copies =>
    subst h
    cases site with
    | plan => cases x with
      | none => exact ⟨.inl rfl, .inr ⟨copies, rfl⟩, .inl rfl, .inl rfl, .inl rfl⟩
      | some y => exact ⟨.inl rfl, .inl rfl, .inl rfl, .inl rfl, .inl rfl⟩
    | replan => cases x with
      | none => exact ⟨.inl rfl, .inl (Bool.or_false _), .inl rfl, .inl rfl, .inl rfl⟩
      | some y => exact ⟨.inl rfl, .inl rfl, .inl rfl, .inl rfl, .inl rfl⟩
  | sendMap site map =>
    subst h
    cases x with
    | false => exact ⟨.inl rfl, .inl rfl, .inl rfl, .inl rfl, .inl rfl⟩
    | true => cases site with
      | plan => exact ⟨.inl rfl, .inl rfl, .inl rfl, .inl (Bool.or_false _), .inl rfl⟩
      | replan => exact ⟨.inl rfl, .inl rfl, .inl rfl, .inr ⟨map, rfl⟩, .inl rfl⟩
  | sendReduce final job reduce =>
    subst h
    cases x with
    | true => exact ⟨.inl rfl, .inl rfl, .inl rfl, .inl rfl, .inl rfl⟩
    | false => exact ⟨.inl rfl, .inl rfl, .inl rfl, .inl rfl, .inl rfl⟩
  | recv =>
    rcases h with ⟨-, rfl⟩ | ⟨i, o, failed, -, -, rfl⟩
    · exact ⟨.inl rfl, .inl rfl, .inl rfl, .inl rfl, .inl rfl⟩
    · exact ⟨.inl rfl, .inl rfl, .inl rfl, .inl rfl, .inl rfl⟩
  | listAddMap n numBlock => obtain ⟨name, rfl⟩ := h; exact ⟨.inl rfl, .inl rfl, .inl rfl, .inl rfl, .inl rfl⟩
  | readNode n => obtain ⟨-, rfl⟩ := h; exact ⟨.inl rfl, .inl rfl, .inl rfl, .inl rfl, .inl rfl⟩
  | removeMapNode site nodeName numBlock =>
    obtain ⟨name, -, rfl⟩ := h
    cases site with
    | skip => exact ⟨.inl rfl, .inl rfl, .inl rfl, .inl rfl, .inr ⟨nodeName, numBlock, rfl⟩⟩
    | _ => exact ⟨.inl rfl, .inl rfl, .inl rfl, .inl rfl, .inl (Bool.or_false _)⟩
  | selectFinalNode reduces => obtain ⟨n, rfl⟩ := h; exact ⟨.inl rfl, .inl rfl, .inl rfl, .inl rfl, .inl rfl⟩
  | addReduceNode finalNode => obtain ⟨name, -, rfl⟩ := h; exact ⟨.inl rfl, .inl rfl, .inl rfl, .inl rfl, .inl rfl⟩
  | removeReduceNode finalNode => obtain ⟨name, -, rfl⟩ := h; exact ⟨.inl rfl, .inl rfl, .inl rfl, .inl rfl, .inl rfl⟩
  | mark point job =>
    subst h
    cases point with
    | replan => exact ⟨.inl rfl, .inl rfl, .inr ⟨job, rfl⟩, .inl rfl, .inl rfl⟩
    | _ => exact ⟨.inl rfl, .inl rfl, .inl rfl, .inl rfl, .inl rfl⟩
  | _ => subst h; exact ⟨.inl rfl, .inl rfl, .inl rfl, .inl rfl, .inl rfl⟩

/-- **A job with too many blocks** has nothing to keep to. -/
theorem ok_large (h : 2 ^ 16 ≤ l.blocks.length) (p : JobProg α) :
    p.Ok jobSpec (fun _ l' => 2 ^ 16 ≤ l'.blocks.length) anyExit l := by
  refine Prog.ok_mono (fun _ _ h => h) (fun _ _ _ => trivial)
    (Prog.Only.keeps (I := fun l' : Talk => 2 ^ 16 ≤ l'.blocks.length) (Prog.only_true p) ?_ h)
  intro l₁ r _ hl₁
  exact ⟨fun hsmall => absurd hsmall (by omega), fun x l₂ hturn => hl₁.trans hturn.grows.2.2.1⟩

/-- **A lost job** that orders no reduce stays lost. -/
theorem ok_lost {p : JobProg α} (hp : p.Only fun r => r.isReduceOrder = false) (h : l.Lost) :
    p.Ok jobSpec (fun _ l' => l'.Lost) anyExit l := by
  refine Prog.ok_mono (fun _ _ h => h) (fun _ _ _ => trivial) (Prog.Only.keeps (I := Talk.Lost) hp ?_ h)
  intro l₁ r hr hl₁
  exact ⟨fun _ => .inl ⟨hl₁, hr⟩, fun x l₂ hturn => ⟨hturn.grows.1 hl₁.1, hturn.grows.2.1 hl₁.2⟩⟩

/-! ## A job that ends -/

section

variable {L : Type} {S : Spec Resp L} {Q : Unit → L → Prop} {E : Exit → L → Prop} {l : L} {P : Req → Prop} {job : Job}
  {freed : Bool}

/-- **`freeJob`** takes the maps off their nodes, and is aborted where it frees what is free. -/
theorem ok_freeJob (h : (removeMaps .free job.maps).Ok S Q E l)
    (habort : freed = true → ∀ l', Q () l' → E .aborted l') :
    (freeJob job freed).Ok S Q E l := by
  unfold freeJob
  rw [Prog.ok_bind]
  refine h.imp fun _ l' hl' => ?_
  cases freed with
  | true => exact habort rfl l' hl'
  | false => exact hl'

theorem only_freeJob (h : (removeMaps .free job.maps).Only P) : (freeJob job freed).Only P := by
  refine Prog.only_bind h fun _ => ?_
  split
  · trivial
  · trivial

theorem always_freeJob (h : (removeMaps .free job.maps).Always S) : (freeJob job freed).Always S := by
  refine Prog.always_bind h fun _ => ?_
  split
  · exact fun _ => trivial
  · exact fun _ => trivial

end

/-- **A job that can leave**: what it has put on nodes is there for its maps. -/
def Leaving (maps : List Map) (l : Talk) : Prop :=
  l.replanned = false → l.dropped = false → (∀ m ∈ maps, l.Knows m.nodeName) ∧
    (l.bookedMaps : Multiset (CStr × UInt16)) ≤ (maps : Multiset Map).map Map.spot

theorem Leaving.of_same (h : Leaving maps l) (hshown : l'.shown = l.shown) (hmaps : l'.bookedMaps = l.bookedMaps)
    (hreplanned : l'.replanned = l.replanned) (hdropped : l'.dropped = l.dropped) : Leaving maps l' := by
  unfold Leaving Talk.Knows at *
  rw [hshown, hmaps, hreplanned, hdropped]
  exact h

/-- `removeMapNode` in `freeJob`, on the first of the maps. -/
theorem Leaving.remove {m : Map} (h : Leaving (m :: maps) l) {name : CStr}
    (hname : l.Knows m.nodeName → name = m.nodeName) :
    Leaving maps (l.removed .free name m.numBlock) := by
  intro hreplanned hdropped
  obtain ⟨hknown, hbooked⟩ := h hreplanned ((Bool.or_false _).symm.trans hdropped)
  refine ⟨fun x hx => hknown x (List.mem_cons_of_mem m hx), ?_⟩
  rw [← Multiset.cons_coe, Multiset.map_cons] at hbooked
  rw [hname (hknown m List.mem_cons_self)]
  change (l.bookedMaps.erase m.spot : Multiset (CStr × UInt16)) ≤ _
  rw [coe_erase]
  exact Multiset.erase_le_iff_le_cons.2 hbooked

/-- **`freeJob`** takes all blocks of the job off the nodes. -/
theorem ok_removeMaps_free (h : Leaving maps l) :
    (removeMaps .free maps).Ok jobSpec (fun _ l' => Leaving [] l') anyExit l := by
  unfold removeMaps
  refine (Prog.ok_iterate (K := fun done l' => ∀ rest, done ++ rest = maps → Leaving rest l') maps ?_ ?_).imp ?_
  · intro done m rest l₁ hsplit hK
    refine ok_request trivial ?_
    rintro - l₂ ⟨name, hname, rfl⟩ rest' hsplit'
    have hrest : rest' = rest := by
      rw [← hsplit, List.append_assoc, List.append_cancel_left_eq, List.singleton_append, List.cons.injEq] at hsplit'
      exact hsplit'.2
    subst hrest
    exact (hK (m :: rest') hsplit).remove hname
  · rintro rest rfl
    exact h
  · intro _ l₁ hK
    exact hK [] (List.append_nil maps)

/-- **A job leaves** without a block on a node. -/
theorem ok_leave {freed : Bool} (h : Leaving job.maps l) (exit : Exit) :
    (leave job exit freed : JobProg α).Ok jobSpec Q anyExit l := by
  unfold leave
  rw [Prog.ok_bind]
  refine (ok_freeJob (ok_removeMaps_free h) fun _ _ _ => trivial).imp fun _ l₁ hleft => ?_
  rw [Prog.ok_bind]
  refine ok_request ?_ fun _ l₂ _ => trivial
  intro hreplanned hdropped
  exact (Multiset.coe_eq_zero _).1 (Multiset.le_zero.1 (hleft hreplanned hdropped).2)

theorem ok_notifFileUnavailable {freed : Bool} (h : Leaving job.maps l) :
    (notifFileUnavailable job freed : JobProg α).Ok jobSpec Q anyExit l := by
  unfold notifFileUnavailable
  rw [Prog.ok_bind]
  refine ok_request trivial ?_
  rintro _ l₁ rfl
  exact ok_leave h .unavailable

/-! ## Orders and requests -/

/-- **`notificarMap`** returns when the order is through. -/
theorem ok_notificarMap {site : Site} {map : Map} (hmay : MayAsk l (.sendMap site map)) (h : Leaving job.maps l) :
    (notificarMap site job map).Ok jobSpec (fun _ l' => l' = l.mapSent site map true) anyExit l := by
  unfold notificarMap
  rw [Prog.ok_bind]
  refine ok_request hmay ?_
  rintro through l₁ rfl
  cases through with
  | true => rfl
  | false =>
    have hdying : Leaving job.maps (l.mapSent site map false) := h.of_same rfl rfl rfl rfl
    rw [if_neg Bool.false_ne_true]
    exact ok_leave hdying .died

/-- **`notificarReduce`** returns when the order is through. -/
theorem ok_notificarReduce {final : Bool} {reduce : Reduce} (hfree : l.hand = .free) (hknown : l.Knows reduce.finalNode)
    (hbalanced : Balanced l job) (hcovers : final = true → l.skipped = false → Covers l job reduce)
    (h : Leaving job.maps l) :
    (notificarReduce final job reduce).Ok jobSpec
      (fun _ l' => l' = (l.reduceAdded reduce.finalNode reduce.finalNode).reduceSent reduce true) anyExit l := by
  unfold notificarReduce
  rw [Prog.ok_bind]
  refine ok_request ⟨hfree, hknown⟩ ?_
  rintro - l₁ ⟨name, hname, rfl⟩
  obtain rfl : name = reduce.finalNode := hname hknown
  rw [Prog.ok_bind]
  refine ok_request ⟨rfl, ⟨hbalanced.orders, hbalanced.mapsDone⟩, ?_⟩ ?_
  · intro hfinal hskipped
    have hall := hcovers hfinal hskipped
    exact ⟨hall.listed, hall.orders⟩
  · rintro through l₂ rfl
    cases through with
    | true => rfl
    | false =>
      have hdying : Leaving job.maps ((l.reduceAdded reduce.finalNode reduce.finalNode).reduceSent reduce false) :=
        h.of_same rfl rfl rfl rfl
      rw [if_neg Bool.false_ne_true]
      exact ok_leave hdying .died

/-- The nodes of a reply are updated: nothing is written down of it. -/
theorem ok_updateNodes (reply : List (List FsCopy)) (l : Talk) :
    (Prog.iterate (Prog.iterate fun c : FsCopy => request (.updateNodes c.nodeId c.nodeIp c.nodePort)) reply).Ok jobSpec
      (fun _ l' => l' = l) anyExit l := by
  refine Prog.ok_iterate (K := fun _ q => q = l) reply ?_ rfl
  rintro - copies - l₁ - rfl
  refine Prog.ok_iterate (K := fun _ q => q = l₁) copies ?_ rfl
  rintro - c - l₂ - rfl
  exact ok_request trivial fun _ l₃ h => h

/-- `requestFileBlocks`: the copies of the reply are added to the file. -/
theorem ok_requestFileBlocks (site : Site) (file : File) (l : Talk) :
    (requestFileBlocks site file).Ok jobSpec (fun x l' => ∃ reply, l' = l.blocksGot site reply ∧
      x.1.blocks = file.blocks ++ reply.map fun copies => copies.map FsCopy.copy) anyExit l := by
  unfold requestFileBlocks
  rw [Prog.ok_bind]
  refine ok_request trivial ?_
  rintro buffer l₁ rfl
  rw [Prog.ok_bind]
  refine (ok_updateNodes (fileBlocksOf buffer) _).imp ?_
  rintro - l₂ rfl
  exact ⟨fileBlocksOf buffer, rfl, rfl⟩

/-- The files of a job whose map is planned again: nothing is written down of their blocks. -/
theorem ok_requestBlocks_replan (files : List File) (l : Talk) :
    (requestBlocks .replan files).Ok jobSpec (fun _ l' => l' = l) anyExit l := by
  unfold requestBlocks
  refine Prog.ok_foldlM (K := fun _ _ q => q = l) files ?_ rfl
  rintro - file - x l₁ - rfl
  rw [Prog.ok_bind]
  refine (ok_requestFileBlocks .replan file l₁).imp ?_
  rintro y l₂ ⟨reply, hl₂, -⟩
  have hsite : l₁.blocksGot .replan reply = l₁ := if_neg (by decide)
  rw [hsite] at hl₂
  exact hl₂

/-- **The files of a job that is planned**: their blocks are those of the replies, in order. -/
theorem ok_requestBlocks_plan (files : List File) (hfiles : ∀ file ∈ files, file.blocks = []) (hl : l.blocks = []) :
    (requestBlocks .plan files).Ok jobSpec (fun x l' => ∃ reply, l' = { l with blocks := reply } ∧
      x.1.flatMap File.blocks = reply.map fun copies => copies.map FsCopy.copy) anyExit l := by
  unfold requestBlocks
  refine Prog.ok_foldlM (K := fun _ (x : List File × Bool) l' => ∃ reply, l' = { l with blocks := reply } ∧
    x.1.flatMap File.blocks = reply.map fun copies => copies.map FsCopy.copy) files ?_ ?_
  swap
  · exact ⟨[], by rw [← hl], rfl⟩
  rintro done file rest x l₁ hsplit ⟨reply, rfl, hblocks⟩
  have hfile : file.blocks = [] := hfiles file (by rw [← hsplit]; simp)
  rw [Prog.ok_bind]
  refine (ok_requestFileBlocks .plan file _).imp ?_
  rintro y l₂ ⟨more, rfl, hmore⟩
  refine ⟨reply ++ more, if_pos rfl, ?_⟩
  rw [List.flatMap_append, hblocks, List.map_append, List.flatMap_singleton, hmore, hfile, List.nil_append]

/-! ## Maps only -/

/-- The requests that plan a reduce by the maps, or order one. -/
def Req.isRound : Req → Bool
  | .selectMoreTemps _ | .sendReduce _ _ _ => true
  | _ => false

/-- The requests of a thread that is about its maps. -/
abbrev MapSide (p : JobProg α) : Prop := p.Only fun r => r.isRound = false

/-- The requests of a thread that orders no reduce. -/
abbrev NoReduce (p : JobProg α) : Prop := p.Only fun r => r.isReduceOrder = false

theorem isReduceOrder_of_isRound {r : Req} (h : r.isRound = false) : r.isReduceOrder = false := by
  cases r with
  | sendReduce => cases h
  | _ => rfl

/-- A thread that is about its maps orders no reduce. -/
theorem noReduce_of_mapSide {p : JobProg α} (hp : MapSide p) : NoReduce p := hp.mono fun _ => isReduceOrder_of_isRound

theorem only_request {r : Req} (h : r.isRound = false) : MapSide (request r) := ⟨h, fun _ => trivial⟩

theorem only_removeMaps (site : Removal) (maps : List Map) : MapSide (removeMaps site maps) :=
  Prog.only_iterate (fun _ => only_request rfl) maps

theorem only_leave {freed : Bool} (job : Job) (exit : Exit) : MapSide (leave job exit freed : JobProg α) :=
  Prog.only_bind (only_freeJob (only_removeMaps .free job.maps)) fun _ =>
    Prog.only_bind (only_request rfl) fun _ => trivial

theorem only_notifFileUnavailable {freed : Bool} (job : Job) : MapSide (notifFileUnavailable job freed : JobProg α) :=
  Prog.only_bind (only_request rfl) fun _ => only_leave job .unavailable

theorem only_notificarMap (site : Site) (job : Job) (map : Map) : MapSide (notificarMap site job map) := by
  refine Prog.only_bind (only_request rfl) fun through => ?_
  split
  · trivial
  · exact only_leave job .died

theorem only_requestFileBlocks (site : Site) (file : File) : MapSide (requestFileBlocks site file) := by
  refine Prog.only_bind (only_request rfl) fun buffer => Prog.only_bind ?_ fun _ => trivial
  exact Prog.only_iterate (Prog.only_iterate fun _ => only_request rfl) (fileBlocksOf buffer)

theorem only_requestBlocks (site : Site) (files : List File) : MapSide (requestBlocks site files) := by
  refine Prog.only_foldlM (fun x file => ?_) files _
  exact Prog.only_bind (only_requestFileBlocks site file) fun y => trivial

end Mdfs.MaRTA
