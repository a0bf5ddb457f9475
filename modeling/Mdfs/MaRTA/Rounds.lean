import Mdfs.MaRTA.Partition
import Mdfs.MaRTA.Placement

/-!
# What a job orders, round after round

Beside the accounts of its orders a job keeps what it needs to plan them again: the nodes of
its maps are nodes that it has read, and each map is as it was last ordered (`Kept`). While
no map was found without an active copy, its reduces are those of its partial reduces. This
does not depend on what is outstanding, so it holds of every job.

* `Turn.kept`: what a request keeps, and what only one kind of request changes.
* `rounds_acceptJob`: `acceptJob` keeps to it.
-/

namespace Mdfs.MaRTA

open Lib Wire

/-! ## The last order of a map -/

def lastOrder (history : List Event) (id : UInt16) : Option Map := (lastOf history id).map Prod.fst

variable {history : List Event} {id : UInt16} {e : Event} {m : Map}

theorem lastOrder_append_map : lastOrder (history ++ [.order (.map m)]) id = if m.id = id then some m
    else lastOrder history id := by
  unfold lastOrder
  rw [lastOf_append]
  change Option.map Prod.fst (if m.id = id then some (m, none) else lastOf history id) = _
  split
  · rfl
  · rfl

/-- Only the order of a map changes it. -/
theorem lastOrder_append (h : e.isMapOrder = false) : lastOrder (history ++ [e]) id = lastOrder history id := by
  unfold lastOrder
  rw [lastOf_append]
  rcases e with (m | r) | (⟨i, result⟩ | ⟨i, failed⟩)
  · cases h
  · rfl
  · change Option.map Prod.fst (if i = id then (lastOf history id).map (fun y => (y.1, some result)) else _) = _
    split
    · rw [Option.map_map]
      rfl
    · rfl
  · rfl

/-! ## What a job may order -/

/-- The requests that order a map. -/
def Req.sendsMap : Req → Bool
  | .sendMap _ _ => true
  | _ => false

/-- The requests of `rePlanMap` that may find no active copy. -/
def Req.selectsAgain : Req → Bool
  | .selectNode .replan _ => true
  | _ => false

/-- The requests that the specification is about. -/
def Req.isChoice : Req → Bool
  | .sendMap _ _ | .selectNode .replan _ | .selectFinalNode _ | .sendReduce _ _ _ | .sendDie _ => true
  | _ => false

/-- What a reduce that is ordered is for: a partial one is one of those that the maps are
partitioned into, and the final one of a job with a combiner is for the temporals of these. -/
def Orders (final : Bool) (job : Job) (reduce : Reduce) : Prop :=
  (final = false → Partition job.maps job.partialReduces ∧ reduce ∈ job.partialReduces) ∧
    (final = true → job.combiner = true → reduce.temps = job.partialReduces.map reduceToTemporal)

/-- A reduce on the node that was read last. -/
def OnLastRead (l : Talk) (reduce : Reduce) : Prop :=
  ∃ n, l.shown.getLast? = some (n, ⟨reduce.finalNode, reduce.nodeIP, reduce.nodePort⟩)

/-- What has to hold where a job goes on. -/
def MayGoOn (l : Talk) : Req → Prop
  | .sendMap .replan map => l.blocks.length < 2 ^ 16 → ∃ m n info, lastOrder l.history map.id = some m ∧
      m.copies = map.copies ∧ l.Knows m.nodeName ∧ l.chosen = some (n, map.numBlock, map.copies) ∧ (n, info) ∈ l.shown ∧
      info.name = map.nodeName
  | .selectFinalNode reduces => ∀ reduce ∈ reduces, l.Knows reduce.finalNode
  | .sendReduce final job reduce => l.stranded = false ∧ (final = true → OnLastRead l reduce) ∧ Orders final job reduce
  | .sendDie result => l.stranded = true → result = COMMAND_RESULT_FILEUNAVAILABLE
  | _ => True

/-- **The specification of a job** as to its rounds. -/
def roundSpec : Spec Resp Talk := ⟨MayGoOn, Turn⟩

variable {l l' : Talk} {α : Type} {Q : α → Talk → Prop} {job job' : Job} {r : Req} {x : Resp r}

/-- The requests outside of a choice. -/
abbrev Plain (p : JobProg α) : Prop := p.Only fun r => r.isChoice = false

theorem mayGoOn_plain (h : r.isChoice = false) : MayGoOn l r := by
  cases r with
  | sendMap | selectFinalNode | sendReduce | sendDie => cases h
  | _ => trivial

/-- A request outside of a choice orders no map and finds none without an active copy. -/
theorem plain_of_isChoice (h : r.isChoice = false) : r.sendsMap = false ∧ r.selectsAgain = false := by
  cases r with
  | sendMap => cases h
  | selectNode site copies =>
    cases site with
    | plan => exact ⟨rfl, rfl⟩
    | replan => cases h
  | _ => exact ⟨rfl, rfl⟩

theorem rounds_request {Q : Resp r → Talk → Prop} (hmay : MayGoOn l r) (hQ : ∀ x l', Turn l r x l' → Q x l') :
    (request r).Ok roundSpec Q anyExit l := ⟨hmay, hQ⟩

/-- **What a request keeps**, and what only one kind of request changes. -/
theorem Turn.kept (h : Turn l r x l') : l.shown ⊆ l'.shown ∧ l.blocks.length ≤ l'.blocks.length ∧
    (r.sendsMap = false → ∀ id, lastOrder l'.history id = lastOrder l.history id) ∧
    (r.selectsAgain = false → l'.stranded = l.stranded) := by
  refine ⟨?_, h.grows.2.2.1, ?_, ?_⟩
  · cases hr : r.sees with
    | false => exact (h.unseen hr).2.1 ▸ List.Subset.refl _
    | true =>
      cases r with
      | fileBlocks site path => subst h; cases site <;> exact List.Subset.refl _
      | selectNode site copies => subst h; cases x <;> exact List.Subset.refl _
      | readNode n => obtain ⟨-, rfl⟩ := h; exact List.subset_append_left _ _
      | selectFinalNode reduces => obtain ⟨n, rfl⟩ := h; exact List.subset_append_left _ _
      | _ => cases hr
  · intro hr id
    cases r with
    | sendMap => cases hr
    | fileBlocks site path => subst h; cases site <;> rfl
    | selectNode site copies => subst h; cases x <;> rfl
    | recv =>
      rcases h with ⟨-, rfl⟩ | ⟨i, o, failed, -, -, rfl⟩
      · rfl
      · exact lastOrder_append rfl
    | sendReduce final job reduce =>
      subst h
      cases x with
      | true => exact lastOrder_append rfl
      | false => rfl
    | listAddMap n numBlock => obtain ⟨name, rfl⟩ := h; rfl
    | readNode n => obtain ⟨-, rfl⟩ := h; rfl
    | removeMapNode site nodeName numBlock => obtain ⟨name, -, rfl⟩ := h; rfl
    | selectFinalNode reduces => obtain ⟨n, rfl⟩ := h; rfl
    | addReduceNode finalNode => obtain ⟨name, -, rfl⟩ := h; rfl
    | removeReduceNode finalNode => obtain ⟨name, -, rfl⟩ := h; rfl
    | mark point job => subst h; cases point <;> rfl
    | _ => subst h; rfl
  · intro hr
    cases r with
    | fileBlocks site path => subst h; cases site <;> rfl
    | selectNode site copies =>
      cases site with
      | replan => cases hr
      | plan =>
        subst h
        cases x with
        | none => exact Bool.or_false _
        | some y => rfl
    | recv =>
      rcases h with ⟨-, rfl⟩ | ⟨i, o, failed, -, -, rfl⟩
      · rfl
      · rfl
    | sendMap site map => subst h; cases x <;> rfl
    | sendReduce final job reduce => subst h; cases x <;> rfl
    | listAddMap n numBlock => obtain ⟨name, rfl⟩ := h; rfl
    | readNode n => obtain ⟨-, rfl⟩ := h; rfl
    | removeMapNode site nodeName numBlock => obtain ⟨name, -, rfl⟩ := h; rfl
    | selectFinalNode reduces => obtain ⟨n, rfl⟩ := h; rfl
    | addReduceNode finalNode => obtain ⟨name, -, rfl⟩ := h; rfl
    | removeReduceNode finalNode => obtain ⟨name, -, rfl⟩ := h; rfl
    | mark point job => subst h; cases point <;> rfl
    | _ => subst h; rfl

/-! ## What a job keeps -/

/-- **The maps of a job**: their nodes were read, and each is as it was last ordered. -/
structure Kept (job : Job) (l : Talk) : Prop where
  known : ∀ m ∈ job.maps, l.Knows m.nodeName
  room : job.maps.length ≤ l.blocks.length
  ordered : l.blocks.length < 2 ^ 16 → ∀ (i : ℕ) (m : Map), job.maps[i]? = some m → m.id = i.toUInt16 ∧
    lastOrder l.history m.id = some { m with done := false }

theorem Talk.Knows.mono {name : CStr} (h : l.Knows name) (hshown : l.shown ⊆ l'.shown) : l'.Knows name := by
  obtain ⟨x, hx, hname⟩ := h
  exact ⟨x, hshown hx, hname⟩

namespace Kept

variable {i : ℕ}

/-- A request that orders no map. -/
theorem turn (h : Kept job l) (hturn : Turn l r x l') (hr : r.sendsMap = false) : Kept job l' := by
  obtain ⟨hshown, hblocks, horders, -⟩ := hturn.kept
  refine ⟨fun m hm => (h.known m hm).mono hshown, h.room.trans hblocks, ?_⟩
  intro hsmall i m hm
  rw [horders hr]
  exact h.ordered (hblocks.trans_lt hsmall) i m hm

theorem of_maps (h : Kept job l) (hmaps : job'.maps = job.maps) : Kept job' l := by
  refine ⟨?_, ?_, ?_⟩
  · rw [hmaps]
    exact h.known
  · rw [hmaps]
    exact h.room
  · rw [hmaps]
    exact h.ordered

/-- The ids of the maps are their places. -/
theorem id_inj (h : Kept job l) (hsmall : l.blocks.length < 2 ^ 16) {j : ℕ} {m' : Map} (hm : job.maps[i]? = some m)
    (hm' : job.maps[j]? = some m') (hid : m'.id = m.id) : j = i := by
  obtain ⟨hi, -⟩ := List.getElem?_eq_some_iff.1 hm
  obtain ⟨hj, -⟩ := List.getElem?_eq_some_iff.1 hm'
  have hroom := h.room
  have hnat := congrArg UInt16.toNat hid
  rw [(h.ordered hsmall i m hm).1, (h.ordered hsmall j m' hm').1, toNat_toUInt16 (by omega),
    toNat_toUInt16 (by omega)] at hnat
  exact hnat

/-- **A map is ordered again.** -/
theorem again (h : Kept job l) (map : Map) (hm : job.maps[i]? = some m) (hid : map.id = m.id) (hdone : map.done = false)
    (hknown : l.Knows map.nodeName) (site : Site) :
      Kept { job with maps := job.maps.set i map } (l.mapSent site map true) := by
  obtain ⟨hi, -⟩ := List.getElem?_eq_some_iff.1 hm
  refine ⟨?_, ?_, ?_⟩
  · intro m' hm'
    rcases List.mem_or_eq_of_mem_set hm' with hm' | rfl
    · exact h.known m' hm'
    · exact hknown
  · change (job.maps.set i map).length ≤ l.blocks.length
    rw [List.length_set]
    exact h.room
  · intro hsmall j m' hm'
    change m'.id = j.toUInt16 ∧ lastOrder (l.history ++ [.order (.map map)]) m'.id = _
    rw [lastOrder_append_map]
    by_cases hij : i = j
    · subst hij
      rw [List.getElem?_set_self hi, Option.some.injEq] at hm'
      subst hm'
      have hself : ({ map with done := false } : Map) = map := by rw [← hdone]
      rw [if_pos rfl, hself]
      exact ⟨hid.trans (h.ordered hsmall i m hm).1, rfl⟩
    · rw [List.getElem?_set_ne hij] at hm'
      have hne : map.id ≠ m'.id := fun hsame => hij (h.id_inj hsmall hm hm' (hsame.symm.trans hid)).symm
      rw [if_neg hne]
      exact h.ordered hsmall j m' hm'

/-- **A map is ordered for the first time.** -/
theorem append (h : Kept job l) {map : Map} (hid : map.id = job.maps.length.toUInt16) (hdone : map.done = false)
    (hknown : l.Knows map.nodeName) (hroom : job.maps.length < l.blocks.length) (site : Site) :
    Kept { job with maps := job.maps ++ [map] } (l.mapSent site map true) := by
  refine ⟨?_, ?_, ?_⟩
  · intro m' hm'
    rcases List.mem_append.1 hm' with hm' | hm'
    · exact h.known m' hm'
    · rw [List.mem_singleton.1 hm']
      exact hknown
  · change (job.maps ++ [map]).length ≤ l.blocks.length
    rw [List.length_append, List.length_singleton]
    exact hroom
  · intro hsmall j m' hm'
    have hsmall : l.blocks.length < 2 ^ 16 := hsmall
    change m'.id = j.toUInt16 ∧ lastOrder (l.history ++ [.order (.map map)]) m'.id = _
    rw [lastOrder_append_map]
    rcases Nat.lt_or_ge j job.maps.length with hj | hj
    · rw [List.getElem?_append_left hj] at hm'
      obtain ⟨hplace, hlast⟩ := h.ordered hsmall j m' hm'
      have hne : map.id ≠ m'.id := by
        intro hsame
        have hnat := congrArg UInt16.toNat hsame
        rw [hid, hplace, toNat_toUInt16 (by omega), toNat_toUInt16 (by omega)] at hnat
        omega
      rw [if_neg hne]
      exact ⟨hplace, hlast⟩
    · rw [List.getElem?_append_right hj] at hm'
      obtain ⟨hzero, hget⟩ := List.getElem?_eq_some_iff.1 hm'
      rw [List.length_singleton] at hzero
      have hplace : j = job.maps.length := by omega
      rw [List.getElem_singleton] at hget
      subst hget
      have hself : ({ map with done := false } : Map) = map := by rw [← hdone]
      rw [if_pos rfl, hself, hplace]
      exact ⟨hid, rfl⟩

/-- The success of a map is noted. -/
theorem done (h : Kept job l) (hm : job.maps[i]? = some m) (mapsDone : UInt16) :
    Kept { job with maps := job.maps.set i { m with done := true }, mapsDone } l := by
  obtain ⟨hi, hget⟩ := List.getElem?_eq_some_iff.1 hm
  refine ⟨?_, ?_, ?_⟩
  · intro m' hm'
    rcases List.mem_or_eq_of_mem_set hm' with hm' | rfl
    · exact h.known m' hm'
    · exact h.known m (List.mem_of_getElem? hm)
  · change (job.maps.set i _).length ≤ l.blocks.length
    rw [List.length_set]
    exact h.room
  · intro hsmall j m' hm'
    by_cases hij : i = j
    · subst hij
      rw [List.getElem?_set_self hi, Option.some.injEq] at hm'
      subst hm'
      exact h.ordered hsmall i m hm
    · rw [List.getElem?_set_ne hij] at hm'
      exact h.ordered hsmall j m' hm'

end Kept

/-! ## Requests and orders -/

/-- **A thread outside of a choice** keeps its maps, and finds no map without an active copy. -/
theorem rounds_plain {p : JobProg α} (hp : Plain p) (h : Kept job l) :
    p.Ok roundSpec (fun _ l' => Kept job l' ∧ l'.stranded = l.stranded ∧ l.shown ⊆ l'.shown) anyExit l := by
  refine Prog.ok_mono (fun _ _ h => h) (fun _ _ _ => trivial)
    (Prog.Only.keeps (I := fun l' => Kept job l' ∧ l'.stranded = l.stranded ∧ l.shown ⊆ l'.shown)
      hp ?_ ⟨h, rfl, List.Subset.refl _⟩)
  rintro l₁ r hr ⟨hkept, hstranded, hshown⟩
  refine ⟨mayGoOn_plain hr, fun x l₂ hturn => ?_⟩
  obtain ⟨hsends, hselects⟩ := plain_of_isChoice hr
  exact ⟨hkept.turn hturn hsends, (hturn.kept.2.2.2 hselects).trans hstranded, List.Subset.trans hshown hturn.kept.1⟩

/-- What is known of it from the accounts of the job. -/
theorem rounds_of_ok {p : JobProg α} (h : p.Ok jobSpec Q anyExit l) (hp : Plain p) : p.Ok roundSpec Q anyExit l := by
  have hpost : ∀ l r (x : Resp r) l', roundSpec.post l r x l' → jobSpec.post l r x l' := fun _ _ _ _ hturn => hturn
  exact Prog.Ok.of_only (fun _ _ hr => mayGoOn_plain hr) hpost h hp

theorem plain_request (h : r.isChoice = false) : Plain (request r) := ⟨h, fun _ => trivial⟩

theorem plain_removeMaps (site : Removal) (maps : List Map) : Plain (removeMaps site maps) :=
  Prog.only_iterate (fun _ => plain_request rfl) maps

/-- A thread that leaves does not come back. -/
theorem rounds_leave {freed : Bool} (job : Job) (exit : Exit) :
    (leave job exit freed : JobProg α).Ok roundSpec Q anyExit l := by
  have hremove : (removeMaps .free job.maps).Always roundSpec :=
    Prog.always_iterate job.maps fun _ _ => Prog.always_ask (fun _ => trivial) fun _ _ _ _ _ => trivial
  unfold leave
  rw [Prog.ok_bind]
  refine (ok_freeJob (hremove l) fun _ _ _ => trivial).imp fun _ l₁ _ => ?_
  rw [Prog.ok_bind]
  exact ⟨trivial, fun _ _ _ => trivial⟩

/-- **The file is reported unavailable.** -/
theorem rounds_notifFileUnavailable {freed : Bool} (job : Job) :
    (notifFileUnavailable job freed : JobProg α).Ok roundSpec Q anyExit l := by
  unfold notifFileUnavailable
  rw [Prog.ok_bind]
  exact rounds_request (fun _ => rfl) fun _ l₁ _ => rounds_leave job .unavailable

theorem rounds_notificarMap {site : Site} {map : Map} (hmay : MayGoOn l (.sendMap site map)) :
    (notificarMap site job map).Ok roundSpec (fun _ l' => l' = l.mapSent site map true) anyExit l := by
  unfold notificarMap
  rw [Prog.ok_bind]
  refine rounds_request hmay ?_
  rintro through l₁ rfl
  cases through with
  | true => rfl
  | false =>
    rw [if_neg Bool.false_ne_true]
    exact rounds_leave job .died

theorem plain_requestFileBlocks (site : Site) (file : File) : Plain (requestFileBlocks site file) := by
  refine Prog.only_bind (plain_request rfl) fun buffer => Prog.only_bind ?_ fun _ => trivial
  exact Prog.only_iterate (Prog.only_iterate fun _ => plain_request rfl) (fileBlocksOf buffer)

theorem plain_requestBlocks (site : Site) (files : List File) : Plain (requestBlocks site files) := by
  refine Prog.only_foldlM (fun x file => ?_) files _
  exact Prog.only_bind (plain_requestFileBlocks site file) fun y => trivial

/-- **`notificarReduce`** of a job that can order reduces. -/
theorem rounds_notificarReduce {final : Bool} {reduce : Reduce} (h : Kept job l) (hstranded : l.stranded = false)
    (hread : final = true → OnLastRead l reduce) (horders : Orders final job reduce) :
    (notificarReduce final job reduce).Ok roundSpec (fun _ l' => Kept job l' ∧ l'.stranded = false) anyExit l := by
  unfold notificarReduce
  rw [Prog.ok_bind]
  refine rounds_request trivial fun _ l₁ hadded => ?_
  have hstranded₁ : l₁.stranded = false := (hadded.kept.2.2.2 rfl).trans hstranded
  have hread₁ : final = true → OnLastRead l₁ reduce := by
    unfold OnLastRead
    rw [(hadded.unseen rfl).2.1]
    exact hread
  rw [Prog.ok_bind]
  refine rounds_request ⟨hstranded₁, hread₁, horders⟩ fun through l₂ hsent => ?_
  have hstranded₂ : l₂.stranded = false := (hsent.kept.2.2.2 rfl).trans hstranded₁
  cases through with
  | true => exact ⟨(h.turn hadded rfl).turn hsent rfl, hstranded₂⟩
  | false =>
    rw [if_neg Bool.false_ne_true]
    exact rounds_leave job .died

/-! ## `MapPlanning.c` and `JobConnection.c` -/

/-- A thread that was not stranded is not. -/
def NotStranded (l l' : Talk) : Prop := l.stranded = false → l'.stranded = false

theorem NotStranded.of_eq (h : l'.stranded = l.stranded) : NotStranded l l' := fun hl => h.trans hl

/-- **What `recvResult` keeps.** -/
def RecvKept (recv : Recv) : Prop := ∀ job l, Kept job l →
  (recv job).Ok roundSpec (fun x l' => Kept x.1 l' ∧ job.Keeps x.1 ∧ NotStranded l l') anyExit l

variable {recv : Recv} {i : ℕ}

/-- **`rePlanMap`** orders the map again, and reports that no copy is active otherwise. -/
theorem rounds_rePlanMap (hrecv : RecvKept recv) (h : Kept job l) (i : ℕ) :
    (rePlanMap recv job i).Ok roundSpec (fun x l' => Kept x.1 l' ∧ job.Keeps x.1 ∧
      (x.2 = true → NotStranded l l')) anyExit l := by
  unfold rePlanMap
  rw [Prog.ok_bind]
  refine (rounds_plain (plain_requestBlocks .replan job.files) h).imp ?_
  rintro files l₁ ⟨hkept₁, hstranded₁, -⟩
  dsimp only
  cases hm : job.maps[i]? with
  | none => trivial
  | some m =>
    dsimp only
    rw [Prog.ok_bind]
    refine rounds_request trivial fun x l₂ hsel => ?_
    have hkept₂ := hkept₁.turn hsel rfl
    rcases x with _ | ⟨n, numBlock⟩
    · exact ⟨hkept₂.of_maps rfl, ⟨rfl, rfl, rfl⟩, fun hnot => by cases hnot⟩
    dsimp only
    rw [Prog.ok_bind]
    refine rounds_request trivial fun node l₃ hread => ?_
    have hkept₃ := hkept₂.turn hread rfl
    rw [Prog.ok_bind]
    refine rounds_request trivial ?_
    rintro time l₄ rfl
    obtain ⟨-, rfl⟩ := hread
    obtain rfl : l₂ = l₁.selected .replan m.copies (some (n, numBlock)) := hsel
    set q := (l₁.selected .replan m.copies (some (n, numBlock))).read n node with hq
    set map := m.again job.id node numBlock time with hmap
    have hshown : (n, node) ∈ q.shown := List.mem_append_right _ List.mem_cons_self
    -- the map was last ordered as it is in the job
    have hmay : MayGoOn q (.sendMap .replan map) := by
      intro hsmall
      exact ⟨_, n, node, (hkept₃.ordered hsmall i m hm).2, rfl, hkept₃.known m (List.mem_of_getElem? hm), rfl,
        hshown, rfl⟩
    rw [Prog.ok_bind]
    refine (rounds_notificarMap hmay).imp ?_
    rintro - l₅ rfl
    have hkept₅ := hkept₃.again map hm rfl rfl ⟨(n, node), hshown, rfl⟩ .replan
    rw [Prog.ok_bind]
    refine Prog.Ok.imp (hrecv _ _ (hkept₅.of_maps rfl)) ?_
    rintro y l₆ ⟨hkept₆, hkeeps, hstranded₆⟩
    exact ⟨hkept₆, ⟨hkeeps.combiner, hkeeps.partialReduces, hkeeps.finalReduce⟩,
      fun _ hl => hstranded₆ (hstranded₁.trans hl)⟩

/-- **The result of a map**: its success is noted, or it is planned again. -/
theorem rounds_desserializeMapResult (hrecv : RecvKept recv) (h : Kept job l) (idMap : UInt16) (result : Bool) :
    (desserializeMapResult recv job idMap result).Ok roundSpec (fun job' l' => Kept job' l' ∧ job.Keeps job' ∧
      NotStranded l l') anyExit l := by
  unfold desserializeMapResult
  split
  · trivial
  rename_i i _
  cases hm : job.maps[i]? with
  | none => trivial
  | some m =>
    dsimp only
    rw [Prog.ok_bind]
    refine rounds_request trivial fun _ l₁ hremoved => ?_
    have hkept₁ := h.turn hremoved rfl
    have hstranded₁ := hremoved.kept.2.2.2 rfl
    split
    · exact ⟨hkept₁.done hm (job.mapsDone + 1), ⟨rfl, rfl, rfl⟩, .of_eq hstranded₁⟩
    · rw [Prog.ok_bind]
      refine rounds_request trivial fun _ l₂ hdeactivated => ?_
      have hkept₂ := hkept₁.turn hdeactivated rfl
      have hstranded₂ := hdeactivated.kept.2.2.2 rfl
      rw [Prog.ok_bind]
      refine (rounds_rePlanMap hrecv hkept₂ i).imp ?_
      rintro y l₃ ⟨hkept₃, hkeeps, hstranded₃⟩
      split
      · rename_i hagain
        exact ⟨hkept₃, hkeeps, fun hl => hstranded₃ hagain (hstranded₂.trans (hstranded₁.trans hl))⟩
      · exact rounds_notifFileUnavailable y.1

/-- **A round of `recvResult`.** -/
theorem recvKept_recvResult (rounds : ℕ) : RecvKept (recvResult rounds) := by
  induction rounds with
  | zero => exact fun _ _ _ => trivial
  | succ rounds ih =>
    intro job l h
    rw [recvResult, Prog.ok_bind]
    refine rounds_request trivial fun x l₁ hrecv => ?_
    have hkept₁ := h.turn hrecv rfl
    have hstranded₁ := hrecv.kept.2.2.2 rfl
    split
    · exact rounds_leave job .died
    · rename_i idMap result
      rw [Prog.ok_bind]
      refine (rounds_desserializeMapResult ih hkept₁ idMap result).imp ?_
      rintro job₂ l₂ ⟨hkept₂, hkeeps, hstranded₂⟩
      exact ⟨hkept₂, hkeeps, fun hl => hstranded₂ (hstranded₁.trans hl)⟩
    · rename_i idReduce failed
      have hplain : Plain (desserializaReduceResult job idReduce failed) := by
        unfold desserializaReduceResult
        split
        · trivial
        · refine Prog.only_bind (plain_request rfl) fun _ => ?_
          split
          · trivial
          · exact Prog.only_bind (plain_request rfl) fun _ => trivial
      rw [Prog.ok_bind]
      refine (rounds_plain hplain hkept₁).imp ?_
      rintro nodeID l₂ ⟨hkept₂, hstranded₂, -⟩
      exact ⟨hkept₂, .refl job, .of_eq (hstranded₂.trans hstranded₁)⟩

/-- **A block is planned**, or skipped. -/
theorem rounds_mapPlanning {copies : List Copy} (left : ℕ) (h : Kept job l)
    (hroom : job.maps.length + (left + 1) ≤ l.blocks.length) :
    (mapPlanning job copies).Ok roundSpec (fun job' l' => Kept job' l' ∧ job'.maps.length + left ≤ l'.blocks.length ∧
      job.Keeps job' ∧ l'.stranded = l.stranded) anyExit l := by
  unfold mapPlanning
  rw [Prog.ok_bind]
  refine rounds_request trivial fun x l₁ hsel => ?_
  have hkept₁ := h.turn hsel rfl
  have hstranded₁ := hsel.kept.2.2.2 rfl
  have hblocks₁ := hsel.kept.2.1
  rcases x with _ | ⟨n, numBlock⟩
  · dsimp only
    rw [Prog.ok_bind]
    -- blocks are never forgotten
    have hgrows : ∀ l r (x : Resp r) l', l₁.blocks.length ≤ l.blocks.length → Turn l r x l' →
        l₁.blocks.length ≤ l'.blocks.length := fun l r x l' hl hturn => hl.trans hturn.kept.2.1
    refine ((rounds_plain (plain_removeMaps .skip job.maps) hkept₁).and_keeps (I := fun l => l₁.blocks.length ≤
      l.blocks.length)
      hgrows le_rfl).imp ?_
    rintro - l₂ ⟨⟨hkept₂, hstranded₂, -⟩, hblocks₂⟩
    exact ⟨hkept₂, by omega, .refl job, hstranded₂.trans hstranded₁⟩
  · dsimp only
    rw [Prog.ok_bind]
    refine rounds_request trivial fun _ l₂ hadded => ?_
    have hkept₂ := hkept₁.turn hadded rfl
    have hstranded₂ := hadded.kept.2.2.2 rfl
    have hblocks₂ := hadded.kept.2.1
    rw [Prog.ok_bind]
    refine rounds_request trivial fun node l₃ hread => ?_
    have hkept₃ := hkept₂.turn hread rfl
    have hstranded₃ := hread.kept.2.2.2 rfl
    have hblocks₃ := hread.kept.2.1
    have hknown : l₃.Knows node.name := by
      obtain ⟨-, rfl⟩ := hread
      exact ⟨(n, node), List.mem_append_right _ List.mem_cons_self, rfl⟩
    rw [Prog.ok_bind]
    refine rounds_request trivial ?_
    rintro time l₄ rfl
    rw [Prog.ok_bind]
    refine (rounds_notificarMap (show MayGoOn _ (.sendMap .plan _) from trivial)).imp ?_
    rintro - l₅ rfl
    refine ⟨hkept₃.append rfl rfl hknown (by omega) .plan, ?_, ⟨rfl, rfl, rfl⟩, ?_⟩
    · change (job.maps ++ [_]).length + left ≤ l₄.blocks.length
      rw [List.length_append, List.length_singleton]
      omega
    · exact hstranded₃.trans (hstranded₂.trans hstranded₁)

/-- **`planMaps`** plans each block of the files at most once. -/
theorem rounds_planMaps (hrecv : RecvKept recv) (h : job.New) :
    (planMaps recv job).Ok roundSpec (fun job' l' => Kept job' l' ∧ job.Keeps job' ∧ l'.stranded = false)
      anyExit .start := by
  unfold planMaps
  rw [Prog.ok_bind]
  refine (rounds_of_ok (ok_requestBlocks_plan job.files h.files rfl) (plain_requestBlocks .plan job.files)).imp ?_
  rintro files l₁ ⟨reply, rfl, hblocks⟩
  dsimp only
  split
  swap
  · exact rounds_notifFileUnavailable _
  set blocks := files.1.flatMap File.blocks with hblocks_def
  have hlen : blocks.length = reply.length := by rw [hblocks, List.length_map]
  have hnew : Kept { job with files := files.1 } { Talk.start with blocks := reply } := by
    refine ⟨?_, ?_, ?_⟩
    · intro m hm
      rw [h.maps] at hm
      exact absurd hm List.not_mem_nil
    · rw [h.maps]
      exact Nat.zero_le _
    · intro _ i m hm
      rw [h.maps] at hm
      cases hm
  rw [Prog.ok_bind]
  -- there is room for a map of every block that is left
  refine (Prog.ok_foldlM (K := fun done (job₁ : Job) l' => Kept job₁ l' ∧ job₁.maps.length + blocks.length ≤
    l'.blocks.length + done.length ∧ job.Keeps job₁ ∧ l'.stranded = false) blocks ?_ ?_).imp ?_
  · rintro done copies rest job₁ l₂ hsplit ⟨hkept, hroom, hkeeps, hstranded⟩
    have hsum := congrArg List.length hsplit
    rw [List.length_append, List.length_cons] at hsum
    refine (rounds_mapPlanning rest.length hkept (by omega)).imp ?_
    rintro job₂ l₃ ⟨hkept₃, hroom₃, hkeeps₃, hstranded₃⟩
    rw [List.length_append, List.length_singleton]
    exact ⟨hkept₃, by omega, hkeeps.trans hkeeps₃, hstranded₃.trans hstranded⟩
  · refine ⟨hnew, ?_, ⟨rfl, rfl, rfl⟩, rfl⟩
    change job.maps.length + blocks.length ≤ reply.length + [].length
    rw [h.maps, hlen, List.length_nil]
    omega
  · rintro job₁ l₂ ⟨hkept, -, hkeeps, hstranded⟩
    rw [Prog.ok_bind]
    refine (Prog.ok_foldlM (K := fun _ (job₂ : Job) l' => Kept job₂ l' ∧ job.Keeps job₂ ∧ l'.stranded = false)
      (List.range job₁.maps.length) ?_ ⟨hkept, hkeeps, hstranded⟩).imp ?_
    · rintro done n rest job₂ l₃ - ⟨hkept₃, hkeeps₃, hstranded₃⟩
      rw [Prog.ok_bind]
      refine (hrecv job₂ l₃ hkept₃).imp ?_
      rintro x l₄ ⟨hkept₄, hkeeps₄, hstranded₄⟩
      exact ⟨hkept₄, hkeeps₃.trans hkeeps₄, hstranded₄ hstranded₃⟩
    · rintro job₂ l₃ ⟨hkept₃, hkeeps₃, hstranded₃⟩
      rw [Prog.ok_bind]
      refine rounds_request trivial fun _ l₄ hmarked => ?_
      exact ⟨hkept₃.turn hmarked rfl, hkeeps₃, (hmarked.kept.2.2.2 rfl).trans hstranded₃⟩

/-! ## `ReducePlanning.c` -/

/-- **`rePlanMapsFromNode`** plans the maps of a node again; a block without an active copy is
reported. -/
theorem rounds_rePlanMapsFromNode (hrecv : RecvKept recv) (h : Kept job l) (node : CStr) :
    (rePlanMapsFromNode recv job node).Ok roundSpec (fun x l' => Kept x.1 l' ∧ job.Keeps x.1 ∧
      (x.2 = true → NotStranded l l'))
      anyExit l := by
  unfold rePlanMapsFromNode
  rw [Prog.ok_bind]
  refine rounds_request trivial fun _ l₁ hmarked => ?_
  have hstranded₁ := hmarked.kept.2.2.2 rfl
  rw [Prog.ok_bind]
  refine (Prog.ok_foldlM (K := fun _ (x : Job × Bool) l' => Kept x.1 l' ∧ job.Keeps x.1 ∧
    (x.2 = true → NotStranded l l'))
    (List.range job.maps.length) ?_ ?_).imp ?_
  · rintro done i rest x l₂ - ⟨hkept, hkeeps, hstranded⟩
    unfold rePlanByNode
    cases hm : x.1.maps[i]? with
    | none => exact ⟨hkept, hkeeps, hstranded⟩
    | some m =>
      dsimp only
      split
      · rw [Prog.ok_bind]
        have hundone : Kept { x.1 with mapsDone := x.1.mapsDone - 1 } l₂ := hkept.of_maps rfl
        refine (rounds_rePlanMap hrecv hundone i).imp ?_
        rintro y l₃ ⟨hkept₃, hkeeps₃, hstranded₃⟩
        refine ⟨hkept₃, hkeeps.trans ⟨hkeeps₃.combiner, hkeeps₃.partialReduces, hkeeps₃.finalReduce⟩, ?_⟩
        intro hboth hl
        obtain ⟨hx, hy⟩ := Bool.and_eq_true_iff.1 hboth
        exact hstranded₃ hy (hstranded hx hl)
      · exact ⟨hkept, hkeeps, hstranded⟩
  · exact ⟨h.turn hmarked rfl, .refl job, fun _ => .of_eq hstranded₁⟩
  · rintro x l₂ ⟨hkept, hkeeps, hstranded⟩
    split
    · rw [Prog.ok_bind]
      refine rounds_request trivial fun _ l₃ hreplanned => ?_
      exact ⟨hkept.turn hreplanned rfl, hkeeps, fun hx hl => (hreplanned.kept.2.2.2 rfl).trans (hstranded hx hl)⟩
    · exact ⟨hkept, hkeeps, hstranded⟩

/-- **The end of both loops**, of a job that was not stranded. -/
theorem rounds_finishFinalReduce (hrecv : RecvKept recv) (h : Kept job l) (hstranded : l.stranded = false) :
    (finishFinalReduce recv job).Ok roundSpec (fun x l' => Kept x.1 l' ∧ job.Keeps x.1 ∧ l'.stranded = false)
      anyExit l := by
  unfold finishFinalReduce
  rw [Prog.ok_bind]
  refine (hrecv job l h).imp ?_
  rintro ⟨job₁, fallenNode⟩ l₁ ⟨hkept₁, hkeeps₁, hstranded₁⟩
  have hnot : l₁.stranded = false := hstranded₁ hstranded
  cases fallenNode with
  | some name => exact ⟨hkept₁, hkeeps₁, hnot⟩
  | none =>
    dsimp only
    rw [Prog.ok_bind]
    unfold copyFinalTemporal
    rw [Prog.ok_bind]
    refine rounds_request trivial ?_
    rintro reply l₂ rfl
    split
    · rw [Prog.ok_bind]
      refine rounds_request (fun hlost => ?_) fun _ l₃ _ => rounds_leave job₁ .cantCopy
      rw [hnot] at hlost
      cases hlost
    · exact ⟨hkept₁, hkeeps₁, hnot⟩

/-- **The end of a round**: no block is stranded, and the job of the next round is the one whose maps
were planned again. -/
theorem rounds_awaitFinalReduce (hrecv : RecvKept recv) (clean : Job → Job) (h : Kept job l)
    (hstranded : l.stranded = false) :
    (awaitFinalReduce recv clean job).Ok roundSpec (fun x l' => l'.stranded = false ∧
      (x.2 = true → ∃ job', x.1 = clean job' ∧ Kept job' l' ∧ job'.combiner = job.combiner)) anyExit l := by
  unfold awaitFinalReduce
  rw [Prog.ok_bind]
  refine (rounds_finishFinalReduce hrecv h hstranded).imp ?_
  rintro ⟨job₁, fallenNode⟩ l₁ ⟨hkept₁, hkeeps₁, hstranded₁⟩
  cases fallenNode with
  | none => exact ⟨hstranded₁, fun hagain => by cases hagain⟩
  | some name =>
    dsimp only
    rw [Prog.ok_bind]
    refine (rounds_rePlanMapsFromNode hrecv hkept₁ name).imp ?_
    rintro ⟨job₂, again⟩ l₂ ⟨hkept₂, hkeeps₂, hstranded₂⟩
    cases again with
    | true =>
      rw [if_pos rfl]
      exact ⟨hstranded₂ rfl hstranded₁, fun _ => ⟨job₂, rfl, hkept₂, hkeeps₂.combiner.trans hkeeps₁.combiner⟩⟩
    | false =>
      rw [if_neg Bool.false_ne_true]
      exact rounds_notifFileUnavailable job₂

/-- **The final reduce is planned** on the node that was read last. -/
theorem rounds_planFinalReduce {n : ℕ} {node : NodeInfo} {temps : List Temp} (h : Kept job l)
    (hstranded : l.stranded = false) (hlast : l.shown.getLast? = some (n, node))
    (hlisted : job.combiner = true → job.finalReduce.temps ++ temps = job.partialReduces.map reduceToTemporal) :
    (planFinalReduce job node temps).Ok roundSpec (fun job' l' => Kept job' l' ∧ l'.stranded = false ∧
      job'.combiner = job.combiner) anyExit l := by
  unfold planFinalReduce
  rw [Prog.ok_bind]
  refine rounds_request trivial ?_
  rintro time l₁ rfl
  rw [Prog.ok_bind]
  refine Prog.Ok.imp (rounds_notificarReduce (h.of_maps rfl) hstranded (fun _ => ⟨n, hlast⟩)
    ⟨fun hpartial => absurd hpartial (by decide), fun _ => hlisted⟩) ?_
  rintro - l₂ ⟨hkept₂, hstranded₂⟩
  exact ⟨hkept₂, hstranded₂, rfl⟩

/-- **A round up to its order.** -/
theorem rounds_orderFinalReduce {freed : Bool} (h : Kept job l) (hstranded : l.stranded = false)
    (hcombiner : job.combiner = false) :
    (orderFinalReduce freed job).Ok roundSpec (fun job' l' => Kept job' l' ∧ l'.stranded = false ∧
      job'.combiner = job.combiner) anyExit l := by
  unfold orderFinalReduce
  rw [Prog.ok_bind]
  refine rounds_request trivial fun x l₁ hsel => ?_
  obtain rfl : l₁ = l := hsel
  rcases x with _ | n
  · exact rounds_notifFileUnavailable job
  dsimp only
  rw [Prog.ok_bind]
  refine rounds_request trivial fun node l₂ hread => ?_
  have hkept₂ := h.turn hread rfl
  have hstranded₂ := (hread.kept.2.2.2 rfl).trans hstranded
  have hlast : l₂.shown.getLast? = some (n, node) := by
    obtain ⟨-, rfl⟩ := hread
    exact List.getLast?_concat
  refine rounds_planFinalReduce hkept₂ hstranded₂ hlast fun hyes => ?_
  -- a job without a combiner has no partial reduces to cover
  exact absurd (hcombiner.symm.trans hyes) (by decide)

/-- **`noCombinerReducePlanning`** returns without a block that was stranded. -/
theorem rounds_noCombinerReducePlanning (hrecv : RecvKept recv) (rounds : ℕ) :
    ∀ {freed : Bool} {job : Job} {l : Talk}, Kept job l → l.stranded = false → job.combiner = false →
    (noCombinerReducePlanning recv rounds freed job).Ok roundSpec (fun _ l' => l'.stranded = false) anyExit l := by
  induction rounds with
  | zero => intro freed job l _ _ _; trivial
  | succ rounds ih =>
    intro freed job l h hstranded hcombiner
    unfold noCombinerReducePlanning
    rw [Prog.ok_bind]
    refine (rounds_orderFinalReduce h hstranded hcombiner).imp ?_
    rintro job₁ l₁ ⟨hkept₁, hstranded₁, hcombiner₁⟩
    rw [Prog.ok_bind]
    refine (rounds_awaitFinalReduce hrecv noCombinerClean hkept₁ hstranded₁).imp ?_
    rintro ⟨job₂, again⟩ l₂ ⟨hstranded₂, hagain⟩
    cases again with
    | true =>
      obtain ⟨job₃, rfl, hkept₃, hcombiner₃⟩ := hagain rfl
      exact ih (hkept₃.of_maps rfl) hstranded₂ (hcombiner₃.trans (hcombiner₁.trans hcombiner))
    | false => exact hstranded₂

/-- The nodes of the reduces were read. -/
def KnowsAll (reduces : List Reduce) (l : Talk) : Prop := ∀ reduce ∈ reduces, l.Knows reduce.finalNode

theorem KnowsAll.turn {reduces : List Reduce} (h : KnowsAll reduces l) (hturn : Turn l r x l') : KnowsAll reduces l' :=
  fun reduce hreduce => (h reduce hreduce).mono hturn.kept.1

theorem Partition.known {maps : List Map} {reduces : List Reduce} (h : Partition maps reduces)
    (hknown : ∀ m ∈ maps, l.Knows m.nodeName) : KnowsAll reduces l := by
  intro reduce hreduce
  obtain ⟨m, hm, hnode⟩ := h.groups.used reduce hreduce
  exact hnode ▸ hknown m hm

/-- **`combinerPartialsReducePlanning`** partitions the maps, and orders the reduces. -/
theorem rounds_combinerPartialsReducePlanning (h : Kept job l) (hstranded : l.stranded = false)
    (hnone : job.partialReduces = []) :
    (combinerPartialsReducePlanning job).Ok roundSpec (fun job' l' => Kept job' l' ∧ KnowsAll job'.partialReduces l' ∧
      l'.stranded = false ∧ job'.finalReduce = job.finalReduce) anyExit l := by
  unfold combinerPartialsReducePlanning
  rw [Prog.ok_bind, hnone]
  have htime : ∀ l', l' = l → MayGoOn l' .getTime ∧ ∀ time l'', Turn l' .getTime time l'' → l'' = l :=
    fun l' hl' => ⟨trivial, fun _ _ hturn => Eq.trans hturn hl'⟩
  refine (ok_partition (S := roundSpec) htime job.id job.maps rfl).imp ?_
  rintro reduces l₁ ⟨hpartition, rfl⟩
  have hkept : Kept { job with partialReduces := reduces } l₁ := h.of_maps rfl
  rw [Prog.ok_bind]
  refine (Prog.ok_iterate (K := fun _ l' => Kept { job with partialReduces := reduces } l' ∧ l'.stranded =
    false) reduces ?_
    ⟨hkept, hstranded⟩).imp ?_
  · rintro done reduce rest l₂ hsplit ⟨hkept₂, hstranded₂⟩
    have hmem : reduce ∈ reduces := hsplit ▸ List.mem_append_right done List.mem_cons_self
    exact rounds_notificarReduce hkept₂ hstranded₂ nofun ⟨fun _ => ⟨hpartition, hmem⟩, nofun⟩
  · rintro - l₂ ⟨hkept₂, hstranded₂⟩
    exact ⟨hkept₂, hpartition.known hkept₂.known, hstranded₂, rfl⟩

/-- **The maps of all fallen nodes are planned again.** -/
theorem rounds_replanMaps (hrecv : RecvKept recv) (h : Kept job l) (hstranded : l.stranded = false)
    (nodes : List CStr) :
    (nodes.foldlM (replanMaps recv) (job, true)).Ok roundSpec (fun x l' => Kept x.1 l' ∧ job.Keeps x.1 ∧
      (x.2 = true → l'.stranded = false)) anyExit l := by
  refine Prog.ok_foldlM (K := fun _ (x : Job × Bool) l' => Kept x.1 l' ∧ job.Keeps x.1 ∧
    (x.2 = true → l'.stranded = false))
    nodes ?_ ⟨h, .refl job, fun _ => hstranded⟩
  rintro done node rest x l₁ - ⟨hkept, hkeeps, hnot⟩
  unfold replanMaps
  rw [Prog.ok_bind]
  refine (rounds_rePlanMapsFromNode hrecv hkept node).imp ?_
  rintro y l₂ ⟨hkept₂, hkeeps₂, hnot₂⟩
  refine ⟨hkept₂, hkeeps.trans hkeeps₂, fun hboth => ?_⟩
  obtain ⟨hx, hy⟩ := Bool.and_eq_true_iff.1 hboth
  exact hnot₂ hy (hnot hx)

/-- **The inner loop of `combinerReducePlanning`** returns with reduces on nodes that were read. -/
theorem rounds_partialRounds (hrecv : RecvKept recv) (rounds : ℕ) : ∀ {job : Job} {l : Talk}, Kept job l →
    l.stranded = false → job.partialReduces = [] → job.finalReduce.temps = [] →
    (partialRounds recv rounds job).Ok roundSpec (fun job' l' => Kept job' l' ∧ KnowsAll job'.partialReduces l' ∧
      l'.stranded = false ∧ job'.finalReduce.temps = []) anyExit l := by
  induction rounds with
  | zero => intro job l _ _ _ _; trivial
  | succ rounds ih =>
    intro job l h hstranded hnone htemps
    unfold partialRounds
    rw [Prog.ok_bind]
    refine (rounds_combinerPartialsReducePlanning h hstranded hnone).imp ?_
    rintro job₁ l₁ ⟨hkept₁, hknown₁, hstranded₁, hfinal₁⟩
    rw [Prog.ok_bind]
    -- a result leaves the partial reduces as they are, and what was read stays read
    have hknows : ∀ l r (x : Resp r) l', KnowsAll job₁.partialReduces l → Turn l r x l' →
      KnowsAll job₁.partialReduces l' :=
      fun l r x l' hl hturn => hl.turn hturn
    refine (Prog.Ok.and_keeps (I := KnowsAll job₁.partialReduces)
      hknows (Prog.ok_foldlM (K := fun _ (x : Job × List CStr) l' =>
      Kept x.1 l' ∧ job₁.Keeps x.1 ∧ l'.stranded = false) (List.range job₁.partialReduces.length)
        ?_ ⟨hkept₁, .refl job₁, hstranded₁⟩)
      hknown₁).imp ?_
    · rintro done n rest x l₂ - ⟨hkept₂, hkeeps₂, hstranded₂⟩
      unfold recvPartial
      rw [Prog.ok_bind]
      refine (hrecv x.1 l₂ hkept₂).imp ?_
      rintro y l₃ ⟨hkept₃, hkeeps₃, hstranded₃⟩
      exact ⟨hkept₃, hkeeps₂.trans hkeeps₃, hstranded₃ hstranded₂⟩
    · rintro ⟨job₂, fallenNodes⟩ l₂ ⟨⟨hkept₂, hkeeps₂, hstranded₂⟩, hknown₂⟩
      have htemps₂ : job₂.finalReduce.temps = [] := by rw [hkeeps₂.finalReduce, hfinal₁, htemps]
      split
      · rw [← hkeeps₂.partialReduces] at hknown₂
        exact ⟨hkept₂, hknown₂, hstranded₂, htemps₂⟩
      · rw [Prog.ok_bind]
        refine (rounds_replanMaps hrecv hkept₂ hstranded₂ fallenNodes).imp ?_
        rintro ⟨job₃, again⟩ l₃ ⟨hkept₃, hkeeps₃, hstranded₃⟩
        cases again with
        | true =>
          have htemps₃ : job₃.finalReduce.temps = [] := by rw [hkeeps₃.finalReduce, htemps₂]
          exact ih (hkept₃.of_maps rfl) (hstranded₃ rfl) rfl htemps₃
        | false => exact rounds_notifFileUnavailable job₃

/-- **`combinerFinalReducePlanning`** orders the reduce of all partial reduces. -/
theorem rounds_combinerFinalReducePlanning (h : Kept job l) (hknown : KnowsAll job.partialReduces l)
    (hstranded : l.stranded = false)
    (htemps : job.finalReduce.temps = []) :
    (combinerFinalReducePlanning job).Ok roundSpec (fun job' l' => Kept job' l' ∧ l'.stranded = false ∧
      job'.combiner = job.combiner) anyExit l := by
  unfold combinerFinalReducePlanning
  rw [Prog.ok_bind]
  refine rounds_request hknown fun node l₁ hread => ?_
  have hkept₁ := h.turn hread rfl
  have hstranded₁ := (hread.kept.2.2.2 rfl).trans hstranded
  obtain ⟨n, rfl⟩ := hread
  have hlast : (l.read n node).shown.getLast? = some (n, node) := List.getLast?_concat
  refine rounds_planFinalReduce hkept₁ hstranded₁ hlast fun _ => ?_
  rw [htemps, List.nil_append]

/-- **`combinerReducePlanning`** returns without a block that was stranded. -/
theorem rounds_combinerReducePlanning (hrecv : RecvKept recv) (partials rounds : ℕ) :
    ∀ {job : Job} {l : Talk}, Kept job l →
    l.stranded = false → job.partialReduces = [] → job.finalReduce.temps = [] →
    (combinerReducePlanning recv partials rounds job).Ok roundSpec (fun _ l' => l'.stranded = false) anyExit l := by
  induction rounds with
  | zero => intro job l _ _ _ _; trivial
  | succ rounds ih =>
    intro job l h hstranded hnone htemps
    unfold combinerReducePlanning
    rw [Prog.ok_bind]
    refine (rounds_partialRounds hrecv partials h hstranded hnone htemps).imp ?_
    rintro job₁ l₁ ⟨hkept₁, hknown₁, hstranded₁, htemps₁⟩
    rw [Prog.ok_bind]
    refine (rounds_combinerFinalReducePlanning hkept₁ hknown₁ hstranded₁ htemps₁).imp ?_
    rintro job₂ l₂ ⟨hkept₂, hstranded₂, -⟩
    rw [Prog.ok_bind]
    refine (rounds_awaitFinalReduce hrecv combinerClean hkept₂ hstranded₂).imp ?_
    rintro ⟨job₃, again⟩ l₃ ⟨hstranded₃, hagain⟩
    cases again with
    | true =>
      obtain ⟨job₄, rfl, hkept₄, -⟩ := hagain rfl
      exact ih (hkept₄.of_maps rfl) hstranded₃ rfl rfl
    | false => exact hstranded₃

/-- **A job keeps to the specification**, and returns without a block that was stranded. -/
theorem rounds_acceptJob (rounds : ℕ) (h : job.New) :
    (acceptJob rounds job).Ok roundSpec (fun _ l' => l'.stranded = false) anyExit .start := by
  unfold acceptJob planJob
  have hrecv := recvKept_recvResult rounds
  rw [Prog.ok_bind, Prog.ok_bind]
  refine (rounds_planMaps hrecv h).imp ?_
  rintro job₁ l₁ ⟨hkept₁, hkeeps₁, hstranded₁⟩
  have hnone : job₁.partialReduces = [] := hkeeps₁.partialReduces.trans h.partialReduces
  have htemps : job₁.finalReduce.temps = [] := by rw [hkeeps₁.finalReduce, h.temps]
  have hend : ∀ (job : Job) l, l.stranded = false →
      (finishJob job).Ok roundSpec (fun _ l' => l'.stranded = false) anyExit l := by
    intro job l hl
    unfold finishJob
    rw [Prog.ok_bind]
    refine rounds_request (fun hlost => ?_) ?_
    · rw [hl] at hlost
      cases hlost
    rintro - l₂ rfl
    have hplain : Plain (do
        freeJob job
        request .exit : JobProg Unit) :=
      Prog.only_bind (only_freeJob (plain_removeMaps .free job.maps)) fun _ => plain_request rfl
    refine Prog.ok_mono (fun _ _ h => h) (fun _ _ _ => trivial)
      (Prog.Only.keeps (I := fun l' : Talk => l'.stranded = false) hplain ?_ hl)
    intro l₃ r hr hl₃
    exact ⟨mayGoOn_plain hr, fun x l₄ hturn => (hturn.kept.2.2.2 (plain_of_isChoice hr).2).trans hl₃⟩
  split
  · exact (rounds_combinerReducePlanning hrecv rounds rounds hkept₁ hstranded₁ hnone htemps).imp fun _ l₂ => hend _ l₂
  · rename_i hcombiner
    exact (rounds_noCombinerReducePlanning hrecv rounds hkept₁ hstranded₁
      (by simpa using hcombiner)).imp fun _ l₂ => hend _ l₂

/-- MaRTA starts with every job keeping to its specification. -/
theorem marta_rounds {J : World → (ℕ → Talk) → Prop} (rounds : ℕ) (jobs : List Submission)
    (hJ : J ⟨[], fun _ => .start⟩ fun _ => .start) :
    (marta rounds jobs).Ok (fun _ => roundSpec) (fun _ _ l => l.stranded = false) (fun _ => anyExit) J := by
  refine ⟨fun _ => .start, hJ, fun t p hp => ?_⟩
  obtain ⟨x, -, rfl⟩ := List.mem_map.1 (List.mem_of_getElem? hp)
  exact rounds_acceptJob rounds (createJob_new ..)

end Mdfs.MaRTA
