import Mathlib.Data.List.Perm.Basic
import Mathlib.Data.Multiset.Filter
import Mdfs.Lib.Wire
import Mdfs.MaRTA.Planning

/-!
# The ledger of a job

What a job has sent and heard, set against its maps. The map that a thread is working on
is in no account until its order is sent again, or its success is noted: the others are
`counted`. Of these the ones that are not done wait for a result, and with the reduces
that are `due` they are the orders without an answer.

* `lastOf`, `lastResult`: what a history says about a map.
* `Balanced`, `Covers`: what holds when a phase ends, and when the final reduce is sent.
* `Ledger`: the accounts, with one lemma for each entry.
* `Chart`: the maps against the blocks of the job's files.
-/

namespace Mdfs.MaRTA

open Lib Wire

/-- The job has read a node of this name. -/
def Talk.Knows (l : Talk) (name : CStr) : Prop := ∃ x ∈ l.shown, x.2.name = name

/-! ## What a history says -/

/-- The last order of a map and the result for it, after one more event. -/
def noteOf (id : UInt16) (x : Option (Map × Option Bool)) : Event → Option (Map × Option Bool)
  | .order (.map m) => if m.id = id then some (m, none) else x
  | .result (.map i result) => if i = id then x.map fun y => (y.1, some result) else x
  | _ => x

def lastOf (history : List Event) (id : UInt16) : Option (Map × Option Bool) := history.foldl (noteOf id) none

/-- The last result for a map, after one more event. -/
def resultOf (id : UInt16) (x : Option Bool) : Event → Option Bool
  | .result (.map i result) => if i = id then some result else x
  | _ => x

def lastResult (history : List Event) (id : UInt16) : Option Bool := history.foldl (resultOf id) none

def Event.isMapOrder : Event → Bool
  | .order (.map _) => true
  | _ => false

def Event.isMapResult : Event → Bool
  | .result (.map _ _) => true
  | _ => false

variable {history : List Event} {id : UInt16} {e : Event}

theorem lastOf_append : lastOf (history ++ [e]) id = noteOf id (lastOf history id) e := by
  unfold lastOf
  rw [List.foldl_append]
  rfl

theorem lastResult_append : lastResult (history ++ [e]) id = resultOf id (lastResult history id) e := by
  unfold lastResult
  rw [List.foldl_append]
  rfl

/-- The result for the last order is the last result. -/
theorem lastResult_of_lastOf {m : Map} {b : Bool} (h : lastOf history id = some (m, some b)) :
    lastResult history id = some b := by
  induction history using List.reverseRecOn generalizing m b with
  | nil => cases h
  | append_singleton history e ih =>
    rw [lastOf_append] at h
    rw [lastResult_append]
    rcases e with (m' | r) | (⟨i, result⟩ | ⟨i, failed⟩)
    · simp only [noteOf] at h
      split at h
      · cases h
      · exact ih h
    · exact ih h
    · simp only [noteOf] at h
      simp only [resultOf]
      split at h
      · rename_i hi
        rw [if_pos hi]
        obtain ⟨y, -, hy⟩ := Option.map_eq_some_iff.1 h
        rw [Prod.mk.injEq] at hy
        exact hy.2
      · rename_i hi
        rw [if_neg hi]
        exact ih h
    · exact ih h

/-! ## What holds when a phase ends -/

/-- **Nothing is outstanding**: as many map orders sent as map results received, and
`mapsDone` counts the maps whose last result was a success. -/
structure Balanced (l : Talk) (job : Job) : Prop where
  orders : l.history.countP Event.isMapOrder = l.history.countP Event.isMapResult
  mapsDone : job.mapsDone.toNat = job.maps.countP fun m => lastResult l.history m.id = some true

/-- The temporaries of maps that a final reduce covers. -/
def Job.covered (job : Job) (reduce : Reduce) : List Temp :=
  if job.combiner then job.partialReduces.flatMap Reduce.temps else reduce.temps

/-- **Every block once**: with a combiner the reduce lists each partial reduce, and the
temporaries it covers are those of one order for each block, the last one of its map,
which had a success for its result. -/
structure Covers (l : Talk) (job : Job) (reduce : Reduce) : Prop where
  listed : job.combiner = true → reduce.temps = job.partialReduces.map reduceToTemporal
  orders : ∃ orders : List Map, (job.covered reduce).Perm (orders.map mapToTemporal) ∧
    orders.map Map.copies = l.blocks.map (fun copies => copies.map FsCopy.copy) ∧
    ∀ (i : ℕ) (m : Map), orders[i]? = some m → lastOf l.history i.toUInt16 = some (m, some true)

/-! ## The accounts -/

/-- Where a map runs. -/
def Map.spot (map : Map) : CStr × UInt16 := (map.nodeName, map.numBlock)

/-- The maps without a result. -/
def waiting (counted : Multiset Map) : Multiset Map := counted.filter fun map => map.done = false

/-- **The ledger**: `counted` are the maps in the accounts, `due` the reduces without an answer. -/
structure Ledger (counted : Multiset Map) (mapsDone : UInt16) (due : Multiset Reduce) (l : Talk) : Prop where
  pending : (l.pending : Multiset Order) = (waiting counted).map .map + due.map .reduce
  heard : ∀ m ∈ counted, lastOf l.history m.id = some ({ m with done := false }, if m.done then some true else none)
  mapsDone : mapsDone = (counted.countP fun m => m.done = true).toUInt16
  balance : l.history.countP Event.isMapOrder = l.history.countP Event.isMapResult + (waiting counted).card
  booked : l.replanned = false → l.dropped = false →
    (l.bookedMaps : Multiset (CStr × UInt16)) = (waiting counted).map Map.spot
  reduces : (l.bookedReduces : Multiset CStr) = due.map Reduce.finalNode

/-- **The maps on the blocks**: the blocks without a map yet are `rest`. -/
structure Chart (rest : List (List Copy)) (maps : List Map) (l : Talk) : Prop where
  ids : maps.map Map.id = (List.range maps.length).map Nat.toUInt16
  known : ∀ m ∈ maps, l.Knows m.nodeName
  room : maps.length + rest.length ≤ l.blocks.length
  small : l.blocks.length < 2 ^ 16
  copies : l.skipped = false → maps.map Map.copies ++ rest = l.blocks.map fun copies => copies.map FsCopy.copy

variable {counted : Multiset Map} {d : UInt16} {due : Multiset Reduce} {l l' : Talk} {m : Map} {i : ℕ}

theorem waiting_cons_of_not_done (h : m.done = false) : waiting (m ::ₘ counted) = m ::ₘ waiting counted :=
  Multiset.filter_cons_of_pos _ h

theorem waiting_cons_of_done (h : m.done = true) : waiting (m ::ₘ counted) = waiting counted :=
  Multiset.filter_cons_of_neg _ (by simp [h])

theorem mem_waiting : m ∈ waiting counted ↔ m ∈ counted ∧ m.done = false := Multiset.mem_filter

/-- A list without the element at a place. -/
theorem coe_eraseIdx {α : Type} {xs : List α} {x : α} (h : xs[i]? = some x) :
    (xs : Multiset α) = x ::ₘ (xs.eraseIdx i : Multiset α) := by
  obtain ⟨hi, rfl⟩ := List.getElem?_eq_some_iff.1 h
  rw [Multiset.cons_coe, Multiset.coe_eq_coe]
  exact (List.getElem_cons_eraseIdx_perm hi).symm

theorem coe_append_singleton {α : Type} (xs : List α) (x : α) : (xs ++ [x] : List α) = x ::ₘ (xs : Multiset α) := by
  rw [Multiset.cons_coe, Multiset.coe_eq_coe]
  exact List.perm_append_singleton x xs

/-- A list with another element at a place. -/
theorem coe_set {α : Type} {xs : List α} {x : α} {rest : Multiset α} (h : xs[i]? = some x)
    (hrest : (xs : Multiset α) = x ::ₘ rest) (y : α) : (xs.set i y : Multiset α) = y ::ₘ rest := by
  obtain ⟨hi, -⟩ := List.getElem?_eq_some_iff.1 h
  have hsame : rest = (xs.eraseIdx i : Multiset α) := by
    rw [coe_eraseIdx h, Multiset.cons_inj_right] at hrest
    exact hrest.symm
  rw [hsame, Multiset.cons_coe, Multiset.coe_eq_coe]
  exact List.set_perm_cons_eraseIdx hi y

/-- A list without an element, whatever comparison finds it. -/
theorem coe_erase {α : Type} [DecidableEq α] [hbeq : BEq α] [LawfulBEq α] (xs : List α) (x : α) :
    (xs.erase x : Multiset α) = (xs : Multiset α).erase x := by
  obtain rfl : hbeq = instBEqOfDecidableEq := lawful_beq_subsingleton _ _
  exact (Multiset.coe_erase xs x).symm

namespace Ledger

/-- The accounts are about these fields only. -/
theorem of_same (h : Ledger counted d due l) (hpending : l'.pending = l.pending) (hhistory : l'.history = l.history)
    (hreduces : l'.bookedReduces = l.bookedReduces) (hbooked : l'.replanned = false → l'.dropped = false →
      l.replanned = false ∧ l.dropped = false ∧ l'.bookedMaps = l.bookedMaps) : Ledger counted d due l' where
  pending := by rw [hpending]; exact h.pending
  heard := by rw [hhistory]; exact h.heard
  mapsDone := h.mapsDone
  balance := by rw [hhistory]; exact h.balance
  booked := by
    intro hreplanned hdropped
    obtain ⟨hreplanned, hdropped, hmaps⟩ := hbooked hreplanned hdropped
    rw [hmaps]
    exact h.booked hreplanned hdropped
  reduces := by rw [hreduces]; exact h.reduces

/-- A map whose answer is pending is one that waits. -/
theorem mem_of_map (h : Ledger counted d due l) (hm : l.pending[i]? = some (.map m)) : m ∈ waiting counted := by
  have hmem : Order.map m ∈ (l.pending : Multiset Order) := List.mem_of_getElem? hm
  rw [h.pending, Multiset.mem_add, Multiset.mem_map, Multiset.mem_map] at hmem
  rcases hmem with ⟨m', hm', heq⟩ | ⟨r, -, heq⟩
  · rw [Order.map.injEq] at heq
    exact heq ▸ hm'
  · cases heq

/-- A reduce whose answer is pending is due. -/
theorem mem_of_reduce (h : Ledger counted d due l) {r : Reduce} (hr : l.pending[i]? = some (.reduce r)) : r ∈ due := by
  have hmem : Order.reduce r ∈ (l.pending : Multiset Order) := List.mem_of_getElem? hr
  rw [h.pending, Multiset.mem_add, Multiset.mem_map, Multiset.mem_map] at hmem
  rcases hmem with ⟨m, -, heq⟩ | ⟨r', hr', heq⟩
  · cases heq
  · rw [Order.reduce.injEq] at heq
    exact heq ▸ hr'

/-- **A map is answered** and taken off its node: it leaves the accounts. -/
theorem answered_map (h : Ledger (m ::ₘ counted) d due l) (hm : l.pending[i]? = some (.map m)) (hdone : m.done = false)
    (hids : ∀ x ∈ counted, x.id ≠ m.id) (failed : Option CStr) :
    Ledger counted d due ((l.answered i (.map m) failed).removed .result m.nodeName m.numBlock) where
  pending := by
    have hpending := h.pending
    rw [coe_eraseIdx hm, waiting_cons_of_not_done hdone, Multiset.map_cons, Multiset.cons_add,
      Multiset.cons_inj_right] at hpending
    exact hpending
  heard := by
    intro x hx
    -- the answer is of this map alone, as no other has its id
    have hother : noteOf x.id (lastOf l.history x.id) (.result ((Order.map m).result failed)) = lastOf l.history x.id :=
      if_neg (hids x hx).symm
    change lastOf (l.history ++ [.result ((Order.map m).result failed)]) x.id = _
    rw [lastOf_append, hother]
    exact h.heard x (Multiset.mem_cons_of_mem hx)
  mapsDone := by
    have hcount := h.mapsDone
    rw [Multiset.countP_cons_of_neg _ (by simp [hdone])] at hcount
    exact hcount
  balance := by
    have hbalance := h.balance
    rw [waiting_cons_of_not_done hdone, Multiset.card_cons] at hbalance
    have horder : Event.isMapOrder (.result ((Order.map m).result failed)) = false := rfl
    have hresult : Event.isMapResult (.result ((Order.map m).result failed)) = true := rfl
    simp only [Talk.removed, Talk.answered, List.countP_append, List.countP_singleton, horder, hresult, if_true]
    rw [if_neg Bool.false_ne_true]
    omega
  booked := by
    intro hreplanned hdropped
    have hbooked := h.booked hreplanned ((Bool.or_false _).symm.trans hdropped)
    rw [waiting_cons_of_not_done hdone, Multiset.map_cons] at hbooked
    change (l.bookedMaps.erase m.spot : Multiset (CStr × UInt16)) = _
    rw [coe_erase, hbooked, Multiset.erase_cons_head]
  reduces := h.reduces

/-- What is heard of the map that was answered. -/
theorem heard_answered (h : Ledger (m ::ₘ counted) d due l) (hdone : m.done = false) (failed : Option CStr) :
    lastOf (l.answered i (.map m) failed).history m.id = some (m, some (decide (failed = none))) := by
  have hheard := h.heard m (Multiset.mem_cons_self m counted)
  rw [if_neg (by simp [hdone])] at hheard
  have hself : ({ m with done := false } : Map) = m := by rw [← hdone]
  change lastOf (l.history ++ [.result ((Order.map m).result failed)]) m.id = _
  rw [lastOf_append, hheard, hself]
  exact if_pos rfl

/-- **The success of a map is noted.** -/
theorem done_map (h : Ledger counted d due l) (hheard : lastOf l.history m.id = some (m, some true))
    (hdone : m.done = false) :
    Ledger ({ m with done := true } ::ₘ counted) (d + 1) due l where
  pending := by
    rw [waiting_cons_of_done rfl]
    exact h.pending
  heard := by
    intro x hx
    rcases Multiset.mem_cons.1 hx with rfl | hx
    · have hself : ({ m with done := false } : Map) = m := by rw [← hdone]
      rw [hheard, if_pos rfl]
      exact congrArg (fun y => some (y, some true)) hself.symm
    · exact h.heard x hx
  mapsDone := by
    rw [Multiset.countP_cons_of_pos (p := fun m : Map => m.done = true) _ rfl, h.mapsDone]
    simp
  balance := by
    rw [waiting_cons_of_done rfl]
    exact h.balance
  booked := by
    rw [waiting_cons_of_done rfl]
    exact h.booked
  reduces := h.reduces

/-- **A map that was done is to be planned again**: it leaves the accounts. -/
theorem undone_map (h : Ledger (m ::ₘ counted) d due l) (hdone : m.done = true) : Ledger counted (d - 1) due l where
  pending := by
    have hpending := h.pending
    rw [waiting_cons_of_done hdone] at hpending
    exact hpending
  heard := fun x hx => h.heard x (Multiset.mem_cons_of_mem hx)
  mapsDone := by
    rw [h.mapsDone, Multiset.countP_cons_of_pos (p := fun m : Map => m.done = true) _ hdone]
    simp
  balance := by
    have hbalance := h.balance
    rw [waiting_cons_of_done hdone] at hbalance
    exact hbalance
  booked := by
    have hbooked := h.booked
    rw [waiting_cons_of_done hdone] at hbooked
    exact hbooked
  reduces := h.reduces

/-- **The order of a map is sent**: it enters the accounts. -/
theorem sent_map (h : Ledger counted d due l) (hdone : m.done = false) (hids : ∀ x ∈ counted, x.id ≠ m.id) {site : Site}
    (hl : l'.pending = l.pending ∧ l'.history = l.history ∧ l'.bookedReduces = l.bookedReduces)
    (hbooked : (l'.mapSent site m true).replanned = false → l'.dropped = false →
      (l'.bookedMaps : Multiset (CStr × UInt16)) = m.spot ::ₘ (waiting counted).map Map.spot) :
    Ledger (m ::ₘ counted) d due (l'.mapSent site m true) where
  pending := by
    change ((l'.pending ++ [Order.map m] : List Order) : Multiset Order) = _
    rw [hl.1, coe_append_singleton, h.pending, waiting_cons_of_not_done hdone, Multiset.map_cons, Multiset.cons_add]
  heard := by
    intro x hx
    change lastOf (l'.history ++ [.order (.map m)]) x.id = _
    rw [lastOf_append, hl.2.1]
    -- the order is the last that is heard of this map
    rcases Multiset.mem_cons.1 hx with rfl | hx
    · have hself : ({ x with done := false } : Map) = x := by rw [← hdone]
      rw [if_neg (by simp [hdone]), hself]
      exact if_pos rfl
    · rw [← h.heard x hx]
      exact if_neg (hids x hx).symm
  mapsDone := by
    rw [Multiset.countP_cons_of_neg _ (by simp [hdone])]
    exact h.mapsDone
  balance := by
    have hbalance := h.balance
    have horder : Event.isMapOrder (.order (.map m)) = true := rfl
    have hresult : Event.isMapResult (.order (.map m)) = false := rfl
    change (l'.history ++ [Event.order (.map m)]).countP Event.isMapOrder =
      (l'.history ++ [Event.order (.map m)]).countP Event.isMapResult + _
    rw [hl.2.1, List.countP_append, List.countP_append, List.countP_singleton, List.countP_singleton, if_pos horder,
      hresult, if_neg Bool.false_ne_true, waiting_cons_of_not_done hdone, Multiset.card_cons]
    omega
  booked := by
    rw [waiting_cons_of_not_done hdone, Multiset.map_cons]
    exact hbooked
  reduces := by
    change ((l'.bookedReduces : List CStr) : Multiset CStr) = _
    rw [hl.2.2]
    exact h.reduces

/-- **The order of a reduce is sent.** -/
theorem sent_reduce (h : Ledger counted d due l) (r : Reduce) :
    Ledger counted d (r ::ₘ due) ((l.reduceAdded r.finalNode r.finalNode).reduceSent r true) where
  pending := by
    change ((l.pending ++ [Order.reduce r] : List Order) : Multiset Order) = _
    rw [coe_append_singleton, h.pending, Multiset.map_cons, Multiset.add_cons]
  heard := by
    intro x hx
    change lastOf (l.history ++ [.order (.reduce r)]) x.id = _
    rw [lastOf_append]
    exact h.heard x hx
  mapsDone := h.mapsDone
  balance := by
    have hbalance := h.balance
    have horder : Event.isMapOrder (.order (.reduce r)) = false := rfl
    have hresult : Event.isMapResult (.order (.reduce r)) = false := rfl
    change (l.history ++ [Event.order (.reduce r)]).countP Event.isMapOrder =
      (l.history ++ [Event.order (.reduce r)]).countP Event.isMapResult + _
    rw [List.countP_append, List.countP_append, List.countP_singleton, List.countP_singleton, horder, hresult,
      if_neg Bool.false_ne_true]
    omega
  booked := h.booked
  reduces := by
    change ((l.bookedReduces ++ [r.finalNode] : List CStr) : Multiset CStr) = _
    rw [coe_append_singleton, h.reduces, Multiset.map_cons]

/-- **A reduce is answered** and taken off its node. -/
theorem answered_reduce {r : Reduce} (h : Ledger counted d (r ::ₘ due) l) (hr : l.pending[i]? = some (.reduce r))
    (failed : Option CStr) :
    Ledger counted d due ((l.answered i (.reduce r) failed).reduceRemoved r.finalNode) where
  pending := by
    have hpending := h.pending
    rw [coe_eraseIdx hr, Multiset.map_cons, Multiset.add_cons, Multiset.cons_inj_right] at hpending
    exact hpending
  heard := by
    intro x hx
    change lastOf (l.history ++ [.result ((Order.reduce r).result failed)]) x.id = _
    rw [lastOf_append]
    exact h.heard x hx
  mapsDone := h.mapsDone
  balance := by
    have hbalance := h.balance
    have horder : Event.isMapOrder (.result ((Order.reduce r).result failed)) = false := rfl
    have hresult : Event.isMapResult (.result ((Order.reduce r).result failed)) = false := rfl
    change (l.history ++ [Event.result _]).countP Event.isMapOrder =
      (l.history ++ [Event.result _]).countP Event.isMapResult + _
    rw [List.countP_append, List.countP_append, List.countP_singleton, List.countP_singleton, horder, hresult,
      if_neg Bool.false_ne_true]
    omega
  booked := h.booked
  reduces := by
    change (l.bookedReduces.erase r.finalNode : Multiset CStr) = _
    rw [coe_erase, h.reduces, Multiset.map_cons, Multiset.erase_cons_head]

/-- **When no map waits, nothing is outstanding.** -/
theorem balanced {job : Job} (h : Ledger (job.maps : Multiset Map) job.mapsDone due l)
    (hdone : ∀ m ∈ job.maps, m.done = true)
    (hsmall : job.maps.length < 2 ^ 16) : Balanced l job where
  orders := by
    have hnone : waiting (job.maps : Multiset Map) = 0 :=
      Multiset.filter_eq_nil.2 fun m hm => by simp [hdone m hm]
    rw [h.balance, hnone, Multiset.card_zero, Nat.add_zero]
  mapsDone := by
    have hheard : ∀ m ∈ job.maps, lastResult l.history m.id = some true := by
      intro m hm
      have hlast := h.heard m hm
      rw [if_pos (hdone m hm)] at hlast
      exact lastResult_of_lastOf hlast
    have hall : (job.maps.countP fun m => decide (lastResult l.history m.id = some true)) = job.maps.length :=
      List.countP_eq_length.2 fun m hm => by simp [hheard m hm]
    have hcount : (job.maps : Multiset Map).countP (fun m => m.done = true) = job.maps.length := by
      rw [Multiset.coe_countP]
      exact List.countP_eq_length.2 fun m hm => by simp [hdone m hm]
    rw [h.mapsDone, hcount, hall]
    simp only [Nat.toUInt16_eq, UInt16.toNat_ofNat']
    omega

end Ledger

/-! ## The maps on the blocks -/

namespace Chart

variable {rest : List (List Copy)} {maps : List Map}

theorem length_lt (h : Chart rest maps l) : maps.length < 2 ^ 16 := by
  have hroom := h.room
  have hsmall := h.small
  omega

/-- The ids are the places. -/
theorem id_eq (h : Chart rest maps l) (hm : maps[i]? = some m) : m.id = i.toUInt16 := by
  obtain ⟨hi, rfl⟩ := List.getElem?_eq_some_iff.1 hm
  have hid := congrArg (fun ids => ids[i]?) h.ids
  simpa [hi] using hid

/-- Two maps with one id are at one place. -/
theorem place_eq (h : Chart rest maps l) {j : ℕ} {m' : Map} (hm : maps[i]? = some m) (hm' : maps[j]? = some m')
    (hid : m.id = m'.id) : i = j := by
  have hlt := h.length_lt
  obtain ⟨hi, -⟩ := List.getElem?_eq_some_iff.1 hm
  obtain ⟨hj, -⟩ := List.getElem?_eq_some_iff.1 hm'
  rw [h.id_eq hm, h.id_eq hm'] at hid
  have hnat := congrArg UInt16.toNat hid
  rw [toNat_toUInt16 (by omega), toNat_toUInt16 (by omega)] at hnat
  exact hnat

/-- The other maps have other ids. -/
theorem ids_ne (h : Chart rest maps l) (hm : maps[i]? = some m) (hrest : (maps : Multiset Map) = m ::ₘ counted) :
    ∀ x ∈ counted, x.id ≠ m.id := by
  intro x hx hid
  have hsame : counted = (maps.eraseIdx i : Multiset Map) := by
    rw [coe_eraseIdx hm, Multiset.cons_inj_right] at hrest
    exact hrest.symm
  rw [hsame] at hx
  obtain ⟨j, hji, hj⟩ := List.mem_eraseIdx_iff_getElem?.1 hx
  exact hji (h.place_eq hj hm hid)

/-- A map is found by its id. -/
theorem findIdx_eq (h : Chart rest maps l) (hm : m ∈ maps) :
    ∃ i, (maps.findIdx? fun map => map.id = m.id) = some i ∧ maps[i]? = some m := by
  obtain ⟨j, hj⟩ := List.mem_iff_getElem?.1 hm
  cases hfind : maps.findIdx? fun map => map.id = m.id with
  | none =>
    have hnone := List.findIdx?_eq_none_iff.1 hfind m hm
    simp at hnone
  | some i =>
    obtain ⟨hi, hid, -⟩ := List.findIdx?_eq_some_iff_getElem.1 hfind
    have hplace : i = j := h.place_eq (List.getElem?_eq_getElem hi) hj (of_decide_eq_true hid)
    exact ⟨i, rfl, hplace ▸ hj⟩

/-- The chart is kept while blocks stay and nodes are only added to those that were read. -/
theorem of_same (h : Chart rest maps l) (hblocks : l'.blocks = l.blocks)
    (hskipped : l'.skipped = false → l.skipped = false)
    (hshown : l.shown ⊆ l'.shown) : Chart rest maps l' where
  ids := h.ids
  known := by
    intro m hm
    obtain ⟨x, hx, hname⟩ := h.known m hm
    exact ⟨x, hshown hx, hname⟩
  room := by rw [hblocks]; exact h.room
  small := by rw [hblocks]; exact h.small
  copies := fun hskip => by rw [hblocks]; exact h.copies (hskipped hskip)

/-- The next id is a new one. -/
theorem ids_ne_length (h : Chart rest maps l) (hrest : rest ≠ []) : ∀ x ∈ maps, x.id ≠ maps.length.toUInt16 := by
  intro x hx hid
  have hroom := h.room
  have hsmall := h.small
  have hpos := List.length_pos_iff.2 hrest
  obtain ⟨i, hi⟩ := List.mem_iff_getElem?.1 hx
  obtain ⟨hlt, -⟩ := List.getElem?_eq_some_iff.1 hi
  rw [h.id_eq hi] at hid
  have hnat := congrArg UInt16.toNat hid
  rw [toNat_toUInt16 (by omega), toNat_toUInt16 (by omega)] at hnat
  omega

/-- The next block gets a map. -/
theorem append {copies : List Copy} (h : Chart (copies :: rest) maps l) (hid : m.id = maps.length.toUInt16)
    (hcopies : m.copies = copies) (hknown : l.Knows m.nodeName) : Chart rest (maps ++ [m]) l where
  ids := by
    rw [List.map_append, h.ids, List.length_append, List.length_singleton, List.range_succ, List.map_append,
      List.map_singleton,
      List.map_singleton, hid]
  known := by
    intro x hx
    rcases List.mem_append.1 hx with hx | hx
    · exact h.known x hx
    · rw [List.mem_singleton.1 hx]
      exact hknown
  room := by
    have hroom := h.room
    rw [List.length_cons] at hroom
    rw [List.length_append, List.length_singleton]
    omega
  small := h.small
  copies := by
    intro hskipped
    rw [← h.copies hskipped, List.map_append, List.append_assoc, ← hcopies]
    rfl

/-- The next block is skipped. -/
theorem skip {copies : List Copy} (h : Chart (copies :: rest) maps l) (hskipped : l.skipped = true) :
    Chart rest maps l where
  ids := h.ids
  known := h.known
  room := by
    have hroom := h.room
    rw [List.length_cons] at hroom
    omega
  small := h.small
  copies := by
    intro hnot
    rw [hskipped] at hnot
    cases hnot

/-- A map is planned again: on another node, for the same block. -/
theorem set (h : Chart rest maps l) (hm : maps[i]? = some m) {m' : Map} (hid : m'.id = m.id)
    (hcopies : m'.copies = m.copies)
    (hknown : l.Knows m'.nodeName) : Chart rest (maps.set i m') l := by
  obtain ⟨hi, hget⟩ := List.getElem?_eq_some_iff.1 hm
  have hkeep : ∀ {β : Type} (f : Map → β), f m' = f m → (maps.set i m').map f = maps.map f := by
    intro β f hf
    rw [List.map_set, hf, ← hget, ← List.getElem_map f (h := by simpa using hi)]
    exact List.set_getElem_self _
  refine ⟨?_, ?_, ?_, h.small, ?_⟩
  · rw [hkeep Map.id hid, List.length_set]
    exact h.ids
  · intro x hx
    rcases List.mem_or_eq_of_mem_set hx with hx | rfl
    · exact h.known x hx
    · exact hknown
  · rw [List.length_set]
    exact h.room
  · rw [hkeep Map.copies hcopies]
    exact h.copies

end Chart

/-- **The temporaries of all maps are those of the last orders.** -/
theorem Ledger.covers {job : Job} (h : Ledger (job.maps : Multiset Map) job.mapsDone due l)
    (hchart : Chart [] job.maps l) (hdone : ∀ m ∈ job.maps, m.done = true) (hskipped : l.skipped = false)
      {reduce : Reduce}
    (hlisted : job.combiner = true → reduce.temps = job.partialReduces.map reduceToTemporal)
    (htemps : (job.covered reduce).Perm (job.maps.map mapToTemporal)) : Covers l job reduce := by
  have hcopies := hchart.copies hskipped
  rw [List.append_nil] at hcopies
  refine ⟨hlisted, job.maps.map fun m => { m with done := false }, ?_, ?_, ?_⟩
  · rw [List.map_map]
    exact htemps
  · rw [List.map_map, ← hcopies]
    rfl
  · intro i m hm
    rw [List.getElem?_map, Option.map_eq_some_iff] at hm
    obtain ⟨m, hm, rfl⟩ := hm
    have hmem := List.mem_of_getElem? hm
    have hlast := h.heard m hmem
    rw [if_pos (hdone m hmem)] at hlast
    rw [← hchart.id_eq hm]
    exact hlast

end Mdfs.MaRTA
