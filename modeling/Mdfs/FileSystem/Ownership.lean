import Mathlib.Data.List.Flatten
import Mdfs.Lib.Trace
import Mdfs.FileSystem.Operations

/-!
# Every used block of a node belongs to one copy

`Owned w` is the invariant of the store between two operations: the set bits of
the nodes and the copies recorded in the files are the same slots, each once.
Every operation run to its end keeps it, whatever the nodes answer.

* `kept_run`: what every kind of change keeps holds after every sequence of
  completed operations.
* `blocks_owned`: what that says of the copies, the bits and the bitmaps.
-/

namespace Mdfs.FileSystem

open Lib

variable {C : World → Req → Choice → Prop} {E : Stop → World → Prop} {w w' : World} {sort : NodeSort}

/-- The slots of all the copies recorded in the stored files. -/
def World.slots (w : World) : List Slot := w.files.docs.flatMap File.slots

/-- **The ownership invariant.** -/
structure Owned (w : World) : Prop where
  fits : w.Fits
  used : ∀ s, w.Used s ↔ s ∈ w.slots
  nodup : w.slots.Nodup
  apart : ∀ f ∈ w.files.docs, ∀ cs ∈ f.blocks, (cs.map FileBlock.nodeId).Nodup
  short : ∀ f ∈ w.files.docs, f.blocks.length < 65536
  fresh : ∀ f ∈ w.files.docs, ∃ n < w.oids, f.id = .gen n

theorem mem_slots_of_copy {f : File} (hf : f ∈ w.files.docs) {c : FileBlock} (hc : c ∈ f.blocks.flatten) :
    c.slot ∈ w.slots := List.mem_flatMap.2 ⟨f, hf, List.mem_map_of_mem hc⟩

theorem mem_file_slots {f : File} {s : Slot} : s ∈ f.slots ↔ ∃ cs ∈ f.blocks, ∃ c ∈ cs, c.slot = s := by
  simp only [File.slots, List.mem_map, List.mem_flatten]
  constructor
  · rintro ⟨c, ⟨cs, hcs, hc⟩, rfl⟩; exact ⟨cs, hcs, c, hc, rfl⟩
  · rintro ⟨cs, hcs, c, hc, rfl⟩; exact ⟨c, ⟨cs, hcs, hc⟩, rfl⟩

/-- The copies of a stored file are on stored nodes. -/
theorem Owned.stored (h : Owned w) {f : File} (hf : f ∈ w.files.docs) {c : FileBlock}
    (hc : c ∈ f.blocks.flatten) : ∃ n ∈ w.nodes.docs, n.id = c.nodeId := by
  obtain ⟨n, hn, hid, -⟩ := (h.used c.slot).2 (mem_slots_of_copy hf hc)
  exact ⟨n, hn, hid⟩

theorem Owned.new_id (h : Owned w) {f : File} (hf : f ∈ w.files.docs) : f.id ≠ .gen w.oids := by
  obtain ⟨n, hn, hid⟩ := h.fresh f hf
  rw [hid]
  intro he
  cases he
  exact lt_irrefl _ hn

/-- The invariant looks at the files, the bitmaps and the count of ids only. -/
theorem Owned.congr (h : Owned w) (hf : w'.files = w.files) (hn : w'.nodes = w.nodes)
    (ho : w.oids ≤ w'.oids) : Owned w' := by
  have hs : w'.slots = w.slots := by simp only [World.slots, hf]
  refine ⟨?_, fun s => ?_, ?_, ?_, ?_, ?_⟩
  · simp only [World.Fits, hn]; exact h.fits
  · rw [hs, ← h.used s]; simp only [World.Used, hn]
  · rw [hs]; exact h.nodup
  · rw [hf]; exact h.apart
  · rw [hf]; exact h.short
  · rw [hf]
    intro f hf'
    obtain ⟨n, hlt, hid⟩ := h.fresh f hf'
    exact ⟨n, lt_of_lt_of_le hlt ho, hid⟩

theorem Owned.untouched (h : Owned w) (hu : Untouched w w') : Owned w' :=
  h.congr (by rw [hu.world]) (by rw [hu.world]) hu.oids

/-- **Importing a file keeps the invariant.** -/
theorem Owned.imported (h : Owned w) {bs : List (List UInt8)} {f : File} (hi : Imported w w' bs f)
    (hshort : f.blocks.length < 65536) : Owned w' := by
  obtain ⟨-, hdocs⟩ := Collection.insert_eq_some.1 hi.files
  have hnodes : w'.nodes = (({ w with disk := w'.disk } : World).mapBits (mark f.slots)).nodes := by
    have := congrArg World.nodes hi.dist.world
    exact this
  have hfree : ∀ s ∈ f.slots, World.Free { w with disk := w'.disk } s := hi.dist.free
  have hslots : w'.slots = w.slots ++ f.slots := by simp [World.slots, hdocs]
  refine ⟨?_, fun s => ?_, ?_, ?_, ?_, ?_⟩
  · have := World.Fits.mark (w := { w with disk := w'.disk }) h.fits hfree
    simpa only [World.Fits, hnodes] using this
  · have := used_mark (w := { w with disk := w'.disk }) h.fits hfree (s := s)
    simp only [World.Used, hnodes] at this ⊢
    rw [this, hslots, List.mem_append, ← h.used s]
    rfl
  -- the new copies are in blocks that were free, so no file had them
  · rw [hslots, List.nodup_append]
    refine ⟨h.nodup, hi.dist.nodup, ?_⟩
    rintro s hs _ hs' rfl
    exact (hi.dist.free s hs').not_used ((h.used s).2 hs)
  · rw [hdocs]
    intro g hg
    rcases List.mem_append.1 hg with hg | hg
    · exact h.apart g hg
    · cases List.mem_singleton.1 hg; exact hi.dist.apart
  · rw [hdocs]
    intro g hg
    rcases List.mem_append.1 hg with hg | hg
    · exact h.short g hg
    · cases List.mem_singleton.1 hg; exact hshort
  -- the id of the new file is the next one, so later ids are fresh again
  · rw [hdocs, hi.oids]
    intro g hg
    rcases List.mem_append.1 hg with hg | hg
    · obtain ⟨n, hn, hid⟩ := h.fresh g hg
      exact ⟨n, Nat.lt_succ_of_lt hn, hid⟩
    · cases List.mem_singleton.1 hg
      exact ⟨w.oids, Nat.lt_succ_self _, hi.id⟩

/-- **Fewer copies**: the invariant holds when the slots that satisfy `P` are left,
in the files as in the bitmaps. -/
theorem Owned.shrink (h : Owned w) {P : Slot → Prop}
    (hfile : ∀ f' ∈ w'.files.docs, ∃ f ∈ w.files.docs, f'.id = f.id ∧
      f'.blocks.length = f.blocks.length ∧ ∀ cs ∈ f'.blocks, ∃ ds ∈ f.blocks, cs.Sublist ds)
    (hslots : w'.slots.Sublist w.slots) (hmem : ∀ s, s ∈ w'.slots ↔ s ∈ w.slots ∧ P s)
    (hused : ∀ s, w'.Used s ↔ w.Used s ∧ P s) (hfits : w'.Fits) (ho : w'.oids = w.oids) : Owned w' := by
  refine ⟨hfits, fun s => ?_, h.nodup.sublist hslots, ?_, ?_, ?_⟩
  · rw [hmem, ← h.used s, hused]
  · intro f' hf' cs hcs'
    obtain ⟨f, hf, -, -, hcs⟩ := hfile f' hf'
    obtain ⟨ds, hds, hsub⟩ := hcs cs hcs'
    exact (h.apart f hf ds hds).sublist (hsub.map _)
  · intro f' hf'
    obtain ⟨f, hf, -, hlen, -⟩ := hfile f' hf'
    rw [hlen]; exact h.short f hf
  · intro f' hf'
    obtain ⟨f, hf, hid, -, -⟩ := hfile f' hf'
    rw [hid, ho]; exact h.fresh f hf

/-- **Deleting a file keeps the invariant.** -/
theorem Owned.dropFile (h : Owned w) {f : File} (hf : f ∈ w.files.docs) : Owned (w.dropFile f) := by
  obtain ⟨A, B, hAB, -, hrem⟩ := Collection.split hf
  have hdocs : (w.dropFile f).files.docs = A ++ B := hrem
  have hw : w.slots = A.flatMap File.slots ++ (f.slots ++ B.flatMap File.slots) := by
    simp [World.slots, hAB]
  have hw' : (w.dropFile f).slots = A.flatMap File.slots ++ B.flatMap File.slots := by
    simp [World.slots, hdocs]
  have hn := h.nodup
  rw [hw, List.nodup_append, List.nodup_append] at hn
  refine h.shrink (P := fun s => s ∉ f.slots) (fun f' hf' => ?_) ?_ (fun s => ?_) (fun s => ?_) ?_ rfl
  · refine ⟨f', (Collection.mem_remove.1 hf').1, rfl, rfl, fun cs hcs => ⟨cs, hcs, List.Sublist.refl _⟩⟩
  · rw [hw, hw']
    exact (List.Sublist.refl _).append (List.sublist_append_right _ _)
  · rw [hw, hw']
    simp only [List.mem_append]
    constructor
    · rintro (hs | hs)
      · exact ⟨Or.inl hs, fun hf => hn.2.2 s hs s (List.mem_append_left _ hf) rfl⟩
      · exact ⟨Or.inr (Or.inr hs), fun hf => hn.2.1.2.2 s hf s hs rfl⟩
    · rintro ⟨hs | hs | hs, hnot⟩
      · exact Or.inl hs
      · exact absurd hs hnot
      · exact Or.inr hs
  · exact used_unmark
  · exact h.fits.unmark _

/-- Where a block stands in the list of all copies, and what modifying it does. -/
theorem flatten_modify {α : Type} {l : List (List α)} {b : ℕ} {cs : List α} (h : l[b]? = some cs) :
    ∃ A B, l.flatten = A ++ (cs ++ B) ∧ ∀ g, (l.modify b g).flatten = A ++ (g cs ++ B) := by
  obtain ⟨hlt, rfl⟩ := List.getElem?_eq_some_iff.1 h
  refine ⟨(l.take b).flatten, (l.drop (b + 1)).flatten, ?_, fun g => ?_⟩
  · calc l.flatten = (l.take b ++ l[b] :: l.drop (b + 1)).flatten := by
          rw [← List.drop_eq_getElem_cons hlt, List.take_append_drop]
      _ = _ := by rw [List.flatten_append, List.flatten_cons]
  · rw [List.modify_eq_take_cons_drop hlt]
    simp

/-- Where a block of a stored file stands in the list of all slots. -/
theorem slots_modify {f : File} (hf : f ∈ w.files.docs) {b : ℕ} {cs : List FileBlock}
    (hcs : f.blocks[b]? = some cs) : ∃ X Y, w.slots = X ++ (cs.map FileBlock.slot ++ Y) ∧
      ∀ g u, (∀ a : File, (u a).blocks = a.blocks.modify b g) →
        (w.files.rewrite f.id u).flatMap File.slots = X ++ ((g cs).map FileBlock.slot ++ Y) := by
  obtain ⟨A, B, hAB, hrw, -⟩ := Collection.split hf
  obtain ⟨A', B', hl, hmod⟩ := flatten_modify hcs
  refine ⟨A.flatMap File.slots ++ A'.map FileBlock.slot, B'.map FileBlock.slot ++ B.flatMap File.slots, ?_,
    fun g u hu => ?_⟩
  · simp [World.slots, hAB, File.slots, hl]
  · rw [hrw u]
    simp [File.slots, hu, hmod]

/-- What modifying a block does to the blocks. -/
theorem mem_modify {α : Type} {l : List (List α)} {b : ℕ} {g : List α → List α} {cs : List α}
    (h : cs ∈ l.modify b g) : cs ∈ l ∨ ∃ ds, l[b]? = some ds ∧ cs = g ds := by
  obtain ⟨i, hi⟩ := List.mem_iff_getElem?.1 h
  rw [List.getElem?_modify] at hi
  by_cases hb : b = i
  · subst hb
    simp only [if_true, Option.map_eq_map, Option.map_eq_some_iff] at hi
    obtain ⟨ds, hds, rfl⟩ := hi
    exact Or.inr ⟨ds, hds, rfl⟩
  · simp only [hb, if_false, Option.map_eq_map, Option.map_id'] at hi
    exact Or.inl (List.mem_of_getElem? hi)

/-- The slots after a copy is pulled. -/
theorem slots_pullCopy (hn : w.slots.Nodup) {f : File} (hf : f ∈ w.files.docs) {b : ℕ} {cs : List FileBlock}
    (hcs : f.blocks[b]? = some cs) {copy : FileBlock} (hcopy : copy ∈ cs) :
    ((w.files.update f.id (File.pullCopy b copy)).docs.flatMap File.slots).Sublist w.slots ∧
      ∀ s, s ∈ (w.files.update f.id (File.pullCopy b copy)).docs.flatMap File.slots ↔
        s ∈ w.slots ∧ s ≠ copy.slot := by
  obtain ⟨X, Y, hX, hXY⟩ := slots_modify hf hcs
  rw [docs_pullCopy, hXY (fun cs => cs.filter fun c => c ≠ copy) _ fun _ => rfl]
  rw [hX, List.nodup_append, List.nodup_append] at hn
  have hcs' : copy.slot ∈ cs.map FileBlock.slot := List.mem_map_of_mem hcopy
  rw [hX]
  refine ⟨(List.Sublist.refl _).append ((List.filter_sublist.map _).append (List.Sublist.refl _)), fun s => ?_⟩
  simp only [List.mem_append, List.mem_map, List.mem_filter, decide_eq_true_eq]
  constructor
  · rintro (hs | ⟨c, ⟨hc, hne⟩, rfl⟩ | hs)
    · exact ⟨Or.inl hs, fun he => hn.2.2 s hs s (by simp [he, hcs']) rfl⟩
    · exact ⟨Or.inr (Or.inl ⟨c, hc, rfl⟩), fun he => hne (FileBlock.slot_injective he)⟩
    · exact ⟨Or.inr (Or.inr hs), fun he => hn.2.1.2.2 s (he ▸ hcs') s hs rfl⟩
  · rintro ⟨hs | ⟨c, hc, rfl⟩ | hs, hnot⟩
    · exact Or.inl hs
    · exact Or.inr (Or.inl ⟨c, ⟨hc, fun he => hnot (he ▸ rfl)⟩, rfl⟩)
    · exact Or.inr (Or.inr hs)

/-- The slots after a copy is added to a block that does not have it. -/
theorem slots_addCopy {f : File} (hf : f ∈ w.files.docs) {b : ℕ} {cs : List FileBlock}
    (hcs : f.blocks[b]? = some cs) {copy : FileBlock} (hnew : copy ∉ cs) :
    ((w.files.update f.id (File.addCopy b copy)).docs.flatMap File.slots).Perm (copy.slot :: w.slots) := by
  obtain ⟨X, Y, hX, hXY⟩ := slots_modify hf hcs
  rw [docs_addCopy, hXY (fun cs => if copy ∈ cs then cs else cs ++ [copy]) _ fun _ => rfl, hX, if_neg hnew]
  simp only [List.map_append, List.map_cons, List.map_nil, List.append_assoc, List.cons_append, List.nil_append]
  rw [← List.append_assoc, ← List.append_assoc]
  exact List.perm_middle

/-- **Deleting a copy keeps the invariant.** -/
theorem Owned.pullCopy (h : Owned w) {f : File} (hf : f ∈ w.files.docs) {b : ℕ} {cs : List FileBlock}
    (hcs : f.blocks[b]? = some cs) {copy : FileBlock} (hcopy : copy ∈ cs) :
    Owned { w.mapBits (unmark [copy.slot]) with files := w.files.update f.id (File.pullCopy b copy) } := by
  set w' : World := { w.mapBits (unmark [copy.slot]) with
    files := w.files.update f.id (File.pullCopy b copy) } with hw'
  have hdocs : w'.files.docs = w.files.rewrite f.id (File.pullCopy b copy) := docs_pullCopy _ _ _ _
  obtain ⟨hsub, hmem⟩ := slots_pullCopy h.nodup hf hcs hcopy
  refine h.shrink (P := fun s => s ∉ [copy.slot]) (fun f' hf' => ?_) hsub (fun s => ?_) (fun s => ?_) ?_ rfl
  · rw [hdocs, Collection.rewrite, List.mem_map] at hf'
    obtain ⟨g, hg, rfl⟩ := hf'
    refine ⟨g, hg, ?_, ?_, fun ds hds => ?_⟩
    · split <;> rfl
    · split <;> simp [File.pullCopy]
    · split at hds
      · rcases mem_modify hds with hds | ⟨es, hes, rfl⟩
        · exact ⟨ds, hds, List.Sublist.refl _⟩
        · exact ⟨es, List.mem_of_getElem? hes, List.filter_sublist⟩
      · exact ⟨ds, hds, List.Sublist.refl _⟩
  · rw [List.mem_singleton]; exact hmem s
  · exact used_unmark
  · exact h.fits.unmark _

/-- **A new copy keeps the invariant.** -/
theorem Owned.addCopy (h : Owned w) {f : File} (hf : f ∈ w.files.docs) {b : ℕ} {cs : List FileBlock}
    (hcs : f.blocks[b]? = some cs) {copy : FileBlock} {block : CStr}
    (hc : Copied w w' f.id cs b copy block) : Owned w' := by
  have hfiles : w'.files = w.files.update f.id (File.addCopy b copy) := by rw [hc.world]
  have hdocs : w'.files.docs = w.files.rewrite f.id (File.addCopy b copy) := by
    rw [hfiles]; exact docs_addCopy _ _ _ _
  have hnodes : w'.nodes = (({ w with disk := w'.disk } : World).mapBits (mark [copy.slot])).nodes := by
    have := congrArg World.nodes hc.world
    exact this
  have hfree : ∀ s ∈ [copy.slot], World.Free { w with disk := w'.disk } s := fun s hs => by
    rw [List.mem_singleton.1 hs]; exact hc.free
  have hnew : copy ∉ cs := fun hm => hc.apart (List.mem_map_of_mem hm)
  have hslots : w'.slots.Perm (copy.slot :: w.slots) := by
    rw [World.slots, hfiles]; exact slots_addCopy hf hcs hnew
  refine ⟨?_, fun s => ?_, ?_, ?_, ?_, ?_⟩
  · have := World.Fits.mark (w := { w with disk := w'.disk }) h.fits hfree
    simpa only [World.Fits, hnodes] using this
  · have := used_mark (w := { w with disk := w'.disk }) h.fits hfree (s := s)
    simp only [World.Used, hnodes] at this ⊢
    rw [this, hslots.mem_iff, List.mem_singleton, List.mem_cons, ← h.used s, or_comm]
    rfl
  · rw [hslots.nodup_iff, List.nodup_cons, ← h.used]
    exact ⟨hc.free.not_used, h.nodup⟩
  · rw [hdocs]
    intro f' hf' ds hds
    obtain ⟨g, hg, rfl⟩ := List.mem_map.1 hf'
    split at hds
    · rename_i hid
      rcases mem_modify hds with hds | ⟨es, hes, rfl⟩
      · exact h.apart g hg ds hds
      -- the block that got the copy: its node had none of it
      · rw [Collection.eq_of_key hg hf hid, hcs] at hes
        cases hes
        rw [if_neg hnew, List.map_append, List.nodup_append]
        refine ⟨h.apart f hf _ (List.mem_of_getElem? hcs), List.nodup_singleton _, ?_⟩
        rintro a ha _ hb rfl
        exact hc.apart (List.mem_singleton.1 hb ▸ ha)
    · exact h.apart g hg ds hds
  · rw [hdocs]
    intro f' hf'
    obtain ⟨g, hg, rfl⟩ := List.mem_map.1 hf'
    split
    · simpa [File.addCopy] using h.short g hg
    · exact h.short g hg
  · have ho : w'.oids = w.oids := by rw [hc.world]; rfl
    rw [hdocs, ho]
    intro f' hf'
    obtain ⟨g, hg, rfl⟩ := List.mem_map.1 hf'
    split <;> exact h.fresh g hg

/-- **A node that is new keeps the invariant.** -/
theorem Owned.newNode (h : Owned w) {nodeId : CStr} {count : UInt16} {nodes : Nodes}
    (hi : w.nodes.insert (nodeCreate nodeId count) = some nodes) : Owned { w with nodes := nodes } := by
  obtain ⟨-, hdocs⟩ := Collection.insert_eq_some.1 hi
  refine ⟨fun n hn => ?_, fun s => ?_, h.nodup, h.apart, h.short, h.fresh⟩
  · rcases List.mem_append.1 (hdocs ▸ hn : n ∈ _) with hn | hn
    · exact h.fits n hn
    · rw [List.mem_singleton.1 hn]; exact fits_nodeCreate _ _
  · refine Iff.trans ⟨?_, ?_⟩ (h.used s)
    · rintro ⟨n, hn, hid, hb⟩
      rcases List.mem_append.1 (hdocs ▸ hn : n ∈ _) with hn | hn
      · exact ⟨n, hn, hid, hb⟩
      · rw [List.mem_singleton.1 hn] at hb
        simp [nodeCreate, getByteArrayForBlocksCount] at hb
    · rintro ⟨n, hn, hid, hb⟩
      exact ⟨n, (by rw [hdocs]; exact List.mem_append_left _ hn), hid, hb⟩

/-- **A known node that says it is new keeps the invariant.** -/
theorem Owned.renewed (h : Owned w) {nodeId : CStr} {count : UInt16} (hr : Renewed w w' nodeId count) :
    Owned w' := by
  have hws : w'.slots = w.files.docs.flatMap fun f => (f.without nodeId).slots := by
    rw [World.slots, hr.files, List.flatMap_map]
  refine h.shrink (P := fun s => s.1 ≠ nodeId) (fun f' hf' => ?_) ?_ (fun s => ?_) (fun s => ?_) ?_
    (by rw [hr.world])
  · rw [hr.files, List.mem_map] at hf'
    obtain ⟨f, hf, rfl⟩ := hf'
    refine ⟨f, hf, rfl, by simp [File.without], fun cs hcs => ?_⟩
    obtain ⟨ds, hds, rfl⟩ := List.mem_map.1 hcs
    exact ⟨ds, hds, List.filter_sublist⟩
  -- filtering the copies of a file keeps the order of its slots
  · rw [hws]
    refine List.Sublist.flatMap_right _ fun f _ => List.Sublist.map _ ?_
    rw [File.without, ← List.filter_flatten]
    exact List.filter_sublist
  · simp only [World.slots, hr.files, List.flatMap_map, List.mem_flatMap, mem_file_slots]
    constructor
    · rintro ⟨f, hf, cs, hcs, c, hc, rfl⟩
      obtain ⟨ds, hds, rfl⟩ := List.mem_map.1 hcs
      rw [List.mem_filter, decide_eq_true_eq] at hc
      exact ⟨⟨f, hf, ds, hds, c, hc.1, rfl⟩, hc.2⟩
    · rintro ⟨⟨f, hf, cs, hcs, c, hc, rfl⟩, hne⟩
      exact ⟨f, hf, _, List.mem_map_of_mem hcs, c, List.mem_filter.2 ⟨hc, decide_eq_true hne⟩, rfl⟩
  · simp only [World.Used, hr.nodes, List.mem_map]
    constructor
    · rintro ⟨_, ⟨n, hn, rfl⟩, hid, hb⟩
      split at hb
      · simp [nodeCreate, getByteArrayForBlocksCount] at hb
      · rename_i hne
        rw [if_neg hne] at hid
        exact ⟨⟨n, hn, hid, hb⟩, hid ▸ hne⟩
    · rintro ⟨⟨n, hn, hid, hb⟩, hne⟩
      exact ⟨n, ⟨n, hn, if_neg (hid ▸ hne)⟩, hid, hb⟩
  · intro n hn
    rw [hr.nodes] at hn
    obtain ⟨m, hm, rfl⟩ := List.mem_map.1 hn
    split
    · exact fits_nodeCreate _ _
    · exact h.fits m hm

/-- **A formatted store satisfies the invariant.** -/
theorem owned_format {nodes : Nodes} {l : List Node} (hn : nodes.docs = l.map nodeSetAllBlocksFree)
    (hf : w.files = .empty) (hw : w.nodes = nodes) : Owned w := by
  have hzero : ∀ n ∈ w.nodes.docs, n.Fits ∧ ∀ i, n.blocks.testBit i = false := by
    rw [hw, hn]
    intro n hn
    obtain ⟨m, -, rfl⟩ := List.mem_map.1 hn
    exact ⟨fits_nodeSetAllBlocksFree m, fun i => by simp [nodeSetAllBlocksFree, getByteArrayForBlocksCount]⟩
  refine ⟨fun n hn => (hzero n hn).1, fun s => ⟨?_, ?_⟩, ?_, ?_, ?_, ?_⟩
  · rintro ⟨n, hn, -, hb⟩
    rw [(hzero n hn).2] at hb
    exact absurd hb Bool.false_ne_true
  all_goals simp [World.slots, hf]

/-- **Moving and renaming a file keep the invariant**: its copies stay. -/
theorem Owned.updateFile (h : Owned w) {id : Oid} {g : File → File} (hid : ∀ f, (g f).id = f.id)
    (hblocks : ∀ f, (g f).blocks = f.blocks) : Owned { w with files := w.files.update id g } := by
  rcases Collection.docs_update_or (c := w.files) (k := id) (f := g) with hdocs | hsame
  · have hws : World.slots { w with files := w.files.update id g } = w.slots := by
      rw [World.slots, hdocs, Collection.rewrite, List.flatMap_map, World.slots]
      refine congrArg List.flatten (List.map_congr_left fun f _ => ?_)
      split
      · simp only [File.slots, hblocks]
      · rfl
    have hmem : ∀ f' ∈ (w.files.update id g).docs, ∃ f ∈ w.files.docs, f'.id = f.id ∧ f'.blocks = f.blocks := by
      rw [hdocs]
      intro f' hf'
      obtain ⟨f, hf, rfl⟩ := List.mem_map.1 hf'
      refine ⟨f, hf, ?_, ?_⟩ <;> split <;> simp [hid, hblocks]
    refine h.shrink (P := fun _ => True) (fun f' hf' => ?_) (by rw [hws]) (fun s => by rw [hws]; simp)
      (fun s => by simp [World.Used]) h.fits rfl
    obtain ⟨f, hf, h1, h2⟩ := hmem f' hf'
    exact ⟨f, hf, h1, by rw [h2], fun cs hcs => ⟨cs, h2 ▸ hcs, List.Sublist.refl _⟩⟩
  · rw [hsame]; exact h

/-! ## Runs of operations -/

/-- The operations on the store. One on a file loads it by name first; one on a
directory is given the record that a path resolved to, and a new directory the id
of the one it is made in. -/
inductive Operation
  | addDir (name : CStr) (parentId : Oid)
  | addNode (nodeId : CStr) (blocksCount : UInt16) (isNewNode : Bool)
  | copyFileFromFS (route name : CStr) (parentId : Oid)
  | copyTmpFileToMDFS (nodeId finalTmpName resultFilePath : CStr)
  | makeNewFileBlockCopy (name : CStr) (parentId : Oid) (blockIndex : UInt16)
  | deleteFileBlockCopy (name : CStr) (parentId : Oid) (blockIndex copyIndex : UInt16)
  | deleteFile (name : CStr) (parentId : Oid)
  | deleteDir (fuel : ℕ) (dir : Dir)
  | format
  | moveFile (name : CStr) (parentId destinationId : Oid)
  | moveDir (dir : Dir) (destinationId : Oid)
  | renameFile (name : CStr) (parentId : Oid) (newName : CStr)
  | renameDir (dir : Dir) (newName : CStr)

/-- The record a new file is imported with. -/
def newFile (name : CStr) (parentId : Oid) : File := ⟨.root, parentId, name, 0, []⟩

def Operation.prog (sort : NodeSort) : Operation → FsProg Unit
  | .addDir name parentId => do
    let _ ← filesystemAddDir ⟨.root, parentId, name⟩
  | .addNode nodeId blocksCount isNewNode => filesystemAddNode nodeId blocksCount isNewNode
  | .copyFileFromFS route name parentId => do
    let _ ← filesystemCopyFileFromFS sort route (newFile name parentId)
  | .copyTmpFileToMDFS nodeId finalTmpName resultFilePath => do
    let _ ← filesystemCopyTmpFileToMDFS sort nodeId finalTmpName resultFilePath
      COMMAND_RESULT_CANT_COPY
  | .makeNewFileBlockCopy name parentId blockIndex => do
    let file ← filesystemGetFileByNameInDir name parentId
    let _ ← filesystemMakeNewFileBlockCopy sort file blockIndex
  | .deleteFileBlockCopy name parentId blockIndex copyIndex => do
    let file ← filesystemGetFileByNameInDir name parentId
    let _ ← filesystemDeleteFileBlockCopy file blockIndex copyIndex
  | .deleteFile name parentId => do
    let file ← filesystemGetFileByNameInDir name parentId
    let _ ← filesystemDeleteFile file
  | .deleteDir fuel dir => do
    let _ ← filesystemDeleteDir fuel (some dir)
  | .format => do
    let _ ← filesystemFormat
  | .moveFile name parentId destinationId => do
    match ← filesystemGetFileByNameInDir name parentId with
    | some file => filesystemMoveFile file destinationId
    | none => pure ()
  | .moveDir dir destinationId => filesystemMoveDir dir destinationId
  | .renameFile name parentId newName => do
    match ← filesystemGetFileByNameInDir name parentId with
    | some file => filesystemRenameFile file newName
    | none => pure ()
  | .renameDir dir newName => filesystemRenameDir dir newName

/-- An operation run to its end, with what the outside world decides on the way. -/
def Operation.step (sort : NodeSort) (w : World) (x : Operation × List Choice) : Option World :=
  match (x.1.prog sort).exec handle w x.2 with
  | some (.ok _, w') => some w'
  | _ => none

/-- Every request that the operation makes satisfies `C`. -/
def Operation.Meets (sort : NodeSort) (C : World → Req → Choice → Prop) (w : World)
    (x : Operation × List Choice) : Prop := (x.1.prog sort).Along handle C w x.2

/-- The file that a request stores. -/
def Req.stored : Req → Option File
  | .fileInsert f => some f
  | _ => none

/-- A file that is stored has fewer than 65536 blocks. -/
def FewBlocks (_ : World) (r : Req) (_ : Choice) : Prop := ∀ f ∈ r.stored, f.blocks.length < 65536

instance (w : World) (r : Req) (c : Choice) : Decidable (FewBlocks w r c) :=
  inferInstanceAs (Decidable (∀ f ∈ r.stored, f.blocks.length < 65536))

instance (C : World → Req → Choice → Prop) [∀ w r c, Decidable (C w r c)] (w : World)
    (x : Operation × List Choice) : Decidable (Operation.Meets sort C w x) :=
  inferInstanceAs (Decidable ((x.1.prog sort).Along handle C w x.2))

/-- The store without directories, files or nodes. -/
def World.empty (disk : Slot → CStr) : World := ⟨.empty, .empty, .empty, 0, disk⟩

theorem owned_empty (disk : Slot → CStr) : Owned (World.empty disk) :=
  owned_format (l := []) rfl rfl rfl

/-- A completed operation ends as its program does. -/
theorem Operation.step_ok {x : Operation × List Choice} {I : World → Prop}
    (hp : (x.1.prog sort).Ok (worldSpec C) (fun _ v => I v) (fun _ _ => True) w)
    (hC : Operation.Meets sort C w x) (hs : Operation.step sort w x = some w') : I w' := by
  unfold Operation.step at hs
  split at hs
  · rename_i h
    cases hs
    exact hp.exec_along hC h
  · cases hs

theorem getFile_ok {name : CStr} {parentId : Oid} {Q : Option File → World → Prop} (hnone : Q none w)
    (hsome : ∀ f ∈ w.files.docs, f.name = name → f.parentId = parentId → Q (some f) w) :
    (filesystemGetFileByNameInDir name parentId).Ok (worldSpec C) Q E w := by
  simp only [filesystemGetFileByNameInDir, mongoFileGetByNameInDir, ok_ask, Prog.ok_ret, serve]
  intro _ _
  cases hf : w.files.findIdx (name, parentId) with
  | none => exact hnone
  | some f =>
    obtain ⟨hm, hi⟩ := Collection.findIdx_eq_some.1 hf
    simp only [Prod.mk.injEq] at hi
    exact hsome f hm hi.1 hi.2

/-- What the operations can bring about, one field for each kind of change: `I`
is kept along `C`. The directories do not matter to `I`. -/
structure Kept (C : World → Req → Choice → Prop) (I : World → Prop) : Prop where
  owned : ∀ {w}, I w → Owned w
  untouched : ∀ {w w'}, I w → Untouched w w' → I w'
  imported : ∀ {w w' bs f}, I w → Asked C w f → Imported w w' bs f → I w'
  copied : ∀ {w w' f cs b c ch block copy}, I w → f ∈ w.files.docs → f.blocks[b]? = some cs → c ∈ cs →
    C w (.getBlock c) ch → ch.content = some block → Copied w w' f.id cs b copy (upToNul block) → I w'
  pulled : ∀ {w f cs b copy}, I w → f ∈ w.files.docs → f.blocks[b]? = some cs → copy ∈ cs →
    I { w.mapBits (unmark [copy.slot]) with files := w.files.update f.id (File.pullCopy b copy) }
  dropped : ∀ {w f}, I w → f ∈ w.files.docs → (∃ u c, C u (.fileDelete f.id) c) → I (w.dropFile f)
  newNode : ∀ {w nodeId count nodes}, I w → w.nodes.insert (nodeCreate nodeId count) = some nodes →
    I { w with nodes := nodes }
  renewed : ∀ {w w' nodeId count}, I w → Renewed w w' nodeId count → I w'
  formatted : ∀ {w} {nodes : Nodes}, I w → (∃ u c, C u .fileDeleteAll c) →
    nodes.docs = w.nodes.docs.map nodeSetAllBlocksFree →
    I { w with dirs := .empty, files := .empty, nodes := nodes }
  moved : ∀ {w f p c}, I w → f ∈ w.files.docs → C w (.fileSetParent f.id p) c →
    I { w with files := w.files.update f.id fun f => { f with parentId := p } }
  renamed : ∀ {w f n c}, I w → f ∈ w.files.docs → C w (.fileSetName f.id n) c →
    I { w with files := w.files.update f.id fun f => { f with name := n } }
  dirs : ∀ {w dirs}, I w → I { w with dirs := dirs }

/-- What the operation `op` can bring about: as `Kept`, with a copy deleted or a node renewed by
the operations alone that do so. -/
structure KeptBy (op : Operation) (C : World → Req → Choice → Prop) (I : World → Prop) : Prop where
  owned : ∀ {w}, I w → Owned w
  untouched : ∀ {w w'}, I w → Untouched w w' → I w'
  imported : ∀ {w w' bs f}, I w → Asked C w f → Imported w w' bs f → I w'
  copied : ∀ {w w' f cs b c ch block copy}, I w → f ∈ w.files.docs → f.blocks[b]? = some cs → c ∈ cs →
    C w (.getBlock c) ch → ch.content = some block → Copied w w' f.id cs b copy (upToNul block) → I w'
  pulled : ∀ {w f cs b i copy}, op = .deleteFileBlockCopy f.name f.parentId b i → I w → f ∈ w.files.docs →
    f.blocks[b.toNat]? = some cs → copy ∈ cs →
    I { w.mapBits (unmark [copy.slot]) with files := w.files.update f.id (File.pullCopy b.toNat copy) }
  dropped : ∀ {w f}, I w → f ∈ w.files.docs → (∃ u c, C u (.fileDelete f.id) c) → I (w.dropFile f)
  newNode : ∀ {w nodeId count nodes}, I w → w.nodes.insert (nodeCreate nodeId count) = some nodes →
    I { w with nodes := nodes }
  renewed : ∀ {w w' nodeId count}, op = .addNode nodeId count true → I w → Renewed w w' nodeId count → I w'
  formatted : ∀ {w} {nodes : Nodes}, I w → (∃ u c, C u .fileDeleteAll c) →
    nodes.docs = w.nodes.docs.map nodeSetAllBlocksFree →
    I { w with dirs := .empty, files := .empty, nodes := nodes }
  moved : ∀ {w f p c}, I w → f ∈ w.files.docs → C w (.fileSetParent f.id p) c →
    I { w with files := w.files.update f.id fun f => { f with parentId := p } }
  renamed : ∀ {w f n c}, I w → f ∈ w.files.docs → C w (.fileSetName f.id n) c →
    I { w with files := w.files.update f.id fun f => { f with name := n } }
  dirs : ∀ {w dirs}, I w → I { w with dirs := dirs }

/-- **An operation keeps what its changes keep.** -/
theorem keptBy_prog {op : Operation} {I : World → Prop} (hK : KeptBy op C I) (h : I w) :
    (op.prog sort).Ok (worldSpec C) (fun _ v => I v) (fun _ _ => True) w := by
  have hO := hK.owned h
  have hnode : ∀ v, I v → v.Fits ∧ ∀ f ∈ v.files.docs, ∀ c ∈ f.blocks.flatten,
      ∃ n ∈ v.nodes.docs, n.id = c.nodeId :=
    fun v hv => ⟨(hK.owned hv).fits, fun f hf c hc => (hK.owned hv).stored hf hc⟩
  -- each operation is its spec lemma, with the change of the store read off as one of `KeptBy`
  cases op with
  | addDir name parentId =>
    simp only [Operation.prog, Prog.ok_bind, Prog.ok_pure]
    have hcounted : ∀ oids, w.oids ≤ oids → I { w with oids := oids } := fun oids ho =>
      hK.untouched h ⟨fun _ _ => rfl, ho, rfl⟩
    refine addDir_ok hcounted fun dirs c _ _ _ _ => ?_
    exact hK.dirs (hcounted (w.oids + 1) (Nat.le_succ _))
  | addNode nodeId count isNew =>
    exact addNode_ok hO.short h (fun nodes hi => hK.newNode h hi) fun hnew w' hr => hK.renewed (by rw [hnew]) h hr
  | copyFileFromFS route name parentId =>
    simp only [Operation.prog, Prog.ok_bind, Prog.ok_pure]
    refine copyFileFromFS_ok (fun _ _ _ _ _ _ => trivial) hO.fits (fun g hg => hO.new_id hg)
      rfl (fun r w' _ hu => hK.untouched h hu) ?_
    intro w' c content bs f _ _ _ _ _ _ hask hi
    exact hK.imported h hask hi
  | copyTmpFileToMDFS nodeId tmpName path =>
    simp only [Operation.prog, Prog.ok_bind, Prog.ok_pure]
    refine copyTmpFileToMDFS_ok (fun _ _ => trivial) hO.fits (fun r w' hu => hK.untouched h hu) ?_
    intro w' bs f _ hask hi
    exact hK.imported h hask hi
  | makeNewFileBlockCopy name parentId b =>
    simp only [Operation.prog, Prog.ok_bind, Prog.ok_pure]
    refine getFile_ok ?_ fun f hf _ _ => ?_
    · exact h
    · refine makeNewFileBlockCopy_ok hO.fits (fun r w' hu => hK.untouched h hu) ?_
      intro w' f' cs c ch block copy hf' hcs hc hch hblock hcopied
      cases hf'
      exact hK.copied h hf hcs hc hch hblock hcopied
  | deleteFileBlockCopy name parentId b i =>
    simp only [Operation.prog, Prog.ok_bind, Prog.ok_pure]
    refine getFile_ok ?_ fun f hf hname hparent => ?_
    · exact h
    · refine deleteFileBlockCopy_ok hO.fits (fun _ => h) ?_
      intro f' cs copy hf' hcs hcopy
      cases hf'
      have hop : Operation.deleteFileBlockCopy name parentId b i = .deleteFileBlockCopy f.name f.parentId b i := by
        rw [hname, hparent]
      exact ⟨hO.stored hf (List.mem_flatten.2 ⟨cs, List.mem_of_getElem? hcs, hcopy⟩), hK.pulled hop h hf hcs hcopy⟩
  | deleteFile name parentId =>
    simp only [Operation.prog, Prog.ok_bind, Prog.ok_pure]
    refine getFile_ok ?_ fun f hf _ _ => ?_
    · exact h
    · exact deleteFile_ok hO.fits (fun c hc => hO.stored hf hc) fun hC => hK.dropped h hf hC
  | deleteDir fuel dir =>
    simp only [Operation.prog, Prog.ok_bind, Prog.ok_pure]
    exact deleteDir_ok (fun _ _ => trivial) hnode (fun v f hv hf hC => hK.dropped hv hf hC)
      (fun v id hv => hK.dirs hv) h
  | format =>
    simp only [Operation.prog, Prog.ok_bind, Prog.ok_pure]
    exact format_ok fun nodes hC hn => hK.formatted h hC hn
  | moveFile name parentId destinationId =>
    simp only [Operation.prog, Prog.ok_bind]
    refine getFile_ok ?_ fun f hf _ _ => ?_
    · exact h
    · simp only [filesystemMoveFile, mongoFileUpdateParentId, ok_ask, Prog.ok_ret, serve]
      exact fun c hC => hK.moved h hf hC
  | moveDir dir destinationId =>
    simp only [Operation.prog, filesystemMoveDir, mongoDirUpdateParentId, ok_ask, Prog.ok_ret, serve]
    exact fun _ _ => hK.dirs h
  | renameFile name parentId newName =>
    simp only [Operation.prog, Prog.ok_bind]
    refine getFile_ok ?_ fun f hf _ _ => ?_
    · exact h
    · simp only [filesystemRenameFile, mongoFileUpdateName, ok_ask, Prog.ok_ret, serve]
      exact fun c hC => hK.renamed h hf hC
  | renameDir dir newName =>
    simp only [Operation.prog, filesystemRenameDir, mongoDirUpdateName, ok_ask, Prog.ok_ret, serve]
    exact fun _ _ => hK.dirs h

theorem Kept.by {I : World → Prop} (hK : Kept C I) (op : Operation) : KeptBy op C I where
  owned := hK.owned
  untouched := hK.untouched
  imported := hK.imported
  copied := hK.copied
  pulled _ := hK.pulled
  dropped := hK.dropped
  newNode := hK.newNode
  renewed _ := hK.renewed
  formatted := hK.formatted
  moved := hK.moved
  renamed := hK.renamed
  dirs := hK.dirs

/-- **Every operation keeps what the changes keep.** -/
theorem kept_prog {I : World → Prop} (hK : Kept C I) (h : I w) (op : Operation) :
    (op.prog sort).Ok (worldSpec C) (fun _ v => I v) (fun _ _ => True) w := keptBy_prog (hK.by op) h

/-- **What the changes keep holds after every run.** -/
theorem kept_run {I : World → Prop} (hK : Kept C I) {es : List (Operation × List Choice)} (h : I w)
    (hC : Along (Operation.step sort) (Operation.Meets sort C) w es)
    (hr : run (Operation.step sort) w es = some w') : I w' :=
  run_inv (fun _ x _ hs hm hstep => Operation.step_ok (kept_prog hK hs x.1) hm hstep) h hC hr

/-- The changes keep the ownership invariant. -/
theorem kept_owned : Kept FewBlocks Owned where
  owned h := h
  untouched h hu := h.untouched hu
  imported h hask hi := by
    obtain ⟨u, c, -, -, hmet, -⟩ := hask.met
    exact h.imported hi (hmet _ rfl)
  copied h hf hcs _ _ _ hc := h.addCopy hf hcs hc
  pulled h hf hcs hc := h.pullCopy hf hcs hc
  dropped h hf _ := h.dropFile hf
  newNode h hi := h.newNode hi
  renewed h hr := h.renewed hr
  formatted _ _ hn := owned_format hn rfl rfl
  moved h _ _ := h.updateFile (fun _ => rfl) fun _ => rfl
  renamed h _ _ := h.updateFile (fun _ => rfl) fun _ => rfl
  dirs h := h.congr rfl rfl le_rfl

/-- What the store is, block by block. -/
structure Ownership (w : World) : Prop where
  /-- A recorded copy is a block of a stored node, with its bit set. -/
  stored : ∀ f ∈ w.files.docs, ∀ cs ∈ f.blocks, ∀ c ∈ cs, ∃ n ∈ w.nodes.docs, n.id = c.nodeId ∧
    c.blockIndex.toNat < n.blocksCount.toNat ∧ n.blocks.testBit c.blockIndex.toNat = true
  /-- No two recorded copies are the same block of the same node. -/
  distinct : (w.files.docs.flatMap File.slots).Nodup
  /-- A set bit is a recorded copy. -/
  recorded : ∀ n ∈ w.nodes.docs, ∀ i, n.blocks.testBit i = true →
    ∃ f ∈ w.files.docs, ∃ cs ∈ f.blocks, ∃ c ∈ cs, c.nodeId = n.id ∧ c.blockIndex.toNat = i
  /-- The copies of one block are on different nodes. -/
  apart : ∀ f ∈ w.files.docs, ∀ cs ∈ f.blocks, (cs.map FileBlock.nodeId).Nodup
  /-- A bitmap has one bit for each block, rounded up to bytes. -/
  size : ∀ n ∈ w.nodes.docs, n.blocks.size = (n.blocksCount.toNat + 7) / 8

theorem Owned.ownership (h : Owned w) : Ownership w := by
  refine ⟨fun f hf cs hcs c hc => ?_, h.nodup, fun n hn i hb => ?_, h.apart, fun n hn => (h.fits n hn).size⟩
  · obtain ⟨n, hn, hid, hb⟩ := (h.used c.slot).2
      (mem_slots_of_copy hf (List.mem_flatten.2 ⟨cs, hcs, hc⟩))
    exact ⟨n, hn, hid, (h.fits n hn).lt _ hb, hb⟩
  · obtain ⟨f, hf, hs⟩ := List.mem_flatMap.1 ((h.used (n.id, i)).1 ⟨n, hn, rfl, hb⟩)
    obtain ⟨cs, hcs, c, hc, he⟩ := mem_file_slots.1 hs
    simp only [FileBlock.slot, Prod.mk.injEq] at he
    exact ⟨f, hf, cs, hcs, c, hc, he.1, he.2⟩

/-- Where the copies and the bits are the same, the bitmaps fit. -/
theorem Ownership.fits (h : Ownership w) : w.Fits := by
  intro n hn
  refine ⟨h.size n hn, fun i hi => ?_⟩
  obtain ⟨f, hf, cs, hcs, c, hc, hid, hidx⟩ := h.recorded n hn i hi
  obtain ⟨m, hm, hmid, hlt, -⟩ := h.stored f hf cs hcs c hc
  have hmn : m = n := Collection.eq_of_key hm hn (hmid.trans hid)
  rw [← hidx, ← hmn]
  exact hlt

/-- **Block ownership.** After every sequence of completed operations from the
empty store, the recorded copies and the used blocks of the nodes are the same. -/
theorem blocks_owned (sort : NodeSort) (disk : Slot → CStr) (es : List (Operation × List Choice)) (w : World)
    (hfew : Along (Operation.step sort) (Operation.Meets sort FewBlocks) (World.empty disk) es)
    (hrun : run (Operation.step sort) (World.empty disk) es = some w) : Ownership w :=
  (kept_run kept_owned (owned_empty disk) hfew hrun).ownership

/-- Three nodes with two blocks each. -/
def threeNodes : List (Operation × List Choice) :=
  [(.addNode (cstr "n1") 2 true, List.replicate 2 .done), (.addNode (cstr "n2") 2 true, List.replicate 2 .done),
    (.addNode (cstr "n3") 2 true, List.replicate 2 .done)]

/-- What is decided while the text `hello` is imported on three nodes. -/
def importHello : List Choice := [.done, .done, .bytes (cstr "hello")] ++ List.replicate 12 .done

/-- A file in a directory of a directory, and `rm -r` of the outer one. -/
def belowDeleted : List (Operation × List Choice) :=
  threeNodes ++ [(.addDir (cstr "d") .root, List.replicate 4 .done),
    (.addDir (cstr "e") (.gen 0), List.replicate 4 .done),
    (.copyFileFromFS (cstr "/tmp/a") (cstr "a") (.gen 1), importHello),
    (.deleteDir 2 ⟨.gen 0, .root, cstr "d"⟩, List.replicate 20 .done)]

theorem blocks_owned_import : ∃ w, run (Operation.step insertionSort) (World.empty fun _ => [])
      (belowDeleted ++ [(.copyFileFromFS (cstr "/tmp/a") (cstr "a") .root, importHello),
        (.deleteFileBlockCopy (cstr "a") .root 0 1, List.replicate 4 .done)]) = some w ∧
    w.dirs.docs = [] ∧ (w.files.docs.flatMap File.slots).length = 2 ∧ Ownership w := by
  set es := belowDeleted ++ [(.copyFileFromFS (cstr "/tmp/a") (cstr "a") .root, importHello),
    (.deleteFileBlockCopy (cstr "a") .root 0 1, List.replicate 4 .done)]
  have hends : (run (Operation.step insertionSort) (World.empty fun _ => []) es).map
      (fun w => (w.dirs.docs, (w.files.docs.flatMap File.slots).length)) = some ([], 2) := by decide +kernel
  obtain ⟨w, hw, hends⟩ := Option.map_eq_some_iff.1 hends
  simp only [Prod.mk.injEq] at hends
  exact ⟨w, hw, hends.1, hends.2, blocks_owned _ _ _ w (by decide +kernel) hw⟩

end Mdfs.FileSystem
