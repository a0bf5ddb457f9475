import Mdfs.FileSystem.Ownership
import Mdfs.FileSystem.Tree

/-!
# The deletion of a directory with all that is below it

`filesystem_deleteDir` deletes the files of a directory, then each of its directories in the same
way, and then the directory. `Deleted` says what is gone and that the rest is as it was; what two
deletions in turn leave is what one of both would.

* `deleteDir_tree`: the recursion, by induction on its depth.
* `delete_subtree`: the directories below are gone, and nothing else.
-/

namespace Mdfs.FileSystem

open Lib

/-- What a deletion does not change of a node. -/
def Node.shape (n : Node) : CStr × UInt16 × ℕ := (n.id, n.blocksCount, n.blocks.size)

/-- **A deletion**: the directories and files that are gone, and nothing else; the bits of the
copies of these files, and no other. -/
structure Deleted (dirGone : Dir → Prop) (fileGone : File → Prop) (w v : World) : Prop where
  dirs : v.dirs.docs.Sublist w.dirs.docs
  dir : ∀ d, d ∈ v.dirs.docs ↔ d ∈ w.dirs.docs ∧ ¬dirGone d
  files : v.files.docs.Sublist w.files.docs
  file : ∀ f, f ∈ v.files.docs ↔ f ∈ w.files.docs ∧ ¬fileGone f
  nodes : v.nodes.docs.map Node.shape = w.nodes.docs.map Node.shape
  used : ∀ s, v.Used s ↔ w.Used s ∧ ∀ f ∈ w.files.docs, fileGone f → s ∉ f.slots
  rest : v = { w with dirs := v.dirs, files := v.files, nodes := v.nodes }

/-- The bitmaps fit, and the copies are on stored nodes. -/
structure Sound (w : World) : Prop where
  fits : w.Fits
  stored : ∀ f ∈ w.files.docs, ∀ c ∈ f.blocks.flatten, ∃ n ∈ w.nodes.docs, n.id = c.nodeId

variable {C : World → Req → Choice → Prop} {u v w : World} {D D' : Dir → Prop} {F F' : File → Prop}

theorem Deleted.refl (w : World) : Deleted (fun _ => False) (fun _ => False) w w :=
  ⟨List.Sublist.refl _, fun _ => (and_iff_left not_false).symm, List.Sublist.refl _,
    fun _ => (and_iff_left not_false).symm, rfl, fun _ => (and_iff_left fun _ _ h => h.elim).symm, rfl⟩

/-- **Two deletions in turn.** -/
theorem Deleted.trans (h : Deleted D F w v) (h' : Deleted D' F' v u) :
    Deleted (fun d => D d ∨ D' d) (fun f => F f ∨ F' f) w u := by
  refine ⟨h'.dirs.trans h.dirs, fun d => ?_, h'.files.trans h.files, fun f => ?_, h'.nodes.trans h.nodes,
    fun s => ?_, ?_⟩
  · rw [h'.dir, h.dir, not_or, and_assoc]
  · rw [h'.file, h.file, not_or, and_assoc]
  · rw [h'.used, h.used, and_assoc]
    refine and_congr_right fun _ => ⟨fun hs f hf => ?_, fun hs => ⟨fun f hf hgone => hs f hf (Or.inl hgone), ?_⟩⟩
    · rintro (hgone | hgone)
      · exact hs.1 f hf hgone
      · -- a file that is gone by both has freed its blocks the first time
        by_cases hfirst : F f
        · exact hs.1 f hf hfirst
        · exact hs.2 f ((h.file f).2 ⟨hf, hfirst⟩) hgone
    · exact fun f hf hgone => hs f ((h.file f).1 hf).1 (Or.inr hgone)
  · rw [h'.rest, h.rest]

/-- Only what is stored counts. -/
theorem Deleted.congr (h : Deleted D F w v) (hD : ∀ d ∈ w.dirs.docs, D d ↔ D' d) (hF : ∀ f ∈ w.files.docs, F f ↔ F' f) :
    Deleted D' F' w v := by
  refine ⟨h.dirs, fun d => ?_, h.files, fun f => ?_, h.nodes, fun s => ?_, h.rest⟩
  · rw [h.dir]
    exact and_congr_right fun hd => not_congr (hD d hd)
  · rw [h.file]
    exact and_congr_right fun hf => not_congr (hF f hf)
  · rw [h.used]
    refine and_congr_right fun _ => forall₂_congr fun f hf => ?_
    rw [hF f hf]

theorem Deleted.sound (h : Deleted D F w v) (hw : Sound w) : Sound v := by
  -- the nodes are the same but for their bits
  have hnode : ∀ n ∈ v.nodes.docs, ∃ m ∈ w.nodes.docs, m.shape = n.shape := fun n hn =>
    List.mem_map.1 (h.nodes ▸ List.mem_map_of_mem hn)
  have hback : ∀ m ∈ w.nodes.docs, ∃ n ∈ v.nodes.docs, n.shape = m.shape := fun m hm =>
    List.mem_map.1 (h.nodes.symm ▸ List.mem_map_of_mem hm)
  constructor
  · intro n hn
    obtain ⟨m, hm, hshape⟩ := hnode n hn
    simp only [Node.shape, Prod.mk.injEq] at hshape
    obtain ⟨hid, hcount, hsize⟩ := hshape
    refine ⟨?_, fun i hi => ?_⟩
    · rw [← hsize, ← hcount]
      exact (hw.fits m hm).size
    · obtain ⟨m', hm', hid', hbit⟩ := ((h.used (n.id, i)).1 ⟨n, hn, rfl, hi⟩).1
      rw [Collection.eq_of_key hm' hm (hid'.trans hid.symm)] at hbit
      rw [← hcount]
      exact (hw.fits m hm).lt i hbit
  · intro f hf c hc
    obtain ⟨m, hm, hid⟩ := hw.stored f ((h.file f).1 hf).1 c hc
    obtain ⟨n, hn, hshape⟩ := hback m hm
    exact ⟨n, hn, (congrArg Prod.fst hshape).trans hid⟩

/-! ## One document -/

theorem deleted_dropFile {f : File} (hf : f ∈ w.files.docs) :
    Deleted (fun _ => False) (fun g => g = f) w (w.dropFile f) := by
  refine ⟨List.Sublist.refl _, fun d => (and_iff_left not_false).symm, List.filter_sublist, fun g => ?_, ?_,
    fun s => ?_, rfl⟩
  · refine Collection.mem_remove.trans (and_congr_right fun hg => ?_)
    rw [decide_eq_false_iff_not]
    refine not_congr ⟨fun hid => Collection.eq_of_key hg hf hid, fun heq => by rw [heq]⟩
  · rw [World.dropFile, nodes_mapBits, List.map_map]
    rfl
  · have hused : (w.dropFile f).Used s ↔ w.Used s ∧ s ∉ f.slots := used_unmark
    rw [hused]
    refine and_congr_right fun _ => ⟨fun hs g _ heq => heq ▸ hs, fun hs => hs f hf rfl⟩

theorem deleted_dir (id : Oid) :
    Deleted (fun d => d.id = id) (fun _ => False) w { w with dirs := w.dirs.remove fun d => d.id = id } := by
  refine ⟨List.filter_sublist, fun d => ?_, List.Sublist.refl _, fun _ => (and_iff_left not_false).symm, rfl,
    fun _ => (and_iff_left fun _ _ h => h.elim).symm, rfl⟩
  rw [Collection.mem_remove, decide_eq_false_iff_not]

/-! ## The recursion -/

/-- The files of a directory. -/
theorem deleteFiles_ok {files : List File} {E : Stop → World → Prop} (hw : Sound w)
    (hsub : files.Sublist w.files.docs) :
    (Prog.iterate (fun file => do let _ ← filesystemDeleteFile (some file)) files).Ok (worldSpec C)
      (fun _ v => Deleted (fun _ => False) (fun g => g ∈ files) w v) E w := by
  refine Prog.ok_iterate (K := fun done v => Deleted (fun _ => False) (fun g => g ∈ done) w v) files ?_ ?_
  · intro done f rest v hsplit hv
    have hnodup : files.Nodup := (List.Nodup.of_map _ w.files.nodup_key).sublist hsub
    have hnew : f ∉ done := fun hm => by
      rw [← hsplit, List.nodup_append] at hnodup
      exact hnodup.2.2 f hm f List.mem_cons_self rfl
    have hf : f ∈ v.files.docs :=
      (hv.file f).2 ⟨hsub.subset (hsplit ▸ List.mem_append_right _ List.mem_cons_self), hnew⟩
    have hsound := hv.sound hw
    simp only [Prog.ok_bind, Prog.ok_pure]
    refine deleteFile_ok hsound.fits (hsound.stored f hf) fun _ => ?_
    refine (hv.trans (deleted_dropFile hf)).congr (fun _ _ => or_self_iff) fun g _ => ?_
    rw [List.mem_append, List.mem_singleton]
  · exact (Deleted.refl w).congr (fun _ _ => Iff.rfl) fun g _ => (iff_of_false List.not_mem_nil not_false).symm

theorem Deleted.parentOf (h : Deleted D F w v) {a b : Oid} (hab : v.parentOf a = some b) : w.parentOf a = some b := by
  obtain ⟨d, hd, hid, hparent⟩ := parentOf_eq_some.1 hab
  exact parentOf_eq_some.2 ⟨d, h.dirs.subset hd, hid, hparent⟩

/-- What is under a directory that is left, when others have gone with all that is under them. -/
theorem Deleted.under_iff {gone : List Dir} (h : Deleted (fun a => ∃ c ∈ gone, Under w.parentOf c.id a.id) F w v)
    {k a : Oid} (ha : ¬∃ c ∈ gone, Under w.parentOf c.id a) : Under v.parentOf k a ↔ Under w.parentOf k a := by
  refine ⟨Under.shrink fun _ _ => h.parentOf, fun hu => ?_⟩
  refine @Under.prune _ _ _ _ _ (fun x => ∃ c ∈ gone, Under w.parentOf c.id x) (fun x hx => ?_) ?_ hu ha
  · cases hp : w.parentOf x with
    | some b =>
      obtain ⟨d, hd, rfl, hparent⟩ := parentOf_eq_some.1 hp
      exact parentOf_eq_some.2 ⟨d, (h.dir d).2 ⟨hd, hx⟩, rfl, hparent⟩
    | none =>
      cases hp' : v.parentOf x with
      | none => rfl
      | some b => rw [h.parentOf hp'] at hp; cases hp
  · rintro x b hp ⟨c, hc, hb⟩
    exact ⟨c, hc, .up hp hb⟩

/-- What is under one child more. -/
theorem exists_under_append {gone : List Dir} {c : Dir} {k : Oid}
    (h : (¬∃ e ∈ gone, Under w.parentOf e.id k) → (Under v.parentOf c.id k ↔ Under w.parentOf c.id k)) :
    (∃ e ∈ gone, Under w.parentOf e.id k) ∨ Under v.parentOf c.id k ↔ ∃ e ∈ gone ++ [c], Under w.parentOf e.id k := by
  have hsplit : (∃ e ∈ gone ++ [c], Under w.parentOf e.id k) ↔
      (∃ e ∈ gone, Under w.parentOf e.id k) ∨ Under w.parentOf c.id k := by
    simp only [List.mem_append, List.mem_singleton, or_and_right, exists_or, exists_eq_left]
  rw [hsplit]
  by_cases hgone : ∃ e ∈ gone, Under w.parentOf e.id k
  · exact iff_of_true (Or.inl hgone) (Or.inl hgone)
  · exact or_congr_right (h hgone)

/-- **The recursion**: `below` has the directories strictly below, and the calls in one another
are no more than these and one. -/
theorem deleteDir_tree : ∀ {fuel : ℕ} {d : Dir} {w : World} {below : List Oid}, Sound w → Loopless w.parentOf d.id →
    (∀ a ∈ w.dirs.docs, Under w.parentOf d.id a.id → a.id ≠ d.id → a.id ∈ below) → below.length < fuel →
    (filesystemDeleteDir fuel (some d)).Ok (worldSpec C) (fun _ v => Deleted (fun a => Under w.parentOf d.id a.id)
      (fun f => Under w.parentOf d.id f.parentId) w v) (fun _ _ => False) w := by
  intro fuel
  induction fuel with
  | zero => exact fun _ _ _ hlt => absurd hlt (Nat.not_lt_zero _)
  | succ fuel ih =>
    intro d w below hw hloop hbelow hlt
    simp only [filesystemDeleteDir, filesystemGetFilesInDir, filesystemGetDirsInDir, mongoFileGetByParentId,
      mongoDirGetByParentId, Prog.ok_bind, ok_ask, Prog.ok_ret, serve]
    intro _ _
    set files := w.files.docs.filter fun f => f.parentId = d.id with hfiles
    refine (deleteFiles_ok hw List.filter_sublist).imp fun _ v hv _ _ => ?_
    set children := v.dirs.docs.filter fun a => a.parentId = d.id with hchildren
    have hchild : ∀ c, c ∈ children ↔ c ∈ w.dirs.docs ∧ c.parentId = d.id := by
      intro c
      rw [hchildren, List.mem_filter, hv.dir, decide_eq_true_eq, and_iff_left not_false]
    -- the directories that have gone so far are the first children, with all that is under them
    refine (Prog.ok_iterate (K := fun done u => Deleted (fun a => ∃ c ∈ done, Under w.parentOf c.id a.id)
      (fun f => f ∈ files ∨ ∃ c ∈ done, Under w.parentOf c.id f.parentId) w u) children ?_ ?_).imp ?_
    · intro done c rest u hsplit hu
      obtain ⟨hc, hparent⟩ := (hchild c).1 (hsplit ▸ List.mem_append_right _ List.mem_cons_self)
      have hup : w.parentOf c.id = some d.id := parentOf_eq_some.2 ⟨c, hc, rfl, hparent⟩
      have hnot : ¬Under w.parentOf c.id d.id := hloop.not_under hup
      have hshrink : ∀ {k a}, Under u.parentOf k a → Under w.parentOf k a := Under.shrink fun _ _ => hu.parentOf
      have hcd : c.id ≠ d.id := fun heq => hnot (heq ▸ .self)
      have hmem : c.id ∈ below := hbelow c hc (.up hup .self) hcd
      simp only [Prog.ok_bind, Prog.ok_pure]
      refine (@ih c u (below.erase c.id) (hu.sound hw) ?_ ?_ ?_).imp fun _ u' hu' => ?_
      · intro b hb hub
        rw [hu.parentOf hb] at hup
        cases hup
        exact hnot (hshrink hub)
      · intro a ha hua hne
        have hca := hshrink hua
        have had : a.id ≠ d.id := fun heq => hnot (heq ▸ hca)
        exact (List.mem_erase_of_ne hne).2 (hbelow a (hu.dirs.subset ha) (hca.trans (.up hup .self)) had)
      · have hpos := List.length_pos_of_mem hmem
        rw [List.length_erase_of_mem hmem]
        omega
      · refine (hu.trans hu').congr (fun a _ => exists_under_append hu.under_iff) fun f _ => ?_
        rw [or_assoc]
        exact or_congr_right (exists_under_append hu.under_iff)
    · have hnone : ∀ k, ¬∃ c ∈ ([] : List Dir), Under w.parentOf c.id k := by
        rintro k ⟨c, hc, -⟩
        exact List.not_mem_nil hc
      exact hv.congr (fun a _ => (iff_of_false (hnone _) not_false).symm) fun f _ => (or_iff_left (hnone _)).symm
    · intro _ u hu
      simp only [mongoDirDeleteById, ok_ask, Prog.ok_ret, serve]
      intro _ _
      have hunder : ∀ k, Under w.parentOf d.id k ↔ k = d.id ∨ ∃ c ∈ children, Under w.parentOf c.id k := by
        intro k
        rw [Lib.under_iff]
        refine or_congr_right ⟨?_, ?_⟩
        · rintro ⟨b, hb, hu⟩
          obtain ⟨c, hc, rfl, hparent⟩ := parentOf_eq_some.1 hb
          exact ⟨c, (hchild c).2 ⟨hc, hparent⟩, hu⟩
        · rintro ⟨c, hc, hu⟩
          obtain ⟨hc, hparent⟩ := (hchild c).1 hc
          exact ⟨c.id, parentOf_eq_some.2 ⟨c, hc, rfl, hparent⟩, hu⟩
      refine (hu.trans (deleted_dir d.id)).congr (fun a _ => ?_) fun f hf => ?_
      · rw [hunder, or_comm]
      · rw [hunder, or_false, hfiles, List.mem_filter, decide_eq_true_eq, and_iff_right hf]

/-- **The deletion of a directory.** Where the directory is not below itself, the call comes to its
end; the directories below it are gone, with the files in them and the bits of their copies, and
the rest is as it was. -/
theorem delete_subtree (h : Ownership w) (d : Dir) (htree : Loopless w.parentOf d.id) (fuel : ℕ)
    (hfuel : w.dirs.docs.length < fuel) :
    (∀ answers : ℕ → Choice, ∃ n x, (filesystemDeleteDir fuel (some d)).exec handle w
      ((List.range n).map answers) = some x) ∧
    ∀ is o w', (filesystemDeleteDir fuel (some d)).exec handle w is = some (o, w') →
      (∃ r, o = .ok r) ∧ Deleted (fun a => Under w.parentOf d.id a.id)
        (fun f => Under w.parentOf d.id f.parentId) w w' := by
  refine ⟨fun answers => Prog.exec_total (fun _ _ _ => rfl) _ _ _, fun is o w' hexec => ?_⟩
  have hw : Sound w := by
    refine ⟨h.fits, fun f hf c hc => ?_⟩
    obtain ⟨cs, hcs, hc⟩ := List.mem_flatten.1 hc
    obtain ⟨n, hn, hid, -⟩ := h.stored f hf cs hcs c hc
    exact ⟨n, hn, hid⟩
  have hbelow : ∀ a ∈ w.dirs.docs, Under w.parentOf d.id a.id → a.id ≠ d.id → a.id ∈ w.dirs.docs.map Dir.id :=
    fun a ha _ _ => List.mem_map_of_mem ha
  have hok := deleteDir_tree (C := fun _ _ _ => True) hw htree hbelow (by rwa [List.length_map])
  have hout := hok.exec_along (Prog.along_of_mem fun _ _ _ _ => trivial) hexec
  cases o with
  | error e => exact hout.elim
  | ok r => exact ⟨⟨r, rfl⟩, hout⟩

/-- Two directories of the root, and one in the first of them. -/
def nestedDirs : Dirs where
  docs := [⟨.gen 5, .root, cstr "d"⟩, ⟨.gen 6, .gen 5, cstr "e"⟩, ⟨.gen 7, .root, cstr "f"⟩]
  nodup_key := by decide
  nodup_idx := by decide

/-- A file in the directory below. -/
def helloBelow : List (Operation × List Choice) :=
  threeNodes ++ [(.copyFileFromFS (cstr "/tmp/a") (cstr "a") (.gen 6), importHello)]

/-- The first directory goes, with the one below it, the file in that and its three bits. -/
theorem delete_subtree_first : ∃ w w' :
    World, run (Operation.step insertionSort) (World.empty fun _ => []) helloBelow = some w ∧
    (filesystemDeleteDir 4 (some ⟨.gen 5, .root, cstr "d"⟩)).exec handle { w with dirs := nestedDirs }
      (List.replicate 13 .done) =
      some (.ok true, w') ∧
    w.nodes.docs.map nodeGetBlocksFreeCount = [1, 1, 1] ∧ w'.nodes.docs.map nodeGetBlocksFreeCount = [2, 2, 2] ∧
    w'.dirs.docs.map Dir.id = [.gen 7] ∧ w'.files.docs.length = 0 ∧
    Deleted (fun a => Under (World.parentOf { w with dirs := nestedDirs }) (.gen 5) a.id)
      (fun f => Under (World.parentOf { w with dirs := nestedDirs }) (.gen 5) f.parentId)
        { w with dirs := nestedDirs } w' := by
  have hall : ∃ w ∈ run (Operation.step insertionSort) (World.empty fun _ => []) helloBelow,
      w.nodes.docs.map nodeGetBlocksFreeCount = [1, 1, 1] ∧
      ∃ x ∈ (filesystemDeleteDir 4 (some ⟨.gen 5, .root, cstr "d"⟩)).exec handle { w with dirs := nestedDirs }
        (List.replicate 13 .done), x.1.toOption = some true ∧
        x.2.nodes.docs.map nodeGetBlocksFreeCount = [2, 2, 2] ∧ x.2.dirs.docs.map Dir.id = [.gen 7] ∧
        x.2.files.docs.length = 0 := by decide +kernel
  obtain ⟨w, hw, hbefore, ⟨o, w'⟩, hexec, ho, hafter, hdirs, hfiles⟩ := hall
  have howned := (kept_run kept_owned (owned_empty fun _ => []) (by decide +kernel) hw).ownership
  have howned' : Ownership { w with dirs := nestedDirs } :=
    ⟨howned.stored, howned.distinct, howned.recorded, howned.apart, howned.size⟩
  have hloop : Loopless (World.parentOf { w with dirs := nestedDirs }) (.gen 5) := by
    intro b hb
    obtain rfl : Oid.root = b := Option.some.inj hb
    exact not_under_of_clear (n := 2) rfl
  obtain ⟨⟨r, rfl⟩, hdeleted⟩ :=
    (delete_subtree howned' ⟨.gen 5, .root, cstr "d"⟩ hloop 4 (Nat.lt_succ_self 3)).2 _ o w' hexec
  obtain rfl : r = true := Option.some.inj ho
  exact ⟨w, w', hw, hexec, hbefore, hafter, hdirs, hfiles, hdeleted⟩

end Mdfs.FileSystem
