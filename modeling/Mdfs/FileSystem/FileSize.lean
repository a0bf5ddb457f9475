import Mathlib.Algebra.Order.BigOperators.Group.List
import Mathlib.Tactic.Ring
import Mdfs.FileSystem.Content
import Mdfs.FileSystem.SplitRange

/-!
# The recorded size of a file

`filesystem_copyFileFromFS` records the size of the local file and cuts the file into blocks by
their lengths, with an `int` for the position. `connections_node_sendBlock` measures each block
again, with `strlen`.

* `size_is_sent`: what is recorded is what was sent, exactly if the file has no zero byte and
  its blocks start in the range of `int`.
-/

namespace Mdfs.FileSystem

open Lib

/-- The local file has the bytes `content`. -/
def LocalFile (content : CStr) (_ : World) (r : Req) (c : Choice) : Prop :=
  ∀ _route ∈ r.routeOpened, c.content = some content

instance (content : CStr) (w : World) (r : Req) (c : Choice) : Decidable (LocalFile content w r c) :=
  inferInstanceAs (Decidable (∀ _route ∈ r.routeOpened, c.content = some content))

/-- The bytes sent for each block: a block has copies, and each of them was sent as many. -/
def SentFor (disk : Slot → CStr) (sizes : List ℕ) (f : File) : Prop :=
  List.Forall₂ (fun n copies => copies ≠ [] ∧ ∀ copy ∈ copies, (disk copy.slot).length = n) sizes f.blocks

/-- **The recorded size is the number of bytes sent** for the file that was added. -/
def SizeIsSent (w w' : World) : Prop :=
  ∃ f sizes, w'.files.docs = w.files.docs ++ [f] ∧ SentFor w'.disk sizes f ∧ sizes.sum = f.size

variable {w w' : World} {sort : NodeSort} {disk : Slot → CStr} {f : File}

/-- As the copies are there, the numbers of bytes are given by them. -/
theorem SentFor.eq {sizes : List ℕ} (h : SentFor disk sizes f) :
    sizes = (f.blocks.map fun copies => copies.map fun copy => (disk copy.slot).length).map fun lengths =>
      lengths.headD 0 := by
  unfold SentFor at h
  generalize f.blocks = css at h
  induction h with
  | nil => rfl
  | @cons n copies _ _ hn _ ih =>
    obtain ⟨copy, rest, rfl⟩ := List.exists_cons_of_ne_nil hn.1
    have hcopy := hn.2 copy List.mem_cons_self
    rw [ih, List.map_cons, List.map_cons, List.map_cons, List.headD_cons, hcopy]

theorem SentFor.of_stores {datas : List CStr} (hst : Stores disk datas f.blocks)
    (hne : ∀ copies ∈ f.blocks, copies ≠ []) :
    SentFor disk (datas.map List.length) f := by
  unfold SentFor
  generalize f.blocks = css at hst hne ⊢
  induction hst with
  | nil => exact .nil
  | cons hcs _ ih =>
    refine .cons ⟨hne _ List.mem_cons_self, fun copy hcopy => ?_⟩ (ih fun cs h => hne cs (List.mem_cons_of_mem _ h))
    rw [hcs copy hcopy]

/-! ## What `strlen` counts -/

theorem length_upToNul_le (s : List UInt8) : (upToNul s).length ≤ s.length := (List.takeWhile_sublist _).length_le

theorem length_upToNul_lt {s : List UInt8} (h : 0 ∈ s) : (upToNul s).length < s.length := by
  refine lt_of_le_of_ne (length_upToNul_le s) fun heq => ?_
  have hall : upToNul s = s := (List.takeWhile_prefix _).eq_of_length heq
  exact zero_not_mem_upToNul s (hall.symm ▸ h)

/-- **The blocks are sent whole**, as far as their sizes tell, if none has a zero byte. -/
theorem sum_upToNul_iff (bs : List (List UInt8)) :
    ((bs.map upToNul).map List.length).sum = bs.flatten.length ↔ 0 ∉ bs.flatten := by
  have hle : ∀ bs : List (List UInt8), ((bs.map upToNul).map List.length).sum ≤ bs.flatten.length := by
    intro bs
    induction bs with
    | nil => exact le_rfl
    | cons b bs ih =>
      have hb := length_upToNul_le b
      simp only [List.map_cons, List.sum_cons, List.flatten_cons, List.length_append]
      omega
  induction bs with
  | nil => simp
  | cons b bs ih =>
    have hrest := hle bs
    simp only [List.map_cons, List.sum_cons, List.flatten_cons, List.length_append, List.mem_append, not_or]
    by_cases hzero : 0 ∈ b
    · have hb := length_upToNul_lt hzero
      exact iff_of_false (by omega) fun hno => hno.1 hzero
    · rw [upToNul_eq hzero, Nat.add_left_cancel_iff]
      exact ih.trans (and_iff_right hzero).symm

/-! ## The import -/

/-- An import that returns 1: the file it adds, and what was sent for its blocks; one that
overflows has a file that is too large. -/
theorem import_sent (h : Owned w) {route content name : CStr} {parentId : Oid} :
    (filesystemCopyFileFromFS sort route (newFile name parentId)).Ok (worldSpec (LocalFile content))
      (fun r v => r = 1 → StartsInRange NODE_BLOCK_SIZE content ∧ ∃ f sizes, v.files.docs = w.files.docs ++ [f] ∧
        SentFor v.disk sizes f ∧ f.size = content.length ∧ (sizes.sum = content.length ↔ 0 ∉ content))
      (fun e _ => e = .overflow → ¬StartsInRange NODE_BLOCK_SIZE content) w := by
  refine copyFileFromFS_ok ?_ h.fits (fun g hg => h.new_id hg) rfl (fun r v hr _ h1 => absurd h1 hr) ?_
  · intro c text fault hc htext hfault hover
    obtain rfl : text = content := Option.some.inj (htext.symm.trans (hc route rfl))
    cases fault with
    | overflow => exact not_startsInRange_of_overflow hfault
    | outside => cases hover
    | rounds => cases hover
  · intro v c text bs f hc htext hbs _ _ hsize _ hi _
    obtain rfl : text = content := Option.some.inj (htext.symm.trans (hc route rfl))
    have hst : Stores v.disk (bs.map upToNul) f.blocks := stores_of_sends hi.dist.length hi.dist.disk
    have hne : ∀ copies ∈ f.blocks, copies ≠ [] := by
      rintro copies hcopies rfl
      exact absurd (hi.dist.copies [] hcopies) (by decide)
    refine ⟨startsInRange_of_ok hbs, f, (bs.map upToNul).map List.length, (Collection.insert_eq_some.1 hi.files).2,
      SentFor.of_stores hst hne, hsize, ?_⟩
    have hsum := sum_upToNul_iff bs
    rwa [getBlocksFromStr_flatten hbs] at hsum

/-- **The recorded size is the number of bytes sent**, for an import that returns 1, exactly if
the local file has no zero byte and its blocks start in the range of `int`. Where they do not,
the position overflows, and an import in C may return 1 as well. -/
theorem size_is_sent (sort : NodeSort) (h : Owned w) (route content name : CStr) (parentId : Oid) (is : List Choice)
    (o : Except Stop ℤ)
    (hreads : (filesystemCopyFileFromFS sort route (newFile name parentId)).Along handle (LocalFile content) w is)
    (himport : (filesystemCopyFileFromFS sort route (newFile name parentId)).exec handle w is = some (o, w'))
    (hone : o = .ok 1 ∨ o = .error .overflow) :
    (o = .ok 1 ∧ SizeIsSent w w') ↔ 0 ∉ content ∧ StartsInRange NODE_BLOCK_SIZE content := by
  have hsent := (import_sent h).exec_along hreads himport
  rcases hone with rfl | rfl
  · obtain ⟨hrange, f, sizes, hdocs, hsent, hsize, hsum⟩ := hsent rfl
    rw [and_iff_right rfl, and_iff_left hrange, ← hsum, ← hsize]
    constructor
    · rintro ⟨f', sizes', hdocs', hsent', hsum'⟩
      -- it is the same file, and the same sizes
      obtain rfl : f = f' := List.cons.inj (List.append_cancel_left (hdocs.symm.trans hdocs')) |>.1
      rw [hsent.eq, ← hsent'.eq, hsum']
    · intro hsum
      exact ⟨f, sizes, hdocs, hsent, hsum⟩
  · refine iff_of_false ?_ ?_
    · rintro ⟨hok, -⟩
      cases hok
    · rintro ⟨-, hrange⟩
      exact hsent rfl hrange

/-- The import of a file with the bytes `content` to three nodes. -/
def importBytes (content : CStr) : List Choice := [.done, .done, .bytes content] ++ List.replicate 12 .done

/-- An import of `content`, as the file `a` of the root. -/
def importA : FsProg ℤ := filesystemCopyFileFromFS insertionSort (cstr "/tmp/a") (newFile (cstr "a") .root)

theorem size_is_sent_hello : ∃ w w' : World,
    run (Operation.step insertionSort) (World.empty fun _ => []) threeNodes = some w ∧
      importA.exec handle w (importBytes (cstr "hello")) = some (.ok 1, w') ∧ SizeIsSent w w' := by
  have hall : ∃ w ∈ run (Operation.step insertionSort) (World.empty fun _ => []) threeNodes,
      importA.Along handle (LocalFile (cstr "hello")) w (importBytes (cstr "hello")) ∧
      ∃ x ∈ importA.exec handle w (importBytes (cstr "hello")), x.1.toOption = some 1 := by decide +kernel
  obtain ⟨w, hw, hreads, ⟨r, w'⟩, hx, hr⟩ := hall
  have hexec : importA.exec handle w (importBytes (cstr "hello")) = some (.ok 1, w') := by
    cases r with
    | ok r => cases hr; exact hx
    | error e => cases hr
  have howned := kept_run kept_owned (owned_empty fun _ => []) (by decide +kernel) hw
  have hrange : StartsInRange NODE_BLOCK_SIZE (cstr "hello") := startsInRange_of_length (by decide)
  exact ⟨w, w', hw, hexec, ((size_is_sent insertionSort howned (cstr "/tmp/a") (cstr "hello") (cstr "a") .root
    (importBytes (cstr "hello")) (.ok 1) hreads hexec (Or.inl rfl)).2 ⟨by decide, hrange⟩).2⟩

/-- A line with a zero byte in it. -/
def zeroInLine : CStr := [97, 0, 98, 10]

/-- **A file with a zero byte**: the import returns 1 and records four bytes, and one byte is
sent to each of the three nodes. -/
theorem zero_not_sent : ∃ w w' : World,
    run (Operation.step insertionSort) (World.empty fun _ => []) threeNodes = some w ∧
      importA.exec handle w (importBytes zeroInLine) = some (.ok 1, w') ∧
      (w'.files.docs.map fun f => (f.size, f.blocks.map fun cs => cs.map fun c => (w'.disk c.slot).length)) =
        [(4, [[1, 1, 1]])] ∧ ¬SizeIsSent w w' := by
  have hall : ∃ w ∈ run (Operation.step insertionSort) (World.empty fun _ => []) threeNodes,
      w.files.docs.length = 0 ∧ ∃ x ∈ importA.exec handle w (importBytes zeroInLine), x.1.toOption = some 1 ∧
      (x.2.files.docs.map fun f => (f.size, f.blocks.map fun cs => cs.map fun c => (x.2.disk c.slot).length)) =
        [(4, [[1, 1, 1]])] := by decide +kernel
  obtain ⟨w, hw, hempty, ⟨r, w'⟩, hx, hr, hsizes⟩ := hall
  have hexec : importA.exec handle w (importBytes zeroInLine) = some (.ok 1, w') := by
    cases r with
    | ok r => cases hr; exact hx
    | error e => cases hr
  refine ⟨w, w', hw, hexec, hsizes, ?_⟩
  rintro ⟨f, sizes, hdocs, hsent, hsum⟩
  rw [List.length_eq_zero_iff.1 hempty, List.nil_append] at hdocs
  rw [hdocs, List.map_singleton] at hsizes
  obtain ⟨hsize, hlengths⟩ := Prod.mk.inj (List.cons.inj hsizes).1
  rw [hsent.eq, hlengths, hsize] at hsum
  exact absurd hsum (by decide)

end Mdfs.FileSystem
