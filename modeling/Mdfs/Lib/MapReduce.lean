import Mathlib.Algebra.BigOperators.Group.Multiset.Basic
import Mathlib.Data.Multiset.Sort
import Mdfs.Lib.Lines

/-!
# Map and reduce over lines

A program that maps a text gives lines, those of a part of the text for each part; a program
that reduces is given lines in a fixed arrangement, so that only the multiset of them matters.
Reduces of reduces form a tree over what the maps have given.

* `stands_iff`: whatever the tree, the result is that of one reduce, exactly if a reduce of
  a reduce can be left out.
* `Collation.sorted`: the text of lines in order.
* `LineWise.lines_flatten`: a text that is cut at line ends is mapped part by part.
-/

namespace Lib

open Lines

variable {α : Type*}

namespace MapReduce

/-! ## Reduces of reduces -/

variable {Record : α → Prop} {reduce : Multiset α → List α} {a s : Multiset α}

/-- **What a multiset of records stands for**: what maps have given stands for itself, and the
result of a reduce for what it was given. -/
inductive Stands (Record : α → Prop) (reduce : Multiset α → List α) : Multiset α → Multiset α → Prop
  | maps {s : Multiset α} (hs : ∀ x ∈ s, Record x) : Stands Record reduce s s
  | both {a b s t : Multiset α} (ha : Stands Record reduce a s) (hb : Stands Record reduce b t) :
    Stands Record reduce (a + b) (s + t)
  | reduced {a s : Multiset α} (ha : Stands Record reduce a s) : Stands Record reduce (reduce a) s

/-- **A reduce of records can be left out** before another one, and gives records again. -/
structure Combinable (Record : α → Prop) (reduce : Multiset α → List α) : Prop where
  records : ∀ a, (∀ x ∈ a, Record x) → ∀ x ∈ reduce a, Record x
  again : ∀ a c, (∀ x ∈ a, Record x) → (∀ x ∈ c, Record x) → reduce ((reduce a : Multiset α) + c) = reduce (a + c)

theorem Stands.maps_zero : Stands Record reduce 0 0 := .maps fun _ hx => absurd hx (Multiset.notMem_zero _)

/-- Many of them, one behind the other. -/
theorem Stands.sum {ι : Type*} {f g : ι → Multiset α} (is : List ι)
    (h : ∀ i ∈ is, Stands Record reduce (f i) (g i)) :
    Stands Record reduce (is.map f).sum (is.map g).sum := by
  induction is with
  | nil => exact .maps_zero
  | cons i is ih =>
    have hrest := ih fun j hj => h j (List.mem_cons_of_mem i hj)
    rw [List.map_cons, List.map_cons, List.sum_cons, List.sum_cons]
    exact .both (h i List.mem_cons_self) hrest

/-- A property of all records in two multisets. -/
theorem forall_mem_add {P : α → Prop} {b : Multiset α} : (∀ x ∈ a + b, P x) ↔ (∀ x ∈ a, P x) ∧ ∀ x ∈ b, P x := by
  simp only [Multiset.mem_add, or_imp, forall_and]

/-- What is reduced are records, and they stand for records. -/
theorem Stands.records (hreduce : Combinable Record reduce) (h : Stands Record reduce a s) :
    (∀ x ∈ a, Record x) ∧ ∀ x ∈ s, Record x := by
  induction h with
  | maps hs => exact ⟨hs, hs⟩
  | both _ _ iha ihb => exact ⟨forall_mem_add.2 ⟨iha.1, ihb.1⟩, forall_mem_add.2 ⟨iha.2, ihb.2⟩⟩
  | reduced _ iha => exact ⟨hreduce.records _ iha.1, iha.2⟩

/-- **What stands for something can be put in its place**, whatever records are with it. -/
theorem Stands.replace (hreduce : Combinable Record reduce) (h : Stands Record reduce a s) :
    ∀ c, (∀ x ∈ c, Record x) → reduce (a + c) = reduce (s + c) := by
  induction h with
  | maps _ => exact fun _ _ => rfl
  | @both a b s t ha hb iha ihb =>
    intro c hc
    have hbc := forall_mem_add.2 ⟨(hb.records hreduce).1, hc⟩
    have hsc := forall_mem_add.2 ⟨(ha.records hreduce).2, hc⟩
    calc reduce (a + b + c) = reduce (a + (b + c)) := by rw [add_assoc]
      _ = reduce (b + (s + c)) := by rw [iha _ hbc, add_left_comm]
      _ = reduce (s + t + c) := by rw [ihb _ hsc, add_left_comm, add_assoc]
  | reduced ha iha => exact fun c hc => (hreduce.again _ c (ha.records hreduce).1 hc).trans (iha c hc)

/-- **Whatever the tree of the reduces**, the result is that of one reduce of what the maps have
given, exactly if a reduce can be left out before another. -/
theorem stands_iff : (∀ a s, Stands Record reduce a s → (∀ x ∈ a, Record x) ∧ reduce a = reduce s) ↔
    Combinable Record reduce := by
  constructor
  · intro h
    constructor
    · exact fun a ha => (h _ _ (.reduced (.maps ha))).1
    · exact fun a c ha hc => (h _ _ (.both (.reduced (.maps ha)) (.maps hc))).2
  · intro hreduce a s h
    have hempty := h.replace hreduce 0 fun _ hx => absurd hx (Multiset.notMem_zero _)
    rw [add_zero, add_zero] at hempty
    exact ⟨(h.records hreduce).1, hempty⟩

end MapReduce

/-! ## Sorted texts -/

/-- An order in which `sort` arranges lines. -/
structure Collation (α : Type*) where
  le : List α → List α → Prop
  [decidable : DecidableRel le]
  [trans : IsTrans (List α) le]
  [antisymm : Std.Antisymm le]
  [total : Std.Total le]

attribute [instance] Collation.decidable Collation.trans Collation.antisymm Collation.total

namespace Collation

variable (c : Collation α)

/-- Lines in order. -/
def sort (s : Multiset (List α)) : List (List α) := s.sort c.le

@[simp] theorem coe_sort (s : Multiset (List α)) : (c.sort s : Multiset (List α)) = s := Multiset.sort_eq s c.le

theorem pairwise_sort (s : Multiset (List α)) : (c.sort s).Pairwise c.le := Multiset.pairwise_sort s c.le

/-- Lines that are in order stay so. -/
theorem sort_of_pairwise {ls : List (List α)} (h : ls.Pairwise c.le) : c.sort ls = ls := by
  have hperm : (c.sort ls).Perm ls := by rw [← Multiset.coe_eq_coe, c.coe_sort]
  exact List.Perm.eq_of_pairwise (fun _ _ _ _ hab hba => c.antisymm.antisymm _ _ hab hba) (c.pairwise_sort ls) h hperm

theorem mem_sort {s : Multiset (List α)} {line : List α} : line ∈ c.sort s ↔ line ∈ s := Multiset.mem_sort c.le

variable [DecidableEq α] {nl : α} {s t : List α}

/-- The text that `sort` writes: the lines of a text in order, each with a newline. -/
def sorted (nl : α) (s : List α) : List α := unlines nl (c.sort (lines nl s))

@[simp] theorem lines_sorted : lines nl (c.sorted nl s) = c.sort (lines nl s) :=
  lines_unlines fun _ hline => newline_not_mem_line (Multiset.mem_coe.1 ((c.mem_sort).1 hline))

theorem coe_lines_sorted : (lines nl (c.sorted nl s) : Multiset (List α)) = lines nl s := by
  rw [lines_sorted, coe_sort]

theorem not_open_sorted : ¬Open nl (c.sorted nl s) := not_open_unlines _

end Collation

/-! ## Texts in parts -/

namespace MapReduce

variable [DecidableEq α] {nl : α} {mapper : List α → List α}

/-- **A program that maps line by line**: what follows a line end is mapped for itself. -/
def LineWise (nl : α) (mapper : List α → List α) : Prop := ∀ s t, ¬Open nl s →
  (lines nl (mapper (s ++ t)) : Multiset (List α)) = (lines nl (mapper s) : Multiset (List α)) + lines nl (mapper t)

/-- There is nothing to map in an empty text. -/
theorem LineWise.nil (h : LineWise nl mapper) : (lines nl (mapper []) : Multiset (List α)) = 0 := by
  have hnot : ¬Open nl ([] : List α) := fun hopen => hopen.1 rfl
  have htwice := h [] [] hnot
  rw [List.append_nil] at htwice
  exact left_eq_add.1 htwice

/-- **A text that is cut at line ends** is mapped part by part. -/
theorem LineWise.lines_flatten (h : LineWise nl mapper) (parts : List (List α))
    (hended : ∀ part ∈ parts.dropLast, ¬Open nl part) : (lines nl (mapper parts.flatten) : Multiset (List α)) =
      (parts.map fun part => (lines nl (mapper part) : Multiset (List α))).sum := by
  induction parts with
  | nil => exact h.nil
  | cons part parts ih =>
    rw [List.flatten_cons, List.map_cons, List.sum_cons]
    by_cases hlast : parts = []
    · subst hlast
      simp
    · rw [List.dropLast_cons_of_ne_nil hlast] at hended
      have hrest := ih fun p hp => hended p (List.mem_cons_of_mem part hp)
      rw [h part parts.flatten (hended part List.mem_cons_self), hrest]

/-- **Texts one behind the other**, none of them open, have the lines of each. -/
theorem lines_flatten (parts : List (List α)) (hended : ∀ part ∈ parts, ¬Open nl part) :
    (lines nl parts.flatten : Multiset (List α)) = (parts.map fun part => (lines nl part : Multiset (List α))).sum := by
  have hid : LineWise nl (fun s : List α => s) := by
    intro s t hs
    rw [lines_append hs, Multiset.coe_add]
  exact hid.lines_flatten parts fun part hpart => hended part (List.mem_of_mem_dropLast hpart)

end MapReduce

end Lib
