import Mathlib.Data.List.Flatten
import Mathlib.Data.List.Perm.Basic
import Mathlib.Data.List.Pairwise

/-!
# Lines

A text is a list of lines, each ended by a newline but for the last, which may be left open.
Texts put one behind the other have the lines of each, unless something is put behind an open
line: then two lines become one.

* `lines_flatMap`: the lines of texts one behind the other.
* `lines_perm_iff`: texts have the same lines in every order, exactly if nothing but empty
  texts goes with one that is open.

The first lines of a text, as many as fit in a size, are `Longest`; taken away again and
again, they leave what is at a `Start`.
-/

namespace Lib.Lines

variable {α ι : Type*} [DecidableEq α] {nl b : α} {s t : List α} {text : ι → List α} {is js : List ι}

/-- The lines of a text, without their newlines. -/
def lines (nl : α) : List α → List (List α)
  | [] => []
  | b :: s =>
    if b = nl then [] :: lines nl s
    else
      match lines nl s with
      | [] => [[b]]
      | line :: rest => (b :: line) :: rest

/-- The last line has no newline. -/
def Open (nl : α) (s : List α) : Prop := s ≠ [] ∧ s.getLast? ≠ some nl

/-- Nothing goes with an open text. -/
def Apart (nl : α) (s t : List α) : Prop := (Open nl s → t = []) ∧ (Open nl t → s = [])

instance (nl : α) (s : List α) : Decidable (Open nl s) := inferInstanceAs (Decidable (_ ∧ _))
instance (nl : α) (s t : List α) : Decidable (Apart nl s t) := inferInstanceAs (Decidable (_ ∧ _))

@[simp] theorem lines_nil : lines nl [] = [] := rfl

theorem lines_cons_newline : lines nl (nl :: s) = [] :: lines nl s := if_pos rfl

theorem lines_cons_of_lines (h : b ≠ nl) {line : List α} {rest : List (List α)} (hs : lines nl s = line :: rest) :
    lines nl (b :: s) = (b :: line) :: rest := by
  rw [lines, if_neg h, hs]

theorem lines_ne_nil (h : s ≠ []) : lines nl s ≠ [] := by
  cases s with
  | nil => exact absurd rfl h
  | cons b s =>
    unfold lines
    split
    · exact List.cons_ne_nil _ _
    · split <;> exact List.cons_ne_nil _ _

omit [DecidableEq α] in
/-- The last line of a text is that of any end of it. -/
theorem open_cons (h : s ≠ []) : Open nl (b :: s) ↔ Open nl s := by
  unfold Open
  rw [List.getLast?_cons_of_ne_nil h]
  exact and_congr_left fun _ => iff_of_true (List.cons_ne_nil b s) h

omit [DecidableEq α] in
theorem open_singleton : Open nl [b] ↔ b ≠ nl := by
  simp [Open]

/-! ## Two texts -/

/-- **What follows a newline is lines of its own.** -/
theorem lines_append (h : ¬Open nl s) (t : List α) : lines nl (s ++ t) = lines nl s ++ lines nl t := by
  induction s with
  | nil => rfl
  | cons b s ih =>
    by_cases hs : s = []
    · subst hs
      have hb : b = nl := by
        by_contra hne
        exact h (open_singleton.2 hne)
      rw [hb, List.singleton_append, lines_cons_newline, lines_cons_newline]
      rfl
    · have hrest := ih fun hopen => h ((open_cons hs).2 hopen)
      by_cases hb : b = nl
      · rw [hb, List.cons_append, lines_cons_newline, lines_cons_newline, hrest]
        rfl
      · have hne : lines nl s ≠ [] := lines_ne_nil hs
        obtain ⟨line, rest, hlines⟩ := List.exists_cons_of_ne_nil hne
        rw [hlines] at hrest
        rw [List.cons_append, lines_cons_of_lines hb hrest, lines_cons_of_lines hb hlines]
        rfl

/-- **What follows an open line goes on with it**: there is one line less. -/
theorem length_lines_append (h : Open nl s) (ht : t ≠ []) :
    (lines nl (s ++ t)).length + 1 = (lines nl s).length + (lines nl t).length := by
  induction s with
  | nil => exact absurd rfl h.1
  | cons b s ih =>
    by_cases hs : s = []
    · subst hs
      have hb : b ≠ nl := open_singleton.1 h
      have hne : lines nl t ≠ [] := lines_ne_nil ht
      obtain ⟨line, rest, hlines⟩ := List.exists_cons_of_ne_nil hne
      have hone : (lines nl [b]).length = 1 := by simp [lines, hb]
      rw [List.singleton_append, lines_cons_of_lines hb hlines, hone, hlines]
      simp only [List.length_cons]
      omega
    · have hrest := ih ((open_cons hs).1 h)
      by_cases hb : b = nl
      · rw [hb, List.cons_append, lines_cons_newline, lines_cons_newline, List.length_cons, List.length_cons]
        omega
      · have happend : s ++ t ≠ [] := fun heq => hs (List.append_eq_nil_iff.1 heq).1
        have hne : lines nl s ≠ [] := lines_ne_nil hs
        have hne' : lines nl (s ++ t) ≠ [] := lines_ne_nil happend
        obtain ⟨line, rest, hlines⟩ := List.exists_cons_of_ne_nil hne
        obtain ⟨line', rest', hlines'⟩ := List.exists_cons_of_ne_nil hne'
        rw [List.cons_append, lines_cons_of_lines hb hlines, lines_cons_of_lines hb hlines']
        rw [hlines, hlines'] at hrest
        simpa using hrest

/-- Two texts have no more lines together than apart. -/
theorem length_lines_append_le (s t : List α) :
    (lines nl (s ++ t)).length ≤ (lines nl s).length + (lines nl t).length := by
  by_cases hopen : Open nl s
  · by_cases ht : t = []
    · rw [ht, List.append_nil]
      exact Nat.le_add_right _ _
    · have hless := length_lines_append hopen ht
      omega
  · exact Nat.le_of_eq (by rw [lines_append hopen, List.length_append])

/-! ## Many texts -/

/-- **The lines of texts of which none that is open has company.** -/
theorem lines_flatMap (h : is.Pairwise fun i j => Apart nl (text i) (text j)) :
    lines nl (is.flatMap text) = is.flatMap fun i => lines nl (text i) := by
  induction is with
  | nil => rfl
  | cons i is ih =>
    obtain ⟨hi, his⟩ := List.pairwise_cons.1 h
    have hrest := ih his
    rw [List.flatMap_cons, List.flatMap_cons]
    by_cases hopen : Open nl (text i)
    · have hempty : is.flatMap text = [] := List.flatMap_eq_nil_iff.2 fun j hj => (hi j hj).1 hopen
      rw [hempty] at hrest
      rw [hempty, ← hrest, List.append_nil, lines_nil, List.append_nil]
    · rw [lines_append hopen, hrest]

theorem length_lines_flatMap_le (is : List ι) :
    (lines nl (is.flatMap text)).length ≤ (is.flatMap fun i => lines nl (text i)).length := by
  induction is with
  | nil => exact Nat.le_refl _
  | cons i is ih =>
    have hle : (lines nl (text i ++ is.flatMap text)).length ≤ (lines nl (text i)).length +
        (lines nl (is.flatMap text)).length := length_lines_append_le _ _
    rw [List.flatMap_cons, List.flatMap_cons, List.length_append]
    omega

/-- With an open text and another behind it, lines are lost. -/
theorem length_lines_flatMap_lt {i j : ι} (hopen : Open nl (text i)) (hj : text j ≠ []) (is : List ι) :
    (lines nl ((i :: j :: is).flatMap text)).length < ((i :: j :: is).flatMap fun i => lines nl (text i)).length := by
  have hbehind : (j :: is).flatMap text ≠ [] := by
    rw [List.flatMap_cons]
    exact fun heq => hj (List.append_eq_nil_iff.1 heq).1
  have hless := length_lines_append hopen hbehind
  have hle : (lines nl ((j :: is).flatMap text)).length ≤ ((j :: is).flatMap fun i => lines nl (text i)).length :=
    length_lines_flatMap_le _
  have hall : ((i :: j :: is).flatMap fun i => lines nl (text i)).length =
      (lines nl (text i)).length + ((j :: is).flatMap fun i => lines nl (text i)).length := List.length_append
  rw [hall, List.flatMap_cons]
  omega

omit [DecidableEq α] in
theorem Apart.symm (h : Apart nl s t) : Apart nl t s := ⟨h.2, h.1⟩

/-- **Texts have their lines in every order**, exactly if nothing goes with one that is open. -/
theorem lines_perm_iff : (∀ js : List ι, js.Perm is → (lines nl (js.flatMap text)).Perm
    (is.flatMap fun i => lines nl (text i))) ↔
    is.Pairwise fun i j => Apart nl (text i) (text j) := by
  constructor
  · intro h
    rw [List.pairwise_iff_forall_sublist]
    intro i j hsub
    obtain ⟨rest, hrest⟩ := hsub.exists_perm_append
    -- the two texts first, in either order
    have hfirst : ∀ k l, [k, l].Perm [i, j] → Open nl (text k) → text l = [] := by
      intro k l hkl hopen
      by_contra hne
      have hperm : (k :: l :: rest).Perm is := (hkl.append_right rest).trans hrest.symm
      have hlines := (h _ hperm).length_eq
      have hall := (hperm.flatMap_right fun i => lines nl (text i)).length_eq
      have hlt := length_lines_flatMap_lt hopen hne rest
      omega
    exact ⟨hfirst i j (List.Perm.refl _), hfirst j i (List.Perm.swap _ _ _)⟩
  · intro h js hperm
    have hjs : js.Pairwise fun i j => Apart nl (text i) (text j) := (hperm.pairwise_iff fun hij => hij.symm).2 h
    rw [lines_flatMap hjs]
    exact hperm.flatMap_right _

/-! ## Texts of lines -/

/-- A text with a newline behind each line. -/
def unlines (nl : α) (ls : List (List α)) : List α := ls.flatMap fun line => line ++ [nl]

omit [DecidableEq α] in
theorem not_open_unlines (ls : List (List α)) : ¬Open nl (unlines nl ls) := by
  rintro ⟨hne, hlast⟩
  rcases List.eq_nil_or_concat' ls with rfl | ⟨ls, line, rfl⟩
  · exact hne rfl
  · rw [unlines, List.flatMap_append, List.flatMap_singleton, ← List.append_assoc, List.getLast?_concat] at hlast
    exact hlast rfl

theorem lines_open_line (line : List α) (h : nl ∉ line) : lines nl (line ++ [nl]) = [line] := by
  induction line with
  | nil => exact lines_cons_newline
  | cons b line ih =>
    have hb : b ≠ nl := fun heq => h (heq ▸ List.mem_cons_self)
    exact lines_cons_of_lines hb (ih fun hmem => h (List.mem_cons_of_mem b hmem))

/-- **The lines of a text of lines.** -/
theorem lines_unlines {ls : List (List α)} (h : ∀ line ∈ ls, nl ∉ line) : lines nl (unlines nl ls) = ls := by
  induction ls with
  | nil => rfl
  | cons line ls ih =>
    have hline : ¬Open nl (line ++ [nl]) := fun hopen => hopen.2 (List.getLast?_concat)
    have hrest := ih fun l hl => h l (List.mem_cons_of_mem line hl)
    rw [unlines, List.flatMap_cons, lines_append hline, lines_open_line line (h line List.mem_cons_self)]
    rw [unlines] at hrest
    rw [hrest, List.singleton_append]

/-- **A text that is not open** is that of its lines. -/
theorem unlines_lines (h : ¬Open nl s) : unlines nl (lines nl s) = s := by
  induction s with
  | nil => rfl
  | cons b s ih =>
    by_cases hs : s = []
    · subst hs
      have hb : b = nl := by
        by_contra hne
        exact h (open_singleton.2 hne)
      rw [hb, lines_cons_newline]
      rfl
    · have hrest := ih fun hopen => h ((open_cons hs).2 hopen)
      by_cases hb : b = nl
      · rw [hb, lines_cons_newline, unlines, List.flatMap_cons]
        rw [unlines] at hrest
        rw [hrest]
        rfl
      · have hne : lines nl s ≠ [] := lines_ne_nil hs
        obtain ⟨line, rest, hlines⟩ := List.exists_cons_of_ne_nil hne
        rw [hlines, unlines, List.flatMap_cons] at hrest
        rw [lines_cons_of_lines hb hlines, unlines, List.flatMap_cons, List.cons_append, List.cons_append, hrest]

/-- A line has only what the text has. -/
theorem mem_of_mem_lines {line : List α} (h : line ∈ lines nl s) (hb : b ∈ line) : b ∈ s := by
  induction s generalizing line with
  | nil => exact absurd h List.not_mem_nil
  | cons c s ih =>
    by_cases hc : c = nl
    · rw [hc, lines_cons_newline] at h
      rcases List.mem_cons.1 h with rfl | h
      · exact absurd hb List.not_mem_nil
      · exact List.mem_cons_of_mem c (ih h hb)
    · cases hs : lines nl s with
      | nil =>
        rw [lines, if_neg hc, hs, List.mem_singleton] at h
        rw [h, List.mem_singleton] at hb
        exact hb ▸ List.mem_cons_self
      | cons first rest =>
        rw [lines_cons_of_lines hc hs] at h
        rcases List.mem_cons.1 h with rfl | h
        · rcases List.mem_cons.1 hb with rfl | hb
          · exact List.mem_cons_self
          · exact List.mem_cons_of_mem c (ih (hs ▸ List.mem_cons_self) hb)
        · exact List.mem_cons_of_mem c (ih (hs ▸ List.mem_cons_of_mem first h) hb)

/-- There is no newline within a line. -/
theorem newline_not_mem_line {line : List α} (h : line ∈ lines nl s) : nl ∉ line := by
  induction s generalizing line with
  | nil => exact absurd h List.not_mem_nil
  | cons b s ih =>
    by_cases hb : b = nl
    · rw [hb, lines_cons_newline] at h
      rcases List.mem_cons.1 h with rfl | h
      · exact List.not_mem_nil
      · exact ih h
    · cases hs : lines nl s with
      | nil =>
        rw [lines, if_neg hb, hs, List.mem_singleton] at h
        rw [h, List.mem_singleton]
        exact fun heq => hb heq.symm
      | cons first rest =>
        have hnot : ∀ l ∈ first :: rest, nl ∉ l := fun l hl => ih (hs ▸ hl)
        rw [lines_cons_of_lines hb hs] at h
        rcases List.mem_cons.1 h with rfl | h
        · intro hmem
          rcases List.mem_cons.1 hmem with heq | hmem
          · exact hb heq.symm
          · exact hnot first List.mem_cons_self hmem
        · exact hnot line (List.mem_cons_of_mem first h)

/-! ## The lines that fit -/

variable {size j : ℕ} {block other rest : List α}

/-- **The first lines of a text, as many as fit** in `size`: the longest part that ends with a
newline. -/
structure Longest (nl : α) (size : ℕ) (s block : List α) : Prop where
  isPrefix : block <+: s
  ended : block.getLast? = some nl
  fits : block.length ≤ size
  longest : ∀ other, other <+: s → other.getLast? = some nl → other.length ≤ size → other.length ≤ block.length

/-- Every line fits in `size`, with its newline if it has one. -/
def LinesFit (nl : α) (size : ℕ) (s : List α) : Prop :=
  ∀ before line after, s = before ++ line ++ after → ¬Open nl before → nl ∉ line.dropLast → line.length ≤ size

/-- What is left of a text where blocks of lines are taken away, each as long as fits, while
`size` is left. -/
inductive Start (nl : α) (size : ℕ) : List α → List α → Prop
  | whole (s : List α) : Start nl size s s
  | next {s block rest : List α} (hlong : size ≤ s.length) (hblock : Longest nl size s block)
      (hrest : Start nl size (s.drop block.length) rest) : Start nl size s rest

omit [DecidableEq α] in
/-- One block more is taken away. -/
theorem Start.step (h : Start nl size s rest) (hlong : size ≤ rest.length) (hblock : Longest nl size rest block) :
    Start nl size s (rest.drop block.length) := by
  induction h with
  | whole s => exact Start.next hlong hblock (Start.whole _)
  | next hlong' hblock' _ ih => exact Start.next hlong' hblock' (ih hlong hblock)

omit [DecidableEq α] in
theorem Longest.unique (h : Longest nl size s block) (h' : Longest nl size s other) : block = other := by
  have hle := h'.longest block h.isPrefix h.ended h.fits
  have hge := h.longest other h'.isPrefix h'.ended h'.fits
  rw [List.prefix_iff_eq_take.1 h.isPrefix, List.prefix_iff_eq_take.1 h'.isPrefix, Nat.le_antisymm hle hge]

omit [DecidableEq α] in
/-- A part that ends with a newline has it in its last place. -/
theorem getElem?_of_ended (h : block <+: s) (hend : block.getLast? = some nl) :
    0 < block.length ∧ s[block.length - 1]? = some nl := by
  have hpos : 0 < block.length := by
    rw [List.length_pos_iff]
    rintro rfl
    cases hend
  rw [List.getLast?_eq_getElem?] at hend
  obtain ⟨t, rfl⟩ := h
  rw [List.getElem?_append_left (by omega)]
  exact ⟨hpos, hend⟩

omit [DecidableEq α] in
/-- **The last newline that fits** ends the first lines that fit. -/
theorem longest_take (hj : s[j]? = some nl) (hsize : j < size) (hlast : ∀ m, j < m → m < size → s[m]? ≠ some nl) :
    Longest nl size s (s.take (j + 1)) := by
  have hlt : j < s.length := (List.getElem?_eq_some_iff.1 hj).1
  have hlen : (s.take (j + 1)).length = j + 1 := by
    rw [List.length_take]
    omega
  refine ⟨List.take_prefix _ _, ?_, by omega, ?_⟩
  · rw [List.getLast?_eq_getElem?, hlen, Nat.add_sub_cancel, List.getElem?_take_of_lt (Nat.lt_succ_self j), hj]
  · intro other hprefix hend hfits
    obtain ⟨hpos, hnl⟩ := getElem?_of_ended hprefix hend
    by_contra hlonger
    exact hlast (other.length - 1) (by omega) (by omega) hnl

end Lib.Lines
