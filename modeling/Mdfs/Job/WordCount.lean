import Mdfs.Lib.Decimal
import Mdfs.Lib.MapReduce
import Mdfs.Lib.Runs
import Mdfs.Utils.Numbers

/-!
# The word count

`map.py` and `reduce.py` of the scripts of the Job. The mapper writes a line with the number one
for each word of its text; the reducer adds up the numbers of lines one behind the other that
start with the same word, and writes what it has when another word comes.

* `mapPy_lineWise`: a text that is cut at line ends is mapped part by part.
* `word_count`: the mapper, `sort` in any order, and the reducer count each word.
* `combinable_reducePy`: the reducer can be used as a combiner when the order of `sort` keeps
  the lines of a word together; `bytewise_keepsTogether`: that of the bytes does.
-/

namespace Mdfs.Job.WordCount

open Lib Lines MapReduce

/-! ## `map.py` -/

/-- `split` of a Python string: what stands between blanks. -/
def split (s : CStr) : List CStr := (s.splitOnP isspace).filter fun word => word ≠ []

/-- The symbols of `clean`: the comma is there twice. -/
def symbols : List UInt8 := [newline, 9, 44, 46, 44, 63, 45, 34, 39, 40, 41, 33, 59, 58]

def clean (word : CStr) : CStr :=
  (symbols.foldl (fun word symbol => word.filter fun b => b ≠ symbol) word).map tolower

def printWords (words : List CStr) : CStr :=
  words.flatMap fun word => if 0 < word.length then word ++ cstr " 1\n" else []

/-- `map.py`, from what it reads to what it writes. -/
def mapPy (content : CStr) : CStr := printWords ((split content).map clean)

/-! ## `reduce.py` -/

/-- A number as Python writes it. -/
def str (n : ℤ) : CStr := if n < 0 then 45 :: decimalBytes n.natAbs else decimalBytes n.natAbs

/-- The variables of the loop, and what was written. -/
structure Loop where
  oldKey : Option CStr
  acumulator : ℤ
  out : CStr
  deriving DecidableEq

/-- The line that is written for a key. -/
def entryLine (key : CStr) (acumulator : ℤ) : CStr := key ++ cstr " " ++ str acumulator ++ cstr "\n"

/-- One round. An exception leaves what was written: there is no word, there is no second
one, or it is no number. -/
def Loop.step (x : Loop) (token : CStr) : Except CStr Loop :=
  match split token with
  | word :: second :: _ =>
    match written second with
    | some repetitions =>
      let x := if x.oldKey = none then { x with oldKey := some word } else x
      match x.oldKey with
      | none => .error x.out
      | some oldKey =>
        let x := if oldKey ≠ word then ⟨some word, 0, x.out ++ entryLine oldKey x.acumulator⟩ else x
        .ok { x with acumulator := x.acumulator + repetitions }
    | none => .error x.out
  | _ => .error x.out

/-- `reduce.py`, from what it reads to what it writes. Without a line there is no key to write,
which is an exception. -/
def reducePy (stdin : CStr) : CStr :=
  match (lines newline stdin).foldlM Loop.step ⟨none, 0, []⟩ with
  | .error out => out
  | .ok x =>
    match x.oldKey with
    | none => x.out
    | some oldKey => x.out ++ entryLine oldKey x.acumulator

/-! ## Words -/

/-- A text without blanks. -/
def Word (w : CStr) : Prop := w ≠ [] ∧ ∀ b ∈ w, isspace b = false

/-- The words of a text, as `clean` leaves them. -/
def wordsOf (content : CStr) : List CStr := ((split content).map clean).filter fun word => word ≠ []

/-- **A line of a word and a number.** -/
def Record (line : CStr) : Prop := ∃ w n, Word w ∧ line = w ++ 32 :: decimalBytes n

/-- The word and the number that the reducer reads in a line. -/
def entry (line : CStr) : CStr × ℤ := ((split line).getD 0 [], (written ((split line).getD 1 [])).getD 0)

/-- **The count of words**: a line for each of them, in some order, with the number of times that
it is there. -/
def Counts (words : List CStr) (result : CStr) : Prop := ∃ keys : List CStr, keys.Nodup ∧
  (∀ w, w ∈ keys ↔ w ∈ words) ∧ result = keys.flatMap fun w => entryLine w (words.count w)

variable {s t w content line : CStr} {n : ℕ}

theorem split_append {b : UInt8} (hb : isspace b = true) (s t : CStr) : split (s ++ b :: t) = split s ++ split t := by
  unfold split
  rw [List.splitOnP_append_cons s t hb, List.filter_append]

theorem split_word (h : Word w) : split w = [w] := by
  unfold split
  rw [List.splitOnP_eq_singleton h.2, List.filter_cons_of_pos (by simpa using h.1), List.filter_nil]

/-- What is split has no blank in it. -/
theorem word_of_mem_split (h : w ∈ split s) : Word w := by
  obtain ⟨hmem, hne⟩ := List.mem_filter.1 h
  refine ⟨of_decide_eq_true hne, ?_⟩
  clear h hne
  induction s generalizing w with
  | nil =>
    rw [List.splitOnP_nil, List.mem_singleton] at hmem
    simp [hmem]
  | cons b s ih =>
    rw [List.splitOnP_cons_eq_if_modifyHead] at hmem
    split at hmem
    · rcases List.mem_cons.1 hmem with rfl | hmem
      · simp
      · exact ih hmem
    · rename_i hb
      cases hs : s.splitOnP isspace with
      | nil => exact absurd hs (List.splitOnP_ne_nil _ _)
      | cons first rest =>
        rw [hs, List.modifyHead_cons] at hmem
        rcases List.mem_cons.1 hmem with rfl | hmem
        · intro c hc
          rcases List.mem_cons.1 hc with rfl | hc
          · simpa using hb
          · exact ih (hs ▸ List.mem_cons_self) c hc
        · exact ih (hs ▸ List.mem_cons_of_mem first hmem)

theorem mem_foldl_filter {b : UInt8} (symbols : List UInt8) (h : b ∈ symbols.foldl (fun word symbol =>
    word.filter fun b => b ≠ symbol) w) : b ∈ w := by
  induction symbols generalizing w with
  | nil => exact h
  | cons symbol symbols ih => exact List.mem_of_mem_filter (ih h)

/-- A lower case letter is no blank. -/
theorem isspace_tolower (b : UInt8) : isspace (tolower b) = isspace b := by
  unfold tolower
  split
  · rename_i hb
    have hlo : 65 ≤ b.toNat := UInt8.le_iff_toNat_le.1 hb.1
    have hhi : b.toNat ≤ 90 := UInt8.le_iff_toNat_le.1 hb.2
    have hsum : (b + 32).toNat = b.toNat + 32 := by
      rw [UInt8.toNat_add]
      have h32 : (32 : UInt8).toNat = 32 := rfl
      omega
    have hno : ∀ c : UInt8, 65 ≤ c.toNat → isspace c = false := by
      intro c hc
      have hle : ¬c ≤ 13 := fun hle => by
        have hnat : c.toNat ≤ 13 := UInt8.le_iff_toNat_le.1 hle
        omega
      have hne : c ≠ 32 := fun heq => by
        rw [heq] at hc
        exact absurd hc (by decide)
      simp [isspace, hle, hne]
    rw [hno _ (by omega), hno b hlo]
  · rfl

/-- The words of a text have no blanks. -/
theorem word_of_mem_wordsOf (h : w ∈ wordsOf content) : Word w := by
  obtain ⟨hmem, hne⟩ := List.mem_filter.1 h
  obtain ⟨raw, hraw, rfl⟩ := List.mem_map.1 hmem
  refine ⟨of_decide_eq_true hne, fun b hb => ?_⟩
  obtain ⟨c, hc, rfl⟩ := List.mem_map.1 hb
  rw [isspace_tolower]
  exact (word_of_mem_split hraw).2 c (mem_foldl_filter symbols hc)

/-! ## The mapper -/

/-- What is written for words. -/
theorem mapPy_eq (content : CStr) :
    mapPy content = unlines newline ((wordsOf content).map fun w => w ++ 32 :: [49]) := by
  unfold mapPy printWords wordsOf unlines
  generalize (split content).map clean = words
  induction words with
  | nil => rfl
  | cons word words ih =>
    rw [List.flatMap_cons, ih]
    by_cases hne : word = []
    · rw [hne, List.filter_cons_of_neg (by simp)]
      rfl
    · have hpos : 0 < word.length := List.length_pos_iff.2 hne
      have hline : cstr " 1\n" = [32, 49] ++ [newline] := rfl
      rw [List.filter_cons_of_pos (by simpa using hne), List.map_cons, List.flatMap_cons, if_pos hpos, hline]
      simp only [List.append_assoc]

theorem newline_not_mem_word (h : Word w) : newline ∉ w := fun hmem => absurd (h.2 newline hmem) (by decide)

theorem word_decimalBytes (n : ℕ) : Word (decimalBytes n) :=
  ⟨decimalBytes_ne_nil n, fun _ hb => isspace_of_isdigit (isdigit_of_mem_decimalBytes hb)⟩

theorem Record.newline_not_mem (h : Record line) : newline ∉ line := by
  obtain ⟨w, n, hw, rfl⟩ := h
  intro hmem
  rcases List.mem_append.1 hmem with hmem | hmem
  · exact newline_not_mem_word hw hmem
  · rcases List.mem_cons.1 hmem with heq | hmem
    · exact absurd heq (by decide)
    · exact newline_not_mem_word (word_decimalBytes n) hmem

/-- What the mapper writes for a word. -/
theorem record_one (h : Word w) : Record (w ++ 32 :: [49]) := ⟨w, 1, h, rfl⟩

theorem lines_mapPy (content : CStr) : lines newline (mapPy content) =
    (wordsOf content).map fun w => w ++ 32 :: [49] := by
  rw [mapPy_eq]
  refine lines_unlines fun line hline => ?_
  obtain ⟨w, hw, rfl⟩ := List.mem_map.1 hline
  exact (record_one (word_of_mem_wordsOf hw)).newline_not_mem

/-- **The lines that are mapped are records.** -/
theorem records_mapPy (h : line ∈ lines newline (mapPy content)) : Record line := by
  rw [lines_mapPy] at h
  obtain ⟨w, hw, rfl⟩ := List.mem_map.1 h
  exact record_one (word_of_mem_wordsOf hw)

/-- The words of two texts, of which the first ends with its line. -/
theorem wordsOf_append (h : ¬Open newline s) (t : CStr) : wordsOf (s ++ t) = wordsOf s ++ wordsOf t := by
  rcases List.eq_nil_or_concat' s with rfl | ⟨s, b, rfl⟩
  · rfl
  · have hb : b = newline := by
      by_contra hne
      refine h ⟨by simp, ?_⟩
      rw [List.getLast?_concat]
      simpa using hne
    have hspace : isspace b = true := by
      rw [hb]
      rfl
    have hnil : split ([] : CStr) = [] := rfl
    have hwhole := split_append hspace s t
    have hfirst := split_append hspace s []
    rw [hnil, List.append_nil] at hfirst
    unfold wordsOf
    rw [List.append_assoc, List.singleton_append, hwhole, hfirst, List.map_append, List.filter_append]

/-- **A text that is cut at line ends is mapped part by part.** -/
theorem mapPy_lineWise : LineWise newline mapPy := by
  intro s t h
  rw [lines_mapPy, lines_mapPy, lines_mapPy, wordsOf_append h, List.map_append, Multiset.coe_add]

/-! ## The reducer -/

theorem split_record (hw : Word w) (n : ℕ) : split (w ++ 32 :: decimalBytes n) = [w, decimalBytes n] := by
  rw [split_append rfl, split_word hw, split_word (word_decimalBytes n)]
  rfl

theorem entry_record (hw : Word w) (n : ℕ) : entry (w ++ 32 :: decimalBytes n) = (w, (n : ℤ)) := by
  unfold entry
  rw [split_record hw]
  simp [written_decimalBytes]

/-- The lines that are written for entries. -/
def entryLines (xs : List (CStr × ℤ)) : CStr := xs.flatMap fun x => entryLine x.1 x.2

/-- A round on a record, once there is a key. -/
theorem step_record {k : CStr} {m : ℤ} {out : CStr} (hw : Word w) :
    Loop.step ⟨some k, m, out⟩ (w ++ 32 :: decimalBytes n) =
    .ok (if k = w then ⟨some k, m + n, out⟩ else ⟨some w, n, out ++ entryLine k m⟩) := by
  unfold Loop.step
  rw [split_record hw]
  dsimp only
  rw [written_decimalBytes]
  by_cases hkey : k = w
  · simp [hkey]
  · simp [hkey]

/-- The first round. -/
theorem step_first (hw : Word w) : Loop.step ⟨none, 0, []⟩ (w ++ 32 :: decimalBytes n) = .ok ⟨some w, n, []⟩ := by
  unfold Loop.step
  rw [split_record hw]
  dsimp only
  rw [written_decimalBytes]
  simp

/-- **The loop on records** writes what is added up in runs, from the key that it has. -/
theorem loop_records {ls : List CStr} (hls : ∀ line ∈ ls, Record line) (k : CStr) (m : ℤ) (out : CStr) :
    ∃ k' m' out', ls.foldlM Loop.step ⟨some k, m, out⟩ = .ok ⟨some k', m', out'⟩ ∧
      out' ++ entryLine k' m' = out ++ entryLines (addRuns ((k, m) :: ls.map entry)) := by
  induction ls generalizing k m out with
  | nil => exact ⟨k, m, out, rfl, by simp [entryLines, addRuns]⟩
  | cons line ls ih =>
    obtain ⟨w, n, hw, rfl⟩ := hls line List.mem_cons_self
    have hrest := fun l hl => hls l (List.mem_cons_of_mem (w ++ 32 :: decimalBytes n) hl)
    rw [List.foldlM_cons, step_record hw, List.map_cons, entry_record hw]
    by_cases hkey : k = w
    · rw [if_pos hkey, ← hkey, addRuns_cons_cons]
      exact ih hrest k (m + n) out
    · obtain ⟨k', m', out', hloop, hout⟩ := ih hrest w n (out ++ entryLine k m)
      refine ⟨k', m', out', by rw [if_neg hkey]; exact hloop, ?_⟩
      have hhead : (((w, (n : ℤ)) :: ls.map entry).head?).map Prod.fst ≠ some (k, m).1 := by
        simpa using fun heq => hkey heq.symm
      rw [hout, addRuns_cons_of_ne (x := (k, m)) hhead, List.append_assoc]
      rfl

/-- **The reducer on records.** -/
theorem reducePy_eq {ls : List CStr} (h : ∀ line ∈ ls, Record line) :
    reducePy (unlines newline ls) = entryLines (addRuns (ls.map entry)) := by
  unfold reducePy
  rw [lines_unlines fun line hline => (h line hline).newline_not_mem]
  cases ls with
  | nil => rfl
  | cons line ls =>
    obtain ⟨w, n, hw, rfl⟩ := h line List.mem_cons_self
    have hrest := fun l hl => h l (List.mem_cons_of_mem (w ++ 32 :: decimalBytes n) hl)
    obtain ⟨k', m', out', hloop, hout⟩ := loop_records hrest w n []
    rw [List.foldlM_cons, step_first hw, List.map_cons, entry_record hw]
    change (match ls.foldlM Loop.step ⟨some w, n, []⟩ with
      | .error out => out
      | .ok x => match x.oldKey with
        | none => x.out
        | some oldKey => x.out ++ entryLine oldKey x.acumulator) = _
    rw [hloop]
    exact hout

/-! ## Counting -/

theorem str_natCast (n : ℕ) : str n = decimalBytes n := by
  unfold str
  rw [if_neg (by omega), Int.natAbs_natCast]

/-- The total of a word over lines of the mapper is how often it is there. -/
theorem amountOf_ones (words : List CStr) (hwords : ∀ v ∈ words, Word v) (w : CStr) :
    amountOf w ((words.map fun v => v ++ 32 :: [49]).map entry : Multiset (CStr × ℤ)) = words.count w := by
  induction words with
  | nil => rfl
  | cons v words ih =>
    have hone : decimalBytes 1 = [49] := by decide
    have hentry : entry (v ++ 32 :: [49]) = (v, ((1 : ℕ) : ℤ)) := by
      rw [← hone]
      exact entry_record (hwords v List.mem_cons_self) 1
    rw [List.map_cons, List.map_cons, amountOf_coe_cons, ih fun u hu => hwords u (List.mem_cons_of_mem v hu), hentry,
      List.count_cons]
    by_cases hkey : v = w
    · simp [hkey, add_comm]
    · simp [hkey]

/-- The keys of lines of the mapper. -/
theorem keys_ones {words : List CStr} (hwords : ∀ v ∈ words, Word v) :
    (words.map fun v => v ++ 32 :: [49]).map (fun line => (entry line).1) = words := by
  rw [List.map_map]
  refine (List.map_congr_left fun v hv => ?_).trans (List.map_id words)
  have hone : decimalBytes 1 = [49] := by decide
  have hentry := entry_record (hwords v hv) 1
  rw [hone] at hentry
  simp [hentry]

/-- A line of the mapper. -/
def One (line : CStr) : Prop := ∃ w, Word w ∧ line = w ++ 32 :: [49]

theorem One.record (h : One line) : Record line := by
  obtain ⟨w, hw, rfl⟩ := h
  exact record_one hw

/-- The lines of the mapper for a word are equal, so that any order keeps them together. -/
theorem keepsTogether_one (c : Collation UInt8) : KeepsTogether c.le One fun line => (entry line).1 := by
  rintro x y z ⟨v, hv, rfl⟩ - ⟨w, hw, rfl⟩ hxy hyz hkey
  have hone : decimalBytes 1 = [49] := by decide
  have hx := entry_record hv 1
  have hz := entry_record hw 1
  rw [hone] at hx hz
  dsimp only at hkey
  rw [hx, hz] at hkey
  obtain rfl : v = w := hkey
  rw [antisymm hyz hxy]

/-- **Lines of the mapper are counted**, whatever the order in which `sort` arranges them. -/
theorem counts_ones (c : Collation UInt8) {words : List CStr} (hwords : ∀ v ∈ words, Word v) : Counts words
    (reducePy (unlines newline (c.sort (words.map fun v => v ++ 32 :: [49] : List CStr)))) := by
  set ls := c.sort (words.map fun v => v ++ 32 :: [49] : List CStr) with hls
  have hperm : ls.Perm (words.map fun v => v ++ 32 :: [49]) := by
    rw [← Multiset.coe_eq_coe, hls, c.coe_sort]
  have hone : ∀ line ∈ ls, One line := by
    intro line hline
    obtain ⟨v, hv, rfl⟩ := List.mem_map.1 (hperm.mem_iff.1 hline)
    exact ⟨v, hwords v hv, rfl⟩
  have hnodup : ((addRuns (ls.map entry)).map Prod.fst).Nodup := by
    apply nodup_keys_addRuns
    rw [List.map_map]
    exact together_of_pairwise (keepsTogether_one c) hone (c.pairwise_sort _)
  refine ⟨(addRuns (ls.map entry)).map Prod.fst, hnodup, fun w => ?_, ?_⟩
  · have hkeys := (hperm.map fun line => (entry line).1).mem_iff (a := w)
    rw [keys_ones hwords] at hkeys
    rw [mem_keys_addRuns, List.map_map]
    exact hkeys
  · have htotal : ∀ w, amountOf w (addRuns (ls.map entry) : Multiset (CStr × ℤ)) = words.count w := by
      intro w
      rw [amountOf_addRuns, ← amountOf_ones _ hwords w, Multiset.coe_eq_coe.2 (hperm.map entry)]
    have hresult := reducePy_eq fun line hline => (hone line hline).record
    have hentries : entryLines (addRuns (ls.map entry)) =
        ((addRuns (ls.map entry)).map Prod.fst).flatMap fun w => entryLine w (words.count w) := by
      nth_rewrite 1 [eq_map_amountOf hnodup]
      rw [entryLines, List.flatMap_map]
      exact List.flatMap_congr fun w _ => by rw [htotal]
    exact hresult.trans hentries

/-- **The word count.** The reducer writes for the sorted lines of the mapper one line for each word
of the text, with the number of times that the word is there. -/
theorem word_count (c : Collation UInt8) (content : CStr) :
    Counts (wordsOf content) (reducePy (c.sorted newline (mapPy content))) := by
  have hcounts := counts_ones c fun v (hv : v ∈ wordsOf content) => word_of_mem_wordsOf hv
  unfold Collation.sorted
  rw [lines_mapPy]
  exact hcounts

/-! ## No zero bytes -/

theorem mem_of_mem_split {b : UInt8} (h : w ∈ split s) (hb : b ∈ w) : b ∈ s := by
  have hmem := List.mem_of_mem_filter h
  clear h
  induction s generalizing w with
  | nil =>
    rw [List.splitOnP_nil, List.mem_singleton] at hmem
    exact absurd hb (by simp [hmem])
  | cons c s ih =>
    rw [List.splitOnP_cons_eq_if_modifyHead] at hmem
    split at hmem
    · rcases List.mem_cons.1 hmem with rfl | hmem
      · exact absurd hb List.not_mem_nil
      · exact List.mem_cons_of_mem c (ih hb hmem)
    · cases hs : s.splitOnP isspace with
      | nil => exact absurd hs (List.splitOnP_ne_nil _ _)
      | cons first rest =>
        rw [hs, List.modifyHead_cons] at hmem
        rcases List.mem_cons.1 hmem with rfl | hmem
        · rcases List.mem_cons.1 hb with rfl | hb
          · exact List.mem_cons_self
          · exact List.mem_cons_of_mem c (ih hb (hs ▸ List.mem_cons_self))
        · exact List.mem_cons_of_mem c (ih hb (hs ▸ List.mem_cons_of_mem first hmem))

/-- The mapper writes text for text. -/
theorem zero_not_mem_mapPy (h : 0 ∉ content) : 0 ∉ mapPy content := by
  rw [mapPy_eq]
  intro hmem
  obtain ⟨line, hline, hmem⟩ := List.mem_flatMap.1 hmem
  obtain ⟨w, hw, rfl⟩ := List.mem_map.1 hline
  have hword : 0 ∉ w := by
    intro hzero
    obtain ⟨raw, hraw, rfl⟩ := List.mem_map.1 (List.mem_of_mem_filter hw)
    obtain ⟨b, hb, hb0⟩ := List.mem_map.1 hzero
    have hb' : b = 0 := by
      unfold tolower at hb0
      split at hb0
      · rename_i hletter
        have hlo : 65 ≤ b.toNat := UInt8.le_iff_toNat_le.1 hletter.1
        have hhi : b.toNat ≤ 90 := UInt8.le_iff_toNat_le.1 hletter.2
        have hsum := congrArg UInt8.toNat hb0
        rw [UInt8.toNat_add] at hsum
        have h32 : (32 : UInt8).toNat = 32 := rfl
        have h0 : (0 : UInt8).toNat = 0 := rfl
        omega
      · exact hb0
    exact h (mem_of_mem_split hraw (mem_foldl_filter symbols (hb' ▸ hb)))
  simp only [List.mem_append, List.mem_cons, List.not_mem_nil, or_false] at hmem
  rcases hmem with (hmem | hmem | hmem) | hmem
  · exact hword hmem
  · exact absurd hmem (by decide)
  · exact absurd hmem (by decide)
  · exact absurd hmem (by decide)

/-- No key and nothing written has a zero in it. -/
def Loop.Text (x : Loop) : Prop := (∀ k ∈ x.oldKey, 0 ∉ k) ∧ 0 ∉ x.out

/-- The same of the rounds, where they end with an exception and where they do not. -/
def TextOut : Except CStr Loop → Prop
  | .error out => 0 ∉ out
  | .ok x => x.Text

theorem zero_not_mem_entryLine {k : CStr} (h : 0 ∉ k) (m : ℤ) : 0 ∉ entryLine k m := by
  have hdigits : ∀ n, 0 ∉ decimalBytes n := fun n hmem => absurd (isdigit_of_mem_decimalBytes hmem) (by decide)
  have hstr : 0 ∉ str m := by
    unfold str
    split
    · exact List.not_mem_cons_of_ne_of_not_mem (by decide) (hdigits _)
    · exact hdigits _
  have hspace : 0 ∉ cstr " " := by decide
  have hend : 0 ∉ cstr "\n" := by decide
  unfold entryLine
  simp only [List.mem_append, not_or]
  exact ⟨⟨⟨h, hspace⟩, hstr⟩, hend⟩

/-- **A round writes text**, also where it ends with an exception. -/
theorem step_text {x : Loop} (hx : x.Text) {token : CStr} (htoken : 0 ∉ token) : TextOut (x.step token) := by
  unfold Loop.step
  split
  · rename_i word second rest hsplit
    have hword : 0 ∉ word := fun hmem => htoken (mem_of_mem_split (hsplit ▸ List.mem_cons_self) hmem)
    obtain ⟨oldKey, acumulator, out⟩ := x
    obtain ⟨hkey, hout⟩ := hx
    cases hnum : written second with
    | none => exact hout
    | some repetitions =>
      cases oldKey with
      | none =>
        simp only [if_true, ne_eq, not_true_eq_false, if_false]
        exact ⟨fun k hk => Option.mem_some.1 hk ▸ hword, hout⟩
      | some k =>
        have hk : 0 ∉ k := hkey k rfl
        by_cases hsame : k = word
        · simp only [hsame, reduceCtorEq, if_false, ne_eq, not_true_eq_false]
          exact ⟨fun k' hk' => Option.mem_some.1 hk' ▸ hword, hout⟩
        · simp only [reduceCtorEq, if_false, ne_eq, hsame, not_false_eq_true, if_true]
          refine ⟨fun k' hk' => Option.mem_some.1 hk' ▸ hword, ?_⟩
          rw [List.mem_append, not_or]
          exact ⟨hout, zero_not_mem_entryLine hk _⟩
  · exact hx.2

/-- The reducer writes text for text. -/
theorem zero_not_mem_reducePy {stdin : CStr} (h : 0 ∉ stdin) : 0 ∉ reducePy stdin := by
  have hloop : ∀ (tokens : List CStr) (x : Loop), x.Text → (∀ token ∈ tokens, 0 ∉ token) →
      TextOut (tokens.foldlM Loop.step x) := by
    intro tokens
    induction tokens with
    | nil => exact fun _ hx _ => hx
    | cons token tokens ih =>
      intro x hx htokens
      have hstep := step_text hx (htokens token List.mem_cons_self)
      rw [List.foldlM_cons]
      cases hres : x.step token with
      | error out =>
        rw [hres] at hstep
        exact hstep
      | ok y =>
        rw [hres] at hstep
        exact ih y hstep fun t ht => htokens t (List.mem_cons_of_mem token ht)
  have htokens : ∀ token ∈ lines newline stdin, 0 ∉ token := fun token ht hmem => h (mem_of_mem_lines ht hmem)
  have hend := hloop (lines newline stdin) ⟨none, 0, []⟩ ⟨fun _ hk => absurd hk (by simp), List.not_mem_nil⟩ htokens
  unfold reducePy
  cases hres : (lines newline stdin).foldlM Loop.step ⟨none, 0, []⟩ with
  | error out =>
    rw [hres] at hend
    exact hend
  | ok y =>
    rw [hres] at hend
    obtain ⟨hkey, hout⟩ := hend
    dsimp only
    split
    · exact hout
    · rename_i k hk
      rw [List.mem_append, not_or]
      exact ⟨hout, zero_not_mem_entryLine (hkey k hk) _⟩

/-! ## As a combiner -/

/-- The lines that the reducer writes for lines in order. -/
def reduceLines (c : Collation UInt8) (s : Multiset CStr) :
    List CStr := lines newline (reducePy (unlines newline (c.sort s)))

/-- A line with an entry of records. -/
theorem record_entry (hw : Word w) {m : ℤ} (hm : 0 ≤ m) : Record (w ++ 32 :: str m) ∧
    entry (w ++ 32 :: str m) = (w, m) := by
  obtain ⟨n, rfl⟩ := Int.eq_ofNat_of_zero_le hm
  rw [str_natCast]
  exact ⟨⟨w, n, hw, rfl⟩, entry_record hw n⟩

variable {c : Collation UInt8} {a : Multiset CStr}

/-- The lines of a reduce are those of the entries that it adds up, with words and numbers as in
the records. -/
theorem reduceLines_eq (ha : ∀ x ∈ a, Record x) : ∃ xs, xs = addRuns ((c.sort a).map entry) ∧
    (∀ x ∈ xs, Word x.1 ∧ 0 ≤ x.2) ∧ reduceLines c a = xs.map fun x => x.1 ++ 32 :: str x.2 := by
  have hsort : ∀ line ∈ c.sort a, Record line := fun line hline => ha line (c.mem_sort.1 hline)
  have hentries : ∀ x ∈ addRuns ((c.sort a).map entry), Word x.1 ∧ 0 ≤ x.2 := by
    refine forall_mem_addRuns (fun k m n hm hn => ⟨hm.1, Int.add_nonneg hm.2 hn.2⟩) fun x hx => ?_
    obtain ⟨line, hline, rfl⟩ := List.mem_map.1 hx
    obtain ⟨w, n, hw, rfl⟩ := hsort line hline
    rw [entry_record hw]
    exact ⟨hw, Int.natCast_nonneg n⟩
  refine ⟨_, rfl, hentries, ?_⟩
  have htext : entryLines (addRuns ((c.sort a).map entry)) =
      unlines newline ((addRuns ((c.sort a).map entry)).map fun x => x.1 ++ 32 :: str x.2) := by
    unfold entryLines unlines entryLine
    rw [List.flatMap_map]
    refine List.flatMap_congr fun x _ => ?_
    have hspace : cstr " " = [32] := rfl
    have hend : cstr "\n" = [newline] := rfl
    rw [hspace, hend, List.append_assoc x.1, List.singleton_append]
  unfold reduceLines
  rw [reducePy_eq hsort, htext]
  refine lines_unlines fun line hline => ?_
  obtain ⟨x, hx, rfl⟩ := List.mem_map.1 hline
  exact (record_entry (hentries x hx).1 (hentries x hx).2).1.newline_not_mem

/-- What the reducer writes for records ends with its last line. -/
theorem not_open_reducePy {ls : List CStr} (h : ∀ line ∈ ls, Record line) :
    ¬Open newline (reducePy (unlines newline ls)) := by
  rw [reducePy_eq h]
  rintro ⟨hne, hlast⟩
  rcases List.eq_nil_or_concat' (addRuns (ls.map entry)) with hnil | ⟨xs, x, hxs⟩
  · exact hne (by rw [hnil]; rfl)
  · rw [hxs, entryLines, List.flatMap_append, List.flatMap_singleton, entryLine] at hlast
    have hend : cstr "\n" = [newline] := rfl
    rw [hend, ← List.append_assoc, List.getLast?_concat] at hlast
    exact hlast rfl

theorem records_reduceLines (ha : ∀ x ∈ a, Record x) : ∀ line ∈ reduceLines c a, Record line := by
  obtain ⟨xs, -, hxs, heq⟩ := reduceLines_eq (c := c) ha
  rw [heq]
  intro line hline
  obtain ⟨x, hx, rfl⟩ := List.mem_map.1 hline
  exact (record_entry (hxs x hx).1 (hxs x hx).2).1

/-- **What a reduce writes is read back** by the next one. -/
theorem entries_reduceLines (ha : ∀ x ∈ a, Record x) :
    (reduceLines c a).map entry = addRuns ((c.sort a).map entry) := by
  obtain ⟨xs, hadd, hxs, heq⟩ := reduceLines_eq (c := c) ha
  rw [heq, ← hadd, List.map_map]
  refine (List.map_congr_left fun x hx => ?_).trans (List.map_id xs)
  exact (record_entry (hxs x hx).1 (hxs x hx).2).2

/-- The totals and the keys of sorted lines are those of the lines. -/
theorem amountOf_sort (s : Multiset CStr) (k : CStr) :
    amountOf k ((c.sort s).map entry : Multiset (CStr × ℤ)) = amountOf k (s.map entry) := by
  rw [← Multiset.map_coe, c.coe_sort]

theorem mem_keys_sort (s : Multiset CStr) (k : CStr) :
    k ∈ (c.sort s).map (fun line => (entry line).1) ↔ k ∈ s.map fun line => (entry line).1 := by
  rw [← Multiset.mem_coe, ← Multiset.map_coe, c.coe_sort]

/-- **The reducer as a combiner.** When the order of `sort` keeps the lines of a word together, a
reduce of records can be left out before another one. -/
theorem combinable_reducePy (hc : KeepsTogether c.le Record fun line => (entry line).1) :
    Combinable Record (reduceLines c) where
  records := fun _ ha => records_reduceLines ha
  again := by
    intro a s ha hs
    have hleft : ∀ line ∈ (reduceLines c a : Multiset CStr) + s, Record line :=
      forall_mem_add.2 ⟨fun line hline => records_reduceLines ha line (Multiset.mem_coe.1 hline), hs⟩
    have hright : ∀ line ∈ a + s, Record line := forall_mem_add.2 ⟨ha, hs⟩
    -- a reduce keeps the totals and the keys
    have hentries := entries_reduceLines (c := c) ha
    have htotal : ∀ k, amountOf k ((reduceLines c a : Multiset CStr).map entry) = amountOf k (a.map entry) := by
      intro k
      rw [Multiset.map_coe, hentries, amountOf_addRuns, amountOf_sort]
    have hkeys : ∀ k, k ∈ (reduceLines c a : Multiset CStr).map (fun line => (entry line).1) ↔
        k ∈ a.map fun line => (entry line).1 := by
      intro k
      have hmap : (reduceLines c a).map (fun line => (entry line).1) = ((reduceLines c a).map entry).map Prod.fst := by
        rw [List.map_map]
        rfl
      rw [Multiset.map_coe, Multiset.mem_coe, hmap, hentries, mem_keys_addRuns, List.map_map]
      exact mem_keys_sort a k
    obtain ⟨xs, hxs, -, heq⟩ := reduceLines_eq (c := c) hleft
    obtain ⟨ys, hys, -, heq'⟩ := reduceLines_eq (c := c) hright
    rw [heq, heq', hxs, hys]
    congr 1
    refine addRuns_eq hc (fun x y => c.total.total x y) (fun _ h => hleft _ (c.mem_sort.1 h))
      (fun _ h => hright _ (c.mem_sort.1 h)) (c.pairwise_sort _) (c.pairwise_sort _) (fun k => ?_) fun k => ?_
    · rw [mem_keys_sort, mem_keys_sort, Multiset.map_add, Multiset.map_add, Multiset.mem_add, Multiset.mem_add, hkeys]
    · rw [amountOf_sort, amountOf_sort, Multiset.map_add, Multiset.map_add, amountOf_add, amountOf_add, htotal]

/-- How many lines a reduce of lines in order gives. -/
theorem length_reduceLines {ls : List CStr} (hls : ∀ line ∈ ls, Record line) (hsorted : ls.Pairwise c.le) :
    (reduceLines c (ls : Multiset CStr)).length = (addRuns (ls.map entry)).length := by
  obtain ⟨xs, hxs, -, heq⟩ := reduceLines_eq (c := c) (a := (ls : Multiset CStr)) fun line hline => hls line hline
  rw [heq, List.length_map, hxs, c.sort_of_pairwise hsorted]

/-- **When the reducer is a combiner**: exactly for an order of `sort` that keeps the lines of a
word together. -/
theorem reducer_combines_iff (c : Collation UInt8) :
    Combinable Record (reduceLines c) ↔ KeepsTogether c.le Record fun line => (entry line).1 := by
  refine ⟨fun h x y z hx hy hz hxy hyz hkey => ?_, combinable_reducePy⟩
  by_contra hne
  -- the line of another word is between two of a word, and these two are reduced before it comes
  obtain ⟨v, m, hv, rfl⟩ := hx
  obtain ⟨u, k, hu, rfl⟩ := hy
  obtain ⟨w, n, hw, rfl⟩ := hz
  dsimp only at hkey hne
  rw [entry_record hv, entry_record hw] at hkey
  rw [entry_record hu, entry_record hv] at hne
  dsimp only at hkey hne
  subst hkey
  set x := v ++ 32 :: decimalBytes m with hx
  set y := u ++ 32 :: decimalBytes k with hy
  set z := v ++ 32 :: decimalBytes n with hz
  have hrx : Record x := ⟨v, m, hv, hx⟩
  have hry : Record y := ⟨u, k, hu, hy⟩
  have hrz : Record z := ⟨v, n, hv, hz⟩
  have hxz : c.le x z := c.trans.trans _ _ _ hxy hyz
  have hpair : ∀ line ∈ [x, z], Record line := by simp [hrx, hrz]
  have hthree : ∀ line ∈ [x, y, z], Record line := by simp [hrx, hry, hrz]
  have hagain := h.again ([x, z] : List CStr) ([y] : List CStr) (fun line hline => hpair line hline)
    fun line hline => by rw [List.mem_singleton.1 (Multiset.mem_coe.1 hline)]; exact hry
  -- one line, and with the other two
  have hone : (reduceLines c ([x, z] : List CStr)).length = 1 := by
    rw [length_reduceLines hpair (by simp [hxz]), List.map_cons, List.map_cons, List.map_nil, hx, hz, entry_record hv,
      entry_record hv, addRuns_cons_cons]
    rfl
  have hleft : (reduceLines c ((reduceLines c ([x, z] : List CStr) : Multiset CStr) + ([y] : List
    CStr))).length ≤ 2 := by
    have hrecords : ∀ line ∈ (reduceLines c ([x, z] : List CStr) : Multiset CStr) + ([y] : List CStr), Record line := by
      refine forall_mem_add.2 ⟨fun line hline => h.records _ (fun l hl => hpair l hl) line hline, fun line hline => ?_⟩
      rw [List.mem_singleton.1 (Multiset.mem_coe.1 hline)]
      exact hry
    obtain ⟨xs, hxs, -, heq⟩ := reduceLines_eq (c := c) hrecords
    have hsub := (keys_addRuns_sublist ((c.sort ((reduceLines c ([x, z] : List CStr) : Multiset CStr) +
      ([y] : List CStr))).map entry)).length_le
    have hsort : (c.sort ((reduceLines c ([x, z] : List CStr) : Multiset CStr) + ([y] : List CStr))).length = 2 := by
      rw [← Multiset.coe_card, c.coe_sort, Multiset.card_add, Multiset.coe_card, Multiset.coe_card, hone]
      rfl
    rw [List.length_map, List.length_map, List.length_map, hsort, ← hxs] at hsub
    rw [heq, List.length_map]
    exact hsub
  have hright : (reduceLines c (([x, z] : List CStr) + ([y] : List CStr) : Multiset CStr)).length = 3 := by
    have hperm : (([x, z] : List CStr) + ([y] : List CStr) : Multiset CStr) = ([x, y, z] : List CStr) := by
      rw [Multiset.coe_add, Multiset.coe_eq_coe]
      exact (List.Perm.swap y z []).cons x
    rw [hperm, length_reduceLines hthree (by simp [hxy, hyz, hxz]), List.map_cons, List.map_cons, List.map_cons,
      List.map_nil, hx, hy, hz, entry_record hv, entry_record hu, entry_record hv,
      addRuns_cons_of_ne (by simpa using hne), addRuns_cons_of_ne (by simpa using fun heq => hne heq.symm)]
    rfl
  rw [hagain, hright] at hleft
  omega

/-! ## The order of the bytes -/

/-- `sort` in the locale `C`: a text comes before another one at the first byte where it has a
smaller one, or has none. -/
def bytewise : Collation UInt8 where
  le := fun x y => x ≤ y
  trans := ⟨fun _ _ _ => List.le_trans⟩
  antisymm := ⟨fun _ _ => List.le_antisymm⟩
  total := ⟨List.le_total⟩

/-- What is between two texts with a start has this start. -/
theorem prefix_of_between {p x y z : CStr} (hxy : p ++ x ≤ y) (hyz : y ≤ p ++ z) : ∃ y', y = p ++ y' := by
  induction p generalizing y with
  | nil => exact ⟨y, rfl⟩
  | cons b p ih =>
    cases y with
    | nil => exact absurd hxy (by simp)
    | cons b' y =>
      rw [List.cons_append, List.cons_le_cons_iff] at hxy hyz
      have hsame : b = b' ∧ p ++ x ≤ y ∧ y ≤ p ++ z := by
        rcases hxy with hlt | ⟨rfl, hxy⟩
        · rcases hyz with hgt | ⟨rfl, -⟩
          · exact absurd hlt (UInt8.lt_asymm hgt)
          · exact absurd hlt (UInt8.lt_irrefl _)
        · rcases hyz with hgt | ⟨-, hyz⟩
          · exact absurd hgt (UInt8.lt_irrefl _)
          · exact ⟨rfl, hxy, hyz⟩
      obtain ⟨y', rfl⟩ := ih hsame.2.1 hsame.2.2
      exact ⟨y', by rw [hsame.1, List.cons_append]⟩

/-- **The order of the bytes keeps the lines of a word together.** -/
theorem bytewise_keepsTogether : KeepsTogether bytewise.le Record fun line => (entry line).1 := by
  rintro x y z ⟨v, m, hv, rfl⟩ ⟨u, k, hu, rfl⟩ ⟨w, n, hw, rfl⟩ hxy hyz hkey
  dsimp only at hkey ⊢
  rw [entry_record hv, entry_record hw] at hkey
  obtain rfl : v = w := hkey
  have hassoc : ∀ digits : CStr, v ++ 32 :: digits = (v ++ [32]) ++ digits := fun digits => by simp
  rw [hassoc] at hxy hyz
  obtain ⟨y', hy⟩ := prefix_of_between hxy hyz
  -- both words end at the first blank
  have hword : ∀ (w rest : CStr), Word w → (w ++ 32 :: rest).takeWhile (fun b => !isspace b) = w := by
    intro w rest hw
    rw [List.takeWhile_append_of_pos fun b hb => by simp [hw.2 b hb], List.takeWhile_cons_of_neg (by decide),
      List.append_nil]
  have htake := congrArg (List.takeWhile fun b => !isspace b) hy
  rw [← hassoc, hword u _ hu, hword v _ hv] at htake
  rw [entry_record hu, entry_record hv, htake]

end Mdfs.Job.WordCount
