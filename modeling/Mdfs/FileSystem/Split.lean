import Mdfs.FileSystem.Filesystem
import Mdfs.Lib.Lines
import Mathlib.Tactic.Ring

/-!
# The split of a text into blocks

The loop of `filesystem_getBlocksFromStr` on a buffer, with its `int` arithmetic and each byte
it reads, and what it comes to where it ends.

Where the newline of the last line that fits is the first byte of the block, the loop does not
see it; nor does it take a last line without a newline that has the size of a block. Then it
does not move on.

* `split_whole_lines`: where the split ends, it loses nothing and keeps lines whole.
* `split_ends`: it ends exactly if no block starts where the loop does not move on.
-/

namespace Mdfs.FileSystem

open Lib Lines

/-! ## With exact arithmetic -/

/-- The search for a line end in a text, from `i + k` down to `i + 1`. -/
def lastLineEnd (str : List UInt8) (i : ℕ) : ℕ → Option ℕ
  | 0 => none
  | k + 1 => if str[i + (k + 1)]? = some 10 then some (i + (k + 1)) else lastLineEnd str i k

/-- The blocks of `size` bytes of a text, from position `i` on; `none` when the loop
does not end within `fuel` rounds. -/
def blocksFrom (size : ℕ) (str : List UInt8) : ℕ → ℕ → Option (List (List UInt8))
  | 0, _ => none
  | fuel + 1, i =>
    if str.length < i + size then some [str.drop i] -- It's the last block.
    else match lastLineEnd str i (size - 1) with
      | some j => (blocksFrom size str fuel (j + 1)).map fun blocks =>
          (str.drop i).take (j - i + 1) :: blocks
      | none => blocksFrom size str fuel i

theorem lastLineEnd_spec {str : List UInt8} {i j : ℕ} : ∀ {k}, lastLineEnd str i k = some j →
    i < j ∧ j ≤ i + k ∧ str[j]? = some 10 := by
  intro k
  induction k with
  | zero => intro h; cases h
  | succ k ih =>
    intro h
    unfold lastLineEnd at h
    split at h
    · rename_i hc
      cases h
      exact ⟨by omega, le_rfl, hc⟩
    · obtain ⟨h1, h2, h3⟩ := ih h
      exact ⟨h1, by omega, h3⟩

/-- **The blocks of a text, concatenated, are the text.** -/
theorem blocksFrom_flatten {size : ℕ} {str : List UInt8} : ∀ {fuel i bs},
    blocksFrom size str fuel i = some bs → bs.flatten = str.drop i := by
  intro fuel
  induction fuel with
  | zero => intro i bs h; cases h
  | succ fuel ih =>
    intro i bs h
    unfold blocksFrom at h
    split at h
    · cases h; simp
    · cases hj : lastLineEnd str i (size - 1) with
      | none => rw [hj] at h; exact ih h
      | some j =>
        have hij := (lastLineEnd_spec hj).1
        simp only [hj, Option.map_eq_some_iff] at h
        obtain ⟨rest, hrest, rfl⟩ := h
        rw [List.flatten_cons, ih hrest]
        have hdrop : str.drop (j + 1) = (str.drop i).drop (j - i + 1) := by
          rw [List.drop_drop]; congr 1; omega
        rw [hdrop, List.take_append_drop]

/-! ## On a buffer -/

/-- **Blocks that lose nothing and keep lines whole.** -/
structure WholeLines (size : ℕ) (text : List UInt8) (blocks : List (List UInt8)) : Prop where
  flatten : blocks.flatten = text
  fits : ∀ block ∈ blocks, block.length ≤ size
  whole : ∀ done block behind, blocks = done ++ block :: behind → behind ≠ [] →
    block ≠ [] ∧ Longest newline size (text.drop done.flatten.length) block

variable {size length i j k m : ℕ} {str text : List UInt8} {blocks : List (List UInt8)}

theorem ok_bind {α β : Type} (a : α) (f : α → Except SplitFault β) : (Except.ok a >>= f) = f a := rfl

theorem readBytes_of_le (h : i + k ≤ str.length) : readBytes str i k = .ok ((str.drop i).take k) := by
  unfold readBytes
  rw [if_pos (by omega), Int.toNat_natCast, Int.toNat_natCast]

theorem int_of_lt (h : k < 2 ^ 31) : int k = .ok (k : ℤ) := if_pos (by omega)

/-- The search reads inside the text. -/
theorem searchLineEnd_eq (hlen : length ≤ str.length) : ∀ {k}, i + k < length →
    searchLineEnd str i k = .ok ((lastLineEnd (str.take length) i k).map Nat.cast) := by
  intro k
  induction k with
  | zero => exact fun _ => rfl
  | succ k ih =>
    intro hk
    have hread : readBytes str (i + (k + 1 : ℕ)) 1 = .ok [str[i + (k + 1)]] := by
      have hbytes : readBytes str (i + (k + 1) : ℕ) (1 : ℕ) = .ok ((str.drop (i + (k + 1))).take 1) :=
        readBytes_of_le (by omega)
      rw [Int.natCast_add, Int.natCast_one] at hbytes
      rw [hbytes, List.drop_eq_getElem_cons (by omega), List.take_succ_cons, List.take_zero]
    have htake : (str.take length)[i + (k + 1)]? = some str[i + (k + 1)] := by
      rw [List.getElem?_take_of_lt hk, List.getElem?_eq_getElem (by omega)]
    unfold searchLineEnd lastLineEnd
    rw [hread, htake]
    by_cases hnl : str[i + (k + 1)] = 10
    · simp [bind, Except.bind, pure, Except.pure, newline, hnl]
    · simp [bind, Except.bind, newline, hnl, ih (by omega)]

theorem sizeT_of_lt (h : k < 2 ^ 31) : sizeT k = k := by
  have hlt : (k : ℤ) < 2 ^ 64 := by omega
  exact Int.emod_eq_of_lt (Int.natCast_nonneg k) hlt

/-- The test for the last block. -/
theorem sizeT_gt_iff (h : k < 2 ^ 31) : sizeT k > length ↔ length < k := by
  rw [sizeT_of_lt h]
  exact Int.ofNat_lt

/-- The length of the last block, as the argument of `addBlock`. -/
theorem lastLength_eq (hi : i ≤ length) (hmax : length < 2 ^ 31) :
    intOfSizeT (sizeT (length - i)) = (length - i : ℕ) := by
  have hsub : (length : ℤ) - i = (length - i : ℕ) := by omega
  rw [hsub, sizeT_of_lt (by omega)]
  exact Int.bmod_eq_of_le (by omega) (by omega)

theorem splitRound_overflow (hmax : 2 ^ 31 ≤ i + size) (str : List UInt8) (length : ℕ) :
    splitRound size str length i = .error .overflow := by
  have hend : int ((i : ℤ) + size) = .error .overflow := if_neg (by omega)
  unfold splitRound
  rw [hend]
  rfl

/-- **A round whose window ends in the range of `int`**, from a place in the text. -/
theorem splitRound_eq (hlen : length ≤ str.length) (hsize : 0 < size) (hi : i ≤ length) (hmax : i + size < 2 ^ 31) :
    splitRound size str length i =
      if length < i + size then .ok (some ((str.take length).drop i), none)
      else match lastLineEnd (str.take length) i (size - 1) with
        | some j => .ok (some (((str.take length).drop i).take (j - i + 1)), some ((j + 1 : ℕ) : ℤ))
        | none => .ok (none, some (i : ℤ)) := by
  have htext : (str.take length).length = length := List.length_take_of_le hlen
  have hend : int (i + size) = .ok ((i + size : ℕ) : ℤ) := by
    rw [← Int.natCast_add]
    exact int_of_lt hmax
  unfold splitRound
  rw [hend, ok_bind]
  by_cases hlast : length < i + size
  · -- the last block: `length - i` goes through `size_t` and comes back as it was
    have hread : readBytes str i (length - i : ℕ) = .ok ((str.drop i).take (length - i)) :=
      readBytes_of_le (by omega)
    have hdrop : (str.take length).drop i = (str.drop i).take (length - i) := List.drop_take
    have hblock := lastLength_eq hi (by omega)
    rw [if_pos ((sizeT_gt_iff hmax).2 hlast), if_pos hlast, hblock, hread, ok_bind, hdrop]
    rfl
  · have hsearch := searchLineEnd_eq (i := i) (k := size - 1) hlen (by omega)
    rw [if_neg (mt (sizeT_gt_iff hmax).1 hlast), if_neg hlast, hsearch, ok_bind]
    cases hj : lastLineEnd (str.take length) i (size - 1) with
    | none => rfl -- no block, and `i` stays
    | some j =>
      obtain ⟨hij, hj', -⟩ := lastLineEnd_spec hj
      -- the line end is in the window, so the lengths fit in an int
      have hlength : int ((j : ℤ) - i + 1) = .ok ((j - i + 1 : ℕ) : ℤ) := by
        have hcast : (j : ℤ) - i + 1 = (j - i + 1 : ℕ) := by omega
        rw [hcast]
        exact int_of_lt (by omega)
      have hnext : int ((j : ℤ) + 1) = .ok ((j + 1 : ℕ) : ℤ) := by
        rw [← Int.natCast_succ]
        exact int_of_lt (by omega)
      have hread : readBytes str i (j - i + 1 : ℕ) = .ok ((str.drop i).take (j - i + 1)) :=
        readBytes_of_le (by omega)
      have hblock : ((str.take length).drop i).take (j - i + 1) = (str.drop i).take (j - i + 1) := by
        rw [List.drop_take, List.take_take, Nat.min_eq_left (by omega)]
      simp only [Option.map_some, hlength, hread, hnext, hblock, ok_bind]
      rfl

/-- **The loop on a buffer is the loop on its text**, where `int` arithmetic is exact. -/
theorem splitRounds_eq (hlen : length ≤ str.length) (hmax : length + size < 2 ^ 31) (hsize : 0 < size) :
    ∀ (rounds : ℕ) {i : ℕ}, i ≤ length → splitRounds size str length rounds i =
      match blocksFrom size (str.take length) rounds i with
      | some blocks => .ok blocks
      | none => .error .rounds := by
  have htext : (str.take length).length = length := List.length_take_of_le hlen
  intro rounds
  induction rounds with
  | zero => exact fun _ => rfl
  | succ rounds ih =>
    intro i hi
    rw [splitRounds, splitRound_eq hlen hsize hi (by omega)]
    unfold blocksFrom
    rw [htext]
    by_cases hlast : length < i + size
    · rw [if_pos hlast, if_pos hlast]
      rfl
    · rw [if_neg hlast, if_neg hlast]
      cases hj : lastLineEnd (str.take length) i (size - 1) with
      | none =>
        simp only [ok_bind, Option.toList_none, List.nil_append, bind_pure]
        exact ih hi
      | some j =>
        obtain ⟨hij, hj', -⟩ := lastLineEnd_spec hj
        have hrest := ih (i := j + 1) (by omega)
        simp only [ok_bind, hrest]
        cases blocksFrom size (str.take length) rounds (j + 1) with
        | none => rfl
        | some blocks => rfl

/-- A round from a place in the text: it leaves the range of `int`, or it is that of the
loop with exact arithmetic. -/
theorem splitRounds_cases (hlen : length ≤ str.length) (hsize : 0 < size) (hi : i ≤ length) (rounds : ℕ) :
    splitRounds size str length (rounds + 1) i = .error .overflow ∨
      (length < i + size ∧ splitRounds size str length (rounds + 1) i = .ok [(str.take length).drop i]) ∨
      (¬length < i + size ∧ lastLineEnd (str.take length) i (size - 1) = none ∧
        splitRounds size str length (rounds + 1) i = splitRounds size str length rounds i) ∨
      (¬length < i + size ∧ ∃ j, lastLineEnd (str.take length) i (size - 1) = some j ∧ i < j ∧ j < length ∧
        splitRounds size str length (rounds + 1) i =
          (((str.take length).drop i).take (j - i + 1) :: ·) <$> splitRounds size str length rounds (j + 1 : ℕ)) := by
  by_cases hmax : i + size < 2 ^ 31
  · rw [splitRounds, splitRound_eq hlen hsize hi hmax]
    right
    by_cases hlast : length < i + size
    · rw [if_pos hlast]
      exact Or.inl ⟨hlast, rfl⟩
    · rw [if_neg hlast]
      cases hj : lastLineEnd (str.take length) i (size - 1) with
      | none =>
        refine Or.inr (Or.inl ⟨hlast, rfl, ?_⟩)
        simp only [ok_bind, Option.toList_none, List.nil_append, bind_pure]
      | some j =>
        obtain ⟨hij, hj', -⟩ := lastLineEnd_spec hj
        simp only [ok_bind, Option.toList_some, List.singleton_append]
        exact Or.inr (Or.inr ⟨hlast, j, rfl, hij, by omega, rfl⟩)
  · rw [splitRounds, splitRound_overflow (by omega)]
    exact Or.inl rfl

/-- **A split that ends has the blocks of the text**, whatever its length. -/
theorem blocksFrom_of_split (hlen : length ≤ str.length) (hsize : 0 < size) : ∀ {rounds i : ℕ} {blocks},
    i ≤ length → splitRounds size str length rounds i = .ok blocks →
      blocksFrom size (str.take length) rounds i = some blocks := by
  have htext : (str.take length).length = length := List.length_take_of_le hlen
  intro rounds
  induction rounds with
  | zero => intro i blocks _ h; cases h
  | succ rounds ih =>
    intro i blocks hi h
    unfold blocksFrom
    rw [htext]
    rcases splitRounds_cases hlen hsize hi rounds with heq | ⟨hlast, heq⟩ | ⟨hlast, hj, heq⟩ | ⟨hlast, j, hj, -,
      hj', heq⟩
    all_goals rw [heq] at h
    · cases h
    · cases h
      rw [if_pos hlast]
    · rw [if_neg hlast, hj]
      exact ih hi h
    · rw [if_neg hlast, hj]
      cases hrest : splitRounds size str length rounds (j + 1 : ℕ) with
      | error e =>
        rw [hrest] at h
        cases h
      | ok rest =>
        rw [hrest] at h
        cases h
        have hblocks := ih (by omega) hrest
        simp only [hblocks, Option.map_some]

/-- More rounds than needed change nothing. -/
theorem splitRounds_mono (hlen : length ≤ str.length) (hsize : 0 < size) : ∀ {rounds i more : ℕ}, i ≤ length →
    splitRounds size str length rounds i ≠ .error .rounds → rounds ≤ more →
      splitRounds size str length more i = splitRounds size str length rounds i := by
  intro rounds
  induction rounds with
  | zero => intro i more _ h; exact absurd rfl h
  | succ rounds ih =>
    intro i more hi h hmore
    obtain ⟨m, rfl⟩ : ∃ m, more = m + 1 := ⟨more - 1, by omega⟩
    by_cases hmax : i + size < 2 ^ 31
    · rw [splitRounds, splitRounds, splitRound_eq hlen hsize hi hmax]
      rw [splitRounds, splitRound_eq hlen hsize hi hmax] at h
      by_cases hlast : length < i + size
      · rw [if_pos hlast]
        rfl
      · rw [if_neg hlast] at h ⊢
        cases hj : lastLineEnd (str.take length) i (size - 1) with
        | none =>
          rw [hj] at h
          simp only [ok_bind, Option.toList_none, List.nil_append, bind_pure] at h ⊢
          exact ih hi h (by omega)
        | some j =>
          rw [hj] at h
          obtain ⟨hij, hj', -⟩ := lastLineEnd_spec hj
          simp only [ok_bind] at h ⊢
          have hrest : splitRounds size str length rounds (j + 1 : ℕ) ≠ .error .rounds := by
            intro hrest
            rw [hrest] at h
            exact h rfl
          rw [ih (by omega) hrest (by omega)]
    · rw [splitRounds, splitRounds, splitRound_overflow (by omega)]
      rfl

/-- **The bound on the rounds is enough**: a split that ends, or leaves the range of `int`, in
some number of rounds does so in as many as there are bytes left, and one. -/
theorem splitRounds_enough (hlen : length ≤ str.length) (hsize : 0 < size) : ∀ {rounds i : ℕ}, i ≤ length →
    splitRounds size str length rounds i ≠ .error .rounds →
      splitRounds size str length (length - i + 1) i = splitRounds size str length rounds i := by
  intro rounds
  induction rounds with
  | zero => intro i _ h; exact absurd rfl h
  | succ rounds ih =>
    intro i hi h
    by_cases hmax : i + size < 2 ^ 31
    · rw [splitRounds, splitRounds, splitRound_eq hlen hsize hi hmax]
      by_cases hlast : length < i + size
      · rw [if_pos hlast]
        rfl
      · rw [if_neg hlast]
        cases hj : lastLineEnd (str.take length) i (size - 1) with
        | none =>
          -- the same round again: the split does not end
          have hstuck : ∀ n, splitRounds size str length n i = .error .rounds := by
            intro n
            induction n with
            | zero => rfl
            | succ n ihn =>
              rw [splitRounds, splitRound_eq hlen hsize hi hmax, if_neg hlast, hj]
              simp only [ok_bind, Option.toList_none, List.nil_append, bind_pure]
              exact ihn
          exact absurd (hstuck _) h
        | some j =>
          obtain ⟨hij, hj', -⟩ := lastLineEnd_spec hj
          simp only [ok_bind]
          have hrest : splitRounds size str length rounds (j + 1 : ℕ) ≠ .error .rounds := by
            intro hrest
            rw [splitRounds, splitRound_eq hlen hsize hi hmax, if_neg hlast, hj] at h
            simp only [ok_bind, hrest] at h
            exact h rfl
          have henough := ih (i := j + 1) (by omega) hrest
          have hends : splitRounds size str length (length - (j + 1) + 1) (j + 1 : ℕ) ≠ .error .rounds := by
            rw [henough]
            exact hrest
          rw [splitRounds_mono hlen hsize (by omega) hends (by omega), henough]
    · rw [splitRounds, splitRounds, splitRound_overflow (by omega)]
      rfl

/-- The number of rounds given to `filesystem_getBlocksFromStr` is enough. -/
theorem getBlocksFromStr_enough {rounds : ℕ} (hlen : length ≤ str.length)
    (h : splitRounds NODE_BLOCK_SIZE str length rounds 0 ≠ .error .rounds) :
    filesystemGetBlocksFromStr str length = splitRounds NODE_BLOCK_SIZE str length rounds 0 := by
  have hsize : 0 < NODE_BLOCK_SIZE := by
    unfold NODE_BLOCK_SIZE
    omega
  have henough : splitRounds NODE_BLOCK_SIZE str length rounds (0 : ℕ) ≠ .error .rounds →
      splitRounds NODE_BLOCK_SIZE str length (length - 0 + 1) (0 : ℕ) =
        splitRounds NODE_BLOCK_SIZE str length rounds (0 : ℕ) :=
    splitRounds_enough hlen hsize (Nat.zero_le length)
  rw [Int.ofNat_zero, Nat.sub_zero] at henough
  unfold filesystemGetBlocksFromStr
  exact henough h

/-- **The blocks of a text** are those of the loop with exact arithmetic. -/
theorem blocksFrom_of_getBlocksFromStr {blocks : List (List UInt8)} (hlen : length ≤ str.length)
    (h : filesystemGetBlocksFromStr str length = .ok blocks) :
    blocksFrom NODE_BLOCK_SIZE (str.take length) (length + 1) 0 = some blocks := by
  have hsize : 0 < NODE_BLOCK_SIZE := by
    unfold NODE_BLOCK_SIZE
    omega
  unfold filesystemGetBlocksFromStr at h
  rw [← Int.ofNat_zero] at h
  exact blocksFrom_of_split hlen hsize (Nat.zero_le length) h

/-- **The blocks of a text, concatenated, are the text.** -/
theorem getBlocksFromStr_flatten {blocks : List (List UInt8)}
    (h : filesystemGetBlocksFromStr text text.length = .ok blocks) : blocks.flatten = text := by
  have hblocks := blocksFrom_of_getBlocksFromStr le_rfl h
  rw [List.take_length] at hblocks
  exact blocksFrom_flatten hblocks

/-! ## Whole lines -/

/-- The line end that is found is the last one, -/
theorem lastLineEnd_last : ∀ {k}, lastLineEnd text i k = some j → ∀ m, j < m → m ≤ i + k → text[m]? ≠ some newline := by
  intro k
  induction k with
  | zero => intro h; cases h
  | succ k ih =>
    intro h m hjm hm
    unfold lastLineEnd at h
    split at h
    · cases h
      omega
    · rename_i hnl
      by_cases heq : m = i + (k + 1)
      · rw [heq]
        exact hnl
      · exact ih h m hjm (by omega)

/-- and if none is found there is none, but perhaps in the first place. -/
theorem lastLineEnd_none : ∀ {k}, lastLineEnd text i k = none → ∀ m, i < m → m ≤ i + k → text[m]? ≠ some newline := by
  intro k
  induction k with
  | zero => intro _ m him hm; omega
  | succ k ih =>
    intro h m him hm
    unfold lastLineEnd at h
    split at h
    · cases h
    · rename_i hnl
      by_cases heq : m = i + (k + 1)
      · rw [heq]
        exact hnl
      · exact ih h m him (by omega)

/-- **The block of a round** is the longest that fits. -/
theorem longest_block (hsize : 0 < size) (hj : lastLineEnd text i (size - 1) = some j) :
    Longest newline size (text.drop i) ((text.drop i).take (j - i + 1)) := by
  obtain ⟨hij, hle, hnl⟩ := lastLineEnd_spec hj
  refine longest_take ?_ (by omega) ?_
  · rw [List.getElem?_drop, Nat.add_sub_cancel' (by omega)]
    exact hnl
  · intro m hjm hm
    rw [List.getElem?_drop]
    exact lastLineEnd_last hj (i + m) (by omega) (by omega)

/-- What is left behind the block of a round. -/
theorem drop_block (hij : i < j) (hj : j < text.length) :
    (text.drop i).drop ((text.drop i).take (j - i + 1)).length = text.drop (j + 1) := by
  have hlen : ((text.drop i).take (j - i + 1)).length = j - i + 1 := by
    rw [List.length_take, List.length_drop]
    omega
  rw [hlen, List.drop_drop]
  congr 1
  omega

/-- **The blocks of a split that ends.** -/
theorem blocksFrom_wholeLines (hsize : 0 < size) : ∀ {rounds i blocks}, blocksFrom size text rounds i = some blocks →
    WholeLines size (text.drop i) blocks := by
  intro rounds
  induction rounds with
  | zero => intro i blocks h; cases h
  | succ rounds ih =>
    intro i blocks h
    refine ⟨blocksFrom_flatten h, ?_, ?_⟩
    all_goals
      unfold blocksFrom at h
      split at h
    -- the last block
    · cases h
      intro block hblock
      rw [List.mem_singleton.1 hblock, List.length_drop]
      omega
    · cases hj : lastLineEnd text i (size - 1) with
      | none =>
        rw [hj] at h
        exact (ih h).fits
      | some j =>
        simp only [hj, Option.map_eq_some_iff] at h
        obtain ⟨rest, hrest, rfl⟩ := h
        intro block hblock
        obtain rfl | hblock := List.mem_cons.1 hblock
        · exact (longest_block hsize hj).fits
        · exact (ih hrest).fits block hblock
    -- nothing is behind the last block
    · cases h
      intro done block behind hsplit hbehind
      cases done with
      | nil => exact absurd (List.cons.inj hsplit).2.symm hbehind
      | cons b done => simp at hsplit
    · cases hj : lastLineEnd text i (size - 1) with
      | none =>
        rw [hj] at h
        exact (ih h).whole
      | some j =>
        have hlongest := longest_block hsize hj
        obtain ⟨hij, -, hnl⟩ := lastLineEnd_spec hj
        have hlt : j < text.length := (List.getElem?_eq_some_iff.1 hnl).1
        simp only [hj, Option.map_eq_some_iff] at h
        obtain ⟨rest, hrest, rfl⟩ := h
        intro done block behind hsplit hbehind
        cases done with
        | nil =>
          obtain ⟨rfl, rfl⟩ := List.cons.inj hsplit
          refine ⟨fun hnil => ?_, hlongest⟩
          have hend := hlongest.ended
          rw [hnil] at hend
          cases hend
        | cons b done =>
          obtain ⟨rfl, htail⟩ := List.cons.inj hsplit
          have hwhole := (ih hrest).whole done block behind htail hbehind
          rw [List.flatten_cons, List.length_append, ← List.drop_drop, drop_block hij hlt]
          exact hwhole

/-- **The split loses nothing and keeps lines whole.** Where the loop ends on the first
`length` bytes of a buffer, it has read no byte outside it, its blocks are these bytes, and
each but the last is the longest run of lines that fits. -/
theorem split_whole_lines (str : List UInt8) (length rounds : ℕ) (hlen : length ≤ str.length)
    (hmax : length + NODE_BLOCK_SIZE ≤ 2 ^ 31 - 1)
    (hends : splitRounds NODE_BLOCK_SIZE str length rounds 0 ≠ .error .rounds) :
    ∃ blocks, splitRounds NODE_BLOCK_SIZE str length rounds 0 = .ok blocks ∧
      WholeLines NODE_BLOCK_SIZE (str.take length) blocks := by
  have hsize : 0 < NODE_BLOCK_SIZE := by
    unfold NODE_BLOCK_SIZE
    omega
  have hrun := splitRounds_eq hlen (by omega) hsize rounds (Nat.zero_le length)
  rw [Int.ofNat_zero] at hrun
  cases hblocks : blocksFrom NODE_BLOCK_SIZE (str.take length) rounds 0 with
  | none =>
    rw [hblocks] at hrun
    exact absurd hrun hends
  | some blocks =>
    rw [hblocks] at hrun
    have hwhole := blocksFrom_wholeLines hsize hblocks
    rw [List.drop_zero] at hwhole
    exact ⟨blocks, hrun, hwhole⟩

/-- Two lines in a buffer of three. -/
theorem split_whole_lines_two : ∃ blocks,
    splitRounds NODE_BLOCK_SIZE (cstr "b\na\nc\n") 4 1 0 = .ok blocks ∧
      WholeLines NODE_BLOCK_SIZE ((cstr "b\na\nc\n").take 4) blocks :=
  split_whole_lines (cstr "b\na\nc\n") 4 1 (by decide) (by decide) (by decide)

/-! ## Where it ends -/

/-- The blocks are found in some number of rounds. -/
def Ends (size : ℕ) (text : List UInt8) : Prop := ∃ rounds blocks, blocksFrom size text rounds 0 = some blocks

/-- **Where the loop does not move on**: at an empty line before one that fills the rest of the
window, or at a last line of the size of a block that has no newline. -/
def Trap (size : ℕ) (rest : List UInt8) : Prop :=
  (size ≤ rest.length ∧ rest.head? = some newline ∧ newline ∉ rest.tail.take (size - 1)) ∨
    (rest.length = size ∧ newline ∉ rest)

/-- There is no line end but in the first place of the window. -/
theorem tail_take_iff : newline ∉ ((text.drop i).tail).take (size - 1) ↔ ∀ m, i < m → m ≤ i + (size - 1) →
    text[m]? ≠ some newline := by
  constructor
  · intro h m him hm hnl
    apply h
    rw [List.mem_iff_getElem?]
    refine ⟨m - i - 1, ?_⟩
    rw [List.getElem?_take_of_lt (by omega), List.getElem?_tail, List.getElem?_drop, ← hnl]
    congr 1
    omega
  · intro h hmem
    obtain ⟨n, hn⟩ := List.mem_iff_getElem?.1 hmem
    have hlt : n < size - 1 := by
      by_contra hge
      rw [List.getElem?_eq_none (by rw [List.length_take]; omega)] at hn
      cases hn
    rw [List.getElem?_take_of_lt hlt, List.getElem?_tail, List.getElem?_drop] at hn
    exact h (i + (n + 1)) (by omega) (by omega) hn

/-- A round that goes on has a line end behind the first place. -/
theorem not_trap_of_lastLineEnd (hj : lastLineEnd text i (size - 1) = some j) :
    ¬Trap size (text.drop i) := by
  obtain ⟨hij, hle, hnl⟩ := lastLineEnd_spec hj
  rintro (⟨-, -, hno⟩ | ⟨-, hno⟩)
  · exact tail_take_iff.1 hno j hij hle hnl
  · apply hno
    rw [List.mem_iff_getElem?]
    refine ⟨j - i, ?_⟩
    rw [List.getElem?_drop, Nat.add_sub_cancel' (by omega)]
    exact hnl

/-- A round from the start of a line that finds none is at a trap. -/
theorem trap_of_lastLineEnd_none (hsize : 0 < size) (hfit : LinesFit newline size text)
    (hline : ¬Open newline (text.take i))
    (hlong : ¬text.length < i + size) (hj : lastLineEnd text i (size - 1) = none) : Trap size (text.drop i) := by
  have hlen : (text.drop i).length = text.length - i := List.length_drop
  have hno := tail_take_iff.2 (lastLineEnd_none hj)
  by_cases hhead : (text.drop i).head? = some newline
  · exact Or.inl ⟨by omega, hhead, hno⟩
  right
  -- there is no newline in the window
  have hwindow : newline ∉ (text.drop i).take size := by
    obtain ⟨k, rfl⟩ : ∃ k, size = k + 1 := ⟨size - 1, by omega⟩
    cases hrest : text.drop i with
    | nil => simp
    | cons b rest =>
      rw [hrest] at hno hhead
      rw [List.take_succ_cons, List.mem_cons]
      rintro (heq | hmem)
      · exact hhead (congrArg some heq.symm)
      · exact hno hmem
  have hexact : (text.drop i).length = size := by
    by_contra hne
    have hsplit : text = text.take i ++ (text.drop i).take (size + 1) ++ (text.drop i).drop (size + 1) := by
      rw [List.append_assoc, List.take_append_drop, List.take_append_drop]
    have hdrop : ((text.drop i).take (size + 1)).dropLast = (text.drop i).take size := by
      rw [List.dropLast_eq_take, List.length_take, List.take_take]
      congr 1
      omega
    have hle := hfit _ _ _ hsplit hline (hdrop ▸ hwindow)
    rw [List.length_take] at hle
    omega
  refine ⟨hexact, ?_⟩
  rwa [← hexact, List.take_length] at hwindow

theorem not_trap_of_blocksFrom (hsize : 0 < size) : ∀ {rounds i blocks}, blocksFrom size text rounds i = some blocks →
    ∀ rest, Start newline size (text.drop i) rest → ¬Trap size rest := by
  intro rounds
  induction rounds with
  | zero => intro i blocks h; cases h
  | succ rounds ih =>
    intro i blocks h rest hstart
    unfold blocksFrom at h
    split at h
    · rename_i hlast
      have hshort : ¬size ≤ (text.drop i).length := by
        rw [List.length_drop]
        omega
      cases hstart with
      | whole =>
        rintro (⟨hlong, -⟩ | ⟨hexact, -⟩)
        · exact hshort hlong
        · exact hshort hexact.ge
      | next hlong hblock hrest => exact absurd hlong hshort
    · cases hj : lastLineEnd text i (size - 1) with
      | none =>
        rw [hj] at h
        exact ih h rest hstart
      | some j =>
        obtain ⟨hij, -, hnl⟩ := lastLineEnd_spec hj
        have hlt : j < text.length := (List.getElem?_eq_some_iff.1 hnl).1
        simp only [hj, Option.map_eq_some_iff] at h
        obtain ⟨blocks', hblocks', -⟩ := h
        cases hstart with
        | whole => exact not_trap_of_lastLineEnd hj
        | next hlong hblock hrest =>
          have heq := hblock.unique (longest_block hsize hj)
          rw [heq, drop_block hij hlt] at hrest
          exact ih hblocks' rest hrest

/-- Behind a line end, a line starts. -/
theorem not_open_take (hnl : text[j]? = some newline) : ¬Open newline (text.take (j + 1)) := by
  have hlt : j < text.length := (List.getElem?_eq_some_iff.1 hnl).1
  intro hopen
  apply hopen.2
  have hlen : (text.take (j + 1)).length = j + 1 := by
    rw [List.length_take]
    omega
  rw [List.getLast?_eq_getElem?, hlen, Nat.add_sub_cancel, List.getElem?_take_of_lt (Nat.lt_succ_self j), hnl]

theorem blocksFrom_of_not_trap (hsize : 0 < size) (hfit : LinesFit newline size text) :
    ∀ n i, text.length - i ≤ n → ¬Open newline (text.take i) →
      (∀ rest, Start newline size (text.drop i) rest → ¬Trap size rest) →
      ∃ rounds blocks, blocksFrom size text rounds i = some blocks := by
  intro n
  induction n with
  | zero =>
    intro i hn _ _
    exact ⟨1, [text.drop i], if_pos (by omega)⟩
  | succ n ih =>
    intro i hn hline hclear
    by_cases hlast : text.length < i + size
    · exact ⟨1, [text.drop i], if_pos hlast⟩
    cases hj : lastLineEnd text i (size - 1) with
    | none => exact absurd (trap_of_lastLineEnd_none hsize hfit hline hlast hj) (hclear _ (Start.whole _))
    | some j =>
      obtain ⟨hij, -, hnl⟩ := lastLineEnd_spec hj
      have hlt : j < text.length := (List.getElem?_eq_some_iff.1 hnl).1
      have hlong : size ≤ (text.drop i).length := by
        rw [List.length_drop]
        omega
      obtain ⟨rounds, blocks, hblocks⟩ := ih (j + 1) (by omega) (not_open_take hnl) fun rest hrest => by
        rw [← drop_block hij hlt] at hrest
        exact hclear rest (Start.next hlong (longest_block hsize hj) hrest)
      refine ⟨rounds + 1, (text.drop i).take (j - i + 1) :: blocks, ?_⟩
      rw [blocksFrom, if_neg hlast, hj]
      simp only [hblocks, Option.map_some]

/-- **The split ends**, for a text whose lines fit in a block, exactly if none of the blocks of
lines that it is to be cut in, each as long as fits, starts at a trap. -/
theorem split_ends (text : List UInt8) (hfit : LinesFit newline NODE_BLOCK_SIZE text) :
    Ends NODE_BLOCK_SIZE text ↔ ∀ rest, Start newline NODE_BLOCK_SIZE text rest → ¬Trap NODE_BLOCK_SIZE rest := by
  have hsize : 0 < NODE_BLOCK_SIZE := by
    unfold NODE_BLOCK_SIZE
    omega
  constructor
  · rintro ⟨rounds, blocks, hblocks⟩
    exact not_trap_of_blocksFrom hsize hblocks
  · intro hclear
    refine blocksFrom_of_not_trap hsize hfit text.length 0 (by omega) ?_ hclear
    rw [List.take_zero]
    exact fun hopen => hopen.1 rfl

/-- A text shorter than a block ends in the first round. -/
theorem split_ends_short : Ends NODE_BLOCK_SIZE (cstr "b\na\n") := by
  refine (split_ends (cstr "b\na\n") ?_).2 ?_
  · intro before line after hsplit _ _
    have hlen := congrArg List.length hsplit
    have hfour : (cstr "b\na\n").length = 4 := rfl
    rw [List.length_append, List.length_append] at hlen
    unfold NODE_BLOCK_SIZE
    omega
  · intro rest hstart
    cases hstart with
    | whole => unfold Trap NODE_BLOCK_SIZE; decide
    | next hlong hblock hrest => exact absurd hlong (by unfold NODE_BLOCK_SIZE; decide)

/-- An empty line, and one that fills a block. -/
def emptyThenFull : List UInt8 := newline :: (List.replicate (NODE_BLOCK_SIZE - 1) 97 ++ [newline])

theorem length_emptyThenFull : emptyThenFull.length = NODE_BLOCK_SIZE + 1 := by
  unfold emptyThenFull
  rw [List.length_cons, List.length_append, List.length_replicate, List.length_singleton]
  unfold NODE_BLOCK_SIZE
  omega

theorem linesFit_emptyThenFull : LinesFit newline NODE_BLOCK_SIZE emptyThenFull := by
  intro before line after hsplit hline hno
  have hlen := congrArg List.length hsplit
  rw [length_emptyThenFull, List.length_append, List.length_append] at hlen
  by_cases hbefore : before = []
  · -- a part that goes on behind the first line has its newline
    have hhead : line.length ≤ 1 := by
      subst hbefore
      cases line with
      | nil => exact Nat.zero_le 1
      | cons b line =>
        cases line with
        | nil => exact Nat.le_refl 1
        | cons c line =>
          have hb : newline = b := (List.cons.inj hsplit).1
          exact absurd (List.mem_cons_self) (hb ▸ hno)
    unfold NODE_BLOCK_SIZE
    omega
  · have hpos := List.length_pos_iff.2 hbefore
    omega

/-- **A file with an empty line before one that fills a block** is split for ever. -/
theorem emptyThenFull_never_ends : LinesFit newline NODE_BLOCK_SIZE emptyThenFull ∧
    ¬Ends NODE_BLOCK_SIZE emptyThenFull := by
  refine ⟨linesFit_emptyThenFull, ?_⟩
  rintro ⟨rounds, blocks, hblocks⟩
  have hsize : 0 < NODE_BLOCK_SIZE := by
    unfold NODE_BLOCK_SIZE
    omega
  refine not_trap_of_blocksFrom hsize hblocks emptyThenFull (Start.whole _) (Or.inl ⟨?_, rfl, ?_⟩)
  · rw [length_emptyThenFull]
    omega
  · have htake : emptyThenFull.tail.take (NODE_BLOCK_SIZE - 1) = List.replicate (NODE_BLOCK_SIZE - 1) 97 := by
      have hlen : (List.replicate (NODE_BLOCK_SIZE - 1) (97 : UInt8)).length = NODE_BLOCK_SIZE - 1 :=
        List.length_replicate
      exact List.take_left' hlen
    rw [htake]
    intro hmem
    have heq := List.eq_of_mem_replicate hmem
    exact absurd heq (by decide)

end Mdfs.FileSystem
