import Mdfs.FileSystem.Split

/-!
# The range of the position in a split

The position `i` of `filesystem_getBlocksFromStr` is an `int`, and the length of the file a
`size_t`: the test for the last block adds the size of a block to `i` before it compares.

* `split_in_range`: the `int`s stay in range exactly if no block starts within a block of
  2 GiB.
* `exists_start_beyond`: in a file of 2 GiB one does.
-/

namespace Mdfs.FileSystem

open Lib Lines

/-- The `while` is at `i` at the start of a round. -/
inductive RoundAt (size : ℕ) (text : List UInt8) : ℤ → Prop
  | first : RoundAt size text 0
  | next {i i' : ℤ} {block : Option (List UInt8)} (h : RoundAt size text i)
      (hround : splitRound size text text.length i = .ok (block, some i')) : RoundAt size text i'

/-- **The values of a round are in range**, and its position is in the file or at its end. -/
structure InRange (size : ℕ) (text : List UInt8) (i : ℤ) : Prop where
  windowEnd : int (i + size) = .ok (i + size)
  windowLast : int (i + size - 1) = .ok (i + size - 1)
  next : ∀ j, searchLineEnd text i (size - 1) = .ok (some j) → int (j + 1) = .ok (j + 1)
  inside : 0 ≤ i ∧ i ≤ text.length

/-- **Each iteration finds a line end**: every block of lines that the text is to be cut in has
one behind its first place, unless it is the last. -/
def LineEndEachRound (size : ℕ) (text : List UInt8) : Prop :=
  ∀ rest, Start newline size text rest → size ≤ rest.length → newline ∈ rest.tail.take (size - 1)

variable {size i j n rounds : ℕ} {text rest : List UInt8}

/-! ## One round -/

/-- A place from which a line end is to be found, and it is. -/
theorem exists_lastLineEnd (h : newline ∈ (text.drop i).tail.take (size - 1)) :
    ∃ j, lastLineEnd text i (size - 1) = some j := by
  cases hj : lastLineEnd text i (size - 1) with
  | some j => exact ⟨j, rfl⟩
  | none => exact absurd h (tail_take_iff.2 (lastLineEnd_none hj))

/-- The next round starts behind the longest block. -/
theorem splitRound_next (hsize : 0 < size) (hi : i ≤ text.length) (hmax : i + size < 2 ^ 31)
    {block : Option (List UInt8)}
    {i' : ℤ} (hround : splitRound size text text.length i = .ok (block, some i')) :
    i' = i ∨ ∃ j, i' = (j + 1 : ℕ) ∧ i < j ∧ j < text.length ∧ size ≤ (text.drop i).length ∧
      Longest newline size (text.drop i) ((text.drop i).take (j - i + 1)) := by
  rw [splitRound_eq le_rfl hsize hi hmax, List.take_length] at hround
  split at hround
  · cases hround
  · cases hj : lastLineEnd text i (size - 1) with
    | none =>
      rw [hj] at hround
      cases hround
      exact Or.inl rfl
    | some j =>
      rw [hj] at hround
      cases hround
      obtain ⟨hij, -, hnl⟩ := lastLineEnd_spec hj
      refine Or.inr ⟨j, rfl, hij, (List.getElem?_eq_some_iff.1 hnl).1, ?_, longest_block hsize hj⟩
      rw [List.length_drop]
      omega

/-- **A round is in range** where its window ends in the range of `int`. -/
theorem inRange_iff (hsize : 0 < size) (hi : i ≤ text.length) : InRange size text i ↔ i + size < 2 ^ 31 := by
  have hin : ∀ k : ℤ, 0 ≤ k → k < 2 ^ 31 → int k = .ok k := fun k h0 hk => if_pos ⟨by omega, hk⟩
  constructor
  · intro hrange
    by_contra hge
    have hend := hrange.windowEnd
    rw [int, if_neg (by omega)] at hend
    cases hend
  · intro hmax
    refine ⟨hin _ (by omega) (by omega), hin _ (by omega) (by omega), ?_, by omega, by omega⟩
    intro j hj
    by_cases hlong : i + (size - 1) < text.length
    · rw [searchLineEnd_eq le_rfl hlong, List.take_length] at hj
      cases hlast : lastLineEnd text i (size - 1) with
      | none => rw [hlast] at hj; cases hj
      | some k =>
        rw [hlast] at hj
        cases hj
        obtain ⟨hik, hk, -⟩ := lastLineEnd_spec hlast
        exact hin _ (by omega) (by omega)
    · -- the search would start outside
      cases hk : size - 1 with
      | zero => rw [hk] at hj; cases hj
      | succ k =>
        have hread : readBytes text (i + (k + 1 : ℕ)) 1 = .error .outside := if_neg (by omega)
        rw [hk, searchLineEnd, hread] at hj
        cases hj

/-! ## All rounds -/

/-- **The rounds are at the starts of blocks**, whatever the length of the text. -/
theorem RoundAt.start (hsize : 0 < size) {i : ℤ} (h : RoundAt size text i) :
    ∃ n : ℕ, i = n ∧ n ≤ text.length ∧ Start newline size text (text.drop n) := by
  induction h with
  | first => exact ⟨0, rfl, Nat.zero_le _, Start.whole text⟩
  | next _ hround ih =>
    obtain ⟨n, rfl, hn, hstart⟩ := ih
    -- a round that goes on has not left the range
    have hmax : n + size < 2 ^ 31 := by
      by_contra hge
      rw [splitRound_overflow (by omega)] at hround
      cases hround
    obtain rfl | ⟨j, rfl, hnj, hj, hlong, hblock⟩ := splitRound_next hsize hn hmax hround
    · exact ⟨n, rfl, hn, hstart⟩
    · have hstart' := hstart.step hlong hblock
      rw [drop_block hnj hj] at hstart'
      exact ⟨j + 1, rfl, hj, hstart'⟩

/-- Where the values are in range, a round is at every start. -/
theorem roundAt_of_start (hsize : 0 < size) (hends : LineEndEachRound size text)
    (hrange : ∀ i, RoundAt size text i → InRange size text i) {rest : List UInt8} (h : Start newline size text rest) :
    ∃ n : ℕ, rest = text.drop n ∧ n ≤ text.length ∧ RoundAt size text n := by
  suffices hfrom : ∀ s, Start newline size s rest → ∀ n : ℕ, s = text.drop n → n ≤ text.length → RoundAt size text n →
      Start newline size text s → ∃ m : ℕ, rest = text.drop m ∧ m ≤ text.length ∧ RoundAt size text m from
    hfrom text h 0 rfl (Nat.zero_le _) RoundAt.first (Start.whole text)
  clear h
  intro s hs
  induction hs with
  | whole s => intro n hn hle hat _; exact ⟨n, hn, hle, hat⟩
  | next hlong hblock hrest ih =>
    rintro n rfl hle hat hstart
    obtain ⟨j, hj⟩ := exists_lastLineEnd (hends _ hstart hlong)
    obtain ⟨hnj, -, hnl⟩ := lastLineEnd_spec hj
    have hlt : j < text.length := (List.getElem?_eq_some_iff.1 hnl).1
    have hstart' := hstart.step hlong hblock
    rw [hblock.unique (longest_block hsize hj), drop_block hnj hlt] at ih hstart'
    refine ih (j + 1) rfl hlt ?_ hstart'
    -- the window is in range, so the round finds the line end
    have hmax := (inRange_iff hsize hle).1 (hrange n hat)
    refine @RoundAt.next _ _ _ _ (some ((text.drop n).take (j - n + 1))) hat ?_
    rw [List.length_drop] at hlong
    rw [splitRound_eq le_rfl hsize hle hmax, List.take_length, if_neg (by omega), hj]

/-- **A fault of the loop** is the fault of a round. -/
theorem splitRounds_fault {e : SplitFault} (he : e ≠ .rounds) :
    (∃ rounds, splitRounds size text text.length rounds 0 = .error e) ↔
    ∃ i, RoundAt size text i ∧ splitRound size text text.length i = .error e := by
  constructor
  · suffices hfrom : ∀ rounds i, RoundAt size text i → splitRounds size text text.length rounds i = .error e →
        ∃ i, RoundAt size text i ∧ splitRound size text text.length i = .error e from
      fun ⟨rounds, hfault⟩ => hfrom rounds 0 RoundAt.first hfault
    intro rounds
    induction rounds with
    | zero =>
      intro i _ hfault
      cases hfault
      exact absurd rfl he
    | succ rounds ih =>
      intro i hat hfault
      rw [splitRounds] at hfault
      cases hround : splitRound size text text.length i with
      | error e' =>
        rw [hround] at hfault
        cases hfault
        exact ⟨i, hat, hround⟩
      | ok x =>
        obtain ⟨block, next⟩ := x
        rw [hround, ok_bind] at hfault
        cases next with
        | none => cases hfault
        | some i' =>
          refine ih i' (hat.next hround) ?_
          cases hrest : splitRounds size text text.length rounds i' with
          | error e' =>
            simp only [hrest] at hfault
            cases hfault
            rfl
          | ok blocks =>
            simp only [hrest] at hfault
            cases hfault
  · rintro ⟨i, hat, hfault⟩
    -- back from the round to the first one
    have hback : ∀ {i}, RoundAt size text i → ∀ rounds, splitRounds size text text.length rounds i = .error e →
        ∃ rounds, splitRounds size text text.length rounds 0 = .error e := by
      intro i hat
      induction hat with
      | first => exact fun rounds h => ⟨rounds, h⟩
      | next _ hround ih =>
        intro rounds h
        refine ih (rounds + 1) ?_
        rw [splitRounds, hround, ok_bind]
        simp only [h]
        rfl
    refine hback hat 1 ?_
    rw [splitRounds, hfault]
    rfl

/-- The rounds are in range, exactly if the loop does not overflow. -/
theorem rounds_in_range_iff (hsize : 0 < size) : (∀ i, RoundAt size text i → InRange size text i) ↔
    ∀ rounds, splitRounds size text text.length rounds 0 ≠ .error .overflow := by
  rw [← not_iff_not]
  push Not
  rw [splitRounds_fault (by decide)]
  constructor
  · rintro ⟨i, hat, hout⟩
    obtain ⟨n, rfl, hn, -⟩ := hat.start hsize
    rw [inRange_iff hsize hn] at hout
    exact ⟨n, hat, splitRound_overflow (by omega) _ _⟩
  · rintro ⟨i, hat, hfault⟩
    obtain ⟨n, rfl, hn, -⟩ := hat.start hsize
    refine ⟨n, hat, fun hrange => ?_⟩
    have hmax := (inRange_iff hsize hn).1 hrange
    rw [splitRound_eq le_rfl hsize hn hmax] at hfault
    split at hfault
    · cases hfault
    · split at hfault <;> cases hfault

/-- **The arithmetic of a split stays in range**, for a text that has a line end for each
iteration, exactly if none of the blocks that it is to be cut in starts within a block of 2 GiB. -/
theorem split_in_range (text : List UInt8) (hends : LineEndEachRound NODE_BLOCK_SIZE text) :
    (∀ i, RoundAt NODE_BLOCK_SIZE text i → InRange NODE_BLOCK_SIZE text i) ↔
      ∀ rest, Start newline NODE_BLOCK_SIZE text rest → text.length - rest.length + NODE_BLOCK_SIZE ≤ 2 ^ 31 - 1 := by
  have hsize : 0 < NODE_BLOCK_SIZE := by
    unfold NODE_BLOCK_SIZE
    omega
  constructor
  · intro hrange rest hstart
    obtain ⟨n, rfl, hn, hat⟩ := roundAt_of_start hsize hends hrange hstart
    have hmax := (inRange_iff hsize hn).1 (hrange n hat)
    rw [List.length_drop]
    omega
  · intro hbelow i hat
    obtain ⟨n, rfl, hn, hstart⟩ := hat.start hsize
    have hmax := hbelow _ hstart
    rw [List.length_drop] at hmax
    exact (inRange_iff hsize hn).2 (by omega)

/-- A text shorter than a block has one round. -/
theorem split_in_range_short : InRange NODE_BLOCK_SIZE (cstr "b\na\n") 0 := by
  have hshort : ∀ rest, Start newline NODE_BLOCK_SIZE (cstr "b\na\n") rest → rest = cstr "b\na\n" := by
    intro rest hstart
    cases hstart with
    | whole => rfl
    | next hlong _ _ => exact absurd hlong (by unfold NODE_BLOCK_SIZE; decide)
  refine (split_in_range (cstr "b\na\n") ?_).2 ?_ 0 RoundAt.first
  · intro rest hstart hlong
    rw [hshort rest hstart] at hlong
    exact absurd hlong (by unfold NODE_BLOCK_SIZE; decide)
  · intro rest hstart
    rw [hshort rest hstart]
    unfold NODE_BLOCK_SIZE
    decide

/-! ## The split of a file -/

/-- The blocks that a text is to be cut in start where their windows end in the range of `int`. -/
def StartsInRange (size : ℕ) (text : List UInt8) : Prop :=
  ∀ rest, Start newline size text rest → text.length - rest.length + size ≤ 2 ^ 31 - 1

/-- A text a block short of 2 GiB is in range. -/
theorem startsInRange_of_length (h : text.length + size ≤ 2 ^ 31 - 1) : StartsInRange size text :=
  fun _ _ => (Nat.add_le_add_right (Nat.sub_le _ _) _).trans h

/-- What is left from a place in the text on, where the loop ends. -/
theorem starts_of_splitRounds (hsize : 0 < size) : ∀ {rounds i : ℕ} {blocks}, i ≤ text.length →
    splitRounds size text text.length rounds i = .ok blocks →
      ∀ rest, Start newline size (text.drop i) rest → text.length - rest.length + size ≤ 2 ^ 31 - 1 := by
  intro rounds
  induction rounds with
  | zero => intro i blocks _ h; cases h
  | succ rounds ih =>
    intro i blocks hi h rest hstart
    by_cases hmax : i + size < 2 ^ 31
    · have hfirst : text.length - (text.drop i).length + size ≤ 2 ^ 31 - 1 := by
        rw [List.length_drop]
        omega
      cases hstart with
      | whole => exact hfirst
      | next hlong hblock hrest =>
        rw [List.length_drop] at hlong
        rw [splitRounds, splitRound_eq le_rfl hsize hi hmax, List.take_length, if_neg (by omega)] at h
        cases hj : lastLineEnd text i (size - 1) with
        | none =>
          rw [hj] at h
          simp only [ok_bind, Option.toList_none, List.nil_append, bind_pure] at h
          exact ih hi h rest (Start.next (by rw [List.length_drop]; omega) hblock hrest)
        | some j =>
          rw [hj] at h
          obtain ⟨hij, -, hnl⟩ := lastLineEnd_spec hj
          have hlt : j < text.length := (List.getElem?_eq_some_iff.1 hnl).1
          rw [hblock.unique (longest_block hsize hj), drop_block hij hlt] at hrest
          cases hblocks : splitRounds size text text.length rounds (j + 1 : ℕ) with
          | error e =>
            simp only [ok_bind, hblocks] at h
            cases h
          | ok blocks' => exact ih hlt hblocks rest hrest
    · rw [splitRounds, splitRound_overflow (by omega)] at h
      cases h

/-- **A split that returns was in range**, -/
theorem startsInRange_of_ok {blocks : List (List UInt8)}
    (h : filesystemGetBlocksFromStr text text.length = .ok blocks) : StartsInRange NODE_BLOCK_SIZE text := by
  have hsize : 0 < NODE_BLOCK_SIZE := by
    unfold NODE_BLOCK_SIZE
    omega
  unfold filesystemGetBlocksFromStr at h
  rw [← Int.ofNat_zero] at h
  have hstarts := starts_of_splitRounds hsize (Nat.zero_le text.length) h
  rw [List.drop_zero] at hstarts
  exact hstarts

/-- and one that overflows was not. -/
theorem not_startsInRange_of_overflow (h : filesystemGetBlocksFromStr text text.length = .error .overflow) :
    ¬StartsInRange NODE_BLOCK_SIZE text := by
  have hsize : 0 < NODE_BLOCK_SIZE := by
    unfold NODE_BLOCK_SIZE
    omega
  unfold filesystemGetBlocksFromStr at h
  intro hrange
  obtain ⟨i, hat, hfault⟩ := (splitRounds_fault (by decide)).1 ⟨_, h⟩
  obtain ⟨n, rfl, hn, hstart⟩ := hat.start hsize
  have hin := hrange _ hstart
  rw [List.length_drop] at hin
  rw [splitRound_eq le_rfl hsize hn (by omega)] at hfault
  split at hfault
  · cases hfault
  · split at hfault <;> cases hfault

/-! ## Large files -/

/-- The last block of a text is shorter than a window. -/
theorem exists_start_short (hsize : 0 < size) (hends : LineEndEachRound size text) :
    ∃ rest, Start newline size text rest ∧ rest.length < size := by
  suffices hfrom : ∀ (m : ℕ) (s : List UInt8), s.length ≤ m → Start newline size text s →
      ∃ rest, Start newline size text rest ∧ rest.length < size from hfrom _ text le_rfl (Start.whole text)
  intro m
  induction m with
  | zero =>
    intro s hs hstart
    exact ⟨s, hstart, by omega⟩
  | succ m ih =>
    intro s hs hstart
    by_cases hlong : size ≤ s.length
    · have hline : newline ∈ (s.drop 0).tail.take (size - 1) := hends s hstart hlong
      obtain ⟨j, hj⟩ := exists_lastLineEnd hline
      have hblock := longest_block hsize hj
      rw [List.drop_zero] at hblock
      refine ih _ ?_ (hstart.step hlong hblock)
      rw [List.length_drop, List.length_take]
      omega
    · exact ⟨s, hstart, by omega⟩

/-- **In a file of 2 GiB** a block starts where its window ends beyond the `int`s. -/
theorem exists_start_beyond (hsize : 0 < size) (hends : LineEndEachRound size text)
    (hlarge : 2 ^ 31 - 1 ≤ text.length) :
    ∃ rest, Start newline size text rest ∧ 2 ^ 31 - 1 < text.length - rest.length + size := by
  obtain ⟨rest, hstart, hshort⟩ := exists_start_short hsize hends
  exact ⟨rest, hstart, by omega⟩

/-- What is left of empty lines is empty lines. -/
theorem start_replicate {s : List UInt8} (h : Start newline size s rest) :
    ∀ n, s = List.replicate n newline → ∃ m, rest = List.replicate m newline := by
  induction h with
  | whole s => intro n hn; exact ⟨n, hn⟩
  | next _ _ _ ih =>
    rintro n rfl
    exact ih _ List.drop_replicate

/-- **A file of 2 GiB of empty lines** takes the position out of range, though every iteration
finds a line end. -/
theorem split_out_of_range : LineEndEachRound NODE_BLOCK_SIZE (List.replicate (2 ^ 31) newline) ∧
    (∃ rounds, splitRounds NODE_BLOCK_SIZE (List.replicate (2 ^ 31) newline)
      (List.replicate (2 ^ 31) newline).length rounds 0 =
      .error .overflow) ∧
    ¬∀ i, RoundAt NODE_BLOCK_SIZE (List.replicate (2 ^ 31) newline) i →
      InRange NODE_BLOCK_SIZE (List.replicate (2 ^ 31) newline) i := by
  have hsize : 1 < NODE_BLOCK_SIZE := by
    unfold NODE_BLOCK_SIZE
    omega
  have hends : LineEndEachRound NODE_BLOCK_SIZE (List.replicate (2 ^ 31) newline) := by
    intro rest hstart hlong
    obtain ⟨m, rfl⟩ := start_replicate hstart _ rfl
    rw [List.length_replicate] at hlong
    rw [List.tail_replicate, List.take_replicate]
    exact List.mem_replicate.2 ⟨by omega, rfl⟩
  have hlarge : 2 ^ 31 - 1 ≤ (List.replicate (2 ^ 31) newline).length := by
    rw [List.length_replicate]
    omega
  generalize List.replicate (2 ^ 31) newline = text at hends hlarge ⊢
  have hout : ¬∀ i, RoundAt NODE_BLOCK_SIZE text i → InRange NODE_BLOCK_SIZE text i := by
    intro hrange
    obtain ⟨rest, hstart, hbeyond⟩ := exists_start_beyond (by omega) hends hlarge
    obtain ⟨n, rfl, hn, hat⟩ := roundAt_of_start (by omega) hends hrange hstart
    have hmax := (inRange_iff (by omega) hn).1 (hrange n hat)
    rw [List.length_drop] at hbeyond
    omega
  have hoverflow := mt (rounds_in_range_iff (by omega)).2 hout
  push Not at hoverflow
  exact ⟨hends, hoverflow, hout⟩

end Mdfs.FileSystem
