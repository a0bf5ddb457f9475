import Mdfs.Lib.Wire

/-!
# What a reader accepts

`Accepts r L` says that `r` succeeds exactly on what starts with bytes of the format `L`,
and goes on behind them: `Reads` and its converse. The rules follow the shape of the
reader, so that a reader which may be given anything is known by the format of what it
takes.

* `accepts_bind`, `accepts_foldlM`: one field after another, and a counted list of records.
* `Accepts.isSome_iff`: the strings on which a reader succeeds.
-/

namespace Lib.Wire

variable {α β γ : Type}

/-- The bytes that stand for a value. -/
abbrev Format (α : Type) := List UInt8 → α → Prop

/-- **The reader `r` accepts the format `L`**: it reads its bytes, and nothing else. -/
def Accepts (r : Reader α) (L : Format α) : Prop := ∀ s a t, r.run s = some (a, t) ↔ ∃ bs, L bs a ∧ s = bs ++ t

variable {r : Reader α} {L L' : Format α} {bs : List UInt8} {a : α}

theorem Accepts.congr (h : Accepts r L) (heq : ∀ bs a, L bs a ↔ L' bs a) : Accepts r L' := by
  intro s a t
  rw [h s a t]
  exact exists_congr fun bs => and_congr_left' (heq bs a)

/-- Bytes of the format are read. -/
theorem Accepts.reads (h : Accepts r L) (hbs : L bs a) : Reads r bs a := fun tail => (h _ a tail).2 ⟨bs, hbs, rfl⟩

/-- **A reader succeeds** on what starts with bytes of its format. -/
theorem Accepts.isSome_iff (h : Accepts r L) (s : List UInt8) : (r.run s).isSome = true ↔ ∃ bs a, L bs a ∧
    bs <+: s := by
  constructor
  · intro hsome
    obtain ⟨⟨a, t⟩, hrun⟩ := Option.isSome_iff_exists.1 hsome
    obtain ⟨bs, hbs, hs⟩ := (h s a t).1 hrun
    exact ⟨bs, a, hbs, t, hs.symm⟩
  · rintro ⟨bs, a, hbs, t, rfl⟩
    rw [h.reads hbs t]
    rfl

/-! ## Rules -/

theorem accepts_pure (b : α) : Accepts (pure b) fun bs a => bs = [] ∧ a = b := by
  intro s a t
  constructor
  · intro h
    cases h
    exact ⟨[], ⟨rfl, rfl⟩, rfl⟩
  · rintro ⟨bs, ⟨rfl, rfl⟩, rfl⟩
    rfl

/-- **One field after another.** -/
theorem accepts_bind {f : α → Reader β} {M : α → Format β} (hr : Accepts r L) (hf : ∀ a, Accepts (f a) (M a)) :
    Accepts (r >>= f) fun bs b => ∃ cs ds a, bs = cs ++ ds ∧ L cs a ∧ M a ds b := by
  intro s b t
  rw [StateT.run_bind]
  constructor
  · intro h
    obtain ⟨⟨a, u⟩, hfirst, hrest⟩ := Option.bind_eq_some_iff.1 h
    obtain ⟨cs, hcs, rfl⟩ := (hr s a u).1 hfirst
    obtain ⟨ds, hds, rfl⟩ := (hf a u b t).1 hrest
    exact ⟨cs ++ ds, ⟨cs, ds, a, rfl, hcs, hds⟩, (List.append_assoc cs ds t).symm⟩
  · rintro ⟨bs, ⟨cs, ds, a, rfl, hcs, hds⟩, rfl⟩
    have hfirst := hr.reads hcs (ds ++ t)
    rw [List.append_assoc, hfirst]
    exact (hf a).reads hds t

/-- A field that is looked at, and of which something is returned. -/
theorem accepts_filter {f : α → Reader β} (hr : Accepts r L) {p : α → Prop} {g : α → β}
    (hpos : ∀ a, p a → f a = pure (g a)) (hneg : ∀ a, ¬p a → ∀ s, (f a).run s = none) :
    Accepts (r >>= f) fun bs b => ∃ a, L bs a ∧ p a ∧ b = g a := by
  intro s b t
  rw [StateT.run_bind]
  constructor
  · intro h
    obtain ⟨⟨a, u⟩, hfirst, hrest⟩ := Option.bind_eq_some_iff.1 h
    have hrun : (f a).run u = some (b, t) := hrest
    by_cases ha : p a
    · rw [hpos a ha] at hrun
      cases hrun
      obtain ⟨bs, hbs, hs⟩ := (hr s a t).1 hfirst
      exact ⟨bs, ⟨a, hbs, ha, rfl⟩, hs⟩
    · rw [hneg a ha] at hrun
      cases hrun
  · rintro ⟨bs, ⟨a, hbs, ha, rfl⟩, rfl⟩
    rw [hr.reads hbs t]
    exact congrArg (fun r : Reader β => r.run t) (hpos a ha)

/-- A field of which something is returned. -/
theorem accepts_map {f : α → Reader β} (hr : Accepts r L) {g : α → β} (hf : ∀ a, f a = pure (g a)) :
    Accepts (r >>= f) fun bs b => ∃ a, L bs a ∧ b = g a := by
  refine (accepts_filter hr (p := fun _ => True) (fun a _ => hf a) fun a h => absurd trivial h).congr fun bs b => ?_
  simp only [true_and]

/-- **A counted list of records**, in a loop of as many rounds. -/
theorem accepts_foldlM {step : β → ℕ → Reader β} {enc : γ → List UInt8} {val : β → γ → β}
    (hstep : ∀ b i, Accepts (step b i) fun bs b' => ∃ x, bs = enc x ∧ b' = val b x) (is : List ℕ) (b : β) :
    Accepts (is.foldlM step b) fun bs b' => ∃ xs : List γ, xs.length = is.length ∧ bs = xs.flatMap enc ∧
      b' = xs.foldl val b := by
  induction is generalizing b with
  | nil =>
    refine (accepts_pure b).congr fun bs b' => ?_
    constructor
    · rintro ⟨rfl, rfl⟩
      exact ⟨[], rfl, rfl, rfl⟩
    · rintro ⟨xs, hlen, rfl, rfl⟩
      have hnil : xs = [] := List.length_eq_zero_iff.1 hlen
      rw [hnil]
      exact ⟨rfl, rfl⟩
  | cons i is ih =>
    rw [List.foldlM_cons]
    refine (accepts_bind (hstep b i) fun c => ih c).congr fun bs b' => ?_
    constructor
    · rintro ⟨cs, ds, c, rfl, ⟨x, rfl, rfl⟩, xs, hlen, rfl, rfl⟩
      exact ⟨x :: xs, congrArg (· + 1) hlen, rfl, rfl⟩
    · rintro ⟨xs, hlen, rfl, rfl⟩
      cases xs with
      | nil => cases hlen
      | cons x xs => exact ⟨enc x, xs.flatMap enc, val b x, rfl, ⟨x, rfl, rfl⟩, xs, Nat.succ.inj hlen, rfl, rfl⟩

/-! ## Fields -/

theorem accepts_bytes (n : ℕ) : Accepts (bytes n) fun bs a => bs.length = n ∧ a = bs := by
  intro s a t
  constructor
  · intro h
    have hrun : bytes n s = some (a, t) := h
    unfold bytes at hrun
    split at hrun
    next hle =>
      cases hrun
      have hlen : (s.take n).length = n := by
        rw [List.length_take]
        omega
      exact ⟨s.take n, ⟨hlen, rfl⟩, (List.take_append_drop n s).symm⟩
    next => cases hrun
  · rintro ⟨bs, ⟨rfl, rfl⟩, rfl⟩
    exact reads_bytes a t

theorem be16_value {bs : List UInt8} (h : bs.length = 2) : be16 (value bs).toUInt16 = bs := by
  obtain ⟨x, y, rfl⟩ := List.length_eq_two.1 h
  have hx := x.toNat_lt
  have hy := y.toNat_lt
  simp only [be16, value, List.foldl_cons, List.foldl_nil, List.cons.injEq, and_true]
  constructor
  all_goals
    apply UInt8.toNat_inj.1
    simp only [Nat.toUInt8_eq, Nat.toUInt16_eq, UInt8.toNat_ofNat', UInt16.toNat_ofNat']
    omega

theorem be32_value {bs : List UInt8} (h : bs.length = 4) : be32 (value bs).toUInt32 = bs := by
  obtain ⟨x, bs, rfl⟩ := List.exists_cons_of_length_eq_add_one h
  obtain ⟨y, z, w, rfl⟩ := List.length_eq_three.1 (Nat.succ.inj h)
  have hx := x.toNat_lt
  have hy := y.toNat_lt
  have hz := z.toNat_lt
  have hw := w.toNat_lt
  simp only [be32, value, List.foldl_cons, List.foldl_nil, List.cons.injEq, and_true]
  refine ⟨?_, ?_, ?_, ?_⟩
  all_goals
    apply UInt8.toNat_inj.1
    simp only [Nat.toUInt8_eq, Nat.toUInt32_eq, UInt8.toNat_ofNat', UInt32.toNat_ofNat']
    omega

theorem accepts_u8 : Accepts u8 fun bs n => bs = [n] := by
  refine (accepts_map (accepts_bytes 1) fun _ => rfl).congr fun bs n => ?_
  constructor
  · rintro ⟨_, ⟨hlen, rfl⟩, rfl⟩
    obtain ⟨b, rfl⟩ := List.length_eq_one_iff.1 hlen
    simp [value]
  · rintro rfl
    exact ⟨[n], ⟨rfl, rfl⟩, by simp [value]⟩

theorem accepts_u16 : Accepts u16 fun bs n => bs = be16 n := by
  refine (accepts_map (accepts_bytes 2) fun _ => rfl).congr fun bs n => ?_
  constructor
  · rintro ⟨_, ⟨hlen, rfl⟩, rfl⟩
    exact (be16_value hlen).symm
  · rintro rfl
    exact ⟨be16 n, ⟨rfl, rfl⟩, by rw [value_be16]; simp⟩

theorem accepts_u32 : Accepts u32 fun bs n => bs = be32 n := by
  refine (accepts_map (accepts_bytes 4) fun _ => rfl).congr fun bs n => ?_
  constructor
  · rintro ⟨_, ⟨hlen, rfl⟩, rfl⟩
    exact (be32_value hlen).symm
  · rintro rfl
    exact ⟨be32 n, ⟨rfl, rfl⟩, by rw [value_be32]; simp⟩

theorem accepts_prefixed16 : Accepts prefixed16 fun bs a => a.length < 2 ^ 16 ∧ bs = be16 a.length.toUInt16 ++ a := by
  refine (accepts_bind accepts_u16 fun n => accepts_bytes n.toNat).congr fun bs a => ?_
  constructor
  · rintro ⟨_, ds, n, rfl, rfl, hlen, rfl⟩
    rw [hlen]
    refine ⟨n.toNat_lt, ?_⟩
    simp
  · rintro ⟨hlt, rfl⟩
    exact ⟨_, a, _, rfl, rfl, (toNat_toUInt16 hlt).symm, rfl⟩

theorem accepts_cstring (n : ℕ) : Accepts (cstring n) fun bs a => bs.length = n ∧ 0 ∈ bs ∧
    a = (bs.takeWhile fun b => b ≠ 0) := by
  have hread : ∀ bs : List UInt8, 0 ∈ bs → (if 0 ∈ bs then pure (bs.takeWhile fun b => b ≠ 0) else fun _ => none :
      Reader (List UInt8)) = pure (bs.takeWhile fun b => b ≠ 0) := fun bs h => if_pos h
  have hnone : ∀ bs : List UInt8, 0 ∉ bs → ∀ s, ((if 0 ∈ bs then pure (bs.takeWhile fun b => b ≠ 0) else fun _ => none :
      Reader (List UInt8))).run s = none := by
    intro bs h s
    rw [if_neg h]
    rfl
  refine (accepts_filter (accepts_bytes n) hread hnone).congr fun bs a => ?_
  constructor
  · rintro ⟨_, ⟨hlen, rfl⟩, h0, rfl⟩
    exact ⟨hlen, h0, rfl⟩
  · rintro ⟨hlen, h0, rfl⟩
    exact ⟨bs, ⟨hlen, rfl⟩, h0, rfl⟩

/-! ## Stricter readers -/

/-- **What `r` reads, `r'` reads too**, and to the same value. -/
def Stricter (r r' : Reader α) : Prop := ∀ s x, r.run s = some x → r'.run s = some x

theorem Stricter.refl (r : Reader α) : Stricter r r := fun _ _ h => h

theorem stricter_bind {r' : Reader α} {f f' : α → Reader β} (hr : Stricter r r') (hf : ∀ a, Stricter (f a) (f' a)) :
    Stricter (r >>= f) (r' >>= f') := by
  intro s x h
  rw [StateT.run_bind] at h ⊢
  obtain ⟨⟨a, t⟩, hfirst, hrest⟩ := Option.bind_eq_some_iff.1 h
  rw [hr s (a, t) hfirst]
  exact hf a t x hrest

end Lib.Wire
