import Mathlib.Data.List.Basic
import Mathlib.Data.UInt
import Mathlib.Control.Monad.Basic

/-!
# Packets of bytes

A packet is read from its front by a `Reader`, which fails when it would read
past the end. `Reads r bs a` says that `r` reads exactly the bytes `bs`, whatever
follows them, and returns `a`; its rules (`reads_bind`, `reads_foldlM`) follow the
shape of the reader, so a format is proved field by field.

Numbers travel most significant byte first.
-/

namespace Lib

/-- A decoder: what it returns and what is left to read. -/
abbrev Reader := StateT (List UInt8) Option

namespace Wire

variable {α β γ : Type}

/-- The next `n` bytes. -/
def bytes (n : ℕ) : Reader (List UInt8) := fun s => if n ≤ s.length then some (s.take n, s.drop n) else none

/-- All that is left. -/
def rest : Reader (List UInt8) := fun s => some (s, [])

/-- The number that bytes spell, most significant first. -/
def value (bs : List UInt8) : ℕ := bs.foldl (fun v b => v * 256 + b.toNat) 0

def u8 : Reader UInt8 := do
  let bs ← bytes 1
  pure (value bs).toUInt8

def u16 : Reader UInt16 := do
  let bs ← bytes 2
  pure (value bs).toUInt16

def u32 : Reader UInt32 := do
  let bs ← bytes 4
  pure (value bs).toUInt32

/-- Bytes behind their number in 16 bits. -/
def prefixed16 : Reader (List UInt8) := do
  let n ← u16
  bytes n.toNat

/-- Bytes behind their number in 32 bits. -/
def prefixed32 : Reader (List UInt8) := do
  let n ← u32
  bytes n.toNat

/-- A string that ends within the next `n` bytes, up to its terminator. -/
def cstring (n : ℕ) : Reader (List UInt8) := do
  let bs ← bytes n
  if 0 ∈ bs then pure (bs.takeWhile fun b => b ≠ 0) else fun _ => none

/-- The bytes of a 16-bit number. -/
def be16 (n : UInt16) : List UInt8 := [(n.toNat / 256).toUInt8, n.toNat.toUInt8]

/-- The bytes of a 32-bit number. -/
def be32 (n : UInt32) : List UInt8 :=
  [(n.toNat / 16777216).toUInt8, (n.toNat / 65536).toUInt8, (n.toNat / 256).toUInt8, n.toNat.toUInt8]

@[simp] theorem length_be16 (n : UInt16) : (be16 n).length = 2 := rfl
@[simp] theorem length_be32 (n : UInt32) : (be32 n).length = 4 := rfl

theorem value_be16 (n : UInt16) : value (be16 n) = n.toNat := by
  have h := n.toNat_lt
  simp only [value, be16, List.foldl_cons, List.foldl_nil, Nat.toUInt8_eq, UInt8.toNat_ofNat']
  omega

theorem value_be32 (n : UInt32) : value (be32 n) = n.toNat := by
  have h := n.toNat_lt
  simp only [value, be32, List.foldl_cons, List.foldl_nil, Nat.toUInt8_eq, UInt8.toNat_ofNat']
  omega

/-- A length that fits is sent as it is. -/
theorem toNat_toUInt16 {n : ℕ} (h : n < 2 ^ 16) : n.toUInt16.toNat = n := by
  simp only [Nat.toUInt16_eq, UInt16.toNat_ofNat']
  omega

theorem toNat_toUInt32 {n : ℕ} (h : n < 2 ^ 32) : n.toUInt32.toNat = n := by
  simp only [Nat.toUInt32_eq, UInt32.toNat_ofNat']
  omega

/-- **The reader `r` reads the bytes `bs` as `a`**, and nothing past them. -/
def Reads (r : Reader α) (bs : List UInt8) (a : α) : Prop := ∀ tail, r.run (bs ++ tail) = some (a, tail)

variable {r : Reader α} {bs cs : List UInt8} {a : α}

/-- What a packet holds is read to its end. -/
theorem Reads.run (h : Reads r bs a) : r.run bs = some (a, []) := by
  have := h []
  rwa [List.append_nil] at this

theorem reads_pure (a : α) : Reads (pure a) [] a := fun _ => rfl

/-- **One field after another.** -/
theorem reads_bind {f : α → Reader β} {b : β} (hr : Reads r bs a) (hf : Reads (f a) cs b) :
    Reads (r >>= f) (bs ++ cs) b := by
  intro tail
  rw [StateT.run_bind, List.append_assoc, hr]
  exact hf tail

/-- The last field, followed by what needs no more bytes. -/
theorem reads_map {f : α → Reader β} {b : β} (hr : Reads r bs a) (hf : f a = pure b) : Reads (r >>= f) bs b := by
  have := reads_bind hr (hf ▸ reads_pure b : Reads (f a) [] b)
  rwa [List.append_nil] at this

theorem reads_bytes (bs : List UInt8) : Reads (bytes bs.length) bs bs := by
  intro tail
  simp [bytes, StateT.run]

theorem reads_u16 (n : UInt16) : Reads u16 (be16 n) n := by
  refine reads_map (reads_bytes (be16 n)) ?_
  rw [value_be16]
  simp

theorem reads_u32 (n : UInt32) : Reads u32 (be32 n) n := by
  refine reads_map (reads_bytes (be32 n)) ?_
  rw [value_be32]
  simp

theorem reads_u8 (n : UInt8) : Reads u8 [n] n := by
  refine reads_map (reads_bytes [n]) ?_
  simp [value]

theorem reads_prefixed16 (h : bs.length < 2 ^ 16) : Reads prefixed16 (be16 bs.length.toUInt16 ++ bs) bs := by
  have hbytes : Reads (bytes bs.length.toUInt16.toNat) bs bs := by
    rw [toNat_toUInt16 h]
    exact reads_bytes bs
  exact reads_bind (reads_u16 _) hbytes

theorem reads_prefixed32 (h : bs.length < 2 ^ 32) : Reads prefixed32 (be32 bs.length.toUInt32 ++ bs) bs := by
  have hbytes : Reads (bytes bs.length.toUInt32.toNat) bs bs := by
    rw [toNat_toUInt32 h]
    exact reads_bytes bs
  exact reads_bind (reads_u32 _) hbytes

theorem reads_cstring (h : 0 ∈ bs) : Reads (cstring bs.length) bs (bs.takeWhile fun b => b ≠ 0) := by
  refine reads_map (reads_bytes bs) ?_
  rw [if_pos h]

/-- **A counted list of records**: a loop of as many rounds reads them all. -/
theorem reads_foldlM {step : β → ℕ → Reader β} {enc : γ → List UInt8} {next : β → γ → β} {xs : List γ}
    (hstep : ∀ b i x, x ∈ xs → Reads (step b i) (enc x) (next b x)) (b : β) {is : List ℕ} (h : is.length = xs.length) :
    Reads (is.foldlM step b) (xs.flatMap enc) (xs.foldl next b) := by
  induction xs generalizing b is with
  | nil =>
    have his : is = [] := List.length_eq_zero_iff.1 h
    rw [his]
    exact reads_pure b
  | cons x xs ih =>
    cases is with
    | nil => cases h
    | cons i is =>
      have hlen : is.length = xs.length := by simpa using h
      have hxs : ∀ b i y, y ∈ xs → Reads (step b i) (enc y) (next b y) :=
        fun b i y hy => hstep b i y (List.mem_cons_of_mem x hy)
      rw [List.foldlM_cons, List.flatMap_cons, List.foldl_cons]
      exact reads_bind (hstep b i x List.mem_cons_self) (ih hxs (next b x) hlen)

/-- What every round of a loop keeps of its number and its result. -/
theorem foldlM_inv {step : β → ℕ → Reader β} {I : ℕ → β → Prop}
    (hstep : ∀ n b i s b' s', I n b → (step b i).run s = some (b', s') → I (n + 1) b') :
    ∀ {is : List ℕ} {n b s b' s'}, I n b → (is.foldlM step b).run s = some (b', s') → I (n + is.length) b' := by
  intro is
  induction is with
  | nil =>
    intro n b s b' s' hI hrun
    cases hrun
    exact hI
  | cons i is ih =>
    intro n b s b' s' hI hrun
    rw [List.foldlM_cons, StateT.run_bind] at hrun
    obtain ⟨⟨c, t⟩, hc, hrun⟩ := Option.bind_eq_some_iff.1 hrun
    have hlen : n + (i :: is).length = n + 1 + is.length := by
      rw [List.length_cons]
      omega
    rw [hlen]
    exact ih (hstep n b i s c t hI hc) hrun

/-- Bytes behind their number in 16 bits are no more than these can count. -/
theorem length_prefixed16 {s left : List UInt8} (h : prefixed16.run s = some (bs, left)) : bs.length < 2 ^ 16 := by
  unfold prefixed16 at h
  rw [StateT.run_bind] at h
  obtain ⟨⟨n, t⟩, -, hbytes⟩ := Option.bind_eq_some_iff.1 h
  have hlt := n.toNat_lt
  have hrun : bytes n.toNat t = some (bs, left) := hbytes
  unfold bytes at hrun
  split at hrun
  · cases hrun
    rw [List.length_take]
    omega
  · cases hrun

end Wire

end Lib
