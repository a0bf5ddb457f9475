import Mathlib.Data.Option.Basic
import Mathlib.Data.List.Basic

/-!
# Programs as trees of requests

A program over an interface `A : R → Type` returns a value, stops for good, or
makes a request `r : R` and goes on with the answer in `A r`. The same program
is read in two ways: `exec` runs it alone against a handler, and `Lib.Pool` runs
many of them interleaved, request by request.

`Along` is a condition on every request served. `Prog.Ok S Q E p s` is the program
logic: every request of `p` meets the precondition of the specification `S`, whatever
answers `S` allows, and `p` ends with `Q`, or stops with `E`. The rules (`ok_bind`,
`ok_mono`, `ok_foldlM`, `ok_iterate`) follow the shape of the program. `Only` is about the
requests alone, `Stops` about the stops, `Always` is `Ok` from every state, and `Reads` tells
what a program that changes nothing returns.
-/

namespace Lib

/-- A program over the requests `R` with answers `A`. -/
inductive Prog {R : Type} (A : R → Type) (ε α : Type) : Type
  | ret (a : α)
  | stop (e : ε)
  | ask (r : R) (k : A r → Prog A ε α)

/-- What a handler does with a request: nothing while it cannot be served,
else an answer and a new state. `ι` is what the outside world decides. -/
abbrev Handler {R : Type} (A : R → Type) (σ ι : Type) := σ → (r : R) → ι → Option (A r × σ)

variable {R : Type} {A : R → Type} {ε δ α β γ σ ι L : Type}

namespace Prog

def bind : Prog A ε α → (α → Prog A ε β) → Prog A ε β
  | ret a, f => f a
  | stop e, _ => stop e
  | ask r k, f => ask r fun x => (k x).bind f

instance : Monad (Prog A ε) where
  pure := ret
  bind := bind

/-- `f` on the elements of a list, in order. -/
def iterate (f : β → Prog A ε Unit) : List β → Prog A ε Unit
  | [] => ret ()
  | b :: bs => (f b).bind fun _ => iterate f bs

theorem pure_def (a : α) : (pure a : Prog A ε α) = ret a := rfl
theorem bind_def (p : Prog A ε α) (f : α → Prog A ε β) : p >>= f = p.bind f := rfl

theorem bind_ret (p : Prog A ε α) : p.bind ret = p := by
  induction p with
  | ret a => rfl
  | stop e => rfl
  | ask r k ih => simp only [bind, ih]

theorem bind_assoc (p : Prog A ε α) (f : α → Prog A ε β) (g : β → Prog A ε γ) :
    (p.bind f).bind g = p.bind fun a => (f a).bind g := by
  induction p with
  | ret a => rfl
  | stop e => rfl
  | ask r k ih => simp only [bind, ih]

instance : LawfulMonad (Prog A ε) := LawfulMonad.mk' _ (fun p => bind_ret p) (fun _ _ => rfl) bind_assoc

/-- The program run alone: one input for each request. `none` when the inputs
end or a request cannot be served. -/
def exec (h : Handler A σ ι) : Prog A ε α → σ → List ι → Option (Except ε α × σ)
  | ret a, s, _ => some (.ok a, s)
  | stop e, s, _ => some (.error e, s)
  | ask _ _, _, [] => none
  | ask r k, s, i :: is => (h s r i).bind fun x => (k x.1).exec h x.2 is

/-- The program has come to its end and returned. -/
def returned : Prog A ε α → Bool
  | ret _ => true
  | _ => false

theorem returned_iff {p : Prog A ε α} : p.returned = true ↔ ∃ a, p = ret a := by
  cases p <;> simp [returned]

/-- Every request of the run satisfies `C` on the state and the input it is served with. -/
def Along (h : Handler A σ ι) (C : σ → R → ι → Prop) : Prog A ε α → σ → List ι → Prop
  | ask r k, s, i :: is => C s r i ∧ ∀ x t, h s r i = some (x, t) → (k x).Along h C t is
  | _, _, _ => True

theorem Along.mono {h : Handler A σ ι} {C D : σ → R → ι → Prop} (hCD : ∀ s r i, C s r i → D s r i) :
    ∀ {p : Prog A ε α} {s is}, p.Along h C s is → p.Along h D s is := by
  intro p
  induction p with
  | ret a => intro s is _; trivial
  | stop e => intro s is _; trivial
  | ask r k ih =>
    intro s is hp
    cases is with
    | nil => trivial
    | cons i is => exact ⟨hCD s r i hp.1, fun x t hx => ih x (hp.2 x t hx)⟩

/-- Inputs that satisfy `C` wherever they come. -/
theorem along_of_mem {h : Handler A σ ι} {C : σ → R → ι → Prop} :
    ∀ {p : Prog A ε α} {s : σ} {is : List ι}, (∀ i ∈ is, ∀ s r, C s r i) → p.Along h C s is := by
  intro p
  induction p with
  | ret a => intro s is _; trivial
  | stop e => intro s is _; trivial
  | ask r k ih =>
    intro s is hC
    cases is with
    | nil => trivial
    | cons i is => exact ⟨hC i List.mem_cons_self s r, fun x t _ => ih x fun j hj => hC j (List.mem_cons_of_mem i hj)⟩

/-- More inputs do not change how a run ends. -/
theorem exec_append {h : Handler A σ ι} : ∀ {p : Prog A ε α} {s : σ} {is : List ι} {x : Except ε α × σ} (js : List ι),
    p.exec h s is = some x → p.exec h s (is ++ js) = some x := by
  intro p
  induction p with
  | ret a => intro s is x js he; exact he
  | stop e => intro s is x js he; exact he
  | ask r k ih =>
    intro s is x js he
    cases is with
    | nil => cases he
    | cons i is =>
      obtain ⟨y, hy, hrest⟩ := Option.bind_eq_some_iff.1 he
      rw [List.cons_append, exec, hy]
      exact ih y.1 js hrest

/-- Runs on the same stream of inputs end alike. -/
theorem exec_unique {h : Handler A σ ι} {p : Prog A ε α} {s : σ} {f : ℕ → ι} {m n : ℕ} {x y : Except ε α × σ}
    (hx : p.exec h s ((List.range m).map f) = some x) (hy : p.exec h s ((List.range n).map f) = some y) : x = y := by
  have hlong : ∀ {k l : ℕ} {z : Except ε α × σ}, p.exec h s ((List.range k).map f) = some z →
      p.exec h s ((List.range (k + l)).map f) = some z := by
    intro k l z hz
    rw [List.range_add, List.map_append]
    exact exec_append _ hz
  have hall := hlong (l := m) hy
  rw [Nat.add_comm, hlong hx] at hall
  exact Option.some.inj hall

/-- The first of a stream of inputs, and the rest. -/
theorem map_range_succ (f : ℕ → ι) (n : ℕ) :
    (List.range (n + 1)).map f = f 0 :: (List.range n).map fun i => f (i + 1) := by
  rw [List.range_succ_eq_map, List.map_cons, List.map_map]
  rfl

/-- A run that has come to its end is along `C` for all longer inputs too. -/
theorem along_of_exec {h : Handler A σ ι} {C : σ → R → ι → Prop} : ∀ {p : Prog A ε α} {s : σ} {f : ℕ → ι} {N : ℕ},
    (p.exec h s ((List.range N).map f)).isSome = true → p.Along h C s ((List.range N).map f) →
      ∀ n, p.Along h C s ((List.range n).map f) := by
  intro p
  induction p with
  | ret a => intro s f N _ _ n; trivial
  | stop e => intro s f N _ _ n; trivial
  | ask r k ih =>
    intro s f N he hC n
    cases N with
    | zero => cases he
    | succ N =>
      cases n with
      | zero => trivial
      | succ n =>
        rw [map_range_succ] at he hC ⊢
        refine ⟨hC.1, fun x u hx => ih x ?_ (hC.2 x u hx) n⟩
        rw [exec, hx] at he
        exact he

/-- A program whose requests can all be served ends, whatever is decided on the way. -/
theorem exec_total {h : Handler A σ ι} (hh : ∀ s r i, (h s r i).isSome = true) :
    ∀ (p : Prog A ε α) (s : σ) (f : ℕ → ι), ∃ n x, p.exec h s ((List.range n).map f) = some x := by
  intro p
  induction p with
  | ret a => intro s f; exact ⟨0, _, rfl⟩
  | stop e => intro s f; exact ⟨0, _, rfl⟩
  | ask r k ih =>
    intro s f
    obtain ⟨⟨x, t⟩, hx⟩ := Option.isSome_iff_exists.1 (hh s r (f 0))
    obtain ⟨n, y, hy⟩ := ih x t fun i => f (i + 1)
    refine ⟨n + 1, y, ?_⟩
    rw [map_range_succ, exec, hx]
    exact hy

/-- Where a condition leaves an input for every request, some run that satisfies it comes to its end. -/
theorem exists_exec_along {h : Handler A σ ι} {C : σ → R → ι → Prop} (hh : ∀ s r i, (h s r i).isSome = true)
    (hC : ∀ s r, ∃ i, C s r i) : ∀ (p : Prog A ε α) (s : σ), ∃ is x, p.exec h s is = some x ∧ p.Along h C s is := by
  intro p
  induction p with
  | ret a => intro s; exact ⟨[], _, rfl, trivial⟩
  | stop e => intro s; exact ⟨[], _, rfl, trivial⟩
  | ask r k ih =>
    intro s
    obtain ⟨i, hi⟩ := hC s r
    obtain ⟨⟨x, t⟩, hx⟩ := Option.isSome_iff_exists.1 (hh s r i)
    obtain ⟨is, y, hy, halong⟩ := ih x t
    refine ⟨i :: is, y, ?_, hi, fun x' t' hx' => ?_⟩
    · rw [exec, hx]
      exact hy
    · obtain ⟨rfl, rfl⟩ := Prod.mk.inj (Option.some.inj (hx.symm.trans hx'))
      exact halong

/-- A condition that can be decided can be decided along a run. -/
instance decidableAlong {h : Handler A σ ι} {C : σ → R → ι → Prop} [∀ s r i, Decidable (C s r i)] :
    (p : Prog A ε α) → (s : σ) → (is : List ι) → Decidable (p.Along h C s is)
  | ret _, _, _ => .isTrue trivial
  | stop _, _, _ => .isTrue trivial
  | ask _ _, _, [] => .isTrue trivial
  | ask r k, s, i :: is =>
    match hx : h s r i with
    | none => decidable_of_iff (C s r i) (by simp [Along, hx])
    | some (x, t) =>
      have : Decidable ((k x).Along h C t is) := decidableAlong (k x) t is
      decidable_of_iff (C s r i ∧ (k x).Along h C t is) (by simp [Along, hx])

theorem iterate_append (f : β → Prog A ε Unit) (bs cs : List β) :
    iterate f (bs ++ cs) = (iterate f bs).bind fun _ => iterate f cs := by
  induction bs with
  | nil => rfl
  | cons b bs ih => simp only [List.cons_append, iterate, ih, bind_assoc]

theorem iterate_flatten (f : β → Prog A ε Unit) (bss : List (List β)) :
    iterate (iterate f) bss = iterate f bss.flatten := by
  induction bss with
  | nil => rfl
  | cons bs bss ih => simp only [List.flatten_cons, iterate_append, ← ih, iterate]

end Prog

/-- What a program may ask in a state (`pre`), and which answers and next states
it has to expect (`post`). -/
structure Spec {R : Type} (A : R → Type) (L : Type) where
  pre : L → R → Prop
  post : L → (r : R) → A r → L → Prop

/-- The specification a handler meets by definition, on the steps that satisfy `C`. -/
def Spec.ofHandler (h : Handler A σ ι) (C : σ → R → ι → Prop) : Spec A σ where
  pre _ _ := True
  post s r x t := ∃ i, C s r i ∧ h s r i = some (x, t)

/-- The same for the requests that the handler serves, whatever is decided that satisfies `C`. -/
def Spec.total (h : Handler A σ ι) (C : σ → R → ι → Prop) : Spec A σ where
  pre s r := ∀ i, C s r i → (h s r i).isSome = true
  post s r x t := ∃ i, C s r i ∧ h s r i = some (x, t)

namespace Prog

/-- **The program logic.** `p` started in `s` keeps to `S`, and returns with `Q`
or stops with `E`. -/
def Ok (S : Spec A L) (Q : α → L → Prop) (E : ε → L → Prop) : Prog A ε α → L → Prop
  | ret a, s => Q a s
  | stop e, s => E e s
  | ask r k, s => S.pre s r ∧ ∀ x t, S.post s r x t → (k x).Ok S Q E t

variable {S : Spec A L} {Q Q' : α → L → Prop} {E E' : ε → L → Prop} {s : L}

@[simp] theorem ok_ret {a : α} : (ret a : Prog A ε α).Ok S Q E s ↔ Q a s := Iff.rfl
@[simp] theorem ok_pure {a : α} : (pure a : Prog A ε α).Ok S Q E s ↔ Q a s := Iff.rfl
@[simp] theorem ok_stop {e : ε} : (stop e : Prog A ε α).Ok S Q E s ↔ E e s := Iff.rfl

theorem ok_ask {r : R} {k : A r → Prog A ε α} : (ask r k).Ok S Q E s ↔
    S.pre s r ∧ ∀ x t, S.post s r x t → (k x).Ok S Q E t := Iff.rfl

@[simp] theorem ok_bind {p : Prog A ε α} {f : α → Prog A ε β} {Q : β → L → Prop} :
    (p >>= f).Ok S Q E s ↔ p.Ok S (fun a t => (f a).Ok S Q E t) E s := by
  rw [bind_def]
  induction p generalizing s with
  | ret a => rfl
  | stop e => rfl
  | ask r k ih => simp only [bind, Ok, ih]

theorem ok_mono {p : Prog A ε α} (hQ : ∀ a t, Q a t → Q' a t) (hE : ∀ e t, E e t → E' e t)
    (h : p.Ok S Q E s) : p.Ok S Q' E' s := by
  induction p generalizing s with
  | ret a => exact hQ _ _ h
  | stop e => exact hE _ _ h
  | ask r k ih => exact ⟨h.1, fun x t hx => ih x (h.2 x t hx)⟩

/-- Weakening the postcondition alone. -/
theorem Ok.imp {p : Prog A ε α} (h : p.Ok S Q E s) (hQ : ∀ a t, Q a t → Q' a t) :
    p.Ok S Q' E s := ok_mono hQ (fun _ _ h => h) h

/-- What every request keeps, the program keeps. -/
theorem Ok.and_keeps {I : L → Prop} (hI : ∀ s r x t, I s → S.post s r x t → I t) :
    ∀ {p : Prog A ε α} {s : L}, p.Ok S Q E s → I s → p.Ok S (fun a t => Q a t ∧ I t) E s := by
  intro p
  induction p with
  | ret a => intro s h hs; exact ⟨h, hs⟩
  | stop e => intro s h _; exact h
  | ask r k ih => intro s h hs; exact ⟨h.1, fun x t hx => ih x (h.2 x t hx) (hI s r x t hs hx)⟩

/-- A fact that does not depend on the state may be added to the precondition. -/
theorem Ok.guard {G : Prop} (hG : G) : ∀ {p : Prog A ε α} {s : L}, p.Ok S Q E s →
    p.Ok ⟨fun s r => G ∧ S.pre s r, S.post⟩ Q E s := by
  intro p
  induction p with
  | ret a => intro s h; exact h
  | stop e => intro s h; exact h
  | ask r k ih => intro s h; exact ⟨⟨hG, h.1⟩, fun x t hx => ih x (h.2 x t hx)⟩

/-- **The loop rule** for a fold: `K done c s` holds when `done` has been gone
through and the fold is at `c`. -/
theorem ok_foldlM {f : γ → β → Prog A ε γ} {K : List β → γ → L → Prop} (bs : List β) {c : γ}
    (hf : ∀ done b rest c s, done ++ b :: rest = bs → K done c s →
      (f c b).Ok S (K (done ++ [b])) E s) (h : K [] c s) : (bs.foldlM f c).Ok S (K bs) E s := by
  suffices ∀ rest done c s, done ++ rest = bs → K done c s →
      (rest.foldlM f c).Ok S (K bs) E s from this bs [] c s rfl h
  intro rest
  induction rest with
  | nil =>
    intro done c s hd hK
    rw [List.append_nil] at hd
    exact hd ▸ hK
  | cons b rest ih =>
    intro done c s hd hK
    rw [List.foldlM_cons, ok_bind]
    exact (hf done b rest c s hd hK).imp fun c t ht => ih (done ++ [b]) c t (by simpa using hd) ht

/-- **The loop rule** for an iteration: `K done s` holds when `done` has been gone through. -/
theorem ok_iterate {f : β → Prog A ε Unit} {K : List β → L → Prop} (bs : List β)
    (hf : ∀ done b rest s, done ++ b :: rest = bs → K done s →
      (f b).Ok S (fun _ => K (done ++ [b])) E s) (h : K [] s) :
    (iterate f bs).Ok S (fun _ => K bs) E s := by
  suffices ∀ rest done s, done ++ rest = bs → K done s →
      (iterate f rest).Ok S (fun _ => K bs) E s from this bs [] s rfl h
  intro rest
  induction rest with
  | nil =>
    intro done s hd hK
    rw [List.append_nil] at hd
    exact hd ▸ hK
  | cons b rest ih =>
    intro done s hd hK
    rw [iterate, ← bind_def, ok_bind]
    exact (hf done b rest s hd hK).imp fun _ t ht => ih (done ++ [b]) t (by simpa using hd) ht

/-- Every request that the program can make satisfies `P`. -/
def Only (P : R → Prop) : Prog A ε α → Prop
  | ret _ => True
  | stop _ => True
  | ask r k => P r ∧ ∀ x, (k x).Only P

theorem only_bind {P : R → Prop} {p : Prog A ε α} {f : α → Prog A ε β} (hp : p.Only P)
    (hf : ∀ a, (f a).Only P) : (p >>= f).Only P := by
  rw [bind_def]
  induction p with
  | ret a => exact hf a
  | stop e => trivial
  | ask r k ih => exact ⟨hp.1, fun x => ih x (hp.2 x)⟩

theorem only_foldlM {P : R → Prop} {f : γ → β → Prog A ε γ} (hf : ∀ c b, (f c b).Only P) :
    ∀ (bs : List β) c, (bs.foldlM f c).Only P := by
  intro bs
  induction bs with
  | nil => intro c; trivial
  | cons b bs ih =>
    intro c
    rw [List.foldlM_cons]
    exact only_bind (hf c b) fun c => ih c

theorem only_iterate {P : R → Prop} {f : β → Prog A ε Unit} (hf : ∀ b, (f b).Only P) :
    ∀ bs : List β, (iterate f bs).Only P := by
  intro bs
  induction bs with
  | nil => trivial
  | cons b bs ih => exact only_bind (hf b) fun _ => ih

theorem Only.mono {P P' : R → Prop} (hPP : ∀ r, P r → P' r) : ∀ {p : Prog A ε α}, p.Only P → p.Only P' := by
  intro p
  induction p with
  | ret a => intro _; trivial
  | stop e => intro _; trivial
  | ask r k ih => intro hp; exact ⟨hPP r hp.1, fun x => ih x (hp.2 x)⟩

theorem only_true (p : Prog A ε α) : p.Only fun _ => True := by
  induction p with
  | ret a => trivial
  | stop e => trivial
  | ask r k ih => exact ⟨trivial, ih⟩

/-- A program whose requests all leave the specification's state as it is. -/
theorem Only.ok {P : R → Prop} {p : Prog A ε α} (hp : p.Only P)
    (hP : ∀ r, P r → S.pre s r ∧ ∀ x t, S.post s r x t → t = s) (hQ : ∀ a, Q a s) (hE : ∀ e, E e s) :
    p.Ok S Q E s := by
  induction p with
  | ret a => exact hQ a
  | stop e => exact hE e
  | ask r k ih =>
    obtain ⟨hr, hk⟩ := hp
    refine ⟨(hP r hr).1, fun x t hx => ?_⟩
    rw [(hP r hr).2 x t hx]
    exact ih x (hk x)

/-- A program whose requests all keep `I`. -/
theorem Only.keeps {P : R → Prop} {I : L → Prop} {p : Prog A ε α} (hp : p.Only P)
    (hI : ∀ s r, P r → I s → S.pre s r ∧ ∀ x t, S.post s r x t → I t) (hs : I s) :
    p.Ok S (fun _ => I) (fun _ => I) s := by
  induction p generalizing s with
  | ret a => exact hs
  | stop e => exact hs
  | ask r k ih =>
    obtain ⟨hr, hk⟩ := hp
    exact ⟨(hI s r hr hs).1, fun x t hx => ih x (hk x) ((hI s r hr hs).2 x t hx)⟩

/-- A program whose requests another specification allows as well, with no more answers. -/
theorem Ok.of_only {S' : Spec A L} {P : R → Prop} (hpre : ∀ s r, P r → S'.pre s r)
    (hpost : ∀ s r x t, S'.post s r x t → S.post s r x t) : ∀ {p : Prog A ε α} {s : L}, p.Ok S Q E s → p.Only P →
      p.Ok S' Q E s := by
  intro p
  induction p with
  | ret a => intro s h _; exact h
  | stop e => intro s h _; exact h
  | ask r k ih => intro s h hp; exact ⟨hpre s r hp.1, fun x t hx => ih x (h.2 x t (hpost s r x t hx)) (hp.2 x)⟩

/-- A program that keeps to its specification from every state, whatever it does at its end. -/
def Always (S : Spec A L) (p : Prog A ε α) : Prop := ∀ s, p.Ok S (fun _ _ => True) (fun _ _ => True) s

theorem always_ask {r : R} {k : A r → Prog A ε α} (hr : ∀ s, S.pre s r)
    (hk : ∀ s x t, S.post s r x t → (k x).Always S) : (ask r k).Always S :=
  fun s => ⟨hr s, fun x t hx => hk s x t hx t⟩

theorem always_bind {p : Prog A ε α} {f : α → Prog A ε β} (hp : p.Always S) (hf : ∀ a, (f a).Always S) :
    (p >>= f).Always S := by
  intro s
  rw [ok_bind]
  exact (hp s).imp fun a t _ => hf a t

theorem always_foldlM {f : γ → β → Prog A ε γ} (hf : ∀ c b, (f c b).Always S) (bs : List β) (c : γ) :
    (bs.foldlM f c).Always S := by
  intro s
  exact ok_foldlM (K := fun _ _ _ => True) bs (fun _ b _ c s _ _ => hf c b s) trivial

theorem always_iterate {f : β → Prog A ε Unit} (bs : List β) (hf : ∀ b ∈ bs, (f b).Always S) :
    (iterate f bs).Always S := by
  intro s
  refine ok_iterate (K := fun _ _ => True) bs ?_ trivial
  intro done b rest s hsplit _
  have hb : b ∈ bs := hsplit ▸ List.mem_append_right done List.mem_cons_self
  exact hf b hb s

/-- The program only reads: whatever is decided on the way, what it asks for satisfies `P`, the
state stays as it is, and `a` is returned. -/
def Reads (h : Handler A σ ι) (P : σ → R → Prop) (s : σ) (a : α) : Prog A ε α → Prop
  | ret b => b = a
  | stop _ => False
  | ask r k => P s r ∧ ∃ x, (∀ i, h s r i = some (x, s)) ∧ (k x).Reads h P s a

theorem reads_bind {h : Handler A σ ι} {P : σ → R → Prop} {s : σ} {a : α} {b : β} {f : α → Prog A ε β} :
    ∀ {p : Prog A ε α}, p.Reads h P s a → (f a).Reads h P s b → (p >>= f).Reads h P s b := by
  intro p
  induction p with
  | ret c =>
    intro hp hf
    obtain rfl : c = a := hp
    exact hf
  | stop e => intro hp _; exact hp.elim
  | ask r k ih =>
    intro hp hf
    obtain ⟨hr, x, hx, hk⟩ := hp
    exact ⟨hr, x, hx, ih x hk hf⟩

/-- **A program that only reads** comes to its end when there are inputs enough. -/
theorem Reads.exec {h : Handler A σ ι} {P : σ → R → Prop} {s : σ} {a : α} : ∀ {p : Prog A ε α}, p.Reads h P s a →
    ∃ n, ∀ is : List ι, n ≤ is.length → p.exec h s is = some (.ok a, s) := by
  intro p
  induction p with
  | ret b =>
    intro hp
    obtain rfl : b = a := hp
    exact ⟨0, fun is _ => rfl⟩
  | stop e => intro hp; exact hp.elim
  | ask r k ih =>
    intro hp
    obtain ⟨-, x, hx, hk⟩ := hp
    obtain ⟨n, hn⟩ := ih x hk
    refine ⟨n + 1, fun is his => ?_⟩
    cases is with
    | nil => simp at his
    | cons i is =>
      have hlen : n ≤ is.length := by simpa using his
      rw [Prog.exec, hx i]
      exact hn is hlen

theorem Reads.mono {h : Handler A σ ι} {P P' : σ → R → Prop} {s : σ} {a : α} (hP : ∀ r, P s r → P' s r) :
    ∀ {p : Prog A ε α}, p.Reads h P s a → p.Reads h P' s a := by
  intro p
  induction p with
  | ret b => intro hp; exact hp
  | stop e => intro hp; exact hp.elim
  | ask r k ih =>
    intro hp
    obtain ⟨hr, x, hx, hk⟩ := hp
    exact ⟨hP r hr, x, hx, ih x hk⟩

/-- What is read does not depend on what the requests do not look at. -/
theorem Reads.congr {h : Handler A σ ι} {P : R → Prop} {s t : σ} {a : α}
    (hst : ∀ r x, P r → (∀ i, h s r i = some (x, s)) → ∀ i, h t r i = some (x, t)) : ∀ {p : Prog A ε α},
    p.Reads h (fun _ => P) s a → p.Reads h (fun _ => P) t a := by
  intro p
  induction p with
  | ret b => intro hp; exact hp
  | stop e => intro hp; exact hp.elim
  | ask r k ih =>
    intro hp
    obtain ⟨hr, x, hx, hk⟩ := hp
    exact ⟨hr, x, hst r x hr hx, ih x hk⟩

/-- **A program that only looks up** returns what it reads. -/
theorem Only.ok_reads {h : Handler A σ ι} {P : R → Prop} {C : σ → R → ι → Prop} {s : σ} {E : ε → σ → Prop}
    (hP : ∀ r, P r → ∃ x, ∀ i, h s r i = some (x, s)) (hE : ∀ e, E e s) : ∀ {p : Prog A ε α}, p.Only P →
    p.Ok (Spec.ofHandler h C) (fun a t => t = s ∧ p.Reads h (fun _ => P) s a) E s := by
  intro p
  induction p with
  | ret a => intro _; exact ⟨rfl, rfl⟩
  | stop e => intro _; exact hE e
  | ask r k ih =>
    intro hp
    obtain ⟨x, hx⟩ := hP r hp.1
    refine ⟨trivial, fun y t hy => ?_⟩
    obtain ⟨i, -, hi⟩ := hy
    obtain ⟨rfl, rfl⟩ : x = y ∧ s = t := by simpa [hx i] using hi
    exact (ih x (hp.2 x)).imp fun a t ht => ⟨ht.1, hp.1, x, hx, ht.2⟩

theorem Reads.along {h : Handler A σ ι} {P : σ → R → Prop} {s : σ} {a : α} : ∀ {p : Prog A ε α} (is : List ι),
    p.Reads h P s a → p.Along h (fun s r _ => P s r) s is := by
  intro p
  induction p with
  | ret b => intro is _; trivial
  | stop e => intro is hp; exact hp.elim
  | ask r k ih =>
    intro is hp
    obtain ⟨hr, x, hx, hk⟩ := hp
    cases is with
    | nil => trivial
    | cons i is =>
      refine ⟨hr, fun y t hy => ?_⟩
      obtain ⟨rfl, rfl⟩ : x = y ∧ s = t := by simpa [hx i] using hy
      exact ih x is hk

theorem Reads.ok {h : Handler A σ ι} {P : σ → R → Prop} {C : σ → R → ι → Prop} {s : σ} {a : α} {Q : α → σ → Prop}
    {E : ε → σ → Prop} (hQ : Q a s) : ∀ {p : Prog A ε α}, p.Reads h P s a → p.Ok (Spec.ofHandler h C) Q E s := by
  intro p
  induction p with
  | ret b =>
    intro hp
    obtain rfl : b = a := hp
    exact hQ
  | stop e => intro hp; exact hp.elim
  | ask r k ih =>
    intro hp
    obtain ⟨-, x, hx, hk⟩ := hp
    refine ⟨trivial, fun y t hy => ?_⟩
    obtain ⟨i, -, hi⟩ := hy
    obtain ⟨rfl, rfl⟩ : x = y ∧ s = t := by simpa [hx i] using hi
    exact ih x hk

/-- The program under other names for its stops. -/
def mapStop (f : ε → δ) : Prog A ε α → Prog A δ α
  | ret a => ret a
  | stop e => stop (f e)
  | ask r k => ask r fun x => (k x).mapStop f

@[simp] theorem mapStop_pure (f : ε → δ) (a : α) : (pure a : Prog A ε α).mapStop f = pure a := rfl

@[simp] theorem mapStop_bind (f : ε → δ) (p : Prog A ε α) (g : α → Prog A ε β) :
    (p >>= g).mapStop f = p.mapStop f >>= fun a => (g a).mapStop f := by
  simp only [bind_def]
  induction p with
  | ret a => rfl
  | stop e => rfl
  | ask r k ih => simp only [bind, mapStop, ih]

@[simp] theorem ok_mapStop {f : ε → δ} {p : Prog A ε α} {E : δ → L → Prop} :
    (p.mapStop f).Ok S Q E s ↔ p.Ok S Q (fun e t => E (f e) t) s := by
  induction p generalizing s with
  | ret a => rfl
  | stop e => rfl
  | ask r k ih => simp only [mapStop, Ok, ih]

/-- Wherever the program stops for good, `P` holds of it. -/
def Stops (P : ε → Prop) : Prog A ε α → Prop
  | ret _ => True
  | stop e => P e
  | ask _ k => ∀ x, (k x).Stops P

theorem stops_bind {P : ε → Prop} {p : Prog A ε α} {f : α → Prog A ε β} (hp : p.Stops P)
    (hf : ∀ a, (f a).Stops P) : (p >>= f).Stops P := by
  rw [bind_def]
  induction p with
  | ret a => exact hf a
  | stop e => exact hp
  | ask r k ih => exact fun x => ih x (hp x)

theorem stops_mapStop {P : δ → Prop} {f : ε → δ} (hf : ∀ e, P (f e)) (p : Prog A ε α) : (p.mapStop f).Stops P := by
  induction p with
  | ret a => trivial
  | stop e => exact hf e
  | ask r k ih => exact fun x => ih x

theorem Stops.exec {h : Handler A σ ι} {P : ε → Prop} {e : ε} {t : σ} : ∀ {p : Prog A ε α} {s : σ} {is : List ι},
    p.Stops P → p.exec h s is = some (.error e, t) → P e := by
  intro p
  induction p with
  | ret a => intro s is _ he; cases he
  | stop e' => intro s is hp he; cases he; exact hp
  | ask r k ih =>
    intro s is hp he
    cases is with
    | nil => cases he
    | cons i is =>
      obtain ⟨⟨x, u⟩, -, hrest⟩ := Option.bind_eq_some_iff.1 he
      exact ih x (hp x) hrest

/-- **Soundness for a program run alone**, through a relation `J` between the
state of the handler and the state of the specification. -/
theorem Ok.exec {h : Handler A σ ι} {J : σ → L → Prop}
    (hJ : ∀ s l r i x t, J s l → S.pre l r → h s r i = some (x, t) →
      ∃ m, S.post l r x m ∧ J t m) :
    ∀ {p : Prog A ε α} {s l is o t}, J s l → p.Ok S Q E l → p.exec h s is = some (o, t) →
      ∃ m, J t m ∧ match o with
        | .ok a => Q a m
        | .error e => E e m := by
  intro p
  induction p with
  | ret a => intro s l is o t hs hp he; cases he; exact ⟨l, hs, hp⟩
  | stop e => intro s l is o t hs hp he; cases he; exact ⟨l, hs, hp⟩
  | ask r k ih =>
    intro s l is o t hs hp he
    cases is with
    | nil => cases he
    | cons i is =>
      obtain ⟨⟨x, u⟩, hx, he⟩ := Option.bind_eq_some_iff.1 he
      obtain ⟨m, hm, hu⟩ := hJ s l r i x u hs hp.1 hx
      exact ih x hu (hp.2 x m hm) he

/-- Soundness for the handler's own specification, along `C`. -/
theorem Ok.exec_along {h : Handler A σ ι} {C : σ → R → ι → Prop} {Q : α → σ → Prop}
    {E : ε → σ → Prop} : ∀ {p : Prog A ε α} {s is o t}, p.Ok (Spec.ofHandler h C) Q E s →
      p.Along h C s is → p.exec h s is = some (o, t) → match o with
        | .ok a => Q a t
        | .error e => E e t := by
  intro p
  induction p with
  | ret a => intro s is o t hp _ he; cases he; exact hp
  | stop e => intro s is o t hp _ he; cases he; exact hp
  | ask r k ih =>
    intro s is o t hp hC he
    cases is with
    | nil => cases he
    | cons i is =>
      obtain ⟨⟨x, u⟩, hx, he⟩ := Option.bind_eq_some_iff.1 he
      exact ih x (hp.2 x u ⟨i, hC.1, hx⟩) (hC.2 x u hx) he

/-- **Total correctness**: a program that makes only requests that are served comes to its end,
along any inputs that satisfy `C`. -/
theorem Ok.exec_total {h : Handler A σ ι} {C : σ → R → ι → Prop} {Q : α → σ → Prop} {E : ε → σ → Prop} :
    ∀ {p : Prog A ε α} {s : σ} {f : ℕ → ι}, p.Ok (Spec.total h C) Q E s → (∀ n, p.Along h C s ((List.range n).map f)) →
      ∃ n o t, p.exec h s ((List.range n).map f) = some (o, t) ∧ match o with
        | .ok a => Q a t
        | .error e => E e t := by
  intro p
  induction p with
  | ret a => intro s f hok _; exact ⟨0, .ok a, s, rfl, hok⟩
  | stop e => intro s f hok _; exact ⟨0, .error e, s, rfl, hok⟩
  | ask r k ih =>
    intro s f hok hC
    have hfirst : C s r (f 0) := (hC 1).1
    obtain ⟨⟨x, u⟩, hx⟩ := Option.isSome_iff_exists.1 (hok.1 (f 0) hfirst)
    -- the rest of the inputs
    have hrest : ∀ n, (k x).Along h C u ((List.range n).map fun i => f (i + 1)) := by
      intro n
      have hnext := hC (n + 1)
      rw [map_range_succ] at hnext
      exact hnext.2 x u hx
    obtain ⟨n, o, t, he, hend⟩ := ih x (hok.2 x u ⟨f 0, hfirst, hx⟩) hrest
    refine ⟨n + 1, o, t, ?_, hend⟩
    rw [map_range_succ, Prog.exec, hx]
    exact he

/-- **A condition along every run** is a precondition of every request. -/
theorem along_iff_ok {h : Handler A σ ι} {C : σ → R → ι → Prop} : ∀ {p : Prog A ε α} {s : σ},
    (∀ is, p.Along h C s is) ↔ p.Ok ⟨fun s r => ∀ i, C s r i, fun s r x t => ∃ i, h s r i = some (x, t)⟩
      (fun _ _ => True) (fun _ _ => True) s := by
  intro p
  induction p with
  | ret a => exact fun {s} => ⟨fun _ => trivial, fun _ _ => trivial⟩
  | stop e => exact fun {s} => ⟨fun _ => trivial, fun _ _ => trivial⟩
  | ask r k ih =>
    intro s
    constructor
    · intro hall
      refine ⟨fun i => (hall [i]).1, ?_⟩
      rintro x t ⟨i, hi⟩
      exact (ih x).1 fun is => (hall (i :: is)).2 x t hi
    · intro hok is
      cases is with
      | nil => trivial
      | cons i is => exact ⟨hok.1 i, fun x t hi => (ih x).2 (hok.2 x t ⟨i, hi⟩) is⟩

/-- **A program and what follows it**, run to the end: where the requests of the program
cannot break `C`, the whole run is along `C` if what follows it is. -/
theorem Ok.exec_bind {h : Handler A σ ι} {C : σ → R → ι → Prop} {P : R → Prop} {Q : α → σ → Prop} {E : ε → σ → Prop}
    (hC : ∀ s r i, P r → C s r i) {f : α → Prog A ε β} {b : β} : ∀ {p : Prog A ε α} {s is t}, p.Only P →
      p.Ok (Spec.ofHandler h fun _ _ _ => True) Q E s → (p >>= f).exec h s is = some (.ok b, t) →
      ∃ a u js, Q a u ∧ (f a).exec h u js = some (.ok b, t) ∧ ((p >>= f).Along h C s is ↔ (f a).Along h C u js) := by
  intro p
  induction p with
  | ret a => intro s is t _ hQ he; exact ⟨a, s, is, hQ, he, Iff.rfl⟩
  | stop e => intro s is t _ _ he; cases he
  | ask r k ih =>
    intro s is t hp hok he
    cases is with
    | nil => cases he
    | cons i is =>
      obtain ⟨⟨x, v⟩, hx, he⟩ := Option.bind_eq_some_iff.1 he
      obtain ⟨a, u, js, ha, hexec, halong⟩ := ih x (hp.2 x) (hok.2 x v ⟨i, trivial, hx⟩) he
      refine ⟨a, u, js, ha, hexec, Iff.trans ?_ halong⟩
      constructor
      · intro hal
        exact hal.2 x v hx
      · intro hal
        refine ⟨hC s r i hp.1, fun y w hy => ?_⟩
        rw [hx] at hy
        cases hy
        exact hal

end Prog

end Lib
