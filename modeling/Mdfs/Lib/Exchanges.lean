import Mdfs.Lib.Pool

/-!
# What a thread asks and is answered

The exchanges of one thread of a pool, in order, are what the thread and the rest of the
world have said to each other. A specification is also a condition on them: `Spec.Trace`
says that each request meets the precondition, and each answer and each ghost state follow
from the one before. An automaton over exchanges is such a specification (`Spec.ofStep`).

* `Pool.trace_run`: in every interleaving the exchanges of each thread keep to its specification.
* `Prog.Ok.prod`: two specifications of one program are one.
* `Spec.Trace.run_eq`: exchanges that keep to an automaton are a run of it.
-/

namespace Lib

variable {R : Type} {A : R → Type} {ε α σ ι L M : Type}

/-- What is asked, and the answer. -/
structure Call {R : Type} (A : R → Type) where
  request : R
  answer : A request

/-! ## Specifications of exchanges -/

namespace Spec

/-- Both specifications at once. -/
def prod (S : Spec A L) (T : Spec A M) : Spec A (L × M) where
  pre s r := S.pre s.1 r ∧ T.pre s.2 r
  post s r x t := S.post s.1 r x t.1 ∧ T.post s.2 r x t.2

/-- An automaton over exchanges: it has to go on with every answer to what is asked. -/
def ofStep (next : M → (r : R) → A r → Option M) : Spec A M where
  pre s r := ∀ x, (next s r x).isSome = true
  post s r x t := next s r x = some t

/-- Exchanges that keep to a specification, from one ghost state to another. -/
inductive Trace (S : Spec A L) : L → List (Call A) → L → Prop
  | nil (s : L) : Trace S s [] s
  | cons {s t u : L} {x : Call A} {xs : List (Call A)} (hpre : S.pre s x.request)
      (hpost : S.post s x.request x.answer t) (hrest : Trace S t xs u) : Trace S s (x :: xs) u

variable {S S' : Spec A L} {T : Spec A M} {xs : List (Call A)}

theorem Trace.mono (hpre : ∀ s r, S.pre s r → S'.pre s r) (hpost : ∀ s r x t, S.post s r x t → S'.post s r x t)
    {s t : L}
    (h : S.Trace s xs t) : S'.Trace s xs t := by
  induction h with
  | nil s => exact .nil s
  | cons hp hq hrest ih => exact .cons (hpre _ _ hp) (hpost _ _ _ _ hq) ih

theorem Trace.fst {s t : L × M} (h : (S.prod T).Trace s xs t) : S.Trace s.1 xs t.1 := by
  induction h with
  | nil s => exact .nil s.1
  | cons hpre hpost hrest ih => exact .cons hpre.1 hpost.1 ih

theorem Trace.snd {s t : L × M} (h : (S.prod T).Trace s xs t) : T.Trace s.2 xs t.2 := by
  induction h with
  | nil s => exact .nil s.2
  | cons hpre hpost hrest ih => exact .cons hpre.2 hpost.2 ih

/-- **Exchanges that keep to an automaton** are a run of it. -/
theorem Trace.run_eq {next : M → (r : R) → A r → Option M} {s t : M} (h : (ofStep next).Trace s xs t) :
    run (fun s (x : Call A) => next s x.request x.answer) s xs = some t := by
  induction h with
  | nil s => rfl
  | cons hpre hpost hrest ih => exact run_cons.2 ⟨_, hpost, ih⟩

end Spec

namespace Prog

variable {S S' : Spec A L} {T : Spec A M} {Q : α → L → Prop} {E : ε → L → Prop} {Q' : α → M → Prop}
  {E' : ε → M → Prop}

/-- **A program that keeps to two specifications** keeps to both at once. -/
theorem Ok.prod : ∀ {p : Prog A ε α} {s : L} {t : M}, p.Ok S Q E s → p.Ok T Q' E' t →
    p.Ok (S.prod T) (fun a u => Q a u.1 ∧ Q' a u.2) (fun e u => E e u.1 ∧ E' e u.2) (s, t) := by
  intro p
  induction p with
  | ret a => intro s t hs ht; exact ⟨hs, ht⟩
  | stop e => intro s t hs ht; exact ⟨hs, ht⟩
  | ask r k ih =>
    intro s t hs ht
    refine ⟨⟨hs.1, ht.1⟩, fun x u hx => ?_⟩
    exact ih x (hs.2 x u.1 hx.1) (ht.2 x u.2 hx.2)

/-- A specification that asks for less and allows no more answers. -/
theorem Ok.of_spec (hpre : ∀ s r, S.pre s r → S'.pre s r) (hpost : ∀ s r x t, S'.post s r x t → S.post s r x t) :
    ∀ {p : Prog A ε α} {s : L}, p.Ok S Q E s → p.Ok S' Q E s := by
  intro p
  induction p with
  | ret a => intro s h; exact h
  | stop e => intro s h; exact h
  | ask r k ih => intro s h; exact ⟨hpre s r h.1, fun x t hx => ih x (h.2 x t (hpost s r x t hx))⟩

end Prog

/-! ## The exchanges of a thread -/

namespace Pool

variable (h : ℕ → Handler A σ ι)

/-- What a step asks and is answered. -/
def exchanged (P : Pool A ε α σ) (x : ℕ × ι) : Option (Call A) :=
  match P.threads[x.1]? with
  | some (.ask r _) => (h x.1 P.state r x.2).map fun y => ⟨r, y.1⟩
  | _ => none

/-- The exchanges of thread `t` in a run. -/
def exchanges (t : ℕ) : Pool A ε α σ → List (ℕ × ι) → List (Call A)
  | _, [] => []
  | P, x :: es => (if x.1 = t then (exchanged h P x).toList else []) ++
    match step h P x with
    | some P' => exchanges t P' es
    | none => []

variable {h} {P P' : Pool A ε α σ} {t : ℕ} {x : ℕ × ι} {es : List (ℕ × ι)}

theorem exchanges_cons (hs : step h P x = some P') : exchanges h t P (x :: es) =
    (if x.1 = t then (exchanged h P x).toList else []) ++ exchanges h t P' es := by
  rw [exchanges, hs]

variable {S : ℕ → Spec A L} {Q : ℕ → α → L → Prop} {E : ℕ → ε → L → Prop} {J : σ → (ℕ → L) → Prop}
  {C : ℕ → σ → R → ι → Prop} {g : ℕ → L}

/-- **In every interleaving the exchanges of each thread keep to its specification.** -/
theorem trace_run (hR : Rule S J h C) (hP : P.Held S Q E J g) (hC : Along (step h) (fun P x => P.Meets C x) P es)
    (hr : run (step h) P es = some P') :
    ∃ g', P'.Held S Q E J g' ∧ ∀ t, (S t).Trace (g t) (exchanges h t P es) (g' t) := by
  induction es generalizing P g with
  | nil =>
    cases hr
    exact ⟨g, hP, fun t => .nil (g t)⟩
  | cons x es ih =>
    obtain ⟨P₁, hs, hr⟩ := run_cons.1 hr
    obtain ⟨r, k, y, m, hask, hy, hpre, hpost, hheld⟩ := held_step hR hP hC.1 hs
    obtain ⟨g', hg', htrace⟩ := ih hheld (hC.2 P₁ hs) hr
    refine ⟨g', hg', fun t => ?_⟩
    have ht := htrace t
    rw [exchanges_cons hs]
    by_cases hxt : x.1 = t
    · have hexchanged : exchanged h P x = some ⟨r, y⟩ := by
        unfold exchanged
        rw [hask]
        show (h x.1 P.state r x.2).map _ = _
        rw [hy]
        rfl
      rw [if_pos hxt, hexchanged]
      subst hxt
      rw [Function.update_self] at ht
      exact .cons hpre hpost ht
    · rw [Function.update_of_ne (Ne.symm hxt)] at ht
      rwa [if_neg hxt]

end Pool

end Lib
