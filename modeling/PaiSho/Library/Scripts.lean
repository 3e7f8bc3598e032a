import Mathlib.Logic.Basic

/-!
# Scripts of fallible calls

A script ends with a result or makes a call and goes on with its answer. What a
call does to the world, and which answers it can get, is a relation, so a script
has many runs; it may also be cut short between any two calls. `Meets` is the
precondition under which a predicate holds of every world a run passes through
and a postcondition of every result, given by the script's own syntax.
-/

set_option autoImplicit false

namespace Library.Scripts

inductive Script (ι : Type) (ρ : ι → Type) (α : Type) where
  | ret (a : α)
  | call (i : ι) (k : ρ i → Script ι ρ α)

section
variable {ι : Type} {ρ : ι → Type} {α β : Type}

def Script.bind : Script ι ρ α → (α → Script ι ρ β) → Script ι ρ β
  | .ret a, f => f a
  | .call i k, f => .call i (fun a => (k a).bind f)

end

def Fallible (ι : Type) (ρ : ι → Type) (ε α : Type) := Script ι ρ (Except ε α)

section
variable {ι : Type} {ρ : ι → Type} {ε α β : Type}

def Fallible.andThen (p : Fallible ι ρ ε α) (f : α → Fallible ι ρ ε β) : Fallible ι ρ ε β :=
  Script.bind p (fun
    | .ok a => f a
    | .error e => .ret (.error e))

instance fallibleMonad : Monad (Fallible ι ρ ε) where
  pure a := .ret (.ok a)
  bind := Fallible.andThen

def Fallible.bail (e : ε) : Fallible ι ρ ε α := .ret (.error e)

def Fallible.rescue (p : Fallible ι ρ ε α) (f : ε → Fallible ι ρ ε α) : Fallible ι ρ ε α :=
  Script.bind p (fun
    | .ok a => .ret (.ok a)
    | .error e => f e)

def Fallible.attempt (i : ι) (read : ρ i → Except ε α) : Fallible ι ρ ε α :=
  .call i (fun a => .ret (read a))

end

section
variable {ι : Type} {ρ : ι → Type} {α β σ : Type} (env : σ → (i : ι) → ρ i → σ → Prop)

/-- A run, up to any point: what is left of the script, and the world there. -/
inductive Reach : Script ι ρ α → σ → Script ι ρ α → σ → Prop where
  | here (p : Script ι ρ α) (s : σ) : Reach p s p s
  | call (i : ι) (k : ρ i → Script ι ρ α) (s : σ) (a : ρ i) (s' : σ) (p' : Script ι ρ α) (s'' : σ)
      (hcall : env s i a s') (hrest : Reach (k a) s' p' s'') : Reach (.call i k) s p' s''

/-- Every world on the way satisfies `I`, and every result `Q`. -/
def Meets (I : σ → Prop) (Q : α → σ → Prop) : Script ι ρ α → σ → Prop
  | .ret a, s => I s ∧ Q a s
  | .call i k, s => I s ∧ ∀ a s', env s i a s' → Meets I Q (k a) s'

variable (I : σ → Prop)

theorem Meets.now {I : σ → Prop} {Q : α → σ → Prop} {p : Script ι ρ α} {s : σ}
    (h : Meets env I Q p s) : I s := by
  cases p with
  | ret a => exact h.1
  | call i k => exact h.1

theorem meets_reach (Q : α → σ → Prop) (p p' : Script ι ρ α) (s s' : σ)
    (h : Meets env I Q p s) (hr : Reach env p s p' s') : Meets env I Q p' s' := by
  induction hr with
  | here p s => exact h
  | call i k s a s' p' s'' hcall hrest ih => exact ih (h.2 a s' hcall)

theorem meets_bind (Q : β → σ → Prop) (p : Script ι ρ α) (f : α → Script ι ρ β) (s : σ)
    (h : Meets env I (fun a t => Meets env I Q (f a) t) p s) : Meets env I Q (p.bind f) s := by
  induction p generalizing s with
  | ret a => exact h.2
  | call i k ih => exact ⟨h.1, fun a s' hcall => ih a s' (h.2 a s' hcall)⟩

def Script.follow (act : σ → (i : ι) → ρ i × σ) : Script ι ρ α → σ → α × σ
  | .ret a, s => (a, s)
  | .call i k, s => (k (act s i).1).follow act (act s i).2

theorem reach_follow (act : σ → (i : ι) → ρ i × σ) (hact : ∀ s i, env s i (act s i).1 (act s i).2)
    (p : Script ι ρ α) (s : σ) :
    Reach env p s (.ret (p.follow act s).1) (p.follow act s).2 := by
  induction p generalizing s with
  | ret a => exact Reach.here _ _
  | call i k ih =>
    have hrest := ih (act s i).1 (act s i).2
    exact Reach.call i k s (act s i).1 (act s i).2 _ _ (hact s i) hrest

end

def Ends {ε α σ : Type} (R : α → σ → Prop) (E : ε → σ → Prop) : Except ε α → σ → Prop
  | .ok a, s => R a s
  | .error e, s => E e s

section
variable {ι : Type} {ρ : ι → Type} {ε α β σ : Type} (env : σ → (i : ι) → ρ i → σ → Prop)
  (I : σ → Prop) (E : ε → σ → Prop)

theorem meets_weaken (R R' : α → σ → Prop) (p : Fallible ι ρ ε α) (s : σ)
    (hR : ∀ a t, I t → R a t → R' a t) (h : Meets env I (Ends R E) p s) :
    Meets env I (Ends R' E) p s := by
  induction p generalizing s with
  | ret r =>
    cases r with
    | ok a => exact ⟨h.1, hR a s h.1 h.2⟩
    | error e => exact h
  | call i k ih => exact ⟨h.1, fun a s' hcall => ih a s' (h.2 a s' hcall)⟩

theorem meets_pure (R : α → σ → Prop) (a : α) (s : σ) (hI : I s) (h : R a s) :
    Meets env I (Ends R E) (pure a : Fallible ι ρ ε α) s :=
  ⟨hI, h⟩

theorem meets_bail (R : α → σ → Prop) (e : ε) (s : σ) (hI : I s) (h : E e s) :
    Meets env I (Ends R E) (Fallible.bail e : Fallible ι ρ ε α) s :=
  ⟨hI, h⟩

theorem meets_attempt (R : α → σ → Prop) (i : ι) (read : ρ i → Except ε α) (s : σ) (hI : I s)
    (h : ∀ a s', env s i a s' → I s' ∧ Ends R E (read a) s') :
    Meets env I (Ends R E) (Fallible.attempt i read) s :=
  ⟨hI, fun a s' hcall => h a s' hcall⟩

theorem meets_andThen (R : α → σ → Prop) (R' : β → σ → Prop) (p : Fallible ι ρ ε α)
    (f : α → Fallible ι ρ ε β) (s : σ) (hp : Meets env I (Ends R E) p s)
    (hf : ∀ a t, I t → R a t → Meets env I (Ends R' E) (f a) t) :
    Meets env I (Ends R' E) (p >>= f : Fallible ι ρ ε β) s := by
  apply meets_bind env I (Ends R' E) p _ s
  induction p generalizing s with
  | ret r =>
    cases r with
    | ok a => exact ⟨hp.1, hf a s hp.1 hp.2⟩
    | error e => exact ⟨hp.1, hp.1, hp.2⟩
  | call i k ih => exact ⟨hp.1, fun a s' hcall => ih a s' (hp.2 a s' hcall)⟩

theorem meets_rescue (E' : ε → σ → Prop) (R : α → σ → Prop) (p : Fallible ι ρ ε α)
    (f : ε → Fallible ι ρ ε α) (s : σ) (hp : Meets env I (Ends R E') p s)
    (hf : ∀ e t, I t → E' e t → Meets env I (Ends R E) (f e) t) :
    Meets env I (Ends R E) (p.rescue f) s := by
  apply meets_bind env I (Ends R E) p _ s
  induction p generalizing s with
  | ret r =>
    cases r with
    | ok a => exact ⟨hp.1, hp.1, hp.2⟩
    | error e => exact ⟨hp.1, hf e s hp.1 hp.2⟩
  | call i k ih => exact ⟨hp.1, fun a s' hcall => ih a s' (hp.2 a s' hcall)⟩

end

end Library.Scripts
