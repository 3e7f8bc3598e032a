import Mathlib.Data.List.Induction

/-!
# Runs, traces and what has held since

A deterministic machine answers each input with a new state and an output.
A trace records, for every input, the state it met and the state it left, so
that a property of a history can depend on what the machine knew at the time.
`Since p q` is the past-time operator: some event satisfies `p` and no later
event satisfies `q`. `sinceLast q` cuts a trace after its last `q`.
-/

set_option autoImplicit false

namespace Library.Traces

structure Event (σ ι α : Type*) where
  before : σ
  input : ι
  after : σ
  output : α

section Machine
variable {σ ι α : Type*} (step : σ → ι → σ × α)

def run : σ → List ι → σ
  | s, [] => s
  | s, i::is => run (step s i).1 is

def event (s : σ) (i : ι) : Event σ ι α := ⟨s, i, (step s i).1, (step s i).2⟩

def trace : σ → List ι → List (Event σ ι α)
  | _, [] => []
  | s, i::is => event step s i :: trace (step s i).1 is

theorem run_append (s : σ) (is js : List ι) :
    run step s (is++js) = run step (run step s is) js := by
  induction is generalizing s with
  | nil => rfl
  | cons i is ih => exact ih _

theorem run_snoc (s : σ) (is : List ι) (i : ι) :
    run step s (is++[i]) = (step (run step s is) i).1 := by
  rw [run_append]
  rfl

theorem trace_append (s : σ) (is js : List ι) :
    trace step s (is++js) = trace step s is ++ trace step (run step s is) js := by
  induction is generalizing s with
  | nil => rfl
  | cons i is ih => simp [trace, run, ih]

theorem trace_snoc (s : σ) (is : List ι) (i : ι) :
    trace step s (is++[i]) = trace step s is ++ [event step (run step s is) i] := by
  rw [trace_append]
  rfl

theorem trace_inputs (s : σ) (is : List ι) :
    (trace step s is).map Event.input = is := by
  induction is generalizing s with
  | nil => rfl
  | cons i is ih => simp [trace, event, ih]

theorem run_invariant (P : σ → Prop) (hstep : ∀ s i, P s → P (step s i).1)
    (s : σ) (hs : P s) (is : List ι) : P (run step s is) := by
  induction is generalizing s with
  | nil => exact hs
  | cons i is ih => exact ih _ (hstep s i hs)

theorem mem_trace (s : σ) (is : List ι) (e : Event σ ι α) (he : e ∈ trace step s is) :
    ∃ pre post, is = pre ++ e.input :: post ∧ e = event step (run step s pre) e.input := by
  induction is generalizing s with
  | nil => simp [trace] at he
  | cons i is ih =>
    rcases List.mem_cons.mp he with rfl | hr
    · exact ⟨[], is, rfl, rfl⟩
    · obtain ⟨pre, post, his, hev⟩ := ih _ hr
      exact ⟨i::pre, post, by simp [his], hev⟩

theorem run_simulates {τ : Type*} (step' : τ → ι → τ × α) (abstract : σ → τ)
    (h : ∀ s i, step' (abstract s) i = (abstract (step s i).1, (step s i).2)) (s : σ)
    (is : List ι) :
    run step' (abstract s) is = abstract (run step s is) ∧
      (trace step' (abstract s) is).map Event.output = (trace step s is).map Event.output := by
  induction is generalizing s with
  | nil => exact ⟨rfl, rfl⟩
  | cons i is ih =>
    obtain ⟨hrun, htrace⟩ := ih (step s i).1
    simp only [run, trace, event, List.map_cons, h]
    exact ⟨hrun, by rw [htrace]⟩

end Machine

section Since
variable {ε : Type*} (p q : ε → Prop)

def Since (tr : List ε) : Prop :=
  ∃ pre e post, tr = pre ++ e :: post ∧ p e ∧ ∀ e' ∈ post, ¬ q e'

theorem since_nil : ¬ Since p q [] := by
  rintro ⟨pre, e, post, h, -⟩
  simp at h

/-- The recursive law of the operator: one more event either establishes the
property afresh, or leaves it standing by not being a `q`. -/
theorem since_snoc (tr : List ε) (e : ε) :
    Since p q (tr++[e]) ↔ p e ∨ (Since p q tr ∧ ¬ q e) := by
  constructor
  · rintro ⟨pre, e', post, h, hp, hq⟩
    rcases List.eq_nil_or_concat post with rfl | ⟨post', last, rfl⟩
    · obtain ⟨-, rfl⟩ := List.append_inj' h (by simp) |>.imp id List.singleton_inj.mp
      exact Or.inl hp
    · rw [show pre ++ e' :: (post'.concat last) = (pre ++ e' :: post') ++ [last] by simp] at h
      obtain ⟨htr, hl⟩ := List.append_inj' h (by simp)
      obtain rfl := List.singleton_inj.mp hl
      refine Or.inr ⟨⟨pre, e', post', htr, hp, ?_⟩, hq e (by simp)⟩
      intro x hx
      exact hq x (by simp [hx])
  · rintro (hp | ⟨⟨pre, e', post, rfl, hp, hq⟩, hlast⟩)
    · exact ⟨tr, e, [], rfl, hp, by simp⟩
    · refine ⟨pre, e', post++[e], by simp, hp, ?_⟩
      intro x hx
      rcases List.mem_append.mp hx with hx | hx
      · exact hq x hx
      · obtain rfl := List.mem_singleton.mp hx
        exact hlast

end Since

section SinceLast
variable {ε : Type*} (q : ε → Bool)

/-- The events after the last one that satisfies `q`. -/
def sinceLast (tr : List ε) : List ε := (tr.reverse.takeWhile (fun e => !q e)).reverse

theorem sinceLast_snoc (tr : List ε) (e : ε) :
    sinceLast q (tr++[e]) = if q e then [] else sinceLast q tr ++ [e] := by
  simp only [sinceLast, List.reverse_append, List.reverse_cons, List.reverse_nil, List.nil_append,
    List.singleton_append, List.takeWhile_cons]
  cases q e <;> simp

end SinceLast

section Guarded
variable {σ ι : Type*} (step : σ → ι → Option σ)

/-- A run of a machine whose steps may be disabled: it stops at the first input
that is not enabled. -/
def exec : σ → List ι → Option σ
  | s, [] => some s
  | s, i::is => (step s i).bind (fun t => exec t is)

theorem exec_append (s : σ) (is js : List ι) :
    exec step s (is++js) = (exec step s is).bind (fun t => exec step t js) := by
  induction is generalizing s with
  | nil => rfl
  | cons i is ih =>
    rw [List.cons_append, exec, exec, Option.bind_assoc]
    simp only [ih]

/-- Every step of the run is taken in a state that allows it. -/
def Along (ok : σ → ι → Prop) : σ → List ι → Prop
  | _, [] => True
  | s, i::is => ok s i ∧ ∀ t, step s i = some t → Along ok t is

instance Along.decidable (ok : σ → ι → Prop) [∀ s i, Decidable (ok s i)] (s : σ) :
    (is : List ι) → Decidable (Along step ok s is)
  | [] => isTrue trivial
  | i::is =>
    match h : step s i with
    | none =>
      decidable_of_iff (ok s i)
        ⟨fun hok => ⟨hok, fun _ ht => nomatch h.symm.trans ht⟩, fun hal => hal.1⟩
    | some t =>
      have := Along.decidable ok t is
      decidable_of_iff (ok s i ∧ Along step ok t is)
        ⟨fun hal => ⟨hal.1, fun _ hu => Option.some.inj (h.symm.trans hu) ▸ hal.2⟩,
          fun hal => ⟨hal.1, hal.2 t h⟩⟩

theorem along_of_forall (ok : ι → Prop) (s : σ) (is : List ι) (h : ∀ i ∈ is, ok i) :
    Along step (fun _ i => ok i) s is := by
  induction is generalizing s with
  | nil => trivial
  | cons i is ih => exact ⟨h i (by simp), fun t _ => ih t (fun j hj => h j (by simp [hj]))⟩

theorem along_and (ok ok' : σ → ι → Prop) (s : σ) (is : List ι) (h : Along step ok s is)
    (h' : Along step ok' s is) : Along step (fun s i => ok s i ∧ ok' s i) s is := by
  induction is generalizing s with
  | nil => trivial
  | cons i is ih => exact ⟨⟨h.1, h'.1⟩, fun t ht => ih t (h.2 t ht) (h'.2 t ht)⟩

/-- The invariant rule: what holds at the start and is kept by every enabled
step that its state allows holds at the end of a run of such steps. -/
theorem along_invariant (ok : σ → ι → Prop) (P : σ → Prop)
    (hstep : ∀ s i t, ok s i → P s → step s i = some t → P t)
    (s : σ) (hs : P s) (is : List ι) (hok : Along step ok s is) (t : σ)
    (h : exec step s is = some t) : P t := by
  induction is generalizing s with
  | nil => exact Option.some.inj h ▸ hs
  | cons i is ih =>
    obtain ⟨u, hu, ht⟩ := Option.bind_eq_some_iff.mp h
    exact ih u (hstep s i u hok.1 hs hu) (hok.2 u hu) ht

theorem exec_invariant (ok : ι → Prop) (P : σ → Prop)
    (hstep : ∀ s i t, ok i → P s → step s i = some t → P t)
    (s : σ) (hs : P s) (is : List ι) (hok : ∀ i ∈ is, ok i) (t : σ)
    (h : exec step s is = some t) : P t :=
  along_invariant step (fun _ i => ok i) P hstep s hs is (along_of_forall step ok s is hok) t h

theorem exec_history (P : List ι → σ → Prop)
    (hstep : ∀ is s i t, P is s → step s i = some t → P (is++[i]) t) (s : σ) (hs : P [] s)
    (is : List ι) (t : σ) (h : exec step s is = some t) : P is t := by
  induction is using List.reverseRecOn generalizing t with
  | nil => exact Option.some.inj h ▸ hs
  | append_singleton is i ih =>
    rw [exec_append] at h
    obtain ⟨u, hu, hlast⟩ := Option.bind_eq_some_iff.mp h
    have hone : step u i = some t := by simpa [exec] using hlast
    exact hstep is u i t (ih u hu) hone

end Guarded

end Library.Traces
