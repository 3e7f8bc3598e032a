import Mathlib.Logic.Function.Basic

/-!
# Maps kept in step with a relation

A map from names to values is a mirror of a relation when it gives a name
exactly the values related to it. Entering a name that is related to nothing and
deleting a value keep a mirror in step with the relation changed likewise.
-/

set_option autoImplicit false

namespace Library.MirrorMaps

section
variable {ν α : Type*}

def Mirrors (f : ν → Option α) (R : ν → α → Prop) : Prop := ∀ n a, f n = some a ↔ R n a

theorem Mirrors.isSome_iff {f : ν → Option α} {R : ν → α → Prop} (h : Mirrors f R) (n : ν) :
    (f n).isSome = true ↔ ∃ a, R n a := by
  rw [Option.isSome_iff_exists]
  exact exists_congr fun a => h n a

theorem Mirrors.congr {f g : ν → Option α} {R S : ν → α → Prop} (h : Mirrors f R)
    (hfg : ∀ n, g n = f n) (hRS : ∀ n a, S n a ↔ R n a) : Mirrors g S := by
  intro n a
  rw [hfg, hRS]
  exact h n a

theorem Mirrors.enter [DecidableEq ν] {f : ν → Option α} {R S : ν → α → Prop} (h : Mirrors f R)
    (n : ν) (a : α) (hfree : ∀ b, ¬ R n b)
    (hS : ∀ n' b, S n' b ↔ R n' b ∨ (n' = n ∧ b = a)) :
    Mirrors (Function.update f n (some a)) S := by
  intro n' b
  rw [hS]
  by_cases hn : n' = n
  · subst hn
    rw [Function.update_self]
    constructor
    · intro heq
      exact Or.inr ⟨rfl, (Option.some.inj heq).symm⟩
    · rintro (hR | ⟨-, rfl⟩)
      · exact absurd hR (hfree b)
      · rfl
  · rw [Function.update_of_ne hn, h n' b]
    constructor
    · exact Or.inl
    · rintro (hR | ⟨heq, -⟩)
      · exact hR
      · exact absurd heq hn

theorem Mirrors.delete [DecidableEq α] {f : ν → Option α} {R S : ν → α → Prop} (h : Mirrors f R)
    (a : α) (hS : ∀ n b, S n b ↔ R n b ∧ b ≠ a) :
    Mirrors (fun n => (f n).filter (· ≠ a)) S := by
  intro n b
  rw [hS, ← h n b, Option.filter_eq_some_iff]
  simp

end
end Library.MirrorMaps
