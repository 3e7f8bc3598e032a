import Mathlib.Data.List.Basic

/-!
# Lists of tasks

A concurrent system keeps its tasks in a list, and a step of one task replaces
its entry. What the other entries are does not change.
-/

set_option autoImplicit false

namespace Library.TaskLists

section
variable {α : Type*}

theorem mem_set_other (tasks : List α) (i : ℕ) (task task' x : α) (hi : tasks[i]? = some task)
    (hold : x ≠ task) (hnew : x ≠ task') : x ∈ tasks.set i task' ↔ x ∈ tasks := by
  constructor
  · intro h
    exact (List.mem_or_eq_of_mem_set h).resolve_right hnew
  · intro h
    obtain ⟨j, hj⟩ := List.mem_iff_getElem?.mp h
    have hne : i ≠ j := by
      rintro rfl
      exact hold (Option.some.inj (hj.symm.trans hi))
    exact List.mem_iff_getElem?.mpr ⟨j, by rw [List.getElem?_set_ne hne, hj]⟩

theorem mem_set_new (tasks : List α) (i : ℕ) (task task' : α) (hi : tasks[i]? = some task) :
    task' ∈ tasks.set i task' := by
  have hlt := (List.getElem?_eq_some_iff.mp hi).1
  exact List.mem_iff_getElem?.mpr ⟨i, List.getElem?_set_self hlt⟩

theorem mem_set_or (tasks : List α) (i : ℕ) (task task' x : α) (hi : tasks[i]? = some task)
    (hx : x ∈ tasks) : x = task ∨ x ∈ tasks.set i task' := by
  obtain ⟨j, hj⟩ := List.mem_iff_getElem?.mp hx
  by_cases hij : i = j
  · subst hij
    exact Or.inl (Option.some.inj (hj.symm.trans hi))
  · right
    rw [List.mem_iff_getElem?]
    exact ⟨j, by rw [List.getElem?_set_ne hij, hj]⟩

theorem mem_eraseIdx_or (tasks : List α) (j : ℕ) (x : α) (hx : x ∈ tasks) :
    tasks[j]? = some x ∨ x ∈ tasks.eraseIdx j := by
  obtain ⟨n, hn⟩ := List.mem_iff_getElem?.mp hx
  by_cases hnj : n = j
  · subst hnj
    exact Or.inl hn
  · right
    rw [List.mem_eraseIdx_iff_getElem?]
    exact ⟨n, hnj, hn⟩

theorem get_spawned (tasks spawned : List α) (j : ℕ) (x : α)
    (h : (tasks++spawned)[j]? = some x) :
    tasks[j]? = some x ∨ tasks.length ≤ j ∧ spawned[j-tasks.length]? = some x := by
  rcases Nat.lt_or_ge j tasks.length with hlt | hge
  · rw [List.getElem?_append_left hlt] at h
    exact Or.inl h
  · rw [List.getElem?_append_right hge] at h
    exact Or.inr ⟨hge, h⟩

theorem get_after (tasks spawned : List α) (i j : ℕ) (task' x : α)
    (h : (tasks.set i task' ++ spawned)[j]? = some x) :
    (j = i ∧ x = task') ∨ (j ≠ i ∧ tasks[j]? = some x) ∨
      tasks.length ≤ j ∧ spawned[j-tasks.length]? = some x := by
  rcases get_spawned _ spawned j x h with h | ⟨hge, h⟩
  · by_cases hj : i = j
    · subst hj
      have hlt : i < tasks.length := by
        have := (List.getElem?_eq_some_iff.mp h).1
        simpa using this
      rw [List.getElem?_set_self hlt] at h
      exact Or.inl ⟨rfl, (Option.some.inj h).symm⟩
    · rw [List.getElem?_set_ne hj] at h
      exact Or.inr (Or.inl ⟨fun heq => hj heq.symm, h⟩)
  · rw [List.length_set] at hge h
    exact Or.inr (Or.inr ⟨hge, h⟩)

end
end Library.TaskLists
