import PaiSho.ConnectionLoop

/-!
# No wakeup is lost

A connection that a call has installed is served by the loop, or the loop is told
of it: the call has its notification still to make, or a permit is there for the
loop to take. The loop gives up a permit only on its way to reading the slot.
-/

set_option autoImplicit false

namespace PaiSho.Wakeups
open Library.Traces
open ConnectionLoop

def Attending : Pc → ℕ → Prop
  | .serving held, conn => held = conn
  | .checking, _ => False
  | .parked, _ => False
  | .waiting, _ => False
  | .dialing, _ => False
  | .dialed _, _ => False
  | _, _ => True

/-- The call that installed the connection has not come to its notification. -/
def Owing (st : Loop) (conn : ℕ) : Prop := st.calls conn = .installed ∨ st.calls conn = .marked

structure Heard (st : Loop) : Prop where
  fresh : ∀ conn, st.calls conn ≠ .absent → conn < st.opened
  heard : st.removed = false → ∀ conn, st.slot.connection = some conn → st.closed conn = false →
    Attending st.pc conn ∨ Owing st conn ∨ st.permit = true

theorem close_open (st : Loop) (conns : List ℕ) (conn : ℕ)
    (h : (st.close conns).closed conn = false) : st.closed conn = false ∧ conn ∉ conns := by
  simpa [Loop.close] using h

theorem owing_fresh (st : Loop) (h : Heard st) (conn : ℕ) (howing : Owing st conn) :
    conn < st.opened := by
  apply h.fresh
  rcases howing with hcall | hcall <;> simp [hcall]

theorem fresh_update (st : Loop) (h : Heard st) (conn : ℕ) (stage : Stage)
    (hcall : st.calls conn ≠ .absent) (c : ℕ)
    (hc : Function.update st.calls conn stage c ≠ .absent) : c < st.opened := by
  by_cases hconn : c = conn
  · exact hconn ▸ h.fresh conn hcall
  · rw [Function.update_of_ne hconn] at hc
    exact h.fresh c hc

theorem owing_update (st : Loop) (conn other : ℕ) (stage : Stage) (hne : conn ≠ other)
    (h : Owing st conn) : Owing { st with calls := Function.update st.calls other stage } conn := by
  unfold Owing
  simp only [Function.update_of_ne hne]
  exact h

theorem heard_moved (st : Loop) (h : Heard st) (backoff : Backoff) (pc : Pc)
    (hmove : ∀ conn, st.slot.connection = some conn → st.closed conn = false →
      Attending st.pc conn → Attending pc conn) :
    Heard { st with backoff := backoff, pc := pc } := by
  refine ⟨h.fresh, fun hpresent conn hheld hlive => ?_⟩
  rcases h.heard hpresent conn hheld hlive with hattends | htold
  · exact Or.inl (hmove conn hheld hlive hattends)
  · exact Or.inr htold

theorem heard_attending (st : Loop) (fresh : ∀ conn, st.calls conn ≠ .absent → conn < st.opened)
    (h : ∀ conn, Attending st.pc conn) : Heard st :=
  ⟨fresh, fun _ conn _ _ => Or.inl (h conn)⟩

theorem heard_step (st st' : Loop) (act : Act) (h : Heard st) (hstep : Stepped st act st') :
    Heard st' := by
  cases hstep with
  | started hpc => exact heard_moved st h _ .top fun _ _ _ _ => trivial
  | looked hpc =>
    refine heard_moved st h st.backoff _ fun conn hheld _ _ => ?_
    rw [hheld]
    trivial
  | took conn hpc hheld =>
    refine heard_moved st h st.backoff _ fun conn' hheld' _ _ => ?_
    exact Option.some.inj (hheld.symm.trans hheld')
  | tookNone hpc hnone =>
    refine heard_moved st h st.backoff _ fun conn hheld _ _ => ?_
    cases hnone.symm.trans hheld
  | dropped conn hpc hclosed =>
    -- what the loop has stopped serving is closed
    refine heard_moved st h st.backoff _ fun conn' _ hlive hattends => ?_
    rw [hpc] at hattends
    obtain rfl : conn = conn' := hattends
    cases hclosed.symm.trans hlive
  | checked hpc =>
    refine heard_moved st h st.backoff _ fun conn _ _ hattends => ?_
    rw [hpc] at hattends
    exact hattends.elim
  | unparked hpc hpermit =>
    refine heard_attending _ h.fresh fun conn => ?_
    dsimp only
    split_ifs <;> trivial
  | woken hpc hpermit => exact heard_attending _ h.fresh fun _ => trivial
  | slept hpc =>
    refine heard_moved st h st.backoff _ fun conn _ _ hattends => ?_
    rw [hpc] at hattends
    exact hattends.elim
  | failed act hact hpc =>
    refine heard_moved st h _ _ fun conn _ _ hattends => ?_
    rw [hpc] at hattends
    exact hattends.elim
  | connected hpc =>
    refine ⟨fun conn hcall => ?_, fun hpresent conn hheld hlive => ?_⟩
    · have := h.fresh conn hcall
      simp only
      omega
    · rcases h.heard hpresent conn hheld hlive with hattends | htold
      · rw [hpc] at hattends
        exact hattends.elim
      · exact Or.inr htold
  | replaced conn hpc => exact heard_attending _ h.fresh fun _ => trivial
  | kept conn hpc => exact heard_attending _ h.fresh fun _ => trivial
  | announced hpc => exact heard_moved st h _ .top fun _ _ _ _ => trivial
  | arrived hpresent =>
    refine ⟨fun conn hcall => ?_, fun hpresent conn hheld hlive => ?_⟩
    · by_cases hconn : conn = st.opened
      · simp only
        omega
      · simp only [Function.update_of_ne hconn] at hcall
        have := h.fresh conn hcall
        simp only
        omega
    · rcases h.heard hpresent conn hheld hlive with hattends | howing | hpermit
      · exact Or.inl hattends
      · have hlt := owing_fresh st h conn howing
        exact Or.inr (Or.inl (owing_update st conn st.opened .arriving (by omega) howing))
      · exact Or.inr (Or.inr hpermit)
  | installed conn hcall =>
    refine ⟨fresh_update st h conn .installed (by simp [hcall]), fun _ conn' hheld _ => ?_⟩
    obtain rfl := Option.some.inj hheld
    exact Or.inr (Or.inl (Or.inl (Function.update_self ..)))
  | refused conn hcall =>
    refine ⟨fresh_update st h conn .done (by simp [hcall]), fun hpresent conn' hheld hlive => ?_⟩
    obtain ⟨hopen, hother⟩ := close_open st [conn] conn' hlive
    rcases h.heard hpresent conn' hheld hopen with hattends | howing | hpermit
    · exact Or.inl hattends
    · exact Or.inr (Or.inl (owing_update st conn' conn .done (by simpa using hother) howing))
    · exact Or.inr (Or.inr hpermit)
  | marked conn hcall =>
    refine ⟨fresh_update st h conn .marked (by simp [hcall]), fun hpresent conn' hheld hlive => ?_⟩
    rcases h.heard hpresent conn' hheld hlive with hattends | howing | hpermit
    · exact Or.inl hattends
    · by_cases hconn : conn' = conn
      · exact Or.inr (Or.inl (Or.inr (by rw [hconn]; exact Function.update_self ..)))
      · exact Or.inr (Or.inl (owing_update st conn' conn .marked hconn howing))
    · exact Or.inr (Or.inr hpermit)
  | notified conn hcall =>
    exact ⟨fresh_update st h conn .done (by simp [hcall]), fun _ _ _ _ => Or.inr (Or.inr rfl)⟩
  | lost conn hopened =>
    refine ⟨h.fresh, fun hpresent conn' hheld hlive => ?_⟩
    exact h.heard hpresent conn' hheld (close_open st [conn] conn' hlive).1
  | evicted hpresent => exact ⟨h.fresh, fun hremoved => by cases hremoved⟩
  | cleared hevicting => exact ⟨h.fresh, fun _ conn hheld => by cases hheld⟩

section
variable {K : Type} [LinearOrder K] (ours theirs : K)

theorem heard_reached (origin : Origin) (acts : List Act) (st : Loop)
    (h : Reached ours theirs origin acts st) : Heard st := by
  have hstart : Heard origin.loop := by
    refine heard_attending _ (fun conn hcall => ?_) (fun conn => ?_)
    · cases origin <;> exact absurd rfl hcall
    · cases origin <;> trivial
  exact exec_invariant (step ours theirs) (fun _ => True) Heard
    (fun s act t _ hs hstep => heard_step s t act hs (stepped_of_step ours theirs s t act hstep))
    origin.loop hstart acts (fun _ _ => trivial) st h

/-- Whenever the loop waits, parked or for the delay to pass, no live connection
is in the slot without a notification that has still to be made or a permit that
was left. -/
theorem no_wakeup_lost (origin : Origin) (acts : List Act) (st : Loop)
    (h : Reached ours theirs origin acts st) (hpresent : st.removed = false)
    (hwaits : st.pc = .parked ∨ st.pc = .waiting) :
    (∀ conn, st.slot.connection = some conn → st.live conn = false) ∨
      (∃ conn, st.slot.connection = some conn ∧ Owing st conn) ∨ st.permit = true := by
  by_cases hlive : ∀ conn, st.slot.connection = some conn → st.live conn = false
  · exact Or.inl hlive
  · push Not at hlive
    obtain ⟨conn, hheld, hopen⟩ := hlive
    have hclosed : st.closed conn = false := by simpa [Loop.live] using hopen
    rcases (heard_reached ours theirs origin acts st h).heard hpresent conn hheld hclosed with
      hattends | howing | hpermit
    · rcases hwaits with hpc | hpc
      · rw [hpc] at hattends
        exact hattends.elim
      · rw [hpc] at hattends
        exact hattends.elim
    · exact Or.inr (Or.inl ⟨conn, hheld, howing⟩)
    · exact Or.inr (Or.inr hpermit)

end

def calledRun : List Act := [.started, .looked, .checked, .arrived, .installed 0]

theorem called_is_owed : ∃ st, Reached (1 : ℕ) 2 .pinned calledRun st ∧
    st.slot.connection = some 0 ∧ st.live 0 = true ∧
    ((∀ conn, st.slot.connection = some conn → st.live conn = false) ∨
      (∃ conn, st.slot.connection = some conn ∧ Owing st conn) ∨ st.permit = true) := by
  have hcalled : ∃ st, Reached (1 : ℕ) 2 .pinned calledRun st ∧ st.removed = false ∧
      st.pc = .parked ∧ st.slot.connection = some 0 ∧ st.live 0 = true :=
    ⟨_, rfl, rfl, rfl, rfl, rfl⟩
  obtain ⟨st, h, hpresent, hpc, hheld, hlive⟩ := hcalled
  exact ⟨st, h, hheld, hlive, no_wakeup_lost 1 2 .pinned calledRun st h hpresent (Or.inl hpc)⟩

end PaiSho.Wakeups
