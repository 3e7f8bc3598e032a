import Mathlib.Algebra.Order.Group.Nat
import Mathlib.Logic.Function.Iterate
import PaiSho.ConnectionLoop

/-!
# How dials are paced

The schedule of a peer never reached stands at zero until a dial comes back or
the loop is woken from its wait. A peer loaded from a pin is parked instead, and
being woken from there does not touch the schedule: when the connection it called
with drops, it is dialed with no wait at all. From the first dial or the first
wakeup from a wait on, every dial comes after a wait of one step at least.
-/

set_option autoImplicit false

namespace PaiSho.Pacing
open Library.Traces
open ConnectionLoop

def isFailure : Act → Bool
  | .errored => true
  | .timedOut => true
  | _ => false

def failures (acts : List Act) : ℕ := acts.countP isFailure

def climbed (first k : ℕ) : ℕ :=
  if first = 0 ∧ k = 0 then 0
  else if first = 0 then min (Backoff.initial*2^(k-1)) Backoff.maximum
  else min (Backoff.initial*2^k) Backoff.maximum

theorem failed_delay (b : Backoff) :
    Backoff.initial ≤ b.failed.delay ∧ b.failed.delay ≤ Backoff.maximum := by
  simp only [Backoff.failed, Backoff.delay, Backoff.initial, Backoff.maximum, Enrollment.second]
  omega

theorem connected_climb (k : ℕ) : Backoff.failed^[k] ⟨Backoff.initial⟩ =
    ⟨min (Backoff.initial*2^k) Backoff.maximum⟩ := by
  induction k with
  | zero => rfl
  | succ k ih =>
    have hpos : 1 ≤ 2^k := Nat.one_le_two_pow
    rw [Function.iterate_succ_apply', ih, Backoff.failed, Backoff.mk.injEq, pow_succ]
    simp only [Backoff.initial, Backoff.maximum, Enrollment.second]
    omega

theorem unreached_climb (k : ℕ) : Backoff.failed^[k+1] ⟨0⟩ =
    ⟨min (Backoff.initial*2^k) Backoff.maximum⟩ := by
  rw [Function.iterate_succ_apply]
  exact connected_climb k

theorem climbed_delay (b : Backoff) (h : b.delay = 0 ∨ b.delay = Backoff.initial) (k : ℕ) :
    (Backoff.failed^[k] b).delay = climbed b.delay k := by
  obtain ⟨next⟩ := b
  have hpos : Backoff.initial ≠ 0 := by decide
  rcases h with h | h
  · obtain rfl : next = 0 := h
    cases k with
    | zero => rfl
    | succ k =>
      show (Backoff.failed^[k+1] ⟨0⟩).delay = climbed 0 (k+1)
      rw [unreached_climb, climbed, if_neg (by simp), if_pos rfl]
      rfl
  · obtain rfl : next = Backoff.initial := h
    show (Backoff.failed^[k] ⟨Backoff.initial⟩).delay = climbed Backoff.initial k
    rw [connected_climb, climbed, if_neg fun hzero => hpos hzero.1, if_neg hpos]
    rfl

section
variable {K : Type} [LinearOrder K] (ours theirs : K) (origin : Origin)

structure Dial (acts pre : List Act) (st : Loop) : Prop where
  here : ∃ post, acts = pre ++ .slept :: post
  reached : Reached ours theirs origin pre st
  present : st.removed = false

def Held (pre : List Act) : Prop :=
  ∃ before after st, pre = before ++ after ∧ Reached ours theirs origin before st ∧
    st.slot.connection.isSome = true

def Found (pre : List Act) : Prop :=
  ∃ before after st, pre = before ++ .started :: after ∧ Reached ours theirs origin before st ∧
    st.slot.connection.isSome = true

/-- A dial comes after a wait of one step at least, or it is the first and the
peer was never connected. -/
def Paced (acts : List Act) : Prop :=
  ∀ pre st, Dial ours theirs origin acts pre st → Backoff.initial ≤ st.backoff.delay ∨
    (.slept ∉ pre ∧ ¬ Held ours theirs origin pre)

/-- If the peer was connected before the first dial, the loop began with that
connection or was woken from its wait. -/
def Noticed (acts : List Act) : Prop :=
  ∀ pre st, Dial ours theirs origin acts pre st → .slept ∉ pre → Held ours theirs origin pre →
    Found ours theirs origin pre ∨ .woken ∈ pre

/-- Failed dials in a row double the delay from its first value up to the
ceiling. They are counted from where the loop had no connection to serve. -/
def Climbs (acts : List Act) : Prop :=
  ∀ pre mid s st, acts = pre ++ mid → Reached ours theirs origin pre s → s.pc = .checking →
    exec (step ours theirs) s mid = some st → .connected ∉ mid → .woken ∉ mid →
    (s.backoff.delay = 0 ∨ s.backoff.delay = Backoff.initial) ∧
      st.backoff.delay = climbed s.backoff.delay (failures mid)

theorem reached_snoc (pre : List Act) (act : Act) (st' : Loop)
    (h : Reached ours theirs origin (pre ++ [act]) st') :
    ∃ st, Reached ours theirs origin pre st ∧ Stepped st act st' := by
  unfold Reached at h
  rw [exec_append] at h
  obtain ⟨st, hst, hact⟩ := Option.bind_eq_some_iff.mp h
  obtain ⟨t, ht, hend⟩ := Option.bind_eq_some_iff.mp hact
  obtain rfl := Option.some.inj hend
  exact ⟨st, hst, stepped_of_step ours theirs st t act ht⟩

theorem found_snoc (pre : List Act) (act : Act) (st : Loop) (h : Reached ours theirs origin pre st) :
    Found ours theirs origin (pre ++ [act]) ↔
      Found ours theirs origin pre ∨ (act = .started ∧ st.slot.connection.isSome = true) := by
  constructor
  · rintro ⟨before, after, s, hsplit, hs, hheld⟩
    rcases List.eq_nil_or_concat after with rfl | ⟨after', last, rfl⟩
    · obtain ⟨rfl, hlast⟩ := List.append_inj' hsplit rfl
      obtain rfl := Option.some.inj (hs.symm.trans h)
      exact Or.inr ⟨(List.cons.inj hlast).1, hheld⟩
    · rw [List.concat_eq_append, ← List.cons_append, ← List.append_assoc] at hsplit
      obtain ⟨hpre, -⟩ := List.append_inj' hsplit rfl
      exact Or.inl ⟨before, after', s, hpre, hs, hheld⟩
  · rintro (⟨before, after, s, rfl, hs, hheld⟩ | ⟨rfl, hheld⟩)
    · exact ⟨before, after ++ [act], s, by simp, hs, hheld⟩
    · exact ⟨pre, [], st, rfl, h, hheld⟩

def OnDial : Pc → Prop
  | .dialing => True
  | .dialed _ => True
  | .announcing => True
  | _ => False

def Outside : Pc → Prop
  | .top => True
  | .opening => True
  | .serving _ => True
  | .checking => True
  | .parked => True
  | _ => False

def Unreset : Pc → Prop
  | .start => False
  | .dialed _ => False
  | .announcing => False
  | _ => True

structure Moves (pc pc' : Pc) : Prop where
  start : pc' = .start → pc = .start
  outside : Outside pc' → Outside pc
  dialed : OnDial pc' → OnDial pc
  back : OnDial pc ∨ pc = .ended → OnDial pc' ∨ pc' = .ended
  unreset : Unreset pc → Unreset pc'

theorem moves_refl (pc : Pc) : Moves pc pc := ⟨id, id, id, id, id⟩

inductive Effect (st st' : Loop) : Act → Prop where
  | started (hpc : st.pc = .start) (hpc' : st'.pc = .top)
      (hbackoff : st'.backoff = if st.slot.connection.isSome then .connected else .unreached) :
      Effect st st' .started
  | woken (hpc : st.pc = .waiting) (hpc' : st'.pc = .top)
      (hbackoff : st'.backoff = st.backoff.reset) : Effect st st' .woken
  | slept (hpc : st.pc = .waiting) (hpc' : st'.pc = .dialing ∨ st'.pc = .ended)
      (hbackoff : st'.backoff = st.backoff) : Effect st st' .slept
  | failed (act : Act) (hact : isFailure act = true) (hpc : st.pc = .dialing)
      (hpc' : st'.pc = .waiting ∨ st'.pc = .ended) (hbackoff : st'.backoff = st.backoff.failed) :
      Effect st st' act
  | connected (conn : ℕ) (hpc : st.pc = .dialing) (hpc' : st'.pc = .dialed conn)
      (hbackoff : st'.backoff = st.backoff) : Effect st st' .connected
  | returned (act : Act) (hact : isFailure act = false)
      (hpc : OnDial st.pc ∧ ¬ Unreset st.pc) (hpc' : st'.pc = .top)
      (hbackoff : st'.backoff = st.backoff.reset) : Effect st st' act
  | moved (act : Act) (hact : act ≠ .started ∧ act ≠ .woken ∧ act ≠ .slept ∧ isFailure act = false)
      (hpc : Moves st.pc st'.pc) (hbackoff : st'.backoff = st.backoff) : Effect st st' act

theorem effect_of_stepped (st st' : Loop) (act : Act) (h : Stepped st act st') :
    Effect st st' act := by
  cases h with
  | started hpc => exact .started hpc rfl rfl
  | looked hpc =>
    refine .moved _ (by simp [isFailure]) ?_ rfl
    rw [hpc]
    dsimp only
    split_ifs <;> constructor <;> simp [OnDial, Outside, Unreset]
  | took conn hpc hheld =>
    refine .moved _ (by simp [isFailure]) ?_ rfl
    rw [hpc]
    constructor <;> simp [OnDial, Outside, Unreset]
  | tookNone hpc hnone =>
    refine .moved _ (by simp [isFailure]) ?_ rfl
    rw [hpc]
    constructor <;> simp [OnDial, Outside, Unreset]
  | dropped conn hpc hclosed =>
    refine .moved _ (by simp [isFailure]) ?_ rfl
    rw [hpc]
    constructor <;> simp [OnDial, Outside, Unreset]
  | checked hpc =>
    refine .moved _ (by simp [isFailure]) ?_ rfl
    rw [hpc]
    dsimp only
    split_ifs <;> constructor <;> simp [OnDial, Outside, Unreset]
  | unparked hpc hpermit =>
    refine .moved _ (by simp [isFailure]) ?_ rfl
    rw [hpc]
    dsimp only
    split_ifs <;> constructor <;> simp [OnDial, Outside, Unreset]
  | woken hpc hpermit => exact .woken hpc rfl rfl
  | slept hpc =>
    refine .slept hpc ?_ rfl
    dsimp only
    split_ifs <;> simp
  | failed act hact hpc =>
    refine .failed act ?_ hpc ?_ rfl
    · rcases hact with rfl | rfl <;> rfl
    · dsimp only
      split_ifs <;> simp
  | connected hpc => exact .connected _ hpc rfl rfl
  | replaced conn hpc =>
    refine .moved _ (by simp [isFailure]) ?_ rfl
    rw [hpc]
    constructor <;> simp [OnDial, Outside, Unreset]
  | kept conn hpc => exact .returned _ rfl (by simp [hpc, OnDial, Unreset]) rfl rfl
  | announced hpc => exact .returned _ rfl (by simp [hpc, OnDial, Unreset]) rfl rfl
  | arrived hpresent => exact .moved _ (by simp [isFailure]) (moves_refl _) rfl
  | installed conn hc => exact .moved _ (by simp [isFailure]) (moves_refl _) rfl
  | refused conn hc => exact .moved _ (by simp [isFailure]) (moves_refl _) rfl
  | marked conn hc => exact .moved _ (by simp [isFailure]) (moves_refl _) rfl
  | notified conn hc => exact .moved _ (by simp [isFailure]) (moves_refl _) rfl
  | lost conn hopened => exact .moved _ (by simp [isFailure]) (moves_refl _) rfl
  | evicted hpresent => exact .moved _ (by simp [isFailure]) (moves_refl _) rfl
  | cleared hevicting => exact .moved _ (by simp [isFailure]) (moves_refl _) rfl

/-- What the run so far says of the schedule: it stands at zero until the loop
finds a connection at its start, is woken, or comes back from a dial. -/
structure Schedule (pre : List Act) (st : Loop) : Prop where
  bounded : st.backoff.delay ≤ Backoff.maximum
  start : st.pc = .start → st.backoff.delay = 0
  outside : Outside st.pc → st.backoff.delay = 0 ∨ st.backoff.delay = Backoff.initial
  dialed : OnDial st.pc → .slept ∈ pre
  low : st.backoff.delay < Backoff.initial → st.backoff.delay = 0 ∧
    ¬ Found ours theirs origin pre ∧ .woken ∉ pre ∧ (.slept ∈ pre → OnDial st.pc ∨ st.pc = .ended)
  high : Backoff.initial ≤ st.backoff.delay →
    Found ours theirs origin pre ∨ .woken ∈ pre ∨ .slept ∈ pre

theorem schedule_kept (pre : List Act) (st st' : Loop) (act : Act)
    (hr : Reached ours theirs origin pre st) (h : Schedule ours theirs origin pre st)
    (hact : act ≠ .started ∧ act ≠ .woken ∧ act ≠ .slept) (hbackoff : st'.backoff = st.backoff)
    (hstart : st'.pc = .start → st.pc = .start) (houtside : Outside st'.pc → Outside st.pc)
    (hdialed : OnDial st'.pc → OnDial st.pc)
    (hback : OnDial st.pc ∨ st.pc = .ended → OnDial st'.pc ∨ st'.pc = .ended) :
    Schedule ours theirs origin (pre ++ [act]) st' := by
  obtain ⟨hstarted, hwoken, hslept⟩ := hact
  have hfound : Found ours theirs origin (pre ++ [act]) ↔ Found ours theirs origin pre := by
    rw [found_snoc ours theirs origin pre act st hr]
    simp [hstarted]
  have hwoken' : Act.woken ∈ pre ++ [act] ↔ .woken ∈ pre := by simp [Ne.symm hwoken]
  have hslept' : Act.slept ∈ pre ++ [act] ↔ .slept ∈ pre := by simp [Ne.symm hslept]
  constructor
  case bounded => exact hbackoff ▸ h.bounded
  case start =>
    intro hpc
    rw [hbackoff]
    exact h.start (hstart hpc)
  case outside =>
    intro hout
    rw [hbackoff]
    exact h.outside (houtside hout)
  case dialed =>
    intro hon
    rw [hslept']
    exact h.dialed (hdialed hon)
  case low =>
    rw [hbackoff, hfound, hwoken', hslept']
    intro hlow
    obtain ⟨hzero, hnone, hasleep, hon⟩ := h.low hlow
    exact ⟨hzero, hnone, hasleep, fun hin => hback (hon hin)⟩
  case high =>
    rw [hbackoff, hfound, hwoken', hslept']
    exact h.high

theorem schedule_set (pre : List Act) (st : Loop)
    (hdelay : Backoff.initial ≤ st.backoff.delay ∧ st.backoff.delay ≤ Backoff.maximum)
    (hcause : Found ours theirs origin pre ∨ .woken ∈ pre ∨ .slept ∈ pre)
    (hstart : st.pc ≠ .start) (hdialed : ¬ OnDial st.pc)
    (houtside : Outside st.pc → st.backoff.delay = Backoff.initial) :
    Schedule ours theirs origin pre st := by
  constructor
  case bounded => exact hdelay.2
  case start => exact fun hpc => absurd hpc hstart
  case outside => exact fun hout => Or.inr (houtside hout)
  case dialed => exact fun hon => absurd hon hdialed
  case low =>
    intro hlow
    omega
  case high => exact fun _ => hcause

theorem schedule_reset (pre : List Act) (st : Loop) (hpc : st.pc = .top)
    (hdelay : st.backoff.delay = Backoff.initial)
    (hcause : Found ours theirs origin pre ∨ .woken ∈ pre ∨ .slept ∈ pre) :
    Schedule ours theirs origin pre st := by
  have hbound : Backoff.initial ≤ Backoff.maximum := by decide
  refine schedule_set ours theirs origin pre st (by omega) hcause ?_ ?_ fun _ => hdelay
  · rw [hpc]
    simp
  · rw [hpc]
    exact id

theorem schedule_step (pre : List Act) (st st' : Loop) (act : Act)
    (hr : Reached ours theirs origin pre st) (h : Schedule ours theirs origin pre st)
    (hstep : Effect st st' act) : Schedule ours theirs origin (pre ++ [act]) st' := by
  have hpast : OnDial st.pc → .slept ∈ pre ++ [act] := by
    intro hon
    exact List.mem_append_left _ (h.dialed hon)
  cases hstep with
  | started hpc hpc' hbackoff =>
    have hlow : st.backoff.delay < Backoff.initial := by
      rw [h.start hpc]
      decide
    obtain ⟨-, hnone, hasleep, hon⟩ := h.low hlow
    cases hheld : st.slot.connection with
    | some conn =>
      rw [hheld] at hbackoff
      refine schedule_reset ours theirs origin _ st' hpc' (by rw [hbackoff]; rfl) (Or.inl ?_)
      rw [found_snoc ours theirs origin pre _ st hr]
      exact Or.inr ⟨rfl, by simp [hheld]⟩
    | none =>
      rw [hheld] at hbackoff
      have hzero : st'.backoff.delay = 0 := by
        rw [hbackoff]
        rfl
      have hfirst : Act.slept ∉ pre ++ [.started] := by
        intro hin
        have hslept : Act.slept ∈ pre := by simpa using hin
        rcases hon hslept with hd | hd <;> rw [hpc] at hd
        · exact hd
        · cases hd
      constructor
      case bounded =>
        rw [hzero]
        exact Nat.zero_le _
      case start => simp [hpc']
      case outside => exact fun _ => Or.inl hzero
      case dialed =>
        rw [hpc']
        exact fun hd => hd.elim
      case low =>
        rw [found_snoc ours theirs origin pre _ st hr]
        exact fun _ => ⟨hzero, by simp [hnone, hheld], by simp [hasleep], fun hin => absurd hin hfirst⟩
      case high =>
        rw [hzero]
        exact fun hhigh => absurd hhigh (by decide)
  | woken hpc hpc' hbackoff =>
    exact schedule_reset ours theirs origin _ st' hpc' (by rw [hbackoff]; rfl)
      (Or.inr (Or.inl (by simp)))
  | slept hpc hpc' hbackoff =>
    constructor
    case bounded => exact hbackoff ▸ h.bounded
    case start => rcases hpc' with hd | hd <;> simp [hd]
    case outside => rcases hpc' with hd | hd <;> simp [hd, Outside]
    case dialed => exact fun _ => by simp
    case low =>
      rw [hbackoff, found_snoc ours theirs origin pre _ st hr]
      intro hlow
      obtain ⟨hzero, hnone, hasleep, -⟩ := h.low hlow
      refine ⟨hzero, by simp [hnone], by simp [hasleep], fun _ => ?_⟩
      rcases hpc' with hd | hd <;> simp [hd, OnDial]
    case high => exact fun _ => Or.inr (Or.inr (by simp))
  | failed act hact hpc hpc' hbackoff =>
    have hdialing : OnDial st.pc := by
      rw [hpc]
      trivial
    refine schedule_set ours theirs origin _ st' (hbackoff ▸ failed_delay st.backoff)
      (Or.inr (Or.inr (hpast hdialing))) ?_ ?_ ?_
    · rcases hpc' with hd | hd <;> simp [hd]
    · rcases hpc' with hd | hd <;> simp [hd, OnDial]
    · rcases hpc' with hd | hd <;> simp [hd, Outside]
  | connected conn hpc hpc' hbackoff =>
    refine schedule_kept ours theirs origin pre st st' _ hr h (by simp) hbackoff ?_ ?_ ?_ ?_ <;>
      rw [hpc, hpc'] <;> simp [OnDial, Outside]
  | returned act hact hpc hpc' hbackoff =>
    exact schedule_reset ours theirs origin _ st' hpc' (by rw [hbackoff]; rfl)
      (Or.inr (Or.inr (hpast hpc.1)))
  | moved act hact hpc hbackoff =>
    exact schedule_kept ours theirs origin pre st st' act hr h ⟨hact.1, hact.2.1, hact.2.2.1⟩ hbackoff
      hpc.start hpc.outside hpc.dialed hpc.back

theorem schedule_reached (acts : List Act) (st : Loop) (h : Reached ours theirs origin acts st) :
    Schedule ours theirs origin acts st := by
  induction acts using List.reverseRecOn generalizing st with
  | nil =>
    obtain rfl := Option.some.inj h
    have hzero : origin.loop.backoff.delay = 0 := by cases origin <;> rfl
    have hpc : origin.loop.pc = .start := by cases origin <;> rfl
    constructor
    case bounded =>
      rw [hzero]
      exact Nat.zero_le _
    case start => exact fun _ => hzero
    case outside => exact fun _ => Or.inl hzero
    case dialed =>
      rw [hpc]
      exact fun hon => hon.elim
    case low =>
      refine fun _ => ⟨hzero, ?_, by simp, by simp⟩
      rintro ⟨before, after, s, hsplit, -⟩
      simp at hsplit
    case high =>
      rw [hzero]
      exact fun hhigh => absurd hhigh (by decide)
  | append_singleton acts act ih =>
    obtain ⟨s, hs, hstep⟩ := reached_snoc ours theirs origin acts act st h
    exact schedule_step ours theirs origin acts s st act hs (ih s hs)
      (effect_of_stepped s st act hstep)

theorem dial_waits (acts pre : List Act) (st last : Loop)
    (h : Reached ours theirs origin acts last) (hdial : Dial ours theirs origin acts pre st) :
    st.pc = .waiting := by
  obtain ⟨post, rfl⟩ := hdial.here
  unfold Reached at h
  rw [exec_append, hdial.reached, Option.bind_some] at h
  obtain ⟨t, ht, -⟩ := Option.bind_eq_some_iff.mp h
  cases stepped_of_step ours theirs st t .slept ht with
  | slept hpc => exact hpc
  | failed _ hact _ => simp at hact

theorem paced_iff (acts : List Act) (last : Loop) (h : Reached ours theirs origin acts last) :
    Paced ours theirs origin acts ↔ Noticed ours theirs origin acts := by
  constructor
  · intro hpaced pre st hdial hfirst hheld
    have hschedule := schedule_reached ours theirs origin pre st hdial.reached
    rcases hpaced pre st hdial with hdelay | ⟨-, hnever⟩
    · rcases hschedule.high hdelay with hfound | hwoken | hslept
      · exact Or.inl hfound
      · exact Or.inr hwoken
      · exact absurd hslept hfirst
    · exact absurd hheld hnever
  · intro hnoticed pre st hdial
    have hschedule := schedule_reached ours theirs origin pre st hdial.reached
    have hpc := dial_waits ours theirs origin acts pre st last h hdial
    by_cases hdelay : Backoff.initial ≤ st.backoff.delay
    · exact Or.inl hdelay
    · obtain ⟨-, hnone, hasleep, hon⟩ := hschedule.low (by omega)
      have hfirst : .slept ∉ pre := by
        intro hin
        rcases hon hin with hd | hd <;> rw [hpc] at hd
        · exact hd
        · cases hd
      refine Or.inr ⟨hfirst, fun hheld => ?_⟩
      rcases hnoticed pre st hdial hfirst hheld with hfound | hwoken
      · exact hnone hfound
      · exact hasleep hwoken

theorem unreset_step (st st' : Loop) (act : Act) (hpc : Unreset st.pc) (hconnected : act ≠ .connected)
    (hwoken : act ≠ .woken) (h : Effect st st' act) :
    Unreset st'.pc ∧ st'.backoff = if isFailure act then st.backoff.failed else st.backoff := by
  cases h with
  | started hat hto hbackoff =>
    rw [hat] at hpc
    exact hpc.elim
  | woken hat hto hbackoff => exact absurd rfl hwoken
  | slept hat hto hbackoff =>
    refine ⟨?_, hbackoff⟩
    rcases hto with hd | hd <;> rw [hd] <;> trivial
  | failed act hact hat hto hbackoff =>
    refine ⟨?_, by rw [if_pos hact, hbackoff]⟩
    rcases hto with hd | hd <;> rw [hd] <;> trivial
  | connected conn hat hto hbackoff => exact absurd rfl hconnected
  | returned act hact hat hto hbackoff => exact absurd hpc hat.2
  | moved act hact hat hbackoff =>
    exact ⟨hat.unreset hpc, by rw [hact.2.2.2]; exact hbackoff⟩

theorem backoff_unreset (acts : List Act) (st st' : Loop) (hpc : Unreset st.pc)
    (hconnected : .connected ∉ acts) (hwoken : .woken ∉ acts)
    (h : exec (step ours theirs) st acts = some st') :
    st'.backoff = Backoff.failed^[failures acts] st.backoff := by
  induction acts generalizing st with
  | nil =>
    obtain rfl := Option.some.inj h
    rfl
  | cons act acts ih =>
    obtain ⟨t, ht, hrest⟩ := Option.bind_eq_some_iff.mp h
    obtain ⟨hpc', hbackoff⟩ := unreset_step st t act hpc (fun heq => hconnected (by simp [heq]))
      (fun heq => hwoken (by simp [heq]))
      (effect_of_stepped st t act (stepped_of_step ours theirs st t act ht))
    rw [ih t hpc' (fun hin => hconnected (by simp [hin])) (fun hin => hwoken (by simp [hin])) hrest,
      hbackoff, failures, failures, List.countP_cons]
    split_ifs with hfails
    · rw [Function.iterate_succ_apply]
    · rfl

theorem climbs_reached (acts : List Act) : Climbs ours theirs origin acts := by
  intro pre mid s st _ hs hpc hst hconnected hwoken
  have houtside := (schedule_reached ours theirs origin pre s hs).outside (by rw [hpc]; trivial)
  refine ⟨houtside, ?_⟩
  rw [backoff_unreset ours theirs mid s st (by rw [hpc]; trivial) hconnected hwoken hst]
  exact climbed_delay s.backoff houtside _

/-- Over every run: dials are paced exactly when a connection held before the
first of them was noticed; no wait is longer than the ceiling; and failed dials in
a row climb to it. -/
theorem paced_when_noticed (acts : List Act) (st : Loop) (h : Reached ours theirs origin acts st) :
    (Paced ours theirs origin acts ↔ Noticed ours theirs origin acts) ∧
      (st.pc = .waiting → st.backoff.delay ≤ Backoff.maximum) ∧ Climbs ours theirs origin acts :=
  ⟨paced_iff ours theirs origin acts st h,
    fun _ => (schedule_reached ours theirs origin acts st h).bounded,
    climbs_reached ours theirs origin acts⟩

end

def droppedRun : List Act :=
  [.started, .looked, .took, .lost 0, .dropped, .checked, .slept, .errored, .slept]

theorem dropped_waits : ∃ st, Reached (1 : ℕ) 2 .enrolled droppedRun st ∧
    Paced (1 : ℕ) 2 .enrolled droppedRun := by
  have hrun : ∃ st, Reached (1 : ℕ) 2 .enrolled droppedRun st := ⟨_, rfl⟩
  obtain ⟨st, hst⟩ := hrun
  refine ⟨st, hst, (paced_when_noticed (1 : ℕ) 2 .enrolled droppedRun st hst).1.mpr ?_⟩
  intro pre s hdial _ _
  obtain ⟨post, hsplit⟩ := hdial.here
  cases pre with
  | nil => cases hsplit
  | cons act pre =>
    obtain ⟨rfl, -⟩ := List.cons.inj hsplit
    exact Or.inl ⟨[], pre, _, rfl, rfl, rfl⟩

def calledOnce : List Act :=
  [.started, .looked, .checked, .arrived, .installed 0, .marked 0, .notified 0, .unparked, .looked,
    .took, .lost 0, .dropped, .checked]

/-- It is dialed with no wait. -/
theorem called_once_redialed : (∃ st, Reached (1 : ℕ) 2 .pinned (calledOnce ++ [.slept]) st) ∧
    ¬ Paced (1 : ℕ) 2 .pinned (calledOnce ++ [.slept]) := by
  refine ⟨⟨_, rfl⟩, fun hpaced => ?_⟩
  have hrun : ∃ st, Reached (1 : ℕ) 2 .pinned calledOnce st ∧ st.removed = false ∧
      st.backoff.delay = 0 := ⟨_, rfl, rfl, rfl⟩
  obtain ⟨st, hst, hpresent, hzero⟩ := hrun
  have hheld : Held (1 : ℕ) 2 .pinned calledOnce :=
    ⟨calledOnce.take 5, calledOnce.drop 5, _, rfl, rfl, rfl⟩
  rcases hpaced calledOnce st ⟨⟨[], rfl⟩, hst, hpresent⟩ with hdelay | ⟨-, hnever⟩
  · rw [hzero] at hdelay
    exact absurd hdelay (by decide)
  · exact hnever hheld

end PaiSho.Pacing
