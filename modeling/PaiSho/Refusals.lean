import PaiSho.SessionSteps

/-!
# Who is refused

The core judges a connection on arrival and does not note whose it is. If the
key is admitted while the connection waits, by another connection's code or by
a call that names it, the connection keeps waiting, and a code that is spent by
then or the end of its time gets it refused. Where no key is admitted while
another connection of it waits, only strangers are refused.
-/

set_option autoImplicit false

namespace PaiSho.Refusals
open Std (ExtTreeMap)
open PaiSho.GrantTable PaiSho.Enrollment PaiSho.SessionCore PaiSho.SessionSteps
open Library.OrderedMaps Library.Traces

section
variable {K : Type} [LinearOrder K] (owner : ConnId → K)

def Owned : Op K → Prop
  | .onInbound conn remote => remote = owner conn
  | .onUnadmitted conn remote _ _ => remote = owner conn
  | _ => True

/-- A message is fed to the core only while its connection is pending. -/
def Fed (s : Session K) : Op K → Prop
  | .onUnadmitted conn _ _ _ => conn ∈ s.pending
  | _ => True

/-- The operation admits no key while another connection of that key waits. -/
def Orderly (s : Session K) : Op K → Prop
  | .admitKnown key _ _ => ∀ conn ∈ s.pending, owner conn ≠ key
  | .onUnadmitted conn remote (.enroll token _) now => (s.tokens.live token now).isSome →
    ∀ other ∈ s.pending, other ≠ conn → owner other ≠ remote
  | _ => True

/-- The operation, made after this run, refuses no connection of an admitted
peer. -/
def RefusesStrangers (ops : List (Op K)) (op : Op K) : Prop :=
  ∀ conn reason, .refuse conn reason ∈ (step (after ops) op).2 → owner conn ∉ (after ops).peers

def Strangers (s : Session K) : Prop := ∀ conn ∈ s.pending, owner conn ∉ s.peers

theorem mem_pending (s : Session K) (conn : ConnId) :
    conn ∈ s.pending ↔ s.pending[conn]?.isSome := ExtTreeMap.mem_iff_isSome_getElem?

theorem mem_peers (s : Session K) (k : K) : k ∈ s.peers ↔ s.peers[k]?.isSome :=
  ExtTreeMap.mem_iff_isSome_getElem?

/-- Who waits after one operation: who waited before, but for the connection
that got its verdict, and a connection that just arrived from a stranger. -/
theorem pending_after (s : Session K) (op : Op K) (conn : ConnId)
    (h : conn ∈ (step s op).1.pending) :
    (∃ remote, op = .onInbound conn remote ∧ remote ∉ s.peers) ∨
      conn ∈ s.pending ∧ ∀ remote token version now,
        op ≠ .onUnadmitted conn remote (.enroll token version) now := by
  rw [mem_pending, step_pending] at h
  rw [mem_pending]
  cases op with
  | onInbound c remote =>
    simp only [pendingAfter] at h
    split_ifs at h with hc
    · obtain ⟨rfl, hnew⟩ := hc
      refine Or.inl ⟨remote, rfl, fun hin => ?_⟩
      rw [ExtTreeMap.contains_iff_mem.mpr hin] at hnew
      cases hnew
    · exact Or.inr ⟨h, by simp⟩
  | onUnadmitted c remote msg now =>
    refine Or.inr ?_
    cases msg with
    | enroll token version =>
      simp only [pendingAfter] at h
      split_ifs at h with hc
      · cases h
      · exact ⟨h, fun _ _ _ _ heq => hc (Op.onUnadmitted.inj heq).1.symm⟩
    | exposedPorts ports =>
      simp only [pendingAfter] at h
      split_ifs at h with hc
      · exact ⟨by simpa using h, by simp⟩
      · exact ⟨h, by simp⟩
    | connect port => exact ⟨h, by simp⟩
    | error text => exact ⟨h, by simp⟩
  | onEnrollTimeout c =>
    simp only [pendingAfter] at h
    split_ifs at h with hc
    · cases h
    · exact Or.inr ⟨h, by simp⟩
  | _ => exact Or.inr ⟨h, by simp⟩

theorem admitted_after (s : Session K) (op : Op K) (k : K) (h : k ∈ (step s op).1.peers) :
    k ∈ s.peers ∨ (∃ label admission, op = .admitKnown k label admission) ∨
      ∃ conn token version now, op = .onUnadmitted conn k (.enroll token version) now ∧
        (s.tokens.live token now).isSome := by
  rw [mem_peers, step_peers] at h
  rw [mem_peers]
  cases op with
  | admitKnown key label admission =>
    simp only [recordAfter] at h
    split_ifs at h with hk
    · subst hk
      exact Or.inr (Or.inl ⟨label, admission, rfl⟩)
    · exact Or.inl h
  | onUnadmitted conn remote msg now =>
    cases msg with
    | enroll token version =>
      simp only [recordAfter, claimBy_enroll] at h
      cases hl : s.tokens.live token now with
      | none =>
        rw [hl] at h
        exact Or.inl h
      | some e =>
        simp only [hl, Option.map_some] at h
        split_ifs at h with hk
        · subst hk
          exact Or.inr (Or.inr ⟨conn, token, version, now, rfl, by simp [hl]⟩)
        · exact Or.inl h
    | _ => exact Or.inl h
  | evict key =>
    simp only [recordAfter] at h
    split_ifs at h
    · cases h
    · exact Or.inl h
  | _ => exact Or.inl h

theorem strangers_step (s : Session K) (op : Op K) (hown : Owned owner op)
    (hord : Orderly owner s op) (hs : Strangers owner s) : Strangers owner (step s op).1 := by
  intro conn hwait hin
  rcases admitted_after s op (owner conn) hin with hold | ⟨label, admission, rfl⟩ |
    ⟨c, token, version, now, rfl, hlive⟩
  · rcases pending_after s op conn hwait with ⟨remote, rfl, hnew⟩ | ⟨hwaited, -⟩
    · exact hnew (hown ▸ hold)
    · exact hs conn hwaited hold
  · rcases pending_after s _ conn hwait with ⟨remote, heq, -⟩ | ⟨hwaited, -⟩
    · cases heq
    · exact hord conn hwaited rfl
  · rcases pending_after s _ conn hwait with ⟨remote, heq, -⟩ | ⟨hwaited, hother⟩
    · cases heq
    · refine hord hlive conn hwaited ?_ rfl
      rintro rfl
      exact hother _ token version now rfl

theorem strangers_run (ops : List (Op K)) (hown : ∀ op ∈ ops, Owned owner op)
    (hord : ∀ e ∈ history ops, Orderly owner e.before e.input) : Strangers owner (after ops) := by
  unfold after
  unfold history at hord
  induction ops using List.reverseRecOn with
  | nil =>
    intro conn hwait
    exact absurd hwait ExtTreeMap.not_mem_empty
  | append_singleton ops op ih =>
    rw [run_snoc]
    rw [trace_snoc] at hord
    have hbefore := ih (fun o ho => hown o (by simp [ho])) (fun e he => hord e (by simp [he]))
    exact strangers_step owner _ op (hown op (by simp))
      (hord (event step (run step Session.new ops) op) (by simp)) hbefore

theorem refused_waits (s : Session K) (op : Op K) (conn : ConnId) (reason : Refusal)
    (hfed : Fed s op) (h : .refuse conn reason ∈ (step s op).2) : conn ∈ s.pending := by
  rcases step_actions s op _ h with ⟨c, r, -, -, ha⟩ | ⟨c, r, t, v, n, d, -, -, -, ha⟩ |
    ⟨c, r, t, v, n, rfl, -, ha⟩ | ⟨c, rfl, hin, ha⟩ | ⟨k, -, -, ha⟩ | ⟨-, k, -, ha⟩
  · simp [Session.announce] at ha
  · simp [Session.announce] at ha
  · obtain ⟨rfl, -⟩ := Action.refuse.inj ha
    exact hfed
  · obtain ⟨rfl, -⟩ := Action.refuse.inj ha
    exact hin
  · cases ha
  · cases ha

/-- In a run that admits no key while another connection of it waits, no admitted
peer is refused by whatever comes next. In any run that is so exactly when none
of the waiting connections is an admitted peer's. -/
theorem refused_not_admitted (ops : List (Op K)) (hown : ∀ op ∈ ops, Owned owner op) :
    ((∀ e ∈ history ops, Orderly owner e.before e.input) →
      ∀ op, Fed (after ops) op → RefusesStrangers owner ops op) ∧
    ((∀ op, Fed (after ops) op → RefusesStrangers owner ops op) ↔
      Strangers owner (after ops)) := by
  have hback : Strangers owner (after ops) →
      ∀ op, Fed (after ops) op → RefusesStrangers owner ops op := by
    intro hs op hfed conn reason hrefuse
    exact hs conn (refused_waits (after ops) op conn reason hfed hrefuse)
  refine ⟨fun hord => hback (strangers_run owner ops hown hord), fun h => ?_, hback⟩
  intro conn hwait
  -- a connection that waits is refused when its time is up
  refine h (.onEnrollTimeout conn) trivial conn .enrollTimeout ?_
  obtain ⟨p, hp⟩ := Option.isSome_iff_exists.mp ((mem_pending (after ops) conn).mp hwait)
  simp [step, Session.onEnrollTimeout, hp]

end

def claimedBeside : List (Op ℕ) :=
  [.mintToken (some "rustdev") [] (Vector.replicate 32 0) 0, .onInbound 1 7, .onInbound 2 8,
    .onUnadmitted 1 7 (.enroll (hexToken (Vector.replicate 32 0)) none) 1]

def dialer (conn : ConnId) : ℕ := if conn = 1 then 7 else 8

/-- The other presents the code when it is spent. -/
theorem wrong_code_refused :
    (after claimedBeside).peers.contains 7 = true ∧
    .refuse 2 .notAuthorized ∈ (step (after claimedBeside)
      (.onUnadmitted 2 8 (.enroll (hexToken (Vector.replicate 32 0)) none) 2)).2 ∧
    RefusesStrangers dialer claimedBeside
      (.onUnadmitted 2 8 (.enroll (hexToken (Vector.replicate 32 0)) none) 2) := by
  refine ⟨by decide +kernel, by decide +kernel, ?_⟩
  refine (refused_not_admitted dialer claimedBeside ?_).1 ?_ _ ?_
  · simp [claimedBeside, Owned, dialer]
  · intro e he
    have hin : e.input ∈ claimedBeside := by
      rw [← trace_inputs step Session.new claimedBeside]
      exact List.mem_map_of_mem he
    simp only [claimedBeside, List.mem_cons, List.not_mem_nil, or_false] at hin
    rcases hin with h | h | h | h <;> rw [h]
    · trivial
    · trivial
    · trivial
    · intro _ other _ hother
      rw [dialer, if_neg hother]
      decide
  · show 2 ∈ (after claimedBeside).pending
    decide +kernel

/-- A peer that dials again before its first connection has claimed presents the
code a second time. -/
def dialedTwice : List (Op ℕ) :=
  [.mintToken (some "rustdev") [] (Vector.replicate 32 0) 0, .onInbound 1 7, .onInbound 2 7,
    .onUnadmitted 1 7 (.enroll (hexToken (Vector.replicate 32 0)) none) 1]

theorem dialed_twice_refused : (∀ op ∈ dialedTwice, Owned (fun _ => 7) op) ∧
    Fed (after dialedTwice) (.onUnadmitted 2 7 (.enroll (hexToken (Vector.replicate 32 0)) none) 2) ∧
    ¬ RefusesStrangers (fun _ => 7) dialedTwice
      (.onUnadmitted 2 7 (.enroll (hexToken (Vector.replicate 32 0)) none) 2) := by
  refine ⟨?_, ?_, fun h => h 2 .notAuthorized ?_ ?_⟩
  · simp [dialedTwice, Owned]
  · show 2 ∈ (after dialedTwice).pending
    decide +kernel
  · decide +kernel
  · decide +kernel

end PaiSho.Refusals
