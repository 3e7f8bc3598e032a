import PaiSho.SessionCore

/-!
# What one operation can do

Each component of the session after one operation, said once: the record of a
key, the grant of a port to a key, the code table and the pending table. Every
result about runs is derived from these step laws.
-/

set_option autoImplicit false

namespace PaiSho.SessionSteps
open Std (ExtTreeMap)
open PaiSho.GrantTable PaiSho.Enrollment PaiSho.SessionCore
open Library.OrderedMaps Library.Traces

section
variable {K : Type} [LinearOrder K]

/-- The successful claim an operation makes in a given state, if it makes one:
who presented the code, and what the code carried. -/
def claimBy (s : Session K) : Op K → Option (K × Claimed)
  | .onUnadmitted _ remote (.enroll token _) now =>
    (s.tokens.claim token now).2.map (fun c => (remote, c))
  | _ => none

/-- The operation grants `port` to `peer`. -/
def Grant (port : Port) (peer : K) (s : Session K) (op : Op K) : Prop :=
  (∃ grantees, op = .expose port grantees ∧ peer ∈ grantees) ∨
    ∃ c, claimBy s op = some (peer, c) ∧ port ∈ c.ports

/-- The operation revokes the grant of `port` to `peer`. -/
def Revoke (port : Port) (peer : K) (s : Session K) (op : Op K) : Prop :=
  op = .unexpose port none ∨ op = .unexpose port (some peer) ∨
    (op = .evict peer ∧ peer ∈ s.peers)

theorem claimBy_enroll (s : Session K) (conn : ConnId) (remote : K) (token : String)
    (version : Option String) (now : ℕ) :
    claimBy s (.onUnadmitted conn remote (.enroll token version) now) =
      (s.tokens.live token now).map (fun e => (remote, e.claimed)) := by
  simp only [claimBy, claim_result, Option.map_map]
  rfl

theorem onUnadmitted_claimed (s : Session K) (conn : ConnId) (remote : K) (token : String)
    (version : Option String) (now : ℕ) (c : Claimed)
    (h : (s.tokens.claim token now).2 = some c) :
    s.onUnadmitted conn remote (.enroll token version) now =
      (({ s with tokens := (s.tokens.claim token now).1 } : Session K).enrolled conn remote c,
        [.admitPeer conn remote false, .persistPin remote c.name] ++
          (if (s.earlyPorts conn).isEmpty then [] else [.applyPorts remote (s.earlyPorts conn)]) ++
          [(({ s with tokens := (s.tokens.claim token now).1 } : Session K).enrolled
            conn remote c).announce remote]) := by
  simp only [Session.onUnadmitted, h]

theorem onUnadmitted_refused (s : Session K) (conn : ConnId) (remote : K) (token : String)
    (version : Option String) (now : ℕ) (h : (s.tokens.claim token now).2 = none) :
    s.onUnadmitted conn remote (.enroll token version) now =
      ({ s with
          tokens := (s.tokens.claim token now).1
          pending := s.pending.erase conn }, [.refuse conn .notAuthorized]) := by
  simp only [Session.onUnadmitted, h]

theorem onUnadmitted_frame (s : Session K) (conn : ConnId) (remote : K) (msg : PeerMessage)
    (now : ℕ) (h : claimBy s (.onUnadmitted conn remote msg now) = none) :
    (s.onUnadmitted conn remote msg now).1.peers = s.peers ∧
      (s.onUnadmitted conn remote msg now).1.grants = s.grants := by
  cases msg with
  | enroll token version =>
    have hc : (s.tokens.claim token now).2 = none := by simpa [claimBy] using h
    rw [onUnadmitted_refused s conn remote token version now hc]
    exact ⟨rfl, rfl⟩
  | exposedPorts ports =>
    simp only [Session.onUnadmitted]
    cases s.pending[conn]? <;> exact ⟨rfl, rfl⟩
  | connect port => exact ⟨rfl, rfl⟩
  | error text => exact ⟨rfl, rfl⟩

def recordAfter (s : Session K) (op : Op K) (k : K) : Option Admitted :=
  match op with
  | .admitKnown key label admission =>
    if k = key then s.peers[k]?.or (some ⟨label, admission⟩) else s.peers[k]?
  | .evict key => if k = key then none else s.peers[k]?
  | _ =>
    match claimBy s op with
    | some (remote, c) => if k = remote then some ⟨c.name, .code⟩ else s.peers[k]?
    | none => s.peers[k]?

theorem step_peers (s : Session K) (op : Op K) (k : K) :
    (step s op).1.peers[k]? = recordAfter s op k := by
  cases op with
  | admitKnown key label admission =>
    simp only [step, Session.admitKnown, recordAfter, ExtTreeMap.contains_eq_isSome_getElem?]
    by_cases hk : k = key
    · subst hk
      cases hp : s.peers[k]? <;> simp [hp]
    · split_ifs <;> simp [lookup_insert, hk]
  | onInbound conn remote =>
    simp only [step, Session.onInbound, recordAfter, claimBy]
    split_ifs <;> rfl
  | onUnadmitted conn remote msg now =>
    simp only [step, recordAfter]
    cases hc : claimBy s (.onUnadmitted conn remote msg now) with
    | none => rw [(onUnadmitted_frame s conn remote msg now hc).1]
    | some rc =>
      cases msg with
      | enroll token version =>
        simp only [claimBy, Option.map_eq_some_iff] at hc
        obtain ⟨c, hc, rfl⟩ := hc
        rw [onUnadmitted_claimed s conn remote token version now c hc]
        simp only [Session.enrolled, lookup_insert]
      | exposedPorts ports => simp [claimBy] at hc
      | connect port => simp [claimBy] at hc
      | error text => simp [claimBy] at hc
  | onEnrollTimeout conn =>
    simp only [step, Session.onEnrollTimeout, recordAfter, claimBy]
    cases s.pending[conn]? <;> rfl
  | evict key =>
    simp only [step, Session.evict, recordAfter]
    cases hp : s.peers[key]? with
    | none =>
      by_cases hk : k = key <;> simp [hk, hp]
    | some a => simp [lookup_erase]
  | expose port grantees => rfl
  | unexpose port grantee => rfl
  | mintToken name ports bytes now => rfl

theorem not_revoke_onUnadmitted (s : Session K) (port : Port) (peer : K) (conn : ConnId)
    (remote : K) (msg : PeerMessage) (now : ℕ) :
    ¬ Revoke port peer s (.onUnadmitted conn remote msg now) := by
  simp [Revoke]

theorem step_allows (s : Session K) (op : Op K) (port : Port) (peer : K) :
    (step s op).1.grants.allows port peer ↔
      Grant port peer s op ∨ (s.grants.allows port peer ∧ ¬ Revoke port peer s op) := by
  cases op with
  | admitKnown key label admission =>
    have hg : (s.admitKnown key label admission).1.grants = s.grants := by
      unfold Session.admitKnown
      split_ifs <;> rfl
    simp [step, hg, Grant, Revoke, claimBy]
  | onInbound conn remote =>
    have hg : (s.onInbound conn remote).1.grants = s.grants := by
      unfold Session.onInbound
      split_ifs <;> rfl
    simp [step, hg, Grant, Revoke, claimBy]
  | onUnadmitted conn remote msg now =>
    have hr := not_revoke_onUnadmitted s port peer conn remote msg now
    simp only [step, Grant, hr, not_false_eq_true, and_true, reduceCtorEq, false_and, exists_false,
      false_or]
    cases hc : claimBy s (.onUnadmitted conn remote msg now) with
    | none =>
      rw [(onUnadmitted_frame s conn remote msg now hc).2]
      simp
    | some rc =>
      cases msg with
      | enroll token version =>
        simp only [claimBy, Option.map_eq_some_iff] at hc
        obtain ⟨c, hc, rfl⟩ := hc
        rw [onUnadmitted_claimed s conn remote token version now c hc]
        simp only [Session.enrolled, allows_addPorts, Option.some.injEq, Prod.mk.injEq]
        constructor
        · rintro (⟨hp, rfl⟩ | ha)
          · exact Or.inl ⟨c, ⟨rfl, rfl⟩, hp⟩
          · exact Or.inr ha
        · rintro (⟨d, ⟨rfl, rfl⟩, hp⟩ | ha)
          · exact Or.inl ⟨hp, rfl⟩
          · exact Or.inr ha
      | exposedPorts ports => simp [claimBy] at hc
      | connect port => simp [claimBy] at hc
      | error text => simp [claimBy] at hc
  | onEnrollTimeout conn =>
    have hg : (s.onEnrollTimeout conn).1.grants = s.grants := by
      unfold Session.onEnrollTimeout
      cases s.pending[conn]? <;> rfl
    simp [step, hg, Grant, Revoke, claimBy]
  | evict key =>
    have hmem : key ∈ s.peers ↔ s.peers[key]?.isSome := ExtTreeMap.mem_iff_isSome_getElem?
    simp only [step, Session.evict, Grant, Revoke, claimBy]
    cases hp : s.peers[key]? with
    | none =>
      have hnot : key ∉ s.peers := by simp [hmem, hp]
      have hne : ∀ h : key = peer, peer ∉ s.peers := fun h => h ▸ hnot
      simp
      exact fun _ h => hne h
    | some a =>
      have hin : key ∈ s.peers := by simp [hmem, hp]
      simp only [allows_revokeGrantee]
      constructor
      · rintro ⟨ha, hne⟩
        refine Or.inr ⟨ha, ?_⟩
        rintro (h | h | ⟨h, -⟩)
        · cases h
        · cases h
        · cases h
          exact hne rfl
      · rintro (h | ⟨ha, hn⟩)
        · simp at h
        · refine ⟨ha, ?_⟩
          rintro rfl
          exact hn (Or.inr (Or.inr ⟨rfl, hin⟩))
  | expose q grantees =>
    simp only [step, Session.expose, allows_addGrantees, Grant, Revoke, claimBy]
    simp [@eq_comm _ q port]
  | unexpose q grantee =>
    cases grantee with
    | none =>
      simp only [step, Session.unexpose, allows_remove_none, Grant, Revoke, claimBy]
      simp [@eq_comm _ q port]
    | some k =>
      simp only [step, Session.unexpose, allows_remove_some, Grant, Revoke, claimBy]
      simp [@eq_comm _ q port, @eq_comm _ k peer]
  | mintToken name ports bytes now => simp [step, Session.mintToken, Grant, Revoke, claimBy]

theorem step_tokens (s : Session K) (op : Op K) :
    (step s op).1.tokens = match op with
      | .onUnadmitted _ _ (.enroll token _) now => (s.tokens.claim token now).1
      | .mintToken name ports bytes now => (s.tokens.mint name ports bytes now).1
      | _ => s.tokens := by
  cases op with
  | admitKnown key label admission =>
    simp only [step, Session.admitKnown]
    split_ifs <;> rfl
  | onInbound conn remote =>
    simp only [step, Session.onInbound]
    split_ifs <;> rfl
  | onUnadmitted conn remote msg now =>
    cases msg with
    | enroll token version =>
      cases hc : (s.tokens.claim token now).2 with
      | none => simp only [step, onUnadmitted_refused s conn remote token version now hc]
      | some c =>
        simp only [step, onUnadmitted_claimed s conn remote token version now c hc,
          Session.enrolled]
    | exposedPorts ports =>
      simp only [step, Session.onUnadmitted]
      cases s.pending[conn]? <;> rfl
    | connect port => rfl
    | error text => rfl
  | onEnrollTimeout conn =>
    simp only [step, Session.onEnrollTimeout]
    cases s.pending[conn]? <;> rfl
  | evict key =>
    simp only [step, Session.evict]
    cases s.peers[key]? <;> rfl
  | expose port grantees => rfl
  | unexpose port grantee => rfl
  | mintToken name ports bytes now => rfl

def pendingAfter (s : Session K) (op : Op K) (conn : ConnId) : Option Pending :=
  match op with
  | .onInbound c remote =>
    if conn = c ∧ s.peers.contains remote = false then some {} else s.pending[conn]?
  | .onUnadmitted c _ (.enroll _ _) _ => if conn = c then none else s.pending[conn]?
  | .onUnadmitted c _ (.exposedPorts ports) _ =>
    if conn = c then s.pending[conn]?.map (fun p => { p with earlyPorts := some ports })
    else s.pending[conn]?
  | .onEnrollTimeout c => if conn = c then none else s.pending[conn]?
  | _ => s.pending[conn]?

theorem step_pending (s : Session K) (op : Op K) (conn : ConnId) :
    (step s op).1.pending[conn]? = pendingAfter s op conn := by
  cases op with
  | admitKnown key label admission =>
    simp only [step, Session.admitKnown, pendingAfter]
    split_ifs <;> rfl
  | onInbound c remote =>
    simp only [step, Session.onInbound, pendingAfter]
    cases hp : s.peers.contains remote with
    | true => simp
    | false => by_cases hc : conn = c <;> simp [hc, lookup_insert]
  | onUnadmitted c remote msg now =>
    cases msg with
    | enroll token version =>
      cases hc : (s.tokens.claim token now).2 with
      | none =>
        simp only [step, onUnadmitted_refused s c remote token version now hc, pendingAfter,
          lookup_erase]
      | some d =>
        simp only [step, onUnadmitted_claimed s c remote token version now d hc, pendingAfter,
          Session.enrolled, lookup_erase]
    | exposedPorts ports =>
      simp only [step, Session.onUnadmitted, pendingAfter]
      by_cases hc : conn = c
      · subst hc
        cases hp : s.pending[conn]? <;> simp [hp]
      · cases hp : s.pending[c]? <;> simp [hc, lookup_insert]
    | connect port => rfl
    | error text => rfl
  | onEnrollTimeout c =>
    simp only [step, Session.onEnrollTimeout, pendingAfter]
    by_cases hc : conn = c
    · subst hc
      cases hp : s.pending[conn]? <;> simp [hp]
    · cases hp : s.pending[c]? <;> simp [hc, lookup_erase]
  | evict key =>
    simp only [step, Session.evict, pendingAfter]
    cases s.peers[key]? <;> rfl
  | expose port grantees => rfl
  | unexpose port grantee => rfl
  | mintToken name ports bytes now => rfl

theorem mem_announceAll (s : Session K) (a : Action K) :
    a ∈ s.announceAll ↔ ∃ k, k ∈ s.peers ∧ a = s.announce k := by
  simp only [Session.announceAll, List.mem_map, ExtTreeMap.mem_keys, eq_comm]

/-- The actions of one operation, by what returned them: a known key arriving,
a valid claim, a refusal, an eviction, or a change of grants. -/
theorem step_actions (s : Session K) (op : Op K) (a : Action K) (h : a ∈ (step s op).2) :
    (∃ conn remote, op = .onInbound conn remote ∧ remote ∈ (step s op).1.peers ∧
      (a = .admitPeer conn remote true ∨ a = (step s op).1.announce remote)) ∨
    (∃ conn remote token version now c,
      op = .onUnadmitted conn remote (.enroll token version) now ∧
      claimBy s op = some (remote, c) ∧ remote ∈ (step s op).1.peers ∧
      (a = .admitPeer conn remote false ∨ a = .persistPin remote c.name ∨
        (s.earlyPorts conn ≠ [] ∧ a = .applyPorts remote (s.earlyPorts conn)) ∨
        a = (step s op).1.announce remote)) ∨
    (∃ conn remote token version now, op = .onUnadmitted conn remote (.enroll token version) now ∧
      claimBy s op = none ∧ a = .refuse conn .notAuthorized) ∨
    (∃ conn, op = .onEnrollTimeout conn ∧ conn ∈ s.pending ∧ a = .refuse conn .enrollTimeout) ∨
    (∃ peer, op = .evict peer ∧ peer ∈ s.peers ∧ a = .dropPin peer) ∨
    (((∃ port grantees, op = .expose port grantees) ∨ ∃ port grantee, op = .unexpose port grantee) ∧
      ∃ k, k ∈ (step s op).1.peers ∧ a = (step s op).1.announce k) := by
  cases op with
  | admitKnown key label admission => simp [step] at h
  | onInbound conn remote =>
    left
    refine ⟨conn, remote, rfl, ?_⟩
    simp only [step, Session.onInbound] at h ⊢
    split_ifs at h ⊢ with hp
    · exact ⟨ExtTreeMap.contains_iff_mem.mp hp, by simpa using h⟩
    · simp at h
  | onUnadmitted conn remote msg now =>
    cases msg with
    | enroll token version =>
      cases hc : (s.tokens.claim token now).2 with
      | none =>
        right; right; left
        simp only [step, onUnadmitted_refused s conn remote token version now hc,
          List.mem_singleton] at h
        exact ⟨conn, remote, token, version, now, rfl, by simp [claimBy, hc], h⟩
      | some c =>
        right; left
        simp only [step, onUnadmitted_claimed s conn remote token version now c hc] at h ⊢
        refine ⟨conn, remote, token, version, now, c, rfl, by simp [claimBy, hc], ?_, ?_⟩
        · simp [Session.enrolled]
        · by_cases he : s.earlyPorts conn = []
          · simpa [he] using h
          · simpa [he] using h
    | exposedPorts ports =>
      simp only [step, Session.onUnadmitted] at h
      cases hp : s.pending[conn]? <;> simp [hp] at h
    | connect port => simp [step, Session.onUnadmitted] at h
    | error text => simp [step, Session.onUnadmitted] at h
  | onEnrollTimeout conn =>
    right; right; right; left
    simp only [step, Session.onEnrollTimeout] at h
    cases hp : s.pending[conn]? with
    | none => simp [hp] at h
    | some p =>
      have hin : conn ∈ s.pending := by simp [ExtTreeMap.mem_iff_isSome_getElem?, hp]
      exact ⟨conn, rfl, hin, by simpa [hp] using h⟩
  | evict peer =>
    right; right; right; right; left
    simp only [step, Session.evict] at h
    cases hp : s.peers[peer]? with
    | none => simp [hp] at h
    | some r =>
      have hin : peer ∈ s.peers := by simp [ExtTreeMap.mem_iff_isSome_getElem?, hp]
      exact ⟨peer, rfl, hin, by simpa [hp] using h⟩
  | expose port grantees =>
    right; right; right; right; right
    exact ⟨Or.inl ⟨port, grantees, rfl⟩, (mem_announceAll _ a).mp h⟩
  | unexpose port grantee =>
    right; right; right; right; right
    exact ⟨Or.inr ⟨port, grantee, rfl⟩, (mem_announceAll _ a).mp h⟩
  | mintToken name ports bytes now => simp [step] at h

theorem step_admit (s : Session K) (op : Op K) (conn : ConnId) (peer : K) (replacing : Bool)
    (h : .admitPeer conn peer replacing ∈ (step s op).2) : peer ∈ (step s op).1.peers := by
  rcases step_actions s op _ h with ⟨c, r, -, hp, ha⟩ | ⟨c, r, t, v, n, d, -, -, hp, ha⟩ |
    ⟨c, r, t, v, n, -, -, ha⟩ | ⟨c, -, -, ha⟩ | ⟨k, -, -, ha⟩ | ⟨-, k, -, ha⟩
  · simp only [Session.announce, reduceCtorEq, or_false, Action.admitPeer.injEq] at ha
    exact ha.2.1 ▸ hp
  · simp only [Session.announce, reduceCtorEq, and_false, or_false, Action.admitPeer.injEq] at ha
    exact ha.2.1 ▸ hp
  · cases ha
  · cases ha
  · cases ha
  · cases ha

theorem step_announce (s : Session K) (op : Op K) (peer : K) (ports : List Port)
    (h : .announce peer ports ∈ (step s op).2) :
    peer ∈ (step s op).1.peers ∧ ports = (step s op).1.grants.portsFor peer := by
  rcases step_actions s op _ h with ⟨c, r, -, hp, ha⟩ | ⟨c, r, t, v, n, d, -, -, hp, ha⟩ |
    ⟨c, r, t, v, n, -, -, ha⟩ | ⟨c, -, -, ha⟩ | ⟨k, -, -, ha⟩ | ⟨-, k, hp, ha⟩
  · simp only [Session.announce, reduceCtorEq, false_or, Action.announce.injEq] at ha
    obtain ⟨rfl, rfl⟩ := ha
    exact ⟨hp, rfl⟩
  · simp only [Session.announce, reduceCtorEq, and_false, false_or, Action.announce.injEq] at ha
    obtain ⟨rfl, rfl⟩ := ha
    exact ⟨hp, rfl⟩
  · cases ha
  · cases ha
  · cases ha
  · simp only [Session.announce, Action.announce.injEq] at ha
    obtain ⟨rfl, rfl⟩ := ha
    exact ⟨hp, rfl⟩

theorem step_compact (s : Session K) (op : Op K) (h : s.grants.Compact) :
    (step s op).1.grants.Compact := by
  cases op with
  | admitKnown key label admission =>
    simp only [step, Session.admitKnown]
    split_ifs <;> exact h
  | onInbound conn remote =>
    simp only [step, Session.onInbound]
    split_ifs <;> exact h
  | onUnadmitted conn remote msg now =>
    cases msg with
    | enroll token version =>
      cases hc : (s.tokens.claim token now).2 with
      | none =>
        simp only [step, onUnadmitted_refused s conn remote token version now hc]
        exact h
      | some c =>
        simp only [step, onUnadmitted_claimed s conn remote token version now c hc]
        exact compact_addPorts _ c.ports remote h
    | exposedPorts ports =>
      simp only [step, Session.onUnadmitted]
      cases s.pending[conn]? <;> exact h
    | connect port => exact h
    | error text => exact h
  | onEnrollTimeout conn =>
    simp only [step, Session.onEnrollTimeout]
    cases s.pending[conn]? <;> exact h
  | evict key =>
    simp only [step, Session.evict]
    cases s.peers[key]? with
    | none => exact h
    | some a => exact compact_revokeGrantee _ key
  | expose port grantees => exact compact_addGrantees _ port grantees h
  | unexpose port grantee => exact compact_remove _ port grantee h
  | mintToken name ports bytes now => exact h

theorem after_compact (ops : List (Op K)) : (after ops).grants.Compact :=
  run_invariant step (fun s => s.grants.Compact) step_compact Session.new compact_empty ops

end
end PaiSho.SessionSteps
