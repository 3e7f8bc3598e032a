import PaiSho.Authorization

/-!
# What is announced, listed and enforced is one set

Five readings of the grant table are computed separately: the tunnel verdict,
the list announced to a peer, the listing of all grants, the distinct ports,
and the actions an operation returns. In every reachable state they agree.
-/

set_option autoImplicit false

namespace PaiSho.Announcements
open Std (ExtTreeMap)
open PaiSho.GrantTable PaiSho.Enrollment PaiSho.SessionCore PaiSho.SessionSteps
open PaiSho.Authorization Library.OrderedMaps Library.Traces

section
variable {K : Type} [LinearOrder K]

/-- `ports` is the served set of `peer`, in strictly ascending order. -/
def ServedList (s : Session K) (peer : K) (ports : List Port) : Prop :=
  ports.Pairwise (· < ·) ∧ ∀ port, port ∈ ports ↔ s.onTunnel peer port = .serveTunnel port

/-- The actions are one announcement of the served set to each admitted peer
and nothing else. -/
def AnnouncesToEach (s : Session K) (actions : List (Action K)) : Prop :=
  ∃ peers : List K, peers.Nodup ∧ (∀ k, k ∈ peers ↔ k ∈ s.peers) ∧
    ∃ lists : K → List Port, (∀ k ∈ peers, ServedList s k (lists k)) ∧
      actions = peers.map (fun k => .announce k (lists k))

theorem portsFor_servedList (s : Session K) (peer : K) :
    ServedList s peer (s.grants.portsFor peer) := by
  refine ⟨portsFor_ascending _ _, ?_⟩
  intro port
  rw [mem_portsFor, serves_iff]

theorem announceAll_announcesToEach (s : Session K) : AnnouncesToEach s s.announceAll := by
  refine ⟨s.peers.keys, ExtTreeMap.nodup_keys, fun k => ExtTreeMap.mem_keys,
    s.grants.portsFor, fun k _ => portsFor_servedList s k, rfl⟩

theorem announced_servedList (s : Session K) (op : Op K) (peer : K) (ports : List Port)
    (h : .announce peer ports ∈ (step s op).2) : ServedList (step s op).1 peer ports := by
  rw [(step_announce s op peer ports h).2]
  exact portsFor_servedList _ peer

theorem grant_changes (s : Session K) (op : Op K) (peer : K) (port : Port)
    (h : ¬ ((step s op).1.grants.allows port peer ↔ s.grants.allows port peer)) :
    (∃ q grantees, op = .expose q grantees) ∨ (∃ q grantee, op = .unexpose q grantee) ∨
      (∃ c, claimBy s op = some (peer, c)) ∨ op = .evict peer := by
  by_contra hn
  simp only [not_or, not_exists] at hn
  obtain ⟨he, hu, hc, hv⟩ := hn
  apply h
  have hg : ¬ Grant port peer s op := by
    rintro (⟨grantees, rfl, -⟩ | ⟨c, hcl, -⟩)
    · exact he _ _ rfl
    · exact hc c hcl
  have hr : ¬ Revoke port peer s op := by
    rintro (rfl | rfl | ⟨rfl, -⟩)
    · exact hu _ _ rfl
    · exact hu _ _ rfl
    · exact hv rfl
  rw [step_allows]
  simp [hg, hr]

theorem evict_removes (s : Session K) (peer : K) : peer ∉ (step s (.evict peer)).1.peers := by
  rw [ExtTreeMap.mem_iff_isSome_getElem?, step_peers]
  simp [recordAfter]

theorem claim_announces (s : Session K) (op : Op K) (peer : K) (c : Claimed)
    (h : claimBy s op = some (peer, c)) :
    .announce peer ((step s op).1.grants.portsFor peer) ∈ (step s op).2 := by
  cases op with
  | onUnadmitted conn remote msg now =>
    cases msg with
    | enroll token version =>
      simp only [claimBy, Option.map_eq_some_iff, Prod.mk.injEq] at h
      obtain ⟨d, hd, rfl, rfl⟩ := h
      simp [step, onUnadmitted_claimed s conn remote token version now d hd, Session.announce]
    | exposedPorts ports => simp [claimBy] at h
    | connect port => simp [claimBy] at h
    | error text => simp [claimBy] at h
  | _ => simp [claimBy] at h

theorem change_announced (s : Session K) (op : Op K) (peer : K) (port : Port)
    (ha : peer ∈ (step s op).1.peers)
    (h : ¬ ((step s op).1.grants.allows port peer ↔ s.grants.allows port peer)) :
    .announce peer ((step s op).1.grants.portsFor peer) ∈ (step s op).2 := by
  rcases grant_changes s op peer port h with ⟨q, grantees, rfl⟩ | ⟨q, grantee, rfl⟩ | ⟨c, hc⟩ | rfl
  · exact (mem_announceAll _ _).mpr ⟨peer, ha, rfl⟩
  · exact (mem_announceAll _ _).mpr ⟨peer, ha, rfl⟩
  · exact claim_announces s op peer c hc
  · exact absurd ha (evict_removes s peer)

/-- One set in every reachable state and through every operation applied to it:
announced, listed and enforced. -/
theorem one_served_set (ops : List (Op K)) (op : Op K) (visit : Visit) :
    (∀ peer ports, .announce peer ports ∈ (step (after ops) op).2 →
      ServedList (step (after ops) op).1 peer ports ∧ peer ∈ (step (after ops) op).1.peers) ∧
    (∀ peer, peer ∈ (after ops).peers → peer ∈ (step (after ops) op).1.peers →
      (∃ port, (step (after ops) op).1.onTunnel peer port ≠ (after ops).onTunnel peer port) →
      ∃ ports, .announce peer ports ∈ (step (after ops) op).2 ∧
        ServedList (step (after ops) op).1 peer ports) ∧
    (∀ port grantees, AnnouncesToEach (step (after ops) (.expose port grantees)).1
      (step (after ops) (.expose port grantees)).2) ∧
    (∀ port grantee, AnnouncesToEach (step (after ops) (.unexpose port grantee)).1
      (step (after ops) (.unexpose port grantee)).2) ∧
    (∀ peer, ∃ ports, (after ops).announce peer = .announce peer ports ∧
      ServedList (after ops) peer ports) ∧
    ((after ops).allGrants visit).Nodup ∧
    ((after ops).allGrants visit).Pairwise (fun a b => a.1 ≤ b.1) ∧
    (∀ port peer, (port, peer) ∈ (after ops).allGrants visit ↔
      (after ops).onTunnel peer port = .serveTunnel port) ∧
    (after ops).grantedPorts.Pairwise (· < ·) ∧
    (∀ port, port ∈ (after ops).grantedPorts ↔
      ∃ peer, (port, peer) ∈ (after ops).allGrants visit) := by
  refine ⟨?_, ?_, ?_, ?_, ?_, ?_, ?_, ?_, ?_, ?_⟩
  · intro peer ports h
    exact ⟨announced_servedList _ op peer ports h, (step_announce _ op peer ports h).1⟩
  · rintro peer - ha ⟨port, hne⟩
    have hc : ¬ ((step (after ops) op).1.grants.allows port peer ↔
        (after ops).grants.allows port peer) := by
      intro hiff
      apply hne
      simp only [Session.onTunnel, hiff]
    exact ⟨_, change_announced _ op peer port ha hc, portsFor_servedList _ peer⟩
  · exact fun port grantees => announceAll_announcesToEach _
  · exact fun port grantee => announceAll_announcesToEach _
  · exact fun peer => ⟨_, rfl, portsFor_servedList _ peer⟩
  · exact all_nodup _ visit
  · exact all_port_order _ visit
  · intro port peer
    rw [Session.allGrants, mem_all, serves_iff]
  · exact ports_ascending _
  · intro port
    simp only [Session.grantedPorts, mem_ports _ (after_compact ops), Session.allGrants, mem_all]

end
end PaiSho.Announcements
