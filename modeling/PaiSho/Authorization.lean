import PaiSho.SessionSteps

/-!
# Tunnel authorization is the grant history

A tunnel request carries two bytes of port number and is answered by the
session's verdict for the authenticated key of the connection. That verdict is
a function of the grants made and revoked so far: a grant may precede the
admission of its key, outlive it, and be made again after an eviction.
-/

set_option autoImplicit false

namespace PaiSho.Authorization
open PaiSho.GrantTable PaiSho.Enrollment PaiSho.SessionCore PaiSho.SessionSteps
open Library.Traces

section
variable {K : Type} [LinearOrder K]

inductive TunnelOutcome where
  | served (port : Port)
  | refused (reason : Refusal)
  | unexpectedVerdict
  deriving DecidableEq, Repr

def fromBeBytes (hi lo : UInt8) : Port :=
  ⟨hi.toNat*256+lo.toNat, by have := hi.toNat_lt; have := lo.toNat_lt; omega⟩

/-- The two bytes a tunnel stream opens with, against the session's verdict for
the peer the connection was authenticated as. -/
def handleBiStream (s : Session K) (peer : K) (hi lo : UInt8) : TunnelOutcome :=
  match s.onTunnel peer (fromBeBytes hi lo) with
  | .serveTunnel port => .served port
  | .rejectTunnel reason => .refused reason
  | _ => .unexpectedVerdict

/-- Some step of the run granted `port` to `peer` and no later one revoked it. -/
def GrantedSince (port : Port) (peer : K) (ops : List (Op K)) : Prop :=
  Since (fun e : Record K => Grant port peer e.before e.input)
    (fun e => Revoke port peer e.before e.input) (history ops)

theorem serves_iff (s : Session K) (peer : K) (port : Port) :
    s.onTunnel peer port = .serveTunnel port ↔ s.grants.allows port peer := by
  unfold Session.onTunnel
  split_ifs with h <;> simp [h]

theorem rejects_iff (s : Session K) (peer : K) (port : Port) :
    s.onTunnel peer port = .rejectTunnel .notGranted ↔ ¬ s.grants.allows port peer := by
  unfold Session.onTunnel
  split_ifs with h <;> simp [h]

theorem handleBiStream_served (s : Session K) (peer : K) (hi lo : UInt8) :
    handleBiStream s peer hi lo = .served (fromBeBytes hi lo) ↔
      s.grants.allows (fromBeBytes hi lo) peer := by
  unfold handleBiStream Session.onTunnel
  split_ifs with h <;> simp [h]

theorem handleBiStream_refused (s : Session K) (peer : K) (hi lo : UInt8) :
    handleBiStream s peer hi lo = .refused .notGranted ↔
      ¬ s.grants.allows (fromBeBytes hi lo) peer := by
  unfold handleBiStream Session.onTunnel
  split_ifs with h <;> simp [h]

theorem allows_iff_granted (ops : List (Op K)) (peer : K) (port : Port) :
    (after ops).grants.allows port peer ↔ GrantedSince port peer ops := by
  unfold GrantedSince after history
  induction ops using List.reverseRecOn with
  | nil =>
    have h0 := allows_empty (K := K) port peer
    have h1 := since_nil (fun e : Record K => Grant port peer e.before e.input)
      (fun e => Revoke port peer e.before e.input)
    exact iff_of_false h0 h1
  | append_singleton ops op ih =>
    rw [run_snoc, trace_snoc, since_snoc, step_allows, ih]
    rfl

/-- The verdict on a tunnel, and what the shell does with the stream, are
exactly the grant history of the port and the peer. -/
theorem tunnel_iff_granted (ops : List (Op K)) (peer : K) (port : Port) :
    ((after ops).onTunnel peer port = .serveTunnel port ↔ GrantedSince port peer ops) ∧
    ((after ops).onTunnel peer port = .rejectTunnel .notGranted ↔ ¬ GrantedSince port peer ops) ∧
    (∀ hi lo, handleBiStream (after ops) peer hi lo = .served (fromBeBytes hi lo) ↔
      GrantedSince (fromBeBytes hi lo) peer ops) ∧
    (∀ hi lo, handleBiStream (after ops) peer hi lo = .refused .notGranted ↔
      ¬ GrantedSince (fromBeBytes hi lo) peer ops) := by
  refine ⟨?_, ?_, ?_, ?_⟩
  · rw [serves_iff, allows_iff_granted]
  · rw [rejects_iff, allows_iff_granted]
  · intro hi lo
    rw [handleBiStream_served, allows_iff_granted]
  · intro hi lo
    rw [handleBiStream_refused, allows_iff_granted]

end
end PaiSho.Authorization
