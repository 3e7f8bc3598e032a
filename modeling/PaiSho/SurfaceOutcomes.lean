import PaiSho.SurfaceRestore

/-!
# When a projection goes through

`project` fails when no address is free beside those of the other peers, or when
the address it has chosen cannot be claimed; `unproject` when the address cannot
be taken back. Which it is depends on the system and the backend, and on the
state the request meets.
-/

set_option autoImplicit false

namespace PaiSho.SurfaceOutcomes
open Std (ExtTreeMap)
open SurfaceManager SurfacePorts SurfaceSteps

/-- The address can be claimed: the stack takes any, and so does Linux; elsewhere
only the stock one is there without a command. -/
def Claimable (s : Shared) (ip : IpAddr) (ran : Except String Unit) : Prop :=
  s.netstack.isSome = true ∨ ip = localhost ∨ s.os = .linux ∨ (s.os = .macos ∧ ran = .ok ())

/-- The address can be taken back: only the command macOS runs may fail. -/
def Removable (s : Shared) (ip : IpAddr) (ran : Except String Unit) : Prop :=
  s.netstack.isSome = true ∨ ip = localhost ∨ s.os ≠ .macos ∨ ran = .ok ()

theorem claimAddr_claimable (s : Shared) (ip : IpAddr) (name : Option String)
    (ran : Except String Unit) :
    (∃ s', s.claimAddr ip name ran = .ok s') ↔ Claimable s ip ran := by
  unfold Claimable
  cases hns : s.netstack with
  | some ns =>
    have htun := claimAddr_tun s ip name ran (by rw [hns]; rfl)
    simp [htun]
  | none =>
    simp only [Shared.claimAddr, hns, ensureAddr, addAddr]
    by_cases hip : ip = localhost
    · simp [hip]
    · cases s.os <;> cases ran <;> simp [hip]

theorem unclaimAddr_removable (s : Shared) (ip : IpAddr) (ran : Except String Unit) :
    (∃ s', s.unclaimAddr ip ran = .ok s') ↔ Removable s ip ran := by
  unfold Removable
  cases hns : s.netstack with
  | some ns => cases ip <;> simp [Shared.unclaimAddr, hns]
  | none =>
    simp only [Shared.unclaimAddr, hns, removeAddr, delAddr]
    by_cases hip : ip = localhost
    · simp [hip]
    · cases s.os <;> cases ran <;> simp [hip]

section
variable {K : Type} [LinearOrder K] (display : K → String)

def ipsBeside (m : PeerManager K) (r : ℕ) : List IpAddr :=
  m.peers.toList.filterMap (fun entry =>
    if entry.2 = r then none else ((m.records entry.2).bind Peer.surface).map Surface.ip)

theorem projectedIps_without (m : PeerManager K) (r : ℕ) (held : Held K)
    (hsurface : held.2.surface = none) : (m.put r held).projectedIps = ipsBeside m r := by
  unfold PeerManager.projectedIps ipsBeside
  apply List.filterMap_congr
  rintro ⟨k, r'⟩ -
  by_cases h : r' = r
  · subst h
    simp [hsurface]
  · simp [put_other m r r' held h, h]

/-- A `project` of this record finds an address and can claim it. -/
def Projectable (m : PeerManager K) (r : ℕ) (ip : Option IpAddr) (env : Env) : Prop :=
  ∃ ip', choose (ipsBeside m r) m.shared.surfaceBase ip = .ok ip' ∧
    Claimable m.shared ip' (env.claims 0)

/-- What `project` does, with what it answers: the old surface goes, and a new
one stands or the request has failed. -/
inductive ProjectOutcome (m : PeerManager K) (r : ℕ) (peer : Peer K) (ip : Option IpAddr)
    (name : Option String) (env : Env) : Prop where
  | failed (e : Error) (hnot : ¬ Projectable m r ip env)
      (hproject : m.project display r peer ip name env =
        (m.put r (tearDown (m.shared, peer) env.unclaim), .error e))
  | placed (ip' : IpAddr) (shared : Shared)
      (hchosen : choose (ipsBeside m r) m.shared.surfaceBase ip = .ok ip')
      (hclaim : (tearDown (m.shared, peer) env.unclaim).1.claimAddr ip' (name.or peer.label)
        (env.claims 0) = .ok shared)
      (hproject : m.project display r peer ip name env =
        (m.put r (bindPorts ip' peer.exposedPorts env.tries
          (place display (shared, (tearDown (m.shared, peer) env.unclaim).2)
            ⟨ip', name.or peer.label⟩ env.io)), .ok ()))

theorem project_outcome (m : PeerManager K) (r : ℕ) (peer : Peer K) (ip : Option IpAddr)
    (name : Option String) (env : Env) : ProjectOutcome display m r peer ip name env := by
  obtain ⟨hsurface, -, -, hexposed, hos, -, hsome⟩ := tearDown_spec (m.shared, peer) env.unclaim
  have hbase : (tearDown (m.shared, peer) env.unclaim).1.surfaceBase = m.shared.surfaceBase := by
    rw [Shared.surfaceBase, Shared.surfaceBase, hsome]
  have htaken := projectedIps_without m r (tearDown (m.shared, peer) env.unclaim) hsurface
  -- claiming fails after the teardown as it would have before it
  have hclaimable : ∀ ip', (∃ shared, (tearDown (m.shared, peer) env.unclaim).1.claimAddr ip'
      (name.or peer.label) (env.claims 0) = .ok shared) ↔ Claimable m.shared ip' (env.claims 0) := by
    intro ip'
    rw [claimAddr_claimable, Claimable, Claimable, hos, hsome]
  cases hchosen : choose (ipsBeside m r) m.shared.surfaceBase ip with
  | error e =>
    refine .failed e ?_ (by simp only [PeerManager.project, htaken, hbase, hchosen])
    rintro ⟨ip', hok, -⟩
    cases hchosen.symm.trans hok
  | ok ip' =>
    cases hclaim : (tearDown (m.shared, peer) env.unclaim).1.claimAddr ip' (name.or peer.label)
        (env.claims 0) with
    | error e =>
      refine .failed e ?_ (by simp only [PeerManager.project, htaken, hbase, hchosen, hclaim])
      rintro ⟨ip₁, hok, hcan⟩
      obtain rfl := Except.ok.inj (hchosen.symm.trans hok)
      obtain ⟨shared, hshared⟩ := (hclaimable ip').mpr hcan
      cases hclaim.symm.trans hshared
    | ok shared =>
      refine .placed ip' shared hchosen hclaim ?_
      simp only [PeerManager.project, htaken, hbase, hchosen, hclaim, place, hexposed]

theorem projectable_iff (m : PeerManager K) (r : ℕ) (peer : Peer K) (ip : Option IpAddr)
    (name : Option String) (env : Env) :
    (m.project display r peer ip name env).2 = .ok () ↔ Projectable m r ip env := by
  obtain ⟨-, -, -, -, hos, -, hsome⟩ := tearDown_spec (m.shared, peer) env.unclaim
  cases project_outcome display m r peer ip name env with
  | failed e hnot hproject => simp [hproject, hnot]
  | placed ip' shared hchosen hclaim hproject =>
    have hcan := (claimAddr_claimable _ ip' (name.or peer.label) (env.claims 0)).mp ⟨shared, hclaim⟩
    rw [Claimable, hos, hsome] at hcan
    simp only [hproject, true_iff]
    exact ⟨ip', hchosen, hcan⟩

/-- What `unproject` does, with what it answers. -/
inductive UnprojectOutcome (m : PeerManager K) (r : ℕ) (peer : Peer K) (ref : String)
    (env : Env) : Prop where
  | bare (hnone : peer.surface = none)
      (hunproject : m.unproject display r peer ref env = (m, .error (.notProjected ref)))
  | failed (surface : Surface) (e : Error) (hwas : peer.surface = some surface)
      (hnot : ¬ Removable m.shared surface.ip env.unclaim)
      (hunproject : m.unproject display r peer ref env =
        (m.put r (dropSurface (m.shared, peer)), .error e))
  | taken (surface : Surface) (shared : Shared) (hwas : peer.surface = some surface)
      (hcan : Removable m.shared surface.ip env.unclaim)
      (hunclaim : (dropSurface (m.shared, peer)).1.unclaimAddr surface.ip env.unclaim = .ok shared)
      (hunproject : m.unproject display r peer ref env =
        (m.put r ({ shared with
          surfaces := (shared.surfaces.remove (display peer.endpointId) env.io).1 },
          (dropSurface (m.shared, peer)).2), .ok ()))

theorem unproject_outcome (m : PeerManager K) (r : ℕ) (peer : Peer K) (ref : String) (env : Env) :
    UnprojectOutcome display m r peer ref env := by
  cases hs : peer.surface with
  | none => exact .bare hs (by simp only [PeerManager.unproject, hs])
  | some surface =>
    have hquiet := (dropSurface_frame (m.shared, peer)).1
    have hremovable : (∃ shared, (dropSurface (m.shared, peer)).1.unclaimAddr surface.ip env.unclaim =
        .ok shared) ↔ Removable m.shared surface.ip env.unclaim := by
      rw [unclaimAddr_removable, Removable, Removable, hquiet.os, hquiet.isSome]
    cases hun : (dropSurface (m.shared, peer)).1.unclaimAddr surface.ip env.unclaim with
    | error e =>
      refine .failed surface e hs ?_ (by simp only [PeerManager.unproject, hs, hun])
      intro hcan
      obtain ⟨shared, hok⟩ := hremovable.mpr hcan
      cases hun.symm.trans hok
    | ok shared =>
      exact .taken surface shared hs (hremovable.mp ⟨shared, hun⟩) hun
        (by simp only [PeerManager.unproject, hs, hun])

end
end PaiSho.SurfaceOutcomes
