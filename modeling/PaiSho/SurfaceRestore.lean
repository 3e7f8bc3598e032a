import PaiSho.SurfaceSteps

/-!
# What a restart restores

A restart makes blank records for the pinned peers and then goes through the
file: a record of a loaded peer whose address can be claimed gives it its
surface back. With that every request is accounted for, and the table stays in
order under all of them.
-/

set_option autoImplicit false

namespace PaiSho.SurfaceRestore
open Std (ExtTreeMap)
open PinnedPeers (Pin)
open SurfaceManager SurfacePorts SurfaceSteps

section
variable {K : Type} [LinearOrder K] (parse : String → Option K) (display : K → String)

def Blank (m : PeerManager K) : Prop :=
  ∀ r peer, m.records r = some peer →
    peer.surface = none ∧ peer.bindings = [] ∧ peer.exposedPorts = []

structure Loaded (pinned : List Pin) (shared : Shared) (m : PeerManager K) : Prop where
  keyed : Keyed m
  blank : Blank m
  shared : m.shared = shared
  peers : ∀ k, k ∈ m.peers ↔ ∃ pin ∈ pinned, parse pin.key = some k

theorem loaded_snoc (pinned : List Pin) (pin : Pin) (shared : Shared) (m : PeerManager K)
    (h : Loaded parse pinned shared m) :
    Loaded parse (pinned++[pin]) shared (m.addPinned parse pin) := by
  have hsnoc : ∀ k, (∃ p ∈ pinned++[pin], parse p.key = some k) ↔
      (∃ p ∈ pinned, parse p.key = some k) ∨ parse pin.key = some k := by
    intro k
    simp [or_and_right, exists_or]
  unfold PeerManager.addPinned
  cases hk : parse pin.key with
  | none =>
    refine ⟨h.keyed, h.blank, h.shared, fun k => ?_⟩
    rw [hsnoc, hk, h.peers]
    simp
  | some key =>
    dsimp only
    split_ifs with hin
    · refine ⟨h.keyed, h.blank, h.shared, fun k => ?_⟩
      rw [hsnoc, hk, ← h.peers]
      constructor
      · exact Or.inl
      · rintro (hmem | heq)
        · exact hmem
        · exact Option.some.inj heq ▸ ExtTreeMap.contains_iff_mem.mp hin
    · refine ⟨keyed_insert m key _ h.keyed, ?_, h.shared, fun k => ?_⟩
      · intro r peer hr
        rcases insert_cases m key _ r peer hr with ⟨-, rfl⟩ | ⟨-, hold⟩
        · exact ⟨rfl, rfl, rfl⟩
        · exact h.blank r peer hold
      · rw [hsnoc, hk, ← h.peers, or_comm]
        show k ∈ m.peers.insert key m.fresh ↔ _
        rw [Library.OrderedMaps.mem_map_insert]
        simp [eq_comm]

theorem loaded_all (pinned : List Pin) (shared : Shared) (config : Config) :
    Loaded parse pinned { shared with netstack := config.netstack }
      (pinned.foldl (PeerManager.addPinned parse) (PeerManager.boot shared config)) := by
  induction pinned using List.reverseRecOn with
  | nil =>
    refine ⟨⟨?_, ?_⟩, ?_, rfl, ?_⟩
    · intro k r h
      simp [PeerManager.boot] at h
    · intro r peer h
      cases h
    · intro r peer h
      cases h
    · simp [PeerManager.boot]
  | append_singleton pinned pin ih =>
    rw [List.foldl_append]
    exact loaded_snoc parse pinned pin _ _ ih

theorem restoreOne_cases (m : PeerManager K) (record : SurfaceRecord) (ran : Except String Unit)
    (hm : Keyed m) : (m.restoreOne parse record ran = m ∧ ∀ k, parse record.key = some k →
        k ∈ m.peers → ∃ e, m.shared.claimAddr record.ip record.name ran = .error e) ∨
      ∃ k r peer shared, parse record.key = some k ∧ m.peers[k]? = some r ∧
        m.records r = some peer ∧ m.shared.claimAddr record.ip record.name ran = .ok shared ∧
        m.restoreOne parse record ran =
          m.put r (shared, { peer with surface := some ⟨record.ip, record.name⟩ }) := by
  unfold PeerManager.restoreOne
  cases hk : parse record.key with
  | none => exact Or.inl ⟨rfl, by simp⟩
  | some key =>
    dsimp only
    cases hr : m.peers[key]? with
    | none =>
      refine Or.inl ⟨rfl, fun k heq hin => ?_⟩
      obtain rfl := Option.some.inj heq
      rw [ExtTreeMap.mem_iff_isSome_getElem?, hr] at hin
      cases hin
    | some r =>
      obtain ⟨peer, hpeer, -⟩ := hm.owned key r hr
      cases hclaim : m.shared.claimAddr record.ip record.name ran with
      | error e => exact Or.inl ⟨by simp [hpeer], fun k _ _ => ⟨e, rfl⟩⟩
      | ok shared => exact Or.inr ⟨key, r, peer, shared, rfl, hr, hpeer, rfl, by simp [hpeer]⟩

structure Restoring (m m' : PeerManager K) : Prop where
  keyed : Keyed m'
  peers : m'.peers = m.peers
  os : m'.shared.os = m.shared.os
  isSome : m'.shared.netstack.isSome = m.shared.netstack.isSome
  surfaces : m'.shared.surfaces = m.shared.surfaces
  records : ∀ r peer', m'.records r = some peer' → ∃ peer, m.records r = some peer ∧
    peer'.bindings = peer.bindings ∧ peer'.exposedPorts = peer.exposedPorts

theorem restoring_refl (m : PeerManager K) (hm : Keyed m) : Restoring m m :=
  ⟨hm, rfl, rfl, rfl, rfl, fun _ peer h => ⟨peer, h, rfl, rfl⟩⟩

theorem restoring_one (m : PeerManager K) (record : SurfaceRecord) (ran : Except String Unit)
    (hm : Keyed m) : Restoring m (m.restoreOne parse record ran) := by
  rcases restoreOne_cases parse m record ran hm with
    ⟨heq, -⟩ | ⟨k, r, peer, shared, -, hr, hpeer, hclaim, heq⟩
  · rw [heq]
    exact restoring_refl m hm
  · have hclaimed := claimAddr_ok _ _ _ _ _ hclaim
    rw [heq]
    refine ⟨keyed_put m r peer _ hm hpeer rfl, rfl, hclaimed.os, hclaimed.isSome, hclaimed.surfaces, ?_⟩
    intro r' peer' h
    rcases put_cases m r r' _ peer' h with ⟨rfl, rfl⟩ | ⟨-, hold⟩
    · exact ⟨peer, hpeer, rfl, rfl⟩
    · exact ⟨peer', hold, rfl, rfl⟩

theorem restoring_all (records : List SurfaceRecord) (ran : ℕ → Except String Unit)
    (m : PeerManager K) (hm : Keyed m) : Restoring m (restoreAll parse records ran m) := by
  induction records generalizing ran m with
  | nil => exact restoring_refl m hm
  | cons record records ih =>
    have hone := restoring_one parse m record (ran 0) hm
    have hrest := ih (fun i => ran (i+1)) _ hone.keyed
    refine ⟨hrest.keyed, hrest.peers.trans hone.peers, hrest.os.trans hone.os,
      hrest.isSome.trans hone.isSome, hrest.surfaces.trans hone.surfaces, ?_⟩
    intro r peer' h
    obtain ⟨peer₁, h₁, hb₁, he₁⟩ := hrest.records r peer' h
    obtain ⟨peer₂, h₂, hb₂, he₂⟩ := hone.records r peer₁ h₁
    exact ⟨peer₂, h₂, hb₁.trans hb₂, he₁.trans he₂⟩

theorem restoreAll_surface (records : List SurfaceRecord) (ran : ℕ → Except String Unit)
    (m : PeerManager K) (hm : Keyed m) (k : K) (surface : Surface)
    (h : surfaceOf (restoreAll parse records ran m) k = some surface) :
    surfaceOf m k = some surface ∨
      ∃ record ∈ records, parse record.key = some k ∧ surface = ⟨record.ip, record.name⟩ := by
  induction records generalizing ran m with
  | nil => exact Or.inl h
  | cons record records ih =>
    have hone := restoring_one parse m record (ran 0) hm
    rcases ih (fun i => ran (i+1)) _ hone.keyed h with hbefore | ⟨record', hin, hkey, heq⟩
    · rcases restoreOne_cases parse m record (ran 0) hm with
        ⟨heq, -⟩ | ⟨key, r, peer, shared, hkey, hr, -, -, heq⟩
      · rw [heq] at hbefore
        exact Or.inl hbefore
      · rw [heq] at hbefore
        by_cases hk : m.peers[k]? = some r
        · rw [surfaceOf_put_self m k r _ hk] at hbefore
          obtain rfl := hm.key_eq hk hr
          exact Or.inr ⟨record, by simp, hkey, (Option.some.inj hbefore).symm⟩
        · rw [surfaceOf_put_other m k r _ hk] at hbefore
          exact Or.inl hbefore
    · exact Or.inr ⟨record', List.mem_cons_of_mem _ hin, hkey, heq⟩

theorem restoreAll_restores (records : List SurfaceRecord) (ran : ℕ → Except String Unit)
    (m : PeerManager K) (hm : Keyed m) (k : K) (hk : k ∈ m.peers) (record : SurfaceRecord)
    (honly : ∀ record' ∈ records, parse record'.key = some k → record' = record)
    (hkey : parse record.key = some k)
    (hclaim : ∀ i e, records[i]? = some record →
      m.shared.claimAddr record.ip record.name (ran i) ≠ .error e)
    (h : surfaceOf m k = some ⟨record.ip, record.name⟩ ∨ record ∈ records) :
    surfaceOf (restoreAll parse records ran m) k = some ⟨record.ip, record.name⟩ := by
  induction records generalizing ran m with
  | nil => exact h.resolve_right List.not_mem_nil
  | cons first records ih =>
    have hone := restoring_one parse m first (ran 0) hm
    refine ih (fun i => ran (i+1)) _ hone.keyed (by rw [hone.peers]; exact hk)
      (fun record' hin => honly record' (List.mem_cons_of_mem _ hin)) ?_ ?_
    · intro i e hi herr
      rw [claimAddr_error m.shared _ _ _ _ hone.os hone.isSome] at herr
      exact hclaim (i+1) e hi herr
    · rcases restoreOne_cases parse m first (ran 0) hm with
        ⟨heq, hfail⟩ | ⟨k', r, peer, shared, hfirst, hr, -, -, heq⟩
      · rw [heq]
        rcases h with hs | hin
        · exact Or.inl hs
        · rcases List.mem_cons.mp hin with rfl | hin
          · obtain ⟨e, he⟩ := hfail k hkey hk
            exact absurd he (hclaim 0 e rfl)
          · exact Or.inr hin
      · rw [heq]
        by_cases hself : k' = k
        · subst hself
          obtain rfl := honly first (by simp) hfirst
          exact Or.inl (surfaceOf_put_self m k' r _ hr)
        · rw [surfaceOf_put_ne m hm k' k r _ hr (Ne.symm hself)]
          rcases h with hs | hin
          · exact Or.inl hs
          · rcases List.mem_cons.mp hin with rfl | hin
            · exact absurd (Option.some.inj (hfirst.symm.trans hkey)) hself
            · exact Or.inr hin

/-- What a restart leaves: the pinned peers, with nothing bound, and the surfaces
on file for them. -/
structure Restarted (m : PeerManager K) (pinned : List Pin) (env : Env) (m' : PeerManager K) :
    Prop where
  keyed : Keyed m'
  peers : ∀ k, k ∈ m'.peers ↔ ∃ pin ∈ pinned, parse pin.key = some k
  records : ∀ r peer, m'.records r = some peer → peer.bindings = [] ∧ peer.exposedPorts = []
  file : m'.shared.surfaces = m.shared.surfaces
  surface : ∀ k surface, surfaceOf m' k = some surface →
    ∃ records, m.shared.surfaces.load env.io.read = .ok records ∧
      ∃ record ∈ records, parse record.key = some k ∧ surface = ⟨record.ip, record.name⟩

theorem surfaceOf_blank (m : PeerManager K) (h : Blank m) (k : K) : surfaceOf m k = none := by
  rw [Option.eq_none_iff_forall_not_mem]
  intro surface hs
  obtain ⟨r, peer, -, hpeer, hsurface⟩ := (surfaceOf_eq_some m k surface).mp hs
  rw [(h r peer hpeer).1] at hsurface
  cases hsurface

theorem restart_spec (m : PeerManager K) (pinned : List Pin) (config : Config) (env : Env) :
    Restarted parse m pinned env (m.restart parse pinned config env) := by
  have hload := loaded_all parse pinned m.shared config
  have hfile := congrArg Shared.surfaces hload.shared
  unfold PeerManager.restart PeerManager.restoreSurfaces
  rw [hfile]
  cases hrecords : m.shared.surfaces.load env.io.read with
  | error e =>
    refine ⟨hload.keyed, hload.peers, fun r peer h => (hload.blank r peer h).2, hfile, ?_⟩
    intro k surface h
    rw [surfaceOf_blank _ hload.blank k] at h
    cases h
  | ok records =>
    have hall := restoring_all parse records env.claims _ hload.keyed
    refine ⟨hall.keyed, fun k => ?_, ?_, hall.surfaces.trans hfile, ?_⟩
    · rw [← hload.peers]
      show k ∈ (restoreAll parse records env.claims _).peers ↔ _
      rw [hall.peers]
    · intro r peer' h
      obtain ⟨peer, hpeer, hb, he⟩ := hall.records r peer' h
      obtain ⟨-, hb', he'⟩ := hload.blank r peer hpeer
      exact ⟨hb.trans hb', he.trans he'⟩
    · intro k surface h
      rcases restoreAll_surface parse records env.claims _ hload.keyed k surface h with hwas | hon
      · rw [surfaceOf_blank _ hload.blank k] at hwas
        cases hwas
      · exact ⟨records, hrecords, hon⟩

theorem keyed_evict (m : PeerManager K) (key : K) (env : Env) (hm : Keyed m) :
    Keyed (m.evict display key env) := by
  have h := evict_spec display m key env hm
  have hmade : ∀ r peer', (m.evict display key env).records r = some peer' →
      ∃ peer, m.records r = some peer ∧ peer'.endpointId = peer.endpointId := by
    intro r peer' hr
    by_cases hkey : m.peers[key]? = some r
    · obtain ⟨peer, hpeer, -⟩ := hm.owned key r hkey
      rw [h.dropped r peer hkey hpeer] at hr
      obtain rfl := Option.some.inj hr
      exact ⟨peer, hpeer, (dropSurface_frame (m.shared, peer)).2.1⟩
    · rw [h.other r hkey] at hr
      exact ⟨peer', hr, rfl⟩
  constructor
  · intro k r hk
    rw [h.peers] at hk
    split_ifs at hk with hne
    obtain ⟨peer, hpeer, hid⟩ := hm.owned k r hk
    have hother : m.peers[key]? ≠ some r := fun hkey => hne (hm.key_eq hk hkey)
    exact ⟨peer, (h.other r hother).trans hpeer, hid⟩
  · intro r peer' hr
    obtain ⟨peer, hpeer, -⟩ := hmade r peer' hr
    rw [h.fresh]
    exact hm.made r peer hpeer

theorem keyed_next (m m' : PeerManager K) (req : Request K) (hm : Keyed m)
    (h : next parse display m req = some m') : Keyed m' := by
  cases served_next parse display m m' req h with
  | add key label hnew =>
    exact keyed_insert m key label hm
  | enroll key label =>
    exact keyed_insert m key label hm
  | announce r ports env peer hr =>
    obtain ⟨held, heq, -, hid, -⟩ := update_placement display m r peer ports env hr
    rw [heq]
    exact keyed_put m r peer held hm hr hid
  | project r ip name env peer hr =>
    obtain ⟨held, heq, -, hid, -⟩ := project_spec display m r peer ip name env
    rw [heq]
    exact keyed_put m r peer held hm hr hid
  | unproject r ref env peer hr =>
    rcases unproject_spec display m r peer ref env with ⟨-, heq⟩ | ⟨shared, heq, -⟩
    · rw [heq]
      exact hm
    · rw [heq]
      exact keyed_put m r peer _ hm hr (dropSurface_frame (m.shared, peer)).2.1
  | forget key env =>
    exact keyed_evict display m key env hm
  | restart pinned config env =>
    exact (restart_spec parse m pinned config env).keyed

theorem keyed_new (os : Os) (path parent : String) (config : Config) :
    Keyed (PeerManager.new os path parent config : PeerManager K) := by
  refine ⟨fun k r h => ?_, fun r peer h => ?_⟩
  · simp [PeerManager.new, PeerManager.boot] at h
  · cases h

end

end PaiSho.SurfaceRestore
