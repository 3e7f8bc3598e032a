import PaiSho.SurfaceOutcomes

/-!
# What is claimed, and for whom

The backend has an address when a name of the stack is at it or when it was
added to the loopback interface. A request adds an address only by giving a
surface there; everything else a request does to what is shared takes names and
addresses away or leaves them.
-/

set_option autoImplicit false

namespace PaiSho.ClaimedAddresses
open Library.Traces
open GrantTable (Port)
open PinnedPeers (Pin)
open SurfaceManager SurfacePorts SurfaceSteps SurfaceRestore SurfaceOutcomes

def nameAt (s : Shared) (name : String) : Option Ipv4 := s.netstack.bind (fun ns => ns.names name)

def Claims (s : Shared) (ip : IpAddr) : Prop :=
  (∃ name v4, nameAt s name = some v4 ∧ ip = .v4 v4) ∨ (s.netstack = none ∧ ip ∈ s.aliases)

def Aliased (s : Shared) : Prop := ∀ ip ∈ s.aliases, s.os = .macos ∧ ip ≠ localhost

/-- What is new is the name or the address of a surface of `given`. -/
structure Claiming (given : Surface → Prop) (s s' : Shared) : Prop where
  os : s'.os = s.os
  isSome : s'.netstack.isSome = s.netstack.isSome
  names : ∀ name v4, nameAt s' name = some v4 →
    nameAt s name = some v4 ∨ given ⟨.v4 v4, some name⟩
  aliases : ∀ ip ∈ s'.aliases,
    ip ∈ s.aliases ∨ ((∃ name, given ⟨ip, name⟩) ∧ s.os = .macos ∧ ip ≠ localhost)

theorem claiming_refl (given : Surface → Prop) (s : Shared) : Claiming given s s :=
  ⟨rfl, rfl, fun _ _ => Or.inl, fun _ => Or.inl⟩

theorem Claiming.trans {given : Surface → Prop} {s t u : Shared} (h : Claiming given s t)
    (h' : Claiming given t u) : Claiming given s u := by
  refine ⟨h'.os.trans h.os, h'.isSome.trans h.isSome, fun name v4 hu => ?_, fun ip hu => ?_⟩
  · rcases h'.names name v4 hu with ht | hnew
    · exact h.names name v4 ht
    · exact Or.inr hnew
  · rcases h'.aliases ip hu with ht | ⟨hnew, hos, hip⟩
    · exact h.aliases ip ht
    · exact Or.inr ⟨hnew, h.os ▸ hos, hip⟩

theorem Claiming.mono {given given' : Surface → Prop} {s t : Shared} (h : Claiming given s t)
    (hsub : ∀ surface, given surface → given' surface) : Claiming given' s t := by
  refine ⟨h.os, h.isSome, fun name v4 ht => ?_, fun ip ht => ?_⟩
  · exact (h.names name v4 ht).imp_right (hsub _)
  · rcases h.aliases ip ht with hold | ⟨⟨name, hnew⟩, hrest⟩
    · exact Or.inl hold
    · exact Or.inr ⟨⟨name, hsub _ hnew⟩, hrest⟩

theorem Claiming.claims {given : Surface → Prop} {s t : Shared} (h : Claiming given s t) (ip : IpAddr)
    (ht : Claims t ip) : Claims s ip ∨ ∃ name, given ⟨ip, name⟩ := by
  rcases ht with ⟨name, v4, hname, rfl⟩ | ⟨hnone, hin⟩
  · rcases h.names name v4 hname with hold | hnew
    · exact Or.inl (Or.inl ⟨name, v4, hold, rfl⟩)
    · exact Or.inr ⟨some name, hnew⟩
  · have hs : s.netstack = none := by
      have := h.isSome
      rw [hnone] at this
      simpa using this.symm
    rcases h.aliases ip hin with hold | ⟨hnew, -⟩
    · exact Or.inl (Or.inr ⟨hs, hold⟩)
    · exact Or.inr hnew

theorem Claiming.aliased {given : Surface → Prop} {s t : Shared} (h : Claiming given s t)
    (hs : Aliased s) : Aliased t := by
  intro ip hin
  rw [h.os]
  rcases h.aliases ip hin with hold | ⟨-, hnew⟩
  · exact hs ip hold
  · exact hnew

theorem nameAt_map (s : Shared) (name : String) :
    nameAt s name = (s.netstack.map NetStack.names).bind (fun names => names name) := by
  unfold nameAt
  cases s.netstack <;> rfl

theorem claiming_quiet (given : Surface → Prop) (s t : Shared) (h : Quiet s t) :
    Claiming given s t := by
  refine ⟨h.os, h.isSome, fun name v4 ht => Or.inl ?_, fun ip ht => Or.inl (h.aliases ▸ ht)⟩
  rw [nameAt_map, h.names, ← nameAt_map] at ht
  exact ht

theorem namesAfter_cases (names : String → Option Ipv4) (ip : IpAddr) (own : Option String)
    (name : String) (v4 : Ipv4) (h : namesAfter names ip own name = some v4) :
    names name = some v4 ∨ ⟨.v4 v4, some name⟩ = (⟨ip, own⟩ : Surface) := by
  cases ip with
  | v6 bits => exact Or.inl h
  | v4 placed =>
    cases own with
    | none => exact Or.inl h
    | some own =>
      by_cases hn : name = own
      · rw [namesAfter, hn, Function.update_self] at h
        rw [Option.some.inj h, hn]
        exact Or.inr rfl
      · rw [namesAfter, Function.update_of_ne hn] at h
        exact Or.inl h

theorem ensureAddr_adds (os : Os) (aliases aliases' : List IpAddr) (ip : IpAddr)
    (ran : Except String Unit) (h : ensureAddr os aliases ip ran = .ok aliases') :
    ∀ ip' ∈ aliases', ip' ∈ aliases ∨ (ip' = ip ∧ os = .macos ∧ ip' ≠ localhost) := by
  intro ip' hin
  unfold ensureAddr addAddr at h
  split_ifs at h with hip
  · exact Or.inl (Except.ok.inj h ▸ hin)
  · cases os with
    | linux => exact Or.inl (Except.ok.inj h ▸ hin)
    | other => cases h
    | macos =>
      cases ran with
      | error e => cases h
      | ok _ =>
        obtain rfl := Except.ok.inj h
        rcases List.mem_cons.mp hin with rfl | hold
        · exact Or.inr ⟨rfl, rfl, hip⟩
        · exact Or.inl hold

theorem claimAddr_claiming (s t : Shared) (ip : IpAddr) (name : Option String)
    (ran : Except String Unit) (h : s.claimAddr ip name ran = .ok t) :
    Claiming (· = ⟨ip, name⟩) s t := by
  have hclaimed := claimAddr_ok s t ip name ran h
  refine ⟨hclaimed.os, hclaimed.isSome, fun n v4 ht => ?_, fun ip' ht => ?_⟩
  · rw [nameAt_map, hclaimed.names, Option.map_eq_bind, Option.bind_assoc] at ht
    obtain ⟨ns, hns, hafter⟩ := Option.bind_eq_some_iff.mp ht
    rw [nameAt, hns]
    exact namesAfter_cases ns.names ip name n v4 hafter
  · unfold Shared.claimAddr at h
    cases hns : s.netstack with
    | some ns =>
      rw [hns] at h
      cases ip <;> (obtain rfl := Except.ok.inj h; exact Or.inl ht)
    | none =>
      rw [hns] at h
      dsimp only at h
      split at h
      · rename_i aliases haliases
        obtain rfl := Except.ok.inj h
        refine (ensureAddr_adds s.os s.aliases aliases ip ran haliases ip' ht).imp_right ?_
        rintro ⟨rfl, hrest⟩
        exact ⟨⟨name, rfl⟩, hrest⟩
      · cases h

theorem removeAddr_sub (os : Os) (aliases aliases' : List IpAddr) (ip : IpAddr)
    (ran : Except String Unit) (h : removeAddr os aliases ip ran = .ok aliases') :
    ∀ ip' ∈ aliases', ip' ∈ aliases := by
  intro ip' hin
  unfold removeAddr delAddr at h
  split_ifs at h
  · exact Except.ok.inj h ▸ hin
  · cases os with
    | linux => exact Except.ok.inj h ▸ hin
    | other => exact Except.ok.inj h ▸ hin
    | macos =>
      cases ran with
      | error e => cases h
      | ok _ =>
        obtain rfl := Except.ok.inj h
        exact (List.mem_filter.mp hin).1

theorem unclaimAddr_claiming (given : Surface → Prop) (s t : Shared) (ip : IpAddr)
    (ran : Except String Unit) (h : s.unclaimAddr ip ran = .ok t) : Claiming given s t := by
  obtain ⟨hos, -, hsome⟩ := unclaimAddr_ok s t ip ran h
  unfold Shared.unclaimAddr at h
  cases hns : s.netstack with
  | some ns =>
    rw [hns] at h
    cases ip with
    | v6 bits =>
      obtain rfl := Except.ok.inj h
      exact claiming_refl given s
    | v4 own =>
      obtain rfl := Except.ok.inj h
      refine ⟨hos, hsome, fun name v4 ht => Or.inl ?_, fun _ => Or.inl⟩
      rw [nameAt, hns]
      exact (Option.filter_eq_some_iff.mp ht).1
  | none =>
    rw [hns] at h
    dsimp only at h
    split at h
    · rename_i aliases haliases
      obtain rfl := Except.ok.inj h
      refine ⟨hos, hsome, fun name v4 ht => ?_, fun ip' hin => Or.inl ?_⟩
      · cases ht
      · exact removeAddr_sub s.os s.aliases aliases ip ran haliases ip' hin
    · cases h

theorem unclaimAddr_gone (s t : Shared) (ip : IpAddr) (ran : Except String Unit) (hs : Aliased s)
    (h : s.unclaimAddr ip ran = .ok t) : ¬ Claims t ip := by
  unfold Shared.unclaimAddr at h
  cases hns : s.netstack with
  | some ns =>
    rw [hns] at h
    cases ip with
    | v6 bits =>
      obtain rfl := Except.ok.inj h
      rintro (⟨name, v4, -, hip⟩ | ⟨hnone, -⟩)
      · cases hip
      · cases hns.symm.trans hnone
    | v4 own =>
      obtain rfl := Except.ok.inj h
      rintro (⟨name, v4, hname, hip⟩ | ⟨hnone, -⟩)
      · obtain rfl := IpAddr.v4.inj hip
        have hkept := (Option.filter_eq_some_iff.mp hname).2
        simp at hkept
      · cases hnone
  | none =>
    rw [hns] at h
    dsimp only at h
    split at h
    · rename_i aliases haliases
      obtain rfl := Except.ok.inj h
      rintro (⟨name, v4, hname, -⟩ | ⟨-, hin⟩)
      · cases hname
      · obtain ⟨hmac, hip⟩ := hs ip (removeAddr_sub s.os s.aliases aliases ip ran haliases ip hin)
        unfold removeAddr delAddr at haliases
        rw [if_neg hip, hmac] at haliases
        cases ran with
        | error e => cases haliases
        | ok _ =>
          obtain rfl := Except.ok.inj haliases
          simp at hin
    · cases h

theorem unclaimed_claiming (given : Surface → Prop) (s : Shared) (ip : IpAddr)
    (ran : Except String Unit) : Claiming given s (s.unclaimed ip ran) := by
  unfold Shared.unclaimed
  split
  · rename_i t ht
    exact unclaimAddr_claiming given s t ip ran ht
  · exact claiming_refl given s

theorem giveBack_claiming (given : Surface → Prop) (s : Shared) (ran : Except String Unit)
    (surface : Option Surface) : Claiming given s (s.giveBack ran surface) := by
  cases surface with
  | none => exact claiming_refl given s
  | some surface => exact unclaimed_claiming given s surface.ip ran

section
variable {K : Type} [LinearOrder K] (parse : String → Option K) (display : K → String)

/-- The surface the request gives a peer, at an address that can be claimed. -/
def Gives (m : PeerManager K) (surface : Surface) : Request K → Prop
  | .announce r ports env => ∃ peer, m.records r = some peer ∧ peer.surface = none ∧ ports ≠ [] ∧
      allocate m.projectedIps m.shared.surfaceBase = .ok surface.ip ∧
      surface.name = some (autoName display peer) ∧
      Claimable m.shared surface.ip (env.claims 0)
  | .project r asked name env => ∃ peer, m.records r = some peer ∧
      choose (ipsBeside m r) m.shared.surfaceBase asked = .ok surface.ip ∧
      surface.name = name.or peer.label ∧ Claimable m.shared surface.ip (env.claims 0)
  | _ => False

omit [LinearOrder K] in
theorem tearDown_claiming (given : Surface → Prop) (held : Held K) (ran : Except String Unit) :
    Claiming given held.1 (tearDown held ran).1 := by
  unfold tearDown
  split
  · rename_i old hs
    exact (claiming_quiet given _ _ (dropSurface_frame held).1).trans
      (unclaimed_claiming given _ old.ip ran)
  · exact claiming_refl given held.1

omit [LinearOrder K] in
theorem place_claiming (given : Surface → Prop) (held : Held K) (surface : Surface)
    (io : RecordFiles.Io) : Claiming given held.1 (place display held surface io).1 :=
  ⟨rfl, rfl, fun _ _ => Or.inl, fun _ => Or.inl⟩

omit [LinearOrder K] in
theorem surfaceIp_claiming (taken : List IpAddr) (ports : List Port) (env : Env) (held : Held K) :
    Claiming (fun surface => held.2.surface = none ∧ ports ≠ [] ∧
      allocate taken held.1.surfaceBase = .ok surface.ip ∧
      surface.name = some (autoName display held.2) ∧
      Claimable held.1 surface.ip (env.claims 0)) held.1
      (surfaceIp display taken ports env held).1.1 := by
  unfold surfaceIp
  cases hs : held.2.surface with
  | some surface => exact claiming_refl _ held.1
  | none =>
    dsimp only
    split_ifs with hempty
    · exact claiming_refl _ held.1
    · have hports : ports ≠ [] := by simpa using hempty
      cases halloc : allocate taken held.1.surfaceBase with
      | error e => exact claiming_refl _ held.1
      | ok ip =>
        dsimp only
        cases hclaim : held.1.claimAddr ip (some (autoName display held.2)) (env.claims 0) with
        | error e => exact claiming_refl _ held.1
        | ok shared =>
          refine Claiming.trans ?_ (place_claiming display _ (shared, held.2) _ env.io)
          refine (claimAddr_claiming held.1 shared ip _ _ hclaim).mono ?_
          rintro surface rfl
          exact ⟨rfl, hports, rfl, rfl, (claimAddr_claimable _ _ _ _).mp ⟨shared, hclaim⟩⟩

theorem announce_claiming (m : PeerManager K) (r : ℕ) (peer : Peer K) (ports : List Port) (env : Env)
    (hr : m.records r = some peer) :
    Claiming (fun surface => Gives display m surface (.announce r ports env)) m.shared
      (m.updatePeerPorts display r peer ports env).shared := by
  have hframe := releasePorts_frame (staleOf peer ports) (m.shared, peer)
  have htaken := projectedIps_put_same m r peer _ hr hframe.peer.surface
  unfold PeerManager.updatePeerPorts
  dsimp only
  rw [put_shared]
  refine (claiming_quiet _ _ _ hframe.quiet).trans ?_
  refine Claiming.trans ?_ (claiming_quiet _ _ _ (bindAt_frame ports env.tries _).quiet)
  refine (surfaceIp_claiming display _ ports env _).mono ?_
  rintro surface ⟨hnone, hports, halloc, hname, hcan⟩
  rw [staleOf] at htaken
  rw [htaken, hframe.quiet.surfaceBase] at halloc
  rw [autoName, hframe.peer.label, hframe.peer.endpointId] at hname
  rw [Claimable, hframe.quiet.os, hframe.quiet.isSome] at hcan
  exact ⟨peer, hr, hframe.peer.surface.symm.trans hnone, hports, halloc, hname, hcan⟩

theorem project_claiming (m : PeerManager K) (r : ℕ) (peer : Peer K) (ip : Option IpAddr)
    (name : Option String) (env : Env) (hr : m.records r = some peer) :
    Claiming (fun surface => Gives display m surface (.project r ip name env)) m.shared
      (m.project display r peer ip name env).1.shared := by
  have hdown := tearDown_claiming (fun surface => Gives display m surface (.project r ip name env))
    (m.shared, peer) env.unclaim
  obtain ⟨-, -, -, -, hos, -, hsome⟩ := tearDown_spec (m.shared, peer) env.unclaim
  cases project_outcome display m r peer ip name env with
  | failed e hnot hproject =>
    rw [hproject]
    exact hdown
  | placed ip' shared hchosen hclaim hproject =>
    rw [hproject]
    refine hdown.trans (Claiming.trans ?_ (claiming_quiet _ _ _ (bindPorts_frame _ _ _ _).quiet))
    refine Claiming.trans ?_ (place_claiming display _ (shared, _) _ env.io)
    refine (claimAddr_claiming _ shared ip' _ _ hclaim).mono ?_
    rintro surface rfl
    have hcan := (claimAddr_claimable _ _ _ _).mp ⟨shared, hclaim⟩
    rw [Claimable, hos, hsome] at hcan
    exact ⟨peer, hr, hchosen, rfl, hcan⟩

theorem unproject_claiming (given : Surface → Prop) (m : PeerManager K) (r : ℕ) (peer : Peer K)
    (ref : String) (env : Env) :
    Claiming given m.shared (m.unproject display r peer ref env).1.shared := by
  have hdrop := claiming_quiet given _ _ (dropSurface_frame (m.shared, peer)).1
  cases unproject_outcome display m r peer ref env with
  | bare hnone hunproject =>
    rw [hunproject]
    exact claiming_refl given m.shared
  | failed surface e hwas hnot hunproject =>
    rw [hunproject]
    exact hdrop
  | taken surface shared hwas hcan hunclaim hunproject =>
    rw [hunproject]
    have hback := unclaimAddr_claiming given _ shared _ _ hunclaim
    exact hdrop.trans ⟨hback.os, hback.isSome, hback.names, hback.aliases⟩

theorem evict_claiming (given : Surface → Prop) (m : PeerManager K) (key : K) (env : Env) :
    Claiming given m.shared (m.evict display key env).shared := by
  unfold PeerManager.evict
  split
  · exact ⟨rfl, rfl, fun _ _ => Or.inl, fun _ => Or.inl⟩
  · split
    · exact claiming_refl given m.shared
    · rename_i r _ peer _
      have hback := (claiming_quiet given _ _ (dropSurface_frame (m.shared, peer)).1).trans
        (giveBack_claiming given _ env.unclaim peer.surface)
      exact ⟨hback.os, hback.isSome, hback.names, hback.aliases⟩

theorem claiming_next (m m' : PeerManager K) (req : Request K)
    (hstays : ∀ pinned config env, req ≠ .restart pinned config env)
    (h : next parse display m req = some m') :
    Claiming (fun surface => Gives display m surface req) m.shared m'.shared := by
  cases served_next parse display m m' req h with
  | add key label hnew =>
    exact claiming_refl _ m.shared
  | enroll key label =>
    exact claiming_refl _ m.shared
  | announce r ports env peer hr =>
    exact announce_claiming display m r peer ports env hr
  | project r ip name env peer hr =>
    exact project_claiming display m r peer ip name env hr
  | unproject r ref env peer hr =>
    exact unproject_claiming display _ m r peer ref env
  | forget key env =>
    exact evict_claiming display _ m key env
  | restart pinned config env => exact absurd rfl (hstays pinned config env)

theorem restoreAll_aliased (records : List SurfaceRecord) (ran : ℕ → Except String Unit)
    (m : PeerManager K) (hm : Keyed m) (h : Aliased m.shared) :
    Aliased (restoreAll parse records ran m).shared := by
  induction records generalizing ran m with
  | nil => exact h
  | cons record records ih =>
    refine ih _ _ (restoring_one parse m record (ran 0) hm).keyed ?_
    rcases restoreOne_cases parse m record (ran 0) hm with
      ⟨heq, -⟩ | ⟨k, r, peer, shared, -, -, -, hclaim, heq⟩
    · rw [heq]
      exact h
    · rw [heq]
      exact (claimAddr_claiming _ shared _ _ _ hclaim).aliased h

theorem aliased_restart (m : PeerManager K) (pinned : List Pin) (config : Config) (env : Env)
    (h : Aliased m.shared) : Aliased (m.restart parse pinned config env).shared := by
  have hload := loaded_all parse pinned m.shared config
  have hboot : Aliased (pinned.foldl (PeerManager.addPinned parse)
      (PeerManager.boot m.shared config)).shared := by
    rw [hload.shared]
    exact h
  unfold PeerManager.restart PeerManager.restoreSurfaces
  split
  · exact restoreAll_aliased parse _ env.claims _ hload.keyed hboot
  · exact hboot

theorem aliased_reached (os : Os) (path parent : String) (config : Config) (reqs : List (Request K))
    (m : PeerManager K) (h : Reached parse display os path parent config reqs m) :
    Aliased m.shared := by
  refine exec_invariant (next parse display) (fun _ => True) (fun m => Aliased m.shared) ?_ _ ?_
    reqs (fun _ _ => trivial) m h
  · intro s req t _ hs hnext
    by_cases hrestart : ∃ pinned config env, req = .restart pinned config env
    · obtain ⟨pinned, config, env, rfl⟩ := hrestart
      obtain rfl := Option.some.inj hnext
      exact aliased_restart parse s pinned config env hs
    · refine (claiming_next parse display s t req ?_ hnext).aliased hs
      intro pinned config env heq
      exact hrestart ⟨pinned, config, env, heq⟩
  · intro ip hin
    cases hin

end
end PaiSho.ClaimedAddresses
