import PaiSho.Bindings
import PaiSho.ClaimedAddresses

/-!
# A peer taken down

Nothing but the absence of a surface says that a peer was unprojected, and that
is also what makes an announcement project it. So a peer stays down as long as
its announcements carry no port, or find no address; then nothing is bound for
it, and its old address stays unclaimed until a surface is given there.
-/

set_option autoImplicit false

namespace PaiSho.TakenDown
open Library.Traces
open GrantTable (Port)
open SurfaceManager SurfacePorts SurfaceSteps SurfaceRestore SurfaceOutcomes
open Bindings (AllFollow allFollow_next follows_reached)
open ClaimedAddresses

section
variable {K : Type} [LinearOrder K] (parse : String → Option K) (display : K → String)

/-- The request is no `project` or forget of the peer, and no restart. -/
def Apart (key : K) (m : PeerManager K) : Request K → Prop
  | .project r _ _ _ => m.peers[key]? ≠ some r
  | .forget k _ => k ≠ key
  | .restart _ _ _ => False
  | _ => True

/-- An announcement of the peer's has no port, or no address can be had for
it. -/
def Silent (key : K) (m : PeerManager K) : Request K → Prop
  | .announce r ports env => m.peers[key]? = some r → ∀ peer, m.records r = some peer →
      ports = [] ∨ NoAddress display m peer env
  | _ => True

structure Down (key : K) (m : PeerManager K) : Prop where
  surface : surfaceOf m key = none
  bound : ∀ peer, m.get key = some peer → peer.bound = []

omit [LinearOrder K] in
theorem surfaceIp_bare (taken : List IpAddr) (ports : List Port) (env : Env) (held : Held K)
    (hs : held.2.surface = none)
    (h : ports = [] ∨ ∀ ip, allocate taken held.1.surfaceBase = .ok ip →
      ∃ e, held.1.claimAddr ip (some (autoName display held.2)) (env.claims 0) = .error e) :
    surfaceIp display taken ports env held = (held, none) := by
  unfold surfaceIp
  simp only [hs]
  split_ifs with hempty
  · rfl
  · have hno := h.resolve_left (by simpa using hempty)
    cases halloc : allocate taken held.1.surfaceBase with
    | error e => rfl
    | ok ip =>
      obtain ⟨e, he⟩ := hno ip halloc
      simp only [he]

theorem announce_bare (m : PeerManager K) (r : ℕ) (peer : Peer K) (ports : List Port) (env : Env)
    (hr : m.records r = some peer) (hs : peer.surface = none)
    (h : ports = [] ∨ NoAddress display m peer env) :
    ∃ held : Held K, m.updatePeerPorts display r peer ports env = m.put r held ∧
      held.2.surface = none := by
  have hframe := releasePorts_frame (staleOf peer ports) (m.shared, peer)
  have htaken := projectedIps_put_same m r peer _ hr hframe.peer.surface
  have hname : autoName display (releasePorts (staleOf peer ports) (m.shared, peer)).2 =
      autoName display peer := by
    rw [autoName, autoName, hframe.peer.label, hframe.peer.endpointId]
  have hbare := surfaceIp_bare display m.projectedIps ports env
    (releasePorts (staleOf peer ports) (m.shared, peer)) (hframe.peer.surface.trans hs) (by
      refine h.imp_right fun hno ip hip => ?_
      rw [hframe.quiet.surfaceBase] at hip
      obtain ⟨e, he⟩ := hno ip hip
      rw [hname]
      exact ⟨e, (claimAddr_error m.shared _ _ _ _ hframe.quiet.os hframe.quiet.isSome e).mpr he⟩)
  refine ⟨_, rfl, ?_⟩
  rw [staleOf] at htaken hbare
  rw [htaken, hbare]
  exact hframe.peer.surface.trans hs

theorem bare_next (key : K) (m m' : PeerManager K) (req : Request K) (hm : Keyed m)
    (hs : surfaceOf m key = none) (hapart : Apart key m req) (hsilent : Silent display key m req)
    (h : next parse display m req = some m') : surfaceOf m' key = none := by
  cases served_next parse display m m' req h with
  | add k label =>
    simp only [next] at h
    split_ifs at h
    rw [surfaceOf_insert m k key label hm, hs, ite_self]
  | enroll k label =>
    rw [surfaceOf_insert m k key label hm, hs, ite_self]
  | announce r ports env peer hr =>
    by_cases hkey : m.peers[key]? = some r
    · have hnone := (surfaceOf_record m key r peer hkey hr).symm.trans hs
      obtain ⟨held, heq, hheld⟩ := announce_bare display m r peer ports env hr hnone
        (hsilent hkey peer hr)
      rw [heq, surfaceOf_put_self m key r held hkey, hheld]
    · obtain ⟨held, heq, -⟩ := update_placement display m r peer ports env hr
      rw [heq, surfaceOf_put_other m key r held hkey, hs]
  | project r ip name env peer hr =>
    obtain ⟨held, heq, -⟩ := project_spec display m r peer ip name env
    rw [heq, surfaceOf_put_other m key r held hapart, hs]
  | unproject r ref env peer hr =>
    rcases unproject_spec display m r peer ref env with ⟨-, heq⟩ | ⟨shared, heq, -⟩
    · rw [heq, hs]
    · rw [heq]
      by_cases hkey : m.peers[key]? = some r
      · rw [surfaceOf_put_self m key r _ hkey, dropSurface_surface]
      · rw [surfaceOf_put_other m key r _ hkey, hs]
  | forget k env =>
    rw [surfaceOf_evict display m k key env hm, hs, ite_self]
  | restart pinned config env => exact hapart.elim

theorem apart_claiming (key : K) (m m' : PeerManager K) (req : Request K)
    (hapart : Apart key m req) (h : next parse display m req = some m') :
    Claiming (fun surface => Gives display m surface req) m.shared m'.shared := by
  refine claiming_next parse display m m' req ?_ h
  rintro pinned config env rfl
  exact hapart

theorem unclaimed_next (key : K) (m m' : PeerManager K) (req : Request K) (ip : IpAddr)
    (hfree : ¬ Claims m.shared ip) (hapart : Apart key m req)
    (hnot : ∀ name, ¬ Gives display m ⟨ip, name⟩ req)
    (h : next parse display m req = some m') : ¬ Claims m'.shared ip := by
  intro hclaims
  rcases (apart_claiming parse display key m m' req hapart h).claims ip hclaims with
    hold | ⟨name, hnew⟩
  · exact hfree hold
  · exact hnot name hnew

theorem unnamed_next (key : K) (m m' : PeerManager K) (req : Request K) (name : String) (v4 : Ipv4)
    (hfree : nameAt m.shared name ≠ some v4) (hapart : Apart key m req)
    (hnot : ¬ Gives display m ⟨.v4 v4, some name⟩ req)
    (h : next parse display m req = some m') : nameAt m'.shared name ≠ some v4 := by
  intro hname
  rcases (apart_claiming parse display key m m' req hapart h).names name v4 hname with hold | hnew
  · exact hfree hold
  · exact hnot hnew

theorem down_of_bare (key : K) (m : PeerManager K) (hfollow : AllFollow m)
    (hs : surfaceOf m key = none) : Down key m := by
  refine ⟨hs, fun peer hget => ?_⟩
  obtain ⟨r, hkey, hr⟩ := (get_eq_some m key peer).mp hget
  rw [surfaceOf_record m key r peer hkey hr] at hs
  rw [Peer.bound, (hfollow r peer hr).bare hs]
  rfl

/-- Once taken down, the peer stays down over every run in which its
announcements are silent. Its old address is claimed again only when a surface is
given there, and a name is at it again only when one is given there under that
name. -/
theorem unproject_stays (os : Os) (path parent : String) (config : Config)
    (pre post : List (Request K)) (m₀ m : PeerManager K) (key : K) (r : ℕ) (peer : Peer K)
    (surface : Surface) (ref : String) (env : Env)
    (hreached : Reached parse display os path parent config pre m₀)
    (hkey : m₀.peers[key]? = some r) (hr : m₀.records r = some peer)
    (hs : peer.surface = some surface)
    (hdone : (m₀.unproject display r peer ref env).2 = .ok ())
    (hapart : Along (next parse display) (Apart key) (m₀.unproject display r peer ref env).1 post)
    (hsilent : Along (next parse display) (Silent display key)
      (m₀.unproject display r peer ref env).1 post)
    (h : exec (next parse display) (m₀.unproject display r peer ref env).1 post = some m) :
    Down key m ∧
      (Along (next parse display) (fun s req => ∀ name, ¬ Gives display s ⟨surface.ip, name⟩ req)
        (m₀.unproject display r peer ref env).1 post → ¬ Claims m.shared surface.ip) ∧
      ∀ name v4, surface.ip = .v4 v4 →
        Along (next parse display) (fun s req => ¬ Gives display s ⟨.v4 v4, some name⟩ req)
          (m₀.unproject display r peer ref env).1 post → nameAt m.shared name ≠ some v4 := by
  obtain ⟨hm₀, hfollow₀⟩ := follows_reached parse display os path parent config pre m₀ hreached
  have haliased := aliased_reached parse display os path parent config pre m₀ hreached
  have hnext : next parse display m₀ (.unproject r ref env) =
      some (m₀.unproject display r peer ref env).1 := by
    simp only [next, hr, Option.map_some]
  have hm₁ := keyed_next parse display m₀ _ _ hm₀ hnext
  have hfollow₁ := allFollow_next parse display m₀ _ _ hm₀ hfollow₀ hnext
  have htaken : surfaceOf (m₀.unproject display r peer ref env).1 key = none ∧
      ¬ Claims (m₀.unproject display r peer ref env).1.shared surface.ip := by
    cases unproject_outcome display m₀ r peer ref env with
    | bare hnone hunproject => cases hs.symm.trans hnone
    | failed surface' e hwas hnot hunproject =>
      rw [hunproject] at hdone
      cases hdone
    | taken surface' shared hwas hcan hunclaim hunproject =>
      obtain rfl := Option.some.inj (hs.symm.trans hwas)
      have hquiet := (dropSurface_frame (m₀.shared, peer)).1
      rw [hunproject]
      constructor
      · rw [surfaceOf_put_self m₀ key r _ hkey, dropSurface_surface]
      · exact unclaimAddr_gone _ shared _ _
          ((claiming_quiet (fun _ => False) _ _ hquiet).aliased haliased) hunclaim
  have hboth := along_and (next parse display) _ _ _ post hapart hsilent
  refine ⟨?_, ?_, ?_⟩
  · have hdown := along_invariant (next parse display) _
      (fun s => Keyed s ∧ AllFollow s ∧ surfaceOf s key = none) (by
        rintro s req t ⟨hap, hsil⟩ ⟨hks, hfs, hss⟩ hst
        exact ⟨keyed_next parse display s t req hks hst,
          allFollow_next parse display s t req hks hfs hst,
          bare_next parse display key s t req hks hss hap hsil hst⟩)
      _ ⟨hm₁, hfollow₁, htaken.1⟩ post hboth m h
    exact down_of_bare key m hdown.2.1 hdown.2.2
  · intro hnot
    refine along_invariant (next parse display) _ (fun s => ¬ Claims s.shared surface.ip) ?_
      _ htaken.2 post (along_and (next parse display) _ _ _ post hapart hnot) m h
    rintro s req t ⟨hap, hgives⟩ hfree hst
    exact unclaimed_next parse display key s t req surface.ip hfree hap hgives hst
  · intro name v4 hip hnot
    refine along_invariant (next parse display) _ (fun s => nameAt s.shared name ≠ some v4) ?_
      _ ?_ post (along_and (next parse display) _ _ _ post hapart hnot) m h
    · rintro s req t ⟨hap, hgives⟩ hfree hst
      exact unnamed_next parse display key s t req name v4 hfree hap hgives hst
    · intro hname
      exact htaken.2 (Or.inl ⟨name, v4, hname, hip⟩)

end

def announced : List (Request Bool) := [.add false (some "build"), .announce 0 [80] {}]

def withdrawn : List (Request Bool) :=
  [.announce 0 [] {}, .add true none, .project 1 (some (loopbackBase.host 9)) none {},
    .announce 1 [443] {}]

theorem withdrawn_stays : ∃ m₀ m peer,
    Reached Restart.parseKey Restart.displayKey .macos "surfaces.json" "." {} announced m₀ ∧
    m₀.records 0 = some peer ∧ peer.surface = some ⟨loopbackBase.host 2, some "build"⟩ ∧
    exec (next Restart.parseKey Restart.displayKey)
      (m₀.unproject Restart.displayKey 0 peer "build" {}).1 withdrawn = some m ∧
    Down false m ∧ ¬ Claims m.shared (loopbackBase.host 2) := by
  refine ⟨_, _, _, rfl, rfl, rfl, rfl, ?_⟩
  have hstays := unproject_stays Restart.parseKey Restart.displayKey .macos "surfaces.json" "." {}
    announced withdrawn _ _ false 0 _ ⟨loopbackBase.host 2, some "build"⟩ "build" {} rfl
    (by decide +kernel) rfl rfl (by decide +kernel) ?apart ?silent rfl
  case apart =>
    refine ⟨trivial, ?_⟩
    rintro _ ⟨⟩
    refine ⟨trivial, ?_⟩
    rintro _ ⟨⟩
    refine ⟨fun hown => absurd hown ?_, fun _ _ => ⟨trivial, fun _ _ => trivial⟩⟩
    decide +kernel
  case silent =>
    refine ⟨fun _ _ _ => Or.inl rfl, ?_⟩
    rintro _ ⟨⟩
    refine ⟨trivial, ?_⟩
    rintro _ ⟨⟩
    refine ⟨trivial, ?_⟩
    rintro _ ⟨⟩
    refine ⟨fun hown => absurd hown ?_, fun _ _ => trivial⟩
    decide +kernel
  refine ⟨hstays.1, hstays.2.1 ?_⟩
  refine ⟨fun _ ⟨_, _, _, hports, _⟩ => hports rfl, ?_⟩
  rintro _ ⟨⟩
  refine ⟨fun _ => id, ?_⟩
  rintro _ ⟨⟩
  refine ⟨?_, ?_⟩
  · rintro name ⟨_, -, hchosen, -⟩
    have hsame : loopbackBase.host 9 = loopbackBase.host 2 := Except.ok.inj hchosen
    revert hsame
    decide
  rintro _ ⟨⟩
  refine ⟨?_, fun _ _ => trivial⟩
  rintro name ⟨peer, ⟨⟩, hnone, -⟩
  cases hnone

/-- The peer announces again, as it does on every reconnect. -/
theorem announced_again_up : ∃ m₀ m peer,
    Reached Restart.parseKey Restart.displayKey .linux "surfaces.json" "." {} announced m₀ ∧
    m₀.peers[false]? = some 0 ∧ m₀.records 0 = some peer ∧
    (m₀.unproject Restart.displayKey 0 peer "build" {}).2 = .ok () ∧
    exec (next Restart.parseKey Restart.displayKey)
      (m₀.unproject Restart.displayKey 0 peer "build" {}).1 [.announce 0 [80] {}] = some m ∧
    surfaceOf m false = some ⟨loopbackBase.host 2, some "build"⟩ ∧ ¬ Down false m := by
  refine ⟨_, _, _, rfl, ?_, rfl, ?_, rfl, ?_, fun h => ?_⟩
  · decide +kernel
  · decide +kernel
  · decide +kernel
  · have hnone := h.surface
    revert hnone
    decide +kernel

end PaiSho.TakenDown
