import PaiSho.Library.MirrorMaps
import PaiSho.Addresses
import PaiSho.Names
import PaiSho.Resolver
import PaiSho.SurfaceOutcomes

/-!
# The stack's names and the peer table

The stack keeps its names in a map of its own: claiming an address enters a
name, giving it back deletes whatever names that address. The map follows the
surfaces of the table as long as each name and each address has one owner, among
the peers and the node itself, and the loopback resolver, which asks the table,
then answers as the resolver of the stack does.
-/

set_option autoImplicit false

namespace PaiSho.NameMap
open Std (ExtTreeMap)
open Library.Traces Library.MirrorMaps
open GrantTable (Port)
open PinnedPeers (Pin)
open SurfaceManager SurfacePorts SurfaceSteps SurfaceRestore SurfaceOutcomes
open Addresses (Distinct)
open Names (nameOf nameOf_map)
open Resolver (reply handleQuery resolveName parseQuestion hostLabel)

section
variable {K : Type} [LinearOrder K] (parse : String → Option K) (display : K → String)

/-- The address belongs to the name: it is the node's own, or a surface of the
table carries the name there. -/
def Named (m : PeerManager K) (name : String) (v4 : Ipv4) : Prop :=
  (m.config.name = some name ∧ m.config.host = .v4 v4) ∨
    ∃ k, surfaceOf m k = some ⟨.v4 v4, some name⟩

structure Unclaimed (m : PeerManager K) (key : K) (surface : Surface) : Prop where
  v4 : ∃ v4, surface.ip = .v4 v4
  apart : m.config.name ≠ none → surface.ip ≠ m.config.host
  renamed : surface.name ≠ none → surface.name ≠ m.config.name
  others : ∀ k other, k ≠ key → surfaceOf m k = some other →
    other.ip ≠ surface.ip ∧ (surface.name ≠ none → other.name ≠ surface.name)

structure InStep (m : PeerManager K) : Prop where
  keyed : Keyed m
  stack : m.shared.netstack.isSome = true
  host : ∃ v4, m.config.host = .v4 v4
  v4 : ∀ k surface, surfaceOf m k = some surface → ∃ v4, surface.ip = .v4 v4
  distinct : Distinct m
  apart : ∀ k surface, surfaceOf m k = some surface → m.config.name ≠ none →
    surface.ip ≠ m.config.host
  mirrors : Mirrors (nameOf m) (Named m)

theorem inStep_same (m m' : PeerManager K) (h : InStep m) (hkeyed : Keyed m')
    (hconfig : m'.config = m.config)
    (hstack : m'.shared.netstack.isSome = m.shared.netstack.isSome)
    (hsurface : ∀ k, surfaceOf m' k = surfaceOf m k)
    (hnames : ∀ name, nameOf m' name = nameOf m name) : InStep m' := by
  constructor
  case keyed => exact hkeyed
  case stack => exact hstack.trans h.stack
  case host => exact hconfig ▸ h.host
  case v4 =>
    intro k surface hs
    exact h.v4 k surface (hsurface k ▸ hs)
  case distinct =>
    intro k k' surface surface' hs hs'
    exact h.distinct k k' surface surface' (hsurface k ▸ hs) (hsurface k' ▸ hs')
  case apart =>
    intro k surface hs
    rw [hconfig]
    exact h.apart k surface (hsurface k ▸ hs)
  case mirrors =>
    apply h.mirrors.congr hnames
    intro name v4
    simp only [Named, hconfig, hsurface]

/-- What is named after a surface is gone: what was, at any other address. The
owner of another address is not this key, and no other owner has this one. -/
theorem named_dropped (m m' : PeerManager K) (h : InStep m) (hconfig : m'.config = m.config)
    (key : K) (v4 : Ipv4) (name : Option String)
    (hwas : surfaceOf m key = some ⟨.v4 v4, name⟩)
    (hsurface : ∀ k, surfaceOf m' k = if k = key then none else surfaceOf m k)
    (n : String) (b : Ipv4) : Named m' n b ↔ Named m n b ∧ b ≠ v4 := by
  constructor
  · rintro (⟨hown, hhost⟩ | ⟨k, hs⟩)
    · rw [hconfig] at hown hhost
      refine ⟨Or.inl ⟨hown, hhost⟩, ?_⟩
      rintro rfl
      exact h.apart key _ hwas (by simp [hown]) hhost.symm
    · rw [hsurface] at hs
      split_ifs at hs with hk
      refine ⟨Or.inr ⟨k, hs⟩, ?_⟩
      rintro rfl
      exact hk (h.distinct k key _ _ hs hwas rfl)
  · rintro ⟨⟨hown, hhost⟩ | ⟨k, hs⟩, hne⟩
    · exact Or.inl (by rw [hconfig]; exact ⟨hown, hhost⟩)
    · refine Or.inr ⟨k, ?_⟩
      have hk : k ≠ key := by
        rintro rfl
        have := Option.some.inj (hs.symm.trans hwas)
        exact hne (IpAddr.v4.inj (Surface.mk.inj this).1)
      rw [hsurface, if_neg hk]
      exact hs

theorem inStep_drop (m m' : PeerManager K) (h : InStep m) (hkeyed : Keyed m')
    (hconfig : m'.config = m.config)
    (hstack : m'.shared.netstack.isSome = m.shared.netstack.isSome) (key : K) (v4 : Ipv4)
    (name : Option String) (hwas : surfaceOf m key = some ⟨.v4 v4, name⟩)
    (hsurface : ∀ k, surfaceOf m' k = if k = key then none else surfaceOf m k)
    (hnames : ∀ name, nameOf m' name = (nameOf m name).filter (· ≠ v4)) : InStep m' := by
  have hsub : ∀ k surface, surfaceOf m' k = some surface → surfaceOf m k = some surface := by
    intro k surface hs
    rw [hsurface] at hs
    split_ifs at hs
    exact hs
  constructor
  case keyed => exact hkeyed
  case stack => exact hstack.trans h.stack
  case host => exact hconfig ▸ h.host
  case v4 =>
    intro k surface hs
    exact h.v4 k surface (hsub k surface hs)
  case distinct =>
    intro k k' surface surface' hs hs'
    exact h.distinct k k' surface surface' (hsub k surface hs) (hsub k' surface' hs')
  case apart =>
    intro k surface hs
    rw [hconfig]
    exact h.apart k surface (hsub k surface hs)
  case mirrors =>
    have hdropped := named_dropped m m' h hconfig key v4 name hwas hsurface
    exact (h.mirrors.delete v4 hdropped).congr hnames fun _ _ => Iff.rfl

theorem named_placed (m m' : PeerManager K) (hconfig : m'.config = m.config) (key : K)
    (surface : Surface) (hnone : surfaceOf m key = none)
    (hsurface : ∀ k, surfaceOf m' k = if k = key then some surface else surfaceOf m k)
    (n : String) (b : Ipv4) :
    Named m' n b ↔ Named m n b ∨ surface = ⟨.v4 b, some n⟩ := by
  simp only [Named, hconfig, or_assoc]
  refine or_congr_right ?_
  constructor
  · rintro ⟨k, hs⟩
    rw [hsurface] at hs
    split_ifs at hs
    · exact Or.inr (Option.some.inj hs)
    · exact Or.inl ⟨k, hs⟩
  · rintro (⟨k, hs⟩ | heq)
    · refine ⟨k, ?_⟩
      have hk : k ≠ key := by
        rintro rfl
        cases hnone.symm.trans hs
      rw [hsurface, if_neg hk, hs]
    · exact ⟨key, by rw [hsurface, if_pos rfl, heq]⟩

theorem inStep_place (m m' : PeerManager K) (h : InStep m) (hkeyed : Keyed m')
    (hconfig : m'.config = m.config)
    (hstack : m'.shared.netstack.isSome = m.shared.netstack.isSome) (key : K) (surface : Surface)
    (hnone : surfaceOf m key = none) (hfree : Unclaimed m key surface)
    (hsurface : ∀ k, surfaceOf m' k = if k = key then some surface else surfaceOf m k)
    (hnames : ∀ name, nameOf m' name = namesAfter (nameOf m) surface.ip surface.name name) :
    InStep m' := by
  have hcases : ∀ k other, surfaceOf m' k = some other →
      (k = key ∧ other = surface) ∨ (k ≠ key ∧ surfaceOf m k = some other) := by
    intro k other hs
    rw [hsurface] at hs
    split_ifs at hs with hk
    · exact Or.inl ⟨hk, (Option.some.inj hs).symm⟩
    · exact Or.inr ⟨hk, hs⟩
  constructor
  case keyed => exact hkeyed
  case stack => exact hstack.trans h.stack
  case host => exact hconfig ▸ h.host
  case v4 =>
    intro k other hs
    rcases hcases k other hs with ⟨-, rfl⟩ | ⟨-, hold⟩
    · exact hfree.v4
    · exact h.v4 k other hold
  case distinct =>
    intro k k' other other' hs hs' hip
    rcases hcases k other hs with ⟨rfl, rfl⟩ | ⟨hk, hold⟩
    · rcases hcases k' other' hs' with ⟨rfl, -⟩ | ⟨hk', hold'⟩
      · rfl
      · exact absurd hip.symm (hfree.others k' other' hk' hold').1
    · rcases hcases k' other' hs' with ⟨rfl, rfl⟩ | ⟨-, hold'⟩
      · exact absurd hip (hfree.others k other hk hold).1
      · exact h.distinct k k' other other' hold hold' hip
  case apart =>
    intro k other hs
    rw [hconfig]
    rcases hcases k other hs with ⟨-, rfl⟩ | ⟨-, hold⟩
    · exact hfree.apart
    · exact h.apart k other hold
  case mirrors =>
    obtain ⟨v4, hv4⟩ := hfree.v4
    obtain ⟨ip, name⟩ := surface
    obtain rfl : ip = .v4 v4 := hv4
    have hnamed := named_placed m m' hconfig key ⟨.v4 v4, name⟩ hnone hsurface
    cases name with
    | none =>
      refine h.mirrors.congr hnames fun n b => ?_
      rw [hnamed]
      simp
    | some name =>
      refine (h.mirrors.enter name v4 (S := Named m') ?_ ?_).congr hnames fun _ _ => Iff.rfl
      · rintro b (⟨hown, -⟩ | ⟨k, hs⟩)
        · exact hfree.renamed (by simp) hown.symm
        · have hk : k ≠ key := by
            rintro rfl
            cases hnone.symm.trans hs
          exact (hfree.others k _ hk hs).2 (by simp) rfl
      · intro n b
        rw [hnamed]
        simp [eq_comm, and_comm]

theorem unclaimAddr_names (s : Shared) (v4 : Ipv4) (ran : Except String Unit)
    (h : s.netstack.isSome = true) :
    ∃ s', s.unclaimAddr (.v4 v4) ran = .ok s' ∧ s'.netstack.map NetStack.names =
      s.netstack.map (fun ns name => (ns.names name).filter (· ≠ v4)) := by
  obtain ⟨ns, hns⟩ := Option.isSome_iff_exists.mp h
  refine ⟨{ s with netstack := some (ns.removeSurface v4) }, ?_, ?_⟩
  · simp only [Shared.unclaimAddr, hns]
  · simp [hns, NetStack.removeSurface]

theorem nameOf_same (m m' : PeerManager K)
    (h : m'.shared.netstack.map NetStack.names = m.shared.netstack.map NetStack.names)
    (name : String) : nameOf m' name = nameOf m name := by
  rw [nameOf_map, nameOf_map, h]

theorem nameOf_removed (m m' : PeerManager K) (v4 : Ipv4)
    (h : m'.shared.netstack.map NetStack.names =
      m.shared.netstack.map (fun ns name => (ns.names name).filter (· ≠ v4)))
    (name : String) : nameOf m' name = (nameOf m name).filter (· ≠ v4) := by
  rw [nameOf_map, h, nameOf]
  cases m.shared.netstack <;> rfl

theorem nameOf_claimed (m m' : PeerManager K) (ip : IpAddr) (own : Option String)
    (hstack : m.shared.netstack.isSome = true)
    (h : m'.shared.netstack.map NetStack.names =
      m.shared.netstack.map (fun ns => namesAfter ns.names ip own))
    (name : String) : nameOf m' name = namesAfter (nameOf m) ip own name := by
  obtain ⟨ns, hns⟩ := Option.isSome_iff_exists.mp hstack
  have hnames : nameOf m = ns.names := by
    funext n
    rw [nameOf, hns]
    rfl
  rw [nameOf_map, h, hns, hnames]
  rfl

theorem inStep_tearDown (m : PeerManager K) (h : InStep m) (key : K) (r : ℕ) (peer : Peer K)
    (hkey : m.peers[key]? = some r) (hr : m.records r = some peer) (ran : Except String Unit) :
    InStep (m.put r (tearDown (m.shared, peer) ran)) := by
  obtain ⟨hsurface, hid, -, -, -, -, hsome⟩ := tearDown_spec (m.shared, peer) ran
  have hkeyed := keyed_put m r peer _ h.keyed hr hid
  have hwas := surfaceOf_record m key r peer hkey hr
  cases hs : peer.surface with
  | none =>
    have hsame : tearDown (m.shared, peer) ran = (m.shared, peer) := by simp only [tearDown, hs]
    rw [hsame, put_eta m r peer hr]
    exact h
  | some old =>
    obtain ⟨v4, hv4⟩ := h.v4 key old (hwas.trans hs)
    obtain ⟨ip, name⟩ := old
    obtain rfl : ip = .v4 v4 := hv4
    have hquiet := (dropSurface_frame (m.shared, peer)).1
    obtain ⟨shared, hok, hnames⟩ := unclaimAddr_names (dropSurface (m.shared, peer)).1 v4 ran
      (hquiet.isSome.trans h.stack)
    refine inStep_drop m _ h hkeyed rfl hsome key v4 name (hwas.trans hs) ?_ ?_
    · intro k
      split_ifs with hk
      · rw [hk, surfaceOf_put_self m key r _ hkey, hsurface]
      · exact surfaceOf_put_ne m h.keyed key k r _ hkey hk
    · apply nameOf_removed
      have hremoved := congrArg (Option.map fun names name =>
        ((names : String → Option Ipv4) name).filter (· ≠ v4)) hquiet.names
      simp only [Option.map_map] at hremoved
      simp only [put_shared, tearDown, hs, Shared.unclaimed, hok]
      exact hnames.trans hremoved

theorem surfaceOf_put_same (m : PeerManager K) (r : ℕ) (peer : Peer K) (held : Held K)
    (hr : m.records r = some peer) (hsame : held.2.surface = peer.surface) (k : K) :
    surfaceOf (m.put r held) k = surfaceOf m k := by
  by_cases hk : m.peers[k]? = some r
  · rw [surfaceOf_put_self m k r held hk, hsame, surfaceOf_record m k r peer hk hr]
  · exact surfaceOf_put_other m k r held hk

theorem surfaceOf_put_if (m : PeerManager K) (hm : Keyed m) (key : K) (r : ℕ) (held : Held K)
    (hkey : m.peers[key]? = some r) (k : K) :
    surfaceOf (m.put r held) k = if k = key then held.2.surface else surfaceOf m k := by
  split_ifs with hk
  · rw [hk, surfaceOf_put_self m key r held hkey]
  · exact surfaceOf_put_ne m hm key k r held hkey hk

theorem surfaceOf_absent (m : PeerManager K) (k : K) (h : k ∉ m.peers) :
    surfaceOf m k = none := by
  have hnone : m.peers[k]? = none := ExtTreeMap.getElem?_eq_none h
  simp [surfaceOf, PeerManager.get, hnone]

theorem inStep_insert (m : PeerManager K) (h : InStep m) (key : K) (label : Option String)
    (hnone : surfaceOf m key = none) : InStep (m.insert key label) := by
  refine inStep_same m _ h (keyed_insert m key label h.keyed) rfl rfl ?_ fun _ => rfl
  intro k
  rw [surfaceOf_insert m key k label h.keyed]
  split_ifs with hk
  · rw [hk, hnone]
  · rfl

theorem inStep_announce (m : PeerManager K) (h : InStep m) (r : ℕ) (peer : Peer K)
    (ports : List Port) (env : Env) (hr : m.records r = some peer)
    (hclear : ∀ ip, peer.surface = none → ports ≠ [] →
      allocate m.projectedIps m.shared.surfaceBase = .ok ip → ∃ k, m.peers[k]? = some r ∧
        Unclaimed m k ⟨ip, some (autoName display peer)⟩) :
    InStep (m.updatePeerPorts display r peer ports env) := by
  obtain ⟨held, heq, hplace, hid, -⟩ := update_placement display m r peer ports env hr
  have hkeyed := keyed_put m r peer held h.keyed hr hid
  have hsome := placement_isSome display m peer ports env held hplace
  rw [heq]
  cases hplace with
  | kept surface hwas hsurface hquiet =>
    exact inStep_same m _ h hkeyed rfl hsome
      (surfaceOf_put_same m r peer held hr (hsurface.trans hwas.symm))
      (nameOf_same m _ hquiet.names)
  | bare hwas hsurface hquiet hnone =>
    exact inStep_same m _ h hkeyed rfl hsome
      (surfaceOf_put_same m r peer held hr (hsurface.trans hwas.symm))
      (nameOf_same m _ hquiet.names)
  | auto ip hwas hports hfree hsurface hnames hfile =>
    obtain ⟨key, hkey, hunclaimed⟩ := hclear ip hwas hports hfree
    refine inStep_place m _ h hkeyed rfl hsome key ⟨ip, some (autoName display peer)⟩ ?_ hunclaimed
      ?_ (nameOf_claimed m _ ip _ h.stack hnames)
    · rw [surfaceOf_record m key r peer hkey hr, hwas]
    · intro k
      rw [surfaceOf_put_if m h.keyed key r held hkey, hsurface]

theorem inStep_project (m : PeerManager K) (h : InStep m) (key : K) (r : ℕ) (peer : Peer K)
    (ip : Option IpAddr) (name : Option String) (env : Env) (hkey : m.peers[key]? = some r)
    (hr : m.records r = some peer)
    (hclear : ∀ ip', choose (ipsBeside m r) m.shared.surfaceBase ip = .ok ip' →
      Unclaimed m key ⟨ip', name.or peer.label⟩) :
    InStep (m.project display r peer ip name env).1 := by
  have hdown := inStep_tearDown m h key r peer hkey hr env.unclaim
  obtain ⟨hsurface, hid, -, -, -, -, hsome⟩ := tearDown_spec (m.shared, peer) env.unclaim
  cases project_outcome display m r peer ip name env with
  | failed e hnot hproject =>
    rw [hproject]
    exact hdown
  | placed ip' shared hchosen hclaim hproject =>
    have hclaimed := claimAddr_ok _ shared _ _ _ hclaim
    have hframe := bindPorts_frame ip' peer.exposedPorts env.tries
      (place display (shared, (tearDown (m.shared, peer) env.unclaim).2)
        ⟨ip', name.or peer.label⟩ env.io)
    rw [hproject]
    have hfree := hclear ip' hchosen
    refine inStep_place _ _ hdown (keyed_put m r peer _ h.keyed hr (hframe.peer.endpointId.trans hid))
      rfl ?_ key ⟨ip', name.or peer.label⟩ ?_ ?_ ?_ ?_
    · exact hframe.quiet.isSome.trans hclaimed.isSome
    · rw [surfaceOf_put_self m key r _ hkey, hsurface]
    · -- the teardown leaves the surfaces of the others as they are
      refine ⟨hfree.v4, hfree.apart, hfree.renamed, fun k other hk hs => ?_⟩
      rw [surfaceOf_put_ne m h.keyed key k r _ hkey hk] at hs
      exact hfree.others k other hk hs
    · intro k
      rw [surfaceOf_put_if m h.keyed key r _ hkey, surfaceOf_put_if m h.keyed key r _ hkey,
        hframe.peer.surface]
      split_ifs <;> rfl
    · exact nameOf_claimed _ _ ip' _ hdown.stack (hframe.quiet.names.trans hclaimed.names)

theorem inStep_unproject (m : PeerManager K) (h : InStep m) (r : ℕ) (peer : Peer K) (ref : String)
    (env : Env) (hr : m.records r = some peer)
    (hclear : peer.surface ≠ none → ∃ k : K, m.peers[k]? = some r) :
    InStep (m.unproject display r peer ref env).1 := by
  cases unproject_outcome display m r peer ref env with
  | bare hnone hunproject =>
    rw [hunproject]
    exact h
  | failed surface e hwas hnot hunproject => exact absurd (Or.inl h.stack) hnot
  | taken surface shared hwas hcan hunclaim hunproject =>
    -- memory is left as a teardown leaves it; only the file is written besides
    obtain ⟨key, hkey⟩ := hclear (by simp [hwas])
    have hdown : tearDown (m.shared, peer) env.unclaim =
        (shared, (dropSurface (m.shared, peer)).2) := by
      simp only [tearDown, hwas, Shared.unclaimed, hunclaim]
    have hstep := inStep_tearDown m h key r peer hkey hr env.unclaim
    rw [hdown] at hstep
    rw [hunproject]
    refine inStep_same _ _ hstep ?_ rfl rfl (fun k => ?_) fun _ => rfl
    · exact keyed_put m r peer _ h.keyed hr (dropSurface_frame (m.shared, peer)).2.1
    · rw [surfaceOf_put_if m h.keyed key r _ hkey, surfaceOf_put_if m h.keyed key r _ hkey]

theorem inStep_evict (m : PeerManager K) (h : InStep m) (key : K) (env : Env) :
    InStep (m.evict display key env) := by
  have hkeyed := keyed_evict display m key env h.keyed
  have hsurface := fun k => surfaceOf_evict display m key k env h.keyed
  cases hr : m.peers[key]? with
  | none =>
    have heq : m.evict display key env = m.dropRecord display key env.io := by
      simp only [PeerManager.evict, hr]
    rw [heq] at hkeyed ⊢
    exact inStep_same m _ h hkeyed rfl rfl (fun _ => rfl) fun _ => rfl
  | some r =>
    obtain ⟨peer, hpeer, -⟩ := h.keyed.owned key r hr
    have hdown := inStep_tearDown m h key r peer hr hpeer env.unclaim
    have hnames : ((dropSurface (m.shared, peer)).1.giveBack env.unclaim
          peer.surface).netstack.map NetStack.names =
        (tearDown (m.shared, peer) env.unclaim).1.netstack.map NetStack.names := by
      cases hs : peer.surface with
      | none =>
        simp only [tearDown, hs]
        exact (dropSurface_frame (m.shared, peer)).1.names
      | some old => simp only [tearDown, hs, Shared.giveBack]
    have heq : (m.evict display key env).shared.netstack =
        ((dropSurface (m.shared, peer)).1.giveBack env.unclaim peer.surface).netstack := by
      simp only [PeerManager.evict, hr, hpeer, PeerManager.dropRecord, put_shared]
    have hconfig : (m.evict display key env).config = m.config := by
      simp only [PeerManager.evict, hr, hpeer, PeerManager.dropRecord]
      rfl
    refine inStep_same _ _ hdown hkeyed hconfig ?_ ?_ (nameOf_same _ _ ?_)
    · have := congrArg Option.isSome hnames
      rw [heq]
      simpa using this
    · intro k
      rw [hsurface, surfaceOf_put_if m h.keyed key r _ hr,
        (tearDown_spec (m.shared, peer) env.unclaim).1]
    · rw [heq]
      exact hnames

def Owner (loads : K → Prop) (record : SurfaceRecord) (k : K) : Prop :=
  parse record.key = some k ∧ loads k

/-- The records that come back: nothing of theirs is the node's own, and no two
have a peer, an address or a name in common. -/
structure ClearFile (loads : K → Prop) (config : Config) (records : List SurfaceRecord) :
    Prop where
  own : ∀ record ∈ records, ∀ k, Owner parse loads record k → (∃ v4, record.ip = .v4 v4) ∧
    (config.name ≠ none → record.ip ≠ config.host) ∧
    (record.name ≠ none → record.name ≠ config.name)
  apart : records.Pairwise (fun record record' => ∀ k k', Owner parse loads record k →
    Owner parse loads record' k' → k ≠ k' ∧ record.ip ≠ record'.ip ∧
      (record'.name ≠ none → record.name ≠ record'.name))

theorem addPinned_config (m : PeerManager K) (pin : Pin) :
    (m.addPinned parse pin).config = m.config := by
  unfold PeerManager.addPinned
  cases parse pin.key with
  | none => rfl
  | some key =>
    dsimp only
    split_ifs <;> rfl

theorem load_config (pinned : List Pin) (m : PeerManager K) :
    (pinned.foldl (PeerManager.addPinned parse) m).config = m.config := by
  induction pinned generalizing m with
  | nil => rfl
  | cons pin pinned ih => exact (ih _).trans (addPinned_config parse m pin)

theorem inStep_blank (m : PeerManager K) (hkeyed : Keyed m) (hblank : Blank m)
    (htun : m.config.tun = true) (hhost : ∃ v4, m.config.host = .v4 v4)
    (hshared : m.shared.netstack = m.config.netstack) : InStep m := by
  have hnone := surfaceOf_blank m hblank
  constructor
  case keyed => exact hkeyed
  case stack =>
    rw [hshared, Config.netstack, if_pos htun]
    split <;> rfl
  case host => exact hhost
  case v4 =>
    intro k surface hs
    cases (hnone k).symm.trans hs
  case distinct =>
    intro k k' surface surface' hs
    cases (hnone k).symm.trans hs
  case apart =>
    intro k surface hs
    cases (hnone k).symm.trans hs
  case mirrors =>
    obtain ⟨v4, hv4⟩ := hhost
    intro name b
    have hnamed : Named m name b ↔ m.config.name = some name ∧ v4 = b := by
      simp [Named, hnone, hv4]
    rw [hnamed, nameOf, hshared, Config.netstack, if_pos htun, hv4]
    cases hname : m.config.name with
    | none => simp
    | some own =>
      by_cases heq : name = own
      · simp [NetStack.addSurface, heq]
      · simp [NetStack.addSurface, heq, Ne.symm heq]

theorem restoreOne_config (m : PeerManager K) (record : SurfaceRecord) (ran : Except String Unit)
    (hm : Keyed m) : (m.restoreOne parse record ran).config = m.config := by
  rcases restoreOne_cases parse m record ran hm with ⟨heq, -⟩ | ⟨k, r, peer, shared, -, -, -, -, heq⟩
  · rw [heq]
  · rw [heq]
    rfl

theorem inStep_restoreOne (m : PeerManager K) (h : InStep m) (record : SurfaceRecord)
    (ran : Except String Unit)
    (hfree : ∀ k, Owner parse (· ∈ m.peers) record k → surfaceOf m k = none ∧
      Unclaimed m k ⟨record.ip, record.name⟩) :
    InStep (m.restoreOne parse record ran) ∧ ∀ k surface,
      surfaceOf (m.restoreOne parse record ran) k = some surface →
        surfaceOf m k = some surface ∨
          (Owner parse (· ∈ m.peers) record k ∧ surface = ⟨record.ip, record.name⟩) := by
  rcases restoreOne_cases parse m record ran h.keyed with
    ⟨heq, -⟩ | ⟨key, r, peer, shared, hparse, hkey, hpeer, hclaim, heq⟩
  · rw [heq]
    exact ⟨h, fun k surface => Or.inl⟩
  · have hin : key ∈ m.peers := by
      rw [ExtTreeMap.mem_iff_isSome_getElem?, hkey]
      rfl
    have hclaimed := claimAddr_ok _ shared _ _ _ hclaim
    obtain ⟨hnone, hunclaimed⟩ := hfree key ⟨hparse, hin⟩
    have hsurface := surfaceOf_put_if m h.keyed key r
      (shared, { peer with surface := some ⟨record.ip, record.name⟩ }) hkey
    rw [heq]
    constructor
    · exact inStep_place m _ h (keyed_put m r peer _ h.keyed hpeer rfl) rfl hclaimed.isSome key
        ⟨record.ip, record.name⟩ hnone hunclaimed hsurface
        (nameOf_claimed m _ record.ip record.name h.stack hclaimed.names)
    · intro k surface hs
      rw [hsurface] at hs
      split_ifs at hs with hk
      · subst hk
        exact Or.inr ⟨⟨hparse, hin⟩, (Option.some.inj hs).symm⟩
      · exact Or.inl hs

theorem inStep_restoreAll (records : List SurfaceRecord) (ran : ℕ → Except String Unit)
    (m : PeerManager K) (h : InStep m) (hfile : ClearFile parse (· ∈ m.peers) m.config records)
    (hfree : ∀ record ∈ records, ∀ k, Owner parse (· ∈ m.peers) record k →
      surfaceOf m k = none ∧ ∀ k' other, surfaceOf m k' = some other →
        other.ip ≠ record.ip ∧ (record.name ≠ none → other.name ≠ record.name)) :
    InStep (restoreAll parse records ran m) := by
  induction records generalizing ran m with
  | nil => exact h
  | cons record records ih =>
    obtain ⟨hfirst, hrest⟩ := List.pairwise_cons.mp hfile.apart
    have hpeers := (restoring_one parse m record (ran 0) h.keyed).peers
    have hconfig := restoreOne_config parse m record (ran 0) h.keyed
    obtain ⟨hone, hcases⟩ := inStep_restoreOne parse m h record (ran 0) (by
      intro k hk
      obtain ⟨hnone, hothers⟩ := hfree record (by simp) k hk
      obtain ⟨hv4, hapart, hrenamed⟩ := hfile.own record (by simp) k hk
      exact ⟨hnone, hv4, hapart, hrenamed, fun k' other _ hs => hothers k' other hs⟩)
    refine ih (fun i => ran (i+1)) _ hone ?_ ?_
    · rw [hpeers, hconfig]
      exact ⟨fun record' hin => hfile.own record' (List.mem_cons_of_mem _ hin), hrest⟩
    · -- the records to come share nothing with the one just placed
      rw [hpeers]
      intro record' hin k hk
      obtain ⟨hnone, hothers⟩ := hfree record' (List.mem_cons_of_mem _ hin) k hk
      constructor
      · rw [Option.eq_none_iff_forall_ne_some]
        intro surface hs
        rcases hcases k surface hs with hold | ⟨hown, -⟩
        · cases hnone.symm.trans hold
        · exact (hfirst record' hin k k hown hk).1 rfl
      · intro k' other hs
        rcases hcases k' other hs with hold | ⟨hown, rfl⟩
        · exact hothers k' other hold
        · exact (hfirst record' hin k' k hown hk).2

theorem inStep_restart (m : PeerManager K) (pinned : List Pin) (config : Config) (env : Env)
    (htun : config.tun = true) (hhost : ∃ v4, config.host = .v4 v4)
    (hclear : ∀ records, m.shared.surfaces.load env.io.read = .ok records →
      ClearFile parse (fun k => ∃ pin ∈ pinned, parse pin.key = some k) config records) :
    InStep (m.restart parse pinned config env) := by
  have hload := loaded_all parse pinned m.shared config
  have hconfig := load_config parse pinned (PeerManager.boot m.shared config)
  have hblank := inStep_blank _ hload.keyed hload.blank (by rw [hconfig]; exact htun)
    (by rw [hconfig]; exact hhost) (by rw [hload.shared, hconfig]; rfl)
  have hfile := congrArg Shared.surfaces hload.shared
  have hpeers : (fun k => k ∈ (pinned.foldl (PeerManager.addPinned parse)
      (PeerManager.boot m.shared config)).peers) = fun k => ∃ pin ∈ pinned, parse pin.key = some k := by
    funext k
    exact propext (hload.peers k)
  unfold PeerManager.restart PeerManager.restoreSurfaces
  rw [hfile]
  cases hrecords : m.shared.surfaces.load env.io.read with
  | error e => exact hblank
  | ok records =>
    refine inStep_restoreAll parse records env.claims _ hblank ?_ ?_
    · rw [hpeers, hconfig]
      exact hclear records hrecords
    · intro record hin k hk
      refine ⟨surfaceOf_blank _ hload.blank k, fun k' other hs => ?_⟩
      cases (surfaceOf_blank _ hload.blank k').symm.trans hs

/-- A surface the request makes is for a peer of the table and takes no name or
address of another owner, and no surface leaves the table with its record. -/
def Clear (m : PeerManager K) : Request K → Prop
  | .enroll key _ => surfaceOf m key = none
  | .announce r ports _ => ∀ peer, m.records r = some peer → ∀ ip, peer.surface = none →
      ports ≠ [] → allocate m.projectedIps m.shared.surfaceBase = .ok ip →
      ∃ k, m.peers[k]? = some r ∧ Unclaimed m k ⟨ip, some (autoName display peer)⟩
  | .project r ip name _ => ∀ peer, m.records r = some peer → ∃ k, m.peers[k]? = some r ∧
      ∀ ip', choose (ipsBeside m r) m.shared.surfaceBase ip = .ok ip' →
        Unclaimed m k ⟨ip', name.or peer.label⟩
  | .unproject r _ _ => ∀ peer, m.records r = some peer → peer.surface ≠ none →
      ∃ k : K, m.peers[k]? = some r
  | .restart pinned config env => config.tun = true ∧ (∃ v4, config.host = .v4 v4) ∧
      ∀ records, m.shared.surfaces.load env.io.read = .ok records →
        ClearFile parse (fun k => ∃ pin ∈ pinned, parse pin.key = some k) config records
  | _ => True

theorem inStep_next (m m' : PeerManager K) (req : Request K) (hclear : Clear parse display m req)
    (h : InStep m) (hnext : next parse display m req = some m') : InStep m' := by
  cases served_next parse display m m' req hnext with
  | add key label hnew =>
    exact inStep_insert m h key label (surfaceOf_absent m key hnew)
  | enroll key label =>
    exact inStep_insert m h key label hclear
  | announce r ports env peer hr =>
    exact inStep_announce display m h r peer ports env hr (hclear peer hr)
  | project r ip name env peer hr =>
    obtain ⟨key, hkey, hfree⟩ := hclear peer hr
    exact inStep_project display m h key r peer ip name env hkey hr hfree
  | unproject r ref env peer hr =>
    exact inStep_unproject display m h r peer ref env hr (hclear peer hr)
  | forget key env =>
    exact inStep_evict display m h key env
  | restart pinned config env =>
    obtain ⟨htun, hhost, hfile⟩ := hclear
    exact inStep_restart parse m pinned config env htun hhost hfile

theorem inStep_reached (os : Os) (path parent : String) (config : Config)
    (htun : config.tun = true) (hhost : ∃ v4, config.host = .v4 v4) (reqs : List (Request K))
    (m : PeerManager K)
    (hclear : Along (next parse display) (Clear parse display)
      (PeerManager.new os path parent config) reqs)
    (h : Reached parse display os path parent config reqs m) : InStep m := by
  refine along_invariant (next parse display) (Clear parse display) InStep ?_ _ ?_ reqs hclear m h
  · intro s req t hok hs hnext
    exact inStep_next parse display s t req hok hs hnext
  · refine inStep_blank _ (keyed_new os path parent config) ?_ htun hhost rfl
    intro r peer hr
    cases hr

theorem resolveName_cases (m : PeerManager K) (visit : List K)
    (hvisit : ∀ k, k ∈ visit ↔ k ∈ m.peers) (label : String) (hname : m.config.name ≠ some label) :
    (∃ k surface, surfaceOf m k = some surface ∧ surface.name = some label ∧
      resolveName m visit label = some surface.ip) ∨
    (resolveName m visit label = none ∧
      ∀ k surface, surfaceOf m k = some surface → surface.name ≠ some label) := by
  have hmem : ∀ surface, surface ∈ (visit.filterMap m.get).filterMap Peer.surface ↔
      ∃ k, surfaceOf m k = some surface := by
    intro surface
    rw [List.mem_filterMap]
    constructor
    · rintro ⟨peer, hin, hs⟩
      obtain ⟨k, -, hget⟩ := List.mem_filterMap.mp hin
      exact ⟨k, Option.bind_eq_some_iff.mpr ⟨peer, hget, hs⟩⟩
    · rintro ⟨k, hs⟩
      obtain ⟨peer, hget, hsurface⟩ := Option.bind_eq_some_iff.mp hs
      have hk := (hvisit k).mpr (mem_of_surfaceOf m k surface hs)
      exact ⟨peer, List.mem_filterMap.mpr ⟨k, hk, hget⟩, hsurface⟩
  rw [resolveName, if_neg hname]
  cases hfind : ((visit.filterMap m.get).filterMap Peer.surface).findSome?
      (fun surface => if surface.name = some label then some surface.ip else none) with
  | none =>
    refine Or.inr ⟨rfl, fun k surface hs hcarries => ?_⟩
    have := List.findSome?_eq_none_iff.mp hfind surface ((hmem surface).mpr ⟨k, hs⟩)
    simp [hcarries] at this
  | some ip =>
    obtain ⟨surface, hin, hip⟩ := List.exists_of_findSome?_eq_some hfind
    obtain ⟨k, hs⟩ := (hmem surface).mp hin
    split_ifs at hip with hcarries
    exact Or.inl ⟨k, surface, hs, hcarries, by rw [Option.some.inj hip]⟩

theorem names_agree (m : PeerManager K) (h : InStep m) (visit : List K)
    (hvisit : ∀ k, k ∈ visit ↔ k ∈ m.peers) (label : String) :
    (nameOf m label).map IpAddr.v4 = resolveName m visit label := by
  by_cases hown : m.config.name = some label
  · obtain ⟨v4, hv4⟩ := h.host
    have hnamed := (h.mirrors label v4).mpr (Or.inl ⟨hown, hv4⟩)
    rw [hnamed, resolveName, if_pos hown, hv4]
    rfl
  · rcases resolveName_cases m visit hvisit label hown with
      ⟨k, surface, hs, hcarries, hresolve⟩ | ⟨hresolve, hnobody⟩
    · obtain ⟨ip, name⟩ := surface
      obtain ⟨v4, rfl⟩ := h.v4 k _ hs
      obtain rfl : name = some label := hcarries
      rw [hresolve, (h.mirrors label v4).mpr (Or.inr ⟨k, hs⟩)]
      rfl
    · have hnone : nameOf m label = none := by
        rw [Option.eq_none_iff_forall_ne_some]
        intro v4 hv4
        rcases (h.mirrors label v4).mp hv4 with ⟨hname, -⟩ | ⟨k, hs⟩
        · exact hown hname
        · exact hnobody k _ hs rfl
      rw [hresolve, hnone]
      rfl

def resolveV4 (m : PeerManager K) (visit : List K) (label : String) : Option Ipv4 :=
  match resolveName m visit label with
  | some (.v4 v4) => some v4
  | _ => none

theorem handleQuery_eq (m : PeerManager K) (visit : List K) :
    handleQuery m visit = (reply · (resolveV4 m visit)) := by
  funext packet
  unfold handleQuery reply
  cases parseQuestion packet with
  | none => rfl
  | some q =>
    dsimp only
    cases hostLabel q.name <;> rfl

theorem replies_agree (m : PeerManager K) (visit : List K)
    (h : ∀ label, (nameOf m label).map IpAddr.v4 = resolveName m visit label)
    (packet : List UInt8) : reply packet (nameOf m) = handleQuery m visit packet := by
  have htables : resolveV4 m visit = nameOf m := by
    funext label
    rw [resolveV4, ← h label]
    cases nameOf m label <;> rfl
  rw [handleQuery_eq, htables]

/-- The two resolvers answer every packet alike, and a label is answered while
it is the node's own or a live surface carries it. -/
structure Agree (m : PeerManager K) : Prop where
  names : ∀ visit : List K, (∀ k, k ∈ visit ↔ k ∈ m.peers) → ∀ label,
    (nameOf m label).map IpAddr.v4 = resolveName m visit label
  replies : ∀ visit : List K, (∀ k, k ∈ visit ↔ k ∈ m.peers) → ∀ packet,
    reply packet (nameOf m) = handleQuery m visit packet
  lives : ∀ label, (nameOf m label).isSome = true ↔ m.config.name = some label ∨
    ∃ k surface, surfaceOf m k = some surface ∧ surface.name = some label

theorem resolvers_agree (os : Os) (path parent : String) (config : Config)
    (htun : config.tun = true) (hhost : ∃ v4, config.host = .v4 v4) (reqs : List (Request K))
    (m : PeerManager K)
    (hclear : Along (next parse display) (Clear parse display)
      (PeerManager.new os path parent config) reqs)
    (h : Reached parse display os path parent config reqs m) : Agree m := by
  have hstep := inStep_reached parse display os path parent config htun hhost reqs m hclear h
  refine ⟨fun visit hvisit label => names_agree m hstep visit hvisit label, ?_, ?_⟩
  · intro visit hvisit packet
    exact replies_agree m visit (fun label => names_agree m hstep visit hvisit label) packet
  · intro label
    rw [hstep.mirrors.isSome_iff]
    constructor
    · rintro ⟨v4, ⟨hown, -⟩ | ⟨k, hs⟩⟩
      · exact Or.inl hown
      · exact Or.inr ⟨k, _, hs, rfl⟩
    · rintro (hown | ⟨k, ⟨ip, name⟩, hs, rfl⟩)
      · obtain ⟨v4, hv4⟩ := hstep.host
        exact ⟨v4, Or.inl ⟨hown, hv4⟩⟩
      · obtain ⟨v4, rfl⟩ := hstep.v4 k _ hs
        exact ⟨v4, Or.inr ⟨k, hs⟩⟩

end

theorem only_desk (m : PeerManager Bool) (surface : Surface) (v4 : Ipv4) (hv4 : surface.ip = .v4 v4)
    (hapart : surface.ip ≠ m.config.host) (hname : surface.name ≠ m.config.name)
    (halone : surfaceOf m true = none) : Unclaimed m false surface := by
  refine ⟨⟨v4, hv4⟩, fun _ => hapart, fun _ => hname, fun k other hk hs => ?_⟩
  cases k with
  | false => exact absurd rfl hk
  | true => cases halone.symm.trans hs

def renamed : List (Request Bool) :=
  [.add false (some "build"), .announce 0 [80] {}, .project 0 none (some "box") {},
    .restart [⟨Restart.deskKey, some "build"⟩] Names.onTun {}]

theorem renamed_agrees : ∃ m, Reached Restart.parseKey Restart.displayKey .linux "surfaces.json"
    "." Names.onTun renamed m ∧ nameOf m "box" = some ⟨10, 99, 1, 2⟩ ∧ nameOf m "build" = none ∧
    Agree m := by
  refine ⟨_, rfl, ?_, ?_, ?_⟩
  · decide +kernel
  · decide +kernel
  · refine resolvers_agree Restart.parseKey Restart.displayKey .linux "surfaces.json" "."
      Names.onTun rfl ⟨_, rfl⟩ renamed _ ?_ rfl
    refine ⟨trivial, ?_⟩
    rintro _ ⟨⟩
    refine ⟨?_, ?_⟩
    · rintro peer ⟨⟩ ip - - hip
      obtain rfl : ip = tunBase.host 2 := Except.ok.inj (hip.symm.trans (by decide +kernel))
      exact ⟨false, by decide +kernel, only_desk _ _ _ rfl (by decide +kernel) (by decide +kernel)
        (by decide +kernel)⟩
    rintro _ ⟨⟩
    refine ⟨?_, ?_⟩
    · rintro peer ⟨⟩
      refine ⟨false, by decide +kernel, fun ip hip => ?_⟩
      obtain rfl : ip = tunBase.host 2 := Except.ok.inj (hip.symm.trans (by decide +kernel))
      exact only_desk _ _ _ rfl (by decide +kernel) (by decide +kernel) (by decide +kernel)
    rintro _ ⟨⟩
    refine ⟨⟨rfl, ⟨_, rfl⟩, ?_⟩, fun _ _ => trivial⟩
    rintro _ ⟨⟩
    constructor
    case own =>
      intro record hin k _
      obtain rfl := List.mem_singleton.mp hin
      exact ⟨⟨_, rfl⟩, by decide +kernel, by decide +kernel⟩
    case apart => exact List.pairwise_singleton _ _

def sharedLabel : List (Request Bool) := Names.sameLabel ++ [.unproject 1 "build" {}]

theorem shared_label_lost : ∃ m, Reached Restart.parseKey Restart.displayKey .linux
    "surfaces.json" "." Names.onTun sharedLabel m ∧
    surfaceOf m false = some ⟨tunBase.host 2, some "build"⟩ ∧ nameOf m "build" = none ∧
    ¬ Agree m := by
  refine ⟨_, rfl, ?_, ?_, fun h => ?_⟩
  · decide +kernel
  · decide +kernel
  · have hlives := (h.lives "build").mpr
      (Or.inr ⟨false, ⟨tunBase.host 2, some "build"⟩, by decide +kernel, rfl⟩)
    revert hlives
    decide +kernel

end PaiSho.NameMap
