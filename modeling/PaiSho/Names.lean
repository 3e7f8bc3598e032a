import PaiSho.SurfaceRestore
import PaiSho.Restart

/-!
# Names on the userspace stack

The stack keeps one map from names to addresses, and claiming an address writes
its name into it whoever had it. An announcement claims an address when its peer
has none yet, under the peer's label or the first characters of its key. No
other announcement touches the map, so exactly that name is at risk.
-/

set_option autoImplicit false

namespace PaiSho.Names
open GrantTable (Port)
open SurfaceManager SurfacePorts SurfaceSteps SurfaceRestore

section
variable {K : Type} [LinearOrder K] (parse : String → Option K) (display : K → String)

def nameOf (m : PeerManager K) (name : String) : Option Ipv4 :=
  m.shared.netstack.bind (fun ns => ns.names name)

def Taken (m : PeerManager K) (peer : Peer K) (name : String) : Prop :=
  m.config.name = some name ∨
    ∃ k surface, k ≠ peer.endpointId ∧ surfaceOf m k = some surface ∧ surface.name = some name

def KeepsNames (m : PeerManager K) (r : ℕ) (peer : Peer K) (ports : List Port) (env : Env) : Prop :=
  ∀ name, Taken m peer name →
    nameOf (m.updatePeerPorts display r peer ports env) name = nameOf m name

/-- No surface is made for the peer, or the name it would get is nobody else's,
or the map has that name at the address it would get already. -/
def NameFree (m : PeerManager K) (peer : Peer K) (ports : List Port) : Prop :=
  peer.surface ≠ none ∨ ports = [] ∨
    (∀ ip, allocate m.projectedIps m.shared.surfaceBase ≠ .ok ip) ∨
    ¬ Taken m peer (autoName display peer) ∨
    ∃ v4, allocate m.projectedIps m.shared.surfaceBase = .ok (.v4 v4) ∧
      nameOf m (autoName display peer) = some v4

theorem allocate_v4 (taken : List IpAddr) (base : Base) (ip : IpAddr)
    (h : allocate taken base = .ok ip) : ∃ v4, ip = .v4 v4 := by
  unfold allocate at h
  split at h
  · rename_i found hfound
    obtain rfl := Except.ok.inj h
    obtain ⟨host, -, rfl⟩ := List.mem_map.mp (List.mem_of_find?_eq_some hfound)
    exact ⟨_, rfl⟩
  · cases h

theorem nameOf_map (m : PeerManager K) (name : String) :
    nameOf m name = (m.shared.netstack.map NetStack.names).bind (fun names => names name) := by
  unfold nameOf
  cases m.shared.netstack <;> rfl

theorem update_names (m : PeerManager K) (r : ℕ) (peer : Peer K) (ports : List Port) (env : Env)
    (htun : m.shared.netstack.isSome = true) (hr : m.records r = some peer) :
    ((∀ name, nameOf (m.updatePeerPorts display r peer ports env) name = nameOf m name) ∧
      (peer.surface ≠ none ∨ ports = [] ∨
        ∀ ip, allocate m.projectedIps m.shared.surfaceBase ≠ .ok ip)) ∨
    ∃ v4, peer.surface = none ∧ ports ≠ [] ∧
      allocate m.projectedIps m.shared.surfaceBase = .ok (.v4 v4) ∧
      ∀ name, nameOf (m.updatePeerPorts display r peer ports env) name =
        if name = autoName display peer then some v4 else nameOf m name := by
  obtain ⟨held, heq, hplace, -⟩ := update_placement display m r peer ports env hr
  have hquiet : Quiet m.shared held.1 → ∀ name, nameOf (m.put r held) name = nameOf m name := by
    intro hq name
    rw [nameOf_map, nameOf_map, put_shared, hq.names]
  rw [heq]
  cases hplace with
  | kept surface hwas _ hq => exact Or.inl ⟨hquiet hq, Or.inl (by simp [hwas])⟩
  | bare hwas _ hq hnone =>
    refine Or.inl ⟨hquiet hq, Or.inr ?_⟩
    rcases hnone with hports | hno
    · exact Or.inl hports
    · -- on the stack no claim fails, so there was no address
      refine Or.inr fun ip hip => ?_
      obtain ⟨e, he⟩ := hno ip hip
      obtain ⟨shared, hok⟩ := claimAddr_tun m.shared ip (some (autoName display peer))
        (env.claims 0) htun
      cases he.symm.trans hok
  | auto ip hwas hports hfree hsurface hnames =>
    obtain ⟨v4, rfl⟩ := allocate_v4 _ _ ip hfree
    refine Or.inr ⟨v4, hwas, hports, hfree, fun name => ?_⟩
    obtain ⟨ns, hns⟩ := Option.isSome_iff_exists.mp htun
    rw [nameOf_map, put_shared, hnames, nameOf, hns]
    by_cases hname : name = autoName display peer
    · subst hname
      simp [namesAfter]
    · simp [namesAfter, hname]

theorem keepsNames_iff (m : PeerManager K) (r : ℕ) (peer : Peer K) (ports : List Port) (env : Env)
    (htun : m.shared.netstack.isSome = true) (hr : m.records r = some peer) :
    KeepsNames display m r peer ports env ↔ NameFree display m peer ports := by
  rcases update_names display m r peer ports env htun hr with
    ⟨hsame, hwhy⟩ | ⟨v4, hwas, hports, hfree, hnames⟩
  · constructor
    · intro _
      rcases hwhy with h | h | h
      · exact Or.inl h
      · exact Or.inr (Or.inl h)
      · exact Or.inr (Or.inr (Or.inl h))
    · intro _ name _
      exact hsame name
  · constructor
    · intro hkeeps
      by_cases htaken : Taken m peer (autoName display peer)
      · have h := hkeeps _ htaken
        rw [hnames, if_pos rfl] at h
        exact Or.inr (Or.inr (Or.inr (Or.inr ⟨v4, hfree, h.symm⟩)))
      · exact Or.inr (Or.inr (Or.inr (Or.inl htaken)))
    · intro hok name htaken
      rw [hnames]
      split_ifs with hname
      · subst hname
        rcases hok with h | h | h | h | ⟨v4', hfree', h⟩
        · exact absurd hwas h
        · exact absurd h hports
        · exact absurd hfree (h _)
        · exact absurd htaken h
        · rw [h, IpAddr.v4.inj (Except.ok.inj (hfree.symm.trans hfree'))]
      · rfl

/-- What holds of every announcement of a run on the stack, in the state that
meets it. -/
def EveryAnnouncement (os : Os) (path parent : String) (config : Config)
    (P : PeerManager K → ℕ → Peer K → List Port → Env → Prop) (reqs : List (Request K)) : Prop :=
  ∀ pre r ports env post m peer, reqs = pre ++ .announce r ports env :: post →
    Reached parse display os path parent config pre m → m.shared.netstack.isSome = true →
    m.records r = some peer → P m r peer ports env

/-- The announcements of a run keep every name of the node's and of other peers'
exactly when each of them meets the condition. -/
theorem names_kept_iff (os : Os) (path parent : String) (config : Config)
    (reqs : List (Request K)) :
    EveryAnnouncement parse display os path parent config (KeepsNames display) reqs ↔
      EveryAnnouncement parse display os path parent config
        (fun m _ peer ports _ => NameFree display m peer ports) reqs := by
  constructor
  · intro h pre r ports env post m peer hreqs hm htun hr
    exact (keepsNames_iff display m r peer ports env htun hr).mp
      (h pre r ports env post m peer hreqs hm htun hr)
  · intro h pre r ports env post m peer hreqs hm htun hr
    exact (keepsNames_iff display m r peer ports env htun hr).mpr
      (h pre r ports env post m peer hreqs hm htun hr)

end

def onTun : Config := { tun := true, name := some "desk" }

def sameLabel : List (Request Bool) :=
  [.add false (some "build"), .add true (some "build"), .announce 0 [80] {}, .announce 1 [80] {}]

theorem same_label_taken_over :
    ¬ EveryAnnouncement Restart.parseKey Restart.displayKey .linux "surfaces.json" "." onTun
      (KeepsNames Restart.displayKey) sameLabel := by
  intro h
  refine absurd (h (sameLabel.take 3) 1 [80] {} [] _ _ rfl rfl rfl rfl "build" ?_) ?_
  · refine Or.inr ⟨false, ⟨tunBase.host 2, some "build"⟩, ?_, ?_, rfl⟩
    · decide +kernel
    · decide +kernel
  · decide +kernel

end PaiSho.Names
