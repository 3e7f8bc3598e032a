import PaiSho.SurfacePorts

/-!
# What the requests about surfaces can change

A surface is set or dropped on one record at a time, and each key of the table
has a record of its own. For every request the record it leaves is said here
once; the modules that follow use a request through what is said of it.
-/

set_option autoImplicit false

namespace PaiSho.SurfaceSteps
open Std (ExtTreeMap)
open GrantTable (Port)
open SurfaceManager SurfacePorts

section
variable {K : Type} [LinearOrder K] (parse : String → Option K) (display : K → String)

@[simp]
theorem put_peers (m : PeerManager K) (r : ℕ) (held : Held K) : (m.put r held).peers = m.peers := rfl

@[simp]
theorem put_shared (m : PeerManager K) (r : ℕ) (held : Held K) : (m.put r held).shared = held.1 := rfl

@[simp]
theorem put_self (m : PeerManager K) (r : ℕ) (held : Held K) :
    (m.put r held).records r = some held.2 := by
  simp [PeerManager.put]

theorem put_other (m : PeerManager K) (r r' : ℕ) (held : Held K) (h : r' ≠ r) :
    (m.put r held).records r' = m.records r' := by
  simp [PeerManager.put, Function.update_of_ne h]

@[simp]
theorem insert_self (m : PeerManager K) (key : K) (label : Option String) :
    (m.insert key label).records m.fresh = some { endpointId := key, label := label } := by
  simp [PeerManager.insert]

theorem insert_other (m : PeerManager K) (key : K) (label : Option String) (r : ℕ)
    (h : r ≠ m.fresh) : (m.insert key label).records r = m.records r := by
  simp [PeerManager.insert, Function.update_of_ne h]

theorem put_cases (m : PeerManager K) (r r' : ℕ) (held : Held K) (peer : Peer K)
    (h : (m.put r held).records r' = some peer) :
    (r' = r ∧ peer = held.2) ∨ (r' ≠ r ∧ m.records r' = some peer) := by
  by_cases hr : r' = r
  · subst hr
    rw [put_self] at h
    exact Or.inl ⟨rfl, (Option.some.inj h).symm⟩
  · rw [put_other m r r' held hr] at h
    exact Or.inr ⟨hr, h⟩

theorem insert_cases (m : PeerManager K) (key : K) (label : Option String) (r : ℕ) (peer : Peer K)
    (h : (m.insert key label).records r = some peer) :
    (r = m.fresh ∧ peer = { endpointId := key, label := label }) ∨
      (r ≠ m.fresh ∧ m.records r = some peer) := by
  by_cases hr : r = m.fresh
  · subst hr
    rw [insert_self] at h
    exact Or.inl ⟨rfl, (Option.some.inj h).symm⟩
  · rw [insert_other m key label r hr] at h
    exact Or.inr ⟨hr, h⟩

theorem insert_lookup (m : PeerManager K) (key k : K) (label : Option String) :
    (m.insert key label).peers[k]? = if k = key then some m.fresh else m.peers[k]? :=
  Library.OrderedMaps.lookup_insert m.peers key k m.fresh

theorem get_eq_some (m : PeerManager K) (k : K) (peer : Peer K) :
    m.get k = some peer ↔ ∃ r, m.peers[k]? = some r ∧ m.records r = some peer :=
  Option.bind_eq_some_iff

def surfaceOf (m : PeerManager K) (k : K) : Option Surface := (m.get k).bind Peer.surface

theorem surfaceOf_eq_some (m : PeerManager K) (k : K) (surface : Surface) :
    surfaceOf m k = some surface ↔
      ∃ r peer, m.peers[k]? = some r ∧ m.records r = some peer ∧ peer.surface = some surface := by
  unfold surfaceOf
  rw [Option.bind_eq_some_iff]
  constructor
  · rintro ⟨peer, hget, hsurface⟩
    obtain ⟨r, hr, hpeer⟩ := (get_eq_some m k peer).mp hget
    exact ⟨r, peer, hr, hpeer, hsurface⟩
  · rintro ⟨r, peer, hr, hpeer, hsurface⟩
    exact ⟨peer, (get_eq_some m k peer).mpr ⟨r, hr, hpeer⟩, hsurface⟩

theorem mem_of_surfaceOf (m : PeerManager K) (k : K) (surface : Surface)
    (h : surfaceOf m k = some surface) : k ∈ m.peers := by
  obtain ⟨r, peer, hk, -, -⟩ := (surfaceOf_eq_some m k surface).mp h
  rw [ExtTreeMap.mem_iff_isSome_getElem?, hk]
  rfl

theorem mem_projectedIps (m : PeerManager K) (ip : IpAddr) :
    ip ∈ m.projectedIps ↔ ∃ k surface, surfaceOf m k = some surface ∧ surface.ip = ip := by
  unfold PeerManager.projectedIps
  rw [List.mem_filterMap]
  constructor
  · rintro ⟨⟨k, r⟩, hin, h⟩
    obtain ⟨surface, hs, rfl⟩ := Option.map_eq_some_iff.mp h
    obtain ⟨peer, hpeer, hsurface⟩ := Option.bind_eq_some_iff.mp hs
    rw [ExtTreeMap.mem_toList_iff_getElem?_eq_some] at hin
    exact ⟨k, surface, (surfaceOf_eq_some m k surface).mpr ⟨r, peer, hin, hpeer, hsurface⟩, rfl⟩
  · rintro ⟨k, surface, hs, rfl⟩
    obtain ⟨r, peer, hr, hpeer, hsurface⟩ := (surfaceOf_eq_some m k surface).mp hs
    refine ⟨(k, r), ExtTreeMap.mem_toList_iff_getElem?_eq_some.mpr hr, ?_⟩
    simp [hpeer, hsurface]

structure Keyed (m : PeerManager K) : Prop where
  owned : ∀ k r, m.peers[k]? = some r → ∃ peer, m.records r = some peer ∧ peer.endpointId = k
  made : ∀ r peer, m.records r = some peer → r < m.fresh

theorem Keyed.key_eq {m : PeerManager K} (h : Keyed m) {k k' : K} {r : ℕ}
    (hk : m.peers[k]? = some r) (hk' : m.peers[k']? = some r) : k = k' := by
  obtain ⟨peer, hpeer, rfl⟩ := h.owned k r hk
  obtain ⟨peer', hpeer', rfl⟩ := h.owned k' r hk'
  rw [Option.some.inj (hpeer.symm.trans hpeer')]

theorem surfaceOf_put_self (m : PeerManager K) (k : K) (r : ℕ) (held : Held K)
    (h : m.peers[k]? = some r) : surfaceOf (m.put r held) k = held.2.surface := by
  simp [surfaceOf, PeerManager.get, h]

theorem surfaceOf_put_other (m : PeerManager K) (k : K) (r : ℕ) (held : Held K)
    (h : m.peers[k]? ≠ some r) : surfaceOf (m.put r held) k = surfaceOf m k := by
  unfold surfaceOf PeerManager.get
  rw [put_peers]
  cases hr : m.peers[k]? with
  | none => rfl
  | some r' =>
    have hne : r' ≠ r := by
      rintro rfl
      exact h hr
    simp [put_other m r r' held hne]

theorem surfaceOf_put_ne (m : PeerManager K) (hm : Keyed m) (key k : K) (r : ℕ) (held : Held K)
    (hkey : m.peers[key]? = some r) (hk : k ≠ key) :
    surfaceOf (m.put r held) k = surfaceOf m k :=
  surfaceOf_put_other m k r held fun hkr => hk (hm.key_eq hkr hkey)

theorem surfaceOf_record (m : PeerManager K) (k : K) (r : ℕ) (peer : Peer K)
    (hk : m.peers[k]? = some r) (hr : m.records r = some peer) : surfaceOf m k = peer.surface := by
  simp [surfaceOf, PeerManager.get, hk, hr]

theorem projectedIps_put_same (m : PeerManager K) (r : ℕ) (peer : Peer K) (held : Held K)
    (hr : m.records r = some peer) (hsame : held.2.surface = peer.surface) :
    (m.put r held).projectedIps = m.projectedIps := by
  unfold PeerManager.projectedIps
  apply List.filterMap_congr
  rintro ⟨k, r'⟩ -
  by_cases h : r' = r
  · subst h
    simp [hr, hsame]
  · simp [put_other m r r' held h]

theorem put_eta (m : PeerManager K) (r : ℕ) (peer : Peer K) (hr : m.records r = some peer) :
    m.put r (m.shared, peer) = m := by
  have hrecords : Function.update m.records r (some peer) = m.records := by
    rw [← hr, Function.update_eq_self]
  unfold PeerManager.put
  rw [hrecords]

theorem keyed_put (m : PeerManager K) (r : ℕ) (peer : Peer K) (held : Held K) (h : Keyed m)
    (hr : m.records r = some peer) (hid : held.2.endpointId = peer.endpointId) :
    Keyed (m.put r held) := by
  constructor
  · intro k r' hk
    obtain ⟨p, hp, hpk⟩ := h.owned k r' hk
    by_cases hr' : r' = r
    · subst hr'
      obtain rfl := Option.some.inj (hr.symm.trans hp)
      exact ⟨held.2, put_self m r' held, hid.trans hpk⟩
    · exact ⟨p, (put_other m r r' held hr').trans hp, hpk⟩
  · intro r' p hp
    rcases put_cases m r r' held p hp with ⟨rfl, -⟩ | ⟨-, hold⟩
    · exact h.made r' peer hr
    · exact h.made r' p hold

theorem keyed_insert (m : PeerManager K) (key : K) (label : Option String) (h : Keyed m) :
    Keyed (m.insert key label) := by
  constructor
  · intro k r hk
    rw [insert_lookup] at hk
    split_ifs at hk with heq
    · obtain rfl := Option.some.inj hk
      exact ⟨_, insert_self m key label, heq.symm⟩
    · obtain ⟨p, hp, hpk⟩ := h.owned k r hk
      have hne : r ≠ m.fresh := Nat.ne_of_lt (h.made r p hp)
      exact ⟨p, (insert_other m key label r hne).trans hp, hpk⟩
  · intro r p hp
    show r < m.fresh + 1
    rcases insert_cases m key label r p hp with ⟨rfl, -⟩ | ⟨-, hold⟩
    · omega
    · have := h.made r p hold
      omega

theorem surfaceOf_insert (m : PeerManager K) (key k : K) (label : Option String) (h : Keyed m) :
    surfaceOf (m.insert key label) k = if k = key then none else surfaceOf m k := by
  unfold surfaceOf PeerManager.get
  rw [insert_lookup]
  split_ifs with heq
  · simp
  · cases hr : m.peers[k]? with
    | none => rfl
    | some r =>
      obtain ⟨p, hp, -⟩ := h.owned k r hr
      have hne : r ≠ m.fresh := Nat.ne_of_lt (h.made r p hp)
      simp [insert_other m key label r hne]

def NoAddress (m : PeerManager K) (peer : Peer K) (env : Env) : Prop :=
  ∀ ip, allocate m.projectedIps m.shared.surfaceBase = .ok ip →
    ∃ e, m.shared.claimAddr ip (some (autoName display peer)) (env.claims 0) = .error e

/-- What an announcement makes of the surface: it stays, there is none, or the
peer is projected to a free address under its own name. -/
inductive Placement (m : PeerManager K) (peer : Peer K) (ports : List Port) (env : Env)
    (held : Held K) : Prop where
  | kept (surface : Surface) (hwas : peer.surface = some surface)
      (hsurface : held.2.surface = some surface) (hquiet : Quiet m.shared held.1)
  | bare (hwas : peer.surface = none) (hsurface : held.2.surface = none)
      (hquiet : Quiet m.shared held.1) (hnone : ports = [] ∨ NoAddress display m peer env)
  | auto (ip : IpAddr) (hwas : peer.surface = none) (hports : ports ≠ [])
      (hfree : allocate m.projectedIps m.shared.surfaceBase = .ok ip)
      (hsurface : held.2.surface = some ⟨ip, some (autoName display peer)⟩)
      (hnames : held.1.netstack.map NetStack.names =
        m.shared.netstack.map (fun ns => namesAfter ns.names ip (some (autoName display peer))))
      (hfile : held.1.surfaces = (m.shared.surfaces.add (display peer.endpointId) ip
        (some (autoName display peer)) env.io).1)

theorem surfaceIp_placement (m : PeerManager K) (peer : Peer K) (ports : List Port) (env : Env)
    (held : Held K) (hframe : Frame (m.shared, peer) held) :
    let placed := surfaceIp display m.projectedIps ports env held
    Placement display m peer ports env placed.1 ∧ placed.2 = placed.1.2.surface.map Surface.ip ∧
      placed.1.2.bindings = held.2.bindings ∧ placed.1.2.endpointId = peer.endpointId ∧
      placed.1.2.label = peer.label := by
  have hname : autoName display held.2 = autoName display peer := by
    rw [autoName, autoName, hframe.peer.label, hframe.peer.endpointId]
  have hbase : held.1.surfaceBase = m.shared.surfaceBase := hframe.quiet.surfaceBase
  have hwas : held.2.surface = peer.surface := hframe.peer.surface
  unfold surfaceIp
  dsimp only
  cases hs : held.2.surface with
  | some surface =>
    exact ⟨.kept surface (hwas.symm.trans hs) hs hframe.quiet, by simp [hs], rfl,
      hframe.peer.endpointId, hframe.peer.label⟩
  | none =>
    have hnone : peer.surface = none := hwas.symm.trans hs
    rw [hbase, hname]
    by_cases hports : ports = []
    · subst hports
      exact ⟨.bare hnone hs hframe.quiet (Or.inl rfl), by simp [hs], rfl, hframe.peer.endpointId,
        hframe.peer.label⟩
    · have hempty : ports.isEmpty = false := by simpa using hports
      simp only [hempty, Bool.false_eq_true, ↓reduceIte]
      cases halloc : allocate m.projectedIps m.shared.surfaceBase with
      | error e =>
        refine ⟨.bare hnone hs hframe.quiet (Or.inr ?_), by simp [hs], rfl, hframe.peer.endpointId,
          hframe.peer.label⟩
        intro ip hip
        cases halloc.symm.trans hip
      | ok ip =>
        dsimp only
        cases hclaim : held.1.claimAddr ip (some (autoName display peer)) (env.claims 0) with
        | error e =>
          refine ⟨.bare hnone hs hframe.quiet (Or.inr ?_), by simp [hs], rfl,
            hframe.peer.endpointId, hframe.peer.label⟩
          intro ip' hip'
          obtain rfl := Except.ok.inj (halloc.symm.trans hip')
          exact ⟨e, (claimAddr_error m.shared held.1 _ _ _ hframe.quiet.os hframe.quiet.isSome e).mp
            hclaim⟩
        | ok shared =>
          have hclaimed := claimAddr_ok held.1 shared _ _ _ hclaim
          refine ⟨.auto ip hnone hports halloc rfl ?_ ?_, rfl, rfl, hframe.peer.endpointId,
            hframe.peer.label⟩
          · have hsame := congrArg (Option.map fun names =>
              namesAfter names ip (some (autoName display peer))) hframe.quiet.names
            simp only [Option.map_map] at hsame
            exact hclaimed.names.trans hsame
          · show (shared.surfaces.add (display held.2.endpointId) ip _ env.io).1 = _
            rw [hclaimed.surfaces, hframe.quiet.surfaces, hframe.peer.endpointId]

def staleOf (peer : Peer K) (ports : List Port) : List Port :=
  peer.exposedPorts.filter (fun port => !ports.contains port)

theorem update_spec (m : PeerManager K) (r : ℕ) (peer : Peer K) (ports : List Port) (env : Env)
    (hr : m.records r = some peer) :
    ∃ placed : Held K, Placement display m peer ports env placed ∧
      placed.2.endpointId = peer.endpointId ∧ placed.2.label = peer.label ∧
      placed.2.bindings = peer.bindings.filter (·.1 ∉ staleOf peer ports) ∧
      m.updatePeerPorts display r peer ports env =
        m.put r ((bindAt ports env.tries (placed, placed.2.surface.map Surface.ip)).1,
          { (bindAt ports env.tries (placed, placed.2.surface.map Surface.ip)).2 with
            exposedPorts := ports }) := by
  have hframe := releasePorts_frame (staleOf peer ports) (m.shared, peer)
  have htaken : (m.put r (releasePorts (staleOf peer ports) (m.shared, peer))).projectedIps =
      m.projectedIps := projectedIps_put_same m r peer _ hr hframe.peer.surface
  obtain ⟨hplace, hip, hbindings, hid, hlabel⟩ :=
    surfaceIp_placement display m peer ports env _ hframe
  refine ⟨_, hplace, hid, hlabel, hbindings.trans ?_, ?_⟩
  · rw [releasePorts_bindings]
  · unfold PeerManager.updatePeerPorts
    dsimp only
    rw [← hip]
    unfold staleOf at htaken ⊢
    rw [htaken]

theorem placement_isSome (m : PeerManager K) (peer : Peer K) (ports : List Port) (env : Env)
    (held : Held K) (h : Placement display m peer ports env held) :
    held.1.netstack.isSome = m.shared.netstack.isSome := by
  cases h with
  | kept surface hwas hsurface hquiet => exact hquiet.isSome
  | bare hwas hsurface hquiet => exact hquiet.isSome
  | auto ip hwas hports hfree hsurface hnames =>
    have := congrArg Option.isSome hnames
    simpa using this

theorem placement_frame (m : PeerManager K) (peer : Peer K) (ports : List Port) (env : Env)
    (placed held : Held K) (h : Placement display m peer ports env placed)
    (hquiet : Quiet placed.1 held.1) (hsurface : held.2.surface = placed.2.surface) :
    Placement display m peer ports env held := by
  cases h with
  | kept surface hwas hs hq => exact .kept surface hwas (hsurface.trans hs) (hq.trans hquiet)
  | bare hwas hs hq hnone => exact .bare hwas (hsurface.trans hs) (hq.trans hquiet) hnone
  | auto ip hwas hports hfree hs hnames hfile =>
    exact .auto ip hwas hports hfree (hsurface.trans hs) (hquiet.names.trans hnames)
      (hquiet.surfaces.trans hfile)

theorem update_placement (m : PeerManager K) (r : ℕ) (peer : Peer K) (ports : List Port)
    (env : Env) (hr : m.records r = some peer) :
    ∃ held : Held K, m.updatePeerPorts display r peer ports env = m.put r held ∧
      Placement display m peer ports env held ∧ held.2.endpointId = peer.endpointId ∧
      held.2.label = peer.label := by
  obtain ⟨placed, hplace, hid, hlabel, -, heq⟩ := update_spec display m r peer ports env hr
  have hframe := bindAt_frame ports env.tries (placed, placed.2.surface.map Surface.ip)
  refine ⟨_, heq, ?_, hframe.peer.endpointId.trans hid, hframe.peer.label.trans hlabel⟩
  exact placement_frame display m peer ports env placed _ hplace hframe.quiet hframe.peer.surface

/-- What `project` makes of the record: the old surface is gone, and a new one
stands unless no address could be had. -/
inductive Projected (m : PeerManager K) (r : ℕ) (peer : Peer K) (ip : Option IpAddr)
    (name : Option String) (env : Env) (held : Held K) : Prop where
  | failed (hheld : held = tearDown (m.shared, peer) env.unclaim)
  | placed (ip' : IpAddr)
      (hchosen : choose (m.put r (tearDown (m.shared, peer) env.unclaim)).projectedIps
        m.shared.surfaceBase ip = .ok ip')
      (hsurface : held.2.surface = some ⟨ip', name.or peer.label⟩)
      (hfile : held.1.surfaces = (m.shared.surfaces.add (display peer.endpointId) ip'
        (name.or peer.label) env.io).1)
      (hbound : ∃ placed : Held K, held = bindPorts ip' peer.exposedPorts env.tries placed ∧
        placed.2.bindings = (tearDown (m.shared, peer) env.unclaim).2.bindings)

theorem project_spec (m : PeerManager K) (r : ℕ) (peer : Peer K) (ip : Option IpAddr)
    (name : Option String) (env : Env) :
    ∃ held : Held K, (m.project display r peer ip name env).1 = m.put r held ∧
      Projected display m r peer ip name env held ∧ held.2.endpointId = peer.endpointId ∧
      held.2.label = peer.label ∧ held.2.exposedPorts = peer.exposedPorts := by
  obtain ⟨hsurface, hid, hlabel, hexposed, hos, hfile, hsome⟩ :=
    tearDown_spec (m.shared, peer) env.unclaim
  have hbase : (tearDown (m.shared, peer) env.unclaim).1.surfaceBase = m.shared.surfaceBase := by
    rw [Shared.surfaceBase, Shared.surfaceBase, hsome]
  unfold PeerManager.project
  dsimp only
  rw [hbase]
  cases hchosen : choose (m.put r (tearDown (m.shared, peer) env.unclaim)).projectedIps
      m.shared.surfaceBase ip with
  | error e => exact ⟨_, rfl, .failed rfl, hid, hlabel, hexposed⟩
  | ok ip' =>
    dsimp only
    cases hclaim : (tearDown (m.shared, peer) env.unclaim).1.claimAddr ip' (name.or peer.label)
        (env.claims 0) with
    | error e => exact ⟨_, rfl, .failed rfl, hid, hlabel, hexposed⟩
    | ok shared =>
      have hclaimed := claimAddr_ok _ shared _ _ _ hclaim
      have hframe := bindPorts_frame ip' (tearDown (m.shared, peer) env.unclaim).2.exposedPorts
        env.tries (place display (shared, (tearDown (m.shared, peer) env.unclaim).2)
          ⟨ip', name.or peer.label⟩ env.io)
      have hbound : bindPorts ip' (tearDown (m.shared, peer) env.unclaim).2.exposedPorts env.tries
          (place display (shared, (tearDown (m.shared, peer) env.unclaim).2)
            ⟨ip', name.or peer.label⟩ env.io) = bindPorts ip' peer.exposedPorts env.tries
          (place display (shared, (tearDown (m.shared, peer) env.unclaim).2)
            ⟨ip', name.or peer.label⟩ env.io) := by
        rw [hexposed]
      refine ⟨_, rfl, .placed ip' hchosen hframe.peer.surface ?_ ⟨_, hbound, rfl⟩,
        hframe.peer.endpointId.trans hid, hframe.peer.label.trans hlabel,
        hframe.peer.exposedPorts.trans hexposed⟩
      refine hframe.quiet.surfaces.trans ?_
      show (shared.surfaces.add (display (tearDown (m.shared, peer) env.unclaim).2.endpointId) ip'
        _ env.io).1 = _
      rw [hclaimed.surfaces, hfile, hid]

theorem unproject_spec (m : PeerManager K) (r : ℕ) (peer : Peer K) (ref : String) (env : Env) :
    (peer.surface = none ∧ (m.unproject display r peer ref env).1 = m) ∨
    ∃ shared : Shared, (m.unproject display r peer ref env).1 =
        m.put r (shared, (dropSurface (m.shared, peer)).2) ∧
      (shared.surfaces = m.shared.surfaces ∨
        shared.surfaces = (m.shared.surfaces.remove (display peer.endpointId) env.io).1) := by
  have hquiet := (dropSurface_frame (m.shared, peer)).1
  unfold PeerManager.unproject
  cases hs : peer.surface with
  | none => exact Or.inl ⟨rfl, rfl⟩
  | some surface =>
    refine Or.inr ?_
    dsimp only
    cases hun : (dropSurface (m.shared, peer)).1.unclaimAddr surface.ip env.unclaim with
    | error e => exact ⟨_, rfl, Or.inl hquiet.surfaces⟩
    | ok shared =>
      refine ⟨_, rfl, Or.inr ?_⟩
      obtain ⟨-, hfile, -⟩ := unclaimAddr_ok _ shared _ _ hun
      show (shared.surfaces.remove _ env.io).1 = _
      rw [hfile, hquiet.surfaces]

/-- A forget drops the surface of the record it takes out of the table, and the
key's record on file. -/
structure Evicted (m : PeerManager K) (key : K) (env : Env) (m' : PeerManager K) : Prop where
  peers : ∀ k, m'.peers[k]? = if k = key then none else m.peers[k]?
  fresh : m'.fresh = m.fresh
  other : ∀ r, m.peers[key]? ≠ some r → m'.records r = m.records r
  dropped : ∀ r peer, m.peers[key]? = some r → m.records r = some peer →
    m'.records r = some (dropSurface (m.shared, peer)).2
  file : m'.shared.surfaces = (m.shared.surfaces.remove (display key) env.io).1

theorem evict_spec (m : PeerManager K) (key : K) (env : Env) (hm : Keyed m) :
    Evicted display m key env (m.evict display key env) := by
  unfold PeerManager.evict
  cases hr : m.peers[key]? with
  | none =>
    refine ⟨fun k => ?_, rfl, fun r _ => rfl, fun r peer h _ => ?_, rfl⟩
    · split_ifs with hk
      · exact hk ▸ hr
      · rfl
    · cases hr.symm.trans h
  | some r =>
    obtain ⟨peer, hpeer, -⟩ := hm.owned key r hr
    simp only [hpeer]
    refine ⟨fun k => ?_, rfl, fun r' hr' => ?_, fun r' peer' hr' hpeer' => ?_, ?_⟩
    · exact Library.OrderedMaps.lookup_erase m.peers key k
    · have hne : r' ≠ r := by
        rintro rfl
        exact hr' hr
      exact put_other m r r' _ hne
    · obtain rfl := Option.some.inj (hr.symm.trans hr')
      obtain rfl := Option.some.inj (hpeer.symm.trans hpeer')
      exact put_self m r _
    · have hquiet := (dropSurface_frame (m.shared, peer)).1
      show ((Shared.giveBack (dropSurface (m.shared, peer)).1 env.unclaim
        peer.surface).surfaces.remove _ env.io).1 = _
      rw [giveBack_surfaces, hquiet.surfaces]

theorem surfaceOf_evict (m : PeerManager K) (key k : K) (env : Env) (hm : Keyed m) :
    surfaceOf (m.evict display key env) k = if k = key then none else surfaceOf m k := by
  have h := evict_spec display m key env hm
  unfold surfaceOf PeerManager.get
  rw [h.peers]
  split_ifs with hk
  · rfl
  · cases hr : m.peers[k]? with
    | none => rfl
    | some r =>
      have hother : m.peers[key]? ≠ some r := fun hkey => hk (hm.key_eq hr hkey)
      simp [h.other r hother]

inductive Served (m : PeerManager K) : Request K → PeerManager K → Prop where
  | add (key : K) (label : Option String) (hnew : key ∉ m.peers) :
      Served m (.add key label) (m.insert key label)
  | enroll (key : K) (label : Option String) : Served m (.enroll key label) (m.insert key label)
  | announce (r : ℕ) (ports : List Port) (env : Env) (peer : Peer K)
      (hr : m.records r = some peer) :
      Served m (.announce r ports env) (m.updatePeerPorts display r peer ports env)
  | project (r : ℕ) (ip : Option IpAddr) (name : Option String) (env : Env) (peer : Peer K)
      (hr : m.records r = some peer) :
      Served m (.project r ip name env) (m.project display r peer ip name env).1
  | unproject (r : ℕ) (ref : String) (env : Env) (peer : Peer K) (hr : m.records r = some peer) :
      Served m (.unproject r ref env) (m.unproject display r peer ref env).1
  | forget (key : K) (env : Env) : Served m (.forget key env) (m.evict display key env)
  | restart (pinned : List PinnedPeers.Pin) (config : Config) (env : Env) :
      Served m (.restart pinned config env) (m.restart parse pinned config env)

theorem served_next (m m' : PeerManager K) (req : Request K)
    (h : next parse display m req = some m') : Served parse display m req m' := by
  cases req with
  | add key label =>
    simp only [next] at h
    split_ifs at h with hin
    obtain rfl := Option.some.inj h
    exact .add key label fun hmem => hin (ExtTreeMap.contains_iff_mem.mpr hmem)
  | enroll key label =>
    obtain rfl := Option.some.inj h
    exact .enroll key label
  | announce r ports env =>
    obtain ⟨peer, hr, rfl⟩ := Option.map_eq_some_iff.mp h
    exact .announce r ports env peer hr
  | project r ip name env =>
    obtain ⟨peer, hr, rfl⟩ := Option.map_eq_some_iff.mp h
    exact .project r ip name env peer hr
  | unproject r ref env =>
    obtain ⟨peer, hr, rfl⟩ := Option.map_eq_some_iff.mp h
    exact .unproject r ref env peer hr
  | forget key env =>
    obtain rfl := Option.some.inj h
    exact .forget key env
  | restart pinned config env =>
    obtain rfl := Option.some.inj h
    exact .restart pinned config env

end

end PaiSho.SurfaceSteps
