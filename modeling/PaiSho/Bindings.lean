import PaiSho.SurfaceRestore
import PaiSho.Restart

/-!
# Bindings follow the announcement and the surface

A port is bound only while it is announced, and only at the address of the
surface the record has. An announcement that finds a surface binds every port of
its list that can be bound; what it finds bound it leaves alone, which is right
because no operation leaves a binding at an address the surface has left.
-/

set_option autoImplicit false

namespace PaiSho.Bindings
open GrantTable (Port)
open Library.Traces
open SurfaceManager SurfacePorts SurfaceSteps SurfaceRestore

section
variable {K : Type}

structure Follows (peer : Peer K) : Prop where
  exposed : ∀ port ∈ peer.bound, port ∈ peer.exposedPorts
  placed : ∀ b ∈ peer.bindings, peer.surface.map Surface.ip = some b.2

theorem follows_unbound (peer : Peer K) (h : peer.bindings = []) : Follows peer := by
  constructor
  · simp [Peer.bound, h]
  · simp [h]

theorem Follows.bare {peer : Peer K} (h : Follows peer) (hs : peer.surface = none) :
    peer.bindings = [] := by
  apply List.eq_nil_iff_forall_not_mem.mpr
  intro b hb
  have := h.placed b hb
  rw [hs] at this
  cases this

theorem kept_announced (peer : Peer K) (ports : List Port) (h : Follows peer) (b : Port × IpAddr)
    (hb : b ∈ peer.bindings.filter (·.1 ∉ staleOf peer ports)) :
    b ∈ peer.bindings ∧ b.1 ∈ ports := by
  obtain ⟨hin, hfresh⟩ := List.mem_filter.mp hb
  have hexposed := h.exposed b.1 (List.mem_map_of_mem hin)
  refine ⟨hin, ?_⟩
  by_contra hnot
  have hstale : b.1 ∈ staleOf peer ports :=
    List.mem_filter.mpr ⟨hexposed, by simpa using hnot⟩
  simp [hstale] at hfresh

end

section
variable {K : Type} [LinearOrder K] (parse : String → Option K) (display : K → String)

def AllFollow (m : PeerManager K) : Prop := ∀ r peer, m.records r = some peer → Follows peer

theorem allFollow_put (m : PeerManager K) (r : ℕ) (held : Held K) (h : AllFollow m)
    (hheld : Follows held.2) : AllFollow (m.put r held) := by
  intro r' peer hr'
  rcases put_cases m r r' held peer hr' with ⟨-, rfl⟩ | ⟨-, hold⟩
  · exact hheld
  · exact h r' peer hold

theorem allFollow_insert (m : PeerManager K) (key : K) (label : Option String) (h : AllFollow m) :
    AllFollow (m.insert key label) := by
  intro r peer hr
  rcases insert_cases m key label r peer hr with ⟨-, rfl⟩ | ⟨-, hold⟩
  · exact follows_unbound _ rfl
  · exact h r peer hold

/-- What an announcement of `ports` makes of the record. -/
structure Answered (m : PeerManager K) (peer : Peer K) (ports : List Port) (env : Env)
    (peer' : Peer K) : Prop where
  follows : Follows peer'
  exposed : peer'.exposedPorts = ports
  /-- A port of the list is bound, or there is no surface to be had, or every one
  of its places in the list was tried in vain. -/
  bound : ∀ port ∈ ports, port ∈ peer'.bound ∨
    (peer.surface = none ∧ peer'.surface = none ∧ NoAddress display m peer env) ∨
    ∃ ip, peer'.surface.map Surface.ip = some ip ∧
      ∀ i : ℕ, ports[i]? = some port → binds m.shared ip (env.tries i) = false
  all : (∀ i, ∃ j < bindAttempts, env.tries i j = true) →
    (peer.surface = none → ¬ NoAddress display m peer env) →
    ∀ port, port ∈ peer'.bound ↔ port ∈ ports

theorem binds_of_tries (shared : Shared) (ip : IpAddr) (tries : ℕ → Bool)
    (h : ∃ j < bindAttempts, tries j = true) : binds shared ip tries = true := by
  have hany : (List.range bindAttempts).any tries = true := by
    obtain ⟨j, hj, ht⟩ := h
    exact List.any_eq_true.mpr ⟨j, List.mem_range.mpr hj, ht⟩
  unfold binds
  split
  · rfl
  · exact hany

theorem update_follows (m : PeerManager K) (r : ℕ) (peer : Peer K) (ports : List Port) (env : Env)
    (hr : m.records r = some peer) (h : Follows peer) :
    ∃ held : Held K, m.updatePeerPorts display r peer ports env = m.put r held ∧
      Answered display m peer ports env held.2 := by
  obtain ⟨placed, hplace, -, -, hbindings, heq⟩ := update_spec display m r peer ports env hr
  have hframe := bindAt_frame ports env.tries (placed, placed.2.surface.map Surface.ip)
  have hsome := placement_isSome display m peer ports env placed hplace
  have hkept : ∀ b ∈ placed.2.bindings, b ∈ peer.bindings ∧ b.1 ∈ ports := by
    rw [hbindings]
    exact kept_announced peer ports h
  refine ⟨_, heq, ?_⟩
  cases hs : placed.2.surface with
  | none =>
    -- nothing is bound, for there was no surface before either
    rw [hs] at hframe heq
    have hwas : peer.surface = none ∧ (ports = [] ∨ NoAddress display m peer env) := by
      cases hplace with
      | kept surface _ hsurface => cases hs.symm.trans hsurface
      | bare hwas _ _ hnone => exact ⟨hwas, hnone⟩
      | auto ip _ _ _ hsurface => cases hs.symm.trans hsurface
    have hempty : placed.2.bindings = [] := by
      rw [hbindings, h.bare hwas.1]
      rfl
    refine ⟨follows_unbound _ hempty, rfl, fun port hport => ?_, fun _ haddr port => ?_⟩
    · rcases hwas.2 with rfl | hno
      · cases hport
      · exact Or.inr (Or.inl ⟨hwas.1, hs, hno⟩)
    · rcases hwas.2 with rfl | hno
      · show port ∈ placed.2.bound ↔ _
        simp [Peer.bound, hempty]
      · exact absurd hno (haddr hwas.1)
  | some surface =>
    rw [hs] at hframe
    have hbound : ∀ port, port ∈ (bindPorts surface.ip ports env.tries placed).2.bound ↔
        port ∈ placed.2.bound ∨
          ∃ i : ℕ, ports[i]? = some port ∧ binds m.shared surface.ip (env.tries i) = true := by
      intro port
      rw [bindPorts_bound]
      simp only [binds_same m.shared placed.1 surface.ip _ hsome]
    have hall : ∀ port ∈ (bindPorts surface.ip ports env.tries placed).2.bound, port ∈ ports := by
      intro port hport
      obtain ⟨b, hb, rfl⟩ := List.mem_map.mp hport
      rcases bindPorts_bindings surface.ip ports env.tries placed b hb with hold | ⟨hin, -⟩
      · exact (hkept b hold).2
      · exact hin
    refine ⟨⟨hall, fun b hb => ?_⟩, rfl, fun port hport => ?_, fun htries _ port => ⟨hall port, ?_⟩⟩
    · refine (congrArg (Option.map Surface.ip) (hframe.peer.surface.trans hs)).trans ?_
      rcases bindPorts_bindings surface.ip ports env.tries placed b hb with hold | ⟨-, hip⟩
      · have hwas := h.placed b (hkept b hold).1
        cases hplace with
        | kept old hold' hsurface =>
          obtain rfl := Option.some.inj (hs.symm.trans hsurface)
          rw [hold'] at hwas
          exact hwas
        | bare hold' => rw [hold'] at hwas; cases hwas
        | auto ip hold' => rw [hold'] at hwas; cases hwas
      · rw [hip]
        rfl
    · by_cases hb : port ∈ (bindPorts surface.ip ports env.tries placed).2.bound
      · exact Or.inl hb
      · refine Or.inr (Or.inr ⟨surface.ip, ?_, fun i hi => ?_⟩)
        · exact congrArg (Option.map Surface.ip) (hframe.peer.surface.trans hs)
        · by_contra hyes
          exact hb ((hbound port).mpr (Or.inr ⟨i, hi, by simpa using hyes⟩))
    · intro hport
      obtain ⟨i, hi⟩ := List.mem_iff_getElem?.mp hport
      exact (hbound port).mpr (Or.inr ⟨i, hi, binds_of_tries _ _ _ (htries i)⟩)

theorem update_again (m : PeerManager K) (r : ℕ) (peer : Peer K) (env : Env)
    (hr : m.records r = some peer) (h : Follows peer)
    (hall : ∀ port ∈ peer.exposedPorts, port ∈ peer.bound) :
    m.updatePeerPorts display r peer peer.exposedPorts env = m := by
  have hstale : peer.exposedPorts.filter (fun port => !peer.exposedPorts.contains port) = [] := by
    rw [List.filter_eq_nil_iff]
    intro port hport
    simpa using hport
  unfold PeerManager.updatePeerPorts
  rw [hstale]
  show m.put r _ = m
  have hreleased : releasePorts [] (m.shared, peer) = (m.shared, peer) := rfl
  rw [hreleased]
  cases hs : peer.surface with
  | some surface =>
    have hip : ∀ taken, surfaceIp display taken peer.exposedPorts env (m.shared, peer) =
        ((m.shared, peer), some surface.ip) := by
      intro taken
      simp [surfaceIp, hs]
    rw [hip]
    simp only [bindAt]
    rw [bindPorts_done surface.ip peer.exposedPorts env.tries (m.shared, peer) hall]
    exact put_eta m r peer hr
  | none =>
    -- without a surface nothing is bound, so the list is empty
    have hempty : peer.exposedPorts = [] := by
      apply List.eq_nil_iff_forall_not_mem.mpr
      intro port hport
      have hbound := hall port hport
      rw [Peer.bound, h.bare hs] at hbound
      cases hbound
    have hip : ∀ taken, surfaceIp display taken peer.exposedPorts env (m.shared, peer) =
        ((m.shared, peer), none) := by
      intro taken
      simp [surfaceIp, hs, hempty]
    rw [hip]
    exact put_eta m r peer hr

theorem project_follows (m : PeerManager K) (r : ℕ) (peer : Peer K) (ip : Option IpAddr)
    (name : Option String) (env : Env) (held : Held K) (h : Follows peer)
    (hproj : Projected display m r peer ip name env held)
    (hexposed : held.2.exposedPorts = peer.exposedPorts) : Follows held.2 := by
  have hdown : (tearDown (m.shared, peer) env.unclaim).2.bindings = [] := by
    rw [tearDown_bindings]
    cases hs : peer.surface with
    | some surface => simp
    | none => simpa using h.bare hs
  cases hproj with
  | failed hheld => exact follows_unbound _ (hheld ▸ hdown)
  | placed ip' hchosen hsurface hfile hbound =>
    obtain ⟨placed, hheld, hnone⟩ := hbound
    have hnew : ∀ b ∈ held.2.bindings, b.1 ∈ peer.exposedPorts ∧ b.2 = ip' := by
      intro b hb
      rw [hheld] at hb
      refine (bindPorts_bindings ip' peer.exposedPorts env.tries placed b hb).resolve_left ?_
      rw [hnone, hdown]
      exact List.not_mem_nil
    constructor
    · intro port hport
      obtain ⟨b, hb, rfl⟩ := List.mem_map.mp hport
      exact hexposed ▸ (hnew b hb).1
    · intro b hb
      rw [hsurface, (hnew b hb).2]
      rfl

theorem allFollow_evict (m : PeerManager K) (key : K) (env : Env) (hm : Keyed m)
    (h : AllFollow m) : AllFollow (m.evict display key env) := by
  have hev := evict_spec display m key env hm
  intro r peer hr
  by_cases hkey : m.peers[key]? = some r
  · obtain ⟨old, hold, -⟩ := hm.owned key r hkey
    rw [hev.dropped r old hkey hold] at hr
    exact Option.some.inj hr ▸ follows_unbound _ (dropSurface_bindings (m.shared, old))
  · rw [hev.other r hkey] at hr
    exact h r peer hr

theorem allFollow_next (m m' : PeerManager K) (req : Request K) (hm : Keyed m) (h : AllFollow m)
    (hnext : next parse display m req = some m') : AllFollow m' := by
  cases served_next parse display m m' req hnext with
  | add key label hnew =>
    exact allFollow_insert m key label h
  | enroll key label =>
    exact allFollow_insert m key label h
  | announce r ports env peer hr =>
    obtain ⟨held, heq, hanswer⟩ := update_follows display m r peer ports env hr (h r peer hr)
    rw [heq]
    exact allFollow_put m r held h hanswer.follows
  | project r ip name env peer hr =>
    obtain ⟨held, heq, hproj, -, -, hexposed⟩ := project_spec display m r peer ip name env
    rw [heq]
    exact allFollow_put m r held h
      (project_follows display m r peer ip name env held (h r peer hr) hproj hexposed)
  | unproject r ref env peer hr =>
    rcases unproject_spec display m r peer ref env with ⟨-, heq⟩ | ⟨shared, heq, -⟩
    · rw [heq]
      exact h
    · rw [heq]
      exact allFollow_put m r _ h (follows_unbound _ (dropSurface_bindings (m.shared, peer)))
  | forget key env =>
    exact allFollow_evict display m key env hm h
  | restart pinned config env =>
    intro r peer hr
    exact follows_unbound peer ((restart_spec parse m pinned config env).records r peer hr).1

theorem follows_reached (os : Os) (path parent : String) (config : Config)
    (reqs : List (Request K)) (m : PeerManager K)
    (h : Reached parse display os path parent config reqs m) : Keyed m ∧ AllFollow m := by
  refine exec_invariant (next parse display) (fun _ => True) (fun m => Keyed m ∧ AllFollow m) ?_ _
    ⟨keyed_new os path parent config, ?_⟩ reqs (fun _ _ => trivial) m h
  · rintro s req t - ⟨hs, hf⟩ hnext
    exact ⟨keyed_next parse display s t req hs hnext, allFollow_next parse display s t req hs hf hnext⟩
  · intro r peer hr
    cases hr

/-- In every state between operations the bindings of every record follow its
list and its surface. An announcement then leaves the record as `Answered`
says, and the same announcement again changes nothing when the list is bound. -/
theorem bindings_follow (os : Os) (path parent : String) (config : Config)
    (reqs : List (Request K)) (m : PeerManager K)
    (h : Reached parse display os path parent config reqs m) :
    (∀ r peer, m.records r = some peer → (∀ port ∈ peer.bound, port ∈ peer.exposedPorts) ∧
      (peer.surface = none → peer.bound = []) ∧
      ∀ b ∈ peer.bindings, peer.surface.map Surface.ip = some b.2) ∧
    ∀ r peer ports env, m.records r = some peer → ∃ peer',
      (m.updatePeerPorts display r peer ports env).records r = some peer' ∧
      Answered display m peer ports env peer' ∧
      ((∀ port ∈ ports, port ∈ peer'.bound) → ∀ env',
        (m.updatePeerPorts display r peer ports env).updatePeerPorts display r peer' ports env' =
          m.updatePeerPorts display r peer ports env) := by
  have hboth := follows_reached parse display os path parent config reqs m h
  constructor
  · intro r peer hr
    have hf := hboth.2 r peer hr
    refine ⟨hf.exposed, fun hs => ?_, hf.placed⟩
    rw [Peer.bound, hf.bare hs]
    rfl
  · intro r peer ports env hr
    obtain ⟨held, heq, hanswer⟩ := update_follows display m r peer ports env hr (hboth.2 r peer hr)
    have hself : (m.updatePeerPorts display r peer ports env).records r = some held.2 := by
      rw [heq, put_self]
    refine ⟨held.2, hself, hanswer, fun hall env' => ?_⟩
    rw [← hanswer.exposed] at hall
    have hagain := update_again display _ r held.2 env' hself hanswer.follows hall
    rwa [hanswer.exposed] at hagain

end

def secondFails : List (Request Bool) :=
  [.add false none, .announce 0 [80, 443] { tries := fun i _ => i ≠ 1 }]

/-- The next announcement tries the port again. -/
theorem failed_port_retried : ∃ m peer peer',
    Reached Restart.parseKey Restart.displayKey .linux "surfaces.json" "." {} secondFails m ∧
    m.records 0 = some peer ∧ peer.bound = [80] ∧
    (m.updatePeerPorts Restart.displayKey 0 peer [443, 80, 443] {}).records 0 = some peer' ∧
    ∀ port, port ∈ peer'.bound ↔ port ∈ [443, 80, 443] := by
  obtain ⟨peer', hr, hanswer, -⟩ := (bindings_follow Restart.parseKey Restart.displayKey .linux
    "surfaces.json" "." {} secondFails _ rfl).2 0 _ [443, 80, 443] {} rfl
  refine ⟨_, _, peer', rfl, rfl, ?_, hr, ?_⟩
  · decide +kernel
  · exact hanswer.all (fun i => ⟨0, by decide, rfl⟩) (by rintro ⟨⟩)

end PaiSho.Bindings
