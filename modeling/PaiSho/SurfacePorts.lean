import PaiSho.SurfaceManager

/-!
# Releasing, binding and claiming

Releasing and binding ports touch the bindings of one record and the listeners
of the stack, nothing else. Claiming an address writes one name, or adds one
address to the interface, and fails for reasons that lie outside the record.
-/

set_option autoImplicit false

namespace PaiSho.SurfacePorts
open GrantTable (Port)
open SurfaceManager

structure Quiet (s s' : Shared) : Prop where
  os : s'.os = s.os
  names : s'.netstack.map NetStack.names = s.netstack.map NetStack.names
  aliases : s'.aliases = s.aliases
  surfaces : s'.surfaces = s.surfaces

theorem quiet_refl (s : Shared) : Quiet s s := ⟨rfl, rfl, rfl, rfl⟩

theorem Quiet.trans {s t u : Shared} (h : Quiet s t) (h' : Quiet t u) : Quiet s u :=
  ⟨h'.os.trans h.os, h'.names.trans h.names, h'.aliases.trans h.aliases,
    h'.surfaces.trans h.surfaces⟩

theorem Quiet.isSome {s t : Shared} (h : Quiet s t) : t.netstack.isSome = s.netstack.isSome := by
  have := congrArg Option.isSome h.names
  simpa using this

theorem Quiet.surfaceBase {s t : Shared} (h : Quiet s t) : t.surfaceBase = s.surfaceBase := by
  rw [Shared.surfaceBase, Shared.surfaceBase, h.isSome]

theorem quiet_listeners (s : Shared) (ns ns' : NetStack) (hs : s.netstack = some ns)
    (h : ns'.names = ns.names) : Quiet s { s with netstack := some ns' } :=
  ⟨rfl, by simp [hs, h], rfl, rfl⟩

theorem listen_names (ns : NetStack) (ip : Ipv4) (port : Port) :
    (ns.listen ip port).names = ns.names := by
  unfold NetStack.listen
  split_ifs <;> rfl

section
variable {K : Type}

structure SamePeer (peer peer' : Peer K) : Prop where
  endpointId : peer'.endpointId = peer.endpointId
  label : peer'.label = peer.label
  exposedPorts : peer'.exposedPorts = peer.exposedPorts
  surface : peer'.surface = peer.surface

structure Frame (held held' : Held K) : Prop where
  quiet : Quiet held.1 held'.1
  peer : SamePeer held.2 held'.2

theorem frame_refl (held : Held K) : Frame held held := ⟨quiet_refl _, ⟨rfl, rfl, rfl, rfl⟩⟩

theorem Frame.trans {h₁ h₂ h₃ : Held K} (h : Frame h₁ h₂) (h' : Frame h₂ h₃) : Frame h₁ h₃ :=
  ⟨h.quiet.trans h'.quiet, ⟨h'.peer.endpointId.trans h.peer.endpointId,
    h'.peer.label.trans h.peer.label, h'.peer.exposedPorts.trans h.peer.exposedPorts,
    h'.peer.surface.trans h.peer.surface⟩⟩

theorem releaseBinding_frame (held : Held K) (port : Port) :
    Frame held (releaseBinding held port) := by
  unfold releaseBinding
  dsimp only
  split
  · rename_i ns v4 hns hip
    exact ⟨quiet_listeners held.1 ns _ hns rfl, ⟨rfl, rfl, rfl, rfl⟩⟩
  · exact ⟨quiet_refl _, ⟨rfl, rfl, rfl, rfl⟩⟩

theorem releaseBinding_bindings (held : Held K) (port : Port) :
    (releaseBinding held port).2.bindings = held.2.bindings.filter (·.1 ≠ port) := by
  unfold releaseBinding
  dsimp only
  split <;> rfl

theorem releasePorts_frame (ports : List Port) (held : Held K) :
    Frame held (releasePorts ports held) := by
  induction ports generalizing held with
  | nil => exact frame_refl held
  | cons port ports ih => exact (releaseBinding_frame held port).trans (ih _)

theorem releasePorts_bindings (ports : List Port) (held : Held K) :
    (releasePorts ports held).2.bindings = held.2.bindings.filter (·.1 ∉ ports) := by
  induction ports generalizing held with
  | nil => simp [releasePorts]
  | cons port ports ih =>
    show (releasePorts ports (releaseBinding held port)).2.bindings = _
    rw [ih, releaseBinding_bindings, List.filter_filter]
    apply List.filter_congr
    intro b _
    by_cases hb : b.1 = port <;> simp [hb]

/-- What becomes of one call of `bind_one`. -/
def binds (shared : Shared) (ip : IpAddr) (tries : ℕ → Bool) : Bool :=
  match shared.netstack, ip with
  | some _, .v4 _ => true
  | _, _ => (List.range bindAttempts).any tries

theorem binds_same (s t : Shared) (ip : IpAddr) (tries : ℕ → Bool)
    (hsome : t.netstack.isSome = s.netstack.isSome) : binds t ip tries = binds s ip tries := by
  cases hs : s.netstack <;> cases ht : t.netstack <;> simp [hs, ht] at hsome
  · simp [binds, hs, ht]
  · cases ip <;> simp [binds, hs, ht]

theorem bindOne_frame (held : Held K) (ip : IpAddr) (port : Port) (tries : ℕ → Bool) :
    Frame held (bindOne held ip port tries) := by
  unfold bindOne
  dsimp only
  split
  · rename_i ns v4 hns
    exact ⟨quiet_listeners held.1 ns _ hns (listen_names ns _ port), ⟨rfl, rfl, rfl, rfl⟩⟩
  · split_ifs
    · exact ⟨quiet_refl _, ⟨rfl, rfl, rfl, rfl⟩⟩
    · exact frame_refl held

theorem bindOne_bindings (held : Held K) (ip : IpAddr) (port : Port) (tries : ℕ → Bool) :
    (bindOne held ip port tries).2.bindings =
      if binds held.1 ip tries then (port, ip)::held.2.bindings.filter (·.1 ≠ port)
      else held.2.bindings := by
  cases hns : held.1.netstack with
  | none =>
    simp only [bindOne, binds, hns]
    split_ifs <;> rfl
  | some ns =>
    cases ip with
    | v4 v4 => simp [bindOne, binds, hns]
    | v6 bits =>
      simp only [bindOne, binds, hns]
      split_ifs <;> rfl

theorem bindPorts_frame (ip : IpAddr) (ports : List Port) (tries : ℕ → ℕ → Bool) (held : Held K) :
    Frame held (bindPorts ip ports tries held) := by
  induction ports generalizing tries held with
  | nil => exact frame_refl held
  | cons port ports ih =>
    refine Frame.trans ?_ (ih _ _)
    split_ifs
    · exact frame_refl held
    · exact bindOne_frame held ip port _

theorem bindPorts_bindings (ip : IpAddr) (ports : List Port) (tries : ℕ → ℕ → Bool)
    (held : Held K) (b : Port × IpAddr) (hb : b ∈ (bindPorts ip ports tries held).2.bindings) :
    b ∈ held.2.bindings ∨ (b.1 ∈ ports ∧ b.2 = ip) := by
  induction ports generalizing tries held with
  | nil => exact Or.inl hb
  | cons port ports ih =>
    rcases ih _ _ hb with h | ⟨hin, hip⟩
    · split_ifs at h
      · exact Or.inl h
      · rw [bindOne_bindings] at h
        split_ifs at h
        · rcases List.mem_cons.mp h with rfl | h
          · exact Or.inr ⟨by simp, rfl⟩
          · exact Or.inl (List.mem_filter.mp h).1
        · exact Or.inl h
    · exact Or.inr ⟨List.mem_cons_of_mem _ hin, hip⟩

theorem bindPorts_done (ip : IpAddr) (ports : List Port) (tries : ℕ → ℕ → Bool) (held : Held K)
    (h : ∀ port ∈ ports, port ∈ held.2.bound) : bindPorts ip ports tries held = held := by
  induction ports generalizing tries with
  | nil => rfl
  | cons port ports ih =>
    rw [bindPorts, if_pos (h port (by simp))]
    exact ih _ fun q hq => h q (List.mem_cons_of_mem _ hq)

theorem bindOne_bound (held : Held K) (ip : IpAddr) (port q : Port) (tries : ℕ → Bool) :
    q ∈ (bindOne held ip port tries).2.bound ↔
      q ∈ held.2.bound ∨ (q = port ∧ binds held.1 ip tries = true) := by
  unfold Peer.bound
  rw [bindOne_bindings]
  cases binds held.1 ip tries with
  | false => simp
  | true =>
    simp only [↓reduceIte, List.map_cons, List.mem_cons, List.mem_map, List.mem_filter]
    constructor
    · rintro (rfl | ⟨b, ⟨hb, -⟩, rfl⟩)
      · exact Or.inr ⟨rfl, trivial⟩
      · exact Or.inl ⟨b, hb, rfl⟩
    · rintro (⟨b, hb, rfl⟩ | ⟨rfl, -⟩)
      · by_cases hq : b.1 = port
        · exact Or.inl hq
        · exact Or.inr ⟨b, ⟨hb, by simpa using hq⟩, rfl⟩
      · exact Or.inl rfl

theorem bindPorts_bound (ip : IpAddr) (ports : List Port) (tries : ℕ → ℕ → Bool) (held : Held K)
    (q : Port) : q ∈ (bindPorts ip ports tries held).2.bound ↔
      q ∈ held.2.bound ∨ ∃ i, ports[i]? = some q ∧ binds held.1 ip (tries i) = true := by
  induction ports generalizing tries held with
  | nil => simp [bindPorts]
  | cons port ports ih =>
    have hfirst : ∀ held' : Held K, Frame held held' →
        (q ∈ held'.2.bound ∨ (∃ i, ports[i]? = some q ∧ binds held'.1 ip (tries (i+1)) = true) ↔
          q ∈ held'.2.bound ∨ ∃ i, ports[i]? = some q ∧ binds held.1 ip (tries (i+1)) = true) := by
      intro held' hframe
      simp only [binds_same held.1 held'.1 ip _ hframe.quiet.isSome]
    have hsplit : (∃ i, (port::ports)[i]? = some q ∧ binds held.1 ip (tries i) = true) ↔
        (q = port ∧ binds held.1 ip (tries 0) = true) ∨
          ∃ i, ports[i]? = some q ∧ binds held.1 ip (tries (i+1)) = true := by
      constructor
      · rintro ⟨i, hi, hb⟩
        cases i with
        | zero => exact Or.inl ⟨(Option.some.inj hi).symm, hb⟩
        | succ i => exact Or.inr ⟨i, hi, hb⟩
      · rintro (⟨rfl, hb⟩ | ⟨i, hi, hb⟩)
        · exact ⟨0, rfl, hb⟩
        · exact ⟨i+1, hi, hb⟩
    rw [bindPorts, ih, hsplit]
    by_cases hin : port ∈ held.2.bound
    · rw [if_pos hin]
      constructor
      · exact Or.imp_right Or.inr
      · rintro (h | ⟨rfl, -⟩ | h)
        · exact Or.inl h
        · exact Or.inl hin
        · exact Or.inr h
    · rw [if_neg hin, hfirst _ (bindOne_frame held ip port _), bindOne_bound, or_assoc]

theorem dropSurface_frame (held : Held K) :
    Quiet held.1 (dropSurface held).1 ∧ (dropSurface held).2.endpointId = held.2.endpointId ∧
      (dropSurface held).2.label = held.2.label ∧
      (dropSurface held).2.exposedPorts = held.2.exposedPorts := by
  have h := releasePorts_frame held.2.bound held
  exact ⟨h.quiet, h.peer.endpointId, h.peer.label, h.peer.exposedPorts⟩

theorem dropSurface_surface (held : Held K) : (dropSurface held).2.surface = none := rfl

theorem dropSurface_bindings (held : Held K) : (dropSurface held).2.bindings = [] := by
  show (releasePorts held.2.bound held).2.bindings = []
  rw [releasePorts_bindings, List.filter_eq_nil_iff]
  intro b hb
  have hin : b.1 ∈ held.2.bound := List.mem_map_of_mem hb
  simpa using hin

theorem bindAt_frame (ports : List Port) (tries : ℕ → ℕ → Bool) (placed : Held K × Option IpAddr) :
    Frame placed.1 (bindAt ports tries placed) := by
  unfold bindAt
  split
  · exact frame_refl _
  · exact bindPorts_frame _ ports tries placed.1

def namesAfter (names : String → Option Ipv4) : IpAddr → Option String → String → Option Ipv4
  | .v4 v4, some name => Function.update names name (some v4)
  | _, _ => names

structure Claimed (s : Shared) (ip : IpAddr) (name : Option String) (s' : Shared) : Prop where
  os : s'.os = s.os
  names : s'.netstack.map NetStack.names =
    s.netstack.map (fun ns => namesAfter ns.names ip name)
  surfaces : s'.surfaces = s.surfaces

theorem Claimed.isSome {s s' : Shared} {ip : IpAddr} {name : Option String}
    (h : Claimed s ip name s') : s'.netstack.isSome = s.netstack.isSome := by
  have := congrArg Option.isSome h.names
  simpa using this

theorem claimAddr_ok (s s' : Shared) (ip : IpAddr) (name : Option String) (ran : Except String Unit)
    (h : s.claimAddr ip name ran = .ok s') : Claimed s ip name s' := by
  unfold Shared.claimAddr at h
  cases hns : s.netstack with
  | some ns =>
    rw [hns] at h
    cases ip with
    | v4 v4 =>
      obtain rfl := Except.ok.inj h
      cases name with
      | some name => exact ⟨rfl, by simp [hns, NetStack.addSurface, namesAfter], rfl⟩
      | none => exact ⟨rfl, by simp [hns, NetStack.addSurface, namesAfter], rfl⟩
    | v6 bits =>
      obtain rfl := Except.ok.inj h
      exact ⟨rfl, by simp [hns, namesAfter], rfl⟩
  | none =>
    rw [hns] at h
    dsimp only at h
    split at h
    · obtain rfl := Except.ok.inj h
      exact ⟨rfl, by simp [hns], rfl⟩
    · cases h

theorem claimAddr_tun (s : Shared) (ip : IpAddr) (name : Option String) (ran : Except String Unit)
    (h : s.netstack.isSome = true) : ∃ s', s.claimAddr ip name ran = .ok s' := by
  obtain ⟨ns, hns⟩ := Option.isSome_iff_exists.mp h
  cases ip with
  | v4 v4 =>
    exact ⟨{ s with netstack := some (ns.addSurface v4 name) }, by simp only [Shared.claimAddr, hns]⟩
  | v6 bits => exact ⟨s, by simp only [Shared.claimAddr, hns]⟩

theorem claimAddr_error (s t : Shared) (ip : IpAddr) (name : Option String)
    (ran : Except String Unit) (hos : t.os = s.os)
    (hsome : t.netstack.isSome = s.netstack.isSome) (e : Error) :
    t.claimAddr ip name ran = .error e ↔ s.claimAddr ip name ran = .error e := by
  cases hs : s.netstack with
  | some ns =>
    have ht : t.netstack.isSome = true := by rw [hsome, hs]; rfl
    obtain ⟨s', hs'⟩ := claimAddr_tun s ip name ran (by rw [hs]; rfl)
    obtain ⟨t', ht'⟩ := claimAddr_tun t ip name ran ht
    simp [hs', ht']
  | none =>
    have ht : t.netstack = none := by
      rw [hs] at hsome
      simpa using hsome
    have hsame : ensureAddr t.os t.aliases ip ran = .error e ↔
        ensureAddr s.os s.aliases ip ran = .error e := by
      rw [hos]
      unfold ensureAddr addAddr
      split_ifs
      · simp
      · cases s.os <;> cases ran <;> simp
    simp only [Shared.claimAddr, hs, ht]
    cases ht' : ensureAddr t.os t.aliases ip ran <;> cases hs' : ensureAddr s.os s.aliases ip ran <;>
      simp_all

theorem unclaimAddr_ok (s s' : Shared) (ip : IpAddr) (ran : Except String Unit)
    (h : s.unclaimAddr ip ran = .ok s') :
    s'.os = s.os ∧ s'.surfaces = s.surfaces ∧ s'.netstack.isSome = s.netstack.isSome := by
  unfold Shared.unclaimAddr at h
  cases hns : s.netstack with
  | some ns =>
    rw [hns] at h
    cases ip <;> obtain rfl := Except.ok.inj h <;> simp [hns]
  | none =>
    rw [hns] at h
    dsimp only at h
    split at h
    · obtain rfl := Except.ok.inj h
      simp
    · cases h

theorem unclaimed_spec (s : Shared) (ip : IpAddr) (ran : Except String Unit) :
    (s.unclaimed ip ran).os = s.os ∧ (s.unclaimed ip ran).surfaces = s.surfaces ∧
      (s.unclaimed ip ran).netstack.isSome = s.netstack.isSome := by
  unfold Shared.unclaimed
  split
  · exact unclaimAddr_ok s _ ip ran (by assumption)
  · exact ⟨rfl, rfl, rfl⟩

theorem giveBack_surfaces (s : Shared) (ran : Except String Unit) (surface : Option Surface) :
    (s.giveBack ran surface).surfaces = s.surfaces := by
  cases surface with
  | some surface => exact (unclaimed_spec s surface.ip ran).2.1
  | none => rfl

theorem tearDown_spec (held : Held K) (ran : Except String Unit) :
    (tearDown held ran).2.surface = none ∧
      (tearDown held ran).2.endpointId = held.2.endpointId ∧
      (tearDown held ran).2.label = held.2.label ∧
      (tearDown held ran).2.exposedPorts = held.2.exposedPorts ∧
      (tearDown held ran).1.os = held.1.os ∧ (tearDown held ran).1.surfaces = held.1.surfaces ∧
      (tearDown held ran).1.netstack.isSome = held.1.netstack.isSome := by
  unfold tearDown
  split
  · obtain ⟨hquiet, hid, hlabel, hexposed⟩ := dropSurface_frame held
    obtain ⟨hos, hfile, hsome⟩ := unclaimed_spec (dropSurface held).1 _ ran
    exact ⟨rfl, hid, hlabel, hexposed, hos.trans hquiet.os, hfile.trans hquiet.surfaces,
      hsome.trans hquiet.isSome⟩
  · exact ⟨by assumption, rfl, rfl, rfl, rfl, rfl, rfl⟩

theorem tearDown_bindings (held : Held K) (ran : Except String Unit) :
    (tearDown held ran).2.bindings = if held.2.surface.isSome then [] else held.2.bindings := by
  unfold tearDown
  split
  · rename_i hs
    simp [hs, dropSurface_bindings]
  · rename_i hs
    simp [hs]

theorem allocate_free (taken : List IpAddr) (base : Base) (ip : IpAddr)
    (h : allocate taken base = .ok ip) : ip ∉ taken := by
  unfold allocate at h
  split at h
  · rename_i found hfound
    obtain rfl := Except.ok.inj h
    simpa using List.find?_some hfound
  · cases h

end

end PaiSho.SurfacePorts
