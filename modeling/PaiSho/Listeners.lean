import PaiSho.Addresses
import PaiSho.Bindings

/-!
# Where the stack listens

With a TUN device a binding is a listener of the userspace stack and a
placeholder in the record. Releasing a port takes the placeholder away and
unlistens at the address of the surface, so no listener outlives its binding.
Listeners are not counted: a release at an address that two records share takes
the listener of both. As long as surfaces are only given to records of the
table, at addresses no other peer holds, the stack listens exactly where
bindings are, and what it accepts is routed to the peer that announced the port.
-/

set_option autoImplicit false

namespace PaiSho.Listeners
open Std (ExtTreeMap)
open Library.Traces
open GrantTable (Port)
open RecordFiles
open PinnedPeers (Pin)
open SurfaceManager SurfacePorts SurfaceSteps SurfaceRestore Bindings Addresses

/-- The accept loops of the stack, by address and port. -/
def listening (s : Shared) : List (Ipv4 × Port) := (s.netstack.map NetStack.listeners).getD []

theorem listening_none (s : Shared) (h : s.netstack = none) : listening s = [] := by
  rw [listening, h]
  rfl

theorem listening_some (s : Shared) (ns : NetStack) (h : s.netstack = some ns) :
    listening s = ns.listeners := by
  rw [listening, h]
  rfl

theorem claimAddr_listening (s s' : Shared) (ip : IpAddr) (name : Option String)
    (ran : Except String Unit) (h : s.claimAddr ip name ran = .ok s') :
    listening s' = listening s := by
  unfold Shared.claimAddr at h
  cases hns : s.netstack with
  | some ns =>
    rw [hns] at h
    cases ip with
    | v4 v4 =>
      obtain rfl := Except.ok.inj h
      cases name <;> simp [listening, hns, NetStack.addSurface]
    | v6 bits =>
      obtain rfl := Except.ok.inj h
      rfl
  | none =>
    rw [hns] at h
    dsimp only at h
    split at h
    · obtain rfl := Except.ok.inj h
      simp [listening, hns]
    · cases h

theorem unclaimAddr_listening (s s' : Shared) (ip : IpAddr) (ran : Except String Unit)
    (h : s.unclaimAddr ip ran = .ok s') : listening s' = listening s := by
  unfold Shared.unclaimAddr at h
  cases hns : s.netstack with
  | some ns =>
    rw [hns] at h
    cases ip <;> obtain rfl := Except.ok.inj h <;> simp [listening, hns, NetStack.removeSurface]
  | none =>
    rw [hns] at h
    dsimp only at h
    split at h
    · obtain rfl := Except.ok.inj h
      simp [listening, hns]
    · cases h

theorem unclaimed_listening (s : Shared) (ip : IpAddr) (ran : Except String Unit) :
    listening (s.unclaimed ip ran) = listening s := by
  unfold Shared.unclaimed
  split
  · rename_i s' hs'
    exact unclaimAddr_listening s s' ip ran hs'
  · rfl

theorem giveBack_listening (s : Shared) (ran : Except String Unit) (surface : Option Surface) :
    listening (s.giveBack ran surface) = listening s := by
  cases surface with
  | some surface => exact unclaimed_listening s surface.ip ran
  | none => rfl

theorem giveBack_isSome (s : Shared) (ran : Except String Unit) (surface : Option Surface) :
    (s.giveBack ran surface).netstack.isSome = s.netstack.isSome := by
  cases surface with
  | some surface => exact (unclaimed_spec s surface.ip ran).2.2
  | none => rfl

section
variable {K : Type}

def Holds (peer : Peer K) (e : Ipv4 × Port) : Prop := (e.2, IpAddr.v4 e.1) ∈ peer.bindings

/-- The listeners against the bindings of one record and those the other records
have. That none is missing is only claimed where `P` says so. -/
structure Tally (P : Prop) (others : Ipv4 × Port → Prop) (held : Held K) : Prop where
  backed : ∀ e ∈ listening held.1, others e ∨ Holds held.2 e
  kept : P → held.1.netstack.isSome = true → ∀ e, others e ∨ Holds held.2 e → e ∈ listening held.1

theorem Tally.same {P : Prop} {others : Ipv4 × Port → Prop} {held held' : Held K}
    (h : Tally P others held) (hlisten : listening held'.1 = listening held.1)
    (hsome : held'.1.netstack.isSome = held.1.netstack.isSome)
    (hbindings : held'.2.bindings = held.2.bindings) : Tally P others held' := by
  have hholds : ∀ e, Holds held'.2 e ↔ Holds held.2 e := fun e => by rw [Holds, Holds, hbindings]
  constructor
  · intro e he
    rw [hlisten] at he
    exact (h.backed e he).imp_right (hholds e).mpr
  · intro hp hstack e he
    rw [hlisten]
    exact h.kept hp (hsome ▸ hstack) e (he.imp_right (hholds e).mp)

theorem mem_releaseBinding (held : Held K) (port : Port) (e : Ipv4 × Port) :
    e ∈ listening (releaseBinding held port).1 ↔
      e ∈ listening held.1 ∧ ¬ (held.2.surface.map Surface.ip = some (.v4 e.1) ∧ e.2 = port) := by
  unfold releaseBinding
  dsimp only
  split
  · rename_i ns v4 hns hip
    rw [listening_some _ (ns.unlisten v4 port) rfl, listening_some _ ns hns, hip]
    simp only [NetStack.unlisten, List.mem_filter, Option.some.injEq, IpAddr.v4.injEq, ne_eq,
      decide_not, Bool.not_eq_eq_eq_not, Bool.not_true, decide_eq_false_iff_not]
    refine and_congr_right fun _ => not_congr ?_
    constructor
    · rintro rfl
      exact ⟨rfl, rfl⟩
    · rintro ⟨rfl, rfl⟩
      rfl
  · rename_i hnot
    refine ⟨fun he => ⟨he, ?_⟩, fun he => he.1⟩
    rintro ⟨hip, -⟩
    cases hns : held.1.netstack with
    | none =>
      rw [listening_none _ hns] at he
      cases he
    | some ns => exact hnot ns e.1 hns hip

theorem mem_releasePorts (ports : List Port) (held : Held K) (e : Ipv4 × Port) :
    e ∈ listening (releasePorts ports held).1 ↔
      e ∈ listening held.1 ∧ ¬ (held.2.surface.map Surface.ip = some (.v4 e.1) ∧ e.2 ∈ ports) := by
  induction ports generalizing held with
  | nil => simp [releasePorts]
  | cons port ports ih =>
    show e ∈ listening (releasePorts ports (releaseBinding held port)).1 ↔ _
    rw [ih, mem_releaseBinding, (releaseBinding_frame held port).peer.surface, List.mem_cons,
      and_assoc]
    refine and_congr_right fun _ => ?_
    tauto

/-- The bindings of a record are at the address of its surface, so a released
port goes with its listener. What the others have stays when none of it is at
that address. -/
theorem tally_release (P : Prop) (others : Ipv4 × Port → Prop) (ports : List Port) (held : Held K)
    (hplaced : ∀ b ∈ held.2.bindings, held.2.surface.map Surface.ip = some b.2)
    (hapart : P → ∀ e, others e → held.2.surface.map Surface.ip ≠ some (.v4 e.1))
    (h : Tally P others held) : Tally P others (releasePorts ports held) := by
  have hholds : ∀ e, Holds (releasePorts ports held).2 e ↔ Holds held.2 e ∧ e.2 ∉ ports := by
    intro e
    rw [Holds, releasePorts_bindings, List.mem_filter]
    simp [Holds]
  constructor
  · intro e he
    obtain ⟨hold, hnot⟩ := (mem_releasePorts ports held e).mp he
    refine (h.backed e hold).imp_right fun hheld => (hholds e).mpr ⟨hheld, fun hin => ?_⟩
    exact hnot ⟨hplaced _ hheld, hin⟩
  · intro hp hstack e he
    have hstack' : held.1.netstack.isSome = true :=
      (releasePorts_frame ports held).quiet.isSome ▸ hstack
    rcases he with hother | hown
    · refine (mem_releasePorts ports held e).mpr ⟨h.kept hp hstack' e (Or.inl hother), ?_⟩
      rintro ⟨hip, -⟩
      exact hapart hp e hother hip
    · obtain ⟨hheld, hnot⟩ := (hholds e).mp hown
      refine (mem_releasePorts ports held e).mpr ⟨h.kept hp hstack' e (Or.inr hheld), ?_⟩
      rintro ⟨-, hin⟩
      exact hnot hin

theorem mem_listen (ns : NetStack) (ip : Ipv4) (port : Port) (e : Ipv4 × Port) :
    e ∈ (ns.listen ip port).listeners ↔ e ∈ ns.listeners ∨ e = (ip, port) := by
  unfold NetStack.listen
  split_ifs with hin
  · refine ⟨Or.inl, ?_⟩
    rintro (he | rfl)
    · exact he
    · simpa using hin
  · simp [or_comm]

theorem tally_no_stack (P : Prop) (others : Ipv4 × Port → Prop) (held : Held K)
    (hnone : held.1.netstack = none) : Tally P others held := by
  constructor
  · intro e he
    rw [listening_none _ hnone] at he
    cases he
  · intro _ hstack
    rw [hnone] at hstack
    cases hstack

theorem Tally.also {P : Prop} {others : Ipv4 × Port → Prop} {held held' : Held K}
    (h : Tally P others held) (hsome : held.1.netstack.isSome = true) (new : Ipv4 × Port)
    (hlisten : ∀ e, e ∈ listening held'.1 ↔ e ∈ listening held.1 ∨ e = new)
    (hholds : ∀ e, Holds held'.2 e ↔ Holds held.2 e ∨ e = new) : Tally P others held' := by
  constructor
  · intro e he
    rw [hholds]
    rcases (hlisten e).mp he with hold | heq
    · exact (h.backed e hold).imp_right Or.inl
    · exact Or.inr (Or.inr heq)
  · intro hp _ e he
    rw [hholds] at he
    rw [hlisten]
    rcases he with hother | hown | heq
    · exact Or.inl (h.kept hp hsome e (Or.inl hother))
    · exact Or.inl (h.kept hp hsome e (Or.inr hown))
    · exact Or.inr heq

theorem tally_bindOne (P : Prop) (others : Ipv4 × Port → Prop) (held : Held K) (ip : IpAddr)
    (port : Port) (tries : ℕ → Bool) (hport : port ∉ held.2.bound) (h : Tally P others held) :
    Tally P others (bindOne held ip port tries) := by
  have hfresh : held.2.bindings.filter (·.1 ≠ port) = held.2.bindings := by
    rw [List.filter_eq_self]
    intro b hb
    have hne : b.1 ≠ port := by
      rintro rfl
      exact hport (List.mem_map_of_mem hb)
    simpa using hne
  cases hns : held.1.netstack with
  | none =>
    have hsame := (bindOne_frame held ip port tries).quiet.isSome
    rw [hns] at hsame
    exact tally_no_stack P others _ (by simpa using hsame)
  | some ns =>
    cases ip with
    | v6 bits =>
      have hholds : ∀ e, (e.2, IpAddr.v4 e.1) ∈ (port, IpAddr.v6 bits)::held.2.bindings ↔
          Holds held.2 e := by
        intro e
        simp [Holds]
      simp only [bindOne, hns, hfresh]
      split_ifs
      · constructor
        · intro e he
          exact (h.backed e he).imp_right (hholds e).mpr
        · intro hp hstack e he
          exact h.kept hp hstack e (he.imp_right (hholds e).mp)
      · exact h
    | v4 v4 =>
      refine h.also (by rw [hns]; rfl) (v4, port) (fun e => ?_) fun e => ?_
      · rw [listening_some held.1 ns hns, ← mem_listen]
        simp [bindOne, hns, listening]
      · obtain ⟨a, p⟩ := e
        simp only [Holds, bindOne, hns, hfresh, List.mem_cons, Prod.mk.injEq, IpAddr.v4.injEq]
        tauto

theorem tally_bindPorts (P : Prop) (others : Ipv4 × Port → Prop) (ip : IpAddr) (ports : List Port)
    (tries : ℕ → ℕ → Bool) (held : Held K) (h : Tally P others held) :
    Tally P others (bindPorts ip ports tries held) := by
  induction ports generalizing tries held with
  | nil => exact h
  | cons port ports ih =>
    apply ih
    split_ifs with hin
    · exact h
    · exact tally_bindOne P others held ip port _ hin h

theorem tally_bindAt (P : Prop) (others : Ipv4 × Port → Prop) (ports : List Port)
    (tries : ℕ → ℕ → Bool) (placed : Held K × Option IpAddr) (h : Tally P others placed.1) :
    Tally P others (bindAt ports tries placed) := by
  unfold bindAt
  split
  · exact h
  · exact tally_bindPorts P others _ ports tries placed.1 h

/-- What a request does to a record before it binds anything at a new surface:
it releases ports, and the address may change hands. -/
theorem tally_dropSurface (P : Prop) (others : Ipv4 × Port → Prop) (held : Held K)
    (hplaced : ∀ b ∈ held.2.bindings, held.2.surface.map Surface.ip = some b.2)
    (hapart : P → ∀ e, others e → held.2.surface.map Surface.ip ≠ some (.v4 e.1))
    (h : Tally P others held) : Tally P others (dropSurface held) :=
  (tally_release P others held.2.bound held hplaced hapart h).same rfl rfl rfl

theorem tally_tearDown (P : Prop) (others : Ipv4 × Port → Prop) (held : Held K)
    (ran : Except String Unit)
    (hplaced : ∀ b ∈ held.2.bindings, held.2.surface.map Surface.ip = some b.2)
    (hapart : P → ∀ e, others e → held.2.surface.map Surface.ip ≠ some (.v4 e.1))
    (h : Tally P others held) : Tally P others (tearDown held ran) := by
  unfold tearDown
  split
  · exact (tally_dropSurface P others held hplaced hapart h).same (unclaimed_listening _ _ ran)
      (unclaimed_spec _ _ ran).2.2 rfl
  · exact h

variable (display : K → String)

theorem surfaceIp_listening (taken : List IpAddr) (ports : List Port) (env : Env) (held : Held K) :
    listening (surfaceIp display taken ports env held).1.1 = listening held.1 ∧
      (surfaceIp display taken ports env held).1.1.netstack.isSome = held.1.netstack.isSome ∧
      (surfaceIp display taken ports env held).1.2.bindings = held.2.bindings := by
  unfold surfaceIp
  cases held.2.surface with
  | some surface => exact ⟨rfl, rfl, rfl⟩
  | none =>
    dsimp only
    split_ifs
    · exact ⟨rfl, rfl, rfl⟩
    · cases allocate taken held.1.surfaceBase with
      | error e => exact ⟨rfl, rfl, rfl⟩
      | ok ip =>
        dsimp only
        cases hclaim : held.1.claimAddr ip (some (autoName display held.2)) (env.claims 0) with
        | error e => exact ⟨rfl, rfl, rfl⟩
        | ok shared =>
          exact ⟨claimAddr_listening _ shared _ _ _ hclaim,
            (claimAddr_ok _ shared _ _ _ hclaim).isSome, rfl⟩

end

section
variable {K : Type} [LinearOrder K] (parse : String → Option K) (display : K → String)

def othersOf (m : PeerManager K) (r : ℕ) (e : Ipv4 × Port) : Prop :=
  ∃ r' peer, r' ≠ r ∧ m.records r' = some peer ∧ Holds peer e

structure Tallied (P : Prop) (m : PeerManager K) : Prop where
  backed : ∀ e ∈ listening m.shared, ∃ r peer, m.records r = some peer ∧ Holds peer e
  kept : P → m.shared.netstack.isSome = true → ∀ r peer e, m.records r = some peer →
    Holds peer e → e ∈ listening m.shared

/-- No binding of another record is at the address of this record's surface. -/
def Apart (m : PeerManager K) (r : ℕ) : Prop :=
  ∀ peer, m.records r = some peer → ∀ e, othersOf m r e →
    peer.surface.map Surface.ip ≠ some (.v4 e.1)

theorem tally_of_tallied (P : Prop) (m : PeerManager K) (r : ℕ) (peer : Peer K)
    (hr : m.records r = some peer) (h : Tallied P m) :
    Tally P (othersOf m r) (m.shared, peer) := by
  constructor
  · intro e he
    obtain ⟨r', peer', hr', hheld⟩ := h.backed e he
    by_cases heq : r' = r
    · subst heq
      obtain rfl := Option.some.inj (hr.symm.trans hr')
      exact Or.inr hheld
    · exact Or.inl ⟨r', peer', heq, hr', hheld⟩
  · intro hp hstack e he
    rcases he with ⟨r', peer', -, hr', hheld⟩ | hheld
    · exact h.kept hp hstack r' peer' e hr' hheld
    · exact h.kept hp hstack r peer e hr hheld

theorem tallied_put (P : Prop) (m : PeerManager K) (r : ℕ) (held : Held K)
    (h : Tally P (othersOf m r) held) : Tallied P (m.put r held) := by
  constructor
  · intro e he
    rcases h.backed e he with ⟨r', peer, hne, hr', hheld⟩ | hheld
    · exact ⟨r', peer, (put_other m r r' held hne).trans hr', hheld⟩
    · exact ⟨r, held.2, put_self m r held, hheld⟩
  · intro hp hstack r' peer e hr' hheld
    refine h.kept hp hstack e ?_
    rcases put_cases m r r' held peer hr' with ⟨-, rfl⟩ | ⟨hne, hold⟩
    · exact Or.inr hheld
    · exact Or.inl ⟨r', peer, hne, hold, hheld⟩

theorem tallied_insert (P : Prop) (m : PeerManager K) (key : K) (label : Option String)
    (hm : Keyed m) (h : Tallied P m) : Tallied P (m.insert key label) := by
  constructor
  · intro e he
    obtain ⟨r, peer, hr, hheld⟩ := h.backed e he
    have hne : r ≠ m.fresh := Nat.ne_of_lt (hm.made r peer hr)
    exact ⟨r, peer, (insert_other m key label r hne).trans hr, hheld⟩
  · intro hp hstack r peer e hr hheld
    rcases insert_cases m key label r peer hr with ⟨-, rfl⟩ | ⟨-, hold⟩
    · cases hheld
    · exact h.kept hp hstack r peer e hold hheld

theorem tallied_announce (P : Prop) (m : PeerManager K) (r : ℕ) (peer : Peer K)
    (ports : List Port) (env : Env) (hr : m.records r = some peer) (hf : Follows peer)
    (hapart : P → Apart m r) (h : Tallied P m) :
    Tallied P (m.updatePeerPorts display r peer ports env) := by
  have hreleased := tally_release P (othersOf m r) (staleOf peer ports) (m.shared, peer) hf.placed
    (fun hp => hapart hp peer hr) (tally_of_tallied P m r peer hr h)
  refine tallied_put P m r _ (Tally.same (tally_bindAt P (othersOf m r) ports env.tries _ ?_)
    rfl rfl rfl)
  obtain ⟨hlisten, hsome, hbindings⟩ := surfaceIp_listening display
    (m.put r (releasePorts (staleOf peer ports) (m.shared, peer))).projectedIps ports env
    (releasePorts (staleOf peer ports) (m.shared, peer))
  exact hreleased.same hlisten hsome hbindings

theorem tallied_project (P : Prop) (m : PeerManager K) (r : ℕ) (peer : Peer K)
    (ip : Option IpAddr) (name : Option String) (env : Env) (hr : m.records r = some peer)
    (hf : Follows peer) (hapart : P → Apart m r) (h : Tallied P m) :
    Tallied P (m.project display r peer ip name env).1 := by
  have hdown := tally_tearDown P (othersOf m r) (m.shared, peer) env.unclaim hf.placed
    (fun hp => hapart hp peer hr) (tally_of_tallied P m r peer hr h)
  unfold PeerManager.project
  dsimp only
  split
  · exact tallied_put P m r _ hdown
  · split
    · exact tallied_put P m r _ hdown
    · rename_i ip' _ _ shared hclaim
      refine tallied_put P m r _ (tally_bindPorts P (othersOf m r) ip' _ env.tries _ ?_)
      exact hdown.same (claimAddr_listening _ shared _ _ _ hclaim)
        (claimAddr_ok _ shared _ _ _ hclaim).isSome rfl

theorem tallied_unproject (P : Prop) (m : PeerManager K) (r : ℕ) (peer : Peer K) (ref : String)
    (env : Env) (hr : m.records r = some peer) (hf : Follows peer) (hapart : P → Apart m r)
    (h : Tallied P m) : Tallied P (m.unproject display r peer ref env).1 := by
  have hdropped := tally_dropSurface P (othersOf m r) (m.shared, peer) hf.placed
    (fun hp => hapart hp peer hr) (tally_of_tallied P m r peer hr h)
  unfold PeerManager.unproject
  split
  · exact h
  · dsimp only
    split
    · exact tallied_put P m r _ hdropped
    · rename_i shared hunclaim
      exact tallied_put P m r _ (hdropped.same (unclaimAddr_listening _ shared _ _ hunclaim)
        (unclaimAddr_ok _ shared _ _ hunclaim).2.2 rfl)

theorem tallied_evict (P : Prop) (m : PeerManager K) (key : K) (env : Env) (hf : AllFollow m)
    (hapart : P → ∀ r, m.peers[key]? = some r → Apart m r) (h : Tallied P m) :
    Tallied P (m.evict display key env) := by
  unfold PeerManager.evict
  split
  · exact ⟨h.backed, h.kept⟩
  · rename_i r hkey
    split
    · exact h
    · rename_i peer hr
      have hdropped := tally_dropSurface P (othersOf m r) (m.shared, peer) (hf r peer hr).placed
        (fun hp => hapart hp r hkey peer hr) (tally_of_tallied P m r peer hr h)
      have hgiven : Tally P (othersOf m r)
          ((dropSurface (m.shared, peer)).1.giveBack env.unclaim peer.surface,
            (dropSurface (m.shared, peer)).2) :=
        hdropped.same (giveBack_listening _ env.unclaim peer.surface)
          (giveBack_isSome _ env.unclaim peer.surface) rfl
      have hput := tallied_put P m r _ hgiven
      exact ⟨hput.backed, hput.kept⟩

theorem restoreAll_listening (records : List SurfaceRecord) (ran : ℕ → Except String Unit)
    (m : PeerManager K) (hm : Keyed m) :
    listening (restoreAll parse records ran m).shared = listening m.shared := by
  induction records generalizing ran m with
  | nil => rfl
  | cons record records ih =>
    refine (ih _ _ (restoring_one parse m record (ran 0) hm).keyed).trans ?_
    rcases restoreOne_cases parse m record (ran 0) hm with
      ⟨heq, -⟩ | ⟨k, r, peer, shared, -, -, -, hclaim, heq⟩
    · rw [heq]
    · rw [heq]
      exact claimAddr_listening _ shared _ _ _ hclaim

theorem netstack_silent (s : Shared) (config : Config) :
    listening { s with netstack := config.netstack } = [] := by
  unfold listening Config.netstack
  dsimp only
  split_ifs
  · split <;> rfl
  · rfl

theorem restart_listening (m : PeerManager K) (pinned : List Pin) (config : Config) (env : Env) :
    listening (m.restart parse pinned config env).shared = [] := by
  have hload := loaded_all parse pinned m.shared config
  unfold PeerManager.restart PeerManager.restoreSurfaces
  split
  · rw [restoreAll_listening parse _ env.claims _ hload.keyed, hload.shared, netstack_silent]
  · rw [hload.shared, netstack_silent]

theorem tallied_restart (P : Prop) (m : PeerManager K) (pinned : List Pin) (config : Config)
    (env : Env) : Tallied P (m.restart parse pinned config env) := by
  constructor
  · intro e he
    rw [restart_listening] at he
    cases he
  · intro _ _ r peer e hr hheld
    rw [Holds, ((restart_spec parse m pinned config env).records r peer hr).1] at hheld
    cases hheld

def touches (m : PeerManager K) : Request K → Option ℕ
  | .announce r _ _ => some r
  | .project r _ _ _ => some r
  | .unproject r _ _ => some r
  | .forget key _ => m.peers[key]?
  | _ => none

theorem tallied_next (P : Prop) (m m' : PeerManager K) (req : Request K) (hm : Keyed m)
    (hf : AllFollow m) (hapart : P → ∀ r, touches m req = some r → Apart m r) (h : Tallied P m)
    (hnext : next parse display m req = some m') : Tallied P m' := by
  cases served_next parse display m m' req hnext with
  | add key label hnew => exact tallied_insert P m key label hm h
  | enroll key label => exact tallied_insert P m key label hm h
  | announce r ports env peer hr =>
    exact tallied_announce display P m r peer ports env hr (hf r peer hr)
      (fun hp => hapart hp r rfl) h
  | project r ip name env peer hr =>
    exact tallied_project display P m r peer ip name env hr (hf r peer hr)
      (fun hp => hapart hp r rfl) h
  | unproject r ref env peer hr =>
    exact tallied_unproject display P m r peer ref env hr (hf r peer hr)
      (fun hp => hapart hp r rfl) h
  | forget key env => exact tallied_evict display P m key env hf hapart h
  | restart pinned config env => exact tallied_restart parse P m pinned config env

theorem tallied_new (P : Prop) (os : Os) (path parent : String) (config : Config) :
    Tallied P (PeerManager.new os path parent config : PeerManager K) := by
  constructor
  · intro e he
    rw [PeerManager.new, PeerManager.boot, netstack_silent] at he
    cases he
  · intro _ _ r peer e hr
    cases hr

/-- In every state between operations whatever the stack listens at is bound by
a record, at the address of its surface and for a port it announced. -/
theorem no_listener_left_behind (os : Os) (path parent : String) (config : Config)
    (reqs : List (Request K)) (m : PeerManager K)
    (h : Reached parse display os path parent config reqs m) :
    ∀ ip port, (ip, port) ∈ listening m.shared → ∃ r peer, m.records r = some peer ∧
      (port, .v4 ip) ∈ peer.bindings ∧ peer.surface.map Surface.ip = some (.v4 ip) ∧
      port ∈ peer.exposedPorts := by
  have hall : (Keyed m ∧ AllFollow m) ∧ Tallied False m := by
    refine exec_invariant (next parse display) (fun _ => True)
      (fun m => (Keyed m ∧ AllFollow m) ∧ Tallied False m) ?_ _
      ⟨⟨keyed_new os path parent config, ?_⟩, tallied_new False os path parent config⟩ reqs
      (fun _ _ => trivial) m h
    · rintro s req t - ⟨⟨hs, hf⟩, ht⟩ hnext
      exact ⟨⟨keyed_next parse display s t req hs hnext,
        allFollow_next parse display s t req hs hf hnext⟩,
        tallied_next parse display False s t req hs hf False.elim ht hnext⟩
    · intro r peer hr
      cases hr
  intro ip port hin
  obtain ⟨r, peer, hr, hheld⟩ := hall.2.backed (ip, port) hin
  have hf := hall.1.2 r peer hr
  exact ⟨r, peer, hr, hheld, hf.placed _ hheld, hf.exposed _ (List.mem_map_of_mem hheld)⟩

def Current (m : PeerManager K) : Prop :=
  ∀ r peer, m.records r = some peer → peer.surface.isSome = true → ∃ k : K, m.peers[k]? = some r

/-- No surface is given to a record the table has lost, and a record with a
surface is not replaced by another of its key. -/
def Settled (m : PeerManager K) : Request K → Prop
  | .enroll key _ => surfaceOf m key = none
  | .announce r _ _ => ∃ k : K, m.peers[k]? = some r
  | .project r _ _ _ => ∃ k : K, m.peers[k]? = some r
  | _ => True

theorem current_put (m : PeerManager K) (r : ℕ) (held : Held K) (h : Current m)
    (hr : (∃ k : K, m.peers[k]? = some r) ∨ held.2.surface = none) : Current (m.put r held) := by
  intro r' peer hr' hsurface
  rcases put_cases m r r' held peer hr' with ⟨rfl, rfl⟩ | ⟨-, hold⟩
  · refine hr.resolve_right fun hnone => ?_
    rw [hnone] at hsurface
    cases hsurface
  · exact h r' peer hold hsurface

theorem current_insert (m : PeerManager K) (key : K) (label : Option String) (h : Current m)
    (hkey : surfaceOf m key = none) : Current (m.insert key label) := by
  intro r peer hr hsurface
  rcases insert_cases m key label r peer hr with ⟨-, rfl⟩ | ⟨-, hold⟩
  · cases hsurface
  · obtain ⟨k, hk⟩ := h r peer hold hsurface
    refine ⟨k, ?_⟩
    have hne : k ≠ key := by
      rintro rfl
      rw [surfaceOf_record m k r peer hk hold] at hkey
      rw [hkey] at hsurface
      cases hsurface
    rw [insert_lookup, if_neg hne, hk]

theorem current_evict (m : PeerManager K) (key : K) (env : Env) (hm : Keyed m) (h : Current m) :
    Current (m.evict display key env) := by
  have hev := evict_spec display m key env hm
  intro r peer hr hsurface
  by_cases hkey : m.peers[key]? = some r
  · obtain ⟨old, hold, -⟩ := hm.owned key r hkey
    rw [hev.dropped r old hkey hold] at hr
    obtain rfl := Option.some.inj hr
    cases hsurface
  · rw [hev.other r hkey] at hr
    obtain ⟨k, hk⟩ := h r peer hr hsurface
    refine ⟨k, ?_⟩
    have hne : k ≠ key := by
      rintro rfl
      exact hkey hk
    rw [hev.peers, if_neg hne, hk]

theorem current_restoreAll (records : List SurfaceRecord) (ran : ℕ → Except String Unit)
    (m : PeerManager K) (hm : Keyed m) (h : Current m) :
    Current (restoreAll parse records ran m) := by
  induction records generalizing ran m with
  | nil => exact h
  | cons record records ih =>
    refine ih _ _ (restoring_one parse m record (ran 0) hm).keyed ?_
    rcases restoreOne_cases parse m record (ran 0) hm with
      ⟨heq, -⟩ | ⟨k, r, peer, shared, -, hk, -, -, heq⟩
    · rw [heq]
      exact h
    · rw [heq]
      exact current_put m r _ h (Or.inl ⟨k, hk⟩)

theorem current_blank (m : PeerManager K) (h : Blank m) : Current m := by
  intro r peer hr hsurface
  rw [(h r peer hr).1] at hsurface
  cases hsurface

theorem current_restart (m : PeerManager K) (pinned : List Pin) (config : Config) (env : Env) :
    Current (m.restart parse pinned config env) := by
  have hload := loaded_all parse pinned m.shared config
  have hblank := current_blank _ hload.blank
  unfold PeerManager.restart PeerManager.restoreSurfaces
  split
  · exact current_restoreAll parse _ env.claims _ hload.keyed hblank
  · exact hblank

theorem current_next (m m' : PeerManager K) (req : Request K) (hok : Settled m req) (hm : Keyed m)
    (h : Current m) (hnext : next parse display m req = some m') : Current m' := by
  cases served_next parse display m m' req hnext with
  | add key label hnew =>
    refine current_insert m key label h ?_
    rw [Option.eq_none_iff_forall_not_mem]
    intro surface hs
    exact hnew (mem_of_surfaceOf m key surface hs)
  | enroll key label => exact current_insert m key label h hok
  | announce r ports env peer hr =>
    obtain ⟨held, heq, -⟩ := update_placement display m r peer ports env hr
    rw [heq]
    exact current_put m r held h (Or.inl hok)
  | project r ip name env peer hr =>
    obtain ⟨held, heq, -⟩ := project_spec display m r peer ip name env
    rw [heq]
    exact current_put m r held h (Or.inl hok)
  | unproject r ref env peer hr =>
    rcases unproject_spec display m r peer ref env with ⟨-, heq⟩ | ⟨shared, heq, -⟩
    · rw [heq]
      exact h
    · rw [heq]
      exact current_put m r _ h (Or.inr rfl)
  | forget key env => exact current_evict display m key env hm h
  | restart pinned config env => exact current_restart parse m pinned config env

theorem apart_of_distinct (m : PeerManager K) (hf : AllFollow m) (hd : Distinct m)
    (hc : Current m) (r : ℕ) : Apart m r := by
  rintro peer hr e ⟨r', peer', hne, hr', hheld⟩ hip
  have hip' := (hf r' peer' hr').placed _ hheld
  obtain ⟨surface, hs, hat⟩ := Option.map_eq_some_iff.mp hip
  obtain ⟨surface', hs', hat'⟩ := Option.map_eq_some_iff.mp hip'
  obtain ⟨k, hk⟩ := hc r peer hr (by rw [hs]; rfl)
  obtain ⟨k', hk'⟩ := hc r' peer' hr' (by rw [hs']; rfl)
  have hsame := hd k k' surface surface' ((surfaceOf_record m k r peer hk hr).trans hs)
    ((surfaceOf_record m k' r' peer' hk' hr').trans hs') (hat.trans hat'.symm)
  subst hsame
  exact hne (Option.some.inj (hk'.symm.trans hk))

/-- The stack listens exactly at the bindings of the peers of the table, and what
it accepts goes to the peer that announced the port. -/
structure Mirrored (m : PeerManager K) : Prop where
  bound : ∀ k peer, m.get k = some peer → ∀ ip port, (port, .v4 ip) ∈ peer.bindings →
    (ip, port) ∈ listening m.shared
  routed : ∀ (visit : List K), (∀ k, k ∈ visit ↔ k ∈ m.peers) → ∀ ip port,
    (ip, port) ∈ listening m.shared → ∃ k peer, m.get k = some peer ∧
      m.peerForIp visit (.v4 ip) = some peer ∧ (port, .v4 ip) ∈ peer.bindings ∧
      port ∈ peer.exposedPorts

theorem listeners_mirror_bindings (os : Os) (path parent : String) (config : Config)
    (reqs : List (Request K)) (m : PeerManager K)
    (hok : Along (next parse display) (fun m req => Separate parse m req ∧ Settled m req)
      (PeerManager.new os path parent config) reqs)
    (h : Reached parse display os path parent config reqs m)
    (htun : m.shared.netstack.isSome = true) : Mirrored m := by
  have hall : (Keyed m ∧ AllFollow m) ∧ (Distinct m ∧ Current m) ∧ Tallied True m := by
    refine along_invariant (next parse display) (fun m req => Separate parse m req ∧ Settled m req)
      (fun m => (Keyed m ∧ AllFollow m) ∧ (Distinct m ∧ Current m) ∧ Tallied True m) ?_ _
      ⟨⟨keyed_new os path parent config, ?_⟩, ⟨?_, ?_⟩, tallied_new True os path parent config⟩
      reqs hok m h
    · rintro s req t ⟨hallowed, hsettled⟩ ⟨⟨hs, hf⟩, ⟨hd, hc⟩, ht⟩ hnext
      exact ⟨⟨keyed_next parse display s t req hs hnext,
        allFollow_next parse display s t req hs hf hnext⟩,
        ⟨distinct_next parse display s t req hallowed hs hd hnext,
          current_next parse display s t req hsettled hs hc hnext⟩,
        tallied_next parse display True s t req hs hf
          (fun _ r _ => apart_of_distinct s hf hd hc r) ht hnext⟩
    · intro r peer hr
      cases hr
    · intro k k' surface surface' hs
      simp [surfaceOf, PeerManager.get, PeerManager.new, PeerManager.boot] at hs
    · intro r peer hr
      cases hr
  obtain ⟨⟨-, hf⟩, ⟨hd, hc⟩, ht⟩ := hall
  constructor
  · intro k peer hget ip port hheld
    obtain ⟨r, -, hr⟩ := (get_eq_some m k peer).mp hget
    exact ht.kept trivial htun r peer (ip, port) hr hheld
  · intro visit hvisit ip port hin
    obtain ⟨r, peer, hr, hheld⟩ := ht.backed (ip, port) hin
    have hip := (hf r peer hr).placed _ hheld
    have hsome : peer.surface.isSome = true := by
      obtain ⟨surface, hs, -⟩ := Option.map_eq_some_iff.mp hip
      rw [hs]
      rfl
    obtain ⟨k, hk⟩ := hc r peer hr hsome
    have hget : m.get k = some peer := (get_eq_some m k peer).mpr ⟨r, hk, hr⟩
    exact ⟨k, peer, hget, (routed_of_distinct m hd visit hvisit _ peer).mpr ⟨k, hget, hip⟩, hheld,
      (hf r peer hr).exposed _ (List.mem_map_of_mem hheld)⟩

end

def movedAbout : List (Request Bool) :=
  [.add false none, .add true none, .announce 0 [80, 443] {}, .announce 1 [80] {},
    .announce 0 [443] {}, .project 1 (some (tunBase.host 9)) none {}]

theorem moved_about_backed : ∃ m,
    Reached Restart.parseKey Restart.displayKey .linux "surfaces.json" "." { tun := true }
      movedAbout m ∧ listening m.shared = [(⟨10, 99, 1, 9⟩, 80), (⟨10, 99, 1, 2⟩, 443)] ∧
    ∃ r peer, m.records r = some peer ∧ (443, .v4 ⟨10, 99, 1, 2⟩) ∈ peer.bindings ∧
      peer.surface.map Surface.ip = some (.v4 ⟨10, 99, 1, 2⟩) ∧ 443 ∈ peer.exposedPorts := by
  refine ⟨_, rfl, by decide +kernel, ?_⟩
  refine no_listener_left_behind Restart.parseKey Restart.displayKey .linux "surfaces.json" "."
    { tun := true } movedAbout _ ?_ ⟨10, 99, 1, 2⟩ 443 ?_
  · rfl
  · decide +kernel

def announcedTwice : List (Request Bool) :=
  [.add false none, .announce 0 [80] {}, .announce 0 [443] {}]

theorem announced_twice_mirrored : ∃ m,
    Reached Restart.parseKey Restart.displayKey .linux "surfaces.json" "." { tun := true }
      announcedTwice m ∧ listening m.shared = [(⟨10, 99, 1, 2⟩, 443)] ∧ Mirrored m := by
  refine ⟨_, rfl, by decide +kernel, ?_⟩
  refine listeners_mirror_bindings Restart.parseKey Restart.displayKey .linux "surfaces.json" "."
    { tun := true } announcedTwice _ ?_ rfl rfl
  refine ⟨⟨trivial, trivial⟩, ?_⟩
  rintro _ ⟨⟩
  refine ⟨⟨trivial, false, by decide +kernel⟩, ?_⟩
  rintro _ ⟨⟩
  exact ⟨⟨trivial, false, by decide +kernel⟩, fun _ _ => trivial⟩

end PaiSho.Listeners
