import PaiSho.Restart
import PaiSho.SurfaceOutcomes

/-!
# Project and unproject by reference

A request names its peer by key or by label and is looked up before it waits for
the bind lock; what it then does it does to the record found. `project` takes the
old surface down before it has an address for the new one, and `unproject`
forgets the surface before the address is given back, so both can fail halfway.
-/

set_option autoImplicit false

namespace PaiSho.SurfaceRequests
open SurfaceManager SurfacePorts SurfaceSteps SurfaceOutcomes

inductive Failure where
  | noSuchPeer (ref : String)
  | surface (error : Error)
  deriving DecidableEq, Repr

section
variable {K : Type} [LinearOrder K] (parse : String → Option K) (display : K → String)

/-- A key is tried first, then the labels in the table's order of iteration. -/
def resolvePeer (m : PeerManager K) (ref : String) (visit : List K) : Option K :=
  match (parse ref).filter (fun id => m.peers.contains id) with
  | some id => some id
  | none => visit.find? (fun id => (m.get id).bind Peer.label = some ref)

/-- The record a request works on, found in the table of the moment. -/
def lookup (m : PeerManager K) (ref : String) (visit : List K) : Option ℕ :=
  (resolvePeer parse m ref visit).bind (fun id => m.peers[id]?)

/-- A request as a whole: looked up in `earlier`, carried out in `m`. -/
def request (earlier m : PeerManager K) (ref : String) (visit : List K)
    (act : ℕ → Peer K → PeerManager K × Except Error Unit) : PeerManager K × Except Failure Unit :=
  match lookup parse earlier ref visit with
  | none => (m, .error (.noSuchPeer ref))
  | some r =>
    match m.records r with
    | none => (m, .error (.noSuchPeer ref))
    | some peer => ((act r peer).1, (act r peer).2.mapError .surface)

def project (earlier m : PeerManager K) (ref : String) (visit : List K) (ip : Option IpAddr)
    (name : Option String) (env : Env) : PeerManager K × Except Failure Unit :=
  request parse earlier m ref visit (fun r peer => m.project display r peer ip name env)

def unproject (earlier m : PeerManager K) (ref : String) (visit : List K) (env : Env) :
    PeerManager K × Except Failure Unit :=
  request parse earlier m ref visit (fun r peer => m.unproject display r peer ref env)

/-- A failure leaves the manager as it was: records, bindings, what is claimed,
and the file. -/
def Harmless {ε : Type} (m : PeerManager K) (out : PeerManager K × Except ε Unit) : Prop :=
  ∀ e, out.2 = .error e → out.1 = m

theorem put_ne (m : PeerManager K) (r : ℕ) (peer : Peer K) (held : Held K)
    (hr : m.records r = some peer) (hsurface : held.2.surface ≠ peer.surface) : m.put r held ≠ m := by
  intro heq
  have hrecord := put_self m r held
  rw [heq, hr] at hrecord
  exact hsurface (congrArg Peer.surface (Option.some.inj hrecord)).symm

theorem project_harmless (m : PeerManager K) (r : ℕ) (peer : Peer K) (ip : Option IpAddr)
    (name : Option String) (env : Env) (hr : m.records r = some peer) :
    Harmless m (m.project display r peer ip name env) ↔
      peer.surface = none ∨ Projectable m r ip env := by
  cases project_outcome display m r peer ip name env with
  | failed e hnot hproject =>
    rw [hproject]
    cases hs : peer.surface with
    | none =>
      have hdown : tearDown (m.shared, peer) env.unclaim = (m.shared, peer) := by
        simp only [tearDown, hs]
      simp only [Harmless, hdown, put_eta m r peer hr, implies_true, true_or]
    | some surface =>
      have hdown := (tearDown_spec (m.shared, peer) env.unclaim).1
      have hne := put_ne m r peer (tearDown (m.shared, peer) env.unclaim) hr (by simp [hdown, hs])
      constructor
      · intro h
        exact absurd (h e rfl) hne
      · rintro (h | h)
        · cases h
        · exact absurd h hnot
  | placed ip' shared hchosen hclaim hproject =>
    have hcan : Projectable m r ip env := by
      rw [← projectable_iff display m r peer ip name env, hproject]
    rw [hproject]
    constructor
    · intro _
      exact Or.inr hcan
    · rintro _ e ⟨⟩

theorem unproject_harmless (m : PeerManager K) (r : ℕ) (peer : Peer K) (ref : String) (env : Env)
    (hr : m.records r = some peer) :
    Harmless m (m.unproject display r peer ref env) ↔
      ∀ surface, peer.surface = some surface → Removable m.shared surface.ip env.unclaim := by
  cases unproject_outcome display m r peer ref env with
  | bare hnone hunproject => simp [Harmless, hunproject, hnone]
  | failed surface e hwas hnot hunproject =>
    have hne := put_ne m r peer (dropSurface (m.shared, peer)) hr
      (by rw [dropSurface_surface, hwas]; simp)
    rw [hunproject]
    constructor
    · intro h
      exact absurd (h e rfl) hne
    · intro h
      exact absurd (h surface hwas) hnot
  | taken surface shared hwas hcan hunclaim hunproject =>
    rw [hunproject]
    constructor
    · intro _ surface' hwas'
      rw [← Option.some.inj (hwas.symm.trans hwas')]
      exact hcan
    · rintro _ e ⟨⟩

theorem request_harmless (earlier m : PeerManager K) (ref : String) (visit : List K)
    (act : ℕ → Peer K → PeerManager K × Except Error Unit) :
    Harmless m (request parse earlier m ref visit act) ↔
      ∀ r peer, lookup parse earlier ref visit = some r → m.records r = some peer →
        Harmless m (act r peer) := by
  unfold request
  cases hlookup : lookup parse earlier ref visit with
  | none => simp [Harmless]
  | some r =>
    cases hr : m.records r with
    | none =>
      simp only [hr]
      constructor
      · rintro _ r' peer' ⟨⟩ hr'
        cases hr.symm.trans hr'
      · intro _ e _
        rfl
    | some peer =>
      have herror : Harmless m ((act r peer).1, (act r peer).2.mapError Failure.surface) ↔
          Harmless m (act r peer) := by
        unfold Harmless
        cases (act r peer).2 <;> simp [Except.mapError]
      simp only [hr]
      rw [herror]
      constructor
      · rintro h r' peer' ⟨⟩ hr'
        rw [← Option.some.inj (hr.symm.trans hr')]
        exact h
      · intro h
        exact h r peer rfl hr

/-- A failed `project` leaves everything as it was exactly when there was no
surface to take down or an address can be had, a failed `unproject` when the
address can be given back. -/
theorem failure_harmless_iff (earlier m : PeerManager K) (ref : String) (visit : List K)
    (ip : Option IpAddr) (name : Option String) (env : Env) :
    (Harmless m (project parse display earlier m ref visit ip name env) ↔
      ∀ r peer, lookup parse earlier ref visit = some r → m.records r = some peer →
        peer.surface = none ∨ Projectable m r ip env) ∧
    (Harmless m (unproject parse display earlier m ref visit env) ↔
      ∀ r peer surface, lookup parse earlier ref visit = some r → m.records r = some peer →
        peer.surface = some surface → Removable m.shared surface.ip env.unclaim) := by
  constructor
  · rw [project, request_harmless]
    refine forall₂_congr fun r peer => forall₂_congr fun _ hr => ?_
    exact project_harmless display m r peer ip name env hr
  · rw [unproject, request_harmless]
    refine forall₂_congr fun r peer => ?_
    constructor
    · intro h surface hlookup hr
      exact (unproject_harmless display m r peer ref env hr).mp (h hlookup hr) surface
    · intro h hlookup hr
      exact (unproject_harmless display m r peer ref env hr).mpr fun surface => h surface hlookup hr

end

def stocked : List (Request Bool) :=
  [.add false (some "build"), .project 0 (some localhost) none {}]

def aliased : List (Request Bool) := [.add false (some "build"), .announce 0 [80] {}]

/-- Asked for an address that cannot be claimed, `project` loses the one there
was; with an address that cannot be removed, `unproject` forgets the surface and
leaves it on file. -/
theorem failures_harmful :
    (∃ m, Reached Restart.parseKey Restart.displayKey .other "surfaces.json" "." {} stocked m ∧
      (m.get false).bind Peer.surface = some ⟨localhost, some "build"⟩ ∧
      (project Restart.parseKey Restart.displayKey m m "build" [false]
        (some (loopbackBase.host 9)) none {}).2 =
          .error (.surface (.unsupported (loopbackBase.host 9))) ∧
      ((project Restart.parseKey Restart.displayKey m m "build" [false]
        (some (loopbackBase.host 9)) none {}).1.get false).bind Peer.surface = none ∧
      ¬ Harmless m (project Restart.parseKey Restart.displayKey m m "build" [false]
        (some (loopbackBase.host 9)) none {})) ∧
    ∃ m, Reached Restart.parseKey Restart.displayKey .macos "surfaces.json" "." {} aliased m ∧
      (m.get false).bind Peer.surface = some ⟨loopbackBase.host 2, some "build"⟩ ∧
      ((unproject Restart.parseKey Restart.displayKey m m "build" [false]
        { unclaim := .error "ifconfig" }).1.get false).bind Peer.surface = none ∧
      (unproject Restart.parseKey Restart.displayKey m m "build" [false]
        { unclaim := .error "ifconfig" }).1.shared.surfaces = m.shared.surfaces ∧
      ¬ Harmless m (unproject Restart.parseKey Restart.displayKey m m "build" [false]
        { unclaim := .error "ifconfig" }) := by
  refine ⟨⟨_, rfl, ?_, ?_, ?_, fun h => ?_⟩, ⟨_, rfl, ?_, ?_, ?_, fun h => ?_⟩⟩
  · decide +kernel
  · decide +kernel
  · decide +kernel
  · have hsame := congrArg (fun m => (m.get false).bind Peer.surface)
      (h (.surface (.unsupported (loopbackBase.host 9))) (by decide +kernel))
    revert hsame
    decide +kernel
  · decide +kernel
  · decide +kernel
  · decide +kernel
  · have hsame := congrArg (fun m => (m.get false).bind Peer.surface)
      (h (.surface (.command "ifconfig")) (by decide +kernel))
    revert hsame
    decide +kernel

end PaiSho.SurfaceRequests
