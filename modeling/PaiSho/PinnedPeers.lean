import PaiSho.SessionSteps
import PaiSho.RecordFiles

/-!
# Pins and the requests that write them

`enroll.rs` keeps the admitted keys in a file of pins, and `peer.rs` and
`daemon.rs` write it: an invitation addressed to a key and a claimed code add a
pin, a forget removes one, and a restart reads them all. A key is typed and
filed as text; `parse` and `display` stand for the key type's own. Requests run
one after the other here, each with the outcome of its read and its write.
-/

set_option autoImplicit false

namespace PaiSho.PinnedPeers
open Std (ExtTreeMap)
open PaiSho.GrantTable PaiSho.Enrollment PaiSho.SessionCore PaiSho.SessionSteps
open PaiSho.RecordFiles Library.OrderedMaps

structure Pin where
  key : String
  label : Option String
  deriving DecidableEq, Repr

abbrev Pins := RecordFile Pin

def Pins.add (p : Pins) (key : String) (label : Option String) (io : Io) :
    Pins × Except String Unit :=
  p.update (fun pins => pins.filter (fun pin => pin.key ≠ key) ++ [⟨key, label⟩]) io

def Pins.remove (p : Pins) (key : String) (io : Io) : Pins × Except String Unit :=
  p.update (fun pins => pins.filter (fun pin => pin.key ≠ key)) io

/-- The daemon as far as admission goes: the core, the label of every peer
record, and the pin file. -/
structure Daemon (K : Type) [LinearOrder K] where
  session : Session K
  peers : ExtTreeMap K (Option String)
  pins : Pins

inductive Answer where
  | ok
  | error (text : String)
  | invitation (code : String)
  | enrolled (pin : Except String Unit)
  | silent

inductive Request (K : Type) where
  | invite (key : Option String) (name : Option String) (expose : List Port)
      (bytes : Vector UInt8 32) (now : ℕ) (io : Io)
  | accept (key : K) (name : Option String)
  | forget (ref : String) (visit : List K) (io : Io)
  | inbound (conn : ConnId) (remote : K)
  | message (conn : ConnId) (remote : K) (msg : PeerMessage) (now : ℕ) (io : Io)
  | timeout (conn : ConnId)
  | restart (read : Read)

section
variable {K : Type} [LinearOrder K] (parse : String → Option K) (display : K → String)

omit [LinearOrder K] in
theorem parse_display_iff (hparse : ∀ k, parse (display k) = some k) (key k : K) :
    parse (display key) = some k ↔ key = k := by
  rw [hparse, Option.some.injEq]

def Daemon.new (path parent : String) : Daemon K := ⟨Session.new, ∅, ⟨path, parent, .absent⟩⟩

def Daemon.register (d : Daemon K) (key : K) (name : Option String) (admission : Admission) :
    Daemon K :=
  { d with
    session := (d.session.admitKnown key name admission).1
    peers := d.peers.insert key name }

def Daemon.addPinned (d : Daemon K) (key : String) (name : Option String) :
    Except String (Daemon K) :=
  match parse key with
  | none => .error "invalid key"
  | some id => if d.peers.contains id then .ok d else .ok (d.register id name .key)

def Daemon.pinPeer (d : Daemon K) (key : String) (name : Option String) (io : Io) :
    Daemon K × Except String Unit :=
  match d.addPinned parse key name with
  | .error e => (d, .error e)
  | .ok d' => ({ d' with pins := (d'.pins.add key name io).1 }, (d'.pins.add key name io).2)

def Daemon.expose (d : Daemon K) (port : Port) (grantees : List K) : Daemon K :=
  { d with session := (d.session.expose port grantees).1 }

def Daemon.invite (d : Daemon K) (key : Option String) (name : Option String) (expose : List Port)
    (bytes : Vector UInt8 32) (now : ℕ) (io : Io) : Daemon K × Answer :=
  match key with
  | some key =>
    match d.pinPeer parse key name io with
    | (d', .error e) => (d', .error e)
    | (d', .ok ()) =>
      match parse key with
      | none => (d', .error "invalid key")
      | some grantee => (expose.foldl (fun d port => d.expose port [grantee]) d', .ok)
  | none =>
    ({ d with session := (d.session.mintToken name expose bytes now).1 },
      .invitation (d.session.mintToken name expose bytes now).2)

/-- `Daemon::accept` from the handle's key on. -/
def Daemon.accept (d : Daemon K) (key : K) (name : Option String) : Daemon K × Answer :=
  if d.peers.contains key then (d, .error "peer already exists")
  else (d.register key name .added, .ok)

/-- A key is tried first, then the names in the table's order of iteration. -/
def Daemon.resolvePeer (d : Daemon K) (ref : String) (visit : List K) : Option K :=
  match (parse ref).filter (fun id => d.peers.contains id) with
  | some id => some id
  | none => visit.find? (fun id => d.peers[id]? = some (some ref))

def applyPin (io : Io) (done : Pins × Except String Unit) : Action K → Pins × Except String Unit
  | .persistPin key label => done.1.add (display key) label io
  | .dropPin key => done.1.remove (display key) io
  | _ => done

def applyPins (io : Io) (pins : Pins) (actions : List (Action K)) : Pins × Except String Unit :=
  actions.foldl (applyPin display io) (pins, .ok ())

def Daemon.evict (d : Daemon K) (key : K) (io : Io) : Daemon K :=
  ⟨(d.session.evict key).1, d.peers.erase key, (applyPins display io d.pins (d.session.evict key).2).1⟩

def Daemon.removePeer (d : Daemon K) (ref : String) (visit : List K) (io : Io) :
    Daemon K × Answer :=
  match d.resolvePeer parse ref visit with
  | none => (d, .error ("no such peer: " ++ ref))
  | some key =>
    if d.peers.contains key then (d.evict display key io, .ok) else (d, .error "peer not found")

def admits : Action K → Bool
  | .admitPeer _ _ _ => true
  | _ => false

/-- One control message of a connection not yet admitted, in
`handle_enrollment`. -/
def Daemon.handleMessage (d : Daemon K) (conn : ConnId) (remote : K) (msg : PeerMessage)
    (now : ℕ) (io : Io) : Daemon K × Answer :=
  let verdict := d.session.onUnadmitted conn remote msg now
  if verdict.2.any admits then
    let applied := applyPins display io d.pins verdict.2
    (⟨verdict.1, d.peers.insert remote (verdict.1.labelOf remote), applied.1⟩, .enrolled applied.2)
  else ({ d with session := verdict.1 }, .silent)

def loadPin (d : Daemon K) (pin : Pin) : Daemon K :=
  match d.addPinned parse pin.key pin.label with
  | .ok d' => d'
  | .error _ => d

def Daemon.withEndpoint (pins : Pins) (read : Read) : Except String (Daemon K) :=
  match pins.load read with
  | .error e => .error e
  | .ok pinned => .ok (pinned.foldl (loadPin parse) ⟨Session.new, ∅, pins⟩)

/-- One request. A restart that cannot read its pins does not come up. -/
def step (d : Daemon K) : Request K → Option (Daemon K × Answer)
  | .invite key name expose bytes now io => some (d.invite parse key name expose bytes now io)
  | .accept key name => some (d.accept key name)
  | .forget ref visit io => some (d.removePeer parse display ref visit io)
  | .inbound conn remote => some ({ d with session := (d.session.onInbound conn remote).1 }, .silent)
  | .message conn remote msg now io => some (d.handleMessage display conn remote msg now io)
  | .timeout conn => some ({ d with session := (d.session.onEnrollTimeout conn).1 }, .silent)
  | .restart read =>
    match Daemon.withEndpoint parse d.pins read with
    | .ok d' => some (d', .silent)
    | .error _ => none

def next (d : Daemon K) (req : Request K) : Option (Daemon K) :=
  (step parse display d req).map Prod.fst

/-- The key a request is about, in the state that meets it. A claim is about the
key that made it once it was accepted. -/
def concerns (d : Daemon K) : Request K → Option K
  | .invite (some key) _ _ _ _ _ => parse key
  | .accept key _ => some key
  | .forget ref visit _ => d.resolvePeer parse ref visit
  | .message conn remote msg now _ =>
    (claimBy d.session (.onUnadmitted conn remote msg now)).map Prod.fst
  | _ => none

end
end PaiSho.PinnedPeers
