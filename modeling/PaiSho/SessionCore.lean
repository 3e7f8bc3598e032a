import PaiSho.Enrollment
import PaiSho.Library.Traces

/-!
# The admission and authorization core

`core/session.rs`: who may talk to this daemon and what they may reach. Every
method takes an event and returns the actions the shell is to carry out. The
methods that write are the operations of a machine; the queries are functions
of its state. Random draws and clock readings come in with the operation.
-/

set_option autoImplicit false

namespace PaiSho.SessionCore
open Std (ExtTreeMap)
open PaiSho.GrantTable PaiSho.Enrollment Library.OrderedMaps Library.Traces

abbrev ConnId := UInt64

inductive Admission where
  | added
  | code
  | key
  deriving DecidableEq, Repr

inductive Refusal where
  | notAuthorized
  | enrollTimeout
  | notGranted
  deriving DecidableEq, Repr

inductive Action (K : Type) where
  | admitPeer (conn : ConnId) (peer : K) (replacing : Bool)
  | refuse (conn : ConnId) (reason : Refusal)
  | announce (peer : K) (ports : List Port)
  | applyPorts (peer : K) (ports : List Port)
  | serveTunnel (port : Port)
  | rejectTunnel (reason : Refusal)
  | persistPin (key : K) (label : Option String)
  | dropPin (key : K)
  deriving DecidableEq, Repr

inductive PeerMessage where
  | exposedPorts (ports : List Port)
  | connect (port : Port)
  | enroll (token : String) (version : Option String)
  | error (text : String)
  deriving DecidableEq, Repr

structure Admitted where
  label : Option String
  admission : Admission
  deriving DecidableEq, Repr

/-- A connection accepted but not yet admitted. `earlyPorts` holds an
announcement that arrived before the enrollment claim. -/
structure Pending where
  earlyPorts : Option (List Port) := none
  deriving DecidableEq, Repr

structure Session (K : Type) [LinearOrder K] where
  grants : Grants K
  tokens : Tokens
  peers : ExtTreeMap K Admitted
  pending : ExtTreeMap ConnId Pending

section
variable {K : Type} [LinearOrder K]

def Session.new : Session K := ⟨Grants.empty, Tokens.empty, ∅, ∅⟩

def Session.onTunnel (s : Session K) (peer : K) (port : Port) : Action K :=
  if s.grants.allows port peer then .serveTunnel port else .rejectTunnel .notGranted

def Session.announce (s : Session K) (peer : K) : Action K :=
  .announce peer (s.grants.portsFor peer)

def Session.announceAll (s : Session K) : List (Action K) :=
  s.peers.keys.map s.announce

def Session.peerKeys (s : Session K) : List K := s.peers.keys

def Session.admissionOf (s : Session K) (peer : K) : Option Admission :=
  s.peers[peer]?.map Admitted.admission

def Session.labelOf (s : Session K) (peer : K) : Option String :=
  s.peers[peer]?.bind Admitted.label

def Session.grantedPorts (s : Session K) : List Port := s.grants.ports

def Session.allGrants (s : Session K) (visit : Visit) : List (Port × K) := s.grants.all visit

def Session.admitKnown (s : Session K) (key : K) (label : Option String)
    (admission : Admission) : Session K × Bool :=
  if s.peers.contains key then (s, false)
  else ({ s with peers := s.peers.insert key ⟨label, admission⟩ }, true)

def Session.onInbound (s : Session K) (conn : ConnId) (remote : K) :
    Session K × List (Action K) :=
  if s.peers.contains remote then (s, [.admitPeer conn remote true, s.announce remote])
  else ({ s with pending := s.pending.insert conn {} }, [])

def Session.enrolled (s : Session K) (conn : ConnId) (remote : K) (claimed : Claimed) :
    Session K :=
  { s with
    pending := s.pending.erase conn
    peers := s.peers.insert remote ⟨claimed.name, .code⟩
    grants := s.grants.addPorts claimed.ports remote }

def Session.earlyPorts (s : Session K) (conn : ConnId) : List Port :=
  (s.pending[conn]?.bind Pending.earlyPorts).getD []

def Session.onUnadmitted (s : Session K) (conn : ConnId) (remote : K) (msg : PeerMessage)
    (now : ℕ) : Session K × List (Action K) :=
  match msg with
  | .enroll token _ =>
    let spent := { s with tokens := (s.tokens.claim token now).1 }
    match (s.tokens.claim token now).2 with
    | some claimed =>
      let early := s.earlyPorts conn
      let done := spent.enrolled conn remote claimed
      (done, [.admitPeer conn remote false, .persistPin remote claimed.name] ++
        (if early.isEmpty then [] else [.applyPorts remote early]) ++ [done.announce remote])
    | none =>
      ({ spent with pending := spent.pending.erase conn }, [.refuse conn .notAuthorized])
  | .exposedPorts ports =>
    match s.pending[conn]? with
    | some p => ({ s with pending := s.pending.insert conn { p with earlyPorts := some ports } }, [])
    | none => (s, [])
  | _ => (s, [])

def Session.onEnrollTimeout (s : Session K) (conn : ConnId) : Session K × List (Action K) :=
  match s.pending[conn]? with
  | none => (s, [])
  | some _ => ({ s with pending := s.pending.erase conn }, [.refuse conn .enrollTimeout])

def Session.evict (s : Session K) (peer : K) : Session K × List (Action K) :=
  match s.peers[peer]? with
  | none => (s, [])
  | some _ =>
    ({ s with peers := s.peers.erase peer, grants := s.grants.revokeGrantee peer },
      [.dropPin peer])

def Session.expose (s : Session K) (port : Port) (grantees : List K) :
    Session K × List (Action K) :=
  let done := { s with grants := s.grants.addGrantees port grantees }
  (done, done.announceAll)

def Session.unexpose (s : Session K) (port : Port) (grantee : Option K) :
    Session K × List (Action K) :=
  let done := { s with grants := s.grants.remove port grantee }
  (done, done.announceAll)

def Session.mintToken (s : Session K) (name : Option String) (ports : List Port)
    (bytes : Vector UInt8 32) (now : ℕ) : Session K × String :=
  ({ s with tokens := (s.tokens.mint name ports bytes now).1 },
    (s.tokens.mint name ports bytes now).2)

inductive Op (K : Type) where
  | admitKnown (key : K) (label : Option String) (admission : Admission)
  | onInbound (conn : ConnId) (remote : K)
  | onUnadmitted (conn : ConnId) (remote : K) (msg : PeerMessage) (now : ℕ)
  | onEnrollTimeout (conn : ConnId)
  | evict (peer : K)
  | expose (port : Port) (grantees : List K)
  | unexpose (port : Port) (grantee : Option K)
  | mintToken (name : Option String) (ports : List Port) (bytes : Vector UInt8 32) (now : ℕ)
  deriving DecidableEq

/-- One operation under the session lock. What `admit_known` and `mint_token`
return besides the new state is a function of the operation and the state
before it, and is no action. -/
def step (s : Session K) : Op K → Session K × List (Action K)
  | .admitKnown key label admission => ((s.admitKnown key label admission).1, [])
  | .onInbound conn remote => s.onInbound conn remote
  | .onUnadmitted conn remote msg now => s.onUnadmitted conn remote msg now
  | .onEnrollTimeout conn => s.onEnrollTimeout conn
  | .evict peer => s.evict peer
  | .expose port grantees => s.expose port grantees
  | .unexpose port grantee => s.unexpose port grantee
  | .mintToken name ports bytes now => ((s.mintToken name ports bytes now).1, [])

abbrev Record (K : Type) [LinearOrder K] := Event (Session K) (Op K) (List (Action K))

def after (ops : List (Op K)) : Session K := run step Session.new ops

def history (ops : List (Op K)) : List (Record K) := trace step Session.new ops

end
end PaiSho.SessionCore
