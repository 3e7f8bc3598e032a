import PaiSho.Announcements
import PaiSho.PeerWire
import Mathlib.Logic.Function.Basic

/-!
# Announcements between two daemons

One daemon computes the port list of a peer under its session lock, and sends
it later on a stream of its own, over whatever connection the peer's record
holds by then. The lists are computed by requests that change grants, by
inbound connections when they are let in, by dials after they are installed,
and by enrollments. The peer runs one handler a stream, in any order, and a
handler drops a stream that is too long. A list carries no number; `stamp` is
the number of grant changes it was computed after, and only the statements read
it.
-/

set_option autoImplicit false

namespace PaiSho.AnnouncementTasks
open PaiSho.GrantTable PaiSho.Enrollment PaiSho.SessionCore PaiSho.PeerWire

structure Message where
  conn : ℕ
  stamp : ℕ
  bytes : List UInt8
  deriving DecidableEq, Repr

/-- Where a task of the announcing daemon stands. `broadcast` has changed the
grants and not yet come to the peer's record; `inbound` and `enrolled` carry
the list the core returned when it let the peer in. -/
inductive Task where
  | broadcast
  | announcing (record : ℕ)
  | sending (record stamp : ℕ) (ports : List Port)
  | inbound (record conn stamp : ℕ) (ports : List Port)
  | dialed (record conn : ℕ)
  | enrolled (conn stamp : ℕ) (ports : List Port)
  | ended
  deriving DecidableEq, Repr

/-- The announcing daemon, the streams it sent that are not yet handled, and the
other end: `exposed` is that end's `exposed_ports` and `held` the connection in
its slot. `current` is the peer's record in the table and `slots` has the
connection of every record. `version` counts the grant changes and `handled` is
the stamp of the list handled last. -/
structure Pair (K : Type) [LinearOrder K] where
  session : Session K
  current : Option ℕ := none
  slots : ℕ → Option ℕ := fun _ => none
  fresh : ℕ := 0
  opened : ℕ := 0
  lost : ℕ → Bool := fun _ => false
  tasks : List Task := []
  version : ℕ := 0
  flight : List Message := []
  exposed : List Port := []
  handled : ℕ := 0
  held : Option ℕ := none

section
variable {K : Type} [LinearOrder K] (wire : Wire) (peer : K)

def Pair.initial : Pair K := { session := Session.new }

def announced : List (Action K) → Option (List Port)
  | [] => none
  | .announce _ ports :: _ => some ports
  | _ :: rest => announced rest

def aside : Op K → Bool
  | .admitKnown _ _ _ => true
  | .onInbound _ remote => remote ≠ peer
  | .onUnadmitted _ remote _ _ => remote ≠ peer
  | .onEnrollTimeout _ => true
  | .evict key => key ≠ peer
  | .expose _ _ => false
  | .unexpose _ _ => false
  | .mintToken _ _ _ _ => true

/-- A connection goes into the slot of a record and what was there is closed. -/
def Pair.install (st : Pair K) (record conn : ℕ) : Pair K :=
  { st with
    slots := Function.update st.slots record (some conn)
    lost := fun c => st.lost c || st.slots record = some c }

def Pair.close (st : Pair K) (conn : ℕ) : Pair K :=
  { st with lost := fun c => st.lost c || c = conn }

/-- The next step of a task. `keep` is what `dial::resolve` answered for a new
connection; the rest does not look at it. -/
def taskStep (st : Pair K) (keep : Bool) : Task → Option (Pair K × Task)
  | .broadcast =>
    match st.current with
    | none => some (st, .ended)
    | some record =>
      some (st, .sending record st.version ((announced [st.session.announce peer]).getD []))
  | .announcing record =>
    some (st, .sending record st.version ((announced [st.session.announce peer]).getD []))
  | .sending record stamp ports =>
    match st.slots record with
    | none => some (st, .ended)
    | some conn =>
      -- a stream opened on a connection that is gone is only logged
      if st.lost conn then some (st, .ended)
      else
        let bytes := wire.toVec (.exposedPorts ports)
        some ({ st with flight := st.flight++[⟨conn, stamp, bytes⟩] }, .ended)
  | .inbound record conn stamp ports =>
    if keep then some (st.install record conn, .sending record stamp ports)
    else some (st.close conn, .ended)
  | .dialed record conn =>
    if keep then some (st.install record conn, .announcing record)
    else some (st.close conn, .ended)
  | .enrolled conn stamp ports =>
    some ({ st.install st.fresh conn with current := some st.fresh, fresh := st.fresh + 1 },
      .sending st.fresh stamp ports)
  | .ended => none

inductive Event (K : Type) where
  | expose (port : Port) (grantees : List K)
  | unexpose (port : Port) (grantee : Option K)
  | other (op : Op K)
  | add (label : Option String) (admission : Admission)
  | inbound
  | claim (conn : ℕ) (token : String) (version : Option String) (now : ℕ)
  | dial (record : ℕ)
  | run (i : ℕ) (keep : Bool)
  | lose (conn : ℕ)
  | drop (j : ℕ)
  | handle (j : ℕ)
  | hold (conn : ℕ)

def Pair.change (st : Pair K) (op : Op K) : Pair K :=
  { st with
    session := (SessionCore.step st.session op).1
    version := st.version + 1
    tasks := st.tasks++[.broadcast] }

def step (st : Pair K) : Event K → Option (Pair K)
  | .expose port grantees => some (st.change (.expose port grantees))
  | .unexpose port grantee => some (st.change (.unexpose port grantee))
  | .other op =>
    if aside peer op then some { st with session := (SessionCore.step st.session op).1 } else none
  | .add label admission =>
    match st.current with
    | some _ => none
    | none =>
      some { st with
        session := (SessionCore.step st.session (.admitKnown peer label admission)).1
        current := some st.fresh
        slots := Function.update st.slots st.fresh none
        fresh := st.fresh + 1 }
  | .inbound =>
    let out := SessionCore.step st.session (.onInbound (.ofNat st.opened) peer)
    let st' := { st with session := out.1, opened := st.opened + 1 }
    match announced out.2, st.current with
    | some ports, some record =>
      some { st' with tasks := st.tasks++[.inbound record st.opened st.version ports] }
    | _, _ => some st'
  | .claim conn token version now =>
    let out := SessionCore.step st.session (.onUnadmitted (.ofNat conn) peer (.enroll token version) now)
    match announced out.2 with
    | some ports =>
      some { st with
        session := out.1
        version := st.version + 1
        tasks := st.tasks++[.enrolled conn (st.version + 1) ports] }
    | none => some { st with session := out.1 }
  | .dial record =>
    if record < st.fresh then
      some { st with opened := st.opened + 1, tasks := st.tasks++[.dialed record st.opened] }
    else none
  | .run i keep =>
    match st.tasks[i]? with
    | none => none
    | some task =>
      (taskStep wire peer st keep task).map (fun out => { out.1 with tasks := st.tasks.set i out.2 })
  | .lose conn => some (st.close conn)
  | .drop j =>
    match st.flight[j]? with
    | none => none
    | some msg => if st.lost msg.conn then some { st with flight := st.flight.eraseIdx j } else none
  | .handle j =>
    match st.flight[j]? with
    | none => none
    | some msg =>
      let st' := { st with flight := st.flight.eraseIdx j }
      match wire.hear msg.bytes with
      | .message (.exposedPorts ports) => some { st' with exposed := ports, handled := msg.stamp }
      | _ => some st'
  | .hold conn => some { st with held := some conn }

def Reached (evs : List (Event K)) (st : Pair K) : Prop :=
  Library.Traces.exec (step wire peer) Pair.initial evs = some st

def Quiescent (st : Pair K) : Prop := (∀ task ∈ st.tasks, task = .ended) ∧ st.flight = []

def Linked (st : Pair K) : Prop :=
  ∃ record conn, st.current = some record ∧ st.slots record = some conn ∧ st.held = some conn ∧
    st.lost conn = false

def Converged (st : Pair K) : Prop :=
  ∀ port, port ∈ st.exposed ↔ st.session.onTunnel peer port = .serveTunnel port

end
end PaiSho.AnnouncementTasks
