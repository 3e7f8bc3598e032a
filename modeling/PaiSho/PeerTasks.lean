import PaiSho.GrantTable
import PaiSho.DialLink

/-!
# The tasks that share a peer record

Everything the daemon does about one key runs in tasks: the connection loop of
the peer's record, handlers of inbound connections, handlers of announcements,
enrollments and forget requests. A step here is what stands between two awaits,
and a `Choice` is what the await brought. Where tasks on other threads can come
between two calls on the table, each call is a step of its own: the look, the
word to the session and the insert of an accept, the removal and the mark of a
forget. Records are numbered as they are made. The table `peers` has the one the
key stands for; a task keeps its record when that one leaves the table.
-/

set_option autoImplicit false

namespace PaiSho.PeerTasks
open GrantTable (Port)
open DialLink (Slot resolve settle dialResult handleConnection)

def shortKey : ℕ := 8

def defaultName (shown : String) : String := String.ofList (shown.toList.take shortKey)

structure Surface where
  ip : ℕ
  name : Option String
  deriving DecidableEq, Repr

structure Peer where
  label : Option String
  dial : Bool
  slot : Slot := {}
  exposedPorts : List Port := []
  surface : Option Surface := none
  bindings : List Port := []
  notified : Bool := false
  removed : Bool := false

/-- A stream of the peer's on a connection. All but a port list leave the
record's slot, surface and bindings alone. -/
inductive Stream where
  | exposedPorts (ports : List Port)
  | other

inductive LoopPc where
  | top
  | opening
  | serving (conn : ℕ)
  | parked
  | waiting
  | dialing
  | dialed (conn : ℕ)
  | announcing

inductive UpdatePc where
  | reading (ports : List Port)
  | queued (ports : List Port)
  | releasing (ports todo : List Port)
  | claiming (ports : List Port)
  | placing (ports : List Port) (surface : Surface)
  | binding (ports : List Port) (ip : ℕ) (todo : List Port)
  | recording (ports : List Port)

inductive ForgetPc where
  | queued
  | marking (record : ℕ)
  | closing (record : ℕ)
  | releasing (record : ℕ) (todo : List Port)

inductive Task where
  | loop (record : ℕ) (pc : LoopPc)
  | inbound (record conn : ℕ)
  | update (record : ℕ) (pc : UpdatePc)
  | enrolling (conn : ℕ) (label : Option String) (ports : Option (List Port))
  | admitting (label : Option String) (dial : Bool)
  | inserting (label : Option String) (dial : Bool)
  | forget (pc : ForgetPc)
  | ended

inductive Choice where
  | go
  | fail
  | accept
  | notified
  | connected
  | allocated (ip : ℕ)

inductive Effect where
  | install (conn : ℕ)
  | serve (conn : ℕ)
  | claim (surface : Surface)
  | place (surface : Surface)
  | persist (surface : Surface)
  | bind (port : Port)

/-- The memory the tasks share. `admitted` is the session's word on the key,
`surfaceRecord` the surface on file for it, `bindLock` the task that holds the
lock. `incoming` has the streams received and not yet accepted. `forgotten` is
nothing the source keeps: a forget of the key has returned, and the key was not
admitted since. -/
structure Node where
  peers : Option ℕ := none
  records : ℕ → Peer := fun _ => ⟨none, false, {}, [], none, [], false, false⟩
  fresh : ℕ := 0
  admitted : Bool := false
  surfaceRecord : Option Surface := none
  bindLock : Option ℕ := none
  opened : ℕ := 0
  closed : ℕ → Bool := fun _ => false
  incoming : ℕ → List Stream := fun _ => []
  forgotten : Bool := false

structure System where
  node : Node := {}
  tasks : List Task := []

def Node.setPeer (nd : Node) (r : ℕ) (peer : Peer) : Node :=
  { nd with records := Function.update nd.records r peer }

def Node.close (nd : Node) (conns : List ℕ) : Node :=
  { nd with closed := fun c => nd.closed c || conns.contains c }

/-- What a step leaves: the memory, the task's next point, the tasks it
spawned and what it did, by record. -/
structure Outcome where
  node : Node
  task : Task
  spawned : List Task := []
  effects : List (ℕ × Effect) := []

section
variable {K : Type} [LinearOrder K] (ours theirs : K) (shown : K → String)

/-- A new connection meets the slot of the record, in either handler: close it
and keep the slot, or install it. -/
def meet (nd : Node) (r conn : ℕ) (dialedByUs : Bool) : Node × Bool :=
  let peer := nd.records r
  let live := fun c => !nd.closed c
  let installed := decide (resolve ours theirs (peer.slot.connection.any live)
    peer.slot.connDialedByUs dialedByUs = .arriving)
  let result := if dialedByUs then dialResult ours theirs live peer.slot conn
    else handleConnection ours theirs live peer.slot conn
  ((nd.setPeer r { peer with slot := result.1 }).close result.2, installed)

def disconnected (nd : Node) (r : ℕ) : Task :=
  let peer := nd.records r
  if peer.removed then .ended
  else if peer.dial then .loop r .waiting
  else .loop r .parked

def peerConnectionLoop (nd : Node) (r : ℕ) : LoopPc → Choice → Option Outcome
  | .top, .go =>
    if (nd.records r).slot.connection.isSome then some ⟨nd, .loop r .opening, [], []⟩
    else some ⟨nd, disconnected nd r, [], []⟩
  | .opening, .go =>
    match (nd.records r).slot.connection with
    | some conn => some ⟨nd, .loop r (.serving conn), [], [(r, .serve conn)]⟩
    | none => some ⟨nd, disconnected nd r, [], []⟩
  | .serving conn, .accept =>
    match nd.incoming conn with
    | [] => none
    | stream::rest =>
      let nd' := { nd with incoming := Function.update nd.incoming conn rest }
      match stream with
      | .exposedPorts ports =>
        some ⟨nd', .loop r (.serving conn), [.update r (.reading ports)], [(r, .serve conn)]⟩
      | .other => some ⟨nd', .loop r (.serving conn), [], [(r, .serve conn)]⟩
  | .serving conn, .fail =>
    if nd.closed conn then some ⟨nd, disconnected nd r, [], []⟩ else none
  | .parked, .notified =>
    if (nd.records r).notified then
      some ⟨nd.setPeer r { nd.records r with notified := false },
        if (nd.records r).removed then .ended else .loop r .top, [], []⟩
    else none
  | .waiting, .notified =>
    -- woken early the loop goes round without asking whether the peer was removed
    if (nd.records r).notified then
      some ⟨nd.setPeer r { nd.records r with notified := false }, .loop r .top, [], []⟩
    else none
  | .waiting, .go =>
    some ⟨nd, if (nd.records r).removed then .ended else .loop r .dialing, [], []⟩
  | .dialing, .fail =>
    some ⟨nd, if (nd.records r).removed then .ended else .loop r .waiting, [], []⟩
  | .dialing, .connected =>
    some ⟨{ nd with opened := nd.opened + 1 }, .loop r (.dialed nd.opened), [], []⟩
  | .dialed conn, .go =>
    let met := meet ours theirs nd r conn true
    if met.2 then some ⟨met.1, .loop r .announcing, [], [(r, .install conn)]⟩
    else some ⟨met.1, .loop r .top, [], []⟩
  | .announcing, .go => some ⟨nd, .loop r .top, [], []⟩
  | _, _ => none

def inboundStep (nd : Node) (r conn : ℕ) : Choice → Option Outcome
  | .go =>
    let met := meet ours theirs nd r conn false
    if met.2 then
      let peer := met.1.records r
      some ⟨met.1.setPeer r { peer with dial := true, notified := true }, .ended, [],
        [(r, .install conn)]⟩
    else some ⟨met.1, .ended, [], []⟩
  | _ => none

/-- `handle_uni_stream` on a port list and `update_peer_ports`, with
`surface_ip` from `releasing` with nothing left to `placing`. -/
def updatePeerPorts (nd : Node) (i r : ℕ) : UpdatePc → Choice → Option Outcome
  | .reading ports, .go => some ⟨nd, .update r (.queued ports), [], []⟩
  | .reading _, .fail => some ⟨nd, .ended, [], []⟩
  | .queued ports, .go =>
    if nd.bindLock = none then
      some ⟨{ nd with bindLock := some i }, .update r (.releasing ports
        ((nd.records r).exposedPorts.filter (fun port => !ports.contains port))), [], []⟩
    else none
  | .releasing ports (port::todo), .go =>
    let peer := nd.records r
    some ⟨nd.setPeer r { peer with bindings := peer.bindings.filter (· ≠ port) },
      .update r (.releasing ports todo), [], []⟩
  | .releasing ports [], .go =>
    match (nd.records r).surface with
    | some surface => some ⟨nd, .update r (.binding ports surface.ip ports), [], []⟩
    | none =>
      if ports = [] then some ⟨nd, .update r (.recording ports), [], []⟩
      else some ⟨nd, .update r (.claiming ports), [], []⟩
  | .claiming ports, .allocated ip =>
    let name := some ((nd.records r).label.getD (defaultName (shown theirs)))
    some ⟨nd, .update r (.placing ports ⟨ip, name⟩), [], [(r, .claim ⟨ip, name⟩)]⟩
  | .claiming ports, .fail => some ⟨nd, .update r (.recording ports), [], []⟩
  | .placing ports surface, .go =>
    some ⟨{ nd.setPeer r { nd.records r with surface := some surface } with
        surfaceRecord := some surface },
      .update r (.binding ports surface.ip ports), [], [(r, .place surface), (r, .persist surface)]⟩
  | .placing ports surface, .fail =>
    -- the record could not be written; the surface stands
    some ⟨nd.setPeer r { nd.records r with surface := some surface },
      .update r (.binding ports surface.ip ports), [], [(r, .place surface)]⟩
  | .binding ports ip (port::todo), .go =>
    let peer := nd.records r
    if port ∈ peer.bindings then some ⟨nd, .update r (.binding ports ip todo), [], []⟩
    else some ⟨nd.setPeer r { peer with bindings := port::peer.bindings },
      .update r (.binding ports ip todo), [], [(r, .bind port)]⟩
  | .binding ports ip (_::todo), .fail => some ⟨nd, .update r (.binding ports ip todo), [], []⟩
  | .binding ports _ [], .go => some ⟨nd, .update r (.recording ports), [], []⟩
  | .recording ports, .go =>
    some ⟨{ nd.setPeer r { nd.records r with exposedPorts := ports } with bindLock := none },
      .ended, [], []⟩
  | _, _ => none

/-- The last of a forget: the core forgets the key and the shell drops its
surface record. A write of the file that fails is only logged. -/
def Node.dropKey (nd : Node) (choice : Choice) : Node :=
  { nd with
    admitted := false
    forgotten := true
    surfaceRecord := match choice with
      | .fail => nd.surfaceRecord
      | _ => none }

/-- `remove_peer` from the bind lock on. -/
def evict (nd : Node) (i : ℕ) : ForgetPc → Choice → Option Outcome
  | .queued, choice =>
    if nd.bindLock = none then
      match nd.peers with
      | some r => some ⟨{ nd with peers := none, bindLock := some i }, .forget (.marking r), [], []⟩
      | none => some ⟨nd.dropKey choice, .ended, [], []⟩
    else none
  | .marking r, .go =>
    some ⟨nd.setPeer r { nd.records r with removed := true, notified := true },
      .forget (.closing r), [], []⟩
  | .closing r, .go =>
    let peer := nd.records r
    let slot := { peer.slot with connection := none }
    some ⟨(nd.setPeer r { peer with slot := slot }).close peer.slot.connection.toList,
      .forget (.releasing r peer.bindings), [], []⟩
  | .releasing r (port::todo), .go =>
    let peer := nd.records r
    some ⟨nd.setPeer r { peer with bindings := peer.bindings.filter (· ≠ port) },
      .forget (.releasing r todo), [], []⟩
  | .releasing r [], choice =>
    let peer := { nd.records r with surface := none }
    some ⟨{ (nd.setPeer r peer).dropKey choice with bindLock := none }, .ended, [], []⟩
  | _, _ => none

def Node.admitKey (nd : Node) : Node := { nd with admitted := true, forgotten := false }

def Node.insertPeer (nd : Node) (peer : Peer) : Node :=
  { nd.setPeer nd.fresh peer with peers := some nd.fresh, fresh := nd.fresh + 1 }

/-- `add_peer` and `add_pinned` past `contains_key`: `admit_known`, and then the
record, whatever the table has by now. -/
def admitStep (nd : Node) (label : Option String) (dial : Bool) : Choice → Option Outcome
  | .go => some ⟨nd.admitKey, .inserting label dial, [], []⟩
  | _ => none

def insertStep (nd : Node) (label : Option String) (dial : Bool) : Choice → Option Outcome
  | .go => some ⟨nd.insertPeer { label := label, dial := dial }, .ended, [.loop nd.fresh .top], []⟩
  | _ => none

/-- The end of `handle_enrollment`, after the verdict. -/
def enrollStep (nd : Node) (conn : ℕ) (label : Option String) (ports : Option (List Port)) :
    Choice → Option Outcome
  | .go =>
    let peer : Peer := { label := label, dial := true, slot := ⟨some conn, false⟩ }
    some ⟨nd.insertPeer peer, .ended, .loop nd.fresh .top ::
      ports.toList.map (fun ports => .update nd.fresh (.queued ports)), []⟩
  | _ => none

def taskStep (nd : Node) (i : ℕ) : Task → Choice → Option Outcome
  | .loop r pc => peerConnectionLoop ours theirs nd r pc
  | .inbound r conn => inboundStep ours theirs nd r conn
  | .update r pc => updatePeerPorts theirs shown nd i r pc
  | .enrolling conn label ports => enrollStep nd conn label ports
  | .admitting label dial => admitStep nd label dial
  | .inserting label dial => insertStep nd label dial
  | .forget pc => evict nd i pc
  | .ended => fun _ => none

/-- What reaches the daemon: the requests, connections of the peer's and
streams on them, losses, and the next step of a task. -/
inductive Event where
  | add (label : Option String) (dial : Bool)
  | claim (label : Option String) (ports : Option (List Port))
  | inbound
  | receive (conn : ℕ) (stream : Stream)
  | lose (conn : ℕ)
  | forget
  | run (i : ℕ) (choice : Choice)

def step (sys : System) : Event → Option (System × List (ℕ × Effect))
  | .add label dial =>
    match sys.node.peers with
    | some _ => none
    | none => some (⟨sys.node, sys.tasks++[.admitting label dial]⟩, [])
  | .claim label ports =>
    some (⟨{ sys.node.admitKey with opened := sys.node.opened + 1 },
      sys.tasks++[.enrolling sys.node.opened label ports]⟩, [])
  | .inbound =>
    let node := { sys.node with opened := sys.node.opened + 1 }
    match sys.node.admitted, sys.node.peers with
    | true, some r => some (⟨node, sys.tasks++[.inbound r sys.node.opened]⟩, [])
    | _, _ => some (⟨node, sys.tasks⟩, [])
  | .receive conn stream =>
    if sys.node.closed conn then none
    else some (⟨{ sys.node with
      incoming := Function.update sys.node.incoming conn (sys.node.incoming conn ++ [stream]) },
      sys.tasks⟩, [])
  | .lose conn => some (⟨sys.node.close [conn], sys.tasks⟩, [])
  | .forget =>
    match sys.node.peers with
    | some _ => some (⟨sys.node, sys.tasks++[.forget .queued]⟩, [])
    | none => none
  | .run i choice =>
    match sys.tasks[i]? with
    | none => none
    | some task =>
      (taskStep ours theirs shown sys.node i task choice).map (fun out =>
        (⟨out.node, sys.tasks.set i out.task ++ out.spawned⟩, out.effects))

def next (sys : System) (ev : Event) : Option System :=
  (step ours theirs shown sys ev).map Prod.fst

def Reached (evs : List Event) (sys : System) : Prop :=
  Library.Traces.exec (next ours theirs shown) {} evs = some sys

end
end PaiSho.PeerTasks
