import PaiSho.PeerTasks
import PaiSho.PinnedPeers

/-!
# Surfaces, bindings and the name map

The part of `peer.rs` that runs under the bind lock, with `surface.rs` and the
name map and listeners of `netstack.rs`. The lock makes each operation one step:
an announcement, `project`, `unproject` and a forget, each on the record its
caller had looked up before it got the lock. A restart drops the records, loads
the pinned peers and restores the surfaces on file. What the system answers (an
address command, a read, a write, an attempt to bind) comes with the request.
-/

set_option autoImplicit false

namespace PaiSho.SurfaceManager
open Std (ExtTreeMap)
open GrantTable (Port)
open PeerTasks (defaultName)
open RecordFiles
open PinnedPeers (Pin)

structure Ipv4 where
  a : UInt8
  b : UInt8
  c : UInt8
  d : UInt8
  deriving DecidableEq, Repr

inductive IpAddr where
  | v4 (ip : Ipv4)
  | v6 (bits : BitVec 128)
  deriving DecidableEq, Repr

structure Base where
  a : UInt8
  b : UInt8
  c : UInt8
  deriving DecidableEq, Repr

def loopbackBase : Base := ⟨127, 0, 1⟩

def tunBase : Base := ⟨10, 99, 1⟩

def Base.host (base : Base) (host : UInt8) : IpAddr := .v4 ⟨base.a, base.b, base.c, host⟩

inductive Error where
  | noFreeAddress (base : Base)
  | unsupported (ip : IpAddr)
  | command (text : String)
  | notProjected (ref : String)
  deriving DecidableEq, Repr

def hosts : List UInt8 := (List.range' 2 253).map UInt8.ofNat

def allocate (taken : List IpAddr) (base : Base) : Except Error IpAddr :=
  match (hosts.map base.host).find? (fun ip => !taken.contains ip) with
  | some ip => .ok ip
  | none => .error (.noFreeAddress base)

inductive Os where
  | linux
  | macos
  | other
  deriving DecidableEq, Repr

def localhost : IpAddr := .v4 ⟨127, 0, 0, 1⟩

/-- The addresses added to the loopback interface. `ran` is what the command
answered, where there is one. -/
def addAddr (os : Os) (aliases : List IpAddr) (ip : IpAddr) (ran : Except String Unit) :
    Except Error (List IpAddr) :=
  match os with
  | .linux => .ok aliases
  | .macos =>
    match ran with
    | .ok () => .ok (ip::aliases)
    | .error e => .error (.command e)
  | .other => .error (.unsupported ip)

def delAddr (os : Os) (aliases : List IpAddr) (ip : IpAddr) (ran : Except String Unit) :
    Except Error (List IpAddr) :=
  match os with
  | .macos =>
    match ran with
    | .ok () => .ok (aliases.filter (· ≠ ip))
    | .error e => .error (.command e)
  | _ => .ok aliases

def ensureAddr (os : Os) (aliases : List IpAddr) (ip : IpAddr) (ran : Except String Unit) :
    Except Error (List IpAddr) :=
  if ip = localhost then .ok aliases else addAddr os aliases ip ran

def removeAddr (os : Os) (aliases : List IpAddr) (ip : IpAddr) (ran : Except String Unit) :
    Except Error (List IpAddr) :=
  if ip = localhost then .ok aliases else delAddr os aliases ip ran

structure NetStack where
  names : String → Option Ipv4 := fun _ => none
  listeners : List (Ipv4 × Port) := []

def NetStack.addSurface (ns : NetStack) (ip : Ipv4) : Option String → NetStack
  | some name => { ns with names := Function.update ns.names name (some ip) }
  | none => ns

def NetStack.removeSurface (ns : NetStack) (ip : Ipv4) : NetStack :=
  { ns with names := fun name => (ns.names name).filter (· ≠ ip) }

def NetStack.listen (ns : NetStack) (ip : Ipv4) (port : Port) : NetStack :=
  if ns.listeners.contains (ip, port) then ns
  else { ns with listeners := (ip, port)::ns.listeners }

def NetStack.unlisten (ns : NetStack) (ip : Ipv4) (port : Port) : NetStack :=
  { ns with listeners := ns.listeners.filter (· ≠ (ip, port)) }

structure Surface where
  ip : IpAddr
  name : Option String
  deriving DecidableEq, Repr

structure SurfaceRecord where
  key : String
  ip : IpAddr
  name : Option String
  deriving DecidableEq, Repr

abbrev SurfaceStore := RecordFile SurfaceRecord

def SurfaceStore.add (store : SurfaceStore) (key : String) (ip : IpAddr) (name : Option String)
    (io : Io) : SurfaceStore × Except String Unit :=
  store.update (fun records => records.filter (fun record => record.key ≠ key) ++ [⟨key, ip, name⟩])
    io

def SurfaceStore.remove (store : SurfaceStore) (key : String) (io : Io) :
    SurfaceStore × Except String Unit :=
  store.update (fun records => records.filter (fun record => record.key ≠ key)) io

theorem SurfaceStore.mem_add (store : SurfaceStore) (key : String) (ip : IpAddr)
    (name : Option String) (io : Io) (record : SurfaceRecord)
    (h : record ∈ recordsOf (store.add key ip name io).1.content) :
    record ∈ recordsOf store.content ∨ record = ⟨key, ip, name⟩ := by
  rcases update_records store _ io record h with hold | ⟨records, hsub, hnew⟩
  · exact .inl hold
  · rcases List.mem_append.mp hnew with hkept | hadded
    · exact .inl (hsub record (List.mem_filter.mp hkept).1)
    · exact .inr (List.mem_singleton.mp hadded)

theorem SurfaceStore.mem_remove (store : SurfaceStore) (key : String) (io : Io)
    (record : SurfaceRecord) (h : record ∈ recordsOf (store.remove key io).1.content) :
    record ∈ recordsOf store.content := by
  rcases update_records store _ io record h with hold | ⟨records, hsub, hkept⟩
  · exact hold
  · exact hsub record (List.mem_filter.mp hkept).1

/-- A binding has the address its listener was made at. -/
structure Peer (K : Type) where
  endpointId : K
  label : Option String
  exposedPorts : List Port := []
  surface : Option Surface := none
  bindings : List (Port × IpAddr) := []

def Peer.bound {K : Type} (peer : Peer K) : List Port := peer.bindings.map Prod.fst

/-- What the peers share besides the table: the addresses and names claimed, the
listeners of the userspace stack, and the file. Without a stack surfaces are
loopback addresses. -/
structure Shared where
  os : Os
  netstack : Option NetStack := none
  aliases : List IpAddr := []
  surfaces : SurfaceStore

/-- What the system answers to one request: its address commands, its file
access and every attempt to bind, by the port's place in the list. -/
structure Env where
  claims : ℕ → Except String Unit := fun _ => .ok ()
  unclaim : Except String Unit := .ok ()
  io : Io := {}
  tries : ℕ → ℕ → Bool := fun _ _ => true

def Shared.surfaceBase (shared : Shared) : Base :=
  if shared.netstack.isSome then tunBase else loopbackBase

def Shared.claimAddr (shared : Shared) (ip : IpAddr) (name : Option String)
    (ran : Except String Unit) : Except Error Shared :=
  match shared.netstack with
  | some ns =>
    match ip with
    | .v4 v4 => .ok { shared with netstack := some (ns.addSurface v4 name) }
    | .v6 _ => .ok shared
  | none =>
    match ensureAddr shared.os shared.aliases ip ran with
    | .ok aliases => .ok { shared with aliases := aliases }
    | .error e => .error e

def Shared.unclaimAddr (shared : Shared) (ip : IpAddr) (ran : Except String Unit) :
    Except Error Shared :=
  match shared.netstack with
  | some ns =>
    match ip with
    | .v4 v4 => .ok { shared with netstack := some (ns.removeSurface v4) }
    | .v6 _ => .ok shared
  | none =>
    match removeAddr shared.os shared.aliases ip ran with
    | .ok aliases => .ok { shared with aliases := aliases }
    | .error e => .error e

def Shared.unclaimed (shared : Shared) (ip : IpAddr) (ran : Except String Unit) : Shared :=
  match shared.unclaimAddr ip ran with
  | .ok shared' => shared'
  | .error _ => shared

def Shared.giveBack (shared : Shared) (ran : Except String Unit) : Option Surface → Shared
  | some surface => shared.unclaimed surface.ip ran
  | none => shared

def bindAttempts : ℕ := 5

abbrev Held (K : Type) := Shared × Peer K

section
variable {K : Type}

def bindOne (held : Held K) (ip : IpAddr) (port : Port) (tries : ℕ → Bool) : Held K :=
  let bound := { held.2 with bindings := (port, ip)::held.2.bindings.filter (·.1 ≠ port) }
  match held.1.netstack, ip with
  | some ns, .v4 v4 => ({ held.1 with netstack := some (ns.listen v4 port) }, bound)
  | _, _ => if (List.range bindAttempts).any tries then (held.1, bound) else held

def bindPorts (ip : IpAddr) : List Port → (ℕ → ℕ → Bool) → Held K → Held K
  | [], _, held => held
  | port::ports, tries, held =>
    bindPorts ip ports (fun i => tries (i+1))
      (if port ∈ held.2.bound then held else bindOne held ip port (tries 0))

def bindAt (ports : List Port) (tries : ℕ → ℕ → Bool) (placed : Held K × Option IpAddr) : Held K :=
  match placed.2 with
  | none => placed.1
  | some ip => bindPorts ip ports tries placed.1

def releaseBinding (held : Held K) (port : Port) : Held K :=
  let peer := { held.2 with bindings := held.2.bindings.filter (·.1 ≠ port) }
  match held.1.netstack, held.2.surface.map Surface.ip with
  | some ns, some (.v4 v4) => ({ held.1 with netstack := some (ns.unlisten v4 port) }, peer)
  | _, _ => (held.1, peer)

def releasePorts (ports : List Port) (held : Held K) : Held K := ports.foldl releaseBinding held

variable (display : K → String)

def autoName (peer : Peer K) : String :=
  peer.label.getD (defaultName (display peer.endpointId))

def place (held : Held K) (surface : Surface) (io : Io) : Held K :=
  ({ held.1 with surfaces :=
      (held.1.surfaces.add (display held.2.endpointId) surface.ip surface.name io).1 },
    { held.2 with surface := some surface })

/-- The address to bind at: the surface's, or that of a new surface when there
are ports to bind. -/
def surfaceIp (taken : List IpAddr) (ports : List Port) (env : Env) (held : Held K) :
    Held K × Option IpAddr :=
  match held.2.surface with
  | some surface => (held, some surface.ip)
  | none =>
    if ports.isEmpty then (held, none)
    else
      match allocate taken held.1.surfaceBase with
      | .error _ => (held, none)
      | .ok ip =>
        let name := some (autoName display held.2)
        match held.1.claimAddr ip name (env.claims 0) with
        | .error _ => (held, none)
        | .ok shared => (place display (shared, held.2) ⟨ip, name⟩ env.io, some ip)

def dropSurface (held : Held K) : Held K :=
  let released := releasePorts held.2.bound held
  (released.1, { released.2 with surface := none })

def tearDown (held : Held K) (ran : Except String Unit) : Held K :=
  match held.2.surface with
  | some old => ((dropSurface held).1.unclaimed old.ip ran, (dropSurface held).2)
  | none => held

end

/-- The options that matter here, with their defaults. `tun` says that the stack
came up. -/
structure Config where
  tun : Bool := false
  host : IpAddr := localhost
  name : Option String := none

/-- Records are numbered as they are made; the table has the one a key stands
for. -/
structure PeerManager (K : Type) [LinearOrder K] where
  shared : Shared
  config : Config
  peers : ExtTreeMap K ℕ := ∅
  records : ℕ → Option (Peer K) := fun _ => none
  fresh : ℕ := 0

inductive Request (K : Type) where
  | add (key : K) (label : Option String)
  | enroll (key : K) (label : Option String)
  | announce (record : ℕ) (ports : List Port) (env : Env)
  | project (record : ℕ) (ip : Option IpAddr) (name : Option String) (env : Env)
  | unproject (record : ℕ) (ref : String) (env : Env)
  | forget (key : K) (env : Env)
  | restart (pinned : List Pin) (config : Config) (env : Env)

section
variable {K : Type} [LinearOrder K] (parse : String → Option K) (display : K → String)

def PeerManager.put (m : PeerManager K) (r : ℕ) (held : Held K) : PeerManager K :=
  { m with shared := held.1, records := Function.update m.records r (some held.2) }

def PeerManager.get (m : PeerManager K) (key : K) : Option (Peer K) := m.peers[key]?.bind m.records

def PeerManager.insert (m : PeerManager K) (key : K) (label : Option String) : PeerManager K :=
  { m with
    peers := m.peers.insert key m.fresh
    records := Function.update m.records m.fresh (some { endpointId := key, label := label })
    fresh := m.fresh + 1 }

def PeerManager.projectedIps (m : PeerManager K) : List IpAddr :=
  m.peers.toList.filterMap (fun entry => ((m.records entry.2).bind Peer.surface).map Surface.ip)

def PeerManager.peerForIp (m : PeerManager K) (visit : List K) (ip : IpAddr) : Option (Peer K) :=
  (visit.filterMap m.get).find? (fun peer => peer.surface.map Surface.ip = some ip)

def PeerManager.updatePeerPorts (m : PeerManager K) (r : ℕ) (peer : Peer K) (ports : List Port)
    (env : Env) : PeerManager K :=
  let released := releasePorts (peer.exposedPorts.filter (fun port => !ports.contains port))
    (m.shared, peer)
  let placed := surfaceIp display (m.put r released).projectedIps ports env released
  let held := bindAt ports env.tries placed
  m.put r (held.1, { held.2 with exposedPorts := ports })

/-- The address a `project` asks for, or a free one. -/
def choose (taken : List IpAddr) (base : Base) : Option IpAddr → Except Error IpAddr
  | some ip => .ok ip
  | none => allocate taken base

/-- `project` from the bind lock on. The old surface goes first; a request that
then fails leaves the peer without one. -/
def PeerManager.project (m : PeerManager K) (r : ℕ) (peer : Peer K) (ip : Option IpAddr)
    (name : Option String) (env : Env) : PeerManager K × Except Error Unit :=
  let down := tearDown (m.shared, peer) env.unclaim
  let name := name.or peer.label
  match choose (m.put r down).projectedIps down.1.surfaceBase ip with
  | .error e => (m.put r down, .error e)
  | .ok ip =>
    match down.1.claimAddr ip name (env.claims 0) with
    | .error e => (m.put r down, .error e)
    | .ok shared =>
      let placed := place display (shared, down.2) ⟨ip, name⟩ env.io
      (m.put r (bindPorts ip placed.2.exposedPorts env.tries placed), .ok ())

/-- `unproject` from the bind lock on. An address that cannot be removed ends
the request before the file is written. -/
def PeerManager.unproject (m : PeerManager K) (r : ℕ) (peer : Peer K) (ref : String) (env : Env) :
    PeerManager K × Except Error Unit :=
  match peer.surface with
  | none => (m, .error (.notProjected ref))
  | some surface =>
    let dropped := dropSurface (m.shared, peer)
    match dropped.1.unclaimAddr surface.ip env.unclaim with
    | .error e => (m.put r dropped, .error e)
    | .ok shared =>
      (m.put r ({ shared with
        surfaces := (shared.surfaces.remove (display peer.endpointId) env.io).1 }, dropped.2),
        .ok ())

def PeerManager.dropRecord (m : PeerManager K) (key : K) (io : Io) : PeerManager K :=
  { m with shared := { m.shared with surfaces := (m.shared.surfaces.remove (display key) io).1 } }

/-- `evict`, as far as the surface and the bindings go. -/
def PeerManager.evict (m : PeerManager K) (key : K) (env : Env) : PeerManager K :=
  match m.peers[key]? with
  | none => m.dropRecord display key env.io
  | some r =>
    match m.records r with
    | none => m
    | some peer =>
      let dropped := dropSurface (m.shared, peer)
      { m.put r (dropped.1.giveBack env.unclaim peer.surface, dropped.2) with
        peers := m.peers.erase key }.dropRecord display key env.io

def PeerManager.addPinned (m : PeerManager K) (pin : Pin) : PeerManager K :=
  match parse pin.key with
  | none => m
  | some key => if m.peers.contains key then m else m.insert key pin.label

def PeerManager.restoreOne (m : PeerManager K) (record : SurfaceRecord)
    (ran : Except String Unit) : PeerManager K :=
  match parse record.key with
  | none => m
  | some key =>
    match m.peers[key]? with
    | none => m
    | some r =>
      match m.records r, m.shared.claimAddr record.ip record.name ran with
      | some peer, .ok shared =>
        m.put r (shared, { peer with surface := some ⟨record.ip, record.name⟩ })
      | _, _ => m

def restoreAll : List SurfaceRecord → (ℕ → Except String Unit) → PeerManager K → PeerManager K
  | [], _, m => m
  | record::records, ran, m =>
    restoreAll records (fun i => ran (i+1)) (m.restoreOne parse record (ran 0))

def PeerManager.restoreSurfaces (m : PeerManager K) (env : Env) : PeerManager K :=
  match m.shared.surfaces.load env.io.read with
  | .ok records => restoreAll parse records env.claims m
  | .error _ => m

/-- The stack a daemon starts with: its own name, when it has one and its host
address is v4. -/
def Config.netstack (config : Config) : Option NetStack :=
  if config.tun then
    match config.name, config.host with
    | some name, .v4 ip => some (NetStack.addSurface {} ip (some name))
    | _, _ => some {}
  else none

/-- A new process, over the files and the interface the last one left. -/
def PeerManager.boot (shared : Shared) (config : Config) : PeerManager K :=
  { shared := { shared with netstack := config.netstack }, config := config }

def PeerManager.restart (m : PeerManager K) (pinned : List Pin) (config : Config) (env : Env) :
    PeerManager K :=
  (pinned.foldl (PeerManager.addPinned parse)
    (PeerManager.boot m.shared config)).restoreSurfaces parse env

def next (m : PeerManager K) : Request K → Option (PeerManager K)
  | .add key label => if m.peers.contains key then none else some (m.insert key label)
  | .enroll key label => some (m.insert key label)
  | .announce r ports env =>
    (m.records r).map (fun peer => m.updatePeerPorts display r peer ports env)
  | .project r ip name env => (m.records r).map (fun peer => (m.project display r peer ip name env).1)
  | .unproject r ref env => (m.records r).map (fun peer => (m.unproject display r peer ref env).1)
  | .forget key env => some (m.evict display key env)
  | .restart pinned config env => some (m.restart parse pinned config env)

/-- A daemon that finds no surface file and knows nobody. -/
def PeerManager.new (os : Os) (path parent : String) (config : Config) : PeerManager K :=
  PeerManager.boot { os := os, surfaces := ⟨path, parent, .absent⟩ } config

def Reached (os : Os) (path parent : String) (config : Config) (reqs : List (Request K))
    (m : PeerManager K) : Prop :=
  Library.Traces.exec (next parse display) (PeerManager.new os path parent config) reqs = some m

end
end PaiSho.SurfaceManager
