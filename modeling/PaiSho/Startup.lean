import PaiSho.AdmissionRecords
import PaiSho.Authorization
import PaiSho.Invitations

/-!
# A daemon comes up

`daemon::run` up to its first client: the key and the endpoint, the pins, what
`--accept` and `-e` name, and the control socket with its owner and its mode.
What does not parse as a handle is passed over, each port is granted to the keys
so named, and those that are not known yet are taken up and dialed. Anything
else that fails ends the start. From then on only requests and claimed codes
change what the daemon serves.
-/

set_option autoImplicit false

namespace PaiSho.Startup
open Std (ExtTreeMap)
open PaiSho.GrantTable PaiSho.SessionCore PaiSho.SessionSteps PaiSho.RecordFiles
open PaiSho.PinnedPeers PaiSho.Authorization PaiSho.Invitations PaiSho.Restart
open PaiSho.AdmissionRecords
open Library.Traces Library.OrderedMaps

/-- `socket` is its path as `Debug` shows it. -/
structure Flags where
  accept : List String := []
  ports : List Port := []
  socket : String := ""
  socketOwner : Option String := none
  socketMode : Option String := none

/-- What the calls of a start come to. A user is looked up, and changing the
owner of the socket fails with a text of the system's. -/
structure Calls where
  key : Except String Unit := .ok ()
  endpoint : Bool := true
  read : Read := .done
  bind : Bool := true
  user : Bool := true
  chown : Except String Unit := .ok ()
  chmod : Bool := true

/-- `u32::from_str_radix` in base 8. -/
def octal (mode : String) : Option ℕ :=
  let digits : List Char := match mode.toList with
    | '+'::digits => digits
    | digits => digits
  let n := digits.foldl (fun n c => 8*n + (c.toNat - 48)) 0
  if digits ≠ [] ∧ digits.all (fun c => 48 ≤ c.toNat && c.toNat ≤ 55) ∧ n < UInt32.size then some n
  else none

def setSocketOwner (path user : String) (calls : Calls) : Except String Unit :=
  if Char.ofNat 0 ∈ user.toList then .error "invalid --socket-owner"
  else if calls.user = false then .error ("unknown --socket-owner user: " ++ user)
  else match calls.chown with
    | .error e => .error ("chown " ++ path ++ " to " ++ user ++ ": " ++ e)
    | .ok () => .ok ()

def setSocketMode (path mode : String) (calls : Calls) : Except String Unit :=
  match octal mode with
  | none => .error ("invalid --socket-mode (octal): " ++ mode)
  | some _ => if calls.chmod then .ok () else .error ("chmod " ++ path)

def listen (flags : Flags) (calls : Calls) : Except String Unit :=
  if calls.bind = false then .error "failed to bind Unix socket"
  else do
    flags.socketOwner.forM (fun owner => setSocketOwner flags.socket owner calls)
    flags.socketMode.forM (fun mode => setSocketMode flags.socket mode calls)

/-- The daemon and the peers it dials, each with the code it presents. -/
structure Started (K : Type) [LinearOrder K] where
  daemon : Daemon K
  dials : List (K × Option String) := []

section
variable {K : Type} [LinearOrder K] (parse : String → Option K)

/-- Whatever `--accept` named, as keys. -/
def handles : List String → List (Handle K)
  | [] => []
  | text::texts =>
    match Handle.fromStr parse text with
    | .ok handle => handle :: handles texts
    | .error _ => handles texts

def exposeAll (grantees : List K) : List Port → Daemon K → Daemon K
  | [], d => d
  | port::ports, d => exposeAll grantees ports (d.expose port grantees)

/-- `add_peer`: a peer that is known already is left as it is, and the error is
only logged. -/
def addPeer (st : Started K) (handle : Handle K) : Started K :=
  if st.daemon.peers.contains handle.key then st
  else ⟨st.daemon.register handle.key none .added, st.dials ++ [(handle.key, handle.code)]⟩

def addPeers : List (Handle K) → Started K → Started K
  | [], st => st
  | handle::hs, st => addPeers hs (addPeer st handle)

def start (flags : Flags) (pins : Pins) (calls : Calls) : Except String (Started K) := do
  calls.key
  if calls.endpoint = false then throw "failed to create iroh endpoint"
  let d ← Daemon.withEndpoint parse pins calls.read
  let hs := handles parse flags.accept
  let st := addPeers hs ⟨exposeAll (hs.map Handle.key) flags.ports d, []⟩
  listen flags calls
  return st

def pinRecord (pins : List Pin) (k : K) : Option Admitted :=
  (pins.find? (fun pin => parse pin.key = some k)).map (fun pin => ⟨pin.label, .key⟩)

def handleOf (hs : List (Handle K)) (k : K) : Option (Handle K) := hs.find? (fun h => h.key = k)

structure Told (flags : Flags) (pins : Pins) (pinned : List Pin) (st : Started K) : Prop where
  file : st.daemon.pins = pins
  synced : Synced st.daemon
  grants : ∀ port k, st.daemon.session.grants.allows port k ↔
    port ∈ flags.ports ∧ ∃ h ∈ handles parse flags.accept, h.key = k
  records : ∀ k : K, st.daemon.session.peers[k]? = (pinRecord parse pinned k).or
    ((handleOf (handles parse flags.accept) k).map (fun _ => ⟨none, .added⟩))
  dialed : ∀ k code, (k, code) ∈ st.dials ↔ pinRecord parse pinned k = none ∧
    ∃ h, handleOf (handles parse flags.accept) k = some h ∧ h.code = code
  once : (st.dials.map Prod.fst).Nodup

/-- Nothing a daemon needs is missing when it comes up. -/
structure ComesUp (flags : Flags) (pins : Pins) (calls : Calls) : Prop where
  key : calls.key = .ok ()
  endpoint : calls.endpoint = true
  loaded : ∃ pinned, pins.load calls.read = .ok pinned
  bind : calls.bind = true
  owner : ∀ user, flags.socketOwner = some user →
    Char.ofNat 0 ∉ user.toList ∧ calls.user = true ∧ calls.chown = .ok ()
  mode : ∀ mode, flags.socketMode = some mode → octal mode ≠ none ∧ calls.chmod = true

inductive Fails (flags : Flags) (pins : Pins) (calls : Calls) : String → Prop where
  | key (e : String) (h : calls.key = .error e) : Fails flags pins calls e
  | endpoint (h : calls.endpoint = false) : Fails flags pins calls "failed to create iroh endpoint"
  | pins (e : String) (h : pins.load calls.read = .error e) : Fails flags pins calls e
  | bind (h : calls.bind = false) : Fails flags pins calls "failed to bind Unix socket"
  | name (user : String) (hflag : flags.socketOwner = some user)
      (h : Char.ofNat 0 ∈ user.toList) : Fails flags pins calls "invalid --socket-owner"
  | user (user : String) (hflag : flags.socketOwner = some user) (h : calls.user = false) :
      Fails flags pins calls ("unknown --socket-owner user: " ++ user)
  | chown (user e : String) (hflag : flags.socketOwner = some user) (h : calls.chown = .error e) :
      Fails flags pins calls ("chown " ++ flags.socket ++ " to " ++ user ++ ": " ++ e)
  | octal (mode : String) (hflag : flags.socketMode = some mode) (h : octal mode = none) :
      Fails flags pins calls ("invalid --socket-mode (octal): " ++ mode)
  | chmod (mode : String) (hflag : flags.socketMode = some mode) (h : calls.chmod = false) :
      Fails flags pins calls ("chmod " ++ flags.socket)

theorem exposeAll_kept (grantees : List K) (ports : List Port) (d : Daemon K) :
    (exposeAll grantees ports d).pins = d.pins ∧ (exposeAll grantees ports d).peers = d.peers ∧
      (exposeAll grantees ports d).session.peers = d.session.peers := by
  induction ports generalizing d with
  | nil => exact ⟨rfl, rfl, rfl⟩
  | cons port ports ih => exact ih (d.expose port grantees)

theorem exposeAll_allows (grantees : List K) (ports : List Port) (d : Daemon K) (port : Port)
    (k : K) : (exposeAll grantees ports d).session.grants.allows port k ↔
      (port ∈ ports ∧ k ∈ grantees) ∨ d.session.grants.allows port k := by
  induction ports generalizing d with
  | nil => simp [exposeAll]
  | cons p ports ih =>
    have hgrants : (d.expose p grantees).session.grants =
        d.session.grants.addGrantees p grantees := rfl
    rw [exposeAll, ih, hgrants, allows_addGrantees, List.mem_cons]
    tauto

theorem register_grants (d : Daemon K) (key : K) (name : Option String) (admission : Admission) :
    (d.register key name admission).session.grants = d.session.grants := by
  simp only [Daemon.register, Session.admitKnown]
  split_ifs <;> rfl

/-- What taking up the handles has come to, from a daemon `d` on. -/
structure TakenUp (d : Daemon K) (hs : List (Handle K)) (st : Started K) : Prop where
  file : st.daemon.pins = d.pins
  synced : Synced st.daemon
  grants : st.daemon.session.grants = d.session.grants
  records : ∀ k : K, st.daemon.session.peers[k]? =
    d.session.peers[k]?.or ((handleOf hs k).map (fun _ => ⟨none, .added⟩))
  dialed : ∀ k code, (k, code) ∈ st.dials ↔
    d.session.peers[k]? = none ∧ ∃ h, handleOf hs k = some h ∧ h.code = code
  once : (st.dials.map Prod.fst).Nodup

theorem handleOf_snoc (hs : List (Handle K)) (handle : Handle K) (k : K) :
    handleOf (hs++[handle]) k =
      (handleOf hs k).or (if handle.key = k then some handle else none) := by
  unfold handleOf
  rw [List.find?_append]
  by_cases hk : handle.key = k
  · simp [hk]
  · simp [hk]

theorem contains_iff_record (d : Daemon K) (hs : Synced d) (k : K) :
    d.peers.contains k = true ↔ d.session.peers[k]? ≠ none := by
  rw [ExtTreeMap.contains_iff_mem, hs k, ExtTreeMap.mem_iff_isSome_getElem?,
    Option.isSome_iff_ne_none]

theorem takenUp_known (d : Daemon K) (hs : List (Handle K)) (st : Started K) (handle : Handle K)
    (h : TakenUp d hs st)
    (hknown : d.session.peers[handle.key]? ≠ none ∨ handleOf hs handle.key ≠ none) :
    TakenUp d (hs++[handle]) st := by
  refine { h with records := fun k => ?_, dialed := fun k code => ?_ }
  · rw [h.records k, handleOf_snoc]
    by_cases hk : handle.key = k
    · subst hk
      rcases hknown with hrecord | hnamed
      · obtain ⟨a, ha⟩ := Option.ne_none_iff_exists'.mp hrecord
        simp [ha]
      · obtain ⟨first, hfirst⟩ := Option.ne_none_iff_exists'.mp hnamed
        simp [hfirst]
    · simp [hk]
  · rw [h.dialed k code, handleOf_snoc]
    by_cases hk : handle.key = k
    · subst hk
      rcases hknown with hrecord | hnamed
      · simp [hrecord]
      · obtain ⟨first, hfirst⟩ := Option.ne_none_iff_exists'.mp hnamed
        simp [hfirst]
    · simp [hk]

theorem takenUp_new (d : Daemon K) (hs : List (Handle K)) (st : Started K) (handle : Handle K)
    (h : TakenUp d hs st) (hrecord : d.session.peers[handle.key]? = none)
    (hnamed : handleOf hs handle.key = none) :
    TakenUp d (hs++[handle]) ⟨st.daemon.register handle.key none .added,
      st.dials ++ [(handle.key, handle.code)]⟩ := by
  have hblank : st.daemon.session.peers[handle.key]? = none := by
    rw [h.records, hrecord, hnamed]
    rfl
  constructor
  case file => exact h.file
  case synced => exact synced_register _ _ _ _ h.synced
  case grants => exact (register_grants _ _ _ _).trans h.grants
  case records =>
    intro k
    rw [register_record, handleOf_snoc]
    by_cases hk : k = handle.key
    · subst hk
      simp [registered, hblank, hrecord, hnamed]
    · simp [hk, Ne.symm hk, h.records k]
  case dialed =>
    intro k code
    rw [List.mem_append, List.mem_singleton, h.dialed k code, handleOf_snoc, Prod.mk.injEq]
    by_cases hk : k = handle.key
    · subst hk
      simp [hrecord, hnamed, eq_comm]
    · simp [hk, Ne.symm hk]
  case once =>
    rw [List.map_append, List.map_singleton]
    refine List.nodup_append.mpr ⟨h.once, List.nodup_singleton _, fun k hk k' hk' heq => ?_⟩
    obtain rfl := List.mem_singleton.mp hk'
    obtain ⟨⟨k', code⟩, hin, rfl⟩ := List.mem_map.mp hk
    obtain ⟨-, first, hfirst, -⟩ := (h.dialed k' code).mp hin
    obtain rfl : k' = handle.key := heq
    cases hnamed.symm.trans hfirst

theorem takenUp_addPeer (d : Daemon K) (hs : List (Handle K)) (st : Started K)
    (handle : Handle K) (h : TakenUp d hs st) :
    TakenUp d (hs++[handle]) (addPeer st handle) := by
  have hknown := contains_iff_record st.daemon h.synced handle.key
  have hrecord := h.records handle.key
  unfold addPeer
  by_cases hin : st.daemon.peers.contains handle.key = true
  · rw [if_pos hin]
    refine takenUp_known d hs st handle h ?_
    by_contra hneither
    push Not at hneither
    exact hknown.mp hin (by simp [hrecord, hneither.1, hneither.2])
  · rw [if_neg hin]
    rw [hknown, not_not, hrecord, Option.or_eq_none_iff, Option.map_eq_none_iff] at hin
    exact takenUp_new d hs st handle h hin.1 hin.2

theorem takenUp_addPeers (d : Daemon K) (before hs : List (Handle K)) (st : Started K)
    (h : TakenUp d before st) : TakenUp d (before++hs) (addPeers hs st) := by
  induction hs generalizing before st with
  | nil =>
    rw [List.append_nil]
    exact h
  | cons handle hs ih =>
    have hnext := ih (before++[handle]) (addPeer st handle) (takenUp_addPeer d before st handle h)
    rw [List.append_assoc, List.singleton_append] at hnext
    exact hnext

theorem takenUp_none (d : Daemon K) (hs : Synced d) : TakenUp d [] ⟨d, []⟩ where
  file := rfl
  synced := hs
  grants := rfl
  records := fun k => by simp [handleOf]
  dialed := fun k code => by simp [handleOf]
  once := List.nodup_nil

theorem load_grants (pins : List Pin) (d : Daemon K) :
    (pins.foldl (loadPin parse) d).session.grants = d.session.grants := by
  induction pins generalizing d with
  | nil => rfl
  | cons pin pins ih =>
    rw [List.foldl_cons, ih]
    simp only [loadPin, Daemon.addPinned]
    cases parse pin.key with
    | none => rfl
    | some id =>
      dsimp only
      by_cases hin : d.peers.contains id = true
      · rw [if_pos hin]
      · rw [if_neg hin]
        exact register_grants d id pin.label .key

theorem withEndpoint_ok (pins : Pins) (read : Read) (d : Daemon K)
    (h : Daemon.withEndpoint parse pins read = .ok d) :
    d.pins = pins ∧ Synced d ∧ d.session.grants = Grants.empty ∧
      ∃ pinned, pins.load read = .ok pinned ∧
        ∀ k : K, d.session.peers[k]? = pinRecord parse pinned k := by
  obtain ⟨hfile, hsynced, -⟩ := restart_admits parse pins read d h
  have hempty : Synced (⟨Session.new, ∅, pins⟩ : Daemon K) := fun k => by simp [Session.new]
  simp only [Daemon.withEndpoint] at h
  cases hload : pins.load read with
  | error e =>
    rw [hload] at h
    cases h
  | ok pinned =>
    rw [hload] at h
    obtain rfl := Except.ok.inj h
    refine ⟨hfile, hsynced, load_grants parse pinned _, pinned, rfl, fun k => ?_⟩
    rw [AdmissionRecords.load_records parse pinned _ hempty k]
    simp [pinRecord, Session.new]

theorem withEndpoint_error (pins : Pins) (read : Read) (e : String)
    (h : Daemon.withEndpoint parse pins read = .error e) : pins.load read = .error e := by
  simp only [Daemon.withEndpoint] at h
  cases hload : pins.load read with
  | error e' =>
    rw [hload] at h
    exact congrArg Except.error (Except.error.inj h)
  | ok pinned =>
    rw [hload] at h
    cases h

theorem setSocketOwner_cases (flags : Flags) (pins : Pins) (calls : Calls) (user : String)
    (hflag : flags.socketOwner = some user) :
    match setSocketOwner flags.socket user calls with
    | .ok () => Char.ofNat 0 ∉ user.toList ∧ calls.user = true ∧ calls.chown = .ok ()
    | .error e => ¬ ComesUp flags pins calls ∧ Fails flags pins calls e := by
  unfold setSocketOwner
  by_cases hname : Char.ofNat 0 ∈ user.toList
  · simp only [hname, ↓reduceIte]
    exact ⟨fun h => (h.owner user hflag).1 hname, .name user hflag hname⟩
  cases huser : calls.user with
  | false =>
    simp only [hname, ↓reduceIte]
    refine ⟨fun h => ?_, .user user hflag huser⟩
    cases huser.symm.trans (h.owner user hflag).2.1
  | true =>
    cases hchown : calls.chown with
    | error e =>
      simp only [hname, Bool.true_eq_false, ↓reduceIte]
      refine ⟨fun h => ?_, .chown user e hflag hchown⟩
      cases hchown.symm.trans (h.owner user hflag).2.2
    | ok u =>
      simp only [hname, Bool.true_eq_false, ↓reduceIte]
      exact ⟨not_false, trivial, trivial⟩

theorem setSocketMode_cases (flags : Flags) (pins : Pins) (calls : Calls) (mode : String)
    (hflag : flags.socketMode = some mode) :
    match setSocketMode flags.socket mode calls with
    | .ok () => octal mode ≠ none ∧ calls.chmod = true
    | .error e => ¬ ComesUp flags pins calls ∧ Fails flags pins calls e := by
  unfold setSocketMode
  cases hoctal : octal mode with
  | none => exact ⟨fun h => (h.mode mode hflag).1 hoctal, .octal mode hflag hoctal⟩
  | some bits =>
    cases hchmod : calls.chmod with
    | false =>
      refine ⟨fun h => ?_, .chmod mode hflag hchmod⟩
      cases hchmod.symm.trans (h.mode mode hflag).2
    | true => exact ⟨Option.some_ne_none bits, rfl⟩

omit [LinearOrder K] in
theorem forM_cases {flag : Option String} {set : String → Except String Unit}
    {Good : String → Prop} {Bad : String → Prop}
    (h : ∀ value, flag = some value → match set value with
      | .ok () => Good value
      | .error e => Bad e) :
    match flag.forM set with
    | .ok () => ∀ value, flag = some value → Good value
    | .error e => Bad e := by
  cases flag with
  | none => exact nofun
  | some value =>
    have hvalue := h value rfl
    show match set value with | .ok () => _ | .error e => _
    cases hset : set value with
    | error e => rwa [hset] at hvalue
    | ok u =>
      rw [hset] at hvalue
      rintro _ ⟨⟩
      exact hvalue

theorem listen_cases (flags : Flags) (pins : Pins) (calls : Calls) :
    match listen flags calls with
    | .ok () => calls.bind = true ∧
        (∀ user, flags.socketOwner = some user →
          Char.ofNat 0 ∉ user.toList ∧ calls.user = true ∧ calls.chown = .ok ()) ∧
        ∀ mode, flags.socketMode = some mode → octal mode ≠ none ∧ calls.chmod = true
    | .error e => ¬ ComesUp flags pins calls ∧ Fails flags pins calls e := by
  have howner := forM_cases (setSocketOwner_cases flags pins calls)
  have hmode := forM_cases (setSocketMode_cases flags pins calls)
  unfold listen
  cases hbind : calls.bind with
  | false =>
    refine ⟨fun h => ?_, .bind hbind⟩
    cases hbind.symm.trans h.bind
  | true =>
    simp only [Bool.true_eq_false, ↓reduceIte]
    cases hset : flags.socketOwner.forM (fun owner => setSocketOwner flags.socket owner calls) with
    | error e => rwa [hset] at howner
    | ok u =>
      cases hset' : flags.socketMode.forM (fun mode => setSocketMode flags.socket mode calls) with
      | error e => rwa [hset'] at hmode
      | ok u' =>
        rw [hset] at howner
        rw [hset'] at hmode
        exact ⟨trivial, howner, hmode⟩

/-- A daemon that comes up is what its flags and its pins say: the ports of `-e`
are granted to the keys of `--accept` and to no one else, pinned and accepted
keys are its peers, and those that are not pinned are dialed, each once and with
the code of the first handle that names it. -/
theorem told_addPeers (flags : Flags) (pins : Pins) (read : Read) (d : Daemon K)
    (hup : Daemon.withEndpoint parse pins read = .ok d) :
    ∃ pinned, pins.load read = .ok pinned ∧ Told parse flags pins pinned
      (addPeers (handles parse flags.accept)
        ⟨exposeAll ((handles parse flags.accept).map Handle.key) flags.ports d, []⟩) := by
  obtain ⟨hfile, hsynced, hgrants, pinned, hload, hrecords⟩ := withEndpoint_ok parse pins read d hup
  refine ⟨pinned, hload, ?_⟩
  generalize hkeys : (handles parse flags.accept).map Handle.key = keys
  obtain ⟨hpins, hpeers, hadmitted⟩ := exposeAll_kept keys flags.ports d
  have hexposed : Synced (exposeAll keys flags.ports d) := by
    intro k
    rw [hpeers, hadmitted]
    exact hsynced k
  have htaken := takenUp_addPeers _ [] (handles parse flags.accept) _ (takenUp_none _ hexposed)
  rw [List.nil_append] at htaken
  constructor
  case file => exact (htaken.file.trans hpins).trans hfile
  case synced => exact htaken.synced
  case grants =>
    intro port k
    have hempty := allows_empty port k
    rw [htaken.grants, exposeAll_allows, hgrants, or_iff_left hempty, ← hkeys, List.mem_map]
  case records =>
    intro k
    rw [htaken.records k, hadmitted, hrecords k]
  case dialed =>
    intro k code
    rw [htaken.dialed k code, hadmitted, hrecords k]
  case once => exact htaken.once

theorem start_told {flags : Flags} {pins : Pins} {calls : Calls} {st : Started K}
    (h : start parse flags pins calls = .ok st) :
    ∃ pinned, pins.load calls.read = .ok pinned ∧ Told parse flags pins pinned st := by
  unfold start at h
  cases hkey : calls.key with
  | error e => cases hkey ▸ h
  | ok u =>
  cases hendpoint : calls.endpoint with
  | false => cases hendpoint ▸ hkey ▸ h
  | true =>
  cases hup : Daemon.withEndpoint (K := K) parse pins calls.read with
  | error e => simp [hkey, hendpoint, hup, bind, Except.bind] at h
  | ok d =>
    cases hset : listen flags calls with
    | error e => simp [hkey, hendpoint, hup, hset, bind, Except.bind] at h
    | ok u' =>
      simp only [hkey, hendpoint, hup, hset, bind, Except.bind] at h
      obtain rfl := Except.ok.inj h
      exact told_addPeers parse flags pins calls.read d hup

theorem start_comesUp (flags : Flags) (pins : Pins) (calls : Calls) :
    match start parse flags pins calls with
    | .ok _ => ComesUp flags pins calls
    | .error e => ¬ ComesUp flags pins calls ∧ Fails flags pins calls e := by
  unfold start
  cases hkey : calls.key with
  | error e =>
    refine ⟨fun h => ?_, .key e hkey⟩
    cases hkey.symm.trans h.key
  | ok u =>
  cases hendpoint : calls.endpoint with
  | false =>
    refine ⟨fun h => ?_, .endpoint hendpoint⟩
    cases hendpoint.symm.trans h.endpoint
  | true =>
  cases hup : Daemon.withEndpoint (K := K) parse pins calls.read with
  | error e =>
    have hload := withEndpoint_error parse pins calls.read e hup
    refine ⟨fun h => ?_, .pins e hload⟩
    obtain ⟨pinned, hok⟩ := h.loaded
    cases hload.symm.trans hok
  | ok d =>
    obtain ⟨-, -, -, pinned, hload, -⟩ := withEndpoint_ok parse pins calls.read d hup
    have hlisten := listen_cases flags pins calls
    cases hset : listen flags calls with
    | error e => rwa [hset] at hlisten
    | ok u' =>
      rw [hset] at hlisten
      obtain ⟨hbind, howner, hmode⟩ := hlisten
      exact ⟨hkey, hendpoint, ⟨pinned, hload⟩, hbind, howner, hmode⟩

theorem starts_of_comesUp {flags : Flags} {pins : Pins} {calls : Calls}
    (h : ComesUp flags pins calls) : ∃ st, start parse flags pins calls = .ok st := by
  have hup := start_comesUp parse flags pins calls
  cases hstart : start parse flags pins calls with
  | error e =>
    rw [hstart] at hup
    exact absurd h hup.1
  | ok st => exact ⟨st, rfl⟩

/-- A daemon comes up exactly when nothing it needs is missing, and is then what
its flags and its pins say; a start that fails names what was missing. -/
theorem start_as_told (flags : Flags) (pins : Pins) (calls : Calls) :
    match start parse flags pins calls with
    | .ok st => ComesUp flags pins calls ∧
        ∃ pinned, pins.load calls.read = .ok pinned ∧ Told parse flags pins pinned st
    | .error e => ¬ ComesUp flags pins calls ∧ Fails flags pins calls e := by
  have hup := start_comesUp parse flags pins calls
  cases hstart : start parse flags pins calls with
  | error e => rwa [hstart] at hup
  | ok st =>
    rw [hstart] at hup
    exact ⟨hup, start_told parse hstart⟩

end

section
variable {K : Type} [LinearOrder K]

/-- A grant stands at the end of a run if it was made in the run and not revoked
after that, or stood before and was not revoked at all. -/
theorem allows_run (s : Session K) (ops : List (Op K)) (port : Port) (k : K) :
    (run SessionCore.step s ops).grants.allows port k ↔
      Since (fun e : Record K => Grant port k e.before e.input)
          (fun e => Revoke port k e.before e.input) (trace SessionCore.step s ops) ∨
        (s.grants.allows port k ∧
          ∀ e ∈ trace SessionCore.step s ops, ¬ Revoke port k e.before e.input) := by
  induction ops using List.reverseRecOn with
  | nil =>
    have hnil := since_nil (fun e : Record K => Grant port k e.before e.input)
      (fun e => Revoke port k e.before e.input)
    simp [trace, run, hnil]
  | append_singleton ops op ih =>
    rw [run_snoc, trace_snoc, since_snoc, step_allows, ih]
    simp only [List.forall_mem_append, List.forall_mem_singleton]
    show Grant port k (run SessionCore.step s ops) op ∨ _ ↔ _
    constructor
    · rintro (hgrant | ⟨hsince | ⟨hstood, hnever⟩, hkept⟩)
      · exact Or.inl (Or.inl hgrant)
      · exact Or.inl (Or.inr ⟨hsince, hkept⟩)
      · exact Or.inr ⟨hstood, hnever, hkept⟩
    · rintro ((hgrant | ⟨hsince, hkept⟩) | ⟨hstood, hnever, hkept⟩)
      · exact Or.inl hgrant
      · exact Or.inr ⟨Or.inl hsince, hkept⟩
      · exact Or.inr ⟨Or.inr ⟨hstood, hnever⟩, hkept⟩

/-- Over the whole life of a daemon a tunnel is served if its port was granted to
the peer since it came up, or was to be by the flags it came up with, and was not
revoked after that. -/
theorem served_over_a_life (parse : String → Option K) (flags : Flags) (pins : Pins)
    (calls : Calls) (st : Started K) (h : start parse flags pins calls = .ok st)
    (ops : List (Op K)) (port : Port) (k : K) :
    (run SessionCore.step st.daemon.session ops).onTunnel k port = .serveTunnel port ↔
      Since (fun e : Record K => Grant port k e.before e.input)
          (fun e => Revoke port k e.before e.input)
          (trace SessionCore.step st.daemon.session ops) ∨
        ((port ∈ flags.ports ∧ ∃ handle ∈ handles parse flags.accept, handle.key = k) ∧
          ∀ e ∈ trace SessionCore.step st.daemon.session ops, ¬ Revoke port k e.before e.input) := by
  obtain ⟨pinned, -, htold⟩ := start_told parse h
  rw [serves_iff, allows_run, htold.grants port k]

def deskFlags : Flags :=
  { accept := [deskKey, "?"], ports := [8080], socket := "\"pai-sho.sock\"",
    socketOwner := some "nobody", socketMode := some "660" }

def freshPins : Pins := ⟨"key.peers.json", "state", .absent⟩

theorem desk_comes_up : ComesUp deskFlags freshPins {} where
  key := rfl
  endpoint := rfl
  loaded := ⟨[], rfl⟩
  bind := rfl
  owner := by
    rintro _ ⟨⟩
    exact ⟨by decide, rfl, rfl⟩
  mode := by
    have hbits : octal "660" = some 432 := by simp [octal, UInt32.size]
    rintro _ ⟨⟩
    exact ⟨hbits ▸ Option.some_ne_none 432, rfl⟩

/-- A key is accepted with a port, which it still has when another is granted. -/
theorem accepted_desk_served : ∃ st, start parseKey deskFlags freshPins {} = .ok st ∧
    (run SessionCore.step st.daemon.session [.expose 22 [true]]).onTunnel false 8080 =
      .serveTunnel 8080 := by
  have hnamed : handles parseKey deskFlags.accept = [.bareKey false] := by decide +kernel
  obtain ⟨st, hstart⟩ := starts_of_comesUp parseKey desk_comes_up
  refine ⟨st, hstart, (served_over_a_life parseKey deskFlags freshPins {} st hstart _ 8080
    false).mpr (Or.inr ⟨⟨by decide, .bareKey false, ?_, rfl⟩, fun e he => ?_⟩)⟩
  · rw [hnamed]
    exact List.mem_singleton.mpr rfl
  · obtain rfl := List.mem_singleton.mp he
    simp [event, Revoke]

end
end PaiSho.Startup
