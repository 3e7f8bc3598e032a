import PaiSho.Library.JsonRecords
import PaiSho.PeerWire

/-!
# Messages as JSON

`protocol.rs`: the requests and responses of the control socket and the messages
between peers, as values and as JSON. The JSON stands in where results that take
`serde_json` as a parameter are tried on an input.
-/

set_option autoImplicit false

namespace PaiSho.Messages
open Library.JsonTokens Library.JsonText Library.JsonRecords
open Library.EncodedText (utf8)
open GrantTable (Port)
open SessionCore (PeerMessage)

def version : String := "0.5.5-dev"

inductive Request where
  | invite (key : Option String) (name : Option String) (expose : List Port)
  | accept (handle : String) (name : Option String)
  | forget (peer : String)
  | expose (port : Port) (refs : List String) (all : Bool)
  | unexpose (port : Port) (ref : Option String)
  | list
  | key
  | project (peer : String) (ip : Option String) (name : Option String)
  | unproject (peer : String)
  deriving DecidableEq, Repr

structure GrantInfo where
  port : Port
  grantee : String
  deriving DecidableEq, Repr

structure PeerInfo where
  key : String
  name : Option String
  version : Option String
  online : Bool
  admission : String
  theyExpose : List Port
  ip : Option String
  bound : List Port
  deriving DecidableEq, Repr

structure ListInfo where
  me : String
  cli : String
  daemon : String
  peers : List PeerInfo
  iExpose : List Port
  grants : List GrantInfo
  deriving DecidableEq, Repr

inductive Response where
  | ok
  | key (key : String)
  | list (info : ListInfo)
  | invite (invitation : String)
  | error (text : String)
  deriving DecidableEq, Repr

def tagged (tag : String) (payload : Json) : Json := .obj [(tag, payload)]

def Request.encode : Request → Json
  | .invite whom name ports => tagged "Invite" (.obj [("key", optionOf string whom),
      ("name", optionOf string name), ("expose", listOf fin ports)])
  | .accept handle name =>
    tagged "Accept" (.obj [("handle", string handle), ("name", optionOf string name)])
  | .forget peer => tagged "Forget" (.obj [("peer", string peer)])
  | .expose port refs all => tagged "Expose" (.obj [("port", fin port),
      ("to", listOf string refs), ("all", .bool all)])
  | .unexpose port ref => tagged "Unexpose" (.obj [("port", fin port), ("to", optionOf string ref)])
  | .list => string "List"
  | .key => string "Key"
  | .project peer ip name => tagged "Project" (.obj [("peer", string peer),
      ("ip", optionOf string ip), ("name", optionOf string name)])
  | .unproject peer => tagged "Unproject" (.obj [("peer", string peer)])

def GrantInfo.encode (g : GrantInfo) : Json := .obj [("port", fin g.port), ("to", string g.grantee)]

def PeerInfo.encode (p : PeerInfo) : Json :=
  .obj [("key", string p.key), ("name", optionOf string p.name),
    ("version", optionOf string p.version), ("online", .bool p.online),
    ("admission", string p.admission), ("they_expose", listOf fin p.theyExpose),
    ("ip", optionOf string p.ip), ("bound", listOf fin p.bound)]

/-- An empty `cli` is not written. -/
def ListInfo.encode (i : ListInfo) : Json :=
  .obj ([("me", string i.me)] ++ (if i.cli = "" then [] else [("cli", string i.cli)]) ++
    [("daemon", string i.daemon), ("peers", listOf PeerInfo.encode i.peers),
      ("i_expose", listOf fin i.iExpose),
      ("grants", listOf GrantInfo.encode i.grants)])

def Response.encode : Response → Json
  | .ok => string "Ok"
  | .key shown => tagged "Key" (string shown)
  | .list info => tagged "List" info.encode
  | .invite invitation => tagged "Invite" (string invitation)
  | .error text => tagged "Error" (string text)

def encodeMessage : PeerMessage → Json
  | .exposedPorts ports => tagged "ExposedPorts" (listOf fin ports)
  | .connect port => tagged "Connect" (.obj [("port", fin port)])
  | .enroll token version =>
    tagged "Enroll" (.obj [("token", string token), ("version", optionOf string version)])
  | .error text => tagged "Error" (string text)

def readPort : Json → Option Port := readFin 65536

def readInvite (v : Json) : Option Request := do
  let f ← readFields ["key", "name", "expose"] v
  let [key, name, expose] := f.slots | none
  some (.invite (← optionalField f.ordered readString key)
    (← optionalField f.ordered readString name) (← requiredField (readList readPort) expose))

def readAccept (v : Json) : Option Request := do
  let f ← readFields ["handle", "name"] v
  let [handle, name] := f.slots | none
  some (.accept (← requiredField readString handle) (← optionalField f.ordered readString name))

def readForget (v : Json) : Option Request := do
  let f ← readFields ["peer"] v
  let [peer] := f.slots | none
  some (.forget (← requiredField readString peer))

def readExpose (v : Json) : Option Request := do
  let f ← readFields ["port", "to", "all"] v
  let [port, refs, all] := f.slots | none
  some (.expose (← requiredField readPort port) (← requiredField (readList readString) refs)
    (← requiredField readBool all))

def readUnexpose (v : Json) : Option Request := do
  let f ← readFields ["port", "to"] v
  let [port, ref] := f.slots | none
  some (.unexpose (← requiredField readPort port) (← optionalField f.ordered readString ref))

def readProject (v : Json) : Option Request := do
  let f ← readFields ["peer", "ip", "name"] v
  let [peer, ip, name] := f.slots | none
  some (.project (← requiredField readString peer) (← optionalField f.ordered readString ip)
    (← optionalField f.ordered readString name))

def readUnproject (v : Json) : Option Request := do
  let f ← readFields ["peer"] v
  let [peer] := f.slots | none
  some (.unproject (← requiredField readString peer))

def Request.payload (tag : String) (v : Json) : Option Request :=
  if tag = "Invite" then readInvite v
  else if tag = "Accept" then readAccept v
  else if tag = "Forget" then readForget v
  else if tag = "Expose" then readExpose v
  else if tag = "Unexpose" then readUnexpose v
  else if tag = "Project" then readProject v
  else if tag = "Unproject" then readUnproject v
  else none

def Request.bare (tag : String) : Option Request :=
  if tag = "List" then some .list else if tag = "Key" then some .key else none

def Request.decode : Json → Option Request := readVariant Request.bare Request.payload

def GrantInfo.decode (v : Json) : Option GrantInfo := do
  let f ← readFields ["port", "to"] v
  let [port, grantee] := f.slots | none
  some ⟨← requiredField readPort port, ← requiredField readString grantee⟩

def PeerInfo.decode (v : Json) : Option PeerInfo := do
  let f ← readFields
    ["key", "name", "version", "online", "admission", "they_expose", "ip", "bound"] v
  let [key, name, version, online, admission, theyExpose, ip, bound] := f.slots | none
  some ⟨← requiredField readString key, ← optionalField f.ordered readString name,
    ← defaultedField none (readOption readString) version, ← requiredField readBool online,
    ← requiredField readString admission, ← requiredField (readList readPort) theyExpose,
    ← optionalField f.ordered readString ip, ← requiredField (readList readPort) bound⟩

def ListInfo.decode (v : Json) : Option ListInfo := do
  let f ← readFields ["me", "cli", "daemon", "peers", "i_expose", "grants"] v
  let [me, cli, daemon, peers, iExpose, grants] := f.slots | none
  some ⟨← requiredField readString me, ← defaultedField "" readString cli,
    ← defaultedField "" readString daemon, ← requiredField (readList PeerInfo.decode) peers,
    ← requiredField (readList readPort) iExpose, ← requiredField (readList GrantInfo.decode) grants⟩

def Response.payload (tag : String) (v : Json) : Option Response :=
  if tag = "Key" then (readString v).map .key
  else if tag = "List" then (ListInfo.decode v).map .list
  else if tag = "Invite" then (readString v).map .invite
  else if tag = "Error" then (readString v).map .error
  else none

def Response.bare (tag : String) : Option Response := if tag = "Ok" then some .ok else none

def Response.decode : Json → Option Response := readVariant Response.bare Response.payload

def readConnect (v : Json) : Option PeerMessage := do
  let f ← readFields ["port"] v
  let [port] := f.slots | none
  some (.connect (← requiredField readPort port))

def readEnroll (v : Json) : Option PeerMessage := do
  let f ← readFields ["token", "version"] v
  let [token, version] := f.slots | none
  some (.enroll (← requiredField readString token)
    (← defaultedField none (readOption readString) version))

def messagePayload (tag : String) (v : Json) : Option PeerMessage :=
  if tag = "ExposedPorts" then (readList readPort v).map .exposedPorts
  else if tag = "Connect" then readConnect v
  else if tag = "Enroll" then readEnroll v
  else if tag = "Error" then (readString v).map .error
  else none

def decodeMessage : Json → Option PeerMessage := readVariant (fun _ => none) messagePayload

@[simp]
theorem readPort_fin (port : Port) : readPort (fin port) = some port := readFin_fin 65536 port

@[simp]
theorem readList_ports (ports : List Port) : readList readPort (listOf fin ports) = some ports :=
  readList_listOf _ _ readPort_fin ports

@[simp]
theorem readList_strings (ss : List String) : readList readString (listOf string ss) = some ss :=
  readList_listOf _ _ readString_string ss

section
attribute [local simp] requiredField optionalField defaultedField

theorem request_decode (r : Request) : Request.decode r.encode = some r := by
  cases r with
  | list => rfl
  | key => rfl
  | invite whom name ports =>
    show readInvite _ = _
    rw [readInvite, readFields_written]
    · simp
    · rfl
    · decide
  | accept handle name =>
    show readAccept _ = _
    rw [readAccept, readFields_written]
    · simp
    · rfl
    · decide
  | forget peer =>
    show readForget _ = _
    rw [readForget, readFields_written]
    · simp
    · rfl
    · decide
  | expose port refs all =>
    show readExpose _ = _
    rw [readExpose, readFields_written]
    · simp [readBool]
    · rfl
    · decide
  | unexpose port ref =>
    show readUnexpose _ = _
    rw [readUnexpose, readFields_written]
    · simp
    · rfl
    · decide
  | project peer ip name =>
    show readProject _ = _
    rw [readProject, readFields_written]
    · simp
    · rfl
    · decide
  | unproject peer =>
    show readUnproject _ = _
    rw [readUnproject, readFields_written]
    · simp
    · rfl
    · decide

theorem grantInfo_decode (g : GrantInfo) : GrantInfo.decode g.encode = some g := by
  rw [GrantInfo.decode, GrantInfo.encode, readFields_written]
  · simp
  · rfl
  · decide

theorem peerInfo_decode (p : PeerInfo) : PeerInfo.decode p.encode = some p := by
  rw [PeerInfo.decode, PeerInfo.encode, readFields_written]
  · simp [readBool]
  · rfl
  · decide

theorem listInfo_decode (i : ListInfo) : ListInfo.decode i.encode = some i := by
  obtain ⟨me, cli, daemon, peers, iExpose, grants⟩ := i
  have hpeers := readList_listOf _ _ peerInfo_decode peers
  have hgrants := readList_listOf _ _ grantInfo_decode grants
  by_cases hcli : cli = ""
  · subst hcli
    have hfields : readFields ["me", "cli", "daemon", "peers", "i_expose", "grants"]
        (ListInfo.encode ⟨me, "", daemon, peers, iExpose, grants⟩) =
          some ⟨false, [some (string me), none, some (string daemon),
            some (listOf PeerInfo.encode peers), some (listOf fin iExpose),
            some (listOf GrantInfo.encode grants)]⟩ := by
      simp [ListInfo.encode, readFields, slotsOf, slotOf]
    rw [ListInfo.decode, hfields]
    simp [hpeers, hgrants]
  · have hencode : ListInfo.encode ⟨me, cli, daemon, peers, iExpose, grants⟩ =
        .obj [("me", string me), ("cli", string cli), ("daemon", string daemon),
          ("peers", listOf PeerInfo.encode peers), ("i_expose", listOf fin iExpose),
          ("grants", listOf GrantInfo.encode grants)] := by
      simp [ListInfo.encode, hcli]
    rw [ListInfo.decode, hencode, readFields_written]
    · simp [hpeers, hgrants]
    · rfl
    · decide

theorem response_decode (r : Response) : Response.decode r.encode = some r := by
  cases r with
  | ok => rfl
  | key shown => rfl
  | list info =>
    show (ListInfo.decode info.encode).map _ = _
    rw [listInfo_decode]
    rfl
  | invite invitation => rfl
  | error text => rfl

theorem message_decode (m : PeerMessage) : decodeMessage (encodeMessage m) = some m := by
  cases m with
  | exposedPorts ports =>
    show (readList readPort (listOf fin ports)).map _ = _
    rw [readList_ports]
    rfl
  | connect port =>
    show readConnect _ = _
    rw [readConnect, readFields_written]
    · simp
    · rfl
    · decide
  | enroll token version =>
    show readEnroll _ = _
    rw [readEnroll, readFields_written]
    · simp
    · rfl
    · decide
  | error text => rfl

end

/-- `serde_json::to_string`, and `to_string_pretty`. -/
def toText (v : Json) : List Char := print compact 0 v

def toPretty (v : Json) : List Char := print pretty 0 v

/-- `serde_json::from_str` with a type's own reader. -/
def ofText {α : Type} (decode : Json → Option α) (text : List Char) : Option α :=
  (read text).bind decode

/-- `serde_json::from_slice`. -/
def ofBytes {α : Type} (decode : Json → Option α) (bytes : List UInt8) : Option α :=
  (readBytes bytes).bind decode

section
variable {α : Type} (decode : Json → Option α) (encode : α → Json)
  (h : ∀ a, decode (encode a) = some a)
include h

theorem ofText_toText (a : α) (trail : List Char) (htrail : ∀ c ∈ trail, blank c = true) :
    ofText decode (toText (encode a) ++ trail) = some a := by
  rw [ofText, toText, read_print compact compact_blank 0 _ trail htrail, Option.bind_some, h]

theorem ofText_toPretty (a : α) (trail : List Char) (htrail : ∀ c ∈ trail, blank c = true) :
    ofText decode (toPretty (encode a) ++ trail) = some a := by
  rw [ofText, toPretty, read_print pretty pretty_blank 0 _ trail htrail, Option.bind_some, h]

theorem ofBytes_toText (a : α) : ofBytes decode (utf8 (toText (encode a))) = some a := by
  have htext := ofText_toText decode encode h a [] (by simp)
  rw [List.append_nil] at htext
  rw [ofBytes, readBytes_utf8]
  exact htext

end

def jsonWire : PeerWire.Wire where
  toVec m := utf8 (toText (encodeMessage m))
  fromSlice := ofBytes decodeMessage
  readToEnd bytes limit := if bytes.length ≤ limit then some bytes else none

theorem jsonWire_documented : jsonWire.Documented where
  reads_back m := ofBytes_toText _ _ message_decode m
  whole _ _ h := if_pos h
  too_long _ _ h := if_neg (Nat.not_le.mpr h)

end PaiSho.Messages
