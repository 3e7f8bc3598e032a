import PaiSho.Handovers
import PaiSho.LaunchdService
import PaiSho.Messages

/-!
# The state of the service

`status` of `launchd.rs`: what `launchctl` prints of the disabled labels and of
the service is taken apart line by line, and the report goes out as JSON. What
`launchctl` prints are listings: rows that give an attribute, mark a label or say
something else, each with its indentation, so that rows may be nested in others.
The text of the report is that of `serde_json`, a parameter.
-/

set_option autoImplicit false

namespace PaiSho.ServiceReports
open Library.JsonTokens (Json)
open Library.JsonRecords
open Invitations (isWhiteSpace trim)
open LaunchdService

def dropReturn (line : List Char) : List Char :=
  if line.getLast? = some '\r' then line.dropLast else line

def linesFrom (seen : List Char) : List Char → List (List Char)
  | [] => if seen.isEmpty then [] else [seen]
  | c::text => if c = '\n' then dropReturn seen :: linesFrom [] text else linesFrom (seen++[c]) text

/-- `str::lines`. -/
def lines (text : List Char) : List (List Char) := linesFrom [] text

/-- `split_whitespace().next()`. -/
def firstWord (text : List Char) : Option (List Char) :=
  let rest := text.dropWhile isWhiteSpace
  if rest.isEmpty then none else some (rest.takeWhile (fun c => !isWhiteSpace c))

def needle (label : List Char) : List Char := '"' :: label ++ "\" =>".toList

def disabledWord : List Char := "disabled".toList

def marks (label line : List Char) : Bool :=
  match line.dropPrefix? (needle label) with
  | none => false
  | some rest => firstWord rest = some disabledWord

/-- `"label" => disabled` in `launchctl print-disabled system`. -/
def labelDisabled (text label : List Char) : Bool :=
  (lines text).any (fun line => marks label (trim line))

def fieldPrefix (key : List Char) : List Char := key ++ " = ".toList

def valueOf (key line : List Char) : Option (List Char) :=
  match line.dropPrefix? (fieldPrefix key) with
  | none => none
  | some value => if (trim value).isEmpty then none else some (trim value)

def field (text key : List Char) : Option (List Char) :=
  (lines text).findSome? (fun line => valueOf key (trim line))

structure ServiceStatus where
  installed : Bool
  loaded : Bool
  disabled : Bool
  launchdState : Option (List Char)
  pid : Option (List Char)
  socketOwner : Option String
  keyPresent : Bool
  resolverPresent : Bool
  deriving DecidableEq, Repr

/-- What the calls of `gather` answered: the files, the two `launchctl` commands,
and who owns the socket, if it is there. -/
structure Answers where
  plist : Bool
  printDisabled : Output
  printed : Output
  socketOwner : Option String
  key : Bool
  resolver : Bool

def notFound : List Char := "Could not find service".toList

def launchctlStdout (args : List String) : Output → Except String String
  | .unspawned => .error ("running launchctl " ++ " ".intercalate args)
  | .exited true stdout _ _ => .ok stdout
  | .exited false _ stderr status =>
    .error ("launchctl " ++ " ".intercalate args ++ " failed: " ++
      if (trim stderr.toList).isEmpty then "exit " ++ status else String.ofList (trim stderr.toList))

def gather (a : Answers) : Except String ServiceStatus := do
  let disabledText ← launchctlStdout ["print-disabled", "system"] a.printDisabled
  let (loaded, text) ←
    match a.printed with
    | .unspawned => .error ("running launchctl print " ++ domain)
    | .exited true stdout _ _ => .ok (true, stdout)
    | .exited false stdout stderr _ =>
      if notFound <:+: stderr.toList then .ok (false, stdout)
      else .error ("launchctl print " ++ domain ++ " failed: " ++ String.ofList (trim stderr.toList))
  .ok {
    installed := a.plist
    loaded := loaded
    disabled := labelDisabled disabledText.toList label.toList
    launchdState := if loaded then field text.toList "state".toList else none
    pid := if loaded then field text.toList "pid".toList else none
    socketOwner := a.socketOwner
    keyPresent := a.key
    resolverPresent := a.resolver }

structure StatusReport where
  service : String
  state : String
  pid : Option (Fin (2^32))
  disabled : Bool
  installed : Bool
  loaded : Bool
  socket : Option String
  socketOwner : Option String
  key : Option String
  resolver : Option String
  log : String
  deriving DecidableEq, Repr

def stateWord (status : ServiceStatus) : String :=
  if status.loaded then (status.launchdState.map String.ofList).getD "loaded"
  else if status.installed then "stopped"
  else "not installed"

def unplus : List Char → List Char
  | '+'::cs => cs
  | cs => cs

/-- `str::parse::<u32>`. -/
def parseU32 (text : List Char) : Option (Fin (2^32)) :=
  let digits := unplus text
  if digits.isEmpty || !digits.all Char.isDigit then none
  else if h : Nat.ofDigitChars 10 digits 0 < 2^32 then some ⟨Nat.ofDigitChars 10 digits 0, h⟩
  else none

def report (status : ServiceStatus) : StatusReport where
  service := domain
  state := stateWord status
  pid := status.pid.bind parseU32
  disabled := status.disabled
  installed := status.installed
  loaded := status.loaded
  socket := status.socketOwner.map (fun _ => socket)
  socketOwner := status.socketOwner
  key := if status.keyPresent then some (Path.text .key) else none
  resolver := if status.resolverPresent then some (Path.text .resolver) else none
  log := Path.text .log

/-- With the text `serde_json::to_string_pretty` gives a report. -/
def status (pretty : StatusReport → List Char) (macos : Bool) (a : Answers) :
    Except String (List Char) :=
  if !macos then .error "daemon install, up, down, remove, and status run on macOS"
  else (gather a).map (fun s => pretty (report s) ++ ['\n'])

def written (ls : List (List Char)) : List Char := ls.flatMap (fun line => line ++ ['\n'])

structure Line (line : List Char) : Prop where
  single : '\n' ∉ line
  bare : line.getLast? ≠ some '\r'

structure Edged (text : List Char) : Prop where
  single : '\n' ∉ text
  first : ∀ c, text.head? = some c → isWhiteSpace c = false
  last : ∀ c, text.getLast? = some c → isWhiteSpace c = false

def tabs (depth : ℕ) : List Char := List.replicate depth '\t'

theorem Edged.line {text : List Char} (h : Edged text) (depth : ℕ) : Line (tabs depth ++ text) := by
  constructor
  · rw [List.mem_append, not_or]
    exact ⟨fun hin => absurd (List.eq_of_mem_replicate hin) (by decide), h.single⟩
  · intro hlast
    cases text with
    | nil =>
      rw [List.append_nil] at hlast
      exact absurd (List.eq_of_mem_replicate (List.mem_of_getLast? hlast)) (by decide)
    | cons c text =>
      rw [List.getLast?_append_of_ne_nil _ (List.cons_ne_nil c text)] at hlast
      exact absurd (h.last _ hlast) (by decide)

/-- One row of a listing: `key = value`, where the value of a block is its opening
brace; `"label" => word`; or something else, like a closing brace. -/
inductive Row where
  | pair (key value : List Char)
  | mark (label word : List Char)
  | other (text : List Char)
  deriving DecidableEq, Repr

def Row.text : Row → List Char
  | .pair key value => fieldPrefix key ++ value
  | .mark label word => needle label ++ ' ' :: word
  | .other text => text

def edged (text : List Char) : Bool :=
  !text.contains '\n' && text.head?.all (fun c => !isWhiteSpace c) &&
    text.getLast?.all (fun c => !isWhiteSpace c)

def Row.plain : Row → Bool
  | .pair key value => edged key && edged value && !key.isEmpty && !value.isEmpty &&
      !key.contains '='
  | .mark label word => !label.contains '"' && !label.contains '=' && !label.contains '\n' &&
      !word.isEmpty && word.all (fun c => !isWhiteSpace c)
  | .other text => edged text && text.head? ≠ some '"' && !decide (" = ".toList <:+: text)

structure Listing where
  rows : List (ℕ × Row)
  plain : ∀ row ∈ rows, row.2.plain = true

def Listing.text (l : Listing) : List Char :=
  written (l.rows.map (fun row => tabs row.1 ++ row.2.text))

def Row.valueOf (key : List Char) : Row → Option (List Char)
  | .pair name value => if name = key then some value else none
  | _ => none

def Listing.firstOf (l : Listing) (key : List Char) : Option (List Char) :=
  l.rows.findSome? (fun row => row.2.valueOf key)

/-- The service as the system has it, and the words in which `launchctl` says
that it has no such service. -/
structure Service where
  installed : Bool
  table : Listing
  job : Option Listing
  refusal : List Char
  refused : notFound <:+: refusal
  socketOwner : Option String
  key : Bool
  resolver : Bool

def Service.printed (s : Service) : Output :=
  match s.job with
  | some listing => .exited true (String.ofList listing.text) "" "exit status: 0"
  | none => .exited false "" (String.ofList s.refusal) "exit status: 113"

def Service.answers (s : Service) : Answers where
  plist := s.installed
  printDisabled := .exited true (String.ofList s.table.text) "" "exit status: 0"
  printed := s.printed
  socketOwner := s.socketOwner
  key := s.key
  resolver := s.resolver

def Service.attribute (s : Service) (key : List Char) : Option (List Char) :=
  s.job.bind (fun listing => listing.firstOf key)

structure Told (s : Service) (r : StatusReport) : Prop where
  service : r.service = domain ∧ r.log = Path.text .log
  installed : r.installed = s.installed
  loaded : r.loaded = s.job.isSome
  disabled : r.disabled = true ↔ ∃ depth, (depth, Row.mark label.toList disabledWord) ∈ s.table.rows
  running : s.job.isSome = true →
    r.state = ((s.attribute "state".toList).map String.ofList).getD "loaded"
  stopped : s.job = none → r.state = if s.installed then "stopped" else "not installed"
  pid : ∀ n : Fin (2^32), s.attribute "pid".toList = some (Nat.toDigits 10 n) → r.pid = some n
  idle : s.attribute "pid".toList = none → r.pid = none
  socket : r.socketOwner = s.socketOwner ∧ (r.socket = some socket ↔ s.socketOwner.isSome = true)
  key : r.key = some (Path.text .key) ↔ s.key = true
  resolver : r.resolver = some (Path.text .resolver) ↔ s.resolver = true

def StatusReport.encode (r : StatusReport) : Json :=
  .obj [("service", string r.service), ("state", string r.state), ("pid", optionOf fin r.pid),
    ("disabled", .bool r.disabled), ("installed", .bool r.installed), ("loaded", .bool r.loaded),
    ("socket", optionOf string r.socket), ("socket_owner", optionOf string r.socketOwner),
    ("key", optionOf string r.key), ("resolver", optionOf string r.resolver), ("log", string r.log)]

end PaiSho.ServiceReports
