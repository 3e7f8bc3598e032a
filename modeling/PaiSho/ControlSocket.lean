import PaiSho.Messages
import PaiSho.LaunchdService
import PaiSho.SurfaceManager
import PaiSho.Restart
import PaiSho.Library.Traces

/-!
# The control socket

`client.rs`, `handle_client` of `daemon.rs` and `fetch_view` of `launchd.rs`: a
client writes one request as a line of JSON, the daemon reads a line, handles it
and writes one line back, and the client shows what it read. Any number of
clients are connected at once, and each may be gone after any number of bytes.
A handler is a task of its own that awaits other things, so it is cut there, and
the handlers and the daemon's other tasks mix in any order. What they do is a
parameter, and so is the text `serde_json` gives requests and responses.
-/

set_option autoImplicit false

namespace PaiSho.ControlSocket
open Library.JsonTokens Library.JsonText Library.JsonRecords
open Library.EncodedText (utf8)
open Library.Traces
open GrantTable (Port)
open SurfaceManager (IpAddr)
open LaunchdService (InstallView)
open Messages

/-- `read_line`: up to the first newline, or all there is. -/
def readLine (bytes : List UInt8) : List UInt8 :=
  if 10 ∈ bytes then bytes.takeWhile (· ≠ 10) ++ [10] else bytes

theorem readLine_whole (bytes : List UInt8) (h : 10 ∉ bytes) : readLine bytes = bytes := if_neg h

theorem readLine_newline (bytes : List UInt8) (h : 10 ∉ bytes) :
    readLine (bytes ++ [10]) = bytes ++ [10] := by
  have hline : (bytes ++ [10]).takeWhile (· ≠ 10) = bytes := by
    rw [List.takeWhile_append_of_pos (fun b hb => by
      simp only [ne_eq, decide_not, Bool.not_eq_true', decide_eq_false_iff_not]
      rintro rfl
      exact h hb)]
    simp
  rw [readLine, if_pos (by simp), hline]

/-- A value that is written on a line and read from it: it has no newline in its
text, is read with the newline and without it, and no part of it is a value. -/
structure OnLine {α : Type} (write : α → List UInt8) (read : List UInt8 → Option α) : Prop where
  newline : ∀ a, 10 ∉ write a
  bare : ∀ a, read (write a) = some a
  line : ∀ a, read (write a ++ [10]) = some a
  cut : ∀ a count, count < (write a).length → read ((write a).take count) = none

theorem OnLine.read_taken {α : Type} {write : α → List UInt8} {read : List UInt8 → Option α}
    (h : OnLine write read) (a : α) (count : ℕ) :
    read (readLine ((write a ++ [10]).take count)) =
      if count < (write a).length then none else some a := by
  split_ifs with hcount
  · have hnone : 10 ∉ (write a).take count := fun hin => h.newline a (List.mem_of_mem_take hin)
    rw [List.take_append_of_le_length (by omega), readLine_whole _ hnone, h.cut a count hcount]
  · rcases Nat.lt_or_ge (write a).length count with hmore | hless
    · have htake : (write a ++ [10]).take count = write a ++ [10] := by
        apply List.take_of_length_le
        rw [List.length_append, List.length_singleton]
        omega
      rw [htake, readLine_newline _ (h.newline a), h.line]
    · have heq : count = (write a).length := by omega
      rw [heq, List.take_left, readLine_whole _ (h.newline a), h.bare]

/-- `serde_json::to_string` and `from_str` at requests and responses, and
`to_string_pretty` at a list. -/
structure Codec where
  request : Request → List UInt8
  readRequest : List UInt8 → Option Request
  response : Response → List UInt8
  readResponse : List UInt8 → Option Response
  pretty : ListInfo → List Char

structure Codec.Documented (codec : Codec) : Prop where
  requests : OnLine codec.request codec.readRequest
  responses : OnLine codec.response codec.readResponse
  empty : codec.readResponse [] = none

inductive Command where
  | invite (key : Option String) (name : Option String) (expose : List Port)
  | accept (handle : String) (name : Option String)
  | forget (peer : String)
  | expose (port : Port) (refs : List String) (all : Bool)
  | unexpose (port : Port) (ref : Option String)
  | list
  | key
  | project (peer : String) (ip : Option IpAddr) (name : Option String)
  | unproject (peer : String)
  deriving DecidableEq, Repr

inductive Asker where
  | cli (c : Command)
  | installer
  deriving DecidableEq, Repr

inductive Output where
  | printed (stdout : List Char)
  | complained (stderr : List Char)
  | seen (view : InstallView)
  | failed
  deriving DecidableEq, Repr

/-- How a client stops reading: after so many bytes of an answer, or at the
installer's read timeout. -/
inductive Ending where
  | answer (count : ℕ)
  | timeout
  deriving DecidableEq, Repr

structure Client where
  who : Asker
  sent : Option ℕ := none
  refused : Bool := false
  ended : Option (Ending × Output) := none
  deriving DecidableEq, Repr

/-- `handle_request`, cut where it awaits, and the daemon's other tasks. -/
structure Handling (S P C O : Type) where
  start : Request → P
  advance : S → P → C → S × (P ⊕ Response)
  other : S → O → S

structure Office (S P : Type) where
  daemon : S
  handlers : ℕ → Option (P ⊕ Response)

inductive Work (C O : Type) where
  | take (i : ℕ) (r : Request)
  | advance (i : ℕ) (c : C)
  | other (o : O)

def Work.taken {C O : Type} : Work C O → Option (ℕ × Request)
  | .take i r => some (i, r)
  | _ => none

structure System (S P C O : Type) where
  office : Office S P
  clients : ℕ → Option Client
  log : List (Work C O)

inductive Input (C O : Type) where
  | connect (i : ℕ) (who : Asker)
  | write (i : ℕ) (count : ℕ)
  | read (i : ℕ)
  | advance (i : ℕ) (c : C)
  | other (o : O)
  | finish (i : ℕ) (count : ℕ)
  | timeout (i : ℕ)

section
variable (shown : IpAddr → String)

def Command.request : Command → Request
  | .invite whom name ports => .invite whom name ports
  | .accept handle name => .accept handle name
  | .forget peer => .forget peer
  | .expose port refs all => .expose port refs all
  | .unexpose port ref => .unexpose port ref
  | .list => .list
  | .key => .key
  | .project peer ip name => .project peer (ip.map shown) name
  | .unproject peer => .unproject peer

def Asker.request : Asker → Request
  | .cli c => c.request shown
  | .installer => .list

end

section
variable {S P C O : Type} (shown : IpAddr → String) (codec : Codec) (handling : Handling S P C O)

def present : Asker → Response → Output
  | .cli _, .ok => .printed "OK\n".toList
  | .cli _, .key key => .printed (key.toList ++ ['\n'])
  | .cli _, .invite invitation => .printed (invitation.toList ++ ['\n'])
  | .cli _, .list info => .printed (codec.pretty { info with cli := version } ++ ['\n'])
  | .cli _, .error e => .complained ("Error: " ++ e ++ "\n").toList
  | .installer, .list info => .seen ⟨info.me, info.peers.length⟩
  | .installer, _ => .failed

def conclude (who : Asker) (bytes : List UInt8) : Output :=
  match codec.readResponse (readLine bytes) with
  | some r => present codec who r
  | none => .failed

def work (office : Office S P) : Work C O → Office S P × Unit
  | .take i r =>
    ({ office with handlers := Function.update office.handlers i (some (.inl (handling.start r))) },
      ())
  | .advance i c =>
    match office.handlers i with
    | some (.inl p) =>
      let next := handling.advance office.daemon p c
      (⟨next.1, Function.update office.handlers i (some next.2)⟩, ())
    | _ => (office, ())
  | .other o => ({ office with daemon := handling.other office.daemon o }, ())

def System.works (sys : System S P C O) (w : Work C O) : System S P C O :=
  { sys with office := (work handling sys.office w).1, log := sys.log ++ [w] }

def System.set (sys : System S P C O) (i : ℕ) (client : Client) : System S P C O :=
  { sys with clients := Function.update sys.clients i (some client) }

/-- `handle_client` on what a client has sent. An unreadable line gets no
answer. -/
def System.handleClient (sys : System S P C O) (i : ℕ) (client : Client) (count : ℕ) :
    System S P C O :=
  match codec.readRequest (readLine ((codec.request (client.who.request shown) ++ [10]).take count))
    with
  | none => sys.set i { client with refused := true }
  | some r => sys.works handling (.take i r)

def System.conclusion (sys : System S P C O) (i : ℕ) (who : Asker) (count : ℕ) :
    Ending × Output :=
  match sys.office.handlers i with
  | some (.inr r) => (.answer count, conclude codec who ((codec.response r ++ [10]).take count))
  | _ => (.answer 0, conclude codec who [])

/-- A client writes once, is read once, and ends once. The daemon may read what
was sent by a client that has given up. -/
def step (sys : System S P C O) : Input C O → System S P C O × Unit
  | .connect i who => (if (sys.clients i).isNone then sys.set i { who } else sys, ())
  | .write i count =>
    match sys.clients i with
    | some ⟨who, none, refused, none⟩ => (sys.set i ⟨who, some count, refused, none⟩, ())
    | _ => (sys, ())
  | .read i =>
    match sys.clients i, sys.office.handlers i with
    | some ⟨who, some count, false, ended⟩, none =>
      (sys.handleClient shown codec handling i ⟨who, some count, false, ended⟩ count, ())
    | _, _ => (sys, ())
  | .advance i c => (sys.works handling (.advance i c), ())
  | .other o => (sys.works handling (.other o), ())
  | .finish i count =>
    match sys.clients i with
    | some ⟨who, some sent, refused, none⟩ =>
      (sys.set i ⟨who, some sent, refused, some (sys.conclusion codec i who count)⟩, ())
    | _ => (sys, ())
  | .timeout i =>
    match sys.clients i with
    | some ⟨.installer, some sent, refused, none⟩ =>
      (sys.set i ⟨.installer, some sent, refused, some (.timeout, .failed)⟩, ())
    | _ => (sys, ())

def start (s : S) : System S P C O := ⟨⟨s, fun _ => none⟩, fun _ => none, []⟩

/-- How a client that has ended came by what it shows: from the whole answer of
its own handler, or it failed, timed out or with less than that. -/
inductive Ended (sys : System S P C O) (i : ℕ) (client : Client) : Ending → Output → Prop where
  | shown (r : Response) (count : ℕ) (hdone : sys.office.handlers i = some (.inr r))
      (hwhole : (codec.response r).length ≤ count) :
      Ended sys i client (.answer count) (present codec client.who r)
  | timeout (hwho : client.who = .installer) : Ended sys i client .timeout .failed
  | nothing : Ended sys i client (.answer 0) .failed
  | part (r : Response) (count : ℕ) (hdone : sys.office.handlers i = some (.inr r))
      (hpart : count < (codec.response r).length) : Ended sys i client (.answer count) .failed

/-- What has come of the exchanges so far. The daemon is where the tasks the log
lists have brought it; one handler at most was started for a client, with its own
request once that was whole; and every client has ended as it should. -/
structure Exchanged (s : S) (sys : System S P C O) : Prop where
  office : sys.office = run (work handling) ⟨s, fun _ => none⟩ sys.log
  once : ((sys.log.filterMap Work.taken).map Prod.fst).Nodup
  own : ∀ i r, (i, r) ∈ sys.log.filterMap Work.taken → ∃ client count, sys.clients i = some client ∧
    r = client.who.request shown ∧ client.sent = some count ∧ (codec.request r).length ≤ count
  started : ∀ i, sys.office.handlers i = none ↔ i ∉ (sys.log.filterMap Work.taken).map Prod.fst
  refused : ∀ i client, sys.clients i = some client → client.refused = true →
    i ∉ (sys.log.filterMap Work.taken).map Prod.fst ∧
      ∃ count, client.sent = some count ∧ count < (codec.request (client.who.request shown)).length
  ended : ∀ i client ending out, sys.clients i = some client → client.ended = some (ending, out) →
    Ended codec sys i client ending out

theorem exchanged_start (s : S) : Exchanged shown codec handling s (start s) := by
  constructor
  case office => rfl
  case once => exact List.nodup_nil
  case own =>
    intro i r hi
    cases hi
  case started =>
    intro i
    exact ⟨fun _ => List.not_mem_nil, fun _ => rfl⟩
  case refused =>
    intro i client hi
    cases hi
  case ended =>
    intro i client ending out hi
    cases hi

variable {shown codec handling}

theorem Ended.mono {sys sys' : System S P C O} {i : ℕ} {client client' : Client} {ending : Ending}
    {out : Output} (h : Ended codec sys i client ending out) (hwho : client'.who = client.who)
    (hdone : ∀ r, sys.office.handlers i = some (.inr r) → sys'.office.handlers i = some (.inr r)) :
    Ended codec sys' i client' ending out := by
  cases h with
  | shown r count hr hwhole =>
    rw [← hwho]
    exact .shown r count (hdone r hr) hwhole
  | timeout hinstaller => exact .timeout (hwho.trans hinstaller)
  | nothing => exact .nothing
  | part r count hr hpart => exact .part r count (hdone r hr) hpart

theorem exchanged_set {s : S} {sys : System S P C O} (h : Exchanged shown codec handling s sys)
    (i : ℕ) (client : Client)
    (hold : ∀ old, sys.clients i = some old → client.who = old.who ∧
      ∀ count, old.sent = some count → client.sent = some count)
    (hrefused : client.refused = true → i ∉ (sys.log.filterMap Work.taken).map Prod.fst ∧
      ∃ count, client.sent = some count ∧
        count < (codec.request (client.who.request shown)).length)
    (hended : ∀ ending out, client.ended = some (ending, out) →
      Ended codec sys i client ending out) :
    Exchanged shown codec handling s (sys.set i client) := by
  refine ⟨h.office, h.once, fun j r hj => ?_, h.started, fun j other hj => ?_,
    fun j other ending out hj hout => ?_⟩
  · obtain ⟨old, count, hclient, hrequest, hsent, hwhole⟩ := h.own j r hj
    by_cases heq : j = i
    · subst heq
      obtain ⟨hwho, hkept⟩ := hold old hclient
      exact ⟨client, count, by simp [System.set], hwho ▸ hrequest, hkept count hsent, hwhole⟩
    · exact ⟨old, count, by simp [System.set, Function.update_of_ne heq, hclient], hrequest, hsent,
        hwhole⟩
  · by_cases heq : j = i
    · subst heq
      obtain rfl : client = other := by simpa [System.set] using hj
      exact hrefused
    · exact h.refused j other (by simpa [System.set, Function.update_of_ne heq] using hj)
  · by_cases heq : j = i
    · subst heq
      obtain rfl : client = other := by simpa [System.set] using hj
      exact (hended ending out hout).mono rfl (fun _ hr => hr)
    · have hclient : sys.clients j = some other := by
        simpa [System.set, Function.update_of_ne heq] using hj
      exact (h.ended j other ending out hclient hout).mono rfl (fun _ hr => hr)

theorem exchanged_works {s : S} {sys : System S P C O} (h : Exchanged shown codec handling s sys)
    (w : Work C O) (htaken : w.taken = none)
    (hnone : ∀ j, (work handling sys.office w).1.handlers j = none ↔ sys.office.handlers j = none)
    (hdone : ∀ j r, sys.office.handlers j = some (.inr r) →
      (work handling sys.office w).1.handlers j = some (.inr r)) :
    Exchanged shown codec handling s (sys.works handling w) := by
  have hlog : (sys.log ++ [w]).filterMap Work.taken = sys.log.filterMap Work.taken := by
    rw [List.filterMap_append]
    simp [htaken]
  constructor
  case office =>
    show (work handling sys.office w).1 = run (work handling) _ (sys.log ++ [w])
    rw [run_snoc, ← h.office]
  case once =>
    show (((sys.log ++ [w]).filterMap Work.taken).map Prod.fst).Nodup
    rw [hlog]
    exact h.once
  case own =>
    show ∀ i r, (i, r) ∈ (sys.log ++ [w]).filterMap Work.taken → _
    rw [hlog]
    exact h.own
  case started =>
    intro i
    show (work handling sys.office w).1.handlers i = none ↔
      i ∉ ((sys.log ++ [w]).filterMap Work.taken).map Prod.fst
    rw [hlog, hnone, h.started]
  case refused =>
    show ∀ i client, sys.clients i = some client → client.refused = true →
      i ∉ ((sys.log ++ [w]).filterMap Work.taken).map Prod.fst ∧ _
    rw [hlog]
    exact h.refused
  case ended =>
    intro i client ending out hi hout
    exact (h.ended i client ending out hi hout).mono rfl (hdone i)

theorem exchanged_advance {s : S} {sys : System S P C O} (h : Exchanged shown codec handling s sys)
    (i : ℕ) (c : C) : Exchanged shown codec handling s (sys.works handling (.advance i c)) := by
  have hkept : ∀ j, (∀ p, sys.office.handlers i = some (.inl p) → j ≠ i) →
      (work handling sys.office (.advance i c)).1.handlers j = sys.office.handlers j := by
    intro j hj
    simp only [work]
    split
    · next p hp => exact Function.update_of_ne (hj p hp) _ _
    · rfl
  refine exchanged_works h _ rfl (fun j => ?_) (fun j r hr => ?_)
  · by_cases hj : ∃ p, sys.office.handlers i = some (.inl p) ∧ j = i
    · obtain ⟨p, hp, rfl⟩ := hj
      simp [work, hp]
    · push Not at hj
      rw [hkept j hj]
  · rw [hkept j (fun p hp heq => ?_), hr]
    rw [heq, hp] at hr
    cases hr

theorem exchanged_take {s : S} {sys : System S P C O} (h : Exchanged shown codec handling s sys)
    (i : ℕ) (client : Client) (count : ℕ) (hclient : sys.clients i = some client)
    (hsent : client.sent = some count) (hrefused : client.refused = false)
    (hnone : sys.office.handlers i = none)
    (hwhole : (codec.request (client.who.request shown)).length ≤ count) :
    Exchanged shown codec handling s
      (sys.works handling (.take i (client.who.request shown))) := by
  have hnew : i ∉ (sys.log.filterMap Work.taken).map Prod.fst := (h.started i).mp hnone
  have hlog : (sys.works handling (.take i (client.who.request shown))).log.filterMap Work.taken =
      sys.log.filterMap Work.taken ++ [(i, client.who.request shown)] := List.filterMap_append
  have hmem : ∀ j, j ∈ ((sys.works handling (.take i (client.who.request shown))).log.filterMap
      Work.taken).map Prod.fst ↔ j ∈ (sys.log.filterMap Work.taken).map Prod.fst ∨ j = i := by
    intro j
    rw [hlog, List.map_append, List.mem_append]
    simp
  constructor
  case office =>
    show _ = run (work handling) _ (sys.log ++ [Work.take i (client.who.request shown)])
    rw [run_snoc, ← h.office]
    rfl
  case once =>
    rw [hlog, List.map_append]
    exact List.nodup_append'.mpr ⟨h.once, List.nodup_singleton i, by simpa using hnew⟩
  case own =>
    intro j r hj
    rw [hlog] at hj
    rcases List.mem_append.mp hj with hin | hlast
    · exact h.own j r hin
    · obtain ⟨rfl, rfl⟩ := Prod.mk.inj (List.mem_singleton.mp hlast)
      exact ⟨client, count, hclient, rfl, hsent, hwhole⟩
  case started =>
    intro j
    rw [hmem]
    show Function.update sys.office.handlers i (some (.inl _)) j = none ↔ _
    by_cases heq : j = i
    · simp [heq]
    · simp only [Function.update_of_ne heq, heq, or_false]
      exact h.started j
  case refused =>
    intro j other hj hother
    obtain ⟨hnot, hcut⟩ := h.refused j other hj hother
    refine ⟨fun hin => ?_, hcut⟩
    rcases (hmem j).mp hin with hold | rfl
    · exact hnot hold
    · obtain rfl := Option.some.inj (hclient.symm.trans hj)
      cases hrefused.symm.trans hother
  case ended =>
    intro j other ending out hj hout
    refine (h.ended j other ending out hj hout).mono rfl (fun r hr => ?_)
    have hne : j ≠ i := by
      rintro rfl
      rw [hnone] at hr
      cases hr
    show Function.update sys.office.handlers i (some (.inl _)) j = _
    rw [Function.update_of_ne hne, hr]

theorem ended_conclusion (hcodec : codec.Documented) (sys : System S P C O) (i : ℕ)
    (client : Client) (count : ℕ) :
    Ended codec sys i client (sys.conclusion codec i client.who count).1
      (sys.conclusion codec i client.who count).2 := by
  have hnothing : conclude codec client.who [] = .failed := by
    rw [conclude, readLine_whole _ List.not_mem_nil, hcodec.empty]
  unfold System.conclusion
  split
  · next r hr =>
    have hread := hcodec.responses.read_taken r count
    by_cases hpart : count < (codec.response r).length
    · rw [if_pos hpart] at hread
      have hfailed : conclude codec client.who ((codec.response r ++ [10]).take count) = .failed := by
        rw [conclude, hread]
      rw [hfailed]
      exact .part r count hr hpart
    · rw [if_neg hpart] at hread
      have hshown : conclude codec client.who ((codec.response r ++ [10]).take count) =
          present codec client.who r := by
        rw [conclude, hread]
      rw [hshown]
      exact .shown r count hr (Nat.not_lt.mp hpart)
  · rw [hnothing]
    exact .nothing

theorem exchanged_step (hcodec : codec.Documented) {s : S} {sys : System S P C O}
    (h : Exchanged shown codec handling s sys) (input : Input C O) :
    Exchanged shown codec handling s (step shown codec handling sys input).1 := by
  cases input with
  | connect i who =>
    simp only [step]
    split_ifs with hnone
    · refine exchanged_set h i _ (fun old hold => ?_) nofun nofun
      rw [hold] at hnone
      cases hnone
    · exact h
  | write i count =>
    simp only [step]
    split
    · next who refused hclient =>
      refine exchanged_set h i _ (fun old hold => ?_) (fun hrefused => ?_) nofun
      · obtain rfl := Option.some.inj (hclient.symm.trans hold)
        exact ⟨rfl, nofun⟩
      · -- a line that was not sent was not refused
        obtain ⟨-, count', hsent, -⟩ := h.refused i _ hclient hrefused
        cases hsent
    · exact h
  | read i =>
    simp only [step]
    split
    · next who count ended hclient hnone =>
      simp only [System.handleClient]
      have hread := hcodec.requests.read_taken (who.request shown) count
      by_cases hcut : count < (codec.request (who.request shown)).length
      · rw [if_pos hcut] at hread
        rw [hread]
        refine exchanged_set h i _ (fun old hold => ?_)
          (fun _ => ⟨(h.started i).mp hnone, count, rfl, hcut⟩)
          (fun ending out hended => (h.ended i _ ending out hclient hended).mono rfl (fun _ hr => hr))
        obtain rfl := Option.some.inj (hclient.symm.trans hold)
        exact ⟨rfl, fun _ hsent => hsent⟩
      · rw [if_neg hcut] at hread
        rw [hread]
        exact exchanged_take h i _ count hclient rfl rfl hnone (Nat.not_lt.mp hcut)
    · exact h
  | advance i c => exact exchanged_advance h i c
  | other o => exact exchanged_works h _ rfl (fun _ => Iff.rfl) (fun _ _ hr => hr)
  | finish i count =>
    simp only [step]
    split
    · next who sent refused hclient =>
      refine exchanged_set h i _ (fun old hold => ?_)
        (h.refused i ⟨who, some sent, refused, none⟩ hclient) (fun ending out hended => ?_)
      · obtain rfl := Option.some.inj (hclient.symm.trans hold)
        exact ⟨rfl, fun _ hsent => hsent⟩
      · have hconclusion := ended_conclusion hcodec sys i ⟨who, some sent, refused, none⟩ count
        rw [show sys.conclusion codec i who count = (ending, out) from Option.some.inj hended]
          at hconclusion
        exact hconclusion.mono rfl (fun _ hr => hr)
    · exact h
  | timeout i =>
    simp only [step]
    split
    · next sent refused hclient =>
      refine exchanged_set h i _ (fun old hold => ?_)
        (h.refused i ⟨.installer, some sent, refused, none⟩ hclient) (fun ending out hended => ?_)
      · obtain rfl := Option.some.inj (hclient.symm.trans hold)
        exact ⟨rfl, fun _ hsent => hsent⟩
      · obtain ⟨rfl, rfl⟩ := Prod.mk.inj (Option.some.inj hended)
        exact .timeout rfl
    · exact h

/-- However the exchanges of the clients, the handlers and the daemon's other
tasks interleave, and wherever requests and answers are cut short, a handler is
started by whole requests only, once for each, and every client shows the answer
of its own handler or fails. -/
theorem exchanges_are_ones_own (shown : IpAddr → String) (codec : Codec)
    (hcodec : codec.Documented) (handling : Handling S P C O) (s : S) (inputs : List (Input C O)) :
    Exchanged shown codec handling s (run (step shown codec handling) (start s) inputs) :=
  run_invariant _ (Exchanged shown codec handling s)
    (fun _ input h => exchanged_step hcodec h input) _ (exchanged_start shown codec handling s)
    inputs

end

theorem newline_utf8 (text : List Char) (h : '\n' ∉ text) : 10 ∉ utf8 text := by
  intro hmem
  obtain ⟨c, hc, hbyte⟩ := List.mem_flatMap.mp hmem
  rcases Library.EncodedText.mem_utf8EncodeChar c 10 hbyte with hcode | hwide
  · have hnewline : c = '\n' := Char.ext (UInt32.toNat_inj.mp hcode.symm)
    exact h (hnewline ▸ hc)
  · exact absurd hwide (by decide)

theorem take_unread (whole : List Char) (n : ℕ) (hlen : whole.length = n)
    (h : ∀ k < n, read (whole.take k) = none) (text rest : List Char) (heq : whole = text++rest)
    (hrest : rest ≠ []) : read text = none := by
  have hlt : text.length < n := by
    have hsum := congrArg List.length heq
    have hpos := List.length_pos_iff.mpr hrest
    rw [List.length_append] at hsum
    omega
  have htake : text = whole.take text.length := by rw [heq, List.take_left]
  rw [htake]
  exact h _ hlt

section
variable {α : Type} (encode : α → Json) (decode : Json → Option α)

theorem onLine_json (h : ∀ a, decode (encode a) = some a)
    (hcut : ∀ a text rest, toText (encode a) = text++rest → rest ≠ [] → read text = none) :
    OnLine (fun a => utf8 (toText (encode a))) (ofBytes decode) where
  newline a := newline_utf8 _ (newline_print 0 (encode a))
  bare a := ofBytes_toText decode encode h a
  line a := by
    have hline : utf8 (toText (encode a)) ++ [10] = utf8 (toText (encode a) ++ ['\n']) := by
      rw [utf8_append]
      rfl
    rw [hline, ofBytes, readBytes_utf8]
    exact ofText_toText decode encode h a ['\n'] (by simp [blank])
  cut a count hcount := by
    have hnone : readBytes ((utf8 (toText (encode a))).take count) = none := by
      refine readBytes_cut _ _ _ (hcut a) (List.take_append_drop count _).symm ?_
      intro hnil
      have := List.drop_eq_nil_iff.mp hnil
      omega
    rw [ofBytes, hnone]
    rfl

end

theorem request_cut (r : Request) (text rest : List Char) (heq : toText r.encode = text++rest)
    (hrest : rest ≠ []) : read text = none := by
  have hobj (fs : List (String × Json)) (heq : toText (.obj fs) = text++rest) :
      read text = none :=
    read_obj_cut compact compact_blank 0 fs text rest heq hrest
  cases r with
  | list => exact take_unread _ 6 rfl (by intro k hk; interval_cases k <;> rfl) text rest heq hrest
  | key => exact take_unread _ 5 rfl (by intro k hk; interval_cases k <;> rfl) text rest heq hrest
  | _ => exact hobj _ heq

theorem response_cut (r : Response) (text rest : List Char) (heq : toText r.encode = text++rest)
    (hrest : rest ≠ []) : read text = none := by
  have hobj (fs : List (String × Json)) (heq : toText (.obj fs) = text++rest) :
      read text = none :=
    read_obj_cut compact compact_blank 0 fs text rest heq hrest
  cases r with
  | ok => exact take_unread _ 4 rfl (by intro k hk; interval_cases k <;> rfl) text rest heq hrest
  | _ => exact hobj _ heq

def jsonCodec : Codec where
  request r := utf8 (toText r.encode)
  readRequest := ofBytes Request.decode
  response r := utf8 (toText r.encode)
  readResponse := ofBytes Response.decode
  pretty info := toPretty info.encode

theorem jsonCodec_documented : jsonCodec.Documented where
  requests := onLine_json _ _ request_decode request_cut
  responses := onLine_json _ _ response_decode response_cut
  empty := rfl

def keyOnly : Handling Unit Request Unit Unit where
  start r := r
  advance s r _ := (s, if r = .key then .inr (.key Restart.deskKey) else .inl r)
  other s _ := s

def askedForKey : List (Input Unit Unit) :=
  [.connect 0 .installer, .connect 1 (.cli .key), .write 0 7, .read 0, .write 1 6, .advance 0 (),
    .read 1, .advance 1 (), .timeout 0, .finish 1 1000]

def keyAsked : System Unit Request Unit Unit :=
  run (step (fun _ => "") jsonCodec keyOnly) (start ()) askedForKey

theorem key_shown : Exchanged (fun _ => "") jsonCodec keyOnly () keyAsked ∧
    (keyAsked.clients 0).bind Client.ended = some (.timeout, .failed) ∧
    (keyAsked.clients 1).bind Client.ended =
      some (.answer 1000, .printed (Restart.deskKey.toList ++ ['\n'])) :=
  ⟨exchanges_are_ones_own _ jsonCodec jsonCodec_documented keyOnly () askedForKey,
    by decide +kernel, by decide +kernel⟩

end PaiSho.ControlSocket
