import PaiSho.Invitations
import PaiSho.PinnedPeers
import PaiSho.Restart

/-!
# Requests that authorize

`handle_request` for the four requests that let a key in or grant it a port.
References to grantees are resolved before anything is granted, and a handle
before anyone is dialed. An invitation addressed to a key registers it first and
files the pin after that, so it is the one request that can fail halfway.
-/

set_option autoImplicit false

namespace PaiSho.ControlRequests
open Std (ExtTreeMap)
open GrantTable SessionCore RecordFiles PinnedPeers Invitations
open Library.OrderedMaps

inductive Request where
  | invite (key : Option String) (name : Option String) (expose : List Port)
  | accept (handle : String) (name : Option String)
  | expose (port : Port) (refs : List String) (all : Bool)
  | unexpose (port : Port) (ref : Option String)

/-- What a request draws on besides the daemon: the random bytes of a code, the
clock, and the outcome of its file access. -/
structure Env where
  bytes : Vector UInt8 32
  now : ℕ
  io : Io := {}

section
variable {K : Type} [LinearOrder K] (parse : String → Option K)

/-- A key is taken as it is, admitted or not; anything else must be the label of
exactly one admitted peer. -/
def resolveGrantee (s : Session K) (ref : String) : Except String K :=
  match parse ref with
  | some key => .ok key
  | none =>
    match (s.peers.toList.filter (fun entry => entry.2.label = some ref)).map Prod.fst with
    | [key] => .ok key
    | _::_::_ => .error ("more than one peer is named " ++ ref ++ ", use its key")
    | [] => .error ("no peer key or name matches " ++ ref)

def resolveGrantees (s : Session K) : List String → Except String (List K)
  | [] => .ok []
  | ref::refs =>
    match resolveGrantee parse s ref with
    | .error e => .error e
    | .ok key => (resolveGrantees s refs).map (key :: ·)

/-- The grantees of an `expose`: every peer of the moment, or those named. -/
def grantees (s : Session K) (refs : List String) (all : Bool) : Except String (List K) :=
  if all then
    if s.peerKeys.isEmpty then .error "no peers to grant to" else .ok s.peerKeys
  else resolveGrantees parse s refs

def unexpose (d : Daemon K) (port : Port) (grantee : Option K) : Daemon K :=
  { d with session := (d.session.unexpose port grantee).1 }

def accept (d : Daemon K) (handle : String) (name : Option String) : Daemon K × Answer :=
  match Handle.fromStr parse handle with
  | .error e => (d, .error e)
  | .ok handle => d.accept handle.key name

def handleRequest (d : Daemon K) (env : Env) : Request → Daemon K × Answer
  | .invite key name expose => d.invite parse key name expose env.bytes env.now env.io
  | .accept handle name => accept parse d handle name
  | .expose port refs all =>
    match grantees parse d.session refs all with
    | .error e => (d, .error e)
    | .ok keys => (d.expose port keys, .ok)
  | .unexpose port ref =>
    match ref.map (resolveGrantee parse d.session) with
    | none => (unexpose d port none, .ok)
    | some (.error e) => (d, .error e)
    | some (.ok key) => (unexpose d port (some key), .ok)

/-- An error leaves the core, the table and the pin file as they were. -/
def Harmless (d : Daemon K) (out : Daemon K × Answer) : Prop := ∀ e, out.2 = .error e → out.1 = d

def Filed (p : Pins) (io : Io) : Prop := (∃ pins, p.load io.read = .ok pins) ∧ io.write = .done

def Torn (p : Pins) (io : Io) : Prop :=
  (∃ pins, p.load io.read = .ok pins) ∧ io.write = .torn ∧ p.content ≠ .garbled

/-- The pin of an invitation can be filed; or the key is in the table already
and the write does not tear the file. -/
def Settles (d : Daemon K) (env : Env) : Request → Prop
  | .invite (some key) _ _ => ∀ id, parse key = some id →
      Filed d.pins env.io ∨ (id ∈ d.peers ∧ ¬ Torn d.pins env.io)
  | _ => True

inductive PinOutcome (p : Pins) (io : Io) (out : Pins × Except String Unit) : Prop where
  | filed (hfiled : Filed p io) (hok : out.2 = .ok ())
  | torn (htorn : Torn p io) (hfiled : ¬ Filed p io) (e : String) (herror : out.2 = .error e)
      (hne : out.1 ≠ p)
  | kept (hfiled : ¬ Filed p io) (htorn : ¬ Torn p io) (e : String) (herror : out.2 = .error e)
      (heq : out.1 = p)

theorem add_outcome (p : Pins) (key : String) (label : Option String) (io : Io) :
    PinOutcome p io (p.add key label io) := by
  have hout := update_outcome p
    (fun pins => pins.filter (fun pin => pin.key ≠ key) ++ [⟨key, label⟩]) io
  unfold Pins.add
  generalize p.update _ io = out at hout ⊢
  cases hout with
  | filed pins hread hwrite => exact .filed ⟨⟨pins, hread⟩, hwrite⟩ rfl
  | torn pins hread hwrite e =>
    have hfiled : ¬ Filed p io := fun h => by cases hwrite.symm.trans h.2
    by_cases hgarbled : p.content = .garbled
    · refine .kept hfiled (fun h => h.2.2 hgarbled) e rfl ?_
      cases p
      cases hgarbled
      rfl
    · refine .torn ⟨⟨pins, hread⟩, hwrite, hgarbled⟩ hfiled e rfl fun heq => hgarbled ?_
      rw [← heq]
  | kept hnot e =>
    refine .kept ?_ ?_ e rfl rfl
    · rintro ⟨⟨pins, hread⟩, hwrite⟩
      exact (hnot pins hread).1 hwrite
    · rintro ⟨⟨pins, hread⟩, hwrite, -⟩
      exact (hnot pins hread).2 hwrite

theorem invite_harmless (d : Daemon K) (key : String) (name : Option String) (expose : List Port)
    (env : Env) (id : K) (hid : parse key = some id) :
    Harmless d (d.invite parse (some key) name expose env.bytes env.now env.io) ↔
      Filed d.pins env.io ∨ (id ∈ d.peers ∧ ¬ Torn d.pins env.io) := by
  obtain ⟨d', hadd, hpins, -, hmem⟩ := Restart.addPinned_some parse d key name id hid
  have hsame : id ∈ d.peers → d' = d := by
    intro hin
    have hcontains : d.peers.contains id = true := ExtTreeMap.contains_iff_mem.mpr hin
    simp only [Daemon.addPinned, hid, hcontains, ↓reduceIte] at hadd
    exact (Except.ok.inj hadd).symm
  have hout := add_outcome d.pins key name env.io
  cases hfile : (d.pins.add key name env.io).2 with
  | ok u =>
    have hok : (d.invite parse (some key) name expose env.bytes env.now env.io).2 = .ok := by
      simp only [Daemon.invite, Daemon.pinPeer, hadd, hpins, hfile, hid]
    cases hout with
    | filed hfiled _ =>
      constructor
      · intro _
        exact Or.inl hfiled
      · intro _ e he
        cases hok.symm.trans he
    | torn _ _ e herror => cases hfile.symm.trans herror
    | kept _ _ e herror => cases hfile.symm.trans herror
  | error e =>
    have hinvite : d.invite parse (some key) name expose env.bytes env.now env.io =
        ({ d' with pins := (d.pins.add key name env.io).1 }, .error e) := by
      simp only [Daemon.invite, Daemon.pinPeer, hadd, hpins, hfile]
    have hharmless : Harmless d (d.invite parse (some key) name expose env.bytes env.now env.io) ↔
        { d' with pins := (d.pins.add key name env.io).1 } = d := by
      rw [hinvite]
      simp [Harmless]
    rw [hharmless]
    cases hout with
    | filed _ hok => cases hfile.symm.trans hok
    | torn htorn hdone _ _ hne =>
      constructor
      · intro heq
        exact absurd (congrArg Daemon.pins heq) hne
      · rintro (hfiled | ⟨-, hnot⟩)
        · exact absurd hfiled hdone
        · exact absurd htorn hnot
    | kept hdone htorn _ _ heq =>
      have hkept : ({ d' with pins := (d.pins.add key name env.io).1 } : Daemon K) = d' := by
        rw [heq, ← hpins]
      rw [hkept]
      constructor
      · intro hd
        refine Or.inr ⟨?_, htorn⟩
        rw [← hd, hmem]
        exact Or.inl rfl
      · rintro (hfiled | ⟨hin, -⟩)
        · exact absurd hfiled hdone
        · exact hsame hin

theorem accept_harmless (d : Daemon K) (handle : String) (name : Option String) :
    Harmless d (accept parse d handle name) := by
  intro e he
  unfold accept at he ⊢
  cases hparse : Handle.fromStr parse handle with
  | error text => rfl
  | ok handle =>
    simp only [hparse, Daemon.accept] at he ⊢
    split_ifs at he ⊢
    rfl

theorem resolveGrantees_error (s : Session K) (refs : List String) (ref : String) (e : String)
    (hin : ref ∈ refs) (herror : resolveGrantee parse s ref = .error e) :
    ∃ e', resolveGrantees parse s refs = .error e' := by
  induction refs with
  | nil => cases hin
  | cons first refs ih =>
    rw [resolveGrantees]
    cases hfirst : resolveGrantee parse s first with
    | error e' => exact ⟨e', rfl⟩
    | ok key =>
      rcases List.mem_cons.mp hin with rfl | hin
      · cases hfirst.symm.trans herror
      · obtain ⟨e', he'⟩ := ih hin
        exact ⟨e', by rw [he']; rfl⟩

/-- A refused request changes nothing, except for an invitation to a key whose
pin cannot be filed; and an `expose` with one reference that cannot be resolved
grants to nobody. -/
theorem refusal_harmless_iff (d : Daemon K) (env : Env) :
    (∀ req, Harmless d (handleRequest parse d env req) ↔ Settles parse d env req) ∧
      ∀ port refs ref e, ref ∈ refs → resolveGrantee parse d.session ref = .error e →
        ∃ e', handleRequest parse d env (.expose port refs false) = (d, .error e') := by
  constructor
  · intro req
    cases req with
    | invite key name expose =>
      cases key with
      | none => simp [Harmless, Settles, handleRequest, Daemon.invite]
      | some key =>
        cases hid : parse key with
        | none =>
          simp [Harmless, Settles, handleRequest, Daemon.invite, Daemon.pinPeer, Daemon.addPinned,
            hid]
        | some id =>
          have hinvite := invite_harmless parse d key name expose env id hid
          rw [handleRequest, hinvite, Settles]
          simp [hid]
    | accept handle name =>
      simp only [Settles, iff_true]
      exact accept_harmless parse d handle name
    | expose port refs all =>
      simp only [Settles, iff_true, handleRequest]
      cases grantees parse d.session refs all <;> simp [Harmless]
    | unexpose port ref =>
      simp only [Settles, iff_true, handleRequest]
      cases ref with
      | none => simp [Harmless]
      | some ref =>
        rw [Option.map_some]
        cases resolveGrantee parse d.session ref <;> simp [Harmless]
  · intro port refs ref e hin herror
    obtain ⟨e', he'⟩ := resolveGrantees_error parse d.session refs ref e hin herror
    exact ⟨e', by simp [handleRequest, grantees, he']⟩

end

def unwritable : Env := ⟨Vector.replicate 32 0, 0, { write := .refused }⟩

theorem refused_invite_registers :
    (handleRequest Restart.parseKey (Daemon.new "peers.json" ".") unwritable
      (.invite (some Restart.deskKey) none [])).2 = .error "failed to write peers.json" ∧
    (handleRequest Restart.parseKey (Daemon.new "peers.json" ".") unwritable
      (.invite (some Restart.deskKey) none [])).1.session.peers.contains false = true ∧
    ¬ Harmless (Daemon.new "peers.json" "." : Daemon Bool)
      (handleRequest Restart.parseKey (Daemon.new "peers.json" ".") unwritable
        (.invite (some Restart.deskKey) none [])) := by
  have herror : (handleRequest Restart.parseKey (Daemon.new "peers.json" ".") unwritable
      (.invite (some Restart.deskKey) none [])).2 = .error "failed to write peers.json" := rfl
  refine ⟨herror, by decide +kernel, fun h => ?_⟩
  have hsame := congrArg (fun d => d.peers.contains false) (h _ herror)
  revert hsame
  decide +kernel

end PaiSho.ControlRequests
