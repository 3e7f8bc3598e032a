import PaiSho.PinnedPeers

/-!
# What a restart remembers

A pin is filed under the text its key was typed as when an invitation is
addressed to the key, and under the key's own text when a code is claimed. It
is removed only under the key's own text, and a removal that fails is only
logged. When keys are typed as they print and removals go through, the file
after a restart agrees with the last request about each key.
-/

set_option autoImplicit false

namespace PaiSho.Restart
open Std (ExtTreeMap)
open PaiSho.GrantTable PaiSho.Enrollment PaiSho.SessionCore PaiSho.SessionSteps
open PaiSho.RecordFiles PaiSho.PinnedPeers Library.OrderedMaps Library.Traces

section
variable {K : Type} [LinearOrder K] (parse : String → Option K) (display : K → String)

def Synced (d : Daemon K) : Prop := ∀ k, k ∈ d.peers ↔ k ∈ d.session.peers

def Canonical (k : K) (d : Daemon K) : Prop :=
  ∀ pin ∈ recordsOf d.pins.content, parse pin.key = some k → pin.key = display k

def Unpinned (k : K) (d : Daemon K) : Prop :=
  ∀ pin ∈ recordsOf d.pins.content, parse pin.key ≠ some k

def pinsFor (k : K) (d : Daemon K) : List Pin :=
  (recordsOf d.pins.content).filter (fun pin => parse pin.key = some k)

def PinnedOnce (k : K) (d : Daemon K) : Prop :=
  d.pins.content = .garbled ∨ (pinsFor parse k d).length = 1

def AsPrinted (k : K) : Request K → Prop
  | .invite (some text) _ _ _ _ _ => parse text = some k → text = display k
  | _ => True

def Sees : Request K → Prop
  | .invite _ _ _ _ _ io => io.read ≠ .unseen
  | .forget _ _ io => io.read ≠ .unseen
  | .message _ _ _ _ io => io.read ≠ .unseen
  | _ => True

def isForget : Request K → Bool
  | .forget _ _ _ => true
  | _ => false

def Carried : Request K → Prop
  | .forget _ _ io => io.read ≠ .refused ∧ io.write = .done
  | _ => True

theorem mem_admitKnown (s : Session K) (key k : K) (label : Option String) (admission : Admission) :
    k ∈ (s.admitKnown key label admission).1.peers ↔ k = key ∨ k ∈ s.peers := by
  have h := step_peers s (.admitKnown key label admission) k
  simp only [SessionCore.step, recordAfter] at h
  rw [ExtTreeMap.mem_iff_isSome_getElem?, ExtTreeMap.mem_iff_isSome_getElem?, h]
  by_cases hk : k = key
  · subst hk
    cases s.peers[k]? <;> simp
  · simp [hk]

theorem mem_evict (s : Session K) (key k : K) :
    k ∈ (s.evict key).1.peers ↔ k ≠ key ∧ k ∈ s.peers := by
  have h := step_peers s (.evict key) k
  simp only [SessionCore.step, recordAfter] at h
  rw [ExtTreeMap.mem_iff_isSome_getElem?, ExtTreeMap.mem_iff_isSome_getElem?, h]
  by_cases hk : k = key <;> simp [hk]

theorem claim_none (s : Session K) (conn : ConnId) (remote : K) (msg : PeerMessage) (now : ℕ)
    (h : claimBy s (.onUnadmitted conn remote msg now) = none) :
    (s.onUnadmitted conn remote msg now).2.any admits = false := by
  cases msg with
  | enroll token version =>
    have hc : (s.tokens.claim token now).2 = none := by simpa [claimBy] using h
    rw [onUnadmitted_refused s conn remote token version now hc]
    rfl
  | exposedPorts ports =>
    simp only [Session.onUnadmitted]
    cases s.pending[conn]? <;> rfl
  | connect port => rfl
  | error text => rfl

theorem claim_some (s : Session K) (conn : ConnId) (remote k : K) (msg : PeerMessage) (now : ℕ)
    (c : Claimed) (h : claimBy s (.onUnadmitted conn remote msg now) = some (k, c)) :
    k = remote ∧ (s.onUnadmitted conn remote msg now).2.any admits = true ∧
      (∀ j, j ∈ (s.onUnadmitted conn remote msg now).1.peers ↔ j = remote ∨ j ∈ s.peers) ∧
      ∀ io pins, applyPins display io pins (s.onUnadmitted conn remote msg now).2 =
        pins.add (display remote) c.name io := by
  cases msg with
  | enroll token version =>
    simp only [claimBy, Option.map_eq_some_iff, Prod.mk.injEq] at h
    obtain ⟨c', hc, rfl, rfl⟩ := h
    rw [onUnadmitted_claimed s conn remote token version now c' hc]
    refine ⟨rfl, rfl, fun j => ?_, fun io pins => ?_⟩
    · simp only [Session.enrolled, mem_map_insert]
    · by_cases he : (s.earlyPorts conn).isEmpty = true
      · simp [he, applyPins, applyPin, Session.announce]
      · simp [he, applyPins, applyPin, Session.announce]
  | exposedPorts ports => simp [claimBy] at h
  | connect port => simp [claimBy] at h
  | error text => simp [claimBy] at h

theorem synced_register (d : Daemon K) (key : K) (name : Option String) (admission : Admission)
    (h : Synced d) : Synced (d.register key name admission) := by
  intro k
  simp only [Daemon.register, mem_map_insert, mem_admitKnown]
  rw [h k]

theorem addPinned_some (d : Daemon K) (key : String) (name : Option String) (id : K)
    (h : parse key = some id) : ∃ d', d.addPinned parse key name = .ok d' ∧ d'.pins = d.pins ∧
      (Synced d → Synced d') ∧ ∀ k, k ∈ d'.peers ↔ k = id ∨ k ∈ d.peers := by
  simp only [Daemon.addPinned, h]
  by_cases hin : d.peers.contains id = true
  · refine ⟨d, by simp [hin], rfl, fun hs => hs, fun k => ⟨Or.inr, ?_⟩⟩
    rintro (rfl | hk)
    · exact hin
    · exact hk
  · refine ⟨d.register id name .key, by simp [hin], rfl, synced_register d id name .key, ?_⟩
    exact fun k => mem_map_insert d.peers id k name

theorem expose_fold (grantee : K) (ports : List Port) (d : Daemon K) :
    (ports.foldl (fun d port => d.expose port [grantee]) d).pins = d.pins ∧
      (ports.foldl (fun d port => d.expose port [grantee]) d).peers = d.peers ∧
      (ports.foldl (fun d port => d.expose port [grantee]) d).session.peers = d.session.peers := by
  induction ports generalizing d with
  | nil => exact ⟨rfl, rfl, rfl⟩
  | cons port ports ih =>
    obtain ⟨h1, h2, h3⟩ := ih (d.expose port [grantee])
    exact ⟨h1, h2, h3⟩

theorem invite_some (d : Daemon K) (key : String) (name : Option String) (expose : List Port)
    (bytes : Vector UInt8 32) (now : ℕ) (io : Io) (id : K) (h : parse key = some id) :
    (d.invite parse (some key) name expose bytes now io).1.pins = (d.pins.add key name io).1 ∧
      ((d.invite parse (some key) name expose bytes now io).2 = .ok →
        (d.pins.add key name io).2 = .ok ()) ∧
      (Synced d → Synced (d.invite parse (some key) name expose bytes now io).1) := by
  obtain ⟨d', hd, hpins, hsync, -⟩ := addPinned_some parse d key name id h
  simp only [Daemon.invite, Daemon.pinPeer, hd, hpins, h]
  cases hadd : (d.pins.add key name io).2 with
  | error e => exact ⟨rfl, by simp, hsync⟩
  | ok u =>
    obtain ⟨h1, h2, h3⟩ := expose_fold id expose { d' with pins := (d.pins.add key name io).1 }
    refine ⟨h1, fun _ => rfl, fun hs k => ?_⟩
    rw [h2, h3]
    exact hsync hs k

/-- The pins a change of the file was made from. A file that cannot be seen is
an empty list. -/
structure Found (req : Request K) (before : Content Pin) (found : List Pin) : Prop where
  sub : ∀ pin ∈ found, pin ∈ recordsOf before
  seen : Sees req → before ≠ .garbled ∧ found = recordsOf before

/-- What a request about `key` can do to the pin file. -/
inductive FileChange (req : Request K) (key : Option K) (before after : Content Pin) : Prop
  | kept (h : after = before)
  | lost (h : after = .garbled)
  | added (found : List Pin) (text : String) (label : Option String) (k : K)
      (hfound : Found req before found) (hkey : key = some k) (hparse : parse text = some k)
      (htext : AsPrinted parse display k req → text = display k)
      (h : after = .records (found.filter (fun pin => pin.key ≠ text) ++ [⟨text, label⟩]))
  | removed (found : List Pin) (k : K) (hfound : Found req before found) (hkey : key = some k)
      (h : after = .records (found.filter (fun pin => pin.key ≠ display k)))

omit [LinearOrder K] in
theorem found_load (req : Request K) (pins : Pins) (read : Read) (found : List Pin)
    (hsees : Sees req → read ≠ .unseen) (h : pins.load read = .ok found) :
    Found req pins.content found :=
  ⟨load_records pins read found h, fun hreq => load_seen pins read found (hsees hreq) h⟩

omit [LinearOrder K] in
theorem change_add (req : Request K) (key : Option K) (pins : Pins) (text : String)
    (label : Option String) (k : K) (io : Io) (hsees : Sees req → io.read ≠ .unseen)
    (hkey : key = some k) (hparse : parse text = some k)
    (htext : AsPrinted parse display k req → text = display k) :
    FileChange parse display req key pins.content (pins.add text label io).1.content := by
  have hout := update_outcome pins
    (fun pins => pins.filter (fun pin => pin.key ≠ text) ++ [⟨text, label⟩]) io
  unfold Pins.add
  generalize pins.update _ io = out at hout ⊢
  cases hout with
  | filed found hread =>
    exact .added found text label k (found_load req pins io.read found hsees hread) hkey hparse
      htext rfl
  | torn => exact .lost rfl
  | kept => exact .kept rfl

theorem evict_pins (d : Daemon K) (hs : Synced d) (key : K) (io : Io)
    (hin : d.peers.contains key = true) :
    (d.evict display key io).pins = (d.pins.remove (display key) io).1 := by
  have hmem : key ∈ d.session.peers := (hs key).mp hin
  obtain ⟨a, ha⟩ : ∃ a, d.session.peers[key]? = some a :=
    Option.isSome_iff_exists.mp (ExtTreeMap.mem_iff_isSome_getElem?.mp hmem)
  simp [Daemon.evict, Session.evict, ha, applyPins, applyPin]

theorem synced_evict (d : Daemon K) (hs : Synced d) (key : K) (io : Io) :
    Synced (d.evict display key io) := by
  intro k
  simp only [Daemon.evict, mem_map_erase, mem_evict]
  rw [hs k]

theorem load_fold (pins : List Pin) (d : Daemon K) :
    (pins.foldl (loadPin parse) d).pins = d.pins ∧
      (Synced d → Synced (pins.foldl (loadPin parse) d)) ∧
      ∀ k, k ∈ (pins.foldl (loadPin parse) d).peers ↔
        (∃ pin ∈ pins, parse pin.key = some k) ∨ k ∈ d.peers := by
  induction pins generalizing d with
  | nil => exact ⟨rfl, id, fun k => by simp⟩
  | cons pin pins ih =>
    obtain ⟨hpins, hsync, hmem⟩ := ih (loadPin parse d pin)
    simp only [List.foldl_cons, hmem, List.mem_cons, exists_eq_or_imp]
    cases hp : parse pin.key with
    | none =>
      have hsame : loadPin parse d pin = d := by simp [loadPin, Daemon.addPinned, hp]
      rw [hsame] at hpins hsync ⊢
      exact ⟨hpins, hsync, fun k => by simp⟩
    | some id =>
      obtain ⟨d', hd, hpins', hsync', hmem'⟩ := addPinned_some parse d pin.key pin.label id hp
      have hload : loadPin parse d pin = d' := by simp [loadPin, hd]
      rw [hload] at hpins hsync ⊢
      refine ⟨hpins.trans hpins', fun hs => hsync (hsync' hs), fun k => ?_⟩
      rw [hmem' k, Option.some.injEq, @eq_comm _ id k, or_left_comm, or_assoc]

theorem restart_admits (pins : Pins) (read : Read) (d : Daemon K)
    (h : Daemon.withEndpoint parse pins read = .ok d) :
    d.pins = pins ∧ Synced d ∧ ∃ pinned, pins.load read = .ok pinned ∧
      ∀ k, k ∈ d.session.peers ↔ ∃ pin ∈ pinned, parse pin.key = some k := by
  simp only [Daemon.withEndpoint] at h
  cases hl : pins.load read with
  | error e => simp [hl] at h
  | ok pinned =>
    simp only [hl, Except.ok.injEq] at h
    obtain ⟨hpins, hsync, hmem⟩ := load_fold parse pinned ⟨Session.new, ∅, pins⟩
    rw [h] at hpins hsync hmem
    have hs : Synced d := hsync (fun k => by simp [Session.new])
    refine ⟨hpins, hs, pinned, rfl, fun k => ?_⟩
    rw [← hs k, hmem k]
    simp

theorem forget_change (d d' : Daemon K) (hs : Synced d) (ref : String) (visit : List K) (io : Io)
    (answer : Answer) (h : d.removePeer parse display ref visit io = (d', answer)) :
    FileChange parse display (.forget ref visit io) (d.resolvePeer parse ref visit)
      d.pins.content d'.pins.content ∧ Synced d' := by
  simp only [Daemon.removePeer] at h
  split at h
  · obtain ⟨rfl, -⟩ := Prod.mk.inj h
    exact ⟨.kept rfl, hs⟩
  · rename_i key hkey
    split_ifs at h with hin
    · obtain ⟨rfl, -⟩ := Prod.mk.inj h
      refine ⟨?_, synced_evict display d hs key io⟩
      rw [evict_pins display d hs key io hin]
      have hout := update_outcome d.pins
        (fun pins => pins.filter (fun pin => pin.key ≠ display key)) io
      unfold Pins.remove
      generalize d.pins.update _ io = out at hout ⊢
      cases hout with
      | filed found hread =>
        exact .removed found key (found_load _ d.pins io.read found id hread) hkey rfl
      | torn => exact .lost rfl
      | kept => exact .kept rfl
    · obtain ⟨rfl, -⟩ := Prod.mk.inj h
      exact ⟨.kept rfl, hs⟩

theorem message_change (hparse : ∀ k, parse (display k) = some k) (d d' : Daemon K)
    (hs : Synced d) (conn : ConnId) (remote : K) (msg : PeerMessage) (now : ℕ) (io : Io)
    (answer : Answer) (h : d.handleMessage display conn remote msg now io = (d', answer)) :
    FileChange parse display (.message conn remote msg now io)
      ((claimBy d.session (.onUnadmitted conn remote msg now)).map Prod.fst)
      d.pins.content d'.pins.content ∧ Synced d' := by
  cases hc : claimBy d.session (.onUnadmitted conn remote msg now) with
  | none =>
    have hany := claim_none d.session conn remote msg now hc
    have hpeers := (onUnadmitted_frame d.session conn remote msg now hc).1
    simp only [Daemon.handleMessage, hany, Bool.false_eq_true, if_false] at h
    obtain ⟨rfl, -⟩ := Prod.mk.inj h
    refine ⟨.kept rfl, fun k => ?_⟩
    rw [hpeers]
    exact hs k
  | some rc =>
    obtain ⟨k, c⟩ := rc
    obtain ⟨rfl, hany, hpeers, happly⟩ := claim_some display d.session conn remote k msg now c hc
    simp only [Daemon.handleMessage, hany, if_true, happly] at h
    obtain ⟨rfl, -⟩ := Prod.mk.inj h
    refine ⟨?_, fun j => ?_⟩
    · exact change_add parse display _ _ d.pins (display k) c.name k io id rfl (hparse k)
        (fun _ => rfl)
    · rw [mem_map_insert, hpeers j, hs j]

inductive Handled (d : Daemon K) : Request K → Daemon K → Prop where
  | invite (key : Option String) (name : Option String) (expose : List Port)
      (bytes : Vector UInt8 32) (now : ℕ) (io : Io) :
      Handled d (.invite key name expose bytes now io)
        (d.invite parse key name expose bytes now io).1
  | accept (key : K) (name : Option String) : Handled d (.accept key name) (d.accept key name).1
  | forget (ref : String) (visit : List K) (io : Io) :
      Handled d (.forget ref visit io) (d.removePeer parse display ref visit io).1
  | inbound (conn : ConnId) (remote : K) : Handled d (.inbound conn remote)
      { d with session := (d.session.onInbound conn remote).1 }
  | message (conn : ConnId) (remote : K) (msg : PeerMessage) (now : ℕ) (io : Io) :
      Handled d (.message conn remote msg now io)
        (d.handleMessage display conn remote msg now io).1
  | timeout (conn : ConnId) : Handled d (.timeout conn)
      { d with session := (d.session.onEnrollTimeout conn).1 }
  | restart (read : Read) (fresh : Daemon K)
      (hup : Daemon.withEndpoint parse d.pins read = .ok fresh) :
      Handled d (.restart read) fresh

theorem handled_next (d d' : Daemon K) (req : Request K)
    (h : next parse display d req = some d') : Handled parse display d req d' := by
  cases req with
  | invite key name expose bytes now io =>
    obtain rfl := Option.some.inj h
    exact .invite key name expose bytes now io
  | accept key name =>
    obtain rfl := Option.some.inj h
    exact .accept key name
  | forget ref visit io =>
    obtain rfl := Option.some.inj h
    exact .forget ref visit io
  | inbound conn remote =>
    obtain rfl := Option.some.inj h
    exact .inbound conn remote
  | message conn remote msg now io =>
    obtain rfl := Option.some.inj h
    exact .message conn remote msg now io
  | timeout conn =>
    obtain rfl := Option.some.inj h
    exact .timeout conn
  | restart read =>
    simp only [next, PinnedPeers.step] at h
    split at h
    · rename_i fresh hup
      obtain rfl := Option.some.inj h
      exact .restart read fresh hup
    · cases h

theorem step_change (hparse : ∀ k, parse (display k) = some k) (d d' : Daemon K) (hs : Synced d)
    (req : Request K) (answer : Answer) (h : step parse display d req = some (d', answer)) :
    FileChange parse display req (concerns parse d req) d.pins.content d'.pins.content ∧
      Synced d' := by
  cases req with
  | invite key name expose bytes now io =>
    cases key with
    | none =>
      obtain ⟨rfl, -⟩ := Prod.mk.inj (Option.some.inj h)
      exact ⟨.kept rfl, hs⟩
    | some key =>
      have hinvite : d.invite parse (some key) name expose bytes now io = (d', answer) :=
        Option.some.inj h
      cases hp : parse key with
      | none =>
        simp only [Daemon.invite, Daemon.pinPeer, Daemon.addPinned, hp] at hinvite
        obtain ⟨rfl, -⟩ := Prod.mk.inj hinvite
        exact ⟨.kept rfl, hs⟩
      | some id =>
        obtain ⟨hpins, -, hsync⟩ := invite_some parse d key name expose bytes now io id hp
        rw [hinvite] at hpins hsync
        rw [show d'.pins = _ from hpins]
        exact ⟨change_add parse display _ _ d.pins key name id io (fun hsees => hsees) hp hp
          (fun ht => ht hp), hsync hs⟩
  | accept key name =>
    simp only [PinnedPeers.step, Daemon.accept] at h
    split_ifs at h
    · obtain ⟨rfl, -⟩ := Prod.mk.inj (Option.some.inj h)
      exact ⟨.kept rfl, hs⟩
    · obtain ⟨rfl, -⟩ := Prod.mk.inj (Option.some.inj h)
      exact ⟨.kept rfl, synced_register d key name .added hs⟩
  | forget ref visit io =>
    exact forget_change parse display d d' hs ref visit io answer (Option.some.inj h)
  | inbound conn remote =>
    obtain ⟨rfl, -⟩ := Prod.mk.inj (Option.some.inj h)
    refine ⟨.kept rfl, fun k => (hs k).trans ?_⟩
    unfold Session.onInbound
    split_ifs <;> rfl
  | message conn remote msg now io =>
    exact message_change parse display hparse d d' hs conn remote msg now io answer
      (Option.some.inj h)
  | timeout conn =>
    obtain ⟨rfl, -⟩ := Prod.mk.inj (Option.some.inj h)
    refine ⟨.kept rfl, fun k => (hs k).trans ?_⟩
    unfold Session.onEnrollTimeout
    cases d.session.pending[conn]? <;> rfl
  | restart read =>
    simp only [PinnedPeers.step] at h
    split at h
    · rename_i d'' hup
      obtain ⟨rfl, -⟩ := Prod.mk.inj (Option.some.inj h)
      obtain ⟨hpins, hsync, -⟩ := restart_admits parse d.pins read d'' hup
      exact ⟨.kept (by rw [hpins]), hsync⟩
    · cases h

theorem canonical_change (k : K) (d d' : Daemon K) (req : Request K) (key : Option K)
    (ht : AsPrinted parse display k req) (hc : Canonical parse display k d)
    (h : FileChange parse display req key d.pins.content d'.pins.content) :
    Canonical parse display k d' := by
  intro pin hpin hk
  cases h with
  | kept h =>
    rw [h] at hpin
    exact hc pin hpin hk
  | lost h =>
    rw [h] at hpin
    cases hpin
  | added found text label j hfound hkey hparse htext h =>
    rw [h] at hpin
    rcases List.mem_append.mp hpin with hpin | hpin
    · exact hc pin (hfound.sub pin (List.mem_filter.mp hpin).1) hk
    · obtain rfl := List.mem_singleton.mp hpin
      obtain rfl : j = k := Option.some.inj (hparse.symm.trans hk)
      exact htext ht
  | removed found j hfound hkey h =>
    rw [h] at hpin
    exact hc pin (hfound.sub pin (List.mem_filter.mp hpin).1) hk

theorem unpinned_change (k : K) (d d' : Daemon K) (req : Request K) (key : Option K)
    (hne : key ≠ some k) (hu : Unpinned parse k d)
    (h : FileChange parse display req key d.pins.content d'.pins.content) :
    Unpinned parse k d' := by
  intro pin hpin hk
  cases h with
  | kept h =>
    rw [h] at hpin
    exact hu pin hpin hk
  | lost h =>
    rw [h] at hpin
    cases hpin
  | added found text label j hfound hkey hparse htext h =>
    rw [h] at hpin
    rcases List.mem_append.mp hpin with hpin | hpin
    · exact hu pin (hfound.sub pin (List.mem_filter.mp hpin).1) hk
    · obtain rfl := List.mem_singleton.mp hpin
      exact hne (hkey.trans (hparse.symm.trans hk))
  | removed found j hfound hkey h =>
    rw [h] at hpin
    exact hu pin (hfound.sub pin (List.mem_filter.mp hpin).1) hk

theorem filter_other (k : K) (pins : List Pin) (text : String) (h : parse text ≠ some k) :
    (pins.filter (fun pin => pin.key ≠ text)).filter (fun pin => parse pin.key = some k) =
      pins.filter (fun pin => parse pin.key = some k) := by
  rw [List.filter_filter]
  apply List.filter_congr
  intro pin _
  by_cases hp : parse pin.key = some k
  · have hne : pin.key ≠ text := by
      rintro rfl
      exact h hp
    simp [hp, hne]
  · simp [hp]

theorem once_change (hparse : ∀ k, parse (display k) = some k) (k : K) (d d' : Daemon K)
    (req : Request K) (key : Option K) (hsees : Sees req) (hne : key ≠ some k)
    (ho : PinnedOnce parse k d)
    (h : FileChange parse display req key d.pins.content d'.pins.content) :
    PinnedOnce parse k d' := by
  cases h with
  | kept h =>
    unfold PinnedOnce pinsFor
    rw [h]
    exact ho
  | lost h => exact Or.inl h
  | added found text label j hfound hkey htext _ h =>
    have hother : parse text ≠ some k := fun hp => hne (hkey.trans (htext.symm.trans hp))
    obtain ⟨hread, rfl⟩ := hfound.seen hsees
    have hone := ho.resolve_left hread
    right
    simp only [pinsFor, h, recordsOf_records, List.filter_append, filter_other parse k _ text hother]
    simpa [pinsFor, hother] using hone
  | removed found j hfound hkey h =>
    have hother : parse (display j) ≠ some k := fun hp => hne (hkey.trans ((hparse j).symm.trans hp))
    obtain ⟨hread, rfl⟩ := hfound.seen hsees
    have hone := ho.resolve_left hread
    right
    simp only [pinsFor, h, recordsOf_records, filter_other parse k _ (display j) hother]
    exact hone

theorem once_added (k : K) (d d' : Daemon K) (hparse : parse (display k) = some k)
    (hc : Canonical parse display k d) (found : List Pin)
    (hsub : ∀ pin ∈ found, pin ∈ recordsOf d.pins.content) (label : Option String)
    (h : d'.pins.content =
      .records (found.filter (fun pin => pin.key ≠ display k) ++ [⟨display k, label⟩])) :
    PinnedOnce parse k d' := by
  have hnone : (found.filter (fun pin => pin.key ≠ display k)).filter
      (fun pin => parse pin.key = some k) = [] := by
    rw [List.filter_eq_nil_iff]
    intro pin hpin hk
    obtain ⟨hin, hne⟩ := List.mem_filter.mp hpin
    exact (of_decide_eq_true hne) (hc pin (hsub pin hin) (of_decide_eq_true hk))
  right
  simp only [pinsFor, h, recordsOf_records, List.filter_append, hnone]
  simp [hparse]

theorem forget_unpins (k : K) (d d' : Daemon K) (hs : Synced d) (hc : Canonical parse display k d)
    (ref : String) (visit : List K) (io : Io) (hio : io.read ≠ .refused ∧ io.write = .done)
    (hk : d.resolvePeer parse ref visit = some k)
    (h : d.removePeer parse display ref visit io = (d', .ok)) : Unpinned parse k d' := by
  simp only [Daemon.removePeer, hk] at h
  split_ifs at h with hin
  · obtain ⟨rfl, -⟩ := Prod.mk.inj h
    intro pin hpin hpk
    rw [evict_pins display d hs k io hin] at hpin
    have hout := update_outcome d.pins
      (fun pins => pins.filter (fun pin => pin.key ≠ display k)) io
    unfold Pins.remove at hpin
    generalize d.pins.update _ io = out at hpin hout
    cases hout with
    | filed found hread =>
      obtain ⟨hold, hne⟩ := List.mem_filter.mp hpin
      exact (of_decide_eq_true hne) (hc pin (load_records d.pins io.read found hread pin hold) hpk)
    | torn => cases hpin
    | kept hnot =>
      -- the file could be read and written, so it had nothing to read
      rw [load_refused d.pins io.read hio.1 (fun found hread => (hnot found hread).1 hio.2)] at hpin
      cases hpin
  · simp at h

theorem added_ok (p : Pins) (text : String) (label : Option String) (io : Io)
    (h : (p.add text label io).2 = .ok ()) :
    ∃ found : List Pin, (∀ pin ∈ found, pin ∈ recordsOf p.content) ∧
      (p.add text label io).1.content =
        .records (found.filter (fun pin => pin.key ≠ text) ++ [⟨text, label⟩]) := by
  have hout := update_outcome p
    (fun pins => pins.filter (fun pin => pin.key ≠ text) ++ [⟨text, label⟩]) io
  unfold Pins.add at h ⊢
  generalize p.update _ io = out at h hout
  cases hout with
  | filed found hread => exact ⟨found, load_records p io.read found hread, rfl⟩
  | torn => cases h
  | kept => cases h

/-- A request that leaves its key pinned: an invitation addressed to the key
that answered Ok, or a claim whose pin was written. -/
def Pinning (req : Request K) (answer : Answer) : Prop :=
  (∃ key name expose bytes now io, req = .invite (some key) name expose bytes now io ∧
    answer = .ok) ∨
  ∃ conn remote msg now io, req = .message conn remote msg now io ∧ answer = .enrolled (.ok ())

def Forgetting (req : Request K) (answer : Answer) : Prop :=
  (∃ ref visit io, req = .forget ref visit io) ∧ answer = .ok

omit [LinearOrder K] in
theorem isForget_pinning (req : Request K) (answer : Answer) (h : Pinning req answer) :
    isForget req = false := by
  rcases h with ⟨_, _, _, _, _, _, rfl, -⟩ | ⟨_, _, _, _, _, rfl, -⟩ <;> rfl

theorem pinning_once (hparse : ∀ k, parse (display k) = some k) (k : K) (d d' : Daemon K)
    (hc : Canonical parse display k d) (req : Request K) (answer : Answer)
    (ht : AsPrinted parse display k req) (hk : concerns parse d req = some k)
    (h : step parse display d req = some (d', answer)) (hp : Pinning req answer) :
    PinnedOnce parse k d' := by
  rcases hp with ⟨key, name, expose, bytes, now, io, rfl, rfl⟩ |
    ⟨conn, remote, msg, now, io, rfl, rfl⟩
  · have hinvite : d.invite parse (some key) name expose bytes now io = (d', .ok) :=
      Option.some.inj h
    obtain ⟨hpins, hok, -⟩ := invite_some parse d key name expose bytes now io k hk
    rw [hinvite] at hpins hok
    obtain rfl : key = display k := ht hk
    obtain ⟨found, hsub, hfile⟩ := added_ok d.pins (display k) name io (hok rfl)
    refine once_added parse display k d d' (hparse k) hc found hsub name ?_
    rw [show d'.pins = _ from hpins]
    exact hfile
  · have hmessage : d.handleMessage display conn remote msg now io = (d', .enrolled (.ok ())) :=
      Option.some.inj h
    obtain ⟨⟨j, c⟩, hclaim, rfl⟩ := Option.map_eq_some_iff.mp hk
    obtain ⟨rfl, hany, -, happly⟩ := claim_some display d.session conn remote j msg now c hclaim
    simp only [Daemon.handleMessage, hany, if_true, happly, Prod.mk.injEq,
      Answer.enrolled.injEq] at hmessage
    obtain ⟨rfl, hok⟩ := hmessage
    obtain ⟨found, hsub, hfile⟩ := added_ok d.pins (display j) c.name io hok
    exact once_added parse display j d _ (hparse j) hc found hsub c.name hfile

/-- The property of one history: `req` is the last request about `k`. If it was
a forget that answered Ok, a restart does not admit `k`; if it pinned `k`, a
restart admits it, by exactly one pin. -/
def RestartAgrees (path parent : String) (k : K) (before : List (Request K)) (req : Request K)
    (later : List (Request K)) (read : Read) : Prop :=
  ∀ d₀ d₁ d answer, exec (next parse display) (Daemon.new path parent) before = some d₀ →
    concerns parse d₀ req = some k → step parse display d₀ req = some (d₁, answer) →
    Along (next parse display) (fun d r => concerns parse d r ≠ some k) d₁ later →
    exec (next parse display) d₁ later = some d →
    ∀ fresh, Daemon.withEndpoint parse d.pins read = .ok fresh →
      (Forgetting req answer → k ∉ fresh.session.peers) ∧
      (Pinning req answer → k ∈ fresh.session.peers ∧ (pinsFor parse k d).length = 1)

/-- The key is typed as it prints, its forget is carried out on the file, and
once it is pinned the file is not taken for a missing one. -/
structure Tidy (k : K) (before : List (Request K)) (req : Request K) (later : List (Request K))
    (read : Read) : Prop where
  typed : ∀ r ∈ before ++ [req], AsPrinted parse display k r
  carried : Carried req
  seen : isForget req = false → (∀ r ∈ later, Sees r) ∧ read ≠ .unseen

theorem reached_canonical (hparse : ∀ k, parse (display k) = some k) (path parent : String)
    (k : K) (reqs : List (Request K)) (d : Daemon K)
    (ht : ∀ req ∈ reqs, AsPrinted parse display k req)
    (h : exec (next parse display) (Daemon.new path parent) reqs = some d) :
    Synced d ∧ Canonical parse display k d := by
  refine exec_invariant (next parse display) (AsPrinted parse display k)
    (fun d => Synced d ∧ Canonical parse display k d) ?_ _ ?_ reqs ht d h
  · intro s req t hreq hs hst
    obtain ⟨⟨t', answer⟩, hstep, rfl⟩ := Option.map_eq_some_iff.mp hst
    obtain ⟨hchange, hsync⟩ := step_change parse display hparse s t' hs.1 req answer hstep
    exact ⟨hsync, canonical_change parse display k s t' req _ hreq hs.2 hchange⟩
  · exact ⟨fun k => by simp [Daemon.new, Session.new], by simp [Canonical, Daemon.new]⟩

theorem later_keeps (Good : Request K → Prop) (P : Daemon K → Prop)
    (hparse : ∀ k, parse (display k) = some k) (k : K)
    (hP : ∀ d d' req key, Good req → key ≠ some k → P d →
      FileChange parse display req key d.pins.content d'.pins.content → P d')
    (d₁ d : Daemon K) (hs : Synced d₁) (hd : P d₁) (later : List (Request K))
    (hgood : ∀ r ∈ later, Good r)
    (hlater : Along (next parse display) (fun d r => concerns parse d r ≠ some k) d₁ later)
    (h : exec (next parse display) d₁ later = some d) : P d := by
  have hboth := along_invariant (next parse display)
    (fun d r => Good r ∧ concerns parse d r ≠ some k) (fun d => Synced d ∧ P d) ?_ d₁ ⟨hs, hd⟩ later
    (along_and _ _ _ _ _ (along_of_forall _ Good d₁ later hgood) hlater) d h
  · exact hboth.2
  · intro s req t hreq hst hnext
    obtain ⟨⟨t', answer⟩, hstep, rfl⟩ := Option.map_eq_some_iff.mp hnext
    obtain ⟨hchange, hsync⟩ := step_change parse display hparse s t' hst.1 req answer hstep
    exact ⟨hsync, hP s t' req _ hreq.1 hreq.2 hst.2 hchange⟩

/-- A restart agrees with the last request about a key when the history types
the key as it prints, a last forget changes the file, and what a last
invitation or claim filed is not overlooked afterwards. -/
theorem restart_agrees (hparse : ∀ k, parse (display k) = some k) (path parent : String) (k : K)
    (before : List (Request K)) (req : Request K) (later : List (Request K)) (read : Read)
    (ht : Tidy parse display k before req later read) :
    RestartAgrees parse display path parent k before req later read := by
  intro d₀ d₁ d answer hbefore hk hstep hlater hend fresh hup
  obtain ⟨hs, hc⟩ := reached_canonical parse display hparse path parent k before d₀
    (fun r hr => ht.typed r (by simp [hr])) hbefore
  have hs₁ := (step_change parse display hparse d₀ d₁ hs req answer hstep).2
  obtain ⟨-, -, pinned, hload, hknown⟩ := restart_admits parse d.pins read fresh hup
  rw [hknown k]
  constructor
  · rintro ⟨⟨ref, visit, io, rfl⟩, rfl⟩
    have hgone := forget_unpins parse display k d₀ d₁ hs hc ref visit io ht.carried hk
      (Option.some.inj hstep)
    have hstill := later_keeps parse display (fun _ => True) (Unpinned parse k) hparse k
      (fun d d' r key _ => unpinned_change parse display k d d' r key) d₁ d hs₁ hgone later
      (fun _ _ => trivial) hlater hend
    rintro ⟨pin, hpin, hpk⟩
    exact hstill pin (load_records d.pins read pinned hload pin hpin) hpk
  · intro hp
    obtain ⟨hsees, hread⟩ := ht.seen (isForget_pinning req answer hp)
    have honce := pinning_once parse display hparse k d₀ d₁ hc req answer
      (ht.typed req (by simp)) hk hstep hp
    have hfinal := later_keeps parse display Sees (PinnedOnce parse k) hparse k
      (once_change parse display hparse k) d₁ d hs₁ honce later hsees hlater hend
    obtain ⟨hclean, rfl⟩ := load_seen d.pins read pinned hread hload
    have hone := hfinal.resolve_left hclean
    refine ⟨?_, hone⟩
    obtain ⟨pin, hpin⟩ := List.length_eq_one_iff.mp hone
    obtain ⟨hin, hpk⟩ := List.mem_filter.mp (hpin ▸ List.mem_singleton_self pin)
    exact ⟨pin, hin, of_decide_eq_true hpk⟩

end

def deskKey : String := "8a88e3dd7409f195fd52db2d3cba5d72ca6709bf1d94121bf3748801b40f6f5c"

def deskBase32 : String := "RKEOHXLUBHYZL7KS3MWTZOS5OLFGOCN7DWKBEG7TOSEADNAPN5OA"

def boxKey : String := "8139770ea87d175f56a35466c34c7ecccb8d8a91b4ee37a25df60f5b8fc9b394"

def boxBase32 : String := "QE4XODVIPULV6VVDKRTMGTD6ZTFY3CURWTXDPIS56YHVXD6JWOKA"

def displayKey : Bool → String
  | false => deskKey
  | true => boxKey

def parseKey (text : String) : Option Bool :=
  let base32 := text.toList.map Char.toUpper
  if text = deskKey ∨ base32 = deskBase32.toList then some false
  else if text = boxKey ∨ base32 = boxBase32.toList then some true
  else none

def inviteAs (text : String) : Request Bool :=
  .invite (some text) none [] (Vector.replicate 32 0) 0 {}

theorem parse_display_key (k : Bool) : parseKey (displayKey k) = some k := by
  cases k <;> decide

theorem desk_key_tidy : Tidy parseKey displayKey false [inviteAs deskKey]
    (.forget deskKey [] {}) [] .done := by
  refine ⟨fun r hr => ?_, ⟨nofun, rfl⟩, nofun⟩
  rcases List.mem_cons.mp hr with rfl | hr
  · exact fun _ => rfl
  · obtain rfl := List.mem_singleton.mp hr
    trivial

theorem typed_as_printed_forgotten : ∃ d₀ d₁ fresh,
    exec (next parseKey displayKey) (Daemon.new "key.peers.json" ".") [inviteAs deskKey] = some d₀ ∧
    step parseKey displayKey d₀ (.forget deskKey [] {}) = some (d₁, .ok) ∧
    Daemon.withEndpoint parseKey d₁.pins .done = .ok fresh ∧ false ∉ fresh.session.peers := by
  refine ⟨_, _, _, rfl, rfl, rfl, ?_⟩
  exact (restart_agrees parseKey displayKey parse_display_key "key.peers.json" "." false _ _ _ _
    desk_key_tidy _ _ _ _ rfl rfl rfl trivial rfl _ rfl).1 ⟨⟨_, _, _, rfl⟩, rfl⟩

/-- Invited in base32 and then forgotten, the key is back after a restart. -/
theorem other_spelling_returns :
    ¬ RestartAgrees parseKey displayKey "key.peers.json" "." false [inviteAs deskBase32]
      (.forget deskKey [] {}) [] .done := by
  intro h
  refine (h _ _ _ _ rfl rfl rfl trivial rfl _ rfl).1 ⟨⟨_, _, _, rfl⟩, rfl⟩ ?_
  decide +kernel

end PaiSho.Restart
