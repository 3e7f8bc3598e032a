import PaiSho.Restart

/-!
# How a peer was admitted, across a restart

A pin has a key and a label and does not say how its peer came in. A restart
admits every pinned key as one that was vouched for, so whoever came by a code
is recorded as having come by key from then on. For a peer that did come by key
the pin has the label on record, as long as nobody invites it again under
another name, which changes the file and not the record.
-/

set_option autoImplicit false

namespace PaiSho.AdmissionRecords
open Std (ExtTreeMap)
open PaiSho.GrantTable PaiSho.Enrollment PaiSho.SessionCore PaiSho.SessionSteps
open PaiSho.RecordFiles PaiSho.PinnedPeers PaiSho.Restart Library.OrderedMaps Library.Traces

section
variable {K : Type} [LinearOrder K] (parse : String → Option K) (display : K → String)

def FileOk : Request K → Prop
  | .invite (some _) _ _ _ _ io => io.read = .done ∧ io.write = .done
  | .forget _ _ io => io.read = .done ∧ io.write = .done
  | .message _ _ _ _ io => io.read = .done ∧ io.write = .done
  | .restart read => read = .done
  | _ => True

/-- An invitation types the key as it prints, and one for a peer that came by key
names the label on record. -/
def SameName (d : Daemon K) : Request K → Prop
  | .invite (some key) name _ _ _ _ => ∀ k, parse key = some k → key = display k ∧
      ∀ label, d.session.peers[k]? = some ⟨label, .key⟩ → name = label
  | _ => True

/-- A restart comes up, and every peer that was admitted by code or by key is
admitted with the same label in the same way. -/
def RestartKeeps (d : Daemon K) : Prop :=
  ∃ fresh, Daemon.withEndpoint parse d.pins .done = .ok fresh ∧
    ∀ (k : K) (a : Admitted), d.session.peers[k]? = some a →
      a.admission = .code ∨ a.admission = .key → fresh.session.peers[k]? = some a

/-- The file can be read, each key has one pin at most, under its own text, and
a peer that came by key has one with its label. -/
structure Inv (d : Daemon K) : Prop where
  clean : d.pins.content ≠ .garbled
  synced : Synced d
  filed : ∀ k, pinsFor parse k d = [] ∨ ∃ label, pinsFor parse k d = [⟨display k, label⟩]
  labels : ∀ k label, d.session.peers[k]? = some ⟨label, .key⟩ →
    pinsFor parse k d = [⟨display k, label⟩]

theorem pinsFor_content (k : K) (d d' : Daemon K) (h : d'.pins.content = d.pins.content) :
    pinsFor parse k d' = pinsFor parse k d := by
  rw [pinsFor, pinsFor, h]

section
variable (hparse : ∀ k, parse (display k) = some k)
include hparse

theorem filter_pins (d : Daemon K) (h : Inv parse display d) (key k : K) :
    ((recordsOf d.pins.content).filter (fun pin => pin.key ≠ display key)).filter
      (fun pin => parse pin.key = some k) = if k = key then [] else pinsFor parse k d := by
  split_ifs with hk
  · subst hk
    rw [List.filter_eq_nil_iff]
    intro pin hpin hp
    obtain ⟨hin, hne⟩ := List.mem_filter.mp hpin
    have hmine : pin ∈ pinsFor parse k d := List.mem_filter.mpr ⟨hin, hp⟩
    rcases h.filed k with hnone | ⟨label, hone⟩
    · rw [hnone] at hmine
      cases hmine
    · rw [hone] at hmine
      obtain rfl := List.mem_singleton.mp hmine
      simp at hne
  · refine filter_other parse k _ (display key) (fun hp => hk ?_)
    exact ((parse_display_iff parse display hparse key k).mp hp).symm

theorem pinsFor_add (d d' : Daemon K) (h : Inv parse display d) (key : K) (label : Option String)
    (io : Io) (hr : io.read = .done) (hw : io.write = .done)
    (hpins : d'.pins = (d.pins.add (display key) label io).1) (k : K) :
    pinsFor parse k d' = if k = key then [⟨display key, label⟩] else pinsFor parse k d := by
  have hcontent : d'.pins.content = .records ((recordsOf d.pins.content).filter
      (fun pin => pin.key ≠ display key) ++ [⟨display key, label⟩]) := by
    rw [hpins, Pins.add, update_done d.pins _ io h.clean hr hw]
  rw [pinsFor, hcontent, recordsOf_records, List.filter_append, filter_pins parse display hparse d h]
  split_ifs with hk
  · subst hk
    simp [hparse]
  · simp [parse_display_iff parse display hparse, Ne.symm hk]

theorem pinsFor_remove (d d' : Daemon K) (h : Inv parse display d) (key : K) (io : Io)
    (hr : io.read = .done) (hw : io.write = .done)
    (hpins : d'.pins = (d.pins.remove (display key) io).1) (k : K) :
    pinsFor parse k d' = if k = key then [] else pinsFor parse k d := by
  have hcontent : d'.pins.content = .records ((recordsOf d.pins.content).filter
      (fun pin => pin.key ≠ display key)) := by
    rw [hpins, Pins.remove, update_done d.pins _ io h.clean hr hw]
  rw [pinsFor, hcontent, recordsOf_records, filter_pins parse display hparse d h]

end

theorem inv_at (d d' : Daemon K) (h : Inv parse display d) (key : K)
    (hclean : d'.pins.content ≠ .garbled) (hsynced : Synced d')
    (hother : ∀ k, k ≠ key → pinsFor parse k d' = pinsFor parse k d ∧
      d'.session.peers[k]? = d.session.peers[k]?)
    (hfiled : pinsFor parse key d' = [] ∨ ∃ label, pinsFor parse key d' = [⟨display key, label⟩])
    (hlabel : ∀ label, d'.session.peers[key]? = some ⟨label, .key⟩ →
      pinsFor parse key d' = [⟨display key, label⟩]) : Inv parse display d' := by
  refine ⟨hclean, hsynced, fun k => ?_, fun k label hk => ?_⟩
  · by_cases hkey : k = key
    · exact hkey ▸ hfiled
    · rw [(hother k hkey).1]
      exact h.filed k
  · by_cases hkey : k = key
    · subst hkey
      exact hlabel label hk
    · rw [(hother k hkey).2] at hk
      rw [(hother k hkey).1]
      exact h.labels k label hk

theorem inv_kept (d d' : Daemon K) (h : Inv parse display d) (hsynced : Synced d')
    (hpins : d'.pins.content = d.pins.content)
    (hpeers : ∀ k : K, d'.session.peers[k]? = d.session.peers[k]?) : Inv parse display d' := by
  refine ⟨hpins ▸ h.clean, hsynced, fun k => ?_, fun k label hk => ?_⟩
  · rw [pinsFor_content parse k d d' hpins]
    exact h.filed k
  · rw [pinsFor_content parse k d d' hpins]
    exact h.labels k label ((hpeers k).symm.trans hk)

def registered (before : Option Admitted) (name : Option String) (admission : Admission) :
    Option Admitted := before.or (some ⟨name, admission⟩)

theorem register_record (d : Daemon K) (key k : K) (name : Option String) (admission : Admission) :
    (d.register key name admission).session.peers[k]? =
      if k = key then registered d.session.peers[k]? name admission else d.session.peers[k]? :=
  step_peers d.session (.admitKnown key name admission) k

theorem addPinned_record (d : Daemon K) (hs : Synced d) (key : String) (name : Option String)
    (id : K) (hkey : parse key = some id) :
    ∃ d', d.addPinned parse key name = .ok d' ∧ d'.pins = d.pins ∧ Synced d' ∧
      ∀ k : K, d'.session.peers[k]? =
        if k = id then registered d.session.peers[k]? name .key else d.session.peers[k]? := by
  obtain ⟨d', hd, hpins, hsync, -⟩ := addPinned_some parse d key name id hkey
  refine ⟨d', hd, hpins, hsync hs, fun k => ?_⟩
  simp only [Daemon.addPinned, hkey] at hd
  split_ifs at hd with hin
  · obtain rfl := Except.ok.inj hd
    split_ifs with hk
    · subst hk
      have hmem : k ∈ d.session.peers := (hs k).mp (ExtTreeMap.contains_iff_mem.mp hin)
      obtain ⟨a, ha⟩ := Option.isSome_iff_exists.mp (ExtTreeMap.mem_iff_isSome_getElem?.mp hmem)
      simp [registered, ha]
    · rfl
  · obtain rfl := Except.ok.inj hd
    exact register_record d id k name .key

theorem inv_accept (d : Daemon K) (h : Inv parse display d) (key : K) (name : Option String) :
    Inv parse display (d.accept key name).1 := by
  simp only [Daemon.accept]
  split_ifs with hin
  · exact h
  · have hnone : d.session.peers[key]? = none := by
      rw [← Option.not_isSome_iff_eq_none, ← ExtTreeMap.mem_iff_isSome_getElem?, ← h.synced key]
      exact fun hmem => hin (ExtTreeMap.contains_iff_mem.mpr hmem)
    refine inv_at parse display d _ h key h.clean (synced_register d key name .added h.synced) ?_ ?_ ?_
    · intro k hk
      refine ⟨rfl, ?_⟩
      show (d.register key name .added).session.peers[k]? = _
      rw [register_record, if_neg hk]
    · exact h.filed key
    · intro label hlabel
      have hadded : (d.register key name .added).session.peers[key]? = some ⟨label, .key⟩ := hlabel
      rw [register_record, if_pos rfl, hnone] at hadded
      cases hadded

theorem load_records (pins : List Pin) (d : Daemon K) (hs : Synced d) (k : K) :
    (pins.foldl (loadPin parse) d).session.peers[k]? = d.session.peers[k]?.or
      ((pins.find? (fun pin => parse pin.key = some k)).map (fun pin => ⟨pin.label, .key⟩)) := by
  induction pins generalizing d with
  | nil => simp
  | cons pin pins ih =>
    rw [List.foldl_cons, List.find?_cons]
    cases hkey : parse pin.key with
    | none =>
      have hsame : loadPin parse d pin = d := by simp [loadPin, Daemon.addPinned, hkey]
      rw [hsame, ih d hs]
      simp
    | some id =>
      obtain ⟨d', hd, -, hsync, hrecord⟩ := addPinned_record parse d hs pin.key pin.label id hkey
      have hload : loadPin parse d pin = d' := by simp [loadPin, hd]
      rw [hload, ih d' hsync, hrecord]
      by_cases hk : k = id
      · subst hk
        simp [registered]
      · have hne : ¬ id = k := fun heq => hk heq.symm
        simp [hk, hne]

theorem restart_record (pins : Pins) (hclean : pins.content ≠ .garbled) :
    ∃ fresh, Daemon.withEndpoint parse pins .done = .ok fresh ∧ fresh.pins = pins ∧ Synced fresh ∧
      ∀ k : K, fresh.session.peers[k]? =
        (((recordsOf pins.content).filter (fun pin => parse pin.key = some k)).head?).map
          (fun pin => ⟨pin.label, .key⟩) := by
  have hup : Daemon.withEndpoint parse pins .done = .ok ((recordsOf pins.content).foldl (loadPin parse)
      (⟨Session.new, ∅, pins⟩ : Daemon K)) := by
    simp only [Daemon.withEndpoint, load_done pins hclean]
  have hempty : Synced (⟨Session.new, ∅, pins⟩ : Daemon K) := fun k => by simp [Session.new]
  obtain ⟨hpins, hsync, -⟩ := load_fold parse (recordsOf pins.content) (⟨Session.new, ∅, pins⟩ : Daemon K)
  refine ⟨_, hup, hpins, hsync hempty, fun k => ?_⟩
  rw [load_records parse _ _ hempty k, List.head?_filter]
  simp [Session.new]

theorem inv_restart (d fresh : Daemon K) (h : Inv parse display d)
    (hup : Daemon.withEndpoint parse d.pins .done = .ok fresh) : Inv parse display fresh := by
  obtain ⟨fresh', hup', hpins, hsync, hrecord⟩ := restart_record parse d.pins h.clean
  obtain rfl := Except.ok.inj (hup.symm.trans hup')
  have hfor : ∀ k, pinsFor parse k fresh = pinsFor parse k d := fun k =>
    pinsFor_content parse k d fresh (congrArg RecordFile.content hpins)
  refine ⟨hpins ▸ h.clean, hsync, fun k => ?_, fun k label hk => ?_⟩
  · rw [hfor]
    exact h.filed k
  · rw [hfor]
    rw [hrecord k] at hk
    change ((pinsFor parse k d).head?).map _ = _ at hk
    rcases h.filed k with hnone | ⟨label', hone⟩
    · rw [hnone] at hk
      cases hk
    · rw [hone] at hk
      simp only [List.head?_cons, Option.map_some, Option.some.injEq, Admitted.mk.injEq] at hk
      rw [hone, hk.1]

section
variable (hparse : ∀ k, parse (display k) = some k)
include hparse

theorem inv_invite (d : Daemon K) (h : Inv parse display d) (key : String) (name : Option String)
    (expose : List Port) (bytes : Vector UInt8 32) (now : ℕ) (io : Io)
    (hio : io.read = .done ∧ io.write = .done)
    (hsame : SameName parse display d (.invite (some key) name expose bytes now io)) :
    Inv parse display (d.invite parse (some key) name expose bytes now io).1 := by
  cases hkey : parse key with
  | none =>
    simp only [Daemon.invite, Daemon.pinPeer, Daemon.addPinned, hkey]
    exact h
  | some id =>
    obtain ⟨rfl, hlabel⟩ := hsame id hkey
    obtain ⟨d', hd, hpins, hsync, hrecord⟩ :=
      addPinned_record parse d h.synced (display id) name id hkey
    have hadd := update_done d.pins (fun pins => pins.filter (fun pin => pin.key ≠ display id) ++
      [(⟨display id, name⟩ : Pin)]) io h.clean hio.1 hio.2
    have hdone : (d.pins.add (display id) name io).2 = .ok () := by rw [Pins.add, hadd]
    simp only [Daemon.invite, Daemon.pinPeer, hd, hpins, hdone, hkey]
    obtain ⟨h1, h2, h3⟩ :=
      expose_fold id expose { d' with pins := (d.pins.add (display id) name io).1 }
    have hfor := pinsFor_add parse display hparse d _ h id name io hio.1 hio.2 h1
    refine inv_at parse display d _ h id ?_ ?_ ?_ ?_ ?_
    · rw [h1]
      show (d.pins.add (display id) name io).1.content ≠ .garbled
      rw [Pins.add, hadd]
      simp
    · intro k
      rw [h2, h3]
      exact hsync k
    · intro k hk
      rw [hfor, if_neg hk, h3]
      refine ⟨rfl, ?_⟩
      show d'.session.peers[k]? = _
      rw [hrecord, if_neg hk]
    · rw [hfor, if_pos rfl]
      exact Or.inr ⟨name, rfl⟩
    · intro label hrec
      rw [h3] at hrec
      have hrec' : registered d.session.peers[id]? name .key = some ⟨label, .key⟩ := by
        rw [← hrec]
        show _ = d'.session.peers[id]?
        rw [hrecord, if_pos rfl]
      rw [hfor, if_pos rfl]
      cases hwas : d.session.peers[id]? with
      | none =>
        rw [hwas] at hrec'
        simp only [registered, Option.none_or, Option.some.injEq, Admitted.mk.injEq] at hrec'
        rw [hrec'.1]
      | some a =>
        rw [hwas] at hrec'
        simp only [registered, Option.some_or, Option.some.injEq] at hrec'
        rw [hlabel label (hrec' ▸ hwas)]

theorem inv_forget (d : Daemon K) (h : Inv parse display d) (ref : String) (visit : List K) (io : Io)
    (hio : io.read = .done ∧ io.write = .done) :
    Inv parse display (d.removePeer parse display ref visit io).1 := by
  simp only [Daemon.removePeer]
  split
  · exact h
  · rename_i key hkey
    split_ifs with hin
    · have hpins := evict_pins display d h.synced key io hin
      have hfor := pinsFor_remove parse display hparse d _ h key io hio.1 hio.2 hpins
      have hrec : ∀ k : K, (d.evict display key io).session.peers[k]? =
          if k = key then none else d.session.peers[k]? := by
        intro k
        exact step_peers d.session (.evict key) k
      refine inv_at parse display d _ h key ?_ (synced_evict display d h.synced key io) ?_ ?_ ?_
      · rw [hpins, Pins.remove, update_done d.pins _ io h.clean hio.1 hio.2]
        simp
      · intro k hk
        rw [hfor, if_neg hk, hrec, if_neg hk]
        exact ⟨rfl, rfl⟩
      · rw [hfor, if_pos rfl]
        exact Or.inl rfl
      · intro label hlabel
        rw [hrec, if_pos rfl] at hlabel
        cases hlabel
    · exact h

theorem inv_message (d : Daemon K) (h : Inv parse display d) (conn : ConnId) (remote : K)
    (msg : PeerMessage) (now : ℕ) (io : Io) (hio : io.read = .done ∧ io.write = .done) :
    Inv parse display (d.handleMessage display conn remote msg now io).1 := by
  obtain ⟨-, hsync⟩ := message_change parse display hparse d _ h.synced conn remote msg now io _ rfl
  have hrec : ∀ k : K, (d.handleMessage display conn remote msg now io).1.session.peers[k]? =
      recordAfter d.session (.onUnadmitted conn remote msg now) k := by
    intro k
    rw [← step_peers]
    simp only [Daemon.handleMessage]
    split_ifs <;> rfl
  cases hc : claimBy d.session (.onUnadmitted conn remote msg now) with
  | none =>
    refine inv_kept parse display d _ h hsync ?_ fun k => ?_
    · simp [Daemon.handleMessage, claim_none d.session conn remote msg now hc]
    · rw [hrec]
      simp [recordAfter, hc]
  | some rc =>
    obtain ⟨k, c⟩ := rc
    obtain ⟨rfl, hany, -, happly⟩ := claim_some display d.session conn remote k msg now c hc
    have hpins : (d.handleMessage display conn k msg now io).1.pins =
        (d.pins.add (display k) c.name io).1 := by
      simp [Daemon.handleMessage, hany, happly]
    have hafter : ∀ k', recordAfter d.session (.onUnadmitted conn k msg now) k' =
        if k' = k then some ⟨c.name, .code⟩ else d.session.peers[k']? := by
      intro k'
      simp [recordAfter, hc]
    have hfor := pinsFor_add parse display hparse d _ h k c.name io hio.1 hio.2 hpins
    refine inv_at parse display d _ h k ?_ hsync ?_ ?_ ?_
    · rw [hpins, Pins.add, update_done d.pins _ io h.clean hio.1 hio.2]
      simp
    · intro k' hk'
      rw [hfor, if_neg hk', hrec, hafter, if_neg hk']
      exact ⟨rfl, rfl⟩
    · rw [hfor, if_pos rfl]
      exact Or.inr ⟨c.name, rfl⟩
    · intro label hlabel
      rw [hrec, hafter, if_pos rfl] at hlabel
      cases hlabel

theorem inv_next (d d' : Daemon K) (req : Request K)
    (hok : FileOk req ∧ SameName parse display d req) (h : Inv parse display d)
    (hnext : next parse display d req = some d') : Inv parse display d' := by
  have hsync : Synced d' := by
    obtain ⟨⟨_, answer⟩, hstep, rfl⟩ := Option.map_eq_some_iff.mp hnext
    exact (step_change parse display hparse d _ h.synced req answer hstep).2
  cases handled_next parse display d d' req hnext with
  | invite key name expose bytes now io =>
    cases key with
    | none => exact inv_kept parse display d _ h hsync rfl fun _ => rfl
    | some key => exact inv_invite parse display hparse d h key name expose bytes now io hok.1 hok.2
  | accept key name => exact inv_accept parse display d h key name
  | forget ref visit io => exact inv_forget parse display hparse d h ref visit io hok.1
  | inbound conn remote =>
    refine inv_kept parse display d _ h hsync rfl fun k => ?_
    exact step_peers d.session (.onInbound conn remote) k
  | message conn remote msg now io =>
    exact inv_message parse display hparse d h conn remote msg now io hok.1
  | timeout conn =>
    refine inv_kept parse display d _ h hsync rfl fun k => ?_
    exact step_peers d.session (.onEnrollTimeout conn) k
  | restart read fresh hup =>
    obtain rfl : read = .done := hok.1
    exact inv_restart parse display d d' h hup

/-- After a history whose file access succeeds and whose invitations keep to the
text and the label on record, a restart keeps every record exactly when nobody
is admitted by code. -/
theorem restart_keeps_iff (path parent : String) (reqs : List (Request K)) (d : Daemon K)
    (hok : Along (next parse display) (fun d req => FileOk req ∧ SameName parse display d req)
      (Daemon.new path parent) reqs)
    (h : exec (next parse display) (Daemon.new path parent) reqs = some d) :
    RestartKeeps parse d ↔
      ∀ (k : K) (a : Admitted), d.session.peers[k]? = some a → a.admission ≠ .code := by
  have hinv : Inv parse display d := by
    refine along_invariant (next parse display) _ (Inv parse display) ?_ _ ?_ reqs hok d h
    · intro s req t hreq hs hst
      exact inv_next parse display hparse s t req hreq hs hst
    · refine ⟨by simp [Daemon.new], fun k => by simp [Daemon.new, Session.new], ?_, ?_⟩
      · simp [pinsFor, Daemon.new, recordsOf]
      · simp [Daemon.new, Session.new]
  obtain ⟨fresh, hup, -, -, hrecord⟩ := restart_record parse d.pins hinv.clean
  constructor
  · rintro ⟨fresh', hup', hkeeps⟩ k a ha hcode
    obtain rfl := Except.ok.inj (hup.symm.trans hup')
    have hsame := hkeeps k a ha (Or.inl hcode)
    rw [hrecord k] at hsame
    obtain ⟨pin, -, rfl⟩ := Option.map_eq_some_iff.mp hsame
    cases hcode
  · intro hnone
    refine ⟨fresh, hup, fun k a ha hwhich => ?_⟩
    obtain ⟨label, admission⟩ := a
    obtain rfl : admission = .key := hwhich.resolve_left (hnone k _ ha)
    have hpins := hinv.labels k label ha
    rw [hrecord k]
    change ((pinsFor parse k d).head?).map _ = _
    rw [hpins]
    rfl

end

end

def blankBytes : Vector UInt8 32 := Vector.replicate 32 0

def invitedTwice : List (Request Bool) :=
  [.invite (some deskKey) (some "desk") [] blankBytes 0 {}, .accept true none,
    .invite (some deskKey) (some "desk") [] blankBytes 0 {}]

theorem invited_twice_kept : ∃ d,
    exec (next parseKey displayKey) (Daemon.new "key.peers.json" ".") invitedTwice = some d ∧
    d.session.peers[false]? = some ⟨some "desk", .key⟩ ∧ RestartKeeps parseKey d := by
  refine ⟨_, rfl, by decide +kernel, ?_⟩
  refine (restart_keeps_iff parseKey displayKey parse_display_key "key.peers.json" "." invitedTwice
    _ ?_ rfl).mpr ?_
  · have hdesk : ∀ k, parseKey deskKey = some k → k = false := by decide +kernel
    refine ⟨⟨⟨rfl, rfl⟩, fun k hk => ?_⟩, ?_⟩
    · obtain rfl := hdesk k hk
      exact ⟨rfl, fun label hlabel => absurd hlabel (by simp [Daemon.new, Session.new])⟩
    rintro _ ⟨⟩
    refine ⟨⟨trivial, trivial⟩, ?_⟩
    rintro _ ⟨⟩
    refine ⟨⟨⟨rfl, rfl⟩, fun k hk => ?_⟩, fun _ _ => trivial⟩
    obtain rfl := hdesk k hk
    refine ⟨rfl, fun label hlabel => ?_⟩
    refine Option.some.inj (Eq.trans (Eq.symm ?_) (congrArg (Option.map Admitted.label) hlabel))
    decide +kernel
  · intro k a ha hcode
    have hat := congrArg (Option.map Admitted.admission) ha
    rw [Option.map_some, hcode] at hat
    cases k with
    | false => exact absurd hat (by decide +kernel)
    | true => exact absurd hat (by decide +kernel)

def enrolledByCode : List (Request Bool) :=
  [.invite none (some "rustdev") [] blankBytes 0 {}, .inbound 1 false,
    .message 1 false (.enroll (hexToken blankBytes) none) 0 {}]

theorem enrolled_by_code_differs : ∃ d,
    exec (next parseKey displayKey) (Daemon.new "key.peers.json" ".") enrolledByCode = some d ∧
    ¬ RestartKeeps parseKey d := by
  refine ⟨_, rfl, ?_⟩
  rintro ⟨fresh, hup, hkeeps⟩
  have hsame := hkeeps false ⟨some "rustdev", .code⟩ (by decide +kernel) (Or.inl rfl)
  have hafter := congrArg
    (fun up => up.toOption.map (fun d : Daemon Bool => d.session.peers[false]?)) hup
  change _ = some fresh.session.peers[false]? at hafter
  rw [hsame] at hafter
  exact absurd hafter (by decide +kernel)

end PaiSho.AdmissionRecords
