import PaiSho.AdmissionRecords
import PaiSho.ControlRequests
import PaiSho.SurfaceRequests

/-!
# References to peers

`forget`, `project` and `unproject` find their peer in the shell's table: a key
that is in it, or else the first peer the table comes to that has the label.
`expose` and `unexpose` ask the core, which takes a label only when exactly one
peer has it. The labels are the same on both sides, so the lookups differ exactly
where two peers share one.
-/

set_option autoImplicit false

namespace PaiSho.References
open Std (ExtTreeMap)
open Library.OrderedMaps Library.Traces
open GrantTable SessionCore SessionSteps RecordFiles PinnedPeers
open ControlRequests (resolveGrantee)
open SurfaceManager (PeerManager Peer)

structure Table (K : Type) where
  has : K → Bool
  label : K → Option String
  known : ∀ k name, label k = some name → has k = true

section
variable {K : Type} [LinearOrder K] (parse : String → Option K) (display : K → String)

def ofDaemon (d : Daemon K) : Table K where
  has := d.peers.contains
  label k := d.peers[k]?.join
  known k name h := by
    rw [ExtTreeMap.contains_iff_mem, ExtTreeMap.mem_iff_isSome_getElem?]
    cases hk : d.peers[k]? with
    | none =>
      rw [hk] at h
      cases h
    | some label => rfl

def ofManager (m : PeerManager K) : Table K where
  has := m.peers.contains
  label k := (m.get k).bind Peer.label
  known k name h := by
    rw [ExtTreeMap.contains_iff_mem, ExtTreeMap.mem_iff_isSome_getElem?]
    obtain ⟨peer, hget, -⟩ := Option.bind_eq_some_iff.mp h
    obtain ⟨r, hr, -⟩ := (SurfaceSteps.get_eq_some m k peer).mp hget
    rw [hr]
    rfl

def Lists (t : Table K) (visit : List K) : Prop := ∀ k, k ∈ visit ↔ t.has k = true

def IsKey (t : Table K) (ref : String) : Prop := ∃ k, parse ref = some k ∧ t.has k = true

def Sole (t : Table K) (ref : String) (k : K) : Prop := ∀ k', t.label k' = some ref ↔ k' = k

/-- A lookup acts on a key of the table or on the only peer of a label, refuses
a label that two peers have, and finds what the core's lookup finds. -/
structure NeverGuesses (t : Table K) (s : Session K) (ref : String)
    (resolve : List K → Option K) : Prop where
  acts : ∀ visit k, Lists t visit → resolve visit = some k →
    (parse ref = some k ∧ t.has k = true) ∨ (¬ IsKey parse t ref ∧ Sole t ref k)
  refuses : ∀ visit k k', Lists t visit → ¬ IsKey parse t ref → k ≠ k' →
    t.label k = some ref → t.label k' = some ref → resolve visit = none
  alike : parse ref = none → ∀ visit k, Lists t visit →
    (resolve visit = some k ↔ resolveGrantee parse s ref = .ok k)

/-- The reference is a key of the table, or the label of one peer at most. -/
def Unshared (t : Table K) (ref : String) : Prop :=
  IsKey parse t ref ∨ ∀ k k', t.label k = some ref → t.label k' = some ref → k = k'

theorem resolveGrantee_label (s : Session K) (ref : String) (hparse : parse ref = none) (k : K) :
    resolveGrantee parse s ref = .ok k ↔ ∀ k', s.labelOf k' = some ref ↔ k' = k := by
  have hmem : ∀ k', k' ∈ (s.peers.toList.filter (fun entry => entry.2.label = some ref)).map
      Prod.fst ↔ s.labelOf k' = some ref := by
    intro k'
    simp only [List.mem_map, List.mem_filter, Prod.exists, exists_and_right, exists_eq_right,
      ExtTreeMap.mem_toList_iff_getElem?_eq_some, decide_eq_true_eq, Session.labelOf,
      Option.bind_eq_some_iff]
  have hnodup : ((s.peers.toList.filter (fun entry => entry.2.label = some ref)).map
      Prod.fst).Nodup := by
    refine List.Nodup.sublist (List.Sublist.map Prod.fst List.filter_sublist) ?_
    rw [ExtTreeMap.map_fst_toList_eq_keys]
    exact ExtTreeMap.nodup_keys
  unfold resolveGrantee
  rw [hparse]
  simp only [← hmem]
  generalize (s.peers.toList.filter (fun entry => entry.2.label = some ref)).map Prod.fst = found
    at hnodup
  match found with
  | [] => simp
  | [key] =>
    simp only [List.mem_singleton, Except.ok.injEq]
    constructor
    · rintro rfl k'
      rfl
    · intro h
      exact (h key).mp rfl
  | key::key'::rest =>
    simp only [reduceCtorEq, false_iff]
    intro h
    have hfirst := (h key).mp (by simp)
    have hsecond := (h key').mp (by simp)
    rw [hfirst, hsecond] at hnodup
    simp at hnodup

def Table.resolvePeer (t : Table K) (ref : String) (visit : List K) : Option K :=
  match (parse ref).filter t.has with
  | some id => some id
  | none => visit.find? (fun id => t.label id = some ref)

theorem daemon_resolves (d : Daemon K) (ref : String) :
    d.resolvePeer parse ref = (ofDaemon d).resolvePeer parse ref := by
  funext visit
  have hlabel : (fun id : K => decide (d.peers[id]? = some (some ref))) =
      fun id => decide (d.peers[id]?.join = some ref) := by
    funext id
    rw [decide_eq_decide, Option.join_eq_some_iff]
  have hkey : (parse ref).filter (ofDaemon d).has =
      (parse ref).filter (fun id => d.peers.contains id) := rfl
  rw [Daemon.resolvePeer, Table.resolvePeer, hkey]
  cases (parse ref).filter (fun id => d.peers.contains id) with
  | some id => exact Eq.refl (some id)
  | none => exact congrArg (fun carries => visit.find? carries) hlabel

theorem manager_resolves (m : PeerManager K) (ref : String) :
    SurfaceRequests.resolvePeer parse m ref = (ofManager m).resolvePeer parse ref := by
  funext visit
  rfl

omit [LinearOrder K] in
theorem resolvePeer_key (t : Table K) (ref : String) (visit : List K) (k : K)
    (hparse : parse ref = some k) (hhas : t.has k = true) :
    t.resolvePeer parse ref visit = some k := by
  have hsome : (parse ref).filter t.has = some k := by
    rw [hparse, Option.filter_some, if_pos hhas]
  rw [Table.resolvePeer, hsome]

omit [LinearOrder K] in
theorem resolvePeer_label (t : Table K) (ref : String) (visit : List K)
    (hkey : ¬ IsKey parse t ref) :
    t.resolvePeer parse ref visit = visit.find? (fun id => t.label id = some ref) := by
  have hnone : (parse ref).filter t.has = none := by
    rw [Option.filter_eq_none_iff]
    intro k hk hhas
    exact hkey ⟨k, hk, hhas⟩
  rw [Table.resolvePeer, hnone]

omit [LinearOrder K] in
theorem find_carrier (t : Table K) (ref : String) (visit : List K) (hlists : Lists t visit) (k : K)
    (hk : t.label k = some ref) :
    ∃ k', visit.find? (fun id => t.label id = some ref) = some k' ∧ t.label k' = some ref := by
  have hin : k ∈ visit := (hlists k).mpr (t.known k ref hk)
  cases hfind : visit.find? (fun id => t.label id = some ref) with
  | none =>
    have hnot := List.find?_eq_none.mp hfind k hin
    simp [hk] at hnot
  | some k' => exact ⟨k', rfl, by simpa using List.find?_some hfind⟩

theorem table_never_guesses (t : Table K) (s : Session K) (ref : String)
    (hlabels : ∀ k, t.label k = s.labelOf k) (visit₀ : List K) (hvisit₀ : Lists t visit₀) :
    NeverGuesses parse t s ref (t.resolvePeer parse ref) ↔ Unshared parse t ref := by
  constructor
  · intro h
    by_contra hnot
    unfold Unshared at hnot
    push Not at hnot
    obtain ⟨hkey, k, k', hk, hk', hne⟩ := hnot
    have hnone := h.refuses visit₀ k k' hvisit₀ hkey hne hk hk'
    obtain ⟨found, hfind, -⟩ := find_carrier t ref visit₀ hvisit₀ k hk
    rw [resolvePeer_label parse t ref visit₀ hkey, hfind] at hnone
    cases hnone
  · intro h
    have hsole : ∀ visit k, ¬ IsKey parse t ref → Lists t visit →
        (t.resolvePeer parse ref visit = some k ↔ Sole t ref k) := by
      intro visit k hkey hlists
      have honly := h.resolve_left hkey
      rw [resolvePeer_label parse t ref visit hkey]
      constructor
      · intro hfind k'
        have hk : t.label k = some ref := by simpa using List.find?_some hfind
        constructor
        · intro hk'
          exact honly k' k hk' hk
        · rintro rfl
          exact hk
      · intro hk
        obtain ⟨k', hfind, hk'⟩ := find_carrier t ref visit hlists k ((hk k).mpr rfl)
        rw [hfind, (hk k').mp hk']
    constructor
    · intro visit k hlists hresolve
      by_cases hkey : IsKey parse t ref
      · obtain ⟨id, hid, hhas⟩ := hkey
        rw [resolvePeer_key parse t ref visit id hid hhas] at hresolve
        obtain rfl := Option.some.inj hresolve
        exact Or.inl ⟨hid, hhas⟩
      · exact Or.inr ⟨hkey, (hsole visit k hkey hlists).mp hresolve⟩
    · intro visit k k' hlists hkey hne hk hk'
      exact absurd (h.resolve_left hkey k k' hk hk') hne
    · intro hparse visit k hlists
      have hkey : ¬ IsKey parse t ref := by
        rintro ⟨id, hid, -⟩
        cases hparse.symm.trans hid
      rw [hsole visit k hkey hlists, resolveGrantee_label parse s ref hparse]
      simp only [Sole, hlabels]

/-- The shell's table has the label of every record the core has. -/
def Labelled (d : Daemon K) : Prop :=
  ∀ k : K, d.peers[k]? = d.session.peers[k]?.map Admitted.label

theorem Labelled.labels {d : Daemon K} (h : Labelled d) (k : K) :
    (ofDaemon d).label k = d.session.labelOf k := by
  show d.peers[k]?.join = d.session.peers[k]?.bind Admitted.label
  rw [h k]
  cases d.session.peers[k]? <;> rfl

theorem labelled_register (d : Daemon K) (h : Labelled d) (key : K) (name : Option String)
    (admission : Admission) (hnew : ¬ d.peers.contains key = true) :
    Labelled (d.register key name admission) := by
  have hnone : d.session.peers[key]? = none := by
    rw [ExtTreeMap.contains_iff_mem, ExtTreeMap.mem_iff_isSome_getElem?, h key] at hnew
    simpa using hnew
  intro k
  rw [AdmissionRecords.register_record]
  show (d.peers.insert key name)[k]? = _
  rw [lookup_insert]
  split_ifs with hk
  · rw [hk, hnone]
    rfl
  · exact h k

theorem labelled_addPinned (d d' : Daemon K) (h : Labelled d) (key : String) (name : Option String)
    (hadd : d.addPinned parse key name = .ok d') : Labelled d' := by
  unfold Daemon.addPinned at hadd
  split at hadd
  · cases hadd
  · split_ifs at hadd with hin
    · exact Except.ok.inj hadd ▸ h
    · exact Except.ok.inj hadd ▸ labelled_register d h _ name .key hin

theorem labelled_same (d d' : Daemon K) (h : Labelled d) (hpeers : d'.peers = d.peers)
    (hsession : ∀ k : K, d'.session.peers[k]? = d.session.peers[k]?) : Labelled d' := by
  intro k
  rw [hpeers, hsession]
  exact h k

theorem labelled_invite (d : Daemon K) (h : Labelled d) (key : String) (name : Option String)
    (expose : List Port) (bytes : Vector UInt8 32) (now : ℕ) (io : Io) :
    Labelled (d.invite parse (some key) name expose bytes now io).1 := by
  cases hadd : d.addPinned parse key name with
  | error e =>
    simp only [Daemon.invite, Daemon.pinPeer, hadd]
    exact h
  | ok d' =>
    have hd' := labelled_addPinned parse d d' h key name hadd
    have hpinned : Labelled { d' with pins := (d'.pins.add key name io).1 } :=
      labelled_same d' _ hd' rfl fun _ => rfl
    simp only [Daemon.invite, Daemon.pinPeer, hadd]
    cases (d'.pins.add key name io).2 with
    | error e => exact hpinned
    | ok u =>
      cases parse key with
      | none => exact hpinned
      | some grantee =>
        obtain ⟨-, hpeers, hsession⟩ := Restart.expose_fold grantee expose
          { d' with pins := (d'.pins.add key name io).1 }
        exact labelled_same _ _ hpinned hpeers fun k => by rw [hsession]

theorem labelled_evict (d : Daemon K) (h : Labelled d) (key : K) (io : Io) :
    Labelled (d.evict display key io) := by
  intro k
  have hrecord : (d.session.evict key).1.peers[k]? = if k = key then none else d.session.peers[k]? :=
    step_peers d.session (.evict key) k
  show (d.peers.erase key)[k]? = (d.session.evict key).1.peers[k]?.map Admitted.label
  rw [lookup_erase, hrecord]
  split_ifs
  · rfl
  · exact h k

theorem labelled_accept (d : Daemon K) (h : Labelled d) (key : K) (name : Option String) :
    Labelled (d.accept key name).1 := by
  unfold Daemon.accept
  split_ifs with hin
  · exact h
  · exact labelled_register d h key name .added hin

theorem labelled_removePeer (d : Daemon K) (h : Labelled d) (ref : String) (visit : List K)
    (io : Io) : Labelled (d.removePeer parse display ref visit io).1 := by
  unfold Daemon.removePeer
  split
  · exact h
  · split_ifs
    · exact labelled_evict display d h _ io
    · exact h

theorem labelled_message (d : Daemon K) (h : Labelled d) (conn : ConnId) (remote : K)
    (msg : PeerMessage) (now : ℕ) (io : Io) :
    Labelled (d.handleMessage display conn remote msg now io).1 := by
  have hrecord : ∀ k : K, (d.session.onUnadmitted conn remote msg now).1.peers[k]? =
      recordAfter d.session (.onUnadmitted conn remote msg now) k := by
    intro k
    rw [← step_peers]
    rfl
  cases hc : claimBy d.session (.onUnadmitted conn remote msg now) with
  | none =>
    have hany := Restart.claim_none d.session conn remote msg now hc
    simp only [Daemon.handleMessage, hany, Bool.false_eq_true, ↓reduceIte]
    refine labelled_same d _ h rfl fun k => ?_
    rw [hrecord]
    simp [recordAfter, hc]
  | some rc =>
    obtain ⟨k, c⟩ := rc
    obtain ⟨rfl, hany, -, -⟩ := Restart.claim_some display d.session conn remote k msg now c hc
    have hafter : ∀ k' : K, (d.session.onUnadmitted conn k msg now).1.peers[k']? =
        if k' = k then some ⟨c.name, .code⟩ else d.session.peers[k']? := by
      intro k'
      rw [hrecord]
      simp [recordAfter, hc]
    simp only [Daemon.handleMessage, hany, ↓reduceIte]
    intro k'
    show (d.peers.insert k _)[k']? = (d.session.onUnadmitted conn k msg now).1.peers[k']?.map _
    rw [lookup_insert, hafter]
    split_ifs with hk
    · rw [Session.labelOf, hafter, if_pos rfl]
      rfl
    · exact h k'

theorem labelled_load (pins : List Pin) (d : Daemon K) (h : Labelled d) :
    Labelled (pins.foldl (loadPin parse) d) := by
  induction pins generalizing d with
  | nil => exact h
  | cons pin pins ih =>
    refine ih _ ?_
    unfold loadPin
    split
    · exact labelled_addPinned parse d _ h pin.key pin.label (by assumption)
    · exact h

theorem labelled_next (d d' : Daemon K) (req : Request K) (h : Labelled d)
    (hnext : PinnedPeers.next parse display d req = some d') : Labelled d' := by
  cases Restart.handled_next parse display d d' req hnext with
  | invite key name expose bytes now io =>
    cases key with
    | none => exact labelled_same d _ h rfl fun _ => rfl
    | some key => exact labelled_invite parse d h key name expose bytes now io
  | accept key name => exact labelled_accept d h key name
  | forget ref visit io => exact labelled_removePeer parse display d h ref visit io
  | inbound conn remote =>
    exact labelled_same d _ h rfl fun k => step_peers d.session (.onInbound conn remote) k
  | message conn remote msg now io => exact labelled_message display d h conn remote msg now io
  | timeout conn =>
    exact labelled_same d _ h rfl fun k => step_peers d.session (.onEnrollTimeout conn) k
  | restart read fresh hup =>
    unfold Daemon.withEndpoint at hup
    split at hup
    · cases hup
    · rename_i pinned hload
      obtain rfl := Except.ok.inj hup
      refine labelled_load parse pinned _ fun k => ?_
      simp [Session.new]

theorem labelled_reached (path parent : String) (reqs : List (Request K)) (d : Daemon K)
    (h : exec (PinnedPeers.next parse display) (Daemon.new path parent) reqs = some d) :
    Labelled d := by
  refine exec_invariant (PinnedPeers.next parse display) (fun _ => True) Labelled ?_ _ ?_ reqs
    (fun _ _ => trivial) d h
  · intro s req t _ hs hst
    exact labelled_next parse display s t req hs hst
  · intro k
    simp [Daemon.new, Session.new]

/-- `forget` on one side, `project` and `unproject` on the other never guess a
peer exactly when the reference is a key of the table or no two peers share it as
their label; and the two tables have the same labels in every state reached. -/
theorem never_guesses_iff (ref : String) :
    (∀ d : Daemon K, Labelled d →
      (NeverGuesses parse (ofDaemon d) d.session ref (d.resolvePeer parse ref) ↔
        Unshared parse (ofDaemon d) ref)) ∧
    (∀ (m : PeerManager K) (s : Session K), (∀ k, (ofManager m).label k = s.labelOf k) →
      (NeverGuesses parse (ofManager m) s ref (SurfaceRequests.resolvePeer parse m ref) ↔
        Unshared parse (ofManager m) ref)) ∧
    ∀ (path parent : String) (reqs : List (Request K)) (d : Daemon K),
      exec (PinnedPeers.next parse display) (Daemon.new path parent) reqs = some d →
        Labelled d := by
  refine ⟨fun d h => ?_, fun m s h => ?_, labelled_reached parse display⟩
  · rw [daemon_resolves]
    refine table_never_guesses parse (ofDaemon d) d.session ref h.labels d.peers.keys fun k => ?_
    rw [ExtTreeMap.mem_keys]
    exact ExtTreeMap.contains_iff_mem.symm
  · rw [manager_resolves]
    refine table_never_guesses parse (ofManager m) s ref h m.peers.keys fun k => ?_
    rw [ExtTreeMap.mem_keys]
    exact ExtTreeMap.contains_iff_mem.symm

end

def acceptedAs (first second : String) : List (Request Bool) :=
  [.accept false (some first), .accept true (some second)]

theorem own_labels_never_guessed : ∃ d,
    exec (PinnedPeers.next Restart.parseKey Restart.displayKey) (Daemon.new "peers.json" ".")
      (acceptedAs "build" "broker") = some d ∧ Labelled d ∧
    d.resolvePeer Restart.parseKey "build" [false, true] = some false ∧
    NeverGuesses Restart.parseKey (ofDaemon d) d.session "build"
      (d.resolvePeer Restart.parseKey "build") := by
  obtain ⟨hforget, -, hreached⟩ := never_guesses_iff Restart.parseKey Restart.displayKey "build"
  refine ⟨_, rfl, hreached "peers.json" "." (acceptedAs "build" "broker") _ rfl, by decide +kernel, ?_⟩
  refine (hforget _ (hreached "peers.json" "." (acceptedAs "build" "broker") _ rfl)).mpr (Or.inr ?_)
  decide +kernel

/-- The first peer the table comes to is taken where the core refuses. -/
theorem shared_label_guessed : ∃ d,
    exec (PinnedPeers.next Restart.parseKey Restart.displayKey) (Daemon.new "peers.json" ".")
      (acceptedAs "build" "build") = some d ∧
    d.resolvePeer Restart.parseKey "build" [true, false] = some true ∧
    resolveGrantee Restart.parseKey d.session "build" =
      .error "more than one peer is named build, use its key" ∧
    ¬ NeverGuesses Restart.parseKey (ofDaemon d) d.session "build"
      (d.resolvePeer Restart.parseKey "build") := by
  refine ⟨_, rfl, by decide +kernel, by decide +kernel, fun h => ?_⟩
  have hnone := h.refuses [true, false] false true (by unfold Lists; decide +kernel)
    (by unfold IsKey; decide +kernel) (by decide) (by decide +kernel) (by decide +kernel)
  revert hnone
  decide +kernel

end PaiSho.References
