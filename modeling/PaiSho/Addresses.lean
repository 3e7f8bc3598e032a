import PaiSho.SurfaceRestore
import PaiSho.Restart

/-!
# One address, one peer

Allocation looks at every surface of the table, so an automatic address is free
there. An address typed into `project` is not looked at, and neither is the file
a restart puts back. As long as no peer is given an address that another has or
that the file keeps for another, no two peers of the table ever share one,
restored or not, and an accepted connection is routed to the only owner of its
address.
-/

set_option autoImplicit false

namespace PaiSho.Addresses
open RecordFiles Library.Traces
open PinnedPeers (Pin)
open SurfaceManager SurfacePorts SurfaceSteps SurfaceRestore

section
variable {K : Type} [LinearOrder K] (parse : String → Option K) (display : K → String)

def Distinct (m : PeerManager K) : Prop :=
  ∀ k k' surface surface', surfaceOf m k = some surface → surfaceOf m k' = some surface' →
    surface.ip = surface'.ip → k = k'

/-- An address named for a peer is no other peer's, and no two of the records a
restart puts back have the same address. -/
def Separate (m : PeerManager K) : Request K → Prop
  | .project r (some ip) _ _ => ∀ k, m.peers[k]? = some r → ∀ k' surface, k' ≠ k →
      surfaceOf m k' = some surface → surface.ip ≠ ip
  | .restart pinned _ env => ∀ records, m.shared.surfaces.load env.io.read = .ok records →
      ∀ record ∈ records, ∀ record' ∈ records, record.ip = record'.ip → ∀ k k',
        parse record.key = some k → parse record'.key = some k' →
        (∃ pin ∈ pinned, parse pin.key = some k) → (∃ pin ∈ pinned, parse pin.key = some k') →
        k = k'
  | _ => True

def Picks (m : PeerManager K) (key : K) (ip : IpAddr) : Request K → Prop
  | .announce r ports _ => ∃ peer, m.records r = some peer ∧ peer.endpointId = key ∧
      peer.surface = none ∧ ports ≠ [] ∧ allocate m.projectedIps m.shared.surfaceBase = .ok ip
  | .project r asked _ env => ∃ peer, m.records r = some peer ∧ peer.endpointId = key ∧
      choose (m.put r (tearDown (m.shared, peer) env.unclaim)).projectedIps m.shared.surfaceBase
        asked = .ok ip
  | _ => False

/-- What a request picks for a peer is on no other peer's surface, and the file
has it for no other. -/
def Allowed (m : PeerManager K) (req : Request K) : Prop := ∀ key ip, Picks m key ip req →
  (∀ k surface, k ≠ key → surfaceOf m k = some surface → surface.ip ≠ ip) ∧
  ∀ record ∈ recordsOf m.shared.surfaces.content, record.ip = ip → record.key = display key

def FileApart (store : SurfaceStore) : Prop :=
  ∀ record ∈ recordsOf store.content, ∀ record' ∈ recordsOf store.content,
    record.ip = record'.ip → ∀ k k', parse record.key = some k → parse record'.key = some k' → k = k'

theorem distinct_put (m : PeerManager K) (r : ℕ) (held : Held K) (hm : Keyed m) (h : Distinct m)
    (hnew : ∀ k, m.peers[k]? = some r → ∀ surface, held.2.surface = some surface →
      ∀ k' surface', k' ≠ k → surfaceOf m k' = some surface' → surface'.ip ≠ surface.ip) :
    Distinct (m.put r held) := by
  intro k k' surface surface' hs hs' hip
  by_cases hk : m.peers[k]? = some r
  · rw [surfaceOf_put_self m k r held hk] at hs
    by_cases hk' : m.peers[k']? = some r
    · exact hm.key_eq hk hk'
    · rw [surfaceOf_put_other m k' r held hk'] at hs'
      by_contra hne
      exact hnew k hk surface hs k' surface' (Ne.symm hne) hs' hip.symm
  · rw [surfaceOf_put_other m k r held hk] at hs
    by_cases hk' : m.peers[k']? = some r
    · rw [surfaceOf_put_self m k' r held hk'] at hs'
      by_contra hne
      exact hnew k' hk' surface' hs' k surface hne hs hip
    · rw [surfaceOf_put_other m k' r held hk'] at hs'
      exact h k k' surface surface' hs hs' hip

theorem distinct_of_sub (m m' : PeerManager K) (h : Distinct m)
    (hsub : ∀ k surface, surfaceOf m' k = some surface → surfaceOf m k = some surface) :
    Distinct m' := by
  intro k k' surface surface' hs hs' hip
  exact h k k' surface surface' (hsub k surface hs) (hsub k' surface' hs') hip

theorem distinct_insert (m : PeerManager K) (key : K) (label : Option String) (hm : Keyed m)
    (h : Distinct m) : Distinct (m.insert key label) := by
  apply distinct_of_sub m _ h
  intro k surface hs
  rw [surfaceOf_insert m key k label hm] at hs
  split_ifs at hs
  exact hs

theorem distinct_announce (m : PeerManager K) (r : ℕ) (peer : Peer K) (held : Held K)
    (ports : List GrantTable.Port) (env : Env) (hm : Keyed m) (h : Distinct m)
    (hr : m.records r = some peer) (hplace : Placement display m peer ports env held) :
    Distinct (m.put r held) := by
  apply distinct_put m r held hm h
  intro k hk surface hs k' surface' hne hs' hip
  have hwas := surfaceOf_record m k r peer hk hr
  cases hplace with
  | kept old hold hsurface =>
    obtain rfl := Option.some.inj (hsurface.symm.trans hs)
    exact hne (h k' k surface' old hs' (hwas.trans hold) hip)
  | bare hold hsurface =>
    cases hsurface.symm.trans hs
  | auto ip hold hports hfree hsurface =>
    -- what allocation gives is on no surface of the table
    obtain rfl := Option.some.inj (hsurface.symm.trans hs)
    refine allocate_free _ _ ip hfree ?_
    exact (mem_projectedIps m ip).mpr ⟨k', surface', hs', hip⟩

theorem distinct_project (m : PeerManager K) (r : ℕ) (peer : Peer K) (held : Held K)
    (ip : Option IpAddr) (name : Option String) (env : Env) (hm : Keyed m) (h : Distinct m)
    (hok : Separate parse m (.project r ip name env))
    (hproj : Projected display m r peer ip name env held) : Distinct (m.put r held) := by
  apply distinct_put m r held hm h
  intro k hk surface hs k' surface' hne hs'
  cases hproj with
  | failed hheld =>
    have hnone := (tearDown_spec (m.shared, peer) env.unclaim).1
    rw [hheld, hnone] at hs
    cases hs
  | placed ip' hchosen hsurface =>
    obtain rfl := Option.some.inj (hsurface.symm.trans hs)
    cases ip with
    | some asked =>
      obtain rfl := Except.ok.inj hchosen
      exact hok k hk k' surface' hne hs'
    | none =>
      intro hip
      refine allocate_free _ _ ip' hchosen ?_
      refine (mem_projectedIps _ ip').mpr ⟨k', surface', ?_, hip⟩
      rw [surfaceOf_put_ne m hm k k' r _ hk hne, hs']

theorem distinct_evict (m : PeerManager K) (key : K) (env : Env) (hm : Keyed m) (h : Distinct m) :
    Distinct (m.evict display key env) := by
  apply distinct_of_sub m _ h
  intro k surface hs
  rw [surfaceOf_evict display m key k env hm] at hs
  split_ifs at hs
  exact hs

theorem distinct_restart (m : PeerManager K) (pinned : List Pin) (config : Config) (env : Env)
    (hok : Separate parse m (.restart pinned config env)) :
    Distinct (m.restart parse pinned config env) := by
  have h := restart_spec parse m pinned config env
  intro k k' surface surface' hs hs' hip
  have hk := (h.peers k).mp (mem_of_surfaceOf _ k surface hs)
  have hk' := (h.peers k').mp (mem_of_surfaceOf _ k' surface' hs')
  obtain ⟨records, hload, record, hin, hkey, rfl⟩ := h.surface k surface hs
  obtain ⟨records', hload', record', hin', hkey', rfl⟩ := h.surface k' surface' hs'
  obtain rfl := Except.ok.inj (hload.symm.trans hload')
  exact hok records hload record hin record' hin' hip k k' hkey hkey' hk hk'

theorem distinct_next (m m' : PeerManager K) (req : Request K) (hok : Separate parse m req)
    (hm : Keyed m) (h : Distinct m) (hnext : next parse display m req = some m') :
    Distinct m' := by
  cases served_next parse display m m' req hnext with
  | add key label hnew =>
    exact distinct_insert m key label hm h
  | enroll key label =>
    exact distinct_insert m key label hm h
  | announce r ports env peer hr =>
    obtain ⟨held, heq, hplace, -⟩ := update_placement display m r peer ports env hr
    rw [heq]
    exact distinct_announce display m r peer held ports env hm h hr hplace
  | project r ip name env peer hr =>
    obtain ⟨held, heq, hproj, -⟩ := project_spec display m r peer ip name env
    rw [heq]
    exact distinct_project parse display m r peer held ip name env hm h hok hproj
  | unproject r ref env peer hr =>
    rcases unproject_spec display m r peer ref env with ⟨-, heq⟩ | ⟨shared, heq, -⟩
    · rw [heq]
      exact h
    · rw [heq]
      apply distinct_put m r _ hm h
      intro k hk surface hs
      cases hs
  | forget key env =>
    exact distinct_evict display m key env hm h
  | restart pinned config env =>
    exact distinct_restart parse m pinned config env hok

omit [LinearOrder K] in
theorem fileApart_sub (store store' : SurfaceStore) (h : FileApart parse store)
    (hsub : ∀ record ∈ recordsOf store'.content, record ∈ recordsOf store.content) :
    FileApart parse store' := fun record hin record' hin' =>
  h record (hsub record hin) record' (hsub record' hin')

omit [LinearOrder K] in
theorem fileApart_add (store : SurfaceStore) (key : K) (ip : IpAddr) (name : Option String) (io : Io)
    (h : FileApart parse store)
    (hfree : ∀ record ∈ recordsOf store.content, record.ip = ip → record.key = display key) :
    FileApart parse (store.add (display key) ip name io).1 := by
  have hkey : ∀ record ∈ recordsOf (store.add (display key) ip name io).1.content,
      record.ip = ip → record.key = display key := by
    intro record hin hip
    rcases store.mem_add _ _ _ _ record hin with hold | rfl
    · exact hfree record hold hip
    · rfl
  intro record hin record' hin' hip k k' hk hk'
  by_cases hat : record.ip = ip
  · rw [hkey record hin hat, ← hkey record' hin' (hip ▸ hat)] at hk
    exact Option.some.inj (hk.symm.trans hk')
  · rcases store.mem_add _ _ _ _ record hin with hold | rfl
    · rcases store.mem_add _ _ _ _ record' hin' with hold' | rfl
      · exact h record hold record' hold' hip k k' hk hk'
      · exact absurd hip hat
    · exact absurd rfl hat

theorem fileApart_next (m m' : PeerManager K) (req : Request K) (hok : Allowed display m req)
    (hm : Keyed m) (h : FileApart parse m.shared.surfaces)
    (hnext : next parse display m req = some m') : FileApart parse m'.shared.surfaces := by
  cases served_next parse display m m' req hnext with
  | add key label hnew => exact h
  | enroll key label => exact h
  | announce r ports env peer hr =>
    obtain ⟨held, heq, hplace, -⟩ := update_placement display m r peer ports env hr
    rw [heq, put_shared]
    cases hplace with
    | kept surface hwas hsurface hquiet => exact hquiet.surfaces ▸ h
    | bare hwas hsurface hquiet hnone => exact hquiet.surfaces ▸ h
    | auto ip hwas hports hfree hsurface hnames hfile =>
      rw [hfile]
      have hpicked := hok peer.endpointId ip ⟨peer, hr, rfl, hwas, hports, hfree⟩
      exact fileApart_add parse display _ _ _ _ _ h hpicked.2
  | project r ip name env peer hr =>
    obtain ⟨held, heq, hproj, -⟩ := project_spec display m r peer ip name env
    rw [heq, put_shared]
    cases hproj with
    | failed hheld =>
      obtain ⟨-, -, -, -, -, hfile, -⟩ := tearDown_spec (m.shared, peer) env.unclaim
      rw [hheld, hfile]
      exact h
    | placed ip' hchosen hsurface hfile =>
      rw [hfile]
      have hpicked := hok peer.endpointId ip' ⟨peer, hr, rfl, hchosen⟩
      exact fileApart_add parse display _ _ _ _ _ h hpicked.2
  | unproject r ref env peer hr =>
    rcases unproject_spec display m r peer ref env with ⟨-, heq⟩ | ⟨shared, heq, hsame | hfile⟩
    · rw [heq]
      exact h
    · rw [heq, put_shared, hsame]
      exact h
    · rw [heq, put_shared, hfile]
      exact fileApart_sub parse _ _ h (m.shared.surfaces.mem_remove _ _)
  | forget key env =>
    rw [(evict_spec display m key env hm).file]
    exact fileApart_sub parse _ _ h (m.shared.surfaces.mem_remove _ _)
  | restart pinned config env =>
    rw [(restart_spec parse m pinned config env).file]
    exact h

theorem separate_of_allowed (m : PeerManager K) (req : Request K) (hok : Allowed display m req)
    (hm : Keyed m) (hfile : FileApart parse m.shared.surfaces) : Separate parse m req := by
  cases req with
  | project r asked name env =>
    cases asked with
    | none => trivial
    | some ip =>
      intro k hk k' surface hne hs
      obtain ⟨peer, hr, hkey⟩ := hm.owned k r hk
      exact (hok k ip ⟨peer, hr, hkey, rfl⟩).1 k' surface hne hs
  | restart pinned config env =>
    intro records hload record hin record' hin' hip k k' hk hk' _ _
    have hsub := load_records _ _ records hload
    exact hfile record (hsub record hin) record' (hsub record' hin') hip k k' hk hk'
  | _ => trivial

/-- No two peers of the table have surfaces at one address, and in whatever
order the table is gone through an address leads to its only owner. -/
structure OneOwner (m : PeerManager K) : Prop where
  distinct : Distinct m
  routed : ∀ (visit : List K), (∀ k, k ∈ visit ↔ k ∈ m.peers) → ∀ ip peer,
    m.peerForIp visit ip = some peer ↔
      ∃ k, m.get k = some peer ∧ peer.surface.map Surface.ip = some ip

theorem routed_of_distinct (m : PeerManager K) (h : Distinct m) (visit : List K)
    (hvisit : ∀ k, k ∈ visit ↔ k ∈ m.peers) (ip : IpAddr) (peer : Peer K) :
    m.peerForIp visit ip = some peer ↔
      ∃ k, m.get k = some peer ∧ peer.surface.map Surface.ip = some ip := by
  have hfound : ∀ found, m.peerForIp visit ip = some found →
      ∃ k, m.get k = some found ∧ found.surface.map Surface.ip = some ip := by
    intro found hf
    obtain ⟨k, -, hget⟩ := List.mem_filterMap.mp (List.mem_of_find?_eq_some hf)
    exact ⟨k, hget, by simpa using List.find?_some hf⟩
  constructor
  · exact hfound peer
  · rintro ⟨k, hget, hip⟩
    obtain ⟨surface, hs, rfl⟩ := Option.map_eq_some_iff.mp hip
    have hk : k ∈ m.peers :=
      mem_of_surfaceOf m k surface (Option.bind_eq_some_iff.mpr ⟨peer, hget, hs⟩)
    have hin : peer ∈ visit.filterMap m.get :=
      List.mem_filterMap.mpr ⟨k, (hvisit k).mpr hk, hget⟩
    cases hfind : m.peerForIp visit surface.ip with
    | none =>
      have := List.find?_eq_none.mp hfind peer hin
      simp [hs] at this
    | some found =>
      obtain ⟨k', hget', hip'⟩ := hfound found hfind
      obtain ⟨surface', hs', heq⟩ := Option.map_eq_some_iff.mp hip'
      have hsame := h k' k surface' surface (Option.bind_eq_some_iff.mpr ⟨found, hget', hs'⟩)
        (Option.bind_eq_some_iff.mpr ⟨peer, hget, hs⟩) heq
      rw [hsame] at hget'
      exact hget'.symm.trans hget

theorem one_address_one_peer (os : Os) (path parent : String) (config : Config)
    (reqs : List (Request K)) (m : PeerManager K)
    (hok : Along (next parse display) (Allowed display) (PeerManager.new os path parent config) reqs)
    (h : Reached parse display os path parent config reqs m) : OneOwner m := by
  have hall : Keyed m ∧ Distinct m ∧ FileApart parse m.shared.surfaces := by
    refine along_invariant (next parse display) (Allowed display)
      (fun m => Keyed m ∧ Distinct m ∧ FileApart parse m.shared.surfaces) ?_ _
      ⟨keyed_new os path parent config, ?_, ?_⟩ reqs hok m h
    · rintro s req t hallowed ⟨hs, hd, hfile⟩ hnext
      exact ⟨keyed_next parse display s t req hs hnext,
        distinct_next parse display s t req
          (separate_of_allowed parse display s req hallowed hs hfile) hs hd hnext,
        fileApart_next parse display s t req hallowed hs hfile hnext⟩
    · intro k k' surface surface' hs
      simp [surfaceOf, PeerManager.get, PeerManager.new, PeerManager.boot] at hs
    · intro record hin
      cases hin
  exact ⟨hall.2.1, routed_of_distinct m hall.2.1⟩

end

def pinnedBoth : List Pin := [⟨Restart.deskKey, none⟩, ⟨Restart.boxKey, none⟩]

def projectedBoth : List (Request Bool) :=
  [.add false none, .add true none, .announce 0 [80] {},
    .project 1 (some (loopbackBase.host 9)) none {}, .restart pinnedBoth {} {}]

theorem projected_both_owned :
    ∃ m, Reached Restart.parseKey Restart.displayKey .linux "surfaces.json" "." {}
      projectedBoth m ∧ surfaceOf m false = some ⟨loopbackBase.host 2, some "8a88e3dd"⟩ ∧
      surfaceOf m true = some ⟨loopbackBase.host 9, none⟩ ∧ OneOwner m := by
  refine ⟨_, rfl, ?_, ?_, ?_⟩
  · decide +kernel
  · decide +kernel
  · refine one_address_one_peer Restart.parseKey Restart.displayKey .linux "surfaces.json" "."
      {} projectedBoth _ ?_ rfl
    refine ⟨fun _ _ => nofun, ?_⟩
    rintro _ ⟨⟩
    refine ⟨fun _ _ => nofun, ?_⟩
    rintro _ ⟨⟩
    -- nobody has a surface yet, and there is no file
    refine ⟨fun key ip _ => ⟨fun k surface _ hs => ?_, fun record hin => ?_⟩, ?_⟩
    · cases k <;> cases hs
    · cases hin
    rintro _ ⟨⟩
    refine ⟨?_, ?_⟩
    · rintro key ip ⟨peer, hr, rfl, hchosen⟩
      obtain rfl : (⟨true, none, [], none, []⟩ : Peer Bool) = peer := Option.some.inj hr
      obtain rfl : loopbackBase.host 9 = ip := Except.ok.inj hchosen
      refine ⟨fun k surface hne hs hip => ?_, by decide +kernel⟩
      obtain rfl : k = false := Bool.eq_false_iff.mpr hne
      have hat := congrArg (Option.map Surface.ip) hs
      rw [Option.map_some, hip] at hat
      exact absurd hat (by decide +kernel)
    rintro _ ⟨⟩
    exact ⟨fun _ _ => nofun, fun _ _ => trivial⟩

def projectedTwice : List (Request Bool) :=
  [.add false none, .add true none, .project 0 (some (loopbackBase.host 9)) none {},
    .project 1 (some (loopbackBase.host 9)) none {}]

theorem projected_twice_shared :
    ∃ m, Reached Restart.parseKey Restart.displayKey .linux "surfaces.json" "." {}
      projectedTwice m ∧ ¬ OneOwner m := by
  refine ⟨_, rfl, fun h => ?_⟩
  have hsame := h.distinct false true ⟨loopbackBase.host 9, none⟩ ⟨loopbackBase.host 9, none⟩
    (by decide +kernel) (by decide +kernel) rfl
  cases hsame

end PaiSho.Addresses
