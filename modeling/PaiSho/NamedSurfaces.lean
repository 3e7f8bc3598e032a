import PaiSho.Restart
import PaiSho.SurfaceOutcomes

/-!
# Surfaces with a name

An announcement names the surface it makes after the peer's label or its key, so
that surface always has a name. `project` takes the name it is given or the
label, and a peer may have neither; a restart puts back what is on file. So a
surface is without a name only after a `project` that had no name to give.
-/

set_option autoImplicit false

namespace PaiSho.NamedSurfaces
open GrantTable (Port)
open Library.Traces
open RecordFiles
open PinnedPeers (Pin)
open SurfaceManager SurfacePorts SurfaceSteps SurfaceRestore SurfaceOutcomes

def NamedFile (store : SurfaceStore) : Prop :=
  ∀ record ∈ recordsOf store.content, record.name ≠ none

theorem namedFile_add (store : SurfaceStore) (key : String) (ip : IpAddr) (name : Option String)
    (io : Io) (h : NamedFile store) (hname : name ≠ none) : NamedFile (store.add key ip name io).1 := by
  intro record hin
  rcases store.mem_add key ip name io record hin with hold | rfl
  · exact h record hold
  · exact hname

theorem namedFile_remove (store : SurfaceStore) (key : String) (io : Io) (h : NamedFile store) :
    NamedFile (store.remove key io).1 := fun record hin =>
  h record (store.mem_remove key io record hin)

section
variable {K : Type} [LinearOrder K] (parse : String → Option K) (display : K → String)

def HasName (peer : Peer K) : Prop := ∀ surface, peer.surface = some surface → surface.name ≠ none

structure AllNamed (m : PeerManager K) : Prop where
  keyed : Keyed m
  records : ∀ r peer, m.records r = some peer → HasName peer
  file : NamedFile m.shared.surfaces

/-- A `project` that goes through has a name to give. -/
def Titled (m : PeerManager K) : Request K → Prop
  | .project r ip name env => ∀ peer, m.records r = some peer → Projectable m r ip env →
      name ≠ none ∨ peer.label ≠ none
  | _ => True

theorem allNamed_put (m : PeerManager K) (h : AllNamed m) (r : ℕ) (peer : Peer K) (held : Held K)
    (hr : m.records r = some peer) (hid : held.2.endpointId = peer.endpointId)
    (hnamed : HasName held.2) (hfile : NamedFile held.1.surfaces) : AllNamed (m.put r held) := by
  refine ⟨keyed_put m r peer held h.keyed hr hid, fun r' peer' hr' => ?_, hfile⟩
  rcases put_cases m r r' held peer' hr' with ⟨-, rfl⟩ | ⟨-, hold⟩
  · exact hnamed
  · exact h.records r' peer' hold

theorem allNamed_insert (m : PeerManager K) (h : AllNamed m) (key : K) (label : Option String) :
    AllNamed (m.insert key label) := by
  refine ⟨keyed_insert m key label h.keyed, fun r peer hr => ?_, h.file⟩
  rcases insert_cases m key label r peer hr with ⟨-, rfl⟩ | ⟨-, hold⟩
  · intro surface hs
    cases hs
  · exact h.records r peer hold

omit [LinearOrder K] in
theorem hasName_bare (peer : Peer K) (hs : peer.surface = none) : HasName peer := by
  intro surface h
  cases hs.symm.trans h

theorem allNamed_announce (m : PeerManager K) (h : AllNamed m) (r : ℕ) (peer : Peer K)
    (ports : List Port) (env : Env) (hr : m.records r = some peer) :
    AllNamed (m.updatePeerPorts display r peer ports env) := by
  obtain ⟨held, heq, hplace, hid, -⟩ := update_placement display m r peer ports env hr
  rw [heq]
  cases hplace with
  | kept surface hwas hsurface hquiet =>
    refine allNamed_put m h r peer held hr hid (fun surface' hs => ?_) (hquiet.surfaces ▸ h.file)
    exact h.records r peer hr surface' (hwas.trans (hsurface.symm.trans hs))
  | bare hwas hsurface hquiet hnone =>
    exact allNamed_put m h r peer held hr hid (hasName_bare _ hsurface) (hquiet.surfaces ▸ h.file)
  | auto ip hwas hports hfree hsurface hnames hfile =>
    refine allNamed_put m h r peer held hr hid (fun surface hs => ?_) ?_
    · rw [← Option.some.inj (hsurface.symm.trans hs)]
      exact Option.some_ne_none _
    · rw [hfile]
      exact namedFile_add _ _ _ _ _ h.file (Option.some_ne_none _)

theorem allNamed_project (m : PeerManager K) (h : AllNamed m) (r : ℕ) (peer : Peer K)
    (ip : Option IpAddr) (name : Option String) (env : Env) (hr : m.records r = some peer)
    (htitled : Titled m (.project r ip name env)) :
    AllNamed (m.project display r peer ip name env).1 := by
  obtain ⟨hsurface, hid, -, -, -, hfile, -⟩ := tearDown_spec (m.shared, peer) env.unclaim
  cases project_outcome display m r peer ip name env with
  | failed e hnot hproject =>
    rw [hproject]
    refine allNamed_put m h r peer _ hr hid (hasName_bare _ hsurface) ?_
    rw [hfile]
    exact h.file
  | placed ip' shared hchosen hclaim hproject =>
    have hcan : Projectable m r ip env := by
      rw [← projectable_iff display m r peer ip name env, hproject]
    have hname : name.or peer.label ≠ none := by
      rw [Ne, Option.or_eq_none_iff, not_and_or]
      exact htitled peer hr hcan
    have hclaimed := claimAddr_ok _ shared _ _ _ hclaim
    have hframe := bindPorts_frame ip' peer.exposedPorts env.tries
      (place display (shared, (tearDown (m.shared, peer) env.unclaim).2)
        ⟨ip', name.or peer.label⟩ env.io)
    rw [hproject]
    refine allNamed_put m h r peer _ hr (hframe.peer.endpointId.trans hid) (fun surface hs => ?_) ?_
    · rw [hframe.peer.surface] at hs
      rw [← Option.some.inj hs]
      exact hname
    · rw [hframe.quiet.surfaces]
      refine namedFile_add _ _ _ _ _ ?_ hname
      rw [hclaimed.surfaces, hfile]
      exact h.file

theorem allNamed_unproject (m : PeerManager K) (h : AllNamed m) (r : ℕ) (peer : Peer K)
    (ref : String) (env : Env) (hr : m.records r = some peer) :
    AllNamed (m.unproject display r peer ref env).1 := by
  rcases unproject_spec display m r peer ref env with ⟨-, heq⟩ | ⟨shared, heq, hfile⟩
  · rw [heq]
    exact h
  · rw [heq]
    refine allNamed_put m h r peer _ hr (dropSurface_frame (m.shared, peer)).2.1
      (hasName_bare _ rfl) ?_
    rcases hfile with hsame | hremoved
    · exact hsame ▸ h.file
    · exact hremoved ▸ namedFile_remove _ _ _ h.file

theorem allNamed_evict (m : PeerManager K) (h : AllNamed m) (key : K) (env : Env) :
    AllNamed (m.evict display key env) := by
  have hev := evict_spec display m key env h.keyed
  refine ⟨keyed_evict display m key env h.keyed, fun r peer hr => ?_, ?_⟩
  · by_cases hkey : m.peers[key]? = some r
    · obtain ⟨old, hold, -⟩ := h.keyed.owned key r hkey
      rw [hev.dropped r old hkey hold] at hr
      exact hasName_bare peer (Option.some.inj hr ▸ rfl)
    · rw [hev.other r hkey] at hr
      exact h.records r peer hr
  · rw [hev.file]
    exact namedFile_remove _ _ _ h.file

theorem restoreAll_named (records : List SurfaceRecord) (ran : ℕ → Except String Unit)
    (m : PeerManager K) (h : AllNamed m) (hrecords : ∀ record ∈ records, record.name ≠ none) :
    AllNamed (restoreAll parse records ran m) := by
  induction records generalizing ran m with
  | nil => exact h
  | cons record records ih =>
    refine ih _ _ ?_ fun record' hin => hrecords record' (List.mem_cons_of_mem _ hin)
    rcases restoreOne_cases parse m record (ran 0) h.keyed with
      ⟨heq, -⟩ | ⟨k, r, peer, shared, -, -, hpeer, hclaim, heq⟩
    · rw [heq]
      exact h
    · rw [heq]
      refine allNamed_put m h r peer _ hpeer rfl (fun surface hs => ?_) ?_
      · rw [← Option.some.inj hs]
        exact hrecords record (by simp)
      · rw [(claimAddr_ok _ _ _ _ _ hclaim).surfaces]
        exact h.file

theorem allNamed_restart (m : PeerManager K) (h : AllNamed m) (pinned : List Pin) (config : Config)
    (env : Env) : AllNamed (m.restart parse pinned config env) := by
  have hload := loaded_all parse pinned m.shared config
  have hfile := congrArg Shared.surfaces hload.shared
  have hblank : AllNamed (pinned.foldl (PeerManager.addPinned parse)
      (PeerManager.boot m.shared config)) := by
    refine ⟨hload.keyed, fun r peer hr => hasName_bare peer (hload.blank r peer hr).1, ?_⟩
    rw [hfile]
    exact h.file
  unfold PeerManager.restart PeerManager.restoreSurfaces
  rw [hfile]
  cases hrecords : m.shared.surfaces.load env.io.read with
  | error e => exact hblank
  | ok records =>
    refine restoreAll_named parse records env.claims _ hblank fun record hin => ?_
    exact h.file record (load_records _ _ records hrecords record hin)

theorem allNamed_next (m m' : PeerManager K) (req : Request K) (htitled : Titled m req)
    (h : AllNamed m) (hnext : next parse display m req = some m') : AllNamed m' := by
  cases served_next parse display m m' req hnext with
  | add key label hnew =>
    exact allNamed_insert m h key label
  | enroll key label =>
    exact allNamed_insert m h key label
  | announce r ports env peer hr =>
    exact allNamed_announce display m h r peer ports env hr
  | project r ip name env peer hr =>
    exact allNamed_project display m h r peer ip name env hr htitled
  | unproject r ref env peer hr =>
    exact allNamed_unproject display m h r peer ref env hr
  | forget key env =>
    exact allNamed_evict display m h key env
  | restart pinned config env =>
    exact allNamed_restart parse m h pinned config env

/-- As long as every `project` has a name to give, every surface has one. -/
theorem surfaces_named (os : Os) (path parent : String) (config : Config)
    (reqs : List (Request K)) (m : PeerManager K)
    (htitled : Along (next parse display) Titled (PeerManager.new os path parent config) reqs)
    (h : Reached parse display os path parent config reqs m) (k : K) (surface : Surface)
    (hs : surfaceOf m k = some surface) : surface.name ≠ none := by
  have hall : AllNamed m := by
    refine along_invariant (next parse display) Titled AllNamed ?_ _ ?_ reqs htitled m h
    · intro s req t hok hs hnext
      exact allNamed_next parse display s t req hok hs hnext
    · refine ⟨keyed_new os path parent config, fun r peer hr => ?_, fun record hin => ?_⟩
      · cases hr
      · cases hin
  obtain ⟨r, peer, -, hr, hsurface⟩ := (surfaceOf_eq_some m k surface).mp hs
  exact hall.records r peer hr surface hsurface

end

def pinnedAddress : List (Request Bool) :=
  [.add false (some "build"), .announce 0 [80] {}, .project 0 (some (loopbackBase.host 9)) none {},
    .restart [⟨Restart.deskKey, some "build"⟩] {} {}]

theorem pinned_address_named : ∃ m,
    Reached Restart.parseKey Restart.displayKey .linux "surfaces.json" "." {} pinnedAddress m ∧
    surfaceOf m false = some ⟨loopbackBase.host 9, some "build"⟩ ∧
    ∀ surface, surfaceOf m false = some surface → surface.name ≠ none := by
  refine ⟨_, rfl, ?_, ?_⟩
  · decide +kernel
  · refine surfaces_named Restart.parseKey Restart.displayKey .linux "surfaces.json" "." {}
      pinnedAddress _ ?_ rfl false
    refine ⟨trivial, ?_⟩
    rintro _ ⟨⟩
    refine ⟨trivial, ?_⟩
    rintro _ ⟨⟩
    refine ⟨?_, ?_⟩
    · rintro peer ⟨⟩ -
      exact Or.inr (by decide +kernel)
    rintro _ ⟨⟩
    exact ⟨trivial, fun _ _ => trivial⟩

/-- A peer nobody labelled, projected without `--as`. -/
def unlabelled : List (Request Bool) := [.add false none, .project 0 none none {}]

theorem unlabelled_unnamed : ∃ m,
    Reached Restart.parseKey Restart.displayKey .linux "surfaces.json" "." {} unlabelled m ∧
    surfaceOf m false = some ⟨loopbackBase.host 2, none⟩ := by
  refine ⟨_, rfl, ?_⟩
  decide +kernel

end PaiSho.NamedSurfaces
