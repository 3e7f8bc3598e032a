import PaiSho.SurfaceRestore
import PaiSho.Restart

/-!
# Projections across a restart

Every surface that is set is filed under its key, so the file has the surfaces
of the table as long as it can be written. A restart puts them back, but only on
the peers it has loaded by then, which are the pinned ones; a peer named by
`--accept` is added afterwards and starts without a surface, while its address
is free for anybody. For a pinned peer whose address can be claimed and is on
file for nobody else, the restart keeps address and name.
-/

set_option autoImplicit false

namespace PaiSho.Projections
open GrantTable (Port)
open Library.Traces
open RecordFiles
open PinnedPeers (Pin parse_display_iff)
open SurfaceManager SurfacePorts SurfaceSteps SurfaceRestore

section
variable {K : Type} [LinearOrder K] (parse : String → Option K) (display : K → String)

/-- The file has every surface of the table under its key's own text, and one
record at most for a key. -/
structure Filed (m : PeerManager K) : Prop where
  clean : m.shared.surfaces.content ≠ .garbled
  canonical : ∀ record ∈ recordsOf m.shared.surfaces.content, ∃ k, record.key = display k
  once : ∀ record ∈ recordsOf m.shared.surfaces.content,
    ∀ record' ∈ recordsOf m.shared.surfaces.content, record.key = record'.key → record = record'
  live : ∀ k surface, surfaceOf m k = some surface →
    ⟨display k, surface.ip, surface.name⟩ ∈ recordsOf m.shared.surfaces.content

/-- A request whose file access succeeds, on the record its key stands for. -/
def Orderly (m : PeerManager K) : Request K → Prop
  | .announce r _ env =>
    (∃ k : K, m.peers[k]? = some r) ∧ env.io.read = .done ∧ env.io.write = .done
  | .project r _ _ env =>
    (∃ k : K, m.peers[k]? = some r) ∧ env.io.read = .done ∧ env.io.write = .done
  | .unproject r _ env =>
    (∃ k : K, m.peers[k]? = some r) ∧ env.io.read = .done ∧ env.io.write = .done
  | .forget _ env => env.io.read = .done ∧ env.io.write = .done
  | .restart _ _ env => env.io.read = .done
  | _ => True

theorem filed_file (m m' : PeerManager K) (h : Filed display m)
    (hfile : m'.shared.surfaces = m.shared.surfaces)
    (hlive : ∀ k surface, surfaceOf m' k = some surface →
      ⟨display k, surface.ip, surface.name⟩ ∈ recordsOf m.shared.surfaces.content) :
    Filed display m' := by
  constructor
  case clean =>
    rw [hfile]
    exact h.clean
  case canonical =>
    rw [hfile]
    exact h.canonical
  case once =>
    rw [hfile]
    exact h.once
  case live =>
    rw [hfile]
    exact hlive

theorem filed_same (m m' : PeerManager K) (h : Filed display m)
    (hfile : m'.shared.surfaces = m.shared.surfaces)
    (hsub : ∀ k surface, surfaceOf m' k = some surface → surfaceOf m k = some surface) :
    Filed display m' :=
  filed_file display m m' h hfile fun k surface hs => h.live k surface (hsub k surface hs)

theorem filed_insert (m : PeerManager K) (key : K) (label : Option String) (hm : Keyed m)
    (h : Filed display m) : Filed display (m.insert key label) := by
  refine filed_same display m _ h rfl fun k surface hs => ?_
  rw [surfaceOf_insert m key k label hm] at hs
  split_ifs at hs
  exact hs

section
variable (hparse : ∀ k, parse (display k) = some k)
include hparse

theorem filed_add (m m' : PeerManager K) (key : K) (surface : Surface) (io : Io) (h : Filed display m)
    (hr : io.read = .done) (hw : io.write = .done)
    (hfile : m'.shared.surfaces =
      (m.shared.surfaces.add (display key) surface.ip surface.name io).1)
    (hself : surfaceOf m' key = some surface)
    (hother : ∀ k, k ≠ key → surfaceOf m' k = surfaceOf m k) : Filed display m' := by
  have hcontent : m'.shared.surfaces.content = .records ((recordsOf m.shared.surfaces.content).filter
      (fun record => record.key ≠ display key) ++ [⟨display key, surface.ip, surface.name⟩]) := by
    rw [hfile, SurfaceStore.add, update_done m.shared.surfaces _ io h.clean hr hw]
  have hmem : ∀ record, record ∈ recordsOf m'.shared.surfaces.content ↔
      (record ∈ recordsOf m.shared.surfaces.content ∧ record.key ≠ display key) ∨
        record = ⟨display key, surface.ip, surface.name⟩ := by
    intro record
    rw [hcontent]
    simp
  constructor
  case clean =>
    simp [hcontent]
  case canonical =>
    intro record hin
    rcases (hmem record).mp hin with ⟨hold, -⟩ | rfl
    · exact h.canonical record hold
    · exact ⟨key, rfl⟩
  case once =>
    intro record hin record' hin' hkey
    rcases (hmem record).mp hin with ⟨hold, hne⟩ | rfl
    · rcases (hmem record').mp hin' with ⟨hold', -⟩ | rfl
      · exact h.once record hold record' hold' hkey
      · exact absurd hkey hne
    · rcases (hmem record').mp hin' with ⟨-, hne'⟩ | rfl
      · exact absurd hkey.symm hne'
      · rfl
  case live =>
    intro k s hs
    apply (hmem _).mpr
    by_cases hk : k = key
    · subst hk
      obtain rfl := Option.some.inj (hself.symm.trans hs)
      exact Or.inr rfl
    · rw [hother k hk] at hs
      refine Or.inl ⟨h.live k s hs, fun heq => hk ?_⟩
      exact (parse_display_iff parse display hparse k key).mp ((congrArg parse heq).trans (hparse key))

theorem filed_remove (m m' : PeerManager K) (key : K) (io : Io) (h : Filed display m)
    (hr : io.read = .done) (hw : io.write = .done)
    (hfile : m'.shared.surfaces = (m.shared.surfaces.remove (display key) io).1)
    (hsub : ∀ k surface, surfaceOf m' k = some surface →
      k ≠ key ∧ surfaceOf m k = some surface) : Filed display m' := by
  have hcontent : m'.shared.surfaces.content = .records ((recordsOf m.shared.surfaces.content).filter
      (fun record => record.key ≠ display key)) := by
    rw [hfile, SurfaceStore.remove, update_done m.shared.surfaces _ io h.clean hr hw]
  have hmem : ∀ record, record ∈ recordsOf m'.shared.surfaces.content ↔
      record ∈ recordsOf m.shared.surfaces.content ∧ record.key ≠ display key := by
    intro record
    rw [hcontent]
    simp
  constructor
  case clean =>
    simp [hcontent]
  case canonical =>
    intro record hin
    exact h.canonical record ((hmem record).mp hin).1
  case once =>
    intro record hin record' hin'
    exact h.once record ((hmem record).mp hin).1 record' ((hmem record').mp hin').1
  case live =>
    intro k surface hs
    obtain ⟨hk, hwas⟩ := hsub k surface hs
    refine (hmem _).mpr ⟨h.live k surface hwas, fun heq => hk ?_⟩
    exact (parse_display_iff parse display hparse k key).mp ((congrArg parse heq).trans (hparse key))

theorem filed_announce (m : PeerManager K) (r : ℕ) (peer : Peer K) (ports : List Port) (env : Env)
    (hm : Keyed m) (h : Filed display m) (hok : Orderly m (.announce r ports env))
    (hr : m.records r = some peer) :
    Filed display (m.updatePeerPorts display r peer ports env) := by
  obtain ⟨⟨key, hkey⟩, hread, hwrite⟩ := hok
  obtain ⟨held, heq, hplace, -⟩ := update_placement display m r peer ports env hr
  obtain ⟨peer', hpeer', hid⟩ := hm.owned key r hkey
  obtain rfl := Option.some.inj (hr.symm.trans hpeer')
  have hself := surfaceOf_put_self m key r held hkey
  have hother := fun k => surfaceOf_put_ne m hm key k r held hkey
  have hwas := surfaceOf_record m key r peer hkey hr
  rw [heq]
  cases hplace with
  | kept surface hold hnow hquiet =>
    refine filed_same display m _ h hquiet.surfaces fun k s hs => ?_
    by_cases hk : k = key
    · subst hk
      rw [hself, hnow] at hs
      rw [hwas, hold, hs]
    · exact (hother k hk).symm.trans hs
  | bare hold hnow hquiet =>
    refine filed_same display m _ h hquiet.surfaces fun k s hs => ?_
    by_cases hk : k = key
    · subst hk
      rw [hself, hnow] at hs
      cases hs
    · exact (hother k hk).symm.trans hs
  | auto ip hold hports hfree hnow hnames hfile =>
    rw [hid] at hfile
    exact filed_add parse display hparse m _ key ⟨ip, _⟩ env.io h hread hwrite hfile
      (hself.trans hnow) hother

theorem filed_project (m : PeerManager K) (r : ℕ) (peer : Peer K) (ip : Option IpAddr)
    (name : Option String) (env : Env) (hm : Keyed m) (h : Filed display m)
    (hok : Orderly m (.project r ip name env)) (hr : m.records r = some peer) :
    Filed display (m.project display r peer ip name env).1 := by
  obtain ⟨⟨key, hkey⟩, hread, hwrite⟩ := hok
  obtain ⟨held, heq, hproj, -⟩ := project_spec display m r peer ip name env
  obtain ⟨peer', hpeer', hid⟩ := hm.owned key r hkey
  obtain rfl := Option.some.inj (hr.symm.trans hpeer')
  have hself := surfaceOf_put_self m key r held hkey
  have hother := fun k => surfaceOf_put_ne m hm key k r held hkey
  rw [heq]
  cases hproj with
  | failed hheld =>
    obtain ⟨hnone, -, -, -, -, hfile, -⟩ := tearDown_spec (m.shared, peer) env.unclaim
    refine filed_same display m _ h (by rw [put_shared, hheld]; exact hfile) fun k s hs => ?_
    by_cases hk : k = key
    · subst hk
      rw [hself, hheld, hnone] at hs
      cases hs
    · exact (hother k hk).symm.trans hs
  | placed ip' hchosen hnow hfile =>
    rw [hid] at hfile
    exact filed_add parse display hparse m _ key ⟨ip', _⟩ env.io h hread hwrite hfile
      (hself.trans hnow) hother

theorem filed_unproject (m : PeerManager K) (r : ℕ) (peer : Peer K) (ref : String) (env : Env)
    (hm : Keyed m) (h : Filed display m) (hok : Orderly m (.unproject r ref env))
    (hr : m.records r = some peer) :
    Filed display (m.unproject display r peer ref env).1 := by
  obtain ⟨⟨key, hkey⟩, hread, hwrite⟩ := hok
  obtain ⟨peer', hpeer', hid⟩ := hm.owned key r hkey
  obtain rfl := Option.some.inj (hr.symm.trans hpeer')
  rcases unproject_spec display m r peer ref env with ⟨-, heq⟩ | ⟨shared, heq, hfile⟩
  · rw [heq]
    exact h
  · rw [heq]
    have hsub : ∀ k s, surfaceOf (m.put r (shared, (dropSurface (m.shared, peer)).2)) k = some s →
        k ≠ key ∧ surfaceOf m k = some s := by
      intro k s hs
      have hk : k ≠ key := by
        rintro rfl
        rw [surfaceOf_put_self m k r _ hkey, dropSurface_surface] at hs
        cases hs
      refine ⟨hk, ?_⟩
      rwa [surfaceOf_put_ne m hm key k r _ hkey hk] at hs
    rcases hfile with hfile | hfile
    · exact filed_same display m _ h hfile fun k s hs => (hsub k s hs).2
    · rw [hid] at hfile
      exact filed_remove parse display hparse m _ key env.io h hread hwrite hfile hsub

theorem filed_evict (m : PeerManager K) (key : K) (env : Env) (hm : Keyed m) (h : Filed display m)
    (hok : Orderly m (.forget key env)) : Filed display (m.evict display key env) := by
  refine filed_remove parse display hparse m _ key env.io h hok.1 hok.2
    (evict_spec display m key env hm).file fun k surface hs => ?_
  rw [surfaceOf_evict display m key k env hm] at hs
  split_ifs at hs with hk
  exact ⟨hk, hs⟩

theorem filed_key (m : PeerManager K) (h : Filed display m) (record : SurfaceRecord)
    (hin : record ∈ recordsOf m.shared.surfaces.content) (k : K)
    (hkey : parse record.key = some k) : record.key = display k := by
  obtain ⟨k', hk'⟩ := h.canonical record hin
  rw [hk', hparse] at hkey
  rw [hk', Option.some.inj hkey]

theorem filed_restart (m : PeerManager K) (pinned : List Pin) (config : Config) (env : Env)
    (h : Filed display m) (hok : Orderly m (.restart pinned config env)) :
    Filed display (m.restart parse pinned config env) := by
  have hspec := restart_spec parse m pinned config env
  have hread : env.io.read = .done := hok
  refine filed_file display m _ h hspec.file fun k surface hs => ?_
  obtain ⟨records, hload, record, hin, hkey, rfl⟩ := hspec.surface k surface hs
  rw [hread, load_done m.shared.surfaces h.clean] at hload
  obtain rfl := Except.ok.inj hload
  have htext := filed_key parse display hparse m h record hin k hkey
  rw [← htext]
  exact hin

theorem filed_next (m m' : PeerManager K) (req : Request K) (hok : Orderly m req) (hm : Keyed m)
    (h : Filed display m) (hnext : next parse display m req = some m') : Filed display m' := by
  cases served_next parse display m m' req hnext with
  | add key label hnew =>
    exact filed_insert display m key label hm h
  | enroll key label =>
    exact filed_insert display m key label hm h
  | announce r ports env peer hr =>
    exact filed_announce parse display hparse m r peer ports env hm h hok hr
  | project r ip name env peer hr =>
    exact filed_project parse display hparse m r peer ip name env hm h hok hr
  | unproject r ref env peer hr =>
    exact filed_unproject parse display hparse m r peer ref env hm h hok hr
  | forget key env =>
    exact filed_evict parse display hparse m key env hm h hok
  | restart pinned config env =>
    exact filed_restart parse display hparse m pinned config env h hok

end

structure Sole (k : K) (surface : Surface) (m : PeerManager K) : Prop where
  own : surfaceOf m k = some surface
  alone : ∀ k' surface', surfaceOf m k' = some surface' → surface'.ip = surface.ip → k' = k

/-- A request that is not about the key's surface, and names its address for
nobody. -/
def Aside (k : K) (ip : IpAddr) (m : PeerManager K) : Request K → Prop
  | .enroll key _ => key ≠ k
  | .project r asked _ _ => m.peers[k]? ≠ some r ∧ asked ≠ some ip
  | .unproject r _ _ => m.peers[k]? ≠ some r
  | .forget key _ => key ≠ k
  | .restart _ _ _ => False
  | _ => True

theorem sole_put (k : K) (surface : Surface) (m : PeerManager K) (r : ℕ) (held : Held K)
    (h : Sole k surface m)
    (hself : m.peers[k]? = some r → held.2.surface = some surface)
    (hnew : ∀ k', k' ≠ k → m.peers[k']? = some r → ∀ surface', held.2.surface = some surface' →
      surface'.ip ≠ surface.ip) : Sole k surface (m.put r held) := by
  constructor
  · by_cases hk : m.peers[k]? = some r
    · rw [surfaceOf_put_self m k r held hk, hself hk]
    · rw [surfaceOf_put_other m k r held hk, h.own]
  · intro k' surface' hs hip
    by_cases hk' : m.peers[k']? = some r
    · rw [surfaceOf_put_self m k' r held hk'] at hs
      by_contra hne
      exact hnew k' hne hk' surface' hs hip
    · rw [surfaceOf_put_other m k' r held hk'] at hs
      exact h.alone k' surface' hs hip

theorem sole_sub (k : K) (surface : Surface) (m m' : PeerManager K) (h : Sole k surface m)
    (hown : surfaceOf m' k = surfaceOf m k)
    (hsub : ∀ k' surface', surfaceOf m' k' = some surface' → surfaceOf m k' = some surface') :
    Sole k surface m' :=
  ⟨hown.trans h.own, fun k' surface' hs hip => h.alone k' surface' (hsub k' surface' hs) hip⟩

theorem sole_announce (k : K) (surface : Surface) (m : PeerManager K) (r : ℕ) (peer : Peer K)
    (ports : List Port) (env : Env) (h : Sole k surface m) (hr : m.records r = some peer) :
    Sole k surface (m.updatePeerPorts display r peer ports env) := by
  obtain ⟨held, heq, hplace, -⟩ := update_placement display m r peer ports env hr
  have hwas := fun k' hk' => surfaceOf_record m k' r peer hk' hr
  have hhas : peer.surface = none → m.peers[k]? ≠ some r := by
    intro hnone hk
    have hown := h.own
    rw [hwas k hk, hnone] at hown
    cases hown
  rw [heq]
  cases hplace with
  | kept old hold hnow =>
    refine sole_put k surface m r held h (fun hk => ?_) fun k' hne hk' surface' hs hip => ?_
    · rw [hnow, ← hold, ← hwas k hk, h.own]
    · obtain rfl := Option.some.inj (hnow.symm.trans hs)
      exact hne (h.alone k' old ((hwas k' hk').trans hold) hip)
  | bare hold hnow =>
    refine sole_put k surface m r held h (fun hk => absurd hk (hhas hold)) ?_
    intro k' _ _ surface' hs
    cases hnow.symm.trans hs
  | auto ip hold hports hfree hnow =>
    refine sole_put k surface m r held h (fun hk => absurd hk (hhas hold)) ?_
    intro k' _ _ surface' hs hip
    obtain rfl := Option.some.inj (hnow.symm.trans hs)
    refine allocate_free _ _ ip hfree ?_
    exact (mem_projectedIps m ip).mpr ⟨k, surface, h.own, hip.symm⟩

theorem sole_project (k : K) (surface : Surface) (m : PeerManager K) (r : ℕ) (peer : Peer K)
    (ip : Option IpAddr) (name : Option String) (env : Env) (h : Sole k surface m)
    (hok : Aside k surface.ip m (.project r ip name env)) :
    Sole k surface (m.project display r peer ip name env).1 := by
  obtain ⟨hk, hasked⟩ := hok
  obtain ⟨held, heq, hproj, -⟩ := project_spec display m r peer ip name env
  rw [heq]
  refine sole_put k surface m r held h (fun hkr => absurd hkr hk) ?_
  intro k' _ _ surface' hs hip
  cases hproj with
  | failed hheld =>
    rw [hheld, (tearDown_spec (m.shared, peer) env.unclaim).1] at hs
    cases hs
  | placed ip' hchosen hnow =>
    obtain rfl := Option.some.inj (hnow.symm.trans hs)
    cases ip with
    | some asked =>
      obtain rfl := Except.ok.inj hchosen
      exact hasked (congrArg some hip)
    | none =>
      refine allocate_free _ _ ip' hchosen ?_
      refine (mem_projectedIps _ ip').mpr ⟨k, surface, ?_, hip.symm⟩
      rw [surfaceOf_put_other m k r _ hk, h.own]

theorem sole_next (k : K) (surface : Surface) (m m' : PeerManager K) (req : Request K)
    (hok : Aside k surface.ip m req) (hm : Keyed m) (h : Sole k surface m)
    (hnext : next parse display m req = some m') : Sole k surface m' := by
  have hin : k ∈ m.peers := mem_of_surfaceOf m k surface h.own
  have hinsert : ∀ key label, key ≠ k → Sole k surface (m.insert key label) := by
    intro key label hne
    apply sole_sub k surface m _ h
    · rw [surfaceOf_insert m key k label hm, if_neg (Ne.symm hne)]
    · intro k' surface' hs
      rw [surfaceOf_insert m key k' label hm] at hs
      split_ifs at hs
      exact hs
  cases served_next parse display m m' req hnext with
  | add key label hnew =>
    apply hinsert
    rintro rfl
    exact hnew hin
  | enroll key label =>
    exact hinsert key label hok
  | announce r ports env peer hr =>
    exact sole_announce display k surface m r peer ports env h hr
  | project r ip name env peer hr =>
    exact sole_project display k surface m r peer ip name env h hok
  | unproject r ref env peer hr =>
    rcases unproject_spec display m r peer ref env with ⟨-, heq⟩ | ⟨shared, heq, -⟩
    · rw [heq]
      exact h
    · rw [heq]
      refine sole_put k surface m r _ h (fun hk => absurd hk hok) ?_
      intro k' _ _ surface' hs
      cases hs
  | forget key env =>
    apply sole_sub k surface m _ h
    · rw [surfaceOf_evict display m key k env hm, if_neg (Ne.symm hok)]
    · intro k' surface' hs
      rw [surfaceOf_evict display m key k' env hm] at hs
      split_ifs at hs
      exact hs
  | restart pinned config env => exact hok.elim

/-- What a restart needs to keep a surface: it reads the file, the peer is
pinned, its address can be claimed, and the file has that address for none of
the other peers it loads. -/
structure Kept (m : PeerManager K) (k : K) (surface : Surface) (pinned : List Pin)
    (config : Config) (env : Env) : Prop where
  read : env.io.read = .done
  loaded : ∃ pin ∈ pinned, parse pin.key = some k
  claimed : ∀ i e, (recordsOf m.shared.surfaces.content)[i]? =
      some ⟨display k, surface.ip, surface.name⟩ →
    Shared.claimAddr { m.shared with netstack := config.netstack } surface.ip surface.name
      (env.claims i) ≠ .error e
  alone : ∀ record ∈ recordsOf m.shared.surfaces.content, record.ip = surface.ip →
    ∀ k', parse record.key = some k' → (∃ pin ∈ pinned, parse pin.key = some k') → k' = k

theorem sole_restart (hparse : ∀ k, parse (display k) = some k) (m : PeerManager K) (k : K)
    (surface : Surface) (pinned : List Pin) (config : Config) (env : Env) (h : Filed display m)
    (hs : surfaceOf m k = some surface) (hkept : Kept parse display m k surface pinned config env) :
    Sole k surface (m.restart parse pinned config env) := by
  have hload := loaded_all parse pinned m.shared config
  have hspec := restart_spec parse m pinned config env
  have hread := load_done m.shared.surfaces h.clean
  constructor
  · unfold PeerManager.restart PeerManager.restoreSurfaces
    rw [congrArg Shared.surfaces hload.shared, hkept.read]
    dsimp only
    rw [hread]
    refine restoreAll_restores parse _ env.claims _ hload.keyed k ((hload.peers k).mpr hkept.loaded)
      ⟨display k, surface.ip, surface.name⟩ ?_ (hparse k) ?_ (Or.inr (h.live k surface hs))
    · intro record hin hkey
      exact h.once record hin _ (h.live k surface hs)
        (filed_key parse display hparse m h record hin k hkey)
    · intro i e hi
      rw [hload.shared]
      exact hkept.claimed i e hi
  · intro k' surface' hs' hip
    have hpin := (hspec.peers k').mp (mem_of_surfaceOf _ k' surface' hs')
    obtain ⟨records, hrecords, record, hin, hkey, rfl⟩ := hspec.surface k' surface' hs'
    rw [hkept.read, hread] at hrecords
    obtain rfl := Except.ok.inj hrecords
    exact hkept.alone record hin hip k' hkey hpin

/-- After the restart and these requests nobody else has the address, and the
peer's next announcement finds it with the surface it had. -/
def Survives (m : PeerManager K) (k : K) (surface : Surface) (pinned : List Pin) (config : Config)
    (env : Env) (later : List (Request K)) : Prop :=
  ∀ m', exec (next parse display) (m.restart parse pinned config env) later = some m' →
    (∀ k' surface', surfaceOf m' k' = some surface' → surface'.ip = surface.ip → k' = k) ∧
    ∀ r peer ports env', m'.peers[k]? = some r → m'.records r = some peer →
      surfaceOf (m'.updatePeerPorts display r peer ports env') k = some surface

theorem projections_survive (hparse : ∀ k, parse (display k) = some k) (os : Os)
    (path parent : String) (config₀ : Config) (reqs : List (Request K)) (m : PeerManager K)
    (hok : Along (next parse display) Orderly (PeerManager.new os path parent config₀) reqs)
    (h : Reached parse display os path parent config₀ reqs m) (k : K) (surface : Surface)
    (hs : surfaceOf m k = some surface) (pinned : List Pin) (config : Config) (env : Env)
    (hkept : Kept parse display m k surface pinned config env) (later : List (Request K))
    (hlater : Along (next parse display) (Aside k surface.ip)
      (m.restart parse pinned config env) later) :
    Survives parse display m k surface pinned config env later := by
  have hfiled : Keyed m ∧ Filed display m := by
    refine along_invariant (next parse display) Orderly (fun m => Keyed m ∧ Filed display m) ?_ _
      ⟨keyed_new os path parent config₀, ?_⟩ reqs hok m h
    · rintro s req t horderly ⟨hkeyed, hf⟩ hnext
      exact ⟨keyed_next parse display s t req hkeyed hnext,
        filed_next parse display hparse s t req horderly hkeyed hf hnext⟩
    · refine ⟨by simp [PeerManager.new, PeerManager.boot], ?_, ?_, ?_⟩
      · simp [PeerManager.new, PeerManager.boot]
      · simp [PeerManager.new, PeerManager.boot]
      · simp [surfaceOf, PeerManager.get, PeerManager.new, PeerManager.boot]
  have hstart := sole_restart parse display hparse m k surface pinned config env hfiled.2 hs hkept
  intro m' hm'
  have hsole : Keyed m' ∧ Sole k surface m' := by
    refine along_invariant (next parse display) (Aside k surface.ip)
      (fun m => Keyed m ∧ Sole k surface m) ?_ _
      ⟨(restart_spec parse m pinned config env).keyed, hstart⟩ later hlater m' hm'
    rintro s req t haside ⟨hkeyed, hsole⟩ hnext
    exact ⟨keyed_next parse display s t req hkeyed hnext,
      sole_next parse display k surface s t req haside hkeyed hsole hnext⟩
  refine ⟨hsole.2.alone, fun r peer ports env' _ hr => ?_⟩
  exact (sole_announce display k surface m' r peer ports env' hsole.2 hr).own

end

def announcedOnce (label : Option String) : List (Request Bool) :=
  [.add false label, .announce 0 [80] {}]

def firstSurface (name : String) : Surface := ⟨loopbackBase.host 2, some name⟩

/-- A pinned peer keeps its surface although another announces before it. -/
theorem pinned_survives : ∃ m,
    Reached Restart.parseKey Restart.displayKey .linux "surfaces.json" "." {}
      (announcedOnce (some "desk")) m ∧
    surfaceOf m false = some (firstSurface "desk") ∧
    Survives Restart.parseKey Restart.displayKey m false (firstSurface "desk")
      [⟨Restart.deskKey, some "desk"⟩] {} {} [.add true none, .announce 1 [22] {}] := by
  refine ⟨_, rfl, by decide +kernel, ?_⟩
  refine projections_survive Restart.parseKey Restart.displayKey Restart.parse_display_key .linux
    "surfaces.json" "." {} (announcedOnce (some "desk")) _ ?_ rfl false (firstSurface "desk")
    (by decide +kernel) _ {} {} ?_ _ ?_
  · refine ⟨trivial, ?_⟩
    rintro _ ⟨⟩
    refine ⟨⟨⟨false, by decide +kernel⟩, rfl, rfl⟩, fun _ _ => trivial⟩
  · refine ⟨rfl, ⟨_, List.mem_singleton_self _, by decide +kernel⟩, ?_, ?_⟩
    · rintro i e - h
      cases h
    · intro record hin _
      obtain rfl := List.mem_singleton.mp hin
      intro k' hk' _
      exact Option.some.inj (hk'.symm.trans (by decide +kernel))
  · refine ⟨trivial, ?_⟩
    rintro _ ⟨⟩
    exact ⟨trivial, fun _ _ => trivial⟩

/-- A peer named by `--accept` is not there when the surfaces are put back, and
its address goes to the pinned peer that announces first. -/
theorem accepted_loses_address : ∃ m,
    Reached Restart.parseKey Restart.displayKey .linux "surfaces.json" "." {}
      (announcedOnce none ++ [.add true none]) m ∧
    surfaceOf m false = some (firstSurface "8a88e3dd") ∧
    ¬ Survives Restart.parseKey Restart.displayKey m false (firstSurface "8a88e3dd")
      [⟨Restart.boxKey, none⟩] {} {} [.add false none, .announce 0 [22] {}] := by
  refine ⟨_, rfl, by decide +kernel, fun h => ?_⟩
  have hgiven := (h _ rfl).1 true ⟨loopbackBase.host 2, some "8139770e"⟩ (by decide +kernel) rfl
  cases hgiven

end PaiSho.Projections
