import PaiSho.LaunchdService

/-!
# The service over every run of its commands

At every moment the binary, the operator script and the plist are absent or
whole, root's and of the right mode, so whatever the service was started from
is; and a key that is there stays. `down` stays down over boots, an `install` or
`up` that succeeds leaves the service enabled and started from the files in
place, and a `remove` that succeeds leaves neither the plist nor what root runs.
That the service is stopped takes a `launchctl print` that can be run, or a boot:
`service_loaded` takes one that cannot be run for a service that is not loaded.
-/

set_option autoImplicit false

namespace PaiSho.ServiceRuns
open Library.Scripts
open LaunchdService

def Good : Path → File → Prop
  | .plist, file => file = ⟨some plist, 0o644, true⟩
  | .operator, file => file = ⟨some operatorScript, 0o755, true⟩
  | .bin, file => ∃ contents, file = ⟨some contents, 0o755, true⟩
  | _, _ => True

def temporary : Path → Bool
  | .plistTmp => true
  | .installing => true
  | .operatorTmp => true
  | _ => false

section
variable {L : Type} (D : Launchd L)

/-- The three files that root runs or reads are good, and so are those the
service was started from; the key is the given one. -/
structure Sound (key : Option File) (w : World L) : Prop where
  files : ∀ path file, w.files path = some file → Good path file
  job : ∀ image, D.job w.launchd = some image →
    (∀ file, image.operator = some file → Good .operator file) ∧
      ∀ file, image.bin = some file → Good .bin file
  key : key ≠ none → w.files .key = key

variable {D} {key : Option File}

theorem Sound.image {w : World L} (h : Sound D key w) :
    (∀ file, w.image.operator = some file → Good .operator file) ∧
      ∀ file, w.image.bin = some file → Good .bin file :=
  ⟨fun file hf => h.files .operator file hf, fun file hf => h.files .bin file hf⟩

theorem sound_idles {w w' : World L} (h : Sound D key w) (hidle : Idles D w w') :
    Sound D key w' := by
  refine ⟨fun path file hf => ?_, fun image hjob => ?_, fun hkey => ?_⟩
  · cases hs : path.shared with
    | true => cases path <;> simp [Path.shared] at hs <;> trivial
    | false => exact h.files path file ((hidle.files path hs).symm.trans hf)
  · rcases hidle.job with heq | ⟨-, heq⟩
    · exact h.job image (heq.symm.trans hjob)
    · obtain rfl := Option.some.inj (heq.symm.trans hjob)
      exact h.image
  · have hwas := h.key hkey
    exact (hidle.key (hwas ▸ hkey)).trans hwas

theorem sound_boots {w w' : World L} (h : Sound D key w) (hboot : Boots D w w') :
    Sound D key w' := by
  refine ⟨fun path file hf => ?_, fun image hjob => ?_, fun hkey => ?_⟩
  · rw [hboot.files] at hf
    exact h.files path file hf
  · rcases hboot.job with hnone | ⟨-, -, heq⟩
    · cases hnone.symm.trans hjob
    · obtain rfl := Option.some.inj (heq.symm.trans hjob)
      exact h.image
  · rw [hboot.files]
    exact h.key hkey

theorem sound_set {w : World L} (h : Sound D key w) (path : Path) (file : Option File)
    (hpath : path ≠ .key) (hgood : ∀ f, file = some f → Good path f) :
    Sound D key (w.set path file) := by
  refine ⟨fun path' file' hf => ?_, h.job, fun hkey => ?_⟩
  · by_cases hp : path' = path
    · subst hp
      rw [set_self] at hf
      exact hgood file' hf
    · rw [set_other w path path' file hp] at hf
      exact h.files path' file' hf
  · rw [set_other w path .key file (Ne.symm hpath)]
    exact h.key hkey

theorem sound_temporary {w : World L} (h : Sound D key w) (tmp : Path) (file : Option File)
    (htmp : temporary tmp = true) : Sound D key (w.set tmp file) := by
  cases tmp <;> simp [temporary] at htmp
  all_goals exact sound_set h _ file (by decide) fun _ _ => trivial

theorem sound_does {w : World L} (hD : Documented D) (h : Sound D key w) (ctl : Ctl) (out : Output)
    (l : L) (hdoes : D.does w ctl out l) : Sound D key { w with launchd := l } := by
  refine ⟨h.files, fun image hjob => ?_, h.key⟩
  rcases hD.started_now w ctl out l image hdoes hjob with hwas | rfl
  · exact h.job image hwas
  · exact h.image

/-- The files the service does not write itself are as they were. -/
def Unshared (w w' : World L) : Prop := ∀ path, path.shared = false → w'.files path = w.files path

theorem Unshared.trans {w u w' : World L} (h : Unshared w u) (h' : Unshared u w') :
    Unshared w w' :=
  fun path hp => (h' path hp).trans (h path hp)

theorem Unshared.image {w w' : World L} (h : Unshared w w') : w'.image = w.image := by
  rw [World.image, World.image, h .operator rfl, h .bin rfl]

def Beside (path : Path) (w w' : World L) : Prop :=
  ∀ path', path' ≠ path → path'.shared = false → w'.files path' = w.files path'

theorem Beside.trans {path : Path} {w u w' : World L} (h : Beside path w u)
    (h' : Beside path u w') : Beside path w w' :=
  fun path' hne hp => (h' path' hne hp).trans (h path' hne hp)

theorem Unshared.beside {w w' : World L} (h : Unshared w w') (path : Path) : Beside path w w' :=
  fun path' _ hp => h path' hp

theorem beside_set (w : World L) (path : Path) (file : Option File) :
    Beside path w (w.set path file) :=
  fun path' hne _ => set_other w path path' file hne

structure Placed (w t : World L) (path tmp : Path) (file : File) : Prop where
  placed : t.files path = some file
  others : ∀ path', path' ≠ path → path' ≠ tmp → path'.shared = false →
    t.files path' = w.files path'

variable (D key)

theorem meets_createDirAll (dir : String) (w : World L) (h : Sound D key w) :
    Meets (Env D) (Sound D key) (Ends (fun _ t => Unshared w t) (fun _ _ => True))
      (createDirAll dir) w := by
  apply meets_attempt (Env D) (Sound D key) _ _ _ _ w h
  rintro a t ⟨u, hidle, rfl⟩
  refine ⟨sound_idles h hidle, ?_⟩
  cases a with
  | ok _ => exact hidle.files
  | error e => trivial

theorem shared_temporary (tmp : Path) (htmp : temporary tmp = true) : tmp.shared = false := by
  cases tmp <;> simp [temporary] at htmp <;> rfl

theorem meets_change (change : File → File) (call : Call) (read : call.Answer → Except String Unit)
    (tmp : Path) (w : World L) (file : File) (htmp : temporary tmp = true)
    (hcall : ∀ (u : World L) a t, Does D u call a t →
      (∃ e, read a = .error e) ∧ t = u ∨ read a = .ok () ∧
        ∃ found, u.files tmp = some found ∧ t = u.set tmp (some (change found)))
    (hfile : w.files tmp = some file) (h : Sound D key w) :
    Meets (Env D) (Sound D key) (Ends (fun _ t => t.files tmp = some (change file) ∧
      Beside tmp w t) (fun _ _ => True)) (Fallible.attempt call read) w := by
  apply meets_attempt (Env D) (Sound D key) _ _ _ _ w h
  rintro a t ⟨u, hidle, hdoes⟩
  have hu := sound_idles h hidle
  have hwas := (hidle.files tmp (shared_temporary tmp htmp)).trans hfile
  rcases hcall u a t hdoes with ⟨⟨e, he⟩, rfl⟩ | ⟨hok, found, hfound, rfl⟩
  · rw [he]
    exact ⟨hu, trivial⟩
  · obtain rfl := Option.some.inj (hfound.symm.trans hwas)
    rw [hok]
    refine ⟨sound_temporary hu tmp _ htmp, set_self u tmp _, ?_⟩
    exact (Unshared.beside hidle.files tmp).trans (beside_set u tmp _)

theorem meets_setMode (tmp : Path) (mode : ℕ) (w : World L) (file : File)
    (htmp : temporary tmp = true) (hfile : w.files tmp = some file) (h : Sound D key w) :
    Meets (Env D) (Sound D key) (Ends (fun _ t => t.files tmp = some { file with mode := mode } ∧
      Beside tmp w t) (fun _ _ => True)) (setMode tmp mode) w := by
  refine meets_change D key (fun file => { file with mode := mode }) _ _ tmp w file htmp ?_ hfile h
  intro u a t hdoes
  cases a with
  | ok _ => exact Or.inr ⟨rfl, hdoes⟩
  | error e => exact Or.inl ⟨⟨_, rfl⟩, hdoes⟩

theorem meets_chownRoot (tmp : Path) (w : World L) (file : File) (htmp : temporary tmp = true)
    (hfile : w.files tmp = some file) (h : Sound D key w) :
    Meets (Env D) (Sound D key) (Ends (fun _ t => t.files tmp = some { file with root := true } ∧
      Beside tmp w t) (fun _ _ => True)) (chownRoot tmp) w := by
  refine meets_change D key (fun file => { file with root := true }) _ _ tmp w file htmp ?_ hfile h
  intro u a t hdoes
  cases a with
  | ok _ => exact Or.inr ⟨rfl, hdoes⟩
  | error e => exact Or.inl ⟨⟨_, rfl⟩, hdoes⟩

theorem meets_rename (tmp path : Path) (w : World L) (file : File) (htmp : temporary tmp = true)
    (hpath : path ≠ tmp) (hkey : path ≠ .key) (hgood : Good path file)
    (hfile : w.files tmp = some file) (h : Sound D key w) :
    Meets (Env D) (Sound D key) (Ends (fun _ t => Placed w t path tmp file) (fun _ _ => True))
      (rename tmp path) w := by
  apply meets_attempt (Env D) (Sound D key) _ _ _ _ w h
  rintro a t ⟨u, hidle, hdoes⟩
  have hu := sound_idles h hidle
  have hwas := (hidle.files tmp (shared_temporary tmp htmp)).trans hfile
  cases a with
  | ok _ =>
    obtain ⟨found, hfound, rfl⟩ := hdoes
    obtain rfl := Option.some.inj (hfound.symm.trans hwas)
    refine ⟨sound_temporary (sound_set hu path _ hkey ?_) tmp _ htmp, ?_, ?_⟩
    · rintro f ⟨⟩
      exact hgood
    · rw [set_other _ tmp path _ hpath, set_self]
    · intro path' hne hne' hp
      rw [set_other _ tmp path' _ hne', set_other u path path' _ hne]
      exact hidle.files path' hp
  | error e =>
    obtain rfl := hdoes
    exact ⟨hu, trivial⟩

theorem meets_place (tmp path : Path) (mode : ℕ) (w : World L) (file : File)
    (htmp : temporary tmp = true) (hpath : path ≠ tmp) (hkey : path ≠ .key)
    (hgood : Good path { file with mode := mode, root := true })
    (hfile : w.files tmp = some file) (h : Sound D key w) :
    Meets (Env D) (Sound D key) (Ends (fun _ t => Placed w t path tmp
      { file with mode := mode, root := true }) (fun _ _ => True))
      (setMode tmp mode >>= fun _ => chownRoot tmp >>= fun _ => rename tmp path : Cmd Unit) w := by
  refine meets_andThen (Env D) (Sound D key) _ _ _ _ _ w
    (meets_setMode D key tmp mode w file htmp hfile h) ?_
  rintro - u hu ⟨hmode, hbeside⟩
  refine meets_andThen (Env D) (Sound D key) _ _ _ _ _ u
    (meets_chownRoot D key tmp u _ htmp hmode hu) ?_
  rintro - v hv ⟨hroot, hbeside'⟩
  refine meets_weaken (Env D) (Sound D key) _ _ _ _ v ?_
    (meets_rename D key tmp path v _ htmp hpath hkey hgood hroot hv)
  intro _ t _ ht
  refine ⟨ht.placed, fun path' hne hne' hp => ?_⟩
  rw [ht.others path' hne hne' hp, hbeside' path' hne' hp, hbeside path' hne' hp]

theorem meets_fresh (call : Call) (read : call.Answer → Except String Unit) (tmp : Path)
    (contents : String) (w : World L) (htmp : temporary tmp = true)
    (hcall : ∀ (u : World L) a t, Does D u call a t →
      (∃ e, read a = .error e) ∧ (∃ file, t = u.set tmp file) ∨
        read a = .ok () ∧ ∃ mode root, t = u.set tmp (some ⟨some contents, mode, root⟩))
    (h : Sound D key w) :
    Meets (Env D) (Sound D key) (Ends (fun _ t =>
      (∃ mode root, t.files tmp = some ⟨some contents, mode, root⟩) ∧ Beside tmp w t)
      (fun _ _ => True)) (Fallible.attempt call read) w := by
  apply meets_attempt (Env D) (Sound D key) _ _ _ _ w h
  rintro a t ⟨u, hidle, hdoes⟩
  have hu := sound_idles h hidle
  rcases hcall u a t hdoes with ⟨⟨e, he⟩, file, rfl⟩ | ⟨hok, mode, root, rfl⟩
  · rw [he]
    exact ⟨sound_temporary hu tmp file htmp, trivial⟩
  · rw [hok]
    refine ⟨sound_temporary hu tmp _ htmp, ⟨mode, root, set_self u tmp _⟩, ?_⟩
    exact (Unshared.beside hidle.files tmp).trans (beside_set u tmp _)

theorem meets_writeRootFile (dir : String) (path tmp : Path) (contents : String) (mode : ℕ)
    (w : World L) (htmp : temporary tmp = true) (hpath : path ≠ tmp) (hkey : path ≠ .key)
    (hgood : Good path ⟨some contents, mode, true⟩) (h : Sound D key w) :
    Meets (Env D) (Sound D key) (Ends (fun _ t => Placed w t path tmp
      ⟨some contents, mode, true⟩) (fun _ _ => True))
      (writeRootFile dir path tmp contents mode) w := by
  refine meets_andThen (Env D) (Sound D key) _ _ _ _ _ w (meets_createDirAll D key dir w h) ?_
  intro _ u hu hfiles
  refine meets_andThen (Env D) (Sound D key) _ _ _ _ _ u
    (meets_fresh D key _ _ tmp contents u htmp ?_ hu) ?_
  · intro x a t hdoes
    cases a with
    | ok _ => exact Or.inr ⟨rfl, hdoes⟩
    | error e => exact Or.inl ⟨⟨_, rfl⟩, hdoes⟩
  · rintro - v hv ⟨⟨mode', root, hwritten⟩, hbeside⟩
    refine meets_weaken (Env D) (Sound D key) _ _ _ _ v ?_
      (meets_place D key tmp path mode v _ htmp hpath hkey hgood hwritten hv)
    intro _ t _ ht
    refine ⟨ht.placed, fun path' hne hne' hp => ?_⟩
    rw [ht.others path' hne hne' hp, hbeside path' hne' hp, hfiles path' hp]

theorem meets_installBinary (exe : Option (String × String)) (w : World L) (h : Sound D key w) :
    Meets (Env D) (Sound D key) (Ends (fun _ t => ∃ src contents, exe = some (src, contents) ∧
      Placed w t .bin .installing ⟨some contents, 0o755, true⟩) (fun _ _ => True))
      (installBinary exe) w := by
  match exe with
  | none => exact meets_bail (Env D) (Sound D key) _ _ _ w h trivial
  | some (src, contents) =>
    refine meets_andThen (Env D) (Sound D key) _ _ _ _ _ w (meets_createDirAll D key _ w h) ?_
    intro _ u hu hfiles
    refine meets_andThen (Env D) (Sound D key) _ _ _ _ _ u
      (meets_fresh D key _ _ .installing contents u rfl ?_ hu) ?_
    · intro x a t hdoes
      cases a with
      | ok _ => exact Or.inr ⟨rfl, hdoes⟩
      | error e => exact Or.inl ⟨⟨_, rfl⟩, hdoes⟩
    · rintro - v hv ⟨⟨mode, root, hcopied⟩, hbeside⟩
      refine meets_rescue (Env D) (Sound D key) _ (fun _ _ => True) _ _ _ v ?_ ?_
      · refine meets_weaken (Env D) (Sound D key) _ _ _ _ v ?_
          (meets_place D key .installing .bin 0o755 v _ rfl (by decide) (by decide)
            ⟨contents, rfl⟩ hcopied hv)
        intro _ t _ ht
        refine ⟨src, contents, rfl, ht.placed, fun path' hne hne' hp => ?_⟩
        rw [ht.others path' hne hne' hp, hbeside path' hne' hp, hfiles path' hp]
      · intro e x hx _
        refine meets_andThen (Env D) (Sound D key) _ (fun _ _ => True) _ _ _ x ?_
          fun _ y hy _ => ⟨hy, trivial⟩
        apply meets_attempt (Env D) (Sound D key) _ _ _ _ x hx
        rintro a t ⟨y, hidle, hdoes⟩
        have hy := sound_idles hx hidle
        refine ⟨?_, trivial⟩
        cases a with
        | done =>
          obtain rfl := hdoes
          exact sound_temporary hy .installing none rfl
        | missing =>
          obtain ⟨-, rfl⟩ := hdoes
          exact hy
        | failed =>
          obtain rfl := hdoes
          exact hy

structure Keeps (I : World L → Prop) (ctl : Ctl) : Prop where
  idles : ∀ w u, I w → Idles D w u → I u
  does : ∀ w out l, I w → D.does w ctl out l → I { w with launchd := l }

theorem keeps_sound (hD : Documented D) (ctl : Ctl) : Keeps D (Sound D key) ctl :=
  ⟨fun _ _ h hidle => sound_idles h hidle, fun _ out l h hdoes => sound_does hD h ctl out l hdoes⟩

structure Ctled (ctl : Ctl) (w t : World L) : Prop where
  ran : ∃ u out, Idles D w u ∧ D.does u ctl out t.launchd ∧ out.succeeded = true ∧
    t.files = u.files

/-- An answer of `service_loaded`, and the world it was given in. -/
structure Asked (b : Bool) (w t : World L) : Prop where
  idle : Idles D w t
  printed : ∃ out, D.prints t.launchd out ∧ b = out.succeeded

variable {D} (I : World L → Prop)

theorem meets_launchctl {ctl : Ctl} (hI : Keeps D I ctl) (w : World L) (h : I w) :
    Meets (Env D) I (Ends (fun _ t => Ctled D ctl w t) (fun _ _ => True)) (launchctl ctl) w := by
  apply meets_attempt (Env D) I _ _ _ _ w h
  rintro out t ⟨u, hidle, l, hdoes, rfl⟩
  refine ⟨hI.does u out l (hI.idles w u h hidle) hdoes, ?_⟩
  match out with
  | .unspawned => trivial
  | .exited false stdout stderr status => trivial
  | .exited true stdout stderr status => exact ⟨⟨u, _, hidle, hdoes, rfl, rfl⟩⟩

theorem meets_serviceLoaded (hI : ∀ w u, I w → Idles D w u → I u) (w : World L) (h : I w) :
    Meets (Env D) I (Ends (fun b t => Asked D b w t) (fun _ _ => True)) serviceLoaded w := by
  apply meets_attempt (Env D) I _ _ _ _ w h
  rintro out t ⟨u, hidle, hprints, rfl⟩
  exact ⟨hI w t h hidle, hidle, out, hprints, rfl⟩

theorem meets_present (hI : ∀ w u, I w → Idles D w u → I u) (path : Path) (w : World L)
    (h : I w) :
    Meets (Env D) I (Ends (fun b t => Idles D w t ∧ b = (t.files path).isSome) (fun _ _ => True))
      (present path) w := by
  apply meets_attempt (Env D) I _ _ _ _ w h
  rintro b t ⟨u, hidle, hb, rfl⟩
  exact ⟨hI w t h hidle, hidle, hb⟩

variable (D) in
/-- `launchctl print` can always be run. -/
def Spawns : Prop := ∀ l, ¬ D.prints l .unspawned

variable (D) in
structure Down (w : World L) : Prop where
  disabled : D.disabled w.launchd = true
  stopped : D.job w.launchd = none

theorem stopped_idles {w u : World L} (h : D.job w.launchd = none) (hidle : Idles D w u) :
    D.job u.launchd = none := by
  rcases hidle.job with heq | ⟨hloaded, -⟩
  · exact heq.trans h
  · exact absurd h hloaded

theorem stopped_ctled {ctl : Ctl} {w t : World L} (hD : Documented D) (hctl : ctl ≠ .bootstrap)
    (h : D.job w.launchd = none) (ht : Ctled D ctl w t) : D.job t.launchd = none := by
  obtain ⟨u, out, hidle, hdoes, -, -⟩ := ht.ran
  exact hD.only_bootstrap u ctl out t.launchd hdoes hctl (stopped_idles h hidle)

theorem asked_stopped {w t : World L} (hD : Documented D) (hspawn : Spawns D)
    (h : Asked D false w t) : D.job t.launchd = none := by
  obtain ⟨out, hprints, hb⟩ := h.printed
  match out with
  | .unspawned => exact absurd hprints (hspawn t.launchd)
  | .exited success stdout stderr status =>
    have hjob := hD.prints t.launchd success stdout stderr status hprints
    have hnot : success = false := hb.symm
    rw [hnot] at hjob
    exact Option.isNone_iff_eq_none.mp (by simpa using hjob.symm)

/-- From one world to another these files were deleted, if any, and nothing else;
a stopped service stayed stopped. -/
structure Deletes (D : Launchd L) (paths : List Path) (w t : World L) : Prop where
  gone : ∀ path, path ∈ paths ∨ w.files path = none →
    path.shared = false ∨ D.job w.launchd = none → t.files path = none
  others : ∀ path, path ∉ paths → path.shared = false → t.files path = w.files path
  key : w.files .key ≠ none → t.files .key = w.files .key
  stopped : D.job w.launchd = none → D.job t.launchd = none

theorem deletes_idles {w u : World L} (hidle : Idles D w u) : Deletes D [] w u where
  gone path hpath hwhen := by
    have hnone := hpath.resolve_left List.not_mem_nil
    rcases hwhen with hshared | hstopped
    · rw [hidle.files path hshared, hnone]
    · rw [hidle.stopped hstopped, hnone]
  others path _ hshared := hidle.files path hshared
  key := hidle.key
  stopped h := stopped_idles h hidle

theorem Deletes.trans {paths paths' : List Path} {w u t : World L} (h : Deletes D paths w u)
    (h' : Deletes D paths' u t) : Deletes D (paths ++ paths') w t where
  gone path hpath hwhen := by
    have hlater : path.shared = false ∨ D.job u.launchd = none := hwhen.imp_right h.stopped
    by_cases hin : path ∈ paths'
    · exact h'.gone path (Or.inl hin) hlater
    · have hbefore : path ∈ paths ∨ w.files path = none :=
        hpath.imp_left fun hp => (List.mem_append.mp hp).resolve_right hin
      exact h'.gone path (Or.inr (h.gone path hbefore hwhen)) hlater
  others path hpath hshared := by
    rw [List.mem_append, not_or] at hpath
    rw [h'.others path hpath.2 hshared, h.others path hpath.1 hshared]
  key hkey := by
    have hkept := h.key hkey
    rw [h'.key (hkept ▸ hkey), hkept]
  stopped hstopped := h'.stopped (h.stopped hstopped)

theorem deletes_does (hD : Documented D) {ctl : Ctl} (hctl : ctl ≠ .bootstrap) {u : World L}
    {out : Output} {l : L} (hdoes : D.does u ctl out l) :
    Deletes D [] u { u with launchd := l } where
  gone _ hpath _ := hpath.resolve_left List.not_mem_nil
  others _ _ _ := rfl
  key _ := rfl
  stopped h := hD.only_bootstrap u ctl out l hdoes hctl h

theorem deletes_ctled {ctl : Ctl} {w t : World L} (hD : Documented D) (hctl : ctl ≠ .bootstrap)
    (ht : Ctled D ctl w t) : Deletes D [] w t := by
  obtain ⟨u, out, hidle, hdoes, -, hfiles⟩ := ht.ran
  have hafter := (deletes_idles hidle).trans (deletes_does hD hctl hdoes)
  have ht' : t = { u with launchd := t.launchd } := by rw [← hfiles]
  rw [ht']
  exact hafter

theorem meets_takeOut (hD : Documented D) (hI : Keeps D I .bootout) (b : Bool) (w u : World L)
    (h : I u) (hasked : Asked D b w u) :
    Meets (Env D) I (Ends (fun _ t => Deletes D [] w t ∧ (Spawns D → D.job t.launchd = none))
      (fun _ _ => True)) (whenever b (launchctl .bootout)) u := by
  have hbefore := deletes_idles hasked.idle
  cases b with
  | false =>
    exact meets_pure (Env D) I _ _ _ u h
      ⟨hbefore, fun hspawn => asked_stopped hD hspawn hasked⟩
  | true =>
    refine meets_weaken (Env D) I _ _ _ _ u ?_ (meets_launchctl I hI u h)
    intro _ t _ ht
    refine ⟨hbefore.trans (deletes_ctled hD (by decide) ht), fun _ => ?_⟩
    obtain ⟨v, out, -, hdoes, hout, -⟩ := ht.ran
    exact hD.bootout v out t.launchd hdoes hout

variable (D) in
def Disabled (w : World L) : Prop := D.disabled w.launchd = true

theorem keeps_disabled (hD : Documented D) (ctl : Ctl) (henable : ctl ≠ .enable) :
    Keeps D (Disabled D) ctl :=
  ⟨fun _ _ h hidle => hidle.disabled.trans h,
    fun w out l h hdoes => hD.only_enable w ctl out l hdoes henable h⟩

theorem keeps_down (hD : Documented D) (ctl : Ctl) (henable : ctl ≠ .enable)
    (hstart : ctl ≠ .bootstrap) : Keeps D (Down D) ctl := by
  refine ⟨fun w u h hidle => ?_, fun w out l h hdoes => ?_⟩
  · exact ⟨hidle.disabled.trans h.disabled, stopped_idles h.stopped hidle⟩
  · exact ⟨hD.only_enable w ctl out l hdoes henable h.disabled,
      hD.only_bootstrap w ctl out l hdoes hstart h.stopped⟩

theorem meets_down (hD : Documented D) (hout : Keeps D I .bootout) (hdis : Keeps D I .disable)
    (w : World L) (h : I w) :
    Meets (Env D) I (Ends (fun _ t => Disabled D t ∧ (Spawns D → Down D t)) (fun _ _ => True))
      down w := by
  refine meets_andThen (Env D) I _ _ _ _ _ w (meets_present I hout.idles .plist w h) ?_
  intro installed u hu _
  have hknown : Meets (Env D) I (Ends (fun _ _ => True) (fun _ _ => True))
      (installedOrLoaded installed) u := by
    cases installed with
    | true => exact meets_pure (Env D) I _ _ _ u hu trivial
    | false =>
      exact meets_weaken (Env D) I _ _ _ _ u (fun _ _ _ _ => trivial)
        (meets_serviceLoaded I hout.idles u hu)
  refine meets_andThen (Env D) I _ _ _ _ _ u hknown ?_
  intro known v hv _
  cases known with
  | false => exact meets_bail (Env D) I _ _ _ v hv trivial
  | true =>
    refine meets_andThen (Env D) I _ _ _ _ _ v (meets_serviceLoaded I hout.idles v hv) ?_
    intro loaded x hx hasked
    refine meets_andThen (Env D) I _ _ _ _ _ x
      (meets_takeOut I hD hout loaded v x hx hasked) ?_
    rintro - y hy ⟨-, hstopped⟩
    refine meets_andThen (Env D) I _ _ _ _ _ y (meets_launchctl I hdis y hy) ?_
    intro _ z hz hctled
    have hdisabled : Disabled D z := by
      obtain ⟨_, out, -, hdoes, hout, -⟩ := hctled.ran
      exact hD.disable _ out z.launchd hdoes hout
    exact meets_pure (Env D) I _ _ _ z hz ⟨hdisabled, fun hspawn =>
      ⟨hdisabled, stopped_ctled hD (by decide) (hstopped hspawn) hctled⟩⟩

variable (D) in
/-- The service runs what is in place, and a boot will start it. -/
structure Started (w t : World L) : Prop where
  files : Unshared w t
  enabled : D.disabled t.launchd = false
  job : D.job t.launchd = some t.image

theorem started_idles {w t u : World L} (h : Started D w t) (hidle : Idles D t u) :
    Started D w u := by
  have himage := Unshared.image hidle.files
  refine ⟨h.files.trans hidle.files, hidle.disabled.trans h.enabled, ?_⟩
  rcases hidle.job with heq | ⟨-, heq⟩
  · rw [heq, h.job, himage]
  · rw [heq, himage]

theorem started_ctled {ctl : Ctl} {w t : World L} (hD : Documented D) (hctl : ctl ≠ .disable)
    (henabled : D.disabled w.launchd = false) (ht : Ctled D ctl w t)
    (hstarts : ∀ u out l, D.does u ctl out l → out.succeeded = true → D.job l = some u.image) :
    Started D w t := by
  obtain ⟨u, out, hidle, hdoes, hout, hfiles⟩ := ht.ran
  have hunshared : Unshared w t := fun path hp => by rw [hfiles, hidle.files path hp]
  refine ⟨hunshared, ?_, ?_⟩
  · exact hD.only_disable u ctl out t.launchd hdoes hctl (hidle.disabled.trans henabled)
  · rw [hstarts u out t.launchd hdoes hout, World.image, World.image, hfiles]

theorem meets_start (hD : Documented D) (hI : ∀ ctl, Keeps D I ctl) (reload : Bool) (w : World L)
    (h : I w) :
    Meets (Env D) I (Ends (fun _ t => Started D w t) (fun _ _ => True)) (start reload) w := by
  refine meets_andThen (Env D) I _ _ _ _ _ w (meets_launchctl I (hI .enable) w h) ?_
  intro _ u hu henable
  obtain ⟨v, out, hidle, hdoes, hout, hfiles⟩ := henable.ran
  have henabled := hD.enable v out u.launchd hdoes hout
  have hbefore : Unshared w u := fun path hp => by rw [hfiles, hidle.files path hp]
  refine meets_andThen (Env D) I _ _ _ _ _ u (meets_serviceLoaded I (hI .enable).idles u hu) ?_
  intro loaded x hx hasked
  have hnow := hasked.idle.disabled.trans henabled
  have hsofar := hbefore.trans hasked.idle.files
  split
  · refine meets_weaken (Env D) I _ _ _ _ x ?_ (meets_launchctl I (hI .kickstart) x hx)
    intro _ t _ ht
    have hstarted := started_ctled hD (by decide) hnow ht hD.kickstart
    exact ⟨hsofar.trans hstarted.files, hstarted.enabled, hstarted.job⟩
  · have htaken : Meets (Env D) I (Ends (fun _ t => D.disabled t.launchd = false ∧ Unshared x t)
        (fun _ _ => True)) (whenever loaded (launchctl .bootout)) x := by
      cases loaded with
      | false => exact meets_pure (Env D) I _ _ _ x hx ⟨hnow, fun _ _ => rfl⟩
      | true =>
        refine meets_weaken (Env D) I _ _ _ _ x ?_ (meets_launchctl I (hI .bootout) x hx)
        intro _ t _ ht
        obtain ⟨y, out, hidle, hdoes, -, hfiles⟩ := ht.ran
        refine ⟨hD.only_disable y .bootout out t.launchd hdoes (by decide)
          (hidle.disabled.trans hnow), fun path hp => ?_⟩
        rw [hfiles, hidle.files path hp]
    refine meets_andThen (Env D) I _ _ _ _ _ x htaken ?_
    rintro - y hy ⟨hstill, hafter⟩
    refine meets_weaken (Env D) I _ _ _ _ y ?_ (meets_launchctl I (hI .bootstrap) y hy)
    intro _ t _ ht
    have hstarted := started_ctled hD (by decide) hstill ht
      fun u out l hdoes hout => (hD.bootstrap u out l hdoes hout).2
    exact ⟨(hsofar.trans hafter).trans hstarted.files, hstarted.enabled, hstarted.job⟩

/-- The three files of an `install`. -/
structure Installed (contents : String) (t : World L) : Prop where
  bin : t.files .bin = some ⟨some contents, 0o755, true⟩
  operator : t.files .operator = some ⟨some operatorScript, 0o755, true⟩
  plist : t.files .plist = some ⟨some plist, 0o644, true⟩

variable (D) in
/-- A run of `install` that succeeded. -/
structure Afresh (caller : Caller) (t : World L) : Prop where
  files : ∃ src contents, caller.exe = some (src, contents) ∧ Installed contents t
  enabled : D.disabled t.launchd = false
  job : D.job t.launchd = some t.image

theorem afresh_idles {caller : Caller} {t u : World L} (h : Afresh D caller t)
    (hidle : Idles D t u) : Afresh D caller u := by
  have hstarted : Started D t u := started_idles ⟨fun _ _ => rfl, h.enabled, h.job⟩ hidle
  obtain ⟨src, contents, hexe, hfiles⟩ := h.files
  refine ⟨⟨src, contents, hexe, ?_, ?_, ?_⟩, hstarted.enabled, hstarted.job⟩
  · exact (hidle.files .bin rfl).trans hfiles.bin
  · exact (hidle.files .operator rfl).trans hfiles.operator
  · exact (hidle.files .plist rfl).trans hfiles.plist

theorem meets_ensureDirs (w : World L) (h : Sound D key w) :
    Meets (Env D) (Sound D key) (Ends (fun _ _ => True) (fun _ _ => True)) ensureDirs w := by
  refine meets_andThen (Env D) (Sound D key) _ _ _ _ _ w (meets_createDirAll D key _ w h) ?_
  intro _ u hu _
  refine meets_andThen (Env D) (Sound D key) _ _ _ _ _ u (meets_createDirAll D key _ u hu) ?_
  intro _ v hv _
  exact meets_weaken (Env D) (Sound D key) _ _ _ _ v (fun _ _ _ _ => trivial)
    (meets_createDirAll D key _ v hv)

theorem meets_install (hD : Documented D) (caller : Caller) (w : World L) (h : Sound D key w) :
    Meets (Env D) (Sound D key) (Ends (fun _ t => Afresh D caller t) (fun _ _ => True))
      (install caller) w := by
  refine meets_andThen (Env D) (Sound D key) _ _ _ _ _ w (meets_ensureDirs key w h) ?_
  intro _ u hu _
  refine meets_andThen (Env D) (Sound D key) _ _ _ _ _ u
    (meets_installBinary D key caller.exe u hu) ?_
  rintro - v hv ⟨src, contents, hexe, hbin⟩
  refine meets_andThen (Env D) (Sound D key) _ _ _ _ _ v
    (meets_writeRootFile D key libexec .operator .operatorTmp operatorScript 0o755 v rfl
      (by decide) (by decide) rfl hv) ?_
  intro _ x hx hop
  refine meets_andThen (Env D) (Sound D key) _ _ _ _ _ x
    (meets_writeRootFile D key _ .plist .plistTmp plist 0o644 x rfl (by decide) (by decide) rfl
      hx) ?_
  intro _ y hy hpl
  refine meets_andThen (Env D) (Sound D key) _ _ _ _ _ y
    (meets_start _ hD (keeps_sound D key hD) true y hy) ?_
  intro _ z hz hstarted
  have hinstalled : Installed contents z := by
    refine ⟨?_, ?_, ?_⟩
    · rw [hstarted.files .bin rfl, hpl.others .bin (by decide) (by decide) rfl,
        hop.others .bin (by decide) (by decide) rfl, hbin.placed]
    · rw [hstarted.files .operator rfl, hpl.others .operator (by decide) (by decide) rfl,
        hop.placed]
    · rw [hstarted.files .plist rfl, hpl.placed]
  have hafresh : Afresh D caller z :=
    ⟨⟨src, contents, hexe, hinstalled⟩, hstarted.enabled, hstarted.job⟩
  apply meets_attempt (Env D) (Sound D key) _ _ _ _ z hz
  rintro view t ⟨_, hidle, rfl⟩
  exact ⟨sound_idles hz hidle, afresh_idles hafresh hidle⟩

theorem meets_up (hD : Documented D) (w : World L) (h : Sound D key w) :
    Meets (Env D) (Sound D key) (Ends (fun _ t => Started D w t ∧ w.files .plist ≠ none)
      (fun _ _ => True)) up w := by
  have hI := keeps_sound D key hD
  refine meets_andThen (Env D) (Sound D key) _ _ _ _ _ w
    (meets_present _ (hI .enable).idles .plist w h) ?_
  rintro installed u hu ⟨hidle, hinstalled⟩
  cases installed with
  | false => exact meets_bail (Env D) (Sound D key) _ _ _ u hu trivial
  | true =>
    have hplist : w.files .plist ≠ none := by
      rw [hidle.files .plist rfl] at hinstalled
      intro hnone
      rw [hnone] at hinstalled
      cases hinstalled
    refine meets_andThen (Env D) (Sound D key) _ _ _ _ _ u
      (meets_serviceLoaded _ (hI .enable).idles u hu) ?_
    intro restarting v hv hasked
    refine meets_andThen (Env D) (Sound D key) _ _ _ _ _ v (meets_start _ hD hI false v hv) ?_
    intro _ t ht hstarted
    have hfiles : Unshared w t :=
      (Unshared.trans hidle.files hasked.idle.files).trans hstarted.files
    exact meets_pure (Env D) (Sound D key) _ _ _ t ht
      ⟨⟨hfiles, hstarted.enabled, hstarted.job⟩, hplist⟩

/-- What `remove` takes away; the key stays. -/
def removed : List Path := [.plist, .operator, .bin, .resolver, .log]

/-- The plist, the operator script and the binary are gone. -/
def Unlinked (t : World L) : Prop := ∀ path ∈ removed, path.shared = false → t.files path = none

variable (D) in
structure Removed (t : World L) : Prop where
  files : ∀ path ∈ removed, t.files path = none
  stopped : D.job t.launchd = none

variable (D) in
/-- A run of `remove` that succeeded. What an `install` left under a temporary name
stays, and so does the key; a service that was not asked goes on, and may write its
log and its resolver file again. -/
structure Removes (w t : World L) : Prop where
  unlinked : Unlinked t
  others : ∀ path, path ∉ removed → path.shared = false → t.files path = w.files path
  key : w.files .key ≠ none → t.files .key = w.files .key
  removed : Spawns D → Removed D t

theorem removed_idles {t u : World L} (h : Removed D t) (hidle : Idles D t u) : Removed D u := by
  refine ⟨fun path hp => ?_, stopped_idles h.stopped hidle⟩
  rw [hidle.stopped h.stopped]
  exact h.files path hp

theorem removed_set {t : World L} (h : Removed D t) (path : Path) :
    Removed D (t.set path none) := by
  refine ⟨fun path' hp => ?_, h.stopped⟩
  by_cases hpath : path' = path
  · rw [hpath, set_self]
  · rw [set_other t path path' none hpath]
    exact h.files path' hp

theorem keeps_removed (hD : Documented D) (ctl : Ctl) (hctl : ctl ≠ .bootstrap) :
    Keeps D (Removed D) ctl := by
  refine ⟨fun w u h hidle => removed_idles h hidle, fun w out l h hdoes => ?_⟩
  exact ⟨h.files, hD.only_bootstrap w ctl out l hdoes hctl h.stopped⟩

theorem deletes_removal {path : Path} {u t : World L} {a : Removal} (hkey : path ≠ .key)
    (hdoes : Does D u (.removeFile path) a t) (ha : a ≠ .failed) : Deletes D [path] u t := by
  cases a with
  | done =>
    obtain rfl := hdoes
    refine ⟨fun path' hpath _ => ?_, fun path' hpath _ => ?_, fun _ => ?_, fun h => h⟩
    · by_cases heq : path' = path
      · rw [heq, set_self]
      · rw [set_other u path path' none heq]
        exact hpath.resolve_left fun hin => heq (List.mem_singleton.mp hin)
    · exact set_other u path path' none fun heq => hpath (List.mem_singleton.mpr heq)
    · exact set_other u path .key none hkey.symm
  | missing =>
    obtain ⟨hmissing, rfl⟩ := hdoes
    refine ⟨fun path' hpath _ => ?_, fun _ _ _ => rfl, fun _ => rfl, fun h => h⟩
    rcases hpath with hin | hnone
    · rw [List.mem_singleton.mp hin, hmissing]
    · exact hnone
  | failed => exact absurd rfl ha

theorem meets_removeFile (hI : ∀ w u, I w → Idles D w u → I u)
    (hset : ∀ w path, path ≠ .key → I w → I (w.set path none)) (path : Path) (hkey : path ≠ .key)
    (w : World L) (h : I w) :
    Meets (Env D) I (Ends (fun _ t => Deletes D [path] w t) (fun _ _ => True)) (removeFile path)
      w := by
  apply meets_attempt (Env D) I _ _ _ _ w h
  rintro a t ⟨u, hidle, hdoes⟩
  have hu := hI w u h hidle
  have hbefore := deletes_idles hidle
  cases a with
  | done =>
    have hdeleted := deletes_removal (a := .done) hkey hdoes (by decide)
    obtain rfl := hdoes
    exact ⟨hset u path hkey hu, hbefore.trans hdeleted⟩
  | missing =>
    have hdeleted := deletes_removal (a := .missing) hkey hdoes (by decide)
    obtain ⟨-, rfl⟩ := hdoes
    exact ⟨hu, hbefore.trans hdeleted⟩
  | failed =>
    obtain rfl := hdoes
    exact ⟨hu, trivial⟩

theorem meets_removeAll (hI : ∀ w u, I w → Idles D w u → I u)
    (hset : ∀ w path, path ≠ .key → I w → I (w.set path none)) (paths : List Path)
    (hpaths : ∀ path ∈ paths, path ≠ .key) (w : World L) (h : I w) :
    Meets (Env D) I (Ends (fun _ t => Deletes D paths w t) (fun _ _ => True)) (removeAll paths)
      w := by
  induction paths generalizing w with
  | nil =>
    exact meets_pure (Env D) I _ _ _ w h
      ⟨fun _ hpath _ => hpath.resolve_left List.not_mem_nil, fun _ _ _ => rfl, fun _ => rfl,
        fun hstopped => hstopped⟩
  | cons path paths ih =>
    refine meets_andThen (Env D) I _ _ _ _ _ w
      (meets_removeFile I hI hset path (hpaths path (by simp)) w h) ?_
    intro _ u hu hfirst
    refine meets_weaken (Env D) I _ _ _ _ u ?_
      (ih (fun path' hp => hpaths path' (List.mem_cons_of_mem _ hp)) u hu)
    intro _ t _ hrest
    exact hfirst.trans hrest

theorem meets_clear (hD : Documented D) (hen : Keeps D I .enable) (v : World L) (hv : I v) :
    Meets (Env D) I (Ends (fun _ t => Deletes D [] v t) (fun _ _ => True))
      ((launchctl .enable).rescue (fun _ => pure ()) : Cmd Unit) v := by
  have hrun : Meets (Env D) I (Ends (fun _ t => Deletes D [] v t) (fun _ t => Deletes D [] v t))
      (launchctl .enable) v := by
    apply meets_attempt (Env D) I _ _ _ _ v hv
    rintro out t ⟨x, hidle, l, hdoes, rfl⟩
    have hafter := (deletes_idles hidle).trans (deletes_does hD (by decide) hdoes)
    refine ⟨hen.does x out l (hen.idles v x hv hidle) hdoes, ?_⟩
    match out with
    | .unspawned => exact hafter
    | .exited false stdout stderr status => exact hafter
    | .exited true stdout stderr status => exact hafter
  exact meets_rescue (Env D) I _ _ _ _ _ v hrun
    fun _ t ht hdeletes => meets_pure (Env D) I _ _ _ t ht hdeletes

theorem meets_remove (hD : Documented D) (hout : Keeps D I .bootout) (hen : Keeps D I .enable)
    (hset : ∀ w path, path ≠ .key → I w → I (w.set path none)) (w : World L) (h : I w) :
    Meets (Env D) I (Ends (fun _ t => Removes D w t) (fun _ _ => True)) remove w := by
  refine meets_andThen (Env D) I _ _ _ _ _ w (meets_serviceLoaded I hout.idles w h) ?_
  intro loaded u hu hasked
  refine meets_andThen (Env D) I _ _ _ _ _ u (meets_takeOut I hD hout loaded w u hu hasked) ?_
  rintro - v hv ⟨htaken, hstopped⟩
  refine meets_andThen (Env D) I _ _ _ _ _ v (meets_clear I hD hen v hv) ?_
  intro _ x hx hcleared
  refine meets_andThen (Env D) I _ _ _ _ _ x
    (meets_removeAll I hout.idles hset removed (by decide) x hx) ?_
  intro _ y hy hdeleted
  refine meets_andThen (Env D) I _ _ _ _ _ y (meets_present I hout.idles .key y hy) ?_
  rintro kept t ht ⟨hidle, -⟩
  have hlater : Deletes D removed v t :=
    (hcleared.trans hdeleted).trans (deletes_idles hidle)
  have hall : Deletes D removed w t := htaken.trans hlater
  refine meets_pure (Env D) I _ _ _ t ht
    ⟨fun path hp hshared => ?_, hall.others, hall.key, fun hspawn => ⟨fun path hp => ?_, ?_⟩⟩
  · exact hall.gone path (Or.inl hp) (Or.inl hshared)
  · exact hlater.gone path (Or.inl hp) (Or.inr (hstopped hspawn))
  · exact hlater.stopped (hstopped hspawn)

end

abbrev PlainState := Option Image × Bool

def answered (success : Bool) : Output :=
  .exited success "" "" (if success then "exit status: 0" else "exit status: 5")

def plainDoes (w : World PlainState) : Ctl → Output × PlainState
  | .enable => (answered true, (w.launchd.1, false))
  | .disable => (answered true, (w.launchd.1, true))
  | .bootout => (answered w.launchd.1.isSome, (none, w.launchd.2))
  | .bootstrap =>
    if w.launchd.2 || w.launchd.1.isSome || (w.files .plist).isNone then
      (answered false, w.launchd)
    else (answered true, (some w.image, w.launchd.2))
  | .kickstart =>
    if w.launchd.1.isSome then (answered true, (some w.image, w.launchd.2))
    else (answered false, w.launchd)

def plainLaunchd : Launchd PlainState where
  disabled l := l.2
  job l := l.1
  does w ctl out l := (out, l) = plainDoes w ctl
  prints l out := out = answered l.1.isSome

theorem plain_spawns : Spawns plainLaunchd := by
  intro l h
  cases h

theorem plain_documented : Documented plainLaunchd where
  prints := by
    rintro l success stdout stderr status ⟨⟩
    rfl
  enable := by
    rintro w out l ⟨⟩ -
    rfl
  disable := by
    rintro w out l ⟨⟩ -
    rfl
  bootout := by
    rintro w out l ⟨⟩ -
    rfl
  bootstrap := by
    intro w out l h hout
    simp only [plainLaunchd, plainDoes] at h
    split at h
    · cases h
      cases hout
    · rename_i hcond
      cases h
      simp only [Bool.or_eq_true, not_or, Bool.not_eq_true] at hcond
      exact ⟨hcond.1.1, rfl⟩
  kickstart := by
    intro w out l h hout
    simp only [plainLaunchd, plainDoes] at h
    split at h
    · cases h
      rfl
    · cases h
      cases hout
  only_enable := by
    intro w ctl out l h hctl hdis
    cases ctl <;> simp only [plainLaunchd, plainDoes] at h hdis ⊢ <;> grind
  only_disable := by
    intro w ctl out l h hctl hdis
    cases ctl <;> simp only [plainLaunchd, plainDoes] at h hdis ⊢ <;> grind
  only_bootstrap := by
    intro w ctl out l h hctl hjob
    cases ctl <;> simp only [plainLaunchd, plainDoes] at h hjob ⊢ <;> grind
  started_now := by
    intro w ctl out l image h hjob
    cases ctl <;> simp only [plainLaunchd, plainDoes] at h hjob ⊢ <;> grind

def onFile (w : World PlainState) (path : Path) (change : File → World PlainState) :
    Except String Unit × World PlainState :=
  match w.files path with
  | some file => (.ok (), change file)
  | none => (.error "No such file or directory (os error 2)", w)

def plainAct (w : World PlainState) : (c : Call) → c.Answer × World PlainState
  | .createDirAll _ => (.ok (), w)
  | .copy contents dst => (.ok (), w.set dst (some ⟨some contents, 0o700, false⟩))
  | .write path contents => (.ok (), w.set path (some ⟨some contents, 0o644, true⟩))
  | .setMode path mode => onFile w path (fun file => w.set path (some { file with mode := mode }))
  | .chownRoot path => onFile w path (fun file => w.set path (some { file with root := true }))
  | .rename src dst => onFile w src (fun file => (w.set dst (some file)).set src none)
  | .removeFile path =>
    (if (w.files path).isSome then .done else .missing,
      if (w.files path).isSome then w.set path none else w)
  | .present path => ((w.files path).isSome, w)
  | .print => (answered w.launchd.1.isSome, w)
  | .launchctl ctl => ((plainDoes w ctl).1, { w with launchd := (plainDoes w ctl).2 })
  | .waitForDaemon => (none, w)

theorem onFile_cases (w : World PlainState) (path : Path) (change : File → World PlainState)
    (P : Except String Unit → World PlainState → Prop)
    (hok : ∀ file, w.files path = some file → P (.ok ()) (change file))
    (herror : ∀ e, P (.error e) w) : P (onFile w path change).1 (onFile w path change).2 := by
  unfold onFile
  cases hfile : w.files path with
  | some file => exact hok file hfile
  | none => exact herror _

theorem idles_refl {L : Type} (D : Launchd L) (w : World L) : Idles D w w :=
  ⟨fun _ _ => rfl, fun _ => rfl, fun _ => rfl, rfl, Or.inl rfl⟩

theorem plainAct_env (w : World PlainState) (c : Call) :
    Env plainLaunchd w c (plainAct w c).1 (plainAct w c).2 := by
  refine ⟨w, idles_refl plainLaunchd w, ?_⟩
  cases c with
  | createDirAll _ => rfl
  | copy contents dst => exact ⟨0o700, false, rfl⟩
  | write path contents => exact ⟨0o644, true, rfl⟩
  | setMode path mode =>
    exact onFile_cases w path _ (fun a t => Does plainLaunchd w (.setMode path mode) a t)
      (fun file hfile => ⟨file, hfile, rfl⟩) (fun _ => rfl)
  | chownRoot path =>
    exact onFile_cases w path _ (fun a t => Does plainLaunchd w (.chownRoot path) a t)
      (fun file hfile => ⟨file, hfile, rfl⟩) (fun _ => rfl)
  | rename src dst =>
    exact onFile_cases w src _ (fun a t => Does plainLaunchd w (.rename src dst) a t)
      (fun file hfile => ⟨file, hfile, rfl⟩) (fun _ => rfl)
  | removeFile path =>
    show Does plainLaunchd w (.removeFile path) (if (w.files path).isSome then .done else .missing)
      (if (w.files path).isSome then w.set path none else w)
    cases hfile : w.files path with
    | some file => exact rfl
    | none => exact ⟨hfile, rfl⟩
  | present path => exact ⟨rfl, rfl⟩
  | print => exact ⟨rfl, rfl⟩
  | launchctl ctl => exact ⟨_, rfl, rfl⟩
  | waitForDaemon => rfl

def rootCaller : Caller := { exe := some ("/Users/u/bin/pai-sho", "binary") }

/-- What a command leaves when every call succeeds that can. -/
def after (c : Command) (w : World PlainState) : World PlainState :=
  (Script.follow plainAct (c.body rootCaller) w).2

theorem reaches_after (c : Command) (w : World PlainState) (result : Except String String)
    (hresult : (Script.follow plainAct (c.body rootCaller) w).1 = result) :
    Reach (Env plainLaunchd) (c.body rootCaller) w (.ret result) (after c w) := by
  rw [← hresult]
  exact reach_follow (Env plainLaunchd) plainAct plainAct_env (c.body rootCaller) w

theorem runs_after (c : Command) (w : World PlainState) :
    Run plainLaunchd w [.ran rootCaller c] (after c w) :=
  Run.snoc _ _ _ [] _ (Run.nil w)
    (Moves.ran _ _ rootCaller c _ _ rfl (reaches_after c w _ rfl))

def fresh : World PlainState := ⟨fun _ => none, none, false⟩

theorem fresh_sound : Sound plainLaunchd (fresh.files .key) fresh :=
  ⟨nofun, nofun, fun h => absurd rfl h⟩

section
variable {L : Type} {D : Launchd L} (key : Option File)

variable (D) in
def Leaves (caller : Caller) (w t : World L) : Command → Prop
  | .install => Afresh D caller t
  | .up => Started D w t ∧ w.files .plist ≠ none
  | .down => Disabled D t ∧ (Spawns D → Down D t)
  | .remove => Removes D w t

theorem meets_body (hD : Documented D) (caller : Caller) (c : Command) (w : World L)
    (h : Sound D key w) :
    Meets (Env D) (Sound D key) (Ends (fun _ t => Leaves D caller w t c) (fun _ _ => True))
      (c.body caller) w := by
  have hI := keeps_sound D key hD
  cases c with
  | install => exact meets_install key hD caller w h
  | up => exact meets_up key hD w h
  | down => exact meets_down _ hD (hI .bootout) (hI .disable) w h
  | remove =>
    exact meets_remove _ hD (hI .bootout) (hI .enable)
      (fun w path hpath hw => sound_set hw path none hpath nofun) w h

theorem sound_run (hD : Documented D) (w w' : World L) (moves : List Move) (h : Sound D key w)
    (hrun : Run D w moves w') : Sound D key w' := by
  have hlasts : Lasts D (Sound D key) (fun _ => True) :=
    ⟨fun _ _ h hidle => sound_idles h hidle, fun _ _ h hboot => sound_boots h hboot,
      fun caller c u _ hu => ⟨_, meets_body key hD caller c u hu⟩⟩
  refine run_keeps hlasts w w' moves (fun move _ => ?_) hrun h
  cases move <;> trivial

/-- Whatever commands run, however they fail or are cut short, and whenever the
machine boots, the service's files are whole and so is what it runs, and a key
is never lost. -/
theorem service_files_whole (hD : Documented D) (w w' : World L) (moves : List Move)
    (hw : Sound D (w.files .key) w) (hrun : Run D w moves w') :
    Sound D (w.files .key) w' :=
  sound_run _ hD w w' moves hw hrun

theorem fresh_install_whole : Sound plainLaunchd none (after .install fresh) :=
  service_files_whole plain_documented fresh _ _ fresh_sound (runs_after .install fresh)

/-- After any run, a command that reports success has done what it says. -/
theorem reported_success_holds (hD : Documented D) (w u t : World L) (moves : List Move)
    (hw : Sound D (w.files .key) w) (hrun : Run D w moves u) (caller : Caller) (c : Command)
    (p : Cmd String) (hp : c.script caller = some p) (text : String)
    (hreach : Reach (Env D) p u (.ret (.ok text)) t) : Leaves D caller u t c := by
  have hu := sound_run _ hD w u moves hw hrun
  rcases script_cases caller c p hp with ⟨e, rfl⟩ | rfl
  · cases hreach
  · exact (meets_reach (Env D) _ _ _ _ u t (meets_body _ hD caller c u hu) hreach).2

theorem first_install_afresh :
    Leaves plainLaunchd rootCaller (after .down fresh) (after .install (after .down fresh))
      .install :=
  reported_success_holds plain_documented fresh _ _ _ fresh_sound (runs_after .down fresh)
    rootCaller .install _ rfl _ (reaches_after .install _ _ rfl)

theorem down_boots {w w' : World L} (h : Disabled D w) (hboot : Boots D w w') : Down D w' := by
  refine ⟨hboot.disabled.trans h, ?_⟩
  rcases hboot.job with hnone | ⟨henabled, -, -⟩
  · exact hnone
  · cases h.symm.trans henabled

theorem lasts_disabled (hD : Documented D) : Lasts D (Disabled D) (fun c => c = .down) where
  idles _ _ h hidle := hidle.disabled.trans h
  boots _ _ h hboot := (down_boots h hboot).disabled
  body := by
    rintro caller c w rfl hw
    exact ⟨_, meets_down _ hD (keeps_disabled hD .bootout (by decide))
      (keeps_disabled hD .disable (by decide)) w hw⟩

theorem lasts_down (hD : Documented D) : Lasts D (Down D) (fun c => c = .down) where
  idles := (keeps_down hD .disable (by decide) (by decide)).idles
  boots _ _ h hboot := down_boots h.disabled hboot
  body := by
    rintro caller c w rfl hw
    exact ⟨_, meets_down _ hD (keeps_down hD .bootout (by decide) (by decide))
      (keeps_down hD .disable (by decide) (by decide)) w hw⟩

theorem keeps_true (ctl : Ctl) : Keeps D (fun _ => True) ctl :=
  ⟨fun _ _ _ _ => trivial, fun _ _ _ _ _ => trivial⟩

/-- Once `down` has reported that the service is stopped, it stays disabled over
boots and over further `down`s, cut short or not. It is stopped too, at once if
`launchctl print` can be run, and from the first boot on if not. -/
theorem down_stays_down (hD : Documented D) (w u w' : World L) (caller : Caller) (p : Cmd String)
    (hp : Command.down.script caller = some p) (text : String)
    (hreach : Reach (Env D) p w (.ret (.ok text)) u) (moves : List Move)
    (honly : ∀ move ∈ moves, Only (fun c => c = .down) move) (hrun : Run D u moves w') :
    D.disabled w'.launchd = true ∧ (Spawns D ∨ .boot ∈ moves → D.job w'.launchd = none) := by
  have hdown : Disabled D u ∧ (Spawns D → Down D u) := by
    rcases script_cases caller .down p hp with ⟨e, rfl⟩ | rfl
    · cases hreach
    · exact (meets_reach (Env D) _ _ _ _ w u
        (meets_down _ hD (keeps_true .bootout) (keeps_true .disable) w trivial) hreach).2
  refine ⟨run_keeps (lasts_disabled hD) u w' moves honly hrun hdown.1, ?_⟩
  rintro (hspawn | hbooted)
  · exact (run_keeps (lasts_down hD) u w' moves honly hrun (hdown.2 hspawn)).stopped
  · exact (run_booted (lasts_disabled hD) (lasts_down hD) (fun _ _ h hboot => down_boots h hboot)
      u w' moves honly hrun hdown.1 hbooted).stopped

theorem down_over_a_boot : Down plainLaunchd (after .down (after .install fresh)) := by
  have hboot : Boots plainLaunchd (after .down (after .install fresh))
      (after .down (after .install fresh)) := ⟨rfl, rfl, Or.inl rfl⟩
  have h := down_stays_down plain_documented (after .install fresh) _ _ rootCaller _ rfl _
    (reaches_after .down _ _ rfl) [.boot] (by simp [Only])
    (Run.snoc _ _ _ [] .boot (Run.nil _) (Moves.boot _ _ hboot))
  exact ⟨h.1, h.2 (Or.inr (by simp))⟩

theorem unlinked_plist {w : World L} (h : Unlinked w) : w.files .plist = none :=
  h .plist (by decide) rfl

theorem unlinked_set {w : World L} (h : Unlinked w) (path : Path) : Unlinked (w.set path none) := by
  intro path' hp hshared
  by_cases hpath : path' = path
  · rw [hpath, set_self]
  · rw [set_other w path path' none hpath]
    exact h path' hp hshared

theorem keeps_unlinked (ctl : Ctl) : Keeps D Unlinked ctl := by
  refine ⟨fun w u h hidle path hp hshared => ?_, fun _ _ _ h _ => h⟩
  rw [hidle.files path hshared]
  exact h path hp hshared

theorem stopped_boots {w w' : World L} (h : w.files .plist = none) (hboot : Boots D w w') :
    D.job w'.launchd = none := by
  rcases hboot.job with hnone | ⟨-, hplist, -⟩
  · exact hnone
  · exact absurd h hplist

theorem meets_up_refused (I : World L → Prop) (hI : ∀ w u, I w → Idles D w u → I u)
    (hplist : ∀ w, I w → w.files .plist = none) (w : World L) (h : I w) :
    Meets (Env D) I (Ends (fun _ _ => False) (fun _ _ => True)) up w := by
  refine meets_andThen (Env D) I _ _ _ _ _ w (meets_present I hI .plist w h) ?_
  rintro installed u hu ⟨-, hinstalled⟩
  have hnone : installed = false := by rw [hinstalled, hplist u hu]; rfl
  subst hnone
  exact meets_bail (Env D) I _ _ _ u hu trivial

theorem lasts_removed (hD : Documented D) (I : World L → Prop)
    (hkeeps : ∀ ctl, ctl ≠ .bootstrap → Keeps D I ctl) (hplist : ∀ w, I w → w.files .plist = none)
    (hset : ∀ w path, I w → I (w.set path none)) (hboots : ∀ w w', I w → Boots D w w' → I w') :
    Lasts D I (fun c => c ≠ .install) where
  idles := (hkeeps .disable (by decide)).idles
  boots := hboots
  body := by
    intro caller c w hc hw
    cases c with
    | install => exact absurd rfl hc
    | up => exact ⟨_, meets_up_refused I (hkeeps .disable (by decide)).idles hplist w hw⟩
    | down =>
      exact ⟨_, meets_down I hD (hkeeps .bootout (by decide)) (hkeeps .disable (by decide)) w hw⟩
    | remove =>
      exact ⟨_, meets_remove I hD (hkeeps .bootout (by decide)) (hkeeps .enable (by decide))
        (fun w path _ h => hset w path h) w hw⟩

theorem lasts_unlinked (hD : Documented D) : Lasts D Unlinked (fun c => c ≠ .install) :=
  lasts_removed hD Unlinked (fun ctl _ => keeps_unlinked ctl) (fun _ h => unlinked_plist h)
    (fun _ path h => unlinked_set h path) (fun _ _ h hboot => by rwa [Unlinked, hboot.files])

variable (D) in
structure Halted (w : World L) : Prop where
  unlinked : Unlinked w
  stopped : D.job w.launchd = none

theorem halted_boots {w w' : World L} (h : Unlinked w) (hboot : Boots D w w') : Halted D w' := by
  refine ⟨?_, stopped_boots (unlinked_plist h) hboot⟩
  rwa [Unlinked, hboot.files]

theorem lasts_halted (hD : Documented D) : Lasts D (Halted D) (fun c => c ≠ .install) := by
  refine lasts_removed hD (Halted D) (fun ctl hctl => ⟨fun w u h hidle => ?_, fun w out l h hdoes =>
    ?_⟩) (fun _ h => unlinked_plist h.unlinked) (fun _ path h => ?_) (fun _ _ h hboot => ?_)
  · exact ⟨(keeps_unlinked ctl).idles w u h.unlinked hidle, stopped_idles h.stopped hidle⟩
  · exact ⟨h.unlinked, hD.only_bootstrap w ctl out l hdoes hctl h.stopped⟩
  · exact ⟨unlinked_set h.unlinked path, h.stopped⟩
  · exact halted_boots h.unlinked hboot

theorem lasts_all_removed (hD : Documented D) : Lasts D (Removed D) (fun c => c ≠ .install) := by
  refine lasts_removed hD (Removed D) (keeps_removed hD) (fun _ h => h.files .plist (by decide))
    (fun _ path h => removed_set h path) (fun w w' h hboot => ⟨?_, ?_⟩)
  · rw [hboot.files]
    exact h.files
  · exact stopped_boots (h.files .plist (by decide)) hboot

/-- Once `remove` has reported success, neither the plist nor the files root runs
come back before an `install`: `up` refuses, and a boot finds no plist, so from the
first boot on nothing runs. If `launchctl print` can be run nothing runs from the
start, and the log and the resolver file stay away too. -/
theorem removed_stays_removed (hD : Documented D) (w u w' : World L) (caller : Caller)
    (p : Cmd String) (hp : Command.remove.script caller = some p) (text : String)
    (hreach : Reach (Env D) p w (.ret (.ok text)) u) (moves : List Move)
    (honly : ∀ move ∈ moves, Only (fun c => c ≠ .install) move) (hrun : Run D u moves w') :
    Unlinked w' ∧ (.boot ∈ moves → D.job w'.launchd = none) ∧ (Spawns D → Removed D w') := by
  have hremoves : Removes D w u := by
    rcases script_cases caller .remove p hp with ⟨e, rfl⟩ | rfl
    · cases hreach
    · exact (meets_reach (Env D) _ _ _ _ w u (meets_remove _ hD (keeps_true .bootout)
        (keeps_true .enable) (fun _ _ _ _ => trivial) w trivial) hreach).2
  refine ⟨?_, fun hbooted => ?_, fun hspawn => ?_⟩
  · exact run_keeps (lasts_unlinked hD) u w' moves honly hrun hremoves.unlinked
  · exact (run_booted (lasts_unlinked hD) (lasts_halted hD)
      (fun _ _ h hboot => halted_boots h hboot) u w' moves honly hrun hremoves.unlinked
      hbooted).stopped
  · exact run_keeps (lasts_all_removed hD) u w' moves honly hrun (hremoves.removed hspawn)

theorem removed_and_refused :
    Removed plainLaunchd (after .up (after .remove (after .install fresh))) :=
  (removed_stays_removed plain_documented (after .install fresh) _ _ rootCaller _ rfl _
    (reaches_after .remove _ _ rfl) _ (by simp [Only]) (runs_after .up _)).2.2 plain_spawns

end

end PaiSho.ServiceRuns
