import PaiSho.Invitations
import PaiSho.Library.Scripts

/-!
# The launchd service

`launchd.rs`: the commands that install, start, stop and remove the macOS
service, as scripts of file calls and `launchctl` commands, each of which may
fail. The files are written beside their place and renamed into it. What
`launchctl` does is no part of the repository: `Launchd` stands for it, and
`Documented` says what the commands rely on. While a command runs the service
goes on running: it may be started again, and it writes its own files.
-/

set_option autoImplicit false

namespace PaiSho.LaunchdService
open Library.Scripts
open Invitations (trim)

def label : String := "pai-sho"

def domain : String := "system/" ++ label

/-- The files of the service, the two temporary names of `write_root_file` and
the one of `install_binary`. -/
inductive Path where
  | plist
  | bin
  | operator
  | key
  | log
  | resolver
  | plistTmp
  | installing
  | operatorTmp
  deriving DecidableEq, Repr

def Path.text : Path → String
  | .plist => "/Library/LaunchDaemons/pai-sho.plist"
  | .bin => "/usr/local/libexec/pai-sho"
  | .operator => "/usr/local/libexec/pai-sho-operator"
  | .key => "/usr/local/var/pai-sho/op.key"
  | .log => "/usr/local/var/log/pai-sho-operator.log"
  | .resolver => "/etc/resolver/pai-sho"
  | .plistTmp => "/Library/LaunchDaemons/pai-sho.tmp"
  | .installing => "/usr/local/libexec/.pai-sho.installing"
  | .operatorTmp => "/usr/local/libexec/pai-sho-operator.tmp"

def socket : String := "/tmp/pai-sho.sock"

def resolverAddr : String := "10.99.0.53"

def operatorScript : String :=
  "#!/bin/bash\n" ++
  "# Rewritten by `pai-sho daemon install`.\n" ++
  "set -eu\n" ++
  "mkdir -p /etc/resolver\n" ++
  "printf 'nameserver " ++ resolverAddr ++ "\\n' > " ++ Path.text .resolver ++ "\n" ++
  "KEY=\"" ++ Path.text .key ++ "\"\n" ++
  "mkdir -p \"$(dirname \"$KEY\")\"\n" ++
  "u=$(stat -f%Su /dev/console) || exit 1\n" ++
  "if [ -z \"$u\" ]; then\n" ++
  "  echo \"pai-sho: no user on /dev/console\" >&2\n" ++
  "  exit 1\n" ++
  "fi\n" ++
  "exec " ++ Path.text .bin ++ " --socket " ++ socket ++ " daemon \\\n" ++
  "  --key \"$KEY\" --tun utun --socket-owner \"$u\"\n"

def plist : String :=
  "<?xml version=\"1.0\" encoding=\"UTF-8\"?>\n" ++
  "<!DOCTYPE plist PUBLIC \"-//Apple//DTD PLIST 1.0//EN\" " ++
  "\"http://www.apple.com/DTDs/PropertyList-1.0.dtd\">\n" ++
  "<plist version=\"1.0\">\n" ++
  "<dict>\n" ++
  "    <key>Label</key>\n" ++
  "    <string>" ++ label ++ "</string>\n" ++
  "    <key>ProgramArguments</key>\n" ++
  "    <array>\n" ++
  "        <string>" ++ Path.text .operator ++ "</string>\n" ++
  "    </array>\n" ++
  "    <key>RunAtLoad</key>\n" ++
  "    <true/>\n" ++
  "    <key>KeepAlive</key>\n" ++
  "    <true/>\n" ++
  "    <key>StandardOutPath</key>\n" ++
  "    <string>" ++ Path.text .log ++ "</string>\n" ++
  "    <key>StandardErrorPath</key>\n" ++
  "    <string>" ++ Path.text .log ++ "</string>\n" ++
  "    <key>EnvironmentVariables</key>\n" ++
  "    <dict>\n" ++
  "        <key>PATH</key>\n" ++
  "        <string>/usr/bin:/bin:/usr/sbin:/sbin</string>\n" ++
  "    </dict>\n" ++
  "</dict>\n" ++
  "</plist>\n"

/-- The `launchctl` commands that change something. -/
inductive Ctl where
  | enable
  | disable
  | bootout
  | bootstrap
  | kickstart
  deriving DecidableEq, Repr

def Ctl.args : Ctl → List String
  | .enable => ["enable", domain]
  | .disable => ["disable", domain]
  | .bootout => ["bootout", domain]
  | .bootstrap => ["bootstrap", "system", Path.text .plist]
  | .kickstart => ["kickstart", "-k", domain]

inductive Output where
  | unspawned
  | exited (success : Bool) (stdout stderr status : String)
  deriving DecidableEq, Repr

def Output.succeeded : Output → Bool
  | .unspawned => false
  | .exited success _ _ _ => success

inductive Removal where
  | done
  | missing
  | failed
  deriving DecidableEq, Repr

structure InstallView where
  key : String
  peers : ℕ
  deriving DecidableEq, Repr

inductive Call where
  | createDirAll (dir : String)
  | copy (contents : String) (dst : Path)
  | write (path : Path) (contents : String)
  | setMode (path : Path) (mode : ℕ)
  | chownRoot (path : Path)
  | rename (src dst : Path)
  | removeFile (path : Path)
  | present (path : Path)
  | print
  | launchctl (ctl : Ctl)
  | waitForDaemon
  deriving DecidableEq, Repr

def Call.Answer : Call → Type
  | .removeFile _ => Removal
  | .present _ => Bool
  | .print => Output
  | .launchctl _ => Output
  | .waitForDaemon => Option InstallView
  | _ => Except String Unit

abbrev Cmd := Fallible Call Call.Answer String

def context (text : String) : Except String Unit → Except String Unit
  | .ok u => .ok u
  | .error _ => .error text

def createDirAll (dir : String) : Cmd Unit :=
  .attempt (.createDirAll dir) (context ("creating " ++ dir))

def chownRoot (path : Path) : Cmd Unit :=
  .attempt (.chownRoot path) (fun
    | .ok u => .ok u
    | .error e => .error ("chown " ++ path.text ++ ": " ++ e))

def setMode (path : Path) (mode : ℕ) : Cmd Unit :=
  .attempt (.setMode path mode) (context ("chmod " ++ path.text))

def rename (src dst : Path) : Cmd Unit :=
  .attempt (.rename src dst) (context ("replacing " ++ dst.text))

def removeFile (path : Path) : Cmd Unit :=
  .attempt (.removeFile path) (fun
    | .done => .ok ()
    | .missing => .ok ()
    | .failed => .error ("removing " ++ path.text))

def present (path : Path) : Cmd Bool := .attempt (.present path) (fun b => .ok b)

def complaint (stdout stderr status : String) : String :=
  if (trim stderr.toList).isEmpty then
    if (trim stdout.toList).isEmpty then "exit " ++ status else String.ofList (trim stdout.toList)
  else String.ofList (trim stderr.toList)

def launchctl (ctl : Ctl) : Cmd Unit :=
  .attempt (.launchctl ctl) (fun
    | .unspawned => .error ("running launchctl " ++ " ".intercalate ctl.args)
    | .exited true _ _ _ => .ok ()
    | .exited false stdout stderr status =>
      .error ("launchctl " ++ " ".intercalate ctl.args ++ " failed: " ++
        complaint stdout stderr status))

def serviceLoaded : Cmd Bool := .attempt .print (fun out => .ok out.succeeded)

def whenever (b : Bool) (p : Cmd Unit) : Cmd Unit := if b then p else pure ()

/-- Who runs a command: the system, the user, whether `sudo` was tried and can be
run, and the running binary with its path when it can be found. -/
structure Caller where
  macos : Bool := true
  root : Bool := true
  elevating : Bool := false
  sudoRuns : Bool := true
  exe : Option (String × String)

/-- Whether the command may go on. A caller that is not root has the command run
again under `sudo`, and there is nothing more to this run. -/
def prepare (caller : Caller) : Option (Except String Unit) :=
  if !caller.macos then
    some (.error "daemon install, up, down, remove, and status run on macOS")
  else if caller.root then some (.ok ())
  else if caller.elevating then some (.error "this command needs root")
  else if caller.exe.isNone then some (.error "finding this pai-sho")
  else if !caller.sudoRuns then some (.error "running sudo")
  else none

def libexec : String := "/usr/local/libexec"

def ensureDirs : Cmd Unit := do
  createDirAll libexec
  createDirAll "/usr/local/var/log"
  createDirAll "/usr/local/var/pai-sho"

def placeBinary (tmp dest : Path) : Cmd Unit := do
  setMode tmp 0o755
  chownRoot tmp
  rename tmp dest

def installBinary (exe : Option (String × String)) : Cmd Unit :=
  match exe with
  | none => .bail "finding this pai-sho"
  | some (src, contents) => do
    createDirAll libexec
    .attempt (.copy contents .installing)
      (context ("copying " ++ src ++ " to " ++ Path.text .installing))
    (placeBinary .installing .bin).rescue (fun e => do
      .attempt (.removeFile .installing) (fun _ => .ok ())
      .bail e)

def writeRootFile (dir : String) (path tmp : Path) (contents : String) (mode : ℕ) : Cmd Unit := do
  createDirAll dir
  .attempt (.write tmp contents) (context ("writing " ++ tmp.text))
  setMode tmp mode
  chownRoot tmp
  rename tmp path

/-- A loaded service is started again, or taken out first when its plist is to be
read again. -/
def start (reload : Bool) : Cmd Unit := do
  launchctl .enable
  let loaded ← serviceLoaded
  if loaded && !reload then launchctl .kickstart
  else do
    whenever loaded (launchctl .bootout)
    launchctl .bootstrap

def installMessage : Option InstallView → String
  | none => "pai-sho is running. Not answering yet. Run `pai-sho key`."
  | some view =>
    if view.peers = 0 then
      "pai-sho is running.\n\nThis machine's key:\n\n  " ++ view.key
    else
      "pai-sho is running. " ++
        (if view.peers = 1 then "1 peer" else toString view.peers ++ " peers") ++ "."

def install (caller : Caller) : Cmd String := do
  ensureDirs
  installBinary caller.exe
  writeRootFile libexec .operator .operatorTmp operatorScript 0o755
  writeRootFile "/Library/LaunchDaemons" .plist .plistTmp plist 0o644
  start true
  .attempt .waitForDaemon (fun view => .ok (installMessage view))

def notInstalled : String := "pai-sho is not installed. Run `pai-sho daemon install`"

def up : Cmd String := do
  let installed ← present .plist
  if installed then do
    let restarting ← serviceLoaded
    start false
    pure (if restarting then "pai-sho restarted." else "pai-sho is running.")
  else .bail notInstalled

/-- `launchctl` is asked only when there is no plist. -/
def installedOrLoaded (installed : Bool) : Cmd Bool :=
  if installed then pure true else serviceLoaded

def down : Cmd String := do
  let installed ← present .plist
  let known ← installedOrLoaded installed
  if known then do
    let loaded ← serviceLoaded
    whenever loaded (launchctl .bootout)
    launchctl .disable
    pure "pai-sho is stopped. It stays stopped until `pai-sho daemon up`."
  else .bail notInstalled

def removeAll : List Path → Cmd Unit
  | [] => pure ()
  | path::paths => do
    removeFile path
    removeAll paths

/-- `down` disables the label; whether that can be cleared does not matter
here. -/
def remove : Cmd String := do
  let loaded ← serviceLoaded
  whenever loaded (launchctl .bootout)
  (launchctl .enable).rescue (fun _ => pure ())
  removeAll [.plist, .operator, .bin, .resolver, .log]
  let kept ← present .key
  pure (if kept then "Service removed. Kept the key at " ++ Path.text .key else "Service removed.")

inductive Command where
  | install
  | up
  | down
  | remove
  deriving DecidableEq, Repr

def Command.body (caller : Caller) : Command → Cmd String
  | .install => LaunchdService.install caller
  | .up => LaunchdService.up
  | .down => LaunchdService.down
  | .remove => LaunchdService.remove

def Command.script (caller : Caller) (c : Command) : Option (Cmd String) :=
  (prepare caller).map (fun
    | .error e => .bail e
    | .ok () => c.body caller)

theorem script_cases (caller : Caller) (c : Command) (p : Cmd String)
    (h : c.script caller = some p) : (∃ e, p = .bail e) ∨ p = c.body caller := by
  unfold Command.script at h
  obtain ⟨ready, -, hp⟩ := Option.map_eq_some_iff.mp h
  match ready with
  | .error e => exact Or.inl ⟨e, hp.symm⟩
  | .ok () => exact Or.inr hp.symm

structure File where
  contents : Option String
  mode : ℕ
  root : Bool
  deriving DecidableEq, Repr

structure Image where
  operator : Option File
  bin : Option File
  deriving DecidableEq, Repr

structure World (L : Type) where
  files : Path → Option File
  launchd : L

section
variable {L : Type}

def World.set (w : World L) (path : Path) (file : Option File) : World L :=
  { w with files := Function.update w.files path file }

def World.image (w : World L) : Image := ⟨w.files .operator, w.files .bin⟩

@[simp]
theorem set_self (w : World L) (path : Path) (file : Option File) :
    (w.set path file).files path = file := by
  simp [World.set]

theorem set_other (w : World L) (path path' : Path) (file : Option File) (h : path' ≠ path) :
    (w.set path file).files path' = w.files path' := by
  simp [World.set, Function.update_of_ne h]

end

/-- The service manager: whether the label is disabled, what the service runs
while it is loaded, and what commands do and answer. -/
structure Launchd (L : Type) where
  disabled : L → Bool
  job : L → Option Image
  does : World L → Ctl → Output → L → Prop
  prints : L → Output → Prop

/-- What the manual says of the commands. Whatever is started is started from the
files of the moment. -/
structure Documented {L : Type} (D : Launchd L) : Prop where
  prints : ∀ l success stdout stderr status, D.prints l (.exited success stdout stderr status) →
    success = (D.job l).isSome
  enable : ∀ w out l, D.does w .enable out l → out.succeeded = true → D.disabled l = false
  disable : ∀ w out l, D.does w .disable out l → out.succeeded = true → D.disabled l = true
  bootout : ∀ w out l, D.does w .bootout out l → out.succeeded = true → D.job l = none
  bootstrap : ∀ w out l, D.does w .bootstrap out l → out.succeeded = true →
    D.disabled w.launchd = false ∧ D.job l = some w.image
  kickstart : ∀ w out l, D.does w .kickstart out l → out.succeeded = true →
    D.job l = some w.image
  only_enable : ∀ w ctl out l, D.does w ctl out l → ctl ≠ .enable →
    D.disabled w.launchd = true → D.disabled l = true
  only_disable : ∀ w ctl out l, D.does w ctl out l → ctl ≠ .disable →
    D.disabled w.launchd = false → D.disabled l = false
  only_bootstrap : ∀ w ctl out l, D.does w ctl out l → ctl ≠ .bootstrap →
    D.job w.launchd = none → D.job l = none
  started_now : ∀ w ctl out l image, D.does w ctl out l → D.job l = some image →
    D.job w.launchd = some image ∨ image = w.image

def Path.shared : Path → Bool
  | .key => true
  | .log => true
  | .resolver => true
  | _ => false

section
variable {L : Type} (D : Launchd L)

/-- What may happen between two calls. A loaded service is kept alive: it may
have been started again, and only a running one writes. It never replaces the
key it finds. -/
structure Idles (w w' : World L) : Prop where
  files : ∀ path, path.shared = false → w'.files path = w.files path
  key : w.files .key ≠ none → w'.files .key = w.files .key
  stopped : D.job w.launchd = none → w'.files = w.files
  disabled : D.disabled w'.launchd = D.disabled w.launchd
  job : D.job w'.launchd = D.job w.launchd ∨
    (D.job w.launchd ≠ none ∧ D.job w'.launchd = some w.image)

structure Boots (w w' : World L) : Prop where
  files : w'.files = w.files
  disabled : D.disabled w'.launchd = D.disabled w.launchd
  job : D.job w'.launchd = none ∨
    (D.disabled w.launchd = false ∧ w.files .plist ≠ none ∧ D.job w'.launchd = some w.image)

/-- One call. A write that fails leaves anything at its path; owner and mode of a
new file are whatever they are. -/
def Does (w : World L) : (c : Call) → c.Answer → World L → Prop
  | .createDirAll _, _, w' => w' = w
  | .copy contents dst, .ok _, w' => ∃ mode root, w' = w.set dst (some ⟨some contents, mode, root⟩)
  | .copy _ dst, .error _, w' => ∃ file, w' = w.set dst file
  | .write path contents, .ok _, w' =>
    ∃ mode root, w' = w.set path (some ⟨some contents, mode, root⟩)
  | .write path _, .error _, w' => ∃ file, w' = w.set path file
  | .setMode path mode, .ok _, w' =>
    ∃ file, w.files path = some file ∧ w' = w.set path (some { file with mode := mode })
  | .setMode _ _, .error _, w' => w' = w
  | .chownRoot path, .ok _, w' =>
    ∃ file, w.files path = some file ∧ w' = w.set path (some { file with root := true })
  | .chownRoot _, .error _, w' => w' = w
  | .rename src dst, .ok _, w' =>
    ∃ file, w.files src = some file ∧ w' = (w.set dst (some file)).set src none
  | .rename _ _, .error _, w' => w' = w
  | .removeFile path, .done, w' => w' = w.set path none
  | .removeFile path, .missing, w' => w.files path = none ∧ w' = w
  | .removeFile _, .failed, w' => w' = w
  | .present path, b, w' => b = (w.files path).isSome ∧ w' = w
  | .print, out, w' => D.prints w.launchd out ∧ w' = w
  | .launchctl ctl, out, w' => ∃ l, D.does w ctl out l ∧ w' = { w with launchd := l }
  | .waitForDaemon, _, w' => w' = w

/-- A call as a command sees it: the service has gone on running before it. -/
def Env (w : World L) (c : Call) (a : c.Answer) (w' : World L) : Prop :=
  ∃ u, Idles D w u ∧ Does D u c a w'

/-- One thing that happens to the machine: a command runs, to its end or cut
short before that, or the service goes on, or the machine boots. -/
inductive Move where
  | ran (caller : Caller) (c : Command)
  | idle
  | boot

inductive Moves : World L → Move → World L → Prop where
  | ran (w w' : World L) (caller : Caller) (c : Command) (p p' : Cmd String)
      (hscript : c.script caller = some p) (hrun : Reach (Env D) p w p' w') :
      Moves w (.ran caller c) w'
  | idle (w w' : World L) (h : Idles D w w') : Moves w .idle w'
  | boot (w w' : World L) (h : Boots D w w') : Moves w .boot w'

inductive Run : World L → List Move → World L → Prop where
  | nil (w : World L) : Run w [] w
  | snoc (w w' w'' : World L) (moves : List Move) (move : Move) (hrun : Run w moves w')
      (hmove : Moves D w' move w'') : Run w (moves++[move]) w''

def Only (P : Command → Prop) : Move → Prop
  | .ran _ c => P c
  | .idle => True
  | .boot => True

structure Lasts (I : World L → Prop) (P : Command → Prop) : Prop where
  idles : ∀ w w', I w → Idles D w w' → I w'
  boots : ∀ w w', I w → Boots D w w' → I w'
  body : ∀ caller c w, P c → I w → ∃ Q, Meets (Env D) I Q (c.body caller) w

variable {D} {I J : World L → Prop} {P : Command → Prop}

theorem moves_keep (hI : Lasts D I P) (w w' : World L) (move : Move) (honly : Only P move)
    (h : I w) (hmove : Moves D w move w') : I w' := by
  cases hmove with
  | idle _ hidle => exact hI.idles w w' h hidle
  | boot _ hboot => exact hI.boots w w' h hboot
  | ran _ caller c p p' hscript hrun =>
    have hmeets : ∃ Q, Meets (Env D) I Q p w := by
      rcases script_cases caller c p hscript with ⟨e, rfl⟩ | rfl
      · exact ⟨fun _ _ => True, h, trivial⟩
      · exact hI.body caller c w honly h
    obtain ⟨Q, hQ⟩ := hmeets
    exact (meets_reach (Env D) I Q p p' w w' hQ hrun).now

theorem run_keeps (hI : Lasts D I P) (w w' : World L) (moves : List Move)
    (honly : ∀ move ∈ moves, Only P move) (h : Run D w moves w') (hw : I w) : I w' := by
  induction h with
  | nil => exact hw
  | snoc u u' moves move hrun hlast ih =>
    have hbefore : I u := ih fun m hm => honly m (List.mem_append_left _ hm)
    exact moves_keep hI u u' move (honly move (by simp)) hbefore hlast

theorem run_booted (hI : Lasts D I P) (hJ : Lasts D J P)
    (hboots : ∀ w w', I w → Boots D w w' → J w') (w w' : World L) (moves : List Move)
    (honly : ∀ move ∈ moves, Only P move) (h : Run D w moves w') (hw : I w)
    (hbooted : .boot ∈ moves) : J w' := by
  induction h with
  | nil => cases hbooted
  | snoc u u' moves move hrun hlast ih =>
    have hbefore : ∀ m ∈ moves, Only P m := fun m hm => honly m (List.mem_append_left _ hm)
    rcases List.mem_append.mp hbooted with hearlier | hnow
    · exact moves_keep hJ u u' move (honly move (by simp)) (ih hbefore hearlier) hlast
    · obtain rfl := List.mem_singleton.mp hnow
      cases hlast with
      | boot _ hboot => exact hboots u u' (run_keeps hI w u moves hbefore hrun hw) hboot

end

end PaiSho.LaunchdService
