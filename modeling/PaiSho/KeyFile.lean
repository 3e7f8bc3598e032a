import PaiSho.Library.Traces
import Mathlib.Logic.Function.Basic

/-!
# The key file

`load_or_create_key` of `daemon.rs`, for any number of daemons that start on one
key path at once. Each of them looks for the file, reads it or makes a key, creates
the file anew and writes it, with the others at work in between; any of its calls
may fail, and it may be gone after any of them. A file is created only where there
is none, so no two of them come up with different keys.
-/

set_option autoImplicit false

namespace PaiSho.KeyFile
open Library.Traces

abbrev SecretKey := Vector UInt8 32

structure Stored where
  bytes : List UInt8
  mode : ℕ
  deriving DecidableEq, Repr

inductive Phase where
  | begun
  | found
  | generated (key : SecretKey)
  | placed (key : SecretKey)
  | writing (key : SecretKey) (written : ℕ)
  | ended (result : Except String SecretKey)

inductive Next where
  | look (fresh : SecretKey)
  | read (readable : Bool)
  | createDir (done : Bool)
  | createNew (allowed : Bool)
  | write (count : ℕ)
  | writeFails

structure System where
  file : Option Stored
  starts : ℕ → Option Phase

inductive Input where
  | start (i : ℕ)
  | next (i : ℕ) (n : Next)

section
variable (path parent : String)

/-- `SecretKey::from_bytes` on bytes of the right number. -/
def ofBytes (bytes : List UInt8) : Except String SecretKey :=
  if h : bytes.length = 32 then .ok ⟨bytes.toArray, by simpa using h⟩
  else .error ("key file " ++ path ++ " is not 32 bytes")

def advance (file : Option Stored) : Phase → Next → Option (Phase × Option Stored)
  | .begun, .look fresh => some (if file.isSome then .found else .generated fresh, file)
  | .found, .read readable =>
    some (.ended (match file with
      | some f => if readable then ofBytes path f.bytes else
          .error ("failed to read key file " ++ path)
      | none => .error ("failed to read key file " ++ path)), file)
  | .generated key, .createDir done =>
    some (if done then .placed key else .ended (.error ("failed to create " ++ parent)), file)
  | .placed key, .createNew allowed =>
    if allowed && file.isNone then some (.writing key 0, some ⟨[], 0o600⟩)
    else some (.ended (.error ("failed to create key file " ++ path)), file)
  | .writing key written, .write count =>
    if 32 ≤ written + count then
      some (.ended (.ok key), file.map (fun f => { f with bytes := key.toList }))
    else
      some (.writing key (written+count),
        file.map (fun f => { f with bytes := key.toList.take (written+count) }))
  | .writing _ _, .writeFails =>
    some (.ended (.error ("failed to write key file " ++ path)), file)
  | _, _ => none

def step (sys : System) : Input → System × Unit
  | .start i =>
    (if (sys.starts i).isNone then
      { sys with starts := Function.update sys.starts i (some .begun) } else sys, ())
  | .next i n =>
    match (sys.starts i).bind (fun phase => advance path parent sys.file phase n) with
    | some (phase, file) => (⟨file, Function.update sys.starts i (some phase)⟩, ())
    | none => (sys, ())

/-- One step of a start, once and for all: the file stays as it is, is created, or
goes on being written by the start that created it. -/
inductive Does (file : Option Stored) : Phase → Phase → Option Stored → Prop where
  | waits (phase phase' : Phase) (h : ∀ key written, phase' ≠ .writing key written)
      (hok : ∀ key, phase' = .ended (.ok key) → ∃ f, file = some f ∧ f.bytes = key.toList) :
      Does file phase phase' file
  | creates (key : SecretKey) (h : file = none) :
      Does file (.placed key) (.writing key 0) (some ⟨[], 0o600⟩)
  | writes (key : SecretKey) (written count : ℕ) (h : written + count < 32) :
      Does file (.writing key written) (.writing key (written+count))
        (file.map (fun f => { f with bytes := key.toList.take (written+count) }))
  | finishes (key : SecretKey) (written : ℕ) :
      Does file (.writing key written) (.ended (.ok key))
        (file.map (fun f => { f with bytes := key.toList }))

theorem ofBytes_ok (bytes : List UInt8) (key : SecretKey) (h : ofBytes path bytes = .ok key) :
    bytes = key.toList := by
  unfold ofBytes at h
  split_ifs at h
  cases h
  simp [Vector.toList]

theorem advance_does (file file' : Option Stored) (phase phase' : Phase) (n : Next)
    (h : advance path parent file phase n = some (phase', file')) :
    Does file phase phase' file' := by
  match phase, n with
  | .begun, .look fresh =>
    cases h
    cases hfile : file.isSome <;> exact .waits _ _ (by simp) (by simp)
  | .found, .read readable =>
    cases h
    refine .waits _ _ (by simp) fun key hkey => ?_
    cases file with
    | none => simp at hkey
    | some f =>
      cases readable with
      | false => simp at hkey
      | true => exact ⟨f, rfl, ofBytes_ok path f.bytes key (by simpa using hkey)⟩
  | .generated key, .createDir done =>
    cases h
    cases done <;> exact .waits _ _ (by simp) (by simp)
  | .placed key, .createNew allowed =>
    simp only [advance] at h
    split_ifs at h with hnew
    · cases h
      simp only [Bool.and_eq_true, Option.isNone_iff_eq_none] at hnew
      exact .creates key hnew.2
    · cases h
      exact .waits _ _ (by simp) (by simp)
  | .writing key written, .write count =>
    simp only [advance] at h
    split_ifs at h with hall
    · cases h
      exact .finishes key written
    · cases h
      exact .writes key written count (by omega)
  | .writing key written, .writeFails =>
    cases h
    exact .waits _ _ (by simp) (by simp)

variable (before : Option Stored)

/-- At most one start writes, what it has written is in the file, and a start that
ended with a key has it in the file. -/
structure Inv (sys : System) : Prop where
  writer : ∀ i key written, sys.starts i = some (.writing key written) →
    before = none ∧ written < 32 ∧ sys.file = some ⟨key.toList.take written, 0o600⟩ ∧
      ∀ j key' written', sys.starts j = some (.writing key' written') → j = i
  ended : ∀ i key, sys.starts i = some (.ended (.ok key)) →
    ∃ f, sys.file = some f ∧ f.bytes = key.toList
  kept : before ≠ none → sys.file = before
  mode : before = none → ∀ f, sys.file = some f → f.mode = 0o600

theorem update_cases (starts : ℕ → Option Phase) (i j : ℕ) (phase phase' : Phase)
    (h : Function.update starts i (some phase) j = some phase') :
    j = i ∧ phase' = phase ∨ j ≠ i ∧ starts j = some phase' := by
  by_cases hj : j = i
  · subst hj
    exact Or.inl ⟨rfl, by simpa using h.symm⟩
  · exact Or.inr ⟨hj, by simpa [Function.update_of_ne hj] using h⟩

theorem length_take_lt (key : SecretKey) (written : ℕ) (h : written < 32) (key' : SecretKey) :
    key.toList.take written ≠ key'.toList := by
  intro heq
  have hlength := congrArg List.length heq
  simp only [List.length_take, Vector.length_toList] at hlength
  omega

variable {before} in
theorem Inv.none_writes {sys : System} (h : Inv before sys) (hnone : sys.file = none) (j : ℕ)
    (key : SecretKey) (written : ℕ) : sys.starts j ≠ some (.writing key written) := by
  intro hj
  obtain ⟨-, -, hfile, -⟩ := h.writer j key written hj
  rw [hnone] at hfile
  cases hfile

variable {before} in
theorem Inv.none_ended {sys : System} (h : Inv before sys) (i : ℕ) (key : SecretKey) (written : ℕ)
    (hi : sys.starts i = some (.writing key written)) (j : ℕ) (key' : SecretKey) :
    sys.starts j ≠ some (.ended (.ok key')) := by
  intro hj
  obtain ⟨-, hlt, hfile, -⟩ := h.writer i key written hi
  obtain ⟨f, hf, hbytes⟩ := h.ended j key' hj
  obtain rfl := Option.some.inj (hfile.symm.trans hf)
  exact length_take_lt key written hlt key' hbytes

theorem inv_waits (sys : System) (i : ℕ) (phase : Phase) (hinv : Inv before sys)
    (hidle : ∀ key written, phase ≠ .writing key written)
    (hok : ∀ key, phase = .ended (.ok key) → ∃ f, sys.file = some f ∧ f.bytes = key.toList) :
    Inv before { sys with starts := Function.update sys.starts i (some phase) } := by
  refine ⟨fun j key written hj => ?_, fun j key hj => ?_, hinv.kept, hinv.mode⟩
  · rcases update_cases _ _ _ _ _ hj with ⟨-, heq⟩ | ⟨-, hj⟩
    · exact absurd heq.symm (hidle key written)
    · obtain ⟨hnone, hlt, hfile, hone⟩ := hinv.writer j key written hj
      refine ⟨hnone, hlt, hfile, fun j' key' written' hj' => ?_⟩
      rcases update_cases _ _ _ _ _ hj' with ⟨-, heq⟩ | ⟨-, hj'⟩
      · exact absurd heq.symm (hidle key' written')
      · exact hone j' key' written' hj'
  · rcases update_cases _ _ _ _ _ hj with ⟨-, heq⟩ | ⟨-, hj⟩
    · exact hok key heq.symm
    · exact hinv.ended j key hj

theorem inv_writer (sys : System) (i : ℕ) (key : SecretKey) (written : ℕ) (hbefore : before = none)
    (hlt : written < 32)
    (hothers : ∀ j key' written', sys.starts j = some (.writing key' written') → j = i)
    (hnone : ∀ j key', sys.starts j ≠ some (.ended (.ok key'))) :
    Inv before ⟨some ⟨key.toList.take written, 0o600⟩,
      Function.update sys.starts i (some (.writing key written))⟩ := by
  refine ⟨fun j key' written' hj => ?_, fun j key' hj => ?_, fun hsome => absurd hbefore hsome,
    fun _ f hf => by cases hf; rfl⟩
  · rcases update_cases _ _ _ _ _ hj with ⟨rfl, heq⟩ | ⟨hne, hj⟩
    · cases heq
      refine ⟨hbefore, hlt, rfl, fun j' key'' written'' hj' => ?_⟩
      rcases update_cases _ _ _ _ _ hj' with ⟨rfl, -⟩ | ⟨-, hj'⟩
      · rfl
      · exact hothers j' key'' written'' hj'
    · exact absurd (hothers j key' written' hj) hne
  · rcases update_cases _ _ _ _ _ hj with ⟨-, heq⟩ | ⟨-, hj⟩
    · cases heq
    · exact absurd hj (hnone j key')

theorem inv_does (sys : System) (i : ℕ) (phase phase' : Phase) (file' : Option Stored)
    (hinv : Inv before sys) (hphase : sys.starts i = some phase)
    (h : Does sys.file phase phase' file') :
    Inv before ⟨file', Function.update sys.starts i (some phase')⟩ := by
  cases h with
  | waits _ _ hidle hok => exact inv_waits before sys i phase' hinv hidle hok
  | creates key hnone =>
    have hbefore : before = none := by
      by_contra hsome
      exact hsome ((hinv.kept hsome).symm.trans hnone)
    refine inv_writer before sys i key 0 hbefore (by omega) ?_ fun j key' hj => ?_
    · intro j key' written' hj
      exact absurd hj (hinv.none_writes hnone j key' written')
    · obtain ⟨f, hf, -⟩ := hinv.ended j key' hj
      rw [hnone] at hf
      cases hf
  | writes key written count hlt =>
    obtain ⟨hbefore, -, hfile, hone⟩ := hinv.writer i key written hphase
    rw [hfile]
    exact inv_writer before sys i key (written+count) hbefore hlt hone
      (hinv.none_ended i key written hphase)
  | finishes key written =>
    obtain ⟨hbefore, -, hfile, hone⟩ := hinv.writer i key written hphase
    rw [hfile]
    refine ⟨fun j key' written' hj => ?_, fun j key' hj => ?_, fun hsome => absurd hbefore hsome,
      fun _ f hf => by cases hf; rfl⟩
    · rcases update_cases _ _ _ _ _ hj with ⟨-, heq⟩ | ⟨hne, hj⟩
      · cases heq
      · exact absurd (hone j key' written' hj) hne
    · rcases update_cases _ _ _ _ _ hj with ⟨-, heq⟩ | ⟨-, hj⟩
      · cases heq
        exact ⟨_, rfl, rfl⟩
      · exact absurd hj (hinv.none_ended i key written hphase j key')

theorem inv_step (sys : System) (input : Input) (hinv : Inv before sys) :
    Inv before (step path parent sys input).1 := by
  cases input with
  | start i =>
    simp only [step]
    split_ifs with hnone
    · exact inv_waits before sys i .begun hinv (by simp) (by simp)
    · exact hinv
  | next i n =>
    simp only [step]
    cases hphase : sys.starts i with
    | none => exact hinv
    | some phase =>
      simp only [Option.bind_some]
      cases hadv : advance path parent sys.file phase n with
      | none => exact hinv
      | some out =>
        exact inv_does before sys i phase out.1 out.2 hinv hphase
          (advance_does path parent sys.file out.2 phase out.1 n hadv)

def System.fresh : System := ⟨before, fun _ => none⟩

theorem inv_fresh : Inv before (System.fresh before) := by
  refine ⟨fun i key written h => ?_, fun i key h => ?_, fun _ => rfl, fun hnone f hf => ?_⟩
  · cases h
  · cases h
  · rw [System.fresh, hnone] at hf
    cases hf

/-- The starts that came up have one key, which is in the file; a file that was
there before is as it was, and one that was made is for its owner only. -/
structure OneKey (sys : System) : Prop where
  same : ∀ i j key key', sys.starts i = some (.ended (.ok key)) →
    sys.starts j = some (.ended (.ok key')) → key = key'
  filed : ∀ i key, sys.starts i = some (.ended (.ok key)) →
    ∃ f, sys.file = some f ∧ f.bytes = key.toList
  kept : before ≠ none → sys.file = before
  mode : before = none → ∀ f, sys.file = some f → f.mode = 0o600

/-- In whatever order any number of starts take their steps, and however their
calls go. -/
theorem one_key (inputs : List Input) :
    OneKey before (run (step path parent) (System.fresh before) inputs) := by
  have hinv := run_invariant (step path parent) (Inv before)
    (fun sys input h => inv_step path parent before sys input h) _ (inv_fresh before) inputs
  refine ⟨fun i j key key' hi hj => ?_, hinv.ended, hinv.kept, hinv.mode⟩
  obtain ⟨f, hf, hbytes⟩ := hinv.ended i key hi
  obtain ⟨f', hf', hbytes'⟩ := hinv.ended j key' hj
  obtain rfl := Option.some.inj (hf.symm.trans hf')
  exact Vector.toList_inj.mp (hbytes.symm.trans hbytes')

end

end PaiSho.KeyFile
