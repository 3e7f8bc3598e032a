import Mathlib.Data.List.Basic

/-!
# A file of records

`enroll.rs` and `surface.rs` keep a list of records in a file of their own, in
the same way: read it whole, change the list, write it whole. A file that
`exists()` cannot see is an empty list. Here a file is what its text parses to,
and each request comes with the outcome of its read and of its write.
-/

set_option autoImplicit false

namespace PaiSho.RecordFiles

inductive Content (ρ : Type) where
  | absent
  | records (records : List ρ)
  | garbled
  deriving DecidableEq, Repr

structure RecordFile (ρ : Type) where
  path : String
  parent : String
  content : Content ρ := .absent
  deriving DecidableEq, Repr

/-- How a load goes. `exists()` answers false where the path cannot be looked
at, and such a file is unseen. -/
inductive Read where
  | done
  | refused
  | unseen
  deriving DecidableEq, Repr

/-- How a save goes. A write that fails after the file was truncated leaves
text that no longer parses. -/
inductive Write where
  | done
  | noDirectory
  | refused
  | torn
  deriving DecidableEq, Repr

structure Io where
  read : Read := .done
  write : Write := .done
  deriving DecidableEq, Repr

section
variable {ρ : Type}

def RecordFile.load (f : RecordFile ρ) (read : Read) : Except String (List ρ) :=
  match read, f.content with
  | .unseen, _ => .ok []
  | _, .absent => .ok []
  | .refused, _ => .error ("failed to read " ++ f.path)
  | .done, .records records => .ok records
  | .done, .garbled => .error ("failed to parse " ++ f.path)

def RecordFile.save (f : RecordFile ρ) (records : List ρ) :
    Write → RecordFile ρ × Except String Unit
  | .done => ({ f with content := .records records }, .ok ())
  | .noDirectory => (f, .error ("failed to create " ++ f.parent))
  | .refused => (f, .error ("failed to write " ++ f.path))
  | .torn => ({ f with content := .garbled }, .error ("failed to write " ++ f.path))

def RecordFile.update (f : RecordFile ρ) (change : List ρ → List ρ) (io : Io) :
    RecordFile ρ × Except String Unit :=
  match f.load io.read with
  | .ok records => f.save (change records) io.write
  | .error e => (f, .error e)

def recordsOf : Content ρ → List ρ
  | .records records => records
  | _ => []

@[simp]
theorem recordsOf_records (records : List ρ) : recordsOf (.records records) = records := rfl

@[simp]
theorem recordsOf_absent : recordsOf (.absent : Content ρ) = [] := rfl

@[simp]
theorem recordsOf_garbled : recordsOf (.garbled : Content ρ) = [] := rfl

theorem load_seen (f : RecordFile ρ) (read : Read) (records : List ρ) (hread : read ≠ .unseen)
    (h : f.load read = .ok records) : f.content ≠ .garbled ∧ records = recordsOf f.content := by
  unfold RecordFile.load at h
  split at h
  · exact absurd rfl hread
  · next hc =>
    rw [hc]
    exact ⟨nofun, (Except.ok.inj h).symm⟩
  · cases h
  · next hc =>
    rw [hc]
    exact ⟨nofun, (Except.ok.inj h).symm⟩
  · cases h

theorem load_records (f : RecordFile ρ) (read : Read) (records : List ρ)
    (h : f.load read = .ok records) : ∀ r ∈ records, r ∈ recordsOf f.content := by
  by_cases hread : read = .unseen
  · subst hread
    obtain rfl : [] = records := Except.ok.inj h
    exact nofun
  · obtain ⟨-, rfl⟩ := load_seen f read records hread h
    exact fun _ hr => hr

theorem load_done (f : RecordFile ρ) (hclean : f.content ≠ .garbled) :
    f.load .done = .ok (recordsOf f.content) := by
  unfold RecordFile.load
  cases hc : f.content with
  | absent => rfl
  | records records => rfl
  | garbled => exact absurd hc hclean

theorem load_refused (f : RecordFile ρ) (read : Read) (hread : read ≠ .refused)
    (hnot : ∀ records, f.load read ≠ .ok records) : recordsOf f.content = [] := by
  cases hc : f.content with
  | absent => rfl
  | garbled => rfl
  | records records =>
    cases read with
    | unseen => exact absurd rfl (hnot [])
    | refused => exact absurd rfl hread
    | done => exact absurd (by simp [RecordFile.load, hc]) (hnot records)

inductive Updated (f : RecordFile ρ) (change : List ρ → List ρ) (io : Io) :
    RecordFile ρ × Except String Unit → Prop
  | filed (records : List ρ) (hread : f.load io.read = .ok records) (hwrite : io.write = .done) :
      Updated f change io ({ f with content := .records (change records) }, .ok ())
  | torn (records : List ρ) (hread : f.load io.read = .ok records) (hwrite : io.write = .torn)
      (e : String) : Updated f change io ({ f with content := .garbled }, .error e)
  | kept (hnot : ∀ records, f.load io.read = .ok records → io.write ≠ .done ∧ io.write ≠ .torn)
      (e : String) : Updated f change io (f, .error e)

theorem update_outcome (f : RecordFile ρ) (change : List ρ → List ρ) (io : Io) :
    Updated f change io (f.update change io) := by
  unfold RecordFile.update
  cases hread : f.load io.read with
  | error e => exact .kept (fun records h => absurd (hread.symm.trans h) nofun) e
  | ok records =>
    cases hwrite : io.write with
    | done => exact .filed records hread hwrite
    | noDirectory => exact .kept (fun _ _ => by simp [hwrite]) _
    | refused => exact .kept (fun _ _ => by simp [hwrite]) _
    | torn => exact .torn records hread hwrite _

theorem update_done (f : RecordFile ρ) (change : List ρ → List ρ) (io : Io)
    (hclean : f.content ≠ .garbled) (hr : io.read = .done) (hw : io.write = .done) :
    f.update change io = ({ f with content := .records (change (recordsOf f.content)) }, .ok ()) := by
  simp only [RecordFile.update, hr, hw, load_done f hclean, RecordFile.save]

theorem update_records (f : RecordFile ρ) (change : List ρ → List ρ) (io : Io) (r : ρ)
    (h : r ∈ recordsOf (f.update change io).1.content) :
    r ∈ recordsOf f.content ∨
      ∃ records, (∀ r ∈ records, r ∈ recordsOf f.content) ∧ r ∈ change records := by
  have hout := update_outcome f change io
  generalize f.update change io = out at h hout
  cases hout with
  | filed records hread => exact .inr ⟨records, load_records f io.read records hread, h⟩
  | torn => cases h
  | kept => exact .inl h

end
end PaiSho.RecordFiles
