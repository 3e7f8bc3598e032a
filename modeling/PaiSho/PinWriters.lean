import PaiSho.Restart

/-!
# Calls that write the pins

`Pins::add` and `Pins::remove` read the whole file, change the list and write
it back. Enrollments and invitations call them from tasks of their own, and
only forgets hold a lock over the call. So a call is two steps here, its read
and its write, and the steps of several calls mix in any order.
-/

set_option autoImplicit false

namespace PaiSho.PinWriters
open PaiSho.RecordFiles PaiSho.PinnedPeers PaiSho.Restart Library.Traces

inductive Change where
  | add (key : String) (label : Option String)
  | remove (key : String)
  deriving DecidableEq, Repr

def Change.isRemove : Change → Bool
  | .add _ _ => false
  | .remove _ => true

def Change.key : Change → String
  | .add key _ => key
  | .remove key => key

def Change.records : Change → List Pin
  | .add key label => [⟨key, label⟩]
  | .remove _ => []

def Change.apply (c : Change) (pins : List Pin) : List Pin :=
  pins.filter (fun pin => pin.key ≠ c.key) ++ c.records

theorem add_steps (p : Pins) (key : String) (label : Option String) (io : Io) :
    p.add key label io = p.update (Change.add key label).apply io := rfl

theorem remove_steps (p : Pins) (key : String) (io : Io) :
    p.remove key io = p.update (Change.remove key).apply io := by
  have h : (Change.remove key).apply = fun pins => pins.filter (fun pin => pin.key ≠ key) := by
    funext pins
    exact List.append_nil _
  rw [h, Pins.remove]

inductive Stage where
  | ready
  | loaded (pins : List Pin)
  | done
  | failed
  deriving DecidableEq, Repr

def Stage.isLoaded : Stage → Bool
  | .loaded _ => true
  | _ => false

/-- The file and the calls on it, each with how far it is. -/
structure Desk where
  file : Pins
  calls : List (Change × Stage)

def Desk.start (file : Pins) (changes : List Change) : Desk :=
  ⟨file, changes.map (fun c => (c, .ready))⟩

inductive Event where
  | load (i : ℕ) (read : Read)
  | save (i : ℕ) (write : Write)
  deriving DecidableEq, Repr

/-- A forget's call runs under the bind lock, so it does not start while
another forget's is under way. -/
def Desk.locked (st : Desk) (c : Change) : Bool :=
  c.isRemove && st.calls.any (fun call => call.2.isLoaded && call.1.isRemove)

def step (st : Desk) : Event → Option Desk
  | .load i read =>
    match st.calls[i]? with
    | some (c, .ready) =>
      if st.locked c then none
      else match st.file.load read with
        | .ok pins => some { st with calls := st.calls.set i (c, .loaded pins) }
        | .error _ => some { st with calls := st.calls.set i (c, .failed) }
    | _ => none
  | .save i write =>
    match st.calls[i]? with
    | some (c, .loaded pins) =>
      match st.file.save (c.apply pins) write with
      | (file, .ok ()) => some ⟨file, st.calls.set i (c, .done)⟩
      | (file, .error _) => some ⟨file, st.calls.set i (c, .failed)⟩
    | _ => none

def pinsAt (file : Pins) (key : String) : List Pin :=
  (recordsOf file.content).filter (fun pin => pin.key = key)

/-- After these steps, if every call has succeeded, every change is in the file
and nothing else has changed. -/
def NoneLost (file : Pins) (changes : List Change) (evs : List Event) : Prop :=
  ∀ st, exec step (Desk.start file changes) evs = some st → (∀ call ∈ st.calls, call.2 = .done) →
    (∀ c ∈ changes, pinsAt st.file c.key = c.records) ∧
    ∀ key, key ∉ changes.map Change.key → pinsAt st.file key = pinsAt file key

/-- A call that reads the file sees it, and reads only while no other stands
between its read and its write. -/
def Alone (st : Desk) : Event → Prop
  | .load _ read => read ≠ .unseen ∧ ∀ call ∈ st.calls, call.2.isLoaded = false
  | .save _ _ => True

instance (st : Desk) (ev : Event) : Decidable (Alone st ev) :=
  match ev with
  | .load _ read =>
    inferInstanceAs (Decidable (read ≠ .unseen ∧ ∀ call ∈ st.calls, call.2.isLoaded = false))
  | .save _ _ => inferInstanceAs (Decidable True)

theorem apply_own (c : Change) (pins : List Pin) :
    (c.apply pins).filter (fun pin => pin.key = c.key) = c.records := by
  have hnone : (pins.filter (fun pin => pin.key ≠ c.key)).filter (fun pin => pin.key = c.key) = [] := by
    simp [List.filter_filter]
  rw [Change.apply, List.filter_append, hnone]
  cases c <;> simp [Change.records, Change.key]

theorem apply_other (c : Change) (pins : List Pin) (key : String) (h : key ≠ c.key) :
    (c.apply pins).filter (fun pin => pin.key = key) = pins.filter (fun pin => pin.key = key) := by
  have hkept : (pins.filter (fun pin => pin.key ≠ c.key)).filter (fun pin => pin.key = key) =
      pins.filter (fun pin => pin.key = key) := by
    rw [List.filter_filter]
    apply List.filter_congr
    intro pin _
    by_cases hk : pin.key = key <;> simp [hk, h]
  have hrecords : c.records.filter (fun pin => pin.key = key) = [] := by
    cases c with
    | add k label => simpa [Change.records] using fun hk => h hk.symm
    | remove k => rfl
  rw [Change.apply, List.filter_append, hkept, hrecords, List.append_nil]

/-- What holds while no call has failed and reads were made alone: a call that
stands between its steps is the only one and has read what the file has, and the
file shows the changes that are done and no others. -/
structure Sound (file : Pins) (changes : List Change) (st : Desk) : Prop where
  same : st.calls.map Prod.fst = changes
  one : ∀ (i j : ℕ) (c c' : Change) (pins pins' : List Pin),
    st.calls[i]? = some (c, .loaded pins) → st.calls[j]? = some (c', .loaded pins') → i = j
  current : ∀ (i : ℕ) (c : Change) (pins : List Pin),
    st.calls[i]? = some (c, .loaded pins) → pins = recordsOf st.file.content
  done : ∀ (i : ℕ) (c : Change), st.calls[i]? = some (c, .done) → pinsAt st.file c.key = c.records
  kept : ∀ key, (∀ (i : ℕ) (c : Change), st.calls[i]? = some (c, .done) → c.key ≠ key) →
    pinsAt st.file key = pinsAt file key

def Inv (file : Pins) (changes : List Change) (st : Desk) : Prop :=
  (∃ call ∈ st.calls, call.2 = .failed) ∨ Sound file changes st

theorem map_set_fst (calls : List (Change × Stage)) (i : ℕ) (c : Change) (stage stage' : Stage)
    (h : calls[i]? = some (c, stage)) :
    (calls.set i (c, stage')).map Prod.fst = calls.map Prod.fst := by
  apply List.ext_getElem?
  intro j
  by_cases hij : i = j
  · subst hij
    have hlt := (List.getElem?_eq_some_iff.mp h).1
    rw [List.getElem?_map, List.getElem?_map, List.getElem?_set_self hlt, h]
    rfl
  · simp [List.getElem?_set_ne hij]

theorem key_injective (changes : List Change) (hkeys : (changes.map Change.key).Nodup)
    (calls : List (Change × Stage)) (hsame : calls.map Prod.fst = changes) (i j : ℕ)
    (c c' : Change) (stage stage' : Stage) (hi : calls[i]? = some (c, stage))
    (hj : calls[j]? = some (c', stage')) (hkey : c.key = c'.key) : i = j := by
  have hci : (changes.map Change.key)[i]? = some c.key := by
    rw [← hsame]
    simp [hi]
  have hcj : (changes.map Change.key)[j]? = some c.key := by
    rw [← hsame]
    simp [hj, hkey]
  have hlt := (List.getElem?_eq_some_iff.mp hci).1
  exact (List.getElem?_inj hlt hkeys).mp (hci.trans hcj.symm)

theorem failed_set (calls : List (Change × Stage)) (i : ℕ) (c : Change) (stage stage' : Stage)
    (h : calls[i]? = some (c, stage)) (hstage : stage ≠ .failed)
    (hfailed : ∃ call ∈ calls, call.2 = .failed) :
    ∃ call ∈ calls.set i (c, stage'), call.2 = .failed := by
  obtain ⟨call, hcall, hf⟩ := hfailed
  obtain ⟨j, hj⟩ := List.mem_iff_getElem?.mp hcall
  have hne : i ≠ j := by
    rintro rfl
    obtain rfl := Option.some.inj (h.symm.trans hj)
    exact hstage hf
  exact ⟨call, List.mem_iff_getElem?.mpr ⟨j, by rw [List.getElem?_set_ne hne, hj]⟩, hf⟩

theorem failed_now (calls : List (Change × Stage)) (i : ℕ) (c : Change) (stage : Stage)
    (h : calls[i]? = some (c, stage)) :
    ∃ call ∈ calls.set i (c, .failed), call.2 = .failed := by
  have hlt := (List.getElem?_eq_some_iff.mp h).1
  exact ⟨(c, .failed), List.mem_iff_getElem?.mpr ⟨i, by simp [hlt]⟩, rfl⟩

theorem sound_load (file : Pins) (changes : List Change) (st : Desk) (i : ℕ) (c : Change)
    (hs : Sound file changes st) (halone : ∀ call ∈ st.calls, call.2.isLoaded = false)
    (hi : st.calls[i]? = some (c, .ready)) :
    Sound file changes { st with calls := st.calls.set i (c, .loaded (recordsOf st.file.content)) } := by
  have hlt := (List.getElem?_eq_some_iff.mp hi).1
  have hloaded : ∀ (j : ℕ) (c' : Change) (pins : List Pin),
      (st.calls.set i (c, .loaded (recordsOf st.file.content)))[j]? = some (c', .loaded pins) →
      i = j ∧ pins = recordsOf st.file.content := by
    intro j c' pins hj
    by_cases hij : i = j
    · subst hij
      simp only [List.getElem?_set_self hlt, Option.some.injEq, Prod.mk.injEq,
        Stage.loaded.injEq] at hj
      exact ⟨rfl, hj.2.symm⟩
    · rw [List.getElem?_set_ne hij] at hj
      have := halone _ (List.mem_of_getElem? hj)
      simp [Stage.isLoaded] at this
  have hdone : ∀ (j : ℕ) (c' : Change),
      (st.calls.set i (c, .loaded (recordsOf st.file.content)))[j]? = some (c', .done) ↔
        st.calls[j]? = some (c', .done) := by
    intro j c'
    by_cases hij : i = j
    · subst hij
      rw [List.getElem?_set_self hlt, hi]
      simp
    · rw [List.getElem?_set_ne hij]
  refine ⟨(map_set_fst st.calls i c _ _ hi).trans hs.same, ?_, ?_, ?_, ?_⟩
  · intro j k c₁ c₂ p₁ p₂ hj hk
    exact (hloaded j c₁ p₁ hj).1.symm.trans (hloaded k c₂ p₂ hk).1
  · intro j c' pins hj
    exact (hloaded j c' pins hj).2
  · intro j c' hj
    exact hs.done j c' ((hdone j c').mp hj)
  · intro key hkey
    exact hs.kept key (fun j c' hj => hkey j c' ((hdone j c').mpr hj))

theorem sound_save (file : Pins) (changes : List Change) (hkeys : (changes.map Change.key).Nodup)
    (st : Desk) (i : ℕ) (c : Change) (pins : List Pin) (hs : Sound file changes st)
    (hi : st.calls[i]? = some (c, .loaded pins)) :
    Sound file changes
      ⟨{ st.file with content := .records (c.apply pins) }, st.calls.set i (c, .done)⟩ := by
  have hlt := (List.getElem?_eq_some_iff.mp hi).1
  have hread : pins = recordsOf st.file.content := hs.current i c pins hi
  have hown : pinsAt { st.file with content := .records (c.apply pins) } c.key = c.records :=
    apply_own c pins
  have hother : ∀ key, key ≠ c.key →
      pinsAt { st.file with content := .records (c.apply pins) } key = pinsAt st.file key := by
    intro key hkey
    unfold pinsAt
    rw [recordsOf_records, apply_other c pins key hkey, hread]
  have hnone : ∀ (j : ℕ) (c' : Change) (p : List Pin),
      (st.calls.set i (c, .done))[j]? ≠ some (c', .loaded p) := by
    intro j c' p hj
    by_cases hij : i = j
    · subst hij
      simp [hlt] at hj
    · rw [List.getElem?_set_ne hij] at hj
      exact hij (hs.one i j c c' pins p hi hj)
  refine ⟨(map_set_fst st.calls i c _ _ hi).trans hs.same, ?_, ?_, ?_, ?_⟩
  · intro j k c₁ c₂ p₁ p₂ hj
    exact absurd hj (hnone j c₁ p₁)
  · intro j c' p hj
    exact absurd hj (hnone j c' p)
  · intro j c' hj
    by_cases hij : i = j
    · subst hij
      obtain rfl : c = c' := by simpa [hlt] using hj
      exact hown
    · rw [List.getElem?_set_ne hij] at hj
      have hkey : c'.key ≠ c.key := fun heq =>
        hij (key_injective changes hkeys st.calls hs.same i j c c' _ _ hi hj heq.symm)
      rw [hother c'.key hkey]
      exact hs.done j c' hj
  · intro key hkey
    have hne : key ≠ c.key := fun heq => hkey i c (by simp [hlt]) heq.symm
    rw [hother key hne]
    refine hs.kept key (fun j c' hj => hkey j c' ?_)
    have hij : i ≠ j := by
      rintro rfl
      rw [hi] at hj
      cases hj
    rw [List.getElem?_set_ne hij, hj]

theorem inv_step (file : Pins) (changes : List Change) (hkeys : (changes.map Change.key).Nodup)
    (st st' : Desk) (ev : Event) (halone : Alone st ev) (hinv : Inv file changes st)
    (h : step st ev = some st') : Inv file changes st' := by
  cases ev with
  | load i read =>
    simp only [step] at h
    split at h
    · rename_i c hi
      split_ifs at h
      split at h
      · rename_i pins hload
        obtain rfl := Option.some.inj h
        rcases hinv with hfailed | hs
        · exact Or.inl (failed_set st.calls i c _ _ hi (by simp) hfailed)
        · obtain ⟨-, rfl⟩ := load_seen st.file read pins halone.1 hload
          exact Or.inr (sound_load file changes st i c hs halone.2 hi)
      · obtain rfl := Option.some.inj h
        exact Or.inl (failed_now st.calls i c _ hi)
    · cases h
  | save i write =>
    simp only [step] at h
    split at h
    · rename_i c pins hi
      cases write with
      | done =>
        simp only [RecordFile.save] at h
        obtain rfl := Option.some.inj h
        rcases hinv with hfailed | hs
        · exact Or.inl (failed_set st.calls i c _ _ hi (by simp) hfailed)
        · exact Or.inr (sound_save file changes hkeys st i c pins hs hi)
      | noDirectory =>
        simp only [RecordFile.save] at h
        obtain rfl := Option.some.inj h
        exact Or.inl (failed_now st.calls i c _ hi)
      | refused =>
        simp only [RecordFile.save] at h
        obtain rfl := Option.some.inj h
        exact Or.inl (failed_now st.calls i c _ hi)
      | torn =>
        simp only [RecordFile.save] at h
        obtain rfl := Option.some.inj h
        exact Or.inl (failed_now st.calls i c _ hi)
    · cases h

theorem sound_start (file : Pins) (changes : List Change) :
    Sound file changes (Desk.start file changes) := by
  have hready : ∀ (i : ℕ) (c : Change) (stage : Stage),
      (Desk.start file changes).calls[i]? = some (c, stage) → stage = .ready := by
    intro i c stage hi
    simp only [Desk.start, List.getElem?_map, Option.map_eq_some_iff, Prod.mk.injEq] at hi
    obtain ⟨c', -, -, rfl⟩ := hi
    rfl
  refine ⟨?_, ?_, ?_, ?_, fun _ _ => rfl⟩
  · simp [Desk.start, Function.comp_def]
  · intro i j c c' pins pins' hi
    exact absurd (hready i c _ hi) (by simp)
  · intro i c pins hi
    exact absurd (hready i c _ hi) (by simp)
  · intro i c hi
    exact absurd (hready i c _ hi) (by simp)

/-- Calls on different keys that never read between another's read and write
lose nothing. -/
theorem no_pin_lost (file : Pins) (changes : List Change) (evs : List Event)
    (hkeys : (changes.map Change.key).Nodup)
    (halone : Along step Alone (Desk.start file changes) evs) : NoneLost file changes evs := by
  intro st h hall
  have hinv := along_invariant step Alone (Inv file changes)
    (fun s ev t hok hs ht => inv_step file changes hkeys s t ev hok hs ht)
    (Desk.start file changes) (Or.inr (sound_start file changes)) evs halone st h
  rcases hinv with ⟨call, hcall, hfailed⟩ | hs
  · rw [hall call hcall] at hfailed
    cases hfailed
  · have hdone : ∀ (i : ℕ) (c : Change) (stage : Stage), st.calls[i]? = some (c, stage) →
        stage = .done := fun i c stage hi => hall _ (List.mem_of_getElem? hi)
    refine ⟨fun c hc => ?_, fun key hkey => hs.kept key (fun i c hi heq => hkey ?_)⟩
    · rw [← hs.same] at hc
      obtain ⟨⟨c', stage⟩, hmem, rfl⟩ := List.mem_map.mp hc
      obtain ⟨i, hi⟩ := List.mem_iff_getElem?.mp hmem
      obtain rfl := hdone i c' stage hi
      exact hs.done i c' hi
    · rw [← hs.same, ← heq]
      exact List.mem_map_of_mem (List.mem_map.mpr ⟨(c, .done), List.mem_of_getElem? hi, rfl⟩)

def inTurn : List Event := [.load 0 .done, .save 0 .done, .load 1 .done, .save 1 .done]

def together : List Event := [.load 0 .done, .load 1 .done, .save 0 .done, .save 1 .done]

def noPins : Pins := ⟨"key.peers.json", ".", .absent⟩

def enrollments : List Change := [.add deskKey (some "rustdev"), .add boxKey (some "webdev")]

theorem in_turn_kept : (∃ st, exec step (Desk.start noPins enrollments) inTurn = some st ∧
    ∀ call ∈ st.calls, call.2 = .done) ∧ NoneLost noPins enrollments inTurn := by
  refine ⟨⟨_, rfl, by decide⟩, ?_⟩
  refine no_pin_lost noPins enrollments inTurn (by decide) ⟨by decide, ?_⟩
  rintro _ ⟨⟩
  refine ⟨trivial, ?_⟩
  rintro _ ⟨⟩
  refine ⟨by decide, ?_⟩
  rintro _ ⟨⟩
  refine ⟨trivial, ?_⟩
  rintro _ ⟨⟩
  trivial

theorem together_lost : ¬ NoneLost noPins enrollments together := by
  intro h
  have hfirst := (h _ rfl (by decide)).1 (.add deskKey (some "rustdev")) (by decide)
  revert hfirst
  decide

end PaiSho.PinWriters
