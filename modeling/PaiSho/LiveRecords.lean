import PaiSho.RecordSteps

/-!
# One live record for a key

A record enters the table when the key is accepted or when an enrollment ends,
and `evict` takes it out and marks it removed. An enrollment does not look at the
table before it enters its record, and an accept looks at it before it tells the
session and enters its record after. So two of them at once, or a claim made while
the key has a record, displace one that is not removed; and an announcement
handler that gets the bind lock after the eviction gives the removed record a
surface again. Where none of this happens there is one live record at most, and
what is projected or bound is that record's.
-/

set_option autoImplicit false

namespace PaiSho.LiveRecords
open Library.Traces
open GrantTable (Port)
open PeerTasks RecordInvariant RecordSteps

section
variable {K : Type} [LinearOrder K] (ours theirs : K) (shown : K → String)

/-- After this run the key has one live record at most: whatever the next step
is, a record leaves the table only by a forget; two records that are not removed
are one, and so are two loops of such records; and what is projected or bound
belongs to the record in the table or to one a forget is taking down. -/
structure OneRecord (evs : List Event) : Prop where
  leaves : ∀ sys, Reached ours theirs shown evs sys → ∀ ev sys' effects r,
    step ours theirs shown sys ev = some (sys', effects) → sys.node.peers = some r →
    sys'.node.peers = some r ∨
      ∃ i choice, ev = .run i choice ∧ sys.tasks[i]? = some (.forget .queued)
  record : ∀ sys, Reached ours theirs shown evs sys → ∀ r r', r < sys.node.fresh →
    r' < sys.node.fresh → (sys.node.records r).removed = false →
    (sys.node.records r').removed = false → r = r'
  loop : ∀ sys, Reached ours theirs shown evs sys → ∀ (i j r r' : ℕ) (pc pc' : LoopPc),
    sys.tasks[i]? = some (.loop r pc) → sys.tasks[j]? = some (.loop r' pc') →
    (sys.node.records r).removed = false → (sys.node.records r').removed = false → i = j
  owned : ∀ sys, Reached ours theirs shown evs sys → ∀ r, r < sys.node.fresh →
    (sys.node.records r).surface ≠ none ∨ (sys.node.records r).bindings ≠ [] →
    sys.node.peers = some r ∨ ∃ task ∈ sys.tasks, task = .forget (.marking r) ∨ evicts r task

theorem one_live_record (evs : List Event)
    (hcare : Along (next ours theirs shown) Careful {} evs) : OneRecord ours theirs shown evs := by
  have hall : ∀ sys, Reached ours theirs shown evs sys → Inv sys := by
    intro sys h
    refine along_invariant (next ours theirs shown) Careful Inv ?_ {} inv_initial evs hcare sys h
    intro s ev t hok hs ht
    obtain ⟨⟨t', effects⟩, hst, rfl⟩ := Option.map_eq_some_iff.mp ht
    exact inv_step ours theirs shown s t' ev effects hok hs hst
  constructor
  case leaves =>
    intro sys h ev sys' effects r hstep hin
    exact leaves_forgotten ours theirs shown sys sys' ev effects r (hall sys h) hstep hin
  case record =>
    intro sys h r r' hr hr' hlive hlive'
    exact one_live sys (hall sys h) r r' hr hr' hlive hlive'
  case loop =>
    intro sys h i j r r' pc pc' hi hj hlive hlive'
    have hinv := hall sys h
    obtain rfl := one_live sys hinv r r' (hinv.loops.made i r pc hi) (hinv.loops.made j r' pc' hj)
      hlive hlive'
    exact hinv.loops.one i j r pc pc' hi hj
  case owned =>
    intro sys h r hr hhas
    have hinv := hall sys h
    cases hremoved : (sys.node.records r).removed with
    | false =>
      rcases hinv.table.live r hr hremoved with hin | ⟨i, hi⟩
      · exact Or.inl hin
      · exact Or.inr ⟨_, List.mem_of_getElem? hi, Or.inl rfl⟩
    | true =>
      rcases hinv.down.clean r hr hremoved with ⟨hsurface, hbindings⟩ | ⟨i, task, hi, htask⟩
      · rcases hhas with h | h
        · exact absurd hsurface h
        · exact absurd hbindings h
      · exact Or.inr ⟨task, List.mem_of_getElem? hi, Or.inr htask⟩

end

def enrolledAgain : List Event :=
  [.claim (some "rustdev") none, .run 0 .go, .forget, .run 2 .go, .run 2 .go, .run 2 .go, .run 2 .go,
    .add none true, .run 3 .go, .run 3 .go]

theorem enrolled_again_one :
    (∃ sys, Reached (1 : ℕ) 2 (fun _ => "") enrolledAgain sys ∧ sys.node.peers = some 1) ∧
    OneRecord (1 : ℕ) 2 (fun _ => "") enrolledAgain := by
  refine ⟨⟨_, rfl, rfl⟩, ?_⟩
  apply one_live_record
  refine ⟨⟨rfl, by rintro _ ⟨⟩⟩, ?_⟩
  rintro _ ⟨⟩
  refine ⟨by rintro _ _ ⟨⟩, ?_⟩
  rintro _ ⟨⟩
  refine ⟨trivial, ?_⟩
  rintro _ ⟨⟩
  refine ⟨by rintro _ _ ⟨⟩, ?_⟩
  rintro _ ⟨⟩
  refine ⟨by rintro _ _ ⟨⟩, ?_⟩
  rintro _ ⟨⟩
  refine ⟨by rintro _ _ ⟨⟩, ?_⟩
  rintro _ ⟨⟩
  refine ⟨by rintro _ _ ⟨⟩, ?_⟩
  rintro _ ⟨⟩
  refine ⟨?_, ?_⟩
  · intro task ht
    rcases List.mem_cons.mp ht with rfl | ht
    · exact ⟨rfl, rfl⟩
    rcases List.mem_cons.mp ht with rfl | ht
    · exact ⟨rfl, rfl⟩
    obtain rfl := List.mem_singleton.mp ht
    exact ⟨rfl, rfl⟩
  rintro _ ⟨⟩
  refine ⟨by rintro _ _ ⟨⟩, ?_⟩
  rintro _ ⟨⟩
  refine ⟨by rintro _ _ ⟨⟩, ?_⟩
  rintro _ ⟨⟩
  trivial

def acceptedMeanwhile : List Event :=
  [.add none true, .run 0 .go, .run 0 .go, .claim (some "rustdev") none]

def acceptedTwice : List Event :=
  [.add none true, .add none true, .run 0 .go, .run 1 .go, .run 0 .go]

/-- In both runs the next step enters a second record over a live one. -/
theorem accepted_meanwhile_displaced :
    ¬ OneRecord (1 : ℕ) 2 (fun _ => "") acceptedMeanwhile ∧
    ¬ OneRecord (1 : ℕ) 2 (fun _ => "") acceptedTwice := by
  constructor
  · intro h
    rcases h.leaves _ rfl (.run 2 .go) _ _ 0 rfl rfl with hin | ⟨i, choice, hev, hforget⟩
    · cases hin
    · cases hev
      cases hforget
  · intro h
    rcases h.leaves _ rfl (.run 1 .go) _ _ 0 rfl rfl with hin | ⟨i, choice, hev, hforget⟩
    · cases hin
    · cases hev
      cases hforget

end PaiSho.LiveRecords
