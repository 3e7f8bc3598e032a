import PaiSho.Library.Traces
import Mathlib.Data.Nat.Basic
import Mathlib.Tactic.IntervalCases
import Mathlib.Logic.Function.Basic

/-!
# Both ends dial

`core/dial.rs` decides which of two connections to the same peer to keep. The
shell asks it in two places, when a connection arrives and when its own dial
returns, each time with the peer's connection slot locked. Two daemons that
know each other, each running those two handlers over its own slot, make one
machine: connections are numbered as they open, each end handles each of them
once and in any order, and learns of a close some time after it was made.
-/

set_option autoImplicit false

namespace PaiSho.DialLink
open Library.Traces

inductive Keep where
  | held
  | arriving
  deriving DecidableEq, Repr

def resolve {K : Type} [LinearOrder K] (ours theirs : K)
    (heldLive heldDialedByUs arrivingDialedByUs : Bool) : Keep :=
  if heldLive = false then .arriving
  else if heldDialedByUs = arrivingDialedByUs then .arriving
  else
    let weAreLower : Bool := ours < theirs
    let lowerKeyOpenedHeld := weAreLower == heldDialedByUs
    if lowerKeyOpenedHeld then .held else .arriving

structure Slot where
  connection : Option ℕ := none
  connDialedByUs : Bool := false
  deriving DecidableEq, Repr

/-- The section both handlers run under the slot's write lock: the slot they
leave and the connections they close. -/
def settle {K : Type} [LinearOrder K] (ours theirs : K) (live : ℕ → Bool) (slot : Slot)
    (conn : ℕ) (dialedByUs : Bool) : Slot × List ℕ :=
  let heldIsLive := slot.connection.any live
  if resolve ours theirs heldIsLive slot.connDialedByUs dialedByUs = .held then (slot, [conn])
  else (⟨some conn, dialedByUs⟩, slot.connection.toList)

def dialResult {K : Type} [LinearOrder K] (ours theirs : K) (live : ℕ → Bool) (slot : Slot)
    (conn : ℕ) : Slot × List ℕ :=
  settle ours theirs live slot conn true

def handleConnection {K : Type} [LinearOrder K] (ours theirs : K) (live : ℕ → Bool) (slot : Slot)
    (conn : ℕ) : Slot × List ℕ :=
  settle ours theirs live slot conn false

inductive Side where
  | left
  | right
  deriving DecidableEq, Repr

def Side.other : Side → Side
  | .left => .right
  | .right => .left

/-- `opened` has the dialer of every connection, by number. `handled` is in the
order of handling. `shut` is a close this end made, `told` one it has learned
of, `lost` a loss nobody asked for. -/
structure Link where
  opened : List Side
  slot : Side → Slot
  handled : Side → List ℕ
  shut : Side → ℕ → Bool
  told : Side → ℕ → Bool
  lost : ℕ → Bool

def Link.initial : Link :=
  ⟨[], fun _ => {}, fun _ => [], fun _ _ => false, fun _ _ => false, fun _ => false⟩

/-- Somebody has closed the connection, or it was lost. -/
def Link.closed (st : Link) (conn : ℕ) : Bool :=
  st.shut .left conn || st.shut .right conn || st.lost conn

/-- What `close_reason().is_none()` answers at one end. -/
def Link.live (st : Link) (side : Side) (conn : ℕ) : Bool :=
  !(st.shut side conn || st.told side conn)

def Link.openedBy (st : Link) (side : Side) (conn : ℕ) : Bool := st.opened[conn]? = some side

inductive Event where
  | dial (side : Side)
  | handle (side : Side) (conn : ℕ)
  | timeout (conn : ℕ)
  | notice (side : Side) (conn : ℕ)
  | lose (conn : ℕ)
  deriving DecidableEq, Repr

section
variable {K : Type} [LinearOrder K] (key : Side → K)

/-- What one end does with a connection it has not handled yet: its own dial
returning, or the other end's arriving. -/
def handler (st : Link) (side : Side) (conn : ℕ) : Slot × List ℕ :=
  if st.openedBy side conn then
    dialResult (key side) (key side.other) (st.live side) (st.slot side) conn
  else handleConnection (key side) (key side.other) (st.live side) (st.slot side) conn

def step (st : Link) : Event → Option Link
  | .dial side => some { st with opened := st.opened++[side] }
  | .handle side conn =>
    if conn < st.opened.length ∧ conn ∉ st.handled side then
      some { st with
        slot := Function.update st.slot side (handler key st side conn).1
        handled := Function.update st.handled side (st.handled side ++ [conn])
        shut := fun e c => st.shut e c || (e = side && (handler key st side conn).2.contains c) }
    else none
  | .timeout conn =>
    match st.opened[conn]? with
    | some opener =>
      -- a dial that fails or runs past its limit is dropped by the dialer
      if conn ∈ st.handled opener then none
      else some { st with
        handled := Function.update st.handled opener (st.handled opener ++ [conn])
        shut := fun e c => st.shut e c || (e = opener && c = conn) }
    | none => none
  | .notice side conn =>
    if st.closed conn then
      some { st with told := fun e c => st.told e c || (e = side && c = conn) }
    else none
  | .lose conn =>
    if conn < st.opened.length then some { st with lost := fun c => st.lost c || c = conn }
    else none

def Reached (evs : List Event) (st : Link) : Prop := exec (step key) Link.initial evs = some st

def AllHandled (st : Link) : Prop :=
  ∀ conn, conn < st.opened.length → ∀ side, conn ∈ st.handled side

theorem handler_eq (st : Link) (side : Side) (conn : ℕ) :
    handler key st side conn = settle (key side) (key side.other) (st.live side) (st.slot side)
      conn (st.openedBy side conn) := by
  unfold handler dialResult handleConnection
  cases st.openedBy side conn <;> rfl

/-- The handler closes what it does not keep: it refuses the new connection and
closes it, or installs it and closes what it held. -/
theorem handler_cases (st : Link) (side : Side) (conn : ℕ) :
    handler key st side conn = (st.slot side, [conn]) ∨
      handler key st side conn =
        (⟨some conn, st.openedBy side conn⟩, (st.slot side).connection.toList) := by
  rw [handler_eq]
  unfold settle
  dsimp only
  split_ifs
  · exact Or.inl rfl
  · exact Or.inr rfl

/-- What is known of every state of a run: a held connection was handled and
its opener is recorded; a handled one is held or closed; an end is told only of
what is closed and closes only what it handled. -/
structure Sound (st : Link) : Prop where
  opened : ∀ side conn, conn ∈ st.handled side → conn < st.opened.length
  held : ∀ side conn, (st.slot side).connection = some conn → conn ∈ st.handled side
  flag : ∀ side conn, (st.slot side).connection = some conn →
    (st.slot side).connDialedByUs = st.openedBy side conn
  kept : ∀ side conn, conn ∈ st.handled side →
    (st.slot side).connection = some conn ∨ st.closed conn = true
  told : ∀ side conn, st.told side conn = true → st.closed conn = true
  shut : ∀ side conn, st.shut side conn = true → conn ∈ st.handled side

theorem sound_initial : Sound Link.initial := by
  constructor <;> simp [Link.initial]

theorem closed_of_shut (st : Link) (side : Side) (conn : ℕ) (h : st.shut side conn = true) :
    st.closed conn = true := by
  cases side <;> simp [Link.closed, h]

theorem closed_of_not_live (st : Link) (hs : Sound st) (side : Side) (conn : ℕ)
    (h : st.live side conn = false) : st.closed conn = true := by
  simp only [Link.live, Bool.not_eq_false', Bool.or_eq_true] at h
  rcases h with h | h
  · exact closed_of_shut st side conn h
  · exact hs.told side conn h

theorem openedBy_append (st : Link) (side side' : Side) (conn : ℕ) (h : conn < st.opened.length) :
    Link.openedBy { st with opened := st.opened++[side'] } side conn = st.openedBy side conn := by
  simp [Link.openedBy, List.getElem?_append_left h]

/-- The state an end leaves that has settled a connection: what its slot is then
and what it closed. -/
def settledState (st : Link) (side : Side) (conn : ℕ) (result : Slot × List ℕ) : Link :=
  { st with
    slot := Function.update st.slot side result.1
    handled := Function.update st.handled side (st.handled side ++ [conn])
    shut := fun e c => st.shut e c || (e = side && result.2.contains c) }

def handledState (st : Link) (side : Side) (conn : ℕ) : Link :=
  settledState st side conn (handler key st side conn)

theorem step_handle (st st' : Link) (side : Side) (conn : ℕ) :
    step key st (.handle side conn) = some st' ↔
      conn < st.opened.length ∧ conn ∉ st.handled side ∧ st' = handledState key st side conn := by
  simp only [step, handledState, settledState]
  split_ifs with h
  · simp [h.1, h.2, eq_comm]
  · simp only [false_iff]
    exact fun hh => h ⟨hh.1, hh.2.1⟩

theorem step_timeout (st st' : Link) (conn : ℕ) (h : step key st (.timeout conn) = some st') :
    ∃ opener, st.opened[conn]? = some opener ∧ conn ∉ st.handled opener ∧
      st' = settledState st opener conn (st.slot opener, [conn]) := by
  simp only [step] at h
  cases hopen : st.opened[conn]? with
  | none => simp [hopen] at h
  | some opener =>
    simp only [hopen] at h
    split_ifs at h with hfresh
    refine ⟨opener, rfl, hfresh, ?_⟩
    rw [← Option.some.inj h, settledState, Function.update_eq_self]
    simp

theorem settledState_closed (st : Link) (side : Side) (conn c : ℕ) (result : Slot × List ℕ) :
    (settledState st side conn result).closed c = true ↔ st.closed c = true ∨ c ∈ result.2 := by
  cases side <;> simp [Link.closed, settledState] <;> tauto

theorem sound_settled (st : Link) (hs : Sound st) (side : Side) (conn : ℕ)
    (result : Slot × List ℕ) (hlt : conn < st.opened.length)
    (hresult : result = (st.slot side, [conn]) ∨
      result = (⟨some conn, st.openedBy side conn⟩, (st.slot side).connection.toList)) :
    Sound (settledState st side conn result) := by
  have hclosed := fun c => settledState_closed st side conn c result
  constructor
  · intro e c hc
    by_cases he : e = side
    · subst he
      simp only [settledState, Function.update_self, List.mem_append, List.mem_singleton] at hc
      rcases hc with hc | rfl
      · exact hs.opened e c hc
      · exact hlt
    · simp only [settledState, Function.update_of_ne he] at hc
      exact hs.opened e c hc
  · intro e c hc
    by_cases he : e = side
    · subst he
      simp only [settledState, Function.update_self, List.mem_append, List.mem_singleton] at hc ⊢
      rcases hresult with h | h
      · rw [h] at hc
        exact Or.inl (hs.held e c hc)
      · rw [h] at hc
        exact Or.inr (Option.some.inj hc).symm
    · simp only [settledState, Function.update_of_ne he] at hc ⊢
      exact hs.held e c hc
  · intro e c hc
    by_cases he : e = side
    · subst he
      simp only [settledState, Function.update_self] at hc ⊢
      rcases hresult with h | h
      · rw [h] at hc ⊢
        exact hs.flag e c hc
      · rw [h] at hc ⊢
        obtain rfl := Option.some.inj hc
        rfl
    · simp only [settledState, Function.update_of_ne he] at hc ⊢
      exact hs.flag e c hc
  · intro e c hc
    rw [hclosed]
    by_cases he : e = side
    · subst he
      simp only [settledState, Function.update_self, List.mem_append, List.mem_singleton] at hc ⊢
      rcases hresult with h | h
      · rw [h]
        rcases hc with hc | rfl
        · exact (hs.kept e c hc).imp id Or.inl
        · exact Or.inr (Or.inr (by simp))
      · rw [h]
        rcases hc with hc | rfl
        · rcases hs.kept e c hc with hk | hk
          · exact Or.inr (Or.inr (by simp [hk]))
          · exact Or.inr (Or.inl hk)
        · exact Or.inl rfl
    · simp only [settledState, Function.update_of_ne he] at hc ⊢
      exact (hs.kept e c hc).imp id Or.inl
  · intro e c hc
    rw [hclosed]
    exact Or.inl (hs.told e c hc)
  · intro e c hc
    simp only [settledState, Bool.or_eq_true, Bool.and_eq_true, decide_eq_true_eq,
      List.contains_iff_mem] at hc ⊢
    by_cases he : e = side
    · subst he
      simp only [Function.update_self, List.mem_append, List.mem_singleton, true_and] at hc ⊢
      rcases hc with hc | hc
      · exact Or.inl (hs.shut e c hc)
      · rcases hresult with h | h
        · rw [h] at hc
          exact Or.inr (List.mem_singleton.mp hc)
        · rw [h] at hc
          exact Or.inl (hs.held e c (Option.mem_toList.mp hc))
    · simp only [he, false_and, or_false] at hc
      simpa only [Function.update_of_ne he] using hs.shut e c hc

theorem sound_step (st st' : Link) (ev : Event) (hs : Sound st)
    (h : step key st ev = some st') : Sound st' := by
  cases ev with
  | dial side =>
    obtain rfl := Option.some.inj h
    constructor
    · intro e c hc
      have := hs.opened e c hc
      simp only [List.length_append, List.length_singleton]
      omega
    · exact hs.held
    · intro e c hc
      rw [openedBy_append st e side c (hs.opened e c (hs.held e c hc))]
      exact hs.flag e c hc
    · exact hs.kept
    · exact hs.told
    · exact hs.shut
  | handle side conn =>
    obtain ⟨hlt, -, rfl⟩ := (step_handle key st st' side conn).mp h
    exact sound_settled st hs side conn _ hlt (handler_cases key st side conn)
  | timeout conn =>
    obtain ⟨opener, hopen, -, rfl⟩ := step_timeout key st st' conn h
    have hlt : conn < st.opened.length := (List.getElem?_eq_some_iff.mp hopen).1
    exact sound_settled st hs opener conn _ hlt (Or.inl rfl)
  | notice side conn =>
    simp only [step] at h
    split_ifs at h with hc
    obtain rfl := Option.some.inj h
    refine ⟨hs.opened, hs.held, hs.flag, hs.kept, ?_, hs.shut⟩
    intro e c ht
    simp only [Bool.or_eq_true, Bool.and_eq_true, decide_eq_true_eq] at ht
    rcases ht with ht | ⟨-, rfl⟩
    · exact hs.told e c ht
    · exact hc
  | lose conn =>
    simp only [step] at h
    split_ifs at h
    obtain rfl := Option.some.inj h
    have hmono : ∀ c, st.closed c = true →
        Link.closed { st with lost := fun c => st.lost c || c = conn } c = true := by
      intro c hc
      simp only [Link.closed, Bool.or_eq_true] at hc ⊢
      tauto
    exact ⟨hs.opened, hs.held, hs.flag, fun e c hc => (hs.kept e c hc).imp id (hmono c),
      fun e c ht => hmono c (hs.told e c ht), hs.shut⟩

theorem reached_sound (evs : List Event) (st : Link) (h : Reached key evs st) : Sound st :=
  exec_invariant (step key) (fun _ => True) Sound (fun s i t _ hs => sound_step key s t i hs)
    Link.initial sound_initial evs (fun _ _ => trivial) st h

/-- Once every connection has been handled at both ends, a connection one end
holds that nobody closed and nothing lost is the one the other end holds. In
every state of the run the flag at each end says who opened what it holds. -/
theorem same_connection (evs : List Event) (st : Link) (h : Reached key evs st) :
    (AllHandled st → ∀ side conn, (st.slot side).connection = some conn →
      st.closed conn = false → (st.slot side.other).connection = some conn) ∧
    ∀ side conn, (st.slot side).connection = some conn →
      ((st.slot side).connDialedByUs = true ↔ st.opened[conn]? = some side) := by
  have hs := reached_sound key evs st h
  constructor
  · intro hall side conn hheld hopen
    have hlt := hs.opened side conn (hs.held side conn hheld)
    rcases hs.kept side.other conn (hall conn hlt side.other) with hk | hk
    · exact hk
    · rw [hopen] at hk
      cases hk
  · intro side conn hheld
    rw [hs.flag side conn hheld, Link.openedBy, decide_eq_true_eq]

end

def crossing : List Event :=
  [.dial .left, .dial .right, .handle .left 0, .handle .right 1, .handle .left 1, .handle .right 0]

def crossingKeys : Side → ℕ
  | .left => 1
  | .right => 2

theorem crossing_reached : ∃ st, Reached crossingKeys crossing st ∧ AllHandled st ∧
    (st.slot .left).connection = some 0 ∧ st.closed 0 = false ∧
    st.opened = [.left, .right] ∧ st.handled .left = [0, 1] ∧ st.handled .right = [1, 0] := by
  refine ⟨_, rfl, ?_, rfl, rfl, rfl, rfl, rfl⟩
  intro conn hlt side
  have hlt : conn < 2 := hlt
  interval_cases conn <;> cases side <;> decide

theorem crossing_same : ∃ st, Reached crossingKeys crossing st ∧
    (st.slot .left).connection = some 0 ∧ (st.slot .right).connection = some 0 := by
  obtain ⟨st, h, hall, hheld, hopen, -⟩ := crossing_reached
  exact ⟨st, h, hheld, (same_connection crossingKeys crossing st h).1 hall .left 0 hheld hopen⟩

section
variable {K : Type} [LinearOrder K] (key : Side → K)

def lowerSide : Side := if key .left < key .right then .left else .right

/-- Among the connections the lower end opened, this end handled `conn` last. -/
def HandledLast (st : Link) (side : Side) (conn : ℕ) : Prop :=
  ∃ earlier later, st.handled side = earlier ++ conn :: later ∧
    ∀ c ∈ later, st.opened[c]? ≠ some (lowerSide key)

/-- A connection of the lower end that neither timed out nor was lost is closed
only after a later one of the lower end was handled where it had been handled. -/
structure Undisturbed (conn : ℕ) (st : Link) : Prop where
  sound : Sound st
  present : st.lost conn = false
  superseded : st.opened[conn]? = some (lowerSide key) → st.closed conn = true →
    ∃ side, conn ∈ st.handled side ∧ ¬ HandledLast key st side conn

theorem openedBy_lower (st : Link) (side : Side) (conn : ℕ)
    (h : st.opened[conn]? = some (lowerSide key)) :
    st.openedBy side conn = decide (lowerSide key = side) := by
  simp [Link.openedBy, h]

theorem closed_handled (st : Link) (hs : Sound st) (conn : ℕ) (hpresent : st.lost conn = false)
    (hclosed : st.closed conn = true) : ∃ side, conn ∈ st.handled side := by
  simp only [Link.closed, hpresent, Bool.or_false, Bool.or_eq_true] at hclosed
  rcases hclosed with h | h
  · exact ⟨.left, hs.shut .left conn h⟩
  · exact ⟨.right, hs.shut .right conn h⟩

omit key in
theorem mem_settled (st : Link) (e side : Side) (c conn : ℕ) (result : Slot × List ℕ)
    (h : c ∈ st.handled e) : c ∈ (settledState st side conn result).handled e := by
  by_cases he : e = side
  · subst he
    simp [settledState, h]
  · simpa [settledState, Function.update_of_ne he] using h

theorem not_handledLast_append (st : Link) (side e : Side) (conn next : ℕ) (st' : Link)
    (hopened : st'.opened = st.opened)
    (hhandled : st'.handled = Function.update st.handled e (st.handled e ++ [next]))
    (hin : conn ∈ st.handled side) (hnew : next ∉ st.handled e)
    (hnot : ¬ HandledLast key st side conn) : ¬ HandledLast key st' side conn := by
  rintro ⟨earlier, later, hsplit, hlater⟩
  rw [hopened] at hlater
  rw [hhandled] at hsplit
  by_cases he : side = e
  · subst he
    rw [Function.update_self] at hsplit
    rcases List.eq_nil_or_concat later with rfl | ⟨later', last, rfl⟩
    · obtain ⟨-, hl⟩ := List.append_inj' hsplit rfl
      obtain rfl := List.singleton_inj.mp hl
      exact hnew hin
    · have h' : st.handled side ++ [next] = (earlier ++ conn :: later') ++ [last] := by
        simpa using hsplit
      obtain ⟨hh, -⟩ := List.append_inj' h' rfl
      exact hnot ⟨earlier, later', hh, fun c hc => hlater c (by simp [hc])⟩
  · rw [Function.update_of_ne he] at hsplit
    exact hnot ⟨earlier, later, hsplit, hlater⟩

theorem not_handledLast_of_next (st : Link) (side : Side) (conn next : ℕ) (earlier : List ℕ)
    (hhandled : st.handled side = earlier ++ [next]) (hdiff : conn ≠ next)
    (hlow : st.opened[next]? = some (lowerSide key)) : ¬ HandledLast key st side conn := by
  rintro ⟨before, later, hsplit, hlater⟩
  rw [hhandled] at hsplit
  rcases List.eq_nil_or_concat later with rfl | ⟨later', last, rfl⟩
  · obtain ⟨-, hl⟩ := List.append_inj' hsplit rfl
    exact hdiff (List.singleton_inj.mp hl).symm
  · have h' : earlier ++ [next] = (before ++ conn :: later') ++ [last] := by
      simpa using hsplit
    obtain ⟨-, hl⟩ := List.append_inj' h' rfl
    obtain rfl := List.singleton_inj.mp hl
    exact hlater next (by simp) hlow

variable (hne : key .left ≠ key .right)
include hne

theorem lower_iff (side : Side) :
    decide (key side < key side.other) = decide (lowerSide key = side) := by
  rw [decide_eq_decide]
  rcases lt_or_gt_of_ne hne with h | h
  · cases side <;> simp [lowerSide, Side.other, h, not_lt_of_gt h]
  · cases side <;> simp [lowerSide, Side.other, h, not_lt_of_gt h]

theorem resolve_lower_arriving (side : Side) (live held : Bool) :
    resolve (key side) (key side.other) live held (decide (lowerSide key = side)) = .arriving := by
  unfold resolve
  rw [lower_iff key hne]
  cases live <;> cases held <;> cases decide (lowerSide key = side) <;> rfl

theorem resolve_lower_held (side : Side) (arriving : Bool)
    (h : arriving ≠ decide (lowerSide key = side)) :
    resolve (key side) (key side.other) true (decide (lowerSide key = side)) arriving = .held := by
  unfold resolve
  rw [lower_iff key hne]
  revert h
  cases arriving <;> cases decide (lowerSide key = side) <;> simp

theorem handler_installs (st : Link) (side : Side) (conn : ℕ)
    (h : st.opened[conn]? = some (lowerSide key)) :
    handler key st side conn =
      (⟨some conn, st.openedBy side conn⟩, (st.slot side).connection.toList) := by
  rw [handler_eq, settle, openedBy_lower key st side conn h,
    resolve_lower_arriving key hne]
  rfl

theorem handler_refuses (st : Link) (hs : Sound st) (side : Side) (conn next : ℕ)
    (hheld : (st.slot side).connection = some conn)
    (hlow : st.opened[conn]? = some (lowerSide key)) (hlive : st.live side conn = true)
    (hlt : next < st.opened.length) (hnext : st.opened[next]? ≠ some (lowerSide key)) :
    handler key st side next = (st.slot side, [next]) := by
  have hflag : (st.slot side).connDialedByUs = decide (lowerSide key = side) := by
    rw [hs.flag side conn hheld, openedBy_lower key st side conn hlow]
  have harr : st.openedBy side next ≠ decide (lowerSide key = side) := by
    obtain ⟨opener, ho⟩ : ∃ opener, st.opened[next]? = some opener :=
      ⟨_, List.getElem?_eq_getElem hlt⟩
    rw [ho] at hnext
    simp only [Link.openedBy, ho, Option.some.injEq] at hnext ⊢
    revert hnext
    cases opener <;> cases side <;> cases lowerSide key <;> simp
  have hany : (st.slot side).connection.any (st.live side) = true := by simp [hheld, hlive]
  rw [handler_eq, settle, hany, hflag, resolve_lower_held key hne side _ harr]
  rfl

theorem handler_spares (st : Link) (hs : Sound st) (side : Side) (conn next : ℕ)
    (hlow : st.opened[conn]? = some (lowerSide key)) (hlive : st.live side conn = true)
    (hlt : next < st.opened.length) (hnew : next ∉ st.handled side)
    (hclosed : conn ∈ (handler key st side next).2) :
    st.opened[next]? = some (lowerSide key) ∧ (st.slot side).connection = some conn ∧
      conn ≠ next := by
  rcases handler_cases key st side next with h | h
  · rw [h] at hclosed
    obtain rfl := List.mem_singleton.mp hclosed
    have hinst := handler_installs key hne st side conn hlow
    rw [h] at hinst
    have hslot := congrArg Slot.connection (congrArg Prod.fst hinst)
    exact absurd (hs.held side conn hslot) hnew
  · rw [h] at hclosed
    have hheld := Option.mem_toList.mp hclosed
    have hdiff : conn ≠ next := by
      rintro rfl
      exact hnew (hs.held side conn hheld)
    refine ⟨?_, hheld, hdiff⟩
    by_contra hnext
    have hkeep := handler_refuses key hne st hs side conn next hheld hlow hlive hlt hnext
    rw [h] at hkeep
    have hslot := congrArg Slot.connection (congrArg Prod.fst hkeep)
    rw [hheld] at hslot
    exact hdiff (Option.some.inj hslot).symm

theorem undisturbed_step (conn : ℕ) (st st' : Link) (ev : Event)
    (hev : ev ≠ .lose conn ∧ ev ≠ .timeout conn) (hp : Undisturbed key conn st)
    (h : step key st ev = some st') : Undisturbed key conn st' := by
  have hs := hp.sound
  have hs' := sound_step key st st' ev hs h
  cases ev with
  | dial side =>
    obtain rfl := Option.some.inj h
    refine ⟨hs', hp.present, fun hlow hclosed => ?_⟩
    obtain ⟨e, he⟩ := closed_handled st hs conn hp.present hclosed
    have hlt := hs.opened e conn he
    rw [List.getElem?_append_left hlt] at hlow
    obtain ⟨e', he', hnot⟩ := hp.superseded hlow hclosed
    refine ⟨e', he', ?_⟩
    rintro ⟨earlier, later, hsplit, hlater⟩
    refine hnot ⟨earlier, later, hsplit, fun c hc hc' => hlater c hc ?_⟩
    rw [List.getElem?_append_left (List.getElem?_eq_some_iff.mp hc').1]
    exact hc'
  | handle side next =>
    obtain ⟨hlt, hnew, rfl⟩ := (step_handle key st st' side next).mp h
    refine ⟨hs', hp.present, fun hlow hclosed => ?_⟩
    by_cases hold : st.closed conn = true
    · obtain ⟨e, he, hnot⟩ := hp.superseded hlow hold
      exact ⟨e, mem_settled st e side conn next _ he,
        not_handledLast_append key st e side conn next _ rfl rfl he hnew hnot⟩
    · have hlive : st.live side conn = true := by
        by_contra hdead
        exact hold (closed_of_not_live st hs side conn (by simpa using hdead))
      have hshut := ((settledState_closed st side next conn _).mp hclosed).resolve_left hold
      obtain ⟨hnext, hheld, hdiff⟩ :=
        handler_spares key hne st hs side conn next hlow hlive hlt hnew hshut
      refine ⟨side, mem_settled st side side conn next _ (hs.held side conn hheld), ?_⟩
      exact not_handledLast_of_next key _ side conn next (st.handled side)
        (by simp [handledState, settledState]) hdiff hnext
  | timeout other =>
    obtain ⟨opener, -, hfresh, rfl⟩ := step_timeout key st st' other h
    refine ⟨hs', hp.present, fun hlow hclosed => ?_⟩
    have hdiff : conn ≠ other := fun heq => hev.2 (by rw [heq])
    have hold : st.closed conn = true := by
      simpa [hdiff] using (settledState_closed st opener other conn _).mp hclosed
    obtain ⟨e, he, hnot⟩ := hp.superseded hlow hold
    exact ⟨e, mem_settled st e opener conn other _ he,
      not_handledLast_append key st e opener conn other _ rfl rfl he hfresh hnot⟩
  | notice side other =>
    simp only [step] at h
    split_ifs at h
    obtain rfl := Option.some.inj h
    exact ⟨hs', hp.present, hp.superseded⟩
  | lose other =>
    simp only [step] at h
    split_ifs at h
    obtain rfl := Option.some.inj h
    have hdiff : conn ≠ other := fun heq => hev.1 (by rw [heq])
    refine ⟨hs', by simp [hp.present, hdiff], fun hlow hclosed => hp.superseded hlow ?_⟩
    simpa [Link.closed, hdiff] using hclosed

/-- An installed live connection of the lower end leaves the slot, or is closed
at the end that holds it, only for another one the lower end opened. -/
theorem replaced_by_lower (st st' : Link) (hs : Sound st) (ev : Event)
    (h : step key st ev = some st') (side : Side) (conn : ℕ)
    (hheld : (st.slot side).connection = some conn)
    (hlow : st.opened[conn]? = some (lowerSide key)) (hlive : st.live side conn = true)
    (hgone : (st'.slot side).connection ≠ some conn ∨ st'.shut side conn = true) :
    ∃ next, ev = .handle side next ∧ st.opened[next]? = some (lowerSide key) ∧
      (st'.slot side).connection = some next := by
  have hnotshut : st.shut side conn = false := by
    simp only [Link.live, Bool.not_eq_true', Bool.or_eq_false_iff] at hlive
    exact hlive.1
  have hsame : st'.slot side = st.slot side → st'.shut side conn = st.shut side conn → False := by
    intro h1 h2
    rw [h1, h2, hnotshut] at hgone
    simp [hheld] at hgone
  cases ev with
  | dial e =>
    obtain rfl := Option.some.inj h
    exact (hsame rfl rfl).elim
  | handle e next =>
    obtain ⟨hlt, hnew, rfl⟩ := (step_handle key st st' e next).mp h
    by_cases he : side = e
    · subst he
      have hnext : st.opened[next]? = some (lowerSide key) := by
        by_contra hnext
        have hkeep := handler_refuses key hne st hs side conn next hheld hlow hlive hlt hnext
        have hdiff : conn ≠ next := by
          rintro rfl
          exact hnext hlow
        exact hsame (by simp [handledState, settledState, hkeep])
          (by simp [handledState, settledState, hkeep, hdiff])
      exact ⟨next, rfl, hnext,
        by simp [handledState, settledState, handler_installs key hne st side next hnext]⟩
    · exact (hsame (by simp [handledState, settledState, Function.update_of_ne he])
        (by simp [handledState, settledState, he])).elim
  | timeout other =>
    obtain ⟨opener, -, hfresh, rfl⟩ := step_timeout key st st' other h
    -- the dial that timed out was not handled by its opener, so is not held there
    have hdiff : side = opener → conn ≠ other := by
      rintro rfl rfl
      exact hfresh (hs.held side conn hheld)
    refine (hsame ?_ ?_).elim
    · simp [settledState]
    · simpa [settledState] using fun ho hc => absurd hc (hdiff ho)
  | notice e other =>
    simp only [step] at h
    split_ifs at h
    obtain rfl := Option.some.inj h
    exact (hsame rfl rfl).elim
  | lose other =>
    simp only [step] at h
    split_ifs at h
    obtain rfl := Option.some.inj h
    exact (hsame rfl rfl).elim

/-- The lower key's connections win. Neither end refuses one; an end that holds
a live one gives it up only for another; and without losses, once every
connection is handled and the lower end's last dial was handled after its
earlier ones, both ends hold that one, live. -/
theorem lower_key_settles (evs : List Event) (st : Link) (h : Reached key evs st) :
    (∀ side conn st', st.opened[conn]? = some (lowerSide key) →
      step key st (.handle side conn) = some st' →
      (st'.slot side).connection = some conn ∧ st'.shut side conn = false) ∧
    (∀ ev st' side conn, step key st ev = some st' → (st.slot side).connection = some conn →
      st.opened[conn]? = some (lowerSide key) → st.live side conn = true →
      (st'.slot side).connection ≠ some conn ∨ st'.shut side conn = true →
      ∃ next, ev = .handle side next ∧ st.opened[next]? = some (lowerSide key) ∧
        (st'.slot side).connection = some next) ∧
    ((∀ conn, .lose conn ∉ evs) → AllHandled st →
      ∀ last, .timeout last ∉ evs → st.opened[last]? = some (lowerSide key) →
      (∀ side, HandledLast key st side last) →
      ∀ side, (st.slot side).connection = some last ∧ st.live side last = true) := by
  have hs := reached_sound key evs st h
  refine ⟨?_, ?_, ?_⟩
  · intro side conn st' hlow hstep
    obtain ⟨-, hnew, rfl⟩ := (step_handle key st st' side conn).mp hstep
    have hinst := handler_installs key hne st side conn hlow
    refine ⟨by simp [handledState, settledState, hinst], ?_⟩
    have hfresh : st.shut side conn = false := by
      by_contra hshut
      exact hnew (hs.shut side conn (by simpa using hshut))
    have hother : (st.slot side).connection ≠ some conn := fun hheld =>
      hnew (hs.held side conn hheld)
    simp [handledState, settledState, hinst, hfresh, hother]
  · intro ev st' side conn hstep hheld hlow hlive hgone
    exact replaced_by_lower key hne st st' hs ev hstep side conn hheld hlow hlive hgone
  · intro hloss hall last htime hlow hlast side
    have hinit : Undisturbed key last Link.initial := by
      refine ⟨sound_initial, rfl, fun hlow => ?_⟩
      simp [Link.initial] at hlow
    have hp := exec_invariant (step key) (fun ev => ev ≠ .lose last ∧ ev ≠ .timeout last)
      (Undisturbed key last) (fun s ev t hev hs => undisturbed_step key hne last s t ev hev hs)
      Link.initial hinit evs
      (fun ev hev => ⟨fun heq => hloss last (heq ▸ hev), fun heq => htime (heq ▸ hev)⟩) st h
    have hopen : st.closed last = false := by
      by_contra hclosed
      obtain ⟨e, -, hnot⟩ := hp.superseded hlow (by simpa using hclosed)
      exact hnot (hlast e)
    have hlt := (List.getElem?_eq_some_iff.mp hlow).1
    refine ⟨?_, ?_⟩
    · rcases hs.kept side last (hall last hlt side) with hk | hk
      · exact hk
      · rw [hopen] at hk
        cases hk
    · by_contra hdead
      rw [closed_of_not_live st hs side last (by simpa using hdead)] at hopen
      cases hopen

end

theorem crossing_settles : ∃ st, Reached crossingKeys crossing st ∧
    ∀ side, (st.slot side).connection = some 0 ∧ st.live side 0 = true := by
  obtain ⟨st, h, hall, -, -, hopened, hleft, hright⟩ := crossing_reached
  have hlow : lowerSide crossingKeys = .left := rfl
  refine ⟨st, h, (lower_key_settles crossingKeys (by decide) crossing st h).2.2 ?_ hall 0 ?_ ?_ ?_⟩
  · intro conn hmem
    simp [crossing] at hmem
  · simp [crossing]
  · simp [hopened, hlow]
  · intro side
    cases side with
    | left => exact ⟨[], [1], hleft, by simp [hopened, hlow]⟩
    | right => exact ⟨[1], [], hright, by simp⟩

end PaiSho.DialLink
