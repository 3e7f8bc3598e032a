import PaiSho.DialLink
import PaiSho.Enrollment

/-!
# The connection loop of one peer

`peer_connection_loop` with the schedule of `core/backoff.rs`, beside any number
of `handle_connection` calls for the same peer. A step of the loop stands between
two awaits; a call, from the slot's lock on, is taken apart further, so that the
loop can run between its store to the slot, its store to the dial flag and its
notification. A notification leaves one permit at most, and waiting for one takes
it. Connections are numbered as they open.
-/

set_option autoImplicit false

namespace PaiSho.ConnectionLoop
open Library.Traces
open Enrollment (second)
open DialLink (Slot resolve dialResult)

structure Backoff where
  next : ℕ
  deriving DecidableEq, Repr

def Backoff.initial : ℕ := second

def Backoff.maximum : ℕ := 10*second

def Backoff.unreached : Backoff := ⟨0⟩

def Backoff.connected : Backoff := ⟨Backoff.initial⟩

def Backoff.delay (b : Backoff) : ℕ := b.next

def Backoff.failed (b : Backoff) : Backoff :=
  ⟨min (max (b.next*2) Backoff.initial) Backoff.maximum⟩

def Backoff.reset (_ : Backoff) : Backoff := ⟨Backoff.initial⟩

inductive Pc where
  | start
  | top
  | opening
  | serving (conn : ℕ)
  | checking
  | parked
  | waiting
  | dialing
  | dialed (conn : ℕ)
  | announcing
  | ended
  deriving DecidableEq, Repr

inductive Stage where
  | absent
  | arriving
  | installed
  | marked
  | done
  deriving DecidableEq, Repr

/-- The peer record as far as the loop and the calls share it, the loop's
schedule, and where each of them is. `closed` is what `close_reason` tells. -/
structure Loop where
  slot : Slot := {}
  dial : Bool
  permit : Bool := false
  removed : Bool := false
  evicting : Bool := false
  opened : ℕ := 0
  closed : ℕ → Bool := fun _ => false
  calls : ℕ → Stage := fun _ => .absent
  backoff : Backoff := .unreached
  pc : Pc := .start

/-- How a peer comes in: by an invitation taken up, from a pin, or with a code
presented on the connection it then has. -/
inductive Origin where
  | accepted
  | pinned
  | enrolled
  deriving DecidableEq, Repr

def Origin.loop : Origin → Loop
  | .accepted => { dial := true }
  | .pinned => { dial := false }
  | .enrolled => { dial := true, slot := ⟨some 0, false⟩, opened := 1 }

inductive Act where
  | started
  | looked
  | took
  | dropped
  | checked
  | unparked
  | woken
  | slept
  | errored
  | timedOut
  | connected
  | settled
  | announced
  | arrived
  | installed (conn : ℕ)
  | marked (conn : ℕ)
  | notified (conn : ℕ)
  | lost (conn : ℕ)
  | evicted
  | cleared
  deriving DecidableEq, Repr

def Loop.live (st : Loop) (conn : ℕ) : Bool := !st.closed conn

def Loop.close (st : Loop) (conns : List ℕ) : Loop :=
  { st with closed := fun c => st.closed c || conns.contains c }

section
variable {K : Type} [LinearOrder K] (ours theirs : K)

/-- A new connection meets the slot, in either handler: the slot and what was
closed, and whether the connection was installed. -/
def meet (st : Loop) (conn : ℕ) (dialedByUs : Bool) : Loop × Bool :=
  let result := if dialedByUs then dialResult ours theirs st.live st.slot conn
    else DialLink.handleConnection ours theirs st.live st.slot conn
  ({ st.close result.2 with slot := result.1 },
    resolve ours theirs (st.slot.connection.any st.live) st.slot.connDialedByUs dialedByUs =
      .arriving)

def peerConnectionLoop (st : Loop) : Pc → Act → Option Loop
  | .start, .started =>
    some { st with
      backoff := if st.slot.connection.isSome then .connected else .unreached
      pc := .top }
  | .top, .looked => some { st with pc := if st.slot.connection.isSome then .opening else .checking }
  | .opening, .took =>
    match st.slot.connection with
    | some conn => some { st with pc := .serving conn }
    | none => some { st with pc := .checking }
  | .serving conn, .dropped => if st.closed conn then some { st with pc := .checking } else none
  | .checking, .checked =>
    some { st with
      pc := if st.removed then .ended else if st.dial then .waiting else .parked }
  | .parked, .unparked =>
    if st.permit then
      some { st with permit := false, pc := if st.removed then .ended else .top }
    else none
  | .waiting, .woken =>
    if st.permit then
      some { st with permit := false, backoff := st.backoff.reset, pc := .top }
    else none
  | .waiting, .slept => some { st with pc := if st.removed then .ended else .dialing }
  | .dialing, .errored =>
    some { st with
      backoff := st.backoff.failed
      pc := if st.removed then .ended else .waiting }
  | .dialing, .timedOut =>
    some { st with
      backoff := st.backoff.failed
      pc := if st.removed then .ended else .waiting }
  | .dialing, .connected => some { st with opened := st.opened+1, pc := .dialed st.opened }
  | .dialed conn, .settled =>
    let met := meet ours theirs st conn true
    if met.2 then some { met.1 with pc := .announcing }
    else some { met.1 with backoff := st.backoff.reset, pc := .top }
  | .announcing, .announced => some { st with backoff := st.backoff.reset, pc := .top }
  | _, _ => none

/-- A call from the slot's lock on: it is refused, or it installs its connection,
sets the dial flag and notifies the loop. -/
def handleConnection (st : Loop) : Stage → Act → Option Loop
  | .arriving, .installed conn =>
    let met := meet ours theirs st conn false
    let stage : Stage := if met.2 then .installed else .done
    some { met.1 with calls := Function.update st.calls conn stage }
  | .installed, .marked conn =>
    some { st with dial := true, calls := Function.update st.calls conn .marked }
  | .marked, .notified conn =>
    some { st with permit := true, calls := Function.update st.calls conn .done }
  | _, _ => none

def step (st : Loop) (act : Act) : Option Loop :=
  match act with
  | .arrived =>
    if st.removed then none
    else some { st with
      opened := st.opened+1
      calls := Function.update st.calls st.opened .arriving }
  | .installed conn => handleConnection ours theirs st (st.calls conn) act
  | .marked conn => handleConnection ours theirs st (st.calls conn) act
  | .notified conn => handleConnection ours theirs st (st.calls conn) act
  | .lost conn => if conn < st.opened then some (st.close [conn]) else none
  | .evicted =>
    if st.removed then none
    else some { st with removed := true, permit := true, evicting := true }
  | .cleared =>
    if st.evicting then
      some { st.close st.slot.connection.toList with
        slot := { st.slot with connection := none }
        evicting := false }
    else none
  | _ => peerConnectionLoop ours theirs st st.pc act

inductive Stepped (st : Loop) : Act → Loop → Prop where
  | started (hpc : st.pc = .start) :
      Stepped st .started { st with
        backoff := if st.slot.connection.isSome then .connected else .unreached
        pc := .top }
  | looked (hpc : st.pc = .top) :
      Stepped st .looked { st with
        pc := if st.slot.connection.isSome then .opening else .checking }
  | took (conn : ℕ) (hpc : st.pc = .opening) (hheld : st.slot.connection = some conn) :
      Stepped st .took { st with pc := .serving conn }
  | tookNone (hpc : st.pc = .opening) (hnone : st.slot.connection = none) :
      Stepped st .took { st with pc := .checking }
  | dropped (conn : ℕ) (hpc : st.pc = .serving conn) (hclosed : st.closed conn = true) :
      Stepped st .dropped { st with pc := .checking }
  | checked (hpc : st.pc = .checking) :
      Stepped st .checked { st with
        pc := if st.removed then .ended else if st.dial then .waiting else .parked }
  | unparked (hpc : st.pc = .parked) (hpermit : st.permit = true) :
      Stepped st .unparked { st with
        permit := false
        pc := if st.removed then .ended else .top }
  | woken (hpc : st.pc = .waiting) (hpermit : st.permit = true) :
      Stepped st .woken { st with permit := false, backoff := st.backoff.reset, pc := .top }
  | slept (hpc : st.pc = .waiting) :
      Stepped st .slept { st with pc := if st.removed then .ended else .dialing }
  | failed (act : Act) (hact : act = .errored ∨ act = .timedOut) (hpc : st.pc = .dialing) :
      Stepped st act { st with
        backoff := st.backoff.failed
        pc := if st.removed then .ended else .waiting }
  | connected (hpc : st.pc = .dialing) :
      Stepped st .connected { st with opened := st.opened+1, pc := .dialed st.opened }
  | replaced (conn : ℕ) (hpc : st.pc = .dialed conn) :
      Stepped st .settled { st.close st.slot.connection.toList with
        slot := ⟨some conn, true⟩
        pc := .announcing }
  | kept (conn : ℕ) (hpc : st.pc = .dialed conn) :
      Stepped st .settled { st.close [conn] with backoff := st.backoff.reset, pc := .top }
  | announced (hpc : st.pc = .announcing) :
      Stepped st .announced { st with backoff := st.backoff.reset, pc := .top }
  | arrived (hpresent : st.removed = false) :
      Stepped st .arrived { st with
        opened := st.opened+1
        calls := Function.update st.calls st.opened .arriving }
  | installed (conn : ℕ) (hcall : st.calls conn = .arriving) :
      Stepped st (.installed conn) { st.close st.slot.connection.toList with
        slot := ⟨some conn, false⟩
        calls := Function.update st.calls conn .installed }
  | refused (conn : ℕ) (hcall : st.calls conn = .arriving) :
      Stepped st (.installed conn) { st.close [conn] with
        calls := Function.update st.calls conn .done }
  | marked (conn : ℕ) (hcall : st.calls conn = .installed) :
      Stepped st (.marked conn) { st with
        dial := true
        calls := Function.update st.calls conn .marked }
  | notified (conn : ℕ) (hcall : st.calls conn = .marked) :
      Stepped st (.notified conn) { st with
        permit := true
        calls := Function.update st.calls conn .done }
  | lost (conn : ℕ) (hopened : conn < st.opened) : Stepped st (.lost conn) (st.close [conn])
  | evicted (hpresent : st.removed = false) :
      Stepped st .evicted { st with removed := true, permit := true, evicting := true }
  | cleared (hevicting : st.evicting = true) :
      Stepped st .cleared { st.close st.slot.connection.toList with
        slot := { st.slot with connection := none }
        evicting := false }

theorem meet_cases (st : Loop) (conn : ℕ) (dialedByUs : Bool) :
    meet ours theirs st conn dialedByUs =
        ({ st.close st.slot.connection.toList with slot := ⟨some conn, dialedByUs⟩ }, true) ∨
      meet ours theirs st conn dialedByUs = (st.close [conn], false) := by
  have hresult : (if dialedByUs then dialResult ours theirs st.live st.slot conn
      else DialLink.handleConnection ours theirs st.live st.slot conn) =
      DialLink.settle ours theirs st.live st.slot conn dialedByUs := by
    cases dialedByUs <;> rfl
  unfold meet
  rw [hresult, DialLink.settle]
  cases hresolve : resolve ours theirs (st.slot.connection.any st.live) st.slot.connDialedByUs
      dialedByUs with
  | held => exact Or.inr (by simp [Loop.close])
  | arriving => exact Or.inl (by simp [Loop.close])

theorem stepped_loop (st st' : Loop) (pc : Pc) (hpc : st.pc = pc) (act : Act)
    (h : peerConnectionLoop ours theirs st pc act = some st') : Stepped st act st' := by
  unfold peerConnectionLoop at h
  split at h
  · obtain rfl := Option.some.inj h
    exact .started hpc
  · obtain rfl := Option.some.inj h
    exact .looked hpc
  · split at h
    · rename_i conn hheld
      obtain rfl := Option.some.inj h
      exact .took conn hpc hheld
    · rename_i hnone
      obtain rfl := Option.some.inj h
      exact .tookNone hpc hnone
  · rename_i conn
    split_ifs at h with hclosed
    obtain rfl := Option.some.inj h
    exact .dropped conn hpc hclosed
  · obtain rfl := Option.some.inj h
    exact .checked hpc
  · by_cases hpermit : st.permit = true
    · rw [if_pos hpermit] at h
      obtain rfl := Option.some.inj h
      exact .unparked hpc hpermit
    · rw [if_neg hpermit] at h
      cases h
  · split_ifs at h with hpermit
    obtain rfl := Option.some.inj h
    exact .woken hpc hpermit
  · obtain rfl := Option.some.inj h
    exact .slept hpc
  · obtain rfl := Option.some.inj h
    exact .failed _ (Or.inl rfl) hpc
  · obtain rfl := Option.some.inj h
    exact .failed _ (Or.inr rfl) hpc
  · obtain rfl := Option.some.inj h
    exact .connected hpc
  · rename_i conn
    rcases meet_cases ours theirs st conn true with hmet | hmet
    · simp only [hmet, ↓reduceIte] at h
      obtain rfl := Option.some.inj h
      exact .replaced conn hpc
    · simp only [hmet, Bool.false_eq_true, ↓reduceIte] at h
      obtain rfl := Option.some.inj h
      exact .kept conn hpc
  · obtain rfl := Option.some.inj h
    exact .announced hpc
  · cases h

theorem stepped_of_step (st st' : Loop) (act : Act) (h : step ours theirs st act = some st') :
    Stepped st act st' := by
  cases act with
  | arrived =>
    simp only [step] at h
    split_ifs at h with hremoved
    obtain rfl := Option.some.inj h
    exact .arrived (by simpa using hremoved)
  | installed conn =>
    simp only [step] at h
    cases hcall : st.calls conn with
    | arriving =>
      rw [hcall] at h
      rcases meet_cases ours theirs st conn false with hmet | hmet
      · simp only [handleConnection, hmet, ↓reduceIte] at h
        obtain rfl := Option.some.inj h
        exact .installed conn hcall
      · simp only [handleConnection, hmet, Bool.false_eq_true, ↓reduceIte] at h
        obtain rfl := Option.some.inj h
        exact .refused conn hcall
    | _ =>
      rw [hcall] at h
      cases h
  | marked conn =>
    simp only [step] at h
    cases hcall : st.calls conn with
    | installed =>
      rw [hcall] at h
      obtain rfl := Option.some.inj h
      exact .marked conn hcall
    | _ =>
      rw [hcall] at h
      cases h
  | notified conn =>
    simp only [step] at h
    cases hcall : st.calls conn with
    | marked =>
      rw [hcall] at h
      obtain rfl := Option.some.inj h
      exact .notified conn hcall
    | _ =>
      rw [hcall] at h
      cases h
  | lost conn =>
    simp only [step] at h
    split_ifs at h with hopened
    obtain rfl := Option.some.inj h
    exact .lost conn hopened
  | evicted =>
    simp only [step] at h
    split_ifs at h with hremoved
    obtain rfl := Option.some.inj h
    exact .evicted (by simpa using hremoved)
  | cleared =>
    simp only [step] at h
    split_ifs at h with hevicting
    obtain rfl := Option.some.inj h
    exact .cleared hevicting
  | _ => exact stepped_loop ours theirs st st' st.pc rfl _ h

def Reached (origin : Origin) (acts : List Act) (st : Loop) : Prop :=
  exec (step ours theirs) origin.loop acts = some st

end
end PaiSho.ConnectionLoop
