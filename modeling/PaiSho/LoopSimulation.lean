import PaiSho.ConnectionLoop
import PaiSho.PeerTasks

/-!
# The loop at two grains

The tasks that share a peer record have the same loop and the same calls, taken
one await at a time and without the schedule. Each of their steps is a few steps
of the finer loop: the tests made when there is no connection to run are steps of
their own there, and so are the two stores and the notification of a call.
-/

set_option autoImplicit false

namespace PaiSho.LoopSimulation
open Library.Traces
open PeerTasks (Node LoopPc Task Choice Outcome)
open ConnectionLoop

structure Seen (nd : Node) (r : ℕ) (st : Loop) : Prop where
  slot : st.slot = (nd.records r).slot
  dial : st.dial = (nd.records r).dial
  permit : st.permit = (nd.records r).notified
  removed : st.removed = (nd.records r).removed
  opened : st.opened = nd.opened
  closed : st.closed = nd.closed

def point : LoopPc → Pc
  | .top => .top
  | .opening => .opening
  | .serving conn => .serving conn
  | .parked => .parked
  | .waiting => .waiting
  | .dialing => .dialing
  | .dialed conn => .dialed conn
  | .announcing => .announcing

inductive At (r : ℕ) (st : Loop) : Task → Prop where
  | loop (pc : LoopPc) (hpc : st.pc = point pc) : At r st (.loop r pc)
  | ended (hpc : st.pc = .ended) : At r st .ended

theorem seen_moved (nd : Node) (r : ℕ) (st : Loop) (h : Seen nd r st) (backoff : Backoff) (pc : Pc) :
    Seen nd r { st with backoff := backoff, pc := pc } :=
  ⟨h.slot, h.dial, h.permit, h.removed, h.opened, h.closed⟩

theorem seen_taken (nd : Node) (r : ℕ) (st : Loop) (h : Seen nd r st) (backoff : Backoff) (pc : Pc) :
    Seen (nd.setPeer r { nd.records r with notified := false }) r
      { st with permit := false, backoff := backoff, pc := pc } := by
  constructor
  case slot => simpa [Node.setPeer] using h.slot
  case dial => simpa [Node.setPeer] using h.dial
  case permit => simp [Node.setPeer]
  case removed => simpa [Node.setPeer] using h.removed
  case opened => exact h.opened
  case closed => exact h.closed

section
variable {K : Type} [LinearOrder K] (ours theirs : K)

def Simulated (r : ℕ) (st : Loop) (out : Outcome) : Prop :=
  ∃ acts st', exec (step ours theirs) st acts = some st' ∧ Seen out.node r st' ∧ At r st' out.task

theorem simulated_one (r : ℕ) (st st' : Loop) (act : Act) (out : Outcome)
    (hstep : step ours theirs st act = some st') (hseen : Seen out.node r st')
    (hat : At r st' out.task) : Simulated ours theirs r st out := by
  refine ⟨[act], st', ?_, hseen, hat⟩
  rw [exec, hstep]
  rfl

theorem simulated_checked (nd : Node) (r : ℕ) (st s : Loop) (act : Act)
    (hstep : step ours theirs st act = some s) (hpc : s.pc = .checking) (hseen : Seen nd r s) :
    Simulated ours theirs r st ⟨nd, PeerTasks.disconnected nd r, [], []⟩ := by
  refine ⟨[act, .checked], { s with
    pc := if s.removed then .ended else if s.dial then .waiting else .parked }, ?_, ?_, ?_⟩
  · have hchecked : step ours theirs s .checked = some { s with
        pc := if s.removed then .ended else if s.dial then .waiting else .parked } := by
      simp only [step, hpc, peerConnectionLoop]
    rw [exec, hstep, Option.bind_some, exec, hchecked]
    rfl
  · exact ⟨hseen.slot, hseen.dial, hseen.permit, hseen.removed, hseen.opened, hseen.closed⟩
  · unfold PeerTasks.disconnected
    rw [hseen.removed, hseen.dial]
    dsimp only
    split_ifs
    · exact .ended rfl
    · exact .loop .waiting rfl
    · exact .loop .parked rfl

theorem meet_seen (nd : Node) (r conn : ℕ) (st : Loop) (dialedByUs : Bool) (h : Seen nd r st) :
    Seen (PeerTasks.meet ours theirs nd r conn dialedByUs).1 r
        (meet ours theirs st conn dialedByUs).1 ∧
      (meet ours theirs st conn dialedByUs).2 =
        (PeerTasks.meet ours theirs nd r conn dialedByUs).2 := by
  have hlive : st.live = fun c => !nd.closed c := by
    funext c
    rw [Loop.live, h.closed]
  unfold meet PeerTasks.meet
  rw [hlive, h.slot]
  refine ⟨⟨?_, ?_, ?_, ?_, h.opened, ?_⟩, rfl⟩
  · simp [Node.close, Node.setPeer]
  · simpa [Node.close, Node.setPeer, Loop.close] using h.dial
  · simpa [Node.close, Node.setPeer, Loop.close] using h.permit
  · simpa [Node.close, Node.setPeer, Loop.close] using h.removed
  · simp [Node.close, Node.setPeer, Loop.close, h.closed]

theorem at_unless_removed (nd : Node) (r : ℕ) (st : Loop) (pc : LoopPc)
    (h : st.pc = if (nd.records r).removed then .ended else point pc) :
    At r st (if (nd.records r).removed then .ended else .loop r pc) := by
  split_ifs at h ⊢
  · exact .ended h
  · exact .loop pc h

theorem top_simulated (nd : Node) (r : ℕ) (st : Loop) (hseen : Seen nd r st) (hpc : st.pc = .top) :
    Simulated ours theirs r st (if (nd.records r).slot.connection.isSome
      then ⟨nd, .loop r .opening, [], []⟩ else ⟨nd, PeerTasks.disconnected nd r, [], []⟩) := by
  split_ifs with hheld
  · refine simulated_one ours theirs r st { st with pc := .opening } .looked _ ?_ ?_ (.loop _ rfl)
    · simp [step, hpc, peerConnectionLoop, hseen.slot, hheld]
    · exact seen_moved nd r st hseen st.backoff _
  · refine simulated_checked ours theirs nd r st { st with pc := .checking } .looked ?_ rfl ?_
    · simp [step, hpc, peerConnectionLoop, hseen.slot, hheld]
    · exact seen_moved nd r st hseen st.backoff _

theorem opening_simulated (nd : Node) (r : ℕ) (out : Outcome) (st : Loop) (hseen : Seen nd r st)
    (hpc : st.pc = .opening)
    (h : PeerTasks.peerConnectionLoop ours theirs nd r .opening .go = some out) :
    Simulated ours theirs r st out := by
  simp only [PeerTasks.peerConnectionLoop] at h
  split at h
  · rename_i conn hheld
    obtain rfl := Option.some.inj h
    refine simulated_one ours theirs r st { st with pc := .serving conn } .took _ ?_ ?_ (.loop _ rfl)
    · simp [step, hpc, peerConnectionLoop, hseen.slot, hheld]
    · exact seen_moved nd r st hseen st.backoff _
  · rename_i hnone
    obtain rfl := Option.some.inj h
    refine simulated_checked ours theirs nd r st { st with pc := .checking } .took ?_ rfl ?_
    · simp [step, hpc, peerConnectionLoop, hseen.slot, hnone]
    · exact seen_moved nd r st hseen st.backoff _

/-- A stream accepted on the connection is no step of the loop's. -/
theorem accept_simulated (nd : Node) (r conn : ℕ) (out : Outcome) (st : Loop) (hseen : Seen nd r st)
    (hpc : st.pc = .serving conn)
    (h : PeerTasks.peerConnectionLoop ours theirs nd r (.serving conn) .accept = some out) :
    Simulated ours theirs r st out := by
  have hsame : ∀ rest, Seen { nd with incoming := Function.update nd.incoming conn rest } r st :=
    fun _ => ⟨hseen.slot, hseen.dial, hseen.permit, hseen.removed, hseen.opened, hseen.closed⟩
  simp only [PeerTasks.peerConnectionLoop] at h
  split at h
  · cases h
  · split at h <;> obtain rfl := Option.some.inj h <;> exact ⟨[], st, rfl, hsame _, .loop _ hpc⟩

theorem unparked_simulated (nd : Node) (r : ℕ) (st : Loop) (hseen : Seen nd r st)
    (hpc : st.pc = .parked) (hpermit : (nd.records r).notified = true) :
    Simulated ours theirs r st ⟨nd.setPeer r { nd.records r with notified := false },
      if (nd.records r).removed then .ended else .loop r .top, [], []⟩ := by
  refine simulated_one ours theirs r st
    { st with permit := false, pc := if st.removed then .ended else .top } .unparked _ ?_
    (seen_taken nd r st hseen st.backoff _) (at_unless_removed nd r _ .top ?_)
  · simp [step, hpc, peerConnectionLoop, hseen.permit, hpermit]
  · rw [hseen.removed]
    rfl

theorem woken_simulated (nd : Node) (r : ℕ) (st : Loop) (hseen : Seen nd r st)
    (hpc : st.pc = .waiting) (hpermit : (nd.records r).notified = true) :
    Simulated ours theirs r st
      ⟨nd.setPeer r { nd.records r with notified := false }, .loop r .top, [], []⟩ := by
  refine simulated_one ours theirs r st
    { st with permit := false, backoff := st.backoff.reset, pc := .top } .woken _ ?_
    (seen_taken nd r st hseen _ _) (.loop _ rfl)
  simp [step, hpc, peerConnectionLoop, hseen.permit, hpermit]

theorem slept_simulated (nd : Node) (r : ℕ) (st : Loop) (hseen : Seen nd r st)
    (hpc : st.pc = .waiting) : Simulated ours theirs r st
      ⟨nd, if (nd.records r).removed then .ended else .loop r .dialing, [], []⟩ := by
  refine simulated_one ours theirs r st { st with pc := if st.removed then .ended else .dialing }
    .slept _ ?_ (seen_moved nd r st hseen st.backoff _) (at_unless_removed nd r _ .dialing ?_)
  · simp only [step, hpc, peerConnectionLoop]
  · rw [hseen.removed]
    rfl

theorem errored_simulated (nd : Node) (r : ℕ) (st : Loop) (hseen : Seen nd r st)
    (hpc : st.pc = .dialing) : Simulated ours theirs r st
      ⟨nd, if (nd.records r).removed then .ended else .loop r .waiting, [], []⟩ := by
  refine simulated_one ours theirs r st
    { st with backoff := st.backoff.failed, pc := if st.removed then .ended else .waiting }
    .errored _ ?_ (seen_moved nd r st hseen _ _) (at_unless_removed nd r _ .waiting ?_)
  · simp only [step, hpc, peerConnectionLoop]
  · rw [hseen.removed]
    rfl

theorem connected_simulated (nd : Node) (r : ℕ) (st : Loop) (hseen : Seen nd r st)
    (hpc : st.pc = .dialing) : Simulated ours theirs r st
      ⟨{ nd with opened := nd.opened + 1 }, .loop r (.dialed nd.opened), [], []⟩ := by
  refine simulated_one ours theirs r st { st with opened := st.opened+1, pc := .dialed st.opened }
    .connected _ ?_ ?_ ?_
  · simp only [step, hpc, peerConnectionLoop]
  · exact ⟨hseen.slot, hseen.dial, hseen.permit, hseen.removed, by rw [hseen.opened], hseen.closed⟩
  · exact .loop _ (by rw [hseen.opened]; rfl)

theorem dialed_simulated (nd : Node) (r conn : ℕ) (out : Outcome) (st : Loop) (hseen : Seen nd r st)
    (hpc : st.pc = .dialed conn)
    (h : PeerTasks.peerConnectionLoop ours theirs nd r (.dialed conn) .go = some out) :
    Simulated ours theirs r st out := by
  obtain ⟨hmet, hinstalled⟩ := meet_seen ours theirs nd r conn st true hseen
  simp only [PeerTasks.peerConnectionLoop] at h
  split_ifs at h with hin
  · obtain rfl := Option.some.inj h
    refine simulated_one ours theirs r st
      { (meet ours theirs st conn true).1 with pc := .announcing } .settled _ ?_
      (seen_moved _ r _ hmet _ _) (.loop _ rfl)
    simp only [step, hpc, peerConnectionLoop, hinstalled, hin, if_true]
  · obtain rfl := Option.some.inj h
    refine simulated_one ours theirs r st
      { (meet ours theirs st conn true).1 with backoff := st.backoff.reset, pc := .top } .settled _
      ?_ (seen_moved _ r _ hmet _ _) (.loop _ rfl)
    simp only [step, hpc, peerConnectionLoop, hinstalled, hin]
    rfl

theorem loop_simulated (nd : Node) (r : ℕ) (pc : LoopPc) (choice : Choice) (out : Outcome)
    (st : Loop) (hseen : Seen nd r st) (hpc : st.pc = point pc)
    (h : PeerTasks.peerConnectionLoop ours theirs nd r pc choice = some out) :
    Simulated ours theirs r st out := by
  have hall := h
  unfold PeerTasks.peerConnectionLoop at h
  split at h
  · have htop := top_simulated ours theirs nd r st hseen hpc
    split_ifs at h htop <;> obtain rfl := Option.some.inj h <;> exact htop
  · exact opening_simulated ours theirs nd r out st hseen hpc hall
  · exact accept_simulated ours theirs nd r _ out st hseen hpc hall
  · split_ifs at h with hclosed
    obtain rfl := Option.some.inj h
    refine simulated_checked ours theirs nd r st { st with pc := .checking } .dropped ?_ rfl ?_
    · simp [step, hpc, point, peerConnectionLoop, hseen.closed, hclosed]
    · exact seen_moved nd r st hseen st.backoff _
  · split at h
    · rename_i hpermit
      obtain rfl := Option.some.inj h
      exact unparked_simulated ours theirs nd r st hseen hpc hpermit
    · cases h
  · split_ifs at h with hpermit
    obtain rfl := Option.some.inj h
    exact woken_simulated ours theirs nd r st hseen hpc hpermit
  · obtain rfl := Option.some.inj h
    exact slept_simulated ours theirs nd r st hseen hpc
  · obtain rfl := Option.some.inj h
    exact errored_simulated ours theirs nd r st hseen hpc
  · obtain rfl := Option.some.inj h
    exact connected_simulated ours theirs nd r st hseen hpc
  · exact dialed_simulated ours theirs nd r _ out st hseen hpc hall
  · obtain rfl := Option.some.inj h
    refine simulated_one ours theirs r st { st with backoff := st.backoff.reset, pc := .top }
      .announced _ ?_ (seen_moved nd r st hseen _ _) (.loop _ rfl)
    simp only [step, hpc, point, peerConnectionLoop]
  · cases h

/-- A call that a task makes in one step installs its connection, sets the flag
and notifies the loop, or is refused. The loop stays where it is. -/
theorem call_simulated (nd : Node) (r conn : ℕ) (choice : Choice) (out : Outcome) (st : Loop)
    (hseen : Seen nd r st) (hcall : st.calls conn = .arriving)
    (h : PeerTasks.inboundStep ours theirs nd r conn choice = some out) :
    ∃ acts st', exec (step ours theirs) st acts = some st' ∧ Seen out.node r st' ∧
      st'.pc = st.pc ∧ st'.calls conn = .done := by
  unfold PeerTasks.inboundStep at h
  split at h
  · obtain ⟨hmet, hinstalled⟩ := meet_seen ours theirs nd r conn st false hseen
    dsimp only at h
    split_ifs at h with hin
    · obtain rfl := Option.some.inj h
      refine ⟨[.installed conn, .marked conn, .notified conn],
        { (meet ours theirs st conn false).1 with
          dial := true
          permit := true
          calls := Function.update st.calls conn .done }, ?_, ?_, rfl, Function.update_self ..⟩
      · simp [exec, step, handleConnection, hcall, hinstalled, hin]
      · constructor
        case slot => simpa [Node.setPeer] using hmet.slot
        case dial => simp [Node.setPeer]
        case permit => simp [Node.setPeer]
        case removed => simpa [Node.setPeer] using hmet.removed
        case opened => exact hmet.opened
        case closed => exact hmet.closed
    · obtain rfl := Option.some.inj h
      refine ⟨[.installed conn], { (meet ours theirs st conn false).1 with
        calls := Function.update st.calls conn .done }, ?_, ?_, rfl, Function.update_self ..⟩
      · simp [exec, step, handleConnection, hcall, hinstalled, hin]
      · exact ⟨hmet.slot, hmet.dial, hmet.permit, hmet.removed, hmet.opened, hmet.closed⟩
  · cases h

end

end PaiSho.LoopSimulation
