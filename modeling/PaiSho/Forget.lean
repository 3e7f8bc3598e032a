import PaiSho.PeerTasks

/-!
# Is a forget final

`evict` marks the record removed before anything else, and the connection loop
tests the mark, but not after its dial has returned; the handlers of inbound
connections and of announcements never test it, and an enrollment or an accept
inserts its record without asking whether the key is still admitted. The key is at rest when
no task stands past the last test it will make, and a forget that returns with
the key at rest is final.
-/

set_option autoImplicit false

namespace PaiSho.Forget
open Library.Traces
open GrantTable (Port)
open PeerTasks

def quiet (peer : Peer) : Prop :=
  peer.removed = true ∨ peer.dial = false ∧ peer.notified = false

def loopRests (nd : Node) (r : ℕ) : LoopPc → Prop
  | .serving conn => quiet (nd.records r) ∧ nd.closed conn = true ∧ nd.incoming conn = []
  | .parked => (nd.records r).removed = true ∨ (nd.records r).notified = false
  | .waiting => (nd.records r).removed = true ∧ (nd.records r).slot.connection = none
  | .dialing => False
  | .dialed _ => False
  | _ => quiet (nd.records r) ∧ (nd.records r).slot.connection = none

def updateRests : UpdatePc → Prop
  | .reading ports => ports = []
  | .queued ports => ports = []
  | .releasing ports _ => ports = []
  | .claiming _ => False
  | .placing _ _ => False
  | .binding _ _ todo => todo = []
  | .recording _ => True

def rests (nd : Node) : Task → Prop
  | .loop r pc => loopRests nd r pc
  | .inbound _ _ => False
  | .update _ pc => updateRests pc
  | .enrolling _ _ _ => False
  | .inserting _ _ => False
  | _ => True

def AtRest (sys : System) : Prop := ∀ task ∈ sys.tasks, rests sys.node task

def returns (nd : Node) : Task → Prop
  | .forget (.releasing _ []) => True
  | .forget .queued => nd.peers = none
  | _ => False

def Careful (sys : System) : Event → Prop
  | .run i _ => ∀ task, sys.tasks[i]? = some task → returns sys.node task → AtRest sys
  | _ => True

structure PeerCalm (peer peer' : Peer) : Prop where
  removed : peer.removed = true → peer'.removed = true
  dial : peer'.dial = peer.dial
  notified : peer.notified = false → peer'.removed = true ∨ peer'.notified = false
  slot : peer.slot.connection = none → peer'.slot.connection = none

theorem peerCalm_refl (peer : Peer) : PeerCalm peer peer := ⟨id, rfl, Or.inr, id⟩

theorem quiet_calm (peer peer' : Peer) (h : PeerCalm peer peer') (hq : quiet peer) :
    quiet peer' := by
  rcases hq with hremoved | ⟨hdial, hnotified⟩
  · exact Or.inl (h.removed hremoved)
  · exact (h.notified hnotified).imp id fun hn => ⟨h.dial.trans hdial, hn⟩

structure Calm (nd nd' : Node) : Prop where
  records : ∀ r, PeerCalm (nd.records r) (nd'.records r)
  closed : ∀ c, nd.closed c = true → nd'.closed c = true
  incoming : ∀ c, nd.closed c = true → nd.incoming c = [] → nd'.incoming c = []

theorem calm_records (nd nd' : Node) (hrecords : nd'.records = nd.records)
    (hclosed : nd'.closed = nd.closed) (hincoming : nd'.incoming = nd.incoming) : Calm nd nd' := by
  refine ⟨fun r => ?_, fun c => ?_, fun c _ => ?_⟩
  · rw [hrecords]
    exact peerCalm_refl _
  · rw [hclosed]
    exact id
  · rw [hincoming]
    exact id

theorem calm_refl (nd : Node) : Calm nd nd := calm_records nd nd rfl rfl rfl

theorem calm_trans (nd nd' nd'' : Node) (h : Calm nd nd') (h' : Calm nd' nd'') : Calm nd nd'' := by
  refine ⟨fun r => ?_, fun c hc => h'.closed c (h.closed c hc),
    fun c hc hi => h'.incoming c (h.closed c hc) (h.incoming c hc hi)⟩
  have hp := h.records r
  have hp' := h'.records r
  refine ⟨fun hr => hp'.removed (hp.removed hr), hp'.dial.trans hp.dial, fun hn => ?_,
    fun hs => hp'.slot (hp.slot hs)⟩
  exact (hp.notified hn).elim (fun hr => Or.inl (hp'.removed hr)) hp'.notified

theorem calm_setPeer (nd : Node) (r : ℕ) (peer : Peer) (h : PeerCalm (nd.records r) peer) :
    Calm nd (nd.setPeer r peer) := by
  refine ⟨fun r' => ?_, fun _ => id, fun _ _ => id⟩
  by_cases hr : r' = r
  · subst hr
    simpa [Node.setPeer] using h
  · simpa [Node.setPeer, Function.update_of_ne hr] using peerCalm_refl _

theorem calm_close (nd : Node) (conns : List ℕ) : Calm nd (nd.close conns) :=
  ⟨fun _ => peerCalm_refl _, fun _ hc => by simp [Node.close, hc], fun _ _ => id⟩

theorem rests_calm (nd nd' : Node) (h : Calm nd nd') (task : Task) (hrest : rests nd task) :
    rests nd' task := by
  cases task with
  | loop r pc =>
    have hp := h.records r
    cases pc with
    | serving conn =>
      obtain ⟨hquiet, hclosed, hempty⟩ := hrest
      exact ⟨quiet_calm _ _ hp hquiet, h.closed conn hclosed, h.incoming conn hclosed hempty⟩
    | parked => exact hrest.elim (fun hr => Or.inl (hp.removed hr)) hp.notified
    | waiting => exact ⟨hp.removed hrest.1, hp.slot hrest.2⟩
    | dialing => exact hrest.elim
    | dialed conn => exact hrest.elim
    | top => exact ⟨quiet_calm _ _ hp hrest.1, hp.slot hrest.2⟩
    | opening => exact ⟨quiet_calm _ _ hp hrest.1, hp.slot hrest.2⟩
    | announcing => exact ⟨quiet_calm _ _ hp hrest.1, hp.slot hrest.2⟩
  | inbound r conn => exact hrest
  | update r pc => exact hrest
  | enrolling conn label ports => exact hrest
  | admitting label dial => trivial
  | inserting label dial => exact hrest
  | forget pc => trivial
  | ended => trivial

/-- What one step of a task at rest may do. Only a step that admits the key, and
so ends every forget, leaves a task that is not at rest. -/
structure Kept (nd : Node) (out : Outcome) : Prop where
  calm : Calm nd out.node
  task : out.node.forgotten = true → rests out.node out.task
  spawned : out.spawned = []
  effects : out.effects = []

theorem kept_same (nd : Node) (task : Task) (h : rests nd task) : Kept nd ⟨nd, task, [], []⟩ :=
  ⟨calm_refl nd, fun _ => h, rfl, rfl⟩

theorem disconnected_rests (nd : Node) (r : ℕ) (h : quiet (nd.records r)) :
    rests nd (disconnected nd r) := by
  unfold disconnected
  dsimp only
  split_ifs with hremoved hdial
  · trivial
  · rcases h with h | ⟨h, -⟩
    · exact absurd h hremoved
    · rw [h] at hdial
      cases hdial
  · exact h.imp id And.right

theorem calm_woken (nd : Node) (r : ℕ) :
    Calm nd (nd.setPeer r { nd.records r with notified := false }) :=
  calm_setPeer nd r _ ⟨id, rfl, fun _ => Or.inr rfl, id⟩

section
variable {K : Type} [LinearOrder K] (ours theirs : K) (shown : K → String)

theorem loop_kept (nd : Node) (r : ℕ) (pc : LoopPc) (choice : Choice) (out : Outcome)
    (hrest : loopRests nd r pc) (h : peerConnectionLoop ours theirs nd r pc choice = some out) :
    Kept nd out := by
  cases pc with
  | top =>
    cases choice with
    | go =>
      simp only [peerConnectionLoop, hrest.2] at h
      obtain rfl := Option.some.inj h
      exact kept_same nd _ (disconnected_rests nd r hrest.1)
    | _ => simp [peerConnectionLoop] at h
  | opening =>
    cases choice with
    | go =>
      simp only [peerConnectionLoop, hrest.2] at h
      obtain rfl := Option.some.inj h
      exact kept_same nd _ (disconnected_rests nd r hrest.1)
    | _ => simp [peerConnectionLoop] at h
  | serving conn =>
    cases choice with
    | accept => simp [peerConnectionLoop, hrest.2.2] at h
    | fail =>
      simp only [peerConnectionLoop] at h
      split_ifs at h
      obtain rfl := Option.some.inj h
      exact kept_same nd _ (disconnected_rests nd r hrest.1)
    | _ => simp [peerConnectionLoop] at h
  | parked =>
    cases choice with
    | notified =>
      simp only [peerConnectionLoop] at h
      split at h
      · rename_i hnotified
        -- a parked loop with a notice to take up rests only because of the mark
        have hremoved : (nd.records r).removed = true := by
          rcases hrest with hremoved | hnone
          · exact hremoved
          · rw [hnone] at hnotified
            cases hnotified
        rw [if_pos hremoved] at h
        obtain rfl := Option.some.inj h
        exact ⟨calm_woken nd r, fun _ => trivial, rfl, rfl⟩
      · cases h
    | _ => simp [peerConnectionLoop] at h
  | waiting =>
    cases choice with
    | notified =>
      simp only [peerConnectionLoop] at h
      split_ifs at h
      obtain rfl := Option.some.inj h
      have hp := (calm_woken nd r).records r
      exact ⟨calm_woken nd r, fun _ => ⟨Or.inl (hp.removed hrest.1), hp.slot hrest.2⟩, rfl, rfl⟩
    | go =>
      simp only [peerConnectionLoop, hrest.1, if_true] at h
      obtain rfl := Option.some.inj h
      exact kept_same nd _ trivial
    | _ => simp [peerConnectionLoop] at h
  | dialing => exact hrest.elim
  | dialed conn => exact hrest.elim
  | announcing =>
    cases choice with
    | go =>
      obtain rfl := Option.some.inj h
      exact kept_same nd _ hrest
    | _ => simp [peerConnectionLoop] at h

omit [LinearOrder K] in
theorem update_kept (nd : Node) (i r : ℕ) (pc : UpdatePc) (choice : Choice) (out : Outcome)
    (hrest : updateRests pc) (h : updatePeerPorts theirs shown nd i r pc choice = some out) :
    Kept nd out := by
  cases pc with
  | reading ports =>
    cases choice with
    | go =>
      obtain rfl := Option.some.inj h
      exact kept_same nd _ hrest
    | fail =>
      obtain rfl := Option.some.inj h
      exact kept_same nd _ trivial
    | _ => simp [updatePeerPorts] at h
  | queued ports =>
    cases choice with
    | go =>
      simp only [updatePeerPorts] at h
      split_ifs at h
      obtain rfl := Option.some.inj h
      exact ⟨calm_records nd _ rfl rfl rfl, fun _ => hrest, rfl, rfl⟩
    | _ => simp [updatePeerPorts] at h
  | releasing ports todo =>
    cases todo with
    | nil =>
      cases choice with
      | go =>
        simp only [updatePeerPorts] at h
        split at h
        · obtain rfl := Option.some.inj h
          exact kept_same nd _ hrest
        · have hempty : ports = [] := hrest
          rw [if_pos hempty] at h
          obtain rfl := Option.some.inj h
          exact kept_same nd _ trivial
      | _ => simp [updatePeerPorts] at h
    | cons port todo =>
      cases choice with
      | go =>
        obtain rfl := Option.some.inj h
        exact ⟨calm_setPeer nd r _ ⟨id, rfl, Or.inr, id⟩, fun _ => hrest, rfl, rfl⟩
      | _ => simp [updatePeerPorts] at h
  | claiming ports => exact hrest.elim
  | placing ports surface => exact hrest.elim
  | binding ports ip todo =>
    obtain rfl : todo = [] := hrest
    cases choice with
    | go =>
      obtain rfl := Option.some.inj h
      exact kept_same nd _ trivial
    | _ => simp [updatePeerPorts] at h
  | recording ports =>
    cases choice with
    | go =>
      obtain rfl := Option.some.inj h
      refine ⟨calm_trans nd _ _ (calm_setPeer nd r _ ?_) (calm_records _ _ rfl rfl rfl),
        fun _ => trivial, rfl, rfl⟩
      exact ⟨id, rfl, Or.inr, id⟩
    | _ => simp [updatePeerPorts] at h

theorem evict_kept (nd : Node) (i : ℕ) (pc : ForgetPc) (choice : Choice) (out : Outcome)
    (h : evict nd i pc choice = some out) : Kept nd out := by
  cases pc with
  | queued =>
    simp only [evict] at h
    split_ifs at h
    split at h <;> obtain rfl := Option.some.inj h <;>
      exact ⟨calm_records nd _ rfl rfl rfl, fun _ => trivial, rfl, rfl⟩
  | marking r =>
    cases choice with
    | go =>
      obtain rfl := Option.some.inj h
      refine ⟨calm_setPeer nd r _ ?_, fun _ => trivial, rfl, rfl⟩
      exact ⟨fun _ => rfl, rfl, fun _ => Or.inl rfl, id⟩
    | _ => simp [evict] at h
  | closing r =>
    cases choice with
    | go =>
      obtain rfl := Option.some.inj h
      refine ⟨calm_trans nd _ _ (calm_setPeer nd r _ ?_) (calm_close _ _), fun _ => trivial,
        rfl, rfl⟩
      exact ⟨id, rfl, Or.inr, fun _ => rfl⟩
    | _ => simp [evict] at h
  | releasing r todo =>
    cases todo with
    | nil =>
      obtain rfl := Option.some.inj h
      refine ⟨calm_trans nd _ _ (calm_setPeer nd r _ ?_) (calm_records _ _ rfl rfl rfl),
        fun _ => trivial, rfl, rfl⟩
      exact ⟨id, rfl, Or.inr, id⟩
    | cons port todo =>
      cases choice with
      | go =>
        obtain rfl := Option.some.inj h
        exact ⟨calm_setPeer nd r _ ⟨id, rfl, Or.inr, id⟩, fun _ => trivial, rfl, rfl⟩
      | _ => simp [evict] at h

theorem admit_kept (nd : Node) (label : Option String) (dial : Bool) (choice : Choice)
    (out : Outcome) (h : admitStep nd label dial choice = some out) : Kept nd out := by
  cases choice with
  | go =>
    obtain rfl := Option.some.inj h
    exact ⟨calm_records nd _ rfl rfl rfl, nofun, rfl, rfl⟩
  | _ => simp [admitStep] at h

theorem task_kept (nd : Node) (i : ℕ) (task : Task) (choice : Choice) (out : Outcome)
    (hrest : rests nd task) (h : taskStep ours theirs shown nd i task choice = some out) :
    Kept nd out := by
  cases task with
  | loop r pc => exact loop_kept ours theirs nd r pc choice out hrest h
  | inbound r conn => exact hrest.elim
  | update r pc => exact update_kept theirs shown nd i r pc choice out hrest h
  | enrolling conn label ports => exact hrest.elim
  | admitting label dial => exact admit_kept nd label dial choice out h
  | inserting label dial => exact hrest.elim
  | forget pc => exact evict_kept nd i pc choice out h
  | ended => cases h

theorem atRest_calm (sys : System) (nd : Node) (tasks : List Task) (hall : AtRest sys)
    (hcalm : Calm sys.node nd) (hnew : ∀ task ∈ tasks, task ∈ sys.tasks ∨ rests nd task) :
    AtRest ⟨nd, tasks⟩ := by
  intro task ht
  rcases hnew task ht with hold | hrest
  · exact rests_calm sys.node nd hcalm task (hall task hold)
  · exact hrest

theorem atRest_run (sys : System) (i : ℕ) (task : Task) (choice : Choice) (out : Outcome)
    (hall : AtRest sys) (htask : sys.tasks[i]? = some task)
    (h : taskStep ours theirs shown sys.node i task choice = some out) :
    (out.node.forgotten = true → AtRest ⟨out.node, sys.tasks.set i out.task ++ out.spawned⟩) ∧
      out.effects = [] := by
  have hkept := task_kept ours theirs shown sys.node i task choice out
    (hall task (List.mem_of_getElem? htask)) h
  refine ⟨fun hf => atRest_calm sys out.node _ hall hkept.calm fun t ht => ?_, hkept.effects⟩
  rw [hkept.spawned, List.append_nil] at ht
  rcases List.mem_or_eq_of_mem_set ht with hold | rfl
  · exact Or.inl hold
  · exact Or.inr (hkept.task hf)

/-- No step of a task puts a forget in force but the last of a forget, and where
one is in force after the step the step did not admit the key. -/
theorem task_forgotten (nd : Node) (i : ℕ) (task : Task) (choice : Choice) (out : Outcome)
    (h : taskStep ours theirs shown nd i task choice = some out)
    (hforgotten : out.node.forgotten = true) :
    (returns nd task ∨ nd.forgotten = true) ∧ (out.node.admitted = true →
      nd.forgotten = true ∧ nd.admitted = true) := by
  revert h hforgotten
  cases task with
  | loop r pc =>
    simp only [taskStep]
    fun_cases peerConnectionLoop ours theirs nd r pc choice <;> rintro ⟨⟩ hf <;>
      exact ⟨Or.inr hf, fun ha => ⟨hf, ha⟩⟩
  | inbound r conn =>
    simp only [taskStep]
    fun_cases inboundStep ours theirs nd r conn choice <;> rintro ⟨⟩ hf <;>
      exact ⟨Or.inr hf, fun ha => ⟨hf, ha⟩⟩
  | update r pc =>
    simp only [taskStep]
    fun_cases updatePeerPorts theirs shown nd i r pc choice <;> rintro ⟨⟩ hf <;>
      exact ⟨Or.inr hf, fun ha => ⟨hf, ha⟩⟩
  | enrolling conn label ports =>
    simp only [taskStep]
    fun_cases enrollStep nd conn label ports choice <;> rintro ⟨⟩ hf
    exact ⟨Or.inr hf, fun ha => ⟨hf, ha⟩⟩
  | admitting label dial =>
    simp only [taskStep]
    fun_cases admitStep nd label dial choice <;> rintro ⟨⟩ hf
    cases hf
  | inserting label dial =>
    simp only [taskStep]
    fun_cases insertStep nd label dial choice <;> rintro ⟨⟩ hf
    exact ⟨Or.inr hf, fun ha => ⟨hf, ha⟩⟩
  | forget pc =>
    simp only [taskStep]
    fun_cases evict nd i pc choice <;> rintro ⟨⟩ hf <;>
      simp_all [returns, Node.dropKey, Node.setPeer, Node.close]
  | ended => rintro ⟨⟩

def Inv (sys : System) : Prop :=
  sys.node.forgotten = true → sys.node.admitted = false ∧ AtRest sys

theorem inv_step (sys sys' : System) (ev : Event) (effects : List (ℕ × Effect))
    (hinv : Inv sys) (h : step ours theirs shown sys ev = some (sys', effects)) :
    (Careful sys ev → Inv sys') ∧ (sys.node.forgotten = true → effects = []) := by
  cases ev with
  | add label dial =>
    simp only [step] at h
    split at h
    · cases h
    · obtain ⟨rfl, rfl⟩ := Prod.mk.inj (Option.some.inj h)
      refine ⟨fun _ hf => ⟨(hinv hf).1, ?_⟩, fun _ => rfl⟩
      refine atRest_calm sys _ _ (hinv hf).2 (calm_refl _) fun task ht => ?_
      rcases List.mem_append.mp ht with ht | ht
      · exact Or.inl ht
      · obtain rfl := List.mem_singleton.mp ht
        exact Or.inr trivial
  | claim label ports =>
    obtain ⟨rfl, rfl⟩ := Prod.mk.inj (Option.some.inj h)
    refine ⟨fun _ hf => ?_, fun _ => rfl⟩
    cases hf
  | inbound =>
    simp only [step] at h
    split at h
    · rename_i hadmitted _
      obtain ⟨rfl, rfl⟩ := Prod.mk.inj (Option.some.inj h)
      refine ⟨fun _ hf => ?_, fun _ => rfl⟩
      have hout := (hinv hf).1
      rw [hadmitted] at hout
      cases hout
    · obtain ⟨rfl, rfl⟩ := Prod.mk.inj (Option.some.inj h)
      refine ⟨fun _ hf => ⟨(hinv hf).1, ?_⟩, fun _ => rfl⟩
      exact atRest_calm sys _ _ (hinv hf).2 (calm_records _ _ rfl rfl rfl) fun _ => Or.inl
  | receive conn stream =>
    simp only [step] at h
    split_ifs at h with hopen
    obtain ⟨rfl, rfl⟩ := Prod.mk.inj (Option.some.inj h)
    refine ⟨fun _ hf => ⟨(hinv hf).1, ?_⟩, fun _ => rfl⟩
    refine atRest_calm sys _ _ (hinv hf).2 ⟨fun _ => peerCalm_refl _, fun _ => id, ?_⟩ fun _ => Or.inl
    intro c hclosed hempty
    have hne : c ≠ conn := by
      rintro rfl
      exact hopen hclosed
    simpa [Function.update_of_ne hne] using hempty
  | lose conn =>
    obtain ⟨rfl, rfl⟩ := Prod.mk.inj (Option.some.inj h)
    refine ⟨fun _ hf => ⟨(hinv hf).1, ?_⟩, fun _ => rfl⟩
    exact atRest_calm sys _ _ (hinv hf).2 (calm_close _ _) fun _ => Or.inl
  | forget =>
    simp only [step] at h
    split at h
    · obtain ⟨rfl, rfl⟩ := Prod.mk.inj (Option.some.inj h)
      refine ⟨fun _ hf => ⟨(hinv hf).1, ?_⟩, fun _ => rfl⟩
      refine atRest_calm sys _ _ (hinv hf).2 (calm_refl _) fun task ht => ?_
      rcases List.mem_append.mp ht with ht | ht
      · exact Or.inl ht
      · obtain rfl := List.mem_singleton.mp ht
        exact Or.inr trivial
    · cases h
  | run i choice =>
    simp only [step] at h
    split at h
    · cases h
    · rename_i task htask
      obtain ⟨out, hout, heq⟩ := Option.map_eq_some_iff.mp h
      obtain ⟨rfl, rfl⟩ := Prod.mk.inj heq
      refine ⟨fun hcare hf => ?_, fun hf =>
        (atRest_run ours theirs shown sys i task choice out (hinv hf).2 htask hout).2⟩
      obtain ⟨hwhy, hword⟩ := task_forgotten ours theirs shown sys.node i task choice out hout hf
      have hall : AtRest sys := by
        rcases hwhy with hreturns | hold
        · exact hcare task htask hreturns
        · exact (hinv hold).2
      refine ⟨?_, (atRest_run ours theirs shown sys i task choice out hall htask hout).1 hf⟩
      by_contra hadmitted
      obtain ⟨hold, ha⟩ := hword (by simpa using hadmitted)
      rw [(hinv hold).1] at ha
      cases ha

/-- After this run a forget that has returned is final: as long as the key was
not admitted again, whatever the next step is, no connection is installed or
served on an evicted record, no surface set on it, no address or name claimed
and no port bound for it, and no surface record is written for the key on
account of any record. -/
def FinalAfter (evs : List Event) : Prop :=
  ∀ sys, Reached ours theirs shown evs sys → sys.node.forgotten = true →
    ∀ ev sys' effects, step ours theirs shown sys ev = some (sys', effects) →
      ∀ r e, (r, e) ∈ effects →
        (sys.node.records r).removed = false ∧ ∀ surface, e ≠ .persist surface

/-- In a run whose forgets each return with the key at rest, every one of them
is final at every point of the run. -/
theorem forget_final (evs : List Event) (hcare : Along (next ours theirs shown) Careful {} evs) :
    FinalAfter ours theirs shown evs := by
  intro sys h hforgotten ev sys' effects hstep r e he
  have hinv : Inv sys := by
    refine along_invariant (next ours theirs shown) Careful Inv ?_ {} (by rintro ⟨⟩) evs hcare sys h
    intro s ev t hok hs ht
    obtain ⟨⟨t', effects'⟩, hst, rfl⟩ := Option.map_eq_some_iff.mp ht
    exact (inv_step ours theirs shown s t' ev effects' hs hst).1 hok
  have hnone := (inv_step ours theirs shown sys sys' ev effects hinv hstep).2 hforgotten
  rw [hnone] at he
  cases he

end

def forgottenWaiting : List Event :=
  [.add (some "rustdev") true, .run 0 .go, .run 0 .go, .run 1 .go, .forget, .run 2 .go, .run 2 .go,
    .run 2 .go, .run 2 .go, .run 1 .go]

theorem waiting_forget_final :
    (∃ sys, Reached (1 : ℕ) 2 (fun _ => "") forgottenWaiting sys ∧ sys.node.forgotten = true) ∧
    FinalAfter (1 : ℕ) 2 (fun _ => "") forgottenWaiting := by
  refine ⟨⟨_, rfl, rfl⟩, ?_⟩
  apply forget_final
  refine ⟨trivial, ?_⟩
  rintro _ ⟨⟩
  refine ⟨by rintro _ ⟨⟩ ⟨⟩, ?_⟩
  rintro _ ⟨⟩
  refine ⟨by rintro _ ⟨⟩ ⟨⟩, ?_⟩
  rintro _ ⟨⟩
  refine ⟨by rintro _ ⟨⟩ ⟨⟩, ?_⟩
  rintro _ ⟨⟩
  refine ⟨trivial, ?_⟩
  rintro _ ⟨⟩
  refine ⟨by rintro _ ⟨⟩ ⟨⟩, ?_⟩
  rintro _ ⟨⟩
  refine ⟨by rintro _ ⟨⟩ ⟨⟩, ?_⟩
  rintro _ ⟨⟩
  refine ⟨by rintro _ ⟨⟩ ⟨⟩, ?_⟩
  rintro _ ⟨⟩
  refine ⟨?_, ?_⟩
  · rintro _ ⟨⟩ -
    intro task ht
    rcases List.mem_cons.mp ht with rfl | ht
    · trivial
    rcases List.mem_cons.mp ht with rfl | ht
    · exact ⟨rfl, rfl⟩
    · obtain rfl := List.mem_singleton.mp ht
      trivial
  rintro _ ⟨⟩
  refine ⟨by rintro _ ⟨⟩ ⟨⟩, ?_⟩
  rintro _ ⟨⟩
  trivial

def queuedAnnouncement : List Event :=
  [.add (some "rustdev") true, .run 0 .go, .run 0 .go, .inbound, .run 2 .go, .run 1 .go, .run 1 .go,
    .receive 0 (.exposedPorts [80]), .run 1 .accept, .run 3 .go,
    .forget, .run 4 .go, .run 4 .go, .run 4 .go, .run 4 .go, .run 3 .go, .run 3 .go]

theorem queued_announcement_claims :
    ¬ FinalAfter (1 : ℕ) 2 (fun _ => "") queuedAnnouncement := by
  intro h
  have hclaim := h _ rfl rfl (.run 3 (.allocated 2)) _ _ rfl 0 _ (List.mem_cons_self ..)
  cases hclaim.1

end PaiSho.Forget
