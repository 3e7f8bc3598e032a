import PaiSho.RecordInvariant
import PaiSho.Forget

/-!
# The records of a key, step by step

Each task of the machine moves the records in one of the ways the invariant
allows: a loop, an inbound handler and an announcement leave the table alone, an
enrollment and an accept enter a record, a forget takes one out and marks it.
-/

set_option autoImplicit false

namespace PaiSho.RecordSteps
open Library.TaskLists
open GrantTable (Port)
open PeerTasks RecordInvariant

section
variable {K : Type} [LinearOrder K] (ours theirs : K) (shown : K → String)

theorem meet_plain (nd : Node) (r conn : ℕ) (dialedByUs : Bool) :
    Plain nd (meet ours theirs nd r conn dialedByUs).1 := by
  have h := plain_same nd r { nd.records r with slot := (if dialedByUs then
    DialLink.dialResult ours theirs (fun c => !nd.closed c) (nd.records r).slot conn else
    DialLink.handleConnection ours theirs (fun c => !nd.closed c) (nd.records r).slot conn).1 }
    rfl rfl rfl
  exact ⟨h.peers, h.fresh, h.removed, h.surface, h.bindings⟩

theorem disconnected_kind (nd : Node) (r : ℕ) :
    disconnected nd r = .ended ∨ ∃ pc, disconnected nd r = .loop r pc := by
  unfold disconnected
  dsimp only
  split_ifs
  · exact Or.inl rfl
  · exact Or.inr ⟨.waiting, rfl⟩
  · exact Or.inr ⟨.parked, rfl⟩

/-- What a step of a loop leaves: it goes on as the loop of its record or ends,
and all it spawns are handlers of announcements. -/
structure LoopStep (nd : Node) (r : ℕ) (out : Outcome) : Prop where
  plain : Plain nd out.node
  lock : out.node.bindLock = nd.bindLock
  task : out.task = .ended ∨ ∃ pc, out.task = .loop r pc
  spawned : ∀ t ∈ out.spawned, ∃ r ports, t = .update r (.reading ports)

theorem loopStep_stay (nd : Node) (r : ℕ) (task : Task) (effects : List (ℕ × Effect))
    (h : task = .ended ∨ ∃ pc, task = .loop r pc) : LoopStep nd r ⟨nd, task, [], effects⟩ :=
  ⟨plain_refl nd, rfl, h, by simp⟩

theorem loopStep_goes (nd nd' : Node) (r : ℕ) (pc : LoopPc) (effects : List (ℕ × Effect))
    (hplain : Plain nd nd') (hlock : nd'.bindLock = nd.bindLock) :
    LoopStep nd r ⟨nd', .loop r pc, [], effects⟩ :=
  ⟨hplain, hlock, Or.inr ⟨pc, rfl⟩, by simp⟩

theorem goes_unless_removed (removed : Bool) (r : ℕ) (pc : LoopPc) :
    (if removed then Task.ended else .loop r pc) = .ended ∨
      ∃ pc', (if removed then Task.ended else .loop r pc) = .loop r pc' := by
  cases removed with
  | true => exact Or.inl rfl
  | false => exact Or.inr ⟨pc, rfl⟩

theorem loop_plain (nd : Node) (r : ℕ) (pc : LoopPc) (choice : Choice) (out : Outcome)
    (h : peerConnectionLoop ours theirs nd r pc choice = some out) : LoopStep nd r out := by
  have hgone := disconnected_kind nd r
  have hwoken := plain_same nd r { nd.records r with notified := false } rfl rfl rfl
  cases pc with
  | top =>
    cases choice with
    | go =>
      simp only [peerConnectionLoop] at h
      split_ifs at h
      · obtain rfl := Option.some.inj h
        exact loopStep_stay nd r _ _ (Or.inr ⟨.opening, rfl⟩)
      · obtain rfl := Option.some.inj h
        exact loopStep_stay nd r _ _ hgone
    | _ => simp [peerConnectionLoop] at h
  | opening =>
    cases choice with
    | go =>
      simp only [peerConnectionLoop] at h
      split at h
      · obtain rfl := Option.some.inj h
        exact loopStep_stay nd r _ _ (Or.inr ⟨_, rfl⟩)
      · obtain rfl := Option.some.inj h
        exact loopStep_stay nd r _ _ hgone
    | _ => simp [peerConnectionLoop] at h
  | serving conn =>
    cases choice with
    | accept =>
      simp only [peerConnectionLoop] at h
      split at h
      · cases h
      · -- the stream leaves the queue, and a list of ports starts a handler
        have htaken : ∀ incoming, Plain nd { nd with incoming := incoming } := fun _ =>
          ⟨rfl, rfl, fun _ => rfl, fun _ _ => rfl, fun _ _ _ => id⟩
        split at h
        · obtain rfl := Option.some.inj h
          exact ⟨htaken _, rfl, Or.inr ⟨_, rfl⟩, by simp⟩
        · obtain rfl := Option.some.inj h
          exact loopStep_goes nd _ r _ _ (htaken _) rfl
    | fail =>
      simp only [peerConnectionLoop] at h
      split_ifs at h
      obtain rfl := Option.some.inj h
      exact loopStep_stay nd r _ _ hgone
    | _ => simp [peerConnectionLoop] at h
  | parked =>
    cases choice with
    | notified =>
      simp only [peerConnectionLoop] at h
      split at h
      · obtain rfl := Option.some.inj h
        exact ⟨hwoken, rfl, goes_unless_removed _ r .top, by simp⟩
      · cases h
    | _ => simp [peerConnectionLoop] at h
  | waiting =>
    cases choice with
    | notified =>
      simp only [peerConnectionLoop] at h
      split_ifs at h
      obtain rfl := Option.some.inj h
      exact loopStep_goes nd _ r _ _ hwoken rfl
    | go =>
      obtain rfl := Option.some.inj h
      exact loopStep_stay nd r _ _ (goes_unless_removed _ r .dialing)
    | _ => simp [peerConnectionLoop] at h
  | dialing =>
    cases choice with
    | fail =>
      obtain rfl := Option.some.inj h
      exact loopStep_stay nd r _ _ (goes_unless_removed _ r .waiting)
    | connected =>
      obtain rfl := Option.some.inj h
      exact loopStep_goes nd _ r _ _ ⟨rfl, rfl, fun _ => rfl, fun _ _ => rfl, fun _ _ _ => id⟩ rfl
    | _ => simp [peerConnectionLoop] at h
  | dialed conn =>
    cases choice with
    | go =>
      have hmeet := meet_plain ours theirs nd r conn true
      simp only [peerConnectionLoop] at h
      split_ifs at h
      · obtain rfl := Option.some.inj h
        exact loopStep_goes nd _ r _ _ hmeet rfl
      · obtain rfl := Option.some.inj h
        exact loopStep_goes nd _ r _ _ hmeet rfl
    | _ => simp [peerConnectionLoop] at h
  | announcing =>
    cases choice with
    | go =>
      obtain rfl := Option.some.inj h
      exact loopStep_stay nd r _ _ (Or.inr ⟨.top, rfl⟩)
    | _ => simp [peerConnectionLoop] at h

theorem inbound_plain (nd : Node) (r conn : ℕ) (choice : Choice) (out : Outcome)
    (h : inboundStep ours theirs nd r conn choice = some out) :
    Plain nd out.node ∧ out.node.bindLock = nd.bindLock ∧ out.task = .ended ∧ out.spawned = [] := by
  have hmeet := meet_plain ours theirs nd r conn false
  cases choice with
  | go =>
    simp only [inboundStep] at h
    split_ifs at h
    · obtain rfl := Option.some.inj h
      have hset := plain_same (meet ours theirs nd r conn false).1 r
        { (meet ours theirs nd r conn false).1.records r with dial := true, notified := true }
        rfl rfl rfl
      refine ⟨⟨hset.peers.trans hmeet.peers, hset.fresh.trans hmeet.fresh,
        fun r' => (hset.removed r').trans (hmeet.removed r'), fun r' hr' => ?_, fun r' hr' => ?_⟩,
        rfl, rfl, rfl⟩
      · exact (hset.surface r' ((hmeet.removed r').trans hr')).trans (hmeet.surface r' hr')
      · intro port hp
        exact hmeet.bindings r' hr' port (hset.bindings r' ((hmeet.removed r').trans hr') port hp)
    · obtain rfl := Option.some.inj h
      exact ⟨hmeet, rfl, rfl, rfl⟩
  | _ => simp [inboundStep] at h

structure Updated (nd : Node) (i r : ℕ) (pc : UpdatePc) (out : Outcome) : Prop where
  plain : Plain nd out.node
  task : out.task = .ended ∨ ∃ pc', out.task = .update r pc' ∧
    (stirs pc' → (nd.records r).removed = false)
  spawned : out.spawned = []
  lock : (out.node.bindLock = nd.bindLock ∧ (holds out.task → holds (.update r pc))) ∨
    (nd.bindLock = none ∧ out.node.bindLock = some i) ∨
    (holds (.update r pc) ∧ ¬ holds out.task)

theorem updated_on (nd nd' : Node) (i r : ℕ) (pc pc' : UpdatePc) (effects : List (ℕ × Effect))
    (hplain : Plain nd nd') (hlock : nd'.bindLock = nd.bindLock) (hheld : holds (.update r pc))
    (hstir : stirs pc' → (nd.records r).removed = false) :
    Updated nd i r pc ⟨nd', .update r pc', [], effects⟩ :=
  ⟨hplain, Or.inr ⟨pc', rfl, hstir⟩, rfl, Or.inl ⟨hlock, fun _ => hheld⟩⟩

theorem plain_live (nd : Node) (r : ℕ) (peer : Peer) (hlive : (nd.records r).removed = false)
    (hsame : peer.removed = (nd.records r).removed) : Plain nd (nd.setPeer r peer) := by
  have hno : ¬ (nd.records r).removed = true := by simp [hlive]
  exact plain_setPeer nd r peer hsame (fun hr => absurd hr hno) (fun hr => absurd hr hno)

omit [LinearOrder K] in
theorem update_waits (nd : Node) (i r : ℕ) (pc : UpdatePc) (choice : Choice) (out : Outcome)
    (hpc : ¬ holds (.update r pc))
    (hqueued : ∀ ports, pc = .queued ports → (nd.records r).removed = false ∨ ports = [])
    (h : updatePeerPorts theirs shown nd i r pc choice = some out) : Updated nd i r pc out := by
  cases pc with
  | reading ports =>
    cases choice with
    | go =>
      obtain rfl := Option.some.inj h
      exact ⟨plain_refl nd, Or.inr ⟨_, rfl, fun hs => hs.elim⟩, rfl, Or.inl ⟨rfl, id⟩⟩
    | fail =>
      obtain rfl := Option.some.inj h
      exact ⟨plain_refl nd, Or.inl rfl, rfl, Or.inl ⟨rfl, id⟩⟩
    | _ => simp [updatePeerPorts] at h
  | queued ports =>
    cases choice with
    | go =>
      simp only [updatePeerPorts] at h
      split_ifs at h with hfree
      obtain rfl := Option.some.inj h
      refine ⟨⟨rfl, rfl, fun _ => rfl, fun _ _ => rfl, fun _ _ _ => id⟩, Or.inr ⟨_, rfl, ?_⟩, rfl,
        Or.inr (Or.inl ⟨hfree, rfl⟩)⟩
      intro hports
      exact (hqueued ports rfl).resolve_right hports
    | _ => simp [updatePeerPorts] at h
  | _ => exact absurd trivial hpc

omit [LinearOrder K] in
theorem update_releases (nd : Node) (i r : ℕ) (ports todo : List Port) (choice : Choice)
    (out : Outcome) (hstir : ports ≠ [] → (nd.records r).removed = false)
    (h : updatePeerPorts theirs shown nd i r (.releasing ports todo) choice = some out) :
    Updated nd i r (.releasing ports todo) out := by
  cases todo with
  | nil =>
    cases choice with
    | go =>
      simp only [updatePeerPorts] at h
      split at h
      · obtain rfl := Option.some.inj h
        exact updated_on nd nd i r _ _ _ (plain_refl nd) rfl trivial hstir
      · split_ifs at h with hports
        · obtain rfl := Option.some.inj h
          exact updated_on nd nd i r _ _ _ (plain_refl nd) rfl trivial fun hs => hs.elim
        · obtain rfl := Option.some.inj h
          exact updated_on nd nd i r _ _ _ (plain_refl nd) rfl trivial fun _ => hstir hports
    | _ => simp [updatePeerPorts] at h
  | cons port todo =>
    cases choice with
    | go =>
      obtain rfl := Option.some.inj h
      refine updated_on nd _ i r _ _ _ ?_ rfl trivial hstir
      exact plain_setPeer nd r _ rfl (fun _ => rfl) fun _ p hp => (List.mem_filter.mp hp).1
    | _ => simp [updatePeerPorts] at h

omit [LinearOrder K] in
theorem update_binds (nd : Node) (i r : ℕ) (ports : List Port) (ip : ℕ) (todo : List Port)
    (choice : Choice) (out : Outcome) (hstir : todo ≠ [] → (nd.records r).removed = false)
    (h : updatePeerPorts theirs shown nd i r (.binding ports ip todo) choice = some out) :
    Updated nd i r (.binding ports ip todo) out := by
  cases todo with
  | nil =>
    cases choice with
    | go =>
      obtain rfl := Option.some.inj h
      exact updated_on nd nd i r _ _ _ (plain_refl nd) rfl trivial fun hs => hs.elim
    | _ => simp [updatePeerPorts] at h
  | cons port todo =>
    have hlive := hstir (List.cons_ne_nil _ _)
    cases choice with
    | go =>
      simp only [updatePeerPorts] at h
      split_ifs at h
      · obtain rfl := Option.some.inj h
        exact updated_on nd nd i r _ _ _ (plain_refl nd) rfl trivial fun _ => hlive
      · obtain rfl := Option.some.inj h
        exact updated_on nd _ i r _ _ _ (plain_live nd r _ hlive rfl) rfl trivial fun _ => hlive
    | fail =>
      obtain rfl := Option.some.inj h
      exact updated_on nd nd i r _ _ _ (plain_refl nd) rfl trivial fun _ => hlive
    | _ => simp [updatePeerPorts] at h

omit [LinearOrder K] in
theorem update_plain (nd : Node) (i r : ℕ) (pc : UpdatePc) (choice : Choice) (out : Outcome)
    (hstir : stirs pc → (nd.records r).removed = false)
    (hqueued : ∀ ports, pc = .queued ports → (nd.records r).removed = false ∨ ports = [])
    (h : updatePeerPorts theirs shown nd i r pc choice = some out) : Updated nd i r pc out := by
  cases pc with
  | reading ports => exact update_waits theirs shown nd i r _ choice out id hqueued h
  | queued ports => exact update_waits theirs shown nd i r _ choice out id hqueued h
  | releasing ports todo => exact update_releases theirs shown nd i r ports todo choice out hstir h
  | claiming ports =>
    cases choice with
    | allocated ip =>
      obtain rfl := Option.some.inj h
      exact updated_on nd nd i r _ _ _ (plain_refl nd) rfl trivial fun _ => hstir trivial
    | fail =>
      obtain rfl := Option.some.inj h
      exact updated_on nd nd i r _ _ _ (plain_refl nd) rfl trivial fun hs => hs.elim
    | _ => simp [updatePeerPorts] at h
  | placing ports surface =>
    have hlive := hstir trivial
    have hplain := plain_live nd r { nd.records r with surface := some surface } hlive rfl
    cases choice with
    | go =>
      obtain rfl := Option.some.inj h
      refine updated_on nd _ i r _ _ _ ?_ rfl trivial fun _ => hlive
      exact ⟨rfl, rfl, hplain.removed, hplain.surface, hplain.bindings⟩
    | fail =>
      obtain rfl := Option.some.inj h
      exact updated_on nd _ i r _ _ _ hplain rfl trivial fun _ => hlive
    | _ => simp [updatePeerPorts] at h
  | binding ports ip todo =>
    exact update_binds theirs shown nd i r ports ip todo choice out hstir h
  | recording ports =>
    cases choice with
    | go =>
      obtain rfl := Option.some.inj h
      have hplain := plain_same nd r { nd.records r with exposedPorts := ports } rfl rfl rfl
      exact ⟨⟨rfl, rfl, hplain.removed, hplain.surface, hplain.bindings⟩, Or.inl rfl, rfl,
        Or.inr (Or.inr ⟨trivial, id⟩)⟩
    | _ => simp [updatePeerPorts] at h

theorem inv_forget (sys : System) (i : ℕ) (pc : ForgetPc) (choice : Choice) (out : Outcome)
    (hinv : Inv sys) (hi : sys.tasks[i]? = some (.forget pc))
    (h : evict sys.node i pc choice = some out) :
    Inv ⟨out.node, sys.tasks.set i out.task ++ out.spawned⟩ := by
  cases pc with
  | queued =>
    simp only [evict] at h
    split_ifs at h with hfree
    split at h
    · rename_i r hin
      obtain rfl := Option.some.inj h
      exact inv_take sys _ i r hinv hi hfree hin rfl rfl rfl rfl
    · obtain rfl := Option.some.inj h
      refine inv_plain sys i _ _ hinv hi ⟨⟨rfl, rfl, fun _ => rfl, fun _ _ => rfl, fun _ _ _ => id⟩,
        ?_, by simp, by simp [isEntering], by simp, by simp, by simp, Or.inl ⟨rfl, id⟩⟩
      rintro pc ⟨⟩
      rfl
  | marking r =>
    cases choice with
    | go =>
      obtain rfl := Option.some.inj h
      exact inv_mark sys _ i r _ hinv hi rfl rfl rfl rfl rfl
    | _ => simp [evict] at h
  | closing r =>
    cases choice with
    | go =>
      obtain rfl := Option.some.inj h
      exact inv_evict sys _ i r _ _ _ hinv hi rfl
        ⟨rfl, rfl, rfl, rfl, Or.inr ⟨rfl, _, rfl, fun _ => id⟩⟩
    | _ => simp [evict] at h
  | releasing r todo =>
    have htodo := hinv.down.todo i r todo hi
    cases todo with
    | nil =>
      have hnone : (sys.node.records r).bindings = [] :=
        List.eq_nil_iff_forall_not_mem.mpr fun port hp => by cases htodo port hp
      simp only [evict] at h
      obtain rfl := Option.some.inj h
      exact inv_evict sys _ i r _ _ _ hinv hi rfl
        ⟨rfl, rfl, rfl, rfl, Or.inl ⟨rfl, rfl, hnone⟩⟩
    | cons port todo =>
      cases choice with
      | go =>
        obtain rfl := Option.some.inj h
        refine inv_evict sys _ i r _ _ _ hinv hi rfl
          ⟨rfl, rfl, rfl, rfl, Or.inr ⟨rfl, todo, rfl, ?_⟩⟩
        intro p hp
        obtain ⟨hin, hne⟩ := List.mem_filter.mp hp
        exact (List.mem_cons.mp (htodo p hin)).resolve_left (by simpa using hne)
      | _ => simp [evict] at h

theorem entered_run (sys : System) (i : ℕ) (task : Task) (spawned : List Task) (hinv : Inv sys)
    (hi : sys.tasks[i]? = some task) (htask : isEntering task = true)
    (hspawned : ∀ (k : ℕ) (t : Task), spawned[k]? = some t →
      k = 0 ∧ t = .loop sys.node.fresh .top ∨ ∃ ports, t = .update sys.node.fresh (.queued ports)) :
    Entered sys (sys.tasks.set i .ended ++ spawned) := by
  constructor
  case old =>
    intro j t hj
    rcases get_after sys.tasks _ i j _ t hj with ⟨-, rfl⟩ | ⟨hne, h⟩ | ⟨hge, h⟩
    · exact Or.inr (Or.inl rfl)
    · refine Or.inl ⟨h, ?_⟩
      by_contra hother
      exact hne (hinv.table.entry j i t _ h hi (by simpa using hother) htask)
    · rcases hspawned _ t h with ⟨hzero, rfl⟩ | hports
      · exact Or.inr (Or.inr (Or.inl ⟨by omega, rfl⟩))
      · exact Or.inr (Or.inr (Or.inr hports))
  case kept =>
    intro j r t ht hj
    have hne : i ≠ j := by
      rintro rfl
      obtain rfl := Option.some.inj (hi.symm.trans hj)
      cases htask.symm.trans (not_entering_of_holds _ (holds_of_evicts r _ ht))
    have hlt : j < (sys.tasks.set i Task.ended).length := by
      rw [List.length_set]
      exact (List.getElem?_eq_some_iff.mp hj).1
    rw [List.getElem?_append_left hlt, List.getElem?_set_ne hne, hj]

theorem inv_enroll (sys : System) (i conn : ℕ) (label : Option String)
    (ports : Option (List Port)) (choice : Choice) (out : Outcome) (hinv : Inv sys)
    (hi : sys.tasks[i]? = some (.enrolling conn label ports))
    (h : enrollStep sys.node conn label ports choice = some out) :
    Inv ⟨out.node, sys.tasks.set i out.task ++ out.spawned⟩ := by
  obtain ⟨hnone, hno⟩ := hinv.table.coming i _ hi rfl
  cases choice with
  | go =>
    obtain rfl := Option.some.inj h
    refine inv_insert sys _ _ hinv hnone hno rfl (entered_run sys i _ _ hinv hi rfl ?_)
    intro k t hk
    cases k with
    | zero => exact Or.inl ⟨rfl, (Option.some.inj hk).symm⟩
    | succ k =>
      rw [List.getElem?_cons_succ] at hk
      obtain ⟨ports', -, rfl⟩ := List.mem_map.mp (List.mem_of_getElem? hk)
      exact Or.inr ⟨ports', rfl⟩
  | _ => simp [enrollStep] at h

theorem inv_insertStep (sys : System) (i : ℕ) (label : Option String) (dial : Bool)
    (choice : Choice) (out : Outcome) (hinv : Inv sys)
    (hi : sys.tasks[i]? = some (.inserting label dial))
    (h : insertStep sys.node label dial choice = some out) :
    Inv ⟨out.node, sys.tasks.set i out.task ++ out.spawned⟩ := by
  obtain ⟨hnone, hno⟩ := hinv.table.coming i _ hi rfl
  cases choice with
  | go =>
    obtain rfl := Option.some.inj h
    refine inv_insert sys _ _ hinv hnone hno rfl (entered_run sys i _ _ hinv hi rfl ?_)
    intro k t hk
    have hlt : k < 1 := (List.getElem?_eq_some_iff.mp hk).1
    exact Or.inl ⟨by omega, List.mem_singleton.mp (List.mem_of_getElem? hk)⟩
  | _ => simp [insertStep] at h

theorem inv_admitStep (sys : System) (i : ℕ) (label : Option String) (dial : Bool)
    (choice : Choice) (out : Outcome) (hinv : Inv sys)
    (hi : sys.tasks[i]? = some (.admitting label dial))
    (h : admitStep sys.node label dial choice = some out) :
    Inv ⟨out.node, sys.tasks.set i out.task ++ out.spawned⟩ := by
  cases choice with
  | go =>
    obtain rfl := Option.some.inj h
    exact inv_plain sys i _ _ hinv hi ⟨⟨rfl, rfl, fun _ => rfl, fun _ _ => rfl, fun _ _ _ => id⟩,
      by simp, by simp, fun _ => rfl, by simp, by simp, by simp, Or.inl ⟨rfl, False.elim⟩⟩
  | _ => simp [admitStep] at h

theorem inv_task (sys : System) (i : ℕ) (task : Task) (choice : Choice) (out : Outcome)
    (hinv : Inv sys) (hi : sys.tasks[i]? = some task) (hcare : Careful sys (.run i choice))
    (h : taskStep ours theirs shown sys.node i task choice = some out) :
    Inv ⟨out.node, sys.tasks.set i out.task ++ out.spawned⟩ := by
  cases task with
  | loop r pc =>
    have hloop := loop_plain ours theirs sys.node r pc choice out h
    rcases hloop.task with htask | ⟨pc', htask⟩
    · refine inv_plain sys i _ out hinv hi ⟨hloop.plain, by simp, ?_, ?_, ?_, ?_, hloop.spawned,
        Or.inl ⟨hloop.lock, ?_⟩⟩ <;> simp [htask, isEntering, holds]
    · refine inv_plain sys i _ out hinv hi ⟨hloop.plain, by simp, ?_, ?_, ?_, ?_, hloop.spawned,
        Or.inl ⟨hloop.lock, ?_⟩⟩ <;> simp [htask, isEntering, holds]
  | inbound r conn =>
    obtain ⟨hplain, hlock, htask, hspawned⟩ := inbound_plain ours theirs sys.node r conn choice out h
    refine inv_plain sys i _ out hinv hi ⟨hplain, by simp, ?_, ?_, ?_, ?_, ?_,
      Or.inl ⟨hlock, ?_⟩⟩ <;> simp [htask, hspawned, isEntering, holds]
  | update r pc =>
    have hqueued : ∀ ports, pc = .queued ports →
        (sys.node.records r).removed = false ∨ ports = [] := by
      rintro ports rfl
      exact hcare r ports hi
    have hup := update_plain theirs shown sys.node i r pc choice out (hinv.locked.acting i r pc hi)
      hqueued h
    have hspawned : ∀ t ∈ out.spawned, ∃ r ports, t = .update r (.reading ports) := by
      simp [hup.spawned]
    rcases hup.task with htask | ⟨pc', htask, hstir⟩
    · refine inv_plain sys i _ out hinv hi ⟨hup.plain, by simp, ?_, ?_, ?_, ?_, hspawned, hup.lock⟩
        <;> simp [htask, isEntering]
    · refine inv_plain sys i _ out hinv hi ⟨hup.plain, by simp, ?_, ?_, ?_, ?_, hspawned, hup.lock⟩
      · simp [htask]
      · simp [htask, isEntering]
      · simp [htask]
      · intro r' pc'' heq
        obtain ⟨rfl, rfl⟩ := Task.update.inj (htask.symm.trans heq)
        exact hstir
  | enrolling conn label ports => exact inv_enroll sys i conn label ports choice out hinv hi h
  | admitting label dial => exact inv_admitStep sys i label dial choice out hinv hi h
  | inserting label dial => exact inv_insertStep sys i label dial choice out hinv hi h
  | forget pc => exact inv_forget sys i pc choice out hinv hi h
  | ended => cases h

theorem started_one (sys : System) (task : Task)
    (h : (∃ r conn, task = .inbound r conn) ∨ task = .forget .queued ∨
      isEntering task = true ∧ sys.node.peers = none ∧ Clear sys) : Started sys [task] := by
  refine ⟨by simp, fun t ht => ?_⟩
  obtain rfl := List.mem_singleton.mp ht
  exact h

theorem inv_step (sys sys' : System) (ev : Event) (effects : List (ℕ × Effect))
    (hcare : Careful sys ev) (hinv : Inv sys)
    (h : step ours theirs shown sys ev = some (sys', effects)) : Inv sys' := by
  cases ev with
  | add label dial =>
    simp only [step] at h
    split at h
    · cases h
    · rename_i hnone
      obtain ⟨rfl, -⟩ := Prod.mk.inj (Option.some.inj h)
      exact inv_spawn sys _ _ hinv rfl rfl rfl rfl
        (started_one sys _ (Or.inr (Or.inr ⟨rfl, hnone, hcare⟩)))
  | claim label ports =>
    obtain ⟨rfl, -⟩ := Prod.mk.inj (Option.some.inj h)
    exact inv_spawn sys _ _ hinv rfl rfl rfl rfl
      (started_one sys _ (Or.inr (Or.inr ⟨rfl, hcare⟩)))
  | inbound =>
    simp only [step] at h
    split at h
    · obtain ⟨rfl, -⟩ := Prod.mk.inj (Option.some.inj h)
      exact inv_spawn sys _ _ hinv rfl rfl rfl rfl (started_one sys _ (Or.inl ⟨_, _, rfl⟩))
    · obtain ⟨rfl, -⟩ := Prod.mk.inj (Option.some.inj h)
      exact inv_quiet sys _ hinv rfl rfl rfl rfl
  | receive conn stream =>
    simp only [step] at h
    split_ifs at h
    obtain ⟨rfl, -⟩ := Prod.mk.inj (Option.some.inj h)
    exact inv_quiet sys _ hinv rfl rfl rfl rfl
  | lose conn =>
    obtain ⟨rfl, -⟩ := Prod.mk.inj (Option.some.inj h)
    exact inv_quiet sys _ hinv rfl rfl rfl rfl
  | forget =>
    simp only [step] at h
    split at h
    · obtain ⟨rfl, -⟩ := Prod.mk.inj (Option.some.inj h)
      exact inv_spawn sys _ _ hinv rfl rfl rfl rfl (started_one sys _ (Or.inr (Or.inl rfl)))
    · cases h
  | run i choice =>
    simp only [step] at h
    split at h
    · cases h
    · rename_i task htask
      obtain ⟨out, hout, heq⟩ := Option.map_eq_some_iff.mp h
      obtain ⟨rfl, -⟩ := Prod.mk.inj heq
      exact inv_task ours theirs shown sys i task choice out hinv htask hcare hout

omit [LinearOrder K] in
theorem update_peers (nd : Node) (i r : ℕ) (pc : UpdatePc) (choice : Choice) (out : Outcome)
    (h : updatePeerPorts theirs shown nd i r pc choice = some out) :
    out.node.peers = nd.peers := by
  revert h
  fun_cases updatePeerPorts theirs shown nd i r pc choice <;> rintro ⟨⟩ <;> rfl

theorem task_peers (sys : System) (i : ℕ) (task : Task) (choice : Choice) (out : Outcome) (r : ℕ)
    (hinv : Inv sys) (htask : sys.tasks[i]? = some task) (hforget : task ≠ .forget .queued)
    (h : taskStep ours theirs shown sys.node i task choice = some out)
    (hin : sys.node.peers = some r) : out.node.peers = some r := by
  cases task with
  | loop r' pc => exact (loop_plain ours theirs sys.node r' pc choice out h).plain.peers.trans hin
  | inbound r' conn =>
    exact (inbound_plain ours theirs sys.node r' conn choice out h).1.peers.trans hin
  | update r' pc => exact (update_peers theirs shown sys.node i r' pc choice out h).trans hin
  | enrolling conn label ports =>
    -- an enrollment that would displace the record is not on its way
    cases hin.symm.trans (hinv.table.coming i _ htask rfl).1
  | admitting label dial => cases hin.symm.trans (hinv.table.coming i _ htask rfl).1
  | inserting label dial => cases hin.symm.trans (hinv.table.coming i _ htask rfl).1
  | forget pc =>
    revert h
    simp only [taskStep]
    fun_cases evict sys.node i pc choice <;> rintro ⟨⟩ <;> first | exact hin | exact absurd rfl hforget
  | ended => cases h

theorem leaves_forgotten (sys sys' : System) (ev : Event) (effects : List (ℕ × Effect)) (r : ℕ)
    (hinv : Inv sys) (h : step ours theirs shown sys ev = some (sys', effects))
    (hin : sys.node.peers = some r) :
    sys'.node.peers = some r ∨
      ∃ i choice, ev = .run i choice ∧ sys.tasks[i]? = some (.forget .queued) := by
  cases ev with
  | add label dial =>
    simp [step, hin] at h
  | claim label ports =>
    obtain ⟨rfl, -⟩ := Prod.mk.inj (Option.some.inj h)
    exact Or.inl hin
  | inbound =>
    simp only [step] at h
    split at h
    · obtain ⟨rfl, -⟩ := Prod.mk.inj (Option.some.inj h)
      exact Or.inl hin
    · obtain ⟨rfl, -⟩ := Prod.mk.inj (Option.some.inj h)
      exact Or.inl hin
  | receive conn stream =>
    simp only [step] at h
    split_ifs at h
    obtain ⟨rfl, -⟩ := Prod.mk.inj (Option.some.inj h)
    exact Or.inl hin
  | lose conn =>
    obtain ⟨rfl, -⟩ := Prod.mk.inj (Option.some.inj h)
    exact Or.inl hin
  | forget =>
    simp only [step, hin] at h
    obtain ⟨rfl, -⟩ := Prod.mk.inj (Option.some.inj h)
    exact Or.inl hin
  | run i choice =>
    simp only [step] at h
    split at h
    · cases h
    · rename_i task htask
      obtain ⟨out, hout, heq⟩ := Option.map_eq_some_iff.mp h
      obtain ⟨rfl, -⟩ := Prod.mk.inj heq
      by_cases hforget : task = .forget .queued
      · subst hforget
        exact Or.inr ⟨i, choice, rfl, htask⟩
      · exact Or.inl (task_peers ours theirs shown sys i task choice out r hinv htask hforget hout hin)

end

end PaiSho.RecordSteps
