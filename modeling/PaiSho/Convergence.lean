import PaiSho.AnnouncementTasks
import PaiSho.Messages
import PaiSho.Library.TaskLists

/-!
# When announcements converge

Three things can leave the other end with a stale list. Streams of one connection
overtake one another, and the handler that runs last has the last word. A list
the core returned with an admission is sent only after the connection is
installed, so a change in between may be announced to nobody and then be
followed by the older list. And a list whose text is too long is dropped where it
is read. Where none of them happens after the last change of the grants, a quiet
link is converged.
-/

set_option autoImplicit false

namespace PaiSho.Convergence
open PaiSho.SessionCore hiding step
open PaiSho.GrantTable PaiSho.Enrollment PaiSho.SessionSteps
open PaiSho.Authorization PaiSho.AnnouncementTasks PaiSho.PeerWire
open Library.Traces Library.TaskLists

def promises (current : Option ℕ) (version : ℕ) : Task → Prop
  | .broadcast => True
  | .announcing record => current = some record
  | .sending record stamp _ => current = some record ∧ stamp = version
  | .enrolled _ stamp _ => stamp = version
  | _ => False

instance promises.decidable (current : Option ℕ) (version : ℕ) :
    (task : Task) → Decidable (promises current version task)
  | .broadcast => isTrue trivial
  | .announcing record => inferInstanceAs (Decidable (current = some record))
  | .sending record stamp _ => inferInstanceAs (Decidable (current = some record ∧ stamp = version))
  | .enrolled _ stamp _ => inferInstanceAs (Decidable (stamp = version))
  | .inbound _ _ _ _ => isFalse id
  | .dialed _ _ => isFalse id
  | .ended => isFalse id

section
variable {K : Type} [LinearOrder K] (wire : Wire) (peer : K)

def Promised (st : Pair K) (current : Option ℕ) : Prop :=
  ∃ task ∈ st.tasks, promises current st.version task

instance Promised.decidable (st : Pair K) (current : Option ℕ) : Decidable (Promised st current) :=
  inferInstanceAs (Decidable (∃ task ∈ st.tasks, promises current st.version task))

/-- A connection that brings its own list is installed while that list is current
or a newer one is still to be sent. -/
def Ready (st : Pair K) (keep : Bool) : Task → Prop
  | .inbound _ _ stamp _ => keep = true → stamp = st.version ∨ Promised st st.current
  | .enrolled _ stamp _ => stamp = st.version ∨ Promised st none
  | _ => True

instance Ready.decidable (st : Pair K) (keep : Bool) : (task : Task) → Decidable (Ready st keep task)
  | .inbound _ _ stamp _ =>
    inferInstanceAs (Decidable (keep = true → stamp = st.version ∨ Promised st st.current))
  | .enrolled _ stamp _ => inferInstanceAs (Decidable (stamp = st.version ∨ Promised st none))
  | .broadcast => isTrue trivial
  | .announcing _ => isTrue trivial
  | .sending _ _ _ => isTrue trivial
  | .dialed _ _ => isTrue trivial
  | .ended => isTrue trivial

/-- The current list is not too long to be read, and once it is handled no older
one is handled unless a newer is still to be sent. -/
def Timely (st : Pair K) (msg : Message) : Prop :=
  if msg.bytes.length ≤ readLimit then
    st.handled = st.version → msg.stamp = st.version ∨ Promised st st.current
  else msg.stamp ≠ st.version

instance Timely.decidable (st : Pair K) (msg : Message) : Decidable (Timely st msg) :=
  inferInstanceAs (Decidable (if msg.bytes.length ≤ readLimit then _ else _))

def Careful (st : Pair K) : Event K → Prop
  | .handle j => ∀ msg ∈ st.flight[j]?, Timely st msg
  | .run i keep => ∀ task ∈ st.tasks[i]?, Ready st keep task
  | _ => True

instance Careful.decidable (st : Pair K) : (ev : Event K) → Decidable (Careful st ev)
  | .handle j => inferInstanceAs (Decidable (∀ msg ∈ st.flight[j]?, Timely st msg))
  | .run i keep => inferInstanceAs (Decidable (∀ task ∈ st.tasks[i]?, Ready st keep task))
  | .expose _ _ => isTrue trivial
  | .unexpose _ _ => isTrue trivial
  | .other _ => isTrue trivial
  | .add _ _ => isTrue trivial
  | .inbound => isTrue trivial
  | .claim _ _ _ _ => isTrue trivial
  | .dial _ => isTrue trivial
  | .lose _ => isTrue trivial
  | .drop _ => isTrue trivial
  | .hold _ => isTrue trivial

/-- A list computed after `stamp` changes, as the present state knows it. -/
def Stamped (st : Pair K) (stamp : ℕ) (ports : List Port) : Prop :=
  stamp ≤ st.version ∧
    (stamp = st.version → ∀ port, port ∈ ports ↔ st.session.grants.allows port peer)

def listOf : Task → Option (ℕ × List Port)
  | .sending _ stamp ports => some (stamp, ports)
  | .inbound _ _ stamp ports => some (stamp, ports)
  | .enrolled _ stamp ports => some (stamp, ports)
  | _ => none

def Carries (st : Pair K) (msg : Message) : Prop :=
  ∃ ports, msg.bytes = wire.toVec (.exposedPorts ports) ∧ Stamped peer st msg.stamp ports

structure AllStamped (st : Pair K) : Prop where
  tasks : ∀ task ∈ st.tasks, ∀ stamp ports, listOf task = some (stamp, ports) →
    Stamped peer st stamp ports
  flight : ∀ msg ∈ st.flight, Carries wire peer st msg
  handled : Stamped peer st st.handled st.exposed

def Down (st : Pair K) : Prop :=
  ∀ record conn, st.current = some record → st.slots record = some conn → st.lost conn = true

def OnWay (st : Pair K) : Prop :=
  ∃ msg ∈ st.flight, msg.stamp = st.version ∧
    ∃ record, st.current = some record ∧ st.slots record = some msg.conn

def Covered (st : Pair K) : Prop :=
  st.handled = st.version ∨ Promised st st.current ∨ Down st ∨ OnWay st

theorem stamped_now (st : Pair K) : Stamped peer st st.version (st.session.grants.portsFor peer) :=
  ⟨le_refl _, fun _ port => mem_portsFor st.session.grants peer port⟩

theorem aside_allows (s : Session K) (op : Op K) (h : aside peer op = true) (port : Port) :
    (SessionCore.step s op).1.grants.allows port peer ↔ s.grants.allows port peer := by
  by_contra hc
  rcases Announcements.grant_changes s op peer port hc with
    ⟨q, grantees, rfl⟩ | ⟨q, grantee, rfl⟩ | ⟨c, hclaim⟩ | rfl
  · simp [aside] at h
  · simp [aside] at h
  · cases op with
    | onUnadmitted conn remote msg now =>
      cases msg with
      | enroll token version =>
        simp only [claimBy, Option.map_eq_some_iff, Prod.mk.injEq] at hclaim
        obtain ⟨d, -, rfl, -⟩ := hclaim
        simp [aside] at h
      | _ => simp [claimBy] at hclaim
    | _ => simp [claimBy] at hclaim
  · simp [aside] at h

theorem inbound_grants (s : Session K) (conn : ConnId) :
    (s.onInbound conn peer).1.grants = s.grants := by
  unfold Session.onInbound
  split_ifs <;> rfl

theorem inbound_announced (s : Session K) (conn : ConnId) (ports : List Port)
    (h : announced (s.onInbound conn peer).2 = some ports) : ports = s.grants.portsFor peer := by
  unfold Session.onInbound at h
  split_ifs at h
  · exact (Option.some.inj h).symm
  · cases h

theorem claim_announced (s : Session K) (conn : ConnId) (token : String) (version : Option String)
    (now : ℕ) :
    announced (s.onUnadmitted conn peer (.enroll token version) now).2 =
        some ((s.onUnadmitted conn peer (.enroll token version) now).1.grants.portsFor peer) ∨
      announced (s.onUnadmitted conn peer (.enroll token version) now).2 = none ∧
        (s.onUnadmitted conn peer (.enroll token version) now).1.grants = s.grants := by
  cases hc : (s.tokens.claim token now).2 with
  | none =>
    rw [onUnadmitted_refused s conn peer token version now hc]
    exact Or.inr ⟨rfl, rfl⟩
  | some c =>
    rw [onUnadmitted_claimed s conn peer token version now c hc]
    left
    by_cases he : (s.earlyPorts conn).isEmpty = true
    · simp [he, announced, Session.announce]
    · simp [he, announced, Session.announce]

theorem allStamped_keep (st st' : Pair K) (hversion : st'.version = st.version)
    (hallows : ∀ port, st'.session.grants.allows port peer ↔ st.session.grants.allows port peer)
    (htasks : ∀ task ∈ st'.tasks, ∀ stamp ports, listOf task = some (stamp, ports) →
      Stamped peer st stamp ports)
    (hflight : ∀ msg ∈ st'.flight, Carries wire peer st msg)
    (hhandled : Stamped peer st st'.handled st'.exposed) : AllStamped wire peer st' := by
  have hkeep : ∀ stamp ports, Stamped peer st stamp ports → Stamped peer st' stamp ports := by
    rintro stamp ports ⟨hle, heq⟩
    refine ⟨hversion ▸ hle, fun hs port => ?_⟩
    rw [heq (hs.trans hversion) port, hallows port]
  refine ⟨fun task ht stamp ports hl => hkeep _ _ (htasks task ht stamp ports hl),
    fun msg hm => ?_, hkeep _ _ hhandled⟩
  obtain ⟨ports, hbytes, hs⟩ := hflight msg hm
  exact ⟨ports, hbytes, hkeep _ _ hs⟩

theorem allStamped_bump (st st' : Pair K) (h : AllStamped wire peer st)
    (hversion : st'.version = st.version + 1)
    (htasks : ∀ task ∈ st'.tasks, task ∈ st.tasks ∨ ∀ stamp ports,
      listOf task = some (stamp, ports) → Stamped peer st' stamp ports)
    (hflight : st'.flight = st.flight) (hhandled : st'.handled = st.handled) :
    AllStamped wire peer st' := by
  have hold : ∀ stamp ports ports', Stamped peer st stamp ports → Stamped peer st' stamp ports' := by
    rintro stamp ports ports' ⟨hle, -⟩
    exact ⟨by omega, fun hs => by omega⟩
  refine ⟨fun task ht stamp ports hl => ?_, fun msg hm => ?_, ?_⟩
  · rcases htasks task ht with ht | hnew
    · exact hold _ _ _ (h.tasks task ht stamp ports hl)
    · exact hnew stamp ports hl
  · obtain ⟨ports, hbytes, hs⟩ := h.flight msg (hflight ▸ hm)
    exact ⟨ports, hbytes, hold _ ports _ hs⟩
  · rw [hhandled]
    exact hold _ _ _ h.handled

theorem step_handle (hwire : wire.Documented) (st st' : Pair K) (j : ℕ) (msg : Message) (ports : List Port)
    (hmsg : st.flight[j]? = some msg) (hbytes : msg.bytes = wire.toVec (.exposedPorts ports))
    (h : step wire peer st (.handle j) = some st') :
    msg.bytes.length ≤ readLimit ∧ st' = { st with
        flight := st.flight.eraseIdx j, exposed := ports, handled := msg.stamp } ∨
      readLimit < msg.bytes.length ∧ st' = { st with flight := st.flight.eraseIdx j } := by
  simp only [step, hmsg] at h
  rcases Nat.lt_or_ge readLimit msg.bytes.length with hlong | hfits
  · rw [wire.hear_tooLong hwire _ hlong] at h
    exact Or.inr ⟨hlong, (Option.some.inj h).symm⟩
  · have hheard : wire.hear msg.bytes = .message (.exposedPorts ports) := by
      rw [hbytes] at hfits ⊢
      exact wire.hear_whole hwire _ hfits
    rw [hheard] at h
    exact Or.inl ⟨hfits, (Option.some.inj h).symm⟩

theorem taskStep_keeps (st : Pair K) (keep : Bool) (task : Task) (out : Pair K × Task)
    (h : taskStep wire peer st keep task = some out) :
    out.1.session = st.session ∧ out.1.version = st.version ∧ out.1.tasks = st.tasks ∧
      out.1.handled = st.handled ∧ out.1.exposed = st.exposed := by
  revert h
  fun_cases taskStep wire peer st keep task <;> rintro ⟨⟩ <;> exact ⟨rfl, rfl, rfl, rfl, rfl⟩

theorem taskStep_stamped (st : Pair K) (keep : Bool) (task : Task) (out : Pair K × Task)
    (h : taskStep wire peer st keep task = some out)
    (htask : ∀ stamp ports, listOf task = some (stamp, ports) → Stamped peer st stamp ports)
    (hflight : ∀ msg ∈ st.flight, Carries wire peer st msg) :
    (∀ stamp ports, listOf out.2 = some (stamp, ports) → Stamped peer st stamp ports) ∧
      ∀ msg ∈ out.1.flight, Carries wire peer st msg := by
  have hnow := stamped_now peer st
  cases task with
  | broadcast =>
    simp only [taskStep] at h
    split at h
    · obtain rfl := Option.some.inj h
      exact ⟨by simp [listOf], hflight⟩
    · obtain rfl := Option.some.inj h
      refine ⟨?_, hflight⟩
      rintro stamp ports ⟨⟩
      exact hnow
  | announcing record =>
    obtain rfl := Option.some.inj h
    refine ⟨?_, hflight⟩
    rintro stamp ports ⟨⟩
    exact hnow
  | sending record stamp ports =>
    simp only [taskStep] at h
    split at h
    · obtain rfl := Option.some.inj h
      exact ⟨by simp [listOf], hflight⟩
    · split_ifs at h
      · obtain rfl := Option.some.inj h
        exact ⟨by simp [listOf], hflight⟩
      · obtain rfl := Option.some.inj h
        refine ⟨by simp [listOf], fun msg hm => ?_⟩
        rcases List.mem_append.mp hm with hm | hm
        · exact hflight msg hm
        · obtain rfl := List.mem_singleton.mp hm
          exact ⟨ports, rfl, htask stamp ports rfl⟩
  | inbound record conn stamp ports =>
    simp only [taskStep] at h
    split_ifs at h
    · obtain rfl := Option.some.inj h
      exact ⟨htask, hflight⟩
    · obtain rfl := Option.some.inj h
      exact ⟨by simp [listOf], hflight⟩
  | dialed record conn =>
    simp only [taskStep] at h
    split_ifs at h
    · obtain rfl := Option.some.inj h
      exact ⟨by simp [listOf], hflight⟩
    · obtain rfl := Option.some.inj h
      exact ⟨by simp [listOf], hflight⟩
  | enrolled conn stamp ports =>
    obtain rfl := Option.some.inj h
    exact ⟨htask, hflight⟩
  | ended => cases h

theorem tasks_snoc (P : ℕ → List Port → Prop) (tasks : List Task) (task : Task)
    (htasks : ∀ t ∈ tasks, ∀ stamp ports, listOf t = some (stamp, ports) → P stamp ports)
    (htask : ∀ stamp ports, listOf task = some (stamp, ports) → P stamp ports) :
    ∀ t ∈ tasks++[task], ∀ stamp ports, listOf t = some (stamp, ports) → P stamp ports := by
  intro t ht
  rcases List.mem_append.mp ht with ht | ht
  · exact htasks t ht
  · obtain rfl := List.mem_singleton.mp ht
    exact htask

theorem allStamped_change (st : Pair K) (op : Op K) (hs : AllStamped wire peer st) :
    AllStamped wire peer (st.change op) := by
  refine allStamped_bump wire peer st _ hs rfl (fun task ht => ?_) rfl rfl
  rcases List.mem_append.mp ht with ht | ht
  · exact Or.inl ht
  · obtain rfl := List.mem_singleton.mp ht
    exact Or.inr (by simp [listOf])

theorem allStamped_inbound (st st' : Pair K) (hs : AllStamped wire peer st)
    (h : step wire peer st .inbound = some st') : AllStamped wire peer st' := by
  have hgrants := inbound_grants peer st.session (.ofNat st.opened)
  simp only [step, SessionCore.step] at h
  split at h
  · rename_i ports record hports _
    obtain rfl := Option.some.inj h
    refine allStamped_keep wire peer st _ rfl (fun port => by rw [hgrants])
      (tasks_snoc _ st.tasks _ hs.tasks ?_) hs.flight hs.handled
    rintro stamp ports' ⟨⟩
    rw [inbound_announced peer st.session _ ports hports]
    exact stamped_now peer st
  · obtain rfl := Option.some.inj h
    exact allStamped_keep wire peer st _ rfl (fun port => by rw [hgrants]) hs.tasks hs.flight hs.handled

theorem allStamped_claim (st st' : Pair K) (conn : ℕ) (token : String) (version : Option String)
    (now : ℕ) (hs : AllStamped wire peer st)
    (h : step wire peer st (.claim conn token version now) = some st') : AllStamped wire peer st' := by
  simp only [step, SessionCore.step] at h
  rcases claim_announced peer st.session (.ofNat conn) token version now with
    hports | ⟨hports, hgrants⟩
  · simp only [hports] at h
    obtain rfl := Option.some.inj h
    refine allStamped_bump wire peer st _ hs rfl (fun task ht => ?_) rfl rfl
    rcases List.mem_append.mp ht with ht | ht
    · exact Or.inl ht
    · obtain rfl := List.mem_singleton.mp ht
      right
      rintro stamp ports' ⟨⟩
      exact ⟨le_refl _, fun _ port => mem_portsFor _ peer port⟩
  · simp only [hports] at h
    obtain rfl := Option.some.inj h
    exact allStamped_keep wire peer st _ rfl (fun port => by rw [hgrants]) hs.tasks hs.flight hs.handled

theorem allStamped_run (st : Pair K) (i : ℕ) (keep : Bool) (task : Task) (out : Pair K × Task)
    (hs : AllStamped wire peer st) (htask : st.tasks[i]? = some task)
    (h : taskStep wire peer st keep task = some out) :
    AllStamped wire peer { out.1 with tasks := st.tasks.set i out.2 } := by
  obtain ⟨hsession, hversion, -, hhandled, hexposed⟩ := taskStep_keeps wire peer st keep task out h
  obtain ⟨hlist, hflight⟩ := taskStep_stamped wire peer st keep task out h
    (hs.tasks task (List.mem_of_getElem? htask)) hs.flight
  refine allStamped_keep wire peer st _ hversion (fun port => by rw [hsession]) (fun t ht => ?_) hflight ?_
  · rcases List.mem_or_eq_of_mem_set ht with ht | rfl
    · exact hs.tasks t ht
    · exact hlist
  · rw [hhandled, hexposed]
    exact hs.handled

theorem allStamped_handle (hwire : wire.Documented) (st st' : Pair K) (j : ℕ) (msg : Message)
    (hs : AllStamped wire peer st) (hmsg : st.flight[j]? = some msg)
    (h : step wire peer st (.handle j) = some st') : AllStamped wire peer st' := by
  have herase : ∀ m ∈ st.flight.eraseIdx j, Carries wire peer st m :=
    fun m hm => hs.flight m (List.mem_of_mem_eraseIdx hm)
  obtain ⟨ports, hbytes, hstamped⟩ := hs.flight msg (List.mem_of_getElem? hmsg)
  rcases step_handle wire peer hwire st st' j msg ports hmsg hbytes h with ⟨-, rfl⟩ | ⟨-, rfl⟩
  · exact allStamped_keep wire peer st _ rfl (fun _ => Iff.rfl) hs.tasks herase hstamped
  · exact allStamped_keep wire peer st _ rfl (fun _ => Iff.rfl) hs.tasks herase hs.handled

theorem allStamped_step (hwire : wire.Documented) (st st' : Pair K) (ev : Event K)
    (hs : AllStamped wire peer st) (h : step wire peer st ev = some st') :
    AllStamped wire peer st' := by
  have herase : ∀ j, ∀ msg ∈ st.flight.eraseIdx j, Carries wire peer st msg :=
    fun j msg hm => hs.flight msg (List.mem_of_mem_eraseIdx hm)
  cases ev with
  | expose port grantees =>
    obtain rfl := Option.some.inj h
    exact allStamped_change wire peer st _ hs
  | unexpose port grantee =>
    obtain rfl := Option.some.inj h
    exact allStamped_change wire peer st _ hs
  | other op =>
    simp only [step] at h
    split_ifs at h with haside
    obtain rfl := Option.some.inj h
    exact allStamped_keep wire peer st _ rfl (aside_allows peer st.session op haside) hs.tasks hs.flight
      hs.handled
  | add label admission =>
    simp only [step] at h
    split at h
    · cases h
    · obtain rfl := Option.some.inj h
      exact allStamped_keep wire peer st _ rfl
        (aside_allows peer st.session (.admitKnown peer label admission) rfl) hs.tasks hs.flight
        hs.handled
  | inbound => exact allStamped_inbound wire peer st st' hs h
  | claim conn token version now => exact allStamped_claim wire peer st st' conn token version now hs h
  | dial record =>
    simp only [step] at h
    split_ifs at h
    obtain rfl := Option.some.inj h
    exact allStamped_keep wire peer st _ rfl (fun _ => Iff.rfl)
      (tasks_snoc _ st.tasks _ hs.tasks (by simp [listOf])) hs.flight hs.handled
  | run i keep =>
    simp only [step] at h
    split at h
    · cases h
    · rename_i task htask
      obtain ⟨out, hout, rfl⟩ := Option.map_eq_some_iff.mp h
      exact allStamped_run wire peer st i keep task out hs htask hout
  | lose conn =>
    obtain rfl := Option.some.inj h
    exact allStamped_keep wire peer st _ rfl (fun _ => Iff.rfl) hs.tasks hs.flight hs.handled
  | drop j =>
    simp only [step] at h
    split at h
    · cases h
    · split_ifs at h
      obtain rfl := Option.some.inj h
      exact allStamped_keep wire peer st _ rfl (fun _ => Iff.rfl) hs.tasks (herase j) hs.handled
  | handle j =>
    cases hmsg : st.flight[j]? with
    | none => simp [step, hmsg] at h
    | some msg =>
      exact allStamped_handle wire peer hwire st st' j msg hs hmsg h
  | hold conn =>
    obtain rfl := Option.some.inj h
    exact allStamped_keep wire peer st _ rfl (fun _ => Iff.rfl) hs.tasks hs.flight hs.handled

theorem promises_anyway (current : Option ℕ) (version : ℕ) (task : Task)
    (h : promises none version task) : promises current version task := by
  cases task with
  | broadcast => trivial
  | announcing record => cases h
  | sending record stamp ports => cases h.1
  | inbound record conn stamp ports => exact h
  | dialed record conn => exact h
  | enrolled conn stamp ports => exact h
  | ended => exact h

theorem covered_mono (st st' : Pair K) (hcov : Covered st) (hhandled : st'.handled = st.handled)
    (hversion : st'.version = st.version) (hcurrent : st'.current = st.current)
    (hslots : ∀ record, st.current = some record → st'.slots record = st.slots record)
    (hlost : ∀ conn, st.lost conn = true → st'.lost conn = true)
    (hflight : ∀ msg ∈ st.flight, msg ∈ st'.flight)
    (htasks : ∀ task ∈ st.tasks, promises st.current st.version task → Covered st') :
    Covered st' := by
  rcases hcov with hh | ⟨task, ht, hp⟩ | hdown | ⟨msg, hm, hstamp, record, hrec, hslot⟩
  · exact Or.inl (by rw [hhandled, hversion, hh])
  · exact htasks task ht hp
  · refine Or.inr (Or.inr (Or.inl fun record conn hrec hslot => hlost conn ?_))
    rw [hcurrent] at hrec
    rw [hslots record hrec] at hslot
    exact hdown record conn hrec hslot
  · refine Or.inr (Or.inr (Or.inr ⟨msg, hflight msg hm, by rw [hversion, hstamp], record, ?_, ?_⟩))
    · rw [hcurrent, hrec]
    · rw [hslots record hrec, hslot]

theorem covered_promise (st : Pair K) (task : Task) (ht : task ∈ st.tasks)
    (hp : promises st.current st.version task) : Covered st :=
  Or.inr (Or.inl ⟨task, ht, hp⟩)

theorem covered_install (st : Pair K) (i record conn : ℕ) (task task' : Task) (hcov : Covered st)
    (htask : st.tasks[i]? = some task) (hsilent : ¬ promises st.current st.version task)
    (hpromise : st.current = some record →
      promises st.current st.version task' ∨ Promised st st.current) :
    Covered { st.install record conn with tasks := st.tasks.set i task' } := by
  have hothers : ∀ t ∈ st.tasks, promises st.current st.version t →
      Covered { st.install record conn with tasks := st.tasks.set i task' } := by
    intro t ht hp
    rcases mem_set_or st.tasks i task task' t htask ht with rfl | ht
    · exact absurd hp hsilent
    · exact covered_promise _ t ht hp
  by_cases hrec : st.current = some record
  · rcases hpromise hrec with hp | ⟨t, ht, hp⟩
    · exact covered_promise _ task' (mem_set_new st.tasks i task task' htask) hp
    · exact hothers t ht hp
  · refine covered_mono st _ hcov rfl rfl rfl (fun r hr => ?_) (fun c hc => ?_) (fun _ => id) hothers
    · have hne : r ≠ record := by
        rintro rfl
        exact hrec hr
      simp [Pair.install, Function.update_of_ne hne]
    · simp [Pair.install, hc]

theorem covered_pass (st : Pair K) (i : ℕ) (task task' : Task) (hcov : Covered st)
    (htask : st.tasks[i]? = some task)
    (hp : promises st.current st.version task → Covered { st with tasks := st.tasks.set i task' }) :
    Covered { st with tasks := st.tasks.set i task' } := by
  refine covered_mono st _ hcov rfl rfl rfl (fun _ _ => rfl) (fun _ => id) (fun _ => id) ?_
  intro t ht hpt
  rcases mem_set_or st.tasks i task task' t htask ht with rfl | ht
  · exact hp hpt
  · exact covered_promise _ t ht hpt

theorem covered_refused (st : Pair K) (i conn : ℕ) (task : Task) (hcov : Covered st)
    (htask : st.tasks[i]? = some task) (hsilent : ¬ promises st.current st.version task) :
    Covered { st.close conn with tasks := st.tasks.set i .ended } := by
  refine covered_mono st _ hcov rfl rfl rfl (fun _ _ => rfl) (fun c hc => by simp [Pair.close, hc])
    (fun _ => id) fun t ht hpt => ?_
  rcases mem_set_or st.tasks i task .ended t htask ht with rfl | ht
  · exact absurd hpt hsilent
  · exact covered_promise _ t ht hpt

theorem covered_sending (st : Pair K) (i record stamp : ℕ) (keep : Bool) (ports : List Port)
    (out : Pair K × Task) (hcov : Covered st)
    (htask : st.tasks[i]? = some (.sending record stamp ports))
    (h : taskStep wire peer st keep (.sending record stamp ports) = some out) :
    Covered { out.1 with tasks := st.tasks.set i out.2 } := by
  simp only [taskStep] at h
  split at h
  · rename_i hnone
    obtain rfl := Option.some.inj h
    refine covered_pass st i _ _ hcov htask fun hp => Or.inr (Or.inr (Or.inl fun r conn hr hslot => ?_))
    obtain rfl : record = r := Option.some.inj (hp.1.symm.trans hr)
    exact absurd (hnone.symm.trans hslot) (by simp)
  · rename_i conn hconn
    split_ifs at h with hlost
    · obtain rfl := Option.some.inj h
      refine covered_pass st i _ _ hcov htask fun hp => Or.inr (Or.inr (Or.inl fun r c hr hslot => ?_))
      obtain rfl : record = r := Option.some.inj (hp.1.symm.trans hr)
      obtain rfl : conn = c := Option.some.inj (hconn.symm.trans hslot)
      exact hlost
    · obtain rfl := Option.some.inj h
      refine covered_mono st _ hcov rfl rfl rfl (fun _ _ => rfl) (fun _ => id)
        (fun _ hm => List.mem_append_left _ hm) fun t ht hpt => ?_
      rcases mem_set_or st.tasks i _ .ended t htask ht with rfl | ht
      · exact Or.inr (Or.inr (Or.inr ⟨_, List.mem_append_right _ (List.mem_singleton_self _), hpt.2,
          record, hpt.1, hconn⟩))
      · exact covered_promise _ t ht hpt

theorem covered_run (st : Pair K) (i : ℕ) (keep : Bool) (task : Task) (out : Pair K × Task)
    (hcov : Covered st) (hcare : Careful st (.run i keep)) (htask : st.tasks[i]? = some task)
    (h : taskStep wire peer st keep task = some out) :
    Covered { out.1 with tasks := st.tasks.set i out.2 } := by
  have hself : ∀ task', task' ∈ st.tasks.set i task' := fun task' =>
    mem_set_new st.tasks i task task' htask
  cases task with
  | broadcast =>
    simp only [taskStep] at h
    split at h
    · rename_i hnone
      obtain rfl := Option.some.inj h
      refine covered_pass st i _ _ hcov htask fun _ => Or.inr (Or.inr (Or.inl fun record conn hrec => ?_))
      exact absurd (hnone.symm.trans hrec) (by simp)
    · rename_i record hrec
      obtain rfl := Option.some.inj h
      exact covered_pass st i _ _ hcov htask fun _ => covered_promise _ _ (hself _) ⟨hrec, rfl⟩
  | announcing record =>
    obtain rfl := Option.some.inj h
    exact covered_pass st i _ _ hcov htask fun hp => covered_promise _ _ (hself _) ⟨hp, rfl⟩
  | sending record stamp ports =>
    exact covered_sending wire peer st i record stamp keep ports out hcov htask h
  | inbound record conn stamp ports =>
    have hready : Ready st keep (.inbound record conn stamp ports) := hcare _ htask
    simp only [taskStep] at h
    split_ifs at h with hkeep
    · obtain rfl := Option.some.inj h
      refine covered_install st i record conn _ _ hcov htask id fun hrec => ?_
      exact (hready hkeep).imp (fun hstamp => ⟨hrec, hstamp⟩) id
    · obtain rfl := Option.some.inj h
      exact covered_refused st i conn _ hcov htask id
  | dialed record conn =>
    simp only [taskStep] at h
    split_ifs at h
    · obtain rfl := Option.some.inj h
      exact covered_install st i record conn _ _ hcov htask id fun hrec => Or.inl hrec
    · obtain rfl := Option.some.inj h
      exact covered_refused st i conn _ hcov htask id
  | enrolled conn stamp ports =>
    have hready : Ready st keep (.enrolled conn stamp ports) := hcare _ htask
    obtain rfl := Option.some.inj h
    have hnew : stamp = st.version → Covered { st.install st.fresh conn with
        current := some st.fresh, fresh := st.fresh + 1
        tasks := st.tasks.set i (.sending st.fresh stamp ports) } := fun hstamp =>
      covered_promise _ _ (hself _) ⟨rfl, hstamp⟩
    rcases hready with hstamp | ⟨t, ht, hp⟩
    · exact hnew hstamp
    · rcases mem_set_or st.tasks i _ (.sending st.fresh stamp ports) t htask ht with rfl | ht
      · exact hnew hp
      · exact covered_promise _ t ht (promises_anyway _ _ t hp)
  | ended => cases h

theorem covered_drop (st : Pair K) (j : ℕ) (msg : Message) (hcov : Covered st)
    (hmsg : st.flight[j]? = some msg) (hlost : st.lost msg.conn = true) :
    Covered { st with flight := st.flight.eraseIdx j } := by
  rcases hcov with hh | hp | hdown | ⟨m, hm, hstamp, record, hrec, hslot⟩
  · exact Or.inl hh
  · exact Or.inr (Or.inl hp)
  · exact Or.inr (Or.inr (Or.inl hdown))
  · rcases mem_eraseIdx_or st.flight j m hm with hj | hm
    · obtain rfl : msg = m := Option.some.inj (hmsg.symm.trans hj)
      refine Or.inr (Or.inr (Or.inl fun r c hr hsl => ?_))
      obtain rfl : record = r := Option.some.inj (hrec.symm.trans hr)
      obtain rfl : msg.conn = c := Option.some.inj (hslot.symm.trans hsl)
      exact hlost
    · exact Or.inr (Or.inr (Or.inr ⟨m, hm, hstamp, record, hrec, hslot⟩))

theorem covered_handle (hwire : wire.Documented) (st st' : Pair K) (j : ℕ) (msg : Message)
    (hs : AllStamped wire peer st) (hcov : Covered st) (hcare : Careful st (.handle j))
    (hmsg : st.flight[j]? = some msg) (h : step wire peer st (.handle j) = some st') :
    Covered st' := by
  obtain ⟨ports, hbytes, hbound, -⟩ := hs.flight msg (List.mem_of_getElem? hmsg)
  have hready : Timely st msg := hcare msg hmsg
  unfold Timely at hready
  rcases step_handle wire peer hwire st st' j msg ports hmsg hbytes h with
    ⟨hfits, rfl⟩ | ⟨hlong, rfl⟩
  · rw [if_pos hfits] at hready
    rcases hcov with hh | hp | hdown | ⟨m, hm, hstamp, record, hrec, hslot⟩
    · exact (hready hh).imp id fun hp => Or.inl hp
    · exact Or.inr (Or.inl hp)
    · exact Or.inr (Or.inr (Or.inl hdown))
    · rcases mem_eraseIdx_or st.flight j m hm with hj | hm
      · obtain rfl : msg = m := Option.some.inj (hmsg.symm.trans hj)
        exact Or.inl hstamp
      · exact Or.inr (Or.inr (Or.inr ⟨m, hm, hstamp, record, hrec, hslot⟩))
  · rw [if_neg (Nat.not_le.mpr hlong)] at hready
    rcases hcov with hh | hp | hdown | ⟨m, hm, hstamp, record, hrec, hslot⟩
    · exact Or.inl hh
    · exact Or.inr (Or.inl hp)
    · exact Or.inr (Or.inr (Or.inl hdown))
    · rcases mem_eraseIdx_or st.flight j m hm with hj | hm
      · obtain rfl : msg = m := Option.some.inj (hmsg.symm.trans hj)
        exact absurd hstamp hready
      · exact Or.inr (Or.inr (Or.inr ⟨m, hm, hstamp, record, hrec, hslot⟩))

theorem covered_step (hwire : wire.Documented) (st st' : Pair K) (ev : Event K)
    (hs : AllStamped wire peer st) (hcov : Covered st) (hcare : Careful st ev)
    (h : step wire peer st ev = some st') : Covered st' := by
  -- steps that only add tasks or close connections
  have hgrow : ∀ st' : Pair K, st'.handled = st.handled → st'.version = st.version →
      st'.current = st.current → st'.slots = st.slots →
      (∀ conn, st.lost conn = true → st'.lost conn = true) → st'.flight = st.flight →
      (∀ task ∈ st.tasks, task ∈ st'.tasks) → Covered st' := by
    intro st' hh hv hc hsl hl hf ht
    refine covered_mono st st' hcov hh hv hc (fun _ _ => by rw [hsl]) hl (fun _ hm => hf ▸ hm) ?_
    intro task hmem hp
    exact covered_promise st' task (ht task hmem) (by rw [hc, hv]; exact hp)
  have hchange : ∀ op, Covered (st.change op) := fun op =>
    covered_promise _ .broadcast (by simp [Pair.change]) trivial
  cases ev with
  | expose port grantees =>
    obtain rfl := Option.some.inj h
    exact hchange _
  | unexpose port grantee =>
    obtain rfl := Option.some.inj h
    exact hchange _
  | other op =>
    simp only [step] at h
    split_ifs at h
    obtain rfl := Option.some.inj h
    exact hgrow _ rfl rfl rfl rfl (fun _ => id) rfl (fun _ => id)
  | add label admission =>
    simp only [step] at h
    split at h
    · cases h
    · obtain rfl := Option.some.inj h
      refine Or.inr (Or.inr (Or.inl fun record conn hrec hslot => ?_))
      obtain rfl := Option.some.inj hrec
      simp at hslot
  | inbound =>
    simp only [step] at h
    split at h
    · obtain rfl := Option.some.inj h
      exact hgrow _ rfl rfl rfl rfl (fun _ => id) rfl (fun _ ht => List.mem_append_left _ ht)
    · obtain rfl := Option.some.inj h
      exact hgrow _ rfl rfl rfl rfl (fun _ => id) rfl (fun _ => id)
  | claim conn token version now =>
    simp only [step] at h
    split at h
    · obtain rfl := Option.some.inj h
      exact covered_promise _ (.enrolled _ _ _) (List.mem_append_right _ (List.mem_singleton_self _))
        rfl
    · obtain rfl := Option.some.inj h
      exact hgrow _ rfl rfl rfl rfl (fun _ => id) rfl (fun _ => id)
  | dial record =>
    simp only [step] at h
    split_ifs at h
    obtain rfl := Option.some.inj h
    exact hgrow _ rfl rfl rfl rfl (fun _ => id) rfl (fun _ ht => List.mem_append_left _ ht)
  | run i keep =>
    simp only [step] at h
    split at h
    · cases h
    · rename_i task htask
      obtain ⟨out, hout, rfl⟩ := Option.map_eq_some_iff.mp h
      exact covered_run wire peer st i keep task out hcov hcare htask hout
  | lose conn =>
    obtain rfl := Option.some.inj h
    exact hgrow _ rfl rfl rfl rfl (fun c hc => by simp [Pair.close, hc]) rfl (fun _ => id)
  | drop j =>
    simp only [step] at h
    split at h
    · cases h
    · rename_i msg hmsg
      split_ifs at h with hlost
      obtain rfl := Option.some.inj h
      exact covered_drop st j msg hcov hmsg hlost
  | handle j =>
    cases hmsg : st.flight[j]? with
    | none => simp [step, hmsg] at h
    | some msg =>
      exact covered_handle wire peer hwire st st' j msg hs hcov hcare hmsg h
  | hold conn =>
    obtain rfl := Option.some.inj h
    exact hgrow _ rfl rfl rfl rfl (fun _ => id) rfl (fun _ => id)

theorem covered_change (st st' : Pair K) (ev : Event K) (h : step wire peer st ev = some st')
    (hversion : st'.version ≠ st.version) : Covered st' := by
  have hchange : ∀ op, Covered (st.change op) := fun op =>
    covered_promise _ .broadcast (by simp [Pair.change]) trivial
  cases ev with
  | expose port grantees =>
    obtain rfl := Option.some.inj h
    exact hchange _
  | unexpose port grantee =>
    obtain rfl := Option.some.inj h
    exact hchange _
  | claim conn token version now =>
    simp only [step] at h
    split at h
    · obtain rfl := Option.some.inj h
      exact covered_promise _ (.enrolled _ _ _) (List.mem_append_right _ (List.mem_singleton_self _))
        rfl
    · obtain rfl := Option.some.inj h
      exact absurd rfl hversion
  | run i keep =>
    simp only [step] at h
    split at h
    · cases h
    · obtain ⟨out, hout, rfl⟩ := Option.map_eq_some_iff.mp h
      exact absurd (taskStep_keeps wire peer st keep _ out hout).2.1 hversion
  | other op =>
    simp only [step] at h
    split_ifs at h
    obtain rfl := Option.some.inj h
    exact absurd rfl hversion
  | add label admission =>
    simp only [step] at h
    split at h
    · cases h
    · obtain rfl := Option.some.inj h
      exact absurd rfl hversion
  | inbound =>
    simp only [step] at h
    split at h <;> obtain rfl := Option.some.inj h <;> exact absurd rfl hversion
  | dial record =>
    simp only [step] at h
    split_ifs at h
    obtain rfl := Option.some.inj h
    exact absurd rfl hversion
  | lose conn =>
    obtain rfl := Option.some.inj h
    exact absurd rfl hversion
  | drop j =>
    simp only [step] at h
    split at h
    · cases h
    · split_ifs at h
      obtain rfl := Option.some.inj h
      exact absurd rfl hversion
  | handle j =>
    simp only [step] at h
    split at h
    · cases h
    · split at h <;> obtain rfl := Option.some.inj h <;> exact absurd rfl hversion
  | hold conn =>
    obtain rfl := Option.some.inj h
    exact absurd rfl hversion

/-- After this run, if the announcing daemon is idle, nothing is in flight and
both ends hold a live connection, the other end knows what it is served. -/
def ConvergedAfter (evs : List (Event K)) : Prop :=
  ∀ st, Reached wire peer evs st → Quiescent st → Linked st → Converged peer st

/-- The steps since the grants last changed are careful. -/
def CarefulSinceChange (evs : List (Event K)) : Prop :=
  ∀ st, Reached wire peer evs st →
    Along (step wire peer) (fun s ev => s.version = st.version → Careful s ev) Pair.initial evs

/-- In a run that is careful since the last change, every quiet linked state is
converged. -/
theorem announcements_converge (hwire : wire.Documented) (evs : List (Event K))
    (hcare : CarefulSinceChange wire peer evs) : ConvergedAfter wire peer evs := by
  intro st h hquiet hlinked
  have hinit : AllStamped wire peer (Pair.initial : Pair K) := by
    refine ⟨by simp [Pair.initial], by simp [Pair.initial], le_refl _, fun _ port => ?_⟩
    simp [Pair.initial, Session.new, allows_empty]
  have hinv := along_invariant (step wire peer) _
    (fun s => AllStamped wire peer s ∧ (s.version = st.version → Covered s))
    (fun s ev t hok hs ht => ?_) Pair.initial ⟨hinit, fun _ => Or.inl rfl⟩ evs (hcare st h) st h
  · obtain ⟨hidle, hflight⟩ := hquiet
    obtain ⟨record, conn, hrec, hslot, -, hlive⟩ := hlinked
    have hcurrent : st.handled = st.version := by
      rcases hinv.2 rfl with hh | ⟨task, ht, hp⟩ | hdown | ⟨msg, hm, -⟩
      · exact hh
      · rw [hidle task ht] at hp
        exact hp.elim
      · rw [hdown record conn hrec hslot] at hlive
        cases hlive
      · rw [hflight] at hm
        cases hm
    intro port
    rw [hinv.1.handled.2 hcurrent port, serves_iff]
  · refine ⟨allStamped_step wire peer hwire s t ev hs.1 ht, fun hlast => ?_⟩
    by_cases hsame : t.version = s.version
    · have hnow := hsame.symm.trans hlast
      exact covered_step wire peer hwire s t ev hs.1 (hs.2 hnow) (hok hnow) ht
    · exact covered_change wire peer s t ev ht hsame

end

def UpAndQuiet (st : Pair ℕ) : Prop :=
  (∀ task ∈ st.tasks, task = .ended) ∧ st.flight = [] ∧ st.current = some 0 ∧
    st.slots 0 = some 0 ∧ st.held = some 0 ∧ st.lost 0 = false

instance UpAndQuiet.decidable (st : Pair ℕ) : Decidable (UpAndQuiet st) :=
  inferInstanceAs (Decidable (_ ∧ _))

theorem UpAndQuiet.linked (st : Pair ℕ) (h : UpAndQuiet st) : Quiescent st ∧ Linked st := by
  obtain ⟨htasks, hflight, hcurrent, hslot, hheld, hlost⟩ := h
  exact ⟨⟨htasks, hflight⟩, 0, 0, hcurrent, hslot, hheld, hlost⟩

def after (evs : List (Event ℕ)) : Option (Pair ℕ) := exec (step Messages.jsonWire 7) Pair.initial evs

/-- The peer dials in, both ends hold the connection, port 80 is granted and
revoked, and the second list overtakes the first. -/
def overtaken : List (Event ℕ) :=
  [.add none .added, .inbound, .run 0 true, .run 0 true, .hold 0, .handle 0,
    .expose 80 [7], .run 1 true, .run 1 true, .unexpose 80 none, .run 2 true, .run 2 true,
    .handle 1, .handle 0]

def granted : List (Event ℕ) := overtaken ++ [.expose 443 [7], .run 3 true, .run 3 true, .handle 0]

theorem granted_reached : ∃ st ∈ after granted, UpAndQuiet st ∧ st.version = 3 ∧
    st.exposed = [443] := by
  decide +kernel

theorem granted_converges : (∃ st, Reached Messages.jsonWire 7 granted st ∧ Quiescent st ∧
    Linked st ∧ st.exposed = [443]) ∧ ConvergedAfter Messages.jsonWire 7 granted := by
  obtain ⟨st, hst, hup, hversion, hexposed⟩ := granted_reached
  obtain ⟨hquiet, hlinked⟩ := hup.linked
  refine ⟨⟨st, hst, hquiet, hlinked, hexposed⟩, ?_⟩
  apply announcements_converge Messages.jsonWire 7 Messages.jsonWire_documented
  intro st' hst'
  obtain rfl : st = st' := Option.some.inj (hst.symm.trans hst')
  rw [hversion]
  decide +kernel

theorem overtaken_reached : ∃ st ∈ after overtaken, UpAndQuiet st ∧ st.exposed = [80] ∧
    st.session.onTunnel 7 80 ≠ .serveTunnel 80 := by
  decide +kernel

theorem overtaken_diverges : ¬ ConvergedAfter Messages.jsonWire 7 overtaken := by
  intro h
  obtain ⟨st, hst, hup, hexposed, hserve⟩ := overtaken_reached
  obtain ⟨hquiet, hlinked⟩ := hup.linked
  exact hserve ((h st hst hquiet hlinked 80).mp (by simp [hexposed]))

end PaiSho.Convergence
