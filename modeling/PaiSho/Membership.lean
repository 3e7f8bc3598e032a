import PaiSho.Library.TaskLists
import PaiSho.Restart

/-!
# Two tables of peers

The shell keeps a table of peer records and the core a table of admitted keys.
Accepting a peer or inviting a key writes both at once. An enrollment admits
the key and enters its record after an await, if the peer reported a version.
A forget takes the record out, awaits its connection, bindings and surface, and
only then tells the core. The tables agree at rest if no forget of a key
overlaps an admission of it.
-/

set_option autoImplicit false

namespace PaiSho.Membership
open Std (ExtTreeMap)
open PaiSho.GrantTable PaiSho.Enrollment PaiSho.SessionSteps
open PaiSho.SessionCore hiding step
open PaiSho.PinnedPeers (admits)
open PaiSho.Restart (mem_admitKnown mem_evict claim_none claim_some)
open Library.OrderedMaps Library.TaskLists Library.Traces

/-- An enrollment before its insert, a forget before the bind lock, and one that
has taken the record out of the table. -/
inductive Task (K : Type) where
  | enrolling (key : K) (label : Option String)
  | queued (key : K)
  | evicting (key : K)
  | ended
  deriving DecidableEq

def Task.isEvicting {K : Type} : Task K → Bool
  | .evicting _ => true
  | _ => false

structure Shell (K : Type) [LinearOrder K] where
  session : Session K
  peers : ExtTreeMap K (Option String)
  tasks : List (Task K)

inductive Event (K : Type) where
  | accept (key : K) (name : Option String)
  | invite (key : K) (name : Option String)
  | forget (key : K)
  | message (conn : ConnId) (remote : K) (msg : PeerMessage) (now : ℕ)
  | other (op : Op K)
  | run (i : ℕ)

section
variable {K : Type} [LinearOrder K]

def Shell.new : Shell K := ⟨Session.new, ∅, []⟩

def Shell.register (sh : Shell K) (key : K) (name : Option String) (admission : Admission) :
    Shell K :=
  if sh.peers.contains key then sh
  else { sh with
    session := (sh.session.admitKnown key name admission).1
    peers := sh.peers.insert key name }

def Shell.addPeer (sh : Shell K) (key : K) (name : Option String) : Shell K :=
  sh.register key name .added

def Shell.addPinned (sh : Shell K) (key : K) (name : Option String) : Shell K :=
  sh.register key name .key

def neutral : Op K → Bool
  | .onInbound _ _ => true
  | .onEnrollTimeout _ => true
  | .expose _ _ => true
  | .unexpose _ _ => true
  | .mintToken _ _ _ _ => true
  | _ => false

/-- Whether the peer reported its version with its claim: the new record's
version is then awaited before the record goes into the table. -/
def reportsVersion : PeerMessage → Bool
  | .enroll _ version => version.isSome
  | _ => false

def Shell.handleMessage (sh : Shell K) (conn : ConnId) (remote : K) (msg : PeerMessage)
    (now : ℕ) : Shell K :=
  let verdict := sh.session.onUnadmitted conn remote msg now
  let label := verdict.1.labelOf remote
  if verdict.2.any admits then
    if reportsVersion msg then
      { sh with session := verdict.1, tasks := sh.tasks++[.enrolling remote label] }
    else { sh with session := verdict.1, peers := sh.peers.insert remote label }
  else { sh with session := verdict.1 }

/-- The next step of a task. The bind lock is held from the step that takes the
record out to the end of the forget. -/
def taskStep (sh : Shell K) : Task K → Option (Shell K × Task K)
  | .enrolling key label => some ({ sh with peers := sh.peers.insert key label }, .ended)
  | .queued key =>
    if sh.tasks.any Task.isEvicting then none
    else if sh.peers.contains key then
      some ({ sh with peers := sh.peers.erase key }, .evicting key)
    else some ({ sh with session := (sh.session.evict key).1 }, .ended)
  | .evicting key => some ({ sh with session := (sh.session.evict key).1 }, .ended)
  | .ended => none

def step (sh : Shell K) : Event K → Option (Shell K)
  | .accept key name => some (sh.addPeer key name)
  | .invite key name => some (sh.addPinned key name)
  | .forget key =>
    if sh.peers.contains key then some { sh with tasks := sh.tasks++[.queued key] } else none
  | .message conn remote msg now => some (sh.handleMessage conn remote msg now)
  | .other op =>
    if neutral op then some { sh with session := (SessionCore.step sh.session op).1 } else none
  | .run i =>
    match sh.tasks[i]? with
    | none => none
    | some task =>
      (taskStep sh task).map (fun out => { out.1 with tasks := sh.tasks.set i out.2 })

def Reached (evs : List (Event K)) (sh : Shell K) : Prop := exec step Shell.new evs = some sh

/-- Whenever none of the operations is in progress the two tables have the same
keys. -/
def AgreeAfter (evs : List (Event K)) : Prop :=
  ∀ sh, Reached evs sh → (∀ task ∈ sh.tasks, task = .ended) →
    ∀ k, k ∈ sh.peers ↔ k ∈ sh.session.peerKeys

/-- No admission of a key begins while a forget of it has the record out, and no
forget takes the record out while an enrollment of the key is on its way in. -/
def Careful (sh : Shell K) : Event K → Prop
  | .accept key _ => key ∉ sh.peers → .evicting key ∉ sh.tasks
  | .invite key _ => key ∉ sh.peers → .evicting key ∉ sh.tasks
  | .message conn remote msg now =>
    (claimBy sh.session (.onUnadmitted conn remote msg now)).isSome → .evicting remote ∉ sh.tasks
  | .run i => ∀ key label, sh.tasks[i]? = some (.queued key) → .enrolling key label ∉ sh.tasks
  | _ => True

/-- The standing of one key: while a forget has its record out, nothing brings
one in; while an enrollment is on its way in the core knows the key; otherwise
the tables agree. -/
structure Sound (sh : Shell K) (k : K) : Prop where
  out : .evicting k ∈ sh.tasks → k ∉ sh.peers ∧ ∀ label, .enrolling k label ∉ sh.tasks
  coming : ∀ label, .enrolling k label ∈ sh.tasks → k ∈ sh.session.peers
  agree : .evicting k ∉ sh.tasks → (∀ label, .enrolling k label ∉ sh.tasks) →
    (k ∈ sh.peers ↔ k ∈ sh.session.peers)

theorem sound_new (k : K) : Sound (Shell.new : Shell K) k := by
  refine ⟨by simp [Shell.new], by simp [Shell.new], fun _ _ => ?_⟩
  simp [Shell.new, Session.new]

theorem sound_both (sh : Shell K) (s : Session K) (peers : ExtTreeMap K (Option String)) (key k : K)
    (hs : Sound sh k) (hsession : k ∈ s.peers ↔ k = key ∨ k ∈ sh.session.peers)
    (hpeers : k ∈ peers ↔ k = key ∨ k ∈ sh.peers) (hout : .evicting key ∉ sh.tasks) :
    Sound ⟨s, peers, sh.tasks⟩ k := by
  refine ⟨fun he => ?_, fun label hl => hsession.mpr (Or.inr (hs.coming label hl)), fun he hl => ?_⟩
  · obtain ⟨hnot, hnone⟩ := hs.out he
    refine ⟨fun hin => ?_, hnone⟩
    rcases hpeers.mp hin with rfl | hin
    · exact hout he
    · exact hnot hin
  · rw [hpeers, hsession, hs.agree he hl]

theorem sound_register (sh : Shell K) (key k : K) (name : Option String) (admission : Admission)
    (hs : Sound sh k) (hcare : key ∉ sh.peers → .evicting key ∉ sh.tasks) :
    Sound (sh.register key name admission) k := by
  unfold Shell.register
  split_ifs with hin
  · exact hs
  · have hnew : key ∉ sh.peers := fun h => hin (ExtTreeMap.contains_iff_mem.mpr h)
    exact sound_both sh _ _ key k hs (mem_admitKnown sh.session key k name admission)
      (mem_map_insert sh.peers key k name) (hcare hnew)

theorem sound_message (sh : Shell K) (conn : ConnId) (remote k : K) (msg : PeerMessage) (now : ℕ)
    (hs : Sound sh k) (hcare : Careful sh (.message conn remote msg now)) :
    Sound (sh.handleMessage conn remote msg now) k := by
  cases hc : claimBy sh.session (.onUnadmitted conn remote msg now) with
  | none =>
    have hpeers := (onUnadmitted_frame sh.session conn remote msg now hc).1
    simp only [Shell.handleMessage, claim_none sh.session conn remote msg now hc,
      Bool.false_eq_true, if_false]
    exact ⟨hs.out, fun label hl => hpeers ▸ hs.coming label hl, fun he hl => hpeers ▸ hs.agree he hl⟩
  | some found =>
    obtain ⟨key, c⟩ := found
    obtain ⟨rfl, hadmits, hpeers, -⟩ :=
      claim_some (fun _ => "") sh.session conn remote key msg now c hc
    have hout : .evicting key ∉ sh.tasks := hcare (by simp [hc])
    simp only [Shell.handleMessage, hadmits, if_true]
    split_ifs
    · -- the record comes later
      refine ⟨fun he => ?_, fun label hl => ?_, fun he hl => ?_⟩
      · have he' : .evicting k ∈ sh.tasks := by simpa using he
        obtain ⟨hnot, hnone⟩ := hs.out he'
        refine ⟨hnot, fun label hl => ?_⟩
        rcases List.mem_append.mp hl with hl | hl
        · exact hnone label hl
        · obtain ⟨rfl, -⟩ := Task.enrolling.inj (List.mem_singleton.mp hl)
          exact hout he'
      · rcases List.mem_append.mp hl with hl | hl
        · exact (hpeers k).mpr (Or.inr (hs.coming label hl))
        · exact (hpeers k).mpr (Or.inl (Task.enrolling.inj (List.mem_singleton.mp hl)).1)
      · have hne : k ≠ key := by
          rintro rfl
          exact hl _ (List.mem_append_right _ (List.mem_singleton_self _))
        rw [hpeers k, hs.agree (fun h => he (List.mem_append_left _ h))
          (fun label h => hl label (List.mem_append_left _ h))]
        simp [hne]
    · exact sound_both sh _ _ key k hs (hpeers k) (mem_map_insert sh.peers key k _) hout

theorem neutral_peers (s : Session K) (op : Op K) (h : neutral op = true) :
    (SessionCore.step s op).1.peers = s.peers := by
  cases op with
  | onInbound conn remote =>
    simp only [SessionCore.step, Session.onInbound]
    split_ifs <;> rfl
  | onEnrollTimeout conn =>
    simp only [SessionCore.step, Session.onEnrollTimeout]
    cases s.pending[conn]? <;> rfl
  | expose port grantees => rfl
  | unexpose port grantee => rfl
  | mintToken name ports bytes now => rfl
  | _ => simp [neutral] at h

theorem sound_other (sh : Shell K) (s : Session K) (peers : ExtTreeMap K (Option String)) (i : ℕ)
    (task task' : Task K) (k : K) (hs : Sound sh k) (hi : sh.tasks[i]? = some task)
    (hsession : k ∈ s.peers ↔ k ∈ sh.session.peers) (hpeers : k ∈ peers ↔ k ∈ sh.peers)
    (hevict : .evicting k ≠ task ∧ .evicting k ≠ task')
    (henroll : ∀ label, .enrolling k label ≠ task ∧ .enrolling k label ≠ task') :
    Sound ⟨s, peers, sh.tasks.set i task'⟩ k := by
  have he := mem_set_other sh.tasks i task task' (.evicting k) hi hevict.1 hevict.2
  have hl := fun label => mem_set_other sh.tasks i task task' (.enrolling k label) hi
    (henroll label).1 (henroll label).2
  refine ⟨?_, ?_, ?_⟩
  · simp only [he, hl, hpeers]
    exact hs.out
  · simp only [hl, hsession]
    exact hs.coming
  · simp only [he, hl, hpeers, hsession]
    exact hs.agree

theorem sound_evicted (sh : Shell K) (i : ℕ) (task : Task K) (k : K) (hi : sh.tasks[i]? = some task)
    (htask : ∀ label, .enrolling k label ≠ task) (hout : k ∉ sh.peers)
    (hnone : ∀ label, .enrolling k label ∉ sh.tasks) :
    Sound ⟨(sh.session.evict k).1, sh.peers, sh.tasks.set i .ended⟩ k := by
  have hnone' : ∀ label, .enrolling k label ∉ sh.tasks.set i .ended := fun label hl =>
    hnone label ((mem_set_other sh.tasks i _ _ _ hi (htask label) (by simp)).mp hl)
  refine ⟨fun _ => ⟨hout, hnone'⟩, fun label hl => absurd hl (hnone' label), fun _ _ => ?_⟩
  refine iff_of_false hout ?_
  rw [mem_evict]
  simp

theorem sound_run (sh : Shell K) (i : ℕ) (task : Task K) (out : Shell K × Task K) (k : K)
    (hs : Sound sh k) (hcare : Careful sh (.run i)) (hi : sh.tasks[i]? = some task)
    (h : taskStep sh task = some out) : Sound { out.1 with tasks := sh.tasks.set i out.2 } k := by
  have hmem : task ∈ sh.tasks := List.mem_of_getElem? hi
  cases task with
  | enrolling key label =>
    obtain rfl := Option.some.inj h
    by_cases hk : k = key
    · subst hk
      have hnot : .evicting k ∉ sh.tasks := fun he => (hs.out he).2 label hmem
      have hknown := hs.coming label hmem
      refine ⟨fun he => ?_, fun _ _ => hknown, fun _ _ => ?_⟩
      · exact absurd ((mem_set_other sh.tasks i _ _ _ hi (by simp) (by simp)).mp he) hnot
      · exact iff_of_true ((mem_map_insert sh.peers k k label).mpr (Or.inl rfl)) hknown
    · refine sound_other sh _ _ i _ _ k hs hi Iff.rfl ?_ (by simp) (by simp [hk])
      rw [mem_map_insert]
      simp [hk]
  | queued key =>
    have hnone : ∀ label, .enrolling key label ∉ sh.tasks := fun label => hcare key label hi
    simp only [taskStep] at h
    split_ifs at h with hlock hin
    · obtain rfl := Option.some.inj h
      by_cases hk : k = key
      · subst hk
        have hnone' : ∀ label, .enrolling k label ∉ sh.tasks.set i (.evicting k) := fun label hl =>
          hnone label ((mem_set_other sh.tasks i _ _ _ hi (by simp) (by simp)).mp hl)
        refine ⟨fun _ => ⟨?_, hnone'⟩, fun label hl => absurd hl (hnone' label), fun he => ?_⟩
        · rw [mem_map_erase]
          simp
        · exact absurd (mem_set_new sh.tasks i _ _ hi) he
      · refine sound_other sh _ _ i _ _ k hs hi Iff.rfl ?_ (by simp [hk]) (by simp)
        rw [mem_map_erase]
        simp [hk]
    · obtain rfl := Option.some.inj h
      by_cases hk : k = key
      · subst hk
        have hout : k ∉ sh.peers := fun hp => hin (ExtTreeMap.contains_iff_mem.mpr hp)
        exact sound_evicted sh i _ k hi (by simp) hout hnone
      · refine sound_other sh _ _ i _ _ k hs hi ?_ Iff.rfl (by simp) (by simp)
        rw [mem_evict]
        simp [hk]
  | evicting key =>
    obtain rfl := Option.some.inj h
    by_cases hk : k = key
    · subst hk
      obtain ⟨hout, hnone⟩ := hs.out hmem
      exact sound_evicted sh i _ k hi (by simp) hout hnone
    · refine sound_other sh _ _ i _ _ k hs hi ?_ Iff.rfl (by simp [hk]) (by simp)
      rw [mem_evict]
      simp [hk]
  | ended => cases h

theorem sound_step (sh sh' : Shell K) (ev : Event K) (k : K) (hcare : Careful sh ev)
    (hs : Sound sh k) (h : step sh ev = some sh') : Sound sh' k := by
  cases ev with
  | accept key name =>
    obtain rfl := Option.some.inj h
    exact sound_register sh key k name .added hs hcare
  | invite key name =>
    obtain rfl := Option.some.inj h
    exact sound_register sh key k name .key hs hcare
  | forget key =>
    simp only [step] at h
    split_ifs at h
    obtain rfl := Option.some.inj h
    refine ⟨fun he => ?_, fun label hl => ?_, fun he hl => ?_⟩
    · obtain ⟨hout, hnone⟩ := hs.out (by simpa using he)
      exact ⟨hout, by simpa using hnone⟩
    · exact hs.coming label (by simpa using hl)
    · exact hs.agree (by simpa using he) (by simpa using hl)
  | message conn remote msg now =>
    obtain rfl := Option.some.inj h
    exact sound_message sh conn remote k msg now hs hcare
  | other op =>
    simp only [step] at h
    split_ifs at h with hop
    obtain rfl := Option.some.inj h
    have hpeers := neutral_peers sh.session op hop
    exact ⟨hs.out, fun label hl => hpeers ▸ hs.coming label hl, fun he hl => hpeers ▸ hs.agree he hl⟩
  | run i =>
    simp only [step] at h
    split at h
    · cases h
    · rename_i task hi
      obtain ⟨out, hout, rfl⟩ := Option.map_eq_some_iff.mp h
      exact sound_run sh i task out k hs hcare hi hout

/-- In a run in which no forget of a key overlaps an admission of it, the tables
agree whenever nothing is in progress. -/
theorem tables_agree (evs : List (Event K)) (hcare : Along step Careful Shell.new evs) :
    AgreeAfter evs := by
  intro sh h hidle k
  have hs : Sound sh k := along_invariant step Careful (fun sh => Sound sh k)
    (fun s ev t hok hst ht => sound_step s t ev k hok hst ht) Shell.new (sound_new k) evs hcare sh h
  have hno : ∀ task, task ≠ .ended → task ∉ sh.tasks := fun task hne ht => hne (hidle task ht)
  rw [hs.agree (hno _ (by simp)) (fun label => hno _ (by simp)), Session.peerKeys,
    ExtTreeMap.mem_keys]

end

def forgottenBeside : List (Event ℕ) :=
  [.accept 7 none, .forget 7, .run 0, .accept 9 none, .run 0]

theorem forgotten_beside_agree : (∃ sh, Reached forgottenBeside sh ∧
    (∀ task ∈ sh.tasks, task = .ended) ∧ 9 ∈ sh.peers) ∧ AgreeAfter forgottenBeside := by
  refine ⟨⟨_, rfl, by decide +kernel, by decide +kernel⟩, ?_⟩
  apply tables_agree
  refine ⟨fun _ => by decide, ?_⟩
  rintro _ ⟨⟩
  refine ⟨trivial, ?_⟩
  rintro _ ⟨⟩
  refine ⟨fun key label _ hin => ?_, ?_⟩
  · have hqueued : Task.enrolling key label ∈ [Task.queued 7] := hin
    simp at hqueued
  rintro _ ⟨⟩
  refine ⟨fun _ => by decide, ?_⟩
  rintro _ ⟨⟩
  refine ⟨by rintro key label ⟨⟩, ?_⟩
  rintro _ ⟨⟩
  trivial

def acceptedMeanwhile : List (Event ℕ) :=
  [.accept 7 none, .forget 7, .run 0, .accept 7 none, .run 0]

theorem accepted_meanwhile_differs : ¬ AgreeAfter acceptedMeanwhile := by
  intro h
  have hagree := (h _ rfl (by decide +kernel) 7).mp (by decide +kernel)
  revert hagree
  decide +kernel

end PaiSho.Membership
