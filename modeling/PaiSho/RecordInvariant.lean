import PaiSho.Library.TaskLists
import PaiSho.PeerTasks

/-!
# The invariant of a key's records

The table has the only record that is not removed, but for one that a forget has
taken out and is about to mark. An accept or an enrollment is on its way in only
while the table is empty, a task that still has something to give to a record
stands under the bind lock with a record that is not removed, and a removed
record keeps a surface or a binding only until the forget that took it out has
come to it. Here is what a step of each kind has to respect for that.
-/

set_option autoImplicit false

namespace PaiSho.RecordInvariant
open Library.TaskLists
open GrantTable (Port)
open PeerTasks

def isEntering : Task → Bool
  | .enrolling _ _ _ => true
  | .admitting _ _ => true
  | .inserting _ _ => true
  | _ => false

def isMarking : Task → Bool
  | .forget (.marking _) => true
  | _ => false

def evicts (r : ℕ) : Task → Prop
  | .forget (.closing r') => r' = r
  | .forget (.releasing r' _) => r' = r
  | _ => False

def stirs : UpdatePc → Prop
  | .releasing ports _ => ports ≠ []
  | .claiming _ => True
  | .placing _ _ => True
  | .binding _ _ todo => todo ≠ []
  | _ => False

def holds : Task → Prop
  | .update _ (.reading _) => False
  | .update _ (.queued _) => False
  | .update _ _ => True
  | .forget .queued => False
  | .forget _ => True
  | _ => False

/-- No accept or enrollment of the key is on its way in, and no forget has a
record of it in hand that is not marked yet. -/
def Clear (sys : System) : Prop :=
  ∀ task ∈ sys.tasks, isEntering task = false ∧ isMarking task = false

/-- The key is accepted or claimed only while the way is clear, and claimed only
while it has no record; and an announcement with ports gets the bind lock only on
a record that is not removed. -/
def Careful (sys : System) : Event → Prop
  | .add _ _ => Clear sys
  | .claim _ _ => sys.node.peers = none ∧ Clear sys
  | .run i _ => ∀ r ports, sys.tasks[i]? = some (.update r (.queued ports)) →
    (sys.node.records r).removed = false ∨ ports = []
  | _ => True

/-- The table, the forgets that have just taken a record out of it, and the tasks
that will put one in. -/
structure Table (sys : System) : Prop where
  here : ∀ r, sys.node.peers = some r → r < sys.node.fresh ∧ (sys.node.records r).removed = false
  live : ∀ r, r < sys.node.fresh → (sys.node.records r).removed = false →
    sys.node.peers = some r ∨ ∃ i : ℕ, sys.tasks[i]? = some (.forget (.marking r))
  marking : ∀ i r : ℕ, sys.tasks[i]? = some (.forget (.marking r)) →
    r < sys.node.fresh ∧ sys.node.peers = none
  coming : ∀ (i : ℕ) (task : Task), sys.tasks[i]? = some task → isEntering task = true →
    sys.node.peers = none ∧ ∀ j r : ℕ, sys.tasks[j]? ≠ some (.forget (.marking r))
  entry : ∀ (i j : ℕ) (task task' : Task), sys.tasks[i]? = some task → sys.tasks[j]? = some task' →
    isEntering task = true → isEntering task' = true → i = j

structure Loops (sys : System) : Prop where
  made : ∀ (i r : ℕ) (pc : LoopPc), sys.tasks[i]? = some (.loop r pc) → r < sys.node.fresh
  one : ∀ (i j r : ℕ) (pc pc' : LoopPc), sys.tasks[i]? = some (.loop r pc) →
    sys.tasks[j]? = some (.loop r pc') → i = j

structure Locked (sys : System) : Prop where
  lock : ∀ (i : ℕ) (task : Task), sys.tasks[i]? = some task → holds task →
    sys.node.bindLock = some i
  acting : ∀ (i r : ℕ) (pc : UpdatePc), sys.tasks[i]? = some (.update r pc) → stirs pc →
    (sys.node.records r).removed = false

structure TakenDown (sys : System) : Prop where
  evicting : ∀ (i r : ℕ) (task : Task), sys.tasks[i]? = some task → evicts r task →
    r < sys.node.fresh ∧ (sys.node.records r).removed = true
  todo : ∀ (i r : ℕ) (ports : List Port), sys.tasks[i]? = some (.forget (.releasing r ports)) →
    ∀ port ∈ (sys.node.records r).bindings, port ∈ ports
  clean : ∀ r, r < sys.node.fresh → (sys.node.records r).removed = true →
    ((sys.node.records r).surface = none ∧ (sys.node.records r).bindings = []) ∨
      ∃ (i : ℕ) (task : Task), sys.tasks[i]? = some task ∧ evicts r task

structure Inv (sys : System) : Prop where
  table : Table sys
  loops : Loops sys
  locked : Locked sys
  down : TakenDown sys

theorem inv_initial : Inv {} := by
  constructor <;> constructor <;> simp

theorem holds_of_evicts (r : ℕ) (task : Task) (h : evicts r task) : holds task := by
  cases task with
  | forget pc =>
    cases pc with
    | queued => exact h.elim
    | marking r' => trivial
    | closing r' => trivial
    | releasing r' ports => trivial
  | _ => exact h.elim

theorem evicts_one (r r' : ℕ) (task : Task) (h : evicts r task) (h' : evicts r' task) : r = r' := by
  cases task with
  | forget pc =>
    cases pc with
    | queued => exact h.elim
    | marking r₀ => exact h.elim
    | closing r₀ => exact h.symm.trans h'
    | releasing r₀ ports => exact h.symm.trans h'
  | _ => exact h.elim

theorem holds_of_stirs (r : ℕ) (pc : UpdatePc) (h : stirs pc) : holds (.update r pc) := by
  cases pc with
  | reading ports => exact h.elim
  | queued ports => exact h.elim
  | _ => trivial

theorem not_entering_of_holds (task : Task) (h : holds task) : isEntering task = false := by
  cases task with
  | enrolling conn label ports => exact h.elim
  | admitting label dial => exact h.elim
  | inserting label dial => exact h.elim
  | _ => rfl

theorem one_live (sys : System) (hinv : Inv sys) (r r' : ℕ) (hr : r < sys.node.fresh)
    (hr' : r' < sys.node.fresh) (hlive : (sys.node.records r).removed = false)
    (hlive' : (sys.node.records r').removed = false) : r = r' := by
  rcases hinv.table.live r hr hlive with hin | ⟨i, hi⟩
  · rcases hinv.table.live r' hr' hlive' with hin' | ⟨j, hj⟩
    · exact Option.some.inj (hin.symm.trans hin')
    · cases hin.symm.trans (hinv.table.marking j r' hj).2
  · rcases hinv.table.live r' hr' hlive' with hin' | ⟨j, hj⟩
    · cases hin'.symm.trans (hinv.table.marking i r hi).2
    · -- both are marked under the one lock
      have hij : i = j := Option.some.inj
        ((hinv.locked.lock i _ hi trivial).symm.trans (hinv.locked.lock j _ hj trivial))
      subst hij
      exact ForgetPc.marking.inj (Task.forget.inj (Option.some.inj (hi.symm.trans hj)))

/-- What a step of a loop, an inbound handler or an update may change of the
memory: no record comes or goes, and of a removed record nothing grows. -/
structure Plain (nd nd' : Node) : Prop where
  peers : nd'.peers = nd.peers
  fresh : nd'.fresh = nd.fresh
  removed : ∀ r, (nd'.records r).removed = (nd.records r).removed
  surface : ∀ r, (nd.records r).removed = true → (nd'.records r).surface = (nd.records r).surface
  bindings : ∀ r, (nd.records r).removed = true →
    ∀ port ∈ (nd'.records r).bindings, port ∈ (nd.records r).bindings

theorem plain_refl (nd : Node) : Plain nd nd :=
  ⟨rfl, rfl, fun _ => rfl, fun _ _ => rfl, fun _ _ _ => id⟩

theorem plain_setPeer (nd : Node) (r : ℕ) (peer : Peer)
    (hremoved : peer.removed = (nd.records r).removed)
    (hsurface : (nd.records r).removed = true → peer.surface = (nd.records r).surface)
    (hbindings : (nd.records r).removed = true →
      ∀ port ∈ peer.bindings, port ∈ (nd.records r).bindings) : Plain nd (nd.setPeer r peer) := by
  refine ⟨rfl, rfl, fun r' => ?_, fun r' => ?_, fun r' => ?_⟩
  · by_cases hr : r' = r
    · subst hr
      simpa [Node.setPeer] using hremoved
    · simp [Node.setPeer, Function.update_of_ne hr]
  · by_cases hr : r' = r
    · subst hr
      simpa [Node.setPeer] using hsurface
    · simp [Node.setPeer, Function.update_of_ne hr]
  · by_cases hr : r' = r
    · subst hr
      simpa [Node.setPeer] using hbindings
    · simp [Node.setPeer, Function.update_of_ne hr]

theorem plain_same (nd : Node) (r : ℕ) (peer : Peer)
    (hremoved : peer.removed = (nd.records r).removed)
    (hsurface : peer.surface = (nd.records r).surface)
    (hbindings : peer.bindings = (nd.records r).bindings) : Plain nd (nd.setPeer r peer) :=
  plain_setPeer nd r peer hremoved (fun _ => hsurface) (fun _ _ hp => hbindings ▸ hp)

section
variable (sys : System) (nd : Node) (tasks : List Task)

theorem table_kept (hinv : Inv sys) (hpeers : nd.peers = sys.node.peers)
    (hfresh : nd.fresh = sys.node.fresh)
    (hremoved : ∀ r, (nd.records r).removed = (sys.node.records r).removed)
    (hmarks : ∀ j r : ℕ, tasks[j]? = some (.forget (.marking r)) ↔
      sys.tasks[j]? = some (.forget (.marking r)))
    (hentering : ∀ (j : ℕ) (t : Task), tasks[j]? = some t → isEntering t = true →
      ∃ t', sys.tasks[j]? = some t' ∧ isEntering t' = true) : Table ⟨nd, tasks⟩ := by
  constructor
  case here =>
    intro r hr
    rw [hfresh, hremoved]
    exact hinv.table.here r (hpeers ▸ hr)
  case live =>
    intro r hr hlive
    rw [hremoved] at hlive
    rcases hinv.table.live r (hfresh ▸ hr) hlive with h | ⟨i, hi⟩
    · exact Or.inl (hpeers.trans h)
    · exact Or.inr ⟨i, (hmarks i r).mpr hi⟩
  case marking =>
    intro i r hi
    obtain ⟨hlt, hnone⟩ := hinv.table.marking i r ((hmarks i r).mp hi)
    exact ⟨hfresh ▸ hlt, hpeers.trans hnone⟩
  case coming =>
    intro j t hj ht
    obtain ⟨t', hj', ht'⟩ := hentering j t hj ht
    obtain ⟨hnone, hno⟩ := hinv.table.coming j t' hj' ht'
    exact ⟨hpeers.trans hnone, fun k r hk => hno k r ((hmarks k r).mp hk)⟩
  case entry =>
    intro j k t t' hj hk ht ht'
    obtain ⟨u, hu, hue⟩ := hentering j t hj ht
    obtain ⟨v, hv, hve⟩ := hentering k t' hk ht'
    exact hinv.table.entry j k u v hu hv hue hve

theorem loops_kept (hinv : Inv sys) (hfresh : nd.fresh = sys.node.fresh)
    (hold : ∀ (j r : ℕ) (pc : LoopPc), tasks[j]? = some (.loop r pc) →
      ∃ pc', sys.tasks[j]? = some (.loop r pc')) : Loops ⟨nd, tasks⟩ := by
  constructor
  case made =>
    intro j r pc hj
    obtain ⟨pc', h⟩ := hold j r pc hj
    rw [hfresh]
    exact hinv.loops.made j r pc' h
  case one =>
    intro j k r pc pc' hj hk
    obtain ⟨pc₁, h₁⟩ := hold j r pc hj
    obtain ⟨pc₂, h₂⟩ := hold k r pc' hk
    exact hinv.loops.one j k r pc₁ pc₂ h₁ h₂

theorem locked_kept (hinv : Inv sys) (hlock : nd.bindLock = sys.node.bindLock)
    (hremoved : ∀ r, (sys.node.records r).removed = false → (nd.records r).removed = false)
    (hold : ∀ (j : ℕ) (t : Task), tasks[j]? = some t → holds t → sys.tasks[j]? = some t) :
    Locked ⟨nd, tasks⟩ := by
  constructor
  case lock =>
    intro j t hj ht
    exact hlock.trans (hinv.locked.lock j t (hold j t hj ht) ht)
  case acting =>
    intro j r pc hj hs
    exact hremoved r (hinv.locked.acting j r pc (hold j _ hj (holds_of_stirs r pc hs)) hs)

theorem locked_alone (i : ℕ) (task : Task)
    (hupdate : ∀ r pc, task ≠ .update r pc) (hlock : holds task → nd.bindLock = some i)
    (hold : ∀ (j : ℕ) (t : Task), tasks[j]? = some t → holds t → j = i ∧ t = task) :
    Locked ⟨nd, tasks⟩ := by
  constructor
  case lock =>
    intro j t hj ht
    obtain ⟨rfl, rfl⟩ := hold j t hj ht
    exact hlock ht
  case acting =>
    intro j r pc hj hs
    exact absurd (hold j _ hj (holds_of_stirs r pc hs)).2.symm (hupdate r pc)

theorem down_kept (hinv : Inv sys) (hfresh : nd.fresh = sys.node.fresh)
    (hremoved : ∀ r, (nd.records r).removed = (sys.node.records r).removed)
    (hsurface : ∀ r, (sys.node.records r).removed = true →
      (nd.records r).surface = (sys.node.records r).surface)
    (hbindings : ∀ r, (sys.node.records r).removed = true →
      ∀ port ∈ (nd.records r).bindings, port ∈ (sys.node.records r).bindings)
    (hevicts : ∀ (j r : ℕ) (t : Task), evicts r t → (tasks[j]? = some t ↔ sys.tasks[j]? = some t)) :
    TakenDown ⟨nd, tasks⟩ := by
  constructor
  case evicting =>
    intro j r t hj ht
    rw [hfresh, hremoved]
    exact hinv.down.evicting j r t ((hevicts j r t ht).mp hj) ht
  case todo =>
    intro j r ports hj port hp
    have h := (hevicts j r (.forget (.releasing r ports)) rfl).mp hj
    have hgone := (hinv.down.evicting j r _ h rfl).2
    exact hinv.down.todo j r ports h port (hbindings r hgone port hp)
  case clean =>
    intro r hr hgone
    rw [hremoved] at hgone
    rcases hinv.down.clean r (hfresh ▸ hr) hgone with ⟨hsame, hnone⟩ | ⟨j, t, hj, ht⟩
    · refine Or.inl ⟨(hsurface r hgone).trans hsame, ?_⟩
      apply List.eq_nil_iff_forall_not_mem.mpr
      intro port hp
      have := hbindings r hgone port hp
      rw [hnone] at this
      cases this
    · exact Or.inr ⟨j, t, (hevicts j r t ht).mpr hj, ht⟩

end

theorem get_moved (tasks spawned : List Task) (i j : ℕ) (task t : Task)
    (hspawned : ∀ t ∈ spawned, ∃ r ports, t = .update r (.reading ports))
    (hkind : ∀ r ports, t ≠ .update r (.reading ports))
    (hj : (tasks.set i task ++ spawned)[j]? = some t) :
    (j = i ∧ t = task) ∨ (j ≠ i ∧ tasks[j]? = some t) := by
  rcases get_after tasks spawned i j task t hj with h | h | ⟨-, h⟩
  · exact Or.inl h
  · exact Or.inr h
  · obtain ⟨r, ports, rfl⟩ := hspawned t (List.mem_of_getElem? h)
    exact absurd rfl (hkind r ports)

theorem get_forget (tasks spawned : List Task) (i j : ℕ) (old task : Task) (pc : ForgetPc)
    (hspawned : ∀ t ∈ spawned, ∃ r ports, t = .update r (.reading ports))
    (hi : tasks[i]? = some old) (hold : old ≠ .forget pc) (hnew : task ≠ .forget pc) :
    (tasks.set i task ++ spawned)[j]? = some (.forget pc) ↔ tasks[j]? = some (.forget pc) := by
  constructor
  · intro hj
    rcases get_moved tasks spawned i j task _ hspawned (by simp) hj with ⟨-, h⟩ | ⟨-, h⟩
    · exact absurd h.symm hnew
    · exact h
  · intro hj
    have hne : i ≠ j := by
      rintro rfl
      exact hold (Option.some.inj (hi.symm.trans hj))
    have hlt : j < (tasks.set i task).length := by
      rw [List.length_set]
      exact (List.getElem?_eq_some_iff.mp hj).1
    rw [List.getElem?_append_left hlt, List.getElem?_set_ne hne, hj]

/-- What a step of a loop, of an inbound handler, of an update, of an accept that
admits its key or of a forget that finds no record leaves of its task. -/
structure Moved (sys : System) (i : ℕ) (task : Task) (out : Outcome) : Prop where
  plain : Plain sys.node out.node
  forget : ∀ pc, task = .forget pc → pc = .queued
  forget' : ∀ pc, out.task ≠ .forget pc
  enter : isEntering out.task = true → isEntering task = true
  loop : ∀ r pc, out.task = .loop r pc → ∃ pc', task = .loop r pc'
  stir : ∀ r pc, out.task = .update r pc → stirs pc → (sys.node.records r).removed = false
  spawned : ∀ t ∈ out.spawned, ∃ r ports, t = .update r (.reading ports)
  lock : (out.node.bindLock = sys.node.bindLock ∧ (holds out.task → holds task)) ∨
    (sys.node.bindLock = none ∧ out.node.bindLock = some i) ∨ (holds task ∧ ¬ holds out.task)

theorem locked_moved (sys : System) (i : ℕ) (task : Task) (out : Outcome) (hinv : Inv sys)
    (hi : sys.tasks[i]? = some task) (hm : Moved sys i task out) :
    Locked ⟨out.node, sys.tasks.set i out.task ++ out.spawned⟩ := by
  constructor
  case lock =>
    intro j t hj ht
    have hreading : ∀ r ports, t ≠ .update r (.reading ports) := by
      rintro r ports rfl
      exact ht
    rcases get_moved sys.tasks _ i j _ t hm.spawned hreading hj with ⟨rfl, rfl⟩ | ⟨hne, h⟩
    · rcases hm.lock with ⟨hsame, hheld⟩ | ⟨-, hnow⟩ | ⟨-, hfree⟩
      · exact hsame.trans (hinv.locked.lock j task hi (hheld ht))
      · exact hnow
      · exact absurd ht hfree
    · have hheld := hinv.locked.lock j t h ht
      rcases hm.lock with ⟨hsame, -⟩ | ⟨hnone, -⟩ | ⟨hmine, -⟩
      · exact hsame.trans hheld
      · rw [hnone] at hheld
        cases hheld
      · have := hinv.locked.lock i task hi hmine
        exact absurd (Option.some.inj (hheld.symm.trans this)) hne
  case acting =>
    intro j r pc hj hs
    rw [hm.plain.removed]
    have hreading : ∀ r' ports, Task.update r pc ≠ .update r' (.reading ports) := by
      rintro r' ports heq
      obtain ⟨-, rfl⟩ := Task.update.inj heq
      exact hs
    rcases get_moved sys.tasks _ i j _ _ hm.spawned hreading hj with ⟨-, h⟩ | ⟨-, h⟩
    · exact hm.stir r pc h.symm hs
    · exact hinv.locked.acting j r pc h hs

theorem inv_plain (sys : System) (i : ℕ) (task : Task) (out : Outcome) (hinv : Inv sys)
    (hi : sys.tasks[i]? = some task) (hm : Moved sys i task out) :
    Inv ⟨out.node, sys.tasks.set i out.task ++ out.spawned⟩ := by
  have hforget : ∀ (j : ℕ) (pc : ForgetPc), pc ≠ .queued →
      ((sys.tasks.set i out.task ++ out.spawned)[j]? = some (.forget pc) ↔
        sys.tasks[j]? = some (.forget pc)) := fun j pc hpc =>
    get_forget sys.tasks _ i j task _ pc hm.spawned hi (fun h => hpc (hm.forget pc h)) (hm.forget' pc)
  refine ⟨?_, ?_, locked_moved sys i task out hinv hi hm, ?_⟩
  · refine table_kept sys _ _ hinv hm.plain.peers hm.plain.fresh hm.plain.removed
      (fun j r => hforget j _ (by simp)) ?_
    intro j t hj ht
    have hreading : ∀ r ports, t ≠ .update r (.reading ports) := by
      rintro r ports rfl
      cases ht
    rcases get_moved sys.tasks _ i j _ t hm.spawned hreading hj with ⟨rfl, rfl⟩ | ⟨-, h⟩
    · exact ⟨task, hi, hm.enter ht⟩
    · exact ⟨t, h, ht⟩
  · refine loops_kept sys _ _ hinv hm.plain.fresh ?_
    intro j r pc hj
    rcases get_moved sys.tasks _ i j _ _ hm.spawned (by simp) hj with ⟨rfl, h⟩ | ⟨-, h⟩
    · obtain ⟨pc', rfl⟩ := hm.loop r pc h.symm
      exact ⟨pc', hi⟩
    · exact ⟨pc, h⟩
  · refine down_kept sys _ _ hinv hm.plain.fresh hm.plain.removed hm.plain.surface
      hm.plain.bindings ?_
    intro j r t ht
    cases t with
    | forget pc => exact hforget j pc (by rintro rfl; exact ht)
    | _ => exact ht.elim

/-- The tasks after a record was entered: those before, less the one that entered
it, with the record's loop and perhaps an announcement for it. -/
structure Entered (sys : System) (tasks : List Task) : Prop where
  old : ∀ (j : ℕ) (t : Task), tasks[j]? = some t →
    (sys.tasks[j]? = some t ∧ isEntering t = false) ∨ t = .ended ∨
    (j = sys.tasks.length ∧ t = .loop sys.node.fresh .top) ∨
    ∃ ports, t = .update sys.node.fresh (.queued ports)
  kept : ∀ (j r : ℕ) (t : Task), evicts r t → sys.tasks[j]? = some t → tasks[j]? = some t

theorem Entered.forget {sys : System} {tasks : List Task} (h : Entered sys tasks) (j : ℕ)
    (pc : ForgetPc) (hj : tasks[j]? = some (.forget pc)) : sys.tasks[j]? = some (.forget pc) := by
  rcases h.old j _ hj with ⟨hold, -⟩ | heq | ⟨-, heq⟩ | ⟨ports, heq⟩
  · exact hold
  · cases heq
  · cases heq
  · cases heq

theorem Entered.calm {sys : System} {tasks : List Task} (h : Entered sys tasks) (j : ℕ) (t : Task)
    (hj : tasks[j]? = some t) : isEntering t = false := by
  rcases h.old j t hj with ⟨-, hcalm⟩ | rfl | ⟨-, rfl⟩ | ⟨ports, rfl⟩
  · exact hcalm
  · rfl
  · rfl
  · rfl

section
variable (sys : System) (peer : Peer) (tasks : List Task)

theorem table_entered (hinv : Inv sys) (hnone : sys.node.peers = none)
    (hno : ∀ j r : ℕ, sys.tasks[j]? ≠ some (.forget (.marking r))) (hpeer : peer.removed = false)
    (h : Entered sys tasks) : Table ⟨sys.node.insertPeer peer, tasks⟩ := by
  have hnew : (sys.node.insertPeer peer).records sys.node.fresh = peer := by
    simp [Node.insertPeer, Node.setPeer]
  have hold : ∀ r, r ≠ sys.node.fresh →
      (sys.node.insertPeer peer).records r = sys.node.records r := by
    intro r hr
    simp [Node.insertPeer, Node.setPeer, Function.update_of_ne hr]
  constructor
  case here =>
    intro r hr
    obtain rfl : sys.node.fresh = r := Option.some.inj hr
    exact ⟨Nat.lt_succ_self _, by rw [hnew, hpeer]⟩
  case live =>
    intro r hr hlive
    by_cases hne : r = sys.node.fresh
    · exact Or.inl (congrArg some hne.symm)
    · rw [hold r hne] at hlive
      have hlt : r < sys.node.fresh := Nat.lt_of_le_of_ne (Nat.le_of_lt_succ hr) hne
      rcases hinv.table.live r hlt hlive with hin | ⟨j, hj⟩
      · cases hnone.symm.trans hin
      · exact absurd hj (hno j r)
  case marking => exact fun j r hj => absurd (h.forget j _ hj) (hno j r)
  case coming =>
    intro j t hj ht
    cases (h.calm j t hj).symm.trans ht
  case entry =>
    intro j k t t' hj _ ht
    cases (h.calm j t hj).symm.trans ht

theorem loops_entered (hinv : Inv sys) (h : Entered sys tasks) :
    Loops ⟨sys.node.insertPeer peer, tasks⟩ := by
  have hloops : ∀ (j r : ℕ) (pc : LoopPc), tasks[j]? = some (.loop r pc) →
      sys.tasks[j]? = some (.loop r pc) ∨ j = sys.tasks.length ∧ r = sys.node.fresh := by
    intro j r pc hj
    rcases h.old j _ hj with ⟨hold, -⟩ | heq | ⟨hlen, heq⟩ | ⟨ports, heq⟩
    · exact Or.inl hold
    · cases heq
    · exact Or.inr ⟨hlen, (Task.loop.inj heq).1⟩
    · cases heq
  constructor
  case made =>
    intro j r pc hj
    rcases hloops j r pc hj with hold | ⟨-, rfl⟩
    · exact Nat.lt_succ_of_lt (hinv.loops.made j r pc hold)
    · exact Nat.lt_succ_self _
  case one =>
    intro j k r pc pc' hj hk
    rcases hloops j r pc hj with hold | ⟨hjlen, hr⟩
    · rcases hloops k r pc' hk with hold' | ⟨-, hr⟩
      · exact hinv.loops.one j k r pc pc' hold hold'
      · have := hinv.loops.made j r pc hold
        omega
    · rcases hloops k r pc' hk with hold' | ⟨hklen, -⟩
      · have := hinv.loops.made k r pc' hold'
        omega
      · omega

theorem locked_entered (hinv : Inv sys) (hpeer : peer.removed = false) (h : Entered sys tasks) :
    Locked ⟨sys.node.insertPeer peer, tasks⟩ := by
  refine locked_kept sys _ tasks hinv rfl (fun r hlive => ?_) fun j t hj ht => ?_
  · by_cases hr : r = sys.node.fresh
    · subst hr
      simpa [Node.insertPeer, Node.setPeer] using hpeer
    · simpa [Node.insertPeer, Node.setPeer, Function.update_of_ne hr] using hlive
  · rcases h.old j t hj with ⟨hold, -⟩ | rfl | ⟨-, rfl⟩ | ⟨ports, rfl⟩
    · exact hold
    · exact ht.elim
    · exact ht.elim
    · exact ht.elim

theorem down_entered (hinv : Inv sys) (hpeer : peer.removed = false) (h : Entered sys tasks) :
    TakenDown ⟨sys.node.insertPeer peer, tasks⟩ := by
  have hold : ∀ r, r < sys.node.fresh →
      (sys.node.insertPeer peer).records r = sys.node.records r := by
    intro r hr
    simp [Node.insertPeer, Node.setPeer, Function.update_of_ne (Nat.ne_of_lt hr)]
  have hevicts : ∀ (j r : ℕ) (t : Task), tasks[j]? = some t → evicts r t →
      sys.tasks[j]? = some t := by
    intro j r t hj ht
    cases t with
    | forget pc => exact h.forget j pc hj
    | _ => exact ht.elim
  constructor
  case evicting =>
    intro j r t hj ht
    obtain ⟨hlt, hgone⟩ := hinv.down.evicting j r t (hevicts j r t hj ht) ht
    exact ⟨Nat.lt_succ_of_lt hlt, by rw [hold r hlt, hgone]⟩
  case todo =>
    intro j r ports hj
    have hj' := h.forget j _ hj
    rw [hold r (hinv.down.evicting j r _ hj' rfl).1]
    exact hinv.down.todo j r ports hj'
  case clean =>
    intro r hr hgone
    by_cases hne : r = sys.node.fresh
    · subst hne
      simp [Node.insertPeer, Node.setPeer, hpeer] at hgone
    · have hlt : r < sys.node.fresh := Nat.lt_of_le_of_ne (Nat.le_of_lt_succ hr) hne
      rw [hold r hlt] at hgone ⊢
      rcases hinv.down.clean r hlt hgone with hclean | ⟨j, t, hj, ht⟩
      · exact Or.inl hclean
      · exact Or.inr ⟨j, t, h.kept j r t ht hj, ht⟩

theorem inv_insert (hinv : Inv sys) (hnone : sys.node.peers = none)
    (hno : ∀ j r : ℕ, sys.tasks[j]? ≠ some (.forget (.marking r))) (hpeer : peer.removed = false)
    (h : Entered sys tasks) : Inv ⟨sys.node.insertPeer peer, tasks⟩ :=
  ⟨table_entered sys peer tasks hinv hnone hno hpeer h, loops_entered sys peer tasks hinv h,
    locked_entered sys peer tasks hinv hpeer h, down_entered sys peer tasks hinv hpeer h⟩

end

theorem get_forgetting (sys : System) (i : ℕ) (task' : Task) (hinv : Inv sys)
    (hmine : sys.node.bindLock = none ∨ sys.node.bindLock = some i) (j : ℕ) (t : Task)
    (hj : (sys.tasks.set i task' ++ [])[j]? = some t) :
    (j = i ∧ t = task') ∨ (sys.tasks[j]? = some t ∧ ¬ holds t) := by
  rcases get_after sys.tasks [] i j _ t hj with h | ⟨hne, h⟩ | ⟨-, h⟩
  · exact Or.inl h
  · refine Or.inr ⟨h, fun ht => ?_⟩
    have hheld := hinv.locked.lock j t h ht
    rcases hmine with hfree | hmine
    · cases hfree.symm.trans hheld
    · exact hne (Option.some.inj (hheld.symm.trans hmine))
  · cases h

theorem get_bystander (sys : System) (i : ℕ) (task' t : Task) (hother : ∀ pc, t ≠ .forget pc)
    (hended : t ≠ .ended) (htask' : task' = .ended ∨ ∃ pc, task' = .forget pc) (j : ℕ)
    (hj : (sys.tasks.set i task' ++ [])[j]? = some t) : sys.tasks[j]? = some t := by
  rcases get_after sys.tasks [] i j _ t hj with ⟨-, rfl⟩ | ⟨-, h⟩ | ⟨-, h⟩
  · rcases htask' with rfl | ⟨pc', rfl⟩
    · exact absurd rfl hended
    · exact absurd rfl (hother pc')
  · exact h
  · cases h

theorem loops_forgetting (sys : System) (nd : Node) (i : ℕ) (task' : Task)
    (hinv : Inv sys) (hfresh : nd.fresh = sys.node.fresh)
    (htask' : task' = .ended ∨ ∃ pc, task' = .forget pc) :
    Loops ⟨nd, sys.tasks.set i task' ++ []⟩ :=
  loops_kept sys nd _ hinv hfresh fun j r pc hj =>
    ⟨pc, get_bystander sys i task' (.loop r pc) (by simp) (by simp) htask' j hj⟩

theorem locked_forgetting (sys : System) (nd : Node) (i : ℕ) (task' : Task) (hinv : Inv sys)
    (hmine : sys.node.bindLock = none ∨ sys.node.bindLock = some i)
    (hlock : holds task' → nd.bindLock = some i) (hupdate : ∀ r pc, task' ≠ .update r pc) :
    Locked ⟨nd, sys.tasks.set i task' ++ []⟩ :=
  locked_alone nd _ i task' hupdate hlock fun j t hj ht =>
    (get_forgetting sys i task' hinv hmine j t hj).resolve_right fun h => h.2 ht

theorem down_forgetting (sys : System) (nd : Node) (i : ℕ) (task' : Task) (hinv : Inv sys)
    (hmine : sys.node.bindLock = none ∨ sys.node.bindLock = some i)
    (hold : ∀ r t, sys.tasks[i]? = some t → ¬ evicts r t)
    (hnew : ∀ r, evicts r task' → r < nd.fresh ∧ (nd.records r).removed = true)
    (htodo : ∀ r ports, task' ≠ .forget (.releasing r ports))
    (hclean : ∀ r, r < nd.fresh → (nd.records r).removed = true →
      (r < sys.node.fresh ∧ nd.records r = sys.node.records r) ∨
        ∃ t, (sys.tasks.set i task' ++ [])[i]? = some t ∧ evicts r t) :
    TakenDown ⟨nd, sys.tasks.set i task' ++ []⟩ := by
  have hget := get_forgetting sys i task' hinv hmine
  constructor
  case evicting =>
    intro j r t hj ht
    rcases hget j t hj with ⟨-, rfl⟩ | ⟨-, h⟩
    · exact hnew r ht
    · exact absurd (holds_of_evicts r t ht) h
  case todo =>
    intro j r ports hj
    rcases hget j _ hj with ⟨-, h⟩ | ⟨-, h⟩
    · exact absurd h.symm (htodo r ports)
    · exact absurd trivial h
  case clean =>
    intro r hr hgone
    rcases hclean r hr hgone with ⟨hlt, hsame⟩ | ⟨t, ht, hevicts⟩
    · rw [hsame] at hgone ⊢
      rcases hinv.down.clean r hlt hgone with hclean | ⟨j, t, hj, ht⟩
      · exact Or.inl hclean
      · -- whoever takes down that record holds the lock, and that is not this task
        have hheld := hinv.locked.lock j t hj (holds_of_evicts r t ht)
        rcases hmine with hfree | hmine
        · cases hfree.symm.trans hheld
        · obtain rfl : i = j := Option.some.inj (hmine.symm.trans hheld)
          exact absurd ht (hold r t hj)
    · exact Or.inr ⟨i, t, ht, hevicts⟩

theorem table_taken (sys : System) (nd : Node) (i r : ℕ) (hinv : Inv sys)
    (hi : sys.tasks[i]? = some (.forget .queued)) (hfree : sys.node.bindLock = none)
    (hin : sys.node.peers = some r) (hrecords : nd.records = sys.node.records)
    (hout : nd.peers = none) (hfresh : nd.fresh = sys.node.fresh) :
    Table ⟨nd, sys.tasks.set i (.forget (.marking r)) ++ []⟩ := by
  have hget := get_forgetting sys i (.forget (.marking r)) hinv (Or.inl hfree)
  have hi' : i < sys.tasks.length := (List.getElem?_eq_some_iff.mp hi).1
  obtain ⟨hlt, hlive⟩ := hinv.table.here r hin
  have hcalm : ∀ (j : ℕ) (t : Task),
      (sys.tasks.set i (.forget (.marking r)) ++ [])[j]? = some t → isEntering t = false := by
    intro j t hj
    rcases hget j t hj with ⟨-, rfl⟩ | ⟨h, -⟩
    · rfl
    · by_contra ht
      cases (hinv.table.coming j t h (by simpa using ht)).1.symm.trans hin
  constructor
  case here => exact fun r' hr' => nomatch hout.symm.trans hr'
  case live =>
    intro r' hr' hlive'
    rw [hrecords] at hlive'
    obtain rfl := one_live sys hinv r' r (hfresh ▸ hr') hlt hlive' hlive
    exact Or.inr ⟨i, by rw [List.append_nil, List.getElem?_set_self hi']⟩
  case marking =>
    intro j r' hj
    rcases hget j _ hj with ⟨-, h⟩ | ⟨-, h⟩
    · obtain rfl := ForgetPc.marking.inj (Task.forget.inj h)
      exact ⟨hfresh ▸ hlt, hout⟩
    · exact absurd trivial h
  case coming => exact fun j t hj ht => nomatch (hcalm j t hj).symm.trans ht
  case entry => exact fun j _ t _ hj _ ht _ => nomatch (hcalm j t hj).symm.trans ht

theorem inv_take (sys : System) (nd : Node) (i r : ℕ) (hinv : Inv sys)
    (hi : sys.tasks[i]? = some (.forget .queued)) (hfree : sys.node.bindLock = none)
    (hin : sys.node.peers = some r) (hrecords : nd.records = sys.node.records)
    (hout : nd.peers = none) (hfresh : nd.fresh = sys.node.fresh) (hlock : nd.bindLock = some i) :
    Inv ⟨nd, sys.tasks.set i (.forget (.marking r)) ++ []⟩ := by
  refine ⟨table_taken sys nd i r hinv hi hfree hin hrecords hout hfresh,
    loops_forgetting sys nd i _ hinv hfresh (Or.inr ⟨_, rfl⟩),
    locked_forgetting sys nd i _ hinv (Or.inl hfree) (fun _ => hlock) (by simp),
    down_forgetting sys nd i _ hinv (Or.inl hfree) ?_ (fun _ => False.elim) (by simp) ?_⟩
  · rintro r' t ht h
    obtain rfl := Option.some.inj (hi.symm.trans ht)
    exact h
  · exact fun r' hr' _ => Or.inl ⟨hfresh ▸ hr', by rw [hrecords]⟩

theorem table_marked (sys : System) (nd : Node) (i r : ℕ) (peer : Peer) (hinv : Inv sys)
    (hi : sys.tasks[i]? = some (.forget (.marking r)))
    (hrecords : nd.records = Function.update sys.node.records r peer)
    (hpeer : peer.removed = true) (hpeers : nd.peers = sys.node.peers)
    (hfresh : nd.fresh = sys.node.fresh) :
    Table ⟨nd, sys.tasks.set i (.forget (.closing r)) ++ []⟩ := by
  have hmine := hinv.locked.lock i _ hi trivial
  have hget := get_forgetting sys i (.forget (.closing r)) hinv (Or.inr hmine)
  obtain ⟨-, hnone⟩ := hinv.table.marking i r hi
  have hcalm : ∀ (j : ℕ) (t : Task),
      (sys.tasks.set i (.forget (.closing r)) ++ [])[j]? = some t → isEntering t = false := by
    intro j t hj
    rcases hget j t hj with ⟨-, rfl⟩ | ⟨h, -⟩
    · rfl
    · by_contra ht
      exact (hinv.table.coming j t h (by simpa using ht)).2 i r hi
  constructor
  case here => exact fun r' hr' => nomatch (hpeers.trans hnone).symm.trans hr'
  case live =>
    intro r' hr' hlive
    by_cases h : r' = r
    · subst h
      rw [hrecords, Function.update_self, hpeer] at hlive
      cases hlive
    · rw [hrecords, Function.update_of_ne h] at hlive
      rcases hinv.table.live r' (hfresh ▸ hr') hlive with hin | ⟨j, hj⟩
      · cases hnone.symm.trans hin
      · obtain rfl : i = j := Option.some.inj
          (hmine.symm.trans (hinv.locked.lock j _ hj trivial))
        exact absurd (ForgetPc.marking.inj (Task.forget.inj (Option.some.inj (hj.symm.trans hi)))) h
  case marking =>
    intro j r' hj
    rcases hget j _ hj with ⟨-, h⟩ | ⟨-, h⟩
    · cases h
    · exact absurd trivial h
  case coming => exact fun j t hj ht => nomatch (hcalm j t hj).symm.trans ht
  case entry => exact fun j _ t _ hj _ ht _ => nomatch (hcalm j t hj).symm.trans ht

theorem inv_mark (sys : System) (nd : Node) (i r : ℕ) (peer : Peer) (hinv : Inv sys)
    (hi : sys.tasks[i]? = some (.forget (.marking r)))
    (hrecords : nd.records = Function.update sys.node.records r peer)
    (hpeer : peer.removed = true) (hpeers : nd.peers = sys.node.peers)
    (hfresh : nd.fresh = sys.node.fresh) (hlock : nd.bindLock = sys.node.bindLock) :
    Inv ⟨nd, sys.tasks.set i (.forget (.closing r)) ++ []⟩ := by
  have hi' : i < sys.tasks.length := (List.getElem?_eq_some_iff.mp hi).1
  have hmine := hinv.locked.lock i _ hi trivial
  have hself : nd.records r = peer := by simp [hrecords]
  refine ⟨table_marked sys nd i r peer hinv hi hrecords hpeer hpeers hfresh,
    loops_forgetting sys nd i _ hinv hfresh (Or.inr ⟨_, rfl⟩),
    locked_forgetting sys nd i _ hinv (Or.inr hmine) (fun _ => hlock.trans hmine) (by simp),
    down_forgetting sys nd i _ hinv (Or.inr hmine) ?_ ?_ (by simp) ?_⟩
  · rintro r' t ht h
    obtain rfl := Option.some.inj (hi.symm.trans ht)
    exact h
  · intro r' h
    obtain rfl : r = r' := h
    exact ⟨hfresh ▸ (hinv.table.marking i r hi).1, by rw [hself, hpeer]⟩
  · intro r' hr' _
    by_cases h : r' = r
    · subst h
      exact Or.inr ⟨.forget (.closing r'), by rw [List.append_nil, List.getElem?_set_self hi'], rfl⟩
    · exact Or.inl ⟨hfresh ▸ hr', by rw [hrecords, Function.update_of_ne h]⟩

/-- The further steps of a forget: it takes down the surface and the bindings of
its own record, and touches no other. -/
structure TakesDown (sys : System) (nd : Node) (r : ℕ) (task' : Task) (peer : Peer) : Prop where
  records : nd.records = Function.update sys.node.records r peer
  removed : peer.removed = (sys.node.records r).removed
  peers : nd.peers = sys.node.peers
  fresh : nd.fresh = sys.node.fresh
  next : (task' = .ended ∧ peer.surface = none ∧ peer.bindings = []) ∨
    nd.bindLock = sys.node.bindLock ∧ ∃ todo, task' = .forget (.releasing r todo) ∧
      ∀ port ∈ peer.bindings, port ∈ todo

theorem TakesDown.marks {sys : System} {nd : Node} {r : ℕ} {task' : Task} {peer : Peer}
    (h : TakesDown sys nd r task' peer) (r' : ℕ) :
    (nd.records r').removed = (sys.node.records r').removed := by
  rw [h.records]
  by_cases hr : r' = r
  · subst hr
    rw [Function.update_self, h.removed]
  · rw [Function.update_of_ne hr]

theorem TakesDown.task {sys : System} {nd : Node} {r : ℕ} {task' : Task} {peer : Peer}
    (h : TakesDown sys nd r task' peer) :
    task' = .ended ∨ ∃ pc, task' = .forget pc ∧ pc ≠ .queued ∧ ∀ r', pc ≠ .marking r' := by
  rcases h.next with ⟨rfl, -⟩ | ⟨-, todo, rfl, -⟩
  · exact Or.inl rfl
  · exact Or.inr ⟨_, rfl, by simp, by simp⟩

theorem table_evicted (sys : System) (nd : Node) (i r : ℕ) (task task' : Task) (peer : Peer)
    (hinv : Inv sys) (hi : sys.tasks[i]? = some task) (htask : evicts r task)
    (h : TakesDown sys nd r task' peer) : Table ⟨nd, sys.tasks.set i task' ++ []⟩ := by
  have hmine := hinv.locked.lock i task hi (holds_of_evicts r task htask)
  have hget := get_forgetting sys i task' hinv (Or.inr hmine)
  refine table_kept sys nd _ hinv h.peers h.fresh h.marks (fun j r' => ?_) fun j t hj ht => ?_
  · -- nobody but this forget is under the lock, and it is past the mark
    constructor
    · intro hj
      rcases hget j _ hj with ⟨-, heq⟩ | ⟨-, hno⟩
      · rcases h.task with rfl | ⟨pc, rfl, -, hpc⟩
        · cases heq
        · exact absurd (Task.forget.inj heq).symm (hpc r')
      · exact absurd trivial hno
    · intro hj
      obtain rfl : i = j := Option.some.inj (hmine.symm.trans (hinv.locked.lock j _ hj trivial))
      obtain rfl := Option.some.inj (hi.symm.trans hj)
      exact htask.elim
  · rcases hget j t hj with ⟨-, rfl⟩ | ⟨hold, -⟩
    · rcases h.task with rfl | ⟨pc, rfl, -⟩
      · cases ht
      · cases ht
    · exact ⟨t, hold, ht⟩

theorem down_evicted (sys : System) (nd : Node) (i r : ℕ) (task task' : Task) (peer : Peer)
    (hinv : Inv sys) (hi : sys.tasks[i]? = some task) (htask : evicts r task)
    (h : TakesDown sys nd r task' peer) : TakenDown ⟨nd, sys.tasks.set i task' ++ []⟩ := by
  have hi' : i < sys.tasks.length := (List.getElem?_eq_some_iff.mp hi).1
  have hmine := hinv.locked.lock i task hi (holds_of_evicts r task htask)
  have hget := get_forgetting sys i task' hinv (Or.inr hmine)
  have hself : nd.records r = peer := by simp [h.records]
  constructor
  case evicting =>
    intro j r' t hj ht
    rw [h.fresh, h.marks]
    rcases hget j t hj with ⟨-, rfl⟩ | ⟨-, hno⟩
    · rcases h.next with ⟨rfl, -⟩ | ⟨-, todo, rfl, -⟩
      · exact ht.elim
      · obtain rfl : r = r' := ht
        exact hinv.down.evicting i r task hi htask
    · exact absurd (holds_of_evicts r' t ht) hno
  case todo =>
    intro j r' ports hj
    rcases hget j _ hj with ⟨-, heq⟩ | ⟨-, hno⟩
    · rcases h.next with ⟨rfl, -⟩ | ⟨-, todo, rfl, htodo⟩
      · cases heq
      · obtain ⟨rfl, rfl⟩ := ForgetPc.releasing.inj (Task.forget.inj heq)
        rw [hself]
        exact htodo
    · exact absurd trivial hno
  case clean =>
    intro r' hr' hgone
    by_cases hr : r' = r
    · subst hr
      rcases h.next with ⟨-, hclean⟩ | ⟨-, todo, rfl, -⟩
      · rw [hself]
        exact Or.inl hclean
      · exact Or.inr ⟨i, .forget (.releasing r' todo),
          by rw [List.append_nil, List.getElem?_set_self hi'], rfl⟩
    · rw [h.marks] at hgone
      rw [h.records, Function.update_of_ne hr]
      rcases hinv.down.clean r' (h.fresh ▸ hr') hgone with hclean | ⟨j, t, hj, ht⟩
      · exact Or.inl hclean
      · -- the only forget under way is on another record
        obtain rfl : j = i := Option.some.inj
          ((hinv.locked.lock j t hj (holds_of_evicts r' t ht)).symm.trans hmine)
        obtain rfl := Option.some.inj (hi.symm.trans hj)
        exact absurd (evicts_one r' r task ht htask) hr

theorem inv_evict (sys : System) (nd : Node) (i r : ℕ) (task task' : Task) (peer : Peer)
    (hinv : Inv sys) (hi : sys.tasks[i]? = some task) (htask : evicts r task)
    (h : TakesDown sys nd r task' peer) : Inv ⟨nd, sys.tasks.set i task' ++ []⟩ := by
  have hmine := hinv.locked.lock i task hi (holds_of_evicts r task htask)
  refine ⟨table_evicted sys nd i r task task' peer hinv hi htask h,
    loops_forgetting sys nd i task' hinv h.fresh (h.task.imp id fun ⟨pc, hpc, _⟩ => ⟨pc, hpc⟩),
    locked_forgetting sys nd i task' hinv (Or.inr hmine) ?_ ?_,
    down_evicted sys nd i r task task' peer hinv hi htask h⟩
  · intro ht
    rcases h.next with ⟨rfl, -⟩ | ⟨hsame, -⟩
    · exact ht.elim
    · exact hsame.trans hmine
  · rcases h.task with rfl | ⟨pc, rfl, -⟩
    · simp
    · simp

/-- A request, a connection or a loss starts at most one task, which has done
nothing yet. -/
structure Started (sys : System) (spawned : List Task) : Prop where
  one : spawned.length ≤ 1
  kind : ∀ t ∈ spawned, (∃ r conn, t = .inbound r conn) ∨ t = .forget .queued ∨
    isEntering t = true ∧ sys.node.peers = none ∧ Clear sys

theorem Started.old {sys : System} {spawned : List Task} (h : Started sys spawned) (j : ℕ)
    (t : Task) (hj : (sys.tasks++spawned)[j]? = some t) (hinbound : ∀ r conn, t ≠ .inbound r conn)
    (hforget : t ≠ .forget .queued) (hcalm : isEntering t = false) : sys.tasks[j]? = some t := by
  rcases get_spawned sys.tasks spawned j t hj with hold | ⟨-, hnew⟩
  · exact hold
  · rcases h.kind t (List.mem_of_getElem? hnew) with ⟨r, conn, rfl⟩ | rfl | ⟨ht, -⟩
    · exact absurd rfl (hinbound r conn)
    · exact absurd rfl hforget
    · cases hcalm.symm.trans ht

theorem Started.forget {sys : System} {spawned : List Task} (h : Started sys spawned) (j : ℕ)
    (pc : ForgetPc) (hpc : pc ≠ .queued) : (sys.tasks++spawned)[j]? = some (.forget pc) ↔
      sys.tasks[j]? = some (.forget pc) := by
  constructor
  · exact fun hj => h.old j _ hj (by simp) (by simpa using hpc) rfl
  · intro hj
    rw [List.getElem?_append_left (List.getElem?_eq_some_iff.mp hj).1, hj]

theorem Started.entering {sys : System} {spawned : List Task} (h : Started sys spawned) (j : ℕ)
    (t : Task) (hj : (sys.tasks++spawned)[j]? = some t) (ht : isEntering t = true) :
    sys.tasks[j]? = some t ∨ j = sys.tasks.length ∧ sys.node.peers = none ∧ Clear sys := by
  rcases get_spawned sys.tasks spawned j t hj with hold | ⟨hge, hnew⟩
  · exact Or.inl hold
  · have hlt := (List.getElem?_eq_some_iff.mp hnew).1
    have hone := h.one
    rcases h.kind t (List.mem_of_getElem? hnew) with ⟨r, conn, rfl⟩ | rfl | ⟨-, hclear⟩
    · cases ht
    · cases ht
    · exact Or.inr ⟨by omega, hclear⟩

theorem table_started (sys : System) (nd : Node) (spawned : List Task) (hinv : Inv sys)
    (hrecords : nd.records = sys.node.records) (hpeers : nd.peers = sys.node.peers)
    (hfresh : nd.fresh = sys.node.fresh) (h : Started sys spawned) :
    Table ⟨nd, sys.tasks++spawned⟩ := by
  have hmarks : ∀ j r : ℕ, (sys.tasks++spawned)[j]? = some (.forget (.marking r)) ↔
      sys.tasks[j]? = some (.forget (.marking r)) := fun j r => h.forget j _ (by simp)
  constructor
  case here =>
    intro r hr
    rw [hfresh, hrecords]
    exact hinv.table.here r (hpeers ▸ hr)
  case live =>
    intro r hr hlive
    rw [hrecords] at hlive
    rcases hinv.table.live r (hfresh ▸ hr) hlive with hin | ⟨i, hi⟩
    · exact Or.inl (hpeers.trans hin)
    · exact Or.inr ⟨i, (hmarks i r).mpr hi⟩
  case marking =>
    intro i r hi
    obtain ⟨hlt, hnone⟩ := hinv.table.marking i r ((hmarks i r).mp hi)
    exact ⟨hfresh ▸ hlt, hpeers.trans hnone⟩
  case coming =>
    intro j t hj ht
    rcases h.entering j t hj ht with hold | ⟨-, hnone, hclear⟩
    · obtain ⟨hnone, hno⟩ := hinv.table.coming j t hold ht
      exact ⟨hpeers.trans hnone, fun k r hk => hno k r ((hmarks k r).mp hk)⟩
    · refine ⟨hpeers.trans hnone, fun k r hk => ?_⟩
      cases (hclear _ (List.mem_of_getElem? ((hmarks k r).mp hk))).2
  case entry =>
    intro j k t t' hj hk ht ht'
    rcases h.entering j t hj ht with hold | ⟨hjlen, -, hclear⟩
    · rcases h.entering k t' hk ht' with hold' | ⟨-, -, hclear⟩
      · exact hinv.table.entry j k t t' hold hold' ht ht'
      · cases ht.symm.trans (hclear t (List.mem_of_getElem? hold)).1
    · rcases h.entering k t' hk ht' with hold' | ⟨hklen, -⟩
      · cases ht'.symm.trans (hclear t' (List.mem_of_getElem? hold')).1
      · exact hjlen.trans hklen.symm

theorem inv_spawn (sys : System) (nd : Node) (spawned : List Task) (hinv : Inv sys)
    (hrecords : nd.records = sys.node.records) (hpeers : nd.peers = sys.node.peers)
    (hfresh : nd.fresh = sys.node.fresh) (hlock : nd.bindLock = sys.node.bindLock)
    (h : Started sys spawned) : Inv ⟨nd, sys.tasks++spawned⟩ := by
  refine ⟨table_started sys nd spawned hinv hrecords hpeers hfresh h,
    loops_kept sys nd _ hinv hfresh fun j r pc hj => ⟨pc, h.old j _ hj (by simp) (by simp) rfl⟩,
    locked_kept sys nd _ hinv hlock (fun r => by rw [hrecords]; exact id) fun j t hj ht => ?_,
    down_kept sys nd _ hinv hfresh (fun r => by rw [hrecords]) (fun r _ => by rw [hrecords])
      (fun r _ port hp => by rwa [hrecords] at hp) fun j r t ht => ?_⟩
  · refine h.old j t hj ?_ ?_ (not_entering_of_holds t ht)
    · rintro r conn rfl
      exact ht
    · rintro rfl
      exact ht
  · cases t with
    | forget pc => exact h.forget j pc (by rintro rfl; exact ht)
    | _ => exact ht.elim

theorem inv_quiet (sys : System) (nd : Node) (hinv : Inv sys)
    (hrecords : nd.records = sys.node.records) (hpeers : nd.peers = sys.node.peers)
    (hfresh : nd.fresh = sys.node.fresh) (hlock : nd.bindLock = sys.node.bindLock) :
    Inv ⟨nd, sys.tasks⟩ := by
  have h := inv_spawn sys nd [] hinv hrecords hpeers hfresh hlock ⟨by simp, by simp⟩
  rwa [List.append_nil] at h

end PaiSho.RecordInvariant
