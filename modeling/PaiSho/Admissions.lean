import PaiSho.SessionSteps

/-!
# Default-deny admission

The record of a key is a function of the history since the last eviction that
found it: the latest valid claim if there was one, otherwise the first call
that named the key directly. Nothing else admits, relabels or grants.
-/

set_option autoImplicit false

namespace PaiSho.Admissions
open Std (ExtTreeMap)
open PaiSho.GrantTable PaiSho.Enrollment PaiSho.SessionCore PaiSho.SessionSteps
open Library.OrderedMaps Library.Traces

section
variable {K : Type} [LinearOrder K]

def evicts (k : K) (e : Record K) : Bool :=
  match e.input with
  | .evict key => key = k && e.before.peers.contains k
  | _ => false

def claimRecord (k : K) (e : Record K) : Option Admitted :=
  match claimBy e.before e.input with
  | some (remote, c) => if remote = k then some ⟨c.name, .code⟩ else none
  | none => none

def knownRecord (k : K) (e : Record K) : Option Admitted :=
  match e.input with
  | .admitKnown key label admission => if key = k then some ⟨label, admission⟩ else none
  | _ => none

/-- What a history leaves recorded for `k`. -/
def recordOf (k : K) (tr : List (Record K)) : Option Admitted :=
  ((sinceLast (evicts k) tr).filterMap (claimRecord k)).getLast?.or
    ((sinceLast (evicts k) tr).filterMap (knownRecord k)).head?

/-- An operation that is not a way in: an arrival, a timeout, or a message that
is no valid claim. -/
def Inert (s : Session K) : Op K → Prop
  | .onInbound _ _ => True
  | .onEnrollTimeout _ => True
  | .onUnadmitted conn remote msg now => claimBy s (.onUnadmitted conn remote msg now) = none
  | _ => False

theorem recordOf_snoc (k : K) (tr : List (Record K)) (e : Record K) :
    recordOf k (tr++[e]) = if evicts k e then none
      else (claimRecord k e).or ((recordOf k tr).or (knownRecord k e)) := by
  unfold recordOf
  rw [sinceLast_snoc]
  cases evicts k e with
  | true => rfl
  | false =>
    have hc : ([e].filterMap (claimRecord k)).getLast? = claimRecord k e := by
      cases h : claimRecord k e <;> simp [h]
    have hn : ([e].filterMap (knownRecord k)).head? = knownRecord k e := by
      cases h : knownRecord k e <;> simp [h]
    simp only [Bool.false_eq_true, if_false, List.filterMap_append, List.getLast?_append,
      List.head?_append, hc, hn, Option.or_assoc]

theorem recordAfter_eq (s : Session K) (op : Op K) (k : K) :
    recordAfter s op k = if evicts k (event step s op) then none
      else (claimRecord k (event step s op)).or
        (s.peers[k]?.or (knownRecord k (event step s op))) := by
  cases op with
  | admitKnown key label admission =>
    by_cases hk : k = key <;>
      simp [recordAfter, evicts, claimRecord, knownRecord, event, claimBy, hk, eq_comm]
  | evict key =>
    by_cases hk : key = k
    · subst hk
      cases hp : s.peers[key]? <;>
        simp [recordAfter, evicts, claimRecord, knownRecord, event, claimBy, hp,
          ExtTreeMap.contains_eq_isSome_getElem?]
    · simp [recordAfter, evicts, claimRecord, knownRecord, event, claimBy, hk, Ne.symm hk]
  | onUnadmitted conn remote msg now =>
    simp only [recordAfter, evicts, claimRecord, knownRecord, event]
    cases claimBy s (.onUnadmitted conn remote msg now) with
    | none => simp
    | some rc =>
      by_cases hk : k = rc.1
      · simp [hk]
      · simp [hk, Ne.symm hk]
  | onInbound conn remote => simp [recordAfter, evicts, claimRecord, knownRecord, event, claimBy]
  | onEnrollTimeout conn => simp [recordAfter, evicts, claimRecord, knownRecord, event, claimBy]
  | expose port grantees => simp [recordAfter, evicts, claimRecord, knownRecord, event, claimBy]
  | unexpose port grantee => simp [recordAfter, evicts, claimRecord, knownRecord, event, claimBy]
  | mintToken name ports bytes now =>
    simp [recordAfter, evicts, claimRecord, knownRecord, event, claimBy]

theorem peers_eq_recordOf (ops : List (Op K)) (k : K) :
    (after ops).peers[k]? = recordOf k (history ops) := by
  unfold after history
  induction ops using List.reverseRecOn with
  | nil => simp [run, trace, Session.new, recordOf, sinceLast]
  | append_singleton ops op ih =>
    rw [run_snoc, trace_snoc, recordOf_snoc, step_peers, recordAfter_eq, ih]

theorem recordOf_isSome (k : K) (tr : List (Record K)) :
    (recordOf k tr).isSome ↔ ∃ e ∈ sinceLast (evicts k) tr,
      (∃ label admission, e.input = .admitKnown k label admission) ∨
        ∃ c, claimBy e.before e.input = some (k, c) := by
  have hclaim : ∀ e : Record K, (∃ a, claimRecord k e = some a) ↔
      ∃ c, claimBy e.before e.input = some (k, c) := by
    intro e
    unfold claimRecord
    cases claimBy e.before e.input with
    | none => simp
    | some rc =>
      by_cases hk : rc.1 = k
      · simp [hk, Prod.ext_iff]
      · simp [hk, Prod.ext_iff]
  have hknown : ∀ e : Record K, (∃ a, knownRecord k e = some a) ↔
      ∃ label admission, e.input = .admitKnown k label admission := by
    intro e
    unfold knownRecord
    cases e.input with
    | admitKnown key label admission => by_cases hk : key = k <;> simp [hk]
    | _ => simp
  have hhead : ∀ l : List Admitted, l.head?.isSome ↔ ∃ a, a ∈ l := by
    intro l
    cases l <;> simp
  have hlast : ∀ l : List Admitted, l.getLast?.isSome ↔ ∃ a, a ∈ l := by
    intro l
    rw [List.getLast?_eq_head?_reverse, hhead]
    simp
  unfold recordOf
  rw [Option.isSome_or, Bool.or_eq_true, hlast, hhead]
  simp only [List.mem_filterMap]
  constructor
  · rintro (⟨a, e, he, h⟩ | ⟨a, e, he, h⟩)
    · exact ⟨e, he, Or.inr ((hclaim e).mp ⟨a, h⟩)⟩
    · exact ⟨e, he, Or.inl ((hknown e).mp ⟨a, h⟩)⟩
  · rintro ⟨e, he, h | h⟩
    · obtain ⟨a, ha⟩ := (hknown e).mpr h
      exact Or.inr ⟨a, e, he, ha⟩
    · obtain ⟨a, ha⟩ := (hclaim e).mpr h
      exact Or.inl ⟨a, e, he, ha⟩

theorem inert_frame (s : Session K) (op : Op K) (h : Inert s op) :
    (step s op).1.peers = s.peers ∧ (step s op).1.grants = s.grants := by
  cases op with
  | onInbound conn remote =>
    simp only [step, Session.onInbound]
    split_ifs <;> exact ⟨rfl, rfl⟩
  | onEnrollTimeout conn =>
    simp only [step, Session.onEnrollTimeout]
    cases s.pending[conn]? <;> exact ⟨rfl, rfl⟩
  | onUnadmitted conn remote msg now => exact onUnadmitted_frame s conn remote msg now h
  | admitKnown key label admission => exact h.elim
  | evict peer => exact h.elim
  | expose port grantees => exact h.elim
  | unexpose port grantee => exact h.elim
  | mintToken name ports bytes now => exact h.elim

/-- Who is admitted, under what label and by what way in, is read off the
history; an `Admit` is only ever returned for an admitted key; and whatever is
not a way in changes neither an admission nor a grant. -/
theorem admission_history (ops : List (Op K)) (k : K) :
    (k ∈ (after ops).peers ↔ ∃ e ∈ sinceLast (evicts k) (history ops),
      (∃ label admission, e.input = .admitKnown k label admission) ∨
        ∃ c, claimBy e.before e.input = some (k, c)) ∧
    (after ops).labelOf k = (recordOf k (history ops)).bind Admitted.label ∧
    (after ops).admissionOf k = (recordOf k (history ops)).map Admitted.admission ∧
    (∀ e ∈ history ops, ∀ conn peer replacing,
      .admitPeer conn peer replacing ∈ e.output → peer ∈ e.after.peers) ∧
    (∀ e ∈ history ops, Inert e.before e.input →
      e.after.peers = e.before.peers ∧ e.after.grants = e.before.grants) := by
  have hrec := peers_eq_recordOf ops k
  refine ⟨?_, ?_, ?_, ?_, ?_⟩
  · rw [ExtTreeMap.mem_iff_isSome_getElem?, hrec, recordOf_isSome]
  · rw [Session.labelOf, hrec]
  · rw [Session.admissionOf, hrec]
  · intro e he conn peer replacing hm
    obtain ⟨pre, post, -, hev⟩ := mem_trace step Session.new ops e he
    rw [hev] at hm ⊢
    exact step_admit _ _ conn peer replacing hm
  · intro e he hi
    obtain ⟨pre, post, -, hev⟩ := mem_trace step Session.new ops e he
    rw [hev] at hi ⊢
    exact inert_frame _ _ hi

end
end PaiSho.Admissions
