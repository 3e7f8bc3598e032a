import PaiSho.SessionSteps
import Mathlib.Logic.Function.Basic

/-!
# One verdict for each connection

`handle_connection` asks the core about a connection once, on arrival. If the
core gives no verdict the connection is driven by `handle_enrollment`: its
messages go to the core in the order they came, until one is answered, and
otherwise the time runs out. Any number of such drivers share the core, among
themselves and with every other caller.
-/

set_option autoImplicit false

namespace PaiSho.Handshakes
open Std (ExtTreeMap)
open PaiSho.GrantTable PaiSho.Enrollment PaiSho.SessionSteps
open PaiSho.SessionCore hiding step
open Library.OrderedMaps Library.Traces

/-- The task of one connection: whose it is, whether its key was admitted when
it arrived, what it fed to the core and what the core answered. -/
structure Driver (K : Type) where
  remote : K
  known : Bool
  heard : List PeerMessage := []
  answers : List (Action K) := []
  waiting : Bool

structure Hub (K : Type) [LinearOrder K] where
  session : Session K
  drivers : ConnId → Option (Driver K)

inductive Event (K : Type) where
  | arrive (conn : ConnId) (remote : K)
  | message (conn : ConnId) (msg : PeerMessage) (now : ℕ)
  | timeout (conn : ConnId)
  | other (op : Op K)

section Answers
variable {K : Type}

def portsOf : PeerMessage → Option (List Port)
  | .exposedPorts ports => some ports
  | _ => none

/-- The last port list among the messages of a connection. -/
def lastPorts (heard : List PeerMessage) : Option (List Port) :=
  (heard.filterMap portsOf).getLast?

theorem lastPorts_snoc (heard : List PeerMessage) (msg : PeerMessage) :
    lastPorts (heard++[msg]) = (portsOf msg).or (lastPorts heard) := by
  unfold lastPorts
  cases h : portsOf msg <;> simp [h]

def verdictOn : Action K → Option ConnId
  | .admitPeer conn _ _ => some conn
  | .refuse conn _ => some conn
  | _ => none

def isApply : Action K → Bool
  | .applyPorts _ _ => true
  | _ => false

/-- What is applied for a list that was buffered: nothing if it is empty. -/
def applied (remote : K) (ports : Option (List Port)) : List (Action K) :=
  if (ports.getD []).isEmpty then [] else [.applyPorts remote (ports.getD [])]

/-- The answers a connection ends with: it was refused, or it was admitted by
the message it heard last. -/
def Decided (conn : ConnId) (d : Driver K) : Prop :=
  (∃ reason, d.answers = [.refuse conn reason]) ∨
    ∃ before token version label ports, d.heard = before++[.enroll token version] ∧
      d.answers = [.admitPeer conn d.remote false, .persistPin d.remote label] ++
        applied d.remote (lastPorts before) ++ [.announce d.remote ports]

theorem applied_verdicts (remote : K) (ports : Option (List Port)) :
    (applied remote ports).filter (fun a => (verdictOn a).isSome) = [] := by
  unfold applied
  split_ifs <;> simp [verdictOn]

theorem applied_isApply (remote : K) (ports : Option (List Port)) :
    (applied remote ports).filter isApply = applied remote ports := by
  unfold applied
  split_ifs <;> simp [isApply]

theorem applied_other (remote : K) (ports : Option (List Port)) (a : Action K)
    (h : a ∈ applied remote ports) : verdictOn a = none := by
  unfold applied at h
  split_ifs at h
  · simp at h
  · obtain rfl := List.mem_singleton.mp h
    rfl

theorem decided_verdicts (conn : ConnId) (d : Driver K) (h : Decided conn d) :
    (d.answers.filter (fun a => (verdictOn a).isSome)).length = 1 := by
  rcases h with ⟨reason, ha⟩ | ⟨before, token, version, label, ports, -, ha⟩
  · simp [ha, verdictOn]
  · simp only [ha, List.filter_append, applied_verdicts]
    simp [verdictOn]

theorem decided_own (conn c : ConnId) (d : Driver K) (h : Decided conn d) (a : Action K)
    (ha : a ∈ d.answers) (hc : verdictOn a = some c) : c = conn := by
  rcases h with ⟨reason, heq⟩ | ⟨before, token, version, label, ports, -, heq⟩
  · rw [heq, List.mem_singleton] at ha
    subst ha
    exact (Option.some.inj hc).symm
  · rw [heq] at ha
    simp only [List.mem_append, List.mem_cons, List.not_mem_nil, or_false] at ha
    rcases ha with ((rfl | rfl) | hap) | rfl
    · exact (Option.some.inj hc).symm
    · cases hc
    · rw [applied_other _ _ a hap] at hc
      cases hc
    · cases hc

theorem decided_admitted (conn : ConnId) (d : Driver K) (h : Decided conn d) (peer : K)
    (replacing : Bool) (ha : .admitPeer conn peer replacing ∈ d.answers) :
    peer = d.remote ∧ ∃ before token version, d.heard = before++[.enroll token version] ∧
      d.answers.filter isApply = applied d.remote (lastPorts before) := by
  rcases h with ⟨reason, heq⟩ | ⟨before, token, version, label, ports, hheard, heq⟩
  · rw [heq] at ha
    simp at ha
  · have hpeer : peer = d.remote := by
      rw [heq] at ha
      simp only [List.mem_append, List.mem_cons, List.not_mem_nil, or_false, reduceCtorEq,
        Action.admitPeer.injEq] at ha
      rcases ha with ha | hap
      · exact ha.2.1
      · have := applied_other _ _ _ hap
        cases this
    refine ⟨hpeer, before, token, version, hheard, ?_⟩
    rw [heq]
    simp only [List.filter_append, applied_isApply]
    simp [isApply]

end Answers

section
variable {K : Type} [LinearOrder K]

def Hub.new : Hub K := ⟨Session.new, fun _ => none⟩

def apart : Op K → Bool
  | .onInbound _ _ => false
  | .onUnadmitted _ _ _ _ => false
  | .onEnrollTimeout _ => false
  | _ => true

def Driver.hear (d : Driver K) (msg : PeerMessage) (answer : List (Action K)) : Driver K :=
  { d with
    heard := d.heard++[msg]
    answers := d.answers++answer
    waiting := answer.isEmpty }

def step (hub : Hub K) : Event K → Option (Hub K)
  | .arrive conn remote =>
    match hub.drivers conn with
    | some _ => none
    | none =>
      let out := SessionCore.step hub.session (.onInbound conn remote)
      some ⟨out.1, Function.update hub.drivers conn (some
        { remote := remote
          known := hub.session.peers.contains remote
          answers := out.2
          waiting := out.2.isEmpty })⟩
  | .message conn msg now =>
    match hub.drivers conn with
    | none => none
    | some d =>
      if d.waiting then
        let out := SessionCore.step hub.session (.onUnadmitted conn d.remote msg now)
        some ⟨out.1, Function.update hub.drivers conn (some (d.hear msg out.2))⟩
      else none
  | .timeout conn =>
    match hub.drivers conn with
    | none => none
    | some d =>
      if d.waiting then
        let out := SessionCore.step hub.session (.onEnrollTimeout conn)
        some ⟨out.1, Function.update hub.drivers conn (some
          { d with answers := d.answers++out.2, waiting := false })⟩
      else none
  | .other op =>
    if apart op then some { hub with session := (SessionCore.step hub.session op).1 } else none

def Reached (evs : List (Event K)) (hub : Hub K) : Prop := exec step Hub.new evs = some hub

/-- The correspondence between a driver and the core's table: a waiting driver
has its entry there, with the list it heard last, and no other driver has one. -/
def Tracked (s : Session K) (conn : ConnId) : Option (Driver K) → Prop
  | none => s.pending[conn]? = none
  | some d =>
    if d.waiting then
      s.pending[conn]? = some ⟨lastPorts d.heard⟩ ∧ d.known = false ∧ d.answers = []
    else
      s.pending[conn]? = none ∧ (d.known = false → Decided conn d) ∧
        (d.known = true → ∃ ports,
          d.answers = [.admitPeer conn d.remote true, .announce d.remote ports])

def Inv (hub : Hub K) : Prop := ∀ conn, Tracked hub.session conn (hub.drivers conn)

theorem tracked_congr (s s' : Session K) (conn : ConnId) (d : Option (Driver K))
    (h : s'.pending[conn]? = s.pending[conn]?) (ht : Tracked s conn d) : Tracked s' conn d := by
  cases d with
  | none => exact h.trans ht
  | some d =>
    simp only [Tracked, h] at ht ⊢
    exact ht

theorem inv_update (hub : Hub K) (s : Session K) (conn : ConnId) (d : Driver K) (hinv : Inv hub)
    (hother : ∀ c, c ≠ conn → s.pending[c]? = hub.session.pending[c]?)
    (hown : Tracked s conn (some d)) : Inv ⟨s, Function.update hub.drivers conn (some d)⟩ := by
  intro c
  by_cases hc : c = conn
  · subst hc
    simpa using hown
  · show Tracked s c (Function.update hub.drivers conn (some d) c)
    rw [Function.update_of_ne hc]
    exact tracked_congr hub.session s c _ (hother c hc) (hinv c)

theorem inv_arrive (hub : Hub K) (conn : ConnId) (remote : K) (hinv : Inv hub)
    (hnew : hub.drivers conn = none) (hub' : Hub K)
    (h : step hub (.arrive conn remote) = some hub') : Inv hub' := by
  simp only [step, hnew] at h
  obtain rfl := Option.some.inj h
  have hfree : hub.session.pending[conn]? = none := by
    have := hinv conn
    rwa [hnew] at this
  refine inv_update hub _ conn _ hinv ?_ ?_
  · intro c hc
    rw [step_pending]
    simp [pendingAfter, hc]
  · cases hp : hub.session.peers.contains remote with
    | true =>
      have hs : SessionCore.step hub.session (.onInbound conn remote) = (hub.session,
          [.admitPeer conn remote true, hub.session.announce remote]) := by
        simp [SessionCore.step, Session.onInbound, hp]
      simp only [hs]
      exact ⟨hfree, fun hk => by simp at hk, fun _ => ⟨_, rfl⟩⟩
    | false =>
      have hs : (SessionCore.step hub.session (.onInbound conn remote)).2 = [] := by
        simp [SessionCore.step, Session.onInbound, hp]
      simp only [Tracked, hs, step_pending, pendingAfter, hp]
      simp [lastPorts]

theorem tracked_silent (s : Session K) (conn : ConnId) (d : Driver K) (msg : PeerMessage) (now : ℕ)
    (hw : d.waiting = true) (ht : Tracked s conn (some d))
    (hmsg : ∀ token version, msg ≠ .enroll token version) :
    Tracked (SessionCore.step s (.onUnadmitted conn d.remote msg now)).1 conn
      (some (d.hear msg (SessionCore.step s (.onUnadmitted conn d.remote msg now)).2)) := by
  simp only [Tracked, hw, if_true] at ht
  obtain ⟨hpending, hknown, hnone⟩ := ht
  have hanswer : (SessionCore.step s (.onUnadmitted conn d.remote msg now)).2 = [] := by
    cases msg with
    | enroll token version => exact absurd rfl (hmsg token version)
    | exposedPorts ports => simp [SessionCore.step, Session.onUnadmitted, hpending]
    | connect port => rfl
    | error text => rfl
  have hentry : (SessionCore.step s (.onUnadmitted conn d.remote msg now)).1.pending[conn]? =
      some ⟨lastPorts (d.heard++[msg])⟩ := by
    rw [step_pending, lastPorts_snoc]
    cases msg with
    | enroll token version => exact absurd rfl (hmsg token version)
    | exposedPorts ports => simp [pendingAfter, hpending, portsOf]
    | connect port => simpa [pendingAfter, portsOf] using hpending
    | error text => simpa [pendingAfter, portsOf] using hpending
  simp only [Tracked, Driver.hear, hanswer, List.isEmpty_nil, if_true]
  exact ⟨hentry, hknown, by simp [hnone]⟩

theorem tracked_claim (s : Session K) (conn : ConnId) (d : Driver K) (token : String)
    (version : Option String) (now : ℕ) (hw : d.waiting = true) (ht : Tracked s conn (some d)) :
    Tracked (SessionCore.step s (.onUnadmitted conn d.remote (.enroll token version) now)).1 conn
      (some (d.hear (.enroll token version)
        (SessionCore.step s (.onUnadmitted conn d.remote (.enroll token version) now)).2)) := by
  simp only [Tracked, hw, if_true] at ht
  obtain ⟨hpending, hknown, hnone⟩ := ht
  have hentry : (SessionCore.step s (.onUnadmitted conn d.remote (.enroll token version)
      now)).1.pending[conn]? = none := by
    rw [step_pending]
    simp [pendingAfter]
  cases hc : (s.tokens.claim token now).2 with
  | none =>
    have hanswer : (SessionCore.step s (.onUnadmitted conn d.remote (.enroll token version)
        now)).2 = [.refuse conn .notAuthorized] := by
      simp only [SessionCore.step, onUnadmitted_refused s conn d.remote token version now hc]
    simp only [Tracked, Driver.hear, hanswer, hknown, hnone]
    exact ⟨hentry, fun _ => Or.inl ⟨.notAuthorized, rfl⟩, by simp⟩
  | some c =>
    have hearly : s.earlyPorts conn = (lastPorts d.heard).getD [] := by
      simp [Session.earlyPorts, hpending]
    have hanswer := congrArg Prod.snd (onUnadmitted_claimed s conn d.remote token version now c hc)
    simp only [hearly] at hanswer
    simp only [Tracked, Driver.hear, SessionCore.step, hanswer, hknown, hnone]
    exact ⟨hentry, fun _ => Or.inr ⟨d.heard, token, version, c.name, _, rfl, rfl⟩, by simp⟩

theorem inv_step (hub hub' : Hub K) (ev : Event K) (hinv : Inv hub)
    (h : step hub ev = some hub') : Inv hub' := by
  cases ev with
  | arrive conn remote =>
    cases hd : hub.drivers conn with
    | none => exact inv_arrive hub conn remote hinv hd hub' h
    | some d => simp [step, hd] at h
  | message conn msg now =>
    cases hd : hub.drivers conn with
    | none => simp [step, hd] at h
    | some d =>
      simp only [step, hd] at h
      split_ifs at h with hw
      obtain rfl := Option.some.inj h
      have ht : Tracked hub.session conn (some d) := hd ▸ hinv conn
      refine inv_update hub _ conn _ hinv ?_ ?_
      · intro c hc
        rw [step_pending]
        cases msg <;> simp [pendingAfter, hc]
      · cases msg with
        | enroll token version => exact tracked_claim _ conn d token version now hw ht
        | _ => exact tracked_silent _ conn d _ now hw ht (by simp)
  | timeout conn =>
    cases hd : hub.drivers conn with
    | none => simp [step, hd] at h
    | some d =>
      simp only [step, hd] at h
      split_ifs at h with hw
      obtain rfl := Option.some.inj h
      have ht : Tracked hub.session conn (some d) := hd ▸ hinv conn
      simp only [Tracked, hw, if_true] at ht
      refine inv_update hub _ conn _ hinv ?_ ?_
      · intro c hc
        rw [step_pending]
        simp [pendingAfter, hc]
      · have hanswer : (SessionCore.step hub.session (.onEnrollTimeout conn)).2 =
            [.refuse conn .enrollTimeout] := by
          simp [SessionCore.step, Session.onEnrollTimeout, ht.1]
        simp only [Tracked, hanswer, ht.2.1, ht.2.2, step_pending]
        exact ⟨by simp [pendingAfter], fun _ => Or.inl ⟨.enrollTimeout, rfl⟩, by simp⟩
  | other op =>
    simp only [step] at h
    split_ifs at h with hop
    obtain rfl := Option.some.inj h
    intro conn
    refine tracked_congr hub.session _ conn _ ?_ (hinv conn)
    rw [step_pending]
    cases op <;> simp [apart, pendingAfter] at hop ⊢

theorem reached_inv (evs : List (Event K)) (hub : Hub K) (h : Reached evs hub) : Inv hub :=
  exec_invariant step (fun _ => True) Inv (fun s ev t _ hs ht => inv_step s t ev hs ht) Hub.new
    (fun _ => ExtTreeMap.getElem?_empty) evs (fun _ _ => trivial) hub h

/-- Every connection that was not known on arrival is in the core's table exactly
while its driver waits, gets one verdict, at the end and about itself, and if it
is admitted it gets its own last port list. -/
theorem one_verdict (evs : List (Event K)) (hub : Hub K) (h : Reached evs hub) :
    (∀ conn, conn ∈ hub.session.pending ↔
      ∃ d, hub.drivers conn = some d ∧ d.waiting = true) ∧
    (∀ conn d, hub.drivers conn = some d → ∀ a ∈ d.answers, ∀ c, verdictOn a = some c → c = conn) ∧
    ∀ conn d, hub.drivers conn = some d → d.known = false →
      (d.answers.filter (fun a => (verdictOn a).isSome)).length = (if d.waiting then 0 else 1) ∧
      ∀ peer replacing, .admitPeer conn peer replacing ∈ d.answers → peer = d.remote ∧
        ∃ before token version, d.heard = before++[.enroll token version] ∧
          d.answers.filter isApply = applied d.remote (lastPorts before) := by
  have hinv := reached_inv evs hub h
  have htracked : ∀ conn d, hub.drivers conn = some d → Tracked hub.session conn (some d) :=
    fun conn d hd => hd ▸ hinv conn
  refine ⟨fun conn => ?_, fun conn d hd => ?_, fun conn d hd hnew => ?_⟩
  · rw [ExtTreeMap.mem_iff_isSome_getElem?]
    cases hd : hub.drivers conn with
    | none =>
      have hfree : hub.session.pending[conn]? = none := by
        have := hinv conn
        rwa [hd] at this
      simp [hfree]
    | some d =>
      have ht := htracked conn d hd
      cases hw : d.waiting with
      | true =>
        simp only [Tracked, hw, if_true] at ht
        simp [ht.1, hw]
      | false =>
        simp only [Tracked, hw, Bool.false_eq_true, if_false] at ht
        simp [ht.1, hw]
  · intro a ha c hc
    have ht := htracked conn d hd
    cases hw : d.waiting with
    | true =>
      simp only [Tracked, hw, if_true] at ht
      simp [ht.2.2] at ha
    | false =>
      simp only [Tracked, hw, Bool.false_eq_true, if_false] at ht
      cases hk : d.known with
      | false => exact decided_own conn c d (ht.2.1 hk) a ha hc
      | true =>
        obtain ⟨ports, heq⟩ := ht.2.2 hk
        rw [heq] at ha
        simp only [List.mem_cons, List.not_mem_nil, or_false] at ha
        rcases ha with rfl | rfl
        · exact (Option.some.inj hc).symm
        · cases hc
  · have ht := htracked conn d hd
    cases hw : d.waiting with
    | true =>
      simp only [Tracked, hw, if_true] at ht
      simp [ht.2.2]
    | false =>
      simp only [Tracked, hw, Bool.false_eq_true, if_false] at ht
      have hdec := ht.2.1 hnew
      exact ⟨decided_verdicts conn d hdec, fun peer replacing ha =>
        decided_admitted conn d hdec peer replacing ha⟩

end

/-- A peer announces, changes its mind, and then presents its code; another
connection announces in between. -/
def lateClaim : List (Event ℕ) :=
  [.other (.mintToken (some "rustdev") [8080] (Vector.replicate 32 0) 0), .arrive 1 7, .arrive 2 9,
    .message 1 (.exposedPorts [80]) 1, .message 2 (.exposedPorts [22]) 2,
    .message 1 (.exposedPorts [42000]) 3,
    .message 1 (.enroll (hexToken (Vector.replicate 32 0)) none) 4, .timeout 2]

theorem late_claim_driver : ((exec step Hub.new lateClaim).bind (fun hub => hub.drivers 1)).map
    (fun d => (d.known, d.waiting, d.answers.filter isApply)) =
      some (false, false, [.applyPorts 7 [42000]]) := by
  decide +kernel

theorem late_claim_verdict : ∃ hub d, Reached lateClaim hub ∧ hub.drivers 1 = some d ∧
    d.known = false ∧ d.answers.filter isApply = [.applyPorts 7 [42000]] ∧
    (d.answers.filter (fun a => (verdictOn a).isSome)).length = 1 := by
  obtain ⟨d, hd, heq⟩ := Option.map_eq_some_iff.mp late_claim_driver
  obtain ⟨hub, hhub, hdriver⟩ := Option.bind_eq_some_iff.mp hd
  obtain ⟨hknown, hwaiting, hports⟩ : d.known = false ∧ d.waiting = false ∧
      d.answers.filter isApply = [.applyPorts 7 [42000]] := by
    simpa using heq
  refine ⟨hub, d, hhub, hdriver, hknown, hports, ?_⟩
  rw [((one_verdict lateClaim hub hhub).2.2 1 d hdriver hknown).1, hwaiting]
  rfl

end PaiSho.Handshakes
