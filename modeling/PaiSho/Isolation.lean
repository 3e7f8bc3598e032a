import PaiSho.OneTimeCodes
import PaiSho.Announcements

/-!
# Peers are invisible to each other

Fix a peer `b`. An operation concerns `b` when it names `b`, when it revokes a
port from everybody, or when it mints or presents a code that `b` presents
somewhere in the run. Erasing the operations that do not concern `b` leaves a
run in which `b` sees the same session; so two runs that agree after erasure
are indistinguishable to `b`.
-/

set_option autoImplicit false

namespace PaiSho.Isolation
open Std (ExtTreeMap)
open PaiSho.GrantTable PaiSho.Enrollment PaiSho.SessionCore PaiSho.SessionSteps
open PaiSho.Authorization PaiSho.OneTimeCodes PaiSho.Announcements
open Library.OrderedMaps Library.Traces

section
variable {K : Type} [LinearOrder K]

def presentedCode (b : K) : Op K → Option String
  | .onUnadmitted _ remote (.enroll token _) _ => if remote = b then some token else none
  | _ => none

/-- Every code `b` presents in the run. -/
def presentedCodes (b : K) (ops : List (Op K)) : List String := ops.filterMap (presentedCode b)

/-- The operation concerns `b`, whose connections are `mine` and whose codes are `codes`. -/
def concerns (b : K) (mine : ConnId → Bool) (codes : List String) : Op K → Bool
  | .admitKnown key _ _ => key = b
  | .onInbound _ remote => remote = b
  | .onUnadmitted _ remote (.enroll token _) _ => remote = b || codes.contains token
  | .onUnadmitted _ remote _ _ => remote = b
  | .onEnrollTimeout conn => mine conn
  | .evict peer => peer = b
  | .expose _ grantees => grantees.contains b
  | .unexpose _ none => true
  | .unexpose _ (some grantee) => grantee = b
  | .mintToken _ _ bytes _ => codes.contains (hexToken bytes)

def remaining (b : K) (mine : ConnId → Bool) (codes : List String) (ops : List (Op K)) :
    List (Op K) :=
  ops.filter (concerns b mine codes)

/-- Connection ids belong to one remote: `mine` are those `b` arrives on. -/
def OwnConns (b : K) (mine : ConnId → Bool) (ops : List (Op K)) : Prop :=
  ∀ op ∈ ops, match op with
    | .onInbound conn remote => mine conn = true ↔ remote = b
    | .onUnadmitted conn remote _ _ => mine conn = true ↔ remote = b
    | _ => True

/-- The action is addressed to `b` or to one of its connections. -/
def addressed (b : K) (mine : ConnId → Bool) : Action K → Bool
  | .admitPeer conn peer _ => peer = b || mine conn
  | .refuse conn _ => mine conn
  | .announce peer _ => peer = b
  | .applyPorts peer _ => peer = b
  | .persistPin key _ => key = b
  | .dropPin key => key = b
  | .serveTunnel _ => false
  | .rejectTunnel _ => false

/-- Two sessions look the same to `b`: its grants, its record, its connections,
and its codes at every reading from now on. -/
structure Agree (b : K) (mine : ConnId → Bool) (codes : List String) (ahead : ℕ → Prop)
    (s s' : Session K) : Prop where
  grants : ∀ port, s.grants.allows port b ↔ s'.grants.allows port b
  record : s.peers[b]? = s'.peers[b]?
  pending : ∀ conn : ConnId, mine conn = true → s.pending[conn]? = s'.pending[conn]?
  codes : ∀ token ∈ codes, ∀ later, ahead later → s.tokens.live token later =
    s'.tokens.live token later

variable (b : K) (mine : ConnId → Bool) (codes : List String)

theorem erased_claim (s : Session K) (op : Op K) (h : concerns b mine codes op = false)
    (k : K) (c : Claimed) (hc : claimBy s op = some (k, c)) : k ≠ b := by
  rintro rfl
  cases op with
  | onUnadmitted conn remote msg now =>
    cases msg with
    | enroll token version =>
      simp only [claimBy, Option.map_eq_some_iff, Prod.mk.injEq] at hc
      obtain ⟨d, -, rfl, -⟩ := hc
      simp [concerns] at h
    | exposedPorts ports => simp [claimBy] at hc
    | connect port => simp [claimBy] at hc
    | error text => simp [claimBy] at hc
  | _ => simp [claimBy] at hc

theorem erased_grants (s : Session K) (op : Op K) (h : concerns b mine codes op = false)
    (port : Port) : (step s op).1.grants.allows port b ↔ s.grants.allows port b := by
  have hg : ¬ Grant port b s op := by
    rintro (⟨grantees, rfl, hb⟩ | ⟨c, hc, -⟩)
    · simp [concerns, hb] at h
    · exact erased_claim b mine codes s op h b c hc rfl
  have hr : ¬ Revoke port b s op := by
    rintro (rfl | rfl | ⟨rfl, -⟩) <;> simp [concerns] at h
  rw [step_allows]
  simp [hg, hr]

theorem erased_record (s : Session K) (op : Op K) (h : concerns b mine codes op = false) :
    (step s op).1.peers[b]? = s.peers[b]? := by
  rw [step_peers]
  cases op with
  | admitKnown key label admission =>
    have hne : b ≠ key := by simpa [concerns, eq_comm] using h
    simp [recordAfter, hne]
  | evict key =>
    have hne : b ≠ key := by simpa [concerns, eq_comm] using h
    simp [recordAfter, hne]
  | onUnadmitted conn remote msg now =>
    simp only [recordAfter]
    cases hc : claimBy s (.onUnadmitted conn remote msg now) with
    | none => rfl
    | some rc =>
      have hne := erased_claim b mine codes s _ h rc.1 rc.2 hc
      simp [Ne.symm hne]
  | _ => rfl

theorem erased_pending (s : Session K) (op : Op K) (h : concerns b mine codes op = false)
    (hown : OwnConns b mine [op]) (conn : ConnId) (hm : mine conn = true) :
    (step s op).1.pending[conn]? = s.pending[conn]? := by
  rw [step_pending]
  have ho := hown op (by simp)
  cases op with
  | onInbound c remote =>
    have hr : remote ≠ b := by simpa [concerns] using h
    have hne : conn ≠ c := by
      rintro rfl
      exact hr (ho.mp hm)
    simp [pendingAfter, hne]
  | onUnadmitted c remote msg now =>
    have hr : remote ≠ b := by
      cases msg <;> simp [concerns] at h
      · exact h
      · exact h
      · exact h.1
      · exact h
    have hne : conn ≠ c := by
      rintro rfl
      exact hr (ho.mp hm)
    cases msg <;> simp [pendingAfter, hne]
  | onEnrollTimeout c =>
    have hne : conn ≠ c := by
      rintro rfl
      simp [concerns, hm] at h
    simp [pendingAfter, hne]
  | _ => rfl

theorem erased_codes (s : Session K) (op : Op K) (h : concerns b mine codes op = false)
    (token : String) (ht : token ∈ codes) (later : ℕ) (hr : ReadBy [op] later) :
    (step s op).1.tokens.live token later = s.tokens.live token later := by
  rcases clock_cases op with hc | ⟨name, ports, bytes, now, rfl⟩ |
    ⟨conn, remote, other, version, now, rfl⟩
  · rw [tokens_frame s op hc]
  · have hne : token ≠ hexToken bytes := by
      rintro rfl
      simp [concerns, ht] at h
    rw [step_tokens, live_mint, if_neg hne]
  · have hne : token ≠ other := by
      rintro rfl
      simp [concerns, ht] at h
    have hle : now ≤ later := readBy_last [] _ now later rfl hr
    rw [step_tokens, live_claim _ _ _ _ _ hle, if_neg hne]

theorem announceAll_addressed (s : Session K) :
    s.announceAll.filter (addressed b mine) =
      if s.peers[b]?.isSome then [s.announce b] else [] := by
  have hone : s.peers.keys.filter (fun k => k = b) = if b ∈ s.peers then [b] else [] := by
    rw [List.filter_eq]
    split_ifs with h
    · rw [List.count_eq_one_of_mem ExtTreeMap.nodup_keys (ExtTreeMap.mem_keys.mpr h)]
      rfl
    · rw [List.count_eq_zero_of_not_mem (fun hm => h (ExtTreeMap.mem_keys.mp hm))]
      rfl
  have hcomp : (addressed b mine ∘ s.announce) = fun k => decide (k = b) := by
    funext k
    simp [addressed, Session.announce]
  rw [Session.announceAll, List.filter_map, hcomp, hone]
  simp only [ExtTreeMap.mem_iff_isSome_getElem?]
  split_ifs <;> rfl

theorem erased_agree (ahead : ℕ → Prop) (s s' : Session K) (op : Op K)
    (h : concerns b mine codes op = false) (hown : OwnConns b mine [op])
    (ha : Agree b mine codes ahead s s') :
    Agree b mine codes (fun later => ahead later ∧ ReadBy [op] later) (step s op).1 s' := by
  constructor
  · intro port
    rw [erased_grants b mine codes s op h port, ha.grants port]
  · rw [erased_record b mine codes s op h, ha.record]
  · intro conn hm
    rw [erased_pending b mine codes s op h hown conn hm, ha.pending conn hm]
  · rintro token ht later ⟨hl, hr⟩
    rw [erased_codes b mine codes s op h token ht later hr, ha.codes token ht later hl]

section Kept
variable (ahead : ℕ → Prop) (s s' : Session K) (op : Op K)
  (hk : concerns b mine codes op = true) (hown : OwnConns b mine [op])
  (hpres : ∀ token, presentedCode b op = some token → token ∈ codes)
  (hnow : ∀ now, clock op = some now → ahead now) (ha : Agree b mine codes ahead s s')

include hk hpres hnow ha

theorem kept_claim : claimBy s op = claimBy s' op := by
  cases op with
  | onUnadmitted conn remote msg now =>
    cases msg with
    | enroll token version =>
      have ht : token ∈ codes := by
        by_cases hr : remote = b
        · exact hpres token (by simp [presentedCode, hr])
        · simpa [concerns, hr] using hk
      rw [claimBy_enroll, claimBy_enroll, ha.codes token ht now (hnow now rfl)]
    | _ => rfl
  | _ => rfl

theorem kept_grants (port : Port) :
    (step s op).1.grants.allows port b ↔ (step s' op).1.grants.allows port b := by
  have hc := kept_claim b mine codes ahead s s' op hk hpres hnow ha
  have hp : b ∈ s.peers ↔ b ∈ s'.peers := by
    rw [ExtTreeMap.mem_iff_isSome_getElem?, ExtTreeMap.mem_iff_isSome_getElem?, ha.record]
  rw [step_allows, step_allows, ha.grants port]
  simp only [Grant, Revoke, hc, hp]

theorem kept_record : (step s op).1.peers[b]? = (step s' op).1.peers[b]? := by
  have hc := kept_claim b mine codes ahead s s' op hk hpres hnow ha
  rw [step_peers, step_peers]
  cases op <;> simp only [recordAfter, hc, ha.record]

theorem kept_codes (token : String) (ht : token ∈ codes) (later : ℕ) (hl : ahead later)
    (hr : ReadBy [op] later) :
    (step s op).1.tokens.live token later = (step s' op).1.tokens.live token later := by
  rcases clock_cases op with hc | ⟨name, ports, bytes, now, rfl⟩ |
    ⟨conn, remote, other, version, now, rfl⟩
  · rw [tokens_frame s op hc, tokens_frame s' op hc, ha.codes token ht later hl]
  · rw [step_tokens, step_tokens, live_mint, live_mint, ha.codes token ht later hl]
  · have hle : now ≤ later := readBy_last [] _ now later rfl hr
    rw [step_tokens, step_tokens, live_claim _ _ _ _ _ hle, live_claim _ _ _ _ _ hle,
      ha.codes token ht later hl]

include hown

theorem kept_pending (conn : ConnId) (hm : mine conn = true) :
    (step s op).1.pending[conn]? = (step s' op).1.pending[conn]? := by
  rw [step_pending, step_pending]
  have hp := ha.pending conn hm
  have ho := hown op (by simp)
  cases op with
  | onInbound c remote =>
    have hr : remote = b := by simpa [concerns] using hk
    have hcon : s.peers.contains remote = s'.peers.contains remote := by
      rw [hr, ExtTreeMap.contains_eq_isSome_getElem?, ExtTreeMap.contains_eq_isSome_getElem?,
        ha.record]
    simp only [pendingAfter, hcon, hp]
  | onUnadmitted c remote msg now => cases msg <;> simp only [pendingAfter, hp]
  | _ => simp only [pendingAfter, hp]

theorem kept_agree :
    Agree b mine codes (fun later => ahead later ∧ ReadBy [op] later)
      (step s op).1 (step s' op).1 := by
  constructor
  · exact kept_grants b mine codes ahead s s' op hk hpres hnow ha
  · exact kept_record b mine codes ahead s s' op hk hpres hnow ha
  · exact kept_pending b mine codes ahead s s' op hk hown hpres hnow ha
  · rintro token ht later ⟨hl, hr⟩
    exact kept_codes b mine codes ahead s s' op hk hpres hnow ha token ht later hl hr

theorem kept_actions :
    (step s op).2.filter (addressed b mine) = (step s' op).2.filter (addressed b mine) := by
  have hc := kept_claim b mine codes ahead s s' op hk hpres hnow ha
  have hg := kept_grants b mine codes ahead s s' op hk hpres hnow ha
  have hr := kept_record b mine codes ahead s s' op hk hpres hnow ha
  have hann : (step s op).1.announce b = (step s' op).1.announce b := by
    simp only [Session.announce, portsFor_congr _ _ b hg]
  have ho := hown op (by simp)
  cases op with
  | admitKnown key label admission => rfl
  | onInbound conn remote =>
    obtain rfl : remote = b := by simpa [concerns] using hk
    have hcon : s.peers.contains remote = s'.peers.contains remote := by
      rw [ExtTreeMap.contains_eq_isSome_getElem?, ExtTreeMap.contains_eq_isSome_getElem?, ha.record]
    have hsame : s.announce remote = s'.announce remote := by
      simp only [Session.announce, portsFor_congr _ _ remote ha.grants]
    simp only [step, Session.onInbound, hcon]
    split_ifs
    · rw [hsame]
    · rfl
  | onUnadmitted conn remote msg now =>
    cases msg with
    | enroll token version =>
      have hres : (s.tokens.claim token now).2 = (s'.tokens.claim token now).2 := by
        have hmap : (s.tokens.claim token now).2.map (fun c => (remote, c)) =
            (s'.tokens.claim token now).2.map (fun c => (remote, c)) := hc
        exact Option.map_injective (fun c c' h => (Prod.mk.inj h).2) hmap
      cases hd : (s.tokens.claim token now).2 with
      | none =>
        have hd' : (s'.tokens.claim token now).2 = none := hres ▸ hd
        simp only [step, onUnadmitted_refused s conn remote token version now hd,
          onUnadmitted_refused s' conn remote token version now hd']
      | some d =>
        have hd' : (s'.tokens.claim token now).2 = some d := hres ▸ hd
        simp only [step, onUnadmitted_claimed s conn remote token version now d hd,
          onUnadmitted_claimed s' conn remote token version now d hd'] at hann ⊢
        by_cases hb : remote = b
        · have hmine : mine conn = true := ho.mpr hb
          have hearly : s.earlyPorts conn = s'.earlyPorts conn := by
            simp only [Session.earlyPorts, ha.pending conn hmine]
          subst hb
          rw [hann, hearly]
        · have hmine : mine conn = false := by
            rw [Bool.eq_false_iff]
            exact fun h => hb (ho.mp h)
          have hnone : ∀ (early : List Port) (ports : List Port),
              (([.admitPeer conn remote false, .persistPin remote d.name] ++
                (if early.isEmpty then [] else [.applyPorts remote early]) ++
                [.announce remote ports] : List (Action K))).filter (addressed b mine) = [] := by
            intro early ports
            cases early <;> simp [addressed, hb, hmine]
          simp only [Session.announce, hnone]
    | exposedPorts ports =>
      have he : ∀ t : Session K, (t.onUnadmitted conn remote (.exposedPorts ports) now).2 = [] := by
        intro t
        simp only [Session.onUnadmitted]
        cases t.pending[conn]? <;> rfl
      simp only [step, he]
    | connect port => rfl
    | error text => rfl
  | onEnrollTimeout conn =>
    have hmine : mine conn = true := by simpa [concerns] using hk
    simp only [step, Session.onEnrollTimeout, ha.pending conn hmine]
    cases s'.pending[conn]? <;> rfl
  | evict peer =>
    have hb : peer = b := by simpa [concerns] using hk
    simp only [step, Session.evict, hb, ha.record]
    cases s'.peers[b]? <;> rfl
  | expose port grantees =>
    simp only [step, Session.expose] at hann hr ⊢
    rw [announceAll_addressed, announceAll_addressed, hann, hr]
  | unexpose port grantee =>
    simp only [step, Session.unexpose] at hann hr ⊢
    rw [announceAll_addressed, announceAll_addressed, hann, hr]
  | mintToken name ports bytes now => rfl

end Kept

omit [LinearOrder K] in
theorem ownConns_left (ops rest : List (Op K)) (h : OwnConns b mine (ops++rest)) :
    OwnConns b mine ops :=
  fun op ho => h op (List.mem_append_left _ ho)

omit [LinearOrder K] in
theorem ownConns_single (ops rest : List (Op K)) (op : Op K)
    (h : OwnConns b mine (ops++op::rest)) : OwnConns b mine [op] := by
  intro o ho
  obtain rfl := List.mem_singleton.mp ho
  exact h o (by simp)

omit [LinearOrder K] in
theorem readBy_snoc (ops : List (Op K)) (op : Op K) (later : ℕ) :
    ReadBy (ops++[op]) later ↔ ReadBy ops later ∧ ReadBy [op] later := by
  unfold ReadBy
  rw [List.filterMap_append]
  simp only [List.mem_append, or_imp, forall_and]

theorem agree_remaining (ops : List (Op K)) (hc : ClockMonotone ops)
    (hown : OwnConns b mine ops)
    (hpres : ∀ op ∈ ops, ∀ token, presentedCode b op = some token → token ∈ codes) :
    Agree b mine codes (ReadBy ops) (after ops) (after (remaining b mine codes ops)) := by
  induction ops using List.reverseRecOn with
  | nil => exact ⟨fun _ => Iff.rfl, rfl, fun _ _ => rfl, fun _ _ _ _ => rfl⟩
  | append_singleton ops op ih =>
    have hprev := ih (clock_left ops [op] hc) (ownConns_left b mine ops [op] hown)
      (fun o ho => hpres o (List.mem_append_left _ ho))
    have hone := ownConns_single b mine ops [] op hown
    have hahead : ∀ later, ReadBy (ops++[op]) later → ReadBy ops later ∧ ReadBy [op] later :=
      fun later => (readBy_snoc ops op later).mp
    have hstep : after (ops++[op]) = (step (after ops) op).1 := run_snoc step _ ops op
    rw [hstep]
    cases hk : concerns b mine codes op with
    | false =>
      have hsame : remaining b mine codes (ops++[op]) = remaining b mine codes ops := by
        simp [remaining, List.filter_append, hk]
      rw [hsame]
      have h := erased_agree b mine codes _ _ _ op hk hone hprev
      exact ⟨h.grants, h.record, h.pending, fun t ht l hl => h.codes t ht l (hahead l hl)⟩
    | true =>
      have hmore : remaining b mine codes (ops++[op]) = remaining b mine codes ops ++ [op] := by
        simp [remaining, List.filter_append, hk]
      have hstep' : after (remaining b mine codes ops ++ [op]) =
          (step (after (remaining b mine codes ops)) op).1 := run_snoc step _ _ op
      rw [hmore, hstep']
      have h := kept_agree b mine codes _ _ _ op hk hone
        (fun t ht => hpres op (by simp) t ht)
        (fun now hnow => clock_readBy ops [] op now hnow hc) hprev
      exact ⟨h.grants, h.record, h.pending, fun t ht l hl => h.codes t ht l (hahead l hl)⟩

theorem presented_concerns (op : Op K) (token : String) (h : presentedCode b op = some token) :
    concerns b mine codes op = true := by
  cases op with
  | onUnadmitted conn remote msg now =>
    cases msg with
    | enroll t version =>
      by_cases hr : remote = b
      · simp [concerns, hr]
      · simp [presentedCode, hr] at h
    | _ => cases h
  | _ => cases h

theorem presentedCodes_remaining (ops : List (Op K)) :
    presentedCodes b (remaining b mine codes ops) = presentedCodes b ops := by
  induction ops with
  | nil => rfl
  | cons op ops ih =>
    unfold presentedCodes remaining at *
    cases hk : concerns b mine codes op with
    | true => simp only [List.filter_cons, hk, if_true, List.filterMap_cons, ih]
    | false =>
      have hp : presentedCode b op = none := by
        by_contra hne
        obtain ⟨token, ht⟩ := Option.ne_none_iff_exists'.mp hne
        simp [presented_concerns b mine codes op token ht] at hk
      simp only [List.filter_cons, hk, Bool.false_eq_true, if_false, List.filterMap_cons, hp, ih]

theorem agree_presented (ops pre post : List (Op K)) (hops : ops = pre++post)
    (hc : ClockMonotone ops) (hown : OwnConns b mine ops) :
    Agree b mine (presentedCodes b ops) (ReadBy pre) (after pre)
      (after (remaining b mine (presentedCodes b ops) pre)) := by
  subst hops
  apply agree_remaining b mine _ pre (clock_left pre post hc) (ownConns_left b mine pre post hown)
  intro op ho token ht
  exact List.mem_filterMap.mpr ⟨op, List.mem_append_left _ ho, ht⟩

theorem agree_both (ahead ahead' : ℕ → Prop) (s t s' : Session K)
    (h : Agree b mine codes ahead s t) (h' : Agree b mine codes ahead' s' t) :
    Agree b mine codes (fun later => ahead later ∧ ahead' later) s s' := by
  constructor
  · intro port
    rw [h.grants, h'.grants]
  · rw [h.record, h'.record]
  · intro conn hm
    rw [h.pending conn hm, h'.pending conn hm]
  · rintro token ht later ⟨hl, hl'⟩
    rw [h.codes token ht later hl, h'.codes token ht later hl']

/-- Two runs that are the same for `b` after erasure, cut anywhere after the
same remaining operations: `b` is served the same, recorded the same, answered
the same by the next operation that concerns it, and every list announced to it
in one run, by whichever operation, is what the other run serves it. -/
theorem peers_invisible (ops₁ ops₂ pre₁ post₁ pre₂ post₂ : List (Op K))
    (hc₁ : ClockMonotone ops₁) (hc₂ : ClockMonotone ops₂)
    (ho₁ : OwnConns b mine ops₁) (ho₂ : OwnConns b mine ops₂)
    (hsame : remaining b mine (presentedCodes b ops₁) ops₁ =
      remaining b mine (presentedCodes b ops₂) ops₂)
    (h₁ : ops₁ = pre₁++post₁) (h₂ : ops₂ = pre₂++post₂)
    (hcut : remaining b mine (presentedCodes b ops₁) pre₁ =
      remaining b mine (presentedCodes b ops₂) pre₂) :
    (∀ port, (after pre₁).onTunnel b port = (after pre₂).onTunnel b port) ∧
    (after pre₁).admissionOf b = (after pre₂).admissionOf b ∧
    (after pre₁).labelOf b = (after pre₂).labelOf b ∧
    (∀ op rest₁ rest₂, post₁ = op::rest₁ → post₂ = op::rest₂ →
      concerns b mine (presentedCodes b ops₁) op = true →
      (step (after pre₁) op).2.filter (addressed b mine) =
        (step (after pre₂) op).2.filter (addressed b mine)) ∧
    (∀ pre op, pre₁ = pre++[op] → ∀ ports, .announce b ports ∈ (step (after pre) op).2 →
      ServedList (after pre₂) b ports) := by
  have hcodes : presentedCodes b ops₁ = presentedCodes b ops₂ := by
    rw [← presentedCodes_remaining b mine (presentedCodes b ops₁) ops₁, hsame,
      presentedCodes_remaining]
  have ha₁ := agree_presented b mine ops₁ pre₁ post₁ h₁ hc₁ ho₁
  have ha₂ := agree_presented b mine ops₂ pre₂ post₂ h₂ hc₂ ho₂
  rw [hcut] at ha₁
  rw [← hcodes] at ha₂ ha₁
  have ha := agree_both b mine _ _ _ _ _ _ ha₁ ha₂
  refine ⟨?_, ?_, ?_, ?_, ?_⟩
  · intro port
    simp only [Session.onTunnel, ha.grants port]
  · rw [Session.admissionOf, Session.admissionOf, ha.record]
  · rw [Session.labelOf, Session.labelOf, ha.record]
  · intro op rest₁ rest₂ hp₁ hp₂ hk
    subst hp₁ hp₂
    apply kept_actions b mine (presentedCodes b ops₁) _ _ _ op hk
      (ownConns_single b mine pre₁ rest₁ op (h₁ ▸ ho₁)) _ _ ha
    · intro token ht
      exact List.mem_filterMap.mpr ⟨op, by simp [h₁], ht⟩
    · intro now hnow
      exact ⟨clock_readBy pre₁ rest₁ op now hnow (h₁ ▸ hc₁),
        clock_readBy pre₂ rest₂ op now hnow (h₂ ▸ hc₂)⟩
  · intro pre op hp ports hann
    have hstep : (step (after pre) op).1 = after pre₁ := by
      rw [hp, after, after, run_snoc]
    have hs := announced_servedList (after pre) op b ports hann
    rw [hstep] at hs
    refine ⟨hs.1, ?_⟩
    intro port
    rw [hs.2 port, serves_iff, serves_iff, ha.grants port]

end

/-- Key 7 is admitted and granted 8080; in one run key 9 is let in and granted
22 besides, and the announcement this sends to 7 is what the other run serves. -/
theorem neighbour_unseen :
    remaining 7 (fun c => c = 1) [] ([.admitKnown 7 none .key, .expose 8080 [7],
      .admitKnown 9 none .key, .expose 22 [9]] : List (Op ℕ)) =
        [.admitKnown 7 none .key, .expose 8080 [7]] ∧
    .announce 7 [8080] ∈ (step (after [.admitKnown 7 none .key, .expose 8080 [7],
      .admitKnown 9 none .key]) (.expose 22 [9]) : Session ℕ × List (Action ℕ)).2 ∧
    ServedList (after [.admitKnown 7 none .key, .expose 8080 [7]] : Session ℕ) 7 [8080] := by
  refine ⟨by decide, by decide +kernel, ?_⟩
  exact (peers_invisible 7 (fun c => c = 1)
    [.admitKnown 7 none .key, .expose 8080 [7], .admitKnown 9 none .key, .expose 22 [9]]
    [.admitKnown 7 none .key, .expose 8080 [7]]
    [.admitKnown 7 none .key, .expose 8080 [7], .admitKnown 9 none .key, .expose 22 [9]] []
    [.admitKnown 7 none .key, .expose 8080 [7]] []
    (by unfold ClockMonotone; decide) (by unfold ClockMonotone; decide)
    (by simp [OwnConns]) (by simp [OwnConns]) (by decide) rfl rfl (by decide)).2.2.2.2
    [.admitKnown 7 none .key, .expose 8080 [7], .admitKnown 9 none .key] (.expose 22 [9]) rfl
    [8080] (by decide +kernel)

end PaiSho.Isolation
