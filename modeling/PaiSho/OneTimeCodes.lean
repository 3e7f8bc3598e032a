import PaiSho.SessionSteps

/-!
# A one-time code admits at most one key

The table purges itself at every claim and drops a code when it is taken, so
what it holds is compared with the history: a code is claimable exactly when it
was minted, no earlier `Enroll` consumed it, and its time has not run out. The
draws are assumed distinct and the clock never goes back.
-/

set_option autoImplicit false

namespace PaiSho.OneTimeCodes
open Std (ExtTreeMap)
open PaiSho.GrantTable PaiSho.Enrollment PaiSho.SessionCore PaiSho.SessionSteps
open Library.OrderedMaps Library.Traces

section Operations
variable {K : Type}

def mintedCode : Op K → Option String
  | .mintToken _ _ bytes _ => some (hexToken bytes)
  | _ => none

def clock : Op K → Option ℕ
  | .onUnadmitted _ _ (.enroll _ _) now => some now
  | .mintToken _ _ _ now => some now
  | _ => none

def DistinctCodes (ops : List (Op K)) : Prop := (ops.filterMap mintedCode).Nodup

def ClockMonotone (ops : List (Op K)) : Prop := (ops.filterMap clock).Pairwise (· ≤ ·)

/-- Every reading made so far is at most `now`. -/
def ReadBy (ops : List (Op K)) (now : ℕ) : Prop := ∀ t ∈ ops.filterMap clock, t ≤ now

def Minted (ops : List (Op K)) (token : String) (e : PendingToken) : Prop :=
  ∃ name ports bytes now, .mintToken name ports bytes now ∈ ops ∧ hexToken bytes = token ∧
    e = ⟨name, ports, now+tokenTtl⟩

theorem minted_append (ops rest : List (Op K)) (token : String) (e : PendingToken) :
    Minted (ops++rest) token e ↔ Minted ops token e ∨ Minted rest token e := by
  constructor
  · rintro ⟨name, ports, bytes, now, hm, ht, he⟩
    rcases List.mem_append.mp hm with hm | hm
    · exact Or.inl ⟨name, ports, bytes, now, hm, ht, he⟩
    · exact Or.inr ⟨name, ports, bytes, now, hm, ht, he⟩
  · rintro (⟨name, ports, bytes, now, hm, ht, he⟩ | ⟨name, ports, bytes, now, hm, ht, he⟩)
    · exact ⟨name, ports, bytes, now, List.mem_append_left _ hm, ht, he⟩
    · exact ⟨name, ports, bytes, now, List.mem_append_right _ hm, ht, he⟩

theorem minted_mem (ops : List (Op K)) (token : String) (e : PendingToken)
    (h : Minted ops token e) : token ∈ ops.filterMap mintedCode := by
  obtain ⟨name, ports, bytes, now, hm, rfl, -⟩ := h
  exact List.mem_filterMap.mpr ⟨_, hm, rfl⟩

theorem distinct_left (ops rest : List (Op K)) (h : DistinctCodes (ops++rest)) :
    DistinctCodes ops := by
  unfold DistinctCodes at *
  rw [List.filterMap_append] at h
  exact h.of_append_left

theorem distinct_fresh (ops : List (Op K)) (name : Option String) (ports : List Port)
    (bytes : Vector UInt8 32) (now : ℕ)
    (h : DistinctCodes (ops++[.mintToken name ports bytes now])) (e : PendingToken) :
    ¬ Minted ops (hexToken bytes) e := by
  intro hm
  unfold DistinctCodes at h
  rw [List.filterMap_append] at h
  have hmem := minted_mem ops _ e hm
  exact List.disjoint_of_nodup_append h hmem (by simp [mintedCode])

theorem readBy_left (ops rest : List (Op K)) (now : ℕ) (h : ReadBy (ops++rest) now) :
    ReadBy ops now := by
  intro t ht
  exact h t (by rw [List.filterMap_append]; exact List.mem_append_left _ ht)

theorem readBy_last (ops : List (Op K)) (op : Op K) (t now : ℕ) (hc : clock op = some t)
    (h : ReadBy (ops++[op]) now) : t ≤ now :=
  h t (by simp [hc])

theorem clock_left (ops rest : List (Op K)) (h : ClockMonotone (ops++rest)) :
    ClockMonotone ops := by
  unfold ClockMonotone at *
  rw [List.filterMap_append] at h
  exact (List.pairwise_append.mp h).1

theorem clock_readBy (ops rest : List (Op K)) (op : Op K) (now : ℕ) (hc : clock op = some now)
    (h : ClockMonotone (ops++op::rest)) : ReadBy ops now := by
  unfold ClockMonotone at h
  rw [List.filterMap_append] at h
  intro t ht
  exact (List.pairwise_append.mp h).2.2 t ht now (by simp [hc])

theorem clock_cases (op : Op K) : clock op = none ∨
    (∃ name ports bytes now, op = .mintToken name ports bytes now) ∨
    ∃ conn remote token version now, op = .onUnadmitted conn remote (.enroll token version) now := by
  cases op with
  | onUnadmitted conn remote msg now =>
    cases msg with
    | enroll token version => exact Or.inr (Or.inr ⟨conn, remote, token, version, now, rfl⟩)
    | exposedPorts ports => exact Or.inl rfl
    | connect port => exact Or.inl rfl
    | error text => exact Or.inl rfl
  | mintToken name ports bytes now => exact Or.inr (Or.inl ⟨name, ports, bytes, now, rfl⟩)
  | _ => exact Or.inl rfl

end Operations

section
variable {K : Type} [LinearOrder K]

/-- The operation is an `Enroll` that presents `token` and is accepted. -/
def Consumes (token : String) (s : Session K) (op : Op K) : Prop :=
  ∃ conn remote version now, op = .onUnadmitted conn remote (.enroll token version) now ∧
    (claimBy s op).isSome

def Spent (ops : List (Op K)) (token : String) : Prop :=
  ∃ e ∈ history ops, Consumes token e.before e.input

theorem spent_snoc (ops : List (Op K)) (op : Op K) (token : String) :
    Spent (ops++[op]) token ↔ Spent ops token ∨ Consumes token (after ops) op := by
  unfold Spent history
  rw [trace_snoc]
  constructor
  · rintro ⟨e, he, hc⟩
    rcases List.mem_append.mp he with he | he
    · exact Or.inl ⟨e, he, hc⟩
    · obtain rfl := List.mem_singleton.mp he
      exact Or.inr hc
  · rintro (⟨e, he, hc⟩ | hc)
    · exact ⟨e, List.mem_append_left _ he, hc⟩
    · exact ⟨_, List.mem_append_right _ (List.mem_singleton.mpr rfl), hc⟩

theorem not_consumes (token : String) (s : Session K) (op : Op K) (h : clock op = none) :
    ¬ Consumes token s op := by
  rintro ⟨conn, remote, version, now, rfl, -⟩
  cases h

theorem not_consumes_mint (token : String) (s : Session K) (name : Option String)
    (ports : List Port) (bytes : Vector UInt8 32) (now : ℕ) :
    ¬ Consumes token s (.mintToken name ports bytes now) := by
  rintro ⟨conn, remote, version, t, h, -⟩
  cases h

theorem consumes_enroll (s : Session K) (token other : String) (conn : ConnId) (remote : K)
    (version : Option String) (now : ℕ) :
    Consumes token s (.onUnadmitted conn remote (.enroll other version) now) ↔
      other = token ∧ (s.tokens.live token now).isSome := by
  constructor
  · rintro ⟨c, r, v, n, h, hs⟩
    cases h
    rw [claimBy_enroll, Option.isSome_map] at hs
    exact ⟨rfl, hs⟩
  · rintro ⟨rfl, hs⟩
    refine ⟨conn, remote, version, now, rfl, ?_⟩
    rw [claimBy_enroll, Option.isSome_map]
    exact hs

theorem tokens_frame (s : Session K) (op : Op K) (h : clock op = none) :
    (step s op).1.tokens = s.tokens := by
  rw [step_tokens]
  cases op with
  | onUnadmitted conn remote msg now =>
    cases msg with
    | enroll token version => cases h
    | _ => rfl
  | mintToken name ports bytes now => cases h
  | _ => rfl

/-- What the table holds was minted and has not been spent; what was spent was
minted. The two go together: a fresh draw is unspent because nothing is spent
that was not drawn before. -/
theorem table_sound (ops : List (Op K)) (hd : DistinctCodes ops) :
    (∀ (token : String) (e : PendingToken), (after ops).tokens.pending[token]? = some e →
      Minted ops token e ∧ ¬ Spent ops token) ∧
    ∀ token, Spent ops token → ∃ e, Minted ops token e := by
  induction ops using List.reverseRecOn with
  | nil =>
    constructor
    · intro token e h
      simp [after, run, Session.new, Tokens.empty] at h
    · rintro token ⟨e, he, -⟩
      simp [history, trace] at he
  | append_singleton ops op ih =>
    obtain ⟨hheld, hspent⟩ := ih (distinct_left ops [op] hd)
    have hstep : (after (ops++[op])).tokens = (step (after ops) op).1.tokens := by
      rw [after, run_snoc, ← after]
    constructor
    · intro token e h
      rw [hstep] at h
      rw [minted_append, spent_snoc]
      rcases clock_cases op with hc | ⟨name, ports, bytes, now, rfl⟩ |
        ⟨conn, remote, other, version, now, rfl⟩
      · rw [tokens_frame _ _ hc] at h
        obtain ⟨hm, hs⟩ := hheld token e h
        exact ⟨Or.inl hm, not_or.mpr ⟨hs, not_consumes token _ op hc⟩⟩
      · rw [step_tokens, mint_pending] at h
        have hnc := not_consumes_mint token (after ops) name ports bytes now
        split_ifs at h with ht
        · obtain rfl := Option.some.inj h
          have hfresh : ¬ Spent ops token := by
            intro hs
            obtain ⟨e, he⟩ := hspent token hs
            exact distinct_fresh ops name ports bytes now hd e (ht ▸ he)
          exact ⟨Or.inr ⟨name, ports, bytes, now, by simp, ht.symm, rfl⟩, not_or.mpr ⟨hfresh, hnc⟩⟩
        · obtain ⟨hm, hs⟩ := hheld token e h
          exact ⟨Or.inl hm, not_or.mpr ⟨hs, hnc⟩⟩
      · rw [step_tokens, claim_pending] at h
        split_ifs at h with ht
        obtain ⟨hm, hs⟩ := hheld token e ((live_eq_some _ _ _ _).mp h).1
        have hnc := (consumes_enroll (after ops) token other conn remote version now).not.mpr
          (fun hc => ht hc.1.symm)
        exact ⟨Or.inl hm, not_or.mpr ⟨hs, hnc⟩⟩
    · intro token hs
      rcases (spent_snoc ops op token).mp hs with hs | ⟨conn, remote, version, now, rfl, hc⟩
      · obtain ⟨e, he⟩ := hspent token hs
        exact ⟨e, (minted_append ops _ token e).mpr (Or.inl he)⟩
      · rw [claimBy_enroll, Option.isSome_map, Option.isSome_iff_exists] at hc
        obtain ⟨e, he⟩ := hc
        have hm := (hheld token e ((live_eq_some _ _ _ _).mp he).1).1
        exact ⟨e, (minted_append ops _ token e).mpr (Or.inl hm)⟩

/-- A code that was minted, is unspent and has time left is still held: a purge
only drops what a later reading would not accept either. -/
theorem table_complete (ops : List (Op K)) (hd : DistinctCodes ops) (token : String)
    (e : PendingToken) (now : ℕ) (hr : ReadBy ops now) (hm : Minted ops token e)
    (hs : ¬ Spent ops token) (hn : now < e.expires) :
    (after ops).tokens.live token now = some e := by
  induction ops using List.reverseRecOn with
  | nil =>
    obtain ⟨name, ports, bytes, t, h, -⟩ := hm
    simp at h
  | append_singleton ops op ih =>
    have hstep : (after (ops++[op])).tokens = (step (after ops) op).1.tokens := by
      rw [after, run_snoc, ← after]
    rw [spent_snoc, not_or] at hs
    have hheld := fun h => ih (distinct_left ops [op] hd) (readBy_left ops [op] now hr) h hs.1
    rw [hstep]
    rcases (minted_append ops [op] token e).mp hm with hold | hnew
    · rcases clock_cases op with hc | ⟨name, ports, bytes, t, rfl⟩ |
        ⟨conn, remote, other, version, t, rfl⟩
      · rw [tokens_frame _ _ hc]
        exact hheld hold
      · rw [step_tokens, live_mint]
        have hne : token ≠ hexToken bytes := by
          rintro rfl
          exact distinct_fresh ops name ports bytes t hd e hold
        rw [if_neg hne]
        exact hheld hold
      · have ht : t ≤ now := readBy_last ops _ t now rfl hr
        rw [step_tokens, live_claim _ _ _ _ _ ht]
        have hne : token ≠ other := by
          -- presenting this very code now would have consumed it
          rintro rfl
          apply hs.2
          rw [consumes_enroll]
          have hl := (live_eq_some _ _ _ _).mp (hheld hold)
          refine ⟨rfl, Option.isSome_iff_exists.mpr ⟨e, (live_eq_some _ _ _ _).mpr ⟨hl.1, ?_⟩⟩⟩
          omega
        rw [if_neg hne]
        exact hheld hold
    · obtain ⟨name, ports, bytes, t, h, rfl, rfl⟩ := hnew
      obtain rfl := List.mem_singleton.mp h
      rw [step_tokens, live_mint, if_pos rfl, if_pos hn]

/-- The code can be claimed at `now`: minted, never taken, time left. -/
structure Claimable (ops : List (Op K)) (token : String) (now : ℕ) (e : PendingToken) : Prop where
  minted : Minted ops token e
  unspent : ¬ Spent ops token
  live : now < e.expires

/-- The code cannot be claimed at `now`: unknown, taken, or out of time. -/
def Unclaimable (ops : List (Op K)) (token : String) (now : ℕ) : Prop :=
  (∀ e, ¬ Minted ops token e) ∨ Spent ops token ∨ ∀ e, Minted ops token e → e.expires ≤ now

/-- Everything an accepted claim does, in the step that takes the code. -/
structure ClaimEffect (s s' : Session K) (actions : List (Action K)) (conn : ConnId) (remote : K)
    (name : Option String) (ports : List Port) : Prop where
  admitted : s'.peers[remote]? = some ⟨name, .code⟩
  granted : ∀ port, s'.grants.allows port remote ↔ port ∈ ports ∨ s.grants.allows port remote
  others_admission : ∀ k, k ≠ remote → s'.peers[k]? = s.peers[k]?
  others_grants : ∀ k, k ≠ remote → ∀ port, s'.grants.allows port k ↔ s.grants.allows port k
  admit_returned : .admitPeer conn remote false ∈ actions
  pin_returned : .persistPin remote name ∈ actions

theorem claim_effect (s : Session K) (conn : ConnId) (remote : K) (token : String)
    (version : Option String) (now : ℕ) (e : PendingToken)
    (h : s.tokens.live token now = some e) :
    ClaimEffect s (step s (.onUnadmitted conn remote (.enroll token version) now)).1
      (step s (.onUnadmitted conn remote (.enroll token version) now)).2
      conn remote e.name e.ports := by
  have hc : (s.tokens.claim token now).2 = some e.claimed := by rw [claim_result, h]; rfl
  simp only [step, onUnadmitted_claimed s conn remote token version now _ hc]
  constructor
  · simp [Session.enrolled, PendingToken.claimed]
  · intro port
    simp [Session.enrolled, PendingToken.claimed, allows_addPorts]
  · intro k hk
    simp [Session.enrolled, lookup_insert, hk]
  · intro k hk port
    simp [Session.enrolled, allows_addPorts, hk]
  · simp
  · simp [PendingToken.claimed]

theorem live_iff_claimable (ops : List (Op K)) (hd : DistinctCodes ops) (token : String)
    (now : ℕ) (hr : ReadBy ops now) (e : PendingToken) :
    (after ops).tokens.live token now = some e ↔ Claimable ops token now e := by
  constructor
  · intro h
    obtain ⟨hp, hn⟩ := (live_eq_some _ _ _ _).mp h
    obtain ⟨hm, hs⟩ := (table_sound ops hd).1 token e hp
    exact ⟨hm, hs, hn⟩
  · rintro ⟨hm, hs, hn⟩
    exact table_complete ops hd token e now hr hm hs hn

theorem consumed_once (ops : List (Op K)) (hd : DistinctCodes ops) (token : String) :
    (history ops).Pairwise (fun e e' =>
      ¬ (Consumes token e.before e.input ∧ Consumes token e'.before e'.input)) := by
  unfold history
  induction ops using List.reverseRecOn with
  | nil => exact List.Pairwise.nil
  | append_singleton ops op ih =>
    rw [trace_snoc, List.pairwise_append]
    refine ⟨ih (distinct_left ops [op] hd), List.pairwise_singleton _ _, ?_⟩
    rintro e he e' he' ⟨hc, hc'⟩
    obtain rfl := List.mem_singleton.mp he'
    obtain ⟨conn, remote, version, now, hop, hs⟩ := hc'
    simp only [event] at hop hs
    subst hop
    rw [claimBy_enroll, Option.isSome_map, Option.isSome_iff_exists] at hs
    obtain ⟨entry, hl⟩ := hs
    have hheld := ((live_eq_some _ _ _ _).mp hl).1
    exact ((table_sound ops (distinct_left ops _ hd)).1 token entry hheld).2 ⟨e, he, hc⟩

theorem live_step (s : Session K) (op : Op K) (token : String) (later : ℕ) (hr : ReadBy [op] later) :
    (step s op).1.tokens.live token later = s.tokens.live token later ∨ Consumes token s op ∨
      mintedCode op = some token := by
  rcases clock_cases op with hc | ⟨name, ports, bytes, t, rfl⟩ |
    ⟨conn, remote, other, version, t, rfl⟩
  · rw [tokens_frame _ _ hc]
    exact Or.inl rfl
  · rw [step_tokens, live_mint]
    by_cases ht : token = hexToken bytes
    · exact Or.inr (Or.inr (by simp [mintedCode, ht]))
    · rw [if_neg ht]
      exact Or.inl rfl
  · have ht : t ≤ later := readBy_last [] _ t later rfl hr
    rw [step_tokens, live_claim _ _ _ _ _ ht]
    by_cases hto : token = other
    · subst hto
      rw [if_pos rfl]
      cases hl : s.tokens.live token later with
      | none => exact Or.inl rfl
      | some e =>
        -- what has time left at the later reading had it at this one
        right; left
        obtain ⟨hp, hn⟩ := (live_eq_some _ _ _ _).mp hl
        rw [consumes_enroll]
        refine ⟨rfl, Option.isSome_iff_exists.mpr ⟨e, (live_eq_some _ _ _ _).mpr ⟨hp, ?_⟩⟩⟩
        omega
    · rw [if_neg hto]
      exact Or.inl rfl

theorem code_leaves_consumed (s : Session K) (op : Op K) (token : String) (later : ℕ)
    (hr : ReadBy [op] later) (h : (s.tokens.live token later).isSome) :
    ((step s op).1.tokens.live token later).isSome ∨ Consumes token s op ∨
      mintedCode op = some token := by
  rcases live_step s op token later hr with hsame | hother
  · rw [hsame]
    exact Or.inl h
  · exact Or.inr hother

theorem enroll_frame (s : Session K) (conn : ConnId) (remote : K) (token : String)
    (version : Option String) (now : ℕ) (h : s.tokens.live token now = none) :
    (step s (.onUnadmitted conn remote (.enroll token version) now)).1.peers = s.peers ∧
      (step s (.onUnadmitted conn remote (.enroll token version) now)).1.grants = s.grants := by
  apply onUnadmitted_frame
  rw [claimBy_enroll, h]
  rfl

theorem unclaimable_not_live (ops : List (Op K)) (hd : DistinctCodes ops) (token : String)
    (now : ℕ) (hr : ReadBy ops now) (h : Unclaimable ops token now) :
    (after ops).tokens.live token now = none := by
  rw [Option.eq_none_iff_forall_ne_some]
  intro e he
  obtain ⟨hm, hs, hn⟩ := (live_iff_claimable ops hd token now hr e).mp he
  rcases h with h | h | h
  · exact h e hm
  · exact hs h
  · have := h e hm
    omega

/-- Over every run with distinct draws and a clock that never goes back: no two
accepted `Enroll` messages share a code; one is accepted exactly when its code
was minted, is unspent and has time left, and then does all of `ClaimEffect` in
that step; any other changes neither an admission nor a grant; and a code with
time left leaves the table only by being consumed. -/
theorem one_time_codes (ops : List (Op K)) (hd : DistinctCodes ops) (hc : ClockMonotone ops) :
    (∀ token, (history ops).Pairwise (fun e e' =>
      ¬ (Consumes token e.before e.input ∧ Consumes token e'.before e'.input))) ∧
    (∀ pre conn remote token version now post,
      ops = pre ++ .onUnadmitted conn remote (.enroll token version) now :: post →
      (Consumes token (after pre) (.onUnadmitted conn remote (.enroll token version) now) ↔
        ∃ e, Claimable pre token now e) ∧
      (∀ e, Claimable pre token now e → ClaimEffect (after pre)
        (step (after pre) (.onUnadmitted conn remote (.enroll token version) now)).1
        (step (after pre) (.onUnadmitted conn remote (.enroll token version) now)).2
        conn remote e.name e.ports) ∧
      (Unclaimable pre token now →
        (step (after pre) (.onUnadmitted conn remote (.enroll token version) now)).1.peers =
          (after pre).peers ∧
        (step (after pre) (.onUnadmitted conn remote (.enroll token version) now)).1.grants =
          (after pre).grants)) ∧
    (∀ pre op post token later, ops = pre ++ op :: post → ReadBy [op] later →
      ((after pre).tokens.live token later).isSome →
      ¬ ((step (after pre) op).1.tokens.live token later).isSome →
      Consumes token (after pre) op) := by
  refine ⟨consumed_once ops hd, ?_, ?_⟩
  · intro pre conn remote token version now post hops
    have hdp : DistinctCodes pre := distinct_left pre _ (hops ▸ hd)
    have hr : ReadBy pre now := clock_readBy pre post _ now rfl (hops ▸ hc)
    have hiff := live_iff_claimable pre hdp token now hr
    refine ⟨?_, ?_, ?_⟩
    · rw [consumes_enroll, Option.isSome_iff_exists]
      simp only [true_and, hiff]
    · intro e he
      exact claim_effect _ conn remote token version now e ((hiff e).mpr he)
    · intro hu
      exact enroll_frame _ conn remote token version now
        (unclaimable_not_live pre hdp token now hr hu)
  · intro pre op post token later hops hr hl hgone
    have hdp : DistinctCodes (pre++[op]) := by
      apply distinct_left (pre++[op]) post
      simpa [← hops] using hd
    rcases code_leaves_consumed (after pre) op token later hr hl with h | h | h
    · exact absurd h hgone
    · exact h
    · -- a second mint of a code the table holds would repeat a draw
      obtain ⟨e, he⟩ := Option.isSome_iff_exists.mp hl
      have hm := ((table_sound pre (distinct_left pre [op] hdp)).1 token e
        ((live_eq_some _ _ _ _).mp he).1).1
      cases op with
      | mintToken name ports bytes now =>
        obtain rfl := Option.some.inj h
        exact absurd hm (distinct_fresh pre name ports bytes now hdp e)
      | _ => cases h

end

/-- A code for `rustdev` that carries port 8080, claimed by key 7 a microsecond
after it was minted. -/
def rustdevRun : List (Op ℕ) :=
  [.mintToken (some "rustdev") [8080] (Vector.replicate 32 0) 0, .onInbound 1 7,
    .onUnadmitted 1 7 (.enroll (hexToken (Vector.replicate 32 0)) none) 1000]

theorem rustdev_claim : DistinctCodes rustdevRun ∧ ClockMonotone rustdevRun ∧
    ClaimEffect (after (rustdevRun.take 2)) (after rustdevRun)
      (step (after (rustdevRun.take 2)) (.onUnadmitted 1 7
        (.enroll (hexToken (Vector.replicate 32 0)) none) 1000)).2 1 7 (some "rustdev") [8080] := by
  have hd : DistinctCodes rustdevRun := by unfold DistinctCodes; decide
  have hc : ClockMonotone rustdevRun := by unfold ClockMonotone; decide
  have hclaim : Claimable (rustdevRun.take 2) (hexToken (Vector.replicate 32 0)) 1000
      ⟨some "rustdev", [8080], 0+tokenTtl⟩ := by
    refine ⟨⟨_, _, _, _, List.mem_cons_self, rfl, rfl⟩, ?_, by decide⟩
    rintro ⟨e, he, conn, remote, version, now, hop, -⟩
    have hin := List.mem_map_of_mem (f := Event.input) he
    rw [history, trace_inputs, hop] at hin
    simp [rustdevRun] at hin
  exact ⟨hd, hc, ((one_time_codes rustdevRun hd hc).2.1 (rustdevRun.take 2) 1 7 _ none 1000 []
    rfl).2.1 _ hclaim⟩

end PaiSho.OneTimeCodes
