import Mathlib.Data.Int.Basic

/-!
# JSON values and their tokens

A value has one sequence of tokens, and a sequence of tokens is read by a machine
that takes them one by one, with the open arrays and objects on a stack. The
machine accepts exactly the sequences of values. Brackets balance, so an array's
tokens cut short are no value's.
-/

set_option autoImplicit false

namespace Library.JsonTokens

/-- The characters of `true`, `false`, `null` and of numbers, and those that
cannot follow one of these directly. -/
def wordChar (c : Char) : Bool := c.isAlphanum || c == '+' || c == '-' || c == '.'

def digits (cs : List Char) : Bool := !cs.isEmpty && cs.all Char.isDigit

def exponent : List Char → Bool
  | [] => true
  | e :: '+' :: cs => (e == 'e' || e == 'E') && digits cs
  | e :: '-' :: cs => (e == 'e' || e == 'E') && digits cs
  | e::cs => (e == 'e' || e == 'E') && digits cs

def fraction : List Char → Bool
  | '.'::cs => digits (cs.takeWhile Char.isDigit) && exponent (cs.dropWhile Char.isDigit)
  | cs => exponent cs

def unsigned : List Char → Bool
  | [] => false
  | '0'::cs => fraction cs
  | c::cs => c.isDigit && fraction (cs.dropWhile Char.isDigit)

def isNumber : List Char → Bool
  | '-'::cs => unsigned cs
  | cs => unsigned cs

structure Number where
  lexeme : List Char
  word : lexeme.all wordChar = true
  valid : isNumber lexeme = true
  deriving DecidableEq

/-- A string is `none` when its escapes are those of no text: a half of a
surrogate pair. Names of fields are texts. -/
inductive Json where
  | null
  | bool (b : Bool)
  | num (n : Number)
  | str (s : Option String)
  | arr (items : List Json)
  | obj (fields : List (String × Json))

inductive Token where
  | null
  | bool (b : Bool)
  | num (n : Number)
  | str (s : Option String)
  | openArr
  | closeArr
  | openObj
  | closeObj
  | comma
  | colon
  deriving DecidableEq

mutual

def tokens : Json → List Token
  | .null => [.null]
  | .bool b => [.bool b]
  | .num n => [.num n]
  | .str s => [.str s]
  | .arr [] => [.openArr, .closeArr]
  | .arr (v::vs) => .openArr :: (tokens v ++ (itemTokens vs ++ [.closeArr]))
  | .obj [] => [.openObj, .closeObj]
  | .obj ((k, v)::fs) =>
    .openObj :: .str (some k) :: .colon :: (tokens v ++ (fieldTokens fs ++ [.closeObj]))

def itemTokens : List Json → List Token
  | [] => []
  | v::vs => .comma :: (tokens v ++ itemTokens vs)

def fieldTokens : List (String × Json) → List Token
  | [] => []
  | (k, v)::fs => .comma :: .str (some k) :: .colon :: (tokens v ++ fieldTokens fs)

end

/-- An open array with its items so far, or an open object with its fields so
far and the name of the next one. -/
inductive Frame where
  | items (done : List Json)
  | fields (done : List (String × Json)) (key : String)

inductive Phase where
  | value
  | firstItem
  | firstKey
  | key (done : List (String × Json))
  | colon (done : List (String × Json)) (key : String)
  | after (v : Json)

structure State where
  phase : Phase
  stack : List Frame

def beginValue (st : List Frame) : Token → Option State
  | .null => some ⟨.after .null, st⟩
  | .bool b => some ⟨.after (.bool b), st⟩
  | .num n => some ⟨.after (.num n), st⟩
  | .str s => some ⟨.after (.str s), st⟩
  | .openArr => some ⟨.firstItem, st⟩
  | .openObj => some ⟨.firstKey, st⟩
  | _ => none

def endValue (v : Json) : List Frame → Token → Option State
  | .items done::st, .comma => some ⟨.value, .items (done++[v])::st⟩
  | .items done::st, .closeArr => some ⟨.after (.arr (done++[v])), st⟩
  | .fields done k::st, .comma => some ⟨.key (done++[(k, v)]), st⟩
  | .fields done k::st, .closeObj => some ⟨.after (.obj (done++[(k, v)])), st⟩
  | _, _ => none

def step (s : State) (t : Token) : Option State :=
  match s.phase, t with
  | .value, t => beginValue s.stack t
  | .firstItem, .closeArr => some ⟨.after (.arr []), s.stack⟩
  | .firstItem, t => beginValue (.items []::s.stack) t
  | .firstKey, .closeObj => some ⟨.after (.obj []), s.stack⟩
  | .firstKey, .str (some k) => some ⟨.colon [] k, s.stack⟩
  | .key done, .str (some k) => some ⟨.colon done k, s.stack⟩
  | .colon done k, .colon => some ⟨.value, .fields done k::s.stack⟩
  | .after v, t => endValue v s.stack t
  | _, _ => none

def accept : State → Option Json
  | ⟨.after v, []⟩ => some v
  | _ => none

def run (s : State) : List Token → Option Json
  | [] => accept s
  | t::ts => (step s t).bind (fun s' => run s' ts)

def parse (ts : List Token) : Option Json := run ⟨.value, []⟩ ts

theorem tokens_begin (v : Json) : ∃ t ts, tokens v = t::ts ∧ t ≠ .closeArr := by
  match v with
  | .null | .bool _ | .num _ | .str _ | .arr [] | .arr (_::_) | .obj [] | .obj (_::_) =>
    exact ⟨_, _, rfl, by simp⟩

theorem run_firstItem (st : List Frame) (v : Json) (rest : List Token) :
    run ⟨.firstItem, st⟩ (tokens v ++ rest) = run ⟨.value, .items []::st⟩ (tokens v ++ rest) := by
  obtain ⟨t, ts, heq, hne⟩ := tokens_begin v
  rw [heq, List.cons_append, run, run]
  cases t with
  | closeArr => exact absurd rfl hne
  | _ => rfl

mutual

theorem run_tokens (st : List Frame) (rest : List Token) :
    (v : Json) → run ⟨.value, st⟩ (tokens v ++ rest) = run ⟨.after v, st⟩ rest
  | .null => rfl
  | .bool _ => rfl
  | .num _ => rfl
  | .str _ => rfl
  | .arr [] => rfl
  | .arr (v::vs) => by
    rw [tokens, List.cons_append, List.append_assoc, List.append_assoc]
    show run ⟨.firstItem, st⟩ _ = _
    rw [run_firstItem, run_tokens _ _ v]
    exact run_items st [] v rest vs
  | .obj [] => rfl
  | .obj ((k, v)::fs) => by
    rw [tokens, List.cons_append, List.cons_append, List.cons_append, List.append_assoc,
      List.append_assoc]
    show run ⟨.value, .fields [] k::st⟩ _ = _
    rw [run_tokens _ _ v]
    exact run_fields st [] k v rest fs

theorem run_items (st : List Frame) (done : List Json) (v : Json) (rest : List Token) :
    (vs : List Json) → run ⟨.after v, .items done::st⟩ (itemTokens vs ++ ([.closeArr] ++ rest)) =
      run ⟨.after (.arr (done++v::vs)), st⟩ rest
  | [] => rfl
  | w::vs => by
    rw [itemTokens, List.cons_append, List.append_assoc]
    show run ⟨.value, .items (done++[v])::st⟩ _ = _
    rw [run_tokens _ _ w, run_items st (done++[v]) w rest vs, List.append_assoc]
    rfl

theorem run_fields (st : List Frame) (done : List (String × Json)) (k : String) (v : Json)
    (rest : List Token) :
    (fs : List (String × Json)) →
      run ⟨.after v, .fields done k::st⟩ (fieldTokens fs ++ ([.closeObj] ++ rest)) =
        run ⟨.after (.obj (done++(k, v)::fs)), st⟩ rest
  | [] => rfl
  | (k', w)::fs => by
    rw [fieldTokens, List.cons_append, List.cons_append, List.cons_append, List.append_assoc]
    show run ⟨.value, .fields (done++[(k, v)]) k'::st⟩ _ = _
    rw [run_tokens _ _ w, run_fields st (done++[(k, v)]) k' w rest fs, List.append_assoc]
    rfl

end

def itemsBefore (done : List Json) : List Token := done.flatMap (fun v => tokens v ++ [.comma])

def fieldsBefore (done : List (String × Json)) : List Token :=
  done.flatMap (fun f => .str (some f.1) :: .colon :: (tokens f.2 ++ [.comma]))

def Frame.tokens : Frame → List Token
  | .items done => .openArr :: itemsBefore done
  | .fields done k => .openObj :: (fieldsBefore done ++ [.str (some k), .colon])

def stackTokens : List Frame → List Token
  | [] => []
  | f::st => stackTokens st ++ f.tokens

def State.tokens (s : State) : List Token :=
  stackTokens s.stack ++
    match s.phase with
    | .value => []
    | .firstItem => [.openArr]
    | .firstKey => [.openObj]
    | .key done => .openObj :: fieldsBefore done
    | .colon done k => .openObj :: (fieldsBefore done ++ [.str (some k)])
    | .after v => JsonTokens.tokens v

theorem tokens_arr (done : List Json) (v : Json) :
    tokens (.arr (done++[v])) = .openArr :: (itemsBefore done ++ tokens v ++ [.closeArr]) := by
  have hshift (w : Json) (vs : List Json) :
      tokens w ++ itemTokens (vs++[v]) = itemsBefore (w::vs) ++ tokens v := by
    induction vs generalizing w with
    | nil => simp [itemTokens, itemsBefore]
    | cons x vs ih =>
      rw [List.cons_append, itemTokens, ih x]
      simp [itemsBefore]
  cases done with
  | nil => simp [tokens, itemTokens, itemsBefore]
  | cons w vs => rw [List.cons_append, tokens, ← List.append_assoc, hshift]

theorem tokens_obj (done : List (String × Json)) (k : String) (v : Json) :
    tokens (.obj (done++[(k, v)])) =
      .openObj :: (fieldsBefore done ++ .str (some k) :: .colon :: tokens v ++ [.closeObj]) := by
  have hshift (f : String × Json) (fs : List (String × Json)) :
      .str (some f.1) :: .colon :: (tokens f.2 ++ fieldTokens (fs++[(k, v)])) =
        fieldsBefore (f::fs) ++ .str (some k) :: .colon :: tokens v := by
    induction fs generalizing f with
    | nil => simp [fieldTokens, fieldsBefore]
    | cons g fs ih =>
      rw [List.cons_append, fieldTokens, ih g]
      simp [fieldsBefore]
  cases done with
  | nil => simp [tokens, fieldTokens, fieldsBefore]
  | cons f fs =>
    rw [List.cons_append, tokens, ← hshift]
    simp

theorem itemsBefore_append (done : List Json) (v : Json) :
    itemsBefore (done++[v]) = itemsBefore done ++ (tokens v ++ [.comma]) := by
  simp [itemsBefore]

theorem fieldsBefore_append (done : List (String × Json)) (k : String) (v : Json) :
    fieldsBefore (done++[(k, v)]) =
      fieldsBefore done ++ .str (some k) :: .colon :: (tokens v ++ [.comma]) := by
  simp [fieldsBefore]

theorem beginValue_tokens (st : List Frame) (t : Token) (s' : State)
    (h : beginValue st t = some s') : s'.tokens = stackTokens st ++ [t] := by
  cases t <;> simp only [beginValue, Option.some.injEq, reduceCtorEq] at h <;> subst h <;> rfl

theorem endValue_tokens (v : Json) (st : List Frame) (t : Token) (s' : State)
    (h : endValue v st t = some s') : s'.tokens = stackTokens st ++ tokens v ++ [t] := by
  match st, t with
  | .items done::st, .comma =>
    obtain rfl := Option.some.inj h
    simp [State.tokens, stackTokens, Frame.tokens, itemsBefore_append]
  | .items done::st, .closeArr =>
    obtain rfl := Option.some.inj h
    simp [State.tokens, stackTokens, Frame.tokens, tokens_arr]
  | .fields done k::st, .comma =>
    obtain rfl := Option.some.inj h
    simp [State.tokens, stackTokens, Frame.tokens, fieldsBefore_append]
  | .fields done k::st, .closeObj =>
    obtain rfl := Option.some.inj h
    simp [State.tokens, stackTokens, Frame.tokens, tokens_obj]

theorem step_tokens (s s' : State) (t : Token) (h : step s t = some s') :
    s'.tokens = s.tokens ++ [t] := by
  obtain ⟨phase, st⟩ := s
  match phase, t with
  | .value, t =>
    rw [beginValue_tokens st t s' h]
    simp [State.tokens]
  | .firstItem, t =>
    by_cases ht : t = .closeArr
    · subst ht
      obtain rfl := Option.some.inj h
      simp [State.tokens, tokens]
    · have hbegin : beginValue (.items []::st) t = some s' := by
        cases t with
        | closeArr => exact absurd rfl ht
        | _ => exact h
      rw [beginValue_tokens _ t s' hbegin]
      simp [State.tokens, stackTokens, Frame.tokens, itemsBefore]
  | .firstKey, .closeObj =>
    obtain rfl := Option.some.inj h
    simp [State.tokens, tokens]
  | .firstKey, .str (some k) =>
    obtain rfl := Option.some.inj h
    simp [State.tokens, fieldsBefore]
  | .key done, .str (some k) =>
    obtain rfl := Option.some.inj h
    simp [State.tokens]
  | .colon done k, .colon =>
    obtain rfl := Option.some.inj h
    simp [State.tokens, stackTokens, Frame.tokens]
  | .after v, t => exact endValue_tokens v st t s' h

theorem run_sound (s : State) (ts : List Token) (v : Json) (h : run s ts = some v) :
    s.tokens ++ ts = tokens v := by
  induction ts generalizing s with
  | nil =>
    match s, h with
    | ⟨.after w, []⟩, h =>
      obtain rfl := Option.some.inj h
      simp [State.tokens, stackTokens]
  | cons t ts ih =>
    obtain ⟨s', hstep, hrest⟩ := Option.bind_eq_some_iff.mp h
    rw [← ih s' hrest, step_tokens s s' t hstep]
    simp

theorem parse_eq_some_iff (ts : List Token) (v : Json) : parse ts = some v ↔ ts = tokens v := by
  constructor
  · intro h
    exact run_sound _ ts v h
  · rintro rfl
    have hrun := run_tokens [] [] v
    rw [List.append_nil] at hrun
    exact hrun

def Token.weight : Token → ℤ
  | .openArr => 1
  | .openObj => 1
  | .closeArr => -1
  | .closeObj => -1
  | _ => 0

def depth : List Token → ℤ
  | [] => 0
  | t::ts => t.weight + depth ts

@[simp]
theorem depth_nil : depth [] = 0 := rfl

@[simp]
theorem depth_cons (t : Token) (ts : List Token) : depth (t::ts) = t.weight + depth ts := rfl

@[simp]
theorem depth_append (ts us : List Token) : depth (ts++us) = depth ts + depth us := by
  induction ts with
  | nil => simp
  | cons t ts ih =>
    rw [List.cons_append, depth_cons, depth_cons, ih]
    omega

structure Balanced (ts : List Token) : Prop where
  total : depth ts = 0
  lead : ∀ us vs, ts = us ++ vs → 0 ≤ depth us

theorem balanced_nil : Balanced [] := by
  refine ⟨rfl, fun us vs h => ?_⟩
  obtain ⟨rfl, -⟩ := List.append_eq_nil_iff.mp h.symm
  exact Int.le_of_eq depth_nil.symm

theorem balanced_append (ts us : List Token) (h : Balanced ts) (h' : Balanced us) :
    Balanced (ts++us) := by
  refine ⟨by rw [depth_append, h.total, h'.total]; rfl, fun lead rest heq => ?_⟩
  rcases List.append_eq_append_iff.mp heq with ⟨a, rfl, ha⟩ | ⟨a, ha, -⟩
  · rw [depth_append, h.total]
    have := h'.lead a rest ha
    omega
  · exact h.lead lead a ha

theorem balanced_flat (t : Token) (h : t.weight = 0) : Balanced [t] := by
  refine ⟨by simp [h], fun us vs heq => ?_⟩
  cases us with
  | nil => exact Int.le_of_eq depth_nil.symm
  | cons u us =>
    obtain ⟨rfl, hrest⟩ := List.cons.inj heq
    obtain ⟨rfl, -⟩ := List.append_eq_nil_iff.mp hrest.symm
    simp [h]

theorem inside (o c : Token) (ts us vs : List Token) (ho : o.weight = 1) (h : Balanced ts)
    (heq : o::(ts++[c]) = us++vs) (hus : us ≠ []) (hvs : vs ≠ []) : 1 ≤ depth us := by
  cases us with
  | nil => exact absurd rfl hus
  | cons u us =>
    obtain ⟨rfl, hrest⟩ := List.cons.inj heq
    rw [depth_cons, ho]
    have hlead : ∃ more, ts = us ++ more := by
      rcases List.append_eq_append_iff.mp hrest with ⟨a, ha, hb⟩ | ⟨a, ha, -⟩
      · cases a with
        | nil => exact ⟨[], by simpa using ha.symm⟩
        | cons x a =>
          obtain ⟨-, hnil⟩ := List.cons.inj hb
          obtain ⟨-, rfl⟩ := List.append_eq_nil_iff.mp hnil.symm
          exact absurd rfl hvs
      · exact ⟨a, ha⟩
    obtain ⟨more, hmore⟩ := hlead
    have := h.lead us more hmore
    omega

theorem balanced_wrap (o c : Token) (ts : List Token) (ho : o.weight = 1) (hc : c.weight = -1)
    (h : Balanced ts) : Balanced (o::(ts++[c])) := by
  have htotal : depth (o::(ts++[c])) = 0 := by simp [ho, hc, h.total]
  refine ⟨htotal, fun us vs heq => ?_⟩
  by_cases hus : us = []
  · rw [hus]
    exact Int.le_of_eq depth_nil.symm
  · by_cases hvs : vs = []
    · rw [hvs, List.append_nil] at heq
      exact Int.le_of_eq (heq ▸ htotal).symm
    · have := inside o c ts us vs ho h heq hus hvs
      omega

theorem balanced_name (k : String) : Balanced [.str (some k), .colon] :=
  balanced_append _ _ (balanced_flat (.str (some k)) rfl) (balanced_flat .colon rfl)

mutual

theorem balanced_tokens : (v : Json) → Balanced (tokens v)
  | .null => balanced_flat _ rfl
  | .bool _ => balanced_flat _ rfl
  | .num _ => balanced_flat _ rfl
  | .str _ => balanced_flat _ rfl
  | .arr [] => balanced_wrap _ _ [] rfl rfl balanced_nil
  | .arr (v::vs) => by
    have hinner := balanced_append _ _ (balanced_tokens v) (balanced_items vs)
    simpa [tokens] using balanced_wrap .openArr .closeArr _ rfl rfl hinner
  | .obj [] => balanced_wrap _ _ [] rfl rfl balanced_nil
  | .obj ((k, v)::fs) => by
    have hinner := balanced_append _ _ (balanced_name k)
      (balanced_append _ _ (balanced_tokens v) (balanced_fields fs))
    simpa [tokens] using balanced_wrap .openObj .closeObj _ rfl rfl hinner

theorem balanced_items : (vs : List Json) → Balanced (itemTokens vs)
  | [] => balanced_nil
  | v::vs => balanced_append [.comma] _ (balanced_flat _ rfl)
      (balanced_append _ _ (balanced_tokens v) (balanced_items vs))

theorem balanced_fields : (fs : List (String × Json)) → Balanced (fieldTokens fs)
  | [] => balanced_nil
  | (k, v)::fs => by
    have hname : Balanced [.comma, .str (some k), .colon] :=
      balanced_append _ _ (balanced_flat .comma rfl) (balanced_name k)
    exact balanced_append _ _ hname
      (balanced_append _ _ (balanced_tokens v) (balanced_fields fs))

end

theorem arr_open (vs : List Json) (us rest : List Token) (heq : tokens (.arr vs) = us++rest)
    (hus : us ≠ []) (hrest : rest ≠ []) : 1 ≤ depth us := by
  cases vs with
  | nil => exact inside .openArr .closeArr [] us rest rfl balanced_nil heq hus hrest
  | cons v vs =>
    have hinner := balanced_append _ _ (balanced_tokens v) (balanced_items vs)
    refine inside .openArr .closeArr _ us rest rfl hinner ?_ hus hrest
    rw [← heq, tokens, List.append_assoc]

theorem obj_open (fs : List (String × Json)) (us rest : List Token)
    (heq : tokens (.obj fs) = us++rest) (hus : us ≠ []) (hrest : rest ≠ []) : 1 ≤ depth us := by
  cases fs with
  | nil => exact inside .openObj .closeObj [] us rest rfl balanced_nil heq hus hrest
  | cons f fs =>
    have hinner := balanced_append _ _ (balanced_name f.1)
      (balanced_append _ _ (balanced_tokens f.2) (balanced_fields fs))
    refine inside .openObj .closeObj _ us rest rfl hinner ?_ hus hrest
    rw [← heq, tokens]
    simp

end Library.JsonTokens
