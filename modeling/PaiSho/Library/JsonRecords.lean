import PaiSho.Library.JsonText

/-!
# Records and variants in JSON

How derived code writes a record (an object of its fields) and a variant (its bare
name, or an object of its name and its payload), and what it accepts for one: the
fields in any order or an array of them, unknown fields ignored, a field given
twice refused, and a missing one taken as its default where it has one.
-/

set_option autoImplicit false

namespace Library.JsonRecords
open JsonTokens

theorem digit_word (c : Char) (h : c.isDigit = true) : wordChar c = true := by
  simp [wordChar, Char.isAlphanum, h]

def Plain (cs : List Char) : Prop :=
  cs = ['0'] ∨ ∃ c cs', cs = c::cs' ∧ c ≠ '0' ∧ ∀ d ∈ c::cs', d.isDigit = true

theorem digitChar_digit (n : ℕ) (h : n < 10) : (Nat.digitChar n).isDigit = true := by
  interval_cases n <;> rfl

theorem digitChar_ne_zero (n : ℕ) (h : n < 10) (hpos : 0 < n) : Nat.digitChar n ≠ '0' := by
  interval_cases n <;> exact Char.ne_of_val_ne (by decide)

theorem plain_toDigits (n : ℕ) : Plain (Nat.toDigits 10 n) := by
  induction n using Nat.strong_induction_on with
  | _ n ih =>
    by_cases hn : n < 10
    · rw [Nat.toDigits_of_lt_base hn]
      rcases Nat.eq_zero_or_pos n with rfl | hpos
      · exact Or.inl rfl
      · refine Or.inr ⟨_, [], rfl, digitChar_ne_zero n hn hpos, fun d hd => ?_⟩
        rw [List.mem_singleton.mp hd]
        exact digitChar_digit n hn
    · rw [Nat.toDigits_of_base_le (by omega) (by omega)]
      have hlast := digitChar_digit (n % 10) (Nat.mod_lt n (by omega))
      rcases ih (n/10) (by omega) with hzero | ⟨c, cs, heq, hne, hdigits⟩
      · have hvalue := congrArg (fun ds => Nat.ofDigitChars 10 ds 0) hzero
        simp only [Nat.ofDigitChars_ten_toDigits] at hvalue
        have : n/10 = 0 := hvalue
        omega
      · refine Or.inr ⟨c, cs ++ [_], by rw [heq]; rfl, hne, fun d hd => ?_⟩
        rcases List.mem_cons.mp hd with rfl | hd
        · exact hdigits d (by simp)
        · rcases List.mem_append.mp hd with hd | hd
          · exact hdigits d (List.mem_cons_of_mem c hd)
          · rw [List.mem_singleton.mp hd]
            exact hlast

theorem plain_digits (cs : List Char) (h : Plain cs) : cs.all Char.isDigit = true := by
  rcases h with rfl | ⟨c, cs, rfl, -, hdigits⟩
  · rfl
  · exact List.all_eq_true.mpr hdigits

theorem plain_number (cs : List Char) (h : Plain cs) : isNumber cs = true := by
  rcases h with rfl | ⟨c, cs, rfl, hne, hdigits⟩
  · rfl
  · have hc := hdigits c (by simp)
    have hminus : c ≠ '-' := by
      rintro rfl
      exact absurd hc (by decide)
    have hrest : cs.dropWhile Char.isDigit = [] :=
      List.dropWhile_eq_nil_iff.mpr fun d hd => hdigits d (List.mem_cons_of_mem c hd)
    rw [isNumber]
    · rw [unsigned]
      · rw [hc, hrest]
        rfl
      · exact fun h => hne h
    · exact fun cs' h => hminus (List.cons.inj h).1

def ofNat (n : ℕ) : Number where
  lexeme := Nat.toDigits 10 n
  word := by
    have hdigits := plain_digits _ (plain_toDigits n)
    rw [List.all_eq_true] at hdigits ⊢
    exact fun c hc => digit_word c (hdigits c hc)
  valid := plain_number _ (plain_toDigits n)

def natValue (x : Number) : Option ℕ :=
  if x.lexeme.all Char.isDigit then some (Nat.ofDigitChars 10 x.lexeme 0) else none

theorem natValue_ofNat (n : ℕ) : natValue (ofNat n) = some n := by
  rw [natValue, ofNat, if_pos (plain_digits _ (plain_toDigits n)), Nat.ofDigitChars_ten_toDigits]

def readString : Json → Option String
  | .str s => s
  | _ => none

def readBool : Json → Option Bool
  | .bool b => some b
  | _ => none

def readFin (bound : ℕ) : Json → Option (Fin bound)
  | .num x => (natValue x).bind (fun n => if h : n < bound then some ⟨n, h⟩ else none)
  | _ => none

section
variable {α : Type}

def readOption (read : Json → Option α) : Json → Option (Option α)
  | .null => some none
  | v => (read v).map some

def readAll (read : Json → Option α) : List Json → Option (List α)
  | [] => some []
  | v::vs => (read v).bind (fun a => (readAll read vs).map (a :: ·))

def readList (read : Json → Option α) : Json → Option (List α)
  | .arr vs => readAll read vs
  | _ => none

end

def fin {bound : ℕ} (n : Fin bound) : Json := .num (ofNat n)

def string (s : String) : Json := .str (some s)

def optionOf {α : Type} (write : α → Json) : Option α → Json
  | none => .null
  | some a => write a

def listOf {α : Type} (write : α → Json) (as : List α) : Json := .arr (as.map write)

@[simp]
theorem readString_string (s : String) : readString (string s) = some s := rfl

@[simp]
theorem readFin_fin (bound : ℕ) (n : Fin bound) : readFin bound (fin n) = some n := by
  rw [fin, readFin, natValue_ofNat, Option.bind_some, dif_pos n.isLt]

section
variable {α : Type} (read : Json → Option α) (write : α → Json)

theorem readOption_optionOf (h : ∀ a, read (write a) = some a) (hnull : ∀ a, write a ≠ .null)
    (o : Option α) : readOption read (optionOf write o) = some o := by
  cases o with
  | none => rfl
  | some a =>
    rw [optionOf, readOption, h a]
    · rfl
    · exact hnull a

theorem readAll_map (as : List α) (h : ∀ a ∈ as, read (write a) = some a) :
    readAll read (as.map write) = some as := by
  induction as with
  | nil => rfl
  | cons a as ih =>
    rw [List.map_cons, readAll, h a (by simp), ih fun b hb => h b (List.mem_cons_of_mem a hb)]
    rfl

theorem readList_listOf (h : ∀ a, read (write a) = some a) (as : List α) :
    readList read (listOf write as) = some as :=
  readAll_map read write as fun a _ => h a

end

@[simp]
theorem readOption_string (o : Option String) :
    readOption readString (optionOf string o) = some o :=
  readOption_optionOf readString string readString_string (by simp [string]) o

structure Fields where
  ordered : Bool
  slots : List (Option Json)

def slotOf (fs : List (String × Json)) (name : String) : Option (Option Json) :=
  match fs.filter (fun f => f.1 = name) with
  | [] => some none
  | [f] => some (some f.2)
  | _ => none

def slotsOf (fs : List (String × Json)) : List String → Option (List (Option Json))
  | [] => some []
  | name::names => (slotOf fs name).bind (fun slot => (slotsOf fs names).map (slot :: ·))

def readFields (names : List String) : Json → Option Fields
  | .obj fs => (slotsOf fs names).map (⟨false, ·⟩)
  | .arr vs =>
    if vs.length ≤ names.length then
      some ⟨true, vs.map some ++ List.replicate (names.length - vs.length) none⟩
    else none
  | _ => none

section
variable {α : Type}

def requiredField (read : Json → Option α) (slot : Option Json) : Option α := slot.bind read

def optionalField (ordered : Bool) (read : Json → Option α) : Option Json → Option (Option α)
  | some v => readOption read v
  | none => if ordered then none else some none

def defaultedField (a : α) (read : Json → Option α) : Option Json → Option α
  | some v => read v
  | none => some a

end

theorem filter_other (fs : List (String × Json)) (name : String) (h : name ∉ fs.map Prod.fst) :
    fs.filter (fun f => f.1 = name) = [] := by
  rw [List.filter_eq_nil_iff]
  intro f hf
  have hne : f.1 ≠ name := fun heq => h (heq ▸ List.mem_map_of_mem hf)
  simp [hne]

theorem slotOf_mem (fs : List (String × Json)) (f : String × Json)
    (hnodup : (fs.map Prod.fst).Nodup) (hf : f ∈ fs) : slotOf fs f.1 = some (some f.2) := by
  have hfilter : fs.filter (fun g => g.1 = f.1) = [f] := by
    induction fs with
    | nil => cases hf
    | cons g fs ih =>
      obtain ⟨hg, hrest⟩ := List.nodup_cons.mp hnodup
      rcases List.mem_cons.mp hf with rfl | hf
      · rw [List.filter_cons_of_pos (by simp), filter_other fs f.1 hg]
      · have hne : g.1 ≠ f.1 := fun heq => hg (heq ▸ List.mem_map_of_mem hf)
        rw [List.filter_cons_of_neg (by simp [hne]), ih hrest hf]
  rw [slotOf, hfilter]

theorem readFields_written (names : List String) (fs : List (String × Json))
    (hnames : fs.map Prod.fst = names) (hnodup : names.Nodup) :
    readFields names (.obj fs) = some ⟨false, fs.map (fun f => some f.2)⟩ := by
  subst hnames
  have hslots (gs : List (String × Json)) (hgs : ∀ g ∈ gs, g ∈ fs) :
      slotsOf fs (gs.map Prod.fst) = some (gs.map (fun f => some f.2)) := by
    induction gs with
    | nil => rfl
    | cons g gs ih =>
      rw [List.map_cons, slotsOf, slotOf_mem fs g hnodup (hgs g (by simp)),
        ih fun g' hg' => hgs g' (List.mem_cons_of_mem g hg')]
      rfl
  rw [readFields, hslots fs fun g hg => hg]
  rfl

/-- A variant is given by its name when it has no payload, else by an object of
its name and its payload; `null` stands for the payload that is not there. -/
def readVariant {α : Type} (bare : String → Option α) (payload : String → Json → Option α) :
    Json → Option α
  | .str (some tag) => bare tag
  | .obj [(tag, .null)] => (bare tag).or (payload tag .null)
  | .obj [(tag, v)] => payload tag v
  | _ => none

end Library.JsonRecords
