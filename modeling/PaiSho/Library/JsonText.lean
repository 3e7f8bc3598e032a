import PaiSho.Library.EncodedText
import PaiSho.Library.JsonTokens
import Mathlib.Tactic.IntervalCases

/-!
# JSON as text

The text of a value in a layout: compact, or with every item on a line of its own.
Reading takes one character at a time, between tokens, in a word or in a string.
A text printed in any layout of blanks is read back as the value it was printed
from; an array's text cut short is not read at all.
-/

set_option autoImplicit false

namespace Library.JsonText
open JsonTokens
open LossyText EncodedText

def hexDigit (n : ℕ) : Char := if n < 10 then Char.ofNat (48+n) else Char.ofNat (87+n)

/-- A quote, a backslash and the control characters are escaped; everything else
is written as it is. -/
def escapeChar (c : Char) : List Char :=
  if c = '"' then ['\\', '"']
  else if c = '\\' then ['\\', '\\']
  else if c = '\n' then ['\\', 'n']
  else if c = '\r' then ['\\', 'r']
  else if c = '\t' then ['\\', 't']
  else if c.toNat = 8 then ['\\', 'b']
  else if c.toNat = 12 then ['\\', 'f']
  else if c.toNat < 32 then
    ['\\', 'u', '0', '0', hexDigit (c.toNat / 16), hexDigit (c.toNat % 16)]
  else [c]

def escape (text : List Char) : List Char := text.flatMap escapeChar

def hexValue (c : Char) : Option ℕ :=
  if c.isDigit then some (c.toNat - 48)
  else if 'a' ≤ c ∧ c ≤ 'f' then some (c.toNat - 87)
  else if 'A' ≤ c ∧ c ≤ 'F' then some (c.toNat - 55)
  else none

def hexValues (a b c d : Char) : Option ℕ := do
  let a ← hexValue a
  let b ← hexValue b
  let c ← hexValue c
  let d ← hexValue d
  some (4096 * a + 256 * b + 16 * c + d)

inductive Piece where
  | char (c : Char)
  | half (n : ℕ)

def piece (n : ℕ) : Piece := if 0xD800 ≤ n ∧ n < 0xE000 then .half n else .char (Char.ofNat n)

def plainEscape : Char → Option Char
  | '"' => some '"'
  | '\\' => some '\\'
  | '/' => some '/'
  | 'b' => some (Char.ofNat 8)
  | 'f' => some (Char.ofNat 12)
  | 'n' => some '\n'
  | 'r' => some '\r'
  | 't' => some '\t'
  | _ => none

def pieces : List Char → Option (List Piece)
  | [] => some []
  | '\\' :: 'u' :: a :: b :: c :: d :: rest =>
    (hexValues a b c d).bind (fun n => (pieces rest).map (piece n :: ·))
  | '\\' :: e :: rest => (plainEscape e).bind (fun c => (pieces rest).map (.char c :: ·))
  | ['\\'] => none
  | c::rest => (pieces rest).map (.char c :: ·)

def join : List Piece → Option (List Char)
  | [] => some []
  | .char c::ps => (join ps).map (c :: ·)
  | .half hi::.half lo::ps =>
    if hi < 0xDC00 ∧ 0xDC00 ≤ lo then
      (join ps).map (Char.ofNat (0x10000 + (hi - 0xD800) * 0x400 + (lo - 0xDC00)) :: ·)
    else none
  | .half _::_ => none

/-- Nothing for an escape there is not; `some none` for half a surrogate pair. -/
def unescape (raw : List Char) : Option (Option String) :=
  (pieces raw).map (fun ps => (join ps).map String.ofList)

def rawString : Option String → List Char
  | some s => escape s.toList
  | none => ['\\', 'u', 'd', '8', '0', '0']

def quoted (s : Option String) : List Char := '"' :: (rawString s ++ ['"'])

theorem pieces_plain (c : Char) (rest : List Char) (h : c ≠ '\\') :
    pieces (c::rest) = (pieces rest).map (.char c :: ·) := by
  rw [pieces]
  all_goals simp [h]

theorem char_of_control (c : Char) (h : c.toNat < 32) : ∃ n < 32, c = Char.ofNat n :=
  ⟨c.toNat, h, (Char.ofNat_toNat c).symm⟩

theorem pieces_escapeChar (c : Char) (rest : List Char) :
    pieces (escapeChar c ++ rest) = (pieces rest).map (.char c :: ·) := by
  by_cases hcontrol : c.toNat < 32
  · obtain ⟨n, hn, rfl⟩ := char_of_control c hcontrol
    interval_cases n <;> rfl
  · unfold escapeChar
    split_ifs with hq hb hn hr ht h8 h12
    · subst hq; rfl
    · subst hb; rfl
    · subst hn; rfl
    · subst hr; rfl
    · subst ht; rfl
    · omega
    · omega
    · exact pieces_plain c rest hb

theorem pieces_escape (text : List Char) : pieces (escape text) = some (text.map .char) := by
  induction text with
  | nil => rfl
  | cons c text ih =>
    rw [escape, List.flatMap_cons, pieces_escapeChar]
    rw [escape] at ih
    rw [ih]
    rfl

theorem join_chars (text : List Char) : join (text.map .char) = some text := by
  induction text with
  | nil => rfl
  | cons c text ih => rw [List.map_cons, join, ih]; rfl

theorem unescape_rawString (s : Option String) : unescape (rawString s) = some s := by
  cases s with
  | none => rfl
  | some s =>
    rw [rawString, unescape, pieces_escape, Option.map_some, join_chars, Option.map_some,
      String.ofList_toList]

inductive Mode where
  | between
  | word (seen : List Char)
  | string (seen : List Char) (escaped : Bool)

def blank (c : Char) : Bool := c == ' ' || c == '\n' || c == '\t' || c == '\r'

def wordToken (w : List Char) : Option Token :=
  if w = ['t', 'r', 'u', 'e'] then some (.bool true)
  else if w = ['f', 'a', 'l', 's', 'e'] then some (.bool false)
  else if w = ['n', 'u', 'l', 'l'] then some .null
  else if h : w.all wordChar = true ∧ isNumber w = true then some (.num ⟨w, h.1, h.2⟩)
  else none

def punctuation : Char → Option Token
  | '[' => some .openArr
  | ']' => some .closeArr
  | '\x7b' => some .openObj
  | '\x7d' => some .closeObj
  | ',' => some .comma
  | ':' => some .colon
  | _ => none

def start (c : Char) : Option (List Token × Mode) :=
  if blank c then some ([], .between)
  else if c = '"' then some ([], .string [] false)
  else if wordChar c then some ([], .word [c])
  else (punctuation c).map (fun t => ([t], .between))

def advance : Mode → Char → Option (List Token × Mode)
  | .between, c => start c
  | .word seen, c =>
    if wordChar c then some ([], .word (seen++[c]))
    else (wordToken seen).bind (fun t => (start c).map (fun r => (t::r.1, r.2)))
  | .string seen true, c => some ([], .string (seen++[c]) false)
  | .string seen false, c =>
    if c = '"' then (unescape seen).map (fun s => ([.str s], .between))
    else if c = '\\' then some ([], .string (seen++[c]) true)
    else if c.toNat < 32 then none
    else some ([], .string (seen++[c]) false)

def finish : Mode → Option (List Token)
  | .between => some []
  | .word seen => (wordToken seen).map ([·])
  | .string _ _ => none

def lexFrom (m : Mode) : List Char → Option (List Token)
  | [] => finish m
  | c::cs => (advance m c).bind (fun r => (lexFrom r.2 cs).map (r.1 ++ ·))

def read (text : List Char) : Option Json := (lexFrom .between text).bind parse

theorem read_eq_some_iff (text : List Char) (v : Json) :
    read text = some v ↔ lexFrom .between text = some (tokens v) := by
  rw [read, Option.bind_eq_some_iff]
  constructor
  · rintro ⟨ts, hlex, hparse⟩
    rw [hlex, (parse_eq_some_iff ts v).mp hparse]
  · intro h
    exact ⟨tokens v, h, (parse_eq_some_iff _ v).mpr rfl⟩

/-- What stands before an item or a field, by its depth, before a closing bracket
and after a colon. -/
structure Layout where
  lead : ℕ → List Char
  close : ℕ → List Char
  colon : List Char

structure Layout.Blank (l : Layout) : Prop where
  lead : ∀ n, ∀ c ∈ l.lead n, blank c = true
  close : ∀ n, ∀ c ∈ l.close n, blank c = true
  colon : ∀ c ∈ l.colon, blank c = true

def compact : Layout := ⟨fun _ => [], fun _ => [], []⟩

def newline (n : ℕ) : List Char := '\n' :: List.replicate (2*n) ' '

def pretty : Layout := ⟨newline, newline, [' ']⟩

def boolText (b : Bool) : List Char :=
  if b then ['t', 'r', 'u', 'e'] else ['f', 'a', 'l', 's', 'e']

mutual

def print (l : Layout) (n : ℕ) : Json → List Char
  | .null => ['n', 'u', 'l', 'l']
  | .bool b => boolText b
  | .num x => x.lexeme
  | .str s => quoted s
  | .arr [] => ['[', ']']
  | .arr (v::vs) =>
    '[' :: (l.lead (n+1) ++ (print l (n+1) v ++ (printItems l (n+1) vs ++ (l.close n ++ [']']))))
  | .obj [] => ['\x7b', '\x7d']
  | .obj ((k, v)::fs) =>
    '\x7b' :: (l.lead (n+1) ++ (quoted (some k) ++ ':' :: (l.colon ++ (print l (n+1) v ++
      (printFields l (n+1) fs ++ (l.close n ++ ['\x7d']))))))

def printItems (l : Layout) (n : ℕ) : List Json → List Char
  | [] => []
  | v::vs => ',' :: (l.lead n ++ (print l n v ++ printItems l n vs))

def printFields (l : Layout) (n : ℕ) : List (String × Json) → List Char
  | [] => []
  | (k, v)::fs => ',' :: (l.lead n ++ (quoted (some k) ++ ':' :: (l.colon ++ (print l n v ++
      printFields l n fs))))

end

def Stops (rest : List Char) : Prop := ∀ c cs, rest = c::cs → wordChar c = false

theorem lexFrom_blank (cs rest : List Char) (h : ∀ c ∈ cs, blank c = true) :
    lexFrom .between (cs++rest) = lexFrom .between rest := by
  induction cs with
  | nil => rfl
  | cons c cs ih =>
    have hc : start c = some ([], .between) := by
      rw [start, if_pos (h c (by simp))]
    rw [List.cons_append, lexFrom, advance, hc, Option.bind_some,
      ih fun c' hc' => h c' (List.mem_cons_of_mem c hc')]
    simp

theorem lexFrom_punctuation (c : Char) (t : Token) (rest : List Char)
    (hstart : start c = some ([t], .between)) :
    lexFrom .between (c::rest) = (lexFrom .between rest).map (t :: ·) := by
  rw [lexFrom, advance, hstart]
  rfl

theorem lexFrom_seen (seen w rest : List Char) (h : w.all wordChar = true) :
    lexFrom (.word seen) (w++rest) = lexFrom (.word (seen++w)) rest := by
  induction w generalizing seen with
  | nil => simp
  | cons c w ih =>
    obtain ⟨hc, hw⟩ : wordChar c = true ∧ w.all wordChar = true := by simpa using h
    rw [List.cons_append, lexFrom, advance, if_pos hc, Option.bind_some, ih (seen++[c]) hw]
    simp

theorem lexFrom_stop (seen rest : List Char) (t : Token) (ht : wordToken seen = some t)
    (hrest : Stops rest) :
    lexFrom (.word seen) rest = (lexFrom .between rest).map (t :: ·) := by
  cases rest with
  | nil => simp [lexFrom, finish, ht]
  | cons c cs =>
    have hc := hrest c cs rfl
    rw [lexFrom, advance, hc, ht, lexFrom, advance]
    cases start c with
    | none => simp
    | some r => simp [Function.comp_def]

theorem lexFrom_raw (seen rest : List Char) (c : Char) (hq : c ≠ '"') (hb : c ≠ '\\')
    (hc : ¬ c.toNat < 32) :
    lexFrom (.string seen false) (c::rest) = lexFrom (.string (seen++[c]) false) rest := by
  rw [lexFrom, advance, if_neg hq, if_neg hb, if_neg hc, Option.bind_some]
  simp

theorem lexFrom_escaped (seen rest : List Char) (c : Char) :
    lexFrom (.string seen false) ('\\' :: c :: rest) =
      lexFrom (.string (seen++['\\', c]) false) rest := by
  rw [lexFrom, advance, if_neg (by decide), if_pos rfl, Option.bind_some, lexFrom, advance,
    Option.bind_some]
  simp

theorem hexDigit_plain (n : ℕ) (h : n < 16) :
    hexDigit n ≠ '"' ∧ hexDigit n ≠ '\\' ∧ ¬ (hexDigit n).toNat < 32 := by
  interval_cases n <;> decide

theorem lexFrom_escapeChar (seen rest : List Char) (c : Char) :
    lexFrom (.string seen false) (escapeChar c ++ rest) =
      lexFrom (.string (seen ++ escapeChar c) false) rest := by
  unfold escapeChar
  split_ifs with hq hb hn hr ht h8 h12 h32
  · exact lexFrom_escaped seen rest _
  · exact lexFrom_escaped seen rest _
  · exact lexFrom_escaped seen rest _
  · exact lexFrom_escaped seen rest _
  · exact lexFrom_escaped seen rest _
  · exact lexFrom_escaped seen rest _
  · exact lexFrom_escaped seen rest _
  · obtain ⟨hq1, hb1, hc1⟩ := hexDigit_plain (c.toNat / 16) (by omega)
    obtain ⟨hq2, hb2, hc2⟩ := hexDigit_plain (c.toNat % 16) (by omega)
    simp only [List.cons_append, List.nil_append]
    rw [lexFrom_escaped, lexFrom_raw _ _ '0' (by decide) (by decide) (by decide),
      lexFrom_raw _ _ '0' (by decide) (by decide) (by decide), lexFrom_raw _ _ _ hq1 hb1 hc1,
      lexFrom_raw _ _ _ hq2 hb2 hc2]
    simp
  · exact lexFrom_raw seen rest c hq hb h32

theorem lexFrom_escape (seen rest text : List Char) :
    lexFrom (.string seen false) (escape text ++ rest) =
      lexFrom (.string (seen ++ escape text) false) rest := by
  induction text generalizing seen with
  | nil => simp [escape]
  | cons c text ih =>
    have hcons : escape (c::text) = escapeChar c ++ escape text := rfl
    rw [hcons, List.append_assoc, lexFrom_escapeChar, ih, List.append_assoc]

theorem lexFrom_quoted (s : Option String) (rest : List Char) :
    lexFrom .between (quoted s ++ rest) = (lexFrom .between rest).map (.str s :: ·) := by
  have hraw : lexFrom (.string [] false) (rawString s ++ '"' :: rest) =
      lexFrom (.string (rawString s) false) ('"' :: rest) := by
    cases s with
    | none =>
      show lexFrom (.string [] false) ('\\' :: 'u' :: 'd' :: '8' :: '0' :: '0' :: '"' :: rest) = _
      rw [lexFrom_escaped, lexFrom_raw _ _ 'd' (by decide) (by decide) (by decide),
        lexFrom_raw _ _ '8' (by decide) (by decide) (by decide),
        lexFrom_raw _ _ '0' (by decide) (by decide) (by decide),
        lexFrom_raw _ _ '0' (by decide) (by decide) (by decide)]
      rfl
    | some s => exact lexFrom_escape [] _ s.toList
  have hopen : lexFrom .between (quoted s ++ rest) =
      lexFrom (.string [] false) (rawString s ++ '"' :: rest) := by
    rw [quoted, List.cons_append, List.append_assoc, lexFrom]
    simp [advance, start, blank]
  rw [hopen, hraw, lexFrom, advance, if_pos rfl, unescape_rawString]
  rfl

theorem wordToken_lexeme (x : Number) : wordToken x.lexeme = some (.num x) := by
  unfold wordToken
  have hne (w : List Char) (hw : isNumber w = false) : x.lexeme ≠ w := by
    rintro rfl
    exact absurd x.valid (by simp [hw])
  rw [if_neg (hne _ rfl), if_neg (hne _ rfl), if_neg (hne _ rfl), dif_pos ⟨x.word, x.valid⟩]

theorem start_word (c : Char) (h : wordChar c = true) : start c = some ([], .word [c]) := by
  have hblank : blank c = false := by
    by_contra hb
    simp only [Bool.not_eq_false, blank, Bool.or_eq_true, beq_iff_eq] at hb
    rcases hb with ((rfl | rfl) | rfl) | rfl <;> exact absurd h (by decide)
  have hquote : c ≠ '"' := by
    rintro rfl
    exact absurd h (by decide)
  simp [start, hblank, hquote, h]

theorem lexFrom_word (w rest : List Char) (t : Token) (ht : wordToken w = some t)
    (hw : w.all wordChar = true) (hne : w ≠ []) (hrest : Stops rest) :
    lexFrom .between (w++rest) = (lexFrom .between rest).map (t :: ·) := by
  cases w with
  | nil => exact absurd rfl hne
  | cons c w =>
    obtain ⟨hc, hw'⟩ : wordChar c = true ∧ w.all wordChar = true := by simpa using hw
    rw [List.cons_append, lexFrom, advance, start_word c hc, Option.bind_some,
      lexFrom_seen [c] w rest hw', List.singleton_append, lexFrom_stop (c::w) rest t ht hrest]
    simp [Function.comp_def]

theorem stops_cons (c : Char) (cs : List Char) (h : wordChar c = false) : Stops (c::cs) := by
  intro c' cs' heq
  rw [← (List.cons.inj heq).1]
  exact h

theorem blank_not_word (c : Char) (h : blank c = true) : wordChar c = false := by
  simp only [blank, Bool.or_eq_true, beq_iff_eq] at h
  rcases h with ((rfl | rfl) | rfl) | rfl <;> decide

theorem stops_blank (cs rest : List Char) (h : ∀ c ∈ cs, blank c = true) (hrest : Stops rest) :
    Stops (cs++rest) := by
  cases cs with
  | nil => exact hrest
  | cons c cs => exact stops_cons c _ (blank_not_word c (h c (by simp)))

theorem stops_items (l : Layout) (n : ℕ) (vs : List Json) (rest : List Char)
    (hrest : Stops rest) : Stops (printItems l n vs ++ rest) := by
  cases vs with
  | nil => exact hrest
  | cons v vs =>
    rw [printItems, List.cons_append]
    exact stops_cons ',' _ (by decide)

theorem stops_fields (l : Layout) (n : ℕ) (fs : List (String × Json)) (rest : List Char)
    (hrest : Stops rest) : Stops (printFields l n fs ++ rest) := by
  cases fs with
  | nil => exact hrest
  | cons f fs =>
    rw [printFields, List.cons_append]
    exact stops_cons ',' _ (by decide)

def Reads (text : List Char) (ts : List Token) : Prop := lexFrom .between text = some ts

theorem reads_blank (cs rest : List Char) (ts : List Token) (hcs : ∀ c ∈ cs, blank c = true)
    (h : Reads rest ts) : Reads (cs++rest) ts :=
  (lexFrom_blank cs rest hcs).trans h

theorem reads_punctuation (c : Char) (t : Token) (rest : List Char) (ts : List Token)
    (hstart : start c = some ([t], .between)) (h : Reads rest ts) : Reads (c::rest) (t::ts) := by
  rw [Reads, lexFrom_punctuation c t rest hstart, h]
  rfl

theorem reads_quoted (s : Option String) (rest : List Char) (ts : List Token)
    (h : Reads rest ts) : Reads (quoted s ++ rest) (.str s :: ts) := by
  rw [Reads, lexFrom_quoted, h]
  rfl

theorem reads_word (w rest : List Char) (t : Token) (ts : List Token) (ht : wordToken w = some t)
    (hw : w.all wordChar = true) (hne : w ≠ []) (hrest : Stops rest) (h : Reads rest ts) :
    Reads (w++rest) (t::ts) := by
  rw [Reads, lexFrom_word w rest t ht hw hne hrest, h]
  rfl

theorem lexeme_ne_nil (x : Number) : x.lexeme ≠ [] := by
  intro h
  have hvalid := x.valid
  rw [h] at hvalid
  cases hvalid

mutual

theorem reads_print (l : Layout) (hl : l.Blank) (n : ℕ) (rest : List Char) (ts : List Token)
    (hrest : Stops rest) (h : Reads rest ts) : (v : Json) →
      Reads (print l n v ++ rest) (tokens v ++ ts)
  | .null => reads_word ['n', 'u', 'l', 'l'] rest .null ts rfl (by decide) (by decide) hrest h
  | .bool true =>
    reads_word (boolText true) rest (.bool true) ts rfl (by decide) (by decide) hrest h
  | .bool false =>
    reads_word (boolText false) rest (.bool false) ts rfl (by decide) (by decide) hrest h
  | .num x => reads_word _ rest _ ts (wordToken_lexeme x) x.word (lexeme_ne_nil x) hrest h
  | .str s => reads_quoted s rest ts h
  | .arr [] => reads_punctuation '[' _ _ _ rfl (reads_punctuation ']' _ _ _ rfl h)
  | .arr (v::vs) => by
    have hclose : Reads (']' :: rest) (.closeArr :: ts) := reads_punctuation ']' _ _ _ rfl h
    have hend : Reads (l.close n ++ ']' :: rest) (.closeArr :: ts) :=
      reads_blank _ _ _ (hl.close n) hclose
    have hstop : Stops (l.close n ++ ']' :: rest) :=
      stops_blank _ _ (hl.close n) (stops_cons ']' rest (by decide))
    have hitems := reads_items l hl (n+1) _ _ hstop hend vs
    have hfirst := reads_print l hl (n+1) _ _ (stops_items l (n+1) vs _ hstop) hitems v
    have hall := reads_punctuation '[' .openArr _ _ rfl
      (reads_blank _ _ _ (hl.lead (n+1)) hfirst)
    simpa [print, tokens] using hall
  | .obj [] => reads_punctuation '\x7b' _ _ _ rfl (reads_punctuation '\x7d' _ _ _ rfl h)
  | .obj ((k, v)::fs) => by
    have hclose : Reads ('\x7d' :: rest) (.closeObj :: ts) := reads_punctuation '\x7d' _ _ _ rfl h
    have hend : Reads (l.close n ++ '\x7d' :: rest) (.closeObj :: ts) :=
      reads_blank _ _ _ (hl.close n) hclose
    have hstop : Stops (l.close n ++ '\x7d' :: rest) :=
      stops_blank _ _ (hl.close n) (stops_cons '\x7d' rest (by decide))
    have hfields := reads_fields l hl (n+1) _ _ hstop hend fs
    have hfirst := reads_print l hl (n+1) _ _ (stops_fields l (n+1) fs _ hstop) hfields v
    have hname := reads_quoted (some k) _ _ (reads_punctuation ':' .colon _ _ rfl
      (reads_blank _ _ _ hl.colon hfirst))
    have hall := reads_punctuation '\x7b' .openObj _ _ rfl
      (reads_blank _ _ _ (hl.lead (n+1)) hname)
    simpa [print, tokens] using hall

theorem reads_items (l : Layout) (hl : l.Blank) (n : ℕ) (rest : List Char) (ts : List Token)
    (hrest : Stops rest) (h : Reads rest ts) : (vs : List Json) →
      Reads (printItems l n vs ++ rest) (itemTokens vs ++ ts)
  | [] => h
  | v::vs => by
    have hitems := reads_items l hl n rest ts hrest h vs
    have hfirst := reads_print l hl n _ _ (stops_items l n vs _ hrest) hitems v
    have hall := reads_punctuation ',' .comma _ _ rfl (reads_blank _ _ _ (hl.lead n) hfirst)
    simpa [printItems, itemTokens] using hall

theorem reads_fields (l : Layout) (hl : l.Blank) (n : ℕ) (rest : List Char) (ts : List Token)
    (hrest : Stops rest) (h : Reads rest ts) : (fs : List (String × Json)) →
      Reads (printFields l n fs ++ rest) (fieldTokens fs ++ ts)
  | [] => h
  | (k, v)::fs => by
    have hfields := reads_fields l hl n rest ts hrest h fs
    have hfirst := reads_print l hl n _ _ (stops_fields l n fs _ hrest) hfields v
    have hname := reads_quoted (some k) _ _ (reads_punctuation ':' .colon _ _ rfl
      (reads_blank _ _ _ hl.colon hfirst))
    have hall := reads_punctuation ',' .comma _ _ rfl (reads_blank _ _ _ (hl.lead n) hname)
    simpa [printFields, fieldTokens] using hall

end

theorem read_print (l : Layout) (hl : l.Blank) (n : ℕ) (v : Json) (trail : List Char)
    (htrail : ∀ c ∈ trail, blank c = true) : read (print l n v ++ trail) = some v := by
  have hstops : Stops trail := by
    have := stops_blank trail [] htrail (fun c cs h => by cases h)
    rwa [List.append_nil] at this
  have hend : Reads trail [] := by
    have := reads_blank trail [] [] htrail rfl
    rwa [List.append_nil] at this
  have hreads := reads_print l hl n trail [] hstops hend v
  rw [List.append_nil] at hreads
  exact (read_eq_some_iff _ v).mpr hreads

theorem compact_blank : compact.Blank := ⟨by simp [compact], by simp [compact], by simp [compact]⟩

theorem newline_blank (n : ℕ) : ∀ c ∈ newline n, blank c = true := by
  intro c hc
  rcases List.mem_cons.mp hc with rfl | hc
  · rfl
  · rw [List.eq_of_mem_replicate hc]
    rfl

theorem pretty_blank : pretty.Blank := ⟨newline_blank, newline_blank, by simp [pretty, blank]⟩

theorem wordToken_weight (w : List Char) (t : Token) (h : wordToken w = some t) :
    t.weight = 0 := by
  unfold wordToken at h
  split_ifs at h <;> obtain rfl := Option.some.inj h <;> rfl

theorem lexFrom_first (m : Mode) (text more : List Char) (ts us : List Token)
    (hall : lexFrom m (text++more) = some ts) (hfirst : lexFrom m text = some us) :
    ∃ lead rest m', ts = lead ++ rest ∧ lexFrom m' more = some rest ∧
      (us = lead ∨ ∃ t, us = lead ++ [t] ∧ t.weight = 0) := by
  induction text generalizing m ts us with
  | nil =>
    refine ⟨[], ts, m, rfl, hall, ?_⟩
    match m, hfirst with
    | .between, hfirst => exact Or.inl (Option.some.inj hfirst).symm
    | .word seen, hfirst =>
      obtain ⟨t, ht, rfl⟩ := Option.map_eq_some_iff.mp hfirst
      exact Or.inr ⟨t, rfl, wordToken_weight seen t ht⟩
  | cons c text ih =>
    obtain ⟨r, hadv, hrest⟩ := Option.bind_eq_some_iff.mp hall
    obtain ⟨ts', hts', rfl⟩ := Option.map_eq_some_iff.mp hrest
    obtain ⟨r', hadv', hrest'⟩ := Option.bind_eq_some_iff.mp hfirst
    obtain rfl := Option.some.inj (hadv.symm.trans hadv')
    obtain ⟨us', hus', rfl⟩ := Option.map_eq_some_iff.mp hrest'
    obtain ⟨lead, rest, m', rfl, hmore, hend⟩ := ih r.2 ts' us' hts' hus'
    refine ⟨r.1 ++ lead, rest, m', by simp, hmore, ?_⟩
    rcases hend with rfl | ⟨t, rfl, ht⟩
    · exact Or.inl rfl
    · exact Or.inr ⟨t, by simp, ht⟩

structure Bracket (c : Char) (t : Token) : Prop where
  start : start c = some ([t], .between)
  word : wordChar c = false
  quote : c ≠ '"'
  escape : c ≠ '\\'
  control : ¬ c.toNat < 32

theorem lexFrom_closed (c : Char) (t : Token) (hc : Bracket c t) (m : Mode) (text : List Char)
    (ts : List Token) (h : lexFrom m (text++[c]) = some ts) : ts ≠ [] := by
  induction text generalizing m ts with
  | nil =>
    match m with
    | .between =>
      rw [List.nil_append, lexFrom_punctuation c t [] hc.start] at h
      obtain ⟨ts', -, rfl⟩ := Option.map_eq_some_iff.mp h
      simp
    | .word seen =>
      rw [List.nil_append, lexFrom, advance, hc.word] at h
      obtain ⟨r, hadv, hrest⟩ := Option.bind_eq_some_iff.mp h
      obtain ⟨ts', -, rfl⟩ := Option.map_eq_some_iff.mp hrest
      obtain ⟨t', -, hr⟩ := Option.bind_eq_some_iff.mp hadv
      obtain ⟨r', -, rfl⟩ := Option.map_eq_some_iff.mp hr
      simp
    | .string seen true =>
      simp [lexFrom, advance, finish] at h
    | .string seen false =>
      rw [List.nil_append, lexFrom_raw seen [] c hc.quote hc.escape hc.control] at h
      cases h
  | cons c' text ih =>
    obtain ⟨r, -, hrest⟩ := Option.bind_eq_some_iff.mp h
    obtain ⟨ts', hts', rfl⟩ := Option.map_eq_some_iff.mp hrest
    have := ih r.2 ts' hts'
    simp [this]

theorem cut_ends (c : Char) (body text more : List Char) (heq : body++[c] = text++more)
    (hmore : more ≠ []) : ∃ more', more = more'++[c] := by
  rcases List.eq_nil_or_concat more with rfl | ⟨more', c', rfl⟩
  · exact absurd rfl hmore
  · rw [List.concat_eq_append, ← List.append_assoc] at heq
    have hlast : [c] = [c'] := List.append_inj_right' heq rfl
    exact ⟨more', by rw [hlast, List.concat_eq_append]⟩

theorem read_cut (v : Json) (o c : Char) (t t' : Token) (body text more : List Char)
    (ho : start o = some ([t], .between)) (hweight : t.weight = 1) (hc : Bracket c t')
    (hwhole : read (o::(body++[c])) = some v)
    (hopen : ∀ us rest, tokens v = us++rest → us ≠ [] → rest ≠ [] → 1 ≤ depth us)
    (heq : o::(body++[c]) = text++more) (hmore : more ≠ []) : read text = none := by
  by_contra hread
  obtain ⟨w, hw⟩ := Option.ne_none_iff_exists'.mp hread
  have hfirst := (read_eq_some_iff text w).mp hw
  have hall := (read_eq_some_iff _ v).mp hwhole
  rw [heq] at hall
  obtain ⟨lead, rest, m, hts, hrest, hus⟩ := lexFrom_first .between text more _ _ hall hfirst
  -- the last character closes the value, so a token is left for the second part
  have hleft : rest ≠ [] := by
    obtain ⟨more', rfl⟩ := cut_ends c (o::body) text more heq hmore
    exact lexFrom_closed c t' hc m more' rest hrest
  have hdepth : depth (tokens w) = depth lead := by
    rcases hus with hus | ⟨t, hus, ht⟩
    · rw [hus]
    · rw [hus, depth_append, depth_cons, ht]
      simp
  have hzero := (balanced_tokens w).total
  by_cases hlead : lead = []
  · -- nothing but a word was read, yet the text opens a bracket
    obtain ⟨t₁, ts, hbegin, -⟩ := tokens_begin w
    rcases hus with hus | ⟨t₂, hus, hflat⟩
    · rw [hlead, hbegin] at hus
      cases hus
    · cases text with
      | nil =>
        rw [hus] at hfirst
        simp [lexFrom, finish] at hfirst
      | cons c₁ text =>
        obtain ⟨rfl, -⟩ := List.cons.inj heq
        rw [hus, hlead, lexFrom_punctuation o t text ho] at hfirst
        obtain ⟨ts', -, hts'⟩ := Option.map_eq_some_iff.mp hfirst
        rw [(List.cons.inj hts').1, hflat] at hweight
        cases hweight
  · have := hopen lead rest hts hlead hleft
    omega

section
variable (l : Layout) (hl : l.Blank) (n : ℕ)
include hl

theorem read_arr_cut (vs : List Json) (text more : List Char)
    (heq : print l n (.arr vs) = text++more) (hmore : more ≠ []) : read text = none := by
  have hwhole := read_print l hl n (.arr vs) [] (by simp)
  rw [List.append_nil] at hwhole
  have hbody : ∃ body, print l n (.arr vs) = '[' :: (body ++ [']']) := by
    cases vs with
    | nil => exact ⟨[], rfl⟩
    | cons v vs =>
      refine ⟨l.lead (n+1) ++ (print l (n+1) v ++ (printItems l (n+1) vs ++ l.close n)), ?_⟩
      simp [print]
  obtain ⟨body, hbody⟩ := hbody
  rw [hbody] at hwhole heq
  exact read_cut _ '[' ']' .openArr .closeArr body text more rfl rfl
    ⟨rfl, rfl, by decide, by decide, by decide⟩ hwhole (arr_open vs) heq hmore

theorem read_obj_cut (fs : List (String × Json)) (text more : List Char)
    (heq : print l n (.obj fs) = text++more) (hmore : more ≠ []) : read text = none := by
  have hwhole := read_print l hl n (.obj fs) [] (by simp)
  rw [List.append_nil] at hwhole
  have hbody : ∃ body, print l n (.obj fs) = '\x7b' :: (body ++ ['\x7d']) := by
    cases fs with
    | nil => exact ⟨[], rfl⟩
    | cons f fs =>
      refine ⟨l.lead (n+1) ++ (quoted (some f.1) ++ ':' :: (l.colon ++ (print l (n+1) f.2 ++
        (printFields l (n+1) fs ++ l.close n)))), ?_⟩
      simp [print]
  obtain ⟨body, hbody⟩ := hbody
  rw [hbody] at hwhole heq
  exact read_cut _ '\x7b' '\x7d' .openObj .closeObj body text more rfl rfl
    ⟨rfl, rfl, by decide, by decide, by decide⟩ hwhole (obj_open fs) heq hmore

end

theorem newline_escape (text : List Char) : '\n' ∉ escape text := by
  intro h
  obtain ⟨c, -, hc⟩ := List.mem_flatMap.mp h
  unfold escapeChar at hc
  split_ifs at hc with hq hb hn hr ht h8 h12 h32
  all_goals try exact absurd hc (by decide)
  · obtain ⟨n, hn32, rfl⟩ := char_of_control c h32
    interval_cases n <;> exact absurd hc (by decide)
  · exact hn (List.mem_singleton.mp hc).symm

theorem newline_quoted (s : Option String) : '\n' ∉ quoted s := by
  cases s with
  | none => decide
  | some s => simp [quoted, rawString, newline_escape]

theorem newline_lexeme (x : Number) : '\n' ∉ x.lexeme := by
  intro h
  exact absurd (List.all_eq_true.mp x.word _ h) (by decide)

@[simp]
theorem compact_lead (n : ℕ) : compact.lead n = [] := rfl

@[simp]
theorem compact_close (n : ℕ) : compact.close n = [] := rfl

@[simp]
theorem compact_colon : compact.colon = [] := rfl

mutual

theorem newline_print (n : ℕ) : (v : Json) → '\n' ∉ print compact n v
  | .null => show '\n' ∉ ['n', 'u', 'l', 'l'] by decide
  | .bool true => show '\n' ∉ boolText true by decide
  | .bool false => show '\n' ∉ boolText false by decide
  | .num x => newline_lexeme x
  | .str s => newline_quoted s
  | .arr [] => by simp [print]
  | .arr (v::vs) => by
    simp [print, newline_print (n+1) v, newline_items (n+1) vs]
  | .obj [] => by simp [print]
  | .obj ((k, v)::fs) => by
    simp [print, newline_quoted, newline_print (n+1) v, newline_fields (n+1) fs]

theorem newline_items (n : ℕ) : (vs : List Json) → '\n' ∉ printItems compact n vs
  | [] => by simp [printItems]
  | v::vs => by simp [printItems, newline_print n v, newline_items n vs]

theorem newline_fields (n : ℕ) : (fs : List (String × Json)) → '\n' ∉ printFields compact n fs
  | [] => by simp [printFields]
  | (k, v)::fs => by
    simp [printFields, newline_quoted, newline_print n v, newline_fields n fs]

end

def fromUtf8 (bytes : List UInt8) : Option (List Char) :=
  if utf8 (fromUtf8Lossy bytes) = bytes then some (fromUtf8Lossy bytes) else none

theorem fromUtf8_eq_some_iff (bytes : List UInt8) (text : List Char) :
    fromUtf8 bytes = some text ↔ bytes = utf8 text := by
  unfold fromUtf8
  constructor
  · intro h
    split_ifs at h with hvalid
    rw [← Option.some.inj h, hvalid]
  · rintro rfl
    rw [fromUtf8Lossy_utf8, if_pos rfl]

theorem utf8_append (text more : List Char) : utf8 (text++more) = utf8 text ++ utf8 more := by
  simp [utf8]

theorem fromUtf8Lossy_append (text : List Char) (bytes : List UInt8) :
    fromUtf8Lossy (utf8 text ++ bytes) = text ++ fromUtf8Lossy bytes := by
  induction text with
  | nil => rfl
  | cons c text ih =>
    rw [utf8, List.flatMap_cons, List.append_assoc, fromUtf8Lossy, decode_encoded]
    rw [utf8, fromUtf8Lossy] at ih
    rw [ih]
    rfl

theorem utf8_first (text whole : List Char) (more : List UInt8)
    (h : utf8 whole = utf8 text ++ more) : ∃ rest, whole = text ++ rest ∧ more = utf8 rest := by
  have hwhole : whole = text ++ fromUtf8Lossy more := by
    rw [← fromUtf8Lossy_append, ← h, fromUtf8Lossy_utf8]
  refine ⟨fromUtf8Lossy more, hwhole, ?_⟩
  rw [hwhole, utf8_append] at h
  exact (List.append_cancel_left h).symm

def readBytes (bytes : List UInt8) : Option Json := (fromUtf8 bytes).bind read

theorem readBytes_utf8 (text : List Char) : readBytes (utf8 text) = read text := by
  rw [readBytes, (fromUtf8_eq_some_iff _ text).mpr rfl, Option.bind_some]

theorem readBytes_cut (whole : List Char) (bytes more : List UInt8)
    (hcut : ∀ text rest, whole = text++rest → rest ≠ [] → read text = none)
    (heq : utf8 whole = bytes++more) (hmore : more ≠ []) : readBytes bytes = none := by
  cases htext : fromUtf8 bytes with
  | none => rw [readBytes, htext]; rfl
  | some text =>
    obtain rfl := (fromUtf8_eq_some_iff bytes text).mp htext
    obtain ⟨rest, hwhole, rfl⟩ := utf8_first text _ more heq
    rw [readBytes_utf8]
    refine hcut text rest hwhole ?_
    rintro rfl
    exact hmore rfl

end Library.JsonText
