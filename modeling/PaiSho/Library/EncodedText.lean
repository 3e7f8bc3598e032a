import PaiSho.Library.LossyText

/-!
# Where the characters of a reading come from

An ASCII character of the text that was read is an ASCII byte of what was read
from, and the bytes on either side of it are read on their own: nothing longer
comes to an ASCII character, and no character goes on across one. Text that was
encoded is read back as it was, and folding letter case commutes with encoding.
-/

set_option autoImplicit false

namespace Library.EncodedText
open Library.LossyText

def Widens (m : Midway) : Prop :=
  0x80 ≤ m.low.toNat ∧ m.high.toNat ≤ 0xBF ∧
    ((m.left = 0 ∧ 2 ≤ m.bits ∧ m.bits ≤ 0x43FF ∧ (m.bits < 0x360 ∨ 0x37F < m.bits)) ∨
    (m.left = 1 ∧ m.bits ≤ 0x10F ∧ (m.bits ≠ 0 ∨ 0xA0 ≤ m.low.toNat) ∧
      (m.bits ≠ 13 ∨ m.high.toNat ≤ 0x9F)) ∨
    (m.left = 2 ∧ m.bits ≤ 4 ∧ (m.bits ≠ 0 ∨ 0x90 ≤ m.low.toNat) ∧
      (m.bits ≠ 4 ∨ m.high.toNat ≤ 0x8F)))

inductive Opened (b : UInt8) : List Char × Option Midway → Prop where
  | ascii (h : b.toNat < 128) : Opened b ([Char.ofNat b.toNat], none)
  | begun (m : Midway) (h : Widens m) : Opened b ([], some m)
  | replaced : Opened b ([replacement], none)

theorem opened (b : UInt8) : Opened b (opening b) := by
  have hb := b.toNat_lt
  unfold opening
  simp only [UInt8.lt_iff_toNat_lt, UInt8.le_iff_toNat_le, ← UInt8.toNat_inj, UInt8.reduceToNat]
  split_ifs with h₁ h₂ h₃ h₄ h₅ h₆ h₇ h₈
  case pos => exact .ascii h₁
  case neg => exact .replaced
  all_goals
    refine .begun _ ?_
    simp only [Widens, UInt8.reduceToNat, true_and]
    omega

theorem widens_next (m : Midway) (h : Widens m) (hleft : m.left ≠ 0) (b : UInt8)
    (hb : m.low ≤ b ∧ b ≤ m.high) :
    Widens ⟨0x80, 0xBF, m.left-1, m.bits*64 + b.toNat % 64⟩ := by
  have hge := UInt8.le_iff_toNat_le.mp hb.1
  have hle := UInt8.le_iff_toNat_le.mp hb.2
  simp only [Widens, UInt8.reduceToNat] at h ⊢
  omega

theorem widens_last (m : Midway) (h : Widens m) (hleft : m.left = 0) (b : UInt8) :
    128 ≤ (Char.ofNat (m.bits*64 + b.toNat % 64)).toNat := by
  unfold Widens at h
  have hvalid : (m.bits*64 + b.toNat % 64).isValidChar := by
    unfold Nat.isValidChar
    omega
  rw [Char.toNat_ofNat, if_pos hvalid]
  omega

theorem replacement_wide : 128 ≤ replacement.toNat := by decide

theorem decode_midway_ne_nil (m : Midway) (bytes : List UInt8) : decode (some m) bytes ≠ [] := by
  induction bytes generalizing m with
  | nil => simp [decode]
  | cons b bytes ih =>
    rw [decode]
    split_ifs
    · simp
    · exact ih _
    · simp

theorem decode_eq_nil (bytes : List UInt8) (h : decode none bytes = []) : bytes = [] := by
  cases bytes with
  | nil => rfl
  | cons b bytes =>
    rw [decode] at h
    obtain ⟨hfirst, hrest⟩ := List.append_eq_nil_iff.mp h
    cases hb : opening b with
    | mk first mid =>
      rw [hb] at hfirst hrest
      have hopen := opened b
      rw [hb] at hopen
      cases hopen with
      | ascii => cases hfirst
      | begun m => exact absurd hrest (decode_midway_ne_nil m bytes)
      | replaced => cases hfirst

theorem decode_broken (m : Midway) (bytes : List UInt8)
    (h : ∀ b rest, bytes = b::rest → ¬ (m.low ≤ b ∧ b ≤ m.high)) :
    decode (some m) bytes = replacement :: decode none bytes := by
  cases bytes with
  | nil => rfl
  | cons b rest => rw [decode, decode, if_neg (h b rest rfl)]

def Begun (st : Option Midway) : Prop := ∀ m, st = some m → Widens m

theorem begun_none : Begun none := by
  intro m h
  cases h

theorem begun_some (m : Midway) (h : Widens m) : Begun (some m) := by
  rintro _ ⟨⟩
  exact h

theorem begun_opening (b : UInt8) : Begun (opening b).2 := by
  intro m hm
  have hopen := opened b
  cases hb : opening b with
  | mk first mid =>
    rw [hb] at hm hopen
    cases hopen with
    | ascii => cases hm
    | begun m' hwidens => exact Option.some.inj hm ▸ hwidens
    | replaced => cases hm

theorem split_after_wide (wide c : Char) (rest pre post : List Char) (hwide : 128 ≤ wide.toNat)
    (hc : c.toNat < 128) (h : wide :: rest = pre ++ c :: post) :
    ∃ pre', pre = wide :: pre' ∧ rest = pre' ++ c :: post := by
  rcases List.cons_eq_append_iff.mp h with ⟨-, hcons⟩ | hlater
  · obtain ⟨rfl, -⟩ := List.cons.inj hcons
    omega
  · exact hlater

def Splits (c : Char) (post : List Char) (st : Option Midway) (bytes : List UInt8)
    (pre : List Char) : Prop :=
  ∃ before after, bytes = before ++ UInt8.ofNat c.toNat :: after ∧ decode st before = pre ∧
    decode none after = post

theorem splits_cons (c : Char) (post : List Char) (st st' : Option Midway) (b : UInt8)
    (bytes : List UInt8) (out pre : List Char)
    (hread : ∀ rest, decode st (b::rest) = out ++ decode st' rest)
    (h : Splits c post st' bytes pre) : Splits c post st (b::bytes) (out ++ pre) := by
  obtain ⟨before, after, rfl, rfl, hafter⟩ := h
  exact ⟨b::before, after, rfl, hread before, hafter⟩

theorem splits_opening (c : Char) (hc : c.toNat < 128) (post : List Char) (b : UInt8)
    (bytes : List UInt8) (pre : List Char)
    (ih : ∀ st, Begun st → ∀ pre, decode st bytes = pre ++ c :: post → Splits c post st bytes pre)
    (h : decode none (b::bytes) = pre ++ c :: post) : Splits c post none (b::bytes) pre := by
  have hopen := opened b
  rw [decode] at h
  cases hb : opening b with
  | mk first mid =>
    rw [hb] at hopen h
    have hread : ∀ rest, decode none (b::rest) = first ++ decode mid rest := by
      intro rest
      rw [decode, hb]
    cases hopen with
    | ascii hlt =>
      rcases List.cons_eq_append_iff.mp h with ⟨rfl, hcons⟩ | ⟨pre', rfl, hlater⟩
      · obtain ⟨rfl, rfl⟩ := List.cons.inj hcons
        have hbyte : UInt8.ofNat (Char.ofNat b.toNat).toNat = b := by
          rw [Char.toNat_ofNat, if_pos (Or.inl (by omega)), UInt8.ofNat_toNat]
        exact ⟨[], bytes, by rw [hbyte]; rfl, rfl, rfl⟩
      · exact splits_cons c post none none b bytes _ pre' hread (ih none begun_none pre' hlater)
    | begun m hwidens =>
      exact splits_cons c post none (some m) b bytes [] pre hread
        (ih (some m) (begun_some m hwidens) pre h)
    | replaced =>
      obtain ⟨pre', rfl, hlater⟩ := split_after_wide replacement c _ pre post replacement_wide hc h
      exact splits_cons c post none none b bytes _ pre' hread (ih none begun_none pre' hlater)

theorem decode_split (bytes : List UInt8) (st : Option Midway) (hst : Begun st) (pre post : List Char)
    (c : Char) (hc : c.toNat < 128) (h : decode st bytes = pre ++ c :: post) :
    Splits c post st bytes pre := by
  induction bytes generalizing st pre with
  | nil =>
    cases st with
    | none => simp [decode] at h
    | some m =>
      obtain ⟨pre', -, hnil⟩ := split_after_wide replacement c [] pre post replacement_wide hc h
      simp at hnil
  | cons b bytes ih =>
    have hnext : ∀ st, Begun st → ∀ pre, decode st bytes = pre ++ c :: post →
        Splits c post st bytes pre := fun st hst pre => ih st hst pre
    cases st with
    | none => exact splits_opening c hc post b bytes pre hnext h
    | some m =>
      have hwidens := hst m rfl
      by_cases hb : m.low ≤ b ∧ b ≤ m.high
      · by_cases hleft : m.left = 0
        · have hread : ∀ rest, decode (some m) (b::rest) =
              [Char.ofNat (m.bits*64 + b.toNat % 64)] ++ decode none rest := by
            intro rest
            rw [decode, if_pos hb]
            exact if_pos hleft
          rw [hread] at h
          obtain ⟨pre', rfl, hlater⟩ :=
            split_after_wide _ c _ pre post (widens_last m hwidens hleft b) hc h
          exact splits_cons c post (some m) none b bytes _ pre' hread
            (hnext none begun_none pre' hlater)
        · have hread : ∀ rest, decode (some m) (b::rest) = [] ++ decode (some ⟨0x80, 0xBF, m.left-1,
              m.bits*64 + b.toNat % 64⟩) rest := by
            intro rest
            rw [decode, if_pos hb]
            exact if_neg hleft
          rw [hread] at h
          exact splits_cons c post (some m) _ b bytes [] pre hread
            (hnext _ (begun_some _ (widens_next m hwidens hleft b hb)) pre h)
      · -- the byte ends what was begun and is read again as a first one
        rw [decode_broken m (b::bytes) (by rintro _ _ ⟨⟩; exact hb)] at h
        obtain ⟨pre', rfl, hlater⟩ := split_after_wide _ c _ pre post replacement_wide hc h
        obtain ⟨before, after, hsplit, hbefore, hafter⟩ :=
          splits_opening c hc post b bytes pre' hnext hlater
        refine ⟨before, after, hsplit, ?_, hafter⟩
        rw [decode_broken m before, hbefore]
        rintro b' rest rfl
        obtain ⟨rfl, -⟩ := List.cons.inj hsplit
        exact hb

theorem decode_append_ascii (bytes rest : List UInt8) (st : Option Midway) (hst : Begun st)
    (a : UInt8) (ha : a.toNat < 128) :
    decode st (bytes ++ a :: rest) = decode st bytes ++ Char.ofNat a.toNat :: decode none rest := by
  have hopen : opening a = ([Char.ofNat a.toNat], none) := by
    rw [opening, if_pos (UInt8.lt_iff_toNat_lt.mpr ha)]
  have hfresh : decode none (a::rest) = Char.ofNat a.toNat :: decode none rest := by
    rw [decode, hopen]
    rfl
  induction bytes generalizing st with
  | nil =>
    cases st with
    | none => exact hfresh
    | some m =>
      have hlow := (hst m rfl).1
      rw [List.nil_append, decode_broken m (a::rest), hfresh]
      · rfl
      · rintro _ _ ⟨⟩ ⟨hge, -⟩
        have := UInt8.le_iff_toNat_le.mp hge
        omega
  | cons b bytes ih =>
    have hnone : decode none (b::bytes ++ a::rest) =
        decode none (b::bytes) ++ Char.ofNat a.toNat :: decode none rest := by
      rw [List.cons_append, decode, decode, List.append_assoc]
      rw [ih _ (begun_opening b)]
    cases st with
    | none => exact hnone
    | some m =>
      have hwidens := hst m rfl
      by_cases hb : m.low ≤ b ∧ b ≤ m.high
      · rw [List.cons_append, decode, decode, if_pos hb, if_pos hb]
        dsimp only
        split_ifs with hleft
        · rw [ih none begun_none]
          rfl
        · exact ih _ (begun_some _ (widens_next m hwidens hleft b hb))
      · rw [decode_broken m (b::bytes ++ a::rest), hnone, decode_broken m (b::bytes)]
        · rfl
        · rintro _ _ ⟨⟩
          exact hb
        · rintro _ _ ⟨⟩
          exact hb

theorem fromUtf8Lossy_split (bytes : List UInt8) (pre post : List Char) (c : Char)
    (hc : c.toNat < 128) (h : fromUtf8Lossy bytes = pre ++ c :: post) :
    ∃ before after, bytes = before ++ UInt8.ofNat c.toNat :: after ∧ fromUtf8Lossy before = pre ∧
      fromUtf8Lossy after = post :=
  decode_split bytes none begun_none pre post c hc h

theorem fromUtf8Lossy_eq_ascii (bytes : List UInt8) (text : List Char) (ht : Ascii text)
    (h : fromUtf8Lossy bytes = text) : bytes = asciiBytes text := by
  induction text generalizing bytes with
  | nil => exact decode_eq_nil bytes h
  | cons c text ih =>
    obtain ⟨before, after, rfl, hbefore, hafter⟩ :=
      fromUtf8Lossy_split bytes [] text c (ht c (by simp)) h
    obtain rfl := decode_eq_nil before hbefore
    rw [ih after (fun d hd => ht d (by simp [hd])) hafter]
    rfl

theorem fromUtf8Lossy_append_ascii (bytes rest : List UInt8) (a : UInt8) (ha : a.toNat < 128) :
    fromUtf8Lossy (bytes ++ a :: rest) =
      fromUtf8Lossy bytes ++ Char.ofNat a.toNat :: fromUtf8Lossy rest :=
  decode_append_ascii bytes rest none begun_none a ha

theorem mem_fromUtf8Lossy (bytes : List UInt8) (a : UInt8) (ha : a.toNat < 128) :
    Char.ofNat a.toNat ∈ fromUtf8Lossy bytes ↔ a ∈ bytes := by
  have hcode : (Char.ofNat a.toNat).toNat = a.toNat := by
    rw [Char.toNat_ofNat, if_pos (Or.inl (by omega))]
  constructor
  · intro h
    obtain ⟨pre, post, hsplit⟩ := List.append_of_mem h
    obtain ⟨before, after, rfl, -, -⟩ :=
      fromUtf8Lossy_split bytes pre post _ (by rw [hcode]; exact ha) hsplit
    rw [hcode, UInt8.ofNat_toNat]
    simp
  · intro h
    obtain ⟨before, after, rfl⟩ := List.append_of_mem h
    rw [fromUtf8Lossy_append_ascii before after a ha]
    simp

def utf8 (text : List Char) : List UInt8 := text.flatMap String.utf8EncodeChar

theorem utf8EncodeChar_ascii (c : Char) (h : c.toNat < 128) :
    String.utf8EncodeChar c = [UInt8.ofNat c.toNat] :=
  if_pos (Nat.le_of_lt_succ h)

theorem utf8_ascii (text : List Char) (h : Ascii text) : utf8 text = asciiBytes text := by
  induction text with
  | nil => rfl
  | cons c text ih =>
    show String.utf8EncodeChar c ++ utf8 text = UInt8.ofNat c.toNat :: asciiBytes text
    rw [utf8EncodeChar_ascii c (h c (by simp)), ih fun d hd => h d (by simp [hd])]
    rfl

theorem opening_two (b : UInt8) (h : 0xC2 ≤ b.toNat ∧ b.toNat ≤ 0xDF) :
    opening b = ([], some ⟨0x80, 0xBF, 0, b.toNat % 32⟩) := by
  simp only [opening, UInt8.lt_iff_toNat_lt, UInt8.le_iff_toNat_le, UInt8.reduceToNat]
  rw [if_neg (by omega), if_pos h]

theorem opening_three (b : UInt8) (h : 0xE0 ≤ b.toNat ∧ b.toNat ≤ 0xEF) :
    opening b = ([], some ⟨if b.toNat = 0xE0 then 0xA0 else 0x80,
      if b.toNat = 0xED then 0x9F else 0xBF, 1, b.toNat % 16⟩) := by
  simp only [opening, UInt8.lt_iff_toNat_lt, UInt8.le_iff_toNat_le, ← UInt8.toNat_inj,
    UInt8.reduceToNat]
  rw [if_neg (by omega), if_neg (by omega)]
  by_cases h₁ : b.toNat = 0xE0
  · simp [h₁]
  · by_cases h₂ : b.toNat = 0xED
    · simp [h₂]
    · rw [if_neg h₁, if_neg h₂, if_pos (by omega), if_neg h₁, if_neg h₂]

theorem opening_four (b : UInt8) (h : 0xF0 ≤ b.toNat ∧ b.toNat ≤ 0xF4) :
    opening b = ([], some ⟨if b.toNat = 0xF0 then 0x90 else 0x80,
      if b.toNat = 0xF4 then 0x8F else 0xBF, 2, b.toNat % 8⟩) := by
  simp only [opening, UInt8.lt_iff_toNat_lt, UInt8.le_iff_toNat_le, ← UInt8.toNat_inj,
    UInt8.reduceToNat]
  rw [if_neg (by omega), if_neg (by omega), if_neg (by omega), if_neg (by omega),
    if_neg (by omega)]
  by_cases h₁ : b.toNat = 0xF0
  · simp [h₁]
  · by_cases h₂ : b.toNat = 0xF4
    · simp [h₂]
    · rw [if_neg h₁, if_neg h₂, if_pos (by omega), if_neg h₁, if_neg h₂]

theorem byte_toNat (n : ℕ) (h : n < 256) : (UInt8.ofNat n).toNat = n := by
  rw [UInt8.toNat_ofNat']
  omega

theorem decode_last (bits n : ℕ) (rest : List UInt8) (hn : n < 64) :
    decode (some ⟨0x80, 0xBF, 0, bits⟩) (UInt8.ofNat (n + 0x80) :: rest) =
      Char.ofNat (bits*64 + n) :: decode none rest := by
  have hbyte := byte_toNat (n + 0x80) (by omega)
  have hn' : (n + 0x80) % 64 = n := by omega
  rw [decode, if_pos]
  · dsimp only
    rw [if_pos rfl, hbyte, hn']
  · simp only [UInt8.le_iff_toNat_le, hbyte, UInt8.reduceToNat]
    omega

theorem decode_more (low high : UInt8) (left bits n : ℕ) (rest : List UInt8) (hn : n < 64)
    (hlow : low.toNat ≤ n + 0x80) (hhigh : n + 0x80 ≤ high.toNat) :
    decode (some ⟨low, high, left+1, bits⟩) (UInt8.ofNat (n + 0x80) :: rest) =
      decode (some ⟨0x80, 0xBF, left, bits*64 + n⟩) rest := by
  have hbyte := byte_toNat (n + 0x80) (by omega)
  have hn' : (n + 0x80) % 64 = n := by omega
  rw [decode, if_pos]
  · dsimp only
    rw [if_neg (Nat.succ_ne_zero left), hbyte, hn']
    rfl
  · rw [UInt8.le_iff_toNat_le, UInt8.le_iff_toNat_le, hbyte]
    exact ⟨hlow, hhigh⟩

theorem decode_encoded (c : Char) (rest : List UInt8) :
    decode none (String.utf8EncodeChar c ++ rest) = c :: decode none rest := by
  have hvalid : c.toNat < 0xD800 ∨ 0xDFFF < c.toNat ∧ c.toNat < 0x110000 := c.valid
  have hchar : ∀ n, n = c.toNat → Char.ofNat n = c := by
    rintro _ rfl
    exact Char.ofNat_toNat c
  unfold String.utf8EncodeChar
  dsimp only
  change decode none ((if c.toNat ≤ 0x7f then [UInt8.ofNat c.toNat] else
    if c.toNat ≤ 0x7ff then [UInt8.ofNat (c.toNat/64 % 0x20 + 0xc0), UInt8.ofNat (c.toNat % 0x40 + 0x80)]
    else if c.toNat ≤ 0xffff then [UInt8.ofNat (c.toNat/4096 % 0x10 + 0xe0),
      UInt8.ofNat (c.toNat/64 % 0x40 + 0x80), UInt8.ofNat (c.toNat % 0x40 + 0x80)]
    else [UInt8.ofNat (c.toNat/262144 % 0x08 + 0xf0), UInt8.ofNat (c.toNat/4096 % 0x40 + 0x80),
      UInt8.ofNat (c.toNat/64 % 0x40 + 0x80), UInt8.ofNat (c.toNat % 0x40 + 0x80)]) ++ rest) = _
  generalize hv : c.toNat = v at hvalid hchar ⊢
  split_ifs with h₁ h₂ h₃
  · rw [← hv, List.singleton_append, decode, opening_ascii c (by omega)]
    rfl
  · have hbyte := byte_toNat (v/64 % 0x20 + 0xc0) (by omega)
    simp only [List.cons_append, List.nil_append]
    rw [decode, opening_two _ (by omega), hbyte, List.nil_append, decode_last _ _ _ (by omega),
      hchar _ (by omega)]
  · have hbyte := byte_toNat (v/4096 % 0x10 + 0xe0) (by omega)
    simp only [List.cons_append, List.nil_append]
    rw [decode, opening_three _ (by omega), hbyte, List.nil_append, decode_more, decode_last,
      hchar _ (by omega)]
    · omega
    · omega
    · split_ifs <;> simp only [UInt8.reduceToNat] <;> omega
    · split_ifs <;> simp only [UInt8.reduceToNat] <;> omega
  · have hbyte := byte_toNat (v/262144 % 0x08 + 0xf0) (by omega)
    simp only [List.cons_append, List.nil_append]
    rw [decode, opening_four _ (by omega), hbyte, List.nil_append, decode_more, decode_more,
      decode_last, hchar _ (by omega)]
    · omega
    · omega
    · simp only [UInt8.reduceToNat]
      omega
    · simp only [UInt8.reduceToNat]
      omega
    · omega
    · split_ifs <;> simp only [UInt8.reduceToNat] <;> omega
    · split_ifs <;> simp only [UInt8.reduceToNat] <;> omega

theorem fromUtf8Lossy_utf8 (text : List Char) : fromUtf8Lossy (utf8 text) = text := by
  induction text with
  | nil => rfl
  | cons c text ih =>
    show decode none (String.utf8EncodeChar c ++ utf8 text) = _
    rw [decode_encoded]
    exact congrArg (c :: ·) ih

def lowerByte (b : UInt8) : UInt8 := if 0x41 ≤ b.toNat ∧ b.toNat ≤ 0x5A then b + 32 else b

theorem isUpper_iff (c : Char) : c.isUpper = true ↔ 0x41 ≤ c.toNat ∧ c.toNat ≤ 0x5A := by
  rw [Char.isUpper, decide_eq_true_iff]
  exact Iff.rfl

theorem toLower_wide (c : Char) (h : c.toLower.toNat < 128) : c.toNat < 128 := by
  by_cases hc : c.isUpper = true
  · have := (isUpper_iff c).mp hc
    omega
  · rwa [Char.toLower_eq_of_not_isUpper hc] at h

theorem mem_utf8EncodeChar (c : Char) (b : UInt8) (h : b ∈ String.utf8EncodeChar c) :
    b.toNat = c.toNat ∨ 128 ≤ b.toNat := by
  have hv : c.val.toNat = c.toNat := rfl
  have hb : ∀ n low, 128 ≤ low → n + low < 256 → b = UInt8.ofNat (n + low) → 128 ≤ b.toNat := by
    rintro n low hlow hlt rfl
    rw [byte_toNat _ hlt]
    omega
  simp only [String.utf8EncodeChar, hv] at h
  generalize c.toNat = v at h ⊢
  split_ifs at h with h₁
  · rw [List.mem_singleton] at h
    rw [h, byte_toNat v (by omega)]
    exact Or.inl rfl
  · right
    simp only [List.mem_cons, List.not_mem_nil, or_false] at h
    rcases h with h | h
    · exact hb _ 0xc0 (by omega) (by omega) h
    · exact hb _ 0x80 (by omega) (by omega) h
  · right
    simp only [List.mem_cons, List.not_mem_nil, or_false] at h
    rcases h with h | h | h
    · exact hb _ 0xe0 (by omega) (by omega) h
    · exact hb _ 0x80 (by omega) (by omega) h
    · exact hb _ 0x80 (by omega) (by omega) h
  · right
    simp only [List.mem_cons, List.not_mem_nil, or_false] at h
    rcases h with h | h | h | h
    · exact hb _ 0xf0 (by omega) (by omega) h
    · exact hb _ 0x80 (by omega) (by omega) h
    · exact hb _ 0x80 (by omega) (by omega) h
    · exact hb _ 0x80 (by omega) (by omega) h

theorem utf8EncodeChar_toLower (c : Char) :
    String.utf8EncodeChar c.toLower = (String.utf8EncodeChar c).map lowerByte := by
  by_cases hc : c.isUpper = true
  · obtain ⟨hlow, hhigh⟩ := (isUpper_iff c).mp hc
    have hlower : c.toLower.toNat = c.toNat + 32 := by
      rw [Char.toLower_eq_of_isUpper hc, Char.toNat_ofNat, if_pos (Or.inl (by omega))]
    rw [utf8EncodeChar_ascii c (by omega), utf8EncodeChar_ascii c.toLower (by omega), hlower,
      List.map_singleton, lowerByte, byte_toNat c.toNat (by omega), if_pos ⟨hlow, hhigh⟩,
      UInt8.ofNat_add]
    rfl
  · rw [Char.toLower_eq_of_not_isUpper hc]
    have hsame : ∀ b ∈ String.utf8EncodeChar c, lowerByte b = b := by
      intro b hb
      rw [isUpper_iff] at hc
      refine if_neg fun hupper => ?_
      rcases mem_utf8EncodeChar c b hb with heq | hwide
      · exact hc (heq ▸ hupper)
      · omega
    exact (List.map_congr_left hsame).trans (List.map_id _) |>.symm

theorem utf8_toAsciiLowercase (text : List Char) :
    utf8 (toAsciiLowercase text) = (utf8 text).map lowerByte := by
  induction text with
  | nil => rfl
  | cons c text ih =>
    show String.utf8EncodeChar c.toLower ++ utf8 (toAsciiLowercase text) =
      (String.utf8EncodeChar c ++ utf8 text).map lowerByte
    rw [utf8EncodeChar_toLower, ih, List.map_append]

end Library.EncodedText
