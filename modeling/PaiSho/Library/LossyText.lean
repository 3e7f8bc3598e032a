import Mathlib

/-!
# Text out of bytes, with replacement

Bytes are read as UTF-8 one at a time. A byte that cannot stand where it stands
ends the character begun, which becomes one replacement character, and is read
again as the first of a character. Bytes below 0x80 stand for themselves.
-/

set_option autoImplicit false

namespace Library.LossyText

def replacement : Char := Char.ofNat 0xFFFD

/-- Inside a character: the range the next byte has to lie in, how many follow
it, and the bits so far. -/
structure Midway where
  low : UInt8
  high : UInt8
  left : ℕ
  bits : ℕ

def opening (b : UInt8) : List Char × Option Midway :=
  if b < 0x80 then ([Char.ofNat b.toNat], none)
  else if 0xC2 ≤ b ∧ b ≤ 0xDF then ([], some ⟨0x80, 0xBF, 0, b.toNat % 32⟩)
  else if b = 0xE0 then ([], some ⟨0xA0, 0xBF, 1, b.toNat % 16⟩)
  else if b = 0xED then ([], some ⟨0x80, 0x9F, 1, b.toNat % 16⟩)
  else if 0xE1 ≤ b ∧ b ≤ 0xEF then ([], some ⟨0x80, 0xBF, 1, b.toNat % 16⟩)
  else if b = 0xF0 then ([], some ⟨0x90, 0xBF, 2, b.toNat % 8⟩)
  else if b = 0xF4 then ([], some ⟨0x80, 0x8F, 2, b.toNat % 8⟩)
  else if 0xF1 ≤ b ∧ b ≤ 0xF3 then ([], some ⟨0x80, 0xBF, 2, b.toNat % 8⟩)
  else ([replacement], none)

def decode : Option Midway → List UInt8 → List Char
  | none, [] => []
  | some _, [] => [replacement]
  | none, b::bs => (opening b).1 ++ decode (opening b).2 bs
  | some m, b::bs =>
    if m.low ≤ b ∧ b ≤ m.high then
      let bits := m.bits*64 + b.toNat % 64
      if m.left = 0 then Char.ofNat bits :: decode none bs
      else decode (some ⟨0x80, 0xBF, m.left-1, bits⟩) bs
    else replacement :: ((opening b).1 ++ decode (opening b).2 bs)

def fromUtf8Lossy (bytes : List UInt8) : List Char := decode none bytes

def toAsciiLowercase (text : List Char) : List Char := text.map Char.toLower

def Ascii (text : List Char) : Prop := ∀ c ∈ text, c.toNat < 128

def asciiBytes (text : List Char) : List UInt8 := text.map (fun c => UInt8.ofNat c.toNat)

theorem opening_ascii (c : Char) (h : c.toNat < 128) :
    opening (UInt8.ofNat c.toNat) = ([c], none) := by
  have hbyte : (UInt8.ofNat c.toNat).toNat = c.toNat := by
    rw [UInt8.toNat_ofNat']
    omega
  have hlt : UInt8.ofNat c.toNat < 0x80 := by
    rw [UInt8.lt_iff_toNat_lt, hbyte]
    exact h
  rw [opening, if_pos hlt, hbyte, Char.ofNat_toNat]

theorem fromUtf8Lossy_ascii (text : List Char) (h : Ascii text) :
    fromUtf8Lossy (asciiBytes text) = text := by
  induction text with
  | nil => rfl
  | cons c text ih =>
    have hc := opening_ascii c (h c (by simp))
    have hrest := ih fun d hd => h d (by simp [hd])
    show (opening (UInt8.ofNat c.toNat)).1 ++ decode (opening (UInt8.ofNat c.toNat)).2 _ = _
    rw [hc]
    exact congrArg (c :: ·) hrest

theorem toAsciiLowercase_eq_self (text : List Char) :
    toAsciiLowercase text = text ↔ ∀ c ∈ text, c.isUpper = false := by
  unfold toAsciiLowercase
  induction text with
  | nil => simp
  | cons c text ih =>
    have hc : c.toLower = c ↔ c.isUpper = false := by
      constructor
      · intro heq
        rw [← heq]
        exact Char.isUpper_toLower_eq_false c
      · intro hu
        exact Char.toLower_eq_of_not_isUpper (by simp [hu])
    simp [hc, ih]

theorem toLower_eq_dot (c : Char) (h : c.toLower = '.') : c = '.' := by
  have halpha : c.isAlpha = false := by
    rw [← Char.isAlpha_toLower_eq_isAlpha, h]
    rfl
  have hupper : ¬ c.isUpper := by
    intro hu
    simp [Char.isAlpha, hu] at halpha
  rw [Char.toLower_eq_of_not_isUpper hupper] at h
  exact h

theorem mem_toAsciiLowercase_dot (text : List Char) :
    '.' ∈ toAsciiLowercase text ↔ '.' ∈ text := by
  unfold toAsciiLowercase
  rw [List.mem_map]
  constructor
  · rintro ⟨c, hc, hdot⟩
    exact toLower_eq_dot c hdot ▸ hc
  · intro h
    exact ⟨'.', h, rfl⟩

end Library.LossyText
