import Mathlib.Data.List.Basic

/-!
# Length-prefixed blocks

A block is written as its length in one byte, then its bytes. A sequence of
non-empty blocks ended by a zero byte can be read back in one way only, whatever
follows it.
-/

set_option autoImplicit false

namespace Library.LengthPrefixed

def block (bytes : List UInt8) : List UInt8 := UInt8.ofNat bytes.length :: bytes

def blocks (bs : List (List UInt8)) : List UInt8 := bs.flatMap block

/-- Every block has at least one byte and at most `limit`. -/
def Fits (limit : ℕ) (bs : List (List UInt8)) : Prop :=
  ∀ bytes ∈ bs, 1 ≤ bytes.length ∧ bytes.length ≤ limit

theorem fits_cons (limit : ℕ) (bytes : List UInt8) (bs : List (List UInt8)) :
    Fits limit (bytes::bs) ↔
      (1 ≤ bytes.length ∧ bytes.length ≤ limit) ∧ Fits limit bs := by
  simp [Fits]

@[simp]
theorem blocks_nil : blocks [] = [] := rfl

theorem blocks_cons (bytes : List UInt8) (bs : List (List UInt8)) :
    blocks (bytes::bs) = UInt8.ofNat bytes.length :: (bytes ++ blocks bs) := rfl

theorem length_byte (bytes : List UInt8) (h : bytes.length ≤ 255) :
    (UInt8.ofNat bytes.length).toNat = bytes.length := by
  rw [UInt8.toNat_ofNat']
  omega

theorem length_byte_ne_zero (bytes : List UInt8) (hpos : 1 ≤ bytes.length)
    (h : bytes.length ≤ 255) : UInt8.ofNat bytes.length ≠ 0 := by
  intro hzero
  have := congrArg UInt8.toNat hzero
  rw [length_byte bytes h, UInt8.toNat_zero] at this
  omega

theorem blocks_unique (limit : ℕ) (hlimit : limit ≤ 255) (bs bs' : List (List UInt8))
    (rest rest' : List UInt8) (h : Fits limit bs) (h' : Fits limit bs')
    (heq : blocks bs ++ 0::rest = blocks bs' ++ 0::rest') : bs = bs' ∧ rest = rest' := by
  induction bs generalizing bs' with
  | nil =>
    cases bs' with
    | nil => exact ⟨rfl, (List.cons.inj heq).2⟩
    | cons bytes' bs' =>
      obtain ⟨⟨hpos, hle⟩, -⟩ := (fits_cons limit bytes' bs').mp h'
      rw [blocks_cons] at heq
      exact absurd (List.cons.inj heq).1.symm (length_byte_ne_zero bytes' hpos (by omega))
  | cons bytes bs ih =>
    obtain ⟨⟨hpos, hle⟩, hrest⟩ := (fits_cons limit bytes bs).mp h
    cases bs' with
    | nil =>
      rw [blocks_cons] at heq
      exact absurd (List.cons.inj heq).1 (length_byte_ne_zero bytes hpos (by omega))
    | cons bytes' bs' =>
      obtain ⟨⟨hpos', hle'⟩, hrest'⟩ := (fits_cons limit bytes' bs').mp h'
      rw [blocks_cons, blocks_cons, List.cons_append, List.cons_append] at heq
      obtain ⟨hbyte, htail⟩ := List.cons.inj heq
      have hlen : bytes.length = bytes'.length := by
        have := congrArg UInt8.toNat hbyte
        rwa [length_byte bytes (by omega), length_byte bytes' (by omega)] at this
      rw [List.append_assoc, List.append_assoc] at htail
      obtain ⟨rfl, hmore⟩ := List.append_inj htail hlen
      obtain ⟨rfl, rfl⟩ := ih bs' hrest hrest' hmore
      exact ⟨rfl, rfl⟩

end Library.LengthPrefixed
