import PaiSho.SessionCore

/-!
# Messages on streams of their own

`send_message` and the reading half of `handle_uni_stream` in `peer.rs`: a message
is its JSON text on a stream, and at most 64 KiB of a stream are read. The text and
the reading of a stream are those of `serde_json` and iroh, so they are parameters.
-/

set_option autoImplicit false

namespace PaiSho.PeerWire
open SessionCore (PeerMessage)

/-- `serde_json::to_vec` and `from_slice` at `PeerMessage`, and `read_to_end` of a
stream whose sender wrote these bytes and finished it. -/
structure Wire where
  toVec : PeerMessage → List UInt8
  fromSlice : List UInt8 → Option PeerMessage
  readToEnd : List UInt8 → ℕ → Option (List UInt8)

structure Wire.Documented (wire : Wire) : Prop where
  reads_back : ∀ m, wire.fromSlice (wire.toVec m) = some m
  whole : ∀ bytes limit, bytes.length ≤ limit → wire.readToEnd bytes limit = some bytes
  too_long : ∀ bytes limit, limit < bytes.length → wire.readToEnd bytes limit = none

def readLimit : ℕ := 64 * 1024

inductive Hearing where
  | message (m : PeerMessage)
  | garbled
  | tooLong
  deriving DecidableEq, Repr

def Wire.hear (wire : Wire) (bytes : List UInt8) : Hearing :=
  match wire.readToEnd bytes readLimit with
  | none => .tooLong
  | some data =>
    match wire.fromSlice data with
    | some m => .message m
    | none => .garbled

theorem Wire.hear_whole (wire : Wire) (hwire : wire.Documented) (m : PeerMessage)
    (h : (wire.toVec m).length ≤ readLimit) : wire.hear (wire.toVec m) = .message m := by
  rw [hear, hwire.whole _ _ h]
  simp [hwire.reads_back m]

theorem Wire.hear_tooLong (wire : Wire) (hwire : wire.Documented) (bytes : List UInt8)
    (h : readLimit < bytes.length) : wire.hear bytes = .tooLong := by
  rw [hear, hwire.too_long _ _ h]

theorem Wire.hear_iff (wire : Wire) (hwire : wire.Documented) (m m' : PeerMessage) :
    wire.hear (wire.toVec m) = .message m' ↔ (wire.toVec m).length ≤ readLimit ∧ m' = m := by
  rcases Nat.lt_or_ge readLimit (wire.toVec m).length with hlong | hfits
  · rw [wire.hear_tooLong hwire _ hlong]
    constructor
    · nofun
    · rintro ⟨hle, -⟩
      exact absurd hle (Nat.not_le.mpr hlong)
  · rw [wire.hear_whole hwire m hfits]
    constructor
    · intro h
      exact ⟨hfits, (Hearing.message.inj h).symm⟩
    · rintro ⟨-, rfl⟩
      rfl

end PaiSho.PeerWire
