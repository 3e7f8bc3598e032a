import PaiSho.Questions

/-!
# Replies to replies

The parser reads neither the QR bit nor the opcode, and a reply carries the one
question it answers. So whatever the resolver accepts it answers with a packet
that it accepts as well, and two resolvers that are handed each other's replies
never stop.
-/

set_option autoImplicit false

namespace PaiSho.Replies
open Library.LengthPrefixed
open SurfaceManager (Ipv4)
open Resolver Questions

/-- A query with opcode zero: the QR bit and the opcode bits are clear. -/
def Standard (b : List UInt8) : Prop := b[2]?.map (· &&& 0xF8) = some 0

instance (b : List UInt8) : Decidable (Standard b) :=
  inferInstanceAs (Decidable (b[2]?.map (· &&& 0xF8) = some 0))

/-- How many replies there are when each one is handed to the next resolver. -/
def bounce : List (String → Option Ipv4) → List UInt8 → ℕ
  | [], _ => 0
  | table::tables, b =>
    match reply b table with
    | none => 0
    | some r => bounce tables r + 1

/-- Only a standard query is answered, no reply is, and a packet that is handed
on is answered once at most. -/
structure AnsweredOnce (b : List UInt8) : Prop where
  standard : ∀ table r, reply b table = some r → Standard b
  stops : ∀ table table' r, reply b table = some r → reply r table' = none
  once : ∀ tables, bounce tables b ≤ 1

theorem reply_isSome (b : List UInt8) (table : String → Option Ipv4) :
    (reply b table).isSome = true ↔ Nonempty (Shape b) := by
  unfold reply
  constructor
  · intro h
    split at h
    · cases h
    · rename_i q hq
      exact shape_of_parse b q hq
  · rintro ⟨s⟩
    obtain ⟨q, hq, -⟩ := parse_of_shape b s
    rw [hq]
    rfl

theorem take_two (b : List UInt8) (h : 2 ≤ b.length) : b.take 2 = [b[0], b[1]] := by
  match b, h with
  | x::y::_, _ => rfl

theorem question_bytes (b : List UInt8) (s : Shape b) :
    b.extract 12 s.qend = blocks s.labels ++ [0, s.qtype.1, s.qtype.2, s.qclass.1, s.qclass.2] := by
  have hbytes : b = s.header ++ ((blocks s.labels ++
      [0, s.qtype.1, s.qtype.2, s.qclass.1, s.qclass.2]) ++ s.rest) := by
    rw [List.append_assoc]
    exact s.bytes
  have hdrop : b.drop 12 = (blocks s.labels ++
      [0, s.qtype.1, s.qtype.2, s.qclass.1, s.qclass.2]) ++ s.rest :=
    (congrArg (List.drop 12) hbytes).trans (List.drop_left' s.header_length)
  have hend : s.qend - 12 = (blocks s.labels ++
      [0, s.qtype.1, s.qtype.2, s.qclass.1, s.qclass.2]).length := by
    simp [Shape.qend]
    omega
  rw [List.extract, hdrop, hend, List.take_left]

theorem reply_shape (b : List UInt8) (table : String → Option Ipv4) (r : List UInt8)
    (h : reply b table = some r) : Nonempty (Shape r) := by
  have hsome : (reply b table).isSome = true := by
    rw [h]
    rfl
  obtain ⟨s⟩ := (reply_isSome b table).mp hsome
  obtain ⟨q, hq, -, -, hend⟩ := parse_of_shape b s
  have hbytes := question_bytes b s
  rw [← hend] at hbytes
  unfold reply at h
  rw [hq] at h
  obtain rfl := Option.some.inj h
  unfold buildReply
  rw [hbytes]
  exact ⟨⟨_, s.labels, s.qtype, s.qclass, _, rfl, ⟨rfl, rfl⟩, s.fits,
    (List.append_assoc _ _ _).trans (congrArg _ (List.append_assoc _ _ _))⟩⟩

theorem bounce_all (b : List UInt8) (h : Nonempty (Shape b))
    (tables : List (String → Option Ipv4)) : bounce tables b = tables.length := by
  induction tables generalizing b with
  | nil => rfl
  | cons table tables ih =>
    obtain ⟨r, hr⟩ := Option.isSome_iff_exists.mp ((reply_isSome b table).mpr h)
    rw [bounce, hr]
    exact congrArg (· + 1) (ih r (reply_shape b table r hr))

/-- A packet is answered as a standard query alone is, and once, exactly when it
is not answered at all. -/
theorem answered_once_iff (b : List UInt8) :
    (AnsweredOnce b ↔ ¬ Nonempty (Shape b)) ∧
      ((∀ table r, reply b table = some r → Standard b) ↔ (Nonempty (Shape b) → Standard b)) ∧
      (Nonempty (Shape b) → ∀ tables, bounce tables b = tables.length) := by
  have hreplies : ∀ table r, reply b table = some r → Nonempty (Shape b) := by
    intro table r hr
    apply (reply_isSome b table).mp
    rw [hr]
    rfl
  refine ⟨⟨fun h hs => ?_, fun hnot => ?_⟩, ⟨fun h hs => ?_, fun h table r hr => ?_⟩,
    bounce_all b⟩
  · have htwice := h.once [fun _ => none, fun _ => none]
    rw [bounce_all b hs] at htwice
    exact absurd htwice (by decide)
  · refine ⟨fun table r hr => absurd (hreplies table r hr) hnot,
      fun table _ r hr => absurd (hreplies table r hr) hnot, fun tables => ?_⟩
    cases tables with
    | nil => exact Nat.zero_le 1
    | cons table tables =>
      have hnone : reply b table = none := by
        rw [← Option.not_isSome_iff_eq_none, reply_isSome]
        exact hnot
      rw [bounce, hnone]
      exact Nat.zero_le 1
  · obtain ⟨r, hr⟩ := Option.isSome_iff_exists.mp
      ((reply_isSome b (fun _ => none)).mpr hs)
    exact h _ r hr
  · exact h (hreplies table r hr)

/-- A response to an A query for `broker.pai-sho`, as a resolver sends it. -/
def brokerResponse : List UInt8 :=
  [0x12, 0x34, 0x85, 0x00, 0x00, 0x01, 0x00, 0x00, 0x00, 0x00, 0x00, 0x00,
    6, 0x62, 0x72, 0x6F, 0x6B, 0x65, 0x72, 7, 0x70, 0x61, 0x69, 0x2D, 0x73, 0x68, 0x6F, 0,
    0x00, 0x01, 0x00, 0x01]

theorem response_answered : ¬ Standard brokerResponse ∧
    reply brokerResponse (fun _ => none) = some brokerResponse ∧
    ¬ AnsweredOnce brokerResponse := by
  have hloop : reply brokerResponse (fun _ => none) = some brokerResponse := by decide +kernel
  refine ⟨by decide, hloop, fun h => ?_⟩
  have hstops := h.stops _ (fun _ => none) _ hloop
  cases hloop.symm.trans hstops

end PaiSho.Replies
