import PaiSho.Replies

/-!
# What a reply says

A reply is read back here by a client's reading of it, field by field: the header
with its flags and counts, the question, and the records behind the question.
Whatever else the packet carried, its reply has the question and one record at
most.
-/

set_option autoImplicit false

namespace PaiSho.Answers
open Library.LengthPrefixed
open Authorization (fromBeBytes)
open SurfaceManager (Ipv4)
open Resolver Questions Replies

def field (r : List UInt8) (i : ℕ) : Option (Fin 65536) :=
  match r[i]?, r[i+1]? with
  | some hi, some lo => some (fromBeBytes hi lo)
  | _, _ => none

structure Flags where
  qr : Bool
  opcode : UInt8
  aa : Bool
  rd : Bool
  rcode : UInt8
  deriving DecidableEq, Repr

def readFlags (r : List UInt8) : Option Flags :=
  match r[2]?, r[3]? with
  | some hi, some lo => some ⟨hi &&& 0x80 ≠ 0, (hi &&& 0x78) >>> 3, hi &&& 0x04 ≠ 0, hi &&& 0x01 ≠ 0,
      lo &&& 0x0F⟩
  | _, _ => none

structure Record where
  pointer : Fin 65536
  type : Fin 65536
  class_ : Fin 65536
  ttl : ℕ
  data : List UInt8
  deriving DecidableEq, Repr

def readRecord : List UInt8 → Option (Record × List UInt8)
  | p₁::p₂::t₁::t₂::c₁::c₂::s₁::s₂::s₃::s₄::d₁::d₂::rest =>
    if p₁ &&& 0xC0 = 0xC0 ∧ (fromBeBytes d₁ d₂).val ≤ rest.length then
      some (⟨fromBeBytes (p₁ &&& 0x3F) p₂, fromBeBytes t₁ t₂, fromBeBytes c₁ c₂,
        (fromBeBytes s₁ s₂).val*65536 + (fromBeBytes s₃ s₄).val,
        rest.take (fromBeBytes d₁ d₂).val⟩, rest.drop (fromBeBytes d₁ d₂).val)
    else none
  | _ => none

def readIpv4 : List UInt8 → Option Ipv4
  | [a, b, c, d] => some ⟨a, b, c, d⟩
  | _ => none

def classIn : Fin 65536 := 1

def Given {b : List UInt8} (resolve : String → Option Ipv4) (q : Question b) (ip : Ipv4) : Prop :=
  q.qtype = typeA ∧ ∃ label, hostLabel q.name = some label ∧ resolve label = some ip

/-- One A record for the name at offset twelve, and nothing after it. -/
def OneRecord (bytes : List UInt8) (ip : Ipv4) : Prop :=
  ∃ record, readRecord bytes = some (record, []) ∧ record.pointer = 12 ∧ record.type = typeA ∧
    record.class_ = classIn ∧ readIpv4 record.data = some ip

structure WellFormed (b : List UInt8) (resolve : String → Option Ipv4) (q : Question b)
    (r : List UInt8) : Prop where
  inRange : 12 ≤ q.qend ∧ q.qend ≤ b.length
  id : r.take 2 = b.take 2
  flags : ∃ asked said, readFlags b = some asked ∧ readFlags r = some said ∧
    said = ⟨true, 0, true, asked.rd, 0⟩
  question : ∃ q' : Question r, parseQuestion r = some q' ∧ q'.name = q.name ∧
    q'.qtype = q.qtype ∧ q'.qend = q.qend
  nscount : field r 8 = some 0
  arcount : field r 10 = some 0
  ancount : field r 6 = some 1 ∨ field r 6 = some 0
  counted : field r 6 = some 1 ↔ ∃ ip, Given resolve q ip
  record : ∀ ip, Given resolve q ip → OneRecord (r.drop q.qend) ip
  bare : (¬ ∃ ip, Given resolve q ip) → r.length = q.qend

theorem buildReply_eq (b : List UInt8) (s : Shape b) (past : 12 ≤ s.qend)
    (within : s.qend ≤ b.length) (answer : Option Ipv4) :
    buildReply b s.qend past within answer =
      [b[0], b[1], flags b[2], 0x00, 0x00, 0x01, 0x00, if answer.isSome then 1 else 0,
        0x00, 0x00, 0x00, 0x00] ++
        (blocks s.labels ++ 0::s.qtype.1::s.qtype.2::s.qclass.1::s.qclass.2::
          (answer.map aRecord).getD []) := by
  unfold buildReply
  rw [question_bytes]
  cases answer with
  | none => simp
  | some ip => simp

theorem flags_read (asked : UInt8) : flags asked &&& 0x80 ≠ 0 ∧ (flags asked &&& 0x78) >>> 3 = 0 ∧
    flags asked &&& 0x04 ≠ 0 ∧ (flags asked &&& 0x01 ≠ 0 ↔ asked &&& 0x01 ≠ 0) := by
  revert asked
  decide +kernel

theorem flags_echoed (b : List UInt8) (hlong : 12 ≤ b.length) :
    ∃ asked, readFlags b = some asked ∧ ∀ count rest,
      readFlags ([b[0], b[1], flags b[2], 0x00, 0x00, 0x01, 0x00, count, 0x00, 0x00, 0x00, 0x00] ++
        rest) = some ⟨true, 0, true, asked.rd, 0⟩ := by
  obtain ⟨hqr, hopcode, haa, hrd⟩ := flags_read b[2]
  refine ⟨⟨b[2] &&& 0x80 ≠ 0, (b[2] &&& 0x78) >>> 3, b[2] &&& 0x04 ≠ 0, b[2] &&& 0x01 ≠ 0,
    b[3] &&& 0x0F⟩, ?_, fun count rest => ?_⟩
  · simp only [readFlags, List.getElem?_eq_getElem (show 2 < b.length by omega),
      List.getElem?_eq_getElem (show 3 < b.length by omega)]
  · show some _ = some _
    rw [decide_eq_true hqr, decide_eq_true haa, hopcode, decide_eq_decide.mpr hrd]
    rfl

theorem aRecord_read (ip : Ipv4) : OneRecord (aRecord ip) ip :=
  ⟨_, rfl, rfl, rfl, rfl, rfl⟩

theorem given_iff {b : List UInt8} (resolve : String → Option Ipv4) (q : Question b) (ip : Ipv4) :
    (if q.qtype = typeA then (hostLabel q.name).bind resolve else none) = some ip ↔
      Given resolve q ip := by
  unfold Given
  split_ifs with htype
  · simp [htype, Option.bind_eq_some_iff]
  · simp [htype]

theorem reply_read (b : List UInt8) (s : Shape b) (head : List UInt8) (hlen : head.length = 12)
    (hone : head[4]? = some 0 ∧ head[5]? = some 1) (rest r : List UInt8)
    (hr : r = head ++ (blocks s.labels ++ 0::s.qtype.1::s.qtype.2::s.qclass.1::s.qclass.2::rest)) :
    r.drop s.qend = rest ∧ ∃ q' : Question r, parseQuestion r = some q' ∧ q'.name = s.name ∧
      q'.qtype = fromBeBytes s.qtype.1 s.qtype.2 ∧ q'.qend = s.qend := by
  constructor
  · have hsplit : r = (head ++ (blocks s.labels ++
        [0, s.qtype.1, s.qtype.2, s.qclass.1, s.qclass.2])) ++ rest := by
      rw [hr]
      simp
    have hend : s.qend = (head ++ (blocks s.labels ++
        [0, s.qtype.1, s.qtype.2, s.qclass.1, s.qclass.2])).length := by
      simp [Shape.qend, hlen]
      omega
    rw [hsplit, hend, List.drop_left]
  · let s' : Shape r := ⟨head, s.labels, s.qtype, s.qclass, rest, hlen, hone, s.fits, hr⟩
    exact parse_of_shape r s'

/-- A reply taken apart: the packet it answers, the question in it, and the
answer the table had. -/
structure Built (b : List UInt8) (resolve : String → Option Ipv4) (r : List UInt8) (s : Shape b)
    (q : Question b) (answer : Option Ipv4) : Prop where
  parsed : parseQuestion b = some q
  name : q.name = s.name
  qtype : q.qtype = fromBeBytes s.qtype.1 s.qtype.2
  qend : q.qend = s.qend
  given : ∀ ip, answer = some ip ↔ Given resolve q ip
  long : 12 ≤ b.length
  bytes : r = [b[0], b[1], flags b[2], 0x00, 0x00, 0x01, 0x00, if answer.isSome then 1 else 0,
    0x00, 0x00, 0x00, 0x00] ++ (blocks s.labels ++
      0::s.qtype.1::s.qtype.2::s.qclass.1::s.qclass.2::(answer.map aRecord).getD [])

theorem reply_built (b : List UInt8) (resolve : String → Option Ipv4) (r : List UInt8)
    (h : reply b resolve = some r) : ∃ s q answer, Built b resolve r s q answer := by
  have hsome : (reply b resolve).isSome = true := by
    rw [h]
    rfl
  obtain ⟨s⟩ := (reply_isSome b resolve).mp hsome
  obtain ⟨q, hq, hname, hqtype, hqend⟩ := parse_of_shape b s
  have hpast := q.past
  have hwithin := q.within
  rw [hqend] at hpast hwithin
  refine ⟨s, q, _, hq, hname, hqtype, hqend, given_iff resolve q, by omega, ?_⟩
  rw [← buildReply_eq b s hpast hwithin]
  unfold reply at h
  rw [hq] at h
  simp only [← hqend]
  exact (Option.some.inj h).symm

section
variable {b r : List UInt8} {resolve : String → Option Ipv4} {s : Shape b} {q : Question b}
  {answer : Option Ipv4}

theorem Built.read (h : Built b resolve r s q answer) :
    r.drop q.qend = (answer.map aRecord).getD [] ∧ ∃ q' : Question r, parseQuestion r = some q' ∧
      q'.name = q.name ∧ q'.qtype = q.qtype ∧ q'.qend = q.qend := by
  rw [h.name, h.qtype, h.qend]
  exact reply_read b s _ rfl ⟨rfl, rfl⟩ _ r h.bytes

theorem Built.count (h : Built b resolve r s q answer) :
    field r 6 = some (if answer.isSome then 1 else 0) := by
  rw [h.bytes]
  cases answer <;> rfl

theorem Built.counted (h : Built b resolve r s q answer) :
    field r 6 = some 1 ↔ ∃ ip, answer = some ip := by
  rw [h.count]
  cases answer with
  | none => simp
  | some ip => simp

end

/-- Every reply echoes the question and carries the answer the table gave, and
nothing besides. -/
theorem reply_well_formed (b : List UInt8) (resolve : String → Option Ipv4) (r : List UInt8)
    (h : reply b resolve = some r) :
    ∃ q : Question b, parseQuestion b = some q ∧ WellFormed b resolve q r := by
  obtain ⟨s, q, answer, hbuilt⟩ := reply_built b resolve r h
  obtain ⟨hrest, hquestion⟩ := hbuilt.read
  have hlong := hbuilt.long
  refine ⟨q, hbuilt.parsed, ?_⟩
  constructor
  case inRange => exact ⟨q.past, q.within⟩
  case id =>
    rw [hbuilt.bytes, take_two b (by omega)]
    rfl
  case flags =>
    obtain ⟨asked, hasked, hsaid⟩ := flags_echoed b hlong
    refine ⟨asked, _, hasked, ?_, rfl⟩
    rw [hbuilt.bytes]
    exact hsaid _ _
  case question => exact hquestion
  case nscount =>
    rw [hbuilt.bytes]
    rfl
  case arcount =>
    rw [hbuilt.bytes]
    rfl
  case ancount =>
    rw [hbuilt.count]
    cases answer with
    | none => exact Or.inr rfl
    | some ip => exact Or.inl rfl
  case counted =>
    rw [hbuilt.counted]
    exact exists_congr hbuilt.given
  case record =>
    intro ip hip
    rw [hrest, (hbuilt.given ip).mpr hip]
    exact aRecord_read ip
  case bare =>
    intro hnone
    have hempty : r.drop q.qend = [] := by
      rw [hrest]
      cases ha : answer with
      | none => rfl
      | some ip => exact absurd ⟨ip, (hbuilt.given ip).mp ha⟩ hnone
    obtain ⟨q', -, -, -, hqend'⟩ := hquestion
    have hle := List.drop_eq_nil_iff.mp hempty
    have hwithin := q'.within
    omega

/-- A query for `broker.pai-sho` with an EDNS record behind the question. -/
def brokerQuery : List UInt8 :=
  [0x12, 0x34, 0x01, 0x00, 0x00, 0x01, 0x00, 0x00, 0x00, 0x00, 0x00, 0x01,
    6, 0x62, 0x72, 0x6F, 0x6B, 0x65, 0x72, 7, 0x70, 0x61, 0x69, 0x2D, 0x73, 0x68, 0x6F, 0,
    0x00, 0x01, 0x00, 0x01, 0, 0x00, 0x29, 0x10, 0x00, 0, 0, 0, 0, 0x00, 0x00]

def brokerTable (label : String) : Option Ipv4 :=
  if label = "broker" then some ⟨127, 0, 1, 5⟩ else none

theorem broker_reply_well_formed : ∃ r, reply brokerQuery brokerTable = some r ∧
    r.length = 48 ∧ ∃ q : Question brokerQuery, parseQuestion brokerQuery = some q ∧
      WellFormed brokerQuery brokerTable q r := by
  have hreply : (reply brokerQuery brokerTable).isSome = true := by decide +kernel
  obtain ⟨r, hr⟩ := Option.isSome_iff_exists.mp hreply
  refine ⟨r, hr, ?_, reply_well_formed brokerQuery brokerTable r hr⟩
  have hlength : (reply brokerQuery brokerTable).map List.length = some 48 := by decide +kernel
  rw [hr] at hlength
  exact Option.some.inj hlength

end PaiSho.Answers
