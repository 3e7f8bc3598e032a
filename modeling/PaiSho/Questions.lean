import PaiSho.Library.LengthPrefixed
import PaiSho.Resolver

/-!
# The question grammar

A packet is a header of twelve bytes, the labels of a name each behind its
length, a zero byte, the type and the class, and anything after that. The parser
reads exactly these packets, each in the one way it can be taken apart.
-/

set_option autoImplicit false

namespace PaiSho.Questions
open Library.LengthPrefixed
open Authorization (fromBeBytes)
open Resolver

structure Shape (b : List UInt8) where
  header : List UInt8
  labels : List (List UInt8)
  qtype : UInt8 × UInt8
  qclass : UInt8 × UInt8
  rest : List UInt8
  header_length : header.length = 12
  one_question : header[4]? = some 0 ∧ header[5]? = some 1
  fits : Fits 63 labels
  bytes : b = header ++ (blocks labels ++ 0::qtype.1::qtype.2::qclass.1::qclass.2::rest)

def Shape.qend {b : List UInt8} (s : Shape b) : ℕ := 12 + (blocks s.labels).length + 5

def Shape.name {b : List UInt8} (s : Shape b) : String := ".".intercalate (s.labels.map labelText)

theorem compression_bits (len : UInt8) : len &&& 0xC0 ≠ 0 ↔ 63 < len.toNat := by
  revert len
  decide +kernel

theorem parseLabels_blocks (before : List UInt8) (bs : List (List UInt8)) (rest : List UInt8)
    (labels : List String) (h : Fits 63 bs) :
    parseLabels (before ++ (blocks bs ++ 0::rest)) before.length labels =
      some (before.length + (blocks bs).length + 1, labels ++ bs.map labelText) := by
  induction bs generalizing before labels with
  | nil =>
    rw [parseLabels]
    simp
  | cons bytes bs ih =>
    obtain ⟨⟨hpos, hle⟩, hrest⟩ := (fits_cons 63 bytes bs).mp h
    have hlen := length_byte bytes (by omega)
    have hzero := length_byte_ne_zero bytes hpos (by omega)
    have hbits : ¬ (UInt8.ofNat bytes.length &&& 0xC0 ≠ 0) := by
      rw [compression_bits, hlen]
      omega
    have hfirst : (before ++ (blocks (bytes::bs) ++ 0::rest))[before.length]? =
        some (UInt8.ofNat bytes.length) := by
      rw [List.getElem?_append_right (le_refl _), Nat.sub_self, blocks_cons]
      rfl
    -- the packet again, with this label among the bytes already read
    have hsplit : before ++ (blocks (bytes::bs) ++ 0::rest) =
        (before ++ UInt8.ofNat bytes.length :: bytes) ++ (blocks bs ++ 0::rest) := by
      simp [blocks_cons]
    have hread : (before ++ (blocks (bytes::bs) ++ 0::rest)).extract (before.length+1)
        (before.length+1+bytes.length) = bytes := by
      rw [hsplit, List.append_cons, List.append_assoc]
      have hdrop : before.length + 1 = (before ++ [UInt8.ofNat bytes.length]).length := by simp
      rw [List.extract, hdrop, List.drop_left, Nat.add_sub_cancel_left, List.take_left]
    have hnext : before.length+1+bytes.length =
        (before ++ UInt8.ofNat bytes.length :: bytes).length := by
      simp
      omega
    have hin : before.length+1+bytes.length ≤
        (before ++ (blocks (bytes::bs) ++ 0::rest)).length := by
      rw [hsplit, hnext]
      simp
    rw [parseLabels, hfirst]
    dsimp only
    rw [if_neg hzero, if_neg hbits, hlen, if_pos hin, hread, hsplit, hnext, ih _ _ hrest]
    have hcount : (blocks (bytes::bs)).length = 1 + bytes.length + (blocks bs).length := by
      rw [blocks_cons]
      simp
      omega
    simp [hcount]
    omega

theorem parseLabels_reads (buf : List UInt8) (i : ℕ) (labels : List String) (j : ℕ)
    (out : List String) (h : parseLabels buf i labels = some (j, out)) :
    ∃ bs, Fits 63 bs ∧ buf.drop i = blocks bs ++ 0::buf.drop j ∧
      out = labels ++ bs.map labelText ∧ j = i + (blocks bs).length + 1 := by
  fun_induction parseLabels buf i labels with
  | case1 i labels hnone => cases h
  | case2 i labels hget =>
    obtain ⟨rfl, rfl⟩ := Prod.mk.inj (Option.some.inj h)
    obtain ⟨hlt, hzero⟩ := List.getElem?_eq_some_iff.mp hget
    refine ⟨[], by simp [Fits], ?_, by simp, by simp⟩
    rw [List.drop_eq_getElem_cons hlt, hzero]
    rfl
  | case3 i labels len hget hzero hbits => cases h
  | case4 i labels len hget hzero hbits hin ih =>
    obtain ⟨bs, hfits, hdrop, hout, hj⟩ := ih h
    obtain ⟨hlt, hfirst⟩ := List.getElem?_eq_some_iff.mp hget
    have hle : len.toNat ≤ 63 := by
      by_contra hgt
      exact hbits ((compression_bits len).mpr (by omega))
    have hpos : 1 ≤ len.toNat := by
      by_contra hnot
      apply hzero
      rw [← UInt8.toNat_inj, UInt8.toNat_zero]
      omega
    have hlen : (buf.extract (i+1) (i+1+len.toNat)).length = len.toNat := by
      rw [List.extract, List.length_take, List.length_drop]
      omega
    have hbyte : UInt8.ofNat (buf.extract (i+1) (i+1+len.toNat)).length = len := by
      rw [hlen, UInt8.ofNat_toNat]
    refine ⟨buf.extract (i+1) (i+1+len.toNat) :: bs, ?_, ?_, ?_, ?_⟩
    · rw [fits_cons, hlen]
      exact ⟨⟨hpos, hle⟩, hfits⟩
    · rw [blocks_cons, hbyte, List.cons_append, List.append_assoc, ← hdrop,
        List.drop_eq_getElem_cons hlt, hfirst]
      congr 1
      have hsplit := List.take_append_drop len.toNat (buf.drop (i+1))
      rw [List.drop_drop] at hsplit
      rw [List.extract, Nat.add_sub_cancel_left, hsplit]
    · rw [hout]
      simp
    · rw [blocks_cons, hj, List.length_cons, List.length_append, hlen]
      omega
  | case5 i labels len hget hzero hbits hin => cases h

theorem fromBeBytes_one (hi lo : UInt8) : fromBeBytes hi lo = 1 ↔ hi = 0 ∧ lo = 1 := by
  have hhi := hi.toNat_lt
  have hlo := lo.toNat_lt
  rw [← UInt8.toNat_inj, ← UInt8.toNat_inj, Fin.ext_iff]
  show hi.toNat*256+lo.toNat = 1 ↔ hi.toNat = 0 ∧ lo.toNat = 1
  omega

structure Parsed (b : List UInt8) (q : Question b) (i : ℕ) (labels : List String) (hi lo : UInt8) :
    Prop where
  count : b[4]? = some 0 ∧ b[5]? = some 1
  name : parseLabels b 12 [] = some (i, labels)
  qtype : b[i]? = some hi ∧ b[i+1]? = some lo
  name_eq : q.name = ".".intercalate labels
  qtype_eq : q.qtype = fromBeBytes hi lo
  qend_eq : q.qend = i+4

theorem parse_some (b : List UInt8) (q : Question b) (h : parseQuestion b = some q) :
    ∃ i labels hi lo, Parsed b q i labels hi lo := by
  unfold parseQuestion at h
  split_ifs at h with hlong hcount
  have hone := (fromBeBytes_one _ _).mp (not_not.mp hcount)
  split at h
  · cases h
  · rename_i i labels hlabels
    split at h
    · rename_i hi lo hhi hlo
      split_ifs at h with hend
      obtain rfl := Option.some.inj h
      refine ⟨i, labels, hi, lo, ⟨?_, hlabels, ⟨hhi, hlo⟩, rfl, rfl, rfl⟩⟩
      rw [List.getElem?_eq_getElem (by omega), List.getElem?_eq_getElem (by omega), hone.1, hone.2]
      exact ⟨rfl, rfl⟩
    · cases h

theorem parse_exists (b : List UInt8) (i : ℕ) (labels : List String) (hi lo : UInt8)
    (hcount : b[4]? = some 0 ∧ b[5]? = some 1) (hlabels : parseLabels b 12 [] = some (i, labels))
    (hqtype : b[i]? = some hi ∧ b[i+1]? = some lo) (hend : i+4 ≤ b.length) :
    ∃ q, parseQuestion b = some q ∧ Parsed b q i labels hi lo := by
  have hpast := parseLabels_lt b 12 [] i labels hlabels
  have hlong : ¬ b.length < 12 := by omega
  have hone : ¬ fromBeBytes b[4] b[5] ≠ 1 := by
    rw [not_not, fromBeBytes_one]
    exact ⟨(List.getElem?_eq_some_iff.mp hcount.1).2, (List.getElem?_eq_some_iff.mp hcount.2).2⟩
  have hshort : ¬ b.length < i+4 := by omega
  refine ⟨⟨".".intercalate labels, fromBeBytes hi lo, i+4, by omega, hend⟩, ?_,
    ⟨hcount, hlabels, hqtype, rfl, rfl, rfl⟩⟩
  unfold parseQuestion
  rw [dif_neg hlong, if_neg hone]
  split
  · rename_i hnone
    cases hlabels.symm.trans hnone
  · rename_i i' labels' hlabels'
    obtain ⟨rfl, rfl⟩ := Prod.mk.inj (Option.some.inj (hlabels.symm.trans hlabels'))
    simp only [hqtype.1, hqtype.2]
    rw [dif_neg hshort]

theorem parse_of_shape (b : List UInt8) (s : Shape b) :
    ∃ q, parseQuestion b = some q ∧ q.name = s.name ∧
      q.qtype = fromBeBytes s.qtype.1 s.qtype.2 ∧ q.qend = s.qend := by
  obtain ⟨header, labels, ⟨t₁, t₂⟩, ⟨c₁, c₂⟩, rest, hlen, hone, hfits, rfl⟩ := s
  have hlabels := parseLabels_blocks header labels (t₁::t₂::c₁::c₂::rest) [] hfits
  rw [hlen, List.nil_append] at hlabels
  have hat : ∀ n, (header ++ (blocks labels ++ 0::t₁::t₂::c₁::c₂::rest))[
      12 + (blocks labels).length + 1 + n]? = (t₁::t₂::c₁::c₂::rest)[n]? := by
    intro n
    rw [List.getElem?_append_right (by omega), List.getElem?_append_right (by omega), hlen]
    have hn : 12 + (blocks labels).length + 1 + n - 12 - (blocks labels).length = n + 1 := by omega
    rw [hn, List.getElem?_cons_succ]
  obtain ⟨q, hq, hparsed⟩ := parse_exists _ _ _ t₁ t₂
    (by rw [List.getElem?_append_left (by omega), List.getElem?_append_left (by omega)]; exact hone)
    hlabels ⟨hat 0, hat 1⟩ (by simp [hlen]; omega)
  exact ⟨q, hq, hparsed.name_eq, hparsed.qtype_eq, hparsed.qend_eq⟩

theorem shape_of_parse (b : List UInt8) (q : Question b) (h : parseQuestion b = some q) :
    Nonempty (Shape b) := by
  obtain ⟨i, labels, hi, lo, hparsed⟩ := parse_some b q h
  obtain ⟨bs, hfits, hdrop, -, hi'⟩ := parseLabels_reads b 12 [] i labels hparsed.name
  have hwithin := q.within
  rw [hparsed.qend_eq] at hwithin
  have hpast := parseLabels_lt b 12 [] i labels hparsed.name
  -- the bytes after the labels, one by one up to the end of the question
  have htail : b.drop i = hi::lo::b[i+2]::b[i+3]::b.drop (i+4) := by
    rw [List.drop_eq_getElem_cons (by omega), List.drop_eq_getElem_cons (by omega),
      List.drop_eq_getElem_cons (by omega), List.drop_eq_getElem_cons (by omega),
      (List.getElem?_eq_some_iff.mp hparsed.qtype.1).2,
      (List.getElem?_eq_some_iff.mp hparsed.qtype.2).2]
  refine ⟨⟨b.take 12, bs, (hi, lo), (b[i+2], b[i+3]), b.drop (i+4), ?_, ?_, hfits, ?_⟩⟩
  · rw [List.length_take]
    omega
  · rw [List.getElem?_take_of_lt (by omega), List.getElem?_take_of_lt (by omega)]
    exact hparsed.count
  · rw [← htail, ← hdrop, List.take_append_drop]

theorem shape_unique (b : List UInt8) (s s' : Shape b) : s = s' := by
  obtain ⟨header, labels, ⟨t₁, t₂⟩, ⟨c₁, c₂⟩, rest, hlen, hone, hfits, hb⟩ := s
  obtain ⟨header', labels', ⟨t₁', t₂'⟩, ⟨c₁', c₂'⟩, rest', hlen', hone', hfits', hb'⟩ := s'
  obtain ⟨rfl, hquestion⟩ := List.append_inj (hb.symm.trans hb') (hlen.trans hlen'.symm)
  obtain ⟨rfl, htail⟩ := blocks_unique 63 (by omega) labels labels' _ _ hfits hfits' hquestion
  obtain ⟨rfl, rfl, rfl, rfl, rfl⟩ : t₁ = t₁' ∧ t₂ = t₂' ∧ c₁ = c₁' ∧ c₂ = c₂' ∧ rest = rest' := by
    simpa using htail
  rfl

/-- The parser accepts exactly the packets that can be taken apart, which each
can in one way, and reads them as taken apart. -/
theorem accepts_its_grammar (b : List UInt8) :
    ((parseQuestion b).isSome = true ↔ Nonempty (Shape b)) ∧ (∀ s s' : Shape b, s = s') ∧
      ∀ (s : Shape b) (q : Question b), parseQuestion b = some q →
        q.name = s.name ∧ q.qtype = fromBeBytes s.qtype.1 s.qtype.2 ∧ q.qend = s.qend := by
  refine ⟨⟨fun h => ?_, fun ⟨s⟩ => ?_⟩, shape_unique b, fun s q hq => ?_⟩
  · obtain ⟨q, hq⟩ := Option.isSome_iff_exists.mp h
    exact shape_of_parse b q hq
  · obtain ⟨q, hq, -⟩ := parse_of_shape b s
    rw [hq]
    rfl
  · obtain ⟨q', hq', hread⟩ := parse_of_shape b s
    obtain rfl := Option.some.inj (hq.symm.trans hq')
    exact hread

end PaiSho.Questions
