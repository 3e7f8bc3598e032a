import PaiSho.Answers
import PaiSho.Library.EncodedText
import PaiSho.Lookups

/-!
# Labels on the wire and labels in text

The labels of a question are read as text and joined by dots before the suffix is
cut off. A dot inside a label then looks like one between two labels, and bytes
that are no UTF-8 look like replacement characters. Apart from these, a question
that is answered has two labels, and the table is asked for the first.
-/

set_option autoImplicit false

namespace PaiSho.WireLabels
open Library.LossyText Library.LengthPrefixed Library.EncodedText
open Authorization (fromBeBytes)
open SurfaceManager (Ipv4 PeerManager)
open Resolver Questions Answers
open Lookups (Spells hostLabel_suffixed)
open NameMap (resolveV4 handleQuery_eq)

def dot : UInt8 := 0x2E

def Answered (r : List UInt8) (ip : Ipv4) : Prop :=
  field r 6 = some 1 ∧
    ∃ q : Question r, parseQuestion r = some q ∧ OneRecord (r.drop q.qend) ip

/-- Two labels, the second the suffix in some letter case, and the address is the
table's for the first. -/
def ByItsLabel {b : List UInt8} (s : Shape b) (table : String → Option Ipv4) (ip : Ipv4) : Prop :=
  ∃ host zone text, s.labels = [host, zone] ∧ Spells zone suffix ∧ host = utf8 text ∧
    table (String.ofList (toAsciiLowercase text)) = some ip

def AnswersItsLabel (respond : List UInt8 → Option (List UInt8)) (table : String → Option Ipv4)
    (b : List UInt8) : Prop :=
  ∀ r ip, respond b = some r → Answered r ip → ∃ s : Shape b, ByItsLabel s table ip

structure Single (host zone : List UInt8) : Prop where
  nonempty : host ≠ []
  single : dot ∉ host
  suffix : Spells zone suffix

/-- An A question is not one label with the dot inside it, and if it is two under
the suffix, the first is text. -/
def Plain (b : List UInt8) : Prop :=
  ∀ s : Shape b, s.qtype = (0, 1) → ∀ host zone, Single host zone →
    s.labels ≠ [host ++ dot::zone] ∧ (s.labels = [host, zone] → ∃ text, host = utf8 text)

def Asked {b : List UInt8} (s : Shape b) (label : String) : Prop :=
  s.qtype = (0, 1) ∧ hostLabel s.name = some label

def folded (label : List UInt8) : List Char := toAsciiLowercase (fromUtf8Lossy label)

theorem folded_eq_nil (label : List UInt8) : folded label = [] ↔ label = [] := by
  unfold folded toAsciiLowercase
  rw [List.map_eq_nil_iff]
  constructor
  · exact decode_eq_nil label
  · rintro rfl
    rfl

theorem dot_mem_folded (label : List UInt8) : '.' ∈ folded label ↔ dot ∈ label := by
  rw [folded, mem_toAsciiLowercase_dot]
  exact mem_fromUtf8Lossy label dot (by decide)

theorem folded_split (label : List UInt8) (pre post : List Char) :
    folded label = pre ++ '.' :: post ↔
      ∃ host zone, label = host ++ dot::zone ∧ folded host = pre ∧ folded zone = post := by
  constructor
  · intro h
    obtain ⟨text, rest, htext, hpre, hrest⟩ := List.map_eq_append_iff.mp h
    obtain ⟨c, text', rfl, hc, hpost⟩ := List.map_eq_cons_iff.mp hrest
    obtain rfl := toLower_eq_dot c hc
    obtain ⟨host, zone, hlabel, hhost, hzone⟩ :=
      fromUtf8Lossy_split label text text' '.' (by decide) htext
    refine ⟨host, zone, hlabel, ?_, ?_⟩
    · rw [folded, hhost]
      exact hpre
    · rw [folded, hzone]
      exact hpost
  · rintro ⟨host, zone, rfl, rfl, rfl⟩
    rw [folded, fromUtf8Lossy_append_ascii host zone dot (by decide), toAsciiLowercase,
      List.map_append, List.map_cons]
    rfl

theorem folded_utf8 (text : List Char) : folded (utf8 text) = toAsciiLowercase text := by
  rw [folded, fromUtf8Lossy_utf8]

theorem spells_iff (zone : List UInt8) : Spells zone suffix ↔ folded zone = suffix.toList := by
  have hsuffix : toAsciiLowercase suffix.toList = suffix.toList := by decide
  constructor
  · rintro ⟨text, hascii, rfl, hlower⟩
    rw [folded, fromUtf8Lossy_ascii text hascii, hlower, hsuffix]
  · intro h
    have hascii : Ascii (fromUtf8Lossy zone) := by
      intro c hc
      have hin : c.toLower ∈ suffix.toList := by
        rw [← h]
        exact List.mem_map_of_mem hc
      apply toLower_wide
      revert hin
      generalize c.toLower = d
      simp only [suffix]
      intro hin
      fin_cases hin <;> decide
    exact ⟨_, hascii, fromUtf8Lossy_eq_ascii zone _ hascii rfl, h.trans hsuffix.symm⟩

theorem suffix_single : '.' ∉ suffix.toList := by decide

theorem hostLabel_iff (name label : String) : hostLabel name = some label ↔
    name.toList = label.toList ++ '.' :: suffix.toList ∧ label.toList ≠ [] ∧ '.' ∉ label.toList := by
  constructor
  · intro h
    unfold hostLabel at h
    split at h
    · cases h
    · rename_i rest hrest
      obtain ⟨before, hbefore, hpoint⟩ := Option.bind_eq_some_iff.mp hrest
      obtain ⟨_, hname, hsuffix⟩ := List.dropSuffix?_eq_some_iff.mp hbefore
      obtain ⟨_, rfl, hdot⟩ := List.dropSuffix?_eq_some_iff.mp hpoint
      obtain rfl := beq_iff_eq.mp hsuffix
      obtain rfl := beq_iff_eq.mp hdot
      split_ifs at h with hbad
      obtain rfl := Option.some.inj h
      rw [Bool.or_eq_true, not_or] at hbad
      rw [String.toList_ofList]
      refine ⟨?_, ?_, ?_⟩
      · rw [hname, List.append_assoc]
        rfl
      · simpa using hbad.1
      · simpa using hbad.2
  · rintro ⟨hname, hne, hdot⟩
    have htext : name = String.ofList label.toList ++ "." ++ suffix := by
      rw [← String.toList_inj, hname]
      simp
    rw [htext, hostLabel_suffixed label.toList hne hdot, String.ofList_toList]

theorem name_toList {b : List UInt8} (s : Shape b) :
    s.name.toList = ['.'].intercalate (s.labels.map folded) := by
  have htext : (String.toList ∘ labelText) = folded := by
    funext label
    exact String.toList_ofList
  rw [Shape.name, String.toList_intercalate, List.map_map, htext]
  rfl

theorem joined_iff (labels : List (List UInt8)) (pre : List Char) (hdot : '.' ∉ pre) :
    ['.'].intercalate (labels.map folded) = pre ++ '.' :: suffix.toList ↔
      ∃ host zone, (labels = [host, zone] ∨ labels = [host ++ dot::zone]) ∧ folded host = pre ∧
        folded zone = suffix.toList := by
  constructor
  · intro h
    match labels, h with
    | [], h => simp at h
    | [label], h =>
      rw [List.map_singleton, List.intercalate_singleton] at h
      obtain ⟨host, zone, rfl, hhost, hzone⟩ := (folded_split label pre _).mp h
      exact ⟨host, zone, Or.inr rfl, hhost, hzone⟩
    | host::zone::more, h =>
      rw [List.map_cons, List.map_cons, List.intercalate_cons_cons, List.append_assoc,
        List.singleton_append] at h
      obtain ⟨hhost, -, hzone⟩ :=
        (List.append_cons_inj_of_notMem hdot suffix_single).mp h.symm
      cases more with
      | nil =>
        rw [List.map_nil, List.intercalate_singleton] at hzone
        exact ⟨host, zone, Or.inl rfl, hhost.symm, hzone.symm⟩
      | cons third more =>
        -- a third label would bring a second dot, after the one before the suffix
        rw [List.map_cons, List.intercalate_cons_cons] at hzone
        refine absurd ?_ suffix_single
        rw [hzone]
        simp
  · rintro ⟨host, zone, rfl | rfl, rfl, hzone⟩
    · rw [← hzone]
      simp [List.intercalate_cons_cons]
    · rw [List.map_singleton, List.intercalate_singleton, ← hzone]
      exact (folded_split _ _ _).mpr ⟨host, zone, rfl, rfl, rfl⟩

theorem hostLabel_name {b : List UInt8} (s : Shape b) (label : String) :
    hostLabel s.name = some label ↔ ∃ host zone, Single host zone ∧
      (s.labels = [host, zone] ∨ s.labels = [host ++ dot::zone]) ∧
      label = String.ofList (folded host) := by
  rw [hostLabel_iff, name_toList]
  constructor
  · rintro ⟨hname, hne, hdot⟩
    obtain ⟨host, zone, hlabels, hhost, hzone⟩ := (joined_iff s.labels _ hdot).mp hname
    rw [← hhost] at hne hdot
    refine ⟨host, zone, ⟨?_, ?_, (spells_iff zone).mpr hzone⟩, hlabels, ?_⟩
    · exact fun h => hne ((folded_eq_nil host).mpr h)
    · exact fun h => hdot ((dot_mem_folded host).mpr h)
    · rw [hhost, String.ofList_toList]
  · rintro ⟨host, zone, hsingle, hlabels, rfl⟩
    rw [String.toList_ofList]
    have hdot : '.' ∉ folded host := by
      rw [dot_mem_folded]
      exact hsingle.single
    refine ⟨?_, ?_, hdot⟩
    · exact (joined_iff s.labels _ hdot).mpr
        ⟨host, zone, hlabels, rfl, (spells_iff zone).mp hsingle.suffix⟩
    · rw [Ne, folded_eq_nil]
      exact hsingle.nonempty

theorem oneRecord_aRecord (ip ip' : Ipv4) (h : OneRecord (aRecord ip) ip') : ip' = ip := by
  obtain ⟨record, hread, -, -, -, hip⟩ := h
  obtain ⟨rfl, -⟩ := Prod.mk.inj (Option.some.inj hread)
  exact (Option.some.inj hip).symm

theorem answered_iff {b r : List UInt8} {resolve : String → Option Ipv4} {s : Shape b}
    {q : Question b} {answer : Option Ipv4} (h : Built b resolve r s q answer) (ip : Ipv4) :
    Answered r ip ↔ answer = some ip := by
  obtain ⟨hrest, q', hq', -, -, hqend⟩ := h.read
  constructor
  · rintro ⟨hcount, q'', hq'', hrecord⟩
    obtain rfl := Option.some.inj (hq'.symm.trans hq'')
    obtain ⟨ip', rfl⟩ := h.counted.mp hcount
    rw [hqend, hrest] at hrecord
    rw [oneRecord_aRecord ip' ip hrecord]
  · rintro rfl
    refine ⟨h.counted.mpr ⟨ip, rfl⟩, q', hq', ?_⟩
    rw [hqend, hrest]
    exact aRecord_read ip

theorem reply_answered (b r : List UInt8) (table : String → Option Ipv4)
    (h : reply b table = some r) (ip : Ipv4) :
    Answered r ip ↔ ∃ s : Shape b, ∃ label, Asked s label ∧ table label = some ip := by
  obtain ⟨s, q, answer, hbuilt⟩ := reply_built b table r h
  rw [answered_iff hbuilt, hbuilt.given, Given, hbuilt.name, hbuilt.qtype, typeA, fromBeBytes_one]
  have htype : s.qtype = (0, 1) ↔ s.qtype.1 = 0 ∧ s.qtype.2 = 1 := Prod.ext_iff
  constructor
  · rintro ⟨hqtype, label, hlabel, hip⟩
    exact ⟨s, label, ⟨htype.mpr hqtype, hlabel⟩, hip⟩
  · rintro ⟨s', label, ⟨hqtype, hlabel⟩, hip⟩
    obtain rfl := shape_unique b s s'
    exact ⟨htype.mp hqtype, label, hlabel, hip⟩

theorem reply_of_shape (b : List UInt8) (s : Shape b) (table : String → Option Ipv4) :
    ∃ r, reply b table = some r :=
  Option.isSome_iff_exists.mp ((Replies.reply_isSome b table).mpr ⟨s⟩)

theorem its_label_of_plain (b : List UInt8) (h : Plain b) (table : String → Option Ipv4) :
    AnswersItsLabel (reply · table) table b := by
  intro r ip hr hanswered
  obtain ⟨s, label, ⟨hqtype, hlabel⟩, hip⟩ := (reply_answered b r table hr ip).mp hanswered
  obtain ⟨host, zone, hsingle, hlabels, rfl⟩ := (hostLabel_name s label).mp hlabel
  obtain ⟨hapart, htext⟩ := h s hqtype host zone hsingle
  have htwo := hlabels.resolve_right hapart
  obtain ⟨text, rfl⟩ := htext htwo
  rw [folded_utf8] at hip
  exact ⟨s, utf8 text, zone, text, htwo, hsingle.suffix, rfl, hip⟩

theorem plain_of_its_label (b : List UInt8) (s : Shape b) (label : String) (hasked : Asked s label)
    (table : String → Option Ipv4) (ip : Ipv4) (hip : table label = some ip)
    (h : AnswersItsLabel (reply · table) table b) : Plain b := by
  obtain ⟨r, hr⟩ := reply_of_shape b s table
  obtain ⟨s₀, host₀, zone₀, text, htwo, -, htext, -⟩ :=
    h r ip hr ((reply_answered b r table hr ip).mpr ⟨s, label, hasked, hip⟩)
  intro s' _ host zone _
  obtain rfl := shape_unique b s₀ s'
  rw [htwo]
  constructor
  · simp
  · intro hlabels
    obtain ⟨rfl, -⟩ := List.cons.inj hlabels
    exact ⟨text, htext⟩

/-- The table has no entry for what the question is looked up as. -/
def Unlisted (b : List UInt8) (table : String → Option Ipv4) : Prop :=
  ∀ (s : Shape b) (label : String), Asked s label → table label = none

theorem answers_its_label_iff (b : List UInt8) (table : String → Option Ipv4) :
    AnswersItsLabel (reply · table) table b ↔ Plain b ∨ Unlisted b table := by
  constructor
  · intro h
    by_cases hunlisted : Unlisted b table
    · exact Or.inr hunlisted
    · unfold Unlisted at hunlisted
      push Not at hunlisted
      obtain ⟨s, label, hasked, hentry⟩ := hunlisted
      obtain ⟨ip, hip⟩ := Option.ne_none_iff_exists'.mp hentry
      exact Or.inl (plain_of_its_label b s label hasked table ip hip h)
  · rintro (hplain | hunlisted)
    · exact its_label_of_plain b hplain table
    · intro r ip hr hanswered
      obtain ⟨s, label, hasked, hip⟩ := (reply_answered b r table hr ip).mp hanswered
      cases (hunlisted s label hasked).symm.trans hip

/-- Two questions that differ in more than letter case and are looked up alike. -/
def Confused {b b' : List UInt8} (s : Shape b) (s' : Shape b') : Prop :=
  (∃ label, Asked s label ∧ Asked s' label) ∧
    s.labels.map (List.map lowerByte) ≠ s'.labels.map (List.map lowerByte)

theorem spells_lowerByte (zone : List UInt8) (name : String) (h : Spells zone name) :
    zone.map lowerByte = utf8 (toAsciiLowercase name.toList) := by
  obtain ⟨text, hascii, rfl, hlower⟩ := h
  rw [← utf8_ascii text hascii, ← utf8_toAsciiLowercase, hlower]

theorem plain_labels (b : List UInt8) (h : Plain b) (s : Shape b) (label : String)
    (hasked : Asked s label) : s.labels.map (List.map lowerByte) =
      [utf8 label.toList, utf8 (toAsciiLowercase suffix.toList)] := by
  obtain ⟨host, zone, hsingle, hlabels, rfl⟩ := (hostLabel_name s label).mp hasked.2
  obtain ⟨hapart, htext⟩ := h s hasked.1 host zone hsingle
  have htwo := hlabels.resolve_right hapart
  obtain ⟨text, rfl⟩ := htext htwo
  rw [htwo, folded_utf8, String.toList_ofList, utf8_toAsciiLowercase,
    ← spells_lowerByte zone suffix hsingle.suffix]
  rfl

theorem plain_not_confused {b b' : List UInt8} (h : Plain b) (h' : Plain b') (s : Shape b)
    (s' : Shape b') : ¬ Confused s s' := by
  rintro ⟨⟨label, hasked, hasked'⟩, hne⟩
  apply hne
  rw [plain_labels b h s label hasked, plain_labels b' h' s' label hasked']

/-- Both resolvers answer a question by its one label under the suffix exactly when
it is plain or is not in the table, and take no two plain questions for each
other. -/
theorem its_own_label_iff {K : Type} [LinearOrder K] (b : List UInt8) :
    (∀ table, AnswersItsLabel (reply · table) table b ↔ Plain b ∨ Unlisted b table) ∧
      (∀ (m : PeerManager K) (visit : List K),
        AnswersItsLabel (handleQuery m visit) (resolveV4 m visit) b ↔
          Plain b ∨ Unlisted b (resolveV4 m visit)) ∧
      ∀ (b' : List UInt8) (s : Shape b) (s' : Shape b'), Plain b → Plain b' → ¬ Confused s s' := by
  refine ⟨answers_its_label_iff b, fun m visit => ?_, fun b' s s' h h' => ?_⟩
  · rw [handleQuery_eq]
    exact answers_its_label_iff b _
  · exact plain_not_confused h h' s s'

/-- A query whose one label is the fourteen bytes `broker.pai-sho`. -/
def dottedQuery : List UInt8 :=
  [0x12, 0x34, 0x01, 0x00, 0x00, 0x01, 0x00, 0x00, 0x00, 0x00, 0x00, 0x00,
    14, 0x62, 0x72, 0x6F, 0x6B, 0x65, 0x72, 0x2E, 0x70, 0x61, 0x69, 0x2D, 0x73, 0x68, 0x6F, 0,
    0x00, 0x01, 0x00, 0x01]

/-- The dotted label is answered, and looked up as the two labels are. -/
theorem dotted_label_answered :
    (∃ r, reply dottedQuery brokerTable = some r ∧ Answered r ⟨127, 0, 1, 5⟩) ∧
      ¬ AnswersItsLabel (reply · brokerTable) brokerTable dottedQuery ∧
      ∃ (s : Shape dottedQuery) (s' : Shape brokerQuery), Confused s s' := by
  let s : Shape dottedQuery := ⟨dottedQuery.take 12, [(dottedQuery.drop 13).take 14], (0, 1), (0, 1),
    [], rfl, ⟨rfl, rfl⟩, by simp [Fits, dottedQuery], rfl⟩
  let s' : Shape brokerQuery := ⟨brokerQuery.take 12,
    [(brokerQuery.drop 13).take 6, (brokerQuery.drop 20).take 7], (0, 1), (0, 1),
    brokerQuery.drop 32, rfl, ⟨rfl, rfl⟩, by simp [Fits, brokerQuery], rfl⟩
  have hasked : Asked s "broker" := ⟨rfl, by decide +kernel⟩
  have hasked' : Asked s' "broker" := ⟨rfl, by decide +kernel⟩
  obtain ⟨r, hr⟩ := reply_of_shape dottedQuery s brokerTable
  have hanswered : Answered r ⟨127, 0, 1, 5⟩ :=
    (reply_answered _ r _ hr _).mpr ⟨s, "broker", hasked, rfl⟩
  refine ⟨⟨r, hr, hanswered⟩, fun h => ?_, s, s', ⟨"broker", hasked, hasked'⟩, by decide⟩
  obtain ⟨s'', host, zone, text, htwo, -⟩ := h r _ hr hanswered
  obtain rfl := shape_unique dottedQuery s s''
  cases htwo

end PaiSho.WireLabels
