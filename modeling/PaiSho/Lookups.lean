import PaiSho.NameMap
import PaiSho.Replies

/-!
# Looking a name up

The parser folds the labels of a question to lower case, and the name is then
looked up as it stands in the tables. These keep names as they were typed, so a
name is found under every spelling when it has no upper-case letter itself, and
under none otherwise.
-/

set_option autoImplicit false

namespace PaiSho.Lookups
open Library.LossyText Library.LengthPrefixed Library.Traces
open Authorization (fromBeBytes)
open SurfaceManager SurfaceSteps SurfaceRestore SurfaceOutcomes
open Resolver Questions Replies
open Names (nameOf)
open NameMap

structure Askable (name : String) : Prop where
  nonempty : name.toList ≠ []
  fits : name.toList.length ≤ 63
  ascii : Ascii name.toList
  single : '.' ∉ name.toList

def Lower (name : String) : Prop := ∀ c ∈ name.toList, c.isUpper = false

def lowered (name : String) : String := String.ofList (toAsciiLowercase name.toList)

theorem lowered_eq_self (name : String) : lowered name = name ↔ Lower name := by
  unfold lowered Lower
  rw [← toAsciiLowercase_eq_self]
  constructor
  · intro h
    rw [← String.toList_inj, String.toList_ofList] at h
    exact h
  · intro h
    rw [h, String.ofList_toList]

def Spells (label : List UInt8) (name : String) : Prop :=
  ∃ text, Ascii text ∧ label = asciiBytes text ∧
    toAsciiLowercase text = toAsciiLowercase name.toList

structure Asks {b : List UInt8} (s : Shape b) (name : String) : Prop where
  labels : ∃ host zone, s.labels = [host, zone] ∧ Spells host name ∧ Spells zone suffix
  qtype : s.qtype = (0, 1)

structure Answers {b : List UInt8} (s : Shape b) (v4 : Ipv4) (r : List UInt8) : Prop where
  id : r.take 2 = b.take 2
  count : r[6]? = some 0 ∧ r[7]? = some 1
  body : r.drop 12 = blocks s.labels ++ [0, s.qtype.1, s.qtype.2, s.qclass.1, s.qclass.2] ++
    aRecord v4

theorem labelText_spells (label : List UInt8) (name : String) (h : Spells label name) :
    labelText label = lowered name := by
  obtain ⟨text, hascii, rfl, hlower⟩ := h
  rw [labelText, fromUtf8Lossy_ascii text hascii, hlower, lowered]

theorem hostLabel_suffixed (rest : List Char) (hne : rest ≠ []) (hdot : '.' ∉ rest) :
    hostLabel (String.ofList rest ++ "." ++ suffix) = some (String.ofList rest) := by
  have hsuffix : (String.ofList rest ++ "." ++ suffix).toList.dropSuffix? suffix.toList =
      some (rest ++ ['.']) := by
    rw [List.dropSuffix?_eq_some_iff]
    exact ⟨suffix.toList, by simp, by simp⟩
  have hpoint : (rest ++ ['.']).dropSuffix? ['.'] = some rest := by
    rw [List.dropSuffix?_eq_some_iff]
    exact ⟨['.'], rfl, rfl⟩
  have hempty : rest.isEmpty = false := by simpa using hne
  unfold hostLabel
  rw [hsuffix, Option.bind_some, hpoint]
  simp [hempty, hdot]

theorem reply_asked (b : List UInt8) (s : Shape b) (name : String) (hname : Askable name)
    (h : Asks s name) (table : String → Option Ipv4) :
    ∃ past within, reply b table = some (buildReply b s.qend past within (table (lowered name))) := by
  obtain ⟨q, hq, hread, hqtype, hqend⟩ := parse_of_shape b s
  obtain ⟨host, zone, hlabels, hhost, hzone⟩ := h.labels
  have hsuffix : lowered suffix = suffix := by decide +kernel
  have hlabel : hostLabel q.name = some (lowered name) := by
    have htext : q.name = lowered name ++ "." ++ suffix := by
      rw [hread, Shape.name, hlabels, ← hsuffix, ← labelText_spells zone suffix hzone,
        ← labelText_spells host name hhost]
      rfl
    rw [htext]
    apply hostLabel_suffixed
    · simpa [toAsciiLowercase] using hname.nonempty
    · rw [mem_toAsciiLowercase_dot]
      exact hname.single
  have htype : q.qtype = typeA := by
    rw [hqtype, h.qtype]
    rfl
  have hpast := q.past
  have hwithin := q.within
  rw [hqend] at hpast hwithin
  refine ⟨hpast, hwithin, ?_⟩
  unfold reply
  rw [hq]
  simp only [htype, ↓reduceIte, hlabel, Option.bind_some, hqend]

theorem reply_answers (b : List UInt8) (s : Shape b) (name : String) (hname : Askable name)
    (h : Asks s name) (table : String → Option Ipv4) (v4 : Ipv4)
    (hfound : table (lowered name) = some v4) :
    ∃ r, reply b table = some r ∧ Answers s v4 r := by
  obtain ⟨past, within, hr⟩ := reply_asked b s name hname h table
  rw [hfound] at hr
  refine ⟨_, hr, ?_, ⟨rfl, rfl⟩, ?_⟩
  · rw [take_two b (by omega)]
    rfl
  · unfold buildReply
    rw [question_bytes]
    rfl

theorem reply_unanswered (b : List UInt8) (s : Shape b) (name : String) (hname : Askable name)
    (h : Asks s name) (table : String → Option Ipv4) (v4 : Ipv4)
    (hnone : table (lowered name) = none) (r : List UInt8) (hr : reply b table = some r) :
    ¬ Answers s v4 r := by
  intro hanswers
  obtain ⟨past, within, hr'⟩ := reply_asked b s name hname h table
  rw [hnone] at hr'
  obtain rfl := Option.some.inj (hr.symm.trans hr')
  have hcount := hanswers.count.2
  cases hcount

def question (name : String) : List UInt8 :=
  [0x12, 0x34, 0x01, 0x00, 0x00, 0x01, 0x00, 0x00, 0x00, 0x00, 0x00, 0x00] ++
    (blocks [asciiBytes name.toList, asciiBytes suffix.toList] ++ [0, 0, 1, 0, 1])

theorem question_asks (name : String) (hname : Askable name) :
    ∃ s : Shape (question name), Asks s name := by
  have hlen := List.length_pos_iff.mpr hname.nonempty
  have hfits : Fits 63 [asciiBytes name.toList, asciiBytes suffix.toList] := by
    rw [fits_cons, fits_cons]
    refine ⟨⟨?_, ?_⟩, ⟨by decide, by decide⟩, by simp [Fits]⟩
    · rw [asciiBytes, List.length_map]
      exact hlen
    · simpa [asciiBytes] using hname.fits
  refine ⟨⟨_, [asciiBytes name.toList, asciiBytes suffix.toList], (0, 1), (0, 1), [], ?_, ?_, hfits,
    rfl⟩, ⟨_, _, rfl, ⟨_, hname.ascii, rfl, rfl⟩, ⟨_, ?_, rfl, rfl⟩⟩, rfl⟩
  · rfl
  · exact ⟨rfl, rfl⟩
  · simp [Ascii, suffix]

section
variable {K : Type} [LinearOrder K] (parse : String → Option K) (display : K → String)

/-- The peer's surface carries the name, and nothing else does. -/
structure Carries (m : PeerManager K) (key : K) (name : String) (v4 : Ipv4) : Prop where
  surface : surfaceOf m key = some ⟨.v4 v4, some name⟩
  alone : ∀ k surface, k ≠ key → surfaceOf m k = some surface → surface.name ≠ some name
  foreign : m.config.name ≠ some name

/-- Every A query for the name, in any letter case, gets the address. -/
def Found (respond : List UInt8 → Option (List UInt8)) (name : String) (v4 : Ipv4) : Prop :=
  ∀ b (s : Shape b), Asks s name → ∃ r, respond b = some r ∧ Answers s v4 r

theorem found_of_table (name : String) (hname : Askable name) (hlower : Lower name)
    (table : String → Option Ipv4) (v4 : Ipv4) (h : table name = some v4) :
    Found (reply · table) name v4 := by
  intro b s hasks
  apply reply_answers b s name hname hasks
  rw [(lowered_eq_self name).mpr hlower, h]

theorem not_found_of_table (name : String) (hname : Askable name)
    (table : String → Option Ipv4) (v4 : Ipv4) (h : table (lowered name) = none) :
    ¬ Found (reply · table) name v4 := by
  intro hfound
  obtain ⟨s, hasks⟩ := question_asks name hname
  obtain ⟨r, hr, hanswers⟩ := hfound _ s hasks
  exact reply_unanswered _ s name hname hasks table v4 h r hr hanswers

theorem carries_resolved (m : PeerManager K) (key : K) (name : String) (v4 : Ipv4)
    (h : Carries m key name v4) (visit : List K) (hvisit : ∀ k, k ∈ visit ↔ k ∈ m.peers) :
    resolveV4 m visit name = some v4 := by
  have hresolve : resolveName m visit name = some (.v4 v4) := by
    rcases resolveName_cases m visit hvisit name h.foreign with
      ⟨k, surface, hs, hcarries, hresolve⟩ | ⟨-, hnobody⟩
    · have hk : k = key := by
        by_contra hne
        exact h.alone k surface hne hs hcarries
      rw [hk, h.surface] at hs
      rw [hresolve, ← Option.some.inj hs]
    · exact absurd rfl (hnobody key _ h.surface)
  rw [resolveV4, hresolve]

def projectedAs (key : K) (name : String) : List (Request K) :=
  [.add key none, .project 0 none (some name) {}]

theorem projectedAs_clear (os : Os) (path parent : String) (key : K) (name : String) :
    Along (next parse display) (Clear parse display)
      (PeerManager.new os path parent { tun := true }) (projectedAs key name) := by
  refine ⟨trivial, fun m hm => ⟨?_, fun _ _ => trivial⟩⟩
  have hnew : ∀ k : K, surfaceOf (PeerManager.new os path parent { tun := true }) k = none := by
    intro k
    simp [surfaceOf, PeerManager.get, PeerManager.new, PeerManager.boot]
  have hnext : m = (PeerManager.new os path parent { tun := true }).insert key none := by
    simp [next, PeerManager.new, PeerManager.boot] at hm
    exact hm.symm
  subst hnext
  intro peer _
  refine ⟨key, ?_, fun ip hip => ?_⟩
  · rw [insert_lookup, if_pos rfl]
    rfl
  · rw [choose] at hip
    obtain ⟨v4, rfl⟩ := Names.allocate_v4 _ _ ip hip
    refine ⟨⟨v4, rfl⟩, fun h => absurd rfl h, fun h => h, ?_⟩
    intro k other hk hs
    rw [surfaceOf_insert _ key k none (keyed_new os path parent _), if_neg hk, hnew] at hs
    cases hs

theorem projectedAs_reached (os : Os) (path parent : String) (key : K) (name : String) :
    ∃ m, Reached parse display os path parent { tun := true } (projectedAs key name) m ∧
      (∀ k, k ∈ m.peers ↔ k = key) ∧ m.config.name = none ∧
      surfaceOf m key = some ⟨tunBase.host 2, some name⟩ := by
  let m₁ : PeerManager K := (PeerManager.new os path parent { tun := true }).insert key none
  have hlookup : ∀ k, m₁.peers[k]? = if k = key then some 0 else none := by
    intro k
    rw [insert_lookup]
    rfl
  have hbeside : ipsBeside m₁ 0 = [] := by
    unfold ipsBeside
    rw [List.filterMap_eq_nil_iff]
    rintro ⟨k, r⟩ hin
    rw [Std.ExtTreeMap.mem_toList_iff_getElem?_eq_some, hlookup] at hin
    split_ifs at hin with hk
    rw [if_pos (Option.some.inj hin).symm]
  have hchoose : choose (ipsBeside m₁ 0) m₁.shared.surfaceBase none = .ok (tunBase.host 2) := by
    rw [hbeside]
    rfl
  refine ⟨(m₁.project display 0 { endpointId := key, label := none } none (some name) {}).1, ?_, ?_⟩
  · simp [Reached, projectedAs, exec, next, m₁, PeerManager.new, PeerManager.boot,
      PeerManager.insert]
  · cases project_outcome display m₁ 0 { endpointId := key, label := none } none (some name) {} with
    | failed e hnot hproject => exact absurd ⟨_, hchoose, Or.inl rfl⟩ hnot
    | placed ip shared hchosen hclaim hproject =>
      obtain rfl := Except.ok.inj (hchoose.symm.trans hchosen)
      rw [hproject]
      refine ⟨fun k => ?_, rfl, ?_⟩
      · rw [put_peers, Std.ExtTreeMap.mem_iff_isSome_getElem?, hlookup]
        split_ifs with hk <;> simp [hk]
      · rw [surfaceOf_put_self m₁ key 0 _ ((hlookup key).trans (if_pos rfl)),
          (SurfacePorts.bindPorts_frame _ _ _ _).peer.surface]
        rfl

theorem lowered_missing (m : PeerManager K) (hstep : InStep m) (key : K) (name : String)
    (hpeers : ∀ k, k ∈ m.peers ↔ k = key) (hown : m.config.name = none) (ip : IpAddr)
    (hs : surfaceOf m key = some ⟨ip, some name⟩) (hupper : ¬ Lower name) :
    nameOf m (lowered name) = none := by
  rw [Option.eq_none_iff_forall_ne_some]
  intro v4 hv4
  rcases (hstep.mirrors (lowered name) v4).mp hv4 with ⟨hname, -⟩ | ⟨k, hk⟩
  · cases hown.symm.trans hname
  · have hkey := (hpeers k).mp (mem_of_surfaceOf m k _ hk)
    rw [hkey, hs] at hk
    have hlowered := Option.some.inj (Surface.mk.inj (Option.some.inj hk)).2
    exact hupper ((lowered_eq_self name).mp hlowered.symm)

theorem carries_alone (m : PeerManager K) (key : K) (name : String) (v4 : Ipv4)
    (hpeers : ∀ k, k ∈ m.peers ↔ k = key) (hown : m.config.name = none)
    (hs : surfaceOf m key = some ⟨.v4 v4, some name⟩) : Carries m key name v4 := by
  refine ⟨hs, fun k surface hk hks => ?_, by simp [hown]⟩
  exact absurd ((hpeers k).mp (mem_of_surfaceOf m k surface hks)) hk

/-- A name can be looked up, in the table and on the stack, exactly when it has
no upper-case letter. -/
theorem looked_up_iff (os : Os) (path parent : String) (key : K) (name : String)
    (hname : Askable name) :
    ((∀ (m : PeerManager K) (visit : List K) (v4 : Ipv4), (∀ k, k ∈ visit ↔ k ∈ m.peers) →
        Carries m key name v4 → Found (handleQuery m visit) name v4) ↔ Lower name) ∧
      ((∀ (config : Config) (reqs : List (Request K)) (m : PeerManager K) (v4 : Ipv4),
        config.tun = true → (∃ host, config.host = .v4 host) →
        Along (next parse display) (Clear parse display)
          (PeerManager.new os path parent config) reqs →
        Reached parse display os path parent config reqs m → Carries m key name v4 →
        Found (reply · (nameOf m)) name v4) ↔ Lower name) := by
  obtain ⟨m₀, hm₀, hpeers, hown, hs⟩ := projectedAs_reached parse display os path parent key name
  have hclear := projectedAs_clear parse display os path parent key name
  have hstep := inStep_reached parse display os path parent _ rfl ⟨_, rfl⟩ _ m₀ hclear hm₀
  have hcarries := carries_alone m₀ key name ⟨10, 99, 1, 2⟩ hpeers hown hs
  have hvisit : ∀ k, k ∈ [key] ↔ k ∈ m₀.peers := by simp [hpeers]
  constructor
  · constructor
    · intro hfound
      by_contra hupper
      have hnone : resolveV4 m₀ [key] (lowered name) = none := by
        rw [resolveV4, ← names_agree m₀ hstep [key] hvisit,
          lowered_missing m₀ hstep key name hpeers hown _ hs hupper]
        rfl
      have hasked := hfound m₀ [key] _ hvisit hcarries
      rw [handleQuery_eq] at hasked
      exact not_found_of_table name hname _ _ hnone hasked
    · intro hlower m visit v4 hlists hm
      rw [handleQuery_eq]
      exact found_of_table name hname hlower _ v4 (carries_resolved m key name v4 hm visit hlists)
  · constructor
    · intro hfound
      by_contra hupper
      exact not_found_of_table name hname _ _
        (lowered_missing m₀ hstep key name hpeers hown _ hs hupper)
        (hfound _ _ m₀ _ rfl ⟨_, rfl⟩ hclear hm₀ hcarries)
    · intro hlower config reqs m v4 htun hhost hok hm hc
      have hin := inStep_reached parse display os path parent config htun hhost reqs m hok hm
      refine found_of_table name hname hlower _ v4 ?_
      exact (hin.mirrors name v4).mpr (Or.inr ⟨key, hc.surface⟩)

end

theorem broker_askable : Askable "broker" := by
  refine ⟨by decide, by decide, ?_, by decide⟩
  simp [Ascii]

theorem broker_looked_up : Askable "broker" ∧ ∃ m : PeerManager Bool,
    Reached Restart.parseKey Restart.displayKey .linux "surfaces.json" "." { tun := true }
      (projectedAs false "broker") m ∧
    Found (handleQuery m [false]) "broker" ⟨10, 99, 1, 2⟩ ∧
    Found (reply · (nameOf m)) "broker" ⟨10, 99, 1, 2⟩ := by
  have hlower : Lower "broker" := by simp [Lower]
  obtain ⟨hbytable, hbystack⟩ := looked_up_iff Restart.parseKey Restart.displayKey .linux
    "surfaces.json" "." false "broker" broker_askable
  obtain ⟨m, hm, hpeers, hown, hs⟩ := projectedAs_reached Restart.parseKey Restart.displayKey .linux
    "surfaces.json" "." false "broker"
  have hcarries := carries_alone m false "broker" ⟨10, 99, 1, 2⟩ hpeers hown hs
  refine ⟨broker_askable, m, hm, ?_, ?_⟩
  · exact hbytable.mpr hlower m [false] _ (by simp [hpeers]) hcarries
  · exact hbystack.mpr hlower _ _ m _ rfl ⟨_, rfl⟩ (projectedAs_clear _ _ _ _ _ _ _) hm hcarries

/-- A name typed with a capital letter. -/
theorem capital_not_found : ∃ m : PeerManager Bool,
    Reached Restart.parseKey Restart.displayKey .linux "surfaces.json" "." { tun := true }
      (projectedAs false "Broker") m ∧ Askable "Broker" ∧
    Carries m false "Broker" ⟨10, 99, 1, 2⟩ ∧
    ¬ Found (handleQuery m [false]) "Broker" ⟨10, 99, 1, 2⟩ ∧
    ¬ Found (reply · (nameOf m)) "Broker" ⟨10, 99, 1, 2⟩ := by
  have hname : Askable "Broker" := by
    refine ⟨by decide, by decide, ?_, by decide⟩
    simp [Ascii]
  refine ⟨_, rfl, hname, ?_, ?_, ?_⟩
  · refine ⟨by decide +kernel, fun k surface hk hs => ?_, by decide⟩
    cases k with
    | false => exact absurd rfl hk
    | true => cases hs
  · rw [handleQuery_eq]
    exact not_found_of_table "Broker" hname _ ⟨10, 99, 1, 2⟩ (by decide +kernel)
  · exact not_found_of_table "Broker" hname (nameOf _) ⟨10, 99, 1, 2⟩ (by decide +kernel)

end PaiSho.Lookups
