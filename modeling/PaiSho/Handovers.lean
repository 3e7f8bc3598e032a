import Mathlib.Data.List.TakeWhile
import PaiSho.Invitations
import PaiSho.OneTimeCodes
import PaiSho.Restart

/-!
# An invitation on its way

An invitation is printed by one daemon, carried by hand, and parsed by another,
which dials the key in it and presents the code. Of keys it is assumed that one
prints without a separator or white space and is parsed from what it prints as.
-/

set_option autoImplicit false

namespace PaiSho.Handovers
open GrantTable Enrollment SessionCore SessionSteps OneTimeCodes Invitations
open Library.Traces

section Keys
variable {K : Type} (parse : String → Option K) (display : K → String)

structure KeyText : Prop where
  dotless : ∀ k, sep ∉ (display k).toList
  solid : ∀ k, ∀ c ∈ (display k).toList, isWhiteSpace c = false
  parsed : ∀ k, parse (display k) = some k

def printed : Handle K → String
  | .invite i => i.text display
  | .bareKey k => display k

def Blank (text : List Char) : Prop := ∀ c ∈ text, isWhiteSpace c = true

end Keys

section Issuing
variable {K : Type} [LinearOrder K] (parse : String → Option K) (display : K → String)

/-- `Daemon::invite` for nobody in particular: the code is minted and printed
behind the issuer's own key. -/
def invite (issuer : K) (s : Session K) (name : Option String) (expose : List Port)
    (bytes : Vector UInt8 32) (now : ℕ) : Session K × String :=
  ((s.mintToken name expose bytes now).1,
    Invite.text display ⟨issuer, (s.mintToken name expose bytes now).2⟩)

/-- `Daemon::accept` as far as the wire: whom it dials, and the `Enroll` it sends
there if it has a code. -/
def accept (version : String) (text : String) : Except String (K × Option PeerMessage) :=
  (Handle.fromStr parse text).map
    (fun handle => (handle.key, handle.code.map (PeerMessage.enroll · (some version))))

end Issuing

theorem dropWhile_solid (c : Char) (text : List Char) (h : isWhiteSpace c = false) :
    (c::text).dropWhile isWhiteSpace = c::text := by
  simp [h]

theorem trim_surrounded (before text after : List Char) (hbefore : Blank before)
    (hafter : Blank after) (hfirst : ∀ c, text.head? = some c → isWhiteSpace c = false)
    (hlast : ∀ c, text.getLast? = some c → isWhiteSpace c = false) :
    trim (before ++ text ++ after) = text := by
  unfold trim
  rw [List.append_assoc, List.dropWhile_append_of_pos hbefore]
  have hreverse : Blank after.reverse := fun c hc => hafter c (List.mem_reverse.mp hc)
  cases text with
  | nil =>
    rw [List.nil_append, List.dropWhile_eq_nil_iff.mpr hafter]
    rfl
  | cons c text =>
    rw [List.cons_append, dropWhile_solid c _ (hfirst c rfl), ← List.cons_append,
      List.reverse_append, List.dropWhile_append_of_pos hreverse]
    cases hend : (c::text).reverse with
    | nil => simp at hend
    | cons d rest =>
      have hd : (c::text).getLast? = some d := by
        rw [List.getLast?_eq_head?_reverse, hend]
        rfl
      rw [dropWhile_solid d rest (hlast d hd), ← hend, List.reverse_reverse]

theorem trim_last (text : List Char) (c : Char) (h : (trim text).getLast? = some c) :
    isWhiteSpace c = false := by
  rw [trim, List.getLast?_reverse] at h
  have hnot := List.head?_dropWhile_not isWhiteSpace (text.dropWhile isWhiteSpace).reverse
  rw [h] at hnot
  exact hnot

theorem splitOnce_append (c : Char) (before after : List Char) (h : c ∉ before) :
    splitOnce c (before ++ c::after) = some (before, after) := by
  induction before with
  | nil => simp [splitOnce]
  | cons d before ih =>
    have hd : d ≠ c := by
      rintro rfl
      exact h (by simp)
    rw [List.cons_append, splitOnce, if_neg hd, ih fun hin => h (by simp [hin])]
    rfl

theorem splitOnce_none (c : Char) (text : List Char) (h : c ∉ text) : splitOnce c text = none := by
  induction text with
  | nil => rfl
  | cons d text ih =>
    have hd : d ≠ c := by
      rintro rfl
      exact h (by simp)
    rw [splitOnce, if_neg hd, ih fun hin => h (by simp [hin])]
    rfl

theorem splitOnce_some (c : Char) (text before after : List Char)
    (h : splitOnce c text = some (before, after)) : text = before ++ c::after := by
  induction text generalizing before with
  | nil => cases h
  | cons d text ih =>
    rw [splitOnce] at h
    split_ifs at h with hd
    · obtain ⟨rfl, rfl⟩ := Prod.mk.inj (Option.some.inj h)
      rw [hd]
      rfl
    · obtain ⟨⟨before', after'⟩, hsplit, hparts⟩ := Option.map_eq_some_iff.mp h
      obtain ⟨rfl, rfl⟩ := Prod.mk.inj hparts
      rw [ih before' hsplit]
      rfl

theorem hexDigit_inj : ∀ n m : Fin 16, hexDigit n = hexDigit m → n = m := by decide

theorem hexDigit_solid : ∀ n : Fin 16, isWhiteSpace (hexDigit n) = false := by decide

theorem hexByte_inj (b b' : UInt8) (h : hexByte b = hexByte b') : b = b' := by
  have hb := b.toNat_lt
  have hb' := b'.toNat_lt
  obtain ⟨hhigh, hrest⟩ := List.cons.inj h
  obtain ⟨hlow, -⟩ := List.cons.inj hrest
  have h₁ := hexDigit_inj ⟨b.toNat / 16, by omega⟩ ⟨b'.toNat / 16, by omega⟩ hhigh
  have h₂ := hexDigit_inj ⟨b.toNat % 16, by omega⟩ ⟨b'.toNat % 16, by omega⟩ hlow
  rw [Fin.mk.injEq] at h₁ h₂
  rw [← UInt8.toNat_inj]
  omega

theorem hexBytes_inj (bytes bytes' : List UInt8)
    (h : bytes.flatMap hexByte = bytes'.flatMap hexByte) : bytes = bytes' := by
  induction bytes generalizing bytes' with
  | nil =>
    cases bytes' with
    | nil => rfl
    | cons b bytes' => cases h
  | cons b bytes ih =>
    cases bytes' with
    | nil => cases h
    | cons b' bytes' =>
      obtain ⟨hfirst, hrest⟩ := List.append_inj h rfl
      rw [hexByte_inj b b' hfirst, ih bytes' hrest]

theorem hexToken_inj (bytes bytes' : Vector UInt8 32) (h : hexToken bytes = hexToken bytes') :
    bytes = bytes' := by
  have hchars := congrArg String.toList h
  rw [hexToken, hexToken, String.toList_ofList, String.toList_ofList] at hchars
  exact Vector.toList_inj.mp (hexBytes_inj _ _ hchars)

theorem hexToken_solid (bytes : Vector UInt8 32) :
    ∀ c ∈ (hexToken bytes).toList, isWhiteSpace c = false := by
  rw [hexToken, String.toList_ofList]
  intro c hc
  obtain ⟨b, -, hin⟩ := List.mem_flatMap.mp hc
  have hb := b.toNat_lt
  simp only [hexByte, List.mem_cons, List.not_mem_nil, or_false] at hin
  rcases hin with rfl | rfl
  · exact hexDigit_solid ⟨b.toNat / 16, by omega⟩
  · exact hexDigit_solid ⟨b.toNat % 16, by omega⟩

theorem hexToken_ne_nil (bytes : Vector UInt8 32) : (hexToken bytes).toList ≠ [] := by
  have hlength : (hexToken bytes).toList.length = 64 := by
    rw [hexToken, String.toList_ofList, List.length_flatMap]
    simp [hexByte]
  intro h
  rw [h] at hlength
  cases hlength

section
variable {K : Type} (parse : String → Option K) (display : K → String)

theorem invite_text_toList (i : Invite K) :
    (i.text display).toList = (display i.key).toList ++ sep::i.code.toList := by
  simp [Invite.text]

theorem sep_solid : isWhiteSpace sep = false := by decide

theorem fromStr_invite (h : KeyText parse display) (i : Invite K) (hcode : i.code.toList ≠ [])
    (hlast : ∀ c, i.code.toList.getLast? = some c → isWhiteSpace c = false)
    (before after : List Char) (hbefore : Blank before) (hafter : Blank after) :
    Handle.fromStr parse (String.ofList (before ++ (i.text display).toList ++ after)) =
      .ok (.invite i) := by
  have htrim : trim (before ++ (i.text display).toList ++ after) = (i.text display).toList := by
    apply trim_surrounded before _ after hbefore hafter
    · intro c hc
      rw [invite_text_toList, List.head?_append] at hc
      cases hshown : (display i.key).toList.head? with
      | none =>
        rw [hshown] at hc
        exact Option.some.inj hc ▸ sep_solid
      | some d =>
        rw [hshown] at hc
        obtain rfl := Option.some.inj hc
        exact h.solid i.key d (List.mem_of_head? hshown)
    · intro c hc
      rw [invite_text_toList, List.getLast?_append_cons, List.getLast?_cons_of_ne_nil hcode] at hc
      exact hlast c hc
  have hne : i.code.toList.isEmpty = false := by simpa using hcode
  unfold Handle.fromStr
  rw [String.toList_ofList, htrim, invite_text_toList, splitOnce_append sep _ _ (h.dotless i.key)]
  simp only [hne, String.ofList_toList, h.parsed]
  rfl

theorem fromStr_minted (h : KeyText parse display) (issuer : K) (bytes : Vector UInt8 32)
    (before after : List Char) (hbefore : Blank before) (hafter : Blank after) :
    Handle.fromStr parse (String.ofList
      (before ++ (Invite.text display ⟨issuer, hexToken bytes⟩).toList ++ after)) =
        .ok (.invite ⟨issuer, hexToken bytes⟩) := by
  apply fromStr_invite parse display h ⟨issuer, hexToken bytes⟩ (hexToken_ne_nil bytes) _ before after
    hbefore hafter
  intro c hc
  exact hexToken_solid bytes c (List.mem_of_getLast? hc)

theorem fromStr_bareKey (h : KeyText parse display) (k : K) (before after : List Char)
    (hbefore : Blank before) (hafter : Blank after) :
    Handle.fromStr parse (String.ofList (before ++ (display k).toList ++ after)) =
      .ok (.bareKey k) := by
  have htrim : trim (before ++ (display k).toList ++ after) = (display k).toList := by
    apply trim_surrounded before _ after hbefore hafter
    · intro c hc
      exact h.solid k c (List.mem_of_head? hc)
    · intro c hc
      exact h.solid k c (List.mem_of_getLast? hc)
  unfold Handle.fromStr
  rw [String.toList_ofList, htrim, splitOnce_none sep _ (h.dotless k)]
  simp only [String.ofList_toList, h.parsed]

theorem parsed_code (text : String) (i : Invite K) (h : Handle.fromStr parse text = .ok (.invite i)) :
    i.code.toList ≠ [] ∧ ∀ c, i.code.toList.getLast? = some c → isWhiteSpace c = false := by
  unfold Handle.fromStr at h
  split at h
  · rename_i shown code hsplit
    split_ifs at h with hempty
    have hne : code ≠ [] := by simpa using hempty
    split at h
    · cases h
    · obtain rfl := Handle.invite.inj (Except.ok.inj h)
      rw [String.toList_ofList]
      refine ⟨hne, fun c hc => trim_last text.toList c ?_⟩
      rw [splitOnce_some sep _ shown code hsplit, List.getLast?_append_cons,
        List.getLast?_cons_of_ne_nil hne]
      exact hc
  · split at h
    · cases h
    · cases h

theorem fromStr_printed (h : KeyText parse display) (text : String) (handle : Handle K)
    (hparse : Handle.fromStr parse text = .ok handle) :
    Handle.fromStr parse (printed display handle) = .ok handle := by
  have hblank : Blank [] := by simp [Blank]
  cases handle with
  | invite i =>
    obtain ⟨hne, hlast⟩ := parsed_code parse text i hparse
    have hagain := fromStr_invite parse display h i hne hlast [] [] hblank hblank
    rwa [List.nil_append, List.append_nil, String.ofList_toList] at hagain
  | bareKey k =>
    have hagain := fromStr_bareKey parse display h k [] [] hblank hblank
    rwa [List.nil_append, List.append_nil, String.ofList_toList] at hagain

theorem invite_text_inj (h : KeyText parse display) (i i' : Invite K)
    (heq : i.text display = i'.text display) : i = i' := by
  have hsplit : ∀ i : Invite K, splitOnce sep (i.text display).toList =
      some ((display i.key).toList, i.code.toList) := by
    intro i
    rw [invite_text_toList, splitOnce_append sep _ _ (h.dotless i.key)]
  have hparts := hsplit i
  rw [heq, hsplit i'] at hparts
  obtain ⟨hshown, hcode⟩ := Prod.mk.inj (Option.some.inj hparts)
  have hkey : i'.key = i.key := by
    have hparsed := h.parsed i'.key
    rw [String.toList_inj.mp hshown, h.parsed] at hparsed
    exact (Option.some.inj hparsed).symm
  obtain ⟨key, code⟩ := i
  obtain ⟨key', code'⟩ := i'
  rw [Invite.mk.injEq]
  exact ⟨hkey.symm, (String.toList_inj.mp hcode).symm⟩

end

section
variable {K : Type} [LinearOrder K] (parse : String → Option K) (display : K → String)

structure Undisturbed (s : Session K) (ops : List (Op K)) (token : String) (later : ℕ) : Prop where
  readBy : ReadBy ops later
  drawn : ∀ op ∈ ops, mintedCode op ≠ some token
  unspent : ∀ e ∈ trace step s ops, ¬ Consumes token e.before e.input

theorem undisturbed_cons (s : Session K) (op : Op K) (ops : List (Op K)) (token : String) (later : ℕ)
    (h : Undisturbed s (op::ops) token later) :
    ReadBy [op] later ∧ mintedCode op ≠ some token ∧ ¬ Consumes token s op ∧
      Undisturbed (step s op).1 ops token later := by
  refine ⟨readBy_left [op] ops later h.readBy, h.drawn op (by simp), ?_, ?_, ?_, ?_⟩
  · exact h.unspent (event step s op) (by simp [trace])
  · intro t ht
    apply h.readBy
    rw [← List.singleton_append, List.filterMap_append]
    exact List.mem_append_right _ ht
  · exact fun op' hop' => h.drawn op' (by simp [hop'])
  · exact fun e he => h.unspent e (by simp [trace, he])

theorem live_undisturbed (s : Session K) (ops : List (Op K)) (token : String) (later : ℕ)
    (h : Undisturbed s ops token later) :
    (run step s ops).tokens.live token later = s.tokens.live token later := by
  induction ops generalizing s with
  | nil => rfl
  | cons op ops ih =>
    obtain ⟨hr, hdrawn, hunspent, hrest⟩ := undisturbed_cons s op ops token later h
    rcases live_step s op token later hr with hsame | hconsumed | hminted
    · exact (ih _ hrest).trans hsame
    · exact absurd hconsumed hunspent
    · exact absurd hminted hdrawn

theorem minted_claimed (s : Session K) (name : Option String) (expose : List Port)
    (bytes : Vector UInt8 32) (now : ℕ) (ops : List (Op K)) (later : ℕ) (hlater : later < now+tokenTtl)
    (h : Undisturbed (s.mintToken name expose bytes now).1 ops (hexToken bytes) later)
    (conn : ConnId) (remote : K) (version : Option String) :
    claimBy (run step (s.mintToken name expose bytes now).1 ops)
      (.onUnadmitted conn remote (.enroll (hexToken bytes) version) later) =
        some (remote, ⟨name, expose⟩) := by
  have hlive : (s.mintToken name expose bytes now).1.tokens.live (hexToken bytes) later =
      some ⟨name, expose, now+tokenTtl⟩ := by
    show (s.tokens.mint name expose bytes now).1.live (hexToken bytes) later = _
    rw [live_mint, if_pos rfl, if_pos hlater]
  rw [claimBy_enroll, live_undisturbed _ ops _ later h, hlive]
  rfl

/-- What holds of every invitation and every handle on their way from one daemon
to another. -/
structure Survives : Prop where
  /-- What was printed is parsed as the issuer's key and the minted code. -/
  parsed : ∀ (issuer : K) (bytes : Vector UInt8 32) (before after : List Char), Blank before →
    Blank after → Handle.fromStr parse (String.ofList
      (before ++ (Invite.text display ⟨issuer, hexToken bytes⟩).toList ++ after)) =
        .ok (.invite ⟨issuer, hexToken bytes⟩)
  /-- Whoever accepts it dials the issuer, and the message sent there is a claim
  that the issuer accepts. -/
  claimed : ∀ (issuer : K) (s : Session K) (name : Option String) (expose : List Port)
    (bytes : Vector UInt8 32) (now : ℕ) (before after : List Char) (version : String),
    Blank before → Blank after → ∃ msg,
      accept parse version (String.ofList
        (before ++ (invite display issuer s name expose bytes now).2.toList ++ after)) =
          .ok (issuer, some msg) ∧
      ∀ ops later, later < now+tokenTtl →
        Undisturbed (invite display issuer s name expose bytes now).1 ops (hexToken bytes) later →
        ∀ conn remote, claimBy (run step (invite display issuer s name expose bytes now).1 ops)
          (.onUnadmitted conn remote msg later) = some (remote, ⟨name, expose⟩)
  printed_inj : ∀ i i' : Invite K, i.text display = i'.text display → i = i'
  code_inj : ∀ bytes bytes' : Vector UInt8 32, hexToken bytes = hexToken bytes' → bytes = bytes'
  bareKey : ∀ (k : K) (before after : List Char), Blank before → Blank after →
    Handle.fromStr parse (String.ofList (before ++ (display k).toList ++ after)) = .ok (.bareKey k)
  normal : ∀ (text : String) (handle : Handle K), Handle.fromStr parse text = .ok handle →
    Handle.fromStr parse (printed display handle) = .ok handle

theorem invitation_survives (h : KeyText parse display) : Survives parse display := by
  constructor
  case parsed => exact fromStr_minted parse display h
  case claimed =>
    intro issuer s name expose bytes now before after version hbefore hafter
    refine ⟨.enroll (hexToken bytes) (some version), ?_, ?_⟩
    · have hparse := fromStr_minted parse display h issuer bytes before after hbefore hafter
      rw [accept, invite]
      show (Handle.fromStr parse (String.ofList
        (before ++ (Invite.text display ⟨issuer, hexToken bytes⟩).toList ++ after))).map _ = _
      rw [hparse]
      rfl
    · intro ops later hlater hquiet conn remote
      exact minted_claimed s name expose bytes now ops later hlater hquiet conn remote (some version)
  case printed_inj => exact invite_text_inj parse display h
  case code_inj => exact hexToken_inj
  case bareKey => exact fromStr_bareKey parse display h
  case normal => exact fromStr_printed parse display h

end

theorem desk_key_text : KeyText Restart.parseKey Restart.displayKey := by
  constructor
  case dotless =>
    intro k
    cases k <;> decide
  case solid =>
    intro k c hc
    have hall : (Restart.displayKey k).toList.all (fun c => !isWhiteSpace c) = true := by
      cases k <;> decide
    simpa using List.all_eq_true.mp hall c hc
  case parsed => exact Restart.parse_display_key

theorem desk_invitation_survives : KeyText Restart.parseKey Restart.displayKey ∧
    Survives Restart.parseKey Restart.displayKey :=
  ⟨desk_key_text, invitation_survives Restart.parseKey Restart.displayKey desk_key_text⟩

end PaiSho.Handovers
