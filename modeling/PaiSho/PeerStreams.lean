import PaiSho.Handshakes
import PaiSho.Messages

/-!
# Messages on streams

`send_message`, `handle_uni_stream` and the loop of `handle_enrollment` in
`peer.rs`: each message between peers is the JSON text on a stream of its own, and
at most 64 KiB of a stream are read. A stream that is not a message is skipped; one
that is longer is skipped too once the peer is known, but ends an enrollment. So
the length of an announcement decides whether it arrives, and the tasks of new
connections, fed with bytes, do what they do when fed with messages.
-/

set_option autoImplicit false

namespace PaiSho.PeerStreams
open Library.JsonTokens Library.JsonText Library.JsonRecords
open Library.LossyText Library.EncodedText Library.Traces
open GrantTable (Port)
open SessionCore (PeerMessage ConnId Op)
open PeerWire Messages
open Handshakes (Hub Driver Reached)

def restText : List Port → List Char
  | [] => []
  | port::ports => ',' :: (Nat.toDigits 10 port ++ restText ports)

def portsText : List Port → List Char
  | [] => []
  | port::ports => Nat.toDigits 10 port ++ restText ports

def variant : List Char := "\"ExposedPorts\"".toList

def announcementText (ports : List Port) : List Char :=
  ['\x7b'] ++ (variant ++ ([':', '['] ++ (portsText ports ++ [']', '\x7d'])))

/-- The text `serde_json` gives an announcement: the name of the variant over the
list of the ports, without blanks. -/
def Compact (wire : Wire) : Prop :=
  ∀ ports, wire.toVec (.exposedPorts ports) = asciiBytes (announcementText ports)

theorem length_port (port : Port) :
    1 ≤ (Nat.toDigits 10 port).length ∧ (Nat.toDigits 10 port).length ≤ 5 := by
  refine ⟨Nat.length_toDigits_pos, ?_⟩
  have hlt := port.isLt
  exact (Nat.length_toDigits_le_iff (by decide) (by decide)).mpr (by omega)

theorem length_port_five (port : Port) (h : 10000 ≤ port.val) :
    (Nat.toDigits 10 port).length = 5 := by
  have hupper := (length_port port).2
  have hlower : ¬ (Nat.toDigits 10 port).length ≤ 4 := by
    intro hle
    have := (Nat.length_toDigits_le_iff (by decide) (by decide)).mp hle
    omega
  omega

theorem length_rest_le (ports : List Port) : (restText ports).length ≤ 6 * ports.length := by
  induction ports with
  | nil => exact Nat.le_refl 0
  | cons port ports ih =>
    have := (length_port port).2
    simp only [restText, List.length_cons, List.length_append]
    omega

theorem length_rest_five (ports : List Port) (h : ∀ port ∈ ports, 10000 ≤ port.val) :
    (restText ports).length = 6 * ports.length := by
  induction ports with
  | nil => rfl
  | cons port ports ih =>
    have hport := length_port_five port (h port (by simp))
    have hrest := ih fun p hp => h p (List.mem_cons_of_mem port hp)
    simp only [restText, List.length_cons, List.length_append, hport, hrest]
    omega

theorem length_announcement (ports : List Port) :
    (announcementText ports).length = 19 + (portsText ports).length := by
  have hvariant : variant.length = 14 := by decide
  simp only [announcementText, List.length_append, hvariant, List.length_cons, List.length_nil]
  omega

/-- An announcement arrives exactly when its text is short enough. Any 10,919
ports are announced; of ports with five digits no more than these are. -/
theorem announcement_arrives_iff (wire : Wire) (hwire : wire.Documented) (hcompact : Compact wire)
    (ports : List Port) :
    (wire.hear (wire.toVec (.exposedPorts ports)) = .message (.exposedPorts ports) ↔
        (announcementText ports).length ≤ readLimit) ∧
      (ports.length ≤ 10919 → (announcementText ports).length ≤ readLimit) ∧
      ((∀ port ∈ ports, 10000 ≤ port.val) →
        ((announcementText ports).length ≤ readLimit ↔ ports.length ≤ 10919)) := by
  refine ⟨?_, fun hlength => ?_, fun hfive => ?_⟩
  · rw [wire.hear_iff hwire, hcompact, asciiBytes, List.length_map]
    simp
  · rw [length_announcement, readLimit]
    cases ports with
    | nil => simp [portsText]
    | cons port ports =>
      have hfirst := (length_port port).2
      have hrest := length_rest_le ports
      simp only [portsText, List.length_append, List.length_cons] at hlength ⊢
      omega
  · rw [length_announcement, readLimit]
    cases ports with
    | nil => simp [portsText]
    | cons port ports =>
      have hfirst := length_port_five port (hfive port (by simp))
      have hrest := length_rest_five ports fun p hp => hfive p (List.mem_cons_of_mem port hp)
      simp only [portsText, List.length_append, List.length_cons, hfirst, hrest]
      omega

theorem ascii_append (a b : List Char) (ha : Ascii a) (hb : Ascii b) : Ascii (a++b) := by
  intro c hc
  rcases List.mem_append.mp hc with h | h
  · exact ha c h
  · exact hb c h

theorem ascii_of_all (text : List Char) (h : text.all (fun c => c.toNat < 128) = true) :
    Ascii text := by
  intro c hc
  simpa using List.all_eq_true.mp h c hc

theorem ascii_port (port : Port) : Ascii (Nat.toDigits 10 port) := by
  intro c hc
  have hdigit := Nat.isDigit_of_mem_toDigits (by decide) (by decide) hc
  simp only [Char.isDigit, ge_iff_le, Bool.and_eq_true, decide_eq_true_eq] at hdigit
  have hle : c.val.toNat ≤ 57 := UInt32.le_iff_toNat_le.mp hdigit.2
  show c.val.toNat < 128
  omega

theorem ascii_rest (ports : List Port) : Ascii (restText ports) := by
  induction ports with
  | nil => exact nofun
  | cons port ports ih =>
    exact ascii_append [','] _ (ascii_of_all _ rfl) (ascii_append _ _ (ascii_port port) ih)

theorem ascii_announcement (ports : List Port) : Ascii (announcementText ports) := by
  have hports : Ascii (portsText ports) := by
    cases ports with
    | nil => exact nofun
    | cons port ports => exact ascii_append _ _ (ascii_port port) (ascii_rest ports)
  have hvariant : Ascii variant := ascii_of_all _ (by decide)
  exact ascii_append _ _ (ascii_of_all _ rfl) (ascii_append _ _ hvariant
    (ascii_append _ _ (ascii_of_all _ rfl) (ascii_append _ _ hports (ascii_of_all _ rfl))))

theorem print_rest (n : ℕ) (ports : List Port) :
    printItems compact n (ports.map fin) = restText ports := by
  induction ports with
  | nil => rfl
  | cons port ports ih =>
    have hport : print compact n (fin port) = Nat.toDigits 10 port := rfl
    simp [printItems, restText, ih, hport]

theorem jsonWire_compact : Compact jsonWire := by
  intro ports
  have hprinted (n : ℕ) : print compact n (listOf fin ports) = '['::(portsText ports ++ [']']) := by
    cases ports with
    | nil => rfl
    | cons port ports =>
      have hport : print compact (n+1) (fin port) = Nat.toDigits 10 port := rfl
      simp [listOf, print, portsText, print_rest, hport]
  have htext : toText (encodeMessage (.exposedPorts ports)) = announcementText ports := by
    have hname : quoted (some "ExposedPorts") = variant := by decide
    simp [toText, encodeMessage, tagged, print, printFields, hprinted, hname, announcementText]
  show utf8 (toText (encodeMessage (.exposedPorts ports))) = _
  rw [htext, utf8_ascii _ (ascii_announcement ports)]

/-- One port more than these is one too many. -/
theorem too_many_unannounced :
    jsonWire.hear (jsonWire.toVec (.exposedPorts (List.replicate 10920 42000))) ≠
      .message (.exposedPorts (List.replicate 10920 42000)) := by
  obtain ⟨harrives, -, hfive⟩ := announcement_arrives_iff jsonWire jsonWire_documented
    jsonWire_compact (List.replicate 10920 42000)
  have hports : ∀ port ∈ List.replicate 10920 (42000 : Port), 10000 ≤ port.val := by
    intro port hport
    rw [List.eq_of_mem_replicate hport]
    decide
  rw [Ne, harrives, hfive hports, List.length_replicate]
  decide

inductive WireEvent (K : Type) where
  | arrive (conn : ConnId) (remote : K)
  | stream (conn : ConnId) (bytes : List UInt8) (now : ℕ)
  | timeout (conn : ConnId)
  | other (op : Op K)

section
variable {K : Type} [LinearOrder K] (wire : Wire)

/-- The loop of `handle_enrollment` goes on after a stream that is no message,
and asks for the verdict of a timeout after one that is too long. -/
def wireStep (hub : Hub K) : WireEvent K → Option (Hub K)
  | .arrive conn remote => Handshakes.step hub (.arrive conn remote)
  | .stream conn bytes now =>
    match wire.hear bytes with
    | .message m => Handshakes.step hub (.message conn m now)
    | .tooLong => Handshakes.step hub (.timeout conn)
    | .garbled => if (hub.drivers conn).any Driver.waiting then some hub else none
  | .timeout conn => Handshakes.step hub (.timeout conn)
  | .other op => Handshakes.step hub (.other op)

def WireEvent.meaning : WireEvent K → Option (Handshakes.Event K)
  | .arrive conn remote => some (.arrive conn remote)
  | .stream conn bytes now =>
    match wire.hear bytes with
    | .message m => some (.message conn m now)
    | .tooLong => some (.timeout conn)
    | .garbled => none
  | .timeout conn => some (.timeout conn)
  | .other op => some (.other op)

def WireEvent.carries (conn : ConnId) : WireEvent K → Option PeerMessage
  | .stream conn' bytes _ =>
    if conn' = conn then
      match wire.hear bytes with
      | .message m => some m
      | _ => none
    else none
  | _ => none

theorem wireStep_meaning (hub hub' : Hub K) (ev : WireEvent K) (h : wireStep wire hub ev = some hub') :
    exec Handshakes.step hub (ev.meaning wire).toList = some hub' := by
  have hone (e : Handshakes.Event K) (he : Handshakes.step hub e = some hub') :
      exec Handshakes.step hub [e] = some hub' := by
    simp [exec, he]
  cases ev with
  | arrive conn remote => exact hone _ h
  | timeout conn => exact hone _ h
  | other op => exact hone _ h
  | stream conn bytes now =>
    simp only [wireStep, WireEvent.meaning] at h ⊢
    cases hhear : wire.hear bytes with
    | message m =>
      rw [hhear] at h
      exact hone _ h
    | tooLong =>
      rw [hhear] at h
      exact hone _ h
    | garbled =>
      rw [hhear] at h
      simp only at h
      split_ifs at h
      exact h

theorem wire_meaning (evs : List (WireEvent K)) (hub hub' : Hub K)
    (h : exec (wireStep wire) hub evs = some hub') :
    exec Handshakes.step hub (evs.filterMap (WireEvent.meaning wire)) = some hub' := by
  induction evs generalizing hub with
  | nil => exact h
  | cons ev evs ih =>
    obtain ⟨next, hstep, hrest⟩ := Option.bind_eq_some_iff.mp h
    have hsplit : (ev::evs).filterMap (WireEvent.meaning wire) =
        (ev.meaning wire).toList ++ evs.filterMap (WireEvent.meaning wire) := by
      cases hev : ev.meaning wire <;> simp [hev]
    rw [hsplit, exec_append, wireStep_meaning wire hub next ev hstep, Option.bind_some, ih next hrest]

def Heard (hub : Hub K) (evs : List (WireEvent K)) : Prop :=
  ∀ conn, ((hub.drivers conn).map Driver.heard).getD [] = evs.filterMap (WireEvent.carries wire conn)

theorem heard_silent (hub hub' : Hub K) (evs : List (WireEvent K)) (ev : WireEvent K)
    (h : Heard wire hub evs) (hcarries : ∀ conn, ev.carries wire conn = none)
    (hsame : ∀ conn, ((hub'.drivers conn).map Driver.heard).getD [] =
      ((hub.drivers conn).map Driver.heard).getD []) : Heard wire hub' (evs++[ev]) := by
  intro conn
  rw [hsame conn, h conn, List.filterMap_append]
  simp [hcarries conn]

omit [LinearOrder K] in
theorem heard_update (drivers : ConnId → Option (Driver K)) (conn : ConnId) (d : Driver K)
    (c : ConnId) : ((Function.update drivers conn (some d) c).map Driver.heard).getD [] =
      if c = conn then d.heard else ((drivers c).map Driver.heard).getD [] := by
  by_cases hc : c = conn
  · simp [hc]
  · simp [hc]

theorem timeout_same (hub hub' : Hub K) (conn : ConnId)
    (h : Handshakes.step hub (.timeout conn) = some hub') (c : ConnId) :
    ((hub'.drivers c).map Driver.heard).getD [] = ((hub.drivers c).map Driver.heard).getD [] := by
  simp only [Handshakes.step] at h
  cases hd : hub.drivers conn with
  | none => simp [hd] at h
  | some d =>
    simp only [hd] at h
    split_ifs at h
    obtain rfl := Option.some.inj h
    rw [heard_update]
    split_ifs with hc
    · simp [hc, hd]
    · rfl

theorem arrive_same (hub hub' : Hub K) (conn : ConnId) (remote : K)
    (h : Handshakes.step hub (.arrive conn remote) = some hub') (c : ConnId) :
    ((hub'.drivers c).map Driver.heard).getD [] = ((hub.drivers c).map Driver.heard).getD [] := by
  simp only [Handshakes.step] at h
  cases hd : hub.drivers conn with
  | some d => simp [hd] at h
  | none =>
    simp only [hd] at h
    obtain rfl := Option.some.inj h
    rw [heard_update]
    split_ifs with hc
    · simp [hc, hd]
    · rfl

theorem message_heard (hub hub' : Hub K) (conn : ConnId) (m : PeerMessage) (now : ℕ)
    (h : Handshakes.step hub (.message conn m now) = some hub') (c : ConnId) :
    ((hub'.drivers c).map Driver.heard).getD [] =
      ((hub.drivers c).map Driver.heard).getD [] ++ (if c = conn then [m] else []) := by
  simp only [Handshakes.step] at h
  cases hd : hub.drivers conn with
  | none => simp [hd] at h
  | some d =>
    simp only [hd] at h
    split_ifs at h
    obtain rfl := Option.some.inj h
    rw [heard_update]
    split_ifs with hc
    · simp [hc, hd, Driver.hear]
    · rw [List.append_nil]

theorem heard_step (hub hub' : Hub K) (evs : List (WireEvent K)) (ev : WireEvent K)
    (h : Heard wire hub evs) (hstep : wireStep wire hub ev = some hub') : Heard wire hub' (evs++[ev]) := by
  cases ev with
  | timeout conn =>
    exact heard_silent wire hub hub' evs _ h (fun _ => rfl) (timeout_same hub hub' conn hstep)
  | other op =>
    refine heard_silent wire hub hub' evs _ h (fun _ => rfl) fun c => ?_
    simp only [wireStep, Handshakes.step] at hstep
    split_ifs at hstep
    obtain rfl := Option.some.inj hstep
    rfl
  | arrive conn remote =>
    exact heard_silent wire hub hub' evs _ h (fun _ => rfl) (arrive_same hub hub' conn remote hstep)
  | stream conn bytes now =>
    simp only [wireStep] at hstep
    cases hhear : wire.hear bytes with
    | tooLong =>
      rw [hhear] at hstep
      exact heard_silent wire hub hub' evs _ h (fun _ => by simp [WireEvent.carries, hhear])
        (timeout_same hub hub' conn hstep)
    | garbled =>
      rw [hhear] at hstep
      simp only at hstep
      split_ifs at hstep
      obtain rfl := Option.some.inj hstep
      exact heard_silent wire hub hub evs _ h (fun _ => by simp [WireEvent.carries, hhear]) fun _ => rfl
    | message m =>
      rw [hhear] at hstep
      intro c
      rw [message_heard hub hub' conn m now hstep c, h c, List.filterMap_append]
      by_cases hc : c = conn
      · simp [hc, WireEvent.carries, hhear]
      · simp [hc, WireEvent.carries, Ne.symm hc]

theorem heard_run (evs more : List (WireEvent K)) (hub hub' : Hub K) (h : Heard wire hub evs)
    (hrun : exec (wireStep wire) hub more = some hub') : Heard wire hub' (evs++more) := by
  induction more generalizing hub evs with
  | nil =>
    obtain rfl := Option.some.inj hrun
    rwa [List.append_nil]
  | cons ev more ih =>
    obtain ⟨next, hstep, hrest⟩ := Option.bind_eq_some_iff.mp hrun
    have hnext := ih (evs++[ev]) next (heard_step wire hub next evs ev h hstep) hrest
    rwa [List.append_assoc] at hnext

/-- On the wire: the core is fed the messages of each connection's streams, all of
them and in their order, and a new connection that is admitted is so by the last
of them, a code, with the ports it announced last before it. -/
theorem admitted_by_its_streams (evs : List (WireEvent K)) (hub : Hub K)
    (hrun : exec (wireStep wire) Handshakes.Hub.new evs = some hub) (conn : ConnId) (d : Driver K)
    (hd : hub.drivers conn = some d) :
    d.heard = evs.filterMap (WireEvent.carries wire conn) ∧
      (d.known = false → ∀ peer replacing, .admitPeer conn peer replacing ∈ d.answers →
        peer = d.remote ∧ ∃ before token version,
          evs.filterMap (WireEvent.carries wire conn) = before++[.enroll token version] ∧
            d.answers.filter Handshakes.isApply =
              Handshakes.applied d.remote (Handshakes.lastPorts before)) := by
  have hheard : d.heard = evs.filterMap (WireEvent.carries wire conn) := by
    have hall := heard_run wire [] evs Handshakes.Hub.new hub (fun _ => rfl) hrun conn
    rw [hd] at hall
    exact hall
  refine ⟨hheard, fun hnew peer replacing hadmit => ?_⟩
  have htracked := Handshakes.reached_inv _ hub (wire_meaning wire evs _ hub hrun) conn
  rw [hd] at htracked
  rw [← hheard]
  cases hw : d.waiting with
  | true =>
    simp only [Handshakes.Tracked, hw, if_true] at htracked
    rw [htracked.2.2] at hadmit
    cases hadmit
  | false =>
    simp only [Handshakes.Tracked, hw, Bool.false_eq_true, if_false] at htracked
    exact Handshakes.decided_admitted conn d (htracked.2.1 hnew) peer replacing hadmit

end

def noisyClaim : List (WireEvent ℕ) :=
  [.other (.mintToken (some "rustdev") [8080] (Vector.replicate 32 0) 0), .arrive 1 7,
    .stream 1 (jsonWire.toVec (.exposedPorts [42000])) 1, .stream 1 [0xff, 0x7b] 2,
    .stream 1 (jsonWire.toVec (.enroll (Enrollment.hexToken (Vector.replicate 32 0)) none)) 3]

theorem noisy_claim_driver : ((exec (wireStep jsonWire) Handshakes.Hub.new noisyClaim).bind
    (fun hub => hub.drivers 1)).map (fun d => (d.known, d.answers.filter Handshakes.isApply,
      d.answers.contains (.admitPeer 1 7 false))) =
        some (false, [.applyPorts 7 [42000]], true) := by
  decide +kernel

theorem noisy_claim_admitted : ∃ hub d before,
    exec (wireStep jsonWire) Handshakes.Hub.new noisyClaim = some hub ∧
    hub.drivers 1 = some d ∧
    noisyClaim.filterMap (WireEvent.carries jsonWire 1) =
      before++[.enroll (Enrollment.hexToken (Vector.replicate 32 0)) none] ∧
    [.applyPorts 7 [42000]] = Handshakes.applied d.remote (Handshakes.lastPorts before) := by
  obtain ⟨d, hd, heq⟩ := Option.map_eq_some_iff.mp noisy_claim_driver
  obtain ⟨hub, hhub, hdriver⟩ := Option.bind_eq_some_iff.mp hd
  obtain ⟨hknown, hports, hadmit⟩ : d.known = false ∧
      d.answers.filter Handshakes.isApply = [.applyPorts 7 [42000]] ∧
        .admitPeer 1 7 false ∈ d.answers := by
    simpa using heq
  obtain ⟨-, before, token, version, hbefore, happlied⟩ :=
    (admitted_by_its_streams jsonWire noisyClaim hub hhub 1 d hdriver).2 hknown 7 false hadmit
  have hlast : (noisyClaim.filterMap (WireEvent.carries jsonWire 1)).getLast? =
      some (.enroll (Enrollment.hexToken (Vector.replicate 32 0)) none) := by
    decide +kernel
  rw [hbefore, List.getLast?_concat] at hlast
  rw [Option.some.inj hlast] at hbefore
  exact ⟨hub, d, before, hhub, hdriver, hbefore, hports ▸ happlied⟩

end PaiSho.PeerStreams
