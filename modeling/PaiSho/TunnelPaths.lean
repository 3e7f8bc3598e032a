import PaiSho.Authorization
import PaiSho.Forwarding
import PaiSho.Library.TaskLists
import Mathlib.Data.List.Infix

/-!
# Tunnels from a client to a service

Any number of daemons, and any number of tunnels between them. A client comes to
a port of a peer's surface, its daemon opens a stream to that peer and writes the
two bytes of the port; the daemon there reads them, asks its session, connects to
the service and forwards. Both daemons run the copy loops of `tunnel.rs`, so a
byte passes through two of them and the stream between.

The sessions change all the while. What a tunnel is judged by is the grants of
the moment its two bytes are read.
-/

set_option autoImplicit false

namespace PaiSho.TunnelPaths
open PaiSho.GrantTable PaiSho.SessionCore PaiSho.Authorization PaiSho.Forwarding
open Library.Traces Library.TaskLists

/-- The opener's end: `open_tunnel` with the bytes of the port it has yet to
write, and then the two loops until the select ends. -/
inductive Near where
  | opening (rest : List UInt8)
  | forwarding
  | gone
  deriving DecidableEq, Repr

/-- The other end: `handle_bi_stream` up to the verdict, `handle_tunnel` while it
connects, and the two loops. -/
inductive Far where
  | header
  | connecting
  | forwarding
  | gone
  deriving DecidableEq, Repr

/-- `atClient` and `atService` are the loops at the two ends: a loop's sender is
what it reads from. Of the stream between, `head` is what was written of the
port, and `reached` and `returned` count the bytes that have come across. -/
structure Tunnel (K : Type) where
  opener : K
  server : K
  port : Port
  stack : Bool
  near : Near
  far : Far := .header
  head : List UInt8 := []
  atClient : Side → Copy := start
  atService : Side → Copy := start
  reached : ℕ := 0
  returned : ℕ := 0
  verdict : Option TunnelOutcome := none

def toBeBytes (port : Port) : List UInt8 :=
  [UInt8.ofNat (port.val/256), UInt8.ofNat (port.val%256)]

/-- A connection accepted at a port of a surface: by the stack, which hands it
to `bridge`, or by a listener of `serve_listener`. -/
def Tunnel.accepted {K : Type} (opener server : K) (port : Port) (stack : Bool) : Tunnel K :=
  { opener := opener, server := server, port := port, stack := stack,
    near := .opening (toBeBytes port) }

section
variable {K : Type}

def Tunnel.shuts (t : Tunnel K) : Side → Bool := if t.stack then bridge else forwardBidirectional

def Tunnel.upstream (t : Tunnel K) : List UInt8 := t.head ++ (t.atClient .up).delivered

def Tunnel.downstream (t : Tunnel K) : List UInt8 := (t.atService .down).delivered

/-- A stream is finished by the loop that wrote to it, or when the end that holds
it lets go of it. -/
def Tunnel.nearDone (t : Tunnel K) : Bool := t.near = .gone || finished t.atClient

def Tunnel.farDone (t : Tunnel K) : Bool := t.far = .gone || finished t.atService

inductive Move where
  | client (ev : Forwarding.Event)
  | writePort (n : ℕ)
  | near (side : Side) (ev : Forwarding.Event)
  | nearEnds
  | carry (n : ℕ)
  | carryEnd
  | asked
  | connected
  | far (side : Side) (ev : Forwarding.Event)
  | farEnds
  | service (ev : Forwarding.Event)
  | carryBack (n : ℕ)
  | carryBackEnd
  deriving DecidableEq, Repr

variable [LinearOrder K]

/-- One step of a tunnel, under the session its server has at the moment. An end
may give up at any time: no connection, a stream that cannot be opened or was
reset, a service that does not answer, an error of a loop. -/
def Tunnel.move (s : Session K) (t : Tunnel K) : Move → Option (Tunnel K)
  | .client ev =>
    if ev.copies then none
    else (copyFlush false (t.atClient .up) ev).map
      (fun c => { t with atClient := Function.update t.atClient .up c })
  | .writePort n =>
    match t.near with
    | .opening rest =>
      if 0 < n ∧ n ≤ rest.length then
        some { t with
          head := t.head ++ rest.take n
          near := if n = rest.length then .forwarding else .opening (rest.drop n) }
      else none
    | _ => none
  | .near side ev =>
    if t.near = .forwarding ∧ ev.copies = true then
      (Forwarding.step t.shuts t.atClient (side, ev)).map (fun f => { t with atClient := f })
    else none
  | .nearEnds => if t.near = .gone then none else some { t with near := .gone }
  | .carry n =>
    if t.reached + n ≤ t.upstream.length then
      -- the first two bytes are for `read_exact`, the rest for the loop
      (copyFlush false (t.atService .up)
          (.send (((t.upstream.drop t.reached).take n).drop (2 - t.reached)))).map
        (fun c => { t with
          reached := t.reached + n, atService := Function.update t.atService .up c })
    else none
  | .carryEnd =>
    if t.nearDone ∧ t.reached = t.upstream.length then
      (copyFlush false (t.atService .up) .close).map
        (fun c => { t with atService := Function.update t.atService .up c })
    else none
  | .asked =>
    match t.far, t.upstream.take t.reached with
    | .header, hi :: lo :: _ =>
      some { t with
        verdict := some (handleBiStream s t.opener hi lo)
        far := match handleBiStream s t.opener hi lo with
          | .served _ => .connecting
          | _ => .gone }
    | _, _ => none
  | .connected => if t.far = .connecting then some { t with far := .forwarding } else none
  | .far side ev =>
    if t.far = .forwarding ∧ ev.copies = true then
      (Forwarding.step forwardBidirectional t.atService (side, ev)).map
        (fun f => { t with atService := f })
    else none
  | .farEnds => if t.far = .gone then none else some { t with far := .gone }
  | .service ev =>
    -- the service's side of the connection exists once it was connected to
    if ev.copies ∨ t.far ≠ .forwarding then none
    else (copyFlush false (t.atService .down) ev).map
      (fun c => { t with atService := Function.update t.atService .down c })
  | .carryBack n =>
    if t.returned + n ≤ t.downstream.length then
      (copyFlush false (t.atClient .down) (.send ((t.downstream.drop t.returned).take n))).map
        (fun c => { t with
          returned := t.returned + n, atClient := Function.update t.atClient .down c })
    else none
  | .carryBackEnd =>
    if t.farDone ∧ t.returned = t.downstream.length then
      (copyFlush false (t.atClient .down) .close).map
        (fun c => { t with atClient := Function.update t.atClient .down c })
    else none

structure World (K : Type) [LinearOrder K] where
  sessions : K → Session K := fun _ => Session.new
  tunnels : List (Tunnel K) := []

inductive Event (K : Type) where
  | session (daemon : K) (op : Op K)
  | accepted (opener server : K) (port : Port) (stack : Bool)
  | tunnel (i : ℕ) (m : Move)

def step (w : World K) : Event K → Option (World K)
  | .session daemon op =>
    some { w with
      sessions := Function.update w.sessions daemon (SessionCore.step (w.sessions daemon) op).1 }
  | .accepted opener server port stack =>
    some { w with tunnels := w.tunnels ++ [Tunnel.accepted opener server port stack] }
  | .tunnel i m =>
    w.tunnels[i]?.bind fun t =>
      (t.move (w.sessions t.server) m).map fun t' => { w with tunnels := w.tunnels.set i t' }

def opsAt (daemon : K) : List (Event K) → List (Op K)
  | [] => []
  | .session d op :: evs => if d = daemon then op :: opsAt daemon evs else opsAt daemon evs
  | _ :: evs => opsAt daemon evs

structure Advanced (c c' : Copy) : Prop where
  sent : c'.sent = c.sent
  closed : c'.closed = c.closed
  delivered : c.delivered <+: c'.delivered
  sound : Sound c → Sound c'

theorem Advanced.refl (c : Copy) : Advanced c c := ⟨rfl, rfl, List.prefix_rfl, id⟩

theorem copyFlush_copies (shuts : Bool) (c c' : Copy) (ev : Forwarding.Event)
    (hev : ev.copies = true) (h : copyFlush shuts c ev = some c') : Advanced c c' := by
  have hsound : Sound c → Sound c' := fun hc => sound_step shuts c c' ev hc h
  cases ev with
  | send bytes => cases hev
  | close => cases hev
  | read n =>
    simp only [copyFlush] at h
    split at h
    · split_ifs at h
      obtain rfl := Option.some.inj h
      exact ⟨rfl, rfl, List.prefix_rfl, hsound⟩
    · cases h
  | eof =>
    simp only [copyFlush] at h
    split at h
    · split_ifs at h <;> obtain rfl := Option.some.inj h <;>
        exact ⟨rfl, rfl, List.prefix_rfl, hsound⟩
    · cases h
  | write n =>
    simp only [copyFlush] at h
    split at h
    · split_ifs at h <;> obtain rfl := Option.some.inj h <;>
        exact ⟨rfl, rfl, List.prefix_append _ _, hsound⟩
    · cases h
  | shut =>
    simp only [copyFlush] at h
    split at h
    · obtain rfl := Option.some.inj h
      exact ⟨rfl, rfl, List.prefix_rfl, hsound⟩
    · cases h

theorem loops_advance (shuts : Side → Bool) (f f' : Side → Copy) (side : Side)
    (ev : Forwarding.Event) (hev : ev.copies = true)
    (h : Forwarding.step shuts f (side, ev) = some f') :
    finished f = false ∧ ∀ d, Advanced (f d) (f' d) := by
  simp only [Forwarding.step, hev, Bool.true_and] at h
  split_ifs at h with hfin
  obtain ⟨c, hc, rfl⟩ := Option.map_eq_some_iff.mp h
  refine ⟨by simpa using hfin, fun d => ?_⟩
  by_cases hd : d = side
  · rw [hd, Function.update_self]
    exact copyFlush_copies (shuts side) (f side) c ev hev hc
  · rw [Function.update_of_ne hd]
    exact Advanced.refl (f d)

/-- A sender's step: `more` is sent, or the sender closes. -/
structure Fed (c c' : Copy) (more : List UInt8) (closes : Bool) : Prop where
  sent : c'.sent = c.sent ++ more
  closed : c'.closed = closes
  delivered : c'.delivered = c.delivered
  phase : c'.phase = c.phase
  sound : Sound c → Sound c'

theorem copyFlush_send (c c' : Copy) (bytes : List UInt8)
    (h : copyFlush false c (.send bytes) = some c') : Fed c c' bytes false := by
  have hsound : Sound c → Sound c' := fun hc => sound_step false c c' _ hc h
  simp only [copyFlush] at h
  split_ifs at h with hopen
  obtain rfl := Option.some.inj h
  exact ⟨rfl, by simpa using hopen, rfl, rfl, hsound⟩

theorem copyFlush_close (c c' : Copy) (h : copyFlush false c .close = some c') :
    Fed c c' [] true := by
  have hsound : Sound c → Sound c' := fun hc => sound_step false c c' _ hc h
  simp only [copyFlush] at h
  split_ifs at h
  obtain rfl := Option.some.inj h
  exact ⟨(List.append_nil c.sent).symm, rfl, rfl, rfl, hsound⟩

theorem copyFlush_sender (c c' : Copy) (ev : Forwarding.Event) (hev : ¬ ev.copies = true)
    (h : copyFlush false c ev = some c') : ∃ more closes, Fed c c' more closes := by
  cases ev with
  | send bytes => exact ⟨bytes, false, copyFlush_send c c' bytes h⟩
  | close => exact ⟨[], true, copyFlush_close c c' h⟩
  | read n => exact absurd rfl hev
  | eof => exact absurd rfl hev
  | write n => exact absurd rfl hev
  | shut => exact absurd rfl hev

inductive Moved (s : Session K) (t : Tunnel K) : Move → Tunnel K → Prop where
  | client (ev : Forwarding.Event) (c : Copy) (more : List UInt8) (closes : Bool)
      (hfed : Fed (t.atClient .up) c more closes) :
      Moved s t (.client ev) { t with atClient := Function.update t.atClient .up c }
  | writePort (rest : List UInt8) (n : ℕ) (hnear : t.near = .opening rest) :
      Moved s t (.writePort n) { t with
        head := t.head ++ rest.take n
        near := if n = rest.length then .forwarding else .opening (rest.drop n) }
  | near (side : Side) (ev : Forwarding.Event) (f : Side → Copy) (hnear : t.near = .forwarding)
      (hopen : finished t.atClient = false) (hloops : ∀ d, Advanced (t.atClient d) (f d)) :
      Moved s t (.near side ev) { t with atClient := f }
  | nearEnds : Moved s t .nearEnds { t with near := .gone }
  | carry (n : ℕ) (c : Copy) (hn : t.reached + n ≤ t.upstream.length)
      (hfed : Fed (t.atService .up) c
        (((t.upstream.drop t.reached).take n).drop (2 - t.reached)) false) :
      Moved s t (.carry n) { t with
        reached := t.reached + n, atService := Function.update t.atService .up c }
  | carryEnd (c : Copy) (hdone : t.nearDone = true) (hall : t.reached = t.upstream.length)
      (hfed : Fed (t.atService .up) c [] true) :
      Moved s t .carryEnd { t with atService := Function.update t.atService .up c }
  | asked (hi lo : UInt8) (rest : List UInt8) (hfar : t.far = .header)
      (hbytes : t.upstream.take t.reached = hi :: lo :: rest) :
      Moved s t .asked { t with
        verdict := some (handleBiStream s t.opener hi lo)
        far := match handleBiStream s t.opener hi lo with
          | .served _ => .connecting
          | _ => .gone }
  | connected (hfar : t.far = .connecting) : Moved s t .connected { t with far := .forwarding }
  | far (side : Side) (ev : Forwarding.Event) (f : Side → Copy) (hfar : t.far = .forwarding)
      (hopen : finished t.atService = false) (hloops : ∀ d, Advanced (t.atService d) (f d)) :
      Moved s t (.far side ev) { t with atService := f }
  | farEnds : Moved s t .farEnds { t with far := .gone }
  | service (ev : Forwarding.Event) (c : Copy) (more : List UInt8) (closes : Bool)
      (hfar : t.far = .forwarding) (hfed : Fed (t.atService .down) c more closes) :
      Moved s t (.service ev) { t with atService := Function.update t.atService .down c }
  | carryBack (n : ℕ) (c : Copy) (hn : t.returned + n ≤ t.downstream.length)
      (hfed : Fed (t.atClient .down) c ((t.downstream.drop t.returned).take n) false) :
      Moved s t (.carryBack n) { t with
        returned := t.returned + n, atClient := Function.update t.atClient .down c }
  | carryBackEnd (c : Copy) (hdone : t.farDone = true) (hall : t.returned = t.downstream.length)
      (hfed : Fed (t.atClient .down) c [] true) :
      Moved s t .carryBackEnd { t with atClient := Function.update t.atClient .down c }

theorem moved_of_move (s : Session K) (t t' : Tunnel K) (m : Move) (h : t.move s m = some t') :
    Moved s t m t' := by
  cases m with
  | client ev =>
    simp only [Tunnel.move] at h
    split_ifs at h with hev
    obtain ⟨c, hc, rfl⟩ := Option.map_eq_some_iff.mp h
    obtain ⟨more, closes, hfed⟩ := copyFlush_sender _ c ev hev hc
    exact .client ev c more closes hfed
  | writePort n =>
    simp only [Tunnel.move] at h
    split at h
    · rename_i rest hnear
      by_cases hn : 0 < n ∧ n ≤ rest.length
      · rw [if_pos hn] at h
        obtain rfl := Option.some.inj h
        exact .writePort rest n hnear
      · rw [if_neg hn] at h
        cases h
    · cases h
  | near side ev =>
    simp only [Tunnel.move] at h
    split_ifs at h with hguard
    obtain ⟨f, hf, rfl⟩ := Option.map_eq_some_iff.mp h
    obtain ⟨hopen, hloops⟩ := loops_advance t.shuts t.atClient f side ev hguard.2 hf
    exact .near side ev f hguard.1 hopen hloops
  | nearEnds =>
    simp only [Tunnel.move] at h
    split_ifs at h
    obtain rfl := Option.some.inj h
    exact .nearEnds
  | carry n =>
    simp only [Tunnel.move] at h
    split_ifs at h with hn
    obtain ⟨c, hc, rfl⟩ := Option.map_eq_some_iff.mp h
    exact .carry n c hn (copyFlush_send _ c _ hc)
  | carryEnd =>
    simp only [Tunnel.move] at h
    split_ifs at h with hguard
    obtain ⟨c, hc, rfl⟩ := Option.map_eq_some_iff.mp h
    exact .carryEnd c hguard.1 hguard.2 (copyFlush_close _ c hc)
  | asked =>
    simp only [Tunnel.move] at h
    split at h
    · rename_i hi lo rest hfar hbytes
      obtain rfl := Option.some.inj h
      exact .asked hi lo rest hfar hbytes
    · cases h
  | connected =>
    simp only [Tunnel.move] at h
    split_ifs at h with hfar
    obtain rfl := Option.some.inj h
    exact .connected hfar
  | far side ev =>
    simp only [Tunnel.move] at h
    split_ifs at h with hguard
    obtain ⟨f, hf, rfl⟩ := Option.map_eq_some_iff.mp h
    obtain ⟨hopen, hloops⟩ := loops_advance forwardBidirectional t.atService f side ev hguard.2 hf
    exact .far side ev f hguard.1 hopen hloops
  | farEnds =>
    simp only [Tunnel.move] at h
    split_ifs at h
    obtain rfl := Option.some.inj h
    exact .farEnds
  | service ev =>
    simp only [Tunnel.move] at h
    split_ifs at h with hguard
    obtain ⟨c, hc, rfl⟩ := Option.map_eq_some_iff.mp h
    obtain ⟨more, closes, hfed⟩ := copyFlush_sender _ c ev (fun hev => hguard (Or.inl hev)) hc
    exact .service ev c more closes (not_not.mp fun hfar => hguard (Or.inr hfar)) hfed
  | carryBack n =>
    simp only [Tunnel.move] at h
    split_ifs at h with hn
    obtain ⟨c, hc, rfl⟩ := Option.map_eq_some_iff.mp h
    exact .carryBack n c hn (copyFlush_send _ c _ hc)
  | carryBackEnd =>
    simp only [Tunnel.move] at h
    split_ifs at h with hguard
    obtain ⟨c, hc, rfl⟩ := Option.map_eq_some_iff.mp h
    exact .carryBackEnd c hguard.1 hguard.2 (copyFlush_close _ c hc)

/-- Of what was `written` to a stream `n` bytes have come across, and all of them
but the first `skip` were handed on. -/
structure Hop (skip : ℕ) (written got : List UInt8) (n : ℕ) : Prop where
  within : n ≤ written.length
  got_eq : got = (written.take n).drop skip

theorem Hop.written {skip n : ℕ} {written got : List UInt8} (h : Hop skip written got n)
    {written' : List UInt8} (hmore : written <+: written') : Hop skip written' got n := by
  obtain ⟨more, rfl⟩ := hmore
  have hwithin := h.within
  refine ⟨by rw [List.length_append]; omega, ?_⟩
  rw [List.take_append_of_le_length hwithin]
  exact h.got_eq

theorem Hop.carried {skip n : ℕ} {written got : List UInt8} (h : Hop skip written got n) (k : ℕ)
    (hk : n + k ≤ written.length) :
    Hop skip written (got ++ ((written.drop n).take k).drop (skip - n)) (n + k) := by
  refine ⟨hk, ?_⟩
  have hlength : (written.take n).length = n := List.length_take_of_le h.within
  rw [List.take_add, List.drop_append, hlength, ← h.got_eq]

theorem Hop.got_prefix {skip n : ℕ} {written got : List UInt8} (h : Hop skip written got n) :
    got <+: written.drop skip := by
  rw [h.got_eq]
  exact List.IsPrefix.drop (List.take_prefix n written) skip

/-- The port comes first on the stream, and what a loop reads at one end of it is
what the loop at the other end has written. -/
structure Joined (t : Tunnel K) : Prop where
  nearSound : ∀ d, Sound (t.atClient d)
  farSound : ∀ d, Sound (t.atService d)
  opening : ∀ rest, t.near = .opening rest → t.head ++ rest = toBeBytes t.port
  headed : t.head <+: toBeBytes t.port
  headFirst : t.near = .forwarding ∨ (t.atClient .up).delivered ≠ [] → t.head = toBeBytes t.port
  up : Hop 2 t.upstream (t.atService .up).sent t.reached
  down : Hop 0 t.downstream (t.atClient .down).sent t.returned

theorem sound_start (d : Side) : Sound (start d) := ⟨Nat.le_refl 0, rfl, by simp [start]⟩

theorem sound_update (f : Side → Copy) (side : Side) (c : Copy) (hf : ∀ d, Sound (f d))
    (hc : Sound (f side) → Sound c) (d : Side) : Sound (Function.update f side c d) := by
  by_cases hd : d = side
  · rw [hd, Function.update_self]
    exact hc (hf side)
  · rw [Function.update_of_ne hd]
    exact hf d

omit [LinearOrder K] in
theorem joined_accepted (opener server : K) (port : Port) (stack : Bool) :
    Joined (Tunnel.accepted opener server port stack) where
  nearSound := sound_start
  farSound := sound_start
  opening := by
    intro rest hrest
    obtain rfl := Near.opening.inj hrest
    rfl
  headed := List.nil_prefix
  headFirst := by
    rintro (hnear | hsome)
    · cases hnear
    · exact absurd rfl hsome
  up := ⟨Nat.le_refl 0, rfl⟩
  down := ⟨Nat.le_refl 0, rfl⟩

omit [LinearOrder K] in
theorem Joined.writes {t : Tunnel K} (h : Joined t) (rest : List UInt8) (n : ℕ)
    (hnear : t.near = .opening rest) :
    t.upstream <+: t.head ++ rest.take n ++ (t.atClient .up).delivered := by
  have hall := h.opening rest hnear
  by_cases hsome : (t.atClient .up).delivered = []
  · rw [Tunnel.upstream, hsome, List.append_nil, List.append_nil]
    exact List.prefix_append _ _
  · rw [← h.headFirst (Or.inr hsome)] at hall
    obtain rfl : rest = [] := by simpa using hall
    rw [List.take_nil, List.append_nil]
    exact List.prefix_rfl

omit [LinearOrder K] in
theorem Joined.writePort {t : Tunnel K} (h : Joined t) (rest : List UInt8) (n : ℕ)
    (hnear : t.near = .opening rest) :
    Joined { t with
      head := t.head ++ rest.take n
      near := if n = rest.length then .forwarding else .opening (rest.drop n) } := by
  have hall := h.opening rest hnear
  have hpart : t.head ++ rest.take n <+: toBeBytes t.port := by
    rw [← hall]
    exact (List.prefix_append_right_inj t.head).mpr (List.take_prefix n rest)
  refine { h with opening := ?_, headed := hpart, headFirst := ?_, up := ?_ }
  · intro rest' hrest
    dsimp only at hrest
    split_ifs at hrest with hlast
    obtain rfl := Near.opening.inj hrest
    rw [List.append_assoc, List.take_append_drop]
    exact hall
  · rintro (hnow | hsome)
    · dsimp only at hnow
      split_ifs at hnow with hlast
      rw [hlast, List.take_length]
      exact hall
    · have hhead := h.headFirst (Or.inr hsome)
      exact hpart.eq_of_length_le (by rw [List.length_append, hhead]; omega)
  · exact h.up.written (h.writes rest n hnear)

theorem joined_moved (s : Session K) (t t' : Tunnel K) (m : Move) (hmoved : Moved s t m t')
    (h : Joined t) : Joined t' := by
  cases hmoved with
  | client ev c more closes hfed =>
    refine { h with
      nearSound := sound_update t.atClient .up c h.nearSound hfed.sound
      headFirst := ?_, up := ?_, down := ?_ }
    · simpa [hfed.delivered] using h.headFirst
    · simpa [Tunnel.upstream, hfed.delivered] using h.up
    · simpa [Tunnel.downstream] using h.down
  | writePort rest n hnear => exact h.writePort rest n hnear
  | near side ev f hnear hopen hloops =>
    have hhead := h.headFirst (Or.inl hnear)
    refine { h with
      nearSound := fun d => (hloops d).sound (h.nearSound d)
      headFirst := fun _ => hhead, up := ?_, down := ?_ }
    · exact h.up.written ((List.prefix_append_right_inj t.head).mpr (hloops .up).delivered)
    · show Hop 0 t.downstream (f .down).sent t.returned
      rw [(hloops .down).sent]
      exact h.down
  | nearEnds =>
    refine { h with opening := ?_, headFirst := ?_ }
    · rintro rest hrest
      cases hrest
    · rintro (hnear | hsome)
      · cases hnear
      · exact h.headFirst (Or.inr hsome)
  | carry n c hn hfed =>
    refine { h with
      farSound := sound_update t.atService .up c h.farSound hfed.sound
      up := ?_, down := ?_ }
    · simpa [Tunnel.upstream, hfed.sent] using h.up.carried n hn
    · simpa [Tunnel.downstream] using h.down
  | carryEnd c hdone hall hfed =>
    refine { h with
      farSound := sound_update t.atService .up c h.farSound hfed.sound
      up := ?_, down := ?_ }
    · simpa [Tunnel.upstream, hfed.sent] using h.up
    · simpa [Tunnel.downstream] using h.down
  | asked hi lo rest hfar hbytes => exact { h with }
  | connected hfar => exact { h with }
  | far side ev f hfar hopen hloops =>
    refine { h with
      farSound := fun d => (hloops d).sound (h.farSound d)
      up := ?_, down := ?_ }
    · show Hop 2 t.upstream (f .up).sent t.reached
      rw [(hloops .up).sent]
      exact h.up
    · exact h.down.written (hloops .down).delivered
  | farEnds => exact { h with }
  | service ev c more closes hfar hfed =>
    refine { h with
      farSound := sound_update t.atService .down c h.farSound hfed.sound
      up := ?_, down := ?_ }
    · simpa [Tunnel.upstream] using h.up
    · simpa [Tunnel.downstream, hfed.delivered] using h.down
  | carryBack n c hn hfed =>
    refine { h with
      nearSound := sound_update t.atClient .down c h.nearSound hfed.sound
      headFirst := ?_, up := ?_, down := ?_ }
    · simpa using h.headFirst
    · simpa [Tunnel.upstream] using h.up
    · simpa [Tunnel.downstream, hfed.sent] using h.down.carried n hn
  | carryBackEnd c hdone hall hfed =>
    refine { h with
      nearSound := sound_update t.atClient .down c h.nearSound hfed.sound
      headFirst := ?_, up := ?_, down := ?_ }
    · simpa using h.headFirst
    · simpa [Tunnel.upstream] using h.up
    · simpa [Tunnel.downstream, hfed.sent] using h.down

theorem fromBeBytes_toBeBytes (port : Port) (hi lo : UInt8) (rest : List UInt8)
    (h : hi :: lo :: rest = toBeBytes port) : fromBeBytes hi lo = port := by
  obtain ⟨rfl, hrest⟩ := List.cons.inj h
  obtain ⟨rfl, -⟩ := List.cons.inj hrest
  apply Fin.ext
  have hport := port.isLt
  simp only [fromBeBytes, UInt8.toNat_ofNat']
  omega

omit [LinearOrder K] in
theorem Joined.upstream_after {t : Tunnel K} (h : Joined t) :
    t.upstream.drop 2 <+: (t.atClient .up).delivered := by
  by_cases hsome : (t.atClient .up).delivered = []
  · have hshort : t.head.length ≤ 2 := h.headed.length_le
    rw [Tunnel.upstream, hsome, List.append_nil, List.drop_eq_nil_of_le hshort]
  · rw [Tunnel.upstream, h.headFirst (Or.inr hsome)]
    exact List.prefix_rfl

omit [LinearOrder K] in
theorem Joined.asks {t : Tunnel K} (h : Joined t) (hi lo : UInt8) (rest : List UInt8)
    (hbytes : t.upstream.take t.reached = hi :: lo :: rest) : fromBeBytes hi lo = t.port := by
  have hwritten : hi :: lo :: rest <+: t.upstream := hbytes ▸ List.take_prefix t.reached t.upstream
  have htwo : [hi, lo] <+: t.upstream := (List.prefix_append [hi, lo] rest).trans hwritten
  have hhead : t.head = toBeBytes t.port := by
    by_cases hsome : (t.atClient .up).delivered = []
    · rw [Tunnel.upstream, hsome, List.append_nil] at htwo
      exact h.headed.eq_of_length_le htwo.length_le
    · exact h.headFirst (Or.inr hsome)
  rw [Tunnel.upstream, hhead] at htwo
  have heq : [hi, lo] = toBeBytes t.port :=
    (List.prefix_of_prefix_length_le htwo (List.prefix_append _ _) (by rfl)).eq_of_length rfl
  exact fromBeBytes_toBeBytes t.port hi lo [] heq

omit [LinearOrder K] in
/-- What has come to the service is what the client sent, from its first byte on
and in order; and what has come to the client is what the service sent. -/
theorem Joined.arrived {t : Tunnel K} (h : Joined t) :
    (t.atService .up).delivered <+: (t.atClient .up).sent ∧
      (t.atClient .down).delivered <+: (t.atService .down).sent := by
  constructor
  · calc (t.atService .up).delivered
      _ <+: (t.atService .up).sent := (h.farSound .up).arrived
      _ <+: t.upstream.drop 2 := h.up.got_prefix
      _ <+: (t.atClient .up).delivered := h.upstream_after
      _ <+: (t.atClient .up).sent := (h.nearSound .up).arrived
  · calc (t.atClient .down).delivered
      _ <+: (t.atClient .down).sent := (h.nearSound .down).arrived
      _ <+: (t.atService .down).delivered := h.down.got_prefix
      _ <+: (t.atService .down).sent := (h.farSound .down).arrived

/-- A loop sees its stream end when the other end has let go of it, and after all
that was written to it. -/
structure Ends (t : Tunnel K) : Prop where
  idle : ∀ rest, t.near = .opening rest → finished t.atClient = false
  up : (t.atService .up).closed = true → t.nearDone = true ∧ t.reached = t.upstream.length
  down : (t.atClient .down).closed = true → t.farDone = true ∧ t.returned = t.downstream.length

theorem finished_update (f : Side → Copy) (side : Side) (c : Copy)
    (hphase : c.phase = (f side).phase) : finished (Function.update f side c) = finished f := by
  cases side <;> simp [finished, hphase]

omit [LinearOrder K] in
theorem finished_near {t : Tunnel K} (hnear : t.near ≠ .gone) (hdone : t.nearDone = true) :
    finished t.atClient = true := by
  simpa [Tunnel.nearDone, hnear] using hdone

omit [LinearOrder K] in
theorem finished_far {t : Tunnel K} (hfar : t.far ≠ .gone) (hdone : t.farDone = true) :
    finished t.atService = true := by
  simpa [Tunnel.farDone, hfar] using hdone

omit [LinearOrder K] in
theorem Ends.onward {t : Tunnel K} (h : Ends t) (hfar : t.far ≠ .gone) (far : Far)
    (verdict : Option TunnelOutcome) : Ends { t with far := far, verdict := verdict } := by
  refine ⟨h.idle, h.up, fun hclosed => ?_⟩
  obtain ⟨hdone, hall⟩ := h.down hclosed
  exact ⟨by simp [Tunnel.farDone, finished_far hfar hdone], hall⟩

theorem ends_moved (s : Session K) (t t' : Tunnel K) (m : Move) (hmoved : Moved s t m t')
    (h : Ends t) : Ends t' := by
  cases hmoved with
  | client ev c more closes hfed =>
    have hfin := finished_update t.atClient .up c hfed.phase
    refine ⟨?_, ?_, ?_⟩
    · simpa [hfin] using h.idle
    · simpa [Tunnel.nearDone, Tunnel.upstream, hfin, hfed.delivered] using h.up
    · simpa [Tunnel.farDone, Tunnel.downstream] using h.down
  | writePort rest n hnear =>
    have hidle := h.idle rest hnear
    refine ⟨fun _ _ => hidle, ?_, h.down⟩
    intro hclosed
    have hfin := finished_near (by simp [hnear]) (h.up hclosed).1
    rw [hidle] at hfin
    cases hfin
  | near side ev f hnear hopen hloops =>
    refine ⟨?_, ?_, ?_⟩
    · intro rest hrest
      rw [hnear] at hrest
      cases hrest
    · intro hclosed
      have hfin := finished_near (by simp [hnear]) (h.up hclosed).1
      rw [hopen] at hfin
      cases hfin
    · show (f .down).closed = true → _
      rw [(hloops .down).closed]
      exact h.down
  | nearEnds =>
    refine ⟨?_, fun hclosed => ⟨rfl, (h.up hclosed).2⟩, h.down⟩
    intro rest hrest
    cases hrest
  | carry n c hn hfed =>
    have hfin := finished_update t.atService .up c hfed.phase
    refine ⟨h.idle, ?_, ?_⟩
    · simp [hfed.closed]
    · simpa [Tunnel.farDone, Tunnel.downstream, hfin] using h.down
  | carryEnd c hdone hall hfed =>
    have hfin := finished_update t.atService .up c hfed.phase
    refine ⟨h.idle, fun _ => ⟨hdone, hall⟩, ?_⟩
    simpa [Tunnel.farDone, Tunnel.downstream, hfin] using h.down
  | asked hi lo rest hfar hbytes => exact h.onward (by simp [hfar]) _ _
  | connected hfar => exact h.onward (by simp [hfar]) .forwarding t.verdict
  | far side ev f hfar hopen hloops =>
    refine ⟨h.idle, ?_, fun hclosed => ?_⟩
    · show (f .up).closed = true → _
      rw [(hloops .up).closed]
      exact h.up
    · have hfin := finished_far (by simp [hfar]) (h.down hclosed).1
      rw [hopen] at hfin
      cases hfin
  | farEnds => exact ⟨h.idle, h.up, fun hclosed => ⟨rfl, (h.down hclosed).2⟩⟩
  | service ev c more closes hfar hfed =>
    have hfin := finished_update t.atService .down c hfed.phase
    refine ⟨h.idle, ?_, ?_⟩
    · simpa [Tunnel.nearDone, Tunnel.upstream] using h.up
    · simpa [Tunnel.farDone, Tunnel.downstream, hfin, hfed.delivered] using h.down
  | carryBack n c hn hfed =>
    have hfin := finished_update t.atClient .down c hfed.phase
    refine ⟨?_, ?_, ?_⟩
    · simpa [hfin] using h.idle
    · simpa [Tunnel.nearDone, Tunnel.upstream, hfin] using h.up
    · simp [hfed.closed]
  | carryBackEnd c hdone hall hfed =>
    have hfin := finished_update t.atClient .down c hfed.phase
    refine ⟨?_, ?_, fun _ => ⟨hdone, hall⟩⟩
    · simpa [hfin] using h.idle
    · simpa [Tunnel.nearDone, Tunnel.upstream, hfin] using h.up

theorem finished_cases (f : Side → Copy) (h : finished f = true) :
    (f .up).phase = .ended ∨ (f .down).phase = .ended := by
  simpa [finished] using h

/-- Where an end of a stream starts: a daemon let its end of the tunnel go, the
client has closed and all of its stream was written on, or the service has. -/
def Origin (t : Tunnel K) : Prop :=
  t.near = .gone ∨ (t.atClient .up).phase = .ended ∨ t.far = .gone ∨
    (t.atService .down).phase = .ended

/-- No stream ends by itself: of two loops that have each seen the other's end,
neither was the first to. -/
structure Caused (t : Tunnel K) : Prop where
  up : (t.atService .up).closed = true → Origin t
  down : (t.atClient .down).closed = true → Origin t

omit [LinearOrder K] in
theorem Origin.mono {t t' : Tunnel K} (h : Origin t) (hnear : t.near = .gone → t'.near = .gone)
    (hup : (t.atClient .up).phase = .ended → (t'.atClient .up).phase = .ended)
    (hfar : t.far = .gone → t'.far = .gone)
    (hdown : (t.atService .down).phase = .ended → (t'.atService .down).phase = .ended) :
    Origin t' :=
  h.imp hnear (Or.imp hup (Or.imp hfar hdown))

omit [LinearOrder K] in
theorem caused_nearDone {t : Tunnel K} (hjoined : Joined t) (h : Caused t)
    (hdone : t.nearDone = true) : Origin t := by
  by_cases hnear : t.near = .gone
  · exact Or.inl hnear
  rcases finished_cases t.atClient (finished_near hnear hdone) with hup | hdown
  · exact Or.inr (Or.inl hup)
  · exact h.down ((hjoined.nearSound .down).all_delivered (Or.inr hdown)).1

omit [LinearOrder K] in
theorem caused_farDone {t : Tunnel K} (hjoined : Joined t) (h : Caused t)
    (hdone : t.farDone = true) : Origin t := by
  by_cases hfar : t.far = .gone
  · exact Or.inr (Or.inr (Or.inl hfar))
  rcases finished_cases t.atService (finished_far hfar hdone) with hup | hdown
  · exact h.up ((hjoined.farSound .up).all_delivered (Or.inr hup)).1
  · exact Or.inr (Or.inr (Or.inr hdown))

theorem not_ended_of_open {f : Side → Copy} (hopen : finished f = false) (d : Side) :
    (f d).phase ≠ .ended := by
  have h : (f .up).phase ≠ .ended ∧ (f .down).phase ≠ .ended := by simpa [finished] using hopen
  cases d with
  | up => exact h.1
  | down => exact h.2

theorem caused_moved (s : Session K) (t t' : Tunnel K) (m : Move) (hmoved : Moved s t m t')
    (hjoined : Joined t) (h : Caused t) : Caused t' := by
  cases hmoved with
  | client ev c more closes hfed =>
    have hmono : Origin t → Origin { t with atClient := Function.update t.atClient .up c } :=
      fun ho => ho.mono id (by simp [hfed.phase]) id id
    exact ⟨fun hclosed => hmono (h.up hclosed),
      fun hclosed => hmono (h.down (by simpa using hclosed))⟩
  | writePort rest n hnear =>
    have hmono (ho : Origin t) : Origin { t with
        head := t.head ++ rest.take n
        near := if n = rest.length then .forwarding else .opening (rest.drop n) } :=
      ho.mono (fun hgone => by rw [hnear] at hgone; cases hgone) id id id
    exact ⟨fun hclosed => hmono (h.up hclosed), fun hclosed => hmono (h.down hclosed)⟩
  | near side ev f hnear hopen hloops =>
    have hmono (ho : Origin t) : Origin { t with atClient := f } :=
      ho.mono id (fun hended => absurd hended (not_ended_of_open hopen .up)) id id
    refine ⟨fun hclosed => hmono (h.up hclosed), fun hclosed => hmono (h.down ?_)⟩
    exact (hloops .down).closed.symm.trans hclosed
  | nearEnds => exact ⟨fun _ => Or.inl rfl, fun _ => Or.inl rfl⟩
  | carry n c hn hfed =>
    refine ⟨fun hclosed => ?_, fun hclosed => (h.down hclosed).mono id id id (by simp)⟩
    simp [hfed.closed] at hclosed
  | carryEnd c hdone hall hfed =>
    have hmono (ho : Origin t) : Origin { t with atService := Function.update t.atService .up c } :=
      ho.mono id id id (by simp)
    exact ⟨fun _ => hmono (caused_nearDone hjoined h hdone), fun hclosed => hmono (h.down hclosed)⟩
  | asked hi lo rest hfar hbytes =>
    have hmono (ho : Origin t) (far : Far) (verdict : Option TunnelOutcome) :
        Origin { t with far := far, verdict := verdict } :=
      ho.mono id id (fun hgone => by rw [hfar] at hgone; cases hgone) id
    exact ⟨fun hclosed => hmono (h.up hclosed) _ _, fun hclosed => hmono (h.down hclosed) _ _⟩
  | connected hfar =>
    have hmono (ho : Origin t) : Origin { t with far := .forwarding } :=
      ho.mono id id (fun hgone => by rw [hfar] at hgone; cases hgone) id
    exact ⟨fun hclosed => hmono (h.up hclosed), fun hclosed => hmono (h.down hclosed)⟩
  | far side ev f hfar hopen hloops =>
    have hmono (ho : Origin t) : Origin { t with atService := f } :=
      ho.mono id id id (fun hended => absurd hended (not_ended_of_open hopen .down))
    refine ⟨fun hclosed => hmono (h.up ?_), fun hclosed => hmono (h.down hclosed)⟩
    exact (hloops .up).closed.symm.trans hclosed
  | farEnds => exact ⟨fun _ => Or.inr (Or.inr (Or.inl rfl)), fun _ => Or.inr (Or.inr (Or.inl rfl))⟩
  | service ev c more closes hfar hfed =>
    have hmono (ho : Origin t) :
        Origin { t with atService := Function.update t.atService .down c } :=
      ho.mono id id id (by simp [hfed.phase])
    exact ⟨fun hclosed => hmono (h.up (by simpa using hclosed)),
      fun hclosed => hmono (h.down hclosed)⟩
  | carryBack n c hn hfed =>
    refine ⟨fun hclosed => (h.up hclosed).mono id (by simp) id id, fun hclosed => ?_⟩
    simp [hfed.closed] at hclosed
  | carryBackEnd c hdone hall hfed =>
    have hmono (ho : Origin t) :
        Origin { t with atClient := Function.update t.atClient .down c } :=
      ho.mono id (by simp) id id
    exact ⟨fun hclosed => hmono (h.up hclosed), fun _ => hmono (caused_farDone hjoined h hdone)⟩

/-- The client sees its connection end when its daemon lets go of it, and on the
stack also once it is being shut down. -/
def Tunnel.endsAtClient (t : Tunnel K) : Bool :=
  t.nearDone || (t.atClient .down).phase = .shutting

structure Untouched (f : Side → Copy) : Prop where
  delivered : ∀ d, (f d).delivered = []
  answered : (f .down).sent = []

/-- The service is connected to on a verdict for the port of the tunnel, and
before that nothing has passed. -/
structure Judged (t : Tunnel K) : Prop where
  unasked : t.far = .header → t.verdict = none
  serving : t.far = .connecting ∨ t.far = .forwarding → t.verdict = some (.served t.port)
  untouched : t.verdict ≠ some (.served t.port) → Untouched t.atService

omit [LinearOrder K] in
theorem judged_accepted (opener server : K) (port : Port) (stack : Bool) :
    Judged (Tunnel.accepted opener server port stack) where
  unasked := fun _ => rfl
  serving := by
    rintro (hfar | hfar)
    · cases hfar
    · cases hfar
  untouched := fun _ => ⟨fun _ => rfl, rfl⟩

theorem untouched_carried (f : Side → Copy) (c : Copy) (more : List UInt8) (closes : Bool)
    (hfed : Fed (f .up) c more closes) (h : Untouched f) :
    Untouched (Function.update f .up c) := by
  refine ⟨fun d => ?_, by simpa using h.answered⟩
  cases d with
  | up => simpa [hfed.delivered] using h.delivered .up
  | down => simpa using h.delivered .down

theorem asked_cases (s : Session K) (peer : K) (port : Port) (hi lo : UInt8)
    (hport : fromBeBytes hi lo = port) :
    (handleBiStream s peer hi lo = .served port ∧ s.grants.allows port peer) ∨
      (handleBiStream s peer hi lo = .refused .notGranted ∧ ¬ s.grants.allows port peer) := by
  have hserved := handleBiStream_served s peer hi lo
  have hrefused := handleBiStream_refused s peer hi lo
  rw [hport] at hserved hrefused
  by_cases hallows : s.grants.allows port peer
  · exact Or.inl ⟨hserved.mpr hallows, hallows⟩
  · exact Or.inr ⟨hrefused.mpr hallows, hallows⟩

theorem judged_moved (s : Session K) (t t' : Tunnel K) (m : Move) (hmoved : Moved s t m t')
    (hjoined : Joined t) (h : Judged t) : Judged t' := by
  cases hmoved with
  | client ev c more closes hfed => exact ⟨h.unasked, h.serving, h.untouched⟩
  | writePort rest n hnear => exact ⟨h.unasked, h.serving, h.untouched⟩
  | near side ev f hnear hopen hloops => exact ⟨h.unasked, h.serving, h.untouched⟩
  | nearEnds => exact ⟨h.unasked, h.serving, h.untouched⟩
  | carry n c hn hfed =>
    exact ⟨h.unasked, h.serving, fun hv => untouched_carried _ c _ _ hfed (h.untouched hv)⟩
  | carryEnd c hdone hall hfed =>
    exact ⟨h.unasked, h.serving, fun hv => untouched_carried _ c _ _ hfed (h.untouched hv)⟩
  | asked hi lo rest hfar hbytes =>
    have hclean := h.untouched (by simp [h.unasked hfar])
    have hport := hjoined.asks hi lo rest hbytes
    rcases asked_cases s t.opener t.port hi lo hport with ⟨hverdict, -⟩ | ⟨hverdict, -⟩
    · rw [hverdict]
      exact ⟨by simp, fun _ => rfl, fun _ => hclean⟩
    · rw [hverdict]
      exact ⟨by simp, by simp, fun _ => hclean⟩
  | connected hfar =>
    exact ⟨by simp, fun _ => h.serving (Or.inl hfar), h.untouched⟩
  | far side ev f hfar hopen hloops =>
    exact ⟨h.unasked, h.serving, fun hv => absurd (h.serving (Or.inr hfar)) hv⟩
  | farEnds => exact ⟨by simp, by simp, h.untouched⟩
  | service ev c more closes hfar hfed =>
    exact ⟨h.unasked, h.serving, fun hv => absurd (h.serving (Or.inr hfar)) hv⟩
  | carryBack n c hn hfed => exact ⟨h.unasked, h.serving, h.untouched⟩
  | carryBackEnd c hdone hall hfed => exact ⟨h.unasked, h.serving, h.untouched⟩

theorem opsAt_append (daemon : K) (evs evs' : List (Event K)) :
    opsAt daemon (evs++evs') = opsAt daemon evs ++ opsAt daemon evs' := by
  induction evs with
  | nil => rfl
  | cons ev evs ih =>
    cases ev with
    | session d op =>
      simp only [List.cons_append, opsAt]
      split_ifs
      · rw [ih, List.cons_append]
      · exact ih
    | accepted opener server port stack => exact ih
    | tunnel i m => exact ih

/-- The verdict on a tunnel is the history of its port's grant to its opener, up
to the moment its two bytes were read. -/
def JudgedAt (evs : List (Event K)) (i : ℕ) (t : Tunnel K) : Prop :=
  ∃ pre post, evs = pre ++ .tunnel i .asked :: post ∧
    ((t.verdict = some (.served t.port) ∧ GrantedSince t.port t.opener (opsAt t.server pre)) ∨
      (t.verdict = some (.refused .notGranted) ∧
        ¬ GrantedSince t.port t.opener (opsAt t.server pre)))

theorem JudgedAt.snoc {evs : List (Event K)} {i : ℕ} {t : Tunnel K} (h : JudgedAt evs i t)
    (ev : Event K) : JudgedAt (evs++[ev]) i t := by
  obtain ⟨pre, post, rfl, hverdict⟩ := h
  exact ⟨pre, post++[ev], by simp, hverdict⟩

theorem moved_keeps (s : Session K) (t t' : Tunnel K) (m : Move) (hmoved : Moved s t m t') :
    t'.opener = t.opener ∧ t'.server = t.server ∧ t'.port = t.port ∧
      (m = .asked ∨ t'.verdict = t.verdict) := by
  cases hmoved with
  | asked hi lo rest hfar hbytes => exact ⟨rfl, rfl, rfl, Or.inl rfl⟩
  | _ => exact ⟨rfl, rfl, rfl, Or.inr rfl⟩

structure Settled (evs : List (Event K)) (i : ℕ) (t : Tunnel K) : Prop where
  joined : Joined t
  ends : Ends t
  caused : Caused t
  judged : Judged t
  verdict : t.verdict = none ∨ JudgedAt evs i t

theorem Settled.snoc {evs : List (Event K)} {i : ℕ} {t : Tunnel K} (h : Settled evs i t)
    (ev : Event K) : Settled (evs++[ev]) i t :=
  { h with verdict := h.verdict.imp id (fun hv => hv.snoc ev) }

theorem settled_accepted (evs : List (Event K)) (i : ℕ) (opener server : K) (port : Port)
    (stack : Bool) : Settled evs i (Tunnel.accepted opener server port stack) where
  joined := joined_accepted opener server port stack
  ends := ⟨fun _ _ => rfl, fun hclosed => Bool.noConfusion hclosed,
    fun hclosed => Bool.noConfusion hclosed⟩
  caused := ⟨fun hclosed => Bool.noConfusion hclosed, fun hclosed => Bool.noConfusion hclosed⟩
  judged := judged_accepted opener server port stack
  verdict := Or.inl rfl

theorem settled_moved (evs : List (Event K)) (i : ℕ) (t t' : Tunnel K) (m : Move)
    (hmoved : Moved (after (opsAt t.server evs)) t m t') (h : Settled evs i t) :
    Settled (evs++[.tunnel i m]) i t' := by
  refine ⟨joined_moved _ t t' m hmoved h.joined, ends_moved _ t t' m hmoved h.ends,
    caused_moved _ t t' m hmoved h.joined h.caused, judged_moved _ t t' m hmoved h.joined h.judged, ?_⟩
  obtain ⟨hopener, hserver, hport, hverdict⟩ := moved_keeps _ t t' m hmoved
  rcases hverdict with rfl | hverdict
  · cases hmoved with
    | asked hi lo rest hfar hbytes =>
      refine Or.inr ⟨evs, [], rfl, ?_⟩
      have hgranted := allows_iff_granted (opsAt t.server evs) t.opener t.port
      have hbytes := h.joined.asks hi lo rest hbytes
      rcases asked_cases (after (opsAt t.server evs)) t.opener t.port hi lo hbytes with
        ⟨hserved, hallows⟩ | ⟨hrefused, hallows⟩
      · exact Or.inl ⟨congrArg some hserved, hgranted.mp hallows⟩
      · exact Or.inr ⟨congrArg some hrefused, fun hg => hallows (hgranted.mpr hg)⟩
  · rcases h.verdict with hnone | ⟨pre, post, rfl, hjudged⟩
    · exact Or.inl (hverdict.trans hnone)
    · refine Or.inr ⟨pre, post++[.tunnel i m], by simp, ?_⟩
      rw [hverdict, hopener, hserver, hport]
      exact hjudged

/-- Every session is what its own operations made of it, and every tunnel is
settled. -/
def Kept (evs : List (Event K)) (w : World K) : Prop :=
  (∀ daemon, w.sessions daemon = after (opsAt daemon evs)) ∧
    ∀ i t, w.tunnels[i]? = some t → Settled evs i t

theorem kept_step (evs : List (Event K)) (w w' : World K) (ev : Event K) (h : Kept evs w)
    (hstep : step w ev = some w') : Kept (evs++[ev]) w' := by
  obtain ⟨hsessions, htunnels⟩ := h
  cases ev with
  | session d op =>
    obtain rfl := Option.some.inj hstep
    refine ⟨fun daemon => ?_, fun i t ht => (htunnels i t ht).snoc _⟩
    rw [opsAt_append]
    by_cases hd : d = daemon
    · subst hd
      simp only [Function.update_self, opsAt, if_true]
      rw [hsessions d, after, after, run_snoc]
    · simp only [Function.update_of_ne (Ne.symm hd), opsAt, if_neg hd, List.append_nil]
      exact hsessions daemon
  | accepted opener server port stack =>
    obtain rfl := Option.some.inj hstep
    refine ⟨fun daemon => ?_, fun i t ht => ?_⟩
    · rw [opsAt_append]
      simpa [opsAt] using hsessions daemon
    · rcases get_spawned w.tunnels _ i t ht with hold | ⟨-, hnew⟩
      · exact (htunnels i t hold).snoc _
      · obtain rfl := List.mem_singleton.mp (List.mem_of_getElem? hnew)
        exact settled_accepted _ i opener server port stack
  | tunnel i m =>
    obtain ⟨t, ht, hmove⟩ := Option.bind_eq_some_iff.mp hstep
    obtain ⟨t', ht', rfl⟩ := Option.map_eq_some_iff.mp hmove
    rw [hsessions t.server] at ht'
    have hmoved := moved_of_move _ t t' m ht'
    refine ⟨fun daemon => ?_, fun j u hu => ?_⟩
    · rw [opsAt_append]
      simpa [opsAt] using hsessions daemon
    · rcases get_after w.tunnels [] i j t' u (by simpa using hu) with
        ⟨rfl, rfl⟩ | ⟨-, hother⟩ | ⟨-, hnone⟩
      · exact settled_moved evs j t u m hmoved (htunnels j t ht)
      · exact (htunnels j u hother).snoc _
      · cases hnone

theorem kept_run (evs : List (Event K)) (w : World K) (h : exec step {} evs = some w) :
    Kept evs w := by
  refine exec_history step Kept (fun evs w ev w' hk hs => kept_step evs w w' ev hk hs) {} ?_ evs w h
  exact ⟨fun daemon => rfl, fun i t ht => by simp at ht⟩

/-- Whatever the daemons do meanwhile, each end of a tunnel has got the first
bytes the other end sent, and none of another tunnel. The service is connected
to, and bytes pass, only where the verdict was to serve the tunnel's own port,
which is what its server had granted the opener when the port was read. -/
theorem tunnels_carry_granted (evs : List (Event K)) (w : World K) (h : exec step {} evs = some w)
    (i : ℕ) (t : Tunnel K) (ht : w.tunnels[i]? = some t) :
    ((t.atService .up).delivered <+: (t.atClient .up).sent ∧
      (t.atClient .down).delivered <+: (t.atService .down).sent) ∧
    (t.far = .connecting ∨ t.far = .forwarding ∨ (t.atService .up).delivered ≠ [] ∨
        (t.atClient .down).delivered ≠ [] → t.verdict = some (.served t.port)) ∧
    (t.verdict = none ∨ JudgedAt evs i t) := by
  have hsettled := (kept_run evs w h).2 i t ht
  have harrived := hsettled.joined.arrived
  refine ⟨harrived, ?_, hsettled.verdict⟩
  intro hpassed
  by_contra hverdict
  have hclean := hsettled.judged.untouched hverdict
  rcases hpassed with hfar | hfar | hup | hdown
  · exact hverdict (hsettled.judged.serving (Or.inl hfar))
  · exact hverdict (hsettled.judged.serving (Or.inr hfar))
  · exact hup (hclean.delivered .up)
  · have hnone := harrived.2
    rw [hclean.answered, List.prefix_nil] at hnone
    exact hdown hnone

def askedAndAnswered : List (Event ℕ) :=
  [.session 2 (.expose 8080 [1]), .accepted 1 2 8080 false] ++
  [.client (.send [0x71, 0x0A]), .writePort 1, .writePort 1, .carry 2, .asked, .connected,
    .near .up (.read 2), .near .up (.write 2), .carry 1, .carry 1, .far .up (.read 2),
    .far .up (.write 2), .service (.send [0x61]), .service .close, .far .down (.read 1),
    .far .down (.write 1), .far .down .eof, .carryBack 1, .carryBackEnd, .near .down (.read 1),
    .near .down (.write 1), .near .down .eof].map (Event.tunnel 0)

theorem askedAndAnswered_runs : ∃ w t, exec step {} askedAndAnswered = some w ∧
    w.tunnels[0]? = some t ∧ (t.atService .up).delivered = [0x71, 0x0A] ∧
    (t.atService .down).sent = [0x61] ∧ t.endsAtClient = true ∧ t.near = .forwarding ∧
    t.far = .forwarding ∧ (t.atClient .up).closed = false := by
  have hlast : (((exec step {} askedAndAnswered).bind (fun w => w.tunnels[0]?)).map (fun t =>
      ((t.atService .up).delivered, (t.atService .down).sent, t.endsAtClient, t.near, t.far,
        (t.atClient .up).closed))) =
      some ([0x71, 0x0A], [0x61], true, .forwarding, .forwarding, false) := by decide +kernel
  obtain ⟨t, ht, hfacts⟩ := Option.map_eq_some_iff.mp hlast
  obtain ⟨w, hw, ht⟩ := Option.bind_eq_some_iff.mp ht
  simp only [Prod.mk.injEq] at hfacts
  exact ⟨w, t, hw, ht, hfacts⟩

theorem served_as_granted : ∃ w t, exec step {} askedAndAnswered = some w ∧
    w.tunnels[0]? = some t ∧ t.verdict = some (.served t.port) ∧
    (t.atClient .down).delivered <+: [0x61] := by
  obtain ⟨w, t, hw, ht, hup, hdown, -⟩ := askedAndAnswered_runs
  have hcarried := tunnels_carry_granted askedAndAnswered w hw 0 t ht
  refine ⟨w, t, hw, ht, hcarried.2.1 ?_, hdown ▸ hcarried.1.2⟩
  exact Or.inr (Or.inr (Or.inl (by simp [hup])))

end
end PaiSho.TunnelPaths
