import PaiSho.Library.Traces
import Mathlib.Data.List.Basic

/-!
# Forwarding

`tunnel.rs` and `bridge` of `peer.rs`: two copy loops, one for each direction,
under a select that ends both when one of them returns. The ends of the tunnel
send and close as they like. A loop reads what there is, a buffer at most, and
writes it out piece by piece before it reads again.
-/

set_option autoImplicit false

namespace PaiSho.Forwarding
open Library.Traces

inductive Side where
  | up
  | down
  deriving DecidableEq, Repr

/-- Where a copy loop stands. While it writes it has the length of the chunk it
read and the bytes of it that are still to be written. -/
inductive Phase where
  | reading
  | writing (chunk : ℕ) (rest : List UInt8)
  | shutting
  | ended
  deriving DecidableEq, Repr

/-- One direction: what its sender has sent and whether it has closed, how much
of that the loop has read, and what has arrived. -/
structure Copy where
  sent : List UInt8 := []
  closed : Bool := false
  taken : ℕ := 0
  phase : Phase := .reading
  delivered : List UInt8 := []
  total : ℕ := 0
  deriving DecidableEq, Repr

inductive Event where
  | send (bytes : List UInt8)
  | close
  | read (n : ℕ)
  | eof
  | write (n : ℕ)
  | shut
  deriving DecidableEq, Repr

def Event.copies : Event → Bool
  | .send _ => false
  | .close => false
  | _ => true

def bufferSize : ℕ := 16*1024

/-- `copy_flush`, one await at a time. A loop that has returned shuts its writer
down first where `shuts` says so. -/
def copyFlush (shuts : Bool) (c : Copy) : Event → Option Copy
  | .send bytes => if c.closed then none else some { c with sent := c.sent ++ bytes }
  | .close => if c.closed then none else some { c with closed := true }
  | .read n =>
    match c.phase with
    | .reading =>
      if 0 < n ∧ n ≤ bufferSize ∧ c.taken + n ≤ c.sent.length then
        some { c with taken := c.taken + n, phase := .writing n ((c.sent.drop c.taken).take n) }
      else none
    | _ => none
  | .eof =>
    match c.phase with
    | .reading =>
      if c.closed ∧ c.taken = c.sent.length then
        some { c with phase := if shuts then .shutting else .ended }
      else none
    | _ => none
  | .write n =>
    match c.phase with
    | .writing chunk rest =>
      if 0 < n ∧ n ≤ rest.length then
        if n = rest.length then
          some { c with
            delivered := c.delivered ++ rest, phase := .reading, total := c.total + chunk }
        else
          some { c with
            delivered := c.delivered ++ rest.take n, phase := .writing chunk (rest.drop n) }
      else none
    | _ => none
  | .shut =>
    match c.phase with
    | .shutting => some { c with phase := .ended }
    | _ => none

def finished (f : Side → Copy) : Bool := (f .up).phase = .ended || (f .down).phase = .ended

/-- The select: the loops run side by side until one has returned. -/
def step (shuts : Side → Bool) (f : Side → Copy) (ev : Side × Event) : Option (Side → Copy) :=
  if ev.2.copies && finished f then none
  else (copyFlush (shuts ev.1) (f ev.1) ev.2).map (Function.update f ev.1)

def forwardBidirectional : Side → Bool := fun _ => false

def bridge : Side → Bool
  | .up => false
  | .down => true

def start : Side → Copy := fun _ => {}

def Copy.held (c : Copy) : List UInt8 :=
  match c.phase with
  | .writing _ rest => rest
  | _ => []

structure Sound (c : Copy) : Prop where
  within : c.taken ≤ c.sent.length
  copied : c.delivered ++ c.held = c.sent.take c.taken
  returned : c.phase = .shutting ∨ c.phase = .ended → c.closed = true ∧ c.taken = c.sent.length

theorem Sound.between {c : Copy} (h : Sound c) (hheld : c.held = []) :
    c.delivered = c.sent.take c.taken := by
  have hcopied := h.copied
  rwa [hheld, List.append_nil] at hcopied

theorem sound_send (c : Copy) (bytes : List UInt8) (h : Sound c) (hopen : ¬ c.closed = true) :
    Sound { c with sent := c.sent ++ bytes } := by
  have hwithin := h.within
  constructor
  case within =>
    show c.taken ≤ (c.sent ++ bytes).length
    rw [List.length_append]
    omega
  case copied =>
    show c.delivered ++ c.held = (c.sent ++ bytes).take c.taken
    rw [List.take_append_of_le_length hwithin]
    exact h.copied
  case returned =>
    intro hphase
    exact absurd (h.returned hphase).1 hopen

theorem sound_read (c : Copy) (n : ℕ) (h : Sound c) (hphase : c.phase = .reading)
    (hin : c.taken + n ≤ c.sent.length) :
    Sound { c with taken := c.taken + n, phase := .writing n ((c.sent.drop c.taken).take n) } := by
  refine ⟨hin, ?_, by simp⟩
  show c.delivered ++ (c.sent.drop c.taken).take n = c.sent.take (c.taken + n)
  rw [h.between (by rw [Copy.held, hphase]), List.take_add]

theorem sound_write (c : Copy) (n chunk total : ℕ) (rest : List UInt8) (h : Sound c)
    (hphase : c.phase = .writing chunk rest) (phase : Phase)
    (hphase' : (phase = .reading ∧ rest.drop n = []) ∨ phase = .writing chunk (rest.drop n)) :
    Sound { c with delivered := c.delivered ++ rest.take n, phase := phase, total := total } := by
  have hcopied := h.copied
  rw [Copy.held, hphase] at hcopied
  have hwritten : c.delivered ++ rest.take n ++ rest.drop n = c.sent.take c.taken := by
    rw [List.append_assoc, List.take_append_drop]
    exact hcopied
  rcases hphase' with ⟨rfl, hlast⟩ | rfl
  · refine ⟨h.within, ?_, by simp⟩
    rw [hlast] at hwritten
    exact hwritten
  · exact ⟨h.within, hwritten, by simp⟩

theorem sound_step (shuts : Bool) (c c' : Copy) (ev : Event) (h : Sound c)
    (hstep : copyFlush shuts c ev = some c') : Sound c' := by
  cases ev with
  | send bytes =>
    simp only [copyFlush] at hstep
    split_ifs at hstep with hopen
    obtain rfl := Option.some.inj hstep
    exact sound_send c bytes h hopen
  | close =>
    simp only [copyFlush] at hstep
    split_ifs at hstep
    obtain rfl := Option.some.inj hstep
    exact ⟨h.within, h.copied, fun hphase => ⟨rfl, (h.returned hphase).2⟩⟩
  | read n =>
    simp only [copyFlush] at hstep
    split at hstep
    · rename_i hphase
      split_ifs at hstep with hread
      obtain rfl := Option.some.inj hstep
      exact sound_read c n h hphase hread.2.2
    · cases hstep
  | eof =>
    simp only [copyFlush] at hstep
    split at hstep
    · rename_i hphase
      have hall := h.between (by rw [Copy.held, hphase])
      split_ifs at hstep with hclosed hshuts
      · obtain rfl := Option.some.inj hstep
        exact ⟨h.within, (List.append_nil _).trans hall, fun _ => hclosed⟩
      · obtain rfl := Option.some.inj hstep
        exact ⟨h.within, (List.append_nil _).trans hall, fun _ => hclosed⟩
    · cases hstep
  | write n =>
    simp only [copyFlush] at hstep
    split at hstep
    · rename_i chunk rest hphase
      split_ifs at hstep with hwrite hall
      · obtain rfl := Option.some.inj hstep
        have hlast := sound_write c n chunk (c.total + chunk) rest h hphase .reading
          (Or.inl ⟨rfl, by rw [hall, List.drop_length]⟩)
        rwa [hall, List.take_length] at hlast
      · obtain rfl := Option.some.inj hstep
        exact sound_write c n chunk c.total rest h hphase _ (Or.inr rfl)
    · cases hstep
  | shut =>
    simp only [copyFlush] at hstep
    split at hstep
    · rename_i hphase
      obtain rfl := Option.some.inj hstep
      have hall := h.between (by rw [Copy.held, hphase])
      exact ⟨h.within, (List.append_nil _).trans hall, fun _ => h.returned (Or.inl hphase)⟩
    · cases hstep

theorem Sound.arrived {c : Copy} (h : Sound c) : c.delivered <+: c.sent := by
  have htaken : c.delivered ++ c.held <+: c.sent := by
    rw [h.copied]
    exact List.take_prefix c.taken c.sent
  exact List.IsPrefix.trans ⟨c.held, rfl⟩ htaken

theorem Sound.all_delivered {c : Copy} (h : Sound c)
    (hback : c.phase = .shutting ∨ c.phase = .ended) :
    c.closed = true ∧ c.delivered = c.sent := by
  obtain ⟨hclosed, hall⟩ := h.returned hback
  have hheld : c.held = [] := by rcases hback with hphase | hphase <;> rw [Copy.held, hphase]
  have hcopied := h.between hheld
  rw [hall, List.take_length] at hcopied
  exact ⟨hclosed, hcopied⟩

/-- At every moment what has arrived is a prefix of what was sent; and when the
forwarding is over, one of the senders has closed and all it sent has arrived. -/
theorem forwarded (shuts : Side → Bool) (evs : List (Side × Event)) (f : Side → Copy)
    (h : exec (step shuts) start evs = some f) :
    (∀ side, (f side).delivered <+: (f side).sent) ∧
      (finished f = true → ∃ side, (f side).phase = .ended) ∧
      ∀ side, (f side).phase = .ended →
        (f side).closed = true ∧ (f side).delivered = (f side).sent := by
  have hsound : ∀ side, Sound (f side) := by
    refine exec_invariant (step shuts) (fun _ => True) (fun f => ∀ side, Sound (f side)) ?_ _ ?_ evs
      (fun _ _ => trivial) f h
    · intro s ev t _ hs hst side
      simp only [step] at hst
      split_ifs at hst
      obtain ⟨c, hc, rfl⟩ := Option.map_eq_some_iff.mp hst
      by_cases hside : side = ev.1
      · rw [hside, Function.update_self]
        exact sound_step (shuts ev.1) (s ev.1) c ev.2 (hs ev.1) hc
      · rw [Function.update_of_ne hside]
        exact hs side
    · intro side
      exact ⟨Nat.le_refl 0, rfl, by simp [start]⟩
  refine ⟨fun side => (hsound side).arrived, fun hfinished => ?_,
    fun side hended => (hsound side).all_delivered (Or.inr hended)⟩
  rcases Bool.or_eq_true_iff.mp hfinished with hup | hdown
  · exact ⟨.up, of_decide_eq_true hup⟩
  · exact ⟨.down, of_decide_eq_true hdown⟩

def asked : List (Side × Event) :=
  [(.up, .send [0x71, 0x0A]), (.up, .close), (.up, .read 2), (.up, .write 1), (.up, .write 1),
    (.down, .send [0x61]), (.down, .close)]

def answered : List (Side × Event) :=
  asked ++ [(.down, .read 1), (.down, .write 1), (.down, .eof), (.down, .shut)]

theorem answered_forwarded : ∃ f, exec (step bridge) start answered = some f ∧ finished f = true ∧
    (f .down).sent = [0x61] ∧ (f .down).delivered = (f .down).sent ∧
    (f .up).delivered <+: (f .up).sent := by
  refine ⟨_, rfl, ?_, ?_, ?_, ?_⟩
  · decide +kernel
  · decide +kernel
  · exact ((forwarded bridge answered _ rfl).2.2 .down (by decide +kernel)).2
  · exact (forwarded bridge answered _ rfl).1 .up

/-- The loop that sees the client's half end is the one that ends it all. -/
theorem half_close_loses : ∃ f,
    exec (step forwardBidirectional) start (asked ++ [(.up, .eof)]) = some f ∧ finished f = true ∧
    (f .down).closed = true ∧ (f .down).sent = [0x61] ∧ (f .down).delivered = [] := by
  refine ⟨_, rfl, ?_, ?_, ?_, ?_⟩
  · decide +kernel
  · decide +kernel
  · decide +kernel
  · decide +kernel

end PaiSho.Forwarding
