import PaiSho.GrantTable

/-!
# One-time codes

The code table of `enroll.rs`. A code is the hexadecimal form of thirty-two
random bytes; the draw and the clock reading are inputs of the operation that
makes them. Times are nanoseconds of the monotonic clock.
-/

set_option autoImplicit false

namespace PaiSho.Enrollment
open Std (ExtTreeMap)
open PaiSho.GrantTable Library.OrderedMaps

def hexDigit (n : ℕ) : Char := ("0123456789abcdef".toList)[n]?.getD '0'

def hexByte (b : UInt8) : List Char := [hexDigit (b.toNat / 16), hexDigit (b.toNat % 16)]

def hexToken (bytes : Vector UInt8 32) : String :=
  String.ofList (bytes.toList.flatMap hexByte)

def second : ℕ := 1000000000

def tokenTtl : ℕ := 5*60*second

structure PendingToken where
  name : Option String
  ports : List Port
  expires : ℕ
  deriving DecidableEq, Repr

structure Claimed where
  name : Option String
  ports : List Port
  deriving DecidableEq, Repr

structure Tokens where
  pending : ExtTreeMap String PendingToken

def Tokens.empty : Tokens := ⟨∅⟩

def Tokens.mintWithTtl (t : Tokens) (name : Option String) (ports : List Port) (ttl : ℕ)
    (bytes : Vector UInt8 32) (now : ℕ) : Tokens × String :=
  (⟨t.pending.insert (hexToken bytes) ⟨name, ports, now+ttl⟩⟩, hexToken bytes)

def Tokens.mint (t : Tokens) (name : Option String) (ports : List Port)
    (bytes : Vector UInt8 32) (now : ℕ) : Tokens × String :=
  t.mintWithTtl name ports tokenTtl bytes now

def PendingToken.claimed (t : PendingToken) : Claimed := ⟨t.name, t.ports⟩

def Tokens.claim (t : Tokens) (token : String) (now : ℕ) : Tokens × Option Claimed :=
  let pending := t.pending.filter (fun _ e => now < e.expires)
  (⟨pending.erase token⟩, pending[token]?.map PendingToken.claimed)

/-- The entry a claim at `now` would find. -/
def Tokens.live (t : Tokens) (token : String) (now : ℕ) : Option PendingToken :=
  t.pending[token]?.filter (fun e => now < e.expires)

theorem claim_result (t : Tokens) (token : String) (now : ℕ) :
    (t.claim token now).2 = (t.live token now).map PendingToken.claimed := by
  simp only [Tokens.claim, Tokens.live, lookup_filter]

theorem claim_pending (t : Tokens) (token other : String) (now : ℕ) :
    (t.claim token now).1.pending[other]? =
      if other = token then none else t.live other now := by
  simp only [Tokens.claim, Tokens.live, lookup_erase, lookup_filter]

theorem mint_pending (t : Tokens) (name : Option String) (ports : List Port)
    (bytes : Vector UInt8 32) (now : ℕ) (other : String) :
    (t.mint name ports bytes now).1.pending[other]? =
      if other = hexToken bytes then some ⟨name, ports, now+tokenTtl⟩
      else t.pending[other]? := by
  simp only [Tokens.mint, Tokens.mintWithTtl, lookup_insert]

theorem live_eq_some (t : Tokens) (token : String) (now : ℕ) (e : PendingToken) :
    t.live token now = some e ↔ t.pending[token]? = some e ∧ now < e.expires := by
  simp only [Tokens.live, Option.filter_eq_some_iff, decide_eq_true_eq]

theorem live_mint (t : Tokens) (name : Option String) (ports : List Port)
    (bytes : Vector UInt8 32) (now later : ℕ) (other : String) :
    (t.mint name ports bytes now).1.live other later =
      if other = hexToken bytes then
        if later < now+tokenTtl then some ⟨name, ports, now+tokenTtl⟩ else none
      else t.live other later := by
  unfold Tokens.live
  rw [mint_pending]
  split_ifs with h hl <;> simp [Option.filter, *]

theorem live_claim (t : Tokens) (token other : String) (now later : ℕ) (h : now ≤ later) :
    (t.claim token now).1.live other later =
      if other = token then none else t.live other later := by
  unfold Tokens.live
  rw [claim_pending]
  split_ifs with ho
  · rfl
  · unfold Tokens.live
    cases hp : t.pending[other]? with
    | none => rfl
    | some e =>
      by_cases hl : later < e.expires
      · have hn : now < e.expires := lt_of_le_of_lt h hl
        simp [Option.filter, hl, hn]
      · by_cases hn : now < e.expires <;> simp [Option.filter, hl, hn]

end PaiSho.Enrollment
