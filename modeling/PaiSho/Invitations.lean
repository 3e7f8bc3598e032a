import Mathlib.Data.List.Basic

/-!
# Invitations

`core/invite.rs`: what `accept` is given, an invitation or a key on its own. An
invitation is a key and a code with a separator between them; white space around
either form is ignored.
-/

set_option autoImplicit false

namespace PaiSho.Invitations

def isWhiteSpace (c : Char) : Bool :=
  (0x09 ≤ c.toNat && c.toNat ≤ 0x0D) || (0x2000 ≤ c.toNat && c.toNat ≤ 0x200A) ||
    [0x20, 0x85, 0xA0, 0x1680, 0x2028, 0x2029, 0x202F, 0x205F, 0x3000].contains c.toNat

def trim (text : List Char) : List Char :=
  ((text.dropWhile isWhiteSpace).reverse.dropWhile isWhiteSpace).reverse

def splitOnce (sep : Char) : List Char → Option (List Char × List Char)
  | [] => none
  | c::text =>
    if c = sep then some ([], text)
    else (splitOnce sep text).map (fun parts => (c::parts.1, parts.2))

def sep : Char := '.'

structure Invite (K : Type) where
  key : K
  code : String
  deriving DecidableEq, Repr

inductive Handle (K : Type) where
  | invite (i : Invite K)
  | bareKey (k : K)
  deriving DecidableEq, Repr

section
variable {K : Type} (parse : String → Option K) (display : K → String)

def Invite.text (i : Invite K) : String :=
  display i.key ++ String.singleton sep ++ i.code

def Handle.key : Handle K → K
  | .invite i => i.key
  | .bareKey k => k

def Handle.code : Handle K → Option String
  | .invite i => some i.code
  | .bareKey _ => none

def Handle.fromStr (text : String) : Except String (Handle K) :=
  match splitOnce sep (trim text.toList) with
  | some (shown, code) =>
    if code.isEmpty then .error "invitation has no code"
    else
      match parse (String.ofList shown) with
      | none => .error "invitation has an invalid key"
      | some k => .ok (.invite ⟨k, String.ofList code⟩)
  | none =>
    match parse (String.ofList (trim text.toList)) with
    | none => .error "invalid key"
    | some k => .ok (.bareKey k)

end
end PaiSho.Invitations
