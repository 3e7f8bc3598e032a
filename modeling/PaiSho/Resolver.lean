import PaiSho.Library.LossyText
import PaiSho.Authorization
import PaiSho.SurfaceManager

/-!
# The owned resolver

`resolver.rs`: one question in, one reply out. A question carries where it ends
in the packet it was read from, so that the slices of a reply are in range. The
same reply is built over two tables, the names of the userspace stack and the
surfaces of the peer table.
-/

set_option autoImplicit false

namespace PaiSho.Resolver
open Library.LossyText
open Authorization (fromBeBytes)
open SurfaceManager

def suffix : String := "pai-sho"

def typeA : Fin 65536 := 1

/-- A question read from `buf`: its name in lower case without a trailing dot,
and the offset just past it. -/
structure Question (buf : List UInt8) where
  name : String
  qtype : Fin 65536
  qend : ℕ
  past : 12 ≤ qend
  within : qend ≤ buf.length
  deriving DecidableEq

def labelText (label : List UInt8) : String :=
  String.ofList (toAsciiLowercase (fromUtf8Lossy label))

/-- The loop over the labels, from offset `i` on: the offset after the zero byte
and the labels read. -/
def parseLabels (buf : List UInt8) (i : ℕ) (labels : List String) : Option (ℕ × List String) :=
  match buf[i]? with
  | none => none
  | some len =>
    if len = 0 then some (i+1, labels)
    else if len &&& 0xC0 ≠ 0 then none
    else if i+1+len.toNat ≤ buf.length then
      parseLabels buf (i+1+len.toNat)
        (labels ++ [labelText (buf.extract (i+1) (i+1+len.toNat))])
    else none
termination_by buf.length - i

theorem parseLabels_lt (buf : List UInt8) (i : ℕ) (labels : List String) (j : ℕ)
    (out : List String) (h : parseLabels buf i labels = some (j, out)) : i < j := by
  fun_induction parseLabels buf i labels with
  | case1 i labels hnone => cases h
  | case2 i labels hget =>
    obtain ⟨rfl, -⟩ := Prod.mk.inj (Option.some.inj h)
    exact Nat.lt_succ_self i
  | case3 i labels len hget hzero hbits => cases h
  | case4 i labels len hget hzero hbits hin ih =>
    have := ih h
    omega
  | case5 i labels len hget hzero hbits hin => cases h

def parseQuestion (buf : List UInt8) : Option (Question buf) :=
  if _ : buf.length < 12 then none
  else if fromBeBytes buf[4] buf[5] ≠ 1 then none
  else
    match hlabels : parseLabels buf 12 [] with
    | none => none
    | some (i, labels) =>
      match buf[i]?, buf[i+1]? with
      | some hi, some lo =>
        if hend : buf.length < i+4 then none
        else
          some { name := ".".intercalate labels
                 qtype := fromBeBytes hi lo
                 qend := i+4
                 past := by have := parseLabels_lt buf 12 [] i labels hlabels; omega
                 within := by omega }
      | _, _ => none

/-- The label of `<label>.<suffix>`, when it is a single one. -/
def hostLabel (name : String) : Option String :=
  match (name.toList.dropSuffix? suffix.toList).bind (·.dropSuffix? ['.']) with
  | none => none
  | some rest => if rest.isEmpty || rest.contains '.' then none else some (String.ofList rest)

def aRecord (ip : Ipv4) : List UInt8 :=
  [0xC0, 0x0C, 0x00, 0x01, 0x00, 0x01, 0x00, 0x00, 0x00, 0x1E, 0x00, 0x04, ip.a, ip.b, ip.c, ip.d]

def flags (asked : UInt8) : UInt8 := 0x80 ||| 0x04 ||| (asked &&& 0x01)

def buildReply (query : List UInt8) (qend : ℕ) (past : 12 ≤ qend) (within : qend ≤ query.length)
    (answer : Option Ipv4) : List UInt8 :=
  [query[0], query[1], flags query[2], 0x00, 0x00, 0x01,
    0x00, if answer.isSome then 1 else 0, 0x00, 0x00, 0x00, 0x00] ++
    query.extract 12 qend ++
    match answer with
    | some ip => aRecord ip
    | none => []

/-- The in-stack resolver's reply, over a table of names. -/
def reply (query : List UInt8) (resolve : String → Option Ipv4) : Option (List UInt8) :=
  match parseQuestion query with
  | none => none
  | some q =>
    let answer := if q.qtype = typeA then (hostLabel q.name).bind resolve else none
    some (buildReply query q.qend q.past q.within answer)

section
variable {K : Type} [LinearOrder K]

def resolveName (m : PeerManager K) (visit : List K) (label : String) :
    Option IpAddr :=
  if m.config.name = some label then some m.config.host
  else
    ((visit.filterMap m.get).filterMap Peer.surface).findSome?
      (fun surface => if surface.name = some label then some surface.ip else none)

/-- The loopback resolver's reply, over the peer table. -/
def handleQuery (m : PeerManager K) (visit : List K) (query : List UInt8) :
    Option (List UInt8) :=
  match parseQuestion query with
  | none => none
  | some q =>
    let answer :=
      if q.qtype = typeA then
        match hostLabel q.name with
        | some label =>
          match resolveName m visit label with
          | some (.v4 v4) => some v4
          | _ => none
        | none => none
      else none
    some (buildReply query q.qend q.past q.within answer)

end
end PaiSho.Resolver
