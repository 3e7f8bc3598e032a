import Mathlib.Data.List.Sort
import Mathlib.Order.Fin.Basic
import Mathlib.Order.Lattice
import PaiSho.Library.OrderedMaps

/-!
# Directed grants

The table of `core/grants.rs`: for each port the set of keys it is granted to.
Keys are the transport's endpoint identifiers, of which only the byte order is
used here. The standard hash map and hash set are modelled by ordered ones.
What the source reads through hash iteration is sorted before it is returned,
except the order of grantees inside one port, which is left open as `Visit`.
-/

set_option autoImplicit false

namespace PaiSho.GrantTable
open Std (ExtTreeMap ExtTreeSet)
open Library.OrderedMaps

abbrev Port := Fin 65536

instance ports_neZero : @NeZero ℕ Zero.ofOfNat0 65536 := ⟨by decide⟩

instance port_lawfulBEq : LawfulBEq Port := inferInstance

/-- An unspecified iteration order of a hash container: every entry once. -/
structure Visit where
  order : {α : Type} → List α → List α
  perm : ∀ {α : Type} (l : List α), (order l).Perm l

structure Grants (K : Type) [LinearOrder K] where
  byPort : ExtTreeMap Port (ExtTreeSet K)

section
variable {K : Type} [LinearOrder K]

def Grants.empty : Grants K := ⟨∅⟩

def Grants.add (g : Grants K) (port : Port) (grantee : K) : Grants K :=
  ⟨g.byPort.alter port (fun set => some ((set.getD ∅).insert grantee))⟩

def Grants.remove (g : Grants K) (port : Port) : Option K → Grants K
  | some grantee =>
    match g.byPort[port]? with
    | some grantees =>
      if (grantees.erase grantee).isEmpty then ⟨g.byPort.erase port⟩
      else ⟨g.byPort.insert port (grantees.erase grantee)⟩
    | none => g
  | none => ⟨g.byPort.erase port⟩

def Grants.revokeGrantee (g : Grants K) (peer : K) : Grants K :=
  ⟨g.byPort.filterMap (fun _ grantees =>
    if (grantees.erase peer).isEmpty then none else some (grantees.erase peer))⟩

def Grants.allows (g : Grants K) (port : Port) (peer : K) : Bool :=
  (g.byPort[port]?.map (fun grantees => grantees.contains peer)).getD false

def Grants.portsFor (g : Grants K) (peer : K) : List Port :=
  ((g.byPort.toList.filter (fun e => e.2.contains peer)).map Prod.fst).insertionSort (· ≤ ·)

def Grants.ports (g : Grants K) : List Port :=
  g.byPort.keys.insertionSort (· ≤ ·)

def Grants.all (g : Grants K) (visit : Visit) : List (Port × K) :=
  ((visit.order g.byPort.toList).flatMap (fun e =>
    (visit.order e.2.toList).map (fun k => (e.1, k)))).insertionSort (fun a b => a.1 ≤ b.1)

def Grants.addPorts (g : Grants K) (ports : List Port) (grantee : K) : Grants K :=
  ports.foldl (fun g port => g.add port grantee) g

/-- The loop of `expose`: one port, granted to each key of a list. -/
def Grants.addGrantees (g : Grants K) (port : Port) (grantees : List K) : Grants K :=
  grantees.foldl (fun g grantee => g.add port grantee) g

theorem allows_iff (g : Grants K) (port : Port) (peer : K) :
    g.allows port peer ↔ ∃ grantees, g.byPort[port]? = some grantees ∧ peer ∈ grantees := by
  unfold Grants.allows
  cases g.byPort[port]? <;> simp

theorem allows_empty (port : Port) (peer : K) : ¬ (Grants.empty : Grants K).allows port peer := by
  simp [Grants.empty, Grants.allows]

theorem allows_add (g : Grants K) (port q : Port) (grantee peer : K) :
    (g.add port grantee).allows q peer ↔ (q = port ∧ peer = grantee) ∨ g.allows q peer := by
  simp only [allows_iff, Grants.add, lookup_alter]
  by_cases hq : q = port
  · subst hq
    cases g.byPort[q]? <;> simp [-ExtTreeSet.mem_insert, mem_set_insert]
  · simp [hq]

theorem allows_addPorts (g : Grants K) (ports : List Port) (q : Port) (grantee peer : K) :
    (g.addPorts ports grantee).allows q peer ↔ (q ∈ ports ∧ peer = grantee) ∨ g.allows q peer := by
  induction ports generalizing g with
  | nil => simp [Grants.addPorts]
  | cons port ports ih =>
    have hstep : (g.addPorts (port::ports) grantee) = (g.add port grantee).addPorts ports grantee :=
      rfl
    rw [hstep, ih, allows_add, List.mem_cons]
    tauto

theorem allows_addGrantees (g : Grants K) (port q : Port) (grantees : List K) (peer : K) :
    (g.addGrantees port grantees).allows q peer ↔ (q = port ∧ peer ∈ grantees) ∨ g.allows q peer := by
  induction grantees generalizing g with
  | nil => simp [Grants.addGrantees]
  | cons k grantees ih =>
    have hstep : (g.addGrantees port (k::grantees)) = (g.add port k).addGrantees port grantees := rfl
    rw [hstep, ih, allows_add, List.mem_cons]
    tauto

theorem mem_of_erase_isEmpty (set : ExtTreeSet K) (gone peer : K)
    (he : (set.erase gone).isEmpty = true) (hm : peer ∈ set) : peer = gone := by
  by_contra hne
  exact (set_isEmpty _).mp he peer ((mem_set_erase set gone peer).mpr ⟨hne, hm⟩)

theorem allows_remove_some (g : Grants K) (port q : Port) (grantee peer : K) :
    (g.remove port (some grantee)).allows q peer ↔
      g.allows q peer ∧ ¬ (q = port ∧ peer = grantee) := by
  by_cases hq : q = port
  · subst hq
    cases hp : g.byPort[q]? with
    | none => simp [Grants.remove, hp, allows_iff]
    | some set =>
      by_cases he : (set.erase grantee).isEmpty = true
      · have hall := mem_of_erase_isEmpty set grantee peer he
        simp only [Grants.remove, hp, he, if_true, allows_iff, lookup_erase]
        simpa using hall
      · simp only [Grants.remove, hp, he, Bool.false_eq_true, if_false, allows_iff, lookup_insert,
          if_true, Option.some.injEq, exists_eq_left', mem_set_erase, true_and]
        exact and_comm
  · have hkeep : (g.remove port (some grantee)).byPort[q]? = g.byPort[q]? := by
      unfold Grants.remove
      cases g.byPort[port]? with
      | none => rfl
      | some set => dsimp only; split_ifs <;> simp [lookup_erase, lookup_insert, hq]
    simp [allows_iff, hkeep, hq]

theorem allows_remove_none (g : Grants K) (port q : Port) (peer : K) :
    (g.remove port none).allows q peer ↔ g.allows q peer ∧ q ≠ port := by
  simp only [Grants.remove, allows_iff, lookup_erase]
  by_cases hq : q = port <;> simp [hq]

theorem allows_revokeGrantee (g : Grants K) (q : Port) (gone peer : K) :
    (g.revokeGrantee gone).allows q peer ↔ g.allows q peer ∧ peer ≠ gone := by
  simp only [Grants.revokeGrantee, allows_iff, lookup_filterMap]
  cases hq : g.byPort[q]? with
  | none => simp
  | some set =>
    by_cases he : (set.erase gone).isEmpty = true
    · have hall := mem_of_erase_isEmpty set gone peer he
      simp only [Option.bind_some, he, if_true]
      simpa using hall
    · simp only [Option.bind_some, he, Bool.false_eq_true, if_false, Option.some.injEq,
        exists_eq_left', mem_set_erase]
      exact and_comm

/-- No port is kept with an empty grantee set, so a listed port is a granted one. -/
def Grants.Compact (g : Grants K) : Prop :=
  ∀ (port : Port) (grantees : ExtTreeSet K), g.byPort[port]? = some grantees →
    grantees.isEmpty = false

theorem compact_empty : (Grants.empty : Grants K).Compact := by
  intro port grantees h
  simp [Grants.empty] at h

theorem compact_add (g : Grants K) (port : Port) (grantee : K) (hg : g.Compact) :
    (g.add port grantee).Compact := by
  intro q grantees h
  rw [Grants.add, lookup_alter] at h
  split_ifs at h
  · obtain rfl := Option.some.inj h
    rw [Bool.eq_false_iff, ne_eq, set_isEmpty]
    exact fun hall => hall grantee ((mem_set_insert _ _ _).mpr (Or.inl rfl))
  · exact hg q grantees h

theorem compact_addPorts (g : Grants K) (ports : List Port) (grantee : K) (hg : g.Compact) :
    (g.addPorts ports grantee).Compact := by
  induction ports generalizing g with
  | nil => exact hg
  | cons port ports ih => exact ih _ (compact_add g port grantee hg)

theorem compact_addGrantees (g : Grants K) (port : Port) (grantees : List K) (hg : g.Compact) :
    (g.addGrantees port grantees).Compact := by
  induction grantees generalizing g with
  | nil => exact hg
  | cons k grantees ih => exact ih _ (compact_add g port k hg)

theorem compact_erase (g : Grants K) (port : Port) (hg : g.Compact) :
    (Grants.mk (g.byPort.erase port)).Compact := by
  intro q grantees h
  rw [lookup_erase] at h
  split_ifs at h
  exact hg q grantees h

theorem compact_remove (g : Grants K) (port : Port) (grantee : Option K) (hg : g.Compact) :
    (g.remove port grantee).Compact := by
  cases grantee with
  | none => exact compact_erase g port hg
  | some k =>
    unfold Grants.remove
    cases hp : g.byPort[port]? with
    | none => exact hg
    | some set =>
      dsimp only
      split_ifs with he
      · exact compact_erase g port hg
      · intro q grantees h
        rw [lookup_insert] at h
        split_ifs at h
        · obtain rfl := Option.some.inj h
          exact Bool.eq_false_iff.mpr he
        · exact hg q grantees h

theorem compact_revokeGrantee (g : Grants K) (peer : K) : (g.revokeGrantee peer).Compact := by
  intro q grantees h
  rw [Grants.revokeGrantee, lookup_filterMap, Option.bind_eq_some_iff] at h
  obtain ⟨set, -, h⟩ := h
  split_ifs at h with he
  obtain rfl := Option.some.inj h
  exact Bool.eq_false_iff.mpr he

theorem mem_portsFor (g : Grants K) (peer : K) (port : Port) :
    port ∈ g.portsFor peer ↔ g.allows port peer := by
  simp only [Grants.portsFor, List.mem_insertionSort, List.mem_map, List.mem_filter, allows_iff]
  constructor
  · rintro ⟨⟨q, set⟩, ⟨hm, hc⟩, rfl⟩
    exact ⟨set, ExtTreeMap.mem_toList_iff_getElem?_eq_some.mp hm, by simpa using hc⟩
  · rintro ⟨set, hs, hm⟩
    exact ⟨(port, set), ⟨ExtTreeMap.mem_toList_iff_getElem?_eq_some.mpr hs, by simpa using hm⟩, rfl⟩

theorem entries_ports_nodup (g : Grants K) : (g.byPort.toList.map Prod.fst).Nodup := by
  rw [ExtTreeMap.map_fst_toList_eq_keys]
  exact ExtTreeMap.nodup_keys

theorem portsFor_ascending (g : Grants K) (peer : K) : (g.portsFor peer).Pairwise (· < ·) := by
  apply insertionSort_ascending
  exact (entries_ports_nodup g).sublist (List.filter_sublist.map _)

theorem portsFor_visit (g : Grants K) (peer : K) (visit : Visit) :
    (((visit.order g.byPort.toList).filter (fun e => e.2.contains peer)).map
      Prod.fst).insertionSort (· ≤ ·) = g.portsFor peer :=
  insertionSort_perm _ _ (((visit.perm _).filter _).map _)

theorem portsFor_congr (g g' : Grants K) (peer : K)
    (h : ∀ port, g.allows port peer ↔ g'.allows port peer) : g.portsFor peer = g'.portsFor peer := by
  apply ascending_ext _ _ (portsFor_ascending g peer) (portsFor_ascending g' peer)
  intro port
  rw [mem_portsFor, mem_portsFor, h]

theorem ports_ascending (g : Grants K) : g.ports.Pairwise (· < ·) :=
  insertionSort_ascending _ ExtTreeMap.nodup_keys

theorem mem_ports (g : Grants K) (hg : g.Compact) (port : Port) :
    port ∈ g.ports ↔ ∃ peer, g.allows port peer := by
  simp only [Grants.ports, List.mem_insertionSort, ExtTreeMap.mem_keys, allows_iff]
  rw [ExtTreeMap.mem_iff_isSome_getElem?, Option.isSome_iff_exists]
  constructor
  · rintro ⟨set, hs⟩
    have hne := hg port set hs
    rw [Bool.eq_false_iff, ne_eq, set_isEmpty, not_forall] at hne
    obtain ⟨peer, hm⟩ := hne
    exact ⟨peer, set, hs, not_not.mp hm⟩
  · rintro ⟨-, set, hs, -⟩
    exact ⟨set, hs⟩

theorem mem_all (g : Grants K) (visit : Visit) (port : Port) (peer : K) :
    (port, peer) ∈ g.all visit ↔ g.allows port peer := by
  simp only [Grants.all, List.mem_insertionSort, List.mem_flatMap, (visit.perm _).mem_iff,
    List.mem_map, Prod.mk.injEq, allows_iff]
  constructor
  · rintro ⟨⟨q, set⟩, hm, k, hk, rfl, rfl⟩
    exact ⟨set, ExtTreeMap.mem_toList_iff_getElem?_eq_some.mp hm, ExtTreeSet.mem_toList.mp hk⟩
  · rintro ⟨set, hs, hm⟩
    exact ⟨(port, set), ExtTreeMap.mem_toList_iff_getElem?_eq_some.mpr hs, peer,
      ExtTreeSet.mem_toList.mpr hm, rfl, rfl⟩

theorem all_nodup (g : Grants K) (visit : Visit) : (g.all visit).Nodup := by
  rw [Grants.all, (List.perm_insertionSort _ _).nodup_iff, List.nodup_flatMap]
  constructor
  · intro e _
    apply List.Nodup.map (fun a b h => (Prod.mk.inj h).2)
    exact (visit.perm _).nodup_iff.mpr (set_toList_nodup _)
  · have hp : (visit.order g.byPort.toList).Pairwise (fun a b => a.1 ≠ b.1) := by
      rw [← List.pairwise_map (f := Prod.fst) (R := (· ≠ ·))]
      exact (((visit.perm _).map Prod.fst).nodup_iff).mpr (entries_ports_nodup g)
    refine hp.imp ?_
    intro a b hab x hx hy
    obtain ⟨k, -, rfl⟩ := List.mem_map.mp hx
    obtain ⟨j, -, hj⟩ := List.mem_map.mp hy
    exact hab (Prod.mk.inj hj).1.symm

theorem all_port_order (g : Grants K) (visit : Visit) :
    (g.all visit).Pairwise (fun a b => a.1 ≤ b.1) := by
  have : Std.Total (fun a b : Port × K => a.1 ≤ b.1) := ⟨fun a b => le_total a.1 b.1⟩
  have : IsTrans (Port × K) (fun a b => a.1 ≤ b.1) := ⟨fun _ _ _ => le_trans⟩
  exact List.pairwise_insertionSort _ _

end
end PaiSho.GrantTable
