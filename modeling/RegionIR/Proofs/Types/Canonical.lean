import RegionIR.Proofs.Types.Dict
import RegionIR.Proofs.Types.Traversal

/-! Types in canonical form: the attributes of every type in them are in key order.

A type has one canonical form, and a canonical type is its own. -/

namespace RegionIR

/-- Whether the type is its own canonical form. -/
def Ty.Canonical (t : Ty) : Prop := t.canonical = t

instance (t : Ty) : Decidable t.Canonical := inferInstanceAs (Decidable (_ = _))

def Attr.Canonical (a : Attr Ty) : Prop := Ty.canonicalAttr a = a

instance (a : Attr Ty) : Decidable a.Canonical := inferInstanceAs (Decidable (_ = _))

namespace Ty

theorem canonicalList_eq_map (ts : List Ty) : canonicalList ts = ts.map canonical := by
  induction ts with
  | nil => rfl
  | cons t ts ih => simp [canonicalList, ih]

theorem canonicalEntries_eq_map (as : List (String × Attr Ty)) :
    canonicalEntries as = as.map fun e => (e.1, canonicalAttr e.2) := by
  induction as with
  | nil => rfl
  | cons e as ih => simp [canonicalEntries, ih]

theorem canonicalAttrs_eq_map (items : List (Attr Ty)) :
    canonicalAttrs items = items.map canonicalAttr := by
  induction items with
  | nil => rfl
  | cons a items ih => simp [canonicalAttrs, ih]

theorem canonicalList_of_forall {ts : List Ty} (h : ∀ t ∈ ts, t.Canonical) :
    canonicalList ts = ts := by
  rw [canonicalList_eq_map, map_eq_self_iff.mpr h]

theorem canonicalEntries_of_forall {as : List (String × Attr Ty)} (h : ∀ e ∈ as, e.2.Canonical) :
    canonicalEntries as = as := by
  rw [canonicalEntries_eq_map]
  exact map_eq_self_iff.mpr fun e he => Prod.ext rfl (h e he)

theorem canonical_mk {d n : String} {ps : List Ty} {as : Dict (Attr Ty)}
    (hps : ∀ p ∈ ps, p.Canonical) (hsorted : as.Sorted) (has : ∀ e ∈ as, e.2.Canonical) :
    (Ty.mk d n ps as).Canonical := by
  rw [Canonical, canonical, canonicalList_of_forall hps, canonicalEntries_of_forall has,
    Dict.ofEntries_of_sorted hsorted]

end Ty

theorem Ty.canonical_canonical (t : Ty) : t.canonical.Canonical := by
  refine Ty.forall_of (P := fun t => t.canonical.Canonical)
    (Q := fun a => (Ty.canonicalAttr a).Canonical) ?_ ?_ ?_ ?_ t
  · intro d n ps as hps has
    rw [Ty.canonical, Ty.canonicalList_eq_map, Ty.canonicalEntries_eq_map]
    refine Ty.canonical_mk (List.forall_mem_map.mpr hps) (Dict.sorted_ofEntries _) fun e he => ?_
    obtain ⟨f, hf, rfl⟩ := List.mem_map.mp (Dict.mem_ofEntries he)
    exact has f hf
  · intro t ht
    exact congrArg Attr.type ht
  · intro items hitems
    have hmap := map_eq_self_iff.mpr (List.forall_mem_map.mpr hitems)
    rw [Ty.canonicalAttr, Ty.canonicalAttrs_eq_map, Attr.Canonical, Ty.canonicalAttr,
      Ty.canonicalAttrs_eq_map, hmap]
  · intro a ht hl
    cases a <;> first | rfl | simp [Attr.asType, Attr.asList] at ht hl

theorem Attr.canonical_canonicalAttr (a : Attr Ty) : (Ty.canonicalAttr a).Canonical := by
  refine Attr.forall_of_items (Q := fun a => (Ty.canonicalAttr a).Canonical) ?_ ?_ ?_ a
  · exact fun t => congrArg Attr.type t.canonical_canonical
  · intro items hitems
    have hmap := map_eq_self_iff.mpr (List.forall_mem_map.mpr hitems)
    rw [Ty.canonicalAttr, Ty.canonicalAttrs_eq_map, Attr.Canonical, Ty.canonicalAttr,
      Ty.canonicalAttrs_eq_map, hmap]
  · intro a ht hl
    cases a <;> first | rfl | simp [Attr.asType, Attr.asList] at ht hl

theorem Ty.canonical_mk_iff {d n : String} {ps : List Ty} {as : Dict (Attr Ty)} :
    (Ty.mk d n ps as).Canonical ↔
      (∀ p ∈ ps, p.Canonical) ∧ as.Sorted ∧ ∀ e ∈ as, e.2.Canonical := by
  refine ⟨fun h => ?_, fun h => Ty.canonical_mk h.1 h.2.1 h.2.2⟩
  rw [Canonical, canonical, Ty.mk.injEq, canonicalList_eq_map, canonicalEntries_eq_map] at h
  obtain ⟨-, -, hps, has⟩ := h
  refine ⟨fun p hp => ?_, has ▸ Dict.sorted_ofEntries _, fun e he => ?_⟩
  · exact map_eq_self_iff.mp hps p hp
  · rw [← has] at he
    obtain ⟨f, -, rfl⟩ := List.mem_map.mp (Dict.mem_ofEntries he)
    exact f.2.canonical_canonicalAttr

theorem Attr.canonical_type_iff {t : Ty} : (Attr.type t).Canonical ↔ t.Canonical := by
  rw [Attr.Canonical, Ty.canonicalAttr, Attr.type.injEq, Ty.Canonical]

theorem Attr.canonical_list_iff {items : List (Attr Ty)} :
    (Attr.list items).Canonical ↔ ∀ a ∈ items, a.Canonical := by
  rw [Attr.Canonical, Ty.canonicalAttr, Ty.canonicalAttrs_eq_map, Attr.list.injEq]
  exact map_eq_self_iff

end RegionIR
