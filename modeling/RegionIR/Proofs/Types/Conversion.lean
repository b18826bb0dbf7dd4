import Mathlib.Tactic.Common
import RegionIR.Lowering.TupleType
import RegionIR.Proofs.Types.Traversal

/-! What the conversion of tuple types does to a type.

It never fails, its results hold no tuple type, and a type without tuple types stays as it is.
A tuple becomes the struct of its converted elements, and the fields of a struct are converted
one by one. -/

namespace RegionIR

namespace Converter

variable (c : Converter)

theorem areLegalTypes_eq (ts : List Ty) : c.areLegalTypes ts = ts.all c.isLegalType := by
  induction ts with
  | nil => rfl
  | cons t ts ih => simp [areLegalTypes, ih]

theorem areLegalEntries_eq (as : List (String × Attr Ty)) :
    c.areLegalEntries as = as.all fun e => c.isLegalAttr e.2 := by
  induction as with
  | nil => rfl
  | cons e as ih => simp [areLegalEntries, ih]

theorem areLegalAttrs_eq (items : List (Attr Ty)) :
    c.areLegalAttrs items = items.all c.isLegalAttr := by
  induction items with
  | nil => rfl
  | cons a items ih => simp [areLegalAttrs, ih]

theorem convertTypes_eq (ts : List Ty) : c.convertTypes ts = ts.mapM c.convertType := by
  induction ts with
  | nil => rfl
  | cons t ts ih => simp [convertTypes, ih, List.mapM_cons]

theorem convertEntries_eq (as : List (String × Attr Ty)) :
    c.convertEntries as = as.mapM fun e => do return (e.1, ← c.convertAttr e.2) := by
  induction as with
  | nil => rfl
  | cons e as ih =>
    simp only [convertEntries, ih, List.mapM_cons, bind_assoc, pure_bind]

theorem convertAttrs_eq (items : List (Attr Ty)) :
    c.convertAttrs items = items.mapM c.convertAttr := by
  induction items with
  | nil => rfl
  | cons a items ih => simp [convertAttrs, ih, List.mapM_cons]

/-- The converted attribute, or the attribute itself when it cannot be converted. -/
def convertOrKeepAttr (a : Attr Ty) : Attr Ty :=
  (c.convertAttr a).getD a

theorem convertTypes_of_total (ts : List Ty)
    (h : ∀ t ∈ ts, c.convertType t = some (c.convertOrKeep t)) :
    c.convertTypes ts = some (ts.map c.convertOrKeep) := by
  induction ts with
  | nil => rfl
  | cons t ts ih =>
    simp only [List.forall_mem_cons] at h
    simp [convertTypes, h.1, ih h.2]

theorem convertEntries_of_total (as : List (String × Attr Ty))
    (h : ∀ e ∈ as, c.convertAttr e.2 = some (c.convertOrKeepAttr e.2)) :
    c.convertEntries as = some (as.map fun e => (e.1, c.convertOrKeepAttr e.2)) := by
  induction as with
  | nil => rfl
  | cons e as ih =>
    simp only [List.forall_mem_cons] at h
    simp [convertEntries, h.1, ih h.2]

theorem convertAttrs_of_total (items : List (Attr Ty))
    (h : ∀ a ∈ items, c.convertAttr a = some (c.convertOrKeepAttr a)) :
    c.convertAttrs items = some (items.map c.convertOrKeepAttr) := by
  induction items with
  | nil => rfl
  | cons a items ih =>
    simp only [List.forall_mem_cons] at h
    simp [convertAttrs, h.1, ih h.2]

theorem convertAttr_of_leaf {a : Attr Ty} (ht : a.asType = none) (hl : a.asList = none) :
    c.convertAttr a = some a ∧ c.isLegalAttr a := by
  cases a <;> simp_all [convertAttr, isLegalAttr, Attr.asType, Attr.asList]

end Converter

namespace Ty

/-- A type without tuples: what the tuple lowering may leave. -/
def TupleFree (t : Ty) : Prop := Converter.tuples.isLegalType t

instance (t : Ty) : Decidable t.TupleFree := inferInstanceAs (Decidable (_ = true))

/-- The type with every tuple in it made a struct. -/
def lowered (t : Ty) : Ty := Converter.tuples.convertOrKeep t

end Ty

namespace Attr

def TupleFree (a : Attr Ty) : Prop := Converter.tuples.isLegalAttr a

instance (a : Attr Ty) : Decidable a.TupleFree := inferInstanceAs (Decidable (_ = true))

def lowered (a : Attr Ty) : Attr Ty := Converter.tuples.convertOrKeepAttr a

end Attr

namespace Ty

theorem touches_tuples (t : Ty) : Converter.tuples.touches t = t.isTuple := by
  simp [Converter.touches, Converter.tuples]

theorem convertOuter_tuples (t : Ty) : Converter.tuples.convertOuter t =
    some (if t.isTuple then .structOfElements t.params else t) := by
  cases h : t.isTuple <;>
    simp [Converter.convertOuter, Converter.tuples, tupleToStruct, tupleElements, h]

theorem tupleFree_mk_iff {d n : String} {ps : List Ty} {as : List (String × Attr Ty)} :
    (Ty.mk d n ps as).TupleFree ↔
      (Ty.mk d n ps as).isTuple = false ∧ (∀ p ∈ ps, p.TupleFree) ∧ ∀ e ∈ as, e.2.TupleFree := by
  simp [TupleFree, Attr.TupleFree, Converter.isLegalType, touches_tuples,
    Converter.areLegalTypes_eq, Converter.areLegalEntries_eq, and_assoc]

end Ty

namespace Attr

theorem tupleFree_type_iff {t : Ty} : (Attr.type t).TupleFree ↔ t.TupleFree := by
  simp [TupleFree, Ty.TupleFree, Converter.isLegalAttr]

theorem tupleFree_list_iff {items : List (Attr Ty)} :
    (Attr.list items).TupleFree ↔ ∀ a ∈ items, a.TupleFree := by
  simp [TupleFree, Converter.isLegalAttr, Converter.areLegalAttrs_eq]

end Attr

mutual

/-- The type `s` is mentioned in a type: it is this type, or it is mentioned in a parameter or an
attribute of it. -/
inductive Ty.Mentions (s : Ty) : Ty → Prop
  | self : Ty.Mentions s s
  | param {d n : String} {ps : List Ty} {as : List (String × Attr Ty)} {p : Ty} : p ∈ ps →
      Ty.Mentions s p → Ty.Mentions s (.mk d n ps as)
  | attr {d n : String} {ps : List Ty} {as : List (String × Attr Ty)} {e : String × Attr Ty} :
      e ∈ as → Attr.Mentions s e.2 → Ty.Mentions s (.mk d n ps as)

inductive Attr.Mentions (s : Ty) : Attr Ty → Prop
  | type {t : Ty} : Ty.Mentions s t → Attr.Mentions s (.type t)
  | item {items : List (Attr Ty)} {a : Attr Ty} : a ∈ items → Attr.Mentions s a →
      Attr.Mentions s (.list items)

end

section Mentions

variable {P : Ty → Prop} {Q : Attr Ty → Prop} {s : Ty}

mutual

/-- What holds of a type and passes on to its parts holds of all types mentioned in it. -/
theorem Ty.of_mentions
    (hparts : ∀ {d n ps as}, P (.mk d n ps as) → (∀ p ∈ ps, P p) ∧ ∀ e ∈ as, Q e.2)
    (htype : ∀ {t}, Q (.type t) → P t) (hlist : ∀ {items}, Q (.list items) → ∀ a ∈ items, Q a)
    {t : Ty} (ht : P t) : Ty.Mentions s t → P s
  | .self => ht
  | .param hp h => Ty.of_mentions hparts htype hlist ((hparts ht).1 _ hp) h
  | .attr he h => Attr.of_mentions hparts htype hlist ((hparts ht).2 _ he) h

theorem Attr.of_mentions
    (hparts : ∀ {d n ps as}, P (.mk d n ps as) → (∀ p ∈ ps, P p) ∧ ∀ e ∈ as, Q e.2)
    (htype : ∀ {t}, Q (.type t) → P t) (hlist : ∀ {items}, Q (.list items) → ∀ a ∈ items, Q a)
    {a : Attr Ty} (ha : Q a) : Attr.Mentions s a → P s
  | .type h => Ty.of_mentions hparts htype hlist (htype ha) h
  | .item hi h => Attr.of_mentions hparts htype hlist (hlist ha _ hi) h

end

end Mentions

theorem Ty.TupleFree.not_isTuple {t : Ty} (h : t.TupleFree) : t.isTuple = false := by
  obtain ⟨d, n, ps, as⟩ := t
  exact (Ty.tupleFree_mk_iff.mp h).1

theorem Ty.TupleFree.mentions {s t : Ty} (ht : t.TupleFree) (h : Ty.Mentions s t) : s.TupleFree :=
  Ty.of_mentions (Q := Attr.TupleFree) (fun ht => (Ty.tupleFree_mk_iff.mp ht).2)
    Attr.tupleFree_type_iff.mp Attr.tupleFree_list_iff.mp ht h

theorem Ty.not_isTuple_of_mentions {s t : Ty} (ht : t.TupleFree) (h : Ty.Mentions s t) :
    s.isTuple = false :=
  (ht.mentions h).not_isTuple

theorem Attr.not_isTuple_of_mentions {s : Ty} {a : Attr Ty} (ha : a.TupleFree)
    (h : Attr.Mentions s a) : s.isTuple = false :=
  (Attr.of_mentions (P := Ty.TupleFree) (fun ht => (Ty.tupleFree_mk_iff.mp ht).2)
    Attr.tupleFree_type_iff.mp Attr.tupleFree_list_iff.mp ha h).not_isTuple

theorem Ty.tupleFree_of_mentions {t : Ty} (h : ∀ s, Ty.Mentions s t → s.isTuple = false) :
    t.TupleFree := by
  revert h
  refine Ty.forall_of
    (P := fun t => (∀ s, Ty.Mentions s t → s.isTuple = false) → t.TupleFree)
    (Q := fun a => (∀ s, Attr.Mentions s a → s.isTuple = false) → a.TupleFree) ?_ ?_ ?_ ?_ t
  · intro d n ps as hps has h
    exact Ty.tupleFree_mk_iff.mpr ⟨h _ .self,
      fun p hp => hps p hp fun s hs => h s (.param hp hs),
      fun e he => has e he fun s hs => h s (.attr he hs)⟩
  · intro t ht h
    exact Attr.tupleFree_type_iff.mpr (ht fun s hs => h s (.type hs))
  · intro items hitems h
    exact Attr.tupleFree_list_iff.mpr fun a ha => hitems a ha fun s hs => h s (.item ha hs)
  · intro a ht hl _
    exact (Converter.convertAttr_of_leaf _ ht hl).2

theorem Attr.tupleFree_of_mentions {a : Attr Ty} (h : ∀ s, Attr.Mentions s a → s.isTuple = false) :
    a.TupleFree := by
  revert h
  refine Attr.forall_of_items
    (Q := fun a => (∀ s, Attr.Mentions s a → s.isTuple = false) → a.TupleFree) ?_ ?_ ?_ a
  · intro t h
    exact Attr.tupleFree_type_iff.mpr (Ty.tupleFree_of_mentions fun s hs => h s (.type hs))
  · intro items hitems h
    exact Attr.tupleFree_list_iff.mpr fun a ha => hitems a ha fun s hs => h s (.item ha hs)
  · intro a ht hl _
    exact (Converter.convertAttr_of_leaf _ ht hl).2

/-- Entries with their attributes converted. -/
def Dict.lowered (d : Dict (Attr Ty)) : Dict (Attr Ty) :=
  d.map fun e => (e.1, e.2.lowered)

namespace Ty

theorem lowered_of_tupleFree {t : Ty} (h : t.TupleFree) : t.lowered = t := by
  obtain ⟨d, n, ps, as⟩ := t
  simp only [TupleFree] at h
  simp [lowered, Converter.convertOrKeep, Converter.convertType, h]

end Ty

theorem Ty.convertType_tuples (t : Ty) : Converter.tuples.convertType t = some t.lowered := by
  refine Ty.forall_of (P := fun t => Converter.tuples.convertType t = some t.lowered)
    (Q := fun a => Converter.tuples.convertAttr a = some a.lowered) ?_ ?_ ?_ ?_ t
  · intro d n ps as hps has
    by_cases hl : Converter.tuples.isLegalType (.mk d n ps as)
    · simp [Ty.lowered, Converter.convertOrKeep, Converter.convertType, hl]
    · simp [Ty.lowered, Converter.convertOrKeep, Converter.convertType, hl,
        Converter.convertTypes_of_total _ _ hps, Converter.convertEntries_of_total _ _ has,
        Ty.convertOuter_tuples]
  · intro t ht
    simp [Attr.lowered, Converter.convertOrKeepAttr, Converter.convertAttr, ht]
  · intro items hitems
    simp [Attr.lowered, Converter.convertOrKeepAttr, Converter.convertAttr,
      Converter.convertAttrs_of_total _ _ hitems]
  · intro a ht hl
    simp [Attr.lowered, Converter.convertOrKeepAttr, (Converter.convertAttr_of_leaf _ ht hl).1]

namespace Attr

theorem convertAttr_tuples (a : Attr Ty) : Converter.tuples.convertAttr a = some a.lowered := by
  refine Attr.forall_of_items
    (Q := fun a => Converter.tuples.convertAttr a = some a.lowered) ?_ ?_ ?_ a
  · intro t
    simp [Attr.lowered, Converter.convertOrKeepAttr, Converter.convertAttr, Ty.convertType_tuples]
  · intro items hitems
    simp [Attr.lowered, Converter.convertOrKeepAttr, Converter.convertAttr,
      Converter.convertAttrs_of_total _ _ hitems]
  · intro a ht hl
    simp [Attr.lowered, Converter.convertOrKeepAttr, (Converter.convertAttr_of_leaf _ ht hl).1]

@[simp] theorem lowered_type (t : Ty) : (Attr.type t).lowered = .type t.lowered := by
  simp [lowered, Converter.convertOrKeepAttr, Converter.convertAttr, Ty.convertType_tuples]

@[simp] theorem lowered_list (items : List (Attr Ty)) :
    (Attr.list items).lowered = .list (items.map lowered) := by
  have h := Converter.convertAttrs_of_total Converter.tuples items fun a _ =>
    convertAttr_tuples a
  simp only [lowered, Converter.convertOrKeepAttr, Converter.convertAttr, h]
  rfl

theorem lowered_leaf {a : Attr Ty} (ht : a.asType = none) (hl : a.asList = none) :
    a.lowered = a := by
  simp [lowered, Converter.convertOrKeepAttr, (Converter.convertAttr_of_leaf _ ht hl).1]

@[simp] theorem lowered_unit : (Attr.unit : Attr Ty).lowered = .unit := lowered_leaf rfl rfl

@[simp] theorem lowered_bool (b : Bool) : (Attr.bool b : Attr Ty).lowered = .bool b :=
  lowered_leaf rfl rfl

@[simp] theorem lowered_int (bits : UInt64) : (Attr.int bits : Attr Ty).lowered = .int bits :=
  lowered_leaf rfl rfl

@[simp] theorem lowered_float (bits : UInt64) : (Attr.float bits : Attr Ty).lowered = .float bits :=
  lowered_leaf rfl rfl

@[simp] theorem lowered_string (s : String) : (Attr.string s : Attr Ty).lowered = .string s :=
  lowered_leaf rfl rfl

@[simp] theorem lowered_symbol (s : String) : (Attr.symbol s : Attr Ty).lowered = .symbol s :=
  lowered_leaf rfl rfl

theorem lowered_of_tupleFree {a : Attr Ty} (h : a.TupleFree) : a.lowered = a := by
  revert h
  refine Attr.forall_of_items (Q := fun a => a.TupleFree → a.lowered = a) ?_ ?_ ?_ a
  · intro t h
    rw [lowered_type, Ty.lowered_of_tupleFree (tupleFree_type_iff.mp h)]
  · intro items ih h
    rw [lowered_list]
    congr 1
    have hmap : items.map lowered = items.map id :=
      List.map_congr_left fun a ha => ih a ha (tupleFree_list_iff.mp h a ha)
    rw [hmap, List.map_id]
  · intro a ht hl _
    exact lowered_leaf ht hl

end Attr

namespace Dict

theorem lowered_of_tupleFree {d : Dict (Attr Ty)} (h : ∀ e ∈ d, e.2.TupleFree) :
    d.lowered = d := by
  have hmap : d.map (fun e => (e.1, e.2.lowered)) = d.map id :=
    List.map_congr_left fun e he => by rw [Attr.lowered_of_tupleFree (h e he)]; rfl
  rw [lowered, hmap, List.map_id]

theorem find?_lowered (d : Dict (Attr Ty)) (key : String) :
    d.lowered.find? key = (d.find? key).map Attr.lowered := by
  induction d with
  | nil => rfl
  | cons e d ih =>
    obtain ⟨k, a⟩ := e
    simp only [find?, lowered, List.map_cons, List.lookup_cons] at ih ⊢
    split
    · rfl
    · exact ih

end Dict

namespace Ty

theorem lowered_mk {d n : String} {ps : List Ty} {as : List (String × Attr Ty)} :
    (Ty.mk d n ps as).lowered = if (Ty.mk d n ps as).isTuple then .structOfElements (ps.map lowered)
      else .mk d n (ps.map lowered) (Dict.lowered as) := by
  by_cases hl : (Ty.mk d n ps as).TupleFree
  · obtain ⟨hnt, hps, has⟩ := tupleFree_mk_iff.mp hl
    have hmap : ps.map lowered = ps.map id :=
      List.map_congr_left fun p hp => lowered_of_tupleFree (hps p hp)
    rw [lowered_of_tupleFree hl, hnt, hmap, List.map_id, Dict.lowered_of_tupleFree has]
    simp
  · have hps := Converter.convertTypes_of_total Converter.tuples ps fun t _ =>
      convertType_tuples t
    have has := Converter.convertEntries_of_total Converter.tuples as fun e _ =>
      Attr.convertAttr_tuples e.2
    have hconv := convertType_tuples (.mk d n ps as)
    simp only [TupleFree] at hl
    simp only [Converter.convertType, hl, hps, has, Option.bind_eq_bind, Option.bind_some,
      Bool.false_eq_true, if_false, convertOuter_tuples, Option.some.injEq] at hconv
    exact hconv.symm

theorem lowered_tuple {t : Ty} (h : t.isTuple) :
    t.lowered = .structOfElements (t.params.map lowered) := by
  obtain ⟨d, n, ps, as⟩ := t
  rw [lowered_mk, if_pos h, params]

theorem isTuple_lowered (t : Ty) : t.lowered.isTuple = false := by
  obtain ⟨d, n, ps, as⟩ := t
  rw [lowered_mk]
  split
  · rfl
  · rename_i h
    exact (Bool.not_eq_true _).mp h

theorem structFields_struct (name : String) (fields : List (String × Ty)) :
    (Ty.struct name fields).structFields = some fields := by
  have hmap : (fields.map fun f => Attr.list [.symbol f.1, .type f.2]).mapM fieldOf
      = some fields := by
    induction fields with
    | nil => rfl
    | cons f fields ih => simp [List.mapM_cons, ih, fieldOf]
  simp [Ty.struct, structFields, isStruct, is, dialect, Ty.name, attrs, Dict.find?,
    Attr.asList, hmap]

theorem structFields_of_tuple {t : Ty} (h : t.isTuple) : t.structFields = none := by
  have hns : t.isStruct = false := by
    simp only [isTuple, is, Bool.and_eq_true, beq_iff_eq] at h
    simp [isStruct, is, h.1]
  simp [structFields, hns]

theorem structFields_lowered_tuple {t : Ty} (h : t.isTuple) :
    t.lowered.structFields =
      some (t.params.mapIdx fun i element => (tupleFieldName i, element.lowered)) := by
  rw [lowered_tuple h, structOfElements, structFields_struct]
  congr 1
  refine List.ext_getElem? fun i => ?_
  simp only [List.getElem?_mapIdx, List.getElem?_map, Option.map_map]
  rfl

theorem mem_of_mapM_fieldOf {items : List (Attr Ty)} {fields : List (String × Ty)}
    (h : items.mapM fieldOf = some fields) {f : String × Ty} (hf : f ∈ fields) :
    Attr.list [.symbol f.1, .type f.2] ∈ items := by
  rw [mapM_eq_some_iff] at h
  induction h with
  | nil => exact absurd hf List.not_mem_nil
  | @cons a g items fields hfield hrest ih =>
    rcases List.mem_cons.mp hf with rfl | hf
    · have ha : a = .list [.symbol f.1, .type f.2] := by
        unfold fieldOf at hfield
        split at hfield
        · rw [← Option.some.inj hfield]
        · simp at hfield
      exact ha ▸ List.mem_cons_self
    · exact List.mem_cons_of_mem _ (ih hf)

theorem mentions_of_mem_structFields {t : Ty} {f : String × Ty} (h : f ∈ t.structFields.getD []) :
    Ty.Mentions f.2 t := by
  obtain ⟨d, n, ps, as⟩ := t
  cases hfields : (Ty.mk d n ps as).structFields with
  | none => simp [hfields] at h
  | some fields =>
    rw [hfields, Option.getD_some] at h
    simp only [structFields, Option.ite_none_right_eq_some, Option.bind_eq_some_iff, attrs] at hfields
    obtain ⟨-, a, ha, items, hitems, hmap⟩ := hfields
    obtain rfl : a = .list items := by
      cases a <;> simp_all [Attr.asList]
    exact .attr (Dict.mem_of_find? ha) (.item (mem_of_mapM_fieldOf hmap h)
      (.item (a := .type f.2) (by simp) (.type .self)))

theorem tupleFree_struct {name : String} {fields : List (String × Ty)}
    (h : ∀ f ∈ fields, f.2.TupleFree) : (Ty.struct name fields).TupleFree := by
  refine tupleFree_mk_iff.mpr ⟨rfl, by simp, ?_⟩
  simp only [List.forall_mem_cons, Attr.tupleFree_list_iff, List.forall_mem_map,
    Attr.tupleFree_type_iff, List.not_mem_nil, false_imp_iff, implies_true, and_true]
  exact ⟨fun f hf => ⟨by simp [Attr.TupleFree, Converter.isLegalAttr], h f hf⟩,
    by simp [Attr.TupleFree, Converter.isLegalAttr]⟩

theorem tupleFree_lowered (t : Ty) : t.lowered.TupleFree := by
  refine Ty.forall_of (P := fun t => t.lowered.TupleFree) (Q := fun a => a.lowered.TupleFree)
    ?_ ?_ ?_ ?_ t
  · intro d n ps as hps has
    have hnot := isTuple_lowered (.mk d n ps as)
    rw [lowered_mk] at hnot ⊢
    split
    · refine tupleFree_struct fun f hf => ?_
      simp only [List.mem_mapIdx, List.length_map, List.getElem_map] at hf
      obtain ⟨i, hi, rfl⟩ := hf
      exact hps _ (List.getElem_mem hi)
    · rename_i h
      rw [if_neg h] at hnot
      refine tupleFree_mk_iff.mpr ⟨hnot, List.forall_mem_map.mpr hps, ?_⟩
      exact List.forall_mem_map.mpr has
  · exact fun t ht => by rwa [Attr.lowered_type, Attr.tupleFree_type_iff]
  · intro items hitems
    rw [Attr.lowered_list, Attr.tupleFree_list_iff]
    exact List.forall_mem_map.mpr hitems
  · intro a ht hl
    rw [Attr.lowered_leaf ht hl]
    exact (Converter.convertAttr_of_leaf _ ht hl).2

@[simp] theorem lowered_lowered (t : Ty) : t.lowered.lowered = t.lowered :=
  lowered_of_tupleFree t.tupleFree_lowered

theorem lowered_eq_self_iff {t : Ty} : t.lowered = t ↔ t.TupleFree :=
  ⟨fun h => h ▸ t.tupleFree_lowered, lowered_of_tupleFree⟩

end Ty

theorem Attr.tupleFree_lowered (a : Attr Ty) : a.lowered.TupleFree := by
  refine Attr.forall_of_items (Q := fun a => a.lowered.TupleFree) ?_ ?_ ?_ a
  · exact fun t => by rw [lowered_type, tupleFree_type_iff]; exact t.tupleFree_lowered
  · intro items hitems
    rw [lowered_list, tupleFree_list_iff]
    exact List.forall_mem_map.mpr hitems
  · intro a ht hl
    rw [lowered_leaf ht hl]
    exact (Converter.convertAttr_of_leaf _ ht hl).2

@[simp] theorem Dict.lowered_lowered (d : Dict (Attr Ty)) : d.lowered.lowered = d.lowered := by
  refine Dict.lowered_of_tupleFree fun e he => ?_
  obtain ⟨f, -, rfl⟩ := List.mem_map.mp he
  exact f.2.tupleFree_lowered

namespace Converter

variable {c : Converter}

/-- Whether all that the conversion gives is legal. Such a conversion has nothing left to do after
one application. -/
def Settles (c : Converter) : Prop :=
  ∀ ty new, c.convertType ty = some new → c.isLegalType new

theorem settles_tuples : tuples.Settles := by
  intro ty new h
  rw [Ty.convertType_tuples, Option.some.injEq] at h
  exact h ▸ ty.tupleFree_lowered

theorem convertType_of_legal {ty : Ty} (h : c.isLegalType ty) : c.convertType ty = some ty := by
  obtain ⟨d, n, ps, as⟩ := ty
  rw [convertType, if_pos h]

theorem convertAttr_of_legal {a : Attr Ty} (h : c.isLegalAttr a) : c.convertAttr a = some a := by
  revert h
  refine Attr.forall_of_items
    (Q := fun a => c.isLegalAttr a → c.convertAttr a = some a) ?_ ?_ ?_ a
  · intro t h
    simp [convertAttr, convertType_of_legal (by simpa [isLegalAttr] using h)]
  · intro items ih h
    rw [isLegalAttr, areLegalAttrs_eq, List.all_eq_true] at h
    have hself (a : Attr Ty) (ha : a ∈ items) : c.convertOrKeepAttr a = a := by
      simp [convertOrKeepAttr, ih a ha (h a ha)]
    have hitems := c.convertAttrs_of_total items fun a ha => by rw [hself a ha, ih a ha (h a ha)]
    rw [List.map_congr_left hself, List.map_id'] at hitems
    simp [convertAttr, hitems]
  · exact fun a ht hl _ => (convertAttr_of_leaf c ht hl).1

theorem forall_mem_of_convertAttrs {P : Attr Ty → Prop} {items new : List (Attr Ty)}
    (hitems : ∀ a ∈ items, ∀ b, c.convertAttr a = some b → P b)
    (h : c.convertAttrs items = some new) : ∀ b ∈ new, P b := by
  induction items generalizing new with
  | nil =>
    rw [convertAttrs, Option.some.injEq] at h
    simp [← h]
  | cons a items ih =>
    simp only [convertAttrs, Option.bind_eq_bind, Option.bind_eq_some_iff, Option.pure_def,
      Option.some.injEq] at h
    obtain ⟨b, hb, bs, hbs, rfl⟩ := h
    rw [List.forall_mem_cons] at hitems ⊢
    exact ⟨hitems.1 b hb, ih hitems.2 hbs⟩

theorem Settles.attr (hc : c.Settles) : ∀ a new, c.convertAttr a = some new →
    c.isLegalAttr new := by
  refine Attr.forall_of_items ?_ ?_ ?_
  · intro t new h
    simp only [convertAttr, Option.bind_eq_bind, Option.bind_eq_some_iff, Option.pure_def,
      Option.some.injEq] at h
    obtain ⟨ty, hty, rfl⟩ := h
    simpa [isLegalAttr] using hc _ _ hty
  · intro items ih new h
    simp only [convertAttr, Option.bind_eq_bind, Option.bind_eq_some_iff, Option.pure_def,
      Option.some.injEq] at h
    obtain ⟨bs, hbs, rfl⟩ := h
    rw [isLegalAttr, areLegalAttrs_eq, List.all_eq_true]
    exact forall_mem_of_convertAttrs ih hbs
  · intro a ht hl new h
    obtain ⟨hself, hlegal⟩ := convertAttr_of_leaf c ht hl
    rw [hself, Option.some.injEq] at h
    exact h ▸ hlegal

theorem Settles.convertOrKeep (hc : c.Settles) (ty : Ty) :
    c.convertOrKeep (c.convertOrKeep ty) = c.convertOrKeep ty := by
  cases h : c.convertType ty with
  | none => simp [Converter.convertOrKeep, h]
  | some new => simp [Converter.convertOrKeep, h, convertType_of_legal (hc ty new h)]

theorem Settles.convertOrKeepAttr (hc : c.Settles) (a : Attr Ty) :
    c.convertOrKeepAttr (c.convertOrKeepAttr a) = c.convertOrKeepAttr a := by
  cases h : c.convertAttr a with
  | none => simp [Converter.convertOrKeepAttr, h]
  | some new => simp [Converter.convertOrKeepAttr, h, convertAttr_of_legal (hc.attr a new h)]

end Converter

end RegionIR
