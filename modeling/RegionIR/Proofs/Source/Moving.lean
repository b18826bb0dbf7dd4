import RegionIR.Proofs.Source.Attributes

/-! Lowered types and the text.

The elements of a tuple become attributes in the struct that takes its place. So a lowered type is read
back if the type was and no element of a tuple in it has a name that begins with a word. -/

namespace RegionIR

instance (t : Ty) : Decidable t.Wordless :=
  inferInstanceAs (Decidable (∀ _ ∈ _, _))

mutual

/-- Whether the elements of the tuples in the type, which lowering makes attributes, may stand as
such. The attributes of a tuple do not matter, for they are dropped. -/
def Ty.isMovable : Ty → Bool
  | .mk dialect name params attrs =>
    Ty.areMovable params &&
      if (Ty.mk dialect name params attrs).isTuple then params.all fun p => decide p.Wordless
      else Ty.entriesMovable attrs

def Ty.areMovable : List Ty → Bool
  | [] => true
  | t :: rest => t.isMovable && Ty.areMovable rest

def Ty.entriesMovable : List (String × Attr Ty) → Bool
  | [] => true
  | (_, a) :: rest => Attr.isMovable a && Ty.entriesMovable rest

def Attr.isMovable : Attr Ty → Bool
  | .type t => t.isMovable
  | .list items => Attr.areMovable items
  | _ => true

def Attr.areMovable : List (Attr Ty) → Bool
  | [] => true
  | a :: rest => Attr.isMovable a && Attr.areMovable rest

end

theorem Ty.areMovable_iff {ts : List Ty} : Ty.areMovable ts ↔ ∀ t ∈ ts, t.isMovable := by
  induction ts with
  | nil => simp [Ty.areMovable]
  | cons t ts ih => simp [Ty.areMovable, ih]

theorem Ty.entriesMovable_iff {as : List (String × Attr Ty)} :
    Ty.entriesMovable as ↔ ∀ e ∈ as, Attr.isMovable e.2 := by
  induction as with
  | nil => simp [Ty.entriesMovable]
  | cons e as ih => simp [Ty.entriesMovable, ih]

theorem Attr.areMovable_iff {items : List (Attr Ty)} :
    Attr.areMovable items ↔ ∀ a ∈ items, a.isMovable := by
  induction items with
  | nil => simp [Attr.areMovable]
  | cons a items ih => simp [Attr.areMovable, ih]

theorem Ty.isMovable_iff {d n : String} {ps : List Ty} {as : List (String × Attr Ty)} :
    (Ty.mk d n ps as).isMovable ↔ (∀ p ∈ ps, p.isMovable) ∧
      if (Ty.mk d n ps as).isTuple then ∀ p ∈ ps, p.Wordless else ∀ e ∈ as, e.2.isMovable := by
  rw [Ty.isMovable, Bool.and_eq_true, Ty.areMovable_iff]
  refine and_congr_right fun _ => ?_
  split
  · simp
  · exact Ty.entriesMovable_iff

namespace Ty

theorem wordless_lowered {t : Ty} : t.lowered.Wordless ↔ t.Wordless := by
  obtain ⟨d, n, ps, as⟩ := t
  by_cases htuple : (Ty.mk d n ps as).isTuple
  · have hd : d = "core" := by
      simp only [isTuple, is, dialect, Bool.and_eq_true, beq_iff_eq] at htuple
      exact htuple.1
    have hwords (t : Ty) (ht : t.dialect = "core" ∨ t.dialect = "adt") : t.Wordless := by
      rcases ht with h | h <;> rw [Wordless, h] <;> decide
    rw [lowered_tuple htuple]
    exact ⟨fun _ => hwords _ (.inl hd), fun _ => hwords _ (.inr rfl)⟩
  · rw [lowered_mk, if_neg htuple]
    exact Iff.rfl

theorem isReadable_of_mentions {s t : Ty} (ht : t.isReadable) (h : Ty.Mentions s t) : s.isReadable :=
  Ty.of_mentions (P := fun t => t.isReadable) (Q := fun a => a.isReadable)
    (fun ht => ⟨(isReadable_iff.mp ht).2.2.1, fun e he => ((isReadable_iff.mp ht).2.2.2 e he).2⟩)
    Attr.isReadable_type (fun hlist => by rwa [Attr.isReadable, Attr.areReadable_iff] at hlist) ht h

theorem canonical_of_mentions {s t : Ty} (ht : t.Canonical) (h : Ty.Mentions s t) : s.Canonical :=
  Ty.of_mentions (P := Canonical) (Q := Attr.Canonical)
    (fun ht => ⟨(canonical_mk_iff.mp ht).1, (canonical_mk_iff.mp ht).2.2⟩)
    Attr.canonical_type_iff.mp Attr.canonical_list_iff.mp ht h

theorem isReadable_struct {name : String} {fields : List (String × Ty)} :
    (Ty.struct name fields).isReadable ↔ ∀ f ∈ fields, f.2.isReadable ∧ f.2.Wordless := by
  have hnames : Text.isName "adt" ∧ Text.isName "struct" ∧ Text.isName "fields" ∧
      Text.isName "name" := by decide
  simp only [Ty.struct, isReadable_iff, hnames, List.forall_mem_cons, List.not_mem_nil,
    false_implies, implies_true, true_and, and_true, Attr.isReadable, Attr.areReadable_iff,
    List.forall_mem_map, Bool.and_eq_true, wordless_iff]

theorem canonical_struct {name : String} {fields : List (String × Ty)}
    (h : ∀ f ∈ fields, f.2.Canonical) : (Ty.struct name fields).Canonical := by
  have hkeys : "fields" < "name" := by decide
  refine canonical_mk (List.forall_mem_nil _) (List.pairwise_pair.mpr hkeys) ?_
  simp only [List.forall_mem_cons, List.not_mem_nil, false_implies, implies_true, and_true,
    Attr.canonical_list_iff, List.forall_mem_map, Attr.canonical_type_iff]
  exact ⟨fun f hf => ⟨rfl, h f hf⟩, rfl⟩

theorem forall_mem_fields_iff {P : Ty → Prop} {elements : List Ty} :
    (∀ f ∈ elements.mapIdx fun i t => (tupleFieldName i, t), P f.2) ↔ ∀ t ∈ elements, P t := by
  simp only [List.mem_mapIdx]
  constructor
  · intro h t ht
    obtain ⟨i, hi, rfl⟩ := List.getElem_of_mem ht
    exact h _ ⟨i, hi, rfl⟩
  · rintro h f ⟨i, hi, rfl⟩
    exact h _ (List.getElem_mem hi)

end Ty

/-- What was readable is so after lowering exactly if the elements of its tuples may stand as
attributes. -/
theorem isReadable_lowered_iff :
    (∀ t : Ty, t.isReadable → (t.lowered.isReadable ↔ t.isMovable)) ∧
    ∀ a : Attr Ty, a.isReadable → (a.lowered.isReadable ↔ a.isMovable) := by
  refine Ty.both_of ?_ ?_ ?_ ?_
  · intro d n ps as hps has h
    obtain ⟨hd, hn, hps', has'⟩ := Ty.isReadable_iff.mp h
    have hparams : (∀ p ∈ ps, p.lowered.isReadable) ↔ ∀ p ∈ ps, p.isMovable :=
      forall₂_congr fun p hp => hps p hp (hps' p hp)
    rw [Ty.isMovable_iff, ← hparams, Ty.lowered_mk]
    split
    · rw [Ty.structOfElements, Ty.isReadable_struct,
        Ty.forall_mem_fields_iff (P := fun t => t.isReadable ∧ t.Wordless), List.forall_mem_map]
      simp only [Ty.wordless_lowered, imp_and, forall_and]
    · simp only [Ty.isReadable_iff, hd, hn, true_and, List.forall_mem_map, Dict.lowered]
      refine and_congr_right fun _ => forall₂_congr fun e he => ?_
      rw [has e he (has' e he).2, and_iff_right (has' e he).1]
  · intro t ht h
    rw [Attr.isReadable, Bool.and_eq_true, ← Ty.wordless_iff] at h
    rw [Attr.lowered_type, Attr.isReadable, Bool.and_eq_true, ← Ty.wordless_iff,
      Ty.wordless_lowered, and_iff_left h.2, ht h.1, Attr.isMovable]
  · intro items hitems h
    rw [Attr.isReadable, Attr.areReadable_iff] at h
    rw [Attr.lowered_list, Attr.isReadable, Attr.areReadable_iff, Attr.isMovable,
      Attr.areMovable_iff, List.forall_mem_map]
    exact forall₂_congr fun a ha => hitems a ha (h a ha)
  · intro a ht hl h
    rw [Attr.lowered_leaf ht hl, h]
    cases a <;> simp_all [Attr.isMovable, Attr.asType, Attr.asList]

theorem canonical_lowered :
    (∀ t : Ty, t.Canonical → t.lowered.Canonical) ∧
    ∀ a : Attr Ty, a.Canonical → a.lowered.Canonical := by
  refine Ty.both_of ?_ ?_ ?_ ?_
  · intro d n ps as hps has h
    obtain ⟨hps', hsorted, has'⟩ := Ty.canonical_mk_iff.mp h
    rw [Ty.lowered_mk]
    split
    · refine Ty.canonical_struct ?_
      rw [Ty.forall_mem_fields_iff (P := Ty.Canonical), List.forall_mem_map]
      exact fun p hp => hps p hp (hps' p hp)
    · refine Ty.canonical_mk_iff.mpr ⟨?_, ?_, ?_⟩
      · exact List.forall_mem_map.mpr fun p hp => hps p hp (hps' p hp)
      · exact List.pairwise_map.mpr hsorted
      · exact List.forall_mem_map.mpr fun e he => has e he (has' e he)
  · intro t ht h
    rw [Attr.canonical_type_iff] at h
    rw [Attr.lowered_type, Attr.canonical_type_iff]
    exact ht h
  · intro items hitems h
    rw [Attr.canonical_list_iff] at h
    rw [Attr.lowered_list, Attr.canonical_list_iff, List.forall_mem_map]
    exact fun a ha => hitems a ha (h a ha)
  · intro a ht hl h
    rwa [Attr.lowered_leaf ht hl]

end RegionIR
