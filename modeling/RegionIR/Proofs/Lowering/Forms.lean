import RegionIR.Lowering.Tuples
import RegionIR.Proofs.Rewrite.Retyping

/-! What one visit makes of an operation.

A visit lowers a tuple operation if the types of its operands allow it and leaves it alone
otherwise; any other operation is retyped. The form of an operation tells what it has become. -/

namespace RegionIR

namespace Op

/-- Whether the operation has the name of a tuple operation. -/
def isTupleOp (op : Op) : Bool :=
  op.is "adt" "tuple_new" || op.is "adt" "tuple_get"

/-- The type that the operation constructs, if it is a well-formed construction. -/
def construction? (op : Op) : Option Ty :=
  match op.view .tupleNew with
  | .ok (.tupleNew _ _ type) => some type
  | _ => none

/-- What the operation extracts from and at which index, if it is a well-formed extraction. -/
def extraction? (op : Op) : Option (ValueId × Nat) :=
  match op.view .tupleGet with
  | .ok (.tupleGet tuple index _) => some (tuple, index.toNat)
  | _ => none

/-- The construction of a struct with the same operands. -/
def toStructNew (op : Op) (type : Ty) : Op :=
  { op with name := "struct_new", resultTypes := [type], attrs := [], regions := []
            successors := [] }

/-- The extraction of a field from the same operand. -/
def toStructExtract (op : Op) (field : String) (type : Ty) : Op :=
  { op with name := "struct_extract", resultTypes := [type], attrs := [("field", .symbol field)]
            regions := [], successors := [] }

/-- What takes the place of a tuple operation when the operands have the given types. A field
type that is extracted goes through `settle` first. -/
def lowering (settle : Ty → Ty) (types : ValueId → Ty) (op : Op) : Option Op :=
  match op.construction?, op.extraction? with
  | some type, _ =>
    if type.isTuple && type.params.length == op.operands.length then
      some (op.toStructNew type.lowered)
    else none
  | none, some (tuple, index) => do
    let fields ← (types tuple).structFields
    let (field, type) ← fields[index]?
    return op.toStructExtract field (settle type)
  | none, none => none

/-- The operation after a visit. -/
def visited (settle : Ty → Ty) (types : ValueId → Ty) (op : Op) : Op :=
  if op.isTupleOp then (op.lowering settle types).getD op else op.retyped

/-- The operation with other names for the values it uses and defines. -/
def rename (f : ValueId → ValueId) (op : Op) : Op :=
  { op with operands := op.operands.map f, results := op.results.map f }

theorem onlyResult_eq_ok_iff {op : Op} {v : ValueId} {type : Ty} :
    op.onlyResult = .ok (v, type) ↔ op.resultTypes = [type] ∧ op.results = [v] := by
  unfold onlyResult
  rcases op.resultTypes with _ | ⟨ty, _ | ⟨ty', tys⟩⟩ <;>
    rcases op.results with _ | ⟨w, _ | ⟨w', vs⟩⟩ <;> simp [and_comm]

theorem onlyOperand_eq_ok_iff {op : Op} {v : ValueId} :
    op.onlyOperand = .ok v ↔ op.operands = [v] := by
  unfold onlyOperand
  rcases op.operands with _ | ⟨w, _ | ⟨w', vs⟩⟩ <;> simp

theorem required_eq_ok_iff {α : Type} {op : Op} {key : String} {project : Attr Ty → Option α}
    {x : α} : op.required key project = .ok x ↔
      ∃ a, op.attrs.find? key = some a ∧ project a = some x := by
  unfold required
  split
  · simp [*]
  · rename_i a ha
    split
    · simp [*]
    · rename_i y hy
      simp [ha, hy]

theorem asInt_eq_some_iff {a : Attr Ty} {bits : UInt64} : a.asInt = some bits ↔ a = .int bits := by
  cases a <;> simp [Attr.asInt]

theorem construction?_eq_some_iff {op : Op} {type : Ty} : op.construction? = some type ↔
    op.is "adt" "tuple_new" ∧ (∃ v, op.results = [v]) ∧ op.resultTypes = [type] := by
  have hview : op.construction? = some type ↔
      ∃ v, op.view .tupleNew = .ok (.tupleNew op.operands v type) := by
    unfold construction?
    constructor
    · intro h
      split at h
      · rename_i elements v ty hv
        cases Option.some.inj h
        have hel : elements = op.operands := by
          simp only [view, viewParts, OpKind.dialect, OpKind.name] at hv
          by_cases his : op.is "adt" "tuple_new"
          · simp only [his, if_true, except_bind_eq_ok, except_pure_eq_ok,
              OpView.tupleNew.injEq] at hv
            obtain ⟨_, -, h, -⟩ := hv
            exact h.symm
          · simp [his] at hv
        exact ⟨v, hel ▸ hv⟩
      · simp at h
    · rintro ⟨v, hv⟩
      rw [hv]
  rw [hview]
  simp only [view, viewParts, OpKind.dialect, OpKind.name]
  by_cases his : op.is "adt" "tuple_new"
  · simp only [his, if_true, except_bind_eq_ok, except_pure_eq_ok, OpView.tupleNew.injEq, true_and,
      Prod.exists]
    constructor
    · rintro ⟨v, w, ty, h, rfl, rfl⟩
      obtain ⟨htypes, hresults⟩ := onlyResult_eq_ok_iff.mp h
      exact ⟨⟨w, hresults⟩, htypes⟩
    · rintro ⟨⟨v, hresults⟩, htypes⟩
      exact ⟨v, v, type, onlyResult_eq_ok_iff.mpr ⟨htypes, hresults⟩, rfl, rfl⟩
  · simp [his]

theorem extraction?_eq_some_iff {op : Op} {tuple : ValueId} {index : Nat} :
    op.extraction? = some (tuple, index) ↔
      op.is "adt" "tuple_get" ∧ op.operands = [tuple] ∧ (∃ v, op.results = [v]) ∧
        (∃ type, op.resultTypes = [type]) ∧
        ∃ bits, op.attrs.find? "index" = some (.int bits) ∧ bits.toNat = index := by
  have hview : op.extraction? = some (tuple, index) ↔
      ∃ v bits, op.view .tupleGet = .ok (.tupleGet tuple bits v) ∧ bits.toNat = index := by
    unfold extraction?
    constructor
    · intro h
      split at h
      · rename_i w bits v hv
        simp only [Option.some.injEq, Prod.mk.injEq] at h
        obtain ⟨rfl, rfl⟩ := h
        exact ⟨v, bits, hv, rfl⟩
      · simp at h
    · rintro ⟨v, bits, hv, rfl⟩
      rw [hv]
  rw [hview]
  simp only [view, viewParts, OpKind.dialect, OpKind.name]
  by_cases his : op.is "adt" "tuple_get"
  · simp only [his, if_true, except_bind_eq_ok, except_pure_eq_ok, OpView.tupleGet.injEq, true_and,
      Prod.exists, onlyOperand_eq_ok_iff, onlyResult_eq_ok_iff, required_eq_ok_iff]
    constructor
    · rintro ⟨v, bits, ⟨w, hops, v', ty, ⟨htypes, hresults⟩, b, ⟨a, ha, hb⟩, rfl, rfl, rfl⟩, hi⟩
      rw [asInt_eq_some_iff] at hb
      exact ⟨hops, ⟨v', hresults⟩, ⟨ty, htypes⟩, b, hb ▸ ha, hi⟩
    · rintro ⟨hops, ⟨v, hresults⟩, ⟨ty, htypes⟩, bits, ha, hi⟩
      exact ⟨v, bits, ⟨tuple, hops, v, ty, ⟨htypes, hresults⟩, bits, ⟨_, ha, rfl⟩, rfl, rfl, rfl⟩,
        hi⟩
  · simp [his]

theorem not_isNew_of_isGet {op : Op} (h : op.is "adt" "tuple_get") :
    op.is "adt" "tuple_new" = false := by
  simp only [is, Bool.and_eq_true, beq_iff_eq] at h
  simp [is, h.2]

theorem extraction?_of_isNew {op : Op} (h : op.is "adt" "tuple_new") : op.extraction? = none := by
  cases he : op.extraction? with
  | none => rfl
  | some e =>
    rw [not_isNew_of_isGet (extraction?_eq_some_iff.mp he).1] at h
    simp at h

theorem isTupleOp_of_construction {op : Op} {type : Ty} (h : op.construction? = some type) :
    op.isTupleOp := by
  simp [isTupleOp, (construction?_eq_some_iff.mp h).1]

theorem isTupleOp_of_extraction {op : Op} {tuple : ValueId} {index : Nat}
    (h : op.extraction? = some (tuple, index)) : op.isTupleOp := by
  simp [isTupleOp, (extraction?_eq_some_iff.mp h).1]

section Lowering

variable {settle : Ty → Ty} {types types' : ValueId → Ty} {op op' : Op}

theorem lowering_eq_some_iff : op.lowering settle types = some op' ↔
    (∃ type, op.construction? = some type ∧ type.isTuple ∧
      type.params.length = op.operands.length ∧ op' = op.toStructNew type.lowered) ∨
    ∃ tuple index fields field type, op.extraction? = some (tuple, index) ∧
      (types tuple).structFields = some fields ∧ fields[index]? = some (field, type) ∧
      op' = op.toStructExtract field (settle type) := by
  have hexcl {type : Ty} (hc : op.construction? = some type) : op.extraction? = none :=
    extraction?_of_isNew (construction?_eq_some_iff.mp hc).1
  unfold lowering
  cases hc : op.construction? with
  | some type =>
    simp only [hexcl hc, reduceCtorEq, false_and, exists_false, or_false, Option.some.injEq,
      Bool.and_eq_true, beq_iff_eq, Option.ite_none_right_eq_some, and_assoc]
    constructor
    · rintro ⟨ht, hlen, rfl⟩
      exact ⟨type, rfl, ht, hlen, rfl⟩
    · rintro ⟨_, rfl, ht, hlen, rfl⟩
      exact ⟨ht, hlen, rfl⟩
  | none =>
    cases he : op.extraction? with
    | none => simp
    | some e =>
      obtain ⟨tuple, index⟩ := e
      simp only [Option.bind_eq_bind, Option.bind_eq_some_iff, Prod.exists, Option.pure_def,
        Option.some.injEq, reduceCtorEq, false_and, exists_false, false_or, Prod.mk.injEq]
      constructor
      · rintro ⟨fields, hf, field, type, hi, rfl⟩
        exact ⟨tuple, index, fields, field, type, ⟨rfl, rfl⟩, hf, hi, rfl⟩
      · rintro ⟨_, _, fields, field, type, ⟨rfl, rfl⟩, hf, hi, rfl⟩
        exact ⟨fields, hf, field, type, hi, rfl⟩

/-- What a lowering keeps of an operation. -/
structure LoweredFrom (op' op : Op) : Prop where
  wasTupleOp : op.isTupleOp
  isTupleOp : op'.isTupleOp = false
  result : ∃ v, op.results = [v]
  type : ∃ ty, op'.resultTypes = [ty]
  operands : op'.operands = op.operands
  results : op'.results = op.results
  location : op'.location = op.location
  dialect : op'.dialect = "adt"
  parent : op'.parent = op.parent
  regions : op'.regions = []
  attrs : op'.attrs.lowered = op'.attrs

theorem loweredFrom (h : op.lowering settle types = some op') : LoweredFrom op' op := by
  rcases lowering_eq_some_iff.mp h with ⟨type, hc, -, -, rfl⟩ | ⟨_, _, _, field, type, he, -, -, rfl⟩
  · obtain ⟨his, hv, -⟩ := construction?_eq_some_iff.mp hc
    have hd : op.dialect = "adt" := by
      simp only [is, Bool.and_eq_true, beq_iff_eq] at his
      exact his.1
    refine ⟨isTupleOp_of_construction hc, ?_, hv, ⟨_, rfl⟩, rfl, rfl, rfl, hd, rfl, rfl, rfl⟩
    simp [Op.isTupleOp, is, toStructNew]
  · obtain ⟨his, -, hv, -, -⟩ := extraction?_eq_some_iff.mp he
    have hd : op.dialect = "adt" := by
      simp only [is, Bool.and_eq_true, beq_iff_eq] at his
      exact his.1
    refine ⟨isTupleOp_of_extraction he, ?_, hv, ⟨_, rfl⟩, rfl, rfl, rfl, hd, rfl, rfl, ?_⟩
    · simp [Op.isTupleOp, is, toStructExtract]
    · simp [toStructExtract, Dict.lowered]

/-- A lowering looks at the types of the operands only. -/
theorem lowering_congr (h : ∀ v ∈ op.operands, types v = types' v) :
    op.lowering settle types = op.lowering settle types' := by
  unfold lowering
  cases op.construction? with
  | some type => rfl
  | none =>
    cases he : op.extraction? with
    | none => rfl
    | some e =>
      obtain ⟨tuple, index⟩ := e
      have hv : tuple ∈ op.operands := by simp [(extraction?_eq_some_iff.mp he).2.1]
      simp only [h tuple hv]

theorem visited_congr (h : ∀ v ∈ op.operands, types v = types' v) :
    op.visited settle types = op.visited settle types' := by
  simp only [visited, lowering_congr h]

theorem visited_of_lowering (h : op.lowering settle types = some op') :
    op.visited settle types = op' := by
  simp [visited, (loweredFrom h).wasTupleOp, h]

theorem visited_of_tupleOp (hop : op.isTupleOp) (h : op.lowering settle types = none) :
    op.visited settle types = op := by
  simp [visited, hop, h]

theorem visited_of_not_tupleOp (hop : op.isTupleOp = false) :
    op.visited settle types = op.retyped := by
  simp [visited, hop]

theorem isTupleOp_retyped : op.retyped.isTupleOp = op.isTupleOp := rfl

/-- What a visit does: it lowers, leaves alone or retypes. -/
theorem visited_cases (settle : Ty → Ty) (types : ValueId → Ty) (op : Op) :
    (∃ op', op.lowering settle types = some op' ∧ op.visited settle types = op') ∨
    (op.isTupleOp ∧ op.lowering settle types = none ∧ op.visited settle types = op) ∨
    (op.isTupleOp = false ∧ op.visited settle types = op.retyped) := by
  cases hop : op.isTupleOp
  · exact .inr (.inr ⟨rfl, visited_of_not_tupleOp hop⟩)
  · cases h : op.lowering settle types with
    | none => exact .inr (.inl ⟨rfl, rfl, visited_of_tupleOp hop h⟩)
    | some op' => exact .inl ⟨op', rfl, visited_of_lowering h⟩

theorem visited_operands : (op.visited settle types).operands = op.operands := by
  rcases visited_cases settle types op with ⟨op', h, he⟩ | ⟨-, -, he⟩ | ⟨-, he⟩ <;> rw [he]
  · exact (loweredFrom h).operands
  · rfl

theorem visited_results : (op.visited settle types).results = op.results := by
  rcases visited_cases settle types op with ⟨op', h, he⟩ | ⟨-, -, he⟩ | ⟨-, he⟩ <;> rw [he]
  · exact (loweredFrom h).results
  · rfl

theorem isTupleOp_of_visited (h : (op.visited settle types).isTupleOp) : op.isTupleOp := by
  rcases visited_cases settle types op with ⟨op', hl, -⟩ | ⟨ht, -, -⟩ | ⟨-, he⟩
  · exact (loweredFrom hl).wasTupleOp
  · exact ht
  · rwa [he] at h

/-- What visits make of an operation. -/
inductive Becomes (op : Op) : Op → Prop
  | same : Becomes op op
  | retyped : op.isTupleOp = false → Becomes op op.retyped
  | lowered {op' : Op} {types : ValueId → Ty} : op.lowering id types = some op' → Becomes op op'
  | settled {op' : Op} {types : ValueId → Ty} : op.lowering id types = some op' →
      Becomes op op'.retyped

namespace Becomes

variable {form : Op}

theorem visited (h : op.Becomes form) : op.Becomes (form.visited id types) := by
  cases h with
  | same =>
    rcases visited_cases id types op with ⟨op', hl, he⟩ | ⟨-, -, he⟩ | ⟨ht, he⟩ <;> rw [he]
    · exact .lowered hl
    · exact .same
    · exact .retyped ht
  | retyped ht =>
    rw [visited_of_not_tupleOp (isTupleOp_retyped.trans ht), retyped_retyped]
    exact .retyped ht
  | lowered hl =>
    rw [visited_of_not_tupleOp (loweredFrom hl).isTupleOp]
    exact .settled hl
  | settled hl =>
    rw [visited_of_not_tupleOp (isTupleOp_retyped.trans (loweredFrom hl).isTupleOp),
      retyped_retyped]
    exact .settled hl

/-- Only an operation that was left alone still is a tuple operation. -/
theorem eq_of_isTupleOp (h : op.Becomes form) (ht : form.isTupleOp) : form = op := by
  cases h with
  | same => rfl
  | retyped hop => exact absurd (hop.symm.trans ht) (by simp)
  | lowered hl => exact absurd ((loweredFrom hl).isTupleOp.symm.trans ht) (by simp)
  | settled hl => exact absurd ((loweredFrom hl).isTupleOp.symm.trans ht) (by simp)

theorem regions (h : op.Becomes form) :
    form.regions = if op.isTupleOp && !form.isTupleOp then [] else op.regions := by
  cases h with
  | same => cases op.isTupleOp <;> simp
  | retyped ht => simp only [ht, Bool.false_and, Bool.false_eq_true, if_false]; rfl
  | lowered hl =>
    simp [(loweredFrom hl).wasTupleOp, (loweredFrom hl).isTupleOp, (loweredFrom hl).regions]
  | settled hl =>
    simp only [isTupleOp_retyped, (loweredFrom hl).wasTupleOp, (loweredFrom hl).isTupleOp]
    exact (loweredFrom hl).regions

theorem operands (h : op.Becomes form) : form.operands = op.operands := by
  cases h with
  | same => rfl
  | retyped ht => rfl
  | lowered hl => exact (loweredFrom hl).operands
  | settled hl => exact (loweredFrom hl).operands

theorem results (h : op.Becomes form) : form.results = op.results := by
  cases h with
  | same => rfl
  | retyped ht => rfl
  | lowered hl => exact (loweredFrom hl).results
  | settled hl => exact (loweredFrom hl).results

theorem results_length (h : op.Becomes form) (hlen : op.results.length = op.resultTypes.length) :
    form.results.length = form.resultTypes.length := by
  have hl {op' : Op} {types : ValueId → Ty} (hl : op.lowering id types = some op') :
      op'.results.length = op'.resultTypes.length := by
    obtain ⟨v, hv⟩ := (loweredFrom hl).result
    obtain ⟨ty, hty⟩ := (loweredFrom hl).type
    rw [(loweredFrom hl).results, hv, hty]
    rfl
  cases h with
  | same => exact hlen
  | retyped ht => simpa [Op.retyped] using hlen
  | lowered h => exact hl h
  | settled h => simpa [Op.retyped] using hl h

end Becomes

end Lowering

end Op

end RegionIR
