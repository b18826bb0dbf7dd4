import RegionIR.Proofs.Lowering.Refinement

/-! The parts of a step of the engine: the target, the patterns and the producers.

Each is said of a context that refines some forms, in terms of these forms. -/

namespace RegionIR

namespace Op

/-- Whether a lowering leaves the operation alone when its operands have the given types. -/
def Legal (types : ValueId → Ty) (op : Op) : Prop :=
  op.isTupleOp = false ∧ (∀ v ∈ op.operands, (types v).TupleFree) ∧
    (∀ ty ∈ op.resultTypes, ty.TupleFree) ∧ ∀ e ∈ op.attrs, e.2.TupleFree

theorem legal_iff {types : ValueId → Ty} {op : Op} : op.Legal types ↔
    op.isTupleOp = false ∧ op.retyped = op ∧ ∀ v ∈ op.operands, (types v).TupleFree := by
  have hattr {a : Attr Ty} : a.lowered = a ↔ a.TupleFree :=
    ⟨fun h => h ▸ a.tupleFree_lowered, Attr.lowered_of_tupleFree⟩
  simp only [Legal, retyped_eq_self_iff, Ty.lowered_eq_self_iff, hattr]
  exact ⟨fun ⟨h, hv, hr, ha⟩ => ⟨h, ⟨hr, ha⟩, hv⟩, fun ⟨h, ⟨hr, ha⟩, hv⟩ => ⟨h, hv, hr, ha⟩⟩

theorem retyped_of_legal {types : ValueId → Ty} {op : Op} (h : op.Legal types) :
    op.retyped = op :=
  (legal_iff.mp h).2.1

theorem visited_of_legal {types : ValueId → Ty} {op : Op} (h : op.Legal types)
    (settle : Ty → Ty) : op.visited settle types = op := by
  rw [visited_of_not_tupleOp h.1, retyped_of_legal h]

theorem view_tupleNew {op : Op} {type : Ty} (h : op.construction? = some type) :
    ∃ v, op.view .tupleNew = .ok (.tupleNew op.operands v type) := by
  obtain ⟨his, ⟨v, hv⟩, ht⟩ := construction?_eq_some_iff.mp h
  refine ⟨v, ?_⟩
  simp [view, viewParts, OpKind.dialect, OpKind.name, his, onlyResult_eq_ok_iff.mpr ⟨ht, hv⟩, pure,
    Except.pure]

theorem view_tupleGet {op : Op} {tuple : ValueId} {index : Nat}
    (h : op.extraction? = some (tuple, index)) :
    ∃ bits v, op.view .tupleGet = .ok (.tupleGet tuple bits v) ∧ bits.toNat = index := by
  unfold extraction? at h
  split at h
  · rename_i w bits v hv
    simp only [Option.some.injEq, Prod.mk.injEq] at h
    obtain ⟨rfl, rfl⟩ := h
    exact ⟨bits, v, hv, rfl⟩
  · simp at h

end Op

namespace Context.Confined

variable {ctx : Context} {t : RegionTree} {forms : OpId → Op}

/-- When no operation of the region is a tuple operation or has a type to convert, no value has one
either. -/
theorem tupleFree_typeUnder (hc : ctx.Confined t)
    (hforms : ∀ o ∈ t.opIds, (forms o).retyped = forms o ∧
      (forms o).results = (ctx.raw o).results ∧
      (forms o).results.length = (forms o).resultTypes.length) {v : ValueId}
    (hv : v ∈ definedValues t) : (ctx.typeUnder forms v).TupleFree := by
  rcases hc.origin hv with ⟨o, ho, i, ty, hval, hi⟩ | ⟨s, hs, i, ty, block, hval, -, -⟩
  · obtain ⟨hself, hres, hlen⟩ := hforms o ho
    rw [← hres] at hi
    obtain ⟨hlt, -⟩ := List.getElem?_eq_some_iff.mp hi
    rw [hlen] at hlt
    simp only [typeUnder, hval, List.getElem?_eq_getElem hlt, Option.getD_some]
    exact Ty.lowered_eq_self_iff.mp ((Op.retyped_eq_self_iff.mp hself).1 _ (List.getElem_mem hlt))
  · simp only [typeUnder, hval]
    exact ty.tupleFree_lowered

end Context.Confined

namespace TupleLowering

variable {ctx : Context} {x : OpId} {op : Op}

theorem staticRule_target (op : Op) :
    target.staticRule op = if op.isTupleOp then some false else none := by
  have hname : [("adt", "tuple_new"), ("adt", "tuple_get")].contains (op.dialect, op.name)
      = op.isTupleOp := by
    simp [Op.isTupleOp, Op.is, beq_eq_decide]
  simp only [Target.staticRule, target, hname]
  simp

/-- Without an answer of the dynamic checks the name decides, and then the types. -/
theorem isLegal_target (ho : ctx.op? x = some op) {types : ValueId → Ty}
    (htypes : ∀ v ∈ op.operands, ctx.typeOf v = .ok (types v)) :
    ∃ legal, target.isLegal ctx x = .ok legal ∧ (legal = true ↔ op.Legal types) := by
  have hdyn : target.dynamicRule ctx x = .ok none := rfl
  simp only [Target.isLegal, hdyn, except_ok_bind, Context.op_eq_ok.mpr ho, staticRule_target]
  cases ht : op.isTupleOp
  · have hall : op.operands.allM (fun v => do
        return Converter.tuples.isLegalType (← ctx.typeOf v)) =
        .ok (op.operands.all fun v => Converter.tuples.isLegalType (types v)) :=
      allM_of_ok fun v hv => by rw [htypes v hv]; rfl
    simp only [Bool.false_eq_true, if_false, target, Converter.isLegalOp,
      Context.op_eq_ok.mpr ho, except_ok_bind, hall]
    cases hops : op.operands.all fun v => Converter.tuples.isLegalType (types v)
    · refine ⟨false, rfl, by simp, fun h => ?_⟩
      rw [← hops, List.all_eq_true]
      exact h.2.1
    · refine ⟨_, rfl, ?_⟩
      rw [List.all_eq_true] at hops
      simp only [Converter.areLegalEntries_eq, Bool.and_eq_true, List.all_eq_true]
      exact ⟨fun h => ⟨ht, hops, h.1, h.2⟩, fun h => ⟨h.2.2.1, h.2.2.2⟩⟩
  · refine ⟨false, rfl, by simp, fun h => ?_⟩
    rw [h.1] at ht
    simp at ht

theorem isNamedIllegal_target (ho : ctx.op? x = some op) :
    target.isNamedIllegal ctx x = .ok op.isTupleOp := by
  simp only [Target.isNamedIllegal, Context.op_eq_ok.mpr ho, except_ok_bind, staticRule_target]
  cases op.isTupleOp <;> rfl

theorem construct_cases (ho : ctx.op? x = some op) :
    (∃ type, op.construction? = some type ∧ type.isTuple ∧
      type.params.length = op.operands.length ∧
      construct .tuples ctx x = (do
        let (ctx, new) ← ctx.createOp (.structNew op.location op.operands type.lowered)
        return (ctx, .applied { replacement := some new }))) ∨
    ((∀ type, op.construction? = some type → type.isTuple →
        type.params.length ≠ op.operands.length) ∧
      ∃ attempt, construct .tuples ctx x = .ok (ctx, attempt) ∧
        (attempt = .noMatch ∨ ∃ reason, attempt = .declined reason)) := by
  simp only [construct, Context.op_eq_ok.mpr ho, except_ok_bind]
  cases hc : op.construction? with
  | none =>
    right
    refine ⟨by simp, .noMatch, ?_, .inl rfl⟩
    split
    · rename_i elements v ty hv
      simp [Op.construction?, hv] at hc
    · rfl
  | some type =>
    obtain ⟨v, hv⟩ := Op.view_tupleNew hc
    simp only [hv, Ty.convertType_tuples]
    cases ht : type.isTuple
    · right
      refine ⟨?_, .noMatch, rfl, .inl rfl⟩
      rintro _ ⟨rfl⟩ h
      rw [ht] at h
      simp at h
    · have hfields := Ty.structFields_lowered_tuple ht
      have hstruct : type.lowered.isStruct = true := by rw [Ty.lowered_tuple ht]; rfl
      simp only [Option.filter_some, hstruct, if_true, hfields, Option.map_some,
        List.length_mapIdx, Option.some.injEq, Bool.not_true, Bool.false_eq_true, if_false]
      by_cases hlen : type.params.length = op.operands.length
      · left
        exact ⟨type, rfl, ht, hlen, by rw [if_pos hlen]⟩
      · right
        refine ⟨?_, _, by rw [if_neg hlen]; rfl, .inr ⟨_, rfl⟩⟩
        rintro _ ⟨rfl⟩ _
        exact hlen

theorem extract_cases (ho : ctx.op? x = some op) {types : ValueId → Ty}
    (htypes : ∀ v ∈ op.operands, ctx.typeOf v = .ok (types v)) :
    (∃ tuple index fields field type, op.extraction? = some (tuple, index) ∧
      (types tuple).structFields = some fields ∧ fields[index]? = some (field, type) ∧
      extract ctx x = (do
        let (ctx, new) ← ctx.createOp (.structExtract op.location tuple type field)
        return (ctx, .applied { replacement := some new }))) ∨
    ((∀ tuple index fields field type, op.extraction? = some (tuple, index) →
        (types tuple).structFields = some fields → fields[index]? ≠ some (field, type)) ∧
      ∃ attempt, extract ctx x = .ok (ctx, attempt) ∧
        (attempt = .noMatch ∨ ∃ reason, attempt = .declined reason)) := by
  simp only [extract, Context.op_eq_ok.mpr ho, except_ok_bind]
  cases he : op.extraction? with
  | none =>
    right
    refine ⟨by simp, .noMatch, ?_, .inl rfl⟩
    split
    · rename_i tuple bits v hv
      simp [Op.extraction?, hv] at he
    · rfl
  | some e =>
    obtain ⟨tuple, index⟩ := e
    obtain ⟨bits, v, hv, rfl⟩ := Op.view_tupleGet he
    have hmem : tuple ∈ op.operands := by simp [(Op.extraction?_eq_some_iff.mp he).2.1]
    simp only [hv, htypes tuple hmem, except_ok_bind]
    cases hf : (types tuple).structFields with
    | none =>
      right
      refine ⟨?_, _, rfl, .inr ⟨_, rfl⟩⟩
      rintro _ _ _ _ _ ⟨rfl⟩ hf'
      rw [hf] at hf'
      simp at hf'
    | some fields =>
      cases hi : fields[bits.toNat]? with
      | none =>
        right
        refine ⟨?_, _, by simp only [hi]; rfl, .inr ⟨_, rfl⟩⟩
        rintro _ _ _ _ _ ⟨rfl⟩ hf'
        rw [hf] at hf'
        cases Option.some.inj hf'
        simp [hi]
      | some f =>
        obtain ⟨field, type⟩ := f
        left
        exact ⟨tuple, _, fields, field, type, rfl, hf, hi, by simp only [hi]⟩

end TupleLowering

end RegionIR
