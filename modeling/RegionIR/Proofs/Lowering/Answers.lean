import RegionIR.Proofs.Lowering.Patterns
import RegionIR.Proofs.Rewrite.Fixpoints

/-! What the two patterns answer.

Both look at the operation and the types of its operands only. One gives reasons against tuple
constructions, the other against extractions, and they do so whenever they do not rewrite them. -/

namespace RegionIR

namespace Op

/-- What the pattern for constructions says. -/
def constructAnswer (op : Op) : Answer :=
  match op.construction? with
  | none => .passes
  | some type =>
    if !type.isTuple then .passes
    else if type.params.length = op.operands.length then .fires
    else .declines "operand count does not match tuple arity"

/-- What the pattern for extractions says when the operands have the given types. -/
def extractAnswer (types : ValueId → Ty) (op : Op) : Answer :=
  match op.extraction? with
  | none => .passes
  | some (tuple, index) =>
    match (types tuple).structFields with
    | none => .declines "expected struct type as input"
    | some fields => if fields[index]?.isSome then .fires else .declines "index out of bounds"

/-- Whether the operation constructs a tuple or extracts from something. -/
def IsExplained (op : Op) : Prop :=
  (∃ type, op.construction? = some type ∧ type.isTuple) ∨ ∃ e, op.extraction? = some e

theorem IsExplained.isTupleOp {op : Op} (h : op.IsExplained) : op.isTupleOp := by
  rcases h with ⟨type, hc, -⟩ | ⟨⟨tuple, index⟩, he⟩
  · exact isTupleOp_of_construction hc
  · exact isTupleOp_of_extraction he

/-- Which values the operands are and where the operation stands makes no difference. -/
theorem isExplained_congr {op : Op} {operands : List ValueId} {parent : Option BlockId}
    (hlen : operands.length = op.operands.length) :
    IsExplained { op with operands, parent } ↔ op.IsExplained := by
  have hextraction {op : Op} : (∃ e, op.extraction? = some e) ↔ op.is "adt" "tuple_get" ∧
      op.operands.length = 1 ∧ (∃ v, op.results = [v]) ∧ (∃ type, op.resultTypes = [type]) ∧
      ∃ bits, op.attrs.find? "index" = some (.int bits) := by
    simp only [Prod.exists, extraction?_eq_some_iff, List.length_eq_one_iff]
    constructor
    · rintro ⟨tuple, index, his, hops, hv, hty, bits, hi, -⟩
      exact ⟨his, ⟨tuple, hops⟩, hv, hty, bits, hi⟩
    · rintro ⟨his, ⟨tuple, hops⟩, hv, hty, bits, hi⟩
      exact ⟨tuple, _, his, hops, hv, hty, bits, hi, rfl⟩
  simp only [IsExplained, construction?_eq_some_iff, hextraction, hlen]
  rfl

theorem isTupleOp_of_constructAnswer {op : Op} (h : op.constructAnswer = .fires) :
    op.isTupleOp := by
  unfold constructAnswer at h
  split at h
  · simp at h
  · rename_i type hc
    exact isTupleOp_of_construction hc

theorem isTupleOp_of_extractAnswer {op : Op} {types : ValueId → Ty}
    (h : op.extractAnswer types = .fires) : op.isTupleOp := by
  unfold extractAnswer at h
  split at h
  · simp at h
  · rename_i tuple index he
    exact isTupleOp_of_extraction he

/-- Unless it is rewritten there is a reason against an explained operation, and only then. -/
theorem reasons_iff {op : Op} {types : ValueId → Ty} (hnew : op.constructAnswer ≠ .fires)
    (hget : op.extractAnswer types ≠ .fires) :
    ((op.extractAnswer types).reason?.or op.constructAnswer.reason? ≠ none) ↔ op.IsExplained := by
  have hexcl {type : Ty} (hc : op.construction? = some type) : op.extraction? = none :=
    extraction?_of_isNew (construction?_eq_some_iff.mp hc).1
  cases hc : op.construction? with
  | some type =>
    simp only [constructAnswer, extractAnswer, IsExplained, hc, hexcl hc] at hnew ⊢
    cases ht : type.isTuple
    · simp [Answer.reason?, ht]
    · by_cases hlen : type.params.length = op.operands.length
      · simp [ht, hlen] at hnew
      · simp [Answer.reason?, ht, hlen]
  | none =>
    simp only [constructAnswer, extractAnswer, IsExplained, hc] at hget ⊢
    cases he : op.extraction? with
    | none => simp [Answer.reason?]
    | some e =>
      obtain ⟨tuple, index⟩ := e
      simp only [he] at hget ⊢
      split at hget
      · simp [Answer.reason?]
      · rename_i fields hf
        by_cases hi : fields[index]?.isSome
        · simp [hi] at hget
        · simp [hi, Answer.reason?]

end Op

namespace TupleLowering

variable {ctx ctx' : Context} {x : OpId} {op : Op}

theorem answer_createOp {spec : OpSpec} (hp : spec.parent = none) (hr : spec.regions = []) :
    ((do
      let (ctx, new) ← ctx.createOp spec
      return (ctx, Attempt.applied { replacement := some new }) :
        Except Fault (Context × Attempt)).toOption.map fun r => r.2.answer) = some .fires := by
  obtain ⟨ctx', new, h⟩ := Context.createOp_of_no_regions ctx hp hr
  rw [h]
  rfl

theorem answer_construct (ho : ctx.op? x = some op) :
    constructPattern.answer .tuples ctx x = some op.constructAnswer := by
  simp only [Pattern.answer, constructPattern, construct, Context.op_eq_ok.mpr ho, except_ok_bind,
    Op.constructAnswer]
  cases hc : op.construction? with
  | none =>
    split
    · rename_i elements v ty hv
      simp [Op.construction?, hv] at hc
    · rfl
  | some type =>
    obtain ⟨v, hv⟩ := Op.view_tupleNew hc
    simp only [hv, Ty.convertType_tuples]
    cases ht : type.isTuple
    · rfl
    · have hfields := Ty.structFields_lowered_tuple ht
      have hstruct : type.lowered.isStruct = true := by rw [Ty.lowered_tuple ht]; rfl
      simp only [Option.filter_some, hstruct, if_true, hfields, Option.map_some,
        List.length_mapIdx, Option.some.injEq, Bool.not_true, Bool.false_eq_true, if_false]
      split
      · exact answer_createOp rfl rfl
      · rfl

theorem answer_extract (ho : ctx.op? x = some op) {types : ValueId → Ty}
    (htypes : ∀ v ∈ op.operands, ctx.typeOf v = .ok (types v)) (c : Converter) :
    extractPattern.answer c ctx x = some (op.extractAnswer types) := by
  simp only [Pattern.answer, extractPattern, extract, Context.op_eq_ok.mpr ho, except_ok_bind,
    Op.extractAnswer]
  cases he : op.extraction? with
  | none =>
    split
    · rename_i tuple bits v hv
      simp [Op.extraction?, hv] at he
    · rfl
  | some e =>
    obtain ⟨tuple, index⟩ := e
    obtain ⟨bits, v, hv, rfl⟩ := Op.view_tupleGet he
    have hmem : tuple ∈ op.operands := by simp [(Op.extraction?_eq_some_iff.mp he).2.1]
    simp only [hv, htypes tuple hmem, except_ok_bind]
    cases (types tuple).structFields with
    | none => rfl
    | some fields =>
      cases hi : fields[bits.toNat]? with
      | none => simp only [hi]; rfl
      | some f =>
        simp only [hi]
        exact answer_createOp rfl rfl

/-- An attempt leaves the context as it is, or it creates the operation that is to come in. -/
inductive Outcome (ctx : Context) (op : Op) : Context → Attempt → Prop
  | unchanged {a : Attempt} : a = .noMatch ∨ (∃ reason, a = .declined reason) →
      Outcome ctx op ctx a
  | replaced {ctx' : Context} {new : OpId} : ctx.Creates op.operands ctx' → ctx.op? new = none →
      Outcome ctx op ctx' (.applied { replacement := some new })

theorem outcome_of_createOp {spec : OpSpec} {a : Attempt} (hr : spec.regions = [])
    (hattrs : spec.attrs.Sorted) (hops : ∀ v ∈ spec.operands, v ∈ op.operands)
    (h : (do
      let (ctx, new) ← ctx.createOp spec
      return (ctx, Attempt.applied { replacement := some new })) = .ok (ctx', a)) :
    Outcome ctx op ctx' a := by
  simp only [except_bind_eq_ok, except_pure_eq_ok, Prod.mk.injEq] at h
  obtain ⟨⟨ctx₁, new⟩, hcreate, rfl, rfl⟩ := h
  exact .replaced (.createOp .refl hr hattrs (fun v hv => .inl (hops v hv)) hcreate)
    (Context.createOp_ok hcreate).fresh

theorem construct_outcome {a : Attempt} (ho : ctx.op? x = some op)
    (h : construct .tuples ctx x = .ok (ctx', a)) : Outcome ctx op ctx' a := by
  rcases construct_cases ho with ⟨type, -, -, -, he⟩ | ⟨-, a', he, ha⟩
  · rw [he] at h
    exact outcome_of_createOp rfl (by simp [OpSpec.structNew, OpSpec.ofKind, Dict.Sorted])
      (fun _ hv => hv) h
  · rw [he, Except.ok.injEq, Prod.mk.injEq] at h
    obtain ⟨rfl, rfl⟩ := h
    exact .unchanged ha

theorem extract_outcome {a : Attempt} (ho : ctx.op? x = some op)
    (h : extract ctx x = .ok (ctx', a)) : Outcome ctx op ctx' a := by
  cases he : op.extraction? with
  | none =>
    simp only [extract, Context.op_eq_ok.mpr ho, except_ok_bind] at h
    split at h
    · rename_i tuple bits v hv
      simp [Op.extraction?, hv] at he
    · obtain ⟨rfl, rfl⟩ := Prod.mk.inj (except_pure_eq_ok.mp h)
      exact .unchanged (.inl rfl)
  | some e =>
    obtain ⟨tuple, index⟩ := e
    obtain ⟨bits, v, hv, rfl⟩ := Op.view_tupleGet he
    have hops := (Op.extraction?_eq_some_iff.mp he).2.1
    obtain ⟨ty, hty⟩ : ∃ ty, ctx.typeOf tuple = .ok ty := by
      simp only [extract, Context.op_eq_ok.mpr ho, except_ok_bind, hv, except_bind_eq_ok] at h
      obtain ⟨ty, hty, -⟩ := h
      exact ⟨ty, hty⟩
    have htypes : ∀ w ∈ op.operands, ctx.typeOf w = .ok ty := by simpa [hops] using hty
    rcases extract_cases ho htypes with ⟨_, _, _, _, _, hex, -, -, heq⟩ | ⟨-, a', heq, ha⟩
    · rw [heq] at h
      obtain ⟨rfl, -⟩ := Prod.mk.inj (Option.some.inj (he.symm.trans hex))
      exact outcome_of_createOp rfl (by simp [OpSpec.structExtract, OpSpec.ofKind, Dict.Sorted])
        (by simp [OpSpec.structExtract, hops]) h
    · rw [heq, Except.ok.injEq, Prod.mk.injEq] at h
      obtain ⟨rfl, rfl⟩ := h
      exact .unchanged ha

theorem Outcome.unchanged_of_not_fires {a : Attempt} (h : Outcome ctx op ctx' a)
    (ha : a.answer ≠ .fires) : ctx' = ctx := by
  cases h with
  | unchanged _ => rfl
  | replaced _ _ => simp [Attempt.answer, Plan.isEmpty] at ha

theorem local_of_outcome {p : Pattern} {c : Converter}
    (h : ∀ ctx ctx' x op a, ctx.op? x = some op → p.attempt c ctx x = .ok (ctx', a) →
      Outcome ctx op ctx' a)
    (hop : ∀ ctx x ctx' a, p.attempt c ctx x = .ok (ctx', a) → ∃ op, ctx.op? x = some op)
    (hanswer : ∀ ctx ctx' x op, ctx.op? x = some op → ctx.SameView ctx' x →
      p.answer c ctx' x = p.answer c ctx x) :
    p.Local c where
  creates {ctx ctx' x op a} ho ha := by
    cases h ctx ctx' x op a ho ha with
    | unchanged _ => exact .refl
    | replaced hc _ => exact hc
  fresh {ctx ctx' x plan} ha := by
    obtain ⟨op, ho⟩ := hop ctx x ctx' _ ha
    cases h ctx ctx' x op _ ho ha with
    | unchanged hnot => simp at hnot
    | replaced _ hnew => simpa [Plan.newOps] using hnew
  removes {ctx ctx' x plan} ha _ := by
    obtain ⟨op, ho⟩ := hop ctx x ctx' _ ha
    cases h ctx ctx' x op _ ho ha with
    | unchanged hnot => simp at hnot
    | replaced _ _ => exact .inl rfl
  answer {ctx ctx' x} hview := by
    have hnone {ctx : Context} (ho : ctx.op? x = none) : p.answer c ctx x = none := by
      cases ha : p.attempt c ctx x with
      | error e => simp [Pattern.answer, ha, Except.toOption]
      | ok r =>
        obtain ⟨op, ho'⟩ := hop ctx x r.1 r.2 ha
        simp [ho] at ho'
    cases ho : ctx.op? x with
    | none => rw [hnone ho, hnone (hview.op?.trans ho)]
    | some op => exact hanswer ctx ctx' x op ho hview

theorem local_construct : constructPattern.Local .tuples := by
  refine local_of_outcome (fun _ _ _ _ _ ho h => construct_outcome ho h) (fun ctx x ctx' a h => ?_)
    fun ctx ctx' x op ho hview => by rw [answer_construct ho, answer_construct (hview.op?.trans ho)]
  simp only [constructPattern, construct, except_bind_eq_ok, Context.op_eq_ok] at h
  obtain ⟨op, ho, -⟩ := h
  exact ⟨op, ho⟩

theorem answer_extract_congr (ho : ctx.op? x = some op) (hview : ctx.SameView ctx' x)
    (c : Converter) : extractPattern.answer c ctx' x = extractPattern.answer c ctx x := by
  have ho' := hview.op?.trans ho
  cases he : op.extraction? with
  | none =>
    simp only [Pattern.answer, extractPattern, extract, Context.op_eq_ok.mpr ho,
      Context.op_eq_ok.mpr ho', except_ok_bind]
    split
    · rename_i tuple bits v hv
      simp [Op.extraction?, hv] at he
    · rfl
  | some e =>
    obtain ⟨tuple, index⟩ := e
    have hops := (Op.extraction?_eq_some_iff.mp he).2.1
    have hmem : tuple ∈ op.operands := by simp [hops]
    cases hty : ctx.typeOf tuple with
    | error fault =>
      obtain ⟨bits, v, hv, -⟩ := Op.view_tupleGet he
      simp only [Pattern.answer, extractPattern, extract, Context.op_eq_ok.mpr ho,
        Context.op_eq_ok.mpr ho', except_ok_bind, hv, hview.typeOf ho hmem, hty]
      rfl
    | ok ty =>
      have htypes : ∀ w ∈ op.operands, ctx.typeOf w = .ok ty := by simpa [hops] using hty
      have htypes' : ∀ w ∈ op.operands, ctx'.typeOf w = .ok ty := fun w hw =>
        (hview.typeOf ho hw).trans (htypes w hw)
      rw [answer_extract ho htypes, answer_extract ho' htypes']

theorem local_extract (c : Converter) : extractPattern.Local c := by
  refine local_of_outcome (fun _ _ _ _ _ ho h => extract_outcome ho h) (fun ctx x ctx' a h => ?_)
    fun _ _ _ _ ho hview => answer_extract_congr ho hview c
  simp only [extractPattern, extract, except_bind_eq_ok, Context.op_eq_ok] at h
  obtain ⟨op, ho, -⟩ := h
  exact ⟨op, ho⟩

theorem isTupleOp_of_fires {p : Pattern} (hp : p ∈ engine.patterns) (ho : ctx.op? x = some op)
    (h : p.answer .tuples ctx x = some .fires) : op.isTupleOp := by
  obtain rfl | rfl : p = constructPattern ∨ p = extractPattern := by simpa [engine] using hp
  · rw [answer_construct ho, Option.some.injEq] at h
    exact Op.isTupleOp_of_constructAnswer h
  · cases he : op.extraction? with
    | some e => exact Op.isTupleOp_of_extraction he
    | none =>
      simp only [Pattern.answer, extractPattern, extract, Context.op_eq_ok.mpr ho,
        except_ok_bind] at h
      split at h
      · rename_i tuple bits v hv
        simp [Op.extraction?, hv] at he
      · simp [Except.toOption, pure, Except.pure, Attempt.answer] at h

theorem static_engine : engine.Static where
  settles := Converter.settles_tuples
  checks := rfl
  others := rfl
  patterns p hp := by
    obtain rfl | rfl : p = constructPattern ∨ p = extractPattern := by simpa [engine] using hp
    · exact local_construct
    · exact local_extract _
  named hp ho h := by
    change target.staticRule _ = _
    rw [staticRule_target, isTupleOp_of_fires hp ho h, if_pos rfl]

theorem typeOf_of_wired (ho : ctx.op? x = some op) (hw : ctx.Wired x) :
    ∀ v ∈ op.operands, ctx.typeOf v = .ok (ctx.tyOf v) := by
  intro v hv
  obtain ⟨value, hval⟩ := hw.operand ho hv
  exact Context.typeOf_of_value?_eq_some hval

/-- What the patterns have to say against an operation. A reason against extracting goes first. -/
theorem complaint_engine (ho : ctx.op? x = some op) (hw : ctx.Wired x) :
    Engine.complaint .tuples ctx x engine.patterns =
      (op.extractAnswer ctx.tyOf).reason?.or op.constructAnswer.reason? := by
  change ((none : Option String).or ((extractPattern.answer .tuples ctx x).bind _)).or
    ((constructPattern.answer .tuples ctx x).bind _) = _
  rw [answer_construct ho, answer_extract ho (typeOf_of_wired ho hw)]
  rfl

theorem answers_of_quiet (ho : ctx.op? x = some op) (hw : ctx.Wired x) (h : engine.Quiet ctx x) :
    op.constructAnswer ≠ .fires ∧ op.extractAnswer ctx.tyOf ≠ .fires := by
  have hnew := h constructPattern (by simp [engine])
  have hget := h extractPattern (by simp [engine])
  change constructPattern.answer .tuples ctx x ≠ _ at hnew
  rw [answer_construct ho] at hnew
  rw [answer_extract ho (typeOf_of_wired ho hw)] at hget
  exact ⟨by simpa using hnew, by simpa using hget⟩

theorem explains_engine : engine.Explains Op.IsExplained where
  operands hlen := Op.isExplained_congr hlen
  named h := by
    change target.staticRule _ = _
    rw [staticRule_target, h.isTupleOp, if_pos rfl]
  reasons {ctx x op} ho hw hquiet := by
    obtain ⟨hnew, hget⟩ := answers_of_quiet ho hw hquiet
    have hcomplaint : Engine.complaint engine.converter ctx x engine.patterns = _ :=
      complaint_engine ho hw
    rw [hcomplaint]
    exact Op.reasons_iff hnew hget

end TupleLowering

end RegionIR
