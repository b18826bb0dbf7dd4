import RegionIR.Proofs.Context.Validity
import RegionIR.Proofs.Lowering.Result

/-! Well-typed tuple operations are always lowered.

The type of an operand of an extraction is a tuple or, once it was converted, a struct with a field
for each element. So an extraction that has to wait waits for an operation whose operand has a larger
type, and if nothing waits any more every operation was converted. -/

namespace RegionIR

namespace Op

/-- The tuple operations fit the types of their operands: a construction has the operands that its
type asks for, an extraction has an index within its operand and the type of that element. -/
def WellTyped (types : ValueId → Ty) (op : Op) : Prop :=
  (op.is "adt" "tuple_new" → ∃ type, op.resultTypes = [type] ∧ type.isTuple ∧
    op.operands.map types = type.params) ∧
  (op.is "adt" "tuple_get" → ∃ tuple index element, op.operands = [tuple] ∧
    op.attrs.find? "index" = some (.int index) ∧ (types tuple).isTuple ∧
    (types tuple).params[index.toNat]? = some element ∧ op.resultTypes = [element])

instance (types : ValueId → Ty) (op : Op) : Decidable (op.WellTyped types) :=
  let construction : Bool :=
    match op.resultTypes with
    | [type] => type.isTuple && decide (op.operands.map types = type.params)
    | _ => false
  let extraction : Bool :=
    match op.operands, op.attrs.find? "index", op.resultTypes with
    | [tuple], some (.int index), [element] =>
      (types tuple).isTuple && decide ((types tuple).params[index.toNat]? = some element)
    | _, _, _ => false
  decidable_of_iff ((op.is "adt" "tuple_new" → construction = true) ∧
      (op.is "adt" "tuple_get" → extraction = true)) <| by
    refine and_congr (imp_congr_right fun _ => ?_) (imp_congr_right fun _ => ?_)
    · unfold construction
      split
      · rename_i type htype
        simp [htype]
      · rename_i hne
        simp only [Bool.false_eq_true, false_iff]
        rintro ⟨type, htype, -⟩
        exact hne type htype
    · unfold extraction
      split
      · rename_i tuple index element htuple hindex helement
        simp [htuple, hindex, helement]
      · rename_i hne
        simp only [Bool.false_eq_true, false_iff]
        rintro ⟨tuple, index, element, htuple, hindex, -, -, helement⟩
        exact hne tuple index element htuple hindex helement

/-- The index of an extraction. -/
def elementIndex (op : Op) : Nat :=
  (((op.attrs.find? "index").bind Attr.asInt).getD 0).toNat

/-- The operation with all types converted; a tuple operation becomes the struct operation with the
same operands. -/
def converted (op : Op) : Op :=
  if op.is "adt" "tuple_new" then
    { op.retyped with name := "struct_new", attrs := [], regions := [], successors := [] }
  else if op.is "adt" "tuple_get" then
    { op.retyped with
      name := "struct_extract", attrs := [("field", .symbol (tupleFieldName op.elementIndex))]
      regions := [], successors := [] }
  else op.retyped

variable {op : Op} {types₀ types : ValueId → Ty}

theorem isTupleOp_iff : op.isTupleOp ↔ op.is "adt" "tuple_new" ∨ op.is "adt" "tuple_get" := by
  simp [isTupleOp]

theorem converted_of_not_tupleOp (h : op.isTupleOp = false) : op.converted = op.retyped := by
  simp only [isTupleOp, Bool.or_eq_false_iff] at h
  simp [converted, h.1, h.2]

theorem converted_resultTypes : op.converted.resultTypes = op.resultTypes.map Ty.lowered := by
  unfold converted
  split
  · rfl
  · split <;> rfl

theorem isTupleOp_converted : op.converted.isTupleOp = false := by
  unfold converted
  split
  · simp [isTupleOp, is]
  · split
    · simp [isTupleOp, is]
    · rename_i hnew hget
      rw [isTupleOp_retyped]
      simp [isTupleOp, hnew, hget]

theorem retyped_converted : op.converted.retyped = op.converted := by
  refine retyped_eq_self_iff.mpr ⟨?_, ?_⟩
  · rw [converted_resultTypes, List.forall_mem_map]
    exact fun ty _ => ty.lowered_lowered
  · unfold converted
    split
    · simp
    · split
      · simp
      · intro e he
        have hself := retyped_eq_self_iff.mp op.retyped_retyped
        exact hself.2 e he

theorem visited_converted : op.converted.visited id types = op.converted := by
  rw [visited_of_not_tupleOp isTupleOp_converted, retyped_converted]

/-- A well-typed construction is lowered at once. -/
theorem lowering_of_construction (hw : op.WellTyped types₀) (his : op.is "adt" "tuple_new")
    (hlen : op.results.length = op.resultTypes.length) :
    op.lowering id types = some op.converted := by
  obtain ⟨type, hty, ht, hops⟩ := hw.1 his
  rw [hty, List.length_singleton, List.length_eq_one_iff] at hlen
  refine lowering_eq_some_iff.mpr (.inl ⟨type, ?_, ht, ?_, ?_⟩)
  · exact construction?_eq_some_iff.mpr ⟨his, hlen, hty⟩
  · rw [← hops, List.length_map]
  · simp [converted, his, toStructNew, retyped, hty]

theorem extraction_of_wellTyped (hw : op.WellTyped types₀) (his : op.is "adt" "tuple_get")
    (hlen : op.results.length = op.resultTypes.length) :
    ∃ tuple element, op.extraction? = some (tuple, op.elementIndex) ∧ (types₀ tuple).isTuple ∧
      (types₀ tuple).params[op.elementIndex]? = some element ∧ op.resultTypes = [element] := by
  obtain ⟨tuple, index, element, hops, hi, ht, he, hty⟩ := hw.2 his
  rw [hty, List.length_singleton, List.length_eq_one_iff] at hlen
  have hindex : op.elementIndex = index.toNat := by simp [elementIndex, hi, Attr.asInt]
  rw [hindex]
  exact ⟨tuple, element, extraction?_eq_some_iff.mpr ⟨his, hops, hlen, ⟨_, hty⟩, index, hi, rfl⟩, ht,
    he, hty⟩

/-- A well-typed extraction is lowered when the type of its operand was converted. -/
theorem lowering_of_extraction (hw : op.WellTyped types₀) (his : op.is "adt" "tuple_get")
    (hlen : op.results.length = op.resultTypes.length)
    (htypes : ∀ v ∈ op.operands, types v = (types₀ v).lowered) :
    op.lowering id types = some op.converted := by
  obtain ⟨tuple, element, hx, ht, he, hty⟩ := extraction_of_wellTyped hw his hlen
  have hv := htypes tuple (by simp [(extraction?_eq_some_iff.mp hx).2.1])
  refine lowering_eq_some_iff.mpr (.inr ⟨tuple, op.elementIndex, _, tupleFieldName op.elementIndex,
    element.lowered, hx, by rw [hv, Ty.structFields_lowered_tuple ht], ?_, ?_⟩)
  · simp [List.getElem?_mapIdx, he]
  · simp [converted, his, not_isNew_of_isGet his, toStructExtract, retyped, hty]

theorem lowering_of_waiting (hw : op.WellTyped types₀) (his : op.is "adt" "tuple_get")
    (hlen : op.results.length = op.resultTypes.length)
    (htypes : ∀ v ∈ op.operands, types v = types₀ v) : op.lowering id types = none := by
  obtain ⟨tuple, element, hx, ht, -, -⟩ := extraction_of_wellTyped hw his hlen
  have hv := htypes tuple (by simp [(extraction?_eq_some_iff.mp hx).2.1])
  refine Option.eq_none_iff_forall_ne_some.mpr fun op' h => ?_
  rcases lowering_eq_some_iff.mp h with ⟨type, hc, -⟩ | ⟨_, _, fields, _, _, hx', hf, -⟩
  · have hnew := (construction?_eq_some_iff.mp hc).1
    rw [not_isNew_of_isGet his] at hnew
    simp at hnew
  · rw [hx, Option.some.injEq, Prod.mk.injEq] at hx'
    rw [← hx'.1, hv, Ty.structFields_of_tuple ht] at hf
    simp at hf

end Op

namespace Context

variable {ctx : Context} {t : RegionTree} {s : Progress}

/-- A value of a region in which operations are as they were or converted: its type is converted
too, or the operation that defines it is as it was. -/
theorem typeUnder_cases (hc : ctx.Confined t) {forms : OpId → Op}
    (hforms : ∀ o ∈ t.opIds, forms o = ctx.raw o ∨ forms o = (ctx.raw o).converted)
    {v : ValueId} (hv : v ∈ definedValues t) :
    ctx.typeUnder forms v = (ctx.tyOf v).lowered ∨
    ∃ o ∈ t.opIds, v ∈ (ctx.raw o).results ∧ forms o = ctx.raw o ∧
      ctx.tyOf v ∈ (ctx.raw o).resultTypes ∧ ctx.typeUnder forms v = ctx.tyOf v := by
  rcases hc.origin hv with ⟨o, ho, i, ty, hval, hi⟩ | ⟨s, hs, i, ty, block, hval, -, -⟩
  · obtain ⟨ty', hty, hval'⟩ := hc.sound.typed.result (hc.held.op?_raw ho) hi
    rw [hval] at hval'
    simp only [Option.some.injEq, Value.mk.injEq, true_and] at hval'
    subst hval'
    have htyOf : ctx.tyOf v = ty := by simp [tyOf, hval]
    rcases hforms o ho with he | he
    · right
      refine ⟨o, ho, List.mem_of_getElem? hi, he, htyOf ▸ List.mem_of_getElem? hty, ?_⟩
      simp [typeUnder, hval, he, hty, htyOf]
    · left
      simp [typeUnder, hval, he, Op.converted_resultTypes, hty, htyOf]
  · left
    simp [typeUnder, tyOf, hval]

/-- Whether the tuple operations of a region fit the types of their operands. -/
def WellTyped (ctx : Context) (t : RegionTree) : Prop :=
  ∀ o ∈ t.opIds, (ctx.raw o).WellTyped ctx.tyOf

instance (ctx : Context) (t : RegionTree) : Decidable (ctx.WellTyped t) :=
  inferInstanceAs (Decidable (∀ o ∈ t.opIds, (ctx.raw o).WellTyped ctx.tyOf))

theorem Steps.forms_of_wellTyped (hc : ctx.Confined t) (hw : ctx.WellTyped t)
    (h : ctx.Steps t (start ctx t) s) :
    ∀ o ∈ t.opIds, s.forms o = ctx.raw o ∨ s.forms o = (ctx.raw o).converted := by
  refine h.invariant (I := fun s => ∀ o ∈ t.opIds, s.forms o = ctx.raw o ∨
    s.forms o = (ctx.raw o).converted) ?_ (fun o _ => .inl rfl)
  intro s p rest pushed s' hv hs o ho
  by_cases he : o = p
  · subst he
    rw [hv.form_self]
    have hlen := hc.sound.typed.results_length (hc.held.op?_raw ho)
    rcases hs o ho with hraw | hcon
    · rw [hraw]
      by_cases ht : (ctx.raw o).isTupleOp
      · rcases Op.isTupleOp_iff.mp ht with his | his
        · right
          exact Op.visited_of_lowering (Op.lowering_of_construction (hw o ho) his hlen)
        · obtain ⟨tuple, element, hx, -⟩ := Op.extraction_of_wellTyped (hw o ho) his hlen
          have hops := (Op.extraction?_eq_some_iff.mp hx).2.1
          have hdef := hc.operands ho (v := tuple) (by simp [hops])
          rcases typeUnder_cases hc hs hdef with hty | ⟨q, -, -, -, -, hty⟩
          · right
            refine Op.visited_of_lowering (Op.lowering_of_extraction (hw o ho) his hlen ?_)
            simpa [hops] using hty
          · left
            refine Op.visited_of_tupleOp ht (Op.lowering_of_waiting (hw o ho) his hlen ?_)
            simpa [hops] using hty
      · right
        have hnot : (ctx.raw o).isTupleOp = false := by simpa using ht
        rw [Op.visited_of_not_tupleOp hnot, Op.converted_of_not_tupleOp hnot]
    · right
      rw [hcon, Op.visited_converted]
  · rw [hv.form_of_ne he]
    exact hs o ho

/-- The types of the operands of an operation, by size. -/
noncomputable def operandSize (ctx : Context) (o : OpId) : Nat :=
  ((ctx.raw o).operands.map fun v => sizeOf (ctx.tyOf v)).sum

theorem exists_bound {α : Type} (f : α → Nat) (l : List α) : ∃ bound, ∀ a ∈ l, f a ≤ bound := by
  induction l with
  | nil => exact ⟨0, by simp⟩
  | cons a l ih =>
    obtain ⟨bound, h⟩ := ih
    refine ⟨max (f a) bound, List.forall_mem_cons.mpr ⟨Nat.le_max_left .., fun b hb => ?_⟩⟩
    exact Nat.le_trans (h b hb) (Nat.le_max_right ..)

theorem sizeOf_param_lt {type element : Ty} {i : Nat} (h : type.params[i]? = some element) :
    sizeOf element < sizeOf type := by
  obtain ⟨d, n, ps, as⟩ := type
  have hlt := List.sizeOf_lt_of_mem (List.mem_of_getElem? h)
  simp only [Ty.params] at hlt
  simp only [Ty.mk.sizeOf_spec]
  omega

/-- An operation that has nothing to gain from a visit but is not converted waits for one with larger
operands. -/
theorem exists_larger_waiting (hc : ctx.Confined t) (hw : ctx.WellTyped t) {forms : OpId → Op}
    (hforms : ∀ o ∈ t.opIds, forms o = ctx.raw o ∨ forms o = (ctx.raw o).converted)
    (hsettled : ∀ o ∈ t.opIds, (forms o).visited id (ctx.typeUnder forms) = forms o) {o : OpId}
    (ho : o ∈ t.opIds) (hne : forms o ≠ (ctx.raw o).converted) :
    (ctx.raw o).is "adt" "tuple_get" ∧ ∃ p ∈ t.opIds, forms p ≠ (ctx.raw p).converted ∧
      ∃ v ∈ (ctx.raw o).operands, ctx.tyOf v ∈ (ctx.raw p).resultTypes := by
  have hraw := (hforms o ho).resolve_right hne
  have hself := hsettled o ho
  rw [hraw] at hself hne
  have hlen := hc.sound.typed.results_length (hc.held.op?_raw ho)
  have ht : (ctx.raw o).isTupleOp := by
    by_contra ht
    have hnot : (ctx.raw o).isTupleOp = false := by simpa using ht
    rw [Op.visited_of_not_tupleOp hnot, ← Op.converted_of_not_tupleOp hnot] at hself
    exact hne hself.symm
  rcases Op.isTupleOp_iff.mp ht with his | his
  · rw [Op.visited_of_lowering (Op.lowering_of_construction (hw o ho) his hlen)] at hself
    exact absurd hself.symm hne
  · refine ⟨his, ?_⟩
    obtain ⟨tuple, element, hx, htup, -⟩ := Op.extraction_of_wellTyped (hw o ho) his hlen
    have hops := (Op.extraction?_eq_some_iff.mp hx).2.1
    have hdef := hc.operands ho (v := tuple) (by simp [hops])
    rcases typeUnder_cases hc hforms hdef with hty | ⟨p, hp, -, hpr, hmem, -⟩
    · rw [Op.visited_of_lowering (Op.lowering_of_extraction (hw o ho) his hlen (by
        simpa [hops] using hty))] at hself
      exact absurd hself.symm hne
    · refine ⟨p, hp, fun hcon => ?_, tuple, by simp [hops], hmem⟩
      rw [hpr] at hcon
      rw [hcon, Op.converted_resultTypes] at hmem
      obtain ⟨ty, -, hty⟩ := List.mem_map.mp hmem
      rw [← hty, Ty.isTuple_lowered] at htup
      simp at htup

/-- When nothing waits any more all operations of a well-typed region are converted. An operation waits
only for one with larger operands, and their size is bounded. -/
theorem converted_of_settled (hc : ctx.Confined t) (hw : ctx.WellTyped t) {forms : OpId → Op}
    (hforms : ∀ o ∈ t.opIds, forms o = ctx.raw o ∨ forms o = (ctx.raw o).converted)
    (hsettled : ∀ o ∈ t.opIds, (forms o).visited id (ctx.typeUnder forms) = forms o) :
    ∀ o ∈ t.opIds, forms o = (ctx.raw o).converted := by
  obtain ⟨bound, hbound⟩ := exists_bound ctx.operandSize t.opIds
  have hgap : ∀ gap, ∀ o ∈ t.opIds, bound - ctx.operandSize o = gap →
      forms o = (ctx.raw o).converted := by
    intro gap
    induction gap using Nat.strongRecOn with
    | _ gap ih =>
      intro o ho hg
      by_contra hne
      obtain ⟨his, p, hp, hpne, v, hv, hmem⟩ :=
        exists_larger_waiting hc hw hforms hsettled ho hne
      obtain ⟨hisp, -⟩ := exists_larger_waiting hc hw hforms hsettled hp hpne
      have hlt : ctx.operandSize o < ctx.operandSize p := by
        obtain ⟨x, -, hx, -, -, -⟩ := Op.extraction_of_wellTyped (hw o ho) his
          (hc.sound.typed.results_length (hc.held.op?_raw ho))
        obtain ⟨y, element, hy, -, hel, hty⟩ := Op.extraction_of_wellTyped (hw p hp) hisp
          (hc.sound.typed.results_length (hc.held.op?_raw hp))
        have hxo := (Op.extraction?_eq_some_iff.mp hx).2.1
        have hyo := (Op.extraction?_eq_some_iff.mp hy).2.1
        rw [hxo, List.mem_singleton] at hv
        rw [hty, List.mem_singleton] at hmem
        subst hv
        have hsize := sizeOf_param_lt hel
        rw [← hmem] at hsize
        simpa [operandSize, hxo, hyo] using hsize
      have hb := hbound p hp
      exact hpne (ih _ (by omega) p hp rfl)
  exact fun o ho => hgap _ o ho rfl

theorem Steps.converted (hc : ctx.Confined t) (hw : ctx.WellTyped t)
    (h : ctx.Steps t (start ctx t) s) {ending : Ending}
    (hend : ctx.EndsAt t t.opIds.length s ending) :
    ∀ o ∈ t.opIds, s.forms o = (ctx.raw o).converted := by
  have hforms := h.forms_of_wellTyped hc hw
  cases hend with
  | drained hq =>
    exact converted_of_settled hc hw hforms fun o ho => h.settled hc ho (by simp [hq])
  | outOfRewrites hq hmem hill hb =>
    have hall : ∀ o ∈ t.opIds, s.forms o = (ctx.raw o).converted := by
      intro o ho
      obtain ⟨hraw, hform⟩ := forall_lowered hb ho
      refine (hforms o ho).resolve_left fun he => ?_
      rw [he, hraw] at hform
      simp at hform
    refine absurd (h.legal hc (fun o ho => ?_) _ hmem) hill
    rw [hall o ho]
    exact ⟨Op.isTupleOp_converted, Op.retyped_converted⟩

theorem typeUnder_converted (hc : ctx.Confined t) {forms : OpId → Op}
    (hforms : ∀ o ∈ t.opIds, forms o = (ctx.raw o).converted) {v : ValueId}
    (hv : v ∈ definedValues t) : ctx.typeUnder forms v = (ctx.tyOf v).lowered := by
  rcases typeUnder_cases hc (fun o ho => .inr (hforms o ho)) hv with h | ⟨o, ho, -, he, hmem, h⟩
  · exact h
  · rw [← he, hforms o ho, Op.converted_resultTypes] at hmem
    obtain ⟨ty, -, hty⟩ := List.mem_map.mp hmem
    rw [h, ← hty, Ty.lowered_lowered]

theorem confined_of_validate (hs : ctx.Sound)
    (hledger : ∀ e ∈ ctx.ledger, ∃ value, ctx.value? e.1 = some value) {tree : OpTree}
    (htree : tree.HeldBy ctx) (hbody : tree.regions.head? = some t) {report : Report}
    (hvalid : ctx.validate tree.id = .ok report) (hpassed : report.passed) : ctx.Confined t := by
  have hmem : t ∈ tree.regions := List.mem_of_mem_head? hbody
  have hheld := htree.region hmem
  obtain ⟨hscopes, huses⟩ := errors_of_validate htree hbody hvalid hpassed
  obtain ⟨hlisted, hforeign⟩ := useErrors_eq_nil_iff.mp huses
  have hdefined := defined_of_scopeErrors hscopes
  constructor
  case sound => exact hs
  case held => exact hheld
  case nodup => exact (htree.regions_nodup hs.linked).2.1 t hmem
  case recorded =>
    intro o ho op i v hop hi
    refine hlisted (v, ⟨o, i⟩) (mem_operandUses.mpr ⟨op, ?_, hi⟩)
    rw [← raw_of_some hop]
    exact hheld.mem_preorder_raw ho
  case operands => exact fun ho hv => hdefined _ (hheld.mem_preorder_raw ho) _ hv
  case users =>
    intro v u hv hu
    obtain ⟨op, hm, -⟩ := mem_operandUses.mp (hforeign v hv u hu)
    exact List.mem_map_of_mem hm
  case grounded => exact fun hu => hledger _ hu

end Context

namespace Op

/-- A struct operation fits the types of its operands: a construction has one operand of the right
type for each field, an extraction has the type of the field that it names. -/
def StructTyped (types : ValueId → Ty) (op : Op) : Prop :=
  (op.is "adt" "struct_new" → ∃ type fields, op.resultTypes = [type] ∧
    type.structFields = some fields ∧ op.operands.map types = fields.map Prod.snd) ∧
  (op.is "adt" "struct_extract" → ∃ struct fields field type, op.operands = [struct] ∧
    (types struct).structFields = some fields ∧ (field, type) ∈ fields ∧
    op.attrs = [("field", .symbol field)] ∧ op.resultTypes = [type])

end Op

end RegionIR
