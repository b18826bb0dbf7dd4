import RegionIR.Proofs.Lowering.Answers
import RegionIR.Proofs.Rewrite.Stillness

/-! What one step of a lowering does, in full.

Whatever the context: the operation whose turn it is stays as it is, or it is retyped in place, or a
new operation with the same operands takes its place. -/

namespace RegionIR

/-- A new operation with the operands of an old one, and one result as the old one has. -/
structure OpSpec.Supersedes (spec : OpSpec) (op : Op) (ty : Ty) (v : ValueId) : Prop where
  parent : spec.parent = none
  regions : spec.regions = []
  resultTypes : spec.resultTypes = [ty]
  attrs : spec.attrs.Sorted
  operands : spec.operands = op.operands
  results : op.results = [v]

/-- The new operation with the results of the old one, where that one stands. -/
def OpSpec.inPlaceOf (spec : OpSpec) (op : Op) : Op :=
  { spec.toOp op.results with parent := op.parent }

namespace TupleLowering

variable {ctx ctx' : Context} {x : OpId} {op : Op} {r r' : Run}

/-- What an attempt can come to, when `hit` tells what the pattern makes of the operation. -/
inductive Comes (ctx : Context) (op : Op) (hit : Op → Prop) (ctx' : Context) (a : Attempt) : Prop
  | idle : (∀ op', ¬hit op') → ctx' = ctx → a = .noMatch ∨ (∃ reason, a = .declined reason) →
      Comes ctx op hit ctx' a
  | new {n : OpId} {spec : OpSpec} {ty : Ty} {v : ValueId} : hit (spec.inPlaceOf op) →
      spec.Supersedes op ty v → ctx.createOp spec = .ok (ctx', n) →
      a = .applied { replacement := some n } → Comes ctx op hit ctx' a

theorem comes_of_construct {a : Attempt} (ho : ctx.op? x = some op)
    (h : construct .tuples ctx x = .ok (ctx', a)) : Comes ctx op (fun op' => ∃ type,
      op.construction? = some type ∧ type.isTuple ∧ type.params.length = op.operands.length ∧
        op' = op.toStructNew type.lowered) ctx' a := by
  rcases construct_cases ho with ⟨type, hc, ht, hlen, he⟩ | ⟨hmiss, a', he, ha⟩
  · rw [he] at h
    simp only [except_bind_eq_ok, except_pure_eq_ok, Prod.mk.injEq] at h
    obtain ⟨⟨ctx₁, n⟩, hcreate, rfl, rfl⟩ := h
    obtain ⟨his, ⟨v, hv⟩, -⟩ := Op.construction?_eq_some_iff.mp hc
    obtain ⟨hdialect, -⟩ : op.dialect = "adt" ∧ op.name = "tuple_new" := by simpa [Op.is] using his
    have hspec : (OpSpec.structNew op.location op.operands type.lowered).Supersedes op type.lowered v :=
      ⟨rfl, rfl, rfl, by simp [OpSpec.structNew, OpSpec.ofKind, Dict.Sorted], rfl, hv⟩
    refine .new ⟨type, hc, ht, hlen, ?_⟩ hspec hcreate rfl
    simp [OpSpec.inPlaceOf, OpSpec.toOp, OpSpec.structNew, OpSpec.ofKind, Op.toStructNew, hdialect,
      OpKind.dialect, OpKind.name]
  · rw [he, Except.ok.injEq, Prod.mk.injEq] at h
    obtain ⟨rfl, rfl⟩ := h
    refine .idle ?_ rfl ha
    rintro _ ⟨type, hc, ht, hlen, -⟩
    exact hmiss type hc ht hlen

theorem comes_of_extract {a : Attempt} (ho : ctx.op? x = some op)
    (h : extract ctx x = .ok (ctx', a)) : Comes ctx op (fun op' => ∃ tuple index fields field type,
      op.extraction? = some (tuple, index) ∧ (ctx.tyOf tuple).structFields = some fields ∧
        fields[index]? = some (field, type) ∧ op' = op.toStructExtract field type) ctx' a := by
  have htypes : ∀ v ∈ op.operands, op.extraction? ≠ none → ctx.typeOf v = .ok (ctx.tyOf v) := by
    intro v hv hne
    obtain ⟨⟨tuple, index⟩, he⟩ := Option.ne_none_iff_exists'.mp hne
    obtain ⟨bits, _, hview, -⟩ := Op.view_tupleGet he
    obtain ⟨-, hops, -⟩ := Op.extraction?_eq_some_iff.mp he
    simp only [extract, Context.op_eq_ok.mpr ho, except_ok_bind, hview, except_bind_eq_ok] at h
    obtain ⟨ty, hty, -⟩ := h
    obtain ⟨value, hval, -⟩ := Context.typeOf_eq_ok.mp hty
    rw [hops, List.mem_singleton] at hv
    exact hv ▸ Context.typeOf_of_value?_eq_some hval
  cases he : op.extraction? with
  | none =>
    simp only [extract, Context.op_eq_ok.mpr ho, except_ok_bind] at h
    split at h
    · rename_i tuple bits v hv
      simp [Op.extraction?, hv] at he
    · obtain ⟨rfl, rfl⟩ := Prod.mk.inj (except_pure_eq_ok.mp h)
      exact .idle (by simp) rfl (.inl rfl)
  | some e =>
    rcases extract_cases ho fun v hv => htypes v hv (by simp [he]) with
      ⟨tuple, index, fields, field, type, hex, hfields, hi, heq⟩ | ⟨hmiss, a', heq, ha⟩
    · rw [heq] at h
      simp only [except_bind_eq_ok, except_pure_eq_ok, Prod.mk.injEq] at h
      obtain ⟨⟨ctx₁, n⟩, hcreate, rfl, rfl⟩ := h
      obtain ⟨his, hops, ⟨w, hw⟩, -⟩ := Op.extraction?_eq_some_iff.mp hex
      obtain ⟨hdialect, -⟩ : op.dialect = "adt" ∧ op.name = "tuple_get" := by simpa [Op.is] using his
      have hspec : (OpSpec.structExtract op.location tuple type field).Supersedes op type w :=
        ⟨rfl, rfl, rfl, by simp [OpSpec.structExtract, OpSpec.ofKind, Dict.Sorted],
          by simp [OpSpec.structExtract, hops], hw⟩
      refine .new ⟨tuple, index, fields, field, type, he ▸ hex, hfields, hi, ?_⟩ hspec hcreate rfl
      simp [OpSpec.inPlaceOf, OpSpec.toOp, OpSpec.structExtract, OpSpec.ofKind, Op.toStructExtract,
        hdialect, hops, OpKind.dialect, OpKind.name]
    · rw [heq, Except.ok.injEq, Prod.mk.injEq] at h
      obtain ⟨rfl, rfl⟩ := h
      refine .idle ?_ rfl ha
      rintro _ ⟨tuple, index, fields, field, type, hex, hfields, hi, -⟩
      exact hmiss tuple index fields field type (he.trans hex) hfields hi

/-- What dealing with an operation that stands in the program does to a run. -/
inductive Effect (r : Run) (x : OpId) (op : Op) (r' : Run) : Prop
  | idle : op.visited id r.ctx.tyOf = op → r' = { r with declines := r'.declines } → Effect r x op r'
  | retyped : op.isTupleOp = false → op.retyped ≠ op → r.ctx.ChangesOp r'.ctx x op.retyped →
      r' = { r with
        ctx := r'.ctx, declines := r'.declines, retyped := r.retyped + 1
        work := r.work.pushAll (r'.ctx.usersOf op.results) } → Effect r x op r'
  | replaced {spec : OpSpec} {ty : Ty} {b : BlockId} {v w : ValueId} {n : OpId}
      {producers : List OpId} : op.lowering id r.ctx.tyOf = some (spec.inPlaceOf op) →
      op.parent = some b → spec.Supersedes op ty v → r.ctx.Replaces spec ty b x v r'.ctx n w →
      r'.ctx.producersOf { spec.toOp [w] with
        operands := op.operands.map (swap v w), parent := some b } = .ok producers →
      r' = { r with
        ctx := r'.ctx, declines := r'.declines, rewrites := r.rewrites + 1
        work := (r.work.push n).pushAll (r'.ctx.usersOf [w] ++ producers) } → Effect r x op r'

theorem effect_of_rewrite {r₁ : Run} {spec : OpSpec} {ty : Ty} {b : BlockId} {v : ValueId} {n : OpId}
    (hs : r.ctx.Sound) (ho : r.ctx.op? x = some op) (hparent : op.parent = some b)
    (hlow : op.lowering id r.ctx.tyOf = some (spec.inPlaceOf op)) (hspec : spec.Supersedes op ty v)
    (hcreate : r.ctx.createOp spec = .ok (ctx', n))
    (hr₁ : r₁ = { r with ctx := ctx', declines := r₁.declines })
    (h : r₁.rewrite x { replacement := some n } = .ok r') : Effect r x op r' := by
  obtain ⟨ctx₁, new, ctx₂, w, hcreate', hcarry, hreplaces⟩ := Context.exists_replaces hs hspec.parent
    hspec.regions hspec.resultTypes hspec.attrs ho hparent hspec.results
  obtain ⟨rfl, rfl⟩ := Prod.mk.inj (Except.ok.inj (hcreate.symm.trans hcreate'))
  have hctx₁ : r₁.ctx = ctx' := by rw [hr₁]
  simp only [Run.rewrite, hctx₁, hcarry, except_ok_bind, Plan.newOps, Option.toList_some,
    List.nil_append, List.foldlM_cons, List.foldlM_nil, Run.enqueueNew, Run.clearDecline,
    Context.op_eq_ok.mpr hreplaces.op?_new, except_bind_eq_ok, except_pure_eq_ok] at h
  obtain ⟨r₂, ⟨producers, hproducers, rfl⟩, rfl⟩ := h
  rw [hspec.operands] at hproducers
  refine .replaced hlow hparent hspec hreplaces hproducers ?_
  rw [hr₁]
  rfl

theorem effect_of_attempt {hit : Op → Prop} {p : Pattern} {ps : List Pattern} {r₁ : Run}
    {rewritten : Bool} {a : Attempt} {b : BlockId} (hs : r.ctx.Sound) (ho : r.ctx.op? x = some op)
    (hparent : op.parent = some b) (hr₁ : r₁ = { r with declines := r₁.declines })
    (hattempt : p.attempt .tuples r.ctx x = .ok (ctx', a)) (hcomes : Comes r.ctx op hit ctx' a)
    (hhit : ∀ op', hit op' → op.lowering id r.ctx.tyOf = some op')
    (h : Engine.tryPatterns .tuples x (p :: ps) r₁ = .ok (r', rewritten)) :
    rewritten = true ∧ Effect r x op r' ∨ (∀ op', ¬hit op') ∧ ∃ r₂,
      r₂ = { r with declines := r₂.declines } ∧
        Engine.tryPatterns .tuples x ps r₂ = .ok (r', rewritten) := by
  have hctx₁ : r₁.ctx = r.ctx := by rw [hr₁]
  simp only [Engine.tryPatterns, hctx₁, hattempt, except_ok_bind] at h
  cases hcomes with
  | idle hmiss hctx ha =>
    refine .inr ⟨hmiss, ?_⟩
    rcases ha with rfl | ⟨reason, rfl⟩
    · exact ⟨_, by rw [hr₁, hctx], h⟩
    · refine ⟨_, ?_, h⟩
      rw [hr₁, hctx]
      rfl
  | new hthis hspec hcreate ha =>
    subst ha
    simp only [Plan.isEmpty, List.isEmpty_nil, Option.isNone_some, Bool.and_false, Bool.false_and,
      Bool.false_eq_true, if_false, except_bind_eq_ok, except_pure_eq_ok, Prod.mk.injEq] at h
    obtain ⟨r₂, hrewrite, rfl, rfl⟩ := h
    refine .inl ⟨rfl, effect_of_rewrite hs ho hparent (hhit _ hthis) hspec hcreate ?_ hrewrite⟩
    rw [hr₁]

theorem effect_of_tryPatterns {rewritten : Bool} {b : BlockId} (hs : r.ctx.Sound)
    (ho : r.ctx.op? x = some op) (hparent : op.parent = some b)
    (h : Engine.tryPatterns .tuples x engine.patterns r = .ok (r', rewritten)) :
    rewritten = true ∧ Effect r x op r' ∨ rewritten = false ∧
      op.lowering id r.ctx.tyOf = none ∧ r' = { r with declines := r'.declines } := by
  change Engine.tryPatterns .tuples x [constructPattern, extractPattern] r = _ at h
  obtain ⟨⟨ctx₁, a₁⟩, hconstruct, -⟩ := except_bind_eq_ok.mp h
  rcases effect_of_attempt hs ho hparent rfl hconstruct (comes_of_construct ho hconstruct)
    (fun _ hit => Op.lowering_eq_some_iff.mpr (.inl hit)) h with heffect | ⟨hmiss₁, r₁, hr₁, h⟩
  · exact .inl heffect
  have hctx₁ : r₁.ctx = r.ctx := by rw [hr₁]
  obtain ⟨⟨ctx₂, a₂⟩, hextract, -⟩ := except_bind_eq_ok.mp h
  rw [hctx₁] at hextract
  rcases effect_of_attempt hs ho hparent hr₁ hextract (comes_of_extract ho hextract)
    (fun _ hit => Op.lowering_eq_some_iff.mpr (.inr hit)) h with heffect | ⟨hmiss₂, r₂, hr₂, h⟩
  · exact .inl heffect
  obtain ⟨rfl, rfl⟩ := Prod.mk.inj (except_pure_eq_ok.mp h)
  refine .inr ⟨rfl, Option.eq_none_iff_forall_ne_some.mpr fun op' hlow => ?_, hr₂⟩
  rcases Op.lowering_eq_some_iff.mp hlow with hit | hit
  · exact hmiss₁ op' hit
  · exact hmiss₂ op' hit

theorem effect_of_visit {b : BlockId} (hs : r.ctx.Sound) (ho : r.ctx.op? x = some op)
    (hparent : op.parent = some b) (h : engine.visit x r = .ok r') : Effect r x op r' := by
  simp only [Engine.visit, except_bind_eq_ok] at h
  obtain ⟨⟨r₁, rewritten⟩, htry, h⟩ := h
  rcases effect_of_tryPatterns hs ho hparent htry with ⟨rfl, heffect⟩ | ⟨rfl, hlow, hr₁⟩
  · obtain rfl : r₁ = r' := by simpa using h
    exact heffect
  have hctx₁ : r₁.ctx = r.ctx := by rw [hr₁]
  rw [← hctx₁] at ho hs
  have hnamed := isNamedIllegal_target ho
  change engine.target.isNamedIllegal _ _ = _ at hnamed
  simp only [Bool.false_eq_true, if_false, hnamed, except_ok_bind] at h
  cases htuple : op.isTupleOp with
  | true =>
    obtain rfl : r₁ = r' := by simpa [htuple] using h
    exact .idle (Op.visited_of_tupleOp htuple hlow) hr₁
  | false =>
    obtain ⟨ctx₂, hretype, hch⟩ := Context.retypeOp_tuples hs ho
    change Engine.retypeOp engine.converter _ _ = _ at hretype
    simp only [htuple, Bool.false_eq_true, if_false, hretype, except_ok_bind] at h
    by_cases hsame : op.retyped = op
    · have hfixed := Engine.retypeOp_of_fixed (c := .tuples) ho hsame
      change Engine.retypeOp engine.converter _ _ = _ at hfixed
      obtain ⟨rfl, -⟩ := Prod.mk.inj (Except.ok.inj (hretype.symm.trans hfixed))
      obtain rfl : r₁ = r' := by simpa [hsame] using h
      exact .idle ((Op.visited_of_not_tupleOp htuple).trans hsame) hr₁
    · have hop := hch.op? x
      rw [if_pos rfl] at hop
      simp only [hsame, ne_eq, not_false_eq_true, decide_true, if_true,
        Context.op_eq_ok.mpr hop, except_ok_bind, except_pure_eq_ok] at h
      subst h
      refine .retyped htuple hsame (hctx₁ ▸ hch) ?_
      rw [hr₁]
      rfl

/-- A step takes the next operation from the queue and deals with it, unless it ends the run. -/
theorem step_cases {budget : Nat} {ending : Option Ending} (hs : r.ctx.Sound)
    (h : engine.step budget r = .ok (r', ending)) :
    (r' = r ∧ r.work.pop = none ∧ ending = some .drained) ∨
      ∃ x work op, r.work.pop = some (x, work) ∧ r.ctx.op? x = some op ∧
        (ending = some .outOfRewrites ∧ r' = { r with work } ∨
          ending = none ∧ (r' = { r with work } ∨ Effect { r with work } x op r')) := by
  unfold Engine.step at h
  split at h
  · rename_i hpop
    obtain ⟨rfl, rfl⟩ := Prod.mk.inj (except_pure_eq_ok.mp h)
    exact .inl ⟨rfl, hpop, rfl⟩
  rename_i x work hpop
  simp only [Context.isAttached, except_bind_eq_ok, Context.op_eq_ok, except_pure_eq_ok] at h
  obtain ⟨attached, ⟨op, ho, rfl⟩, h⟩ := h
  refine .inr ⟨x, work, op, hpop, ho, ?_⟩
  split at h
  · obtain ⟨rfl, rfl⟩ := Prod.mk.inj (except_pure_eq_ok.mp h)
    exact .inr ⟨rfl, .inl rfl⟩
  rename_i hattached
  obtain ⟨b, hparent⟩ : ∃ b, op.parent = some b := by
    simpa [← Option.ne_none_iff_exists'] using hattached
  simp only [except_bind_eq_ok] at h
  obtain ⟨legal, -, h⟩ := h
  split at h
  · obtain ⟨rfl, rfl⟩ := Prod.mk.inj (except_pure_eq_ok.mp h)
    exact .inr ⟨rfl, .inl rfl⟩
  split at h
  · obtain ⟨rfl, rfl⟩ := Prod.mk.inj (except_pure_eq_ok.mp h)
    exact .inl ⟨rfl, rfl⟩
  · simp only [except_bind_eq_ok, except_pure_eq_ok, Prod.mk.injEq] at h
    obtain ⟨r₁, hvisit, rfl, rfl⟩ := h
    exact .inr ⟨rfl, .inr (effect_of_visit hs ho hparent hvisit)⟩

end TupleLowering

end RegionIR
