import RegionIR.Proofs.Lowering.Simulation

/-! The engine as a whole: from a step that is a visit to a conversion that always ends.

A run ends because visits use up fuel, and the bound on its steps is never reached. When it ends,
nothing waits any more, or the operation that comes next is illegal and as many operations were
lowered as there are. -/

namespace RegionIR

namespace Engine

variable {c : Converter} {x : OpId} {r : Run} (p : Pattern) (rest : List Pattern)

theorem tryPatterns_of_passed {attempt : Attempt} (h : p.attempt c r.ctx x = .ok (r.ctx, attempt))
    (ha : attempt = .noMatch ∨ ∃ reason, attempt = .declined reason) :
    ∃ r', tryPatterns c x (p :: rest) r = tryPatterns c x rest r' ∧
      (r' = r ∨ ∃ d, r' = r.setDecline x d) := by
  rcases ha with rfl | ⟨reason, rfl⟩
  · exact ⟨r, by simp [tryPatterns, h, bind, Except.bind], .inl rfl⟩
  · exact ⟨r.setDecline x ⟨p.name, reason⟩, by simp [tryPatterns, h, bind, Except.bind],
      .inr ⟨_, rfl⟩⟩

theorem tryPatterns_of_replaced {ctx : Context} {new : OpId} {r' : Run}
    (h : p.attempt c r.ctx x = .ok (ctx, .applied { replacement := some new }))
    (hr : Run.rewrite { r with ctx := ctx } x { replacement := some new } = .ok r') :
    tryPatterns c x (p :: rest) r = .ok (r', true) := by
  simp [tryPatterns, h, hr, Plan.isEmpty, bind, Except.bind, pure, Except.pure]

end Engine

namespace Context.Tracks

variable {ctx : Context} {t : RegionTree} {image : OpId → OpId} {subst : ValueId → ValueId}
  {s : Progress} {r r₁ : Run} {o : OpId} {rest : List OpId}

theorem Popped.passed {x : OpId} {op : Op} {r₂ : Run} (hp : Popped r x r₁)
    (ho : r.ctx.op? x = some op) (h : r₂ = r₁ ∨ ∃ d, r₂ = r₁.setDecline x d) : Popped r x r₂ := by
  rcases h with rfl | ⟨d, rfl⟩
  · exact hp
  · exact hp.setDecline ho d

theorem construct (hc : ctx.Confined t) (h : ctx.Tracks t s r image subst)
    (hq : s.queue = o :: rest) (hp : Popped r (image o) r₁) (ps : List Pattern) {type : Ty}
    (hct : (s.forms o).construction? = some type) (ht : type.isTuple)
    (hlen : type.params.length = (s.forms o).operands.length)
    (hcon : TupleLowering.construct .tuples r.ctx (image o) = (do
      let (ctx, new) ← r.ctx.createOp (.structNew (s.forms o).location
        ((s.forms o).operands.map subst) type.lowered)
      return (ctx, .applied { replacement := some new }))) :
    ∃ r' pushed s' image' subst',
      Engine.tryPatterns .tuples (image o) (TupleLowering.constructPattern :: ps) r₁ =
        .ok (r', true) ∧
      ctx.Visits t s o rest pushed s' ∧ ctx.Tracks t s' r' image' subst' := by
  obtain ⟨-, ⟨v, hv⟩, -⟩ := Op.construction?_eq_some_iff.mp hct
  have hlow : (s.forms o).lowering id (ctx.typeUnder s.forms) =
      some ((s.forms o).toStructNew type.lowered) :=
    Op.lowering_eq_some_iff.mpr (.inl ⟨type, hct, ht, hlen, rfl⟩)
  have hdialect : (s.forms o).dialect = "adt" := (Op.loweredFrom hlow).dialect
  obtain ⟨ctx₁, new, r', pushed, s', image', subst', hcreate, hrw, hvis, htr⟩ := h.rewrite hc hq
    hp (.structNew (s.forms o).location ((s.forms o).operands.map subst) type.lowered)
    rfl rfl rfl (by simp [OpSpec.structNew, OpSpec.ofKind, Dict.Sorted]) rfl hv (by
      simp [Op.toStructNew, OpSpec.toOp, OpSpec.structNew, OpSpec.ofKind, OpKind.dialect,
        OpKind.name, hdialect, hv]) hlow
  refine ⟨r', pushed, s', image', subst', Engine.tryPatterns_of_replaced _ _ ?_ hrw, hvis, htr⟩
  rw [hp.ctx] at hcreate ⊢
  change TupleLowering.construct .tuples r.ctx (image o) = _
  rw [hcon, hcreate]
  rfl

theorem extract (hc : ctx.Confined t) (h : ctx.Tracks t s r image subst)
    (hq : s.queue = o :: rest) (hp : Popped r (image o) r₁) (ps : List Pattern) {a : ValueId}
    {i : Nat} {fields : List (String × Ty)} {field : String} {type : Ty}
    (het : (s.forms o).extraction? = some (a, i))
    (hf : (ctx.typeUnder s.forms a).structFields = some fields)
    (hi : fields[i]? = some (field, type))
    (hext : TupleLowering.extract r.ctx (image o) = (do
      let (ctx, new) ← r.ctx.createOp (.structExtract (s.forms o).location (subst a) type field)
      return (ctx, .applied { replacement := some new }))) :
    ∃ r' pushed s' image' subst',
      Engine.tryPatterns .tuples (image o) (TupleLowering.extractPattern :: ps) r₁ =
        .ok (r', true) ∧
      ctx.Visits t s o rest pushed s' ∧ ctx.Tracks t s' r' image' subst' := by
  obtain ⟨-, hops, ⟨v, hv⟩, -⟩ := Op.extraction?_eq_some_iff.mp het
  have hlow : (s.forms o).lowering id (ctx.typeUnder s.forms) =
      some ((s.forms o).toStructExtract field type) :=
    Op.lowering_eq_some_iff.mpr (.inr ⟨a, i, fields, field, type, het, hf, hi, rfl⟩)
  have hdialect : (s.forms o).dialect = "adt" := (Op.loweredFrom hlow).dialect
  obtain ⟨ctx₁, new, r', pushed, s', image', subst', hcreate, hrw, hvis, htr⟩ := h.rewrite hc hq
    hp (.structExtract (s.forms o).location (subst a) type field)
    rfl rfl rfl (by simp [OpSpec.structExtract, Dict.Sorted])
    (by simp [OpSpec.structExtract, hops]) hv (by
      simp [Op.toStructExtract, OpSpec.toOp, OpSpec.structExtract, OpSpec.ofKind, OpKind.dialect,
        OpKind.name, hdialect, hv]) hlow
  refine ⟨r', pushed, s', image', subst', Engine.tryPatterns_of_replaced _ _ ?_ hrw, hvis, htr⟩
  rw [hp.ctx] at hcreate ⊢
  change TupleLowering.extract r.ctx (image o) = _
  rw [hext, hcreate]
  rfl

/-- The patterns lower the operation that was taken from the queue, or they change nothing. They see
the types of the values that stand for its operands. -/
theorem tryPatterns (hc : ctx.Confined t) (h : ctx.Tracks t s r image subst)
    (hq : s.queue = o :: rest) (hp : Popped r (image o) r₁) :
    (∃ r' pushed s' image' subst',
      Engine.tryPatterns .tuples (image o) TupleLowering.engine.patterns r₁ = .ok (r', true) ∧
      ctx.Visits t s o rest pushed s' ∧ ctx.Tracks t s' r' image' subst') ∨
    ((s.forms o).lowering id (ctx.typeUnder s.forms) = none ∧ ∃ r',
      Engine.tryPatterns .tuples (image o) TupleLowering.engine.patterns r₁ = .ok (r', false) ∧
      Popped r (image o) r') := by
  have hmem := h.mem_head hq
  have ho := h.refines.op? hmem
  have hpatterns : TupleLowering.engine.patterns =
      [TupleLowering.constructPattern, TupleLowering.extractPattern] := rfl
  rw [hpatterns]
  rcases TupleLowering.construct_cases ho with ⟨type, hct, ht, hlen, hcon⟩ | ⟨hct, a, hcon, ha⟩
  · rw [Op.construction?_rename] at hct
    simp only [Op.rename, List.length_map] at hlen
    exact .inl (h.construct hc hq hp _ hct ht hlen hcon)
  obtain ⟨r₂, he₂, hr₂⟩ := Engine.tryPatterns_of_passed TupleLowering.constructPattern
    [TupleLowering.extractPattern] (by rw [hp.ctx]; exact hcon) ha
  have hp₂ := hp.passed ho hr₂
  rw [he₂]
  have hfields {a : ValueId} {i : Nat} (he : (s.forms o).extraction? = some (a, i)) :
      (r.ctx.tyOf (subst a)).structFields = (ctx.typeUnder s.forms a).structFields := by
    obtain ⟨-, hops, -⟩ := Op.extraction?_eq_some_iff.mp he
    rw [h.refines.tyOf_subst hc (h.refines.operand_defined hc hmem (by simp [hops]))]
  rcases TupleLowering.extract_cases ho (h.refines.typeOf_operand hc hmem) with
    ⟨tuple, index, fields, field, type, het, hf, hi, hext⟩ | ⟨het, a, hext, ha⟩
  · rw [Op.extraction?_rename, Option.map_eq_some_iff] at het
    obtain ⟨⟨a, i⟩, het, he⟩ := het
    cases he
    exact .inl (h.extract hc hq hp₂ _ het (hfields het ▸ hf) hi hext)
  · right
    obtain ⟨r₃, he₃, hr₃⟩ := Engine.tryPatterns_of_passed TupleLowering.extractPattern []
      (by rw [hp₂.ctx]; exact hext) ha
    refine ⟨?_, r₃, by rw [he₃]; rfl, hp₂.passed ho hr₃⟩
    refine Option.eq_none_iff_forall_ne_some.mpr fun op' hl => ?_
    rcases Op.lowering_eq_some_iff.mp hl with
      ⟨type, hct', ht, hlen, -⟩ | ⟨a, i, fields, field, type, het', hf, hi, -⟩
    · refine hct type ?_ ht (by simpa [Op.rename] using hlen)
      rw [Op.construction?_rename, hct']
    · refine het (subst a) i fields field type ?_ ((hfields het').trans hf) hi
      rw [Op.extraction?_rename, het']
      rfl

/-- What is left of an operation that no pattern lowers: nothing changes, or it is retyped. -/
theorem visit_idle (hc : ctx.Confined t) (h : ctx.Tracks t s r image subst)
    (hq : s.queue = o :: rest) (hp : Popped r (image o) r₁)
    (hidle : (s.forms o).visited id (ctx.typeUnder s.forms) = s.forms o) :
    ∃ s', ctx.Visits t s o rest [] s' ∧ ctx.Tracks t s' r₁ image subst := by
  have hforms : Function.update s.forms o ((s.forms o).visited id (ctx.typeUnder s.forms)) =
      s.forms := by
    rw [hidle]
    exact Function.update_eq_self o s.forms
  obtain ⟨pushed, s', hvis, htr⟩ := h.visit hc hq r₁ []
    (by rw [hforms, hp.ctx]; exact h.refines) (fun _ _ => rfl) hp.ready
    (by rw [List.append_nil]; exact h.queue_popped hq hp) (by simp) (fun _ => rfl)
    (fun _ hne => absurd hidle hne) (fun hne => absurd hidle hne)
    (fun d hd => by rw [hp.ctx]; exact hp.declined hd) (by
      rw [hp.rewrites, hidle]
      simp)
  have hpushed : pushed = [] := hvis.idle (by rw [hvis.form_self, hidle])
  exact ⟨s', hpushed ▸ hvis, htr⟩

theorem retype (hc : ctx.Confined t) (h : ctx.Tracks t s r image subst)
    (hq : s.queue = o :: rest) (hp : Popped r (image o) r₁) (ho : (s.forms o).isTupleOp = false) :
    ∃ r' pushed s', (do
      let (ctx, changed) ← Engine.retypeOp .tuples r₁.ctx (image o)
      if changed then
        let users := ctx.usersOf (← ctx.op (image o)).results
        return { r₁ with ctx, retyped := r₁.retyped + 1, work := r₁.work.pushAll users }
      else return { r₁ with ctx }) = .ok r' ∧
      ctx.Visits t s o rest pushed s' ∧ ctx.Tracks t s' r' image subst := by
  have hmem := h.mem_head hq
  have hvisited : (s.forms o).visited id (ctx.typeUnder s.forms) = (s.forms o).retyped :=
    Op.visited_of_not_tupleOp ho
  obtain ⟨cur', hret, hch⟩ := retypeOp_tuples h.refines.sound (h.refines.op? hmem)
  have hr := h.refines.retype hmem hch
  rw [← hvisited] at hr
  have hop := hr.op? hmem
  rw [Function.update_self] at hop
  have hdeclined : ∀ d ∈ r₁.declines, ∃ op, cur'.op? d.1 = some op := by
    intro d hd
    obtain ⟨op, hd⟩ := hp.declined hd
    rw [hch.op?]
    split
    · exact ⟨_, rfl⟩
    · exact ⟨op, hd⟩
  have hcount (n : Nat) : n = n + if (s.forms o).isTupleOp &&
      !((s.forms o).visited id (ctx.typeUnder s.forms)).isTupleOp then 1 else 0 := by
    simp [ho]
  rw [hp.ctx, hret]
  by_cases he : (s.forms o).retyped = (s.forms o)
  · have hdec : decide (((s.forms o).rename subst).retyped ≠ (s.forms o).rename subst) = false := by
      simpa using (Op.retyped_rename_eq_iff subst).mpr he
    rw [← hvisited] at he
    have hrest := h.queue_popped hq hp
    obtain ⟨pushed, s', hvis, htr⟩ := h.visit hc hq { r₁ with ctx := cur' } [] hr (fun _ _ => rfl)
      hp.ready (by rw [List.append_nil]; exact hrest) (by simp) (fun _ => rfl)
      (fun _ hne => absurd he hne) (fun hne => absurd he hne) hdeclined
      (hp.rewrites.trans (hcount _))
    refine ⟨_, pushed, s', ?_, hvis, htr⟩
    rw [except_ok_bind, hdec]
    rfl
  · have hdec : decide (((s.forms o).rename subst).retyped ≠ (s.forms o).rename subst) = true := by
      simpa using fun h => he ((Op.retyped_rename_eq_iff subst).mp h)
    let users := cur'.usersOf
      (((s.forms o).visited id (ctx.typeUnder s.forms)).rename subst).results
    have husers {x : OpId} : x ∈ users ↔ ∃ p ∈ t.opIds, x = image p ∧
        ∃ v ∈ (s.forms o).results, v ∈ ((Function.update s.forms o
          ((s.forms o).visited id (ctx.typeUnder s.forms))) p).operands := by
      have hm := hr.mem_usersOf hc hmem (x := x)
      rw [Function.update_self, Op.visited_results] at hm
      simp only [users, Op.rename, Op.visited_results] at hm ⊢
      exact hm
    obtain ⟨hready, pushed, hqueue, hm⟩ := hp.ready.pushAll users
    have hrest := h.queue_popped hq hp
    have hnd := hready.nodup
    rw [hqueue, List.nodup_append] at hnd
    rw [← hvisited] at he
    obtain ⟨pushed', s', hvis, htr⟩ := h.visit hc hq
      { r₁ with ctx := cur', retyped := r₁.retyped + 1, work := r₁.work.pushAll users } pushed hr
      (fun _ _ => rfl) hready (hrest ▸ hqueue) (by
        intro x hx
        rcases (hm x).mp (List.mem_append_right _ hx) with hx' | hx'
        · exact absurd rfl (hnd.2.2 x hx' x hx)
        · obtain ⟨p, hp, he, -⟩ := husers.mp hx'
          exact ⟨p, hp, he⟩)
      (fun h => absurd h he) (fun h => absurd (ho.symm.trans h) (by simp)) (by
        intro _ p hp hv
        change _ ∈ (r₁.work.pushAll users).queue
        rw [hqueue, hm]
        exact .inr (husers.mpr ⟨p, hp, rfl, hv⟩))
      hdeclined (hp.rewrites.trans (hcount _))
    refine ⟨_, pushed', s', ?_, hvis, htr⟩
    rw [except_ok_bind, hdec]
    simp only [if_true, op_eq_ok.mpr hop, except_ok_bind]
    rfl

/-- What the engine does with an illegal operation that was taken from the queue. -/
theorem visit_illegal (hc : ctx.Confined t) (h : ctx.Tracks t s r image subst)
    (hq : s.queue = o :: rest) (hp : Popped r (image o) r₁) :
    ∃ r' pushed s' image' subst', TupleLowering.engine.visit (image o) r₁ = .ok r' ∧
      ctx.Visits t s o rest pushed s' ∧ ctx.Tracks t s' r' image' subst' := by
  have hmem := h.mem_head hq
  rcases h.tryPatterns hc hq hp with
    ⟨r', pushed, s', image', subst', htry, hvis, htr⟩ | ⟨hl, r₂, htry, hp₂⟩
  · refine ⟨r', pushed, s', image', subst', ?_, hvis, htr⟩
    change Engine.tryPatterns TupleLowering.engine.converter _ _ _ = _ at htry
    simp only [Engine.visit, htry, except_ok_bind, if_true]
    rfl
  · change Engine.tryPatterns TupleLowering.engine.converter _ _ _ = _ at htry
    have ho := h.refines.op? hmem
    rw [← hp₂.ctx] at ho
    have hnamed := TupleLowering.isNamedIllegal_target ho
    change TupleLowering.engine.target.isNamedIllegal _ _ = .ok (s.forms o).isTupleOp at hnamed
    simp only [Engine.visit, htry, except_ok_bind, hnamed, Bool.false_eq_true, if_false]
    cases ht : (s.forms o).isTupleOp
    · obtain ⟨r', pushed, s', hret, hvis, htr⟩ := h.retype hc hq hp₂ ht
      exact ⟨r', pushed, s', image, subst, hret, hvis, htr⟩
    · obtain ⟨s', hvis, htr⟩ := h.visit_idle hc hq hp₂ (Op.visited_of_tupleOp ht hl)
      exact ⟨r₂, [], s', image, subst, rfl, hvis, htr⟩

end Context.Tracks

namespace Context

variable {ctx : Context} {t : RegionTree} {image : OpId → OpId} {subst : ValueId → ValueId}
  {s : Progress} {r : Run}

/-- Where a run stands when it ends: nothing waits any more, or what comes next is illegal and
there were enough rewrites. -/
inductive EndsAt (ctx : Context) (t : RegionTree) (budget : Nat) (s : Progress) : Ending → Prop
  | drained : s.queue = [] → EndsAt ctx t budget s .drained
  | outOfRewrites {o : OpId} : o ∈ s.queue → o ∈ t.opIds →
      ¬(s.forms o).Legal (ctx.typeUnder s.forms) → budget ≤ lowered ctx t s →
      EndsAt ctx t budget s .outOfRewrites

/-- A run that has ended. -/
structure Finishes (ctx : Context) (t : RegionTree) (budget : Nat) (s : Progress) (r : Run)
    (ending : Ending) (image : OpId → OpId) (subst : ValueId → ValueId) : Prop where
  refines : ctx.Refines t s.forms r.ctx image subst
  declined {d : OpId × Decline} : d ∈ r.declines → ∃ op, r.ctx.op? d.1 = some op
  rewrites : r.rewrites = lowered ctx t s
  ending : ctx.EndsAt t budget s ending

namespace Tracks

theorem popped {x : OpId} {work : Worklist} (h : ctx.Tracks t s r image subst)
    (hpop : r.work.pop = some (x, work)) : Popped r x { r with work := work } := by
  obtain ⟨hready, hqueue⟩ := h.ready.pop hpop
  exact ⟨rfl, hready, hqueue, rfl, h.declined⟩

theorem step (hc : ctx.Confined t) (h : ctx.Tracks t s r image subst) (budget : Nat) :
    (∃ r' ending, TupleLowering.engine.step budget r = .ok (r', some ending) ∧
      ctx.Finishes t budget s r' ending image subst) ∨
    ∃ o rest r' pushed s' image' subst', TupleLowering.engine.step budget r = .ok (r', none) ∧
      ctx.Visits t s o rest pushed s' ∧ ctx.Tracks t s' r' image' subst' := by
  have hqueue := h.queue
  cases hpop : r.work.pop with
  | none =>
    left
    have hnil : s.queue = [] := by
      unfold Worklist.pop at hpop
      split at hpop
      · rename_i hq
        rw [hq] at hqueue
        exact List.map_eq_nil_iff.mp hqueue.symm
      · simp at hpop
    exact ⟨r, .drained, by simp [Engine.step, hpop, pure, Except.pure], h.refines, h.declined,
      h.rewrites, .drained hnil⟩
  | some next =>
    obtain ⟨x, work⟩ := next
    have hp := h.popped hpop
    rw [hp.queue] at hqueue
    obtain ⟨o, rest, hq, rfl, hrest⟩ := List.map_eq_cons_iff.mp hqueue.symm
    have hmem := h.mem_head hq
    have ho := h.refines.op? hmem
    obtain ⟨b, -, -, -, -, hparent⟩ := hc.held.exists_block hc.sound.linked hmem
    have hattached : r.ctx.isAttached (image o) = .ok true := by
      rw [← h.refines.parent hmem] at hparent
      simp [isAttached, op_eq_ok.mpr ho, Op.rename, hparent, pure, Except.pure]
    obtain ⟨legal, hlegal, hiff⟩ := TupleLowering.isLegal_target ho
      (h.refines.typeOf_operand hc hmem)
    rw [h.refines.legal_iff hc hmem] at hiff
    change TupleLowering.engine.target.isLegal _ _ = _ at hlegal
    simp only [Engine.step, hpop, hattached, except_ok_bind, hlegal, Bool.not_true,
      Bool.false_eq_true, if_false]
    cases legal
    · have hill : ¬(s.forms o).Legal (ctx.typeUnder s.forms) := fun hl => by simp [hl] at hiff
      by_cases hb : budget ≤ r.rewrites
      · left
        refine ⟨{ r with work := work }, .outOfRewrites,
          by simp only [Bool.false_eq_true, if_false, hb, if_true]; rfl,
          h.refines, h.declined, h.rewrites, .outOfRewrites ?_ hmem hill (h.rewrites ▸ hb)⟩
        rw [hq]
        exact List.mem_cons_self
      · right
        obtain ⟨r', pushed, s', image', subst', hvisit, hvis, htr⟩ := h.visit_illegal hc hq hp
        refine ⟨o, rest, r', pushed, s', image', subst', ?_, hvis, htr⟩
        simp only [Bool.false_eq_true, if_false, hb, hvisit, except_ok_bind]
        rfl
    · right
      obtain ⟨s', hvis, htr⟩ := h.visit_idle hc hq hp (Op.visited_of_legal (hiff.mp rfl) id)
      exact ⟨o, rest, _, [], s', image, subst, rfl, hvis, htr⟩

theorem run (hc : ctx.Confined t) (budget : Nat) {limit : Nat} (h : ctx.Tracks t s r image subst)
    (hlimit : fuel t s < limit) :
    ∃ r' ending s' image' subst', TupleLowering.engine.run budget limit r = .ok (r', ending) ∧
      ctx.Steps t s s' ∧ ctx.Finishes t budget s' r' ending image' subst' := by
  induction limit generalizing s r image subst with
  | zero => omega
  | succ limit ih =>
    rcases h.step hc budget with
      ⟨r', ending, hstep, hf⟩ | ⟨o, rest, r', pushed, s', image', subst', hstep, hv, h'⟩
    · exact ⟨r', ending, s, image, subst, by simp [Engine.run, hstep, pure, Except.pure], .refl, hf⟩
    · have hlt := hv.fuel_lt hc.nodup fun _ hp => h.known hp
      obtain ⟨r'', ending, s'', image'', subst'', hrun, hsteps, hf⟩ := ih h' (by omega)
      refine ⟨r'', ending, s'', image'', subst'', ?_, (Steps.refl.visit hv).trans hsteps, hf⟩
      simp only [Engine.run, hstep, except_ok_bind, hrun]

end Tracks

theorem fuel_start_lt (ctx : Context) (t : RegionTree) (n : Nat) :
    fuel t (start ctx t) < (n + t.opIds.length + 2048) ^ 3 := by
  have hload := Nat.mul_le_mul_right (t.opIds.length + 1) (load_le t (start ctx t))
  have hqueue : (start ctx t).queue.length = t.opIds.length := rfl
  have hfuel : fuel t (start ctx t) ≤
      2 * t.opIds.length * (t.opIds.length + 1) + t.opIds.length := by
    simp only [fuel, hqueue]
    omega
  generalize t.opIds.length = m at hfuel
  have hm : m + 1 ≤ n + m + 2048 := by omega
  have hsquare : m * (m + 1) ≤ (m + 1) * (m + 1) := Nat.mul_le_mul_right _ (Nat.le_succ m)
  have hself : m + 1 ≤ (m + 1) * (m + 1) := Nat.le_mul_of_pos_left _ (Nat.succ_pos m)
  calc fuel t (start ctx t) ≤ 2 * m * (m + 1) + m := hfuel
    _ < 3 * ((m + 1) * (m + 1)) := by rw [Nat.mul_assoc]; omega
    _ ≤ (n + m + 2048) * ((n + m + 2048) * (n + m + 2048)) :=
      Nat.mul_le_mul (by omega) (Nat.mul_le_mul hm hm)
    _ = (n + m + 2048) ^ 3 := by rw [Nat.pow_succ, Nat.pow_two, Nat.mul_comm]

theorem Finishes.attachedDeclines {budget : Nat} {ending : Ending}
    (h : ctx.Finishes t budget s r ending image subst) : ∃ l, r.attachedDeclines = .ok l := by
  have hall : ∀ d ∈ r.declines, r.ctx.isAttached d.1 =
      .ok (((r.ctx.op? d.1).bind Op.parent).isSome) := by
    intro d hd
    obtain ⟨op, hop⟩ := h.declined hd
    simp [isAttached, op_eq_ok.mpr hop, hop, pure, Except.pure]
  obtain ⟨l, hl⟩ : ∃ l, r.declines.filterM (fun d => r.ctx.isAttached d.1) = .ok l :=
    ⟨_, filterM_of_ok hall⟩
  exact ⟨_, by simp only [Run.attachedDeclines, hl, except_ok_bind]; rfl⟩

/-- On a confined region the arguments can be retyped, and the run after that ends. -/
theorem exists_finishes (hc : ctx.Confined t) : ∃ ctx₁ count r ending s image subst,
    t.blockIds.foldlM (Engine.retypeArgs .tuples) (ctx, 0) = .ok (ctx₁, count) ∧
      RetypesArgs .tuples ctx ctx₁ t.blockIds ∧
      TupleLowering.engine.run t.opIds.length (Engine.stepLimit ctx₁ t.opIds.length)
        { ctx := ctx₁, work := .ofList t.opIds, retyped := count } = .ok (r, ending) ∧
      ctx.Steps t (start ctx t) s ∧
      ctx.Finishes t t.opIds.length s r ending image subst := by
  have hblocks : ∀ b ∈ t.blockIds, ∃ block, ctx.block? b = some block := by
    intro b hb
    obtain ⟨s, hs, rfl⟩ := RegionTree.HeldBy.mem_blockIds_iff.mp hb
    obtain ⟨hblk, -⟩ := hc.held.block hs
    exact ⟨_, hblk⟩
  obtain ⟨ctx₁, count, hargs, hret⟩ :=
    retypeArgs_blocks Converter.settles_tuples hc.sound hblocks 0
  have htracks : ctx.Tracks t (start ctx t)
      { ctx := ctx₁, work := .ofList t.opIds, retyped := count } id id := by
    refine ⟨.initial hc hret, Worklist.ready_ofList hc.nodup, (List.map_id _).symm, fun h => h,
      fun h => by simp at h, ?_, fun h => h⟩
    refine (List.countP_eq_zero.mpr fun o _ => ?_).symm
    simp [start]
  have hfuel : fuel t (start ctx t) < Engine.stepLimit ctx₁ t.opIds.length := by
    rw [Engine.stepLimit]
    exact fuel_start_lt ctx t (ctx₁.ops.size + ctx₁.ledger.length)
  obtain ⟨r, ending, s, image, subst, hrun, hsteps, hf⟩ :=
    htracks.run hc t.opIds.length hfuel
  exact ⟨ctx₁, count, r, ending, s, image, subst, hargs, hret, hrun, hsteps, hf⟩

theorem convert_total {m : OpId} {body : RegionId} (hc : ctx.Confined t)
    (hbody : ctx.body m = .ok (some body)) (htree : ctx.regionTree body = .ok t) :
    ∃ ctx' result s r ending image subst,
      TupleLowering.engine.convert ctx m = .ok (ctx', result) ∧
      ctx.Steps t (start ctx t) s ∧ ctx.Finishes t t.opIds.length s r ending image subst ∧
      ctx' = r.ctx ∧ result.rewrites = r.rewrites ∧ result.fixpoint = (ending == .drained) := by
  obtain ⟨ctx₁, count, r, ending, s, image, subst, hargs, -, hrun, hsteps, hf⟩ := exists_finishes hc
  obtain ⟨declines, hdeclines⟩ := hf.attachedDeclines
  exact ⟨r.ctx, _, s, r, ending, image, subst,
    Engine.convert_of_run hbody htree hargs hrun hdeclines, hsteps, hf, rfl, rfl, rfl⟩

end Context

end RegionIR
