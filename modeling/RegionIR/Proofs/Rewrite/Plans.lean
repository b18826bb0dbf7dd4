import RegionIR.Proofs.Rewrite.Reworking

/-! Carrying out a plan.

A plan that has an operation replaced by new ones, or erased when it has no results, reworks the
operation; afterwards the operation stands nowhere, and what took the place of its results are
results of new operations. -/

namespace RegionIR

theorem foldlM_invariant {σ α ε : Type} {P : σ → Prop} {f : σ → α → Except ε σ} {l : List α}
    {s s' : σ} (hstep : ∀ s a s', a ∈ l → P s → f s a = .ok s' → P s') (hs : P s)
    (h : l.foldlM f s = .ok s') : P s' := by
  induction l generalizing s with
  | nil =>
    rw [List.foldlM_nil, except_pure_eq_ok] at h
    exact h ▸ hs
  | cons a l ih =>
    rw [List.foldlM_cons, except_bind_eq_ok] at h
    obtain ⟨s₁, hfirst, h⟩ := h
    exact ih (fun s b s' hb => hstep s b s' (List.mem_cons_of_mem _ hb))
      (hstep s a s₁ List.mem_cons_self hs hfirst) h

/-- Whether the plan has the operation replaced, or erased though it has no results. -/
def Plan.Removes (p : Plan) : Prop :=
  p.replacement.isSome ∨ p.erasure = some []

namespace Context

variable {base ctx ctx' : Context} {old : OpId} {oldOp : Op} {fresh : List OpId}
  {values : List ValueId} {b : BlockId} {plan : Plan}

theorem Reworks.takeOut (h : Reworks base old fresh values ctx) (hold : base.op? old = some oldOp)
    {pairs : List (ValueId × ValueId)} {ctx₁ ctx₂ : Context}
    (hpairs : ∀ e ∈ pairs, e.2 ∈ values ∧ ∃ value, ctx.value? e.2 = some value)
    (huses : pairs.foldlM (fun ctx e => ctx.replaceAllUses e.1 e.2) ctx = .ok ctx₁)
    (hdetach : ctx₁.detachOp b old = .ok ctx₂) (hremove : ctx₂.removeOp old = .ok ctx') :
    Reworks base old fresh values ctx' := by
  have hmoved : Reworks base old fresh values ctx₁ ∧
      ∀ v value, ctx.value? v = some value → ctx₁.value? v = some value := by
    refine foldlM_invariant (P := fun cur => Reworks base old fresh values cur ∧
      ∀ v value, ctx.value? v = some value → cur.value? v = some value) ?_
      ⟨h, fun _ _ hv => hv⟩ huses
    rintro cur e cur' he ⟨hcur, hvalue⟩ hstep
    obtain ⟨hmem, value, hval⟩ := hpairs e he
    refine ⟨hcur.replaceAllUses hmem (hvalue _ _ hval) hstep, fun v value hv => ?_⟩
    have hself : Reworks cur old [] [e.2] cur := .refl hcur.sound
    exact (hself.replaceAllUses List.mem_cons_self (hvalue _ _ hval) hstep).value?
      (hvalue v value hv)
  exact (hmoved.1.detachOp hdetach).removeOp hold hremove

theorem Reworks.insertOps (h : Reworks base old fresh values ctx) (hold : base.op? old = some oldOp)
    (hparent : oldOp.parent = some b) (hnew : ∀ n ∈ plan.newOps, n ∈ fresh ∧ base.op? n = none)
    {targets : Option (List ValueId)} (hi : plan.insertOps ctx b old = .ok (ctx', targets)) :
    Reworks base old fresh values ctx' ∧ (plan.replacement = none → targets = plan.erasure) ∧
      ∀ n, plan.replacement = some n → ∃ op, ctx'.op? n = some op ∧ targets = some op.results := by
  simp only [Plan.insertOps, except_bind_eq_ok] at hi
  obtain ⟨ctx₀, hinserted, hi⟩ := hi
  have hfirst : Reworks base old fresh values ctx₀ := by
    refine foldlM_invariant (fun cur n cur' hn hcur hstep => ?_) h hinserted
    obtain ⟨hmem, hnone⟩ := hnew n (List.mem_append_left _ hn)
    exact hcur.insertOpBefore hold hparent hmem hnone hstep
  cases hr : plan.replacement with
  | none =>
    simp only [hr, except_pure_eq_ok, Prod.mk.injEq] at hi
    obtain ⟨rfl, rfl⟩ := hi
    exact ⟨hfirst, fun _ => rfl, by simp⟩
  | some n =>
    simp only [hr, except_bind_eq_ok, op_eq_ok, except_pure_eq_ok, Prod.mk.injEq] at hi
    obtain ⟨ctx₁, hlast, op, hop, rfl, rfl⟩ := hi
    obtain ⟨hmem, hnone⟩ := hnew n (by simp [Plan.newOps, hr])
    refine ⟨hfirst.insertOpBefore hold hparent hmem hnone hlast, by simp, ?_⟩
    rintro _ ⟨rfl⟩
    exact ⟨op, hop, rfl⟩

theorem Creates.carryOut (hs : base.Sound) (hold : base.op? old = some oldOp)
    (hparent : oldOp.parent = some b) (hcreates : Creates oldOp.operands base ctx)
    (hnew : ∀ n ∈ plan.newOps, base.op? n = none) (hplan : plan.Removes)
    (h : plan.carryOut ctx old = .ok ctx') :
    ∃ values, Reworks base old plan.newOps values ctx' ∧
      (∀ op, ctx'.op? old = some op → op.parent = none) ∧
      ∀ v ∈ values, ∃ n ∈ plan.newOps, ∃ op, ctx'.op? n = some op ∧ v ∈ op.results := by
  have hrework := hcreates.reworks hs hold plan.newOps
  obtain ⟨operands, parent, ho, -, hp, -⟩ := (hrework []).op? hold
  simp only [Plan.carryOut, op_eq_ok.mpr ho, except_ok_bind] at h
  rcases hp with hp | ⟨-, hp⟩
  swap
  · subst hp
    obtain rfl : ctx = ctx' := by simpa [pure, Except.pure] using h
    refine ⟨[], hrework [], fun op hop => ?_, by simp⟩
    obtain rfl := Option.some.inj (ho.symm.trans hop)
    rfl
  rw [hp, hparent] at h
  simp only [except_bind_eq_ok] at h
  obtain ⟨⟨ctx₁, targets⟩, hinsert, h⟩ := h
  have hinserted (values : List ValueId) := (hrework values).insertOps hold hparent
    (fun n hn => ⟨hn, hnew n hn⟩) hinsert
  obtain ⟨values, rfl, hvalues⟩ : ∃ values, targets = some values ∧ ∀ v ∈ values,
      ∃ n ∈ plan.newOps, ∃ op, ctx₁.op? n = some op ∧ v ∈ op.results := by
    obtain ⟨-, hnone, hsome⟩ := hinserted []
    cases hr : plan.replacement with
    | none => exact ⟨[], (hnone hr).trans (hplan.resolve_left (by simp [hr])), by simp⟩
    | some n =>
      obtain ⟨op, hop, rfl⟩ := hsome n hr
      exact ⟨op.results, rfl, fun v hv => ⟨n, by simp [Plan.newOps, hr], op, hop, hv⟩⟩
  have hrework₁ := (hinserted values).1
  simp only [except_bind_eq_ok, op_eq_ok] at h
  obtain ⟨op, hop, h⟩ := h
  split at h
  · simp at h
  simp only [except_bind_eq_ok] at h
  obtain ⟨ctx₂, huses, ctx₃, hdetach, hremove⟩ := h
  have hpairs : ∀ e ∈ op.results.zip values, e.2 ∈ values ∧
      ∃ value, ctx₁.value? e.2 = some value := by
    intro e he
    have hmem := (List.of_mem_zip he).2
    obtain ⟨n, -, opn, hopn, hv⟩ := hvalues _ hmem
    obtain ⟨i, hi⟩ := List.mem_iff_getElem?.mp hv
    obtain ⟨ty, -, hval⟩ := hrework₁.sound.typed.result hopn hi
    exact ⟨hmem, _, hval⟩
  refine ⟨values, hrework₁.takeOut hold hpairs huses hdetach hremove, fun op' hop' => ?_,
    fun v hv => ?_⟩
  · obtain ⟨op₃, hop₃, hnone, -, rfl⟩ := removeOp_ok hremove
    obtain rfl := Option.some.inj (hop₃.symm.trans hop')
    exact hnone
  · obtain ⟨n, hn, opn, hopn, hvn⟩ := hvalues v hv
    have hself : Reworks ctx₁ old [] values ctx₁ := .refl hrework₁.sound
    have hlate := hself.takeOut hop hpairs huses hdetach hremove
    obtain ⟨operands', parent', hopn', -⟩ := hlate.op? hopn
    exact ⟨n, hn, _, hopn', hvn⟩

end Context

end RegionIR
