import RegionIR.Proofs.Rewrite.Keeping
import RegionIR.Proofs.Rewrite.Runs

/-! One step of the engine.

The patterns are local: what they say of an operation depends on the operation and the types of its
operands only, and those that they match they have replaced by new operations. Then a step changes
what it visits, and of the others it changes only such that wait afterwards. -/

namespace RegionIR

/-- What a pattern says of an operation. -/
inductive Answer where
  | passes
  | declines (reason : String)
  | fires
  deriving DecidableEq

def Answer.reason? : Answer → Option String
  | .declines reason => some reason
  | _ => none

/-- A plan that asks for nothing counts as no match. -/
def Attempt.answer : Attempt → Answer
  | .noMatch => .passes
  | .declined reason => .declines reason
  | .applied plan => if plan.isEmpty then .passes else .fires

def Pattern.answer (p : Pattern) (c : Converter) (ctx : Context) (id : OpId) : Option Answer :=
  (p.attempt c ctx id).toOption.map fun r => r.2.answer

namespace Context

variable {ctx ctx' ctx'' : Context} {o : OpId}

/-- The operation and the types of its operands are as before. -/
structure SameView (ctx ctx' : Context) (o : OpId) : Prop where
  op? : ctx'.op? o = ctx.op? o
  typeOf {op : Op} {v : ValueId} : ctx.op? o = some op → v ∈ op.operands →
    ctx'.typeOf v = ctx.typeOf v

theorem SameView.refl (ctx : Context) (o : OpId) : ctx.SameView ctx o :=
  ⟨rfl, fun _ _ => rfl⟩

theorem SameView.trans (h : ctx.SameView ctx' o) (h' : ctx'.SameView ctx'' o) :
    ctx.SameView ctx'' o :=
  ⟨h'.op?.trans h.op?, fun ho hv => (h'.typeOf (h.op?.trans ho) hv).trans (h.typeOf ho hv)⟩

theorem typeOf_of_value? {v : ValueId} (h : ctx'.value? v = ctx.value? v) :
    ctx'.typeOf v = ctx.typeOf v := by
  unfold Context.value? at h
  unfold Context.typeOf Context.value
  rw [h]

theorem Wired.sameView (h : ctx.Wired o) (hop : ctx'.op? o = ctx.op? o)
    (hvalue : ∀ v value, ctx.value? v = some value → ctx'.value? v = some value) :
    ctx.SameView ctx' o := by
  refine ⟨hop, fun ho hv => ?_⟩
  obtain ⟨value, hval⟩ := h.operand ho hv
  exact typeOf_of_value? ((hvalue _ _ hval).trans hval.symm)

theorem Creates.op?_of_some {uses : List ValueId} (h : Creates uses ctx ctx') {op : Op}
    (ho : ctx.op? o = some op) : ctx'.op? o = some op := by
  induction h with
  | refl => exact ho
  | createOp _ _ _ _ hc ih => exact (createOp_ok hc).op?_of_some ih

theorem Creates.value?_of_some {uses : List ValueId} (h : Creates uses ctx ctx') {v : ValueId}
    {value : Value} (hv : ctx.value? v = some value) : ctx'.value? v = some value := by
  induction h with
  | refl => exact hv
  | createOp _ _ _ _ hc ih => exact (createOp_ok hc).value?_of_some ih

theorem Creates.sameView {uses : List ValueId} (h : Creates uses ctx ctx') {op : Op}
    (ho : ctx.op? o = some op) (hw : ctx.Wired o) : ctx.SameView ctx' o :=
  hw.sameView ((h.op?_of_some ho).trans ho.symm) fun _ _ hv => h.value?_of_some hv

theorem ChangesOp.typeOf_or_used {x : OpId} {op old new : Op} (h : ChangesOp ctx ctx' x new)
    (hs : ctx.Sound) (hx : ctx.op? x = some old) (hresults : new.results = old.results)
    (ho : ctx.op? o = some op) (hw : ctx.Wired o) :
    (∀ v ∈ op.operands, ctx'.typeOf v = ctx.typeOf v) ∨
      (new ≠ old ∧ ∃ v ∈ new.results, ∃ i, (v, (⟨o, i⟩ : Use)) ∈ ctx.ledger) := by
  by_cases hsame : new = old
  · subst hsame
    refine .inl fun v _ => typeOf_of_value? ?_
    by_cases hv : v ∈ new.results
    · obtain ⟨i, hi⟩ := List.mem_iff_getElem?.mp hv
      have hx' := h.op? x
      rw [if_pos rfl] at hx'
      obtain ⟨ty, hty, hval⟩ := hs.typed.result hx hi
      obtain ⟨ty', hty', hval'⟩ := h.sound.typed.result hx' hi
      rw [hval, hval', Option.some.inj (hty.symm.trans hty')]
    · exact h.value? hv
  by_cases hused : ∃ v ∈ op.operands, v ∈ new.results
  · obtain ⟨v, hv, hres⟩ := hused
    obtain ⟨i, hi⟩ := List.mem_iff_getElem?.mp hv
    exact .inr ⟨hsame, v, hres, i, hw.recorded op i v ho hi⟩
  · exact .inl fun v hv => typeOf_of_value? (h.value? fun hres => hused ⟨v, hv, hres⟩)

end Context

/-- A pattern that looks at the operation and the types of its operands only, and has what it
matches replaced by operations that it creates, or erased if there are no results. -/
structure Pattern.Local (p : Pattern) (c : Converter) : Prop where
  creates {ctx ctx' : Context} {id : OpId} {op : Op} {a : Attempt} : ctx.op? id = some op →
    p.attempt c ctx id = .ok (ctx', a) → ctx.Creates op.operands ctx'
  fresh {ctx ctx' : Context} {id : OpId} {plan : Plan} :
    p.attempt c ctx id = .ok (ctx', .applied plan) → ∀ n ∈ plan.newOps, ctx.op? n = none
  removes {ctx ctx' : Context} {id : OpId} {plan : Plan} :
    p.attempt c ctx id = .ok (ctx', .applied plan) → plan.isEmpty = false → plan.Removes
  answer {ctx ctx' : Context} {id : OpId} : ctx.SameView ctx' id →
    p.answer c ctx' id = p.answer c ctx id

namespace Engine

variable {c : Converter} {ps : List Pattern} {base : Context} {x : OpId} {op : Op} {r r' : Run}

/-- The reason of the last pattern that gives one. -/
def complaint (c : Converter) (ctx : Context) (x : OpId) : List Pattern → Option String
  | [] => none
  | p :: ps => (complaint c ctx x ps).or ((p.answer c ctx x).bind Answer.reason?)

/-- No pattern has rewritten the operation. -/
structure Passes (c : Converter) (ps : List Pattern) (base : Context) (x : OpId) (op : Op)
    (r r' : Run) : Prop where
  creates : base.Creates op.operands r'.ctx
  same : r' = { r with ctx := r'.ctx, declines := r'.declines }
  other {y : OpId} : y ≠ x → r'.reason y = r.reason y
  reason : base.Wired x → r'.reason x = (complaint c base x ps).or (r.reason x)
  quiet : base.Wired x → ∀ p ∈ ps, p.answer c base x ≠ some .fires
  tidy : r.Tidy → r'.Tidy

/-- A pattern has rewritten the operation. -/
structure Matches (base : Context) (x : OpId) (op : Op) (r r₁ : Run) (plan : Plan) (r' : Run) :
    Prop where
  creates : base.Creates op.operands r₁.ctx
  work : r₁.work = r.work
  other {y : OpId} : y ≠ x → r₁.reason y = r.reason y
  tidy : r.Tidy → r₁.Tidy
  fresh : ∀ n ∈ plan.newOps, base.op? n = none
  removes : plan.Removes
  rewrite : r₁.rewrite x plan = .ok r'

theorem Passes.cons {p : Pattern} {r₁ : Run} (h₁ : Passes c [p] base x op r r₁)
    (h₂ : Passes c ps base x op r₁ r') : Passes c (p :: ps) base x op r r' where
  creates := h₂.creates
  same := by rw [h₂.same, h₁.same]
  other hy := (h₂.other hy).trans (h₁.other hy)
  reason hw := by
    rw [h₂.reason hw, h₁.reason hw, complaint, complaint, complaint, Option.none_or, Option.or_assoc]
  quiet hw := List.forall_mem_cons.mpr ⟨h₁.quiet hw p List.mem_cons_self, h₂.quiet hw⟩
  tidy ht := h₂.tidy (h₁.tidy ht)

theorem Matches.of_passes {p : Pattern} {r₁ r₂ : Run} {plan : Plan}
    (h₁ : Passes c [p] base x op r r₁) (h₂ : Matches base x op r₁ r₂ plan r') :
    Matches base x op r r₂ plan r' :=
  { h₂ with
    work := h₂.work.trans (by rw [h₁.same])
    other := fun hy => (h₂.other hy).trans (h₁.other hy)
    tidy := fun ht => h₂.tidy (h₁.tidy ht) }

theorem passes_of_attempt {p : Pattern} (hp : p.Local c) (hx : base.op? x = some op)
    (hc : base.Creates op.operands r.ctx) {a : Attempt} {r₁ : Run}
    (hattempt : p.attempt c r.ctx x = .ok (r₁.ctx, a)) (hquiet : a.answer ≠ .fires)
    (hsame : r₁ = { r with ctx := r₁.ctx, declines := r₁.declines })
    (hother : ∀ y, y ≠ x → r₁.reason y = r.reason y)
    (hself : r₁.reason x = a.answer.reason?.or (r.reason x)) (htidy : r.Tidy → r₁.Tidy) :
    Passes c [p] base x op r r₁ := by
  have hanswer (hw : base.Wired x) : p.answer c base x = some a.answer := by
    rw [← hp.answer (hc.sameView hx hw), Pattern.answer, hattempt]
    rfl
  refine ⟨hc.trans (hp.creates (hc.op?_of_some hx) hattempt), hsame, fun hy => hother _ hy,
    fun hw => ?_, fun hw => ?_, htidy⟩
  · rw [complaint, complaint, hanswer hw, hself]
    rfl
  · rw [List.forall_mem_singleton, hanswer hw]
    simpa using hquiet

theorem tryPatterns_cons_cases {p : Pattern} (hp : p.Local c) (hx : base.op? x = some op)
    (hc : base.Creates op.operands r.ctx) {b : Bool} (h : tryPatterns c x (p :: ps) r = .ok (r', b)) :
    (∃ r₁, Passes c [p] base x op r r₁ ∧ tryPatterns c x ps r₁ = .ok (r', b)) ∨
      (b = true ∧ ∃ r₁ plan, Matches base x op r r₁ plan r') := by
  simp only [tryPatterns, except_bind_eq_ok] at h
  obtain ⟨⟨ctx₁, a⟩, hattempt, h⟩ := h
  simp only at h
  have hpasses := @passes_of_attempt c base x op r p hp hx hc _ { r with ctx := ctx₁ } hattempt
  cases a with
  | noMatch =>
    exact .inl ⟨_, hpasses (by simp [Attempt.answer]) rfl (fun _ _ => rfl) rfl fun ht => ht, h⟩
  | declined reason =>
    refine .inl ⟨({ r with ctx := ctx₁ } : Run).setDecline x ⟨p.name, reason⟩,
      passes_of_attempt hp hx hc hattempt (by simp [Attempt.answer]) rfl (fun y hy => ?_) ?_
        fun ht => Run.Tidy.setDecline ht x _, h⟩
    · rw [Run.reason_setDecline, if_neg hy]
      rfl
    · rw [Run.reason_setDecline, if_pos rfl]
      rfl
  | applied plan =>
    simp only at h
    split at h
    · rename_i hempty
      have hanswer : (Attempt.applied plan).answer = .passes := by simp [Attempt.answer, hempty]
      exact .inl ⟨_, hpasses (by rw [hanswer]; simp) rfl (fun _ _ => rfl) (by rw [hanswer]; rfl)
        fun ht => ht, h⟩
    · rename_i hempty
      simp only [except_bind_eq_ok, except_pure_eq_ok, Prod.mk.injEq] at h
      obtain ⟨r₁, hrewrite, rfl, rfl⟩ := h
      refine .inr ⟨rfl, { r with ctx := ctx₁ }, plan,
        hc.trans (hp.creates (hc.op?_of_some hx) hattempt), rfl, fun _ => rfl, fun ht => ht,
        fun n hn => ?_, hp.removes hattempt (by simpa using hempty), hrewrite⟩
      have hnone := hp.fresh hattempt n hn
      cases hbase : base.op? n with
      | none => rfl
      | some opn =>
        rw [hc.op?_of_some hbase] at hnone
        simp at hnone

theorem tryPatterns_cases (hps : ∀ p ∈ ps, p.Local c) (hx : base.op? x = some op)
    (hc : base.Creates op.operands r.ctx) {b : Bool} (h : tryPatterns c x ps r = .ok (r', b)) :
    (b = false ∧ Passes c ps base x op r r') ∨
      (b = true ∧ ∃ r₁ plan, Matches base x op r r₁ plan r') := by
  induction ps generalizing r with
  | nil =>
    simp only [tryPatterns, except_pure_eq_ok, Prod.mk.injEq] at h
    obtain ⟨rfl, rfl⟩ := h
    exact .inl ⟨rfl, hc, rfl, fun _ => rfl, fun _ => rfl, by simp, fun ht => ht⟩
  | cons p ps ih =>
    rw [List.forall_mem_cons] at hps
    rcases tryPatterns_cons_cases hps.1 hx hc h with ⟨r₁, hp, h⟩ | hm
    · rcases ih hps.2 hp.creates h with ⟨hb, hrest⟩ | ⟨hb, r₂, plan, hm⟩
      · exact .inl ⟨hb, hp.cons hrest⟩
      · exact .inr ⟨hb, r₂, plan, Matches.of_passes hp hm⟩
    · exact .inr hm

end Engine

end RegionIR
