import RegionIR.Proofs.Rewrite.Keeping
import RegionIR.Proofs.Rewrite.Runs
import RegionIR.Proofs.Rewrite.Visiting

/-! Which operations a visit spares.

Those that stand in a block after one operation was dealt with see what they saw before, or they are
in the queue. Those that are new are in the queue as well. -/

namespace RegionIR

namespace Context

variable {base mid ctx ctx' : Context} {x o : OpId} {op : Op} {b : BlockId} {queue : List OpId}

/-- The operation stands in the block. -/
def Stands (ctx : Context) (o : OpId) (b : BlockId) : Prop :=
  ∃ op, ctx.op? o = some op ∧ op.parent = some b

theorem Keeps.stands (h : base.Keeps ctx) (ho : base.op? o = some op) (hst : ctx.Stands o b) :
    base.Stands o b := by
  obtain ⟨op', ho', hp⟩ := hst
  obtain ⟨op'', ho'', -, hparent⟩ := h.op? ho
  obtain rfl := Option.some.inj (ho'.symm.trans ho'')
  refine ⟨op, ho, (hparent.resolve_left ?_).symm.trans hp⟩
  simp [hp]

/-- `ctx` is `base` after `x` was dealt with; `queue` are the operations that wait then. -/
structure Spares (base ctx : Context) (x : OpId) (queue : List OpId) : Prop where
  sound : ctx.Sound
  keeps : base.Keeps ctx
  block? (b : BlockId) : (ctx.block? b).map Block.argTypes = (base.block? b).map Block.argTypes
  shape {o : OpId} {op : Op} : o ≠ x → base.op? o = some op → ∃ operands parent,
    ctx.op? o = some { op with operands, parent } ∧ operands.length = op.operands.length
  wired {o : OpId} {op : Op} {b : BlockId} : ctx.Stands o b → base.op? o = some op →
    base.Wired o → ctx.Wired o
  view {o : OpId} {op : Op} {b : BlockId} : o ≠ x → ctx.Stands o b → base.op? o = some op →
    base.Wired o → base.SameView ctx o ∨ o ∈ queue
  created {o : OpId} {b : BlockId} : base.op? o = none → ctx.Stands o b →
    o ∈ queue ∧ base.Stands x b ∧ (base.Wired x → ctx.Wired o)

namespace Spares

theorem refl (hs : base.Sound) : Spares base base x queue where
  sound := hs
  keeps := .refl base
  block? _ := rfl
  shape _ ho := ⟨_, _, ho, rfl⟩
  wired _ _ h := h
  view _ _ _ _ := .inl (.refl base _)
  created hnone hst := by
    obtain ⟨op, ho, -⟩ := hst
    simp [hnone] at ho

theorem trans (hx : base.op? x = some op) (h : Spares base mid x queue)
    (h' : Spares mid ctx x queue) : Spares base ctx x queue where
  sound := h'.sound
  keeps := h.keeps.trans h'.keeps
  block? b := (h'.block? b).trans (h.block? b)
  shape hne ho := by
    obtain ⟨operands, parent, ho', hlen⟩ := h.shape hne ho
    obtain ⟨operands', parent', ho'', hlen'⟩ := h'.shape hne ho'
    exact ⟨operands', parent', ho'', hlen'.trans hlen⟩
  wired hst ho hw := by
    obtain ⟨op', ho', -⟩ := h.keeps.op? ho
    exact h'.wired hst ho' (h.wired (h'.keeps.stands ho' hst) ho hw)
  view hne hst ho hw := by
    obtain ⟨op', ho', -⟩ := h.keeps.op? ho
    have hst' := h'.keeps.stands ho' hst
    rcases h.view hne hst' ho hw with hview | hq
    · exact (h'.view hne hst ho' (h.wired hst' ho hw)).imp_left hview.trans
    · exact .inr hq
  created {o b} hnone hst := by
    cases ho : mid.op? o with
    | none =>
      obtain ⟨hq, hxst, hw⟩ := h'.created ho hst
      exact ⟨hq, h.keeps.stands hx hxst, fun hwx => hw (h.wired hxst hx hwx)⟩
    | some op =>
      obtain ⟨hq, hxst, hw⟩ := h.created hnone (h'.keeps.stands ho hst)
      exact ⟨hq, hxst, fun hwx => h'.wired hst ho (hw hwx)⟩

end Spares

/-- A rewrite spares the others if what was new and who uses what came in is queued, for an operand is
replaced only by a value that came in. -/
theorem Reworks.spares {fresh : List OpId} {values : List ValueId}
    (h : Reworks base x fresh values ctx)
    (hself : ∀ b, ctx.Stands x b → base.Wired x → ctx.Wired x) (hfresh : ∀ n ∈ fresh, n ∈ queue)
    (hvalues : ∀ v ∈ values, ∀ u, (v, u) ∈ ctx.ledger → u.user ∈ queue) :
    Spares base ctx x queue where
  sound := h.sound
  keeps := h.keeps
  block? := h.block?
  shape _ ho := by
    obtain ⟨operands, parent, ho', hlen, -⟩ := h.op? ho
    exact ⟨operands, parent, ho', hlen⟩
  wired {o op' b} hst ho hw := by
    by_cases he : o = x
    · exact he ▸ hself b (he ▸ hst) (he ▸ hw)
    · exact h.wired he ho hw
  view {o op' b} hne hst ho hw := by
    obtain ⟨operands, parent, ho', -, hparent, hops⟩ := h.op? ho
    have hp : parent = op'.parent := hparent.resolve_right fun hp => hne hp.1
    by_cases hsame : operands = op'.operands
    · refine .inl (hw.sameView ?_ fun _ _ hv => h.value? hv)
      rw [ho', ho, hsame, hp]
    · obtain ⟨v, hv, i, hm⟩ := hops hne hsame
      exact .inr (hvalues v hv _ hm)
  created {o b} hnone hst := by
    obtain ⟨op', ho', hp⟩ := hst
    obtain ⟨-, hw, hparent⟩ := h.created hnone ho'
    rcases hparent with hparent | ⟨hm, old, hold, hparent⟩
    · simp [hp] at hparent
    · exact ⟨hfresh o hm, ⟨old, hold, hparent.symm.trans hp⟩, hw⟩

theorem Creates.wired {uses : List ValueId} (h : Creates uses base ctx)
    (ho : base.op? o = some op) (hw : base.Wired o) : ctx.Wired o := by
  induction h with
  | refl => exact hw
  | createOp hprev _ _ _ hc ih =>
    have hcr := createOp_ok hc
    have hop := hprev.op?_of_some ho
    refine ih.of_same (by rw [hcr.op?_of_some hop, hop]) (fun _ _ he => ?_)
      fun _ _ hv => ⟨_, hcr.value?_of_some hv⟩
    rw [hcr.ledger]
    exact List.mem_append_left _ he

theorem Creates.spares (hs : base.Sound) (hx : base.op? x = some op)
    (h : Creates op.operands base ctx) : Spares base ctx x queue :=
  (h.reworks hs hx [] []).spares (fun _ _ hw => h.wired hx hw) (by simp) (by simp)

theorem ChangesOp.spares {new : Op} (h : ChangesOp base ctx x new) (hs : base.Sound)
    (hx : base.op? x = some op) (hresults : new.results = op.results)
    (hregions : new.regions = op.regions) (hparent : new.parent = op.parent)
    (hoperands : new.operands = op.operands)
    (husers : new ≠ op → ∀ v ∈ new.results, ∀ u, (v, u) ∈ base.ledger → u.user ∈ queue) :
    Spares base ctx x queue where
  sound := h.sound
  keeps := h.keeps hx hregions hparent
  block? b := by rw [h.block?]
  shape {o op'} hne ho := ⟨op'.operands, op'.parent, by rw [h.op?, if_neg hne, ho], rfl⟩
  wired {o op' b} _ ho hw := by
    refine hw.of_same ?_ (fun _ _ hm => h.ledger ▸ hm) fun v value hv => ?_
    · rw [h.op?]
      split
      · rename_i he
        rw [he, hx, Option.map_some, Option.map_some, hoperands]
      · rfl
    · by_cases hm : v ∈ new.results
      · obtain ⟨i, hi⟩ := List.mem_iff_getElem?.mp hm
        have hx' := h.op? x
        rw [if_pos rfl] at hx'
        obtain ⟨ty, -, hval⟩ := h.sound.typed.result hx' hi
        exact ⟨_, hval⟩
      · exact ⟨value, (h.value? hm).trans hv⟩
  view {o op' b} hne _ ho hw := by
    rcases h.typeOf_or_used hs hx hresults ho hw with htypes | ⟨hchanged, v, hv, i, hm⟩
    · refine .inl ⟨?_, fun ho' hv => ?_⟩
      · rw [h.op?, if_neg hne]
      · obtain rfl := Option.some.inj (ho.symm.trans ho')
        exact htypes _ hv
    · exact .inr (husers hchanged v hv _ hm)
  created {o b} hnone hst := by
    obtain ⟨op', ho', -⟩ := hst
    rw [h.op?] at ho'
    split at ho'
    · rename_i he
      rw [he, hx] at hnone
      simp at hnone
    · simp [hnone] at ho'

end Context

namespace Engine

variable {e : Engine} {x : OpId} {op : Op} {b : BlockId} {r r' : Run}

/-- What becomes of the operation whose turn it is: it stands nowhere, it was legal, it is left
alone since a rule names it illegal, or it is retyped. -/
inductive Fate (e : Engine) (r : Run) (x : OpId) (r' : Run) : Prop
  | gone : (∀ op, r'.ctx.op? x = some op → op.parent = none) → Fate e r x r'
  | legal : e.target.isLegal r.ctx x = .ok true → r'.ctx = r.ctx → r'.reason x = r.reason x →
      Fate e r x r'
  | left {op : Op} : r.ctx.op? x = some op →
      (∀ p ∈ e.patterns, p.answer e.converter r.ctx x ≠ some .fires) →
      r'.reason x = (complaint e.converter r.ctx x e.patterns).or (r.reason x) →
      e.target.staticRule op = some false → r.ctx.SameView r'.ctx x → Fate e r x r'
  | retyped {op : Op} : r.ctx.op? x = some op →
      (∀ p ∈ e.patterns, p.answer e.converter r.ctx x ≠ some .fires) →
      r'.reason x = (complaint e.converter r.ctx x e.patterns).or (r.reason x) →
      e.target.staticRule op ≠ some false → r'.ctx.op? x = some (op.retypedBy e.converter) →
      Fate e r x r'

/-- What it means to deal with an operation that was taken from the queue. -/
structure Advances (e : Engine) (r : Run) (x : OpId) (r' : Run) : Prop where
  ready : r'.work.Ready
  queue {o : OpId} : o ∈ r.work.queue → o ∈ r'.work.queue
  spares : r.ctx.Spares r'.ctx x r'.work.queue
  reason {y : OpId} : y ≠ x → r'.reason y = r.reason y
  tidy : r.Tidy → r'.Tidy
  known : ∃ op, r.ctx.op? x = some op
  fate : r.ctx.Wired x → Fate e r x r'

theorem Matches.advances {r₁ : Run} {plan : Plan} (h : Matches r.ctx x op r r₁ plan r')
    (hs : r.ctx.Sound) (hr : r.work.Ready) (hx : r.ctx.op? x = some op)
    (hparent : op.parent = some b) : Advances e r x r' := by
  obtain ⟨values, hw⟩ := Run.rewrite_ok hs hx hparent h.creates h.fresh h.removes
    (by rw [h.work]; exact hr) h.rewrite
  refine ⟨hw.ready, fun ho => hw.queue (h.work ▸ ho), ?_, fun hy => ?_,
    fun ht => hw.tidy (h.tidy ht), ⟨op, hx⟩, fun _ => .gone fun _ => hw.detached⟩
  · refine hw.reworks.spares (fun b hst => ?_) (fun n hn => hw.new hn)
      fun v hv u hu => hw.users hv hu
    obtain ⟨op', ho', hp⟩ := hst
    simp [hw.detached ho'] at hp
  · rw [hw.reason, if_neg hy, h.other hy]

/-- A rule names the operation illegal, so that it is left alone. -/
theorem Passes.advances_of_named (h : Passes e.converter e.patterns r.ctx x op r r')
    (hs : r.ctx.Sound) (hr : r.work.Ready) (hx : r.ctx.op? x = some op)
    (hnamed : e.target.staticRule op = some false) : Advances e r x r' := by
  have hwork : r'.work = r.work := by rw [h.same]
  refine ⟨hwork ▸ hr, fun ho => hwork ▸ ho, h.creates.spares hs hx, fun hy => h.other hy, h.tidy,
    ⟨op, hx⟩, fun hw => ?_⟩
  exact .left hx (h.quiet hw) (h.reason hw) hnamed (h.creates.sameView hx hw)

theorem Passes.advances_of_retypes {r₁ : Run} {ctx : Context} {work : Worklist}
    (h : Passes e.converter e.patterns r.ctx x op r r₁) (hs : r.ctx.Sound)
    (hx : r.ctx.op? x = some op) (hnamed : e.target.staticRule op ≠ some false)
    (hch : r₁.ctx.ChangesOp ctx x (op.retypedBy e.converter)) (hctx : r'.ctx = ctx)
    (hwork : r'.work = work) (hdeclines : r'.declines = r₁.declines) (hready : work.Ready)
    (hqueue : ∀ o ∈ r.work.queue, o ∈ work.queue)
    (husers : op.retypedBy e.converter ≠ op → ∀ v ∈ op.results, ∀ u, (v, u) ∈ ctx.ledger →
      u.user ∈ work.queue) : Advances e r x r' := by
  have hx₁ := h.creates.op?_of_some hx
  have hspares₁ : r.ctx.Spares r₁.ctx x work.queue := h.creates.spares hs hx
  have hspares : r₁.ctx.Spares ctx x work.queue :=
    hch.spares hspares₁.sound hx₁ rfl rfl rfl rfl fun hne v hv u hu =>
      husers hne v hv u (hch.ledger ▸ hu)
  have hreason (y : OpId) : r'.reason y = r₁.reason y := by rw [Run.reason, hdeclines]; rfl
  refine ⟨hwork ▸ hready, fun ho => hwork ▸ hqueue _ ho, ?_, fun hy => ?_, fun ht => ?_,
    ⟨op, hx⟩, fun hw => ?_⟩
  · rw [hctx, hwork]
    exact hspares₁.trans hx hspares
  · rw [hreason, h.other hy]
  · have htidy := h.tidy ht
    rwa [Run.Tidy, ← hdeclines] at htidy
  · refine .retyped hx (h.quiet hw) ((hreason x).trans (h.reason hw)) hnamed ?_
    rw [hctx, hch.op?, if_pos rfl]

theorem visit_advances (hps : ∀ p ∈ e.patterns, p.Local e.converter) (hs : r.ctx.Sound)
    (hr : r.work.Ready) (hx : r.ctx.op? x = some op) (hparent : op.parent = some b)
    (h : e.visit x r = .ok r') : Advances e r x r' := by
  simp only [visit, except_bind_eq_ok] at h
  obtain ⟨⟨r₁, rewritten⟩, htry, h⟩ := h
  rcases tryPatterns_cases hps hx .refl htry with ⟨rfl, hp⟩ | ⟨rfl, r₂, plan, hm⟩
  swap
  · obtain rfl : r₁ = r' := by simpa using h
    exact hm.advances hs hr hx hparent
  have hx₁ := hp.creates.op?_of_some hx
  have hwork : r₁.work = r.work := by rw [hp.same]
  simp only [Bool.false_eq_true, if_false, except_bind_eq_ok, Target.isNamedIllegal,
    Context.op_eq_ok, hx₁, except_pure_eq_ok, Option.some.injEq, exists_eq_left'] at h
  split at h
  · rename_i hnamed
    obtain rfl : r₁ = r' := by simpa using h
    exact hp.advances_of_named hs hr hx (by simpa using hnamed)
  · rename_i hnamed
    have hspares : r.ctx.Spares r₁.ctx x [] := hp.creates.spares hs hx
    have hs₁ := hspares.sound
    obtain ⟨ctx, hret, hch⟩ := Context.retypeOp_eq e.converter hs₁ hx₁
    have hx' := hch.op? x
    rw [if_pos rfl] at hx'
    have hnamed' : e.target.staticRule op ≠ some false := by simpa using hnamed
    simp only [hret, except_bind_eq_ok, Except.ok.injEq, exists_eq_left'] at h
    split at h
    · simp only [except_bind_eq_ok, Context.op_eq_ok, hx', Option.some.injEq, exists_eq_left',
        except_pure_eq_ok] at h
      subst h
      rw [← hwork] at hr
      obtain ⟨hready, pushed, hq, hm⟩ := hr.pushAll
        (ctx.usersOf (op.retypedBy e.converter).results)
      refine hp.advances_of_retypes hs hx hnamed' hch rfl rfl rfl hready (fun o ho => ?_)
        fun _ v hv u hu => ?_
      · rw [hq, hm, hwork]
        exact .inl ho
      · rw [hq, hm]
        refine .inr (List.mem_flatMap.mpr ⟨v, hv, ?_⟩)
        exact List.mem_map_of_mem (Context.mem_uses.mpr hu)
    · rename_i hsame
      obtain rfl := except_pure_eq_ok.mp h
      refine hp.advances_of_retypes hs hx hnamed' hch rfl rfl rfl (hwork ▸ hr)
        (fun o ho => hwork ▸ ho) fun hne => absurd hne (by simpa using hsame)

/-- A step that does not end the run takes an operation from the queue and deals with it. Detached and
legal operations are dropped, all others visited. -/
theorem step_advances (hps : ∀ p ∈ e.patterns, p.Local e.converter) {budget : Nat}
    (hs : r.ctx.Sound) (hr : r.work.Ready) (h : e.step budget r = .ok (r', none)) :
    ∃ x work, r.work.pop = some (x, work) ∧ Advances e { r with work } x r' := by
  unfold step at h
  split at h
  · simp at h
  rename_i x work hpop
  obtain ⟨hready, -⟩ := hr.pop hpop
  refine ⟨x, work, hpop, ?_⟩
  simp only [Context.isAttached, except_bind_eq_ok, Context.op_eq_ok, except_pure_eq_ok] at h
  obtain ⟨attached, ⟨op, hx, rfl⟩, h⟩ := h
  have idle (hfate : Fate e { r with work } x { r with work }) :
      Advances e { r with work } x { r with work } :=
    ⟨hready, fun ho => ho, .refl hs, fun _ => rfl, fun ht => ht, ⟨op, hx⟩, fun _ => hfate⟩
  split at h
  · rename_i hdetached
    obtain rfl : ({ r with work } : Run) = r' := by simpa using h
    refine idle (.gone fun op' ho' => ?_)
    obtain rfl := Option.some.inj (hx.symm.trans ho')
    simpa using hdetached
  · rename_i hattached
    simp only [except_bind_eq_ok] at h
    obtain ⟨legal, hlegal, h⟩ := h
    obtain ⟨b, hparent⟩ : ∃ b, op.parent = some b := by
      simpa [← Option.ne_none_iff_exists'] using hattached
    split at h
    · rename_i htrue
      obtain rfl : ({ r with work } : Run) = r' := by simpa using h
      exact idle (.legal (htrue ▸ hlegal) rfl rfl)
    · split at h
      · simp at h
      · simp only [except_bind_eq_ok, except_pure_eq_ok, Prod.mk.injEq, and_true] at h
        obtain ⟨r'', hvisit, rfl⟩ := h
        exact visit_advances hps hs hready hx hparent hvisit

end Engine

end RegionIR
