import Mathlib.Algebra.BigOperators.Group.Finset.Basic
import Mathlib.Algebra.Order.BigOperators.Group.Finset
import RegionIR.Context.Validation
import RegionIR.Proofs.Context.Histories
import RegionIR.Proofs.Rewrite.Resting
import RegionIR.Proofs.Rewrite.Runs
import RegionIR.Rewrite.Recipe

/-! Whether a run ends.

The rewrites of a run are counted and bounded, but its retypings are not, and whoever is retyped has
its users queued again. Between two rewrites the only thing that can be counted down is how often
the operations can still be retyped. So a run ends if all types come to rest, and two operations that
use each other and have a type that never does keep each other busy for ever. -/

namespace RegionIR

namespace Context

variable {ctx ctx' ctx'' : Context} {c : Converter}

/-- The second context has more operations, and these stand nowhere. -/
structure Extends (ctx ctx' : Context) : Prop where
  sound : ctx'.Sound
  op? {o : OpId} {op : Op} : ctx.op? o = some op → ctx'.op? o = some op
  created {o : OpId} {op : Op} : ctx.op? o = none → ctx'.op? o = some op → op.parent = none

theorem Extends.refl (hs : ctx.Sound) : ctx.Extends ctx where
  sound := hs
  op? ho := ho
  created hnone ho := by simp [hnone] at ho

theorem Extends.trans (h : ctx.Extends ctx') (h' : ctx'.Extends ctx'') : ctx.Extends ctx'' where
  sound := h'.sound
  op? ho := h'.op? (h.op? ho)
  created {o op} hnone ho := by
    cases hmid : ctx'.op? o with
    | none => exact h'.created hmid ho
    | some op' =>
      obtain rfl := Option.some.inj (ho.symm.trans (h'.op? hmid))
      exact h.created hnone hmid

theorem Extends.createOp (hs : ctx.Sound) {spec : OpSpec} {id : OpId} (ha : spec.attrs.Sorted)
    (h : ctx.createOp spec = .ok (ctx', id)) : ctx.Extends ctx' where
  sound := hs.createOp ha (createOp_ok h)
  op? ho := (createOp_ok h).op?_of_some ho
  created {o op} hnone ho := by
    rw [(createOp_ok h).op?] at ho
    split at ho
    · exact Option.some.inj ho ▸ rfl
    · simp [hnone] at ho

section Weight

/-- How often an operation that stands in a block can be retyped. -/
noncomputable def opWeight (c : Converter) : Option Op → Nat
  | some op => if op.parent.isSome then stepsToRest (Op.retypedBy c) op else 0
  | none => 0

/-- How often the operations in blocks can be retyped, all together. -/
noncomputable def weight (c : Converter) (ctx : Context) : Nat :=
  ∑ i ∈ Finset.range ctx.ops.size, opWeight c (ctx.op? ⟨i⟩)

theorem weight_eq_sum {n : Nat} (h : ctx.ops.size ≤ n) :
    weight c ctx = ∑ i ∈ Finset.range n, opWeight c (ctx.op? ⟨i⟩) := by
  refine Finset.sum_subset (Finset.range_mono h) fun i _ hi => ?_
  have hnone : ctx.op? ⟨i⟩ = none := by
    simpa [Context.op?] using hi
  rw [hnone]
  rfl

theorem weight_le (h : ∀ o, opWeight c (ctx'.op? o) ≤ opWeight c (ctx.op? o)) :
    weight c ctx' ≤ weight c ctx := by
  rw [weight_eq_sum (Nat.le_max_left ctx'.ops.size ctx.ops.size),
    weight_eq_sum (Nat.le_max_right ctx'.ops.size ctx.ops.size)]
  exact Finset.sum_le_sum fun i _ => h ⟨i⟩

theorem weight_lt (h : ∀ o, opWeight c (ctx'.op? o) ≤ opWeight c (ctx.op? o)) {o : OpId}
    (hlt : opWeight c (ctx'.op? o) < opWeight c (ctx.op? o)) : weight c ctx' < weight c ctx := by
  have hsize : o.index < ctx.ops.size := by
    by_contra hge
    have hnone : ctx.op? o = none := by simpa [Context.op?] using hge
    simp [hnone, opWeight] at hlt
  rw [weight_eq_sum (Nat.le_max_left ctx'.ops.size ctx.ops.size),
    weight_eq_sum (Nat.le_max_right ctx'.ops.size ctx.ops.size)]
  refine Finset.sum_lt_sum (fun i _ => h ⟨i⟩) ⟨o.index, ?_, hlt⟩
  rw [Finset.mem_range]
  omega

theorem Extends.weight_le (h : ctx.Extends ctx') : weight c ctx' ≤ weight c ctx := by
  refine Context.weight_le fun o => ?_
  cases ho : ctx.op? o with
  | some op => rw [h.op? ho]
  | none =>
    cases ho' : ctx'.op? o with
    | none => exact Nat.le_refl _
    | some op => simp [opWeight, h.created ho ho']

theorem ChangesOp.weight_lt (hc : c.Rests) {o : OpId} {op : Op} (ho : ctx.op? o = some op)
    (hattached : op.parent.isSome) (hne : op.retypedBy c ≠ op)
    (h : ChangesOp ctx ctx' o (op.retypedBy c)) : weight c ctx' < weight c ctx := by
  have hlt : opWeight c (ctx'.op? o) < opWeight c (ctx.op? o) := by
    have hattached' : (op.retypedBy c).parent.isSome := hattached
    rw [h.op?, if_pos rfl, ho, opWeight, opWeight, if_pos hattached, if_pos hattached']
    exact (hc.op op).stepsToRest_lt hne
  refine Context.weight_lt (fun p => ?_) hlt
  by_cases hp : p = o
  · exact hp ▸ hlt.le
  · rw [h.op?, if_neg hp]

end Weight

theorem ChangesOp.extends_self {o : OpId} {op : Op} (ho : ctx.op? o = some op)
    (h : ChangesOp ctx ctx' o op) : ctx.Extends ctx' := by
  have hop (p : OpId) : ctx'.op? p = ctx.op? p := by
    rw [h.op?]
    split
    · rename_i hp
      rw [hp, ho]
    · rfl
  exact ⟨h.sound, fun hp => (hop _).trans hp, fun hnone hp => by simp [hop, hnone] at hp⟩

theorem Sound.insertOps {plan : Plan} {b : BlockId} {id : OpId} {targets : Option (List ValueId)}
    (hs : ctx.Sound) (h : plan.insertOps ctx b id = .ok (ctx', targets)) : ctx'.Sound := by
  simp only [Plan.insertOps, except_bind_eq_ok] at h
  obtain ⟨ctx₀, hinserted, h⟩ := h
  have hs₀ : ctx₀.Sound := foldlM_invariant (fun _ _ _ _ hs h => hs.insertOpBefore h) hs hinserted
  split at h
  · exact (Prod.mk.inj (except_pure_eq_ok.mp h)).1 ▸ hs₀
  · simp only [except_bind_eq_ok, op_eq_ok, except_pure_eq_ok, Prod.mk.injEq] at h
    obtain ⟨_, hinsert, _, -, rfl, -⟩ := h
    exact hs₀.insertOpBefore hinsert

/-- Carrying out a plan takes edits only. -/
theorem Sound.carryOut {plan : Plan} {id : OpId} (hs : ctx.Sound)
    (h : plan.carryOut ctx id = .ok ctx') : ctx'.Sound := by
  simp only [Plan.carryOut, except_bind_eq_ok, op_eq_ok] at h
  obtain ⟨op, -, h⟩ := h
  split at h
  · exact except_pure_eq_ok.mp h ▸ hs
  simp only [except_bind_eq_ok] at h
  obtain ⟨⟨ctx₁, targets⟩, hinsert, h⟩ := h
  have hs₁ := hs.insertOps hinsert
  cases targets with
  | none => exact except_pure_eq_ok.mp h ▸ hs₁
  | some values =>
    simp only [except_bind_eq_ok, op_eq_ok] at h
    obtain ⟨op₁, -, h⟩ := h
    split at h
    · simp at h
    · simp only [except_bind_eq_ok] at h
      obtain ⟨ctx₂, huses, ctx₃, hdetach, hremove⟩ := h
      have hs₂ : ctx₂.Sound :=
        foldlM_invariant (fun _ _ _ _ hs h => hs.replaceAllUses h) hs₁ huses
      exact (hs₂.detachOp hdetach).removeOp hremove

end Context

/-- A pattern that creates operations and does nothing else by itself. -/
def Pattern.Additive (p : Pattern) (c : Converter) : Prop :=
  ∀ ⦃ctx ctx' id op a⦄, ctx.Sound → ctx.op? id = some op → p.attempt c ctx id = .ok (ctx', a) →
    ctx.Extends ctx'

section Recipes

variable {c : Converter} {ctx ctx' : Context}

theorem OpChange.extends_attempt {change : OpChange} {op : Op} {a : Attempt} (hs : ctx.Sound)
    (ha : op.attrs.Sorted) (h : change.attempt c ctx op = .ok (ctx', a)) : ctx.Extends ctx' := by
  have hbare : Dict.Sorted ([] : Dict (Attr Ty)) := List.Pairwise.nil
  cases change with
  | decline reason => exact (Prod.mk.inj (except_pure_eq_ok.mp h)).1 ▸ .refl hs
  | nothing => exact (Prod.mk.inj (except_pure_eq_ok.mp h)).1 ▸ .refl hs
  | erase =>
    simp only [attempt] at h
    split at h <;> exact (Prod.mk.inj (except_pure_eq_ok.mp h)).1 ▸ .refl hs
  | insert dialect name =>
    simp only [attempt, createBare, except_bind_eq_ok, except_pure_eq_ok, Prod.mk.injEq] at h
    obtain ⟨⟨_, id⟩, hcreate, rfl, -⟩ := h
    exact .createOp hs hbare hcreate
  | rename dialect name converted before =>
    cases before with
    | none =>
      simp only [attempt, except_bind_eq_ok, except_pure_eq_ok, Prod.mk.injEq] at h
      obtain ⟨_, ⟨rfl, rfl⟩, ⟨_, id⟩, hcreate, rfl, -⟩ := h
      exact .createOp hs ha hcreate
    | some names =>
      simp only [attempt, createBare, except_bind_eq_ok, except_pure_eq_ok, Prod.mk.injEq] at h
      obtain ⟨⟨_, bare⟩, hfirst, _, rfl, ⟨_, id⟩, hcreate, rfl, -⟩ := h
      have hext : ctx.Extends _ := .createOp hs hbare hfirst
      exact hext.trans (.createOp hext.sound ha hcreate)

/-- Whatever a recipe makes of an operation, its pattern only creates operations. -/
theorem Pattern.additive_named (name dialect op : String) (change : OpChange) :
    (Pattern.named name dialect op change).Additive c := by
  intro ctx ctx' id data a hs hx h
  simp only [named, Context.op_eq_ok.mpr hx, except_ok_bind] at h
  split at h
  · exact change.extends_attempt hs (hs.keyed id data hx) h
  · exact (Prod.mk.inj (except_pure_eq_ok.mp h)).1 ▸ .refl hs

end Recipes

namespace Run

variable {r r' : Run}

theorem rewrite_keeps {x : OpId} {plan : Plan} (hs : r.ctx.Sound)
    (h : r.rewrite x plan = .ok r') : r'.ctx.Sound ∧ r'.rewrites = r.rewrites + 1 := by
  simp only [rewrite, except_bind_eq_ok] at h
  obtain ⟨ctx, hcarry, h⟩ := h
  refine foldlM_invariant (P := fun s => s.ctx.Sound ∧ s.rewrites = r.rewrites + 1)
    (fun s n s' _ hs h => ?_) ⟨hs.carryOut hcarry, rfl⟩ h
  simp only [enqueueNew, except_bind_eq_ok, except_pure_eq_ok] at h
  obtain ⟨op, -, producers, -, rfl⟩ := h
  exact hs

end Run

namespace Engine

variable {e : Engine} {c : Converter} {r r' : Run} {x : OpId} {op : Op} {budget : Nat}

theorem tryPatterns_additive {ps : List Pattern} (hps : ∀ p ∈ ps, p.Additive c)
    (hs : r.ctx.Sound) (hx : r.ctx.op? x = some op) {b : Bool}
    (h : tryPatterns c x ps r = .ok (r', b)) :
    (b = true ∧ r'.ctx.Sound ∧ r'.rewrites = r.rewrites + 1) ∨
      (b = false ∧ r.ctx.Extends r'.ctx ∧ r'.rewrites = r.rewrites ∧ r'.work = r.work) := by
  induction ps generalizing r with
  | nil =>
    simp only [tryPatterns, except_pure_eq_ok, Prod.mk.injEq] at h
    obtain ⟨rfl, rfl⟩ := h
    exact .inr ⟨rfl, .refl hs, rfl, rfl⟩
  | cons p ps ih =>
    rw [List.forall_mem_cons] at hps
    simp only [tryPatterns, except_bind_eq_ok] at h
    obtain ⟨⟨ctx₁, a⟩, hattempt, h⟩ := h
    have hext := hps.1 hs hx hattempt
    have next (r₁ : Run) (hctx : r₁.ctx = ctx₁) (hrewrites : r₁.rewrites = r.rewrites)
        (hwork : r₁.work = r.work) (hnext : tryPatterns c x ps r₁ = .ok (r', b)) :
        (b = true ∧ r'.ctx.Sound ∧ r'.rewrites = r.rewrites + 1) ∨
          (b = false ∧ r.ctx.Extends r'.ctx ∧ r'.rewrites = r.rewrites ∧ r'.work = r.work) := by
      rw [← hrewrites, ← hwork]
      subst hctx
      rcases ih hps.2 hext.sound (hext.op? hx) hnext with hdone | ⟨hb, hext', hrest⟩
      · exact .inl hdone
      · exact .inr ⟨hb, hext.trans hext', hrest⟩
    cases a with
    | noMatch => exact next { r with ctx := ctx₁ } rfl rfl rfl h
    | declined reason =>
      exact next (({ r with ctx := ctx₁ } : Run).setDecline x ⟨p.name, reason⟩) rfl rfl rfl h
    | applied plan =>
      simp only at h
      split at h
      · exact next { r with ctx := ctx₁ } rfl rfl rfl h
      · simp only [except_bind_eq_ok, except_pure_eq_ok, Prod.mk.injEq] at h
        obtain ⟨r₁, hrewrite, rfl, rfl⟩ := h
        exact .inl ⟨rfl, Run.rewrite_keeps (r := { r with ctx := ctx₁ }) hext.sound hrewrite⟩

/-- What a step that does not end the run counts down. -/
inductive Progress (e : Engine) (budget : Nat) (r r' : Run) : Prop
  | rewritten : r.rewrites < budget → r'.rewrites = r.rewrites + 1 → Progress e budget r r'
  | retyped : r'.rewrites = r.rewrites →
      Context.weight e.converter r'.ctx < Context.weight e.converter r.ctx → Progress e budget r r'
  | passed : r'.rewrites = r.rewrites →
      Context.weight e.converter r'.ctx ≤ Context.weight e.converter r.ctx →
      r'.work.queue.length < r.work.queue.length → Progress e budget r r'

theorem visit_progress (hc : e.converter.Rests) (hps : ∀ p ∈ e.patterns, p.Additive e.converter)
    (hs : r.ctx.Sound) (hx : r.ctx.op? x = some op) (hattached : op.parent.isSome)
    (h : e.visit x r = .ok r') :
    r'.ctx.Sound ∧ (r'.rewrites = r.rewrites + 1 ∨ r'.rewrites = r.rewrites ∧
      (Context.weight e.converter r'.ctx < Context.weight e.converter r.ctx ∨
        Context.weight e.converter r'.ctx ≤ Context.weight e.converter r.ctx ∧
          r'.work = r.work)) := by
  simp only [visit, except_bind_eq_ok] at h
  obtain ⟨⟨r₁, rewritten⟩, htry, h⟩ := h
  rcases tryPatterns_additive hps hs hx htry with
    ⟨rfl, hs₁, hrewrites⟩ | ⟨rfl, hext, hrewrites, hwork⟩
  · obtain rfl : r₁ = r' := by simpa using h
    exact ⟨hs₁, .inl hrewrites⟩
  simp only [Bool.false_eq_true, if_false, except_bind_eq_ok] at h
  obtain ⟨named, -, h⟩ := h
  cases named with
  | true =>
    obtain rfl : r₁ = r' := by simpa using h
    exact ⟨hext.sound, .inr ⟨hrewrites, .inr ⟨hext.weight_le, hwork⟩⟩⟩
  | false =>
    have hx₁ := hext.op? hx
    obtain ⟨ctx₂, hretype, hch⟩ := Context.retypeOp_eq e.converter hext.sound hx₁
    simp only [Bool.false_eq_true, if_false, hretype, except_ok_bind] at h
    by_cases hsame : op.retypedBy e.converter = op
    · simp only [hsame, ne_eq, not_true, decide_false, Bool.false_eq_true, if_false,
        except_pure_eq_ok] at h
      subst h
      have hext₂ := Context.ChangesOp.extends_self hx₁ (hsame ▸ hch)
      exact ⟨hch.sound, .inr ⟨hrewrites, .inr ⟨(hext.trans hext₂).weight_le, hwork⟩⟩⟩
    · simp only [hsame, ne_eq, not_false_eq_true, decide_true, if_true, except_bind_eq_ok,
        except_pure_eq_ok] at h
      obtain ⟨op', -, rfl⟩ := h
      exact ⟨hch.sound, .inr ⟨hrewrites,
        .inl ((hch.weight_lt hc hx₁ hattached hsame).trans_le hext.weight_le)⟩⟩

theorem step_progress (hc : e.converter.Rests) (hps : ∀ p ∈ e.patterns, p.Additive e.converter)
    (hs : r.ctx.Sound) (h : e.step budget r = .ok (r', none)) :
    r'.ctx.Sound ∧ Progress e budget r r' := by
  simp only [step] at h
  split at h
  · simp at h
  rename_i x work hpop
  have hshorter : work.queue.length < r.work.queue.length := by
    simp only [Worklist.pop] at hpop
    split at hpop
    · simp at hpop
    · rename_i y rest hqueue
      simp only [Option.some.injEq, Prod.mk.injEq] at hpop
      simp [← hpop.2, hqueue]
  have passed (hr : r' = { r with work }) : r'.ctx.Sound ∧ Progress e budget r r' :=
    hr ▸ ⟨hs, .passed rfl (Nat.le_refl _) hshorter⟩
  simp only [except_bind_eq_ok, Context.isAttached, Context.op_eq_ok, except_pure_eq_ok] at h
  obtain ⟨attached, ⟨op, hx, rfl⟩, h⟩ := h
  split at h
  · exact passed (Prod.mk.inj (except_pure_eq_ok.mp h)).1.symm
  rename_i hattached
  rw [Bool.not_eq_true, Bool.not_eq_false'] at hattached
  obtain ⟨legal, -, h⟩ := except_bind_eq_ok.mp h
  split at h
  · exact passed (Prod.mk.inj (except_pure_eq_ok.mp h)).1.symm
  split at h
  · simp at h
  rename_i hbudget
  simp only [except_bind_eq_ok, except_pure_eq_ok, Prod.mk.injEq, and_true] at h
  obtain ⟨r₁, hvisit, rfl⟩ := h
  obtain ⟨hs', hcases⟩ := visit_progress (r := { r with work }) hc hps hs hx hattached hvisit
  refine ⟨hs', ?_⟩
  rcases hcases with hrewrites | ⟨hrewrites, hlt | ⟨hle, hwork⟩⟩
  · exact .rewritten (Nat.lt_of_not_le hbudget) hrewrites
  · exact .retyped hrewrites hlt
  · exact .passed hrewrites hle (hwork ▸ hshorter)

/-- A run with this many rewrites allowed comes to an end by itself. -/
def Halts (e : Engine) (budget : Nat) (r : Run) : Prop :=
  ∃ limit, ∀ r', e.run budget limit r ≠ .ok (r', .outOfSteps)

theorem step_ending {ending : Ending} (h : e.step budget r = .ok (r', some ending)) :
    ending ≠ .outOfSteps := by
  rintro rfl
  simp only [step] at h
  split at h
  · simp at h
  obtain ⟨attached, -, h⟩ := except_bind_eq_ok.mp h
  split at h
  · simp at h
  obtain ⟨legal, -, h⟩ := except_bind_eq_ok.mp h
  split at h
  · simp at h
  split at h
  · simp at h
  · simp at h

theorem Halts.of_step (h : ∀ r', e.step budget r = .ok (r', none) → e.Halts budget r') :
    e.Halts budget r := by
  cases hstep : e.step budget r with
  | error fault => exact ⟨1, fun r' hrun => by simp [run, hstep, bind, Except.bind] at hrun⟩
  | ok next =>
    obtain ⟨r₁, _ | ending⟩ := next
    · obtain ⟨limit, hlimit⟩ := h r₁ hstep
      refine ⟨limit + 1, fun r' hrun => hlimit r' ?_⟩
      simpa [run, hstep] using hrun
    · refine ⟨1, fun r' hrun => step_ending hstep ?_⟩
      simp only [run, hstep, except_ok_bind, except_pure_eq_ok, Prod.mk.injEq] at hrun
      exact hrun.2

theorem not_halts_of_invariant {P : Run → Prop}
    (hstep : ∀ ⦃r⦄, P r → ∃ r', e.step budget r = .ok (r', none) ∧ P r') (h : P r) :
    ¬e.Halts budget r := by
  rintro ⟨limit, hlimit⟩
  induction limit generalizing r with
  | zero => exact hlimit r rfl
  | succ limit ih =>
    obtain ⟨r₁, hnext, h₁⟩ := hstep h
    refine ih h₁ fun r' hrun => hlimit r' ?_
    rw [run, hnext, except_ok_bind]
    exact hrun

theorem halts_of_rests (hc : e.converter.Rests) (hps : ∀ p ∈ e.patterns, p.Additive e.converter)
    (budget : Nat) (r : Run) (hs : r.ctx.Sound) : e.Halts budget r :=
  .of_step fun r' hstep =>
    have hprogress := step_progress hc hps hs hstep
    halts_of_rests hc hps budget r' hprogress.1
termination_by (budget - r.rewrites, Context.weight e.converter r.ctx, r.work.queue.length)
decreasing_by
  cases hprogress.2 with
  | rewritten hbudget hrewrites => exact .left _ _ (by omega)
  | retyped hrewrites hlt =>
    rw [hrewrites]
    exact .right _ (.left _ _ hlt)
  | passed hrewrites hle hshorter =>
    rw [hrewrites]
    refine .right _ ?_
    rcases Nat.lt_or_eq_of_le hle with hlt | heq
    · exact .left _ _ hlt
    · exact heq ▸ .right _ hshorter

theorem retypeArgs_sound {s s' : Context × Nat} {b : BlockId} (hs : s.1.Sound)
    (h : retypeArgs c s b = .ok s') : s'.1.Sound := by
  obtain ⟨block, hb, -⟩ := except_bind_eq_ok.mp h
  obtain ⟨ctx', hargs, hch⟩ :=
    Context.retypeArgs_eq c hs (Context.block_eq_ok.mp hb) s.2
  obtain rfl := Except.ok.inj (hargs.symm.trans h)
  exact hch.sound

/-- The run that converts the body of a module comes to an end by itself. -/
def HaltsOn (e : Engine) (ctx : Context) (m : OpId) : Prop :=
  ∀ ⦃body tree ctx' retyped⦄, ctx.body m = .ok (some body) → ctx.regionTree body = .ok tree →
    tree.blockIds.foldlM (retypeArgs e.converter) (ctx, 0) = .ok (ctx', retyped) →
    e.Halts (e.maxRewrites.getD tree.opIds.length)
      { ctx := ctx', work := .ofList tree.opIds, retyped }

/-- A conversion ends if all types come to rest under the converter and the patterns only create
operations by themselves, however values are used. -/
theorem haltsOn_of_rests (hc : e.converter.Rests) (hps : ∀ p ∈ e.patterns, p.Additive e.converter)
    {ctx : Context} (hr : ctx.Reachable) (m : OpId) : e.HaltsOn ctx m := by
  intro body tree ctx' retyped _ _ hargs
  have hs : ctx'.Sound :=
    foldlM_invariant (P := fun s => s.1.Sound) (fun _ _ _ _ => retypeArgs_sound) hr.sound hargs
  exact halts_of_rests hc hps _ _ hs

/-- Two operations in two blocks that use each other, with results of the same type. -/
def crossEdits (ty : Ty) : List Edit :=
  let nowhere : Location := ⟨"", ⟨0, 0⟩⟩
  [.createBlock [], .createBlock [],
    .createOp { location := nowhere, dialect := "t", name := "x", resultTypes := [ty] },
    .createOp
      { location := nowhere, dialect := "t", name := "p", operands := [⟨0⟩], resultTypes := [ty] },
    .createOp
      { location := nowhere, dialect := "t", name := "q", operands := [⟨1⟩], resultTypes := [ty] },
    .replaceAllUses ⟨0⟩ ⟨2⟩, .pushOp ⟨0⟩ ⟨1⟩, .pushOp ⟨1⟩ ⟨2⟩, .createRegion [⟨0⟩, ⟨1⟩],
    .createOp
      { location := nowhere, dialect := "core", name := "module", regions := [⟨0⟩]
        attrs := [("sym_name", .symbol "m")] }]

/-- Tuples are lowered, and `t.p` is renamed. -/
def renamer : Engine where
  converter := .tuples
  patterns := [.named "rename" "t" "p" (.rename "t" "q" false none)]
  target := { otherOps := Converter.isLegalOp .tuples }

theorem haltsOn_renamer : ∃ ctx tree, Context.ofEdits (crossEdits (.tuple [])) = .ok ctx ∧
    ctx.Reachable ∧ renamer.converter.Rests ∧
    (∀ p ∈ renamer.patterns, p.Additive renamer.converter) ∧ ctx.body ⟨3⟩ = .ok (some ⟨0⟩) ∧
    ctx.regionTree ⟨0⟩ = .ok tree ∧ tree.opIds = [⟨1⟩, ⟨2⟩] ∧ renamer.HaltsOn ctx ⟨3⟩ := by
  have hcheck : (Context.ofEdits (crossEdits (.tuple []))).toOption.any fun ctx =>
      (ctx.body ⟨3⟩).toOption.any fun body => (ctx.regionTree ⟨0⟩).toOption.any fun tree =>
        decide (body = some ⟨0⟩) && decide (tree.opIds = [⟨1⟩, ⟨2⟩]) := by
    decide +kernel
  obtain ⟨ctx, hctx, hcheck⟩ := except_any_iff.mp hcheck
  obtain ⟨body, hbody, hcheck⟩ := except_any_iff.mp hcheck
  obtain ⟨tree, htree, hcheck⟩ := except_any_iff.mp hcheck
  simp only [Bool.and_eq_true, decide_eq_true_eq] at hcheck
  obtain ⟨rfl, hops⟩ := hcheck
  have hr : ctx.Reachable :=
    Context.reachable_iff_exists_edits.mpr ⟨crossEdits (.tuple []), by decide +kernel, hctx⟩
  have hrests : renamer.converter.Rests := Converter.settles_tuples.rests
  have hps : ∀ p ∈ renamer.patterns, p.Additive renamer.converter :=
    List.forall_mem_singleton.mpr (Pattern.additive_named ..)
  exact ⟨ctx, tree, hctx, hr, hrests, hps, hbody, htree, hops, haltsOn_of_rests hrests hps hr ⟨3⟩⟩

/-- `t.a` is converted to `t.b`, and `t.b` to `t.a`. -/
def flips : Converter :=
  [.named "t" "a" (.to (.mk "t" "b" [] [])), .named "t" "b" (.to (.mk "t" "a" [] []))]

def flipFlop : Engine where
  converter := flips
  patterns := []
  target := { otherOps := Converter.isLegalOp flips }

def side (flipped : Bool) : Ty :=
  if flipped then .mk "t" "b" [] [] else .mk "t" "a" [] []

/-- The context after `crossEdits`, when the results of the two operations have been flipped. -/
def cross (x y : Bool) : Context :=
  let nowhere : Location := ⟨"", ⟨0, 0⟩⟩
  { ops := #[
      { location := nowhere, dialect := "t", name := "x", resultTypes := [side false]
        results := [⟨0⟩] },
      { location := nowhere, dialect := "t", name := "p", operands := [⟨2⟩]
        resultTypes := [side x], results := [⟨1⟩], parent := some ⟨0⟩ },
      { location := nowhere, dialect := "t", name := "q", operands := [⟨1⟩]
        resultTypes := [side y], results := [⟨2⟩], parent := some ⟨1⟩ },
      { location := nowhere, dialect := "core", name := "module", regions := [⟨0⟩]
        attrs := [("sym_name", .symbol "m")] }]
    values := #[⟨.result ⟨0⟩ 0, side false⟩, ⟨.result ⟨1⟩ 0, side x⟩, ⟨.result ⟨2⟩ 0, side y⟩]
    blocks := #[{ ops := [⟨1⟩], parent := some ⟨0⟩ }, { ops := [⟨2⟩], parent := some ⟨0⟩ }]
    regions := #[{ blocks := [⟨0⟩, ⟨1⟩], parent := some ⟨3⟩ }]
    ledger := [(⟨1⟩, ⟨⟨2⟩, 0⟩), (⟨2⟩, ⟨⟨1⟩, 0⟩)] }

theorem ofEdits_cross : Context.ofEdits (crossEdits (side false)) = .ok (cross false false) := rfl

/-- The states in which the two operations keep each other busy. -/
inductive Flipping : Run → Prop
  | both (retyped : Nat) :
      Flipping { ctx := cross false false, work := .ofList [⟨1⟩, ⟨2⟩], retyped }
  | first (x y : Bool) (retyped : Nat) :
      Flipping { ctx := cross x y, work := .ofList [⟨1⟩], retyped }
  | second (x y : Bool) (retyped : Nat) :
      Flipping { ctx := cross x y, work := .ofList [⟨2⟩], retyped }

theorem Flipping.step (h : Flipping r) :
    ∃ r', flipFlop.step 2 r = .ok (r', none) ∧ Flipping r' := by
  cases h with
  | both retyped => exact ⟨_, by with_unfolding_all rfl, .second true false (retyped + 1)⟩
  | first x y retyped =>
    refine ⟨_, ?_, .second (!x) y (retyped + 1)⟩
    cases x <;> cases y <;> with_unfolding_all rfl
  | second x y retyped =>
    refine ⟨_, ?_, .first x (!y) (retyped + 1)⟩
    cases x <;> cases y <;> with_unfolding_all rfl

/-- Without a single rewrite a conversion of a valid module goes on for ever. -/
theorem not_haltsOn_flipFlop : ∃ (e : Engine) (ctx : Context) (m : OpId) (tree : OpTree)
    (report : Report), e.patterns = [] ∧ ctx.Reachable ∧ ctx.opTree m = .ok tree ∧
    tree.op.is "core" "module" ∧ ctx.validate m = .ok report ∧ report.passed ∧
    ¬e.HaltsOn ctx m := by
  have hcheck : ((cross false false).opTree ⟨3⟩).toOption.any fun tree =>
      ((cross false false).validate ⟨3⟩).toOption.any fun report =>
        ((cross false false).regionTree ⟨0⟩).toOption.any fun body =>
          tree.op.is "core" "module" && report.passed && decide (body.opIds = [⟨1⟩, ⟨2⟩]) &&
            decide (body.blockIds = [⟨0⟩, ⟨1⟩]) := by
    decide +kernel
  obtain ⟨tree, htree, hcheck⟩ := except_any_iff.mp hcheck
  obtain ⟨report, hreport, hcheck⟩ := except_any_iff.mp hcheck
  obtain ⟨body, hbody, hcheck⟩ := except_any_iff.mp hcheck
  simp only [Bool.and_eq_true, decide_eq_true_eq] at hcheck
  obtain ⟨⟨⟨hmodule, hpassed⟩, hops⟩, hblocks⟩ := hcheck
  have hr : (cross false false).Reachable := Context.reachable_iff_exists_edits.mpr
    ⟨crossEdits (side false), by decide +kernel, ofEdits_cross⟩
  refine ⟨flipFlop, cross false false, ⟨3⟩, tree, report, rfl, hr, htree, hmodule, hreport, hpassed,
    fun hhalts => ?_⟩
  have hargs : body.blockIds.foldlM (retypeArgs flipFlop.converter) (cross false false, 0) =
      .ok (cross false false, 0) := by
    rw [hblocks]
    rfl
  have hstart := hhalts rfl hbody hargs
  rw [hops] at hstart
  exact not_halts_of_invariant (fun _ => Flipping.step) (.both 0) hstart

end Engine

end RegionIR
