import RegionIR.Proofs.Source.Inclusion
import RegionIR.Proofs.Source.Tables
import RegionIR.Proofs.Source.Validity

/-! Parsing adds to a context and its tables, and changes nothing in them.

A text may be rejected after a part of it was created. Wherever a pass ends, it has only added: names
stand for entities that the pass itself created, so nothing older is used, claimed or filled. -/

namespace RegionIR

/-- The names stand for values and blocks that the context does not have. -/
structure Scope.Beyond (base : Context) (scope : Scope) : Prop where
  values : ∀ v ∈ scope.values.map Prod.snd, base.value? v = none
  blocks : ∀ b ∈ scope.blocks.map Prod.snd, base.block? b = none

namespace Resolve

variable {α β : Type} {base : Context} {P : α → Prop} {Q : β → Prop} {h : SourceHead} {scope : Scope}

/-- Wherever the pass ends, it has only added to `base`, and what it gives is as described. -/
def Adds (base : Context) (m : Resolve α) (P : α → Prop) : Prop :=
  ∀ ⦃ctx r ctx'⦄, base.IncludedIn ctx → Leaves m ctx r ctx' → base.IncludedIn ctx' ∧ ∀ a, r = .ok a → P a

theorem adds_pure {a : α} (ha : P a) : Adds base (pure a) P := by
  intro ctx r ctx' hin hm
  obtain ⟨rfl, rfl⟩ := leaves_pure.mp hm
  refine ⟨hin, ?_⟩
  rintro _ ⟨⟩
  exact ha

theorem adds_throw (e : ResolveError) : Adds base (throw e : Resolve α) P := by
  intro ctx r ctx' hin hm
  obtain ⟨rfl, rfl⟩ := leaves_throw.mp hm
  exact ⟨hin, by simp⟩

theorem Adds.bind {x : Resolve α} {f : α → Resolve β} (hx : Adds base x P)
    (hf : ∀ a, P a → Adds base (f a) Q) : Adds base (x >>= f) Q := by
  intro ctx r ctx' hin hm
  rcases leaves_bind.mp hm with ⟨e, he, rfl⟩ | ⟨a, ctx₁, ha, hm⟩
  · exact ⟨(hx hin he).1, by simp⟩
  · obtain ⟨hin₁, hP⟩ := hx hin ha
    exact hf a (hP a rfl) hin₁ hm

theorem adds_mapM {γ : Type} {f : γ → Resolve α} (hf : ∀ c, Adds base (f c) P) (l : List γ) :
    Adds base (l.mapM f) fun as => ∀ a ∈ as, P a := by
  induction l with
  | nil => exact adds_pure (by simp)
  | cons c l ih =>
    rw [List.mapM_cons]
    exact (hf c).bind fun a ha => ih.bind fun as has =>
      adds_pure (List.forall_mem_cons.mpr ⟨ha, has⟩)

theorem adds_edit {f : Context → Except Fault (α × Context)}
    (hf : ∀ ctx a ctx', base.IncludedIn ctx → f ctx = .ok (a, ctx') → base.IncludedIn ctx' ∧ P a) :
    Adds base (edit f) P := by
  intro ctx r ctx' hin hm
  rcases leaves_edit.mp hm with ⟨a, ha, rfl⟩ | ⟨fault, -, rfl, rfl⟩
  · obtain ⟨hin', hP⟩ := hf ctx a ctx' hin ha
    refine ⟨hin', ?_⟩
    rintro _ ⟨⟩
    exact hP
  · exact ⟨hin, by simp⟩

theorem adds_createBlock (argTypes : List Ty) :
    Adds base (createBlock argTypes) fun b => base.block? b = none := by
  refine adds_edit fun ctx b ctx' hin hc => ?_
  obtain ⟨rfl, rfl⟩ := Prod.mk.inj (Except.ok.inj hc)
  have hcreates := ctx.createBlock_creates argTypes
  exact ⟨hin.createBlock hcreates, hin.block?_none hcreates.fresh⟩

theorem adds_createRegion {bs : List BlockId} (hbs : ∀ b ∈ bs, base.block? b = none) :
    Adds base (createRegion bs) fun r => base.region? r = none := by
  refine adds_edit fun ctx r ctx' hin hc => ?_
  simp only [except_bind_eq_ok, except_pure_eq_ok, Prod.mk.injEq] at hc
  obtain ⟨_, hc, rfl, rfl⟩ := hc
  have hcreates := Context.createRegion_ok hc
  exact ⟨hin.createRegion hcreates hbs, hin.region?_none hcreates.fresh⟩

theorem adds_createOp {spec : OpSpec} (hoperands : ∀ v ∈ spec.operands, base.value? v = none)
    (hsuccessors : ∀ b ∈ spec.successors, base.block? b = none)
    (hregions : ∀ r ∈ spec.regions, base.region? r = none) :
    Adds base (createOp spec) fun o => base.op? o = none := by
  refine adds_edit fun ctx o ctx' hin hc => ?_
  simp only [except_bind_eq_ok, except_pure_eq_ok, Prod.mk.injEq] at hc
  obtain ⟨_, hc, rfl, rfl⟩ := hc
  have hcreates := Context.createOp_ok hc
  exact ⟨hin.createOp hcreates hoperands hsuccessors hregions, hin.op?_none hcreates.fresh⟩

theorem adds_pushOp {b : BlockId} {o : OpId} (hb : base.block? b = none) (ho : base.op? o = none) :
    Adds base (pushOp b o) fun _ => True := by
  refine adds_edit fun ctx _ ctx' hin hp => ?_
  simp only [except_bind_eq_ok, except_pure_eq_ok, Prod.mk.injEq, true_and] at hp
  obtain ⟨_, hp, rfl⟩ := hp
  exact ⟨hin.pushOp hp hb ho, trivial⟩

theorem adds_argsOf {b : BlockId} (hb : base.block? b = none) :
    Adds base (argsOf b) fun vs => ∀ v ∈ vs, base.value? v = none := by
  refine adds_edit fun ctx vs ctx' hin hf => ?_
  simp only [except_bind_eq_ok, except_pure_eq_ok, Context.block_eq_ok, Prod.mk.injEq] at hf
  obtain ⟨_, ⟨block, hblock, rfl⟩, rfl, rfl⟩ := hf
  exact ⟨hin, hin.args hb hblock⟩

theorem adds_resultsOf {o : OpId} (ho : base.op? o = none) :
    Adds base (resultsOf o) fun vs => ∀ v ∈ vs, base.value? v = none := by
  refine adds_edit fun ctx vs ctx' hin hf => ?_
  simp only [except_bind_eq_ok, except_pure_eq_ok, Context.op_eq_ok, Prod.mk.injEq] at hf
  obtain ⟨_, ⟨op, hop, rfl⟩, rfl, rfl⟩ := hf
  exact ⟨hin, hin.results ho hop⟩

theorem adds_operand (hs : scope.Beyond base) (name : String) :
    Adds base (operand h scope name) fun v => base.value? v = none := by
  unfold operand
  split
  · rename_i v hv
    exact adds_pure (hs.values v (Scope.mem_of_lookup hv))
  · exact adds_throw _

theorem adds_successor (hs : scope.Beyond base) (label : String) :
    Adds base (successor h scope label) fun b => base.block? b = none := by
  unfold successor
  split
  · rename_i b hb
    exact adds_pure (hs.blocks b (Scope.mem_of_lookup hb))
  · exact adds_throw _

theorem adds_checkResults : Adds base (checkResults h) fun _ => True := by
  unfold checkResults
  split
  · exact adds_pure trivial
  · exact adds_throw _

theorem adds_defineValues (hs : scope.Beyond base) (names : List String) {vs : List ValueId}
    (hvs : ∀ v ∈ vs, base.value? v = none) :
    Adds base (defineValues h scope names vs) (Scope.Beyond base) := by
  induction names generalizing scope vs with
  | nil => exact adds_pure hs
  | cons name names ih =>
    cases vs with
    | nil => exact adds_throw _
    | cons v vs =>
      rw [List.forall_mem_cons] at hvs
      have hdefine : Adds base (defineValue h scope name v) (Scope.Beyond base) := by
        unfold defineValue
        split
        · exact adds_throw _
        · exact adds_pure ⟨List.forall_mem_cons.mpr ⟨hvs.1, hs.values⟩, hs.blocks⟩
      exact hdefine.bind fun _ hs' => ih hs' hvs.2

theorem adds_openBlocks (hs : scope.Beyond base) (seen : List String) (blocks : List SourceBlock) :
    Adds base (openBlocks h seen scope blocks) fun p =>
      (∀ b ∈ p.1, base.block? b = none) ∧ p.2.Beyond base := by
  induction blocks generalizing seen scope with
  | nil => exact adds_pure ⟨by simp, hs⟩
  | cons block blocks ih =>
    obtain ⟨label, args, ops⟩ := block
    have hrest : Adds base (openUnseen h seen scope label args blocks) fun p =>
        (∀ b ∈ p.1, base.block? b = none) ∧ p.2.Beyond base := by
      refine (adds_createBlock _).bind fun b hb => (adds_argsOf hb).bind fun vs hvs => ?_
      have hs₁ : Scope.Beyond base { scope with blocks := (label, b) :: scope.blocks } :=
        ⟨hs.values, List.forall_mem_cons.mpr ⟨hb, hs.blocks⟩⟩
      exact (adds_defineValues hs₁ _ hvs).bind fun _ hs₂ => (ih hs₂ _).bind fun p hp =>
        adds_pure ⟨List.forall_mem_cons.mpr ⟨hb, hp.1⟩, hp.2⟩
    rw [openBlocks_cons]
    split
    · exact Adds.bind (P := fun _ => True) (adds_throw _) fun _ _ => hrest
    · exact hrest

mutual

theorem adds_op : ∀ (s : SourceOp) {scope : Scope}, scope.Beyond base →
    Adds base (op scope s) fun p => base.op? p.1 = none ∧ p.2.Beyond base
  | .mk h regions, _, hs =>
    (adds_mapM (adds_operand hs) _).bind fun _ hoperands =>
    (adds_mapM (adds_successor hs) _).bind fun _ hsuccessors =>
    adds_checkResults.bind fun _ _ =>
    (adds_regionsOf regions h hs).bind fun _ hregions =>
    (adds_createOp hoperands hsuccessors hregions).bind fun _ ho =>
    (adds_resultsOf ho).bind fun _ hvs =>
    (adds_defineValues hs h.results hvs).bind fun _ hs' => adds_pure ⟨ho, hs'⟩

theorem adds_region : ∀ (r : SourceRegion) (h : SourceHead) {scope : Scope}, scope.Beyond base →
    Adds base (region h scope r) fun r => base.region? r = none
  | .mk blocks, _, _, hs =>
    (adds_openBlocks hs [] blocks).bind fun _ hp =>
    (adds_fillBlocks blocks hp.2 hp.1).bind fun _ _ => adds_createRegion hp.1

theorem adds_regionsOf : ∀ (l : List SourceRegion) (h : SourceHead) {scope : Scope},
    scope.Beyond base → Adds base (regionsOf h scope l) fun rs => ∀ r ∈ rs, base.region? r = none
  | [], _, _, _ => adds_pure (by simp)
  | r :: rest, h, _, hs =>
    (adds_region r h hs).bind fun _ hr => (adds_regionsOf rest h hs).bind fun _ hrs =>
    adds_pure (List.forall_mem_cons.mpr ⟨hr, hrs⟩)

theorem adds_fillBlocks : ∀ (l : List SourceBlock) {scope : Scope} {ids : List BlockId},
    scope.Beyond base → (∀ b ∈ ids, base.block? b = none) →
      Adds base (fillBlocks scope l ids) fun _ => True
  | [], _, [], _, _ => adds_pure trivial
  | [], _, _ :: _, _, _ => adds_pure trivial
  | .mk _ _ _ :: _, _, [], _, _ => adds_pure trivial
  | .mk _ _ ops :: rest, _, _ :: _, hs, hids =>
    (adds_fillBlock ops hs (List.forall_mem_cons.mp hids).1).bind fun _ hs' =>
    adds_fillBlocks rest hs' (List.forall_mem_cons.mp hids).2

theorem adds_fillBlock : ∀ (l : List SourceOp) {scope : Scope} {b : BlockId}, scope.Beyond base →
    base.block? b = none → Adds base (fillBlock scope b l) (Scope.Beyond base)
  | [], _, _, hs, _ => adds_pure hs
  | o :: rest, _, _, hs, hb =>
    (adds_op o hs).bind fun _ hp => (adds_pushOp hb hp.1).bind fun _ _ =>
    adds_fillBlock rest hp.2 hb

end

end Resolve

namespace Context

theorem includedIn_parse (ctx : Context) (text : String) : ctx.IncludedIn (ctx.parse text).2 := by
  unfold parse
  cases SourceOp.parse text with
  | error e => exact .refl ctx
  | ok source =>
    exact (Resolve.adds_op source ⟨by simp, by simp⟩ (.refl ctx) rfl).1

end Context

namespace Arena

/-- Whatever an arena has, the other one has under the same numbers, and what is added there keeps to
itself. -/
structure IncludedIn (base arena : Arena) : Prop where
  ctx : base.ctx.IncludedIn arena.ctx
  types : base.types.entries.toList <+: arena.types.entries.toList
  paths : base.paths.entries.toList <+: arena.paths.entries.toList

/-- What an arena has before a text is parsed, it has after that, wherever the text is rejected: the
entities, the uses of values, the types and the paths, and whatever is printed of the operations or said
about them by the validator. -/
theorem parse_adds {arena : Arena} (hr : arena.ctx.Reachable) (hg : arena.ctx.Grounded)
    (text : String) :
    (arena.parse text).1 = (arena.ctx.parse text).1 ∧
      (arena.parse text).2.ctx = (arena.ctx.parse text).2 ∧
      arena.IncludedIn (arena.parse text).2 ∧
      (∀ v value, arena.ctx.value? v = some value →
        (arena.parse text).2.ctx.uses v = arena.ctx.uses v) ∧
      ∀ o op, arena.ctx.op? o = some op →
        (arena.parse text).2.ctx.print o = arena.ctx.print o ∧
          (arena.parse text).2.ctx.validate o = arena.ctx.validate o := by
  obtain ⟨types, paths, htypes, hpaths, hparse⟩ := arena.parse_eq text
  have h := arena.ctx.includedIn_parse text
  rw [hparse]
  exact ⟨rfl, rfl, ⟨h, htypes, hpaths⟩, fun v value hv => h.uses hv, fun o op ho =>
    ⟨h.print hr.sound ho, h.validate hr.sound hg ho⟩⟩

/-- A text that is rejected when a block and three operations of it were created. -/
def doubledText : String := "core.module @m \x7b %0 = t.t : t.t t.t %0 %0 = t.t : t.t \x7d"

/-- The context that a history of edits leaves, with a type in its table. -/
def loopArena : Except Fault Arena := do
  return { ctx := ← Context.ofEdits Context.loopEdits, types := (TypeTable.internTree {} (.mk "t" "i" [] [])).1 }

theorem parse_adds_doubled : ∃ arena, loopArena = .ok arena ∧ arena.ctx.Reachable ∧
    arena.ctx.Grounded ∧ (arena.parse doubledText).1.toOption = none ∧
    ((arena.parse doubledText).2.ctx.op? ⟨5⟩).isSome ∧
    arena.IncludedIn (arena.parse doubledText).2 ∧
    (arena.types.entries.size, (arena.parse doubledText).2.types.entries.size) = (1, 2) ∧
    (arena.parse doubledText).2.ctx.uses ⟨1⟩ = arena.ctx.uses ⟨1⟩ ∧
    (arena.parse doubledText).2.ctx.print ⟨2⟩ = arena.ctx.print ⟨2⟩ ∧
    (arena.parse doubledText).2.ctx.validate ⟨2⟩ = arena.ctx.validate ⟨2⟩ := by
  have hcheck : loopArena.toOption.any fun arena =>
      decide arena.ctx.Grounded && (arena.parse doubledText).1.toOption.isNone &&
        ((arena.parse doubledText).2.ctx.op? ⟨5⟩).isSome && (arena.ctx.op? ⟨2⟩).isSome &&
        (arena.ctx.value? ⟨1⟩).isSome && decide ((arena.types.entries.size,
          (arena.parse doubledText).2.types.entries.size) = (1, 2)) := by decide +kernel
  obtain ⟨arena, harena, hcheck⟩ := except_any_iff.mp hcheck
  simp only [Bool.and_eq_true, decide_eq_true_eq, Option.isNone_iff_eq_none] at hcheck
  obtain ⟨⟨⟨⟨⟨hgrounded, hrejected⟩, hcreated⟩, hop⟩, hvalue⟩, hsizes⟩ := hcheck
  obtain ⟨op, hop⟩ := Option.isSome_iff_exists.mp hop
  obtain ⟨value, hvalue⟩ := Option.isSome_iff_exists.mp hvalue
  obtain ⟨ctx, hctx, hmade⟩ := except_bind_eq_ok.mp harena
  obtain rfl := except_pure_eq_ok.mp hmade
  have hr : ctx.Reachable := Context.reachable_iff_exists_edits.mpr ⟨Context.loopEdits, by decide +kernel, hctx⟩
  obtain ⟨-, -, hin, huses, hshown⟩ := parse_adds hr hgrounded doubledText
  exact ⟨_, harena, hr, hgrounded, hrejected, hcreated, hin, hsizes, huses _ _ hvalue, hshown _ _ hop⟩

end Arena

end RegionIR
