import RegionIR.Proofs.Lowering.Recast
import RegionIR.Proofs.Lowering.Runs

/-! What a lowering leaves behind: the region recast and renamed, and all else as it was. -/

namespace RegionIR

/-- A region whose operations have the forms of a progress, with lowered arguments. -/
def Progress.tree (s : Progress) (t : RegionTree) : RegionTree :=
  t.recast (fun o _ => s.forms o) Ty.lowered

namespace TupleLowering

/-- What a lowering answers: whether something is left behind counts before the report on the use
chains. -/
def verdict (left : List Leftover) (report : Report) (stats : Stats) : Except LoweringError Stats :=
  if left = [] then if report.passed then .ok stats else .error (.invalidModule report.text)
  else .error (.incomplete left)

theorem verdict_eq_ok_iff {left : List Leftover} {report : Report} {stats stats' : Stats} :
    verdict left report stats = .ok stats' ↔ left = [] ∧ report.passed ∧ stats = stats' := by
  unfold verdict
  by_cases hnil : left = [] <;> cases hpassed : report.passed <;> simp [hnil]

theorem pure_verdict (report : Report) (stats : Stats) (ctx : Context) :
    (if report.passed then pure (.ok stats, ctx)
      else pure (.error (.invalidModule report.text), ctx) :
        Except Fault (Except LoweringError Stats × Context)) =
      .ok (verdict [] report stats, ctx) := by
  cases hpassed : report.passed <;> simp [verdict, hpassed, pure, Except.pure]

theorem run_eq_ok_iff {ctx last : Context} {m : OpId} {verify : Bool}
    {answer : Except LoweringError Stats} : run ctx m verify = .ok (answer, last) ↔
      (ctx.body m = .ok none ∧ last = ctx ∧
        answer = .error (.invalidModule "core.module has no body region")) ∨
      ∃ body result left report, ctx.body m = .ok (some body) ∧
        engine.convert ctx m = .ok (last, result) ∧ leftovers last m result = .ok left ∧
        (left = [] → (if verify then last.validateUses m else pure {}) = .ok report) ∧
        answer = verdict left report ⟨result.rewrites, result.retyped⟩ := by
  rw [run, except_bind_eq_ok]
  constructor
  · rintro ⟨body, hbody, h⟩
    cases body with
    | none =>
      obtain ⟨rfl, rfl⟩ := Prod.mk.inj (except_pure_eq_ok.mp h)
      exact .inl ⟨hbody, rfl, rfl⟩
    | some body =>
      obtain ⟨⟨ctx', result⟩, hconvert, h⟩ := except_bind_eq_ok.mp h
      obtain ⟨left, hleft, h⟩ := except_bind_eq_ok.mp h
      refine .inr ⟨body, result, left, ?_⟩
      by_cases hnil : left = []
      · subst hnil
        obtain ⟨report, hreport, h⟩ : ∃ report : Report,
            (if verify then ctx'.validateUses m else pure {}) = .ok report ∧
            (answer, last) = (verdict [] report ⟨result.rewrites, result.retyped⟩, ctx') := by
          cases verify <;>
          · obtain ⟨report, hreport, h⟩ := except_bind_eq_ok.mp h
            exact ⟨report, hreport, (Except.ok.inj ((pure_verdict report _ _).symm.trans h)).symm⟩
        obtain ⟨rfl, rfl⟩ := Prod.mk.inj h
        exact ⟨report, hbody, hconvert, hleft, fun _ => hreport, rfl⟩
      · have hempty : left.isEmpty = false := by simpa using hnil
        simp only [hempty, Bool.not_false, if_true, except_pure_eq_ok, Prod.mk.injEq] at h
        obtain ⟨rfl, rfl⟩ := h
        exact ⟨{}, hbody, hconvert, hleft, fun h => absurd h hnil, by simp [verdict, hnil]⟩
  · rintro (⟨hbody, rfl, rfl⟩ | ⟨body, result, left, report, hbody, hconvert, hleft, hreport, rfl⟩)
    · exact ⟨none, hbody, rfl⟩
    · refine ⟨some body, hbody, ?_⟩
      refine except_bind_eq_ok.mpr ⟨(last, result), hconvert, ?_⟩
      refine except_bind_eq_ok.mpr ⟨left, hleft, ?_⟩
      by_cases hnil : left = []
      · subst hnil
        have hreport := hreport rfl
        cases verify <;> exact except_bind_eq_ok.mpr ⟨report, hreport, pure_verdict report _ _⟩
      · have hempty : left.isEmpty = false := by simpa using hnil
        simp [hempty, verdict, hnil]

end TupleLowering

namespace Context

variable {ctx cur : Context} {t : RegionTree} {forms : OpId → Op} {image : OpId → OpId}
  {subst : ValueId → ValueId}

/-- The region by now: its operations have the forms, and the arguments of its blocks are
lowered. -/
theorem Refines.heldBy (hc : ctx.Confined t) (h : ctx.Refines t forms cur image subst)
    (hregions : ∀ o ∈ t.opIds, (forms o).regions = [] ∨
      (forms o).regions = (ctx.raw o).regions) :
    ((t.recast (fun o _ => forms o) Ty.lowered).rename image subst).HeldBy cur := by
  have hmem {o : OpId} {op : Op} (ho : (o, op) ∈ t.preorder) : o ∈ t.opIds ∧ ctx.raw o = op :=
    ⟨List.mem_map_of_mem ho, raw_of_some (hc.held.op?_of_mem ho)⟩
  refine Recasts.heldBy hc.held
    ⟨fun ho => h.op? (hmem ho).1, fun ho => (hmem ho).2 ▸ hregions _ (hmem ho).1, h.region?,
      fun {b} hb => ?_, fun {b a} hb ha => ?_⟩
  · obtain ⟨hblk, hargs, -, hops, -⟩ := hc.held.block hb
    have hid := RegionTree.HeldBy.mem_blockIds_iff.mpr ⟨_, hb, rfl⟩
    simp only [BlockTree.id] at hid ⊢
    have hblk' := h.block? hblk
    rw [if_pos hid] at hblk'
    refine ⟨_, hblk', ?_, ?_⟩
    · simp only [Block.retyped, hargs]
      exact List.map_congr_left fun a ha => (h.subst_arg hb (List.mem_map_of_mem ha)).symm
    · simp only [hops, List.map_map]
      rfl
  · have hdef : a.1 ∈ definedValues t := mem_definedValues.mpr (.inl ⟨b, hb, List.mem_map_of_mem ha⟩)
    obtain ⟨value, hval, hty⟩ := typeOf_eq_ok.mp (h.typeOf_subst hc hdef)
    refine ⟨value, hval, hty.trans ?_⟩
    obtain ⟨hblk, hargs, hvals, -, -⟩ := hc.held.block hb
    obtain ⟨i, hi⟩ := List.mem_iff_getElem?.mp (hargs ▸ List.mem_map_of_mem ha)
    obtain ⟨ty, -, hval'⟩ := hc.sound.typed.argument hblk hi
    obtain ⟨value', hval'', hty'⟩ := hvals a ha
    rw [hval'] at hval''
    cases Option.some.inj hval''
    simp only [typeUnder, hval', ← hty']

theorem Steps.regions {s : Progress} (h : ctx.Steps t (start ctx t) s) (o : OpId) :
    (s.forms o).regions = [] ∨ (s.forms o).regions = (ctx.raw o).regions := by
  rw [(h.becomes o).regions]
  split
  · exact .inl rfl
  · exact .inr rfl

theorem Steps.regions_of_flat {s : Progress} (hc : ctx.Confined t) (h : ctx.Steps t (start ctx t) s)
    (hflat : ∀ o ∈ t.preorder, o.2.isTupleOp → o.2.regions = []) {o : OpId × Op}
    (ho : o ∈ t.preorder) (hnil : (s.forms o.1).regions = []) : o.2.regions = [] := by
  rw [(h.becomes o.1).regions, raw_of_some (hc.held.op?_of_mem ho)] at hnil
  split at hnil
  · rename_i htuple
    exact hflat o ho (Bool.and_eq_true_iff.mp htuple).1
  · exact hnil

theorem Steps.opIds_tree {s : Progress} (hc : ctx.Confined t) (h : ctx.Steps t (start ctx t) s)
    (hflat : ∀ o ∈ t.preorder, o.2.isTupleOp → o.2.regions = []) : (s.tree t).opIds = t.opIds := by
  have hpreorder := RegionTree.preorder_recast (f := fun o _ => s.forms o) (g := Ty.lowered) hc.held
    fun o => h.regions_of_flat hc hflat
  rw [RegionTree.opIds, Progress.tree, hpreorder, List.map_map]
  rfl

/-- If no tuple operation and no type to convert is left, all operations are legal. -/
theorem Steps.legal {s : Progress} (hc : ctx.Confined t) (h : ctx.Steps t (start ctx t) s)
    (hall : ∀ o ∈ t.opIds, (s.forms o).isTupleOp = false ∧ (s.forms o).retyped = s.forms o) :
    ∀ o ∈ t.opIds, (s.forms o).Legal (ctx.typeUnder s.forms) := by
  intro o ho
  refine Op.legal_iff.mpr ⟨(hall o ho).1, (hall o ho).2, fun v hv => ?_⟩
  rw [(h.becomes o).operands] at hv
  refine hc.tupleFree_typeUnder (fun p hp => ⟨(hall p hp).2, (h.becomes p).results, ?_⟩)
    (hc.operands ho hv)
  exact (h.becomes p).results_length (hc.sound.typed.results_length (hc.held.op?_raw hp))

/-- What is left behind in the end can be listed. It is nothing if all forms are legal that the
region still has. -/
theorem Refines.exists_leftovers (hc : ctx.Confined t) (h : ctx.Refines t forms cur image subst)
    (hregions : ∀ o ∈ t.opIds, (forms o).regions = [] ∨ (forms o).regions = (ctx.raw o).regions)
    {m : OpId} {op : Op} (hm : ctx.op? m = some op) (hbody : op.regions.head? = some t.id)
    (hout : m ∉ t.opIds) (result : Engine.Result) :
    ∃ left, TupleLowering.leftovers cur m result = .ok left ∧
      (left = [] ↔ ∀ o ∈ (t.recast (fun o _ => forms o) Ty.lowered).opIds,
        (forms o).Legal (ctx.typeUnder forms)) := by
  have hheld := h.heldBy hc hregions
  have hregion : cur.body m = .ok (some t.id) := by
    simp [body, op_eq_ok.mpr (h.outside hout hm), hbody, pure, Except.pure]
  let tree := t.recast (fun o _ => forms o) Ty.lowered
  have htree : cur.regionTree t.id = .ok (tree.rename image subst) :=
    regionTree_eq_ok_iff.mpr ⟨(RegionTree.id_rename _).trans (RegionTree.id_recast t), hheld⟩
  let p (o : OpId × Op) : Bool :=
    !(TupleLowering.target.isLegal cur o.1).toOption.getD false
  have hp : ∀ o ∈ tree.opIds, ∃ legal, TupleLowering.target.isLegal cur (image o) = .ok legal ∧
      (legal = true ↔ (forms o).Legal (ctx.typeUnder forms)) := by
    intro o ho
    have hmem := RegionTree.opIds_recast_subset ho
    obtain ⟨legal, hlegal, hiff⟩ := TupleLowering.isLegal_target (h.op? hmem)
      (h.typeOf_operand hc hmem)
    exact ⟨legal, hlegal, hiff.trans (h.legal_iff hc hmem)⟩
  have hillegal : TupleLowering.target.illegalIn cur (tree.rename image subst) =
      .ok ((tree.rename image subst).preorder.filter p) := by
    refine filterM_of_ok fun o ho => ?_
    rw [RegionTree.preorder_rename] at ho
    obtain ⟨o, hm, rfl⟩ := List.mem_map.mp ho
    obtain ⟨legal, hlegal, -⟩ := hp o.1 (List.mem_map_of_mem hm)
    simp [p, hlegal, Except.toOption, pure, Except.pure]
  have hleft : (tree.rename image subst).preorder.filter p = [] ↔
      ∀ o ∈ tree.opIds, (forms o).Legal (ctx.typeUnder forms) := by
    simp only [List.filter_eq_nil_iff, RegionTree.preorder_rename, List.forall_mem_map,
      RegionTree.opIds]
    refine forall₂_congr fun o ho => ?_
    obtain ⟨legal, hlegal, hiff⟩ := hp o.1 (List.mem_map_of_mem ho)
    simp [p, hlegal, hiff, Except.toOption]
  have hremaining : Engine.remaining TupleLowering.target cur m =
      .ok ((tree.rename image subst).preorder.filter p) := by
    simp only [Engine.remaining, hregion, except_ok_bind]
    rw [htree]
    exact hillegal
  have hleftovers : TupleLowering.leftovers cur m result =
      .ok (((tree.rename image subst).preorder.filter p).map
        fun o => ⟨o.1, o.2.fullName, result.reasonFor o.1⟩) := by
    simp only [TupleLowering.leftovers, hremaining, except_ok_bind]
    rfl
  exact ⟨_, hleftovers, List.map_eq_nil_iff.trans hleft⟩

/-- The module `m` is lowered to `ctx'`: `left` are the operations left behind in its body `t`, and
`s` is how far the visits came. -/
structure Lowers (ctx : Context) (m : OpId) (t : RegionTree) (ctx' : Context)
    (result : Engine.Result) (left : List Leftover) (s : Progress) (image : OpId → OpId)
    (subst : ValueId → ValueId) : Prop where
  converts : TupleLowering.engine.convert ctx m = .ok (ctx', result)
  leftovers : TupleLowering.leftovers ctx' m result = .ok left
  rewrites : result.rewrites = lowered ctx t s
  steps : ctx.Steps t (start ctx t) s
  ends : ∃ ending, ctx.EndsAt t t.opIds.length s ending ∧ result.fixpoint = (ending == .drained)
  refines : ctx.Refines t s.forms ctx' image subst
  held : ((s.tree t).rename image subst).HeldBy ctx'
  left_nil : left = [] ↔ ∀ o ∈ (s.tree t).opIds,
    (s.forms o).Legal (ctx.typeUnder s.forms)

/-- If it is not in the body that it owns, a module can be lowered as far as the visits come. -/
theorem exists_lowers (hc : ctx.Confined t) {m : OpId} {op : Op} (hm : ctx.op? m = some op)
    (hbody : op.regions.head? = some t.id) (hout : m ∉ t.opIds) :
    ∃ ctx' result left s image subst, ctx.Lowers m t ctx' result left s image subst := by
  have hregion : ctx.body m = .ok (some t.id) := by
    simp [body, op_eq_ok.mpr hm, hbody, pure, Except.pure]
  obtain ⟨ctx', result, s, r, ending, image, subst, hconvert, hsteps, hf, rfl, hrewrites, hfix⟩ :=
    convert_total hc hregion (regionTree_eq_ok_iff.mpr ⟨rfl, hc.held⟩)
  have hregions : ∀ o ∈ t.opIds, (s.forms o).regions = [] ∨
      (s.forms o).regions = (ctx.raw o).regions := fun o _ => hsteps.regions o
  obtain ⟨left, hleft, hnil⟩ := hf.refines.exists_leftovers hc hregions hm hbody hout result
  exact ⟨r.ctx, result, left, s, image, subst, hconvert, hleft, hrewrites.trans hf.rewrites,
    hsteps, ⟨ending, hf.ending, hfix⟩, hf.refines, hf.refines.heldBy hc hregions, hnil⟩

theorem exists_lowers_of_tree (hc : ctx.Confined t) {tree : OpTree} (htree : tree.HeldBy ctx)
    (hbody : tree.regions.head? = some t) :
    ∃ ctx' result left s image subst, ctx.Lowers tree.id t ctx' result left s image subst := by
  have hmem : t ∈ tree.regions := List.mem_of_mem_head? hbody
  have hhead : tree.op.regions.head? = some t.id := by
    obtain ⟨-, hregions, -⟩ := htree
    simp only [OpTree.regions] at hbody
    simp [OpTree.op, hregions, hbody]
  have hout : tree.id ∉ t.opIds := fun hid =>
    (htree.regions_nodup hc.sound.linked).1 (List.mem_flatMap.mpr ⟨t, hmem, hid⟩)
  exact exists_lowers hc htree.op?_id hhead hout

namespace Lowers

variable {m : OpId} {ctx' : Context} {result : Engine.Result} {left : List Leftover} {s : Progress}

/-- Without verification only what is left behind matters. -/
theorem run_unverified (h : ctx.Lowers m t ctx' result left s image subst) {body : RegionId}
    (hbody : ctx.body m = .ok (some body)) :
    TupleLowering.run ctx m false = .ok (if left = [] then .ok ⟨result.rewrites, result.retyped⟩
      else .error (.incomplete left), ctx') :=
  TupleLowering.run_eq_ok_iff.mpr (.inr ⟨body, result, left, {}, hbody, h.converts, h.leftovers,
    fun _ => rfl, rfl⟩)

theorem run_verified (h : ctx.Lowers m t ctx' result left s image subst) {body : RegionId}
    (hbody : ctx.body m = .ok (some body)) {report : Report}
    (hreport : ctx'.validateUses m = .ok report) :
    TupleLowering.run ctx m true = .ok (if left = [] then
        if report.passed then .ok ⟨result.rewrites, result.retyped⟩
        else .error (.invalidModule report.text)
      else .error (.incomplete left), ctx') :=
  TupleLowering.run_eq_ok_iff.mpr (.inr ⟨body, result, left, report, hbody, h.converts,
    h.leftovers, fun _ => hreport, rfl⟩)

end Lowers

end Context

end RegionIR
