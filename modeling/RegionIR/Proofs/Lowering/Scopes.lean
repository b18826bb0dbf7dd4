import RegionIR.Proofs.Context.Histories
import RegionIR.Proofs.Lowering.Effects
import RegionIR.Proofs.Lowering.Result
import RegionIR.Proofs.Rewrite.Conversions

/-! Scopes in the course of a lowering.

A replacement stands where the replaced operation stood, so that its result is visible wherever the
old one was. What is visible at an operation is renamed as its operands are, and nothing that was in
scope leaves it. -/

namespace RegionIR

namespace Context

section Recast

variable {ctx cur : Context} {f : OpId → Op → Op} {g : Ty → Ty} {i : OpId → OpId}
  {s : ValueId → ValueId} {visible outer : List ValueId} {siblings : List BlockTree}

/-- The new data of an operation have the operands and the results of the old ones. -/
def SameValues (f : OpId → Op → Op) (o : OpId × Op) : Prop :=
  (f o.1 o.2).operands = o.2.operands ∧ (f o.1 o.2).results = o.2.results

theorem siblingValues_recast (b : BlockId) {l : List BlockTree}
    (h : ∀ o ∈ l.flatMap BlockTree.preorder, SameValues f o) :
    siblingValues b (l.map fun t => (t.recast f g).rename i s) = (siblingValues b l).map s := by
  simp only [siblingValues, List.flatMap_map, List.map_flatMap]
  refine List.flatMap_congr fun t ht => ?_
  have hresults {c : OpTree} (hc : c ∈ t.ops) : (f c.id c.op).results = c.op.results := by
    refine (h (c.id, c.op) (List.mem_flatMap.mpr ⟨t, ht, ?_⟩)).2
    obtain ⟨id, args, ops⟩ := t
    rw [BlockTree.preorder_node, List.mem_flatMap]
    exact ⟨c, hc, by rw [c.preorder_eq]; exact List.mem_cons_self⟩
  obtain ⟨id, args, ops⟩ := t
  simp only [BlockTree.recast_node, BlockTree.rename_node, BlockTree.args, BlockTree.id,
    BlockTree.ops, List.map_append, List.map_map, List.flatMap_map]
  congr 1
  by_cases hb : id = b
  · simp only [hb, if_true, List.map_nil]
  · simp only [hb, if_false, List.map_flatMap]
    refine List.flatMap_congr fun c hc => ?_
    have hc' := hresults hc
    obtain ⟨cid, op, regions⟩ := c
    simp only [Function.comp_apply, OpTree.recast_node, OpTree.rename_node, OpTree.op, Op.rename]
    exact congrArg (List.map s) hc'

mutual

theorem scopeErrorsOps_recast {visible : List ValueId} : ∀ l : List OpTree,
    (∀ o ∈ l.flatMap OpTree.preorder, SameValues f o) → ctx.scopeErrorsOps visible l = .ok [] →
      cur.scopeErrorsOps (visible.map s) (l.map fun t => (t.recast f g).rename i s) = .ok []
  | [], _, _ => rfl
  | .node id op regions :: rest, hf, h => by
    obtain ⟨hown, hnested, hlater⟩ := scopeErrorsOps_cons_iff.mp h
    simp only [List.flatMap_cons, OpTree.preorder_node, List.forall_mem_append,
      List.forall_mem_cons] at hf
    obtain ⟨⟨⟨hoperands, hresults⟩, hinner⟩, hafter⟩ := hf
    rw [List.map_cons, OpTree.recast_node, OpTree.rename_node]
    refine scopeErrorsOps_cons_iff.mpr ⟨?_, ?_, ?_⟩
    · simp only [OpTree.op, Op.rename, hoperands, List.forall_mem_map]
      exact fun v hv => List.mem_map_of_mem (hown v hv)
    · simp only [OpTree.regions]
      split
      · rfl
      · rw [List.map_map]
        exact scopeErrorsRegions_recast regions hinner hnested
    · have hnew : ((f id op).rename s).results = op.results.map s := congrArg (List.map s) hresults
      rw [OpTree.op, hnew, ← List.map_append]
      exact scopeErrorsOps_recast rest hafter hlater

theorem scopeErrorsRegions_recast {visible : List ValueId} : ∀ l : List RegionTree,
    (∀ o ∈ l.flatMap RegionTree.preorder, SameValues f o) →
      ctx.scopeErrorsRegions visible l = .ok [] →
      cur.scopeErrorsRegions (visible.map s) (l.map fun t => (t.recast f g).rename i s) = .ok []
  | [], _, _ => rfl
  | t :: rest, hf, h => by
    rw [scopeErrorsRegions_iff, List.forall_mem_cons, ← scopeErrorsRegions_iff] at h
    rw [List.flatMap_cons, List.forall_mem_append] at hf
    rw [List.map_cons, scopeErrorsRegions_iff, List.forall_mem_cons, ← scopeErrorsRegions_iff]
    exact ⟨scopeErrors_recast t hf.1 h.1, scopeErrorsRegions_recast rest hf.2 h.2⟩

/-- What is in scope stays so if the visible values are renamed with the operands. -/
theorem scopeErrors_recast {outer : List ValueId} : ∀ t : RegionTree,
    (∀ o ∈ t.preorder, SameValues f o) → ctx.scopeErrors outer t = .ok [] →
      cur.scopeErrors (outer.map s) ((t.recast f g).rename i s) = .ok []
  | .node id blocks, hf, h => by
    rw [RegionTree.preorder_node] at hf
    rw [RegionTree.recast_node, RegionTree.rename_node, List.map_map]
    exact scopeErrorsBlocks_recast hf blocks hf h

theorem scopeErrorsBlocks_recast {outer : List ValueId} {siblings : List BlockTree}
    (hsiblings : ∀ o ∈ siblings.flatMap BlockTree.preorder, SameValues f o) :
    ∀ l : List BlockTree, (∀ o ∈ l.flatMap BlockTree.preorder, SameValues f o) →
      ctx.scopeErrorsBlocks outer siblings l = .ok [] →
      cur.scopeErrorsBlocks (outer.map s) (siblings.map fun t => (t.recast f g).rename i s)
        (l.map fun t => (t.recast f g).rename i s) = .ok []
  | [], _, _ => rfl
  | .node b args ops :: rest, hf, h => by
    rw [scopeErrorsBlocks_iff, List.forall_mem_cons, ← scopeErrorsBlocks_iff] at h
    rw [List.flatMap_cons, List.forall_mem_append, BlockTree.preorder_node] at hf
    rw [List.map_cons, scopeErrorsBlocks_iff, List.forall_mem_cons, ← scopeErrorsBlocks_iff]
    refine ⟨?_, scopeErrorsBlocks_recast hsiblings rest hf.2 h.2⟩
    rw [BlockTree.recast_node, BlockTree.rename_node, BlockTree.ops, BlockTree.id,
      siblingValues_recast b hsiblings, ← List.map_append, List.map_map]
    exact scopeErrorsOps_recast ops hf.1 h.1

end

end Recast

/-- The operations of a region in which `x` became `new`. -/
def putting (x : OpId) (new : Op) (o : OpId) (old : Op) : Op :=
  if o = x then new else old

variable {ctx cur : Context} {t : RegionTree} {x : OpId} {op : Op}

/-- A region whose operands are recorded, and in scope. -/
structure Scoped (ctx : Context) (t : RegionTree) : Prop where
  sound : ctx.Sound
  held : t.HeldBy ctx
  recorded {o : OpId} : o ∈ t.opIds → ctx.Recorded o
  inScope : ctx.scopeErrors [] t = .ok []

namespace Scoped

theorem recast {f : OpId → Op → Op} {g : Ty → Ty} {i : OpId → OpId} {s : ValueId → ValueId}
    (h : ctx.Scoped t) (hs : cur.Sound) (hr : ctx.Recasts cur t f g i s)
    (hf : ∀ o ∈ t.preorder, SameValues f o) (hrec : ∀ o ∈ t.opIds, cur.Recorded (i o)) :
    cur.Scoped ((t.recast f g).rename i s) := by
  refine ⟨hs, hr.heldBy h.held, fun {o} ho => ?_, scopeErrors_recast t hf h.inScope⟩
  rw [RegionTree.opIds, RegionTree.preorder_rename, List.map_map, List.mem_map] at ho
  obtain ⟨p, hp, rfl⟩ := ho
  exact hrec p.1 (RegionTree.opIds_recast_subset (List.mem_map_of_mem hp))

/-- An operation that is changed in place and keeps its values leaves all in scope. -/
theorem changesOp {new : Op} (h : ctx.Scoped t) (hx : ctx.op? x = some op)
    (hch : ctx.ChangesOp cur x new) (hoperands : new.operands = op.operands)
    (hresults : new.results = op.results) (hregions : new.regions = op.regions) :
    ∃ t' : RegionTree, t'.id = t.id ∧ cur.Scoped t' := by
  have hf {o : OpId} {old : Op} (ho : (o, old) ∈ t.preorder) : cur.op? o = some (putting x new o old) ∧
      (putting x new o old).operands = old.operands ∧ (putting x new o old).results = old.results ∧
      (putting x new o old).regions = old.regions := by
    have hold := h.held.op?_of_mem ho
    by_cases he : o = x
    · obtain rfl := Option.some.inj (hx.symm.trans (he ▸ hold))
      simp [putting, he, hch.op?, hoperands, hresults, hregions]
    · simp [putting, he, hch.op?, hold]
  have hr : ctx.Recasts cur t (putting x new) id id id := by
    refine ⟨fun ho => ?_, fun ho => .inr (hf ho).2.2.2, hch.region?, fun {b} hb => ?_,
      fun {b a} hb ha => ?_⟩
    · simpa [Op.rename] using (hf ho).1
    · obtain ⟨block, hblk, hargs, hops, -⟩ := (h.held.block hb).exists_block
      exact ⟨block, (hch.block? _).trans hblk, hargs, hops⟩
    · obtain ⟨block, hblk, hargs, -, hvals⟩ := (h.held.block hb).exists_block
      obtain ⟨value, hval, hty⟩ := hvals a ha
      have hnot : a.1 ∉ new.results :=
        hresults ▸ h.sound.typed.arg_not_result hx hblk (hargs ▸ List.mem_map_of_mem ha)
      exact ⟨value, (hch.value? hnot).trans hval, hty⟩
  refine ⟨_, (RegionTree.id_rename _).trans t.id_recast,
    h.recast hch.sound hr (fun o ho => ⟨(hf ho).2.1, (hf ho).2.2.1⟩) fun o ho => ?_⟩
  have hold := h.held.mem_preorder_raw ho
  intro op' i v hop' hi
  obtain rfl := Option.some.inj ((hf hold).1.symm.trans hop')
  rw [hch.ledger]
  exact h.recorded ho _ i v (h.held.op?_raw ho) ((hf hold).2.1 ▸ hi)

theorem retypesArgs {c : Converter} (h : ctx.Scoped t) (hr : RetypesArgs c ctx cur t.blockIds) :
    ∃ t' : RegionTree, t'.id = t.id ∧ cur.Scoped t' := by
  have hrecast : ctx.Recasts cur t (fun _ op => op) c.convertOrKeep id id := by
    refine ⟨fun ho => ?_, fun _ => .inr rfl, hr.region?, fun {b} hb => ?_, fun {b a} hb ha => ?_⟩
    · simpa [Op.rename] using (hr.op? _).trans (h.held.op?_of_mem ho)
    all_goals
      have hid := RegionTree.HeldBy.mem_blockIds_iff.mpr ⟨_, hb, rfl⟩
      obtain ⟨block, hblk, hargs, hops, hvals⟩ := (h.held.block hb).exists_block
      have hblk' := hr.block? b.id
      rw [if_pos hid, hblk, Option.map_some] at hblk'
    · exact ⟨_, hblk', hargs, hops⟩
    · obtain ⟨i, hi⟩ := List.mem_iff_getElem?.mp (hargs ▸ List.mem_map_of_mem ha)
      obtain ⟨ty, hty, hval⟩ := h.sound.typed.argument hblk hi
      obtain ⟨ty', hty', hval'⟩ := hr.sound.typed.argument hblk' hi
      obtain ⟨value, hval₀, hvalue⟩ := hvals a ha
      obtain rfl := Option.some.inj (hval.symm.trans hval₀)
      rw [Block.retypedBy, List.getElem?_map, hty, Option.map_some] at hty'
      exact ⟨_, hval', by rw [← hvalue]; exact (Option.some.inj hty').symm⟩
  refine ⟨_, (RegionTree.id_rename _).trans t.id_recast,
    h.recast hr.sound hrecast (fun o _ => ⟨rfl, rfl⟩) fun o ho => ?_⟩
  intro op i v hop hi
  rw [hr.ledger]
  exact h.recorded ho op i v ((hr.op? o).symm.trans hop) hi

section Replaced

variable {spec : OpSpec} {ty : Ty} {b : BlockId} {v w : ValueId} {n : OpId} (h : ctx.Scoped t)
  (hx : ctx.op? x = some op) (hparent : op.parent = some b) (hspec : spec.Supersedes op ty v)
  (hr : ctx.Replaces spec ty b x v cur n w)

include h hx hspec in
theorem values_putting {o : OpId} {old : Op} (ho : (o, old) ∈ t.preorder) :
    (putting x (spec.inPlaceOf op) o old).operands = old.operands ∧
      (putting x (spec.inPlaceOf op) o old).results = old.results := by
  by_cases he : o = x
  · obtain rfl := Option.some.inj ((h.held.op?_of_mem ho).symm.trans (he ▸ hx))
    simp [putting, OpSpec.inPlaceOf, he, OpSpec.toOp, hspec.operands]
  · simp [putting, he]

include h hx hparent hspec hr in
theorem op?_replaced {o : OpId} {old : Op} (ho : (o, old) ∈ t.preorder) :
    cur.op? (swap x n o) = some ((putting x (spec.inPlaceOf op) o old).rename (swap v w)) := by
  have hold := h.held.op?_of_mem ho
  by_cases he : o = x
  · rw [he, swap_self, hr.op?_new]
    simp [putting, OpSpec.inPlaceOf, Op.rename, OpSpec.toOp, hspec.operands, hspec.results, hparent]
  · have hresults : old.results.map (swap v w) = old.results := by
      refine (List.map_congr_left fun a ha => ?_).trans (List.map_id _)
      refine swap_of_ne fun hav => he ?_
      exact h.sound.typed.result_unique hold hx (hav ▸ ha) (by simp [hspec.results])
    rw [swap_of_ne he, hr.op?_recorded he hold (h.recorded (List.mem_map_of_mem ho))]
    simp [putting, he, Op.rename, hresults]

include h hx hparent hspec hr in
theorem recasts_replaced :
    ctx.Recasts cur t (putting x (spec.inPlaceOf op)) id (swap x n) (swap v w) := by
  refine ⟨h.op?_replaced hx hparent hspec hr, fun {o old} ho => ?_, hr.region?,
    fun {c} hc => ?_, fun {c a} hc ha => ?_⟩
  · by_cases he : o = x
    · simp [putting, OpSpec.inPlaceOf, he, OpSpec.toOp, hspec.regions]
    · simp [putting, he]
  all_goals
    obtain ⟨block, hblk, hargs, hops, hvals⟩ := (h.held.block hc).exists_block
    have harg {a : ValueId} (ha : a ∈ block.args) : swap v w a = a :=
      swap_of_ne fun he =>
        h.sound.typed.arg_not_result hx hblk (he ▸ ha) (by simp [hspec.results])
  · have hops' : block.ops.map (swap x n) = c.ops.map fun o => swap x n o.id := by
      rw [hops, List.map_map]
      rfl
    have hargs' : block.args = c.args.map fun a => swap v w a.1 := by
      have hmap : block.args.map (swap v w) = block.args :=
        (List.map_congr_left fun a ha => harg ha).trans (List.map_id _)
      rw [← hmap, hargs, List.map_map]
      rfl
    by_cases he : c.id = b
    · refine ⟨{ block with ops := block.ops.map (swap x n) }, ?_, hargs', hops'⟩
      rw [hr.block?, if_pos he, hblk, Option.map_some]
    · refine ⟨block, by rw [hr.block?, if_neg he, hblk], hargs', ?_⟩
      rw [← hops']
      refine ((List.map_congr_left fun o ho => swap_of_ne fun hox => he ?_).trans
        (List.map_id _)).symm
      obtain rfl : o = x := hox
      obtain ⟨op', hop', hp'⟩ := h.sound.linked.op_of_listed hblk ho
      obtain rfl := Option.some.inj (hx.symm.trans hop')
      exact Option.some.inj (hp'.symm.trans hparent)
  · obtain ⟨value, hval, hty⟩ := hvals a ha
    have hne : a.1 ≠ w := by
      rintro he
      rw [he, hr.freshValue] at hval
      simp at hval
    rw [harg (hargs ▸ List.mem_map_of_mem ha)]
    exact ⟨value, by rw [hr.value?, if_neg hne, hval], hty⟩

include h hx hparent hspec hr in
theorem recorded_replaced {o : OpId} (ho : o ∈ t.opIds) : cur.Recorded (swap x n o) := by
  have hold := h.held.mem_preorder_raw ho
  intro op' i a hop' hi
  obtain rfl := Option.some.inj ((h.op?_replaced hx hparent hspec hr hold).symm.trans hop')
  simp only [Op.rename, (h.values_putting hx hspec hold).1, List.getElem?_map,
    Option.map_eq_some_iff] at hi
  obtain ⟨a₀, hi, rfl⟩ := hi
  rw [hr.mem_ledger]
  by_cases he : o = x
  · subst he
    have hne : n ≠ o := by
      rintro rfl
      have hfresh := hr.fresh
      simp [hx] at hfresh
    rw [raw_of_some hx] at hi
    exact ⟨by simpa using hne, a₀, rfl, .inr ⟨by simp, by simpa [hspec.operands] using hi⟩⟩
  · have hne : (⟨swap x n o, i⟩ : Use).user ≠ x := by simpa [swap_of_ne he] using he
    refine ⟨hne, a₀, rfl, .inl ?_⟩
    rw [swap_of_ne he]
    exact h.recorded ho _ i a₀ (h.held.op?_raw ho) hi

include h hx hparent hspec hr in
theorem replaces : ∃ t' : RegionTree, t'.id = t.id ∧ cur.Scoped t' :=
  ⟨_, (RegionTree.id_rename _).trans t.id_recast,
    h.recast hr.sound (h.recasts_replaced hx hparent hspec hr)
      (fun _ ho => h.values_putting hx hspec ho) fun _ ho => h.recorded_replaced hx hparent hspec hr ho⟩

end Replaced

theorem effect {r r' : Run} (h : r.ctx.Scoped t) (hx : r.ctx.op? x = some op)
    (he : TupleLowering.Effect r x op r') : ∃ t' : RegionTree, t'.id = t.id ∧ r'.ctx.Scoped t' := by
  cases he with
  | idle _ hr' => exact ⟨t, rfl, by rw [hr']; exact h⟩
  | retyped _ _ hch _ => exact h.changesOp hx hch rfl rfl rfl
  | replaced _ hparent hspec hr _ _ => exact h.replaces hx hparent hspec hr

theorem validateScopes {m : OpId} (h : ctx.Scoped t) (hbody : ctx.body m = .ok (some t.id)) :
    ctx.validateScopes m = .ok {} := by
  simp only [Context.validateScopes, hbody, except_ok_bind, regionTree_eq_ok_iff.mpr ⟨rfl, h.held⟩,
    h.inScope]
  rfl

end Scoped

theorem scoped_of_validate {tree : OpTree} (hs : ctx.Sound) (htree : tree.HeldBy ctx)
    (hbody : tree.regions.head? = some t) {report : Report}
    (hvalid : ctx.validate tree.id = .ok report) (hpassed : report.passed) : ctx.Scoped t :=
  ⟨hs, htree.region (List.mem_of_mem_head? hbody),
    fun ho => (wired_of_validate hs htree hbody hvalid hpassed ho).recorded,
    (errors_of_validate htree hbody hvalid hpassed).1⟩

end Context

namespace Engine

variable {e : Engine} {ctx ctx' : Context} {m : OpId} {t : RegionTree} {r : Run}

/-- The runs in the course of a conversion: all arguments are retyped, and some steps are done. -/
def PassesThrough (e : Engine) (ctx : Context) (m : OpId) (r : Run) : Prop :=
  ∃ body t ctx₁ count limit ending, ctx.body m = .ok (some body) ∧ ctx.regionTree body = .ok t ∧
    t.blockIds.foldlM (retypeArgs e.converter) (ctx, 0) = .ok (ctx₁, count) ∧
    e.run (e.maxRewrites.getD t.opIds.length) limit
      { ctx := ctx₁, work := .ofList t.opIds, retyped := count } = .ok (r, ending)

theorem PassesThrough.exists_run (h : e.PassesThrough ctx m r) (hc : e.converter.Settles)
    (hb : ctx.BodyOf m t) :
    ∃ ctx₁ count limit ending, ctx.RetypesArgs e.converter ctx₁ t.blockIds ∧
      e.run (e.maxRewrites.getD t.opIds.length) limit
        { ctx := ctx₁, work := .ofList t.opIds, retyped := count } = .ok (r, ending) := by
  obtain ⟨body, tree, ctx₁, count, limit, ending, hbody, htree, hargs, hrun⟩ := h
  obtain rfl := Option.some.inj (Except.ok.inj (hb.region.symm.trans hbody))
  obtain rfl := Except.ok.inj ((Context.regionTree_eq_ok_iff.mpr ⟨rfl, hb.held⟩).symm.trans htree)
  have hblocks : ∀ b ∈ t.blockIds, ∃ block, ctx.block? b = some block := by
    intro b hm
    obtain ⟨s, hs, rfl⟩ := RegionTree.HeldBy.mem_blockIds_iff.mp hm
    obtain ⟨block, hblk, -⟩ := (hb.held.block hs).exists_block
    exact ⟨block, hblk⟩
  obtain ⟨ctx₂, count', hargs', hret⟩ := Context.retypeArgs_blocks hc hb.sound hblocks 0
  obtain ⟨rfl, rfl⟩ := Prod.mk.inj (Except.ok.inj (hargs.symm.trans hargs'))
  exact ⟨ctx₁, count, limit, ending, hret, hrun⟩

theorem exists_passesThrough {body : RegionId} {result : Result}
    (hbody : ctx.body m = .ok (some body)) (h : e.convert ctx m = .ok (ctx', result)) :
    ∃ r, e.PassesThrough ctx m r ∧ r.ctx = ctx' := by
  rw [convert] at h
  obtain ⟨_, hbody', h₁⟩ := except_bind_eq_ok.mp h
  obtain rfl := Except.ok.inj (hbody.symm.trans hbody')
  obtain ⟨t, htree, h₂⟩ := except_bind_eq_ok.mp h₁
  obtain ⟨⟨ctx₁, count⟩, hargs, h₃⟩ := except_bind_eq_ok.mp h₂
  obtain ⟨⟨r, ending⟩, hrun, h₄⟩ := except_bind_eq_ok.mp h₃
  obtain ⟨declines, -, h₅⟩ := except_bind_eq_ok.mp h₄
  obtain ⟨rfl, -⟩ := Prod.mk.inj (except_pure_eq_ok.mp h₅)
  exact ⟨r, ⟨body, t, ctx₁, count, _, ending, hbody, htree, hargs, hrun⟩, rfl⟩

end Engine

namespace TupleLowering

variable {ctx : Context} {m : OpId} {t : RegionTree} {r : Run}

/-- What holds of a body in which everything is in scope holds in the course of a conversion. -/
theorem scoped_of_passesThrough (h : engine.PassesThrough ctx m r) (hb : ctx.BodyOf m t)
    (hscoped : ctx.Scoped t) :
    ∃ t' : RegionTree, r.ctx.body m = .ok (some t'.id) ∧ r.ctx.Scoped t' := by
  have he := static_engine
  obtain ⟨ctx₁, count, limit, ending, hret, hrun⟩ := h.exists_run he.settles hb
  obtain ⟨t₁, hid₁, hscoped₁⟩ := hscoped.retypesArgs hret
  have hstep (r r' : Run) (hr : r.work.Ready ∧ ctx.Keeps r.ctx ∧
      ∃ t' : RegionTree, t'.id = t.id ∧ r.ctx.Scoped t')
      (h : engine.step (engine.maxRewrites.getD t.opIds.length) r = .ok (r', none)) :
      r'.work.Ready ∧ ctx.Keeps r'.ctx ∧ ∃ t' : RegionTree, t'.id = t.id ∧ r'.ctx.Scoped t' := by
    obtain ⟨hready, hkeeps, t', hid, hscoped⟩ := hr
    obtain ⟨x, work, -, hadvances⟩ := Engine.step_advances he.patterns hscoped.sound hready h
    rcases step_cases hscoped.sound h with
      ⟨-, -, hnone⟩ | ⟨x, work, op, -, hx, ⟨hnone, -⟩ | ⟨-, rfl | heffect⟩⟩
    · simp at hnone
    · simp at hnone
    · exact ⟨hadvances.ready, hkeeps, t', hid, hscoped⟩
    · obtain ⟨t'', hid', hscoped'⟩ := Context.Scoped.effect (r := { r with work }) hscoped hx heffect
      exact ⟨hadvances.ready, hkeeps.trans hadvances.spares.keeps, t'', hid'.trans hid, hscoped'⟩
  obtain ⟨r₁, work, ⟨-, hkeeps, t', hid, hscoped'⟩, rfl, -⟩ := Engine.run_invariant hstep
    ⟨Worklist.ready_ofList hb.nodup, hret.keeps, t₁, hid₁, hscoped₁⟩ hrun
  exact ⟨t', hid ▸ hkeeps.body hb.region, hscoped'⟩

/-- A lowering never takes anything out of scope, whether it ends, fails or is still under way. -/
theorem inScope_of_validate (hreach : ctx.Reachable) {tree : OpTree} (htree : ctx.opTree m = .ok tree)
    {report : Report} (hvalid : ctx.validate m = .ok report) (hpassed : report.passed) :
    (∀ verify answer ctx', run ctx m verify = .ok (answer, ctx') →
      ctx'.validateScopes m = .ok {}) ∧
    ∀ r, engine.PassesThrough ctx m r → r.ctx.validateScopes m = .ok {} := by
  obtain ⟨rfl, hheld⟩ := Context.opTree_eq_ok_iff.mp htree
  have hs := hreach.sound
  have hunderway (r : Run) (hr : engine.PassesThrough ctx tree.id r) :
      r.ctx.validateScopes tree.id = .ok {} := by
    obtain ⟨body, -, -, -, -, -, hbody, -⟩ := id hr
    obtain ⟨t, hhead, rfl⟩ : ∃ t, tree.regions.head? = some t ∧ t.id = body := by
      simpa [hheld.body] using hbody
    obtain ⟨t', hbody', hscoped⟩ := scoped_of_passesThrough hr (Context.bodyOf_of_head hs hheld hhead)
      (Context.scoped_of_validate hs hheld hhead hvalid hpassed)
    exact hscoped.validateScopes hbody'
  refine ⟨fun verify answer ctx' hrun => ?_, hunderway⟩
  rcases run_eq_ok_iff.mp hrun with ⟨hbody, rfl, -⟩ | ⟨body, result, -, -, hbody, hconvert, -⟩
  · simp only [Context.validateScopes, hbody, except_ok_bind]
    rfl
  · obtain ⟨r, hr, rfl⟩ := Engine.exists_passesThrough hbody hconvert
    exact hunderway r hr

/-- Two extractions in a nested region, from a tuple in front of it. The second asks for too much. -/
def reachingEdits : List Edit :=
  let nowhere : Location := ⟨"", ⟨0, 0⟩⟩
  let i32 : Ty := .mk "core" "i32" [] []
  let extract (index : UInt64) : OpSpec :=
    { location := nowhere, dialect := "adt", name := "tuple_get", operands := [⟨1⟩]
      resultTypes := [i32], attrs := [("index", .int index)] }
  [.createOp { location := nowhere, dialect := "t", name := "t", resultTypes := [i32] },
    .createOp
      { location := nowhere, dialect := "adt", name := "tuple_new", operands := [⟨0⟩]
        resultTypes := [.tuple [i32]] },
    .createOp (extract 0),
    .createOp { location := nowhere, dialect := "t", name := "u", operands := [⟨2⟩] },
    .createOp (extract 1),
    .createBlock [], .pushOp ⟨0⟩ ⟨2⟩, .pushOp ⟨0⟩ ⟨3⟩, .pushOp ⟨0⟩ ⟨4⟩, .createRegion [⟨0⟩],
    .createOp { location := nowhere, dialect := "t", name := "r", regions := [⟨0⟩] },
    .createBlock [], .pushOp ⟨1⟩ ⟨0⟩, .pushOp ⟨1⟩ ⟨1⟩, .pushOp ⟨1⟩ ⟨5⟩, .createRegion [⟨1⟩],
    .createOp
      { location := nowhere, dialect := "core", name := "module", regions := [⟨1⟩]
        attrs := [("sym_name", .symbol "m")] }]

theorem inScope_of_validate_reaching : ∃ ctx tree report e ctx' r,
    Context.ofEdits reachingEdits = .ok ctx ∧ ctx.Reachable ∧ ctx.opTree ⟨6⟩ = .ok tree ∧
    ctx.validate ⟨6⟩ = .ok report ∧ report.passed ∧ run ctx ⟨6⟩ true = .ok (.error e, ctx') ∧
    ctx'.validateScopes ⟨6⟩ = .ok {} ∧ engine.PassesThrough ctx ⟨6⟩ r ∧ r.rewrites = 2 ∧
    r.work.queue ≠ [] ∧ r.ctx.validateScopes ⟨6⟩ = .ok {} := by
  have hcheck : (Context.ofEdits reachingEdits).toOption.any fun ctx =>
      (ctx.opTree ⟨6⟩).toOption.any fun _ => (ctx.body ⟨6⟩).toOption.any fun body =>
        (ctx.regionTree ⟨1⟩).toOption.any fun t => (ctx.validate ⟨6⟩).toOption.any fun report =>
          (run ctx ⟨6⟩ true).toOption.any fun last =>
            (t.blockIds.foldlM (Engine.retypeArgs engine.converter) (ctx, 0)).toOption.any fun start =>
              (engine.run (engine.maxRewrites.getD t.opIds.length) 5
                { ctx := start.1, work := .ofList t.opIds, retyped := start.2 }).toOption.any
                fun part => decide (body = some ⟨1⟩) && report.passed && last.1.toOption.isNone &&
                  decide (part.1.rewrites = 2 ∧ part.1.work.queue ≠ []) := by
    decide +kernel
  obtain ⟨ctx, hctx, hcheck⟩ := except_any_iff.mp hcheck
  obtain ⟨tree, htree, hcheck⟩ := except_any_iff.mp hcheck
  obtain ⟨body, hbody, hcheck⟩ := except_any_iff.mp hcheck
  obtain ⟨t, ht, hcheck⟩ := except_any_iff.mp hcheck
  obtain ⟨report, hvalid, hcheck⟩ := except_any_iff.mp hcheck
  obtain ⟨⟨answer, ctx'⟩, hrun, hcheck⟩ := except_any_iff.mp hcheck
  obtain ⟨⟨ctx₁, count⟩, hargs, hcheck⟩ := except_any_iff.mp hcheck
  obtain ⟨⟨r, ending⟩, hpart, hcheck⟩ := except_any_iff.mp hcheck
  simp only [Bool.and_eq_true, decide_eq_true_eq] at hcheck
  obtain ⟨⟨⟨rfl, hpassed⟩, hanswer⟩, hrewrites, hqueue⟩ := hcheck
  obtain ⟨e, rfl⟩ := except_isNone_iff.mp hanswer
  have hr : ctx.Reachable :=
    Context.reachable_iff_exists_edits.mpr ⟨reachingEdits, by decide +kernel, hctx⟩
  have hthrough : engine.PassesThrough ctx ⟨6⟩ r :=
    ⟨⟨1⟩, t, ctx₁, count, 5, ending, hbody, ht, hargs, hpart⟩
  obtain ⟨hlast, hunderway⟩ := inScope_of_validate hr htree hvalid hpassed
  exact ⟨ctx, tree, report, e, ctx', r, hctx, hr, htree, hvalid, hpassed, hrun, hlast _ _ _ hrun,
    hthrough, hrewrites, hqueue, hunderway r hthrough⟩

end TupleLowering

end RegionIR
