import RegionIR.Proofs.Lowering.Following
import RegionIR.Proofs.Lowering.Result

/-! Lowerings that take the same course.

Two contexts may show a region alike and have nothing else in common. The account of the region is
the same in both, and with it what is left in the end, what is counted, and whether the lowering is
a success. -/

namespace RegionIR

namespace Account

variable {base : Context} {t : RegionTree} {a a' : Account}

/-- What is left of the region: lowered operations have no regions any more. -/
def tree (a : Account) (t : RegionTree) : RegionTree :=
  t.recast (fun o _ => a.forms o) Ty.lowered

/-- Nothing illegal is left behind, and if this is asked for, the values that are left have no users
elsewhere. -/
structure Succeeds (base : Context) (t : RegionTree) (verify : Bool) (a : Account) : Prop where
  legal : ∀ o ∈ (a.tree t).opIds, (a.forms o).Legal (base.typeUnder a.forms)
  enclosed : verify = true → ∀ o ∈ t.opIds, ∀ v ∈ (a.forms o).operands,
    v ∈ Context.definedValues (a.tree t) → o ∈ (a.tree t).opIds

/-- The account has come to an end of its own. -/
def IsFinal (base : Context) (t : RegionTree) (a : Account) : Prop :=
  ∃ ctx count limit ending, t.blockIds.foldlM (Engine.retypeArgs .tuples) (base, 0) = .ok (ctx, count) ∧
    (start base t count).run base t.opIds.length limit = (a, ending) ∧ ending ≠ .outOfSteps

theorem IsFinal.unique (h : IsFinal base t a) (h' : IsFinal base t a') : a = a' := by
  obtain ⟨ctx, count, limit, ending, hargs, hrun, hne⟩ := h
  obtain ⟨ctx', count', limit', ending', hargs', hrun', hne'⟩ := h'
  obtain ⟨rfl, rfl⟩ := Prod.mk.inj (Except.ok.inj (hargs.symm.trans hargs'))
  have hsame := run_of_ended (by rw [hrun]; exact hne) (by rw [hrun']; exact hne')
  rw [hrun, hrun'] at hsame
  exact (Prod.mk.inj hsame).1

end Account

namespace Context

variable {base ctx cur : Context} {t : RegionTree} {forms : OpId → Op} {image : OpId → OpId}
  {subst : ValueId → ValueId}

/-- The contexts show the region alike, with the uses of its values. -/
structure SameOn (base ctx : Context) (t : RegionTree) : Prop where
  op? {o : OpId} : o ∈ t.opIds → ctx.op? o = base.op? o
  block? {b : BlockId} : b ∈ t.blockIds → ctx.block? b = base.block? b
  value? {v : ValueId} : v ∈ definedValues t → ctx.value? v = base.value? v
  uses {v : ValueId} : v ∈ definedValues t → ctx.uses v = base.uses v

theorem SameOn.refl (base : Context) (t : RegionTree) : base.SameOn base t :=
  ⟨fun _ => rfl, fun _ => rfl, fun _ => rfl, fun _ => rfl⟩

theorem SameOn.raw (h : base.SameOn ctx t) {o : OpId} (ho : o ∈ t.opIds) : ctx.raw o = base.raw o := by
  rw [Context.raw, h.op? ho, Context.raw]

theorem Refines.congr {forms' : OpId → Op} (h : ctx.Refines t forms cur image subst)
    (hforms : ∀ o ∈ t.opIds, forms' o = forms o) : ctx.Refines t forms' cur image subst :=
  { h with
    op? := fun ho => by rw [hforms _ ho, h.op? ho]
    operands := fun ho => by rw [hforms _ ho, h.operands ho]
    results := fun ho => by rw [hforms _ ho, h.results ho]
    parent := fun ho => by rw [hforms _ ho, h.parent ho] }

theorem definedValues_rename (t : RegionTree) (image : OpId → OpId) (subst : ValueId → ValueId) :
    definedValues (t.rename image subst) = (definedValues t).map subst := by
  rw [definedValues, definedValues, RegionTree.allBlocks_rename, RegionTree.preorder_rename,
    List.map_append, List.flatMap_map, List.flatMap_map, List.map_flatMap, List.map_flatMap]
  congr 1
  refine List.flatMap_congr fun b _ => ?_
  obtain ⟨id, args, ops⟩ := b
  simp [BlockTree.args]

theorem Refines.defined_of_recast (hc : ctx.Confined t) (h : ctx.Refines t forms cur image subst)
    {v : ValueId} (hv : v ∈ definedValues (t.recast (fun o _ => forms o) Ty.lowered)) :
    v ∈ definedValues t := by
  rcases mem_definedValues.mp hv with ⟨b, hb, ha⟩ | ⟨⟨o, op⟩, ho, hr⟩
  · obtain ⟨⟨id, args, ops⟩, hmem, rfl⟩ := RegionTree.mem_allBlocks_recast hb
    refine mem_definedValues.mpr (.inl ⟨_, hmem, ?_⟩)
    simpa [BlockTree.args] using ha
  · obtain ⟨op, hm, rfl⟩ := RegionTree.mem_preorder_recast ho
    exact h.result_defined hc (List.mem_map_of_mem hm) hr

/-- The ledger is in order for what is left of the region if no operation that is gone uses any of
it. No use is missing from it, but a recorded user of a value that stays may have been lost. -/
theorem Refines.useErrors_eq_nil_iff (hc : ctx.Confined t)
    (h : ctx.Refines t forms cur image subst) :
    cur.useErrors ((t.recast (fun o _ => forms o) Ty.lowered).rename image subst) = .ok [] ↔
      ∀ o ∈ t.opIds, ∀ v ∈ (forms o).operands,
        v ∈ definedValues (t.recast (fun o _ => forms o) Ty.lowered) →
          o ∈ (t.recast (fun o _ => forms o) Ty.lowered).opIds := by
  have hpreorder {x : OpId} {op : Op} : (x, op) ∈
      ((t.recast (fun o _ => forms o) Ty.lowered).rename image subst).preorder ↔
      ∃ o ∈ (t.recast (fun o _ => forms o) Ty.lowered).opIds,
        x = image o ∧ op = (forms o).rename subst := by
    rw [RegionTree.preorder_rename, List.mem_map]
    constructor
    · rintro ⟨⟨o, op⟩, hm, he⟩
      obtain ⟨-, -, rfl⟩ := RegionTree.mem_preorder_recast hm
      obtain ⟨rfl, rfl⟩ := Prod.mk.inj he
      exact ⟨o, List.mem_map_of_mem hm, rfl, rfl⟩
    · rintro ⟨o, ho, rfl, rfl⟩
      obtain ⟨⟨o, op⟩, hm, rfl⟩ := List.mem_map.mp ho
      obtain ⟨-, -, rfl⟩ := RegionTree.mem_preorder_recast hm
      exact ⟨_, hm, rfl⟩
  rw [Context.useErrors_eq_nil_iff]
  constructor
  · rintro ⟨-, hforeign⟩ o ho v hv hleft
    obtain ⟨i, hi⟩ := List.mem_iff_getElem?.mp hv
    have hi' : ((forms o).rename subst).operands[i]? = some (subst v) := by simp [Op.rename, hi]
    have hmem : subst v ∈ definedValues
        ((t.recast (fun o _ => forms o) Ty.lowered).rename image subst) := by
      rw [definedValues_rename]
      exact List.mem_map_of_mem hleft
    have huse := hforeign _ hmem _ (h.recorded ho _ i _ (h.op? ho) hi')
    obtain ⟨op, hop, -⟩ := mem_operandUses.mp huse
    obtain ⟨p, hp, he, -⟩ := hpreorder.mp hop
    rw [h.injective ho (RegionTree.opIds_recast_subset hp) he]
    exact hp
  · intro henclosed
    refine ⟨fun e he => ?_, fun x hx u hu => ?_⟩
    · obtain ⟨v, ⟨user, i⟩⟩ := e
      obtain ⟨op, hop, hi⟩ := mem_operandUses.mp he
      obtain ⟨o, ho, rfl, rfl⟩ := hpreorder.mp hop
      have hmem := RegionTree.opIds_recast_subset ho
      exact h.recorded hmem _ i v (h.op? hmem) hi
    · rw [definedValues_rename] at hx
      obtain ⟨v, hv, rfl⟩ := List.mem_map.mp hx
      have hdefined := h.defined_of_recast hc hv
      obtain ⟨o, ho, hou⟩ := h.closed hdefined hu
      obtain ⟨op, hop, hi⟩ := h.sound.ledgered.sound hu
      rw [hou, h.op? ho] at hop
      cases Option.some.inj hop
      have hi' := hi
      simp only [Op.rename, List.getElem?_map, Option.map_eq_some_iff] at hi'
      obtain ⟨w, hw, he⟩ := hi'
      have hwo := List.mem_of_getElem? hw
      obtain rfl := h.subst_injective hc (h.operand_defined hc ho hwo) hdefined he
      exact mem_operandUses.mpr ⟨_, hpreorder.mpr ⟨o, henclosed o ho w hwo hv, hou, rfl⟩, hi⟩

namespace Follows

variable {a : Account} {r : Run}

theorem start (hc : ctx.Confined t) (hsame : base.SameOn ctx t)
    (hret : RetypesArgs .tuples ctx cur t.blockIds) (count : Nat) :
    ctx.Follows t (.start base t count) { ctx := cur, work := .ofList t.opIds, retyped := count }
      id id := by
  have huses (v : ValueId) : cur.uses v = ctx.uses v := by
    rw [Context.uses, hret.ledger, Context.uses]
  have hraw {o : OpId} (ho : o ∈ t.opIds) : base.raw o = ctx.raw o := (hsame.raw ho).symm
  constructor
  case refines => exact (Refines.initial hc hret).congr fun o ho => hraw ho
  case leaves =>
    refine ⟨hret.value?, fun {v value} hv hval => ?_, fun _ _ => huses _⟩
    rw [hret.kept, hval]
    intro b hb block hblk hm
    obtain ⟨s, hs, rfl⟩ := RegionTree.HeldBy.mem_blockIds_iff.mp hb
    obtain ⟨hblk', hargs, -⟩ := hc.held.block hs
    simp only [BlockTree.id] at hblk
    obtain rfl := Option.some.inj (hblk.symm.trans hblk')
    exact hv (mem_definedValues.mpr (.inl ⟨_, hs, hargs ▸ hm⟩))
  case becomes =>
    intro o ho
    change (ctx.raw o).Becomes (base.raw o)
    rw [hraw ho]
    exact .same
  case stays => exact fun _ _ _ => rfl
  case moved => exact fun ho _ hne => absurd (congrArg Op.isTupleOp (hraw ho)) hne
  case ready => exact Worklist.ready_ofList hc.nodup
  case known => exact fun ho => ho
  case work => simp [Account.start, Worklist.map, Worklist.ofList]
  case users =>
    intro v hv
    rw [id, huses, hsame.uses hv, List.map_id]
    rfl
  case users_known =>
    intro v o hv ho
    obtain ⟨u, hu, rfl⟩ := List.mem_map.mp ho
    rw [← hsame.uses hv] at hu
    exact hc.users hv (mem_uses.mp hu)
  case rewrites => rfl
  case retyped => rfl

theorem regions (h : ctx.Follows t a r image subst) :
    ∀ o ∈ t.opIds, (a.forms o).regions = [] ∨ (a.forms o).regions = (ctx.raw o).regions := by
  intro o ho
  rw [(h.becomes ho).regions]
  split
  · exact .inl rfl
  · exact .inr rfl

theorem heldBy (hc : ctx.Confined t) (h : ctx.Follows t a r image subst) :
    ((a.tree t).rename image subst).HeldBy r.ctx :=
  h.refines.heldBy hc h.regions

theorem exists_report (hc : ctx.Confined t) (h : ctx.Follows t a r image subst) {m : OpId}
    (hbody : r.ctx.body m = .ok (some t.id)) (verify : Bool) : ∃ report : Report,
      (if verify then r.ctx.validateUses m else pure {}) = .ok report ∧
      (report.passed ↔ (verify = true → ∀ o ∈ t.opIds, ∀ v ∈ (a.forms o).operands,
        v ∈ definedValues (a.tree t) → o ∈ (a.tree t).opIds)) := by
  cases verify with
  | false => exact ⟨{}, rfl, by simp [Report.passed]⟩
  | true =>
    have hheld := h.heldBy hc
    have hid : t.id = ((a.tree t).rename image subst).id := by
      rw [RegionTree.id_rename, Account.tree, RegionTree.id_recast]
    obtain ⟨errors, herrors⟩ := exists_useErrors h.refines.sound.typed hheld
    refine ⟨{ useErrors := errors }, ?_, ?_⟩
    · simp only [if_true, validateUses, hbody, except_ok_bind,
        regionTree_eq_ok_iff.mpr ⟨hid.symm, hheld⟩, herrors]
      rfl
    · have huses := h.refines.useErrors_eq_nil_iff hc
      rw [← Account.tree, herrors, Except.ok.injEq] at huses
      simp only [Report.passed, List.isEmpty_nil, Bool.true_and, List.isEmpty_iff, huses,
        forall_const]

end Follows

/-- A module with the body `t` is lowered in `ctx`, and this is accounted for in `base`. -/
structure Concludes (base ctx : Context) (m : OpId) (t : RegionTree) (a : Account) (r : Run)
    (image : OpId → OpId) (subst : ValueId → ValueId) : Prop where
  final : a.IsFinal base t
  follows : ctx.Follows t a r image subst
  runs (verify : Bool) : ∃ answer, TupleLowering.run ctx m verify = .ok (answer, r.ctx) ∧
    ∀ stats, answer = .ok stats ↔ a.Succeeds base t verify ∧ stats = ⟨a.rewrites, a.retyped⟩

/-- Where the region is shown as in `base`, a module with this body can be lowered. -/
theorem exists_concludes (hbase : base.Confined t) (hc : ctx.Confined t) (hsame : base.SameOn ctx t)
    {m : OpId} {op : Op} (hm : ctx.op? m = some op) (hbody : op.regions.head? = some t.id)
    (hout : m ∉ t.opIds) : ∃ a r image subst, base.Concludes ctx m t a r image subst := by
  have hregion : ctx.body m = .ok (some t.id) := by
    simp [body, op_eq_ok.mpr hm, hbody, pure, Except.pure]
  have htree : ctx.regionTree t.id = .ok t := regionTree_eq_ok_iff.mpr ⟨rfl, hc.held⟩
  obtain ⟨ctx₀, count₀, -, -, -, -, -, hargs₀, -⟩ := exists_finishes hbase
  obtain ⟨ctx₁, count, r, ending, _, _, _, hargs, hret, hrun, -, hf⟩ := exists_finishes hc
  obtain rfl : count = count₀ :=
    retypeArgs_count hbase.sound hc.sound (fun b hb => hsame.block? hb) hargs₀ hargs
  have hended : ending ≠ .outOfSteps := by
    rintro rfl
    cases hf.ending
  obtain ⟨declines, hdeclines⟩ := hf.attachedDeclines
  have hconvert := Engine.convert_of_run (e := TupleLowering.engine) hregion htree hargs hrun hdeclines
  obtain ⟨hending, image, subst, h⟩ :=
    (Follows.start hc hsame hret count).run hc (fun v hv => (hsame.value? hv).symm) hrun
  generalize hlast : (Account.start base t count).run base t.opIds.length
    (Engine.stepLimit ctx₁ t.opIds.length) = last at hending h
  obtain ⟨a, ending'⟩ := last
  obtain rfl : ending = ending' := hending
  have hregion' : r.ctx.body m = .ok (some t.id) := by
    simp [body, op_eq_ok.mpr (h.refines.outside hout hm), hbody, pure, Except.pure]
  obtain ⟨left, hleft, hnil⟩ := h.refines.exists_leftovers hc h.regions hm hbody hout
    ⟨r.rewrites, r.retyped, ending == .drained, declines⟩
  have hlegal : left = [] ↔ ∀ o ∈ (a.tree t).opIds, (a.forms o).Legal (base.typeUnder a.forms) := by
    refine hnil.trans (forall₂_congr fun o ho => Account.legal_congr fun v hv => ?_)
    exact hsame.value? (h.refines.operand_defined hc (RegionTree.opIds_recast_subset ho) hv)
  refine ⟨a, r, image, subst, ⟨ctx₀, count, _, ending, hargs₀, hlast, hended⟩, h, fun verify => ?_⟩
  obtain ⟨report, hreport, hpassed⟩ := h.exists_report hc hregion' verify
  refine ⟨_, TupleLowering.run_eq_ok_iff.mpr (.inr ⟨t.id, _, left, report, hregion, hconvert, hleft,
    fun _ => hreport, rfl⟩), fun stats => ?_⟩
  rw [TupleLowering.verdict_eq_ok_iff, hlegal, hpassed, h.rewrites, h.retyped]
  constructor
  · rintro ⟨hlegal, henclosed, rfl⟩
    exact ⟨⟨hlegal, henclosed⟩, rfl⟩
  · rintro ⟨⟨hlegal, henclosed⟩, rfl⟩
    exact ⟨hlegal, henclosed, rfl⟩

end Context

end RegionIR
