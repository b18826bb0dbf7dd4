import RegionIR.Pipeline
import RegionIR.Proofs.Context.Reachable
import RegionIR.Proofs.Lowering.WellTyped
import RegionIR.Proofs.Source.Passes

/-! A module with well-typed tuple operations is lowered as a whole.

The order of the operations does not matter, so long as the validator is content with it. -/

namespace RegionIR

namespace Op

/-- The struct operation that a well-typed tuple operation becomes fits its operands. -/
theorem structTyped_converted {op : Op} {types₀ types : ValueId → Ty} {subst : ValueId → ValueId}
    (hw : op.WellTyped types₀) (ht : op.isTupleOp)
    (htypes : ∀ v ∈ op.operands, types (subst v) = (types₀ v).lowered) :
    (op.converted.rename subst).StructTyped types := by
  rcases isTupleOp_iff.mp ht with his | his
  · obtain ⟨type, hty, htup, hops⟩ := hw.1 his
    have hoperands : (op.operands.map subst).map types = type.params.map Ty.lowered := by
      rw [← hops, List.map_map, List.map_map]
      exact List.map_congr_left htypes
    simp only [converted, his, if_true]
    refine ⟨fun _ => ⟨type.lowered, _, ?_, Ty.structFields_lowered_tuple htup, ?_⟩, fun h => ?_⟩
    · simp [rename, retyped, hty]
    · refine hoperands.trans (List.ext_getElem? fun i => ?_)
      simp [List.getElem?_mapIdx, Function.comp_def]
    · simp [rename, is] at h
  · obtain ⟨tuple, index, element, hops, hi, htup, hel, hty⟩ := hw.2 his
    have hindex : op.elementIndex = index.toNat := by simp [elementIndex, hi, Attr.asInt]
    simp only [converted, his, not_isNew_of_isGet his, Bool.false_eq_true, if_false, if_true, hindex]
    have hfields := Ty.structFields_lowered_tuple htup
    rw [← htypes tuple (by simp [hops])] at hfields
    refine ⟨fun h => ?_, fun _ => ⟨subst tuple, _, tupleFieldName index.toNat, element.lowered, ?_,
      hfields, ?_, rfl, ?_⟩⟩
    · simp [rename, is] at h
    · simp [rename, retyped, hops]
    · rw [List.mem_iff_getElem?]
      exact ⟨index.toNat, by simp [List.getElem?_mapIdx, hel]⟩
    · simp [rename, retyped, hty]

end Op

namespace Context

variable {ctx : Context} {t : RegionTree}

theorem lowered_of_converted (hc : ctx.Confined t) {s : Progress}
    (hforms : ∀ o ∈ t.opIds, s.forms o = (ctx.raw o).converted) :
    lowered ctx t s = t.preorder.countP fun o => o.2.isTupleOp := by
  have hcount : lowered ctx t s = t.opIds.countP fun o => (ctx.raw o).isTupleOp := by
    refine List.countP_congr fun o ho => ?_
    rw [hforms o ho, Op.isTupleOp_converted]
    simp
  rw [hcount, RegionTree.opIds, List.countP_map]
  refine List.countP_congr fun o ho => ?_
  rw [Function.comp_apply, raw_of_some (hc.held.op?_of_mem ho)]

/-- Whatever the order of its operations, a module with well-typed tuple operations is lowered: each
of these gives way to a struct operation that fits, and all types are converted. -/
theorem run_of_wellTyped (hreach : ctx.Reachable) (hground : ctx.Grounded) {m : OpId}
    {tree : OpTree} (htree : ctx.opTree m = .ok tree) (hbody : tree.regions.head? = some t)
    {report : Report} (hvalid : ctx.validate m = .ok report) (hpassed : report.passed)
    (hw : ctx.WellTyped t) :
    ∃ ctx' stats image subst, TupleLowering.run ctx m false = .ok (.ok stats, ctx') ∧
      stats.rewrites = (t.preorder.countP fun o => o.2.isTupleOp) ∧
      (∀ o ∈ t.opIds, ∀ p ∈ t.opIds, image o = image p → o = p) ∧
      (∀ v ∈ definedValues t, ∀ w ∈ definedValues t, subst v = subst w → v = w) ∧
      ctx'.regionTree t.id =
        .ok ((t.recast (fun _ op => op.converted) Ty.lowered).rename image subst) ∧
      (∀ v ∈ definedValues t, ctx'.typeOf (subst v) = .ok (ctx.tyOf v).lowered) ∧
      ∀ o ∈ t.preorder, o.2.isTupleOp → (o.2.converted.rename subst).StructTyped ctx'.tyOf := by
  obtain ⟨rfl, hheld⟩ := opTree_eq_ok_iff.mp htree
  have hc : ctx.Confined t := confined_of_validate hreach.sound
    (fun e he => hground.recorded hreach.sound he) hheld hbody hvalid hpassed
  have hmem : t ∈ tree.regions := List.mem_of_mem_head? hbody
  have hout : tree.id ∉ t.opIds := fun h =>
    (hheld.regions_nodup hreach.sound.linked).1 (List.mem_flatMap.mpr ⟨t, hmem, h⟩)
  have hhead : tree.op.regions.head? = some t.id := by
    obtain ⟨-, hregions, -⟩ := hheld
    simp only [OpTree.regions] at hbody
    simp [OpTree.op, hregions, hbody]
  obtain ⟨ctx', result, left, s, image, subst, h⟩ := exists_lowers hc hheld.op?_id hhead hout
  obtain ⟨ending, hending, -⟩ := h.ends
  have hforms := h.steps.converted hc hw hending
  have htypes {v : ValueId} (hv : v ∈ definedValues t) :
      ctx'.typeOf (subst v) = .ok (ctx.tyOf v).lowered := by
    rw [h.refines.typeOf_subst hc hv, typeUnder_converted hc hforms hv]
  have hleft : left = [] := by
    refine h.left_nil.mpr fun o ho => ?_
    refine h.steps.legal hc (fun o ho => ?_) o (RegionTree.opIds_recast_subset ho)
    rw [hforms o ho]
    exact ⟨Op.isTupleOp_converted, Op.retyped_converted⟩
  have hrun := h.run_unverified (hheld.body_of_head hbody)
  rw [if_pos hleft] at hrun
  refine ⟨ctx', _, image, subst, hrun, ?_, fun o ho p hp => h.refines.injective ho hp,
    fun v hv w hw => h.refines.subst_injective hc hv hw, ?_, fun v hv => htypes hv, ?_⟩
  · exact h.rewrites.trans (lowered_of_converted hc hforms)
  · have hrecast : s.tree t = t.recast (fun _ op => op.converted) Ty.lowered := by
      refine RegionTree.recast_congr fun o ho => ?_
      rw [hforms _ (List.mem_map_of_mem ho), raw_of_some (hc.held.op?_of_mem ho)]
    rw [← hrecast]
    exact regionTree_eq_ok_iff.mpr ⟨(RegionTree.id_rename _).trans (RegionTree.id_recast t), h.held⟩
  · intro o ho htup
    have hraw := raw_of_some (hc.held.op?_of_mem ho)
    have hid : o.1 ∈ t.opIds := List.mem_map_of_mem ho
    have hwo := hw o.1 hid
    rw [hraw] at hwo
    refine Op.structTyped_converted hwo htup fun v hv => ?_
    obtain ⟨value, hval, hty⟩ := typeOf_eq_ok.mp (htypes (hc.operands hid (hraw ▸ hv)))
    simp [tyOf, hval, hty]

/-- An element put in a tuple and taken out again. -/
def pairText : String :=
  "core.module @m \x7b
  %0 = t.c : core.i32
  %1 = adt.tuple_new %0 : core.tuple(core.i32)
  %2 = adt.tuple_get %1 \x7bindex = 0\x7d : core.i32
\x7d
"

theorem run_of_wellTyped_pair : ∃ tree t report, (Context.parse {} pairText).2.Reachable ∧
    (Context.parse {} pairText).2.Grounded ∧
    (Context.parse {} pairText).2.opTree ⟨3⟩ = .ok tree ∧ tree.regions.head? = some t ∧
    (Context.parse {} pairText).2.validate ⟨3⟩ = .ok report ∧ report.passed ∧
    (Context.parse {} pairText).2.WellTyped t ∧ ∃ ctx' stats,
      TupleLowering.run (Context.parse {} pairText).2 ⟨3⟩ false = .ok (.ok stats, ctx') ∧
      stats.rewrites = t.preorder.countP fun o => o.2.isTupleOp := by
  have hr : (Context.parse {} pairText).2.Reachable := Reachable.empty.parse_isOk (by decide +kernel)
  have hg : (Context.parse {} pairText).2.Grounded := by decide +kernel
  have hcheck : ((Context.parse {} pairText).2.opTree ⟨3⟩).toOption.any fun tree =>
      ((Context.parse {} pairText).2.validate ⟨3⟩).toOption.any fun report =>
        tree.regions.head?.any fun t =>
          report.passed && decide ((Context.parse {} pairText).2.WellTyped t) := by
    decide +kernel
  obtain ⟨tree, htree, hcheck⟩ := except_any_iff.mp hcheck
  obtain ⟨report, hvalid, hcheck⟩ := except_any_iff.mp hcheck
  obtain ⟨t, hbody, hcheck⟩ := (Option.any_eq_true _ _).mp hcheck
  rw [Bool.and_eq_true, decide_eq_true_eq] at hcheck
  obtain ⟨ctx', stats, -, -, hrun, hrewrites, -⟩ :=
    run_of_wellTyped hr hg htree hbody hvalid hcheck.1 hcheck.2
  exact ⟨tree, t, report, hr, hg, htree, hbody, hvalid, hcheck.1, hcheck.2, ctx', stats, hrun,
    hrewrites⟩

/-- A module with a construction, and beside it an extraction whose operand has the number of a
value that does not exist yet. -/
def danglingModule : Except Fault Context := do
  let i32 : Ty := .mk "core" "i32" [] []
  let nowhere : Location := ⟨"", ⟨0, 0⟩⟩
  let (ctx, b) := createBlock {} []
  let (ctx, c) ← ctx.createOp
    { location := nowhere, dialect := "t", name := "c", resultTypes := [i32] }
  let (ctx, new) ← ctx.createOp
    { location := nowhere, dialect := "adt", name := "tuple_new", operands := [⟨0⟩]
      resultTypes := [.tuple [i32]] }
  let ctx ← ctx.pushOp b c
  let ctx ← ctx.pushOp b new
  let (ctx, r) ← ctx.createRegion [b]
  let (ctx, _) ← ctx.createOp
    { location := nowhere, dialect := "core", name := "module", regions := [r]
      attrs := [("sym_name", .symbol "m")] }
  let (ctx, outside) := ctx.createBlock []
  let (ctx, get) ← ctx.createOp
    { location := nowhere, dialect := "adt", name := "tuple_get", operands := [⟨3⟩]
      resultTypes := [i32], attrs := [("index", .int 0)] }
  ctx.pushOp outside get

theorem reachable_danglingModule {ctx : Context} (h : danglingModule = .ok ctx) : ctx.Reachable := by
  simp only [danglingModule, except_bind_eq_ok, Prod.exists] at h
  obtain ⟨ctx₁, c, h₁, ctx₂, new, h₂, ctx₃, h₃, ctx₄, h₄, ctx₅, r, h₅, ctx₆, m, h₆, ctx₇, get, h₇,
    h₈⟩ := h
  have hblock : (createBlock {} []).1.Reachable := .createBlock [] .empty (by simp)
  have hops := (hblock.createOp (by decide +kernel) h₁).createOp (by decide +kernel) h₂
  have hmodule := (((hops.pushOp h₃).pushOp h₄).createRegion h₅).createOp
    ⟨by simp [Dict.Sorted], by simp; rfl, by simp⟩ h₆
  have houtside : (ctx₆.createBlock []).1.Reachable := .createBlock [] hmodule (by simp)
  exact (houtside.createOp (by decide +kernel) h₇).pushOp h₈

/-- Without the demand that operands exist the lowering may convert an operation that is not in the
module at all: a new value takes the number that the operand of the other operation has. -/
theorem run_of_dangling_operand : ∃ ctx m tree t report stats ctx', Reachable ctx ∧
    ctx.opTree m = .ok tree ∧ tree.op.is "core" "module" ∧ tree.regions.head? = some t ∧
    ctx.validate m = .ok report ∧ report.passed ∧ ctx.WellTyped t ∧
    TupleLowering.run ctx m false = .ok (.ok stats, ctx') ∧
    stats.rewrites ≠ t.preorder.countP fun o => o.2.isTupleOp := by
  have hcheck : danglingModule.toOption.any fun ctx =>
      (ctx.opTree ⟨2⟩).toOption.any fun tree => (ctx.validate ⟨2⟩).toOption.any fun report =>
        (TupleLowering.run ctx ⟨2⟩ false).toOption.any fun r => r.1.toOption.any fun stats =>
          tree.regions.head?.any fun t =>
            tree.op.is "core" "module" && report.passed && decide (ctx.WellTyped t) &&
              stats.rewrites != t.preorder.countP fun o => o.2.isTupleOp := by
    decide +kernel
  obtain ⟨ctx, hctx, hcheck⟩ := except_any_iff.mp hcheck
  obtain ⟨tree, htree, hcheck⟩ := except_any_iff.mp hcheck
  obtain ⟨report, hvalid, hcheck⟩ := except_any_iff.mp hcheck
  obtain ⟨⟨answer, ctx'⟩, hrun, hcheck⟩ := except_any_iff.mp hcheck
  obtain ⟨stats, hanswer, hlast⟩ := except_any_iff.mp hcheck
  obtain rfl : answer = .ok stats := hanswer
  obtain ⟨t, hbody, hfacts⟩ := (Option.any_eq_true _ _).mp hlast
  simp only [Bool.and_eq_true, decide_eq_true_eq, bne_iff_ne] at hfacts
  obtain ⟨⟨⟨hmodule, hpassed⟩, hw⟩, hne⟩ := hfacts
  exact ⟨ctx, ⟨2⟩, tree, t, report, stats, ctx', reachable_danglingModule hctx, htree, hmodule, hbody,
    hvalid, hpassed, hw, hrun, hne⟩

end Context

end RegionIR
