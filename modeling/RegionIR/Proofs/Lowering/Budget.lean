import RegionIR.Proofs.Context.Reachable
import RegionIR.Proofs.Lowering.Forward
import RegionIR.Proofs.Source.Passes

/-! Whether the allowed number of rewrites is ever a hindrance.

By default a lowering is allowed as many rewrites as there are operations. This is not enough only
if all operations are tuple operations, all were rewritten, and one of those that came in is
illegal. It takes an extraction that is visited before what it extracts from; in a module in which
nothing is used before it is defined, every operation is visited with its operands settled. -/

namespace RegionIR

namespace Context

variable {ctx : Context} {t : RegionTree} {s : Progress}

/-- The rewrites run out only if all operations are tuple operations and one of them is used before
it is defined, for each operation is rewritten at most once. -/
theorem EndsAt.drained_of (hc : ctx.Confined t) (h : ctx.Steps t (start ctx t) s) {ending : Ending}
    (hends : ctx.EndsAt t t.opIds.length s ending)
    (hslack : (∃ o ∈ t.preorder, o.2.isTupleOp = false) ∨ t.InOrder) : ending = .drained := by
  have hends' := hends
  cases hends with
  | drained => rfl
  | @outOfRewrites o _ ho hillegal hspent =>
    have hall {p : OpId} (hp : p ∈ t.opIds) := forall_lowered hspent hp
    exfalso
    rcases hslack with ⟨p, hp, htup⟩ | hio
    · have hraw := (hall (List.mem_map_of_mem hp)).1
      rw [raw_of_some (hc.held.op?_of_mem hp), htup] at hraw
      exact Bool.false_ne_true hraw
    · rcases h.forward hc hio (closed_opIds hc) hends' with hforms | ⟨p, hp, hmisleads, hform⟩
      · refine hillegal (h.legal hc (fun p hp => ⟨(hall hp).2, ?_⟩) o ho)
        have hdone := (hall hp).2
        rw [hforms p hp, forwardForms_eq hc hio hp] at hdone ⊢
        exact Op.retyped_visited hdone
      · have hdone := (hall hp).2
        rw [hform] at hdone
        exact Bool.false_ne_true (hdone.symm.trans hmisleads.1)

/-- A valid module is lowered until the queue is empty, if one of its operations is no tuple
operation or nothing in its body is used before it is defined. -/
theorem fixpoint_of_validate (hreach : ctx.Reachable) (hground : ctx.Grounded) {m : OpId}
    {tree : OpTree} (htree : ctx.opTree m = .ok tree) (hbody : tree.regions.head? = some t)
    {report : Report} (hvalid : ctx.validate m = .ok report) (hpassed : report.passed)
    (hslack : (∃ o ∈ t.preorder, o.2.isTupleOp = false) ∨ t.InOrder) :
    ∃ ctx' result, TupleLowering.engine.convert ctx m = .ok (ctx', result) ∧
      result.fixpoint = true := by
  obtain ⟨rfl, hheld⟩ := opTree_eq_ok_iff.mp htree
  have hc : ctx.Confined t := confined_of_validate hreach.sound
    (fun _ he => hground.recorded hreach.sound he) hheld hbody hvalid hpassed
  obtain ⟨ctx', result, left, s, image, subst, h⟩ := exists_lowers_of_tree hc hheld hbody
  obtain ⟨ending, hends, hfix⟩ := h.ends
  exact ⟨ctx', result, h.converts, by rw [hfix, hends.drained_of hc h.steps hslack]; rfl⟩

/-- Tuple operations only, all of which are lowered. -/
def nestedText : String :=
  "core.module @m \x7b
  %0 = adt.tuple_new : core.tuple()
  %1 = adt.tuple_new %0 : core.tuple(core.tuple())
  %2 = adt.tuple_get %1 \x7bindex = 0\x7d : core.tuple()
\x7d
"

theorem fixpoint_of_validate_nested : ∃ tree t report ctx' result,
    (Context.parse {} nestedText).2.Reachable ∧ (Context.parse {} nestedText).2.Grounded ∧
    (Context.parse {} nestedText).2.opTree ⟨3⟩ = .ok tree ∧ tree.regions.head? = some t ∧
    (Context.parse {} nestedText).2.validate ⟨3⟩ = .ok report ∧ report.passed ∧ t.InOrder ∧
    TupleLowering.engine.convert (Context.parse {} nestedText).2 ⟨3⟩ = .ok (ctx', result) ∧
    result.fixpoint = true := by
  have hr : (Context.parse {} nestedText).2.Reachable :=
    Reachable.empty.parse_isOk (by decide +kernel)
  have hg : (Context.parse {} nestedText).2.Grounded := by decide +kernel
  have hcheck : ((Context.parse {} nestedText).2.opTree ⟨3⟩).toOption.any fun tree =>
      ((Context.parse {} nestedText).2.validate ⟨3⟩).toOption.any fun report =>
        tree.regions.head?.any fun t => report.passed && decide t.InOrder := by
    decide +kernel
  obtain ⟨tree, htree, hcheck⟩ := except_any_iff.mp hcheck
  obtain ⟨report, hvalid, hcheck⟩ := except_any_iff.mp hcheck
  obtain ⟨t, hbody, hcheck⟩ := (Option.any_eq_true _ _).mp hcheck
  rw [Bool.and_eq_true, decide_eq_true_eq] at hcheck
  obtain ⟨ctx', result, hconvert, hfix⟩ :=
    fixpoint_of_validate hr hg htree hbody hvalid hcheck.1 (.inr hcheck.2)
  exact ⟨tree, t, report, ctx', result, hr, hg, htree, hbody, hvalid, hcheck.1, hcheck.2, hconvert,
    hfix⟩

/-- Two extractions in blocks side by side. The first takes its operand from the second, whose
result is called a struct before it is lowered, though it is going to be an integer. -/
def crossedModule : Except Fault Context := do
  let i32 : Ty := .mk "core" "i32" [] []
  let nowhere : Location := ⟨"", ⟨0, 0⟩⟩
  let index : List (String × Attr Ty) := [("index", .int 0)]
  let (ctx, before) := createBlock {} []
  let (ctx, after) := ctx.createBlock [.struct "P" [("x", i32)]]
  let (ctx, get) ← ctx.createOp
    { location := nowhere, dialect := "adt", name := "tuple_get", operands := [⟨0⟩]
      resultTypes := [.struct "S" [("a", .tuple [])]], attrs := index }
  let (ctx, use) ← ctx.createOp
    { location := nowhere, dialect := "adt", name := "tuple_get", operands := [⟨1⟩]
      resultTypes := [i32], attrs := index }
  let ctx ← ctx.pushOp before use
  let ctx ← ctx.pushOp after get
  let (ctx, r) ← ctx.createRegion [before, after]
  let (ctx, _) ← ctx.createOp
    { location := nowhere, dialect := "core", name := "module", regions := [r]
      attrs := [("sym_name", .symbol "m")] }
  return ctx

theorem reachable_crossedModule {ctx : Context} (h : crossedModule = .ok ctx) : ctx.Reachable := by
  simp only [crossedModule, except_bind_eq_ok, except_pure_eq_ok, Prod.exists] at h
  obtain ⟨ctx₁, get, h₁, ctx₂, use, h₂, ctx₃, h₃, ctx₄, h₄, ctx₅, r, h₅, ctx₆, m, h₆, rfl⟩ := h
  have hblocks := Reachable.createBlock [.struct "P" [("x", .mk "core" "i32" [] [])]]
    (.createBlock [] .empty (by simp)) (by decide +kernel)
  have hops := (hblocks.createOp (by decide +kernel) h₁).createOp (by decide +kernel) h₂
  exact (((hops.pushOp h₃).pushOp h₄).createRegion h₅).createOp
    ⟨by simp [Dict.Sorted], by simp; rfl, by simp⟩ h₆

/-- Without that demand the rewrites may run out: the first extraction becomes one of a tuple, which
is illegal until it is retyped, and comes up again after the second was rewritten. -/
theorem fixpoint_false_of_crossed : ∃ ctx m tree report ctx' result, Reachable ctx ∧
    ctx.Grounded ∧ ctx.opTree m = .ok tree ∧ tree.op.is "core" "module" ∧ tree.regions ≠ [] ∧
    ctx.validate m = .ok report ∧ report.passed ∧
    TupleLowering.engine.convert ctx m = .ok (ctx', result) ∧ result.fixpoint = false := by
  have hcheck : crossedModule.toOption.any fun ctx =>
      (ctx.opTree ⟨2⟩).toOption.any fun tree => (ctx.validate ⟨2⟩).toOption.any fun report =>
        (TupleLowering.engine.convert ctx ⟨2⟩).toOption.any fun r =>
          decide ctx.Grounded && tree.op.is "core" "module" && !tree.regions.isEmpty &&
            report.passed && !r.2.fixpoint := by
    decide +kernel
  obtain ⟨ctx, hctx, hcheck⟩ := except_any_iff.mp hcheck
  obtain ⟨tree, htree, hcheck⟩ := except_any_iff.mp hcheck
  obtain ⟨report, hvalid, hcheck⟩ := except_any_iff.mp hcheck
  obtain ⟨⟨ctx', result⟩, hconvert, hfacts⟩ := except_any_iff.mp hcheck
  simp only [Bool.and_eq_true, decide_eq_true_eq, Bool.not_eq_true', List.isEmpty_eq_false_iff]
    at hfacts
  obtain ⟨⟨⟨⟨hground, hmodule⟩, hregions⟩, hpassed⟩, hfix⟩ := hfacts
  exact ⟨ctx, ⟨2⟩, tree, report, ctx', result, reachable_crossedModule hctx, hground, htree,
    hmodule, hregions, hvalid, hpassed, hconvert, hfix⟩

end Context

end RegionIR
