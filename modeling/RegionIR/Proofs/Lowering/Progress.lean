import RegionIR.Proofs.Lowering.Answers
import RegionIR.Proofs.Rewrite.Conversions
import RegionIR.Proofs.Source.Passes
import RegionIR.Rewrite.Recipe

/-! When no operation can make progress.

An operation can if it is illegal and a pattern rewrites it or, unless a rule names it illegal,
retyping changes something. A conversion of a valid module that ends with an empty queue leaves no
such operation, if its patterns replace what they rewrite and rewrite only what a rule names
illegal. -/

namespace RegionIR

namespace Engine

variable {e : Engine} {ctx ctx' : Context} {m : OpId} {t : RegionTree} {result : Result}

/-- In the body of a converted module that is left with an empty queue, every operation is
settled. -/
theorem Static.settled_of_validate (he : e.Static) (hreach : ctx.Reachable) {tree : OpTree}
    (htree : ctx.opTree m = .ok tree) (hbody : tree.regions.head? = some t) {report : Report}
    (hvalid : ctx.validate m = .ok report) (hpassed : report.passed)
    (h : e.convert ctx m = .ok (ctx', result)) (hfix : result.fixpoint = true) :
    ∃ t', ctx'.body m = .ok (some t'.id) ∧ ctx'.regionTree t'.id = .ok t' ∧
      ∀ o ∈ t'.opIds, e.target.isLegal ctx' o = .ok true ∨
        (∀ p ∈ e.patterns, p.answer e.converter ctx' o ≠ some .fires) ∧
          (e.target.isNamedIllegal ctx' o = .ok true ∨
            ∃ ctx'', retypeOp e.converter ctx' o = .ok (ctx'', false)) := by
  obtain ⟨rfl, hheld⟩ := Context.opTree_eq_ok_iff.mp htree
  have hs := hreach.sound
  have ht := Context.bodyOf_of_head hs hheld hbody
  have hconv := converts_of_convert he.settles he.patterns ht h
  obtain ⟨t', hbody', ht', -, hstands⟩ := hconv.exists_body ht
  refine ⟨t', hbody', Context.regionTree_eq_ok_iff.mpr ⟨rfl, ht'⟩, fun o ho => ?_⟩
  obtain ⟨b, hb, hst⟩ := hstands o ho
  have hwired (o : OpId) (ho : o ∈ t.opIds) :=
    Context.wired_of_validate hs hheld hbody hvalid hpassed ho
  exact (settled_iff hconv.sound (ht'.op?_raw ho)).mp
    (he.settled_of_convert ht hwired h hfix hb hst).2

/-- An extraction from what no tuple is, and a construction with too many operands. -/
def unfitText : String :=
  "core.module @m \x7b
  %0 = t.t : core.i32
  %1 = adt.tuple_get %0 \x7bindex = 0\x7d : core.tuple()
  %2 = adt.tuple_new %1 : core.tuple()
\x7d
"

theorem Static.settled_of_validate_unfit : ∃ tree t report ctx' result,
    (Context.parse {} unfitText).2.Reachable ∧
    (Context.parse {} unfitText).2.opTree ⟨3⟩ = .ok tree ∧ tree.regions.head? = some t ∧
    (Context.parse {} unfitText).2.validate ⟨3⟩ = .ok report ∧ report.passed ∧
    TupleLowering.engine.convert (Context.parse {} unfitText).2 ⟨3⟩ = .ok (ctx', result) ∧
    result.fixpoint = true ∧
    ∃ t', ctx'.body ⟨3⟩ = .ok (some t'.id) ∧ ctx'.regionTree t'.id = .ok t' ∧
      ∀ o ∈ t'.opIds, TupleLowering.target.isLegal ctx' o = .ok true ∨
        (∀ p ∈ TupleLowering.engine.patterns, p.answer .tuples ctx' o ≠ some .fires) ∧
          (TupleLowering.target.isNamedIllegal ctx' o = .ok true ∨
            ∃ ctx'', retypeOp .tuples ctx' o = .ok (ctx'', false)) := by
  have hr : (Context.parse {} unfitText).2.Reachable :=
    .parse_isOk .empty (by decide +kernel)
  have hcheck : ((Context.parse {} unfitText).2.opTree ⟨3⟩).toOption.any fun tree =>
      ((Context.parse {} unfitText).2.validate ⟨3⟩).toOption.any fun report =>
        (TupleLowering.engine.convert (Context.parse {} unfitText).2 ⟨3⟩).toOption.any fun r =>
          tree.regions.head?.any fun _ => report.passed && r.2.fixpoint := by
    decide +kernel
  obtain ⟨tree, htree, hcheck⟩ := except_any_iff.mp hcheck
  obtain ⟨report, hvalid, hcheck⟩ := except_any_iff.mp hcheck
  obtain ⟨⟨ctx', result⟩, hconvert, hcheck⟩ := except_any_iff.mp hcheck
  obtain ⟨t, hbody, hcheck⟩ := (Option.any_eq_true _ _).mp hcheck
  rw [Bool.and_eq_true] at hcheck
  exact ⟨tree, t, report, ctx', result, hr, htree, hbody, hvalid, hcheck.1, hconvert, hcheck.2,
    TupleLowering.static_engine.settled_of_validate hr htree hbody hvalid hcheck.1 hconvert
      hcheck.2⟩

/-- An engine as above, but for its patterns: what they match they may erase as well, and it need
not be named illegal. -/
structure Lenient (e : Engine) : Prop where
  settles : e.converter.Settles
  checks : e.target.dynamicChecks = []
  others : e.target.otherOps = e.converter.isLegalOp
  answer {p : Pattern} {ctx ctx' : Context} {o : OpId} : p ∈ e.patterns → ctx.SameView ctx' o →
    p.answer e.converter ctx' o = p.answer e.converter ctx o
  departs {p : Pattern} {ctx ctx' : Context} {o : OpId} {plan : Plan} : p ∈ e.patterns →
    p.attempt e.converter ctx o = .ok (ctx', .applied plan) →
    plan.replacement.isSome ∨ plan.erasure.isSome

/-- Whether a pattern erases an operation can be told from its name and the number of its
operands. -/
theorem answer_erase (name dialect op : String) (c : Converter) (ctx : Context) (o : OpId) :
    (Pattern.named name dialect op .erase).answer c ctx o = (ctx.op? o).map fun data =>
      if data.is dialect op ∧ data.results.length ≤ data.operands.length then .fires
      else .passes := by
  simp only [Pattern.answer, Pattern.named, OpChange.attempt]
  cases ho : ctx.op? o with
  | none =>
    cases hop : ctx.op o with
    | error fault => rfl
    | ok data => simp [Context.op_eq_ok.mp hop] at ho
  | some data =>
    simp only [Context.op_eq_ok.mpr ho, except_ok_bind, Option.map_some]
    cases hname : data.is dialect op
    · simp [Except.toOption, pure, Except.pure, Attempt.answer]
    · by_cases hlen : data.operands.length < data.results.length
      · simp [hlen, Except.toOption, pure, Except.pure, Attempt.answer]
      · simp [hlen, Nat.not_lt.mp hlen, Except.toOption, pure, Except.pure, Attempt.answer,
          Plan.isEmpty]

/-- Extractions are lowered, and `t.p` gives way to its operand. -/
def erasingEngine : Engine where
  converter := .tuples
  patterns := [TupleLowering.extractPattern, .named "erase" "t" "p" .erase]
  target :=
    { illegalOps := [("t", "p"), ("adt", "tuple_get")], otherOps := Converter.isLegalOp .tuples }

theorem lenient_erasingEngine : erasingEngine.Lenient := by
  have hmem {p : Pattern} (hp : p ∈ erasingEngine.patterns) :
      p = TupleLowering.extractPattern ∨ p = .named "erase" "t" "p" .erase := by
    simpa [erasingEngine] using hp
  refine ⟨Converter.settles_tuples, rfl, rfl, fun hp h => ?_, fun hp h => ?_⟩
  · rcases hmem hp with rfl | rfl
    · exact (TupleLowering.local_extract _).answer h
    · rw [answer_erase, answer_erase, h.op?]
  · rcases hmem hp with rfl | rfl <;> obtain ⟨op, ho, hrest⟩ := except_bind_eq_ok.mp h
    · cases TupleLowering.extract_outcome (Context.op_eq_ok.mp ho) h with
      | unchanged hnot => simp at hnot
      | replaced _ _ => exact .inl rfl
    · simp only [OpChange.attempt] at hrest
      split at hrest
      · split at hrest
        · simp at hrest
        · simp only [except_pure_eq_ok, Prod.mk.injEq, Attempt.applied.injEq] at hrest
          exact .inr (by simp [← hrest.2])
      · simp at hrest

/-- Extraction from the result of an operation in a later block that is going to be erased. -/
def detourModule : Except Fault Context := do
  let i32 : Ty := .mk "core" "i32" [] []
  let nowhere : Location := ⟨"", ⟨0, 0⟩⟩
  let (ctx, before) := Context.createBlock {} []
  let (ctx, after) := ctx.createBlock []
  let (ctx, whole) ← ctx.createOp
    { location := nowhere, dialect := "t", name := "w", resultTypes := [.struct "S" [("a", i32)]] }
  let (ctx, detour) ← ctx.createOp
    { location := nowhere, dialect := "t", name := "p", operands := [⟨0⟩], resultTypes := [i32] }
  let (ctx, get) ← ctx.createOp
    { location := nowhere, dialect := "adt", name := "tuple_get", operands := [⟨1⟩]
      resultTypes := [i32], attrs := [("index", .int 0)] }
  let ctx ← ctx.pushOp before get
  let ctx ← ctx.pushOp after whole
  let ctx ← ctx.pushOp after detour
  let (ctx, r) ← ctx.createRegion [before, after]
  let (ctx, _) ← ctx.createOp
    { location := nowhere, dialect := "core", name := "module", regions := [r]
      attrs := [("sym_name", .symbol "m")] }
  return ctx

theorem reachable_detourModule (h : detourModule = .ok ctx) : ctx.Reachable := by
  simp only [detourModule, except_bind_eq_ok, except_pure_eq_ok, Prod.exists] at h
  obtain ⟨ctx₁, whole, h₁, ctx₂, detour, h₂, ctx₃, get, h₃, ctx₄, h₄, ctx₅, h₅, ctx₆, h₆,
    ctx₇, r, h₇, ctx₈, m, h₈, rfl⟩ := h
  have hblocks := Context.Reachable.createBlock [] (.createBlock [] .empty (by simp)) (by simp)
  have hops := ((hblocks.createOp (by decide +kernel) h₁).createOp (by decide +kernel) h₂).createOp
    (by decide +kernel) h₃
  exact ((((hops.pushOp h₄).pushOp h₅).pushOp h₆).createRegion h₇).createOp
    ⟨by simp [Dict.Sorted], by simp; rfl, by simp⟩ h₈

/-- Who uses the results of an erased operation is not visited again: the extraction could be
lowered in the end, for what it extracts from is a struct by then, but the queue is empty. -/
theorem illegal_of_erasing : ∃ e ctx m tree report ctx' result body o, Lenient e ∧ ctx.Reachable ∧
    ctx.opTree m = .ok tree ∧ tree.op.is "core" "module" ∧ ctx.validate m = .ok report ∧
    report.passed ∧ e.convert ctx m = .ok (ctx', result) ∧ result.fixpoint = true ∧
    ctx'.body m = .ok (some body.id) ∧ ctx'.regionTree body.id = .ok body ∧ o ∈ body.opIds ∧
    e.target.isLegal ctx' o = .ok false ∧
    ∃ p ∈ e.patterns, p.answer e.converter ctx' o = some .fires := by
  have hcheck : detourModule.toOption.any fun ctx =>
      (ctx.opTree ⟨3⟩).toOption.any fun tree => (ctx.validate ⟨3⟩).toOption.any fun report =>
        (erasingEngine.convert ctx ⟨3⟩).toOption.any fun r => (r.1.body ⟨3⟩).toOption.any fun b =>
          b.any fun b => (r.1.regionTree b).toOption.any fun body =>
            (erasingEngine.target.isLegal r.1 ⟨2⟩).toOption.any fun legal =>
              tree.op.is "core" "module" && report.passed && r.2.fixpoint && decide (body.id = b) &&
                decide (⟨2⟩ ∈ body.opIds) && !legal &&
                decide (TupleLowering.extractPattern.answer .tuples r.1 ⟨2⟩ = some .fires) := by
    decide +kernel
  obtain ⟨ctx, hctx, hcheck⟩ := except_any_iff.mp hcheck
  obtain ⟨tree, htree, hcheck⟩ := except_any_iff.mp hcheck
  obtain ⟨report, hvalid, hcheck⟩ := except_any_iff.mp hcheck
  obtain ⟨⟨ctx', result⟩, hconvert, hcheck⟩ := except_any_iff.mp hcheck
  obtain ⟨b, hb, hcheck⟩ := except_any_iff.mp hcheck
  obtain ⟨b, rfl, hcheck⟩ := (Option.any_eq_true _ _).mp hcheck
  obtain ⟨body, hbody, hcheck⟩ := except_any_iff.mp hcheck
  obtain ⟨legal, hlegal, hfacts⟩ := except_any_iff.mp hcheck
  simp only [Bool.and_eq_true, decide_eq_true_eq, Bool.not_eq_true'] at hfacts
  obtain ⟨⟨⟨⟨⟨⟨hmodule, hpassed⟩, hfix⟩, rfl⟩, ho⟩, rfl⟩, hfires⟩ := hfacts
  exact ⟨erasingEngine, ctx, ⟨3⟩, tree, report, ctx', result, body, ⟨2⟩, lenient_erasingEngine,
    reachable_detourModule hctx, htree, hmodule, hvalid, hpassed, hconvert, hfix, hb, hbody, ho,
    hlegal, TupleLowering.extractPattern, by simp [erasingEngine], hfires⟩

end Engine

end RegionIR
