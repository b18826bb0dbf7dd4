import RegionIR.Proofs.Lowering.Answers
import RegionIR.Proofs.Lowering.Budget
import RegionIR.Proofs.Lowering.Pipeline
import RegionIR.Proofs.Rewrite.Conversions
import RegionIR.Proofs.Rewrite.Stillness

/-! Lowering what was lowered already.

A lowering of a text leaves every operation settled, whether it could be lowered or not. So the next
one finds nothing to do, and has the same to say against what is left behind. -/

namespace RegionIR

namespace TupleLowering

variable {ctx : Context} {o : OpId} {op : Op} {m : OpId} {t : RegionTree} {result : Engine.Result}

/-- A pattern with such outcomes that does not rewrite the operation leaves it alone. -/
theorem leavesAlone_of_answer {p : Pattern} {c : Converter}
    (houtcome : ∀ ctx' a, p.attempt c ctx o = .ok (ctx', a) → Outcome ctx op ctx' a)
    {answer : Answer} (hanswer : p.answer c ctx o = some answer) (hne : answer ≠ .fires) :
    Engine.LeavesAlone c ctx o p := by
  cases hattempt : p.attempt c ctx o with
  | error fault => simp [Pattern.answer, hattempt, Except.toOption] at hanswer
  | ok r =>
    obtain ⟨ctx', a⟩ := r
    obtain rfl : a.answer = answer := by
      simpa [Pattern.answer, hattempt, Except.toOption] using hanswer
    obtain rfl := (houtcome ctx' a hattempt).unchanged_of_not_fires hne
    exact ⟨a, hattempt, hne⟩

theorem still_of_settled (ho : ctx.op? o = some op) (hw : ctx.Wired o)
    (h : engine.Settled ctx o) : engine.Still ctx o := by
  have htypes := typeOf_of_wired ho hw
  cases h with
  | legal hlegal => exact .legal hlegal
  | stuck ho' hquiet hrule =>
    obtain rfl := Option.some.inj (ho.symm.trans ho')
    obtain ⟨legal, hlegal, -⟩ := isLegal_target ho htypes
    cases legal with
    | true => exact .legal hlegal
    | false =>
      refine .stuck ho hlegal (fun p hp => ?_) hrule
      have hq := hquiet p hp
      obtain rfl | rfl : p = constructPattern ∨ p = extractPattern := by simpa [engine] using hp
      · change constructPattern.answer .tuples ctx o ≠ _ at hq
        rw [answer_construct ho] at hq
        exact leavesAlone_of_answer (fun _ _ h => construct_outcome ho h) (answer_construct ho)
          fun he => hq (congrArg some he)
      · rw [answer_extract ho htypes] at hq
        exact leavesAlone_of_answer (fun _ _ h => extract_outcome ho h) (answer_extract ho htypes _)
          fun he => hq (congrArg some he)

/-- The body `t` of the module `m` is at rest: its arguments are converted, its operations settled,
and the reasons of `result` are those that the patterns would give again. -/
structure AtRest (ctx : Context) (m : OpId) (t : RegionTree) (result : Engine.Result) : Prop where
  sound : ctx.Sound
  held : t.HeldBy ctx
  nodup : t.opIds.Nodup
  body : ctx.body m = .ok (some t.id)
  argTypes {b : BlockId} {block : Block} : b ∈ t.blockIds → ctx.block? b = some block →
    ∀ ty ∈ block.argTypes, Converter.tuples.convertOrKeep ty = ty
  wired {o : OpId} : o ∈ t.opIds → ctx.Wired o
  settled {o : OpId} : o ∈ t.opIds → engine.Settled ctx o
  reasons {o : OpId} : o ∈ t.opIds →
    result.reasonFor o = Engine.complaint .tuples ctx o engine.patterns

theorem AtRest.convert (h : AtRest ctx m t result) : ∃ again,
    engine.convert ctx m = .ok (ctx, again) ∧ again.rewrites = 0 ∧ again.retyped = 0 ∧
      ∀ o ∈ t.opIds, again.reasonFor o = result.reasonFor o := by
  obtain ⟨again, hconvert, hrewrites, hretyped, hfix, -⟩ :=
    Engine.convert_of_still (e := engine) h.sound h.held h.body rfl
      (fun _ hb _ hblk => h.argTypes hb hblk) fun o ho =>
        still_of_settled (h.held.op?_raw ho) (h.wired ho) (h.settled ho)
  refine ⟨again, hconvert, hrewrites, hretyped, fun o ho => ?_⟩
  obtain ⟨b, hb, -, -, -, hparent⟩ := h.held.exists_block h.sound.linked ho
  rw [h.reasons ho]
  exact static_engine.reasonFor_of_convert explains_engine ⟨h.sound, h.held, h.nodup, h.body⟩
    (fun _ ho => h.wired ho) hconvert hfix hb ⟨_, h.held.op?_raw ho, hparent⟩

theorem leftovers_congr {result' : Engine.Result} {left : List Leftover} (ht : t.HeldBy ctx)
    (hbody : ctx.body m = .ok (some t.id)) (h : leftovers ctx m result = .ok left)
    (hsame : ∀ o ∈ t.opIds, result'.reasonFor o = result.reasonFor o) :
    leftovers ctx m result' = .ok left := by
  simp only [leftovers, Engine.remaining, hbody, except_ok_bind, Context.regionTree_eq_ok_iff.mpr
    ⟨rfl, ht⟩, except_bind_eq_ok, except_pure_eq_ok] at h ⊢
  obtain ⟨illegal, hillegal, rfl⟩ := h
  refine ⟨illegal, hillegal, List.map_congr_left fun o ho => ?_⟩
  rw [hsame o.1 (List.mem_map_of_mem (mem_of_filterM hillegal o ho))]

theorem AtRest.run {left : List Leftover} {report : Report} {verify : Bool}
    (h : AtRest ctx m t result) (hleft : leftovers ctx m result = .ok left)
    (hreport : (if verify then ctx.validateUses m else pure {}) = .ok report) :
    run ctx m verify = .ok (verdict left report ⟨0, 0⟩, ctx) := by
  obtain ⟨again, hconvert, hrewrites, hretyped, hsame⟩ := h.convert
  exact run_eq_ok_iff.mpr (.inr ⟨_, again, left, report, h.body, hconvert,
    leftovers_congr h.held h.body hleft hsame, fun _ => hreport, by rw [hrewrites, hretyped]⟩)

theorem verdict_map (left : List Leftover) (report : Report) (stats stats' : Stats) :
    (verdict left report stats).map (fun _ => stats') = verdict left report stats' := by
  unfold verdict
  split
  · split <;> rfl
  · rfl

end TupleLowering

namespace Context

variable {ctx ctx' : Context} {text : String} {id : OpId} {tree : OpTree} {t : RegionTree}
  {result : Engine.Result} {left : List Leftover} {s : Progress} {image : OpId → OpId}
  {subst : ValueId → ValueId}

theorem Program.atRest (hp : ctx.Program tree) (hbody : tree.regions.head? = some t)
    (h : ctx.Lowers tree.id t ctx' result left s image subst) (hfix : result.fixpoint = true) :
    ∃ t', TupleLowering.AtRest ctx' tree.id t' result := by
  have he := TupleLowering.static_engine
  have ht := bodyOf_of_head hp.sound hp.held hbody
  have hwired (o : OpId) (ho : o ∈ t.opIds) :=
    wired_of_validate hp.sound hp.held hbody hp.validate rfl ho
  have hconv := Engine.converts_of_convert he.settles he.patterns ht h.converts
  obtain ⟨t', hbody', ht', hblocks, hstands⟩ := hconv.exists_body ht
  have hsettled {o : OpId} (ho : o ∈ t'.opIds) :
      ctx'.Wired o ∧ TupleLowering.engine.Settled ctx' o := by
    obtain ⟨b, hb, hst⟩ := hstands o ho
    exact he.settled_of_convert ht hwired h.converts hfix hb hst
  refine ⟨t', hconv.sound, ht', ?_, hbody', fun hb hblk => hconv.argTypes (hblocks _ hb) hblk,
    fun ho => (hsettled ho).1, fun ho => (hsettled ho).2, fun {o} ho => ?_⟩
  · obtain ⟨hid, hheld⟩ := opTree_eq_ok_iff.mp (hp.opTree_of_lowers hbody h)
    have hhead := hheld.body_of_head (OpTree.head?_regions_withBody _ tree)
    rw [hid, hbody', Except.ok.injEq, Option.some.injEq] at hhead
    obtain rfl : t' = (s.tree t).rename image subst := Except.ok.inj
      ((regionTree_eq_ok_iff.mpr ⟨hhead, ht'⟩).symm.trans (regionTree_eq_ok_iff.mpr ⟨rfl, h.held⟩))
    exact (hheld.regions_nodup hconv.sound.linked).2.1 _
      (List.mem_of_mem_head? (OpTree.head?_regions_withBody _ tree))
  · obtain ⟨b, hb, hst⟩ := hstands o ho
    exact he.reasonFor_of_convert TupleLowering.explains_engine ht hwired h.converts hfix hb hst

/-- When a program was lowered, with success or not, lowering it again changes nothing and gives the
same answer, apart from the numbers of what was done. Nothing in a program is used before it is
defined, so that the rewrites do not run out. -/
theorem run_again (hparse : Context.parse {} text = (.ok id, ctx)) (verify : Bool) :
    ∃ verdict ctx', TupleLowering.run ctx id verify = .ok (verdict, ctx') ∧
      TupleLowering.run ctx' id verify = .ok (verdict.map fun _ => ⟨0, 0⟩, ctx') ∧
      ∃ result, TupleLowering.engine.convert ctx' id = .ok (ctx', result) ∧
        result.rewrites = 0 ∧ result.retyped = 0 := by
  obtain ⟨tree, rfl, hp⟩ := program_of_parse hparse
  cases hbody : tree.regions.head? with
  | none =>
    have hnone : ctx.body tree.id = .ok none := by rw [hp.held.body, hbody]; rfl
    have hrun := (@TupleLowering.run_eq_ok_iff _ _ _ verify _).mpr (.inl ⟨hnone, rfl, rfl⟩)
    refine ⟨_, ctx, hrun, hrun, {}, ?_, rfl, rfl⟩
    rw [Engine.convert]
    exact except_bind_eq_ok.mpr ⟨none, hnone, rfl⟩
  | some t =>
    obtain ⟨ctx', result, left, s, image, subst, h⟩ := hp.exists_lowers hbody
    obtain ⟨ending, hends, hfix⟩ := h.ends
    have hio := inOrder_of_parse hparse hp.held rfl t (List.mem_of_mem_head? hbody)
    rw [hends.drained_of (hp.confined hbody) h.steps (.inr hio)] at hfix
    obtain ⟨t', hrest⟩ := hp.atRest hbody h hfix
    obtain ⟨report, hreport⟩ : ∃ report,
        (if verify then ctx'.validateUses tree.id else pure {}) = .ok report := by
      cases verify
      · exact ⟨{}, rfl⟩
      · exact exists_validateUses hrest.sound hrest.held hrest.body
    have hrun := TupleLowering.run_eq_ok_iff.mpr (.inr ⟨_, result, left, report,
      hp.held.body_of_head hbody, h.converts, h.leftovers, fun _ => hreport, rfl⟩)
    obtain ⟨again, hconvert, hrewrites, hretyped, -⟩ := hrest.convert
    refine ⟨_, ctx', hrun, ?_, again, hconvert, hrewrites, hretyped⟩
    rw [TupleLowering.verdict_map]
    exact hrest.run h.leftovers hreport

/-- An extraction that can not be lowered beside a construction that can. -/
def stuckText : String :=
  "core.module @m \x7b
  %0 = t.t : core.i32
  %1 = adt.tuple_get %0 \x7bindex = 0\x7d : core.tuple()
  %2 = adt.tuple_new : core.tuple()
\x7d
"

theorem run_again_stuck : ∃ id ctx left ctx', Context.parse {} stuckText = (.ok id, ctx) ∧
    left ≠ [] ∧ TupleLowering.run ctx id true = .ok (.error (.incomplete left), ctx') ∧
    TupleLowering.run ctx' id true = .ok (.error (.incomplete left), ctx') := by
  have hcheck : (Context.parse {} stuckText).1.toOption.any fun id =>
      (TupleLowering.run (Context.parse {} stuckText).2 id true).toOption.any fun r =>
        match r.1 with
        | .error (.incomplete left) => !left.isEmpty
        | _ => false := by
    decide +kernel
  obtain ⟨id, hid, hcheck⟩ := except_any_iff.mp hcheck
  obtain ⟨⟨answer, ctx'⟩, hrun, hcheck⟩ := except_any_iff.mp hcheck
  have hparse : Context.parse {} stuckText = (.ok id, (Context.parse {} stuckText).2) := by
    rw [← hid, Prod.mk.eta]
  obtain ⟨answer', ctx'', hrun', hagain, -⟩ := run_again hparse true
  obtain ⟨rfl, rfl⟩ := Prod.mk.inj (Except.ok.inj (hrun.symm.trans hrun'))
  match answer, hcheck with
  | .error (.incomplete left), hcheck =>
    exact ⟨id, _, left, ctx', hparse, by simpa using hcheck, hrun, hagain⟩

end Context

end RegionIR
