import RegionIR.Proofs.Context.Histories
import RegionIR.Proofs.Lowering.Frames
import RegionIR.Proofs.Lowering.Renumbering

/-! Modules that are not nested can be lowered in any order.

A lowering leaves the other module as it was, so that the other goes by the account that it had at the
start; what was new before has no part in it. -/

namespace RegionIR

namespace Context

variable {base ctx ctx' ctx₁ ctx₁' ctx₂ ctx₂' : Context} {tree tree' tree₁ tree₂ other : OpTree}
  {t : RegionTree}

/-- The context holds the tree, and the validator finds no error in it. All operands exist. -/
structure Checked (base : Context) (tree : OpTree) : Prop where
  sound : base.Sound
  grounded : base.Grounded
  held : tree.HeldBy base
  passes : ∃ report, base.validate tree.id = .ok report ∧ report.passed

theorem Checked.confined (h : base.Checked tree) (hbody : tree.regions.head? = some t) :
    base.Confined t := by
  obtain ⟨report, hvalid, hpassed⟩ := h.passes
  exact confined_of_validate h.sound (fun _ he => h.grounded.recorded h.sound he) h.held hbody hvalid
    hpassed

/-- The context shows a module as `base` does, and it has all values of `base`. -/
structure Shows (base ctx : Context) (tree : OpTree) : Prop where
  sound : ctx.Sound
  grounded : ∀ e ∈ ctx.ledger, ∃ value, ctx.value? e.1 = some value
  held : tree.HeldBy ctx
  lasts (v : ValueId) (value : Value) : base.value? v = some value →
    ∃ value', ctx.value? v = some value'
  sameOn {t : RegionTree} : tree.regions.head? = some t → base.SameOn ctx t

namespace Shows

theorem refl (h : base.Checked tree) : base.Shows base tree where
  sound := h.sound
  grounded _ he := h.grounded.recorded h.sound he
  held := h.held
  lasts _ value hval := ⟨value, hval⟩
  sameOn _ := .refl base _

theorem confined (hb : base.Checked tree) (h : base.Shows ctx tree)
    (hbody : tree.regions.head? = some t) : ctx.Confined t :=
  (h.sameOn hbody).confined (hb.confined hbody) h.sound
    (h.held.region (List.mem_of_mem_head? hbody)) h.grounded

theorem print_validate (hb : base.Checked tree) (h : base.Shows ctx tree) :
    ctx.print tree.id = base.print tree.id ∧ ctx.validate tree.id = base.validate tree.id := by
  refine ⟨?_, ?_⟩
  · rw [print_of_opTree (opTree_eq_ok_iff.mpr ⟨rfl, h.held⟩),
      print_of_opTree (opTree_eq_ok_iff.mpr ⟨rfl, hb.held⟩)]
  · cases hbody : tree.regions.head? with
    | none =>
      simp only [Context.validate, validateScopes, validateUses, h.held.body, hb.held.body, hbody,
        Option.map_none, except_ok_bind]
    | some t =>
      exact (h.sameOn hbody).validate (hb.confined hbody) (h.confined hb hbody) hb.held h.held hbody

end Shows

/-- Lowering the module `tree` of `base` in `ctx` leads to `ctx'`, where it has become `tree'`. -/
inductive Lowered (base ctx : Context) (tree : OpTree) : Context → OpTree → Prop
  | bodiless : tree.regions.head? = none → Lowered base ctx tree ctx tree
  | concluded {t : RegionTree} {a : Account} {r : Run} {image : OpId → OpId}
      {subst : ValueId → ValueId} : tree.regions.head? = some t →
      base.Concludes ctx tree.id t a r image subst →
      Lowered base ctx tree r.ctx (tree.withBody ((a.tree t).rename image subst))

theorem exists_lowered (hb : base.Checked tree) (h : base.Shows ctx tree) :
    ∃ ctx' tree', base.Lowered ctx tree ctx' tree' := by
  cases hbody : tree.regions.head? with
  | none => exact ⟨ctx, tree, .bodiless hbody⟩
  | some t =>
    have hhead : tree.op.regions.head? = some t.id := by
      have hbodyOf := h.held.body_of_head hbody
      simpa [Context.body, op_eq_ok.mpr h.held.op?_id, pure, Except.pure] using hbodyOf
    have hout : tree.id ∉ t.opIds := fun hm =>
      (h.held.regions_nodup h.sound.linked).1 (List.mem_flatMap.mpr ⟨t, List.mem_of_mem_head? hbody, hm⟩)
    obtain ⟨a, r, image, subst, hcon⟩ := exists_concludes (hb.confined hbody) (h.confined hb hbody)
      (h.sameOn hbody) h.held.op?_id hhead hout
    exact ⟨r.ctx, _, .concluded hbody hcon⟩

namespace Lowered

theorem exists_run (hheld : tree.HeldBy ctx) (h : base.Lowered ctx tree ctx' tree') (verify : Bool) :
    ∃ answer, TupleLowering.run ctx tree.id verify = .ok (answer, ctx') := by
  cases h with
  | bodiless hbody =>
    refine ⟨_, TupleLowering.run_eq_ok_iff.mpr (.inl ⟨?_, rfl, rfl⟩)⟩
    rw [hheld.body, hbody]
    rfl
  | concluded hbody hcon =>
    obtain ⟨answer, hrun, -⟩ := hcon.runs verify
    exact ⟨answer, hrun⟩

theorem answer_eq (h₁ : base.Lowered ctx₁ tree ctx₁' tree₁) (h₂ : base.Lowered ctx₂ tree ctx₂' tree₂)
    (hheld₁ : tree.HeldBy ctx₁) (hheld₂ : tree.HeldBy ctx₂) {verify : Bool}
    {answer₁ answer₂ : Except LoweringError TupleLowering.Stats}
    (hrun₁ : TupleLowering.run ctx₁ tree.id verify = .ok (answer₁, ctx₁'))
    (hrun₂ : TupleLowering.run ctx₂ tree.id verify = .ok (answer₂, ctx₂')) :
    answer₁.toOption = answer₂.toOption := by
  cases h₁ with
  | bodiless hbody =>
    have hnone {ctx : Context} (hheld : tree.HeldBy ctx) : ctx.body tree.id = .ok none := by
      rw [hheld.body, hbody]
      rfl
    rw [TupleLowering.run, hnone hheld₁] at hrun₁
    rw [TupleLowering.run, hnone hheld₂] at hrun₂
    obtain ⟨rfl, -⟩ := Prod.mk.inj (Except.ok.inj hrun₁)
    obtain ⟨rfl, -⟩ := Prod.mk.inj (Except.ok.inj hrun₂)
    rfl
  | concluded hbody hcon₁ =>
    cases h₂ with
    | bodiless hnone => simp [hbody] at hnone
    | concluded hbody₂ hcon₂ =>
      obtain rfl := Option.some.inj (hbody.symm.trans hbody₂)
      obtain rfl := hcon₁.final.unique hcon₂.final
      obtain ⟨_, hrun₁', hiff₁⟩ := hcon₁.runs verify
      obtain ⟨_, hrun₂', hiff₂⟩ := hcon₂.runs verify
      obtain ⟨rfl, -⟩ := Prod.mk.inj (Except.ok.inj (hrun₁.symm.trans hrun₁'))
      obtain ⟨rfl, -⟩ := Prod.mk.inj (Except.ok.inj (hrun₂.symm.trans hrun₂'))
      refine Option.ext fun stats => ?_
      rw [except_toOption_eq_some, except_toOption_eq_some, hiff₁, hiff₂]

theorem id_eq (h : base.Lowered ctx tree ctx' tree') : tree'.id = tree.id := by
  cases h with
  | bodiless => rfl
  | concluded =>
    obtain ⟨id, op, regions⟩ := tree
    rfl

theorem held (hb : base.Checked tree) (hs : base.Shows ctx tree)
    (h : base.Lowered ctx tree ctx' tree') : tree'.HeldBy ctx' := by
  cases h with
  | bodiless => exact hs.held
  | @concluded t a r image subst hbody hcon =>
    have hc := hs.confined hb hbody
    have hid : ((a.tree t).rename image subst).id = t.id :=
      (RegionTree.id_rename _).trans (RegionTree.id_recast t)
    exact hcon.follows.refines.heldBy_withBody hc hs.held hbody hid (hcon.follows.heldBy hc)

theorem text_eq (hb : base.Checked tree) (hs₁ : base.Shows ctx₁ tree) (hs₂ : base.Shows ctx₂ tree)
    (h₁ : base.Lowered ctx₁ tree ctx₁' tree₁) (h₂ : base.Lowered ctx₂ tree ctx₂' tree₂) :
    tree₁.text = tree₂.text := by
  cases h₁ with
  | bodiless hbody =>
    cases h₂ with
    | bodiless => rfl
    | concluded hsome => simp [hbody] at hsome
  | concluded hbody hcon₁ =>
    cases h₂ with
    | bodiless hnone => simp [hbody] at hnone
    | concluded hbody₂ hcon₂ =>
      obtain rfl := Option.some.inj (hbody.symm.trans hbody₂)
      obtain rfl := hcon₁.final.unique hcon₂.final
      exact hcon₁.follows.text_eq (hs₁.confined hb hbody) (hs₁.sameOn hbody) (hs₂.confined hb hbody)
        (hs₂.sameOn hbody) hcon₂.follows hb.sound hb.grounded hb.held hs₁.lasts hs₂.lasts

theorem keeps (hb : base.Checked tree) (hs : base.Shows ctx tree)
    (h : base.Lowered ctx tree ctx' tree') (hother : other.HeldBy ctx) (hapart : Apart tree other) :
    other.HeldBy ctx' := by
  cases h with
  | bodiless => exact hother
  | concluded hbody hcon =>
    exact hcon.follows.refines.keeps (hs.confined hb hbody) hs.held (List.mem_of_mem_head? hbody) hother
      hapart

/-- Another module is shown as before. -/
theorem shows_other (hb : base.Checked tree) (hb' : base.Checked other)
    (h : base.Lowered base tree ctx' tree') (hapart : Apart tree other) : base.Shows ctx' other := by
  have hheld := h.keeps hb (.refl hb) hb'.held hapart
  cases h with
  | bodiless => exact .refl hb'
  | @concluded t a r image subst hbody hcon =>
    have hc := hb.confined hbody
    have hl := hb.sound.linked
    have ht := List.mem_of_mem_head? hbody
    refine ⟨hcon.follows.refines.sound, fun _ he => hcon.follows.refines.grounded he, hheld,
      fun v value hval => hcon.follows.leaves.lasts hval, fun {u} hu => ?_⟩
    have hu' := List.mem_of_mem_head? hu
    refine hcon.follows.sameOn hc (hb'.confined hu) (fun o ho hm => ?_) fun b hb₁ hm => ?_
    · exact hapart.opIds_disjoint hl hb.held hb'.held (opIds_subset_tree hu' ho)
        (opIds_subset_tree ht hm)
    · exact hapart.blockIds_disjoint hl hb.held hb'.held (blockIds_subset_tree hu' hb₁)
        (blockIds_subset_tree ht hm)

/-- The lowered module is still apart from the other: its operations were there, or they are new. -/
theorem apart (h : base.Lowered ctx tree ctx' tree') (hother : other.HeldBy ctx)
    (hapart : Apart tree other) : Apart other tree' := by
  refine ⟨fun hm => ?_, h.id_eq ▸ hapart.1⟩
  cases h with
  | bodiless => exact hapart.2 hm
  | @concluded t a r image subst hbody hcon =>
    obtain ⟨id, op, regions⟩ := tree
    obtain ⟨rest, rfl⟩ : ∃ rest, regions = t :: rest := by
      simpa [OpTree.regions, List.head?_eq_some_iff] using hbody
    have hout := hapart.2
    simp only [OpTree.opIds_eq_regions, OpTree.withBody, OpTree.regions, OpTree.id, List.tail_cons,
      List.flatMap_cons, List.mem_cons, List.mem_append, not_or] at hm hout
    rcases hm with hm | hm | hm
    · exact hout.1 hm
    · rw [RegionTree.opIds, RegionTree.preorder_rename, List.map_map] at hm
      obtain ⟨⟨o, op'⟩, ho, he⟩ := List.mem_map.mp hm
      have hmem : o ∈ t.opIds := RegionTree.opIds_recast_subset (List.mem_map_of_mem ho)
      simp only [Function.comp_apply] at he
      rcases hcon.follows.refines.image_new hmem with hold | hnew
      · exact hout.2.1 (he ▸ hold.symm ▸ hmem)
      · rw [he] at hnew
        have hop := hother.op?_id
        simp only [OpTree.id] at hop
        simp [hop] at hnew
    · exact hout.2.2 hm

end Lowered

/-- Whichever of two modules is lowered first, this leaves the other as it was. Both orders end with the
same texts, and each module gets the same verdict in both, with the same statistics if it is a
success. -/
def LoweringsCommute (ctx : Context) (a b : OpId) (verifyA verifyB : Bool) : Prop :=
  ∃ ctxA ctxAB ctxB ctxBA answerA answerB answerA' answerB' textA textB,
    TupleLowering.run ctx a verifyA = .ok (answerA, ctxA) ∧
    TupleLowering.run ctxA b verifyB = .ok (answerB, ctxAB) ∧
    TupleLowering.run ctx b verifyB = .ok (answerB', ctxB) ∧
    TupleLowering.run ctxB a verifyA = .ok (answerA', ctxBA) ∧
    (ctxA.print b = ctx.print b ∧ ctxA.validate b = ctx.validate b) ∧
    (ctxB.print a = ctx.print a ∧ ctxB.validate a = ctx.validate a) ∧
    (ctxAB.print a = .ok textA ∧ ctxBA.print a = .ok textA) ∧
    (ctxAB.print b = .ok textB ∧ ctxBA.print b = .ok textB) ∧
    answerA.toOption = answerA'.toOption ∧ answerB.toOption = answerB'.toOption

/-- Modules of which neither is nested in the other can be lowered in either order. The first lowering
leaves the other module as it was, so the second goes as it would have gone first. -/
theorem loweringsCommute (hreach : ctx.Reachable) (hground : ctx.Grounded) {a b : OpId}
    {ta tb : OpTree} (hta : ctx.opTree a = .ok ta) (htb : ctx.opTree b = .ok tb)
    (hab : a ∉ tb.opIds) (hba : b ∉ ta.opIds) {ra rb : Report} (hva : ctx.validate a = .ok ra)
    (hpa : ra.passed) (hvb : ctx.validate b = .ok rb) (hpb : rb.passed) (verifyA verifyB : Bool) :
    ctx.LoweringsCommute a b verifyA verifyB := by
  obtain ⟨rfl, hheldA⟩ := opTree_eq_ok_iff.mp hta
  obtain ⟨rfl, hheldB⟩ := opTree_eq_ok_iff.mp htb
  have hcA : ctx.Checked ta := ⟨hreach.sound, hground, hheldA, ra, hva, hpa⟩
  have hcB : ctx.Checked tb := ⟨hreach.sound, hground, hheldB, rb, hvb, hpb⟩
  have hapart : Apart ta tb := ⟨hab, hba⟩
  obtain ⟨ctxA, ta', hA⟩ := exists_lowered hcA (.refl hcA)
  obtain ⟨ctxB, tb', hB⟩ := exists_lowered hcB (.refl hcB)
  have hshowsB := hA.shows_other hcA hcB hapart
  have hshowsA := hB.shows_other hcB hcA hapart.symm
  obtain ⟨ctxAB, tb'', hAB⟩ := exists_lowered hcB hshowsB
  obtain ⟨ctxBA, ta'', hBA⟩ := exists_lowered hcA hshowsA
  obtain ⟨answerA, hrunA⟩ := hA.exists_run hheldA verifyA
  obtain ⟨answerB, hrunAB⟩ := hAB.exists_run hshowsB.held verifyB
  obtain ⟨answerB', hrunB⟩ := hB.exists_run hheldB verifyB
  obtain ⟨answerA', hrunBA⟩ := hBA.exists_run hshowsA.held verifyA
  have hprint {ctx : Context} {id : OpId} {t : OpTree} (hid : t.id = id) (ht : t.HeldBy ctx) :
      ctx.print id = .ok t.text := print_of_opTree (opTree_eq_ok_iff.mpr ⟨hid, ht⟩)
  have hkeptA : ta'.HeldBy ctxAB := hAB.keeps hcB hshowsB (hA.held hcA (.refl hcA))
    (hA.apart hheldB hapart)
  have hkeptB : tb'.HeldBy ctxBA := hBA.keeps hcA hshowsA (hB.held hcB (.refl hcB))
    (hB.apart hheldA hapart.symm)
  refine ⟨ctxA, ctxAB, ctxB, ctxBA, answerA, answerB, answerA', answerB', ta'.text, tb'.text, hrunA,
    hrunAB, hrunB, hrunBA, hshowsB.print_validate hcB, hshowsA.print_validate hcA,
    ⟨hprint hA.id_eq hkeptA, ?_⟩, ⟨?_, hprint hB.id_eq hkeptB⟩, ?_, ?_⟩
  · rw [hA.text_eq hcA (.refl hcA) hshowsA hBA]
    exact hprint hBA.id_eq (hBA.held hcA hshowsA)
  · rw [hB.text_eq hcB (.refl hcB) hshowsB hAB]
    exact hprint hAB.id_eq (hAB.held hcB hshowsB)
  · exact hA.answer_eq hBA hheldA hshowsA.held hrunA hrunBA
  · exact hAB.answer_eq hB hshowsB.held hheldB hrunAB hrunB

/-- A module in which something is put into a tuple and taken out of it again; its first operation,
value and block have the given numbers. -/
def moduleEdits (name : String) (o v b : Nat) (index : UInt64) : List Edit :=
  let nowhere : Location := ⟨"", ⟨0, 0⟩⟩
  let i32 : Ty := .mk "core" "i32" [] []
  [.createOp { location := nowhere, dialect := "t", name := "t", resultTypes := [i32] },
    .createOp
      { location := nowhere, dialect := "adt", name := "tuple_new", operands := [⟨v⟩]
        resultTypes := [.tuple [i32]] },
    .createOp
      { location := nowhere, dialect := "adt", name := "tuple_get", operands := [⟨v + 1⟩]
        resultTypes := [i32], attrs := [("index", .int index)] },
    .createBlock [], .pushOp ⟨b⟩ ⟨o⟩, .pushOp ⟨b⟩ ⟨o + 1⟩, .pushOp ⟨b⟩ ⟨o + 2⟩, .createRegion [⟨b⟩],
    .createOp
      { location := nowhere, dialect := "core", name := "module", regions := [⟨b⟩]
        attrs := [("sym_name", .symbol name)] }]

/-- Two modules. The second asks for too much, so that its lowering fails. -/
def pairEdits : List Edit := moduleEdits "a" 0 0 0 0 ++ moduleEdits "b" 4 3 1 1

theorem loweringsCommute_pair : ∃ ctx ta tb ra rb, ofEdits pairEdits = .ok ctx ∧ ctx.Reachable ∧
    ctx.Grounded ∧ ctx.opTree ⟨3⟩ = .ok ta ∧ ctx.opTree ⟨7⟩ = .ok tb ∧ ⟨3⟩ ∉ tb.opIds ∧
    ⟨7⟩ ∉ ta.opIds ∧ ctx.validate ⟨3⟩ = .ok ra ∧ ra.passed ∧ ctx.validate ⟨7⟩ = .ok rb ∧ rb.passed ∧
    ctx.LoweringsCommute ⟨3⟩ ⟨7⟩ false true := by
  have hcheck : (ofEdits pairEdits).toOption.any fun ctx => decide ctx.Grounded &&
      (ctx.opTree ⟨3⟩).toOption.any fun ta => (ctx.opTree ⟨7⟩).toOption.any fun tb =>
        (ctx.validate ⟨3⟩).toOption.any fun ra => (ctx.validate ⟨7⟩).toOption.any fun rb =>
          ra.passed && rb.passed && decide (⟨3⟩ ∉ tb.opIds ∧ ⟨7⟩ ∉ ta.opIds) := by decide +kernel
  obtain ⟨ctx, hctx, hcheck⟩ := except_any_iff.mp hcheck
  rw [Bool.and_eq_true, decide_eq_true_eq] at hcheck
  obtain ⟨hground, hcheck⟩ := hcheck
  obtain ⟨ta, hta, hcheck⟩ := except_any_iff.mp hcheck
  obtain ⟨tb, htb, hcheck⟩ := except_any_iff.mp hcheck
  obtain ⟨ra, hva, hcheck⟩ := except_any_iff.mp hcheck
  obtain ⟨rb, hvb, hcheck⟩ := except_any_iff.mp hcheck
  simp only [Bool.and_eq_true, decide_eq_true_eq] at hcheck
  obtain ⟨⟨hpa, hpb⟩, hab, hba⟩ := hcheck
  have hr : ctx.Reachable := reachable_iff_exists_edits.mpr ⟨pairEdits, by decide +kernel, hctx⟩
  exact ⟨ctx, ta, tb, ra, rb, hctx, hr, hground, hta, htb, hab, hba, hva, hpa, hvb, hpb,
    loweringsCommute hr hground hta htb hab hba hva hpa hvb hpb false true⟩

/-- Beside two modules stands an extraction whose operand has the number that the first new value will
get. -/
def rivalEdits : List Edit :=
  moduleEdits "a" 0 0 0 0 ++ moduleEdits "b" 4 3 1 0 ++
    [.createBlock [],
      .createOp
        { location := ⟨"", ⟨0, 0⟩⟩, dialect := "adt", name := "tuple_get", operands := [⟨7⟩]
          resultTypes := [.mk "core" "i32" [] []], attrs := [("index", .int 0)] },
      .pushOp ⟨2⟩ ⟨8⟩]

/-- Without the demand that operands exist the module that is lowered first gets a user that is not in
it, and that is lowered with it. -/
theorem not_loweringsCommute_rival : ∃ ctx ta tb ra rb, Reachable ctx ∧ ctx.opTree ⟨3⟩ = .ok ta ∧
    ctx.opTree ⟨7⟩ = .ok tb ∧ ta.op.is "core" "module" ∧ tb.op.is "core" "module" ∧ ⟨3⟩ ∉ tb.opIds ∧
    ⟨7⟩ ∉ ta.opIds ∧ ctx.validate ⟨3⟩ = .ok ra ∧ ra.passed ∧ ctx.validate ⟨7⟩ = .ok rb ∧ rb.passed ∧
    ¬ctx.LoweringsCommute ⟨3⟩ ⟨7⟩ false false := by
  have hcheck : (ofEdits rivalEdits).toOption.any fun ctx =>
      (ctx.opTree ⟨3⟩).toOption.any fun ta => (ctx.opTree ⟨7⟩).toOption.any fun tb =>
        (ctx.validate ⟨3⟩).toOption.any fun ra => (ctx.validate ⟨7⟩).toOption.any fun rb =>
          (TupleLowering.run ctx ⟨3⟩ false).toOption.any fun first =>
            (TupleLowering.run ctx ⟨7⟩ false).toOption.any fun other =>
              (TupleLowering.run other.2 ⟨3⟩ false).toOption.any fun second =>
                ta.op.is "core" "module" && tb.op.is "core" "module" && ra.passed && rb.passed &&
                  decide (⟨3⟩ ∉ tb.opIds ∧ ⟨7⟩ ∉ ta.opIds ∧
                    first.1.toOption ≠ second.1.toOption) := by
    decide +kernel
  obtain ⟨ctx, hctx, hcheck⟩ := except_any_iff.mp hcheck
  obtain ⟨ta, hta, hcheck⟩ := except_any_iff.mp hcheck
  obtain ⟨tb, htb, hcheck⟩ := except_any_iff.mp hcheck
  obtain ⟨ra, hva, hcheck⟩ := except_any_iff.mp hcheck
  obtain ⟨rb, hvb, hcheck⟩ := except_any_iff.mp hcheck
  obtain ⟨⟨first, ctxA⟩, hfirst, hcheck⟩ := except_any_iff.mp hcheck
  obtain ⟨⟨other, ctxB⟩, hother, hcheck⟩ := except_any_iff.mp hcheck
  obtain ⟨⟨second, ctxBA⟩, hsecond, hcheck⟩ := except_any_iff.mp hcheck
  simp only [Bool.and_eq_true, decide_eq_true_eq] at hcheck
  obtain ⟨⟨⟨⟨hma, hmb⟩, hpa⟩, hpb⟩, hab, hba, hne⟩ := hcheck
  have hr : ctx.Reachable := reachable_iff_exists_edits.mpr ⟨rivalEdits, by decide +kernel, hctx⟩
  refine ⟨ctx, ta, tb, ra, rb, hr, hta, htb, hma, hmb, hab, hba, hva, hpa, hvb, hpb, ?_⟩
  rintro ⟨ctxA', ctxAB, ctxB', ctxBA', x, y, x', y', -, -, hA, -, hB, hBA, -, -, -, -, hx, -⟩
  obtain ⟨rfl, -⟩ := Prod.mk.inj (Except.ok.inj (hfirst.symm.trans hA))
  obtain ⟨-, rfl⟩ := Prod.mk.inj (Except.ok.inj (hother.symm.trans hB))
  obtain ⟨rfl, -⟩ := Prod.mk.inj (Except.ok.inj (hsecond.symm.trans hBA))
  exact hne hx

end Context

end RegionIR
