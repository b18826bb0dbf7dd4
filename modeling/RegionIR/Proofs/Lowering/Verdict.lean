import RegionIR.Proofs.Lowering.Answers
import RegionIR.Proofs.Lowering.Result
import RegionIR.Proofs.Rewrite.Conversions
import RegionIR.Proofs.Source.Passes

/-! What it means that a lowering succeeds.

The verdict looks at the operations that are left in the body of the module. The arguments of its
blocks are not looked at, but they were converted first, and nothing that comes later changes their
types or brings in further blocks. -/

namespace RegionIR

namespace Context

variable {ctx ctx' : Context} {m : OpId} {tree : OpTree} {t : RegionTree}

/-- No tuple operation, and neither operand nor result nor attribute mentions a tuple type. -/
structure WithoutTuples (ctx : Context) (op : Op) : Prop where
  name : op.isTupleOp = false
  operands : ∀ v ∈ op.operands, ∃ ty, ctx.typeOf v = .ok ty ∧
    ∀ s, Ty.Mentions s ty → s.isTuple = false
  results : ∀ v ∈ op.results, ∃ ty, ctx.typeOf v = .ok ty ∧
    ∀ s, Ty.Mentions s ty → s.isTuple = false
  resultTypes : ∀ ty ∈ op.resultTypes, ∀ s, Ty.Mentions s ty → s.isTuple = false
  attrs : ∀ e ∈ op.attrs, ∀ s, Attr.Mentions s e.2 → s.isTuple = false

/-- Neither in the table of values nor in the block itself an argument mentions a tuple type. -/
structure ArgsWithoutTuples (ctx : Context) (block : Block) : Prop where
  args : ∀ v ∈ block.args, ∃ ty, ctx.typeOf v = .ok ty ∧
    ∀ s, Ty.Mentions s ty → s.isTuple = false
  argTypes : ∀ ty ∈ block.argTypes, ∀ s, Ty.Mentions s ty → s.isTuple = false

theorem withoutTuples_of_isLegal (hs : ctx.Sound) {o : OpId} {op : Op} (ho : ctx.op? o = some op)
    (h : TupleLowering.target.isLegal ctx o = .ok true) : ctx.WithoutTuples op := by
  rw [Target.isLegal_of_static rfl ho, TupleLowering.staticRule_target] at h
  cases hname : op.isTupleOp
  swap
  · simp [hname] at h
  simp only [hname, Bool.false_eq_true, if_false, TupleLowering.target, Converter.isLegalOp,
    op_eq_ok.mpr ho, except_ok_bind, except_bind_eq_ok] at h
  obtain ⟨legal, hoperands, h⟩ := h
  cases legal
  · simp at h
  simp only [if_true, except_pure_eq_ok, Bool.and_eq_true, List.all_eq_true,
    Converter.areLegalEntries_eq] at h
  refine ⟨hname, fun v hv => ?_, fun v hv => ?_,
    fun ty hty _ => Ty.not_isTuple_of_mentions (h.1 ty hty),
    fun e he _ => Attr.not_isTuple_of_mentions (h.2 e he)⟩
  · have hlegal := forall_of_allM hoperands v hv
    simp only [except_bind_eq_ok, except_pure_eq_ok] at hlegal
    obtain ⟨ty, hty, hfree⟩ := hlegal
    exact ⟨ty, hty, fun _ => Ty.not_isTuple_of_mentions hfree⟩
  · obtain ⟨i, hi⟩ := List.mem_iff_getElem?.mp hv
    obtain ⟨ty, hty, hval⟩ := hs.typed.result ho hi
    exact ⟨ty, typeOf_eq_ok.mpr ⟨_, hval, rfl⟩,
      fun _ => Ty.not_isTuple_of_mentions (h.1 ty (List.mem_of_getElem? hty))⟩

theorem illegalIn_eq_ok_nil {r : Target} (h : r.illegalIn ctx t = .ok []) :
    ∀ o ∈ t.preorder, r.isLegal ctx o.1 = .ok true := by
  intro o ho
  have hlegal := filterM_eq_ok_nil h o ho
  simp only [except_bind_eq_ok, except_pure_eq_ok, Bool.not_eq_false'] at hlegal
  obtain ⟨_, hlegal, rfl⟩ := hlegal
  exact hlegal

theorem exists_convert_of_run {verify : Bool} {stats : TupleLowering.Stats}
    (h : TupleLowering.run ctx m verify = .ok (.ok stats, ctx')) :
    ∃ r result, ctx.body m = .ok (some r) ∧
      TupleLowering.engine.convert ctx m = .ok (ctx', result) ∧
      Engine.remaining TupleLowering.target ctx' m = .ok [] := by
  rcases TupleLowering.run_eq_ok_iff.mp h with
    ⟨-, -, hanswer⟩ | ⟨r, result, left, report, hbody, hconvert, hleft, -, hanswer⟩
  · simp at hanswer
  · obtain ⟨rfl, -⟩ := TupleLowering.verdict_eq_ok_iff.mp hanswer.symm
    simp only [TupleLowering.leftovers, except_bind_eq_ok, except_pure_eq_ok,
      List.map_eq_nil_iff] at hleft
    obtain ⟨_, hleft, rfl⟩ := hleft
    exact ⟨r, result, hbody, hconvert, hleft⟩

/-- If a lowering succeeds nothing in the body of the module mentions a tuple type. -/
theorem withoutTuples_of_run (hreach : ctx.Reachable) (htree : ctx.opTree m = .ok tree)
    {verify : Bool} {stats : TupleLowering.Stats}
    (hrun : TupleLowering.run ctx m verify = .ok (.ok stats, ctx')) :
    ∃ body, ctx'.body m = .ok (some body.id) ∧ ctx'.regionTree body.id = .ok body ∧
      (∀ o ∈ body.preorder, ctx'.WithoutTuples o.2) ∧
      ∀ b ∈ body.allBlocks, ∃ block, ctx'.block? b.id = some block ∧
        ctx'.ArgsWithoutTuples block := by
  obtain ⟨rfl, hheld⟩ := opTree_eq_ok_iff.mp htree
  obtain ⟨r, result, hregion, hconvert, hremaining⟩ := exists_convert_of_run hrun
  have hs := hreach.sound
  obtain ⟨t, hbody, rfl⟩ : ∃ t, tree.regions.head? = some t ∧ t.id = r := by
    rw [hheld.body, Except.ok.injEq, Option.map_eq_some_iff] at hregion
    exact hregion
  have ht := bodyOf_of_head hs hheld hbody
  have he := TupleLowering.static_engine
  have hconv := Engine.converts_of_convert he.settles he.patterns ht hconvert
  obtain ⟨body, hbody', ht', hblocks, -⟩ := hconv.exists_body ht
  have htree' := regionTree_eq_ok_iff.mpr ⟨rfl, ht'⟩
  simp only [Engine.remaining, hbody', except_ok_bind, htree'] at hremaining
  refine ⟨body, hbody', htree', fun o ho => ?_, fun b hb => ?_⟩
  · exact withoutTuples_of_isLegal hconv.sound (ht'.op?_of_mem ho)
      (illegalIn_eq_ok_nil hremaining o ho)
  · have hid := hblocks b.id (RegionTree.HeldBy.mem_blockIds_iff.mpr ⟨b, hb, rfl⟩)
    obtain ⟨hblk, -⟩ := ht'.block hb
    have hfree {ty : Ty} (hty : ty ∈ _) (s : Ty) :=
      Ty.not_isTuple_of_mentions (s := s)
        (Ty.lowered_eq_self_iff.mp (hconv.argTypes hid hblk ty hty))
    refine ⟨_, hblk, fun v hv => ?_, fun ty hty s => hfree hty s⟩
    obtain ⟨i, hi⟩ := List.mem_iff_getElem?.mp hv
    obtain ⟨ty, hty, hval⟩ := hconv.sound.typed.argument hblk hi
    exact ⟨ty, typeOf_eq_ok.mpr ⟨_, hval, rfl⟩, fun s => hfree (List.mem_of_getElem? hty) s⟩

/-- A block argument of a tuple type, which is taken apart, and one that is not used. -/
def argumentText : String :=
  "core.module @m \x7b
  t.t \x7b
  ^bb0(%0: core.tuple(core.i32), %1: t.box(core.tuple())):
    %2 = adt.tuple_get %0 \x7bindex = 0\x7d : core.i32
  \x7d
\x7d
"

theorem withoutTuples_of_run_argument : ∃ tree stats ctx',
    (Context.parse {} argumentText).2.Reachable ∧
    (Context.parse {} argumentText).2.opTree ⟨2⟩ = .ok tree ∧
    TupleLowering.run (Context.parse {} argumentText).2 ⟨2⟩ true = .ok (.ok stats, ctx') ∧
    ∃ body, ctx'.body ⟨2⟩ = .ok (some body.id) ∧ ctx'.regionTree body.id = .ok body ∧
      (∀ o ∈ body.preorder, ctx'.WithoutTuples o.2) ∧
      ∀ b ∈ body.allBlocks, ∃ block, ctx'.block? b.id = some block ∧
        ctx'.ArgsWithoutTuples block := by
  have hr : (Context.parse {} argumentText).2.Reachable :=
    Reachable.empty.parse_isOk (by decide +kernel)
  have hcheck : ((Context.parse {} argumentText).2.opTree ⟨2⟩).toOption.any fun _ =>
      (TupleLowering.run (Context.parse {} argumentText).2 ⟨2⟩ true).toOption.any fun r =>
        r.1.toOption.any fun _ => true := by
    decide +kernel
  obtain ⟨tree, htree, hcheck⟩ := except_any_iff.mp hcheck
  obtain ⟨⟨answer, ctx'⟩, hrun, hcheck⟩ := except_any_iff.mp hcheck
  obtain ⟨stats, hanswer, -⟩ := except_any_iff.mp hcheck
  obtain rfl : answer = .ok stats := hanswer
  exact ⟨tree, stats, ctx', hr, htree, hrun, withoutTuples_of_run hr htree hrun⟩

end Context

end RegionIR
