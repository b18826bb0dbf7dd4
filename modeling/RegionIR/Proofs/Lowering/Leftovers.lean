import RegionIR.Proofs.Lowering.Scopes
import RegionIR.Proofs.Lowering.SecondRun
import RegionIR.Proofs.Lowering.TupleFree

/-! What a failed lowering reports.

A reason is noted when a pattern declines an operation, and may be noted again later; the report is
made up when the lowering is over. A program that comes to rest has the reasons that the patterns
would give then, so the report can be told from the final body alone. There is a tuple operation in
it, because without one no value of the body would mention a tuple. -/

namespace RegionIR

/-- Whether a tuple type is mentioned in the type. -/
def Ty.MentionsTuple (t : Ty) : Prop := ∃ s, Ty.Mentions s t ∧ s.isTuple

def Attr.MentionsTuple (a : Attr Ty) : Prop := ∃ s, Attr.Mentions s a ∧ s.isTuple

theorem Ty.mentionsTuple_iff {t : Ty} : t.MentionsTuple ↔ ¬t.TupleFree := by
  constructor
  · rintro ⟨s, hs, htuple⟩ hfree
    simp [Ty.not_isTuple_of_mentions hfree hs] at htuple
  · intro hnot
    by_contra hnone
    apply hnot
    apply Ty.tupleFree_of_mentions
    intro s hs
    by_contra htuple
    exact hnone ⟨s, hs, by simpa using htuple⟩

theorem Attr.mentionsTuple_iff {a : Attr Ty} : a.MentionsTuple ↔ ¬a.TupleFree := by
  constructor
  · rintro ⟨s, hs, htuple⟩ hfree
    simp [Attr.not_isTuple_of_mentions hfree hs] at htuple
  · intro hnot
    by_contra hnone
    apply hnot
    apply Attr.tupleFree_of_mentions
    intro s hs
    by_contra htuple
    exact hnone ⟨s, hs, by simpa using htuple⟩

instance (t : Ty) : Decidable t.MentionsTuple := decidable_of_iff _ Ty.mentionsTuple_iff.symm

instance (a : Attr Ty) : Decidable a.MentionsTuple := decidable_of_iff _ Attr.mentionsTuple_iff.symm

namespace Op

variable {types : ValueId → Ty} {op : Op}

/-- A tuple operation, or one that mentions a tuple type in the type of an operand, in the type of a
result or in an attribute. -/
def InvolvesTuples (types : ValueId → Ty) (op : Op) : Prop :=
  op.isTupleOp ∨ (∃ v ∈ op.operands, (types v).MentionsTuple) ∨
    (∃ ty ∈ op.resultTypes, ty.MentionsTuple) ∨ ∃ a ∈ op.attrs, a.2.MentionsTuple

instance : Decidable (op.InvolvesTuples types) :=
  inferInstanceAs (Decidable (_ ∨ (∃ v ∈ op.operands, (types v).MentionsTuple) ∨
    (∃ ty ∈ op.resultTypes, ty.MentionsTuple) ∨ ∃ a ∈ op.attrs, a.2.MentionsTuple))

theorem involvesTuples_iff : op.InvolvesTuples types ↔ ¬op.Legal types := by
  simp only [InvolvesTuples, Legal, Ty.mentionsTuple_iff, Attr.mentionsTuple_iff, not_and_or,
    not_forall, Bool.not_eq_false, exists_prop]

/-- What stands in the way of lowering a tuple operation, when the operands have the given types. It
is not said of operations that are no well-formed tuple operations. -/
def obstacle (types : ValueId → Ty) (op : Op) : Option String :=
  if op.is "adt" "tuple_new" then
    match op.resultTypes with
    | [type] => if type.isTuple then some "operand count does not match tuple arity" else none
    | _ => none
  else if op.is "adt" "tuple_get" then
    match op.operands, op.resultTypes, op.attrs.find? "index" with
    | [tuple], [_], some (.int _) =>
      some (if (types tuple).structFields.isSome then "index out of bounds"
        else "expected struct type as input")
    | _, _, _ => none
  else none

theorem obstacle_of_isNew (his : op.is "adt" "tuple_new")
    (hlen : op.results.length = op.resultTypes.length) :
    op.obstacle types = op.construction?.bind fun type =>
      if type.isTuple then some "operand count does not match tuple arity" else none := by
  rw [obstacle, if_pos his]
  split
  · rename_i type hty
    rw [hty, List.length_singleton, List.length_eq_one_iff] at hlen
    rw [construction?_eq_some_iff.mpr ⟨his, hlen, hty⟩, Option.bind_some]
  · rename_i hnot
    cases hc : op.construction? with
    | none => rfl
    | some type => exact absurd (construction?_eq_some_iff.mp hc).2.2 (hnot type)

theorem obstacle_of_isGet (his : op.is "adt" "tuple_get")
    (hlen : op.results.length = op.resultTypes.length) :
    op.obstacle types = op.extraction?.map fun e =>
      if (types e.1).structFields.isSome then "index out of bounds"
      else "expected struct type as input" := by
  rw [obstacle, if_neg (by simp [not_isNew_of_isGet his]), if_pos his]
  split
  · rename_i tuple type index hops hty hindex
    rw [hty, List.length_singleton, List.length_eq_one_iff] at hlen
    rw [extraction?_eq_some_iff.mpr ⟨his, hops, hlen, ⟨type, hty⟩, index, hindex, rfl⟩,
      Option.map_some]
  · rename_i hnot
    cases he : op.extraction? with
    | none => rfl
    | some e =>
      obtain ⟨tuple, index⟩ := e
      obtain ⟨-, hops, -, ⟨type, hty⟩, bits, hindex, -⟩ := extraction?_eq_some_iff.mp he
      exact absurd hindex (hnot tuple type bits hops hty)

theorem reason_eq_obstacle (hlen : op.results.length = op.resultTypes.length)
    (hnew : op.constructAnswer ≠ .fires) (hget : op.extractAnswer types ≠ .fires) :
    (op.extractAnswer types).reason?.or op.constructAnswer.reason? = op.obstacle types := by
  have hc (hnot : ¬op.is "adt" "tuple_new") : op.construction? = none := by
    cases hc : op.construction? with
    | none => rfl
    | some type => exact absurd (construction?_eq_some_iff.mp hc).1 hnot
  have he (hnot : ¬op.is "adt" "tuple_get") : op.extraction? = none := by
    cases he : op.extraction? with
    | none => rfl
    | some e => exact absurd (extraction?_eq_some_iff.mp he).1 hnot
  by_cases hisnew : op.is "adt" "tuple_new"
  · rw [obstacle_of_isNew hisnew hlen]
    simp only [extractAnswer, extraction?_of_isNew hisnew, constructAnswer] at hnew ⊢
    cases hc : op.construction? with
    | none => rfl
    | some type =>
      simp only [hc] at hnew ⊢
      cases htuple : type.isTuple
      · simp [htuple, Answer.reason?]
      · by_cases hcount : type.params.length = op.operands.length
        · simp [htuple, hcount] at hnew
        · simp [htuple, hcount, Answer.reason?]
  · by_cases hisget : op.is "adt" "tuple_get"
    · rw [obstacle_of_isGet hisget hlen]
      simp only [extractAnswer, constructAnswer, hc hisnew] at hget ⊢
      cases he : op.extraction? with
      | none => rfl
      | some e =>
        simp only [he] at hget ⊢
        cases hf : (types e.1).structFields with
        | none => simp [hf, Answer.reason?]
        | some fields =>
          simp only [hf] at hget ⊢
          by_cases hin : fields[e.2]?.isSome
          · simp [hin] at hget
          · simp [hf, hin, Answer.reason?]
    · simp [obstacle, hisnew, hisget, extractAnswer, constructAnswer, hc hisnew, he hisget,
        Answer.reason?]

/-- An extraction from a struct that is not rewritten asks for a field that there is not. -/
theorem fields_le_of_extractAnswer {tuple : ValueId} {index : Nat} {fields : List (String × Ty)}
    (hget : op.extractAnswer types ≠ .fires) (he : op.extraction? = some (tuple, index))
    (hf : (types tuple).structFields = some fields) : fields.length ≤ index := by
  simp only [extractAnswer, he, hf] at hget
  by_contra hlt
  simp [List.getElem?_eq_getElem (Nat.lt_of_not_le hlt)] at hget

end Op

namespace TupleLowering

variable {ctx : Context} {o : OpId} {op : Op} {m : OpId} {t : RegionTree} {result : Engine.Result}

theorem legal_of_isLegal (ho : ctx.op? o = some op) (hw : ctx.Wired o)
    (h : target.isLegal ctx o = .ok true) : op.Legal ctx.tyOf := by
  obtain ⟨legal, hlegal, hiff⟩ := isLegal_target ho (typeOf_of_wired ho hw)
  exact hiff.mp (Except.ok.inj (hlegal.symm.trans h))

theorem answers_of_settled (ho : ctx.op? o = some op) (hw : ctx.Wired o)
    (h : engine.Settled ctx o) :
    op.constructAnswer ≠ .fires ∧ op.extractAnswer ctx.tyOf ≠ .fires := by
  cases h with
  | legal hlegal =>
    have hname := (legal_of_isLegal ho hw hlegal).1
    constructor
    · intro hnew
      simp [Op.isTupleOp_of_constructAnswer hnew] at hname
    · intro hget
      simp [Op.isTupleOp_of_extractAnswer hget] at hname
  | stuck ho' hquiet _ =>
    obtain rfl := Option.some.inj (ho.symm.trans ho')
    exact answers_of_quiet ho hw hquiet

/-- Unless it is a tuple operation nothing is left to retype about an operation that is settled. -/
theorem tupleFree_of_settled (ho : ctx.op? o = some op) (hw : ctx.Wired o)
    (h : engine.Settled ctx o) (hname : op.isTupleOp = false) : op.TupleFree := by
  cases h with
  | legal hlegal => exact (legal_of_isLegal ho hw hlegal).tupleFree
  | stuck ho' _ hrule =>
    obtain rfl := Option.some.inj (ho.symm.trans ho')
    rcases hrule with hrule | hself
    · change target.staticRule op = _ at hrule
      simp [staticRule_target, hname] at hrule
    · exact Op.tupleFree_of_retyped hname hself

namespace AtRest

theorem reasonFor_eq (h : AtRest ctx m t result) (ho : o ∈ t.opIds) :
    result.reasonFor o = (ctx.raw o).obstacle ctx.tyOf := by
  have hop := h.held.op?_raw ho
  obtain ⟨hnew, hget⟩ := answers_of_settled hop (h.wired ho) (h.settled ho)
  rw [h.reasons ho, complaint_engine hop (h.wired ho)]
  exact Op.reason_eq_obstacle (h.sound.typed.results_length hop) hnew hget

theorem isLegal_eq (h : AtRest ctx m t result) {p : OpId × Op} (hp : p ∈ t.preorder) :
    target.isLegal ctx p.1 = .ok !decide (p.2.InvolvesTuples ctx.tyOf) := by
  have hop := h.held.op?_of_mem hp
  obtain ⟨legal, hlegal, hiff⟩ :=
    isLegal_target hop (typeOf_of_wired hop (h.wired (List.mem_map_of_mem hp)))
  rw [hlegal, Except.ok.injEq, Bool.eq_iff_iff, hiff]
  simp [Op.involvesTuples_iff]

theorem leftovers_eq (h : AtRest ctx m t result) : leftovers ctx m result =
    .ok ((t.preorder.filter fun p => decide (p.2.InvolvesTuples ctx.tyOf)).map fun p =>
      ⟨p.1, p.2.fullName, p.2.obstacle ctx.tyOf⟩) := by
  have hillegal : target.illegalIn ctx t =
      .ok (t.preorder.filter fun p => decide (p.2.InvolvesTuples ctx.tyOf)) := by
    refine filterM_of_ok fun p hp => ?_
    rw [h.isLegal_eq hp, except_ok_bind, Bool.not_not]
    rfl
  simp only [leftovers, Engine.remaining, h.body, except_ok_bind,
    Context.regionTree_eq_ok_iff.mpr ⟨rfl, h.held⟩, hillegal]
  refine congrArg Except.ok (List.map_congr_left fun p hp => ?_)
  have hmem := List.mem_of_mem_filter hp
  rw [h.reasonFor_eq (List.mem_map_of_mem hmem), Context.raw_of_some (h.held.op?_of_mem hmem)]

theorem op_tupleFree (h : AtRest ctx m t result) {p : OpId × Op} (hp : p ∈ t.preorder)
    (hname : p.2.isTupleOp = false) : p.2.TupleFree :=
  have hmem : p.1 ∈ t.opIds := List.mem_map_of_mem hp
  tupleFree_of_settled (h.held.op?_of_mem hp) (h.wired hmem) (h.settled hmem) hname

theorem tupleFree (h : AtRest ctx m t result) (hnone : ∀ p ∈ t.preorder, p.2.isTupleOp = false) :
    t.TupleFree := by
  constructor
  · exact fun p hp => h.op_tupleFree hp (hnone p hp)
  · intro b hb a ha
    have hid : b.id ∈ t.blockIds := RegionTree.HeldBy.mem_blockIds_iff.mpr ⟨b, hb, rfl⟩
    obtain ⟨hblk, hargs, hvals, -, -⟩ := h.held.block hb
    obtain ⟨value, hval, hty⟩ := hvals a ha
    obtain ⟨i, hi⟩ := List.mem_iff_getElem?.mp (hargs ▸ List.mem_map_of_mem ha)
    obtain ⟨ty, htys, hval'⟩ := h.sound.typed.argument hblk hi
    obtain rfl := Option.some.inj (hval.symm.trans hval')
    rw [← hty]
    exact Ty.lowered_eq_self_iff.mp (h.argTypes hid hblk ty (List.mem_of_getElem? htys))

/-- Tuples are left only where a tuple operation is. -/
theorem exists_tupleOp (h : AtRest ctx m t result)
    (hoperands : ∀ p ∈ t.preorder, ∀ v ∈ p.2.operands, v ∈ Context.definedValues t)
    {p : OpId × Op} (hp : p ∈ t.preorder) (hinvolves : p.2.InvolvesTuples ctx.tyOf) :
    ∃ q ∈ t.preorder, q.2.isTupleOp := by
  by_contra hnone
  have hfree := h.tupleFree fun q hq => by
    by_contra htuple
    exact hnone ⟨q, hq, by simpa using htuple⟩
  have hlegal := Context.isLegal_of_tupleFree h.sound.typed h.held hfree (List.mem_map_of_mem hp)
    fun v hv => hoperands p hp v (by rwa [Context.raw_of_some (h.held.op?_of_mem hp)] at hv)
  rw [h.isLegal_eq hp] at hlegal
  simp [hinvolves] at hlegal

theorem fields_le (h : AtRest ctx m t result) {p : OpId × Op} (hp : p ∈ t.preorder)
    {tuple : ValueId} {index : Nat} (he : p.2.extraction? = some (tuple, index))
    {fields : List (String × Ty)} (hf : (ctx.tyOf tuple).structFields = some fields) :
    fields.length ≤ index := by
  have hmem : p.1 ∈ t.opIds := List.mem_map_of_mem hp
  obtain ⟨-, hget⟩ := answers_of_settled (h.held.op?_of_mem hp) (h.wired hmem) (h.settled hmem)
  exact Op.fields_le_of_extractAnswer hget he hf

end AtRest

end TupleLowering

namespace Context

variable {ctx ctx' : Context} {text : String} {id : OpId} {tree : OpTree} {t body : RegionTree}
  {result : Engine.Result}

theorem Program.operands_defined (hp : ctx.Program tree) (hhead : tree.regions.head? = some t)
    (hconvert : TupleLowering.engine.convert ctx tree.id = .ok (ctx', result))
    (hrest : TupleLowering.AtRest ctx' tree.id body result) :
    ∀ p ∈ body.preorder, ∀ v ∈ p.2.operands, v ∈ definedValues body := by
  obtain ⟨run, hpass, rfl⟩ := Engine.exists_passesThrough (hp.held.body_of_head hhead) hconvert
  obtain ⟨body', hbody', hscoped⟩ := TupleLowering.scoped_of_passesThrough hpass
    (bodyOf_of_head hp.sound hp.held hhead)
    (scoped_of_validate hp.sound hp.held hhead hp.validate rfl)
  have hid := Option.some.inj (Except.ok.inj (hrest.body.symm.trans hbody'))
  obtain rfl : body = body' := Except.ok.inj
    ((regionTree_eq_ok_iff.mpr ⟨hid, hrest.held⟩).symm.trans
      (regionTree_eq_ok_iff.mpr ⟨rfl, hscoped.held⟩))
  exact defined_of_scopeErrors hscoped.inScope

/-- When a text cannot be lowered, what is reported can be told from the final body. It is the
operations that involve tuples, in order, each with what stands in its way. There is a tuple operation
among them, and the others mention tuples in the types of their operands only. An extraction that
finds a struct asks it for a field that it has not. Nothing is reported for want of rewrites. -/
theorem leftovers_of_run (hparse : Context.parse {} text = (.ok id, ctx)) {r : RegionId}
    (hbody : ctx.body id = .ok (some r)) {e : LoweringError}
    (hrun : TupleLowering.run ctx id false = .ok (.error e, ctx')) :
    ∃ left body, e = .incomplete left ∧ ctx'.body id = .ok (some body.id) ∧
      ctx'.regionTree body.id = .ok body ∧
      (∀ p ∈ body.preorder, ∀ v ∈ p.2.operands, ctx'.typeOf v = .ok (ctx'.tyOf v)) ∧
      left = (body.preorder.filter fun p => decide (p.2.InvolvesTuples ctx'.tyOf)).map (fun p =>
        ⟨p.1, p.2.fullName, p.2.obstacle ctx'.tyOf⟩) ∧
      (∃ p ∈ body.preorder, p.2.isTupleOp) ∧
      (∀ p ∈ body.preorder, p.2.isTupleOp = false →
        (∀ ty ∈ p.2.resultTypes, ¬ty.MentionsTuple) ∧ ∀ a ∈ p.2.attrs, ¬a.2.MentionsTuple) ∧
      ∀ p ∈ body.preorder, p.2.is "adt" "tuple_get" → ∀ tuple type index fields,
        p.2.operands = [tuple] → p.2.resultTypes = [type] →
        p.2.attrs.find? "index" = some (.int index) →
        (ctx'.tyOf tuple).structFields = some fields → fields.length ≤ index.toNat := by
  obtain ⟨tree, rfl, hp⟩ := program_of_parse hparse
  obtain ⟨t, hhead, rfl⟩ : ∃ t, tree.regions.head? = some t ∧ t.id = r := by
    simpa [hp.held.body] using hbody
  obtain ⟨ctx₁, result, left, s, image, subst, h⟩ := hp.exists_lowers hhead
  obtain ⟨hne, rfl, rfl⟩ : left ≠ [] ∧ e = .incomplete left ∧ ctx' = ctx₁ := by
    have hanswer := Except.ok.inj (hrun.symm.trans (h.run_unverified hbody))
    by_cases hnil : left = []
    · simp [hnil] at hanswer
    · simp only [hnil, if_false, Prod.mk.injEq, Except.error.injEq] at hanswer
      exact ⟨hnil, hanswer⟩
  obtain ⟨ending, hends, hfix⟩ := h.ends
  have hio := inOrder_of_parse hparse hp.held rfl t (List.mem_of_mem_head? hhead)
  rw [hends.drained_of (hp.confined hhead) h.steps (.inr hio)] at hfix
  obtain ⟨body, hrest⟩ := hp.atRest hhead h hfix
  have hoperands := hp.operands_defined hhead h.converts hrest
  have hleft := Except.ok.inj (h.leftovers.symm.trans hrest.leftovers_eq)
  refine ⟨left, body, rfl, hrest.body, regionTree_eq_ok_iff.mpr ⟨rfl, hrest.held⟩, ?_, hleft, ?_, ?_,
    ?_⟩
  · intro q hq v hv
    obtain ⟨value, hval⟩ :=
      exists_value_of_defined hrest.sound.typed hrest.held (hoperands q hq v hv)
    exact typeOf_of_value?_eq_some hval
  · obtain ⟨l, hl⟩ := List.exists_mem_of_ne_nil _ hne
    rw [hleft] at hl
    obtain ⟨q, hq, -⟩ := List.mem_map.mp hl
    obtain ⟨hq, hinvolves⟩ := List.mem_filter.mp hq
    exact hrest.exists_tupleOp hoperands hq (of_decide_eq_true hinvolves)
  · intro q hq hname
    obtain ⟨-, hresults, hattrs⟩ := hrest.op_tupleFree hq hname
    exact ⟨fun ty hty => by simpa [Ty.mentionsTuple_iff] using hresults ty hty,
      fun a ha => by simpa [Attr.mentionsTuple_iff] using hattrs a ha⟩
  · intro q hq his tuple type index fields hops hty hindex hfields
    have hlen := hrest.sound.typed.results_length (hrest.held.op?_of_mem hq)
    rw [hty, List.length_singleton, List.length_eq_one_iff] at hlen
    exact hrest.fields_le hq
      (Op.extraction?_eq_some_iff.mpr ⟨his, hops, hlen, ⟨type, hty⟩, index, hindex, rfl⟩) hfields

/-- One operation for each obstacle, a tuple operation that neither pattern looks at, and a use of a
tuple that is left. Only the construction of `%1` is lowered. -/
def obstaclesText : String :=
  "core.module @m \x7b
  %0 = adt.tuple_new : core.tuple(t.i)
  %1 = adt.tuple_new : core.tuple()
  %2 = adt.tuple_get %1 \x7bindex = 0\x7d : t.i
  %3 = adt.tuple_get %0 \x7bindex = 0\x7d : t.i
  %4 = adt.tuple_new : t.i
  t.u %0
\x7d
"

theorem leftovers_of_run_obstacles : ∃ id ctx r left ctx' body,
    Context.parse {} obstaclesText = (.ok id, ctx) ∧ ctx.body id = .ok (some r) ∧
    TupleLowering.run ctx id false = .ok (.error (.incomplete left), ctx') ∧
    ctx'.regionTree r = .ok body ∧
    left = (body.preorder.filter fun p => decide (p.2.InvolvesTuples ctx'.tyOf)).map (fun p =>
      ⟨p.1, p.2.fullName, p.2.obstacle ctx'.tyOf⟩) ∧
    left.map (fun l => (l.name, l.reason)) =
      [("adt.tuple_new", some "operand count does not match tuple arity"),
        ("adt.tuple_get", some "index out of bounds"),
        ("adt.tuple_get", some "expected struct type as input"),
        ("adt.tuple_new", none), ("t.u", none)] := by
  have hcheck : (Context.parse {} obstaclesText).1.toOption.any fun id =>
      ((Context.parse {} obstaclesText).2.body id).toOption.any fun r => r.any fun r =>
        (TupleLowering.run (Context.parse {} obstaclesText).2 id false).toOption.any fun answer =>
          answer.1.toOption.isNone && decide ((answer.2.body id).toOption = some (some r)) &&
            (answer.2.regionTree r).toOption.any fun body => decide
              ((body.preorder.filter fun p => decide (p.2.InvolvesTuples answer.2.tyOf)).map
                (fun p => (p.2.fullName, p.2.obstacle answer.2.tyOf)) =
                  [("adt.tuple_new", some "operand count does not match tuple arity"),
                    ("adt.tuple_get", some "index out of bounds"),
                    ("adt.tuple_get", some "expected struct type as input"),
                    ("adt.tuple_new", none), ("t.u", none)]) := by
    decide +kernel
  obtain ⟨id, hid, hcheck⟩ := except_any_iff.mp hcheck
  obtain ⟨body, hbody, hcheck⟩ := except_any_iff.mp hcheck
  obtain ⟨r, hr, hcheck⟩ := (Option.any_eq_true _ _).mp hcheck
  obtain ⟨⟨answer, ctx'⟩, hrun, hcheck⟩ := except_any_iff.mp hcheck
  simp only [Bool.and_eq_true, decide_eq_true_eq] at hcheck
  obtain ⟨⟨herr, hbody'⟩, hcheck⟩ := hcheck
  obtain ⟨tree, htree, hreasons⟩ := except_any_iff.mp hcheck
  have hparse : Context.parse {} obstaclesText = (.ok id, (Context.parse {} obstaclesText).2) := by
    rw [← hid, Prod.mk.eta]
  rw [hr] at hbody
  obtain ⟨e, rfl⟩ := except_isNone_iff.mp herr
  obtain ⟨left, tree', rfl, hbody'', htree', -, hleft, -⟩ := leftovers_of_run hparse hbody hrun
  obtain rfl : r = tree'.id := Option.some.inj
    (Except.ok.inj ((except_toOption_eq_some.mp hbody').symm.trans hbody''))
  obtain rfl := Except.ok.inj (htree.symm.trans htree')
  refine ⟨id, _, tree.id, left, ctx', tree, hparse, hbody, hrun, htree, hleft, ?_⟩
  rw [hleft, List.map_map]
  exact of_decide_eq_true hreasons

end Context

end RegionIR
