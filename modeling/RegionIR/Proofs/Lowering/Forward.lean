import RegionIR.Proofs.Lowering.Verification
import RegionIR.Proofs.Source.Order

/-! One pass in place of a queue.

In a program nothing is used before it is defined. So one could lower it in a single pass: the arguments
first, then every operation by what became of those before it. The engine comes to the same end, unless
a tuple operation that cannot be lowered says that it gives a struct with tuples in it. What is
extracted from that is seen twice by the engine, as a tuple and as a struct. -/

namespace RegionIR

namespace Ty

theorem tupleFree_of_mem_structFields {t : Ty} (ht : t.TupleFree) :
    ∀ f ∈ t.structFields.getD [], f.2.TupleFree :=
  fun _ hf => ht.mentions (mentions_of_mem_structFields hf)

end Ty

namespace Op

/-- The results of an operation with their types. -/
def typing (op : Op) : List (ValueId × Ty) :=
  op.results.zip op.resultTypes

/-- A tuple operation whose result is called a struct, with a tuple in one of the fields. -/
def Misleading (op : Op) : Prop :=
  op.isTupleOp ∧ ∃ ty ∈ op.resultTypes, ∃ f ∈ ty.structFields.getD [], ¬f.2.TupleFree

instance (op : Op) : Decidable op.Misleading :=
  inferInstanceAs (Decidable (_ ∧ _))

variable (op : Op) (types : ValueId → Ty)

theorem lowering_lowered : op.lowering Ty.lowered types = (op.lowering id types).map retyped := by
  unfold lowering
  cases op.construction? with
  | some type =>
    simp only
    split
    · simp [toStructNew, retyped, Dict.lowered]
    · rfl
  | none =>
    cases op.extraction? with
    | none => rfl
    | some e => simp [toStructExtract, retyped, Option.map_bind, Dict.lowered]

theorem becomes_visited : op.Becomes (op.visited Ty.lowered types) := by
  unfold visited
  cases htuple : op.isTupleOp with
  | false => exact .retyped htuple
  | true =>
    rw [if_pos rfl, lowering_lowered]
    cases hl : op.lowering id types with
    | none => exact .same
    | some op' => exact .settled hl

/-- What a visit makes of an operation when extracted types are lowered on the way, a second visit
leaves as it is. -/
theorem visited_visited :
    (op.visited Ty.lowered types).visited id types = op.visited Ty.lowered types := by
  cases htuple : op.isTupleOp with
  | false =>
    rw [visited_of_not_tupleOp htuple, visited_of_not_tupleOp (isTupleOp_retyped.trans htuple),
      retyped_retyped]
  | true =>
    have hlowered := op.lowering_lowered types
    cases hl : op.lowering id types with
    | none =>
      rw [hl, Option.map_none] at hlowered
      rw [visited_of_tupleOp htuple hlowered, visited_of_tupleOp htuple hl]
    | some op' =>
      rw [hl, Option.map_some] at hlowered
      rw [visited_of_lowering hlowered,
        visited_of_not_tupleOp (isTupleOp_retyped.trans (loweredFrom hl).isTupleOp), retyped_retyped]

variable {op types}

/-- Where no operand is a struct with tuples in it, an extracted type is lowered already. -/
theorem visited_id_eq (h : ∀ v ∈ op.operands, ∀ f ∈ (types v).structFields.getD [], f.2.TupleFree) :
    op.visited id types = op.visited Ty.lowered types := by
  have hretyped {op' : Op} (hl : op.lowering id types = some op') : op'.retyped = op' := by
    refine retyped_eq_self_iff.mpr ⟨?_, fun e he => ?_⟩
    · rcases lowering_eq_some_iff.mp hl with
        ⟨_, -, -, -, rfl⟩ | ⟨tuple, index, fields, field, type, he, hf, hi, rfl⟩
      · simp [toStructNew]
      · have htuple : tuple ∈ op.operands := by simp [(extraction?_eq_some_iff.mp he).2.1]
        have hfree := h tuple htuple (field, type) (by simpa [hf] using List.mem_of_getElem? hi)
        simpa [toStructExtract] using Ty.lowered_of_tupleFree hfree
    · have hattrs := (loweredFrom hl).attrs
      exact (Prod.ext_iff.mp (map_eq_self_iff.mp hattrs e he)).2
  have hlowering : op.lowering Ty.lowered types = op.lowering id types := by
    rw [lowering_lowered]
    cases hl : op.lowering id types with
    | none => rfl
    | some op' => rw [Option.map_some, hretyped hl]
  simp only [visited, hlowering]

theorem retyped_visited (h : (op.visited Ty.lowered types).isTupleOp = false) :
    (op.visited Ty.lowered types).retyped = op.visited Ty.lowered types := by
  have hagain := op.visited_visited types
  rwa [visited_of_not_tupleOp h] at hagain

/-- After such a visit no result is a struct with tuples in it, unless the operation is misleading. -/
theorem tupleFree_fields_of_visited (h : ¬(op.visited Ty.lowered types).Misleading) {ty : Ty}
    (hty : ty ∈ (op.visited Ty.lowered types).resultTypes) :
    ∀ f ∈ ty.structFields.getD [], f.2.TupleFree := by
  intro f hf
  by_cases htuple : (op.visited Ty.lowered types).isTupleOp = true
  · by_contra hfree
    exact h ⟨htuple, ty, hty, f, hf, hfree⟩
  · have hself := retyped_visited (Bool.eq_false_iff.mpr htuple)
    have hty' : ty.TupleFree := Ty.lowered_eq_self_iff.mp ((retyped_eq_self_iff.mp hself).1 ty hty)
    exact Ty.tupleFree_of_mem_structFields hty' f hf

end Op

/-- The type of a value among those that are known. -/
def typeAmong (known : List (ValueId × Ty)) (v : ValueId) : Ty :=
  (known.lookup v).getD (.tuple [])

/-- One pass over operations. Each is lowered or retyped by the types that its operands have by then, and
what is extracted gets a lowered type at once. -/
def forwardPass (known : List (ValueId × Ty)) : List (OpId × Op) → List (OpId × Op)
  | [] => []
  | o :: rest =>
    let op := o.2.visited Ty.lowered (typeAmong known)
    (o.1, op) :: forwardPass (known ++ op.typing) rest

theorem forwardPass_append (known : List (ValueId × Ty)) (l l' : List (OpId × Op)) :
    forwardPass known (l ++ l') = forwardPass known l ++
      forwardPass (known ++ (forwardPass known l).flatMap (·.2.typing)) l' := by
  induction l generalizing known with
  | nil => simp [forwardPass]
  | cons o l ih => simp [forwardPass, ih]

theorem map_fst_forwardPass (known : List (ValueId × Ty)) (l : List (OpId × Op)) :
    (forwardPass known l).map Prod.fst = l.map Prod.fst := by
  induction l generalizing known with
  | nil => rfl
  | cons o l ih => simp [forwardPass, ih]

theorem typeAmong_eq {known : List (ValueId × Ty)} {types : ValueId → Ty}
    (hright : ∀ e ∈ known, e.2 = types e.1) {v : ValueId} (hv : v ∈ known.map Prod.fst) :
    typeAmong known v = types v := by
  unfold typeAmong
  cases hlookup : known.lookup v with
  | none =>
    obtain ⟨e, he, rfl⟩ := List.mem_map.mp hv
    simpa using List.lookup_eq_none_iff.mp hlookup e he
  | some ty =>
    obtain ⟨l, l', rfl, -⟩ := List.lookup_eq_some_iff.mp hlookup
    exact hright (v, ty) (List.mem_append_right _ List.mem_cons_self)

namespace RegionTree

/-- The arguments of all blocks, with lowered types. -/
def argTyping (t : RegionTree) : List (ValueId × Ty) :=
  t.allBlocks.flatMap fun b => b.args.map fun a => (a.1, a.2.lowered)

theorem map_fst_argTyping (t : RegionTree) : t.argTyping.map Prod.fst = t.arguments := by
  simp [argTyping, arguments, List.map_flatMap, Function.comp_def]

/-- What one pass makes of the operations of a region. -/
def forwardOps (t : RegionTree) : List (OpId × Op) :=
  forwardPass t.argTyping t.preorder

/-- What one pass makes of a region. -/
def forward (t : RegionTree) : RegionTree :=
  t.recast (fun o op => (t.forwardOps.lookup o).getD op) Ty.lowered

end RegionTree

namespace Context

variable {ctx : Context} {t : RegionTree} {s s' : Progress}

/-- The forms that one pass gives. -/
def forwardForms (ctx : Context) (t : RegionTree) (o : OpId) : Op :=
  (t.forwardOps.lookup o).getD (ctx.raw o)

theorem forwardForms_of_mem (hc : ctx.Confined t) {o : OpId × Op} (ho : o ∈ t.forwardOps) :
    ctx.forwardForms t o.1 = o.2 := by
  have hnd : (t.forwardOps.map Prod.fst).Nodup := by
    rw [RegionTree.forwardOps, map_fst_forwardPass]
    exact hc.nodup
  rw [forwardForms, (lookup_eq_some_iff_mem hnd).mpr ho]
  rfl

/-- In the place of an operation stands what became of it, by the types that the pass knew then. -/
theorem forwardForms_at (hc : ctx.Confined t) {l l' : List (OpId × Op)} {o : OpId} {op : Op}
    (hsplit : t.preorder = l ++ (o, op) :: l') :
    (∀ p ∈ forwardPass t.argTyping l, ctx.forwardForms t p.1 = p.2) ∧
    ctx.forwardForms t o = op.visited Ty.lowered (typeAmong
      (t.argTyping ++ (forwardPass t.argTyping l).flatMap (·.2.typing))) := by
  have hops : t.forwardOps = forwardPass t.argTyping l ++
      forwardPass (t.argTyping ++ (forwardPass t.argTyping l).flatMap (·.2.typing)) ((o, op) :: l') := by
    rw [RegionTree.forwardOps, hsplit, forwardPass_append]
  constructor
  · exact fun p hp => forwardForms_of_mem hc (hops ▸ List.mem_append_left _ hp)
  · exact forwardForms_of_mem hc (o := (o, _)) (hops ▸ List.mem_append_right _ List.mem_cons_self)

theorem exists_of_mem_forwardPass {known : List (ValueId × Ty)} {l : List (OpId × Op)}
    {o : OpId × Op} (ho : o ∈ forwardPass known l) :
    ∃ op types, (o.1, op) ∈ l ∧ o.2 = op.visited Ty.lowered types := by
  induction l generalizing known with
  | nil => exact absurd ho List.not_mem_nil
  | cons p l ih =>
    rcases List.mem_cons.mp ho with rfl | ho
    · exact ⟨p.2, _, List.mem_cons_self, rfl⟩
    · obtain ⟨op, types, hmem, he⟩ := ih ho
      exact ⟨op, types, List.mem_cons_of_mem _ hmem, he⟩

theorem typeUnder_of_argTyping (hc : ctx.Confined t) {forms : OpId → Op} {e : ValueId × Ty}
    (he : e ∈ t.argTyping) : e.2 = ctx.typeUnder forms e.1 := by
  obtain ⟨b, hb, he⟩ := List.mem_flatMap.mp he
  obtain ⟨a, ha, rfl⟩ := List.mem_map.mp he
  obtain ⟨hblk, hargs, hvals, -, -⟩ := hc.held.block hb
  obtain ⟨i, hi⟩ := List.mem_iff_getElem?.mp (hargs ▸ List.mem_map_of_mem ha)
  obtain ⟨ty, -, hval⟩ := hc.sound.typed.argument hblk hi
  obtain ⟨value, hval', hty⟩ := hvals a ha
  rw [hval] at hval'
  cases Option.some.inj hval'
  simp only [typeUnder, hval, ← hty]

theorem typeUnder_of_typing (hc : ctx.Confined t) {forms : OpId → Op} {o : OpId} (ho : o ∈ t.opIds)
    (hresults : (forms o).results = (ctx.raw o).results) {e : ValueId × Ty}
    (he : e ∈ (forms o).typing) : e.2 = ctx.typeUnder forms e.1 := by
  obtain ⟨i, hi⟩ := List.mem_iff_getElem?.mp he
  rw [Op.typing, List.getElem?_zip_eq_some, hresults] at hi
  obtain ⟨ty, -, hval⟩ := hc.sound.typed.result (hc.held.op?_raw ho) hi.1
  simp only [typeUnder, hval, hi.2, Option.getD_some]

theorem mem_forwardOps (hc : ctx.Confined t) {o : OpId} (ho : o ∈ t.opIds) :
    (o, ctx.forwardForms t o) ∈ t.forwardOps := by
  rw [RegionTree.opIds, ← map_fst_forwardPass t.argTyping] at ho
  obtain ⟨p, hp, rfl⟩ := List.mem_map.mp ho
  rwa [forwardForms_of_mem hc hp]

theorem becomes_forwardForms (hc : ctx.Confined t) {o : OpId} (ho : o ∈ t.opIds) :
    (ctx.raw o).Becomes (ctx.forwardForms t o) := by
  obtain ⟨op, types, hmem, he⟩ := exists_of_mem_forwardPass (mem_forwardOps hc ho)
  have hform : ctx.forwardForms t o = op.visited Ty.lowered types := he
  rw [hform, raw_of_some (hc.held.op?_of_mem hmem)]
  exact op.becomes_visited types

/-- When the pass comes to an operation it knows the types of its operands, and knows them right. -/
theorem forwardForms_eq (hc : ctx.Confined t) (hio : t.InOrder) {o : OpId} (ho : o ∈ t.opIds) :
    ctx.forwardForms t o =
      (ctx.raw o).visited Ty.lowered (ctx.typeUnder (ctx.forwardForms t)) := by
  obtain ⟨l, l', hsplit⟩ := List.append_of_mem (hc.held.mem_preorder_raw ho)
  obtain ⟨hbefore, hat⟩ := forwardForms_at hc hsplit
  rw [hat]
  refine Op.visited_congr fun v hv => ?_
  have hpass {p : OpId × Op} (hp : p ∈ forwardPass t.argTyping l) : p.1 ∈ t.opIds := by
    obtain ⟨op, -, hmem, -⟩ := exists_of_mem_forwardPass hp
    exact List.mem_map.mpr ⟨(p.1, op), hsplit ▸ List.mem_append_left _ hmem, rfl⟩
  have hright : ∀ e ∈ t.argTyping ++ (forwardPass t.argTyping l).flatMap (·.2.typing),
      e.2 = ctx.typeUnder (ctx.forwardForms t) e.1 := by
    intro e he
    rcases List.mem_append.mp he with he | he
    · exact typeUnder_of_argTyping hc he
    · obtain ⟨p, hp, he⟩ := List.mem_flatMap.mp he
      refine typeUnder_of_typing hc (hpass hp) (becomes_forwardForms hc (hpass hp)).results ?_
      rwa [hbefore p hp]
  have hknown : v ∈ (t.argTyping ++ (forwardPass t.argTyping l).flatMap (·.2.typing)).map Prod.fst := by
    rw [List.map_append, List.mem_append]
    rw [RegionTree.InOrder, hsplit] at hio
    rcases hio.operand hv with hv | ⟨p, hp, hv⟩
    · exact .inl (t.map_fst_argTyping ▸ hv)
    · obtain ⟨q, hq, hid⟩ := List.mem_map.mp
        (map_fst_forwardPass t.argTyping l ▸ List.mem_map_of_mem (f := Prod.fst) hp)
      have hraw : ctx.raw q.1 = p.2 := by
        rw [hid]
        exact raw_of_some (hc.held.op?_of_mem (hsplit ▸ List.mem_append_left _ hp))
      have hform := becomes_forwardForms hc (hpass hq)
      have hlen := hform.results_length (hc.sound.typed.results_length (hc.held.op?_raw (hpass hq)))
      rw [← hraw, ← hform.results, hbefore q hq] at hv
      rw [hbefore q hq] at hlen
      rw [List.map_flatMap, List.mem_flatMap]
      exact .inr ⟨q, hq, by rwa [Op.typing, List.map_fst_zip hlen.le]⟩
  exact typeAmong_eq hright hknown

/-- The operands of an operation are arguments or come from operations before it. -/
theorem origin_of_inOrder (hc : ctx.Confined t) (hio : t.InOrder) {pre post : List OpId} {o : OpId}
    (hsplit : t.opIds = pre ++ o :: post) {v : ValueId} (hv : v ∈ (ctx.raw o).operands) :
    (∃ b i ty, ctx.value? v = some ⟨.argument b i, ty⟩) ∨
      ∃ p ∈ pre, ∃ i ty, ctx.value? v = some ⟨.result p i, ty⟩ ∧
        (ctx.raw p).results[i]? = some v := by
  obtain ⟨l, l', hl, rfl, hrest⟩ := List.map_eq_append_iff.mp hsplit
  obtain ⟨⟨o', op⟩, l'', rfl, rfl, rfl⟩ := List.map_eq_cons_iff.mp hrest
  have hmem {p : OpId × Op} (hp : p ∈ l) : p ∈ t.preorder := by
    rw [hl]
    exact List.mem_append_left _ hp
  have ho : (o', op) ∈ t.preorder := by simp [hl]
  rw [raw_of_some (hc.held.op?_of_mem ho)] at hv
  rw [RegionTree.InOrder, hl] at hio
  rcases hio.operand hv with ha | ⟨p, hp, hr⟩
  · left
    obtain ⟨b, hb, ha⟩ := List.mem_flatMap.mp ha
    obtain ⟨hblk, hargs, -, -, -⟩ := hc.held.block hb
    simp only [BlockTree.args] at ha
    rw [← hargs] at ha
    obtain ⟨i, hi⟩ := List.mem_iff_getElem?.mp ha
    obtain ⟨ty, -, hval⟩ := hc.sound.typed.argument hblk hi
    exact ⟨_, i, ty, hval⟩
  · right
    have hop := hc.held.op?_of_mem (hmem hp)
    obtain ⟨i, hi⟩ := List.mem_iff_getElem?.mp hr
    obtain ⟨ty, -, hval⟩ := hc.sound.typed.result hop hi
    exact ⟨p.1, List.mem_map_of_mem hp, i, ty, hval, by rw [raw_of_some hop]; exact hi⟩

/-- Operations of the region whose operands are arguments or come from one another. -/
structure Closed (ctx : Context) (t : RegionTree) (ops : List OpId) : Prop where
  subset : ops ⊆ t.opIds
  definer {o p : OpId} {v : ValueId} {i : Nat} {ty : Ty} : o ∈ ops → v ∈ (ctx.raw o).operands →
    ctx.value? v = some ⟨.result p i, ty⟩ → p ∈ ops

theorem closed_opIds (hc : ctx.Confined t) : ctx.Closed t t.opIds := by
  refine ⟨List.Subset.refl _, fun ho hv hval => ?_⟩
  rcases hc.origin (hc.operands ho hv) with ⟨q, hq, j, ty, hval', -⟩ | ⟨b, -, j, ty, -, hval', -⟩
  · rw [hval] at hval'
    simp only [Option.some.injEq, Value.mk.injEq, Origin.result.injEq] at hval'
    exact hval'.1.1 ▸ hq
  · simp [hval] at hval'

variable {ops : List OpId}

theorem typeUnder_mem_resultTypes (hc : ctx.Confined t) {forms : OpId → Op} {p : OpId} {v : ValueId}
    {i : Nat} {ty : Ty} (hp : p ∈ t.opIds) (hform : (ctx.raw p).Becomes (forms p))
    (hval : ctx.value? v = some ⟨.result p i, ty⟩) (hi : (ctx.raw p).results[i]? = some v) :
    ctx.typeUnder forms v ∈ (forms p).resultTypes := by
  have hlen := hform.results_length (hc.sound.typed.results_length (hc.held.op?_raw hp))
  rw [← hform.results] at hi
  obtain ⟨hlt, -⟩ := List.getElem?_eq_some_iff.mp hi
  rw [hlen] at hlt
  simp only [typeUnder, hval, List.getElem?_eq_getElem hlt, Option.getD_some]
  exact List.getElem_mem hlt

/-- Where an operation is reached with all before it as the pass makes them, it sees the types that
the pass sees. -/
theorem typeUnder_of_forward (hc : ctx.Confined t) (hio : t.InOrder) (hops : ctx.Closed t ops)
    {forms : OpId → Op} {pre post : List OpId} {o : OpId} (hsplit : t.opIds = pre ++ o :: post)
    (ho : o ∈ ops) (hpre : ∀ p ∈ pre, p ∈ ops → forms p = ctx.forwardForms t p) {v : ValueId}
    (hv : v ∈ (ctx.raw o).operands) :
    ctx.typeUnder forms v = ctx.typeUnder (ctx.forwardForms t) v := by
  refine typeUnder_congr fun p i ty hval => ?_
  rcases origin_of_inOrder hc hio hsplit hv with ⟨b, j, ty', hval'⟩ | ⟨q, hq, j, ty', hval', -⟩
  · simp [hval] at hval'
  · have hp := hops.definer ho hv hval
    rw [hval] at hval'
    simp only [Option.some.injEq, Value.mk.injEq, Origin.result.injEq] at hval'
    exact hpre p (hval'.1.1 ▸ hq) hp

theorem Visits.forms_of_forward (hc : ctx.Confined t) (hio : t.InOrder) (hops : ctx.Closed t ops)
    {x : OpId} {rest pushed : List OpId} (hv : ctx.Visits t s x rest pushed s')
    {done todo : List OpId} (hsplit : t.opIds = done ++ todo)
    (hdone : ∀ p ∈ done, p ∈ ops → s.forms p = ctx.forwardForms t p) :
    ∀ p ∈ done, p ∈ ops → s'.forms p = ctx.forwardForms t p := by
  intro p hp hpo
  by_cases he : p = x
  · subst he
    obtain ⟨pre, post, rfl⟩ := List.append_of_mem hp
    have hmem : p ∈ t.opIds := hv.mem
    have htypes : ∀ v ∈ (ctx.forwardForms t p).operands,
        ctx.typeUnder s.forms v = ctx.typeUnder (ctx.forwardForms t) v := by
      intro v hvo
      rw [(becomes_forwardForms hc hmem).operands] at hvo
      have hat : t.opIds = pre ++ p :: (post ++ todo) := by simpa using hsplit
      refine typeUnder_of_forward hc hio hops hat hpo (fun q hq => ?_) hvo
      exact hdone q (List.mem_append_left _ hq)
    rw [hv.form_self, hdone p hp hpo, Op.visited_congr htypes, forwardForms_eq hc hio hmem]
    exact Op.visited_visited ..
  · rw [hv.form_of_ne he]
    exact hdone p hp hpo

/-- How far the first round through the queue has come with closed operations: all that were visited
are as the pass makes them and the others are as they were, or one was visited that is misleading. -/
inductive Round (ctx : Context) (t : RegionTree) (ops : List OpId) (s : Progress) : Prop
  | halted {done todo : List OpId} : t.opIds = done ++ todo →
      (∀ p ∈ done, p ∈ ops → s.forms p = ctx.forwardForms t p) →
      (∃ o ∈ done, o ∈ ops ∧ (ctx.forwardForms t o).Misleading) → Round ctx t ops s
  | running (done todo pushed : List OpId) : t.opIds = done ++ todo → s.queue = todo ++ pushed →
      (∀ p ∈ done, p ∈ ops → s.forms p = ctx.forwardForms t p) →
      (∀ p ∈ done, p ∈ ops → ¬(ctx.forwardForms t p).Misleading) →
      (∀ p ∈ todo, s.forms p = ctx.raw p) → Round ctx t ops s

theorem visited_of_forward (hc : ctx.Confined t) (hio : t.InOrder) (hops : ctx.Closed t ops)
    {forms : OpId → Op} {pre post : List OpId} {o : OpId} (hsplit : t.opIds = pre ++ o :: post)
    (ho : o ∈ ops) (hpre : ∀ p ∈ pre, p ∈ ops → forms p = ctx.forwardForms t p)
    (hplain : ∀ p ∈ pre, p ∈ ops → ¬(ctx.forwardForms t p).Misleading) :
    (ctx.raw o).visited id (ctx.typeUnder forms) = ctx.forwardForms t o := by
  have htypes (v : ValueId) (hv : v ∈ (ctx.raw o).operands) :=
    typeUnder_of_forward hc hio hops hsplit ho hpre hv
  rw [Op.visited_congr htypes, forwardForms_eq hc hio (hops.subset ho)]
  refine Op.visited_id_eq fun v hv => ?_
  rcases origin_of_inOrder hc hio hsplit hv with ⟨b, i, ty, hval⟩ | ⟨p, hp, i, ty, hval, hi⟩
  · simp only [typeUnder, hval]
    exact Ty.tupleFree_of_mem_structFields ty.tupleFree_lowered
  · have hpo := hops.definer ho hv hval
    have hp' := hops.subset hpo
    have hfields := hplain p hp hpo
    rw [forwardForms_eq hc hio hp'] at hfields
    refine Op.tupleFree_fields_of_visited hfields ?_
    rw [← forwardForms_eq hc hio hp']
    exact typeUnder_mem_resultTypes hc hp' (becomes_forwardForms hc hp') hval hi

theorem Round.visit (hc : ctx.Confined t) (hio : t.InOrder) (hops : ctx.Closed t ops) {x : OpId}
    {rest pushed : List OpId} (hv : ctx.Visits t s x rest pushed s') (h : ctx.Round t ops s) :
    ctx.Round t ops s' := by
  cases h with
  | halted hsplit hdone hmisleads =>
    exact .halted hsplit (hv.forms_of_forward hc hio hops hsplit hdone) hmisleads
  | running done todo waiting hsplit hqueue hdone hplain htodo =>
    have hdone' := hv.forms_of_forward hc hio hops hsplit hdone
    cases todo with
    | nil => exact .running done [] s'.queue hsplit rfl hdone' hplain (by simp)
    | cons y todo =>
      have hq := hv.queue.symm.trans hqueue
      simp only [List.cons_append, List.cons.injEq] at hq
      obtain ⟨rfl, rfl⟩ := hq
      have hnd := hc.nodup
      rw [hsplit, List.nodup_append, List.nodup_cons] at hnd
      have hx : x ∈ ops → s'.forms x = ctx.forwardForms t x := by
        intro hxo
        rw [hv.form_self, htodo x List.mem_cons_self]
        exact visited_of_forward hc hio hops hsplit hxo hdone hplain
      have hdone'' : ∀ p ∈ done ++ [x], p ∈ ops → s'.forms p = ctx.forwardForms t p :=
        List.forall_mem_append.mpr ⟨hdone', by simpa using hx⟩
      have hsplit' : t.opIds = (done ++ [x]) ++ todo := by simp [hsplit]
      by_cases hmisleads : x ∈ ops ∧ (ctx.forwardForms t x).Misleading
      · exact .halted hsplit' hdone'' ⟨x, by simp, hmisleads⟩
      · refine .running (done ++ [x]) todo (waiting ++ pushed) hsplit' (by simp [hv.queue']) hdone''
          (List.forall_mem_append.mpr ⟨hplain, by simpa using hmisleads⟩) fun p hp => ?_
        rw [hv.form_of_ne fun he => hnd.2.1.1 (he ▸ hp)]
        exact htodo p (List.mem_cons_of_mem _ hp)

theorem Steps.round (hc : ctx.Confined t) (hio : t.InOrder) (hops : ctx.Closed t ops)
    (h : ctx.Steps t (start ctx t) s) : ctx.Round t ops s :=
  h.invariant (fun _ _ _ _ _ hv hround => hround.visit hc hio hops hv)
    (.running [] t.opIds [] rfl (List.append_nil _).symm (by simp) (by simp) fun _ _ => rfl)

/-- In the end closed operations are as the pass makes them, or one of them is misleading and
stays. -/
theorem Steps.forward (hc : ctx.Confined t) (hio : t.InOrder) (hops : ctx.Closed t ops)
    (h : ctx.Steps t (start ctx t) s) {ending : Ending}
    (hends : ctx.EndsAt t t.opIds.length s ending) :
    (∀ o ∈ ops, s.forms o = ctx.forwardForms t o) ∨
      ∃ o ∈ ops, (ctx.forwardForms t o).Misleading ∧ s.forms o = ctx.forwardForms t o := by
  cases h.round hc hio hops with
  | halted hsplit hdone hmisleads =>
    obtain ⟨o, ho, hoo, hmisleads⟩ := hmisleads
    exact .inr ⟨o, hoo, hmisleads, hdone o ho hoo⟩
  | running done todo waiting hsplit hqueue hdone hplain htodo =>
    have hnil : todo = [] := by
      cases hends with
      | drained hempty => exact (List.append_eq_nil_iff.mp (hqueue.symm.trans hempty)).1
      | outOfRewrites _ _ _ hspent =>
        refine List.eq_nil_iff_forall_not_mem.mpr fun p hp => ?_
        obtain ⟨htup, hfalse⟩ := forall_lowered hspent (o := p) (by simp [hsplit, hp])
        rw [htodo p hp, htup] at hfalse
        exact Bool.false_ne_true hfalse.symm
    rw [hnil, List.append_nil] at hsplit
    refine .inl fun o ho => hdone o ?_ ho
    rw [← hsplit]
    exact hops.subset ho

theorem tree_eq_forward (hc : ctx.Confined t)
    (hforms : ∀ o ∈ t.opIds, s.forms o = ctx.forwardForms t o) : s.tree t = t.forward := by
  refine RegionTree.recast_congr fun o ho => ?_
  rw [hforms o.1 (List.mem_map_of_mem ho), forwardForms, raw_of_some (hc.held.op?_of_mem ho)]

/-- Verified or not, a lowering gives an answer, and success means that nothing is left behind. -/
theorem Lowers.exists_run {m : OpId} {ctx' : Context} {result : Engine.Result}
    {left : List Leftover} {image : OpId → OpId} {subst : ValueId → ValueId}
    (h : ctx.Lowers m t ctx' result left s image subst) (hbody : ctx.body m = .ok (some t.id))
    (hbody' : ctx'.body m = .ok (some t.id)) (verify : Bool) :
    ∃ answer, TupleLowering.run ctx m verify = .ok (answer, ctx') ∧
      ∀ stats, answer = .ok stats → left = [] := by
  obtain ⟨report, hreport⟩ := h.exists_report hbody'
  cases verify with
  | false =>
    refine ⟨_, h.run_unverified hbody, fun stats hok => ?_⟩
    by_contra hleft
    simp [hleft] at hok
  | true =>
    refine ⟨_, h.run_verified hbody hreport, fun stats hok => ?_⟩
    by_contra hleft
    simp [hleft] at hok

/-- A program is lowered as one pass over its body lowers it, if nothing misleading comes out of the
pass, or if the lowering succeeds and no tuple operation owns a region. -/
theorem run_forward {text : String} {id : OpId} {tree : OpTree}
    (hparse : Context.parse {} text = (.ok id, ctx)) (htree : ctx.opTree id = .ok tree)
    (hbody : tree.regions.head? = some t) (verify : Bool) :
    ∃ answer ctx' image subst, TupleLowering.run ctx id verify = .ok (answer, ctx') ∧
      (∀ o ∈ t.opIds, ∀ p ∈ t.opIds, image o = image p → o = p) ∧
      (∀ v ∈ definedValues t, ∀ w ∈ definedValues t, subst v = subst w → v = w) ∧
      ((∀ o ∈ t.forwardOps, ¬o.2.Misleading) ∨
        ((∃ stats, answer = .ok stats) ∧ ∀ o ∈ t.preorder, o.2.isTupleOp → o.2.regions = []) →
        ctx'.regionTree t.id = .ok (t.forward.rename image subst)) := by
  obtain ⟨tree', rfl, hprogram⟩ := program_of_parse hparse
  obtain ⟨hid, hheld⟩ := opTree_eq_ok_iff.mp htree
  obtain rfl := hheld.unique hprogram.held hid
  have hc := hprogram.confined hbody
  have hio : t.InOrder := inOrder_of_parse hparse hheld rfl t (List.mem_of_mem_head? hbody)
  obtain ⟨ctx', result, left, s, image, subst, hl⟩ := hprogram.exists_lowers hbody
  obtain ⟨answer, hrun, hleft⟩ := hl.exists_run (hheld.body_of_head hbody)
    (hprogram.body_of_lowers hbody hl) verify
  refine ⟨answer, ctx', image, subst, hrun, fun o ho p hp => hl.refines.injective ho hp,
    fun v hv w hw => hl.refines.subst_injective hc hv hw, fun hcases => ?_⟩
  obtain ⟨ending, hends, -⟩ := hl.ends
  have hforms : ∀ o ∈ t.opIds, s.forms o = ctx.forwardForms t o := by
    rcases hl.steps.forward hc hio (closed_opIds hc) hends with hforms | ⟨o, ho, hmisleads, hform⟩
    · exact hforms
    · exfalso
      rcases hcases with hplain | ⟨⟨stats, hok⟩, hflat⟩
      · exact hplain _ (mem_forwardOps hc ho) hmisleads
      · have hmem : o ∈ (s.tree t).opIds := hl.steps.opIds_tree hc hflat ▸ ho
        have hlegal := hl.left_nil.mp (hleft stats hok) o hmem
        rw [hform] at hlegal
        exact Bool.false_ne_true (hlegal.1.symm.trans hmisleads.1)
  rw [← tree_eq_forward hc hforms]
  exact regionTree_eq_ok_iff.mpr ⟨(RegionTree.id_rename _).trans (RegionTree.id_recast t), hl.held⟩

/-- Extractions in a nested region. One comes too early in its tuple and the other too late, so only the
first is lowered. -/
def innerText : String :=
  "core.module @m \x7b
  %0 = t.c : core.i32
  %1 = adt.tuple_new %0 : core.tuple(core.i32)
  t.r \x7b
    ^a(%2: core.tuple(core.i32)):
    %3 = adt.tuple_get %1 \x7bindex = 0\x7d : core.i32
    %4 = adt.tuple_get %2 \x7bindex = 1\x7d : core.i32
  \x7d
\x7d
"

theorem run_forward_inner : ∃ id ctx tree t answer ctx' image subst,
    Context.parse {} innerText = (.ok id, ctx) ∧ ctx.opTree id = .ok tree ∧
    tree.regions.head? = some t ∧ TupleLowering.run ctx id true = .ok (answer, ctx') ∧
    ctx'.regionTree t.id = .ok (t.forward.rename image subst) := by
  have hcheck : (Context.parse {} innerText).1.toOption.any fun id =>
      ((Context.parse {} innerText).2.opTree id).toOption.any fun tree =>
        tree.regions.head?.any fun t => decide (∀ o ∈ t.forwardOps, ¬o.2.Misleading) := by
    decide +kernel
  obtain ⟨id, hid, hcheck⟩ := except_any_iff.mp hcheck
  obtain ⟨tree, htree, hcheck⟩ := except_any_iff.mp hcheck
  obtain ⟨t, hbody, hcheck⟩ := (Option.any_eq_true _ _).mp hcheck
  have hparse : Context.parse {} innerText = (.ok id, (Context.parse {} innerText).2) := by
    rw [← hid, Prod.mk.eta]
  obtain ⟨answer, ctx', image, subst, hrun, -, -, hforward⟩ := run_forward hparse htree hbody true
  exact ⟨id, _, tree, t, answer, ctx', image, subst, hparse, htree, hbody, hrun,
    hforward (.inl (of_decide_eq_true hcheck))⟩

/-- An extraction from an extraction that is called a struct before it is lowered. The engine takes the
name of the field from that struct, and one pass from the struct that it turns out to be. -/
theorem run_ne_forward : ∃ text id ctx tree t answer ctx',
    Context.parse {} text = (.ok id, ctx) ∧ ctx.opTree id = .ok tree ∧
    tree.op.is "core" "module" ∧ tree.regions.head? = some t ∧
    (∀ o ∈ t.preorder, o.2.isTupleOp → o.2.regions = []) ∧
    TupleLowering.run ctx id true = .ok (answer, ctx') ∧
    ∀ image subst, ctx'.regionTree t.id ≠ .ok (t.forward.rename image subst) := by
  let text := "core.module @m \x7b %r = adt.tuple_new : adt.struct() " ++
    "\x7bfields = [[@a, core.tuple(core.tuple(core.f64))]], name = @S\x7d " ++
    "%q = adt.tuple_get %r \x7bindex = 0\x7d : t.q " ++
    "%p = adt.tuple_get %q \x7bindex = 0\x7d : adt.struct() " ++
    "\x7bfields = [[@x, core.i32]], name = @P\x7d " ++
    "%o = adt.tuple_get %p \x7bindex = 0\x7d : t.o \x7d"
  have hcheck : (Context.parse {} text).1.toOption.any fun id =>
      ((Context.parse {} text).2.opTree id).toOption.any fun tree =>
        tree.regions.head?.any fun t =>
          (TupleLowering.run (Context.parse {} text).2 id true).toOption.any fun r =>
            (r.2.regionTree t.id).toOption.any fun body =>
              tree.op.is "core" "module" &&
                decide ((∀ o ∈ t.preorder, o.2.isTupleOp → o.2.regions = []) ∧
                  body.preorder.map (·.2.attrs) ≠ t.forward.preorder.map (·.2.attrs)) := by
    decide +kernel
  obtain ⟨id, hid, hcheck⟩ := except_any_iff.mp hcheck
  obtain ⟨tree, htree, hcheck⟩ := except_any_iff.mp hcheck
  obtain ⟨t, hbody, hcheck⟩ := (Option.any_eq_true _ _).mp hcheck
  obtain ⟨⟨answer, ctx'⟩, hrun, hcheck⟩ := except_any_iff.mp hcheck
  obtain ⟨body, hregion, hcheck⟩ := except_any_iff.mp hcheck
  rw [Bool.and_eq_true, decide_eq_true_eq] at hcheck
  obtain ⟨hmodule, hflat, hattrs⟩ := hcheck
  have hparse : Context.parse {} text = (.ok id, (Context.parse {} text).2) := by
    rw [← hid, Prod.mk.eta]
  refine ⟨text, id, _, tree, t, answer, ctx', hparse, htree, hmodule, hbody, hflat, hrun,
    fun image subst hforward => hattrs ?_⟩
  obtain rfl := Except.ok.inj (hregion.symm.trans hforward)
  rw [RegionTree.preorder_rename, List.map_map]
  rfl

end Context

end RegionIR
