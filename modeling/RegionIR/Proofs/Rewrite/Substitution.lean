import RegionIR.Proofs.Context.Histories
import RegionIR.Proofs.Rewrite.Replacement

/-! Handing over the uses of values is substituting them in the operands.

An edit that follows the ledger looks at no operation that the ledger does not name, so it comes to
the same as a walk over all operations only because the ledger is exact after every history. A plan
hands over the uses of the results one result after another. No value that takes the place of a
result is a result itself, so no operand is changed twice, and the substitutions are one. -/

namespace RegionIR

theorem swap_same {α : Type} [DecidableEq α] (a : α) : swap a a = id := by
  funext x
  by_cases h : x = a <;> simp [swap, h]

/-- Puts in the place of a value what `pairs` lists for it, if anything. -/
def substitute (pairs : List (ValueId × ValueId)) (v : ValueId) : ValueId :=
  (pairs.lookup v).getD v

theorem substitute_cons_self (v w : ValueId) (pairs : List (ValueId × ValueId)) :
    substitute ((v, w) :: pairs) v = w := by
  simp [substitute]

theorem substitute_cons_of_ne {v w x : ValueId} (h : x ≠ v) (pairs : List (ValueId × ValueId)) :
    substitute ((v, w) :: pairs) x = substitute pairs x := by
  simp [substitute, List.lookup_cons, beq_eq_false_iff_ne.mpr h]

theorem substitute_of_not_mem {pairs : List (ValueId × ValueId)} {v : ValueId}
    (h : v ∉ pairs.map Prod.fst) : substitute pairs v = v := by
  induction pairs with
  | nil => rfl
  | cons p pairs ih =>
    simp only [List.map_cons, List.mem_cons, not_or] at h
    rw [substitute_cons_of_ne h.1, ih h.2]

/-- The values of a list without duplicates go to those at the same places of the other list. -/
theorem substitute_zip {old new : List ValueId} {j : Nat} {v w : ValueId} (hnd : old.Nodup)
    (hv : old[j]? = some v) (hw : new[j]? = some w) : substitute (old.zip new) v = w := by
  induction old generalizing new j with
  | nil => simp at hv
  | cons a old ih =>
    obtain ⟨hnot, hnd⟩ := List.nodup_cons.mp hnd
    cases new with
    | nil => simp at hw
    | cons b new =>
      cases j with
      | zero =>
        simp only [List.getElem?_cons_zero, Option.some.injEq] at hv hw
        subst hv hw
        exact substitute_cons_self ..
      | succ j =>
        rw [List.getElem?_cons_succ] at hv hw
        have hne : v ≠ a := fun h => hnot (h ▸ List.mem_of_getElem? hv)
        exact (substitute_cons_of_ne hne _).trans (ih hnd hv hw)

namespace Context

variable {ctx ctx' : Context} {edits : List Edit} {removed : List OpId}

/-- What is found after the uses of `old` were handed over to `new`. -/
structure Forwards (removed : List OpId) (old new : ValueId) (ctx ctx' : Context) : Prop where
  accounted : Accounted removed ctx'
  op? (o : OpId) : ctx'.op? o = (ctx.op? o).map fun op =>
    { op with operands := if o ∈ removed then op.operands else op.operands.map (swap old new) }
  values : ctx'.values = ctx.values
  blocks : ctx'.blocks = ctx.blocks
  regions : ctx'.regions = ctx.regions
  uses (a : ValueId) : ctx'.uses a =
    (if a = old then [] else ctx.uses a) ++ if a = new then ctx.uses old else []

theorem Accounted.exists_forwards (ha : Accounted removed ctx) (old new : ValueId) :
    ∃ ctx', ctx.replaceAllUses old new = .ok ctx' ∧ Forwards removed old new ctx ctx' := by
  obtain ⟨ctx', h⟩ := replaceAllUses_total ha.ledgered old new
  refine ⟨ctx', h, ?_⟩
  by_cases hne : old = new
  · subst hne
    obtain rfl : ctx = ctx' := by simpa [Context.replaceAllUses] using h
    exact ⟨ha, fun o => by simp [swap_same], rfl, rfl, rfl, uses_of_replaceAllUses h⟩
  obtain ⟨hops, hctx⟩ := replaceAllUses_ok hne h
  constructor
  case accounted => exact ha.replaceAllUses h
  case op? =>
    intro o
    rw [hops]
    cases ho : ctx.op? o with
    | none => rfl
    | some op =>
      by_cases hm : o ∈ removed
      · have hstruck (i : Nat) : (old, (⟨o, i⟩ : Use)) ∉ ctx.ledger := fun hu => ha.struck hu hm
        simp [hm, redirected_of_unused hstruck]
      · simp [hm, redirected_of_recorded ha.ledgered ho (ha.recorded hm)]
  case values => rw [hctx]
  case blocks => rw [hctx]
  case regions => rw [hctx]
  case uses => exact uses_of_replaceAllUses h

/-- Handing over the uses of a value substitutes it in every operation that was not removed. -/
theorem replaceAllUses_of_edits (h : ofEdits edits = .ok ctx) (old new : ValueId) :
    ∃ ctx', ctx.replaceAllUses old new = .ok ctx' ∧
      (∀ o, ctx'.op? o = (ctx.op? o).map fun op =>
        { op with operands :=
            if o ∈ edits.filterMap Edit.removed? then op.operands
            else op.operands.map fun v => if v = old then new else v }) ∧
      (old ≠ new → ctx'.uses old = [] ∧ ctx'.uses new = ctx.uses new ++ ctx.uses old) ∧
      (∀ v, v ≠ old → v ≠ new → ctx'.uses v = ctx.uses v) ∧
      ctx'.values = ctx.values ∧ ctx'.blocks = ctx.blocks ∧ ctx'.regions = ctx.regions := by
  obtain ⟨ctx', hreplace, hf⟩ := (accounted_of_edits h).exists_forwards old new
  refine ⟨ctx', hreplace, hf.op?, ?_, ?_, hf.values, hf.blocks, hf.regions⟩
  · intro hne
    constructor
    · simp [hf.uses, hne]
    · simp [hf.uses, Ne.symm hne]
  · intro v hold hnew
    simp [hf.uses, hold, hnew]

/-- An operation with two results uses one of them, others use both, and one of these is removed. -/
def twinEdits : List Edit :=
  let i32 : Ty := .mk "core" "i32" [] []
  let spec (name : String) (operands : List ValueId) (resultTypes : List Ty) : OpSpec :=
    { location := ⟨"", ⟨0, 0⟩⟩, dialect := "t", name, operands, resultTypes }
  [.createBlock [i32],
    .createOp (spec "pair" [⟨0⟩] [i32, i32]),
    .pushOp ⟨0⟩ ⟨0⟩,
    .createOp (spec "use" [⟨2⟩, ⟨1⟩, ⟨0⟩] []),
    .pushOp ⟨0⟩ ⟨1⟩,
    .replaceAllUses ⟨0⟩ ⟨2⟩,
    .createOp (spec "gone" [⟨1⟩, ⟨2⟩] []),
    .removeOp ⟨2⟩,
    .createOp (spec "shift" [⟨1⟩] [i32]),
    .createOp (spec "flip" [⟨2⟩, ⟨1⟩] [i32, i32])]

/-- The operation uses the new value itself now, and the removed one keeps the old value. -/
theorem replaceAllUses_of_twinEdits : ∃ ctx ctx', ofEdits twinEdits = .ok ctx ∧
    ctx.replaceAllUses ⟨2⟩ ⟨1⟩ = .ok ctx' ∧
    (ctx'.op? ⟨0⟩).map Op.operands = some [⟨1⟩] ∧
    (ctx'.op? ⟨1⟩).map Op.operands = some [⟨1⟩, ⟨1⟩, ⟨1⟩] ∧
    (ctx'.op? ⟨2⟩).map Op.operands = some [⟨1⟩, ⟨2⟩] ∧
    ctx'.uses ⟨1⟩ =
      [⟨⟨1⟩, 1⟩, ⟨⟨3⟩, 0⟩, ⟨⟨4⟩, 1⟩, ⟨⟨1⟩, 0⟩, ⟨⟨0⟩, 0⟩, ⟨⟨1⟩, 2⟩, ⟨⟨4⟩, 0⟩] := by
  have hcheck : (ofEdits twinEdits).toOption.any fun ctx => decide (
      (ctx.op? ⟨0⟩).map Op.operands = some [⟨2⟩] ∧
      (ctx.op? ⟨1⟩).map Op.operands = some [⟨2⟩, ⟨1⟩, ⟨2⟩] ∧
      (ctx.op? ⟨2⟩).map Op.operands = some [⟨1⟩, ⟨2⟩] ∧
      ctx.uses ⟨1⟩ = [⟨⟨1⟩, 1⟩, ⟨⟨3⟩, 0⟩, ⟨⟨4⟩, 1⟩] ∧
      ctx.uses ⟨2⟩ = [⟨⟨1⟩, 0⟩, ⟨⟨0⟩, 0⟩, ⟨⟨1⟩, 2⟩, ⟨⟨4⟩, 0⟩]) := by
    decide +kernel
  obtain ⟨ctx, hctx, hfacts⟩ := except_any_iff.mp hcheck
  obtain ⟨h₀, h₁, h₂, hnew, hold⟩ := of_decide_eq_true hfacts
  obtain ⟨ctx', hreplace, hops, huses, -⟩ := replaceAllUses_of_edits hctx ⟨2⟩ ⟨1⟩
  have hoperands (o : OpId) : (ctx'.op? o).map Op.operands =
      ((ctx.op? o).map Op.operands).map fun operands =>
        if o ∈ twinEdits.filterMap Edit.removed? then operands
        else operands.map fun v => if v = ⟨2⟩ then ⟨1⟩ else v := by
    rw [hops, Option.map_map, Option.map_map]
    rfl
  refine ⟨ctx, ctx', hctx, hreplace, ?_, ?_, ?_, ?_⟩
  · rw [hoperands, h₀]
    rfl
  · rw [hoperands, h₁]
    rfl
  · rw [hoperands, h₂]
    rfl
  · rw [(huses (by decide)).2, hnew, hold]
    rfl

/-- What is found after the uses of several values were handed over, one value after another. -/
structure Substitutes (removed : List OpId) (pairs : List (ValueId × ValueId))
    (ctx ctx' : Context) : Prop where
  accounted : Accounted removed ctx'
  op? (o : OpId) : ctx'.op? o = (ctx.op? o).map fun op =>
    { op with operands :=
        if o ∈ removed then op.operands else op.operands.map (substitute pairs) }
  values : ctx'.values = ctx.values
  blocks : ctx'.blocks = ctx.blocks
  regions : ctx'.regions = ctx.regions
  uses {a : ValueId} : a ∉ pairs.map Prod.snd →
    ctx'.uses a = if a ∈ pairs.map Prod.fst then [] else ctx.uses a

theorem Forwards.substitutes {ctx₁ : Context} {v w : ValueId} {pairs : List (ValueId × ValueId)}
    (hfirst : Forwards removed v w ctx ctx₁) (hrest : Substitutes removed pairs ctx₁ ctx')
    (hw : w ∉ pairs.map Prod.fst) : Substitutes removed ((v, w) :: pairs) ctx ctx' := by
  have hcomp : substitute pairs ∘ swap v w = substitute ((v, w) :: pairs) := by
    funext x
    by_cases hx : x = v
    · subst hx
      rw [Function.comp_apply, swap_self, substitute_of_not_mem hw, substitute_cons_self]
    · rw [Function.comp_apply, swap_of_ne hx, substitute_cons_of_ne hx]
  constructor
  case accounted => exact hrest.accounted
  case op? =>
    intro o
    rw [hrest.op?, hfirst.op?, Option.map_map]
    by_cases hm : o ∈ removed
    · simp [hm, Function.comp_def]
    · simp [hm, ← hcomp, Function.comp_def]
  case values => rw [hrest.values, hfirst.values]
  case blocks => rw [hrest.blocks, hfirst.blocks]
  case regions => rw [hrest.regions, hfirst.regions]
  case uses =>
    intro a ha
    simp only [List.map_cons, List.mem_cons, not_or] at ha
    rw [hrest.uses ha.2, hfirst.uses, if_neg ha.1, List.append_nil]
    by_cases hv : a = v
    · simp [hv]
    · simp only [List.map_cons, List.mem_cons, hv, if_false, false_or]

/-- If no value that comes in is one that goes out, one after another is all at once. -/
theorem Accounted.exists_substitutes (ha : Accounted removed ctx)
    {pairs : List (ValueId × ValueId)} (hapart : ∀ p ∈ pairs, p.2 ∉ pairs.map Prod.fst) :
    ∃ ctx', pairs.foldlM (fun ctx p => ctx.replaceAllUses p.1 p.2) ctx = .ok ctx' ∧
      Substitutes removed pairs ctx ctx' := by
  induction pairs generalizing ctx with
  | nil =>
    have hid : substitute [] = id := by
      funext v
      rfl
    exact ⟨ctx, rfl, ha, fun o => by simp [hid], rfl, rfl, rfl, fun _ => by simp⟩
  | cons p pairs ih =>
    obtain ⟨v, w⟩ := p
    obtain ⟨ctx₁, h₁, hfirst⟩ := ha.exists_forwards v w
    obtain ⟨hw, hpairs⟩ := List.forall_mem_cons.mp hapart
    simp only [List.map_cons, List.mem_cons, not_or] at hw hpairs
    obtain ⟨ctx', h, hrest⟩ := ih hfirst.accounted fun p hp => (hpairs p hp).2
    exact ⟨ctx', by rw [List.foldlM_cons, h₁, except_ok_bind, h], hfirst.substitutes hrest hw.2⟩

/-- What is found after `ns` were put in front of an operation in `b`, which stands between `pre`
and `post`. -/
structure Inserts (b : BlockId) (pre ns post : List OpId) (ctx ctx' : Context) : Prop where
  keeps : KeepsUses ctx ctx'
  op? (o : OpId) : ctx'.op? o = (ctx.op? o).map fun op =>
    { op with parent := if o ∈ ns then some b else op.parent }
  block? (c : BlockId) : ctx'.block? c = (ctx.block? c).map fun block =>
    if c = b then { block with ops := pre ++ ns ++ post } else block
  values : ctx'.values = ctx.values
  regions : ctx'.regions = ctx.regions

theorem exists_inserts {b : BlockId} {block : Block} {o : OpId} {pre post ns : List OpId}
    (hb : ctx.block? b = some block) (hops : block.ops = pre ++ o :: post) (hpre : o ∉ pre)
    (ho : o ∉ ns) (hnd : ns.Nodup) (hfree : ∀ n ∈ ns, ∃ op, ctx.op? n = some op ∧ op.parent = none) :
    ∃ ctx', ns.foldlM (fun ctx n => ctx.insertOpBefore b o n) ctx = .ok ctx' ∧
      Inserts b pre ns (o :: post) ctx ctx' := by
  induction ns generalizing ctx block pre with
  | nil =>
    refine ⟨ctx, rfl, ⟨fun _ => rfl, rfl⟩, fun u => by simp, fun c => ?_, rfl, rfl⟩
    by_cases hc : c = b
    · subst hc
      simp [hb, ← hops]
    · simp [hc]
  | cons n ns ih =>
    obtain ⟨⟨op, hop, hp⟩, hrest⟩ := List.forall_mem_cons.mp hfree
    obtain ⟨hnot, hnd⟩ := List.nodup_cons.mp hnd
    simp only [List.mem_cons, not_or] at ho
    obtain ⟨ctx₁, h₁⟩ := insertOpBefore_total hop hp hb (hops ▸ List.mem_append_right pre List.mem_cons_self)
    obtain ⟨-, block', ops, hb', hins, hctx₁⟩ := insertOpBefore_ok h₁
    obtain rfl : block = block' := Option.some.inj (hb.symm.trans hb')
    have hops₁ : ops = (pre ++ [n]) ++ o :: post := by
      have : insertBefore o n block.ops = some (pre ++ n :: o :: post) :=
        insertBefore_eq_some_iff.mpr ⟨pre, post, hops, hpre, rfl⟩
      rw [hins] at this
      simpa using this
    have hb₁ : ctx₁.block? b = some { block with ops } := by
      rw [hctx₁, block?_modifyBlock, if_pos rfl, block?_modifyOp, hb, Option.map_some]
    have hop₁ (u : OpId) : ctx₁.op? u = (ctx.op? u).map fun op =>
        { op with parent := if u = n then some b else op.parent } := by
      rw [hctx₁, op?_modifyBlock, op?_modifyOp]
      by_cases hu : u = n <;> simp [hu]
    obtain ⟨ctx', h, hi⟩ := ih hb₁ hops₁ (by simp [hpre, ho.1]) ho.2 hnd fun m hm => by
      obtain ⟨mop, hmop, hmp⟩ := hrest m hm
      have hne : m ≠ n := fun h => hnot (h ▸ hm)
      exact ⟨mop, by simp [hop₁, hmop, hne], hmp⟩
    refine ⟨ctx', by rw [List.foldlM_cons, h₁, except_ok_bind, h], ?_⟩
    constructor
    case keeps => exact (KeepsUses.insertOpBefore h₁).trans hi.keeps
    case op? =>
      intro u
      rw [hi.op?, hop₁, Option.map_map]
      by_cases hu : u = n
      · simp [hu, hnot, Function.comp_def]
      · simp [hu, Function.comp_def]
    case block? =>
      intro c
      rw [hi.block?, hctx₁, block?_modifyBlock, block?_modifyOp]
      by_cases hc : c = b
      · subst hc
        simp [hb]
      · simp [hc]
    case values => rw [hi.values, hctx₁]; rfl
    case regions => rw [hi.regions, hctx₁]; rfl

/-- Whether a plan can be carried out on `op`, whose results it replaces by the values `new`. The new
operations are distinct and stand nowhere, and the values are the results of the last of them or
are no results of `op`. The values need not exist, and the operations may have been removed. -/
structure Fits (plan : Plan) (ctx : Context) (op : Op) (new : List ValueId) : Prop where
  distinct : plan.newOps.Nodup
  free : ∀ n ∈ plan.newOps, ∃ nop, ctx.op? n = some nop ∧ nop.parent = none
  count : new.length = op.results.length
  source : (∃ n nop, plan.replacement = some n ∧ ctx.op? n = some nop ∧ new = nop.results) ∨
    plan.replacement = none ∧ plan.erasure = some new ∧ ∀ v ∈ new, v ∉ op.results

theorem Fits.insertOps {plan : Plan} {b : BlockId} {o : OpId} {op : Op} {new : List ValueId}
    (hf : Fits plan ctx op new)
    (h : plan.newOps.foldlM (fun ctx n => ctx.insertOpBefore b o n) ctx = .ok ctx')
    (hresults : ∀ n nop, ctx.op? n = some nop → (ctx'.op? n).map Op.results = some nop.results) :
    plan.insertOps ctx b o = .ok (ctx', some new) := by
  obtain ⟨n, nop, hr, hn, rfl⟩ | ⟨hr, he, -⟩ := hf.source
  · obtain ⟨nop', hn', hres⟩ := Option.map_eq_some_iff.mp (hresults n nop hn)
    simp only [Plan.newOps, hr, Option.toList_some, List.foldlM_append, List.foldlM_cons,
      List.foldlM_nil, except_bind_eq_ok, except_pure_eq_ok] at h
    obtain ⟨ctx₁, h₁, _, h₂, rfl⟩ := h
    simp [Plan.insertOps, hr, h₁, h₂, op_eq_ok.mpr hn', hres, pure, Except.pure]
  · simp only [Plan.newOps, hr, Option.toList_none, List.append_nil] at h
    simp [Plan.insertOps, hr, h, he, pure, Except.pure]

theorem Fits.apart {plan : Plan} {o : OpId} {op : Op} {new : List ValueId} (hf : Fits plan ctx op new)
    (ht : ctx.Typed) (ho : ctx.op? o = some op) (hnew : o ∉ plan.newOps) :
    ∀ v ∈ new, v ∉ op.results := by
  obtain ⟨n, nop, hr, hn, rfl⟩ | ⟨-, -, hapart⟩ := hf.source
  · intro v hv hold
    have he : o = n := ht.result_unique ho hn hold hv
    exact hnew (by simp [Plan.newOps, hr, he])
  · exact hapart

/-- New operations come in, then the old results give way, and last `o` is taken out. -/
theorem Fits.exists_carryOut {plan : Plan} {b : BlockId} {block : Block} {pre post : List OpId}
    {o : OpId} {op : Op} {new : List ValueId} (hf : Fits plan ctx op new)
    (ha : Accounted removed ctx) (ht : ctx.Typed) (hb : ctx.block? b = some block)
    (hops : block.ops = pre ++ o :: post) (hpre : o ∉ pre) (ho : ctx.op? o = some op)
    (hparent : op.parent = some b) (hnew : o ∉ plan.newOps) :
    ∃ ctx₁ ctx₂ ctx', plan.carryOut ctx o = .ok ctx' ∧
      Inserts b pre plan.newOps (o :: post) ctx ctx₁ ∧
      Substitutes removed (op.results.zip new) ctx₁ ctx₂ ∧
      Discards ctx₂ b o ctx' ∧ Accounted (removed ++ [o]) ctx' ∧
      ∀ v ∈ op.results, ctx₂.uses v = [] := by
  obtain ⟨ctx₁, hinsert, h₁⟩ := exists_inserts hb hops hpre hnew hf.distinct hf.free
  have hcome : plan.insertOps ctx b o = .ok (ctx₁, some new) := by
    apply hf.insertOps hinsert
    intro n nop hn
    simp [h₁.op?, hn]
  have hfst : (op.results.zip new).map Prod.fst = op.results :=
    List.map_fst_zip (by simp [hf.count])
  have hsnd : (op.results.zip new).map Prod.snd = new := List.map_snd_zip (by simp [hf.count])
  have hapart := hf.apart ht ho hnew
  have hpairs : ∀ p ∈ op.results.zip new, p.2 ∉ (op.results.zip new).map Prod.fst := by
    intro p hp
    rw [hfst]
    exact hapart _ (hsnd ▸ List.mem_map_of_mem hp)
  obtain ⟨ctx₂, hreplace, h₂⟩ := (ha.of_keeps h₁.keeps).exists_substitutes hpairs
  have ho₁ : ctx₁.op? o = some op := by simp [h₁.op?, ho, hnew]
  have ho₂ := h₂.op? o
  rw [ho₁, Option.map_some] at ho₂
  have hb₂ : ctx₂.block? b = some { block with ops := pre ++ plan.newOps ++ o :: post } := by
    have hsame : ctx₂.block? b = ctx₁.block? b := by simp [Context.block?, h₂.blocks]
    rw [hsame, h₁.block?, hb, Option.map_some, if_pos rfl]
  have hunused : ∀ v ∈ op.results, ctx₂.uses v = [] := by
    intro v hv
    have hout : v ∉ new := fun hm => hapart v hm hv
    rw [h₂.uses (by rwa [hsnd]), if_pos (by rwa [hfst])]
  obtain ⟨ctx₃, ctx', hdetach, hremove, h₃⟩ :=
    exists_discards h₂.accounted.ledgered hb₂ ho₂ hparent hunused
  refine ⟨ctx₁, ctx₂, ctx', ?_, h₁, h₂, h₃,
    (h₂.accounted.of_keeps (.detachOp hdetach)).removeOp hremove, hunused⟩
  simp [Plan.carryOut, op_eq_ok.mpr ho, op_eq_ok.mpr ho₁, hparent, hcome, hf.count, hreplace,
    hdetach, hremove]

/-- An operation stands at one place of its block only. -/
theorem Linked.split_at (hl : ctx.Linked) {b : BlockId} {block : Block} {k : Nat} {o : OpId}
    (hb : ctx.block? b = some block) (hk : block.ops[k]? = some o) :
    block.ops = block.ops.take k ++ o :: block.ops.drop (k + 1) ∧
      o ∉ block.ops.take k ∧ o ∉ block.ops.drop (k + 1) := by
  obtain ⟨hlt, hget⟩ := List.getElem?_eq_some_iff.mp hk
  have hsplit : block.ops = block.ops.take k ++ o :: block.ops.drop (k + 1) := by
    rw [← hget, List.getElem_cons_drop, List.take_append_drop]
  have hnd := hl.ops_nodup hb
  rw [hsplit, List.nodup_middle, List.nodup_cons, List.mem_append, not_or] at hnd
  exact ⟨hsplit, hnd.1⟩

/-- Carrying out a plan puts its operations in the place of `o`, and substitutes the values that it
supplies for the results of `o` in all operands at once. -/
theorem carryOut_of_edits (h : ofEdits edits = .ok ctx) {b : BlockId} {block : Block} {k : Nat}
    {o : OpId} {op : Op} (hb : ctx.block? b = some block) (hk : block.ops[k]? = some o)
    (ho : ctx.op? o = some op) {plan : Plan} {new : List ValueId} (hf : Fits plan ctx op new) :
    ∃ ctx', plan.carryOut ctx o = .ok ctx' ∧
      (∀ c, ctx'.block? c = (ctx.block? c).map fun block =>
        if c = b then
          { block with ops := block.ops.take k ++ plan.newOps ++ block.ops.drop (k + 1) }
        else block) ∧
      (∀ u, ctx'.op? u = (ctx.op? u).map fun user =>
        { user with
          operands := if u ∈ edits.filterMap Edit.removed? then user.operands
            else user.operands.map (substitute (op.results.zip new))
          parent := if u = o then none else if u ∈ plan.newOps then some b else user.parent }) ∧
      (∀ (j : Nat) (v w : ValueId), op.results[j]? = some v → new[j]? = some w →
        substitute (op.results.zip new) v = w) ∧
      (∀ v, v ∉ op.results → substitute (op.results.zip new) v = v) ∧
      ctx'.values = ctx.values ∧ ctx'.regions = ctx.regions ∧
      (∀ v ∈ op.results, ctx'.uses v = []) ∧
      ∀ v u i, (ctx'.uses v).count ⟨u, i⟩ =
        if u ∉ o :: edits.filterMap Edit.removed? ∧ (ctx'.op? u).bind (·.operands[i]?) = some v
        then 1 else 0 := by
  have hl := linked_of_edits h
  obtain ⟨hsplit, hpre, hpost⟩ := hl.split_at hb hk
  have hparent : op.parent = some b := by
    obtain ⟨op', ho', hp⟩ := hl.op_of_listed hb (List.mem_of_getElem? hk)
    cases ho.symm.trans ho'
    exact hp
  have hnew : o ∉ plan.newOps := by
    intro hm
    obtain ⟨nop, hn, hp⟩ := hf.free o hm
    cases ho.symm.trans hn
    simp [hparent] at hp
  obtain ⟨ctx₁, ctx₂, ctx', hcarry, h₁, h₂, h₃, ha', hunused⟩ :=
    hf.exists_carryOut (accounted_of_edits h) (typed_of_edits h) hb hsplit hpre ho hparent hnew
  refine ⟨ctx', hcarry, ?_, ?_, ?_, ?_, ?_, ?_, ?_, ?_⟩
  · intro c
    have hsame : ctx₂.block? c = ctx₁.block? c := by simp [Context.block?, h₂.blocks]
    rw [h₃.block?, hsame, h₁.block?]
    by_cases hc : c = b
    · subst hc
      have hstays : o ∉ block.ops.take k ++ plan.newOps := by simp [hpre, hnew]
      simp only [if_true, hb, Option.map_some, filter_ne_middle hstays hpost]
    · simp [hc]
  · intro u
    rw [h₃.op?, h₂.op?, h₁.op?, Option.map_map, Option.map_map]
    rfl
  · intro j v w hv hw
    exact substitute_zip ((typed_of_edits h).results_nodup ho) hv hw
  · intro v hv
    apply substitute_of_not_mem
    intro hm
    obtain ⟨p, hp, rfl⟩ := List.mem_map.mp hm
    exact hv (List.of_mem_zip hp).1
  · rw [h₃.values, h₂.values, h₁.values]
  · rw [h₃.regions, h₂.regions, h₁.regions]
  · intro v hv
    rw [h₃.uses, hunused v hv, List.filter_nil]
  · intro v u i
    rw [(uses_nodup ha'.ledgered v).count]
    refine if_congr (ha'.mem_uses_iff.trans ?_) rfl rfl
    simp [and_comm]

/-- The operation that goes uses its own result, and the new ones use what it defined. -/
theorem carryOut_of_twinEdits : ∃ ctx ctx', ofEdits twinEdits = .ok ctx ∧
    ({ inserted := [⟨3⟩], replacement := some ⟨4⟩ } : Plan).carryOut ctx ⟨0⟩ = .ok ctx' ∧
    (ctx'.block? ⟨0⟩).map Block.ops = some [⟨3⟩, ⟨4⟩, ⟨1⟩] ∧
    (ctx'.op? ⟨0⟩).map (fun op => (op.operands, op.parent)) = some ([⟨5⟩], none) ∧
    (ctx'.op? ⟨1⟩).map (fun op => (op.operands, op.parent)) =
      some ([⟨5⟩, ⟨4⟩, ⟨5⟩], some ⟨0⟩) ∧
    (ctx'.op? ⟨2⟩).map (fun op => (op.operands, op.parent)) = some ([⟨1⟩, ⟨2⟩], none) ∧
    (ctx'.op? ⟨3⟩).map (fun op => (op.operands, op.parent)) = some ([⟨4⟩], some ⟨0⟩) ∧
    (ctx'.op? ⟨4⟩).map (fun op => (op.operands, op.parent)) = some ([⟨5⟩, ⟨4⟩], some ⟨0⟩) ∧
    (ctx'.uses ⟨5⟩).count ⟨⟨0⟩, 0⟩ = 0 := by
  have hcheck : (ofEdits twinEdits).toOption.any fun ctx => decide (
      (ctx.block? ⟨0⟩).map Block.ops = some [⟨0⟩, ⟨1⟩] ∧
      (ctx.op? ⟨0⟩).map (fun op => (op.operands, op.parent)) = some ([⟨2⟩], some ⟨0⟩) ∧
      (ctx.op? ⟨1⟩).map (fun op => (op.operands, op.parent)) =
        some ([⟨2⟩, ⟨1⟩, ⟨2⟩], some ⟨0⟩) ∧
      (ctx.op? ⟨2⟩).map (fun op => (op.operands, op.parent)) = some ([⟨1⟩, ⟨2⟩], none) ∧
      (ctx.op? ⟨3⟩).map (fun op => (op.operands, op.parent)) = some ([⟨1⟩], none) ∧
      (ctx.op? ⟨4⟩).map (fun op => (op.operands, op.parent)) = some ([⟨2⟩, ⟨1⟩], none) ∧
      (ctx.op? ⟨0⟩).map Op.results = some [⟨1⟩, ⟨2⟩] ∧
      (ctx.op? ⟨4⟩).map Op.results = some [⟨4⟩, ⟨5⟩]) := by
    decide +kernel
  obtain ⟨ctx, hctx, hfacts⟩ := except_any_iff.mp hcheck
  obtain ⟨hops, h₀, h₁, h₂, h₃, h₄, hold, hnew⟩ := of_decide_eq_true hfacts
  obtain ⟨block, hb, hblock⟩ := Option.map_eq_some_iff.mp hops
  obtain ⟨op, ho, hresults⟩ := Option.map_eq_some_iff.mp hold
  obtain ⟨nop, hn, hnresults⟩ := Option.map_eq_some_iff.mp hnew
  let plan : Plan := { inserted := [⟨3⟩], replacement := some ⟨4⟩ }
  have hf : Fits plan ctx op [⟨4⟩, ⟨5⟩] := by
    constructor
    case distinct => decide
    case free =>
      have hfree {n : OpId} {operands : List ValueId}
          (h : (ctx.op? n).map (fun op => (op.operands, op.parent)) = some (operands, none)) :
          ∃ nop, ctx.op? n = some nop ∧ nop.parent = none := by
        obtain ⟨nop, hn, he⟩ := Option.map_eq_some_iff.mp h
        exact ⟨nop, hn, congrArg Prod.snd he⟩
      simpa [plan, Plan.newOps] using ⟨hfree h₃, hfree h₄⟩
    case count => rw [hresults]; rfl
    case source => exact .inl ⟨⟨4⟩, nop, rfl, hn, hnresults.symm⟩
  obtain ⟨ctx', hcarry, hblocks, huser, -, -, -, -, -, hcount⟩ :=
    carryOut_of_edits hctx hb (k := 0) (by rw [hblock]; rfl) ho hf
  have hview (u : OpId) : (ctx'.op? u).map (fun op => (op.operands, op.parent)) =
      ((ctx.op? u).map fun op => (op.operands, op.parent)).map fun view =>
        (if u ∈ twinEdits.filterMap Edit.removed? then view.1
          else view.1.map (substitute [(⟨1⟩, ⟨4⟩), (⟨2⟩, ⟨5⟩)]),
        if u = ⟨0⟩ then none else if u ∈ plan.newOps then some ⟨0⟩ else view.2) := by
    rw [huser, Option.map_map, Option.map_map, hresults]
    rfl
  refine ⟨ctx, ctx', hctx, hcarry, ?_, ?_, ?_, ?_, ?_, ?_, ?_⟩
  · rw [hblocks, hb]
    simp [hblock, plan, Plan.newOps]
  · rw [hview, h₀]
    rfl
  · rw [hview, h₁]
    rfl
  · rw [hview, h₂]
    rfl
  · rw [hview, h₃]
    rfl
  · rw [hview, h₄]
    rfl
  · rw [hcount, if_neg]
    exact fun h => h.1 List.mem_cons_self

end Context

end RegionIR
