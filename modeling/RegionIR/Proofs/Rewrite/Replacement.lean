import RegionIR.Proofs.Context.Sound
import RegionIR.Rewrite.Pattern

/-! Replacing an operation that has one result.

The new operation stands where the old one stood, and wherever the old result was used the new
one is. Nothing else changes, and a sound context never refuses. -/

namespace RegionIR

/-- Puts `b` in the place of `a`. -/
def swap {α : Type} [DecidableEq α] (a b x : α) : α :=
  if x = a then b else x

@[simp] theorem swap_self {α : Type} [DecidableEq α] (a b : α) : swap a b a = b := by
  simp [swap]

theorem swap_of_ne {α : Type} [DecidableEq α] {a b x : α} (h : x ≠ a) : swap a b x = x := by
  simp [swap, h]

namespace Context

variable {ctx ctx' : Context}

theorem insertBefore_of_mem {α : Type} [DecidableEq α] {anchor a : α} {l : List α}
    (h : anchor ∈ l) : ∃ l', insertBefore anchor a l = some l' := by
  induction l with
  | nil => exact absurd h List.not_mem_nil
  | cons x l ih =>
    by_cases he : x = anchor
    · exact ⟨_, by rw [insertBefore, if_pos he]⟩
    · obtain ⟨l', hl'⟩ := ih ((List.mem_cons.mp h).resolve_left (Ne.symm he))
      exact ⟨x :: l', by rw [insertBefore, if_neg he, hl', Option.map_some]⟩

/-- The recorded uses of a value are all its occurrences in a recorded operation. -/
theorem redirected_of_recorded (hd : ctx.Ledgered) {o : OpId} {op : Op} (ho : ctx.op? o = some op)
    (hr : ctx.Recorded o) (v w : ValueId) :
    redirected (ctx.uses v) w o op.operands = op.operands.map (swap v w) := by
  refine List.ext_getElem? fun i => ?_
  simp only [getElem?_redirected, List.getElem?_map]
  cases hi : op.operands[i]? with
  | none => rfl
  | some a =>
    have hiff : (⟨o, i⟩ : Use) ∈ ctx.uses v ↔ a = v := by
      rw [mem_uses]
      constructor
      · intro hm
        exact hd.value_unique (hr op i a ho hi) hm
      · rintro rfl
        exact hr op i a ho hi
    simp only [Option.map_some, hiff, swap]

/-- What is found after `old`, which defined `v`, gave way to `new`, which defines `w`. -/
structure Replaces (ctx : Context) (spec : OpSpec) (ty : Ty) (b : BlockId) (old : OpId)
    (v : ValueId) (ctx' : Context) (new : OpId) (w : ValueId) : Prop where
  sound : ctx'.Sound
  fresh : ctx.op? new = none
  freshValue : ctx.value? w = none
  op?_new : ctx'.op? new = some
    { spec.toOp [w] with operands := spec.operands.map (swap v w), parent := some b }
  persists {o : OpId} {op : Op} : ctx.op? o = some op → ∃ op', ctx'.op? o = some op'
  op?_recorded {o : OpId} {op : Op} : o ≠ old → ctx.op? o = some op → ctx.Recorded o →
    ctx'.op? o = some { op with operands := op.operands.map (swap v w) }
  op?_unused {o : OpId} : o ≠ old → o ≠ new → (∀ i, (v, ⟨o, i⟩) ∉ ctx.ledger) →
    ctx'.op? o = ctx.op? o
  block? (c : BlockId) : ctx'.block? c = if c = b then
      (ctx.block? c).map fun block => { block with ops := block.ops.map (swap old new) }
    else ctx.block? c
  region? (r : RegionId) : ctx'.region? r = ctx.region? r
  value? (a : ValueId) : ctx'.value? a = if a = w then some ⟨.result new 0, ty⟩ else ctx.value? a
  uses (a : ValueId) : ctx'.uses a =
    ((if a = v then [] else ctx.uses a ++ usesBy new spec.operands a) ++
      if a = w then ctx.uses v ++ usesBy new spec.operands v else []).filter fun u => u.user ≠ old

theorem Replaces.mem_ledger {spec : OpSpec} {ty : Ty} {b : BlockId} {old new : OpId}
    {v w a : ValueId} {u : Use} (h : Replaces ctx spec ty b old v ctx' new w) :
    (a, u) ∈ ctx'.ledger ↔ u.user ≠ old ∧ ∃ a₀, swap v w a₀ = a ∧
      ((a₀, u) ∈ ctx.ledger ∨ (u.user = new ∧ spec.operands[u.operand]? = some a₀)) := by
  have hmem (l : List Use) (p : Prop) [Decidable p] : u ∈ (if p then l else []) ↔ p ∧ u ∈ l := by
    split <;> simp [*]
  have hmem' (l : List Use) (p : Prop) [Decidable p] : u ∈ (if p then [] else l) ↔ ¬p ∧ u ∈ l := by
    split <;> simp [*]
  rw [← mem_uses, h.uses]
  simp only [List.mem_filter, List.mem_append, hmem, hmem', mem_uses, mem_usesBy, decide_eq_true_eq]
  rw [and_comm]
  refine and_congr_right fun _ => ⟨?_, ?_⟩
  · rintro (⟨hne, hu⟩ | ⟨rfl, hu⟩)
    · exact ⟨a, swap_of_ne hne, hu⟩
    · exact ⟨v, swap_self v a, hu⟩
  · rintro ⟨a₀, rfl, hu⟩
    by_cases he : a₀ = v
    · subst he
      exact .inr ⟨swap_self a₀ w, hu⟩
    · rw [swap_of_ne he]
      exact .inl ⟨he, hu⟩

/-- How the uses of a value are listed afterwards, if the new result was not used before. -/
theorem Replaces.uses_swap {spec : OpSpec} {ty : Ty} {b : BlockId} {old new : OpId} {v w a : ValueId}
    (h : Replaces ctx spec ty b old v ctx' new w) (hunused : ctx.uses w = []) (hw : w ∉ spec.operands)
    (ha : a ≠ w) : ctx'.uses (swap v w a) =
      (ctx.uses a).filter (fun u => u.user ≠ old) ++
        (usesBy new spec.operands a).filter fun u => u.user ≠ old := by
  rw [h.uses, ← List.filter_append]
  by_cases he : a = v
  · subst he
    rw [swap_self, if_neg ha.symm, if_pos rfl, hunused, usesBy_eq_nil hw]
    rfl
  · rw [swap_of_ne he, if_neg he, if_neg ha, List.append_nil]

theorem filter_ne_of_not_mem {α : Type} [DecidableEq α] {a : α} {l : List α} (h : a ∉ l) :
    l.filter (· ≠ a) = l := by
  apply List.filter_eq_self.mpr
  intro x hx
  simpa using ne_of_mem_of_not_mem hx h

theorem filter_ne_middle {α : Type} [DecidableEq α] {a : α} {pre post : List α} (hpre : a ∉ pre)
    (hpost : a ∉ post) : (pre ++ a :: post).filter (· ≠ a) = pre ++ post := by
  rw [List.filter_append, List.filter_cons_of_neg (by simp), filter_ne_of_not_mem hpre,
    filter_ne_of_not_mem hpost]

theorem filter_insertBefore {α : Type} [DecidableEq α] {old new : α} {l l' : List α}
    (hnd : l.Nodup) (hnew : new ∉ l) (h : insertBefore old new l = some l') :
    l'.filter (· ≠ old) = l.map (swap old new) := by
  obtain ⟨pre, post, rfl, hpre, rfl⟩ := insertBefore_eq_some_iff.mp h
  have hpost : old ∉ post := by
    rw [List.nodup_append] at hnd
    exact (List.nodup_cons.mp hnd.2.1).1
  have hne : new ≠ old := fun e => hnew (by simp [e])
  have hmap {k : List α} (hk : old ∉ k) : k.map (swap old new) = k := by
    refine (List.map_congr_left fun x hx => ?_).trans (List.map_id k)
    exact swap_of_ne (ne_of_mem_of_not_mem hx hk)
  simp only [List.filter_append, List.filter_cons, List.map_append, List.map_cons, swap_self,
    filter_ne_of_not_mem hpre, hmap hpre, filter_ne_of_not_mem hpost, hmap hpost]
  simp [hne]

theorem insertOpBefore_total {b : BlockId} {block : Block} {anchor id : OpId} {op : Op}
    (ho : ctx.op? id = some op) (hp : op.parent = none) (hb : ctx.block? b = some block)
    (hm : anchor ∈ block.ops) : ∃ ctx', ctx.insertOpBefore b anchor id = .ok ctx' := by
  obtain ⟨ops, hops⟩ := insertBefore_of_mem (a := id) hm
  simp [insertOpBefore, op_eq_ok.mpr ho, hp, block_eq_ok.mpr hb, hops, pure, Except.pure]

theorem replaceAllUses_total (hd : ctx.Ledgered) (old new : ValueId) :
    ∃ ctx', ctx.replaceAllUses old new = .ok ctx' := by
  by_cases he : old = new
  · exact ⟨ctx, by simp [replaceAllUses, he, pure, Except.pure]⟩
  · have hopen : ∀ u ∈ ctx.uses old, ∃ v,
        ((ctx.op? u.user).bind fun op => op.operands[u.operand]?) = some v ∧ v = old := by
      intro u hu
      obtain ⟨op, ho, hv⟩ := hd.sound (mem_uses.mp hu)
      exact ⟨old, by rw [ho, Option.bind_some, hv], rfl⟩
    have h := (marks_use he).foldlM_ok_iff.mpr ⟨uses_nodup hd old, hopen, rfl⟩
    simp only [replaceAllUses, he, if_false, h, except_ok_bind]
    exact ⟨_, rfl⟩

theorem detachOp_total {b : BlockId} {block : Block} {id : OpId} {op : Op}
    (hb : ctx.block? b = some block) (ho : ctx.op? id = some op) :
    ∃ ctx', ctx.detachOp b id = .ok ctx' := by
  simp [detachOp, block_eq_ok.mpr hb, op_eq_ok.mpr ho, pure, Except.pure]

theorem removeOp_total {id : OpId} {op : Op} (ho : ctx.op? id = some op) (hp : op.parent = none)
    (hu : ∀ v ∈ op.results, ctx.uses v = []) : ∃ ctx', ctx.removeOp id = .ok ctx' := by
  simp [removeOp, op_eq_ok.mpr ho, hp, checkUnused_eq_ok_iff.mpr hu, pure, Except.pure]

/-- What is found when `new`, which defines `w`, was created in front of `old`. -/
structure Enters (ctx : Context) (spec : OpSpec) (ty : Ty) (b : BlockId) (old : OpId)
    (ctx' : Context) (new : OpId) (w : ValueId) : Prop where
  sound : ctx'.Sound
  fresh : ctx.op? new = none
  freshValue : ctx.value? w = none
  op? (o : OpId) : ctx'.op? o =
    if o = new then some { spec.toOp [w] with parent := some b } else ctx.op? o
  value? (a : ValueId) : ctx'.value? a = if a = w then some ⟨.result new 0, ty⟩ else ctx.value? a
  block? : ∃ block ops, ctx.block? b = some block ∧ insertBefore old new block.ops = some ops ∧
    ∀ c, ctx'.block? c = if c = b then some { block with ops } else ctx.block? c
  region? (r : RegionId) : ctx'.region? r = ctx.region? r
  ledger : ctx'.ledger = ctx.ledger ++ spec.operands.mapIdx fun i v => (v, ⟨new, i⟩)

theorem exists_enters {spec : OpSpec} {ty : Ty} {b : BlockId} {old : OpId} {op : Op}
    (hs : ctx.Sound) (hp : spec.parent = none) (hr : spec.regions = [])
    (ht : spec.resultTypes = [ty]) (ha : spec.attrs.Sorted) (ho : ctx.op? old = some op)
    (hparent : op.parent = some b) :
    ∃ ctx₁ new ctx' w, ctx.createOp spec = .ok (ctx₁, new) ∧ ctx₁.op? old = some op ∧
      ctx₁.insertOpBefore b old new = .ok ctx' ∧ Enters ctx spec ty b old ctx' new w := by
  obtain ⟨ctx₁, new, hcreate⟩ := createOp_of_no_regions ctx hp hr
  have hc := createOp_ok hcreate
  have hs₁ := hs.createOp ha hc
  let w : ValueId := ⟨ctx.values.size⟩
  have hspec : spec.toOp (ctx.freshValues spec.resultTypes.length) = spec.toOp [w] := by
    rw [ht]
    rfl
  obtain ⟨block, hb, hmem⟩ := hs.linked.listed_of_op ho hparent
  have hn₁ : ctx₁.op? new = some (spec.toOp [w]) := by rw [hc.op?, if_pos rfl, hspec]
  have hb₁ : ctx₁.block? b = some block := (hc.block? b).trans hb
  obtain ⟨ctx₂, h₂⟩ := insertOpBefore_total hn₁ rfl hb₁ hmem
  obtain ⟨-, block', ops, hb', hins, hctx₂⟩ := insertOpBefore_ok h₂
  obtain rfl : block = block' := Option.some.inj (hb₁.symm.trans hb')
  refine ⟨ctx₁, new, ctx₂, w, hcreate, hc.op?_of_some ho, h₂, ?_⟩
  constructor
  case sound => exact hs₁.insertOpBefore h₂
  case fresh => exact hc.fresh
  case freshValue => simp [Context.value?, w]
  case op? =>
    intro o
    rw [hctx₂, op?_modifyBlock, op?_modifyOp, hc.op?, hspec]
    split <;> rfl
  case value? =>
    intro a
    rw [hctx₂]
    change ctx₁.value? a = _
    rw [hc.value?, ht]
    obtain ⟨i⟩ := a
    simp only [w, ValueId.mk.injEq]
    by_cases hlt : i < ctx.values.size
    · rw [if_pos hlt, if_neg (by omega)]
    · rw [if_neg hlt]
      by_cases he : i = ctx.values.size
      · simp [he]
      · have hnone : ctx.value? ⟨i⟩ = none := by simpa [Context.value?] using hlt
        rw [if_neg he, hnone, List.getElem?_eq_none (by simp; omega)]
        rfl
  case block? =>
    refine ⟨block, ops, hb, hins, fun c => ?_⟩
    rw [hctx₂, block?_modifyBlock, block?_modifyOp, hc.block?]
    split
    · rename_i he
      rw [he, hb]
      rfl
    · rfl
  case region? =>
    intro r
    rw [hctx₂]
    change ctx₁.region? r = _
    rw [hc.region?, hr]
    simp
  case ledger =>
    rw [hctx₂]
    exact hc.ledger

/-- What is found when every use of `v` became one of `w`. -/
structure Redirects (ctx : Context) (v w : ValueId) (ctx' : Context) : Prop where
  sound : ctx'.Sound
  op? (o : OpId) : ctx'.op? o = (ctx.op? o).map fun op =>
    { op with operands := redirected (ctx.uses v) w o op.operands }
  value? (a : ValueId) : ctx'.value? a = ctx.value? a
  block? (b : BlockId) : ctx'.block? b = ctx.block? b
  region? (r : RegionId) : ctx'.region? r = ctx.region? r
  uses (a : ValueId) : ctx'.uses a =
    (if a = v then [] else ctx.uses a) ++ if a = w then ctx.uses v else []

theorem exists_redirects (hs : ctx.Sound) {v w : ValueId} (hvw : v ≠ w) :
    ∃ ctx', ctx.replaceAllUses v w = .ok ctx' ∧ Redirects ctx v w ctx' := by
  obtain ⟨ctx', h⟩ := replaceAllUses_total hs.ledgered v w
  obtain ⟨hop, hctx⟩ := replaceAllUses_ok hvw h
  exact ⟨ctx', h, hs.replaceAllUses h, hop, fun a => by rw [hctx]; rfl,
    fun b => by rw [hctx]; rfl, fun r => by rw [hctx]; rfl, uses_of_replaceAllUses h⟩

/-- What every look-up gives when an operation was taken out of its block and removed. -/
structure Discards (ctx : Context) (b : BlockId) (old : OpId) (ctx' : Context) : Prop where
  op? (o : OpId) : ctx'.op? o = (ctx.op? o).map fun op =>
    { op with parent := if o = old then none else op.parent }
  block? (c : BlockId) : ctx'.block? c = if c = b then
      (ctx.block? c).map fun block => { block with ops := block.ops.filter (· ≠ old) }
    else ctx.block? c
  values : ctx'.values = ctx.values
  regions : ctx'.regions = ctx.regions
  uses (a : ValueId) : ctx'.uses a = (ctx.uses a).filter fun u => u.user ≠ old

theorem exists_discards {b : BlockId} {block : Block} {old : OpId} {op : Op} (hd : ctx.Ledgered)
    (hb : ctx.block? b = some block) (ho : ctx.op? old = some op) (hparent : op.parent = some b)
    (hunused : ∀ v ∈ op.results, ctx.uses v = []) :
    ∃ ctx₁ ctx', ctx.detachOp b old = .ok ctx₁ ∧ ctx₁.removeOp old = .ok ctx' ∧
      Discards ctx b old ctx' := by
  obtain ⟨ctx₁, h₁⟩ := detachOp_total hb ho
  obtain ⟨-, -, hctx₁⟩ := detachOp_ok h₁
  have hop₁ (o : OpId) : ctx₁.op? o = (ctx.op? o).map fun op =>
      { op with parent := if o = old then none else op.parent } := by
    rw [hctx₁, op?_modifyOp, op?_modifyBlock]
    by_cases he : o = old
    · simp [he, ho, hparent]
    · simp [he]
  have ho₁ : ctx₁.op? old = some { op with parent := none } := by simp [hop₁, ho]
  have hledger₁ : ctx₁.ledger = ctx.ledger := by
    rw [hctx₁]
    rfl
  obtain ⟨ctx₂, h₂⟩ := removeOp_total ho₁ rfl fun v hv => by
    rw [Context.uses, hledger₁]
    exact hunused v hv
  obtain ⟨op', ho₁', -, -, hctx₂⟩ := removeOp_ok h₂
  obtain rfl := Option.some.inj (ho₁.symm.trans ho₁')
  refine ⟨ctx₁, ctx₂, h₁, h₂, ?_⟩
  constructor
  case op? =>
    intro o
    rw [hctx₂]
    exact hop₁ o
  case block? =>
    intro c
    rw [hctx₂]
    change ctx₁.block? c = _
    rw [hctx₁, block?_modifyOp, block?_modifyBlock]
  case values => rw [hctx₂, hctx₁]; rfl
  case regions => rw [hctx₂, hctx₁]; rfl
  case uses =>
    intro a
    have hledger₂ : ctx₂.ledger = ctx.ledger.filter fun e => e.2.user ≠ old := by
      rw [hctx₂, ← hledger₁]
      refine List.filter_congr fun e he => ?_
      obtain ⟨op'', ho'', hi⟩ := hd.sound (hledger₁ ▸ he)
      by_cases hold : e.2.user = old
      · rw [hold, ho] at ho''
        cases Option.some.inj ho''
        simp [hold, hi]
      · simp [hold]
    rw [Context.uses, hledger₂, Context.uses, List.filterMap_filter, List.filter_filterMap]
    refine List.filterMap_congr fun e _ => ?_
    by_cases he : e.1 = a <;> by_cases hu : e.2.user = old <;> simp [he, hu, Option.filter_some]

/-- What is found when an operation was taken out of its block and removed. -/
structure TakesOut (ctx : Context) (b : BlockId) (old : OpId) (ctx' : Context) : Prop where
  sound : ctx'.Sound
  op? {o : OpId} : o ≠ old → ctx'.op? o = ctx.op? o
  persists {o : OpId} {op : Op} : ctx.op? o = some op → ∃ op', ctx'.op? o = some op'
  value? (a : ValueId) : ctx'.value? a = ctx.value? a
  block? (c : BlockId) : ctx'.block? c = if c = b then
      (ctx.block? c).map fun block => { block with ops := block.ops.filter (· ≠ old) }
    else ctx.block? c
  region? (r : RegionId) : ctx'.region? r = ctx.region? r
  uses (a : ValueId) : ctx'.uses a = (ctx.uses a).filter fun u => u.user ≠ old

theorem exists_takesOut {b : BlockId} {old : OpId} {op : Op} (hs : ctx.Sound)
    (ho : ctx.op? old = some op) (hparent : op.parent = some b)
    (hunused : ∀ v ∈ op.results, ctx.uses v = []) :
    ∃ ctx₁ ctx', ctx.detachOp b old = .ok ctx₁ ∧ ctx₁.removeOp old = .ok ctx' ∧
      TakesOut ctx b old ctx' := by
  obtain ⟨block, hb, -⟩ := hs.linked.listed_of_op ho hparent
  obtain ⟨ctx₁, ctx', h₁, h₂, h⟩ := exists_discards hs.ledgered hb ho hparent hunused
  refine ⟨ctx₁, ctx', h₁, h₂, (hs.detachOp h₁).removeOp h₂, ?_, ?_, ?_, h.block?, ?_, h.uses⟩
  · intro o hne
    rw [h.op?]
    simp [hne]
  · intro o op' hop'
    exact ⟨_, by rw [h.op?, hop', Option.map_some]⟩
  · intro a
    rw [Context.value?, h.values]
    rfl
  · intro r
    rw [Context.region?, h.regions]
    rfl

/-- First the new operation comes in, then its result takes over the uses of the old one, and last the
old operation is taken out. -/
theorem Enters.replaces {spec : OpSpec} {ty : Ty} {b : BlockId} {old new : OpId} {v w : ValueId}
    {ctx₁ ctx₂ : Context} {op : Op} (hs : ctx.Sound) (ho : ctx.op? old = some op)
    (h₁ : Enters ctx spec ty b old ctx₁ new w) (h₂ : Redirects ctx₁ v w ctx₂)
    (h₃ : TakesOut ctx₂ b old ctx') : Replaces ctx spec ty b old v ctx' new w := by
  have hne : old ≠ new := by
    rintro rfl
    simp [h₁.fresh] at ho
  have huses₁ (a : ValueId) : ctx₁.uses a = ctx.uses a ++ usesBy new spec.operands a := by
    rw [Context.uses, h₁.ledger, List.filterMap_append]
    rfl
  have hnew {o : OpId} {op : Op} (ho : ctx.op? o = some op) : o ≠ new := by
    rintro rfl
    simp [h₁.fresh] at ho
  constructor
  case sound => exact h₃.sound
  case fresh => exact h₁.fresh
  case freshValue => exact h₁.freshValue
  case op?_new =>
    have hn : ctx₁.op? new = some { spec.toOp [w] with parent := some b } := by
      rw [h₁.op?, if_pos rfl]
    have hrec : ctx₁.Recorded new := by
      intro op' i a ho' hi
      rw [hn] at ho'
      cases Option.some.inj ho'
      rw [h₁.ledger, List.mem_append]
      exact .inr (mem_mapIdx_uses.mpr ⟨rfl, hi⟩)
    rw [h₃.op? hne.symm, h₂.op?, hn, Option.map_some,
      redirected_of_recorded h₁.sound.ledgered hn hrec v w]
    rfl
  case persists =>
    intro o op' ho'
    have ho₂ : ctx₂.op? o = some { op' with operands := redirected (ctx₁.uses v) w o op'.operands } := by
      rw [h₂.op?, h₁.op?, if_neg (hnew ho'), ho', Option.map_some]
    exact h₃.persists ho₂
  case op?_recorded =>
    intro o op' hne' ho' hrec'
    have ho₁ : ctx₁.op? o = some op' := by rw [h₁.op?, if_neg (hnew ho'), ho']
    have hrec : ctx₁.Recorded o := by
      intro op'' i a ho'' hi
      rw [ho₁] at ho''
      cases Option.some.inj ho''
      rw [h₁.ledger, List.mem_append]
      exact .inl (hrec' op' i a ho' hi)
    rw [h₃.op? hne', h₂.op?, ho₁, Option.map_some,
      redirected_of_recorded h₁.sound.ledgered ho₁ hrec v w]
  case op?_unused =>
    intro o hne' hno hun
    have hun₁ (i : Nat) : (v, (⟨o, i⟩ : Use)) ∉ ctx₁.ledger := by
      rw [h₁.ledger, List.mem_append]
      rintro (hm | hm)
      · exact hun i hm
      · exact hno (mem_mapIdx_uses.mp hm).1
    rw [h₃.op? hne', h₂.op?, h₁.op?, if_neg hno]
    cases ctx.op? o with
    | none => rfl
    | some op' => rw [Option.map_some, redirected_of_unused hun₁]
  case block? =>
    obtain ⟨block, ops, hb, hins, hblock⟩ := h₁.block?
    have hmem : new ∉ block.ops := by
      intro hm
      obtain ⟨op', ho', -⟩ := hs.linked.op_of_listed hb hm
      exact hnew ho' rfl
    intro c
    rw [h₃.block?, h₂.block?, hblock]
    split
    · rename_i he
      rw [he, hb, Option.map_some, Option.map_some,
        filter_insertBefore (hs.linked.ops_nodup hb) hmem hins]
    · rfl
  case region? => exact fun r => (h₃.region? r).trans ((h₂.region? r).trans (h₁.region? r))
  case value? => exact fun a => (h₃.value? a).trans ((h₂.value? a).trans (h₁.value? a))
  case uses =>
    intro a
    rw [h₃.uses, h₂.uses, huses₁, huses₁]

theorem exists_replaces {spec : OpSpec} {ty : Ty} {b : BlockId} {old : OpId} {op : Op}
    {v : ValueId} (hs : ctx.Sound) (hp : spec.parent = none) (hr : spec.regions = [])
    (ht : spec.resultTypes = [ty]) (ha : spec.attrs.Sorted) (ho : ctx.op? old = some op)
    (hparent : op.parent = some b) (hresults : op.results = [v]) :
    ∃ ctx₁ new ctx' w, ctx.createOp spec = .ok (ctx₁, new) ∧
      ({ replacement := some new } : Plan).carryOut ctx₁ old = .ok ctx' ∧
      Replaces ctx spec ty b old v ctx' new w := by
  obtain ⟨ctx₁, new, ctx₂, w, hcreate, ho₁, hinsert, h₁⟩ := exists_enters hs hp hr ht ha ho hparent
  have hvw : v ≠ w := by
    obtain ⟨_, -, hv⟩ := hs.typed.result ho (i := 0) (by rw [hresults]; rfl)
    rintro rfl
    simp [h₁.freshValue] at hv
  have hne : old ≠ new := by
    rintro rfl
    simp [h₁.fresh] at ho
  obtain ⟨ctx₃, hreplace, h₂⟩ := exists_redirects h₁.sound hvw
  have ho₂ : ctx₂.op? old = some op := by rw [h₁.op?, if_neg hne, ho]
  have ho₃ := h₂.op? old
  rw [ho₂, Option.map_some] at ho₃
  have hunused : ∀ a ∈ op.results, ctx₃.uses a = [] := by
    rw [hresults]
    intro a ha
    rw [List.mem_singleton.mp ha, h₂.uses, if_pos rfl, if_neg hvw]
    rfl
  obtain ⟨ctx₄, ctx₅, hdetach, hremove, h₃⟩ := exists_takesOut h₂.sound ho₃ hparent hunused
  have hn₂ : ctx₂.op? new = some { spec.toOp [w] with parent := some b } := by
    rw [h₁.op?, if_pos rfl]
  refine ⟨ctx₁, new, ctx₅, w, hcreate, ?_, h₁.replaces hs ho h₂ h₃⟩
  simp [Plan.carryOut, Plan.insertOps, op_eq_ok.mpr ho₁, hparent, hinsert, op_eq_ok.mpr hn₂,
    op_eq_ok.mpr ho₂, hresults, OpSpec.toOp, hreplace, hdetach, hremove, pure, Except.pure]

end Context

end RegionIR
