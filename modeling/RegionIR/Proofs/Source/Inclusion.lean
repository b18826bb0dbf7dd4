import RegionIR.Proofs.Context.Validity
import RegionIR.Proofs.Source.Growth

/-! Contexts that are included in others.

A context is included in another that has everything of it unchanged and nothing beyond that refers to
it. An operation of the smaller context owns in the larger one what it owned, and the validator says
the same about it. This also holds where ownership is cyclic: a tree is computed in steps that look up
old entities only, so both contexts fail there in one way. -/

namespace RegionIR

theorem exists_of_mapM_error {ε α β : Type} {f : α → Except ε β} {l : List α} {e : ε}
    (h : l.mapM f = .error e) : ∃ a ∈ l, f a = .error e := by
  induction l with
  | nil => simp [pure, Except.pure] at h
  | cons a l ih =>
    rw [List.mapM_cons] at h
    cases ha : f a with
    | error e' =>
      rw [ha] at h
      exact ⟨a, List.mem_cons_self, by rw [ha, Except.error.inj h]⟩
    | ok b =>
      rw [ha, except_ok_bind] at h
      cases hl : l.mapM f with
      | error e' =>
        rw [hl] at h
        obtain rfl : e' = e := Except.error.inj h
        obtain ⟨c, hc, hfc⟩ := ih hl
        exact ⟨c, List.mem_cons_of_mem _ hc, hfc⟩
      | ok bs =>
        rw [hl] at h
        simp [pure, Except.pure] at h

theorem error_of_bind {ε α β : Type} {x : Except ε α} {f : α → Except ε β} {e : ε}
    (hf : ∀ a, ∃ b, f a = .ok b) (h : (x >>= f) = .error e) : x = .error e := by
  cases x with
  | error e' => exact congrArg Except.error (Except.error.inj h)
  | ok a =>
    obtain ⟨b, hb⟩ := hf a
    rw [except_ok_bind, hb] at h
    cases h

namespace Context

variable {base ctx ctx' : Context}

/-- The second context has everything of the first as it was; its further uses are uses of further
values, and its further entities refer only to each other. -/
structure IncludedIn (base ctx : Context) : Prop where
  op? {o : OpId} {op : Op} : base.op? o = some op → ctx.op? o = some op
  value? {v : ValueId} {value : Value} : base.value? v = some value → ctx.value? v = some value
  block? {b : BlockId} {block : Block} : base.block? b = some block → ctx.block? b = some block
  region? {r : RegionId} {region : Region} : base.region? r = some region →
    ctx.region? r = some region
  ledger : ∃ added, ctx.ledger = base.ledger ++ added ∧ ∀ e ∈ added, base.value? e.1 = none
  operands {o : OpId} {op : Op} : base.op? o = none → ctx.op? o = some op →
    ∀ v ∈ op.operands, base.value? v = none
  results {o : OpId} {op : Op} : base.op? o = none → ctx.op? o = some op →
    ∀ v ∈ op.results, base.value? v = none
  successors {o : OpId} {op : Op} : base.op? o = none → ctx.op? o = some op →
    ∀ b ∈ op.successors, base.block? b = none
  parentOfOp {o : OpId} {op : Op} : base.op? o = none → ctx.op? o = some op →
    ∀ b, op.parent = some b → base.block? b = none
  args {b : BlockId} {block : Block} : base.block? b = none → ctx.block? b = some block →
    ∀ v ∈ block.args, base.value? v = none
  parentOfBlock {b : BlockId} {block : Block} : base.block? b = none → ctx.block? b = some block →
    ∀ r, block.parent = some r → base.region? r = none
  parentOfRegion {r : RegionId} {region : Region} : base.region? r = none →
    ctx.region? r = some region → ∀ o, region.parent = some o → base.op? o = none

namespace IncludedIn

theorem refl (ctx : Context) : ctx.IncludedIn ctx where
  op? h := h
  value? h := h
  block? h := h
  region? h := h
  ledger := ⟨[], by simp, by simp⟩
  operands h h' := by simp [h] at h'
  results h h' := by simp [h] at h'
  successors h h' := by simp [h] at h'
  parentOfOp h h' := by simp [h] at h'
  args h h' := by simp [h] at h'
  parentOfBlock h h' := by simp [h] at h'
  parentOfRegion h h' := by simp [h] at h'

theorem op?_none (h : base.IncludedIn ctx) {o : OpId} (ho : ctx.op? o = none) : base.op? o = none := by
  cases hold : base.op? o with
  | none => rfl
  | some op => simp [h.op? hold] at ho

theorem block?_none (h : base.IncludedIn ctx) {b : BlockId} (hb : ctx.block? b = none) :
    base.block? b = none := by
  cases hold : base.block? b with
  | none => rfl
  | some block => simp [h.block? hold] at hb

theorem region?_none (h : base.IncludedIn ctx) {r : RegionId} (hr : ctx.region? r = none) :
    base.region? r = none := by
  cases hold : base.region? r with
  | none => rfl
  | some region => simp [h.region? hold] at hr

theorem freshValues_none (h : base.IncludedIn ctx) (n : Nat) :
    ∀ v ∈ ctx.freshValues n, base.value? v = none := by
  intro v hv
  obtain ⟨i, -, rfl⟩ := List.mem_map.mp hv
  cases hold : base.value? ⟨ctx.values.size + i⟩ with
  | none => rfl
  | some value => simpa using lt_size_of_value? (h.value? hold)

theorem createBlock (h : base.IncludedIn ctx) {argTypes : List Ty} {b : BlockId}
    (hc : CreatesBlock ctx argTypes ctx' b) : base.IncludedIn ctx' where
  op? ho := (hc.op? _).trans (h.op? ho)
  value? hv := by
    rw [hc.value?, if_pos (lt_size_of_value? (h.value? hv)), h.value? hv]
  block? {c block} hb := by
    have hne : c ≠ b := by
      rintro rfl
      simp [h.block?_none hc.fresh] at hb
    rw [hc.block?, if_neg hne, h.block? hb]
  region? hr := (hc.region? _).trans (h.region? hr)
  ledger := hc.ledger ▸ h.ledger
  operands ho ho' := h.operands ho ((hc.op? _).symm.trans ho')
  results ho ho' := h.results ho ((hc.op? _).symm.trans ho')
  successors ho ho' := h.successors ho ((hc.op? _).symm.trans ho')
  parentOfOp ho ho' := h.parentOfOp ho ((hc.op? _).symm.trans ho')
  args hb hb' := by
    rw [hc.block?] at hb'
    split at hb'
    · cases Option.some.inj hb'
      exact h.freshValues_none _
    · exact h.args hb hb'
  parentOfBlock hb hb' := by
    rw [hc.block?] at hb'
    split at hb'
    · cases Option.some.inj hb'
      simp
    · exact h.parentOfBlock hb hb'
  parentOfRegion hr hr' := h.parentOfRegion hr ((hc.region? _).symm.trans hr')

theorem createRegion (h : base.IncludedIn ctx) {bs : List BlockId} {r : RegionId}
    (hc : CreatesRegion ctx bs ctx' r) (hbs : ∀ b ∈ bs, base.block? b = none) :
    base.IncludedIn ctx' where
  op? ho := (hc.op? _).trans (h.op? ho)
  value? hv := (hc.value? _).trans (h.value? hv)
  block? {b block} hb := by
    have hnot : b ∉ bs := fun hm => by simp [hbs b hm] at hb
    simp [hc.block?, h.block? hb, hnot]
  region? {s region} hs := by
    have hne : s ≠ r := by
      rintro rfl
      simp [h.region?_none hc.fresh] at hs
    rw [hc.region?, if_neg hne, h.region? hs]
  ledger := hc.ledger ▸ h.ledger
  operands ho ho' := h.operands ho ((hc.op? _).symm.trans ho')
  results ho ho' := h.results ho ((hc.op? _).symm.trans ho')
  successors ho ho' := h.successors ho ((hc.op? _).symm.trans ho')
  parentOfOp ho ho' := h.parentOfOp ho ((hc.op? _).symm.trans ho')
  args hb hb' := by
    rw [hc.block?, Option.map_eq_some_iff] at hb'
    obtain ⟨old, hold, rfl⟩ := hb'
    have hargs := h.args hb hold
    split <;> exact hargs
  parentOfBlock hb hb' := by
    rw [hc.block?, Option.map_eq_some_iff] at hb'
    obtain ⟨old, hold, rfl⟩ := hb'
    split
    · rintro _ ⟨⟩
      exact h.region?_none hc.fresh
    · exact h.parentOfBlock hb hold
  parentOfRegion hs hs' := by
    rw [hc.region?] at hs'
    split at hs'
    · cases Option.some.inj hs'
      simp
    · exact h.parentOfRegion hs hs'

/-- A new operation may use further values, branch to further blocks and take over further
regions. -/
theorem createOp (h : base.IncludedIn ctx) {spec : OpSpec} {o : OpId} (hc : CreatesOp ctx spec ctx' o)
    (hoperands : ∀ v ∈ spec.operands, base.value? v = none)
    (hsuccessors : ∀ b ∈ spec.successors, base.block? b = none)
    (hregions : ∀ r ∈ spec.regions, base.region? r = none) : base.IncludedIn ctx' where
  op? ho := hc.op?_of_some (h.op? ho)
  value? hv := by
    rw [hc.value?, if_pos (lt_size_of_value? (h.value? hv)), h.value? hv]
  block? hb := (hc.block? _).trans (h.block? hb)
  region? {r region} hr := by
    have hnot : r ∉ spec.regions := fun hm => by simp [hregions r hm] at hr
    simp [hc.region?, h.region? hr, hnot]
  ledger := by
    obtain ⟨added, hledger, hadded⟩ := h.ledger
    refine ⟨added ++ spec.operands.mapIdx fun i v => (v, ⟨o, i⟩), ?_,
      List.forall_mem_append.mpr ⟨hadded, fun (v, u) he => ?_⟩⟩
    · rw [hc.ledger, hledger, List.append_assoc]
    · exact hoperands v (List.mem_of_getElem? (mem_mapIdx_uses.mp he).2)
  operands ho ho' := by
    rw [hc.op?] at ho'
    split at ho'
    · cases Option.some.inj ho'
      exact hoperands
    · exact h.operands ho ho'
  results ho ho' := by
    rw [hc.op?] at ho'
    split at ho'
    · cases Option.some.inj ho'
      exact h.freshValues_none _
    · exact h.results ho ho'
  successors ho ho' := by
    rw [hc.op?] at ho'
    split at ho'
    · cases Option.some.inj ho'
      exact hsuccessors
    · exact h.successors ho ho'
  parentOfOp ho ho' := by
    rw [hc.op?] at ho'
    split at ho'
    · cases Option.some.inj ho'
      simp [OpSpec.toOp]
    · exact h.parentOfOp ho ho'
  args hb hb' := h.args hb ((hc.block? _).symm.trans hb')
  parentOfBlock hb hb' := h.parentOfBlock hb ((hc.block? _).symm.trans hb')
  parentOfRegion hr hr' := by
    rw [hc.region?, Option.map_eq_some_iff] at hr'
    obtain ⟨old, hold, rfl⟩ := hr'
    split
    · rintro _ ⟨⟩
      exact h.op?_none hc.fresh
    · exact h.parentOfRegion hr hold

theorem pushOp (h : base.IncludedIn ctx) {b : BlockId} {o : OpId} (hpush : ctx.pushOp b o = .ok ctx')
    (hb : base.block? b = none) (ho : base.op? o = none) : base.IncludedIn ctx' := by
  obtain ⟨-, -, rfl⟩ := pushOp_ok hpush
  let pushed := (ctx.modifyOp o fun op => { op with parent := some b }).modifyBlock b
    fun block => { block with ops := block.ops ++ [o] }
  have op_back {p : OpId} {op : Op} (hop : pushed.op? p = some op) : ∃ old, ctx.op? p = some old ∧
      op.operands = old.operands ∧ op.results = old.results ∧ op.successors = old.successors ∧
      (op.parent = some b ∨ op.parent = old.parent) := by
    simp only [pushed, op?_modifyBlock, op?_modifyOp] at hop
    split at hop
    · obtain ⟨old, hold, rfl⟩ := Option.map_eq_some_iff.mp hop
      exact ⟨old, hold, rfl, rfl, rfl, .inl rfl⟩
    · exact ⟨op, hop, rfl, rfl, rfl, .inr rfl⟩
  have block_back {c : BlockId} {block : Block} (hc : pushed.block? c = some block) :
      ∃ old, ctx.block? c = some old ∧ block.args = old.args ∧ block.parent = old.parent := by
    simp only [pushed, block?_modifyBlock, block?_modifyOp] at hc
    split at hc
    · obtain ⟨old, hold, rfl⟩ := Option.map_eq_some_iff.mp hc
      exact ⟨old, hold, rfl, rfl⟩
    · exact ⟨block, hc, rfl, rfl⟩
  constructor
  case op? =>
    intro p op hop
    have hne : p ≠ o := by
      rintro rfl
      simp [ho] at hop
    simp only [op?_modifyBlock, op?_modifyOp, if_neg hne]
    exact h.op? hop
  case value? => exact fun hv => h.value? hv
  case block? =>
    intro c block hc
    have hne : c ≠ b := by
      rintro rfl
      simp [hb] at hc
    simp only [block?_modifyBlock, block?_modifyOp, if_neg hne]
    exact h.block? hc
  case region? => exact fun hr => h.region? hr
  case ledger => exact h.ledger
  case operands =>
    intro p op hp hop
    obtain ⟨old, hold, hsame, -⟩ := op_back hop
    exact hsame ▸ h.operands hp hold
  case results =>
    intro p op hp hop
    obtain ⟨old, hold, -, hsame, -⟩ := op_back hop
    exact hsame ▸ h.results hp hold
  case successors =>
    intro p op hp hop
    obtain ⟨old, hold, -, -, hsame, -⟩ := op_back hop
    exact hsame ▸ h.successors hp hold
  case parentOfOp =>
    intro p op hp hop c hc
    obtain ⟨old, hold, -, -, -, hparent | hparent⟩ := op_back hop
    · rwa [← Option.some.inj (hparent.symm.trans hc)]
    · exact h.parentOfOp hp hold c (hparent.symm.trans hc)
  case args =>
    intro c block hc hblock
    obtain ⟨old, hold, hsame, -⟩ := block_back hblock
    exact hsame ▸ h.args hc hold
  case parentOfBlock =>
    intro c block hc hblock
    obtain ⟨old, hold, -, hsame⟩ := block_back hblock
    exact hsame ▸ h.parentOfBlock hc hold
  case parentOfRegion => exact fun hr hr' => h.parentOfRegion hr hr'

theorem uses (h : base.IncludedIn ctx) {v : ValueId} {value : Value} (hv : base.value? v = some value) :
    ctx.uses v = base.uses v := by
  obtain ⟨added, hledger, hadded⟩ := h.ledger
  rw [Context.uses, hledger, List.filterMap_append, Context.uses, List.append_right_eq_self,
    List.filterMap_eq_nil_iff]
  intro e he
  have hne : e.1 ≠ v := by
    rintro rfl
    simp [hadded e he] at hv
  simp [hne]

theorem mem_ledger (h : base.IncludedIn ctx) {e : ValueId × Use} {value : Value}
    (hv : base.value? e.1 = some value) : e ∈ ctx.ledger ↔ e ∈ base.ledger := by
  rw [← mem_uses (v := e.1) (u := e.2), h.uses hv, mem_uses]

theorem describe (h : base.IncludedIn ctx) (hs : base.Sound) {v : ValueId} {value : Value}
    (hv : base.value? v = some value) : ctx.describe v = base.describe v := by
  obtain ⟨origin, ty⟩ := value
  simp only [Context.describe, value_eq_ok.mpr hv, value_eq_ok.mpr (h.value? hv), except_ok_bind]
  cases origin with
  | result o i =>
    obtain ⟨op, hop, -⟩ := hs.typed.origin_result hv
    simp only [op_eq_ok.mpr hop, op_eq_ok.mpr (h.op? hop)]
  | argument b i => rfl

section Trees

variable (h : base.IncludedIn ctx) (hs : base.Sound)

include h hs

/-- The trees of a region are the same if those of the operations that were there are. -/
theorem regionTreeWith {trees trees' : OpId → Except Fault OpTree}
    (htrees : ∀ o op, base.op? o = some op → trees' o = trees o) {r : RegionId} {region : Region}
    (hr : base.region? r = some region) : ctx.regionTreeWith trees' r = base.regionTreeWith trees r := by
  simp only [Context.regionTreeWith, region_eq_ok.mpr hr, region_eq_ok.mpr (h.region? hr), except_ok_bind]
  rw [mapM_congr fun b hb => ?_]
  obtain ⟨block, hblock, -⟩ := hs.linked.block_of_listed hr hb
  have hargs : (block.args.mapM fun v => do return (v, ← ctx.typeOf v)) =
      block.args.mapM fun v => do return (v, ← base.typeOf v) := by
    refine mapM_congr fun v hv => ?_
    obtain ⟨i, hi⟩ := List.mem_iff_getElem?.mp hv
    obtain ⟨ty, -, hvalue⟩ := hs.typed.argument hblock hi
    simp only [typeOf, value_eq_ok.mpr hvalue, value_eq_ok.mpr (h.value? hvalue)]
  have hops : block.ops.mapM trees' = block.ops.mapM trees := by
    refine mapM_congr fun o ho => ?_
    obtain ⟨op, hop, -⟩ := hs.linked.op_of_listed hblock ho
    exact htrees o op hop
  simp only [blockTreeWith, block_eq_ok.mpr hblock, block_eq_ok.mpr (h.block? hblock), except_ok_bind,
    hargs, hops]

theorem opTreeWithin (depth : Nat) {o : OpId} {op : Op} (ho : base.op? o = some op) :
    ctx.opTreeWithin depth o = base.opTreeWithin depth o := by
  induction depth generalizing o op with
  | zero => rfl
  | succ depth ih =>
    simp only [Context.opTreeWithin, op_eq_ok.mpr ho, op_eq_ok.mpr (h.op? ho), except_ok_bind]
    rw [mapM_congr fun r hr => ?_]
    obtain ⟨region, hregion, -⟩ := hs.linked.region_of_listed ho hr
    exact h.regionTreeWith hs (fun _ _ => ih) hregion

omit h in
theorem eq_cyclicOwnership_of_opTreeWithin {depth : Nat} {o : OpId} {op : Op} {e : Fault}
    (ho : base.op? o = some op) (herr : base.opTreeWithin depth o = .error e) :
    e = .cyclicOwnership := by
  induction depth generalizing o op with
  | zero => exact (Except.error.inj herr).symm
  | succ depth ih =>
    simp only [Context.opTreeWithin, op_eq_ok.mpr ho, except_ok_bind] at herr
    obtain ⟨r, hr, herr⟩ := exists_of_mapM_error (error_of_bind (fun _ => ⟨_, rfl⟩) herr)
    obtain ⟨region, hregion, -⟩ := hs.linked.region_of_listed ho hr
    simp only [Context.regionTreeWith, region_eq_ok.mpr hregion, except_ok_bind] at herr
    obtain ⟨b, hb, herr⟩ := exists_of_mapM_error (error_of_bind (fun _ => ⟨_, rfl⟩) herr)
    obtain ⟨block, hblock, -⟩ := hs.linked.block_of_listed hregion hb
    obtain ⟨args, hargs⟩ : ∃ args, (block.args.mapM fun v => do return (v, ← base.typeOf v)) =
        .ok args := by
      refine exists_mapM fun v hv => ?_
      obtain ⟨i, hi⟩ := List.mem_iff_getElem?.mp hv
      obtain ⟨ty, -, hvalue⟩ := hs.typed.argument hblock hi
      simp [typeOf, value_eq_ok.mpr hvalue]
    simp only [blockTreeWith, block_eq_ok.mpr hblock, except_ok_bind, hargs] at herr
    obtain ⟨p, hp, herr⟩ := exists_of_mapM_error (error_of_bind (fun _ => ⟨_, rfl⟩) herr)
    obtain ⟨op', hop', -⟩ := hs.linked.op_of_listed hblock hp
    exact ih hop' herr

/-- What an operation owns shows as before. -/
theorem opTree {o : OpId} {op : Op} (ho : base.op? o = some op) : ctx.opTree o = base.opTree o := by
  have hdeep : ctx.opTree o = base.opTreeWithin ctx.depthBound o := h.opTreeWithin hs _ ho
  cases hbase : base.opTree o with
  | ok t =>
    obtain ⟨hid, ht⟩ := opTree_eq_ok_iff.mp hbase
    refine opTree_eq_ok_iff.mpr ⟨hid, ?_⟩
    have hagrees : base.Agrees ctx t.opIds t.blockIds :=
      ⟨fun _ hop => h.op? hop, fun _ hb => ⟨_, h.block? hb, rfl, rfl⟩, fun hr => ⟨_, h.region? hr, rfl⟩,
        fun _ _ _ hv => h.value? hv⟩
    exact hagrees.heldBy (List.Subset.refl _) (List.Subset.refl _) ht
  | error e =>
    rw [eq_cyclicOwnership_of_opTreeWithin hs ho hbase, hdeep]
    cases hctx : base.opTreeWithin ctx.depthBound o with
    | ok t =>
      have hok := opTree_eq_ok_iff.mpr (heldBy_of_opTreeWithin hctx)
      rw [hbase] at hok
      simp at hok
    | error e' => rw [eq_cyclicOwnership_of_opTreeWithin hs ho hctx]

theorem regionTree {r : RegionId} {region : Region} (hr : base.region? r = some region) :
    ctx.regionTree r = base.regionTree r :=
  h.regionTreeWith hs (fun _ _ => h.opTree hs) hr

theorem print {o : OpId} {op : Op} (ho : base.op? o = some op) : ctx.print o = base.print o := by
  rw [Context.print, h.opTree hs ho, Context.print]

end Trees

end IncludedIn

section Descriptions

/-- The scope errors depend on how the operands are described, and on nothing else of the context. -/
theorem operandErrors_congr {visible : List ValueId} {o : OpId} {op : Op}
    (h : ∀ v ∈ op.operands, ctx.describe v = base.describe v) :
    ctx.operandErrors visible o op = base.operandErrors visible o op := by
  refine filterMapM_congr fun (v, i) hvi => ?_
  have hv := List.mem_of_getElem? (List.mem_zipIdx_iff_getElem?.mp hvi)
  simp only [h v hv]

mutual

theorem scopeErrorsOps_congr {visible : List ValueId} : ∀ l : List OpTree,
    (∀ o ∈ l.flatMap OpTree.preorder, ∀ v ∈ o.2.operands, ctx.describe v = base.describe v) →
      ctx.scopeErrorsOps visible l = base.scopeErrorsOps visible l
  | [], _ => rfl
  | .node id op regions :: rest, h => by
    simp only [List.flatMap_cons, OpTree.preorder_node, List.forall_mem_append,
      List.forall_mem_cons] at h
    rw [scopeErrorsOps, operandErrors_congr h.1.1, scopeErrorsRegions_congr regions h.1.2,
      scopeErrorsOps_congr rest h.2, scopeErrorsOps]

theorem scopeErrorsRegions_congr {visible : List ValueId} : ∀ l : List RegionTree,
    (∀ o ∈ l.flatMap RegionTree.preorder, ∀ v ∈ o.2.operands, ctx.describe v = base.describe v) →
      ctx.scopeErrorsRegions visible l = base.scopeErrorsRegions visible l
  | [], _ => rfl
  | t :: rest, h => by
    rw [List.flatMap_cons, List.forall_mem_append] at h
    rw [scopeErrorsRegions, scopeErrors_congr t h.1, scopeErrorsRegions_congr rest h.2,
      scopeErrorsRegions]

theorem scopeErrors_congr {outer : List ValueId} : ∀ t : RegionTree,
    (∀ o ∈ t.preorder, ∀ v ∈ o.2.operands, ctx.describe v = base.describe v) →
      ctx.scopeErrors outer t = base.scopeErrors outer t
  | .node id blocks, h => by
    rw [RegionTree.preorder_node] at h
    rw [scopeErrors, scopeErrorsBlocks_congr blocks h, scopeErrors]

theorem scopeErrorsBlocks_congr {outer : List ValueId} {siblings : List BlockTree} :
    ∀ l : List BlockTree,
    (∀ o ∈ l.flatMap BlockTree.preorder, ∀ v ∈ o.2.operands, ctx.describe v = base.describe v) →
      ctx.scopeErrorsBlocks outer siblings l = base.scopeErrorsBlocks outer siblings l
  | [], _ => rfl
  | .node b args ops :: rest, h => by
    simp only [List.flatMap_cons, BlockTree.preorder_node, List.forall_mem_append] at h
    rw [scopeErrorsBlocks, scopeErrorsOps_congr ops h.1, scopeErrorsBlocks_congr rest h.2,
      scopeErrorsBlocks]

end

end Descriptions

namespace IncludedIn

variable (h : base.IncludedIn ctx) (hs : base.Sound) (hg : base.Grounded)

include h hs hg

theorem scopeErrors {t : RegionTree} (ht : t.HeldBy base) :
    ctx.scopeErrors [] t = base.scopeErrors [] t := by
  refine scopeErrors_congr t fun o ho v hv => ?_
  obtain ⟨value, hvalue⟩ := hg o.1 o.2 (ht.op?_of_mem ho) v hv
  exact h.describe hs hvalue

theorem useErrors {t : RegionTree} (ht : t.HeldBy base) :
    ctx.useErrors t = base.useErrors t := by
  have hactual {e : ValueId × Use} (he : e ∈ operandUses t.preorder) : ∃ op value,
      base.op? e.2.user = some op ∧ base.value? e.1 = some value := by
    obtain ⟨op, hm, hi⟩ := mem_operandUses.mp he
    obtain ⟨value, hvalue⟩ := hg _ op (ht.op?_of_mem hm) e.1 (List.mem_of_getElem? hi)
    exact ⟨op, value, ht.op?_of_mem hm, hvalue⟩
  have hledger : (operandUses t.preorder).filter (fun e => !ctx.ledger.contains e) =
      (operandUses t.preorder).filter fun e => !base.ledger.contains e := by
    refine List.filter_congr fun e he => ?_
    obtain ⟨-, value, -, hvalue⟩ := hactual he
    simp [h.mem_ledger hvalue]
  have huses : ∀ v ∈ definedValues t, ctx.uses v = base.uses v := fun v hv => by
    obtain ⟨value, hvalue⟩ := exists_value_of_defined hs.typed ht hv
    exact h.uses hvalue
  have hforeign : ((definedValues t).flatMap fun v => (ctx.uses v).filterMap fun u =>
        if (operandUses t.preorder).contains (v, u) then none else some (v, u)) =
      (definedValues t).flatMap fun v => (base.uses v).filterMap fun u =>
        if (operandUses t.preorder).contains (v, u) then none else some (v, u) := by
    rw [List.flatMap_congr fun v hv => by rw [huses v hv]]
  simp only [Context.useErrors, hledger, hforeign]
  congr 1
  · refine mapM_congr fun e he => ?_
    obtain ⟨op, -, hop, -⟩ := hactual (List.mem_of_mem_filter he)
    simp only [op_eq_ok.mpr hop, op_eq_ok.mpr (h.op? hop)]
  · funext unrecorded
    refine congrArg (· >>= _) (mapM_congr fun e he => ?_)
    obtain ⟨v, hv, he⟩ := List.mem_flatMap.mp he
    obtain ⟨u, -, he⟩ := List.mem_filterMap.mp he
    obtain ⟨value, hvalue⟩ := exists_value_of_defined hs.typed ht hv
    split at he
    · simp at he
    · cases Option.some.inj he
      simp only [h.describe hs hvalue]

theorem validate {o : OpId} {op : Op} (ho : base.op? o = some op) :
    ctx.validate o = base.validate o := by
  have hbody : ctx.body o = base.body o := by
    simp only [body, op_eq_ok.mpr ho, op_eq_ok.mpr (h.op? ho)]
  have hregion {r : RegionId} (hr : base.body o = .ok (some r)) :
      ctx.regionTree r = base.regionTree r := by
    simp only [body, op_eq_ok.mpr ho, except_ok_bind, except_pure_eq_ok] at hr
    obtain ⟨region, hregion, -⟩ := hs.linked.region_of_listed ho (List.mem_of_mem_head? hr)
    exact h.regionTree hs hregion
  have hscopes : ctx.validateScopes o = base.validateScopes o := by
    simp only [validateScopes, hbody]
    rcases hb : base.body o with e | (- | r)
    · rfl
    · rfl
    · simp only [except_ok_bind, hregion hb]
      cases htree : base.regionTree r with
      | error e => rfl
      | ok t =>
        simp only [except_ok_bind, h.scopeErrors hs hg (regionTree_eq_ok_iff.mp htree).2]
  have huses : ctx.validateUses o = base.validateUses o := by
    simp only [validateUses, hbody]
    rcases hb : base.body o with e | (- | r)
    · rfl
    · rfl
    · simp only [except_ok_bind, hregion hb]
      cases htree : base.regionTree r with
      | error e => rfl
      | ok t =>
        simp only [except_ok_bind, h.useErrors hs hg (regionTree_eq_ok_iff.mp htree).2]
  rw [Context.validate, hscopes, huses, Context.validate]

end IncludedIn

end Context

end RegionIR
