import RegionIR.Proofs.Context.Edits

/-! The two sides of every link agree.

A block lists an operation, once, exactly when the operation names the block as its parent;
likewise for regions and blocks, and for operations and regions. Every edit keeps this. -/

namespace RegionIR

theorem exists_of_map_eq {α β : Type} {f : α → β} {x y : Option α} {a : α}
    (h : x.map f = y.map f) (hx : x = some a) : ∃ b, y = some b ∧ f b = f a := by
  subst hx
  cases y with
  | none => simp at h
  | some b => exact ⟨b, rfl, by simpa using h.symm⟩

namespace Context

variable {ctx ctx' : Context}

structure Linked (ctx : Context) : Prop where
  op_of_listed {b : BlockId} {block : Block} {o : OpId} : ctx.block? b = some block →
    o ∈ block.ops → ∃ op, ctx.op? o = some op ∧ op.parent = some b
  listed_of_op {o : OpId} {op : Op} {b : BlockId} : ctx.op? o = some op →
    op.parent = some b → ∃ block, ctx.block? b = some block ∧ o ∈ block.ops
  ops_nodup {b : BlockId} {block : Block} : ctx.block? b = some block → block.ops.Nodup
  block_of_listed {r : RegionId} {region : Region} {b : BlockId} : ctx.region? r = some region →
    b ∈ region.blocks → ∃ block, ctx.block? b = some block ∧ block.parent = some r
  listed_of_block {b : BlockId} {block : Block} {r : RegionId} : ctx.block? b = some block →
    block.parent = some r → ∃ region, ctx.region? r = some region ∧ b ∈ region.blocks
  blocks_nodup {r : RegionId} {region : Region} : ctx.region? r = some region →
    region.blocks.Nodup
  region_of_listed {o : OpId} {op : Op} {r : RegionId} : ctx.op? o = some op →
    r ∈ op.regions → ∃ region, ctx.region? r = some region ∧ region.parent = some o
  listed_of_region {r : RegionId} {region : Region} {o : OpId} : ctx.region? r = some region →
    region.parent = some o → ∃ op, ctx.op? o = some op ∧ r ∈ op.regions
  regions_nodup {o : OpId} {op : Op} : ctx.op? o = some op → op.regions.Nodup

namespace Linked

theorem of_same (hl : ctx.Linked)
    (hop : ∀ o, (ctx'.op? o).map (fun op => (op.parent, op.regions)) =
      (ctx.op? o).map fun op => (op.parent, op.regions))
    (hblock : ∀ b, (ctx'.block? b).map (fun block => (block.ops, block.parent)) =
      (ctx.block? b).map fun block => (block.ops, block.parent))
    (hregion : ∀ r, ctx'.region? r = ctx.region? r) : ctx'.Linked := by
  have op_back {o : OpId} {op : Op} (h : ctx'.op? o = some op) :
      ∃ op', ctx.op? o = some op' ∧ op'.parent = op.parent ∧ op'.regions = op.regions := by
    simpa using exists_of_map_eq (hop o) h
  have op_on {o : OpId} {op : Op} (h : ctx.op? o = some op) :
      ∃ op', ctx'.op? o = some op' ∧ op'.parent = op.parent ∧ op'.regions = op.regions := by
    simpa using exists_of_map_eq (hop o).symm h
  have block_back {b : BlockId} {block : Block} (h : ctx'.block? b = some block) :
      ∃ block', ctx.block? b = some block' ∧ block'.ops = block.ops ∧
        block'.parent = block.parent := by
    simpa using exists_of_map_eq (hblock b) h
  have block_on {b : BlockId} {block : Block} (h : ctx.block? b = some block) :
      ∃ block', ctx'.block? b = some block' ∧ block'.ops = block.ops ∧
        block'.parent = block.parent := by
    simpa using exists_of_map_eq (hblock b).symm h
  constructor
  case op_of_listed =>
    intro b block o hb ho
    obtain ⟨block', hb', hops, -⟩ := block_back hb
    obtain ⟨op, hop, hp⟩ := hl.op_of_listed hb' (hops ▸ ho)
    obtain ⟨op', hop', hp', -⟩ := op_on hop
    exact ⟨op', hop', hp'.trans hp⟩
  case listed_of_op =>
    intro o op b ho hp
    obtain ⟨op', ho', hp', -⟩ := op_back ho
    obtain ⟨block, hb, hm⟩ := hl.listed_of_op ho' (hp'.trans hp)
    obtain ⟨block', hb', hops, -⟩ := block_on hb
    exact ⟨block', hb', hops ▸ hm⟩
  case ops_nodup =>
    intro b block hb
    obtain ⟨block', hb', hops, -⟩ := block_back hb
    exact hops ▸ hl.ops_nodup hb'
  case block_of_listed =>
    intro r region b hr hb
    obtain ⟨block, hblk, hp⟩ := hl.block_of_listed (hregion r ▸ hr) hb
    obtain ⟨block', hblk', -, hp'⟩ := block_on hblk
    exact ⟨block', hblk', hp'.trans hp⟩
  case listed_of_block =>
    intro b block r hb hp
    obtain ⟨block', hb', -, hp'⟩ := block_back hb
    obtain ⟨region, hr, hm⟩ := hl.listed_of_block hb' (hp'.trans hp)
    exact ⟨region, (hregion r).trans hr, hm⟩
  case blocks_nodup => exact fun hr => hl.blocks_nodup (hregion _ ▸ hr)
  case region_of_listed =>
    intro o op r ho hr
    obtain ⟨op', ho', -, hrs⟩ := op_back ho
    obtain ⟨region, hreg, hp⟩ := hl.region_of_listed ho' (hrs ▸ hr)
    exact ⟨region, (hregion r).trans hreg, hp⟩
  case listed_of_region =>
    intro r region o hr hp
    obtain ⟨op, ho, hm⟩ := hl.listed_of_region (hregion r ▸ hr) hp
    obtain ⟨op', ho', -, hrs⟩ := op_on ho
    exact ⟨op', ho', hrs ▸ hm⟩
  case regions_nodup =>
    intro o op ho
    obtain ⟨op', ho', -, hrs⟩ := op_back ho
    exact hrs ▸ hl.regions_nodup ho'

theorem createOp {spec : OpSpec} {id : OpId} (hl : ctx.Linked) (h : CreatesOp ctx spec ctx' id) :
    ctx'.Linked := by
  have hnew := h.fresh
  have hop := h.op?
  have hblock := h.block?
  have hfree := h.free
  have hnd := h.nodup
  have hparent : (spec.toOp (ctx.freshValues spec.resultTypes.length)).parent = none := rfl
  have hregions : (spec.toOp (ctx.freshValues spec.resultTypes.length)).regions = spec.regions := rfl
  have region_back {r : RegionId} {region : Region} (hr : ctx'.region? r = some region) :
      ∃ old, ctx.region? r = some old ∧ region.blocks = old.blocks ∧
        region.parent = if r ∈ spec.regions then some id else old.parent := by
    rw [h.region?, Option.map_eq_some_iff] at hr
    obtain ⟨old, hold, rfl⟩ := hr
    exact ⟨old, hold, by split <;> rfl, by split <;> rfl⟩
  have region_on {r : RegionId} {old : Region} (hr : ctx.region? r = some old) :
      ∃ region, ctx'.region? r = some region ∧ region.blocks = old.blocks ∧
        region.parent = if r ∈ spec.regions then some id else old.parent := by
    refine ⟨_, by rw [h.region?, hr]; rfl, by split <;> rfl, by split <;> rfl⟩
  constructor
  case op_of_listed => grind [hl.op_of_listed]
  case listed_of_op => grind [hl.listed_of_op]
  case ops_nodup => grind [hl.ops_nodup]
  case block_of_listed => grind [hl.block_of_listed]
  case listed_of_block => grind [hl.listed_of_block]
  case blocks_nodup => grind [hl.blocks_nodup]
  case region_of_listed => grind [hl.region_of_listed]
  case listed_of_region => grind [hl.listed_of_region]
  case regions_nodup => grind [hl.regions_nodup]

theorem createBlock {argTypes : List Ty} {id : BlockId} (hl : ctx.Linked)
    (h : CreatesBlock ctx argTypes ctx' id) : ctx'.Linked := by
  have hnew := h.fresh
  have hop := h.op?
  have hblock := h.block?
  have hregion := h.region?
  constructor
  case op_of_listed => grind [hl.op_of_listed]
  case listed_of_op => grind [hl.listed_of_op]
  case ops_nodup => grind [hl.ops_nodup]
  case block_of_listed => grind [hl.block_of_listed]
  case listed_of_block => grind [hl.listed_of_block]
  case blocks_nodup => grind [hl.blocks_nodup]
  case region_of_listed => grind [hl.region_of_listed]
  case listed_of_region => grind [hl.listed_of_region]
  case regions_nodup => grind [hl.regions_nodup]

theorem createRegion {blocks : List BlockId} {id : RegionId} (hl : ctx.Linked)
    (h : CreatesRegion ctx blocks ctx' id) : ctx'.Linked := by
  have hnew := h.fresh
  have hop := h.op?
  have hregion := h.region?
  have hfree := h.free
  have hnd := h.nodup
  have block_back {b : BlockId} {block : Block} (hb : ctx'.block? b = some block) :
      ∃ old, ctx.block? b = some old ∧ block.ops = old.ops ∧
        block.parent = if b ∈ blocks then some id else old.parent := by
    rw [h.block?, Option.map_eq_some_iff] at hb
    obtain ⟨old, hold, rfl⟩ := hb
    exact ⟨old, hold, by split <;> rfl, by split <;> rfl⟩
  have block_on {b : BlockId} {old : Block} (hb : ctx.block? b = some old) :
      ∃ block, ctx'.block? b = some block ∧ block.ops = old.ops ∧
        block.parent = if b ∈ blocks then some id else old.parent := by
    refine ⟨_, by rw [h.block?, hb]; rfl, by split <;> rfl, by split <;> rfl⟩
  constructor
  case op_of_listed => grind [hl.op_of_listed]
  case listed_of_op => grind [hl.listed_of_op]
  case ops_nodup => grind [hl.ops_nodup]
  case block_of_listed => grind [hl.block_of_listed]
  case listed_of_block => grind [hl.listed_of_block]
  case blocks_nodup => grind [hl.blocks_nodup]
  case region_of_listed => grind [hl.region_of_listed]
  case listed_of_region => grind [hl.listed_of_region]
  case regions_nodup => grind [hl.regions_nodup]

theorem attach {b : BlockId} {id : OpId} {op : Op} {block : Block}
    (hl : ctx.Linked) (ops : List OpId) (ho : ctx.op? id = some op) (hp : op.parent = none)
    (hb : ctx.block? b = some block) (hperm : ops.Perm (id :: block.ops))
    (hop : ∀ o, ctx'.op? o = if o = id then some { op with parent := some b } else ctx.op? o)
    (hblock : ∀ c, ctx'.block? c = if c = b then some { block with ops } else ctx.block? c)
    (hregion : ∀ r, ctx'.region? r = ctx.region? r) : ctx'.Linked := by
  have hmem (o : OpId) : o ∈ ops ↔ o = id ∨ o ∈ block.ops := by
    rw [hperm.mem_iff, List.mem_cons]
  have hnd : ops.Nodup := by
    refine hperm.nodup_iff.mpr (List.nodup_cons.mpr ⟨fun hm => ?_, hl.ops_nodup hb⟩)
    obtain ⟨op', ho', hp'⟩ := hl.op_of_listed hb hm
    grind
  constructor
  case op_of_listed => grind [hl.op_of_listed]
  case listed_of_op => grind [hl.listed_of_op]
  case ops_nodup => grind [hl.ops_nodup]
  case block_of_listed => grind [hl.block_of_listed]
  case listed_of_block => grind [hl.listed_of_block]
  case blocks_nodup => grind [hl.blocks_nodup]
  case region_of_listed => grind [hl.region_of_listed]
  case listed_of_region => grind [hl.listed_of_region]
  case regions_nodup => grind [hl.regions_nodup]

theorem pushOp {b : BlockId} {id : OpId} (hl : ctx.Linked) (h : ctx.pushOp b id = .ok ctx') :
    ctx'.Linked := by
  obtain ⟨⟨op, ho, hp⟩, ⟨block, hb⟩, rfl⟩ := pushOp_ok h
  refine hl.attach (block.ops ++ [id]) ho hp hb (List.perm_append_singleton id block.ops)
    (fun o => ?_) (fun c => ?_) fun _ => rfl
  · simp only [op?_modifyBlock, op?_modifyOp]
    split <;> simp [*]
  · simp only [block?_modifyBlock, block?_modifyOp]
    split <;> simp [*]

theorem insertOpBefore {b : BlockId} {anchor id : OpId} (hl : ctx.Linked)
    (h : ctx.insertOpBefore b anchor id = .ok ctx') : ctx'.Linked := by
  obtain ⟨⟨op, ho, hp⟩, block, ops, hb, hins, rfl⟩ := insertOpBefore_ok h
  obtain ⟨pre, post, hpre, -, rfl⟩ := insertBefore_eq_some_iff.mp hins
  refine hl.attach (pre ++ id :: anchor :: post) ho hp hb (hpre ▸ List.perm_middle)
    (fun o => ?_) (fun c => ?_) fun _ => rfl
  · simp only [op?_modifyBlock, op?_modifyOp]
    split <;> simp [*]
  · simp only [block?_modifyBlock, block?_modifyOp]
    split <;> simp [*]

theorem detachOp {b : BlockId} {id : OpId} (hl : ctx.Linked) (h : ctx.detachOp b id = .ok ctx') :
    ctx'.Linked := by
  obtain ⟨-, -, hctx⟩ := detachOp_ok h
  have hop (o : OpId) : ctx'.op? o = (ctx.op? o).map fun op =>
      if o = id ∧ op.parent = some b then { op with parent := none } else op := by
    simp only [hctx, op?_modifyOp, op?_modifyBlock]
    split <;> simp [*]
  have hblock (c : BlockId) : ctx'.block? c = (ctx.block? c).map fun block =>
      if c = b then { block with ops := block.ops.filter (· ≠ id) } else block := by
    simp only [hctx, block?_modifyOp, block?_modifyBlock]
    split <;> simp [*]
  have op_back {o : OpId} {op : Op} (ho : ctx'.op? o = some op) :
      ∃ old, ctx.op? o = some old ∧ op.regions = old.regions ∧
        op.parent = if o = id ∧ old.parent = some b then none else old.parent := by
    rw [hop, Option.map_eq_some_iff] at ho
    obtain ⟨old, hold, rfl⟩ := ho
    exact ⟨old, hold, by split <;> rfl, by split <;> rfl⟩
  have op_on {o : OpId} {old : Op} (ho : ctx.op? o = some old) :
      ∃ op, ctx'.op? o = some op ∧ op.regions = old.regions ∧
        op.parent = if o = id ∧ old.parent = some b then none else old.parent := by
    refine ⟨_, by rw [hop, ho, Option.map_some], ?_, ?_⟩ <;> split <;> rfl
  have block_back {c : BlockId} {block : Block} (hc : ctx'.block? c = some block) :
      ∃ old, ctx.block? c = some old ∧ block.parent = old.parent ∧
        block.ops = if c = b then old.ops.filter (· ≠ id) else old.ops := by
    rw [hblock, Option.map_eq_some_iff] at hc
    obtain ⟨old, hold, rfl⟩ := hc
    exact ⟨old, hold, by split <;> rfl, by split <;> rfl⟩
  have block_on {c : BlockId} {old : Block} (hc : ctx.block? c = some old) :
      ∃ block, ctx'.block? c = some block ∧ block.parent = old.parent ∧
        block.ops = if c = b then old.ops.filter (· ≠ id) else old.ops := by
    refine ⟨_, by rw [hblock, hc, Option.map_some], ?_, ?_⟩ <;> split <;> rfl
  have hregion (r : RegionId) : ctx'.region? r = ctx.region? r := by rw [hctx]; rfl
  constructor
  case op_of_listed => grind [hl.op_of_listed]
  case listed_of_op => grind [hl.listed_of_op]
  case ops_nodup =>
    intro c block hc
    obtain ⟨old, hold, -, hops⟩ := block_back hc
    have hnd := hl.ops_nodup hold
    rw [hops]
    split
    · exact hnd.sublist List.filter_sublist
    · exact hnd
  case block_of_listed => grind [hl.block_of_listed]
  case listed_of_block => grind [hl.listed_of_block]
  case blocks_nodup => grind [hl.blocks_nodup]
  case region_of_listed => grind [hl.region_of_listed]
  case listed_of_region => grind [hl.listed_of_region]
  case regions_nodup => grind [hl.regions_nodup]

theorem removeOp {id : OpId} (hl : ctx.Linked) (h : ctx.removeOp id = .ok ctx') : ctx'.Linked := by
  obtain ⟨op, -, -, -, rfl⟩ := removeOp_ok h
  exact hl.of_same (fun _ => rfl) (fun _ => rfl) fun _ => rfl

theorem setResultType {id : OpId} {i : Nat} {ty : Ty} (hl : ctx.Linked)
    (h : ctx.setResultType id i ty = .ok ctx') : ctx'.Linked := by
  obtain ⟨op, v, -, -, -, rfl⟩ := setResultType_ok h
  refine hl.of_same (fun o => ?_) (fun _ => rfl) fun _ => rfl
  simp only [op?_modifyValue, op?_modifyOp]
  split <;> simp [Function.comp_def]

theorem setArgType {b : BlockId} {i : Nat} {ty : Ty} (hl : ctx.Linked)
    (h : ctx.setArgType b i ty = .ok ctx') : ctx'.Linked := by
  obtain ⟨block, v, -, -, -, rfl⟩ := setArgType_ok h
  refine hl.of_same (fun _ => rfl) (fun c => ?_) fun _ => rfl
  simp only [block?_modifyValue, block?_modifyBlock]
  split <;> simp [Function.comp_def]

theorem setAttr {id : OpId} {key : String} {a : Attr Ty} {old : Option (Attr Ty)}
    (hl : ctx.Linked) (h : ctx.setAttr id key a = .ok (ctx', old)) : ctx'.Linked := by
  obtain ⟨op, -, rfl⟩ := setAttr_ok h
  refine hl.of_same (fun o => ?_) (fun _ => rfl) fun _ => rfl
  simp only [op?_modifyOp]
  split <;> simp [Function.comp_def]

theorem replaceAllUses {old new : ValueId} (hl : ctx.Linked)
    (h : ctx.replaceAllUses old new = .ok ctx') : ctx'.Linked := by
  by_cases hne : old = new
  · simp only [Context.replaceAllUses, hne, if_true, except_pure_eq_ok] at h
    exact h ▸ hl
  · obtain ⟨hop, hctx⟩ := replaceAllUses_ok hne h
    refine hl.of_same (fun o => ?_) (fun b => ?_) fun r => ?_
    · rw [hop]
      simp [Function.comp_def]
    · rw [hctx]
      rfl
    · rw [hctx]
      rfl

end Linked

end Context

end RegionIR
