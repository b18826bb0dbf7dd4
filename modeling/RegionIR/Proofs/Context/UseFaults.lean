import Mathlib.Logic.Relation
import RegionIR.Proofs.Context.Histories
import RegionIR.Proofs.Context.Validity

/-! What the check of the use chains finds after a history.

What is nested in a region is said by steps from a region to the regions in it, without a tree. The
check collects the arguments of the nested blocks and the operands and results of the nested
operations, and misses none. The ledger is exact after a history, but for operations that were
removed, so what is reported is due to these or to operations outside. -/

namespace RegionIR

namespace Context

/-- An operation in a block of the region `r` owns the region `r'`. -/
def Contains (ctx : Context) (r r' : RegionId) : Prop :=
  ∃ region, ctx.region? r = some region ∧ ∃ b ∈ region.blocks, ∃ block, ctx.block? b = some block ∧
    ∃ o ∈ block.ops, ∃ op, ctx.op? o = some op ∧ r' ∈ op.regions

/-- The block stands in the region or in one that is nested in it, at any depth. -/
def BlockIn (ctx : Context) (r : RegionId) (b : BlockId) : Prop :=
  ∃ r' region, Relation.ReflTransGen ctx.Contains r r' ∧ ctx.region? r' = some region ∧
    b ∈ region.blocks

/-- The operation is nested in the region. -/
def OpIn (ctx : Context) (r : RegionId) (o : OpId) : Prop :=
  ∃ b block, ctx.BlockIn r b ∧ ctx.block? b = some block ∧ o ∈ block.ops

/-- The value is an argument of a block or a result of an operation that is nested in the region. -/
def DefinedIn (ctx : Context) (r : RegionId) (v : ValueId) : Prop :=
  (∃ b block, ctx.BlockIn r b ∧ ctx.block? b = some block ∧ v ∈ block.args) ∨
    ∃ o op, ctx.OpIn r o ∧ ctx.op? o = some op ∧ v ∈ op.results

theorem blockIn_cases {ctx : Context} {r : RegionId} {b : BlockId} : ctx.BlockIn r b ↔
    (∃ region, ctx.region? r = some region ∧ b ∈ region.blocks) ∨
      ∃ r', ctx.Contains r r' ∧ ctx.BlockIn r' b := by
  constructor
  · rintro ⟨r', region, hpath, hr, hb⟩
    rcases Relation.ReflTransGen.cases_head hpath with rfl | ⟨r₁, hstep, hpath⟩
    · exact .inl ⟨region, hr, hb⟩
    · exact .inr ⟨r₁, hstep, r', region, hpath, hr, hb⟩
  · rintro (⟨region, hr, hb⟩ | ⟨r₁, hstep, r', region, hpath, hr, hb⟩)
    · exact ⟨r, region, .refl, hr, hb⟩
    · exact ⟨r', region, hpath.head hstep, hr, hb⟩

end Context

theorem OpTree.HeldBy.op?_regions {ctx : Context} {t : OpTree} (ht : t.HeldBy ctx) :
    ctx.op? t.id = some t.op ∧ t.op.regions = t.regions.map RegionTree.id := by
  obtain ⟨ho, hrs, -⟩ := ht
  exact ⟨ho, hrs⟩

theorem BlockTree.HeldBy.op {ctx : Context} {t : BlockTree} (ht : t.HeldBy ctx) {c : OpTree}
    (hc : c ∈ t.ops) : c.HeldBy ctx := by
  obtain ⟨-, -, -, -, hall⟩ := ht
  exact hall c hc

namespace RegionTree

/-- The regions that the operations of a region own. -/
def inner (t : RegionTree) : List RegionTree :=
  t.blocks.flatMap fun b => b.ops.flatMap OpTree.regions

theorem forall_of_inner {P : RegionTree → Prop} (h : ∀ t, (∀ s ∈ t.inner, P s) → P t) :
    ∀ t, P t := by
  refine RegionTree.forall_of (P := fun t => ∀ s ∈ t.regions, P s)
    (R := fun b => ∀ c ∈ b.ops, ∀ s ∈ c.regions, P s) ?_ ?_ ?_
  · exact fun id op regions ih => ih
  · intro id blocks ih
    apply h
    intro s hs
    simp only [inner, List.mem_flatMap] at hs
    obtain ⟨b, hb, c, hc, hs⟩ := hs
    exact ih b hb c hc s hs
  · exact fun id args ops ih => ih

theorem allBlocks_eq (t : RegionTree) : t.allBlocks = t.blocks ++ t.inner.flatMap allBlocks := by
  have hop : OpTree.blocks = fun c => c.regions.flatMap allBlocks := by
    funext c
    obtain ⟨id, op, regions⟩ := c
    exact OpTree.blocks_node ..
  have hblock : BlockTree.nested = fun b => (b.ops.flatMap OpTree.regions).flatMap allBlocks := by
    funext b
    obtain ⟨id, args, ops⟩ := b
    rw [BlockTree.nested_node, hop, List.flatMap_assoc]
    rfl
  obtain ⟨id, blocks⟩ := t
  rw [RegionTree.allBlocks_node, hblock, inner, List.flatMap_assoc]
  rfl

namespace HeldBy

variable {ctx : Context} {t : RegionTree}

theorem inner (ht : t.HeldBy ctx) {s : RegionTree} (hs : s ∈ t.inner) : s.HeldBy ctx := by
  obtain ⟨-, -, hheld⟩ := ht
  simp only [RegionTree.inner, List.mem_flatMap] at hs
  obtain ⟨b, hb, c, hc, hs⟩ := hs
  obtain ⟨-, -, -, -, hops⟩ := hheld b hb
  exact (hops c hc).region hs

theorem region?_id (ht : t.HeldBy ctx) :
    ∃ region, ctx.region? t.id = some region ∧ region.blocks = t.blocks.map BlockTree.id := by
  obtain ⟨hr, hbs, -⟩ := ht
  exact ⟨_, hr, hbs⟩

theorem contains_iff (ht : t.HeldBy ctx) {r : RegionId} :
    ctx.Contains t.id r ↔ ∃ s ∈ t.inner, s.id = r := by
  obtain ⟨region, hr, hbs⟩ := ht.region?_id
  have hheld {b : BlockTree} (hb : b ∈ t.blocks) : b.HeldBy ctx := by
    obtain ⟨-, -, hall⟩ := ht
    exact hall b hb
  simp only [RegionTree.inner, List.mem_flatMap]
  constructor
  · rintro ⟨region', hr', _, hbid, block, hblk, _, hoid, op, hop, hrid⟩
    cases hr.symm.trans hr'
    obtain ⟨b, hb, rfl⟩ := List.mem_map.mp (hbs ▸ hbid)
    obtain ⟨block', hblk', -, hops, -⟩ := (hheld hb).exists_block
    cases hblk.symm.trans hblk'
    obtain ⟨c, hc, rfl⟩ := List.mem_map.mp (hops ▸ hoid)
    obtain ⟨hop', hrs⟩ := ((hheld hb).op hc).op?_regions
    cases hop.symm.trans hop'
    obtain ⟨s, hs, rfl⟩ := List.mem_map.mp (hrs ▸ hrid)
    exact ⟨s, ⟨b, hb, c, hc, hs⟩, rfl⟩
  · rintro ⟨s, ⟨b, hb, c, hc, hs⟩, rfl⟩
    obtain ⟨block, hblk, -, hops, -⟩ := (hheld hb).exists_block
    obtain ⟨hop, hrs⟩ := ((hheld hb).op hc).op?_regions
    exact ⟨region, hr, b.id, hbs ▸ List.mem_map_of_mem hb, block, hblk, c.id,
      hops ▸ List.mem_map_of_mem hc, c.op, hop, hrs ▸ List.mem_map_of_mem hs⟩

theorem blockIn_iff (ht : t.HeldBy ctx) {b : BlockId} : ctx.BlockIn t.id b ↔ b ∈ t.blockIds := by
  revert ht
  apply RegionTree.forall_of_inner (P := fun t => t.HeldBy ctx →
    (ctx.BlockIn t.id b ↔ b ∈ t.blockIds))
  intro t ih ht
  obtain ⟨region, hr, hbs⟩ := ht.region?_id
  rw [Context.blockIn_cases, blockIds, allBlocks_eq, List.map_append, List.mem_append, ← hbs]
  refine or_congr ⟨?_, ?_⟩ ⟨?_, ?_⟩
  · rintro ⟨region', hr', hb⟩
    cases hr.symm.trans hr'
    exact hb
  · exact fun hb => ⟨region, hr, hb⟩
  · rintro ⟨r, hstep, hb⟩
    obtain ⟨s, hs, rfl⟩ := ht.contains_iff.mp hstep
    rw [List.map_flatMap, List.mem_flatMap]
    exact ⟨s, hs, (ih s hs (ht.inner hs)).mp hb⟩
  · intro hb
    rw [List.map_flatMap, List.mem_flatMap] at hb
    obtain ⟨s, hs, hb⟩ := hb
    exact ⟨s.id, ht.contains_iff.mpr ⟨s, hs, rfl⟩, (ih s hs (ht.inner hs)).mpr hb⟩

theorem opIn_iff (ht : t.HeldBy ctx) {o : OpId} : ctx.OpIn t.id o ↔ o ∈ t.opIds := by
  constructor
  · rintro ⟨b, block, hb, hblk, ho⟩
    exact ht.mem_opIds_of_block (ht.blockIn_iff.mp hb) hblk ho
  · intro ho
    obtain ⟨⟨o, op⟩, hm, rfl⟩ := List.mem_map.mp ho
    obtain ⟨s, hs, c, hc, rfl, rfl⟩ := mem_preorder_iff.mp hm
    obtain ⟨block, hblk, -, hops, -⟩ := (ht.block hs).exists_block
    exact ⟨s.id, block, ht.blockIn_iff.mpr (mem_blockIds_iff.mpr ⟨s, hs, rfl⟩), hblk,
      hops ▸ List.mem_map_of_mem hc⟩

theorem definedIn_iff (ht : t.HeldBy ctx) {v : ValueId} :
    ctx.DefinedIn t.id v ↔ v ∈ Context.definedValues t := by
  rw [Context.mem_definedValues]
  refine or_congr ⟨?_, ?_⟩ ⟨?_, ?_⟩
  · rintro ⟨b, block, hb, hblk, hv⟩
    obtain ⟨s, hs, rfl⟩ := mem_blockIds_iff.mp (ht.blockIn_iff.mp hb)
    obtain ⟨block', hblk', hargs, -⟩ := (ht.block hs).exists_block
    cases hblk.symm.trans hblk'
    exact ⟨s, hs, hargs ▸ hv⟩
  · rintro ⟨s, hs, hv⟩
    obtain ⟨block, hblk, hargs, -⟩ := (ht.block hs).exists_block
    exact ⟨s.id, block, ht.blockIn_iff.mpr (mem_blockIds_iff.mpr ⟨s, hs, rfl⟩), hblk, hargs ▸ hv⟩
  · rintro ⟨o, op, ho, hop, hv⟩
    obtain ⟨⟨o, op'⟩, hm, rfl⟩ := List.mem_map.mp (ht.opIn_iff.mp ho)
    cases hop.symm.trans (ht.op?_of_mem hm)
    exact ⟨_, hm, hv⟩
  · rintro ⟨⟨o, op⟩, hm, hv⟩
    exact ⟨o, op, ht.opIn_iff.mpr (List.mem_map_of_mem hm), ht.op?_of_mem hm, hv⟩

end HeldBy

end RegionTree

namespace Context

variable {ctx : Context} {t : RegionTree} {removed : List OpId}

theorem Accounted.unrecorded_iff (ha : Accounted removed ctx) (ht : t.HeldBy ctx) :
    (∃ e ∈ operandUses t.preorder, e ∉ ctx.ledger) ↔
      ∃ o op, ctx.OpIn t.id o ∧ o ∈ removed ∧ ctx.op? o = some op ∧ op.operands ≠ [] := by
  constructor
  · rintro ⟨⟨v, u⟩, hu, hout⟩
    obtain ⟨op, hm, hi⟩ := mem_operandUses.mp hu
    have hop := ht.op?_of_mem hm
    refine ⟨u.user, op, ht.opIn_iff.mpr (List.mem_map_of_mem hm), ?_, hop,
      List.ne_nil_of_mem (List.mem_of_getElem? hi)⟩
    by_contra hkept
    exact hout (ha.recorded hkept op u.operand v hop hi)
  · rintro ⟨o, op, ho, hremoved, hop, hne⟩
    obtain ⟨⟨o, op'⟩, hm, rfl⟩ := List.mem_map.mp (ht.opIn_iff.mp ho)
    cases hop.symm.trans (ht.op?_of_mem hm)
    obtain ⟨v, rest, hops⟩ := List.exists_cons_of_ne_nil hne
    refine ⟨(v, ⟨o, 0⟩), mem_operandUses.mpr ⟨op, hm, by rw [hops]; rfl⟩, ?_⟩
    exact fun hu => ha.struck hu hremoved

/-- A recorded use that is not an operand of the region is one of an operation outside. -/
theorem Accounted.foreign_iff (ha : Accounted removed ctx) (ht : t.HeldBy ctx) :
    (∃ v ∈ definedValues t, ∃ u, (v, u) ∈ ctx.ledger ∧ (v, u) ∉ operandUses t.preorder) ↔
      ∃ o op, ¬ctx.OpIn t.id o ∧ o ∉ removed ∧ ctx.op? o = some op ∧
        ∃ v ∈ op.operands, ctx.DefinedIn t.id v := by
  constructor
  · rintro ⟨v, hv, u, hu, hout⟩
    obtain ⟨op, hop, hi⟩ := ha.ledgered.sound hu
    refine ⟨u.user, op, ?_, ha.struck hu, hop, v, List.mem_of_getElem? hi, ht.definedIn_iff.mpr hv⟩
    intro ho
    obtain ⟨⟨o, op'⟩, hm, he⟩ := List.mem_map.mp (ht.opIn_iff.mp ho)
    subst he
    cases hop.symm.trans (ht.op?_of_mem hm)
    exact hout (mem_operandUses.mpr ⟨op, hm, hi⟩)
  · rintro ⟨o, op, ho, hkept, hop, v, hv, hdef⟩
    obtain ⟨i, hi⟩ := List.mem_iff_getElem?.mp hv
    refine ⟨v, ht.definedIn_iff.mp hdef, ⟨o, i⟩, ha.recorded hkept op i v hop hi, ?_⟩
    intro hu
    obtain ⟨op', hm, -⟩ := mem_operandUses.mp hu
    exact ho (ht.opIn_iff.mpr (List.mem_map_of_mem hm))

/-- After a history the use chains of a body are in order unless a removed operation with operands
was put back into it, or an operation outside uses a value of the body. -/
theorem useErrors_of_edits {edits : List Edit} (h : ofEdits edits = .ok ctx) {m : OpId}
    {tree : OpTree} {r : RegionId} (htree : ctx.opTree m = .ok tree)
    (hbody : ctx.body m = .ok (some r)) :
    ∃ report, ctx.validateUses m = .ok report ∧ (report.useErrors ≠ [] ↔
      (∃ o op, ctx.OpIn r o ∧ o ∈ edits.filterMap Edit.removed? ∧ ctx.op? o = some op ∧
        op.operands ≠ []) ∨
      ∃ o op, ¬ctx.OpIn r o ∧ o ∉ edits.filterMap Edit.removed? ∧ ctx.op? o = some op ∧
        ∃ v ∈ op.operands, ctx.DefinedIn r v) := by
  have ha := accounted_of_edits h
  obtain ⟨rfl, hheld⟩ := opTree_eq_ok_iff.mp htree
  obtain ⟨t, hmem, rfl⟩ : ∃ t ∈ tree.regions, t.id = r := by
    rw [hheld.body, Except.ok.injEq, Option.map_eq_some_iff] at hbody
    obtain ⟨t, hhead, hid⟩ := hbody
    exact ⟨t, List.mem_of_mem_head? hhead, hid⟩
  have ht := hheld.region hmem
  obtain ⟨errors, herrors⟩ := exists_useErrors (typed_of_edits h) ht
  refine ⟨{ useErrors := errors }, ?_, ?_⟩
  · simp only [validateUses, hbody, except_ok_bind, regionTree_eq_ok_iff.mpr ⟨rfl, ht⟩, herrors]
    rfl
  · have hnone : errors = [] ↔ ctx.useErrors t = .ok [] := by simp [herrors]
    rw [← ha.unrecorded_iff ht, ← ha.foreign_iff ht, ne_eq, hnone, useErrors_eq_nil_iff,
      not_and_or]
    refine or_congr ?_ ?_
    · simp
    · simp

/-- An operation is removed and put into the body of a module afterwards. -/
def reattachedEdits : List Edit :=
  let nowhere : Location := ⟨"", ⟨0, 0⟩⟩
  [.createBlock [.mk "core" "i32" [] []],
    .createOp { location := nowhere, dialect := "t", name := "use", operands := [⟨0⟩] },
    .removeOp ⟨0⟩,
    .pushOp ⟨0⟩ ⟨0⟩,
    .createRegion [⟨0⟩],
    .createOp { location := nowhere, dialect := "core", name := "module", regions := [⟨0⟩] }]

theorem useErrors_of_reattachedEdits : ∃ ctx tree report, ofEdits reattachedEdits = .ok ctx ∧
    ctx.opTree ⟨1⟩ = .ok tree ∧ ctx.body ⟨1⟩ = .ok (some ⟨0⟩) ∧
    ctx.validateUses ⟨1⟩ = .ok report ∧ report.useErrors ≠ [] := by
  have hcheck : (ofEdits reattachedEdits).toOption.any fun ctx =>
      (ctx.opTree ⟨1⟩).toOption.any fun _ => decide (
        (ctx.body ⟨1⟩).toOption = some (some ⟨0⟩) ∧
        (ctx.region? ⟨0⟩).map Region.blocks = some [⟨0⟩] ∧
        (ctx.block? ⟨0⟩).map Block.ops = some [⟨0⟩] ∧
        (ctx.op? ⟨0⟩).map Op.operands = some [⟨0⟩]) := by
    decide +kernel
  obtain ⟨ctx, hctx, hcheck⟩ := except_any_iff.mp hcheck
  obtain ⟨tree, htree, hfacts⟩ := except_any_iff.mp hcheck
  obtain ⟨hbody, hblocks, hops, hoperands⟩ := of_decide_eq_true hfacts
  obtain ⟨region, hr, hb⟩ := Option.map_eq_some_iff.mp hblocks
  obtain ⟨block, hblk, ho⟩ := Option.map_eq_some_iff.mp hops
  obtain ⟨op, hop, hv⟩ := Option.map_eq_some_iff.mp hoperands
  have hbody : ctx.body ⟨1⟩ = .ok (some ⟨0⟩) := except_toOption_eq_some.mp hbody
  obtain ⟨report, hreport, hiff⟩ := useErrors_of_edits hctx htree hbody
  have hin : ctx.OpIn ⟨0⟩ ⟨0⟩ :=
    ⟨⟨0⟩, block, ⟨⟨0⟩, region, .refl, hr, by simp [hb]⟩, hblk, by simp [ho]⟩
  exact ⟨ctx, tree, report, hctx, htree, hbody, hreport,
    hiff.mpr (.inl ⟨⟨0⟩, op, hin, by decide, hop, by simp [hv]⟩)⟩

end Context

end RegionIR
