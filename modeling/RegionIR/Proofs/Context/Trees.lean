import RegionIR.Context.Nested
import RegionIR.Proofs.Context.Sound

/-! Ownership trees and the contexts that hold them.

A context holds a tree when it has every entity of the tree with the data that the tree shows.
It holds at most one tree for an operation, no operation is nested in itself there, and the tree
is the one that the context computes. -/

namespace RegionIR

section Induction

variable {P : OpTree → Prop} {Q : RegionTree → Prop} {R : BlockTree → Prop}
  (hop : ∀ id op regions, (∀ t ∈ regions, Q t) → P (.node id op regions))
  (hregion : ∀ id blocks, (∀ t ∈ blocks, R t) → Q (.node id blocks))
  (hblock : ∀ id args ops, (∀ t ∈ ops, P t) → R (.node id args ops))

include hop hregion hblock

theorem OpTree.forall_of (t : OpTree) : P t := by
  refine @OpTree.rec P Q R (fun l => ∀ t ∈ l, Q t) (fun l => ∀ t ∈ l, R t) (fun l => ∀ t ∈ l, P t)
    hop hregion hblock ?_ ?_ ?_ ?_ ?_ ?_ t
  · simp
  · exact fun _ _ hr hrs => List.forall_mem_cons.mpr ⟨hr, hrs⟩
  · simp
  · exact fun _ _ hb hbs => List.forall_mem_cons.mpr ⟨hb, hbs⟩
  · simp
  · exact fun _ _ ho hos => List.forall_mem_cons.mpr ⟨ho, hos⟩

theorem BlockTree.forall_of : ∀ t, R t
  | .node id args ops => hblock id args ops fun t _ => OpTree.forall_of hop hregion hblock t

theorem RegionTree.forall_of : ∀ t, Q t
  | .node id blocks => hregion id blocks fun t _ => BlockTree.forall_of hop hregion hblock t

end Induction

namespace OpTree

theorem preorderAll_eq_flatMap (l : List OpTree) : preorderAll l = l.flatMap preorder := by
  induction l with
  | nil => rfl
  | cons t l ih => simp [preorderAll, ih]

theorem blocksOfAll_eq_flatMap (l : List OpTree) : blocksOfAll l = l.flatMap blocks := by
  induction l with
  | nil => rfl
  | cons t l ih => simp [blocksOfAll, ih]

end OpTree

namespace RegionTree

theorem preorderAll_eq_flatMap (l : List RegionTree) : preorderAll l = l.flatMap preorder := by
  induction l with
  | nil => rfl
  | cons t l ih => simp [preorderAll, ih]

theorem blocksOfAll_eq_flatMap (l : List RegionTree) : blocksOfAll l = l.flatMap allBlocks := by
  induction l with
  | nil => rfl
  | cons t l ih => simp [blocksOfAll, ih]

end RegionTree

namespace BlockTree

theorem preorderAll_eq_flatMap (l : List BlockTree) : preorderAll l = l.flatMap preorder := by
  induction l with
  | nil => rfl
  | cons t l ih => simp [preorderAll, ih]

theorem nestedOfAll_eq_flatMap (l : List BlockTree) : nestedOfAll l = l.flatMap nested := by
  induction l with
  | nil => rfl
  | cons t l ih => simp [nestedOfAll, ih]

end BlockTree

@[simp] theorem OpTree.preorder_node (id : OpId) (op : Op) (regions : List RegionTree) :
    (OpTree.node id op regions).preorder = (id, op) :: regions.flatMap RegionTree.preorder := by
  simp [OpTree.preorder, RegionTree.preorderAll_eq_flatMap]

@[simp] theorem RegionTree.preorder_node (id : RegionId) (blocks : List BlockTree) :
    (RegionTree.node id blocks).preorder = blocks.flatMap BlockTree.preorder := by
  simp [RegionTree.preorder, BlockTree.preorderAll_eq_flatMap]

@[simp] theorem BlockTree.preorder_node (id : BlockId) (args : List (ValueId × Ty))
    (ops : List OpTree) :
    (BlockTree.node id args ops).preorder = ops.flatMap OpTree.preorder := by
  simp [BlockTree.preorder, OpTree.preorderAll_eq_flatMap]

@[simp] theorem OpTree.blocks_node (id : OpId) (op : Op) (regions : List RegionTree) :
    (OpTree.node id op regions).blocks = regions.flatMap RegionTree.allBlocks := by
  simp [OpTree.blocks, RegionTree.blocksOfAll_eq_flatMap]

@[simp] theorem RegionTree.allBlocks_node (id : RegionId) (blocks : List BlockTree) :
    (RegionTree.node id blocks).allBlocks = blocks ++ blocks.flatMap BlockTree.nested := by
  simp [RegionTree.allBlocks, BlockTree.nestedOfAll_eq_flatMap]

@[simp] theorem BlockTree.nested_node (id : BlockId) (args : List (ValueId × Ty))
    (ops : List OpTree) : (BlockTree.node id args ops).nested = ops.flatMap OpTree.blocks := by
  simp [BlockTree.nested, OpTree.blocksOfAll_eq_flatMap]

mutual

/-- The context has all entities of the tree as the tree shows them. -/
inductive OpTree.HeldBy (ctx : Context) : OpTree → Prop
  | node {id : OpId} {op : Op} {regions : List RegionTree} : ctx.op? id = some op →
      op.regions = regions.map RegionTree.id → (∀ t ∈ regions, RegionTree.HeldBy ctx t) →
      OpTree.HeldBy ctx (.node id op regions)

inductive RegionTree.HeldBy (ctx : Context) : RegionTree → Prop
  | node {id : RegionId} {region : Region} {blocks : List BlockTree} :
      ctx.region? id = some region → region.blocks = blocks.map BlockTree.id →
      (∀ t ∈ blocks, BlockTree.HeldBy ctx t) → RegionTree.HeldBy ctx (.node id blocks)

inductive BlockTree.HeldBy (ctx : Context) : BlockTree → Prop
  | node {id : BlockId} {block : Block} {args : List (ValueId × Ty)} {ops : List OpTree} :
      ctx.block? id = some block → block.args = args.map Prod.fst →
      (∀ a ∈ args, ∃ value, ctx.value? a.1 = some value ∧ value.ty = a.2) →
      block.ops = ops.map OpTree.id → (∀ t ∈ ops, OpTree.HeldBy ctx t) →
      BlockTree.HeldBy ctx (.node id args ops)

end

namespace Context

variable {ctx : Context}

theorem forall₂_of_map_eq {α γ : Type} {f : α → γ} {R : γ → α → Prop} {l : List α}
    (h : ∀ a ∈ l, R (f a) a) : List.Forall₂ R (l.map f) l := by
  rw [List.forall₂_map_left_iff, List.forall₂_same]
  exact h

theorem map_eq_of_forall₂ {α γ : Type} {f : α → γ} {R : γ → α → Prop} {l : List α} {k : List γ}
    (hR : ∀ c a, R c a → f a = c) (h : List.Forall₂ R k l) : k = l.map f := by
  induction h with
  | nil => rfl
  | cons h _ ih => rw [List.map_cons, hR _ _ h, ← ih]

theorem forall_mem_right_of_forall₂ {α γ : Type} {R : γ → α → Prop} {p : α → Prop} {l : List α}
    {k : List γ} (h : List.Forall₂ R k l) (hp : ∀ c a, R c a → p a) : ∀ a ∈ l, p a := by
  induction h with
  | nil => simp
  | cons h _ ih => exact List.forall_mem_cons.mpr ⟨hp _ _ h, ih⟩

section Computed

variable {trees : OpId → Except Fault OpTree}

theorem blockTreeWith_eq_ok {b : BlockId} {t : BlockTree} :
    ctx.blockTreeWith trees b = .ok t ↔ ∃ block args ops, ctx.block? b = some block ∧
      List.Forall₂ (fun v a => a.1 = v ∧ ∃ value, ctx.value? v = some value ∧ value.ty = a.2)
        block.args args ∧
      List.Forall₂ (fun o t => trees o = .ok t) block.ops ops ∧ t = .node b args ops := by
  simp only [blockTreeWith, except_bind_eq_ok, block_eq_ok, except_pure_eq_ok, mapM_eq_ok_iff,
    typeOf_eq_ok]
  constructor
  · rintro ⟨block, hb, args, hargs, ops, hops, rfl⟩
    refine ⟨block, args, ops, hb, hargs.imp ?_, hops, rfl⟩
    rintro v a ⟨ty, ⟨value, hv, rfl⟩, rfl⟩
    exact ⟨rfl, value, hv, rfl⟩
  · rintro ⟨block, args, ops, hb, hargs, hops, rfl⟩
    refine ⟨block, hb, args, hargs.imp ?_, ops, hops, rfl⟩
    rintro v ⟨v', ty⟩ ⟨rfl, value, hv, rfl⟩
    exact ⟨value.ty, ⟨value, hv, rfl⟩, rfl⟩

theorem regionTreeWith_eq_ok {r : RegionId} {t : RegionTree} :
    ctx.regionTreeWith trees r = .ok t ↔ ∃ region blocks, ctx.region? r = some region ∧
      List.Forall₂ (fun b t => ctx.blockTreeWith trees b = .ok t) region.blocks blocks ∧
      t = .node r blocks := by
  simp only [regionTreeWith, except_bind_eq_ok, region_eq_ok, except_pure_eq_ok, mapM_eq_ok_iff]
  constructor
  · rintro ⟨region, hr, blocks, hblocks, rfl⟩
    exact ⟨region, blocks, hr, hblocks, rfl⟩
  · rintro ⟨region, blocks, hr, hblocks, rfl⟩
    exact ⟨region, hr, blocks, hblocks, rfl⟩

end Computed

theorem opTreeWithin_succ_eq_ok {depth : Nat} {o : OpId} {t : OpTree} :
    ctx.opTreeWithin (depth + 1) o = .ok t ↔ ∃ op regions, ctx.op? o = some op ∧
      List.Forall₂ (fun r t => ctx.regionTreeWith (ctx.opTreeWithin depth) r = .ok t)
        op.regions regions ∧ t = .node o op regions := by
  simp only [opTreeWithin, except_bind_eq_ok, op_eq_ok, except_pure_eq_ok, mapM_eq_ok_iff]
  constructor
  · rintro ⟨op, ho, regions, hregions, rfl⟩
    exact ⟨op, regions, ho, hregions, rfl⟩
  · rintro ⟨op, regions, ho, hregions, rfl⟩
    exact ⟨op, ho, regions, hregions, rfl⟩

/-- A tree that is computed for a block is held if those computed for its operations are. -/
theorem heldBy_of_blockTreeWith {trees : OpId → Except Fault OpTree}
    (htrees : ∀ o t, trees o = .ok t → t.id = o ∧ t.HeldBy ctx) {b : BlockId} {t : BlockTree}
    (h : ctx.blockTreeWith trees b = .ok t) : t.id = b ∧ t.HeldBy ctx := by
  obtain ⟨block, args, ops, hb, hargs, hops, rfl⟩ := blockTreeWith_eq_ok.mp h
  refine ⟨rfl, .node hb (map_eq_of_forall₂ (fun _ _ h => h.1) hargs) ?_
    (map_eq_of_forall₂ (fun o t h => (htrees o t h).1) hops)
    (forall_mem_right_of_forall₂ hops fun o t h => (htrees o t h).2)⟩
  refine forall_mem_right_of_forall₂ hargs ?_
  rintro v a ⟨rfl, value, hv, hty⟩
  exact ⟨value, hv, hty⟩

theorem heldBy_of_regionTreeWith {trees : OpId → Except Fault OpTree}
    (htrees : ∀ o t, trees o = .ok t → t.id = o ∧ t.HeldBy ctx) {r : RegionId} {t : RegionTree}
    (h : ctx.regionTreeWith trees r = .ok t) : t.id = r ∧ t.HeldBy ctx := by
  obtain ⟨region, blocks, hr, hblocks, rfl⟩ := regionTreeWith_eq_ok.mp h
  exact ⟨rfl, .node hr
    (map_eq_of_forall₂ (fun b t h => (heldBy_of_blockTreeWith htrees h).1) hblocks)
    (forall_mem_right_of_forall₂ hblocks fun b t h => (heldBy_of_blockTreeWith htrees h).2)⟩

theorem heldBy_of_opTreeWithin {depth : Nat} {o : OpId} {t : OpTree}
    (h : ctx.opTreeWithin depth o = .ok t) : t.id = o ∧ t.HeldBy ctx := by
  induction depth generalizing o t with
  | zero => simp [opTreeWithin] at h
  | succ depth ih =>
    obtain ⟨op, regions, ho, hregions, rfl⟩ := opTreeWithin_succ_eq_ok.mp h
    have htrees (o : OpId) (t : OpTree) := @ih o t
    exact ⟨rfl, .node ho
      (map_eq_of_forall₂ (fun r t h => (heldBy_of_regionTreeWith htrees h).1) hregions)
      (forall_mem_right_of_forall₂ hregions fun r t h => (heldBy_of_regionTreeWith htrees h).2)⟩

end Context

theorem OpTree.HeldBy.unique {ctx : Context} {s t : OpTree} (hs : s.HeldBy ctx) (ht : t.HeldBy ctx)
    (hid : s.id = t.id) : s = t := by
  revert t
  refine OpTree.forall_of (P := fun s => ∀ t, s.HeldBy ctx → t.HeldBy ctx → s.id = t.id → s = t)
    (Q := fun s => ∀ t, s.HeldBy ctx → t.HeldBy ctx → s.id = t.id → s = t)
    (R := fun s => ∀ t, s.HeldBy ctx → t.HeldBy ctx → s.id = t.id → s = t) ?_ ?_ ?_ s _ hs
  · rintro id op regions ih ⟨id', op', regions'⟩ (⟨ho, hrs, hall⟩) (⟨ho', hrs', hall'⟩) rfl
    simp only [OpTree.id] at ho'
    rw [ho] at ho'
    cases Option.some.inj ho'
    rw [eq_of_map_eq (fun r hr r' hr' => ih r hr r' (hall r hr) (hall' r' hr'))
      (hrs.symm.trans hrs')]
    rfl
  · rintro id blocks ih ⟨id', blocks'⟩ (⟨hr, hbs, hall⟩) (⟨hr', hbs', hall'⟩) rfl
    simp only [RegionTree.id] at hr'
    rw [hr] at hr'
    cases Option.some.inj hr'
    rw [eq_of_map_eq (fun b hb b' hb' => ih b hb b' (hall b hb) (hall' b' hb'))
      (hbs.symm.trans hbs')]
    rfl
  · rintro id args ops ih ⟨id', args', ops'⟩ (⟨hb, hargs, hvals, hops, hall⟩)
      (⟨hb', hargs', hvals', hops', hall'⟩) rfl
    simp only [BlockTree.id] at hb'
    rw [hb] at hb'
    cases Option.some.inj hb'
    rw [eq_of_map_eq (fun c hc c' hc' => ih c hc c' (hall c hc) (hall' c' hc'))
      (hops.symm.trans hops')]
    have hsame : args = args' := by
      refine eq_of_map_eq (fun a ha a' ha' he => ?_) (hargs.symm.trans hargs')
      obtain ⟨value, hv, hty⟩ := hvals a ha
      obtain ⟨value', hv', hty'⟩ := hvals' a' ha'
      rw [← he, hv] at hv'
      cases Option.some.inj hv'
      exact Prod.ext he (hty.symm.trans hty')
    rw [hsame]
    rfl

end RegionIR
