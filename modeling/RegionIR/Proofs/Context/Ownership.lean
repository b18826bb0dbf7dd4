import Mathlib.Data.List.Perm.Subperm
import RegionIR.Proofs.Context.Trees

/-! What linked ownership says about trees.

An operation has one owner, so that an operation stands in a tree once and no path from the root
of a tree is longer than there are operations. -/

namespace RegionIR

namespace OpTree

/-- The operations nested directly in an operation. -/
def children (t : OpTree) : List OpTree :=
  t.regions.flatMap fun r => r.blocks.flatMap BlockTree.ops

/-- The numbers of all operations of a tree. -/
def opIds (t : OpTree) : List OpId :=
  t.preorder.map Prod.fst

theorem preorder_eq (t : OpTree) :
    t.preorder = (t.id, t.op) :: t.children.flatMap OpTree.preorder := by
  obtain ⟨id, op, regions⟩ := t
  have hblock : BlockTree.preorder = fun b => b.ops.flatMap OpTree.preorder := by
    funext b
    obtain ⟨id, args, ops⟩ := b
    exact BlockTree.preorder_node ..
  have hregion : RegionTree.preorder = fun r =>
      (r.blocks.flatMap BlockTree.ops).flatMap OpTree.preorder := by
    funext r
    obtain ⟨id, blocks⟩ := r
    rw [RegionTree.preorder_node, hblock, List.flatMap_assoc]
    rfl
  rw [OpTree.preorder_node, hregion, children, List.flatMap_assoc]
  rfl

theorem opIds_eq (t : OpTree) : t.opIds = t.id :: t.children.flatMap opIds := by
  simp only [opIds, t.preorder_eq, List.map_cons, List.map_flatMap]
  rfl

theorem opIds_eq_regions (t : OpTree) : t.opIds = t.id :: t.regions.flatMap RegionTree.opIds := by
  obtain ⟨id, op, regions⟩ := t
  rw [opIds, OpTree.preorder_node, List.map_cons, List.map_flatMap]
  rfl

theorem id_mem_opIds (t : OpTree) : t.id ∈ t.opIds := by
  rw [opIds_eq]
  exact List.mem_cons_self

theorem mem_opIds_of_child {t c : OpTree} {o : OpId} (hc : c ∈ t.children) (ho : o ∈ c.opIds) :
    o ∈ t.opIds := by
  rw [opIds_eq]
  exact List.mem_cons_of_mem _ (List.mem_flatMap.mpr ⟨c, hc, ho⟩)

theorem opIds_cases {t : OpTree} {o : OpId} (ho : o ∈ t.opIds) :
    o = t.id ∨ ∃ c ∈ t.children, o ∈ c.opIds := by
  rw [opIds_eq] at ho
  simpa using ho

theorem length_opIds_of_child {t c : OpTree} (hc : c ∈ t.children) :
    c.opIds.length < t.opIds.length := by
  rw [t.opIds_eq, List.length_cons, List.flatMap_def]
  exact Nat.lt_succ_of_le (List.sublist_flatten_of_mem (List.mem_map_of_mem hc)).length_le

theorem forall_of_children {P : OpTree → Prop} (h : ∀ t, (∀ c ∈ t.children, P c) → P t) :
    ∀ t, P t := by
  refine OpTree.forall_of (Q := fun r => ∀ b ∈ r.blocks, ∀ c ∈ b.ops, P c)
    (R := fun b => ∀ c ∈ b.ops, P c) ?_ ?_ ?_
  · intro id op regions ih
    refine h _ fun c hc => ?_
    simp only [children, List.mem_flatMap] at hc
    obtain ⟨r, hr, b, hb, hc⟩ := hc
    exact ih r hr b hb c hc
  · exact fun id blocks ih => ih
  · exact fun id args ops ih => ih

end OpTree

namespace Context

variable {ctx : Context}

/-- Whether the operation `p` has `o` in a block of one of its regions. -/
def Owns (ctx : Context) (p o : OpId) : Prop :=
  ∃ op r region b block, ctx.op? p = some op ∧ r ∈ op.regions ∧ ctx.region? r = some region ∧
    b ∈ region.blocks ∧ ctx.block? b = some block ∧ o ∈ block.ops

theorem Linked.owner_unique (hl : ctx.Linked) {p q o : OpId} (hp : ctx.Owns p o)
    (hq : ctx.Owns q o) : p = q := by
  obtain ⟨op, r, region, b, block, hop, hr, hreg, hb, hblk, ho⟩ := hp
  obtain ⟨op', r', region', b', block', hop', hr', hreg', hb', hblk', ho'⟩ := hq
  obtain ⟨x, hx, hpx⟩ := hl.op_of_listed hblk ho
  obtain ⟨y, hy, hpy⟩ := hl.op_of_listed hblk' ho'
  rw [hx] at hy
  cases Option.some.inj hy
  obtain rfl : b = b' := Option.some.inj (hpx.symm.trans hpy)
  obtain ⟨x, hx, hpx⟩ := hl.block_of_listed hreg hb
  obtain ⟨y, hy, hpy⟩ := hl.block_of_listed hreg' hb'
  rw [hx] at hy
  cases Option.some.inj hy
  obtain rfl : r = r' := Option.some.inj (hpx.symm.trans hpy)
  obtain ⟨x, hx, hpx⟩ := hl.region_of_listed hop hr
  obtain ⟨y, hy, hpy⟩ := hl.region_of_listed hop' hr'
  rw [hx] at hy
  cases Option.some.inj hy
  exact Option.some.inj (hpx.symm.trans hpy)

end Context

namespace RegionTree.HeldBy

variable {ctx : Context} {t : RegionTree}

/-- An operation in a block of a region names the block, and the block names the region. -/
theorem parents (hl : ctx.Linked) (ht : t.HeldBy ctx) {o : OpId}
    (ho : o ∈ (t.blocks.flatMap BlockTree.ops).map OpTree.id) :
    ∃ op b block, ctx.op? o = some op ∧ op.parent = some b ∧ ctx.block? b = some block ∧
      block.parent = some t.id := by
  obtain ⟨hreg, hbs, hheld⟩ := ht
  simp only [blocks, List.mem_map, List.mem_flatMap] at ho
  obtain ⟨c, ⟨b, hb, hc⟩, rfl⟩ := ho
  obtain ⟨hblk, -, -, hops, -⟩ := hheld b hb
  obtain ⟨op, hop, hp⟩ := hl.op_of_listed hblk (hops ▸ List.mem_map_of_mem hc)
  obtain ⟨block, hblk, hq⟩ := hl.block_of_listed hreg (hbs ▸ List.mem_map_of_mem hb)
  exact ⟨op, _, block, hop, hp, hblk, hq⟩

theorem ops_ids_nodup (hl : ctx.Linked) (ht : t.HeldBy ctx) :
    ((t.blocks.flatMap BlockTree.ops).map OpTree.id).Nodup := by
  obtain ⟨hreg, hbs, hheld⟩ := ht
  have hbnd := hl.blocks_nodup hreg
  rw [hbs] at hbnd
  rw [List.map_flatMap]
  refine List.nodup_flatMap.mpr ⟨fun b hb => ?_, ?_⟩
  · obtain ⟨hblk, -, -, hops, -⟩ := hheld b hb
    exact hops ▸ hl.ops_nodup hblk
  · refine (List.pairwise_map.mp hbnd).imp_of_mem ?_
    intro b b' hb hb' hne o hm hm'
    obtain ⟨hblk, -, -, hops, -⟩ := hheld b hb
    obtain ⟨hblk', -, -, hops', -⟩ := hheld b' hb'
    obtain ⟨x, hx, hpx⟩ := hl.op_of_listed hblk (by rw [hops]; exact hm)
    obtain ⟨y, hy, hpy⟩ := hl.op_of_listed hblk' (by rw [hops']; exact hm')
    rw [hx] at hy
    cases Option.some.inj hy
    exact hne (Option.some.inj (hpx.symm.trans hpy))

end RegionTree.HeldBy

namespace OpTree.HeldBy

variable {ctx : Context} {t : OpTree}

theorem op?_id (ht : t.HeldBy ctx) : ctx.op? t.id = some t.op := by
  obtain ⟨ho, -, -⟩ := ht
  exact ho

theorem child (ht : t.HeldBy ctx) {c : OpTree} (hc : c ∈ t.children) :
    c.HeldBy ctx ∧ ctx.Owns t.id c.id := by
  obtain ⟨ho, hrs, hall⟩ := ht
  simp only [children, List.mem_flatMap] at hc
  obtain ⟨r, hr, b, hb, hc⟩ := hc
  obtain ⟨hreg, hbs, hblocks⟩ := hall r hr
  obtain ⟨hblk, -, -, hops, hheld⟩ := hblocks b hb
  refine ⟨hheld c hc, _, _, _, _, _, ho, ?_, hreg, ?_, hblk, ?_⟩
  · rw [hrs]
    exact List.mem_map_of_mem hr
  · rw [hbs]
    exact List.mem_map_of_mem hb
  · rw [hops]
    exact List.mem_map_of_mem hc

/-- Every operation of a held tree is the root of a tree that is held and not larger. -/
theorem exists_subtree (ht : t.HeldBy ctx) {o : OpId} (ho : o ∈ t.opIds) :
    ∃ s : OpTree, s.HeldBy ctx ∧ s.id = o ∧ s.opIds.length ≤ t.opIds.length := by
  revert ht ho
  refine forall_of_children (P := fun t => t.HeldBy ctx → o ∈ t.opIds →
    ∃ s : OpTree, s.HeldBy ctx ∧ s.id = o ∧ s.opIds.length ≤ t.opIds.length) (fun t ih ht ho => ?_) t
  rcases opIds_cases ho with rfl | ⟨c, hc, ho⟩
  · exact ⟨t, ht, rfl, Nat.le_refl _⟩
  · obtain ⟨s, hs, hid, hle⟩ := ih c hc (ht.child hc).1 ho
    exact ⟨s, hs, hid, Nat.le_trans hle (Nat.le_of_lt (length_opIds_of_child hc))⟩

theorem id_not_mem_child (ht : t.HeldBy ctx) {c : OpTree} (hc : c ∈ t.children) :
    t.id ∉ c.opIds := by
  intro hm
  obtain ⟨s, hs, hid, hle⟩ := (ht.child hc).1.exists_subtree hm
  have hlt := length_opIds_of_child hc
  rw [hs.unique ht hid] at hle
  omega

theorem id_not_mem_region (ht : t.HeldBy ctx) {r : RegionTree} (hr : r ∈ t.regions) :
    t.id ∉ r.opIds := by
  intro hm
  have htails : t.regions.flatMap RegionTree.opIds = t.children.flatMap opIds :=
    (List.cons.inj (t.opIds_eq_regions.symm.trans t.opIds_eq)).2
  have hmem : t.id ∈ t.children.flatMap opIds := htails ▸ List.mem_flatMap.mpr ⟨r, hr, hm⟩
  obtain ⟨c, hc, hm⟩ := List.mem_flatMap.mp hmem
  exact ht.id_not_mem_child hc hm

theorem owner_mem (hl : ctx.Linked) (ht : t.HeldBy ctx) {p o : OpId} (hp : ctx.Owns p o)
    (ho : o ∈ t.opIds) (hne : o ≠ t.id) : p ∈ t.opIds := by
  revert ht ho hne
  refine forall_of_children (P := fun t => t.HeldBy ctx → o ∈ t.opIds → o ≠ t.id → p ∈ t.opIds)
    (fun t ih ht ho hne => ?_) t
  rcases opIds_cases ho with rfl | ⟨c, hc, ho⟩
  · exact absurd rfl hne
  · by_cases he : o = c.id
    · rw [he] at hp
      rw [hl.owner_unique hp (ht.child hc).2]
      exact t.id_mem_opIds
    · exact mem_opIds_of_child hc (ih c hc (ht.child hc).1 ho he)

theorem comparable (hl : ctx.Linked) {s : OpTree} (hs : s.HeldBy ctx) (ht : t.HeldBy ctx) {o : OpId}
    (hos : o ∈ s.opIds) (hot : o ∈ t.opIds) : s.id ∈ t.opIds ∨ t.id ∈ s.opIds := by
  revert hs hos
  refine forall_of_children (P := fun s => s.HeldBy ctx → o ∈ s.opIds →
    s.id ∈ t.opIds ∨ t.id ∈ s.opIds) (fun s ih hs hos => ?_) s
  rcases opIds_cases hos with rfl | ⟨c, hc, hoc⟩
  · exact .inl hot
  · obtain ⟨hheld, howns⟩ := hs.child hc
    rcases ih c hc hheld hoc with hm | hm
    · by_cases he : c.id = t.id
      · exact .inr (mem_opIds_of_child hc (he ▸ c.id_mem_opIds))
      · exact .inl (ht.owner_mem hl howns hm he)
    · exact .inr (mem_opIds_of_child hc hm)

theorem children_ids_nodup (hl : ctx.Linked) (ht : t.HeldBy ctx) :
    (t.children.map OpTree.id).Nodup := by
  obtain ⟨ho, hrs, hall⟩ := ht
  have hrnd := hl.regions_nodup ho
  rw [hrs] at hrnd
  rw [children, List.map_flatMap]
  refine List.nodup_flatMap.mpr ⟨fun r hr => (hall r hr).ops_ids_nodup hl, ?_⟩
  refine (List.pairwise_map.mp hrnd).imp_of_mem ?_
  intro r r' hr hr' hne o hm hm'
  obtain ⟨op, b, block, hop, hp, hblk, hb⟩ := (hall r hr).parents hl hm
  obtain ⟨op', b', block', hop', hp', hblk', hb'⟩ := (hall r' hr').parents hl hm'
  cases hop.symm.trans hop'
  cases hp.symm.trans hp'
  cases hblk.symm.trans hblk'
  exact hne (Option.some.inj (hb.symm.trans hb'))

/-- An operation stands in a tree once. -/
theorem opIds_nodup (hl : ctx.Linked) (ht : t.HeldBy ctx) : t.opIds.Nodup := by
  revert ht
  refine forall_of_children (P := fun t => t.HeldBy ctx → t.opIds.Nodup) (fun t ih ht => ?_) t
  rw [t.opIds_eq, List.nodup_cons, List.nodup_flatMap]
  refine ⟨fun hm => ?_, fun c hc => ih c hc (ht.child hc).1, ?_⟩
  · obtain ⟨c, hc, hm⟩ := List.mem_flatMap.mp hm
    exact ht.id_not_mem_child hc hm
  · refine (List.pairwise_map.mp (ht.children_ids_nodup hl)).imp_of_mem ?_
    intro c c' hc hc' hne o hm hm'
    obtain ⟨hheld, howns⟩ := ht.child hc
    obtain ⟨hheld', howns'⟩ := ht.child hc'
    rcases comparable hl hheld hheld' hm hm' with h | h
    · exact ht.id_not_mem_child hc' (hheld'.owner_mem hl howns h hne)
    · exact ht.id_not_mem_child hc (hheld.owner_mem hl howns' h hne.symm)

/-- The regions of an operation have no operation in common, with each other or with it. -/
theorem regions_nodup (hl : ctx.Linked) (ht : t.HeldBy ctx) :
    t.id ∉ t.regions.flatMap RegionTree.opIds ∧
      (∀ r ∈ t.regions, r.opIds.Nodup) ∧
      t.regions.Pairwise fun r r' => List.Disjoint r.opIds r'.opIds := by
  have hnd := ht.opIds_nodup hl
  rw [opIds_eq_regions, List.nodup_cons, List.nodup_flatMap] at hnd
  exact hnd

theorem region (ht : t.HeldBy ctx) {r : RegionTree} (hr : r ∈ t.regions) : r.HeldBy ctx := by
  obtain ⟨-, -, hall⟩ := ht
  exact hall r hr

theorem body (ht : t.HeldBy ctx) : ctx.body t.id = .ok (t.regions.head?.map RegionTree.id) := by
  obtain ⟨ho, hrs, -⟩ := ht
  simp [Context.body, OpTree.id, OpTree.regions, Context.op_eq_ok.mpr ho, hrs, pure, Except.pure]

theorem body_of_head (ht : t.HeldBy ctx) {r : RegionTree} (hr : t.regions.head? = some r) :
    ctx.body t.id = .ok (some r.id) := by
  rw [ht.body, hr]
  rfl

end OpTree.HeldBy

namespace Context

variable {ctx : Context}

theorem length_le_of_exist {path : List OpId} (hnd : path.Nodup)
    (hall : ∀ p ∈ path, ∃ op, ctx.op? p = some op) : path.length ≤ ctx.ops.size := by
  have hsub : path.map OpId.index ⊆ List.range ctx.ops.size := by
    intro i hi
    obtain ⟨p, hp, rfl⟩ := List.mem_map.mp hi
    obtain ⟨op, ho⟩ := hall p hp
    simp only [Context.op?, Array.getElem?_eq_some_iff] at ho
    exact List.mem_range.mpr ho.1
  have hinj : Function.Injective OpId.index := fun p q h => by
    cases p
    cases q
    exact congrArg OpId.mk h
  have hnd' : (path.map OpId.index).Nodup := hnd.map hinj
  have hle := (hnd'.subperm hsub).length_le
  simpa using hle

/-- A held tree is computed in a depth that leaves room for the operations above it. These are distinct
and all exist, so there are at most as many as the arena has entries. -/
theorem opTreeWithin_of_heldBy {t : OpTree} (ht : t.HeldBy ctx) {path : List OpId}
    (hnd : path.Nodup) (hall : ∀ p ∈ path, ∃ op, ctx.op? p = some op)
    (hout : ∀ p ∈ path, p ∉ t.opIds) :
    ctx.opTreeWithin (ctx.ops.size + 1 - path.length) t.id = .ok t := by
  revert ht path
  refine OpTree.forall_of
    (P := fun t => t.HeldBy ctx → ∀ path : List OpId, path.Nodup →
      (∀ p ∈ path, ∃ op, ctx.op? p = some op) → (∀ p ∈ path, p ∉ t.opIds) →
      ctx.opTreeWithin (ctx.ops.size + 1 - path.length) t.id = .ok t)
    (Q := fun t => t.HeldBy ctx → ∀ path : List OpId, path.Nodup →
      (∀ p ∈ path, ∃ op, ctx.op? p = some op) → (∀ p ∈ path, p ∉ t.preorder.map Prod.fst) →
      ctx.regionTreeWith (ctx.opTreeWithin (ctx.ops.size + 1 - path.length)) t.id = .ok t)
    (R := fun t => t.HeldBy ctx → ∀ path : List OpId, path.Nodup →
      (∀ p ∈ path, ∃ op, ctx.op? p = some op) → (∀ p ∈ path, p ∉ t.preorder.map Prod.fst) →
      ctx.blockTreeWith (ctx.opTreeWithin (ctx.ops.size + 1 - path.length)) t.id = .ok t)
    ?_ ?_ ?_ t
  · intro id op regions ih ht path hnd hall hout
    have hid : id ∉ path := fun hm => hout id hm (OpTree.id_mem_opIds _)
    have hnd' : (id :: path).Nodup := List.nodup_cons.mpr ⟨hid, hnd⟩
    have hall' : ∀ p ∈ id :: path, ∃ op, ctx.op? p = some op :=
      List.forall_mem_cons.mpr ⟨⟨_, ht.op?_id⟩, hall⟩
    have hle := length_le_of_exist hnd' hall'
    have hdepth : ctx.ops.size + 1 - path.length
        = (ctx.ops.size + 1 - (id :: path).length) + 1 := by
      simp only [List.length_cons] at hle ⊢
      omega
    have hself : ∀ r ∈ regions, id ∉ r.opIds := fun r hr => ht.id_not_mem_region hr
    obtain ⟨ho, hrs, hheld⟩ := ht
    rw [hdepth, opTreeWithin_succ_eq_ok]
    refine ⟨op, regions, ho, hrs ▸ forall₂_of_map_eq fun r hr => ?_, rfl⟩
    refine ih r hr (hheld r hr) _ hnd' hall'
      (List.forall_mem_cons.mpr ⟨hself r hr, fun p hp hm => hout p hp ?_⟩)
    rw [OpTree.opIds_eq_regions]
    exact List.mem_cons_of_mem _ (List.mem_flatMap.mpr ⟨r, hr, hm⟩)
  · intro id blocks ih ht path hnd hall hout
    obtain ⟨hr, hbs, hheld⟩ := ht
    refine regionTreeWith_eq_ok.mpr ⟨_, blocks, hr, hbs ▸ forall₂_of_map_eq fun b hb => ?_, rfl⟩
    refine ih b hb (hheld b hb) path hnd hall fun p hp hm => hout p hp ?_
    simp only [RegionTree.preorder_node, List.map_flatMap, List.mem_flatMap]
    exact ⟨b, hb, hm⟩
  · intro id args ops ih ht path hnd hall hout
    obtain ⟨hb, hargs, hvals, hops, hheld⟩ := ht
    refine blockTreeWith_eq_ok.mpr ⟨_, args, ops, hb, ?_, hops ▸ forall₂_of_map_eq fun c hc => ?_,
      rfl⟩
    · exact hargs ▸ forall₂_of_map_eq fun a ha => ⟨rfl, hvals a ha⟩
    · refine ih c hc (hheld c hc) path hnd hall fun p hp hm => hout p hp ?_
      simp only [BlockTree.preorder_node, List.map_flatMap, List.mem_flatMap]
      exact ⟨c, hc, hm⟩

theorem opTree_eq_ok_iff {o : OpId} {t : OpTree} :
    ctx.opTree o = .ok t ↔ t.id = o ∧ t.HeldBy ctx := by
  constructor
  · exact heldBy_of_opTreeWithin
  · rintro ⟨rfl, ht⟩
    exact opTreeWithin_of_heldBy ht List.nodup_nil (by simp) (by simp)

theorem regionTree_eq_ok_iff {r : RegionId} {t : RegionTree} :
    ctx.regionTree r = .ok t ↔ t.id = r ∧ t.HeldBy ctx := by
  constructor
  · exact heldBy_of_regionTreeWith fun o t h => opTree_eq_ok_iff.mp h
  · rintro ⟨rfl, hr, hbs, hheld⟩
    refine regionTreeWith_eq_ok.mpr ⟨_, _, hr, hbs ▸ forall₂_of_map_eq fun b hb => ?_, rfl⟩
    obtain ⟨hblk, hargs, hvals, hops, hops'⟩ := hheld b hb
    refine blockTreeWith_eq_ok.mpr ⟨_, _, _, hblk, ?_, hops ▸ forall₂_of_map_eq fun c hc => ?_, rfl⟩
    · exact hargs ▸ forall₂_of_map_eq fun a ha => ⟨rfl, hvals a ha⟩
    · exact opTree_eq_ok_iff.mpr ⟨rfl, hops' c hc⟩

end Context

namespace Context

/-- The operation with a number, or a nameless one. -/
def raw (ctx : Context) (o : OpId) : Op :=
  (ctx.op? o).getD { location := ⟨"", ⟨0, 0⟩⟩, dialect := "", name := "" }

theorem raw_of_some {ctx : Context} {o : OpId} {op : Op} (h : ctx.op? o = some op) : ctx.raw o = op := by
  simp [raw, h]

end Context

theorem BlockTree.HeldBy.exists_block {ctx : Context} {b : BlockTree} (hb : b.HeldBy ctx) :
    ∃ block, ctx.block? b.id = some block ∧ block.args = b.args.map Prod.fst ∧
      block.ops = b.ops.map OpTree.id ∧
      ∀ a ∈ b.args, ∃ value, ctx.value? a.1 = some value ∧ value.ty = a.2 := by
  obtain ⟨hblk, hargs, hvals, hops, -⟩ := hb
  exact ⟨_, hblk, hargs, hops, hvals⟩

namespace RegionTree.HeldBy

variable {ctx : Context} {t : RegionTree}

theorem block (ht : t.HeldBy ctx) {b : BlockTree} (hb : b ∈ t.allBlocks) : b.HeldBy ctx := by
  revert ht hb
  refine RegionTree.forall_of (P := fun t => t.HeldBy ctx → b ∈ t.blocks → b.HeldBy ctx)
    (Q := fun t => t.HeldBy ctx → b ∈ t.allBlocks → b.HeldBy ctx)
    (R := fun t => t.HeldBy ctx → b ∈ t.nested → b.HeldBy ctx) ?_ ?_ ?_ t
  · rintro id op regions ih ⟨-, -, hheld⟩ hm
    simp only [OpTree.blocks_node, List.mem_flatMap] at hm
    obtain ⟨r, hr, hm⟩ := hm
    exact ih r hr (hheld r hr) hm
  · rintro id blocks ih ⟨-, -, hheld⟩ hm
    simp only [RegionTree.allBlocks_node, List.mem_append, List.mem_flatMap] at hm
    rcases hm with hm | ⟨c, hc, hm⟩
    · exact hheld b hm
    · exact ih c hc (hheld c hc) hm
  · rintro id args ops ih ⟨-, -, -, -, hheld⟩ hm
    simp only [BlockTree.nested_node, List.mem_flatMap] at hm
    obtain ⟨c, hc, hm⟩ := hm
    exact ih c hc (hheld c hc) hm

theorem mem_preorder_iff {o : OpId} {op : Op} :
    (o, op) ∈ t.preorder ↔ ∃ b ∈ t.allBlocks, ∃ c ∈ b.ops, c.id = o ∧ c.op = op := by
  refine RegionTree.forall_of
    (P := fun t => (o, op) ∈ t.preorder ↔
      (t.id = o ∧ t.op = op) ∨ ∃ b ∈ t.blocks, ∃ c ∈ b.ops, c.id = o ∧ c.op = op)
    (Q := fun t => (o, op) ∈ t.preorder ↔ ∃ b ∈ t.allBlocks, ∃ c ∈ b.ops, c.id = o ∧ c.op = op)
    (R := fun t => (o, op) ∈ t.preorder ↔
      (∃ c ∈ t.ops, c.id = o ∧ c.op = op) ∨ ∃ b ∈ t.nested, ∃ c ∈ b.ops, c.id = o ∧ c.op = op)
    ?_ ?_ ?_ t
  · intro id op regions ih
    simp only [OpTree.preorder_node, List.mem_cons, List.mem_flatMap, OpTree.blocks_node,
      OpTree.id, OpTree.op, Prod.mk.injEq]
    constructor
    · rintro (⟨rfl, rfl⟩ | ⟨r, hr, hm⟩)
      · exact .inl ⟨rfl, rfl⟩
      · obtain ⟨b, hb, h⟩ := (ih r hr).mp hm
        exact .inr ⟨b, ⟨r, hr, hb⟩, h⟩
    · rintro (⟨rfl, rfl⟩ | ⟨b, ⟨r, hr, hb⟩, h⟩)
      · exact .inl ⟨rfl, rfl⟩
      · exact .inr ⟨r, hr, (ih r hr).mpr ⟨b, hb, h⟩⟩
  · intro id blocks ih
    simp only [RegionTree.preorder_node, List.mem_flatMap, RegionTree.allBlocks_node,
      List.mem_append]
    grind
  · intro id args ops ih
    simp only [BlockTree.preorder_node, List.mem_flatMap, BlockTree.nested_node, BlockTree.ops]
    constructor
    · rintro ⟨c, hc, hm⟩
      rcases (ih c hc).mp hm with h | ⟨b, hb, h⟩
      · exact .inl ⟨c, hc, h⟩
      · exact .inr ⟨b, ⟨c, hc, hb⟩, h⟩
    · rintro (⟨c, hc, h⟩ | ⟨b, ⟨c, hc, hb⟩, h⟩)
      · exact ⟨c, hc, (ih c hc).mpr (.inl h)⟩
      · exact ⟨c, hc, (ih c hc).mpr (.inr ⟨b, hb, h⟩)⟩

theorem mem_blockIds_iff {b : BlockId} : b ∈ t.blockIds ↔ ∃ s ∈ t.allBlocks, s.id = b := by
  simp [RegionTree.blockIds]

theorem op?_of_mem (ht : t.HeldBy ctx) {o : OpId} {op : Op} (h : (o, op) ∈ t.preorder) :
    ctx.op? o = some op := by
  obtain ⟨b, hb, c, hc, rfl, rfl⟩ := mem_preorder_iff.mp h
  obtain ⟨-, -, -, -, hheld⟩ := ht.block hb
  exact (hheld c hc).op?_id

theorem op?_raw (ht : t.HeldBy ctx) {o : OpId} (h : o ∈ t.opIds) :
    ctx.op? o = some (ctx.raw o) := by
  obtain ⟨⟨o, op⟩, hm, rfl⟩ := List.mem_map.mp h
  have ho := ht.op?_of_mem hm
  rw [Context.raw_of_some ho, ho]

theorem mem_preorder_raw (ht : t.HeldBy ctx) {o : OpId} (h : o ∈ t.opIds) :
    (o, ctx.raw o) ∈ t.preorder := by
  obtain ⟨⟨o, op⟩, hm, rfl⟩ := List.mem_map.mp h
  rwa [Context.raw_of_some (ht.op?_of_mem hm)]

theorem mem_opIds_of_block (ht : t.HeldBy ctx) {b : BlockId} {block : Block} {o : OpId}
    (hb : b ∈ t.blockIds) (hblk : ctx.block? b = some block) (ho : o ∈ block.ops) :
    o ∈ t.opIds := by
  obtain ⟨s, hs, rfl⟩ := mem_blockIds_iff.mp hb
  have hheld := ht.block hs
  have hmem := @mem_preorder_iff t
  obtain ⟨hblk', -, -, hops, -⟩ := hheld
  simp only [BlockTree.id] at hblk
  rw [hblk] at hblk'
  cases Option.some.inj hblk'
  rw [hops] at ho
  obtain ⟨c, hc, rfl⟩ := List.mem_map.mp ho
  exact List.mem_map_of_mem (hmem.mpr ⟨_, hs, c, hc, rfl, rfl⟩)

theorem exists_block (ht : t.HeldBy ctx) (hl : ctx.Linked) {o : OpId} (ho : o ∈ t.opIds) :
    ∃ b ∈ t.blockIds, ∃ block, ctx.block? b = some block ∧ o ∈ block.ops ∧
      (ctx.raw o).parent = some b := by
  obtain ⟨⟨o, op⟩, hm, rfl⟩ := List.mem_map.mp ho
  obtain ⟨s, hs, c, hc, rfl, rfl⟩ := mem_preorder_iff.mp hm
  have hid := mem_blockIds_iff.mpr ⟨s, hs, rfl⟩
  obtain ⟨hblk, -, -, hops, -⟩ := ht.block hs
  have hmem : c.id ∈ _ := hops ▸ List.mem_map_of_mem hc
  obtain ⟨op, ho, hp⟩ := hl.op_of_listed hblk hmem
  exact ⟨_, hid, _, hblk, hmem, by rw [Context.raw_of_some ho]; exact hp⟩

end RegionTree.HeldBy

end RegionIR
