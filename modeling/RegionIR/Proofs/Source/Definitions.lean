import RegionIR.Proofs.Context.Ownership
import RegionIR.Proofs.Source.Naming

/-! No value and no label is defined twice in a tree.

A value tells by its origin which operation or block lists it, and a block tells by its parents
which operation it belongs to. As no operation occurs twice in a tree that a sound context holds, the
same is true of blocks and of values. -/

namespace RegionIR

section Permutation

theorem perm_flatMap_append {α β : Type} {l : List α} {f g h : α → List β}
    (hf : ∀ a ∈ l, (f a).Perm (g a ++ h a)) : (l.flatMap f).Perm (l.flatMap g ++ l.flatMap h) :=
  (List.Perm.flatMap_left l hf).trans (List.flatMap_append_perm l g h).symm

/-- The arguments of a block. -/
def BlockTree.argIds (b : BlockTree) : List ValueId := b.args.map Prod.fst

/-- The values of a region are the results of its operations and the arguments of its blocks. -/
theorem RegionTree.perm_results_args (r : RegionTree) :
    r.values.Perm (r.preorder.flatMap (·.2.results) ++ r.allBlocks.flatMap BlockTree.argIds) := by
  refine RegionTree.forall_of
    (P := fun t => t.values.Perm
      (t.preorder.flatMap (·.2.results) ++ t.blocks.flatMap BlockTree.argIds))
    (Q := fun r => r.values.Perm
      (r.preorder.flatMap (·.2.results) ++ r.allBlocks.flatMap BlockTree.argIds))
    (R := fun b => b.values.Perm
      (b.preorder.flatMap (·.2.results) ++ (b.argIds ++ b.nested.flatMap BlockTree.argIds)))
    ?_ ?_ ?_ r
  · intro id op regions ih
    rw [OpTree.values, RegionTree.valuesOfAll_eq, OpTree.preorder_node, OpTree.blocks_node,
      List.flatMap_cons, List.flatMap_assoc, List.flatMap_assoc, List.append_assoc]
    exact (perm_flatMap_append ih).append_left _
  · intro id blocks ih
    rw [RegionTree.values, BlockTree.valuesOfAll_eq, RegionTree.preorder_node,
      RegionTree.allBlocks_node, List.flatMap_append, List.flatMap_assoc, List.flatMap_assoc]
    exact (perm_flatMap_append ih).trans
      ((List.flatMap_append_perm blocks BlockTree.argIds _).symm.append_left _)
  · intro id args ops ih
    rw [BlockTree.values, OpTree.valuesOfAll_eq, BlockTree.preorder_node, BlockTree.nested_node,
      List.flatMap_assoc, List.flatMap_assoc]
    refine ((perm_flatMap_append ih).append_left _).trans ?_
    rw [← List.append_assoc, ← List.append_assoc]
    exact (List.perm_append_comm).append_right _

theorem OpTree.values_perm (t : OpTree) :
    t.values.Perm (t.preorder.flatMap (·.2.results) ++ t.blocks.flatMap BlockTree.argIds) := by
  obtain ⟨id, op, regions⟩ := t
  rw [OpTree.values, RegionTree.valuesOfAll_eq, OpTree.preorder_node, OpTree.blocks_node,
    List.flatMap_cons, List.flatMap_assoc, List.flatMap_assoc, List.append_assoc]
  exact (perm_flatMap_append fun r _ => r.perm_results_args).append_left _

theorem sublist_flatMap {α β : Type} {l : List α} {f g : α → List β}
    (h : ∀ a ∈ l, (f a).Sublist (g a)) : (l.flatMap f).Sublist (l.flatMap g) := by
  induction l with
  | nil => exact List.Sublist.slnil
  | cons a l ih =>
    rw [List.flatMap_cons, List.flatMap_cons]
    exact (h a List.mem_cons_self).append (ih fun b hb => h b (List.mem_cons_of_mem _ hb))

theorem OpTree.labelled_sublist (t : OpTree) : t.labelled.Sublist (t.blocks.map BlockTree.id) := by
  refine OpTree.forall_of (P := fun t => t.labelled.Sublist (t.blocks.map BlockTree.id))
    (Q := fun r => r.labelled.Sublist (r.allBlocks.map BlockTree.id))
    (R := fun b => b.labelled.Sublist (b.nested.map BlockTree.id)) ?_ ?_ ?_ t
  · intro id op regions ih
    rw [OpTree.labelled, RegionTree.labelledOfAll_eq, OpTree.blocks_node, List.map_flatMap]
    exact sublist_flatMap ih
  · intro id blocks ih
    rw [RegionTree.labelled, BlockTree.labelledOfAll_eq, RegionTree.allBlocks_node, List.map_append,
      List.map_flatMap]
    refine List.Sublist.append ?_ (sublist_flatMap ih)
    unfold RegionTree.labels
    split
    · exact List.nil_sublist _
    · exact List.Sublist.refl _
  · intro id args ops ih
    rw [BlockTree.labelled, OpTree.labelledOfAll_eq, BlockTree.nested_node, List.map_flatMap]
    exact sublist_flatMap ih

theorem RegionTree.allBlocks_eq_ops (r : RegionTree) :
    r.allBlocks = r.blocks ++ (r.blocks.flatMap BlockTree.ops).flatMap OpTree.blocks := by
  obtain ⟨id, blocks⟩ := r
  rw [RegionTree.allBlocks_node, RegionTree.blocks, List.flatMap_assoc]
  congr 1
  refine List.flatMap_congr fun b _ => ?_
  obtain ⟨bid, args, ops⟩ := b
  exact BlockTree.nested_node ..

/-- The blocks of a tree are those of its own regions and those of its children. -/
theorem OpTree.blocks_perm (t : OpTree) :
    t.blocks.Perm (t.regions.flatMap RegionTree.blocks ++ t.children.flatMap OpTree.blocks) := by
  obtain ⟨id, op, regions⟩ := t
  rw [OpTree.blocks_node, OpTree.children, List.flatMap_assoc]
  exact perm_flatMap_append fun r _ => List.Perm.of_eq r.allBlocks_eq_ops

end Permutation

namespace Context

variable {ctx : Context}

/-- The block stands in a region of the operation. -/
def StandsIn (ctx : Context) (b : BlockId) (r : RegionId) (o : OpId) : Prop :=
  (∃ block, ctx.block? b = some block ∧ block.parent = some r) ∧
    ∃ region, ctx.region? r = some region ∧ region.parent = some o

theorem StandsIn.unique {b : BlockId} {r r' : RegionId} {o o' : OpId} (h : ctx.StandsIn b r o)
    (h' : ctx.StandsIn b r' o') : r = r' ∧ o = o' := by
  obtain ⟨⟨block, hb, hp⟩, region, hr, hq⟩ := h
  obtain ⟨⟨block', hb', hp'⟩, region', hr', hq'⟩ := h'
  rw [hb] at hb'
  cases Option.some.inj hb'
  rw [hp] at hp'
  cases Option.some.inj hp'
  rw [hr] at hr'
  cases Option.some.inj hr'
  exact ⟨rfl, Option.some.inj (hq.symm.trans hq')⟩

end Context

namespace OpTree.HeldBy

variable {ctx : Context} {t : OpTree}

theorem standsIn (hl : ctx.Linked) (ht : t.HeldBy ctx) {r : RegionTree} (hr : r ∈ t.regions)
    {b : BlockTree} (hb : b ∈ r.blocks) : ctx.StandsIn b.id r.id t.id := by
  obtain ⟨ho, hrs, hall⟩ := ht
  obtain ⟨hreg, hbs, -⟩ := hall r hr
  obtain ⟨block, hblk, hp⟩ := hl.block_of_listed hreg (by rw [hbs]; exact List.mem_map_of_mem hb)
  exact ⟨⟨block, hblk, hp⟩, hl.region_of_listed ho (by rw [hrs]; exact List.mem_map_of_mem hr)⟩

theorem exists_standsIn (hl : ctx.Linked) (ht : t.HeldBy ctx) {b : BlockTree} (hb : b ∈ t.blocks) :
    ∃ r, ∃ o ∈ t.opIds, ctx.StandsIn b.id r o := by
  revert ht hb
  refine forall_of_children (P := fun t => t.HeldBy ctx → b ∈ t.blocks →
    ∃ r, ∃ o ∈ t.opIds, ctx.StandsIn b.id r o) (fun t ih ht hb => ?_) t
  rcases List.mem_append.mp (t.blocks_perm.mem_iff.mp hb) with hb | hb
  · obtain ⟨r, hr, hb⟩ := List.mem_flatMap.mp hb
    exact ⟨r.id, t.id, t.id_mem_opIds, ht.standsIn hl hr hb⟩
  · obtain ⟨c, hc, hb⟩ := List.mem_flatMap.mp hb
    obtain ⟨r, o, ho, hstands⟩ := ih c hc (ht.child hc).1 hb
    exact ⟨r, o, mem_opIds_of_child hc ho, hstands⟩

theorem own_blocks_nodup (hl : ctx.Linked) (ht : t.HeldBy ctx) :
    ((t.regions.flatMap RegionTree.blocks).map BlockTree.id).Nodup := by
  have hstands {r : RegionTree} (hr : r ∈ t.regions) {b : BlockId} (hb : b ∈ r.blocks.map BlockTree.id) :
      ctx.StandsIn b r.id t.id := by
    obtain ⟨b, hmem, rfl⟩ := List.mem_map.mp hb
    exact ht.standsIn hl hr hmem
  obtain ⟨ho, hrs, hall⟩ := ht
  have hrnd := hl.regions_nodup ho
  rw [hrs] at hrnd
  rw [List.map_flatMap]
  refine List.nodup_flatMap.mpr ⟨fun r hr => ?_, ?_⟩
  · obtain ⟨hreg, hbs, -⟩ := hall r hr
    exact hbs ▸ hl.blocks_nodup hreg
  · refine (List.pairwise_map.mp hrnd).imp_of_mem ?_
    intro r r' hr hr' hne b hb hb'
    exact hne ((hstands hr hb).unique (hstands hr' hb')).1

/-- A block stands in a tree once. -/
theorem blocks_nodup (hl : ctx.Linked) (ht : t.HeldBy ctx) : (t.blocks.map BlockTree.id).Nodup := by
  revert ht
  refine forall_of_children (P := fun t => t.HeldBy ctx → (t.blocks.map BlockTree.id).Nodup)
    (fun t ih ht => ?_) t
  have hops := ht.opIds_nodup hl
  rw [t.opIds_eq, List.nodup_cons, List.nodup_flatMap] at hops
  obtain ⟨hroot, -, hdisjoint⟩ := hops
  have hstands {c : OpTree} (hc : c ∈ t.children) {b : BlockId} (hb : b ∈ c.blocks.map BlockTree.id) :
      ∃ r, ∃ o ∈ c.opIds, ctx.StandsIn b r o := by
    obtain ⟨b, hmem, rfl⟩ := List.mem_map.mp hb
    exact (ht.child hc).1.exists_standsIn hl hmem
  refine ((t.blocks_perm.map BlockTree.id).nodup_iff).mpr ?_
  rw [List.map_append, List.nodup_append]
  refine ⟨ht.own_blocks_nodup hl, ?_, ?_⟩
  · rw [List.map_flatMap]
    refine List.nodup_flatMap.mpr ⟨fun c hc => ih c hc (ht.child hc).1, ?_⟩
    refine hdisjoint.imp_of_mem ?_
    intro c c' hc hc' hdis b hb hb'
    obtain ⟨r, o, ho, hst⟩ := hstands hc hb
    obtain ⟨r', o', ho', hst'⟩ := hstands hc' hb'
    exact hdis ho ((hst.unique hst').2 ▸ ho')
  · rintro b hb b' hb' rfl
    rw [List.map_flatMap] at hb hb'
    obtain ⟨r, hr, hb⟩ := List.mem_flatMap.mp hb
    obtain ⟨c, hc, hb'⟩ := List.mem_flatMap.mp hb'
    obtain ⟨b, hmem, rfl⟩ := List.mem_map.mp hb
    obtain ⟨r', o, ho, hst⟩ := hstands hc hb'
    refine hroot (List.mem_flatMap.mpr ⟨c, hc, ?_⟩)
    rwa [((ht.standsIn hl hr hmem).unique hst).2]

theorem op?_of_mem_preorder (ht : t.HeldBy ctx) {o : OpId} {op : Op} (h : (o, op) ∈ t.preorder) :
    ctx.op? o = some op := by
  revert ht h
  refine forall_of_children (P := fun t => t.HeldBy ctx → (o, op) ∈ t.preorder →
    ctx.op? o = some op) (fun t ih ht h => ?_) t
  rw [t.preorder_eq, List.mem_cons, List.mem_flatMap] at h
  rcases h with h | ⟨c, hc, h⟩
  · obtain ⟨rfl, rfl⟩ := Prod.mk.inj h
    exact ht.op?_id
  · exact ih c hc (ht.child hc).1 h

theorem block_of_mem (ht : t.HeldBy ctx) {b : BlockTree} (h : b ∈ t.blocks) :
    ∃ block, ctx.block? b.id = some block ∧ block.args = b.argIds := by
  obtain ⟨id, op, regions⟩ := t
  rw [OpTree.blocks_node, List.mem_flatMap] at h
  obtain ⟨r, hr, h⟩ := h
  obtain ⟨hblk, hargs, -, -, -⟩ := (ht.region hr).block h
  exact ⟨_, hblk, hargs⟩

theorem results_nodup (hl : ctx.Linked) (hv : ctx.Typed) (ht : t.HeldBy ctx) :
    (t.preorder.flatMap (·.2.results)).Nodup := by
  refine List.nodup_flatMap.mpr ⟨fun o ho => hv.results_nodup (ht.op?_of_mem_preorder ho), ?_⟩
  refine (List.pairwise_map.mp (ht.opIds_nodup hl)).imp_of_mem ?_
  intro o p ho hp hne v hvo hvp
  obtain ⟨i, ty, hi⟩ := hv.results_origin (ht.op?_of_mem_preorder ho) hvo
  obtain ⟨j, ty', hj⟩ := hv.results_origin (ht.op?_of_mem_preorder hp) hvp
  rw [hi, Option.some_inj, Value.mk.injEq, Origin.result.injEq] at hj
  exact hne hj.1.1

theorem args_nodup (hl : ctx.Linked) (hv : ctx.Typed) (ht : t.HeldBy ctx) :
    (t.blocks.flatMap BlockTree.argIds).Nodup := by
  refine List.nodup_flatMap.mpr ⟨fun b hb => ?_, ?_⟩
  · obtain ⟨block, hblk, hargs⟩ := ht.block_of_mem hb
    exact hargs ▸ hv.args_nodup hblk
  · refine (List.pairwise_map.mp (ht.blocks_nodup hl)).imp_of_mem ?_
    intro b c hb hc hne v hvb hvc
    obtain ⟨block, hblk, hargs⟩ := ht.block_of_mem hb
    obtain ⟨block', hblk', hargs'⟩ := ht.block_of_mem hc
    obtain ⟨i, ty, hi⟩ := hv.args_origin hblk (hargs ▸ hvb)
    obtain ⟨j, ty', hj⟩ := hv.args_origin hblk' (hargs' ▸ hvc)
    rw [hi, Option.some_inj, Value.mk.injEq, Origin.argument.injEq] at hj
    exact hne hj.1.1

/-- A value is defined in a tree once. -/
theorem values_nodup (hl : ctx.Linked) (hv : ctx.Typed) (ht : t.HeldBy ctx) : t.values.Nodup := by
  rw [t.values_perm.nodup_iff, List.nodup_append]
  refine ⟨ht.results_nodup hl hv, ht.args_nodup hl hv, ?_⟩
  rintro v hvo w hvb rfl
  obtain ⟨o, ho, hvo⟩ := List.mem_flatMap.mp hvo
  obtain ⟨b, hb, hvb⟩ := List.mem_flatMap.mp hvb
  obtain ⟨block, hblk, hargs⟩ := ht.block_of_mem hb
  obtain ⟨i, ty, hi⟩ := hv.results_origin (ht.op?_of_mem_preorder ho) hvo
  obtain ⟨j, ty', hj⟩ := hv.args_origin hblk (hargs ▸ hvb)
  rw [hi, Option.some_inj, Value.mk.injEq] at hj
  exact absurd hj.1 (by simp)

theorem labelled_nodup (hl : ctx.Linked) (ht : t.HeldBy ctx) : t.labelled.Nodup :=
  (ht.blocks_nodup hl).sublist t.labelled_sublist

end OpTree.HeldBy

end RegionIR
