import RegionIR.Proofs.Source.Acceptance

/-! A tree that is written with different names for different values resolves.

Every operand is visible where it is mentioned, by the scoping of the tree, and no name is given
twice because no value is defined twice. -/

namespace RegionIR

variable {ν : ValueId → String} {β : BlockId → String}

@[simp] theorem OpTree.head_named (t : OpTree) : (t.named ν β).head = t.op.namedHead ν β := by
  cases t
  rfl

@[simp] theorem BlockTree.label_named (label : BlockId → String) (b : BlockTree) :
    (b.named ν β label).label = label b.id := by
  cases b
  rfl

@[simp] theorem BlockTree.argNames_named (label : BlockId → String) (b : BlockTree) :
    (b.named ν β label).argNames = b.argIds.map ν := by
  cases b
  simp [BlockTree.named, SourceBlock.argNames, SourceBlock.args, BlockTree.argIds, BlockTree.args]

/-- The values of the operations of a block. -/
def BlockTree.inner (b : BlockTree) : List ValueId := OpTree.valuesOfAll b.ops

theorem BlockTree.values_eq (b : BlockTree) : b.values = b.argIds ++ b.inner := by
  cases b
  rfl

theorem RegionTree.values_perm (r : RegionTree) :
    r.values.Perm (r.blocks.flatMap BlockTree.argIds ++ r.blocks.flatMap BlockTree.inner) := by
  obtain ⟨id, blocks⟩ := r
  rw [RegionTree.values, BlockTree.valuesOfAll_eq]
  exact perm_flatMap_append fun b _ => List.Perm.of_eq b.values_eq

/-- Every result of an operation has a type. -/
def OpTree.ResultsTyped (t : OpTree) : Prop :=
  ∀ o ∈ t.preorder, o.2.results.length = o.2.resultTypes.length

/-- The names that are given in a tree are new and different. -/
structure Fresh (ν : ValueId → String) (vs : List ValueId) (values : List String) : Prop where
  nodup : (vs.map ν).Nodup
  new : ∀ v ∈ vs, ν v ∉ values

namespace Fresh

variable {vs ws : List ValueId} {values : List String}

theorem perm (h : Fresh ν vs values) (hp : vs.Perm ws) : Fresh ν ws values :=
  ⟨(hp.map ν).nodup_iff.mp h.nodup, fun v hv => h.new v (hp.mem_iff.mpr hv)⟩

theorem left (h : Fresh ν (vs ++ ws) values) : Fresh ν vs values := by
  refine ⟨?_, fun v hv => h.new v (List.mem_append_left _ hv)⟩
  have hnd := h.nodup
  rw [List.map_append] at hnd
  exact hnd.of_append_left

theorem right (h : Fresh ν (vs ++ ws) values) {names : List String}
    (hnames : ∀ n ∈ names, n ∈ vs.map ν) : Fresh ν ws (names ++ values) := by
  have hnd := h.nodup
  rw [List.map_append, List.nodup_append] at hnd
  refine ⟨hnd.2.1, fun v hv hmem => ?_⟩
  rcases List.mem_append.mp hmem with hmem | hmem
  · exact hnd.2.2 _ (hnames _ hmem) _ (List.mem_map_of_mem hv) rfl
  · exact h.new v (List.mem_append_right _ hv) hmem

end Fresh

/-- Whether the tree resolves when it is written where what it may mention is visible and the names
that it gives are new. -/
def OpTree.Spelled (ν : ValueId → String) (β : BlockId → String) (t : OpTree) : Prop :=
  ∀ ⦃visible lbls values labels⦄, t.isScoped visible lbls → t.ResultsTyped →
    (∀ v ∈ visible, ν v ∈ values) → (∀ b ∈ lbls, β b ∈ labels) → Fresh ν t.values values →
    (t.labelled.map β).Nodup → (t.named ν β).Resolvable values labels

section Lists

variable {visible : List ValueId} {lbls : List BlockId} {values labels : List String}

theorem ops_spelled {ops : List OpTree} (hops : ∀ t ∈ ops, t.Spelled ν β)
    (hscoped : OpTree.areScoped visible lbls ops) (htyped : ∀ t ∈ ops, t.ResultsTyped)
    (hvisible : ∀ v ∈ visible, ν v ∈ values) (hlbls : ∀ b ∈ lbls, β b ∈ labels)
    (hfresh : Fresh ν (OpTree.valuesOfAll ops) values)
    (hlabels : ((OpTree.labelledOfAll ops).map β).Nodup) :
    SourceOp.AllResolvable values labels (OpTree.allNamed ν β ops) := by
  induction ops generalizing visible values with
  | nil => trivial
  | cons t ops ih =>
    rw [List.forall_mem_cons] at hops htyped
    rw [OpTree.areScoped, Bool.and_eq_true] at hscoped
    rw [OpTree.labelledOfAll, List.map_append] at hlabels
    refine ⟨hops.1 hscoped.1 htyped.1 hvisible hlbls hfresh.left hlabels.of_append_left, ?_⟩
    rw [OpTree.head_named]
    refine ih hops.2 hscoped.2 htyped.2 (fun v hv => ?_) ?_ hlabels.of_append_right
    · rcases List.mem_append.mp hv with hv | hv
      · exact List.mem_append_right _ (hvisible v hv)
      · exact List.mem_append_left _ (List.mem_map_of_mem hv)
    · refine hfresh.right fun n hn => ?_
      obtain ⟨v, hv, rfl⟩ := List.mem_map.mp hn
      exact List.mem_map_of_mem (OpTree.mem_values_of_result hv)

theorem blocks_spelled {label : BlockId → String} {blocks : List BlockTree}
    (hblocks : ∀ b ∈ blocks, ∀ t ∈ b.ops, t.Spelled ν β)
    (hscoped : BlockTree.areScoped visible lbls blocks)
    (htyped : ∀ b ∈ blocks, ∀ t ∈ b.ops, t.ResultsTyped)
    (hvisible : ∀ v ∈ visible, ν v ∈ values) (hlbls : ∀ b ∈ lbls, β b ∈ labels)
    (hargs : ∀ b ∈ blocks, ∀ v ∈ b.argIds, ν v ∈ values)
    (hfresh : Fresh ν (blocks.flatMap BlockTree.inner) values)
    (hlabels : ((BlockTree.labelledOfAll blocks).map β).Nodup) :
    SourceBlock.AllResolvable values labels (BlockTree.allNamed ν β label blocks) := by
  induction blocks generalizing visible values with
  | nil => trivial
  | cons b blocks ih =>
    obtain ⟨id, args, ops⟩ := b
    rw [List.forall_mem_cons] at hblocks htyped hargs
    rw [BlockTree.areScoped, Bool.and_eq_true] at hscoped
    rw [BlockTree.labelledOfAll, BlockTree.labelled, List.map_append] at hlabels
    rw [List.flatMap_cons] at hfresh
    have hvisible' : ∀ v ∈ visible ++ args.map Prod.fst, ν v ∈ values := fun v hv =>
      (List.mem_append.mp hv).elim (hvisible v) (hargs.1 v)
    have hresults : (OpTree.allNamed ν β ops).flatMap (·.head.results) =
        (ops.flatMap (·.op.results)).map ν := by
      simp [OpTree.allNamed_eq, List.flatMap_map, List.map_flatMap, Op.namedHead]
    refine ⟨ops_spelled hblocks.1 hscoped.1 htyped.1 hvisible' hlbls hfresh.left
      hlabels.of_append_left, ?_⟩
    rw [hresults]
    refine ih hblocks.2 hscoped.2 htyped.2 (fun v hv => ?_) (fun c hc v hv => ?_) ?_
      hlabels.of_append_right
    · rcases List.mem_append.mp hv with hv | hv
      · exact List.mem_append_right _ (hvisible' v hv)
      · exact List.mem_append_left _ (List.mem_map_of_mem hv)
    · exact List.mem_append_right _ (hargs.2 c hc v hv)
    · refine hfresh.right fun n hn => ?_
      obtain ⟨v, hv, rfl⟩ := List.mem_map.mp hn
      obtain ⟨t, ht, hv⟩ := List.mem_flatMap.mp hv
      refine List.mem_map_of_mem ?_
      rw [BlockTree.inner, OpTree.valuesOfAll_eq]
      exact List.mem_flatMap.mpr ⟨t, ht, OpTree.mem_values_of_result hv⟩

theorem region_spelled {r : RegionTree} (hr : ∀ b ∈ r.blocks, ∀ t ∈ b.ops, t.Spelled ν β)
    (hscoped : r.isScoped visible) (htyped : ∀ b ∈ r.blocks, ∀ t ∈ b.ops, t.ResultsTyped)
    (hvisible : ∀ v ∈ visible, ν v ∈ values) (hfresh : Fresh ν r.values values)
    (hlabels : (r.labelled.map β).Nodup) (labels : List String) :
    (r.named ν β).Resolvable values labels := by
  replace hfresh := hfresh.perm r.values_perm
  obtain ⟨id, blocks⟩ := r
  rw [RegionTree.isScoped] at hscoped
  rw [RegionTree.labelled, List.map_append] at hlabels
  simp only [RegionTree.blocks] at hr htyped hfresh
  rw [RegionTree.named]
  let label : BlockId → String :=
    if (RegionTree.node id blocks).isFlat then fun _ => SourceBlock.implicitLabel else β
  have hnames : (BlockTree.allNamed ν β label blocks).flatMap SourceBlock.argNames =
      (blocks.flatMap BlockTree.argIds).map ν := by
    simp [BlockTree.allNamed_eq, List.flatMap_map, List.map_flatMap]
  have hlabelled : (BlockTree.allNamed ν β label blocks).map SourceBlock.label =
      (blocks.map BlockTree.id).map label := by
    simp [BlockTree.allNamed_eq, Function.comp_def]
  have hdistinct : ((blocks.map BlockTree.id).map label).Nodup ∧
      ∀ b ∈ (RegionTree.node id blocks).labels, β b ∈ (blocks.map BlockTree.id).map label := by
    unfold label
    unfold RegionTree.labels at hlabels ⊢
    split
    · rename_i hflat
      obtain ⟨b, ops, rfl⟩ := RegionTree.isFlat_iff.mp hflat
      simp
    · rename_i hflat
      rw [if_neg hflat] at hlabels
      exact ⟨hlabels.of_append_left, fun b hb => List.mem_map_of_mem hb⟩
  refine ⟨?_, ?_, ?_, ?_⟩
  · rw [hlabelled]
    exact hdistinct.1
  · rw [hnames]
    exact hfresh.left.nodup
  · rw [hnames]
    intro n hn
    obtain ⟨v, hv, rfl⟩ := List.mem_map.mp hn
    exact hfresh.left.new v hv
  · rw [hnames, hlabelled]
    refine blocks_spelled hr hscoped htyped (fun v hv => List.mem_append_right _ (hvisible v hv))
      (fun b hb => List.mem_append_left _ (hdistinct.2 b hb)) (fun b hb v hv => ?_)
      (hfresh.right fun n hn => hn) hlabels.of_append_right
    exact List.mem_append_left _ (List.mem_map_of_mem (List.mem_flatMap.mpr ⟨b, hb, hv⟩))

theorem regions_spelled {regions : List RegionTree}
    (hrs : ∀ r ∈ regions, ∀ b ∈ r.blocks, ∀ t ∈ b.ops, t.Spelled ν β)
    (hscoped : RegionTree.areScoped visible regions)
    (htyped : ∀ r ∈ regions, ∀ b ∈ r.blocks, ∀ t ∈ b.ops, t.ResultsTyped)
    (hvisible : ∀ v ∈ visible, ν v ∈ values)
    (hfresh : Fresh ν (RegionTree.valuesOfAll regions) values)
    (hlabels : ((RegionTree.labelledOfAll regions).map β).Nodup) (labels : List String) :
    SourceRegion.AllResolvable values labels (RegionTree.allNamed ν β regions) := by
  induction regions with
  | nil => trivial
  | cons r regions ih =>
    rw [List.forall_mem_cons] at hrs htyped
    rw [RegionTree.areScoped, Bool.and_eq_true] at hscoped
    rw [RegionTree.labelledOfAll, List.map_append] at hlabels
    rw [RegionTree.valuesOfAll] at hfresh
    have hnext : Fresh ν (RegionTree.valuesOfAll regions) ([] ++ values) := hfresh.right (by simp)
    exact ⟨region_spelled hrs.1 hscoped.1 htyped.1 hvisible hfresh.left hlabels.of_append_left
      labels, ih hrs.2 hscoped.2 htyped.2 hnext hlabels.of_append_right⟩

end Lists

theorem OpTree.spelled (t : OpTree) : t.Spelled ν β := by
  refine OpTree.forall_of (P := OpTree.Spelled ν β) (Q := fun r => ∀ b ∈ r.blocks, ∀ t ∈ b.ops, t.Spelled ν β)
    (R := fun b => ∀ t ∈ b.ops, t.Spelled ν β) ?_ (fun _ _ ih => ih) (fun _ _ _ ih => ih) t
  intro id op regions ih visible lbls values labels hscoped htyped hvisible hlbls hfresh hlabels
  rw [OpTree.isScoped, Bool.and_eq_true, Bool.and_eq_true, List.all_eq_true, List.all_eq_true] at hscoped
  simp only [decide_eq_true_eq] at hscoped
  obtain ⟨⟨hoperands, hsuccessors⟩, hregions⟩ := hscoped
  have hinner : ∀ r ∈ regions, ∀ b ∈ r.blocks, ∀ t ∈ b.ops, t.ResultsTyped := by
    intro r hr b hb t ht o ho
    refine htyped o ?_
    rw [OpTree.preorder_eq]
    refine List.mem_cons_of_mem _ (List.mem_flatMap.mpr ⟨t, ?_, ho⟩)
    exact List.mem_flatMap.mpr ⟨r, hr, List.mem_flatMap.mpr ⟨b, hb, ht⟩⟩
  have hnested : Fresh ν (op.results ++ RegionTree.valuesOfAll regions) values := hfresh
  replace hnested : Fresh ν (RegionTree.valuesOfAll regions) ([] ++ values) :=
    hnested.right (by simp)
  refine ⟨?_, ?_, .inr ?_, hfresh.left.nodup, ?_, ?_⟩
  · intro n hn
    obtain ⟨v, hv, rfl⟩ := List.mem_map.mp hn
    exact hvisible v (hoperands v hv)
  · intro n hn
    obtain ⟨b, hb, rfl⟩ := List.mem_map.mp hn
    exact hlbls b (hsuccessors b hb)
  · have hlen := htyped (id, op) (by simp)
    simpa [Op.namedHead] using hlen
  · intro n hn
    obtain ⟨v, hv, rfl⟩ := List.mem_map.mp hn
    exact hfresh.left.new v hv
  · exact regions_spelled ih hregions hinner hvisible hnested hlabels labels

end RegionIR
