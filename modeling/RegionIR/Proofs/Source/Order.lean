import RegionIR.Proofs.Source.Validity

/-! In a parsed program nothing is used before it is defined.

A text names values that came before or that are arguments. So when the operations of a region are
taken in preorder each uses arguments of its blocks and results of operations before it only. -/

namespace RegionIR

/-- Each operation uses values that were seen before, or results of operations before it. -/
def Ordered (seen : List ValueId) : List (OpId × Op) → Prop
  | [] => True
  | o :: rest => o.2.operands ⊆ seen ∧ Ordered (seen ++ o.2.results) rest

instance decidableOrdered : (seen : List ValueId) → (l : List (OpId × Op)) →
    Decidable (Ordered seen l)
  | _, [] => .isTrue trivial
  | seen, o :: rest =>
    have := decidableOrdered (seen ++ o.2.results) rest
    inferInstanceAs (Decidable (o.2.operands ⊆ seen ∧ Ordered (seen ++ o.2.results) rest))

namespace Ordered

variable {seen : List ValueId} {l l' : List (OpId × Op)}

theorem append (h : Ordered seen l) (h' : Ordered (seen ++ l.flatMap (·.2.results)) l') :
    Ordered seen (l ++ l') := by
  induction l generalizing seen with
  | nil => simpa using h'
  | cons o l ih =>
    refine ⟨h.1, ih h.2 ?_⟩
    rwa [List.flatMap_cons, ← List.append_assoc] at h'

theorem operand {o : OpId × Op} (h : Ordered seen (l ++ o :: l')) {v : ValueId}
    (hv : v ∈ o.2.operands) : v ∈ seen ∨ ∃ p ∈ l, v ∈ p.2.results := by
  induction l generalizing seen with
  | nil => exact .inl (h.1 hv)
  | cons p l ih =>
    rcases ih h.2 with hs | ⟨q, hq, hv⟩
    · rcases List.mem_append.mp hs with hs | hs
      · exact .inl hs
      · exact .inr ⟨p, List.mem_cons_self, hs⟩
    · exact .inr ⟨q, List.mem_cons_of_mem _ hq, hv⟩

end Ordered

/-- The arguments of all blocks of a region. -/
def RegionTree.arguments (t : RegionTree) : List ValueId :=
  t.allBlocks.flatMap fun b => b.args.map Prod.fst

/-- In preorder nothing in the region is used before it is defined. -/
def RegionTree.InOrder (t : RegionTree) : Prop :=
  Ordered t.arguments t.preorder

instance (t : RegionTree) : Decidable t.InOrder :=
  inferInstanceAs (Decidable (Ordered t.arguments t.preorder))

theorem OpTree.mem_results_preorder {t : OpTree} {v : ValueId} (hv : v ∈ t.op.results) :
    v ∈ t.preorder.flatMap (·.2.results) := by
  rw [t.preorder_eq, List.flatMap_cons]
  exact List.mem_append_left _ hv

/-- Whenever the values of the scope and all arguments in the tree were seen, the tree is in
order. -/
def SourceOp.Orders (s : SourceOp) : Prop :=
  ∀ ⦃scope t seen⦄, s.Means scope t → scope.values.map Prod.snd ⊆ seen →
    (t.blocks.flatMap fun b => b.args.map Prod.fst) ⊆ seen → Ordered seen t.preorder

section Layers

variable {scope : Scope} {seen : List ValueId}

theorem ordered_ops {ops : List SourceOp} (hops : ∀ s ∈ ops, s.Orders) {ts : List OpTree}
    (hmeans : SourceOp.AllMean scope ops ts) (hscope : scope.values.map Prod.snd ⊆ seen)
    (hargs : ((ts.flatMap OpTree.blocks).flatMap fun b => b.args.map Prod.fst) ⊆ seen) :
    Ordered seen (ts.flatMap OpTree.preorder) := by
  induction ops generalizing scope ts seen with
  | nil =>
    cases ts with
    | nil => trivial
    | cons t ts => exact hmeans.elim
  | cons s ops ih =>
    cases ts with
    | nil => exact hmeans.elim
    | cons t ts =>
      rw [List.forall_mem_cons] at hops
      rw [List.flatMap_cons, List.flatMap_append, List.append_subset] at hargs
      rw [List.flatMap_cons]
      refine (hops.1 hmeans.1 hscope hargs.1).append (ih hops.2 hmeans.2 (fun v hv => ?_)
        fun v hv => List.mem_append_left _ (hargs.2 hv))
      rcases Scope.mem_define hv with hv | hv
      · exact List.mem_append_right _ (OpTree.mem_results_preorder hv)
      · exact List.mem_append_left _ (hscope hv)

theorem ordered_blocks {blocks : List SourceBlock} (hblocks : ∀ b ∈ blocks, ∀ s ∈ b.ops, s.Orders)
    {ts : List BlockTree} (hmeans : SourceBlock.AllMean scope blocks ts)
    (hscope : scope.values.map Prod.snd ⊆ seen)
    (hargs : ((ts.flatMap BlockTree.nested).flatMap fun b => b.args.map Prod.fst) ⊆ seen) :
    Ordered seen (ts.flatMap BlockTree.preorder) := by
  induction blocks generalizing scope ts seen with
  | nil =>
    cases ts with
    | nil => trivial
    | cons t ts => exact hmeans.elim
  | cons b blocks ih =>
    obtain ⟨label, args, ops⟩ := b
    cases ts with
    | nil => exact hmeans.elim
    | cons t ts =>
      obtain ⟨id, targs, trees⟩ := t
      obtain ⟨-, hops, hrest⟩ := hmeans
      rw [List.forall_mem_cons] at hblocks
      rw [List.flatMap_cons, BlockTree.nested_node, List.flatMap_append,
        List.append_subset] at hargs
      rw [List.flatMap_cons, BlockTree.preorder_node]
      refine (ordered_ops hblocks.1 hops hscope hargs.1).append (ih hblocks.2 hrest (fun v hv => ?_)
        fun v hv => List.mem_append_left _ (hargs.2 hv))
      rcases Scope.mem_after hv with hv | hv
      · obtain ⟨c, hc, hv⟩ := List.mem_flatMap.mp hv
        refine List.mem_append_right _ ?_
        rw [List.flatMap_assoc]
        exact List.mem_flatMap.mpr ⟨c, hc, OpTree.mem_results_preorder hv⟩
      · exact List.mem_append_left _ (hscope hv)

theorem ordered_region {blocks : List SourceBlock}
    (hblocks : ∀ b ∈ blocks, ∀ s ∈ b.ops, s.Orders) {t : RegionTree}
    (hmeans : (SourceRegion.mk blocks).Means scope t) (hscope : scope.values.map Prod.snd ⊆ seen)
    (hargs : t.arguments ⊆ seen) : Ordered seen t.preorder := by
  obtain ⟨id, ts⟩ := t
  rw [RegionTree.arguments, RegionTree.allBlocks_node, List.flatMap_append,
    List.append_subset] at hargs
  rw [RegionTree.preorder_node]
  refine ordered_blocks hblocks hmeans (fun v hv => ?_) hargs.2
  rcases Scope.mem_enter hv with hv | hv
  · refine hargs.1 ?_
    simpa [List.flatMap_map] using hv
  · exact hscope hv

theorem ordered_regions {regions : List SourceRegion}
    (hregions : ∀ r ∈ regions, ∀ ⦃scope t seen⦄, r.Means scope t →
      scope.values.map Prod.snd ⊆ seen → t.arguments ⊆ seen → Ordered seen t.preorder)
    {ts : List RegionTree} (hmeans : SourceRegion.AllMean scope regions ts)
    (hscope : scope.values.map Prod.snd ⊆ seen) (hargs : ∀ t ∈ ts, t.arguments ⊆ seen) :
    Ordered seen (ts.flatMap RegionTree.preorder) := by
  induction regions generalizing ts seen with
  | nil =>
    cases ts with
    | nil => trivial
    | cons t ts => exact hmeans.elim
  | cons r regions ih =>
    cases ts with
    | nil => exact hmeans.elim
    | cons t ts =>
      rw [List.forall_mem_cons] at hregions hargs
      rw [List.flatMap_cons]
      exact (hregions.1 hmeans.1 hscope hargs.1).append (ih hregions.2 hmeans.2
        (fun v hv => List.mem_append_left _ (hscope hv))
        fun t ht v hv => List.mem_append_left _ (hargs.2 t ht hv))

end Layers

theorem SourceOp.orders (s : SourceOp) : s.Orders := by
  refine SourceOp.forall_of (P := SourceOp.Orders)
    (Q := fun r => ∀ ⦃scope t seen⦄, r.Means scope t → scope.values.map Prod.snd ⊆ seen →
      t.arguments ⊆ seen → Ordered seen t.preorder)
    (R := fun b => ∀ s ∈ b.ops, s.Orders) ?_ ?_ (fun _ _ _ ih => ih) s
  · rintro h regions ih scope ⟨id, op, trees⟩ seen ⟨hhead, hregions⟩ hscope hargs
    rw [OpTree.blocks_node] at hargs
    rw [OpTree.preorder_node]
    constructor
    · exact fun v hv => hscope (Context.forall_mem_right_of_forall₂ hhead.operands
        (fun _ _ h => Scope.mem_of_lookup h) v hv)
    · refine ordered_regions ih hregions (fun v hv => List.mem_append_left _ (hscope hv))
        fun t ht v hv => List.mem_append_left _ (hargs ?_)
      rw [List.flatMap_assoc]
      exact List.mem_flatMap.mpr ⟨t, ht, hv⟩
  · intro blocks ih scope t seen hmeans hscope hargs
    exact ordered_region ih hmeans hscope hargs

theorem SourceRegion.exists_means_of_mem {scope : Scope} {regions : List SourceRegion}
    {ts : List RegionTree} (h : SourceRegion.AllMean scope regions ts) {t : RegionTree}
    (ht : t ∈ ts) : ∃ r ∈ regions, r.Means scope t := by
  induction regions generalizing ts with
  | nil =>
    cases ts with
    | nil => simp at ht
    | cons t ts => exact h.elim
  | cons r regions ih =>
    cases ts with
    | nil => exact h.elim
    | cons t' ts =>
      rcases List.mem_cons.mp ht with rfl | ht
      · exact ⟨r, List.mem_cons_self, h.1⟩
      · obtain ⟨r', hr', hm⟩ := ih h.2 ht
        exact ⟨r', List.mem_cons_of_mem _ hr', hm⟩

theorem Context.inOrder_of_parse {text : String} {id : OpId} {ctx : Context}
    (h : Context.parse {} text = (.ok id, ctx)) {tree : OpTree} (htree : tree.HeldBy ctx)
    (hid : tree.id = id) : ∀ r ∈ tree.regions, r.InOrder := by
  obtain ⟨source, scope, -, hgives⟩ := parse_eq_ok_iff.mp h
  obtain ⟨t, rfl, ht⟩ := Resolve.opBuilds source .empty hgives
  obtain rfl := ht.held.unique htree hid.symm
  have hmeans := ht.means
  obtain ⟨head, regions⟩ := source
  obtain ⟨id, op, trees⟩ := t
  intro r hr
  obtain ⟨⟨blocks⟩, -, hmean⟩ := SourceRegion.exists_means_of_mem hmeans.2 hr
  exact ordered_region (fun _ _ s _ => s.orders) hmean (List.nil_subset _) (List.Subset.refl _)

end RegionIR
