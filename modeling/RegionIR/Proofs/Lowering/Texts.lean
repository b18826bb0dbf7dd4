import RegionIR.Proofs.Lowering.Recast
import RegionIR.Proofs.Source.Definitions
import RegionIR.Proofs.Source.Order

/-! The text of what is left of a tree.

Where operations keep their operands and results, nothing goes out of scope; other numbers change the
scopes along with what is looked up in them. Whether the text is read back is then a matter of the
operations and arguments that are left, for no region becomes an only block without anything in it. -/

namespace RegionIR

section Labels

variable {φ : BlockTree → BlockTree}

theorem RegionTree.isFlat_map (hargs : ∀ b, (φ b).args = [] ↔ b.args = []) (id : RegionId)
    (blocks : List BlockTree) :
    (RegionTree.node id (blocks.map φ)).isFlat = (RegionTree.node id blocks).isFlat := by
  have hflat (blocks : List BlockTree) :
      (RegionTree.node id blocks).isFlat ↔ ∃ b, blocks = [b] ∧ b.args = [] := by
    rw [RegionTree.isFlat_iff]
    constructor
    · rintro ⟨b, ops, rfl⟩
      exact ⟨_, rfl, rfl⟩
    · rintro ⟨⟨b, args, ops⟩, rfl, rfl⟩
      exact ⟨b, ops, rfl⟩
  rw [Bool.eq_iff_iff, hflat, hflat]
  cases blocks with
  | nil => simp
  | cons b blocks => cases blocks <;> simp [hargs]

theorem RegionTree.labels_map (hid : ∀ b, (φ b).id = b.id)
    (hargs : ∀ b, (φ b).args = [] ↔ b.args = []) (id : RegionId) (blocks : List BlockTree) :
    (RegionTree.node id (blocks.map φ)).labels = (RegionTree.node id blocks).labels := by
  simp only [RegionTree.labels, RegionTree.isFlat_map hargs, RegionTree.blocks, List.map_map,
    Function.comp_def, hid]

end Labels

section Scopes

variable {φ : OpTree → OpTree} {v : ValueId → ValueId} {visible : List ValueId}
  {labels : List BlockId}

/-- What keeps an operation in scope when values get other numbers. -/
def OpTree.StaysScoped (φ : OpTree → OpTree) (v : ValueId → ValueId) (t : OpTree) : Prop :=
  ∀ visible labels, t.isScoped visible labels → (φ t).isScoped (visible.map v) labels

theorem OpTree.areScoped_map {ops : List OpTree} (hops : ∀ t ∈ ops, t.StaysScoped φ v)
    (hresults : ∀ t ∈ ops, (φ t).op.results = t.op.results.map v)
    (h : OpTree.areScoped visible labels ops) :
    OpTree.areScoped (visible.map v) labels (ops.map φ) := by
  induction ops generalizing visible with
  | nil => rfl
  | cons t ops ih =>
    rw [List.forall_mem_cons] at hops hresults
    rw [OpTree.areScoped, Bool.and_eq_true] at h
    rw [List.map_cons, OpTree.areScoped, Bool.and_eq_true, hresults.1, ← List.map_append]
    exact ⟨hops.1 _ _ h.1, ih hops.2 hresults.2 h.2⟩

theorem BlockTree.areScoped_map {g : Ty → Ty} {blocks : List BlockTree}
    (hops : ∀ b ∈ blocks, ∀ t ∈ b.ops, t.StaysScoped φ v)
    (hresults : ∀ b ∈ blocks, ∀ t ∈ b.ops, (φ t).op.results = t.op.results.map v)
    (h : BlockTree.areScoped visible labels blocks) :
    BlockTree.areScoped (visible.map v) labels (blocks.map fun b =>
      .node b.id (b.args.map fun a => (v a.1, g a.2)) (b.ops.map φ)) := by
  induction blocks generalizing visible with
  | nil => rfl
  | cons b blocks ih =>
    obtain ⟨id, args, ops⟩ := b
    rw [List.forall_mem_cons] at hops hresults
    rw [BlockTree.areScoped, Bool.and_eq_true] at h
    have hargs : visible.map v ++ (args.map fun a => (v a.1, g a.2)).map Prod.fst =
        (visible ++ args.map Prod.fst).map v := by simp
    have hvals : (ops.map φ).flatMap (·.op.results) = (ops.flatMap (·.op.results)).map v := by
      rw [List.flatMap_map, List.map_flatMap]
      exact List.flatMap_congr hresults.1
    rw [List.map_cons, BlockTree.areScoped, Bool.and_eq_true]
    simp only [BlockTree.args, BlockTree.ops, hargs, hvals, ← List.map_append]
    exact ⟨OpTree.areScoped_map hops.1 hresults.1 h.1, ih hops.2 hresults.2 h.2⟩

theorem RegionTree.areScoped_map {φ : RegionTree → RegionTree} {regions : List RegionTree}
    (hregions : ∀ r ∈ regions, r.isScoped visible → (φ r).isScoped (visible.map v))
    (h : RegionTree.areScoped visible regions) :
    RegionTree.areScoped (visible.map v) (regions.map φ) := by
  induction regions with
  | nil => rfl
  | cons r regions ih =>
    rw [List.forall_mem_cons] at hregions
    rw [RegionTree.areScoped, Bool.and_eq_true] at h
    rw [List.map_cons, RegionTree.areScoped, Bool.and_eq_true]
    exact ⟨hregions.1 h.1, ih hregions.2 h.2⟩

end Scopes

namespace RegionTree

section Rename

variable {i : OpId → OpId} {v : ValueId → ValueId} {visible : List ValueId}

theorem isScoped_rename {t : RegionTree} (h : t.isScoped visible) :
    (t.rename i v).isScoped (visible.map v) := by
  revert h
  refine RegionTree.forall_of (P := OpTree.StaysScoped (OpTree.rename i v) v)
    (Q := fun t => ∀ visible, t.isScoped visible → (t.rename i v).isScoped (visible.map v))
    (R := fun b => ∀ u ∈ b.ops, u.StaysScoped (OpTree.rename i v) v) ?_ ?_ (fun _ _ _ ih => ih) t
    visible
  · intro id op regions ih visible labels h
    rw [OpTree.isScoped, Bool.and_eq_true, Bool.and_eq_true] at h
    obtain ⟨⟨hoperands, hsuccessors⟩, hregions⟩ := h
    rw [OpTree.rename_node, OpTree.isScoped, Bool.and_eq_true, Bool.and_eq_true]
    refine ⟨⟨?_, hsuccessors⟩, RegionTree.areScoped_map (fun r hr => ih r hr visible) hregions⟩
    simp only [List.all_eq_true, decide_eq_true_eq, Op.rename, List.forall_mem_map] at hoperands ⊢
    exact fun x hx => List.mem_map_of_mem (hoperands x hx)
  · intro id blocks ih visible h
    have hblocks : blocks.map (BlockTree.rename i v) = blocks.map fun b =>
        .node b.id (b.args.map fun a => (v a.1, a.2)) (b.ops.map (OpTree.rename i v)) :=
      List.map_congr_left fun b _ => by cases b; simp [BlockTree.id, BlockTree.args, BlockTree.ops]
    have hlabels : (RegionTree.node id (blocks.map (BlockTree.rename i v))).labels =
        (RegionTree.node id blocks).labels :=
      labels_map (fun b => by cases b; simp [BlockTree.id])
        (fun b => by cases b; simp [BlockTree.args]) id blocks
    rw [RegionTree.isScoped] at h
    rw [RegionTree.rename_node, RegionTree.isScoped, hlabels, hblocks]
    refine BlockTree.areScoped_map (g := fun ty => ty) ih (fun b _ t _ => ?_) h
    cases t
    simp [OpTree.op, Op.rename]

end Rename

end RegionTree

/-- The operation mentions and defines what another one does, but for successors. -/
structure Op.Narrows (op' op : Op) : Prop where
  operands : op'.operands = op.operands
  results : op'.results = op.results
  successors : op'.successors ⊆ op.successors

namespace RegionTree

section Recast

variable {f : OpId → Op → Op} {g : Ty → Ty} {visible : List ValueId}

theorem isScoped_recast {t : RegionTree} (hf : ∀ o ∈ t.preorder, (f o.1 o.2).Narrows o.2)
    (h : t.isScoped visible) : (t.recast f g).isScoped visible := by
  suffices hmap : ∀ visible, (∀ o ∈ t.preorder, (f o.1 o.2).Narrows o.2) → t.isScoped visible →
      (t.recast f g).isScoped (visible.map fun x => x) by
    have hscoped := hmap visible hf h
    rwa [List.map_id'] at hscoped
  refine RegionTree.forall_of
    (P := fun t => (∀ o ∈ t.preorder, (f o.1 o.2).Narrows o.2) → t.StaysScoped (OpTree.recast f g) fun x => x)
    (Q := fun t => ∀ visible, (∀ o ∈ t.preorder, (f o.1 o.2).Narrows o.2) → t.isScoped visible →
      (t.recast f g).isScoped (visible.map fun x => x))
    (R := fun b => (∀ o ∈ b.preorder, (f o.1 o.2).Narrows o.2) →
      ∀ u ∈ b.ops, u.StaysScoped (OpTree.recast f g) fun x => x) ?_ ?_ ?_ t
  · intro id op regions ih hf visible labels h
    simp only [OpTree.preorder_node, List.forall_mem_cons, List.forall_mem_flatMap] at hf
    rw [OpTree.isScoped, Bool.and_eq_true, Bool.and_eq_true] at h
    obtain ⟨⟨hoperands, hsuccessors⟩, hregions⟩ := h
    rw [OpTree.recast_node, OpTree.isScoped, Bool.and_eq_true, Bool.and_eq_true]
    refine ⟨⟨?_, ?_⟩, ?_⟩
    · rwa [hf.1.operands, List.map_id']
    · simp only [List.all_eq_true, decide_eq_true_eq] at hsuccessors ⊢
      exact fun b hb => hsuccessors b (hf.1.successors hb)
    · split
      · rfl
      · exact RegionTree.areScoped_map (fun r hr => ih r hr visible (hf.2 r hr)) hregions
  · intro id blocks ih visible hf h
    simp only [RegionTree.preorder_node, List.forall_mem_flatMap] at hf
    have hblocks : blocks.map (BlockTree.recast f g) = blocks.map fun b =>
        .node b.id (b.args.map fun a => (a.1, g a.2)) (b.ops.map (OpTree.recast f g)) :=
      List.map_congr_left fun b _ => by cases b; simp [BlockTree.id, BlockTree.args, BlockTree.ops]
    have hlabels : (RegionTree.node id (blocks.map (BlockTree.recast f g))).labels =
        (RegionTree.node id blocks).labels :=
      labels_map (fun b => by cases b; simp [BlockTree.id])
        (fun b => by cases b; simp [BlockTree.args]) id blocks
    rw [RegionTree.isScoped] at h
    rw [RegionTree.recast_node, RegionTree.isScoped, hlabels, hblocks]
    refine BlockTree.areScoped_map (fun b hb => ih b hb (hf b hb)) (fun b hb t ht => ?_) h
    have hmem : (t.id, t.op) ∈ b.preorder := by
      obtain ⟨bid, args, ops⟩ := b
      rw [BlockTree.preorder_node]
      exact List.mem_flatMap.mpr ⟨t, ht, t.preorder_eq ▸ List.mem_cons_self⟩
    rw [List.map_id']
    cases t
    simpa [OpTree.op, OpTree.id] using (hf b hb _ hmem).results
  · intro id args ops ih hf u hu
    simp only [BlockTree.preorder_node, List.forall_mem_flatMap] at hf
    exact ih u hu (hf u hu)

end Recast

end RegionTree

section Operands

variable {all visible : List ValueId} {labels : List BlockId}

/-- Whatever an operation uses is among the values that are visible or defined in it. -/
def OpTree.UsesOf (all : List ValueId) (t : OpTree) : Prop :=
  ∀ visible labels, t.isScoped visible labels → visible ⊆ all → t.values ⊆ all →
    ∀ o ∈ t.preorder, o.2.operands ⊆ all

theorem OpTree.usesOf_areScoped {ops : List OpTree} (hops : ∀ t ∈ ops, t.UsesOf all)
    (h : OpTree.areScoped visible labels ops) (hvisible : visible ⊆ all)
    (hvalues : OpTree.valuesOfAll ops ⊆ all) :
    ∀ t ∈ ops, ∀ o ∈ t.preorder, o.2.operands ⊆ all := by
  induction ops generalizing visible with
  | nil => simp
  | cons t ops ih =>
    rw [List.forall_mem_cons] at hops ⊢
    rw [OpTree.areScoped, Bool.and_eq_true] at h
    rw [OpTree.valuesOfAll, List.append_subset] at hvalues
    refine ⟨hops.1 _ _ h.1 hvisible hvalues.1, ih hops.2 h.2 ?_ hvalues.2⟩
    exact List.append_subset.mpr
      ⟨hvisible, fun x hx => hvalues.1 (OpTree.mem_values_of_result hx)⟩

theorem BlockTree.usesOf_areScoped {blocks : List BlockTree}
    (hops : ∀ b ∈ blocks, ∀ t ∈ b.ops, t.UsesOf all)
    (h : BlockTree.areScoped visible labels blocks) (hvisible : visible ⊆ all)
    (hvalues : BlockTree.valuesOfAll blocks ⊆ all) :
    ∀ b ∈ blocks, ∀ o ∈ b.preorder, o.2.operands ⊆ all := by
  induction blocks generalizing visible with
  | nil => simp
  | cons b blocks ih =>
    rw [List.forall_mem_cons] at hops ⊢
    rw [BlockTree.valuesOfAll, List.append_subset] at hvalues
    have hargs : visible ++ b.args.map Prod.fst ⊆ all := List.append_subset.mpr
      ⟨hvisible, fun x hx => hvalues.1 (BlockTree.mem_values_of_arg hx)⟩
    have hresults : b.ops.flatMap (·.op.results) ⊆ all :=
      fun x hx => hvalues.1 (BlockTree.mem_values_of_result hx)
    obtain ⟨id, args, ops⟩ := b
    rw [BlockTree.areScoped, Bool.and_eq_true] at h
    rw [BlockTree.values, List.append_subset] at hvalues
    refine ⟨?_, ih hops.2 h.2 (List.append_subset.mpr ⟨hargs, hresults⟩) hvalues.2⟩
    rw [BlockTree.preorder_node, List.forall_mem_flatMap]
    exact OpTree.usesOf_areScoped hops.1 h.1 hargs hvalues.1.2

theorem RegionTree.usesOf_areScoped {regions : List RegionTree}
    (hregions : ∀ r ∈ regions, ∀ visible, r.isScoped visible → visible ⊆ all → r.values ⊆ all →
      ∀ o ∈ r.preorder, o.2.operands ⊆ all)
    (h : RegionTree.areScoped visible regions) (hvisible : visible ⊆ all)
    (hvalues : RegionTree.valuesOfAll regions ⊆ all) :
    ∀ r ∈ regions, ∀ o ∈ r.preorder, o.2.operands ⊆ all := by
  induction regions with
  | nil => simp
  | cons r regions ih =>
    rw [List.forall_mem_cons] at hregions ⊢
    rw [RegionTree.areScoped, Bool.and_eq_true] at h
    rw [RegionTree.valuesOfAll, List.append_subset] at hvalues
    exact ⟨hregions.1 _ h.1 hvisible hvalues.1, ih hregions.2 h.2 hvalues.2⟩

/-- What operations in a scoped region use is visible from outside or defined in the region. -/
theorem RegionTree.usesOf_isScoped {t : RegionTree} (h : t.isScoped visible)
    (hvisible : visible ⊆ all) (hvalues : t.values ⊆ all) :
    ∀ o ∈ t.preorder, o.2.operands ⊆ all := by
  refine RegionTree.forall_of (P := OpTree.UsesOf all)
    (Q := fun t => ∀ visible, t.isScoped visible → visible ⊆ all → t.values ⊆ all →
      ∀ o ∈ t.preorder, o.2.operands ⊆ all)
    (R := fun b => ∀ u ∈ b.ops, u.UsesOf all) ?_ ?_ (fun _ _ _ ih => ih) t visible h hvisible hvalues
  · intro id op regions ih visible labels h hvisible hvalues
    rw [OpTree.isScoped, Bool.and_eq_true, Bool.and_eq_true] at h
    obtain ⟨⟨hoperands, -⟩, hregions⟩ := h
    rw [OpTree.values, List.append_subset] at hvalues
    rw [OpTree.preorder_node, List.forall_mem_cons, List.forall_mem_flatMap]
    refine ⟨fun x hx => hvisible ?_, usesOf_areScoped ih hregions hvisible hvalues.2⟩
    exact of_decide_eq_true (List.all_eq_true.mp hoperands x hx)
  · intro id blocks ih visible h hvisible hvalues
    rw [RegionTree.isScoped] at h
    rw [RegionTree.values] at hvalues
    rw [RegionTree.preorder_node, List.forall_mem_flatMap]
    exact BlockTree.usesOf_areScoped ih h hvisible hvalues

theorem RegionTree.operands_subset {t : RegionTree} (h : t.isScoped []) :
    ∀ o ∈ t.preorder, o.2.operands ⊆ Context.definedValues t := by
  refine RegionTree.usesOf_isScoped h (List.nil_subset _) fun x hx => ?_
  rw [t.perm_results_args.mem_iff, List.mem_append] at hx
  exact List.mem_append.mpr hx.symm

end Operands

section Readable

/-- Whether no region becomes an only block without anything in it does not depend on data. -/
theorem RegionTree.bare_map {φ : BlockTree → BlockTree} (hargs : ∀ b, (φ b).args = [] ↔ b.args = [])
    (hops : ∀ b, (φ b).ops = [] ↔ b.ops = []) {blocks : List BlockTree} :
    (∀ b, blocks.map φ ≠ [.node b [] []]) ↔ ∀ b, blocks ≠ [.node b [] []] := by
  have hbare (blocks : List BlockTree) : (∃ id, blocks = [.node id [] []]) ↔
      ∃ b, blocks = [b] ∧ b.args = [] ∧ b.ops = [] := by
    constructor
    · rintro ⟨id, rfl⟩
      exact ⟨_, rfl, rfl, rfl⟩
    · rintro ⟨⟨id, args, ops⟩, rfl, rfl, rfl⟩
      exact ⟨id, rfl⟩
  have hiff : (∃ id, blocks.map φ = [.node id [] []]) ↔ ∃ id, blocks = [.node id [] []] := by
    rw [hbare, hbare]
    cases blocks with
    | nil => simp
    | cons b blocks => cases blocks <;> simp [hargs, hops]
  simpa using not_congr hiff

variable {i : OpId → OpId} {v : ValueId → ValueId} {f : OpId → Op → Op} {g : Ty → Ty}

theorem RegionTree.isReadable_rename_iff {t : RegionTree} :
    (t.rename i v).isReadable ↔ t.isReadable := by
  refine RegionTree.forall_of (P := fun t => (t.rename i v).isReadable ↔ t.isReadable)
    (Q := fun t => (t.rename i v).isReadable ↔ t.isReadable)
    (R := fun b => (b.rename i v).isReadable ↔ b.isReadable) ?_ ?_ ?_ t
  · intro id op regions ih
    rw [OpTree.rename_node, OpTree.isReadable_iff, OpTree.isReadable_iff, List.forall_mem_map]
    exact and_congr Iff.rfl (forall₂_congr ih)
  · intro id blocks ih
    rw [RegionTree.rename_node, RegionTree.isReadable_iff, RegionTree.isReadable_iff,
      List.forall_mem_map, RegionTree.bare_map (fun b => by cases b; simp [BlockTree.args])
        fun b => by cases b; simp [BlockTree.ops]]
    exact and_congr_right fun _ => forall₂_congr ih
  · intro id args ops ih
    rw [BlockTree.rename_node, BlockTree.isReadable_iff, BlockTree.isReadable_iff,
      List.forall_mem_map, List.forall_mem_map]
    exact and_congr_right fun _ => forall₂_congr ih

/-- All operations and all types of arguments are readable. -/
def OpsReadable (ops : List (OpId × Op)) (blocks : List BlockTree) : Prop :=
  (∀ o ∈ ops, o.2.isReadable) ∧ ∀ b ∈ blocks, ∀ a ∈ b.args, a.2.isReadable

theorem RegionTree.opsReadable {t : RegionTree} (ht : t.isReadable) :
    OpsReadable t.preorder t.allBlocks := by
  revert ht
  refine RegionTree.forall_of (P := fun t => t.isReadable → OpsReadable t.preorder t.blocks)
    (Q := fun t => t.isReadable → OpsReadable t.preorder t.allBlocks)
    (R := fun t => t.isReadable → OpsReadable t.preorder (t :: t.nested)) ?_ ?_ ?_ t
  · intro id op regions ih h
    obtain ⟨hop, hregions⟩ := OpTree.isReadable_iff.mp h
    have hall (r : RegionTree) (hr : r ∈ regions) := ih r hr (hregions r hr)
    rw [OpsReadable, OpTree.preorder_node, OpTree.blocks_node, List.forall_mem_cons,
      List.forall_mem_flatMap, List.forall_mem_flatMap]
    exact ⟨⟨hop, fun r hr => (hall r hr).1⟩, fun r hr => (hall r hr).2⟩
  · intro id blocks ih h
    obtain ⟨-, hblocks⟩ := RegionTree.isReadable_iff.mp h
    have hall (b : BlockTree) (hb : b ∈ blocks) := ih b hb (hblocks b hb)
    simp only [OpsReadable, List.forall_mem_cons] at hall
    rw [OpsReadable, RegionTree.preorder_node, RegionTree.allBlocks_node, List.forall_mem_flatMap,
      List.forall_mem_append, List.forall_mem_flatMap]
    exact ⟨fun b hb => (hall b hb).1, fun b hb => (hall b hb).2.1, fun b hb => (hall b hb).2.2⟩
  · intro id args ops ih h
    obtain ⟨hargs, hops⟩ := BlockTree.isReadable_iff.mp h
    have hall (u : OpTree) (hu : u ∈ ops) := ih u hu (hops u hu)
    rw [OpsReadable, BlockTree.preorder_node, BlockTree.nested_node, List.forall_mem_flatMap,
      List.forall_mem_cons, List.forall_mem_flatMap]
    exact ⟨fun u hu => (hall u hu).1, hargs, fun u hu => (hall u hu).2⟩

theorem RegionTree.isReadable_recast {t : RegionTree} (ht : t.isReadable)
    (h : OpsReadable (t.recast f g).preorder (t.recast f g).allBlocks) :
    (t.recast f g).isReadable := by
  revert ht h
  refine RegionTree.forall_of
    (P := fun t => t.isReadable → OpsReadable (t.recast f g).preorder (t.recast f g).blocks →
      (t.recast f g).isReadable)
    (Q := fun t => t.isReadable → OpsReadable (t.recast f g).preorder (t.recast f g).allBlocks →
      (t.recast f g).isReadable)
    (R := fun t => t.isReadable →
      OpsReadable (t.recast f g).preorder (t.recast f g :: (t.recast f g).nested) →
      (t.recast f g).isReadable) ?_ ?_ ?_ t
  · intro id op regions ih ht h
    obtain ⟨-, hregions⟩ := OpTree.isReadable_iff.mp ht
    rw [OpTree.recast_node, OpsReadable, OpTree.preorder_node, OpTree.blocks_node,
      List.forall_mem_cons, List.forall_mem_flatMap, List.forall_mem_flatMap] at h
    rw [OpTree.recast_node, OpTree.isReadable_iff]
    refine ⟨h.1.1, fun r' hr' => ?_⟩
    have hr := And.intro (h.1.2 r' hr') (h.2 r' hr')
    split at hr'
    · exact absurd hr' List.not_mem_nil
    · obtain ⟨r, hmem, rfl⟩ := List.mem_map.mp hr'
      exact ih r hmem (hregions r hmem) hr
  · intro id blocks ih ht h
    obtain ⟨hbare, hblocks⟩ := RegionTree.isReadable_iff.mp ht
    rw [RegionTree.recast_node, OpsReadable, RegionTree.preorder_node, RegionTree.allBlocks_node,
      List.forall_mem_flatMap, List.forall_mem_append, List.forall_mem_flatMap] at h
    rw [RegionTree.recast_node, RegionTree.isReadable_iff,
      RegionTree.bare_map (fun b => by cases b; simp [BlockTree.args])
        fun b => by cases b; simp [BlockTree.ops]]
    refine ⟨hbare, fun b' hb' => ?_⟩
    have hb := And.intro (h.1 b' hb') (List.forall_mem_cons.mpr ⟨h.2.1 b' hb', h.2.2 b' hb'⟩)
    obtain ⟨b, hmem, rfl⟩ := List.mem_map.mp hb'
    exact ih b hmem (hblocks b hmem) hb
  · intro id args ops ih ht h
    obtain ⟨-, hops⟩ := BlockTree.isReadable_iff.mp ht
    rw [BlockTree.recast_node, OpsReadable, BlockTree.preorder_node, BlockTree.nested_node,
      List.forall_mem_flatMap, List.forall_mem_cons, List.forall_mem_flatMap] at h
    rw [BlockTree.recast_node, BlockTree.isReadable_iff]
    refine ⟨h.2.1, fun u' hu' => ?_⟩
    have hu := And.intro (h.1 u' hu') (h.2.2 u' hu')
    obtain ⟨u, hmem, rfl⟩ := List.mem_map.mp hu'
    exact ih u hmem (hops u hmem) hu

end Readable

end RegionIR
