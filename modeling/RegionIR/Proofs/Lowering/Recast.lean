import RegionIR.Proofs.Lowering.Refinement

/-! Trees with other data, and trees with other numbers.

A recast tree has the same operations in the same places, each with new data; an operation whose
new data owns no region loses those that it had. A renamed tree has other numbers for operations
and values. What a lowering leaves in a region is a recast tree, renamed. -/

namespace RegionIR

mutual

/-- The tree with new data for operations and types of arguments. -/
def OpTree.recast (f : OpId → Op → Op) (g : Ty → Ty) : OpTree → OpTree
  | .node id op regions =>
    .node id (f id op) (if (f id op).regions = [] then [] else RegionTree.recastAll f g regions)

def RegionTree.recast (f : OpId → Op → Op) (g : Ty → Ty) : RegionTree → RegionTree
  | .node id blocks => .node id (BlockTree.recastAll f g blocks)

def BlockTree.recast (f : OpId → Op → Op) (g : Ty → Ty) : BlockTree → BlockTree
  | .node id args ops => .node id (args.map fun a => (a.1, g a.2)) (OpTree.recastAll f g ops)

def OpTree.recastAll (f : OpId → Op → Op) (g : Ty → Ty) : List OpTree → List OpTree
  | [] => []
  | t :: rest => t.recast f g :: OpTree.recastAll f g rest

def RegionTree.recastAll (f : OpId → Op → Op) (g : Ty → Ty) : List RegionTree → List RegionTree
  | [] => []
  | t :: rest => t.recast f g :: RegionTree.recastAll f g rest

def BlockTree.recastAll (f : OpId → Op → Op) (g : Ty → Ty) : List BlockTree → List BlockTree
  | [] => []
  | t :: rest => t.recast f g :: BlockTree.recastAll f g rest

end

mutual

/-- The tree with other numbers for operations and values. -/
def OpTree.rename (f : OpId → OpId) (g : ValueId → ValueId) : OpTree → OpTree
  | .node id op regions => .node (f id) (op.rename g) (RegionTree.renameAll f g regions)

def RegionTree.rename (f : OpId → OpId) (g : ValueId → ValueId) : RegionTree → RegionTree
  | .node id blocks => .node id (BlockTree.renameAll f g blocks)

def BlockTree.rename (f : OpId → OpId) (g : ValueId → ValueId) : BlockTree → BlockTree
  | .node id args ops => .node id (args.map fun a => (g a.1, a.2)) (OpTree.renameAll f g ops)

def OpTree.renameAll (f : OpId → OpId) (g : ValueId → ValueId) : List OpTree → List OpTree
  | [] => []
  | t :: rest => t.rename f g :: OpTree.renameAll f g rest

def RegionTree.renameAll (f : OpId → OpId) (g : ValueId → ValueId) :
    List RegionTree → List RegionTree
  | [] => []
  | t :: rest => t.rename f g :: RegionTree.renameAll f g rest

def BlockTree.renameAll (f : OpId → OpId) (g : ValueId → ValueId) : List BlockTree → List BlockTree
  | [] => []
  | t :: rest => t.rename f g :: BlockTree.renameAll f g rest

end

section Nodes

variable (f : OpId → Op → Op) (g : Ty → Ty) (i : OpId → OpId) (v : ValueId → ValueId)

theorem OpTree.recastAll_eq_map (l : List OpTree) : recastAll f g l = l.map (recast f g) := by
  induction l with
  | nil => rfl
  | cons t l ih => simp [recastAll, ih]

theorem RegionTree.recastAll_eq_map (l : List RegionTree) :
    recastAll f g l = l.map (recast f g) := by
  induction l with
  | nil => rfl
  | cons t l ih => simp [recastAll, ih]

theorem BlockTree.recastAll_eq_map (l : List BlockTree) :
    recastAll f g l = l.map (recast f g) := by
  induction l with
  | nil => rfl
  | cons t l ih => simp [recastAll, ih]

theorem OpTree.renameAll_eq_map (l : List OpTree) : renameAll i v l = l.map (rename i v) := by
  induction l with
  | nil => rfl
  | cons t l ih => simp [renameAll, ih]

theorem RegionTree.renameAll_eq_map (l : List RegionTree) :
    renameAll i v l = l.map (rename i v) := by
  induction l with
  | nil => rfl
  | cons t l ih => simp [renameAll, ih]

theorem BlockTree.renameAll_eq_map (l : List BlockTree) :
    renameAll i v l = l.map (rename i v) := by
  induction l with
  | nil => rfl
  | cons t l ih => simp [renameAll, ih]

@[simp] theorem OpTree.recast_node (id : OpId) (op : Op) (regions : List RegionTree) :
    (OpTree.node id op regions).recast f g = .node id (f id op)
      (if (f id op).regions = [] then [] else regions.map (RegionTree.recast f g)) := by
  rw [OpTree.recast, RegionTree.recastAll_eq_map]

@[simp] theorem RegionTree.recast_node (id : RegionId) (blocks : List BlockTree) :
    (RegionTree.node id blocks).recast f g = .node id (blocks.map (BlockTree.recast f g)) := by
  rw [RegionTree.recast, BlockTree.recastAll_eq_map]

@[simp] theorem BlockTree.recast_node (id : BlockId) (args : List (ValueId × Ty))
    (ops : List OpTree) : (BlockTree.node id args ops).recast f g =
      .node id (args.map fun a => (a.1, g a.2)) (ops.map (OpTree.recast f g)) := by
  rw [BlockTree.recast, OpTree.recastAll_eq_map]

@[simp] theorem OpTree.rename_node (id : OpId) (op : Op) (regions : List RegionTree) :
    (OpTree.node id op regions).rename i v =
      .node (i id) (op.rename v) (regions.map (RegionTree.rename i v)) := by
  rw [OpTree.rename, RegionTree.renameAll_eq_map]

@[simp] theorem RegionTree.rename_node (id : RegionId) (blocks : List BlockTree) :
    (RegionTree.node id blocks).rename i v = .node id (blocks.map (BlockTree.rename i v)) := by
  rw [RegionTree.rename, BlockTree.renameAll_eq_map]

@[simp] theorem BlockTree.rename_node (id : BlockId) (args : List (ValueId × Ty))
    (ops : List OpTree) : (BlockTree.node id args ops).rename i v =
      .node id (args.map fun a => (v a.1, a.2)) (ops.map (OpTree.rename i v)) := by
  rw [BlockTree.rename, OpTree.renameAll_eq_map]

end Nodes

section Preorder

variable {f f' : OpId → Op → Op} {g : Ty → Ty} {i : OpId → OpId} {v : ValueId → ValueId}

theorem RegionTree.preorder_rename (t : RegionTree) :
    (t.rename i v).preorder = t.preorder.map fun o => (i o.1, o.2.rename v) := by
  refine RegionTree.forall_of
    (P := fun t => (t.rename i v).preorder = t.preorder.map fun o => (i o.1, o.2.rename v))
    (Q := fun t => (t.rename i v).preorder = t.preorder.map fun o => (i o.1, o.2.rename v))
    (R := fun t => (t.rename i v).preorder = t.preorder.map fun o => (i o.1, o.2.rename v))
    ?_ ?_ ?_ t
  · intro id op regions ih
    simp only [OpTree.rename_node, OpTree.preorder_node, List.map_cons, List.map_flatMap,
      List.flatMap_map]
    rw [List.flatMap_congr ih]
  · intro id blocks ih
    simp only [RegionTree.rename_node, RegionTree.preorder_node, List.map_flatMap, List.flatMap_map]
    rw [List.flatMap_congr ih]
  · intro id args ops ih
    simp only [BlockTree.rename_node, BlockTree.preorder_node, List.map_flatMap, List.flatMap_map]
    rw [List.flatMap_congr ih]

theorem RegionTree.allBlocks_rename (t : RegionTree) :
    (t.rename i v).allBlocks = t.allBlocks.map (BlockTree.rename i v) := by
  refine RegionTree.forall_of
    (P := fun t => (t.rename i v).blocks = t.blocks.map (BlockTree.rename i v))
    (Q := fun t => (t.rename i v).allBlocks = t.allBlocks.map (BlockTree.rename i v))
    (R := fun t => (t.rename i v).nested = t.nested.map (BlockTree.rename i v)) ?_ ?_ ?_ t
  · intro id op regions ih
    simp only [OpTree.rename_node, OpTree.blocks_node, List.map_flatMap, List.flatMap_map]
    rw [List.flatMap_congr ih]
  · intro id blocks ih
    simp only [RegionTree.rename_node, RegionTree.allBlocks_node, List.map_append, List.map_flatMap,
      List.flatMap_map]
    rw [List.flatMap_congr ih]
  · intro id args ops ih
    simp only [BlockTree.rename_node, BlockTree.nested_node, List.map_flatMap, List.flatMap_map]
    rw [List.flatMap_congr ih]

theorem RegionTree.recast_congr {t : RegionTree} (h : ∀ o ∈ t.preorder, f o.1 o.2 = f' o.1 o.2) :
    t.recast f g = t.recast f' g := by
  revert h
  refine RegionTree.forall_of
    (P := fun t => (∀ o ∈ t.preorder, f o.1 o.2 = f' o.1 o.2) → t.recast f g = t.recast f' g)
    (Q := fun t => (∀ o ∈ t.preorder, f o.1 o.2 = f' o.1 o.2) → t.recast f g = t.recast f' g)
    (R := fun t => (∀ o ∈ t.preorder, f o.1 o.2 = f' o.1 o.2) → t.recast f g = t.recast f' g)
    ?_ ?_ ?_ t
  · intro id op regions ih h
    simp only [OpTree.preorder_node, List.forall_mem_cons, List.forall_mem_flatMap] at h
    simp only [OpTree.recast_node, h.1]
    rw [List.map_congr_left fun r hr => ih r hr (h.2 r hr)]
  · intro id blocks ih h
    simp only [RegionTree.preorder_node, List.forall_mem_flatMap] at h
    simp only [RegionTree.recast_node]
    rw [List.map_congr_left fun r hr => ih r hr (h r hr)]
  · intro id args ops ih h
    simp only [BlockTree.preorder_node, List.forall_mem_flatMap] at h
    simp only [BlockTree.recast_node]
    rw [List.map_congr_left fun r hr => ih r hr (h r hr)]

theorem RegionTree.mem_preorder_recast {t : RegionTree} {o : OpId} {op' : Op}
    (h : (o, op') ∈ (t.recast f g).preorder) : ∃ op, (o, op) ∈ t.preorder ∧ op' = f o op := by
  revert h
  refine RegionTree.forall_of
    (P := fun t => (o, op') ∈ (t.recast f g).preorder → ∃ op, (o, op) ∈ t.preorder ∧ op' = f o op)
    (Q := fun t => (o, op') ∈ (t.recast f g).preorder → ∃ op, (o, op) ∈ t.preorder ∧ op' = f o op)
    (R := fun t => (o, op') ∈ (t.recast f g).preorder → ∃ op, (o, op) ∈ t.preorder ∧ op' = f o op)
    ?_ ?_ ?_ t
  · intro id op regions ih h
    simp only [OpTree.recast_node, OpTree.preorder_node, List.mem_cons, Prod.mk.injEq] at h
    rcases h with ⟨rfl, rfl⟩ | h
    · exact ⟨op, by simp, rfl⟩
    · split at h
      · simp at h
      · simp only [List.flatMap_map, List.mem_flatMap] at h
        obtain ⟨r, hr, h⟩ := h
        obtain ⟨op₁, hm, he⟩ := ih r hr h
        refine ⟨op₁, ?_, he⟩
        rw [OpTree.preorder_node]
        exact List.mem_cons_of_mem _ (List.mem_flatMap.mpr ⟨r, hr, hm⟩)
  · intro id blocks ih h
    simp only [RegionTree.recast_node, RegionTree.preorder_node, List.flatMap_map,
      List.mem_flatMap] at h ⊢
    obtain ⟨b, hb, h⟩ := h
    obtain ⟨op₁, hm, he⟩ := ih b hb h
    exact ⟨op₁, ⟨b, hb, hm⟩, he⟩
  · intro id args ops ih h
    simp only [BlockTree.recast_node, BlockTree.preorder_node, List.flatMap_map,
      List.mem_flatMap] at h ⊢
    obtain ⟨b, hb, h⟩ := h
    obtain ⟨op₁, hm, he⟩ := ih b hb h
    exact ⟨op₁, ⟨b, hb, hm⟩, he⟩

theorem RegionTree.opIds_recast_subset {t : RegionTree} {o : OpId}
    (h : o ∈ (t.recast f g).opIds) : o ∈ t.opIds := by
  obtain ⟨⟨o, op'⟩, hm', rfl⟩ := List.mem_map.mp h
  obtain ⟨op, hm, -⟩ := RegionTree.mem_preorder_recast hm'
  exact List.mem_map.mpr ⟨_, hm, rfl⟩

/-- If no operation loses its regions, a recast tree has the operations of the tree. -/
theorem RegionTree.preorder_recast {ctx : Context} {t : RegionTree} (ht : t.HeldBy ctx)
    (h : ∀ o ∈ t.preorder, (f o.1 o.2).regions = [] → o.2.regions = []) :
    (t.recast f g).preorder = t.preorder.map fun o => (o.1, f o.1 o.2) := by
  revert ht h
  refine RegionTree.forall_of
    (P := fun t => t.HeldBy ctx → (∀ o ∈ t.preorder, (f o.1 o.2).regions = [] → o.2.regions = []) →
      (t.recast f g).preorder = t.preorder.map fun o => (o.1, f o.1 o.2))
    (Q := fun t => t.HeldBy ctx → (∀ o ∈ t.preorder, (f o.1 o.2).regions = [] → o.2.regions = []) →
      (t.recast f g).preorder = t.preorder.map fun o => (o.1, f o.1 o.2))
    (R := fun t => t.HeldBy ctx → (∀ o ∈ t.preorder, (f o.1 o.2).regions = [] → o.2.regions = []) →
      (t.recast f g).preorder = t.preorder.map fun o => (o.1, f o.1 o.2)) ?_ ?_ ?_ t
  · rintro id op regions ih ⟨-, hrs, hall⟩ h
    simp only [OpTree.preorder_node, List.forall_mem_cons, List.forall_mem_flatMap] at h
    simp only [OpTree.recast_node, OpTree.preorder_node, List.map_cons, List.map_flatMap]
    by_cases hnil : (f id op).regions = []
    · have hnone : regions = [] := List.map_eq_nil_iff.mp (hrs.symm.trans (h.1 hnil))
      simp [hnone]
    · rw [if_neg hnil, List.flatMap_map,
        List.flatMap_congr fun r hr => ih r hr (hall r hr) (h.2 r hr)]
  · rintro id blocks ih ⟨-, -, hall⟩ h
    simp only [RegionTree.preorder_node, List.forall_mem_flatMap] at h
    simp only [RegionTree.recast_node, RegionTree.preorder_node, List.map_flatMap, List.flatMap_map]
    rw [List.flatMap_congr fun b hb => ih b hb (hall b hb) (h b hb)]
  · rintro id args ops ih ⟨-, -, -, -, hall⟩ h
    simp only [BlockTree.preorder_node, List.forall_mem_flatMap] at h
    simp only [BlockTree.recast_node, BlockTree.preorder_node, List.map_flatMap, List.flatMap_map]
    rw [List.flatMap_congr fun o ho => ih o ho (hall o ho) (h o ho)]

theorem RegionTree.mem_allBlocks_recast {t : RegionTree} {b' : BlockTree}
    (h : b' ∈ (t.recast f g).allBlocks) : ∃ b ∈ t.allBlocks, b' = b.recast f g := by
  revert h
  refine RegionTree.forall_of
    (P := fun t => b' ∈ (t.recast f g).blocks → ∃ b ∈ t.blocks, b' = b.recast f g)
    (Q := fun t => b' ∈ (t.recast f g).allBlocks → ∃ b ∈ t.allBlocks, b' = b.recast f g)
    (R := fun t => b' ∈ (t.recast f g).nested → ∃ b ∈ t.nested, b' = b.recast f g) ?_ ?_ ?_ t
  · intro id op regions ih h
    simp only [OpTree.recast_node, OpTree.blocks_node] at h ⊢
    split at h
    · simp at h
    · simp only [List.flatMap_map, List.mem_flatMap] at h ⊢
      obtain ⟨r, hr, h⟩ := h
      obtain ⟨b, hb, he⟩ := ih r hr h
      exact ⟨b, ⟨r, hr, hb⟩, he⟩
  · intro id blocks ih h
    simp only [RegionTree.recast_node, RegionTree.allBlocks_node, List.flatMap_map, List.mem_append,
      List.mem_map, List.mem_flatMap] at h ⊢
    rcases h with ⟨b, hb, he⟩ | ⟨b, hb, h⟩
    · exact ⟨b, .inl hb, he.symm⟩
    · obtain ⟨c, hc, he⟩ := ih b hb h
      exact ⟨c, .inr ⟨b, hb, hc⟩, he⟩
  · intro id args ops ih h
    simp only [BlockTree.recast_node, BlockTree.nested_node, List.flatMap_map,
      List.mem_flatMap] at h ⊢
    obtain ⟨o, ho, h⟩ := h
    obtain ⟨b, hb, he⟩ := ih o ho h
    exact ⟨b, ⟨o, ho, hb⟩, he⟩

theorem RegionTree.id_recast (t : RegionTree) : (t.recast f g).id = t.id := by
  obtain ⟨id, blocks⟩ := t
  rw [RegionTree.recast_node]
  rfl

theorem RegionTree.id_rename (t : RegionTree) : (t.rename i v).id = t.id := by
  obtain ⟨id, blocks⟩ := t
  rw [RegionTree.rename_node]
  rfl

end Preorder

namespace Context

variable {ctx cur : Context} {t : RegionTree} {f : OpId → Op → Op} {g : Ty → Ty} {i : OpId → OpId}
  {s : ValueId → ValueId}

/-- `cur` has in the place of every operation and block of the tree what the recast and renamed tree
has there. -/
structure Recasts (ctx cur : Context) (t : RegionTree) (f : OpId → Op → Op) (g : Ty → Ty)
    (i : OpId → OpId) (s : ValueId → ValueId) : Prop where
  op? {o : OpId} {op : Op} : (o, op) ∈ t.preorder → cur.op? (i o) = some ((f o op).rename s)
  regions {o : OpId} {op : Op} : (o, op) ∈ t.preorder →
    (f o op).regions = [] ∨ (f o op).regions = op.regions
  region? (r : RegionId) : cur.region? r = ctx.region? r
  block? {b : BlockTree} : b ∈ t.allBlocks → ∃ block, cur.block? b.id = some block ∧
    block.args = b.args.map (fun a => s a.1) ∧ block.ops = b.ops.map fun c => i c.id
  value? {b : BlockTree} {a : ValueId × Ty} : b ∈ t.allBlocks → a ∈ b.args →
    ∃ value, cur.value? (s a.1) = some value ∧ value.ty = g a.2

theorem Recasts.heldBy (ht : t.HeldBy ctx) (h : ctx.Recasts cur t f g i s) :
    ((t.recast f g).rename i s).HeldBy cur := by
  have hgen := RegionTree.forall_of
    (P := fun u => u.HeldBy ctx → (∀ o ∈ u.preorder, o ∈ t.preorder) →
      (∀ b ∈ u.blocks, b ∈ t.allBlocks) → ((u.recast f g).rename i s).HeldBy cur)
    (Q := fun u => u.HeldBy ctx → (∀ o ∈ u.preorder, o ∈ t.preorder) →
      (∀ b ∈ u.allBlocks, b ∈ t.allBlocks) → ((u.recast f g).rename i s).HeldBy cur)
    (R := fun u => u.HeldBy ctx → (∀ o ∈ u.preorder, o ∈ t.preorder) →
      (∀ b ∈ u :: u.nested, b ∈ t.allBlocks) → ((u.recast f g).rename i s).HeldBy cur) ?_ ?_ ?_ t
  · exact hgen ht (fun _ ho => ho) fun _ hb => hb
  · rintro id op regions ih ⟨ho, hrs, hall⟩ hops hblocks
    simp only [OpTree.preorder_node, List.forall_mem_cons, List.forall_mem_flatMap] at hops
    simp only [OpTree.blocks_node, List.forall_mem_flatMap] at hblocks
    simp only [OpTree.recast_node, OpTree.rename_node]
    refine .node (h.op? hops.1) ?_ ?_
    · change (f id op).regions = _
      split
      · rename_i he
        rw [he]
        rfl
      · rename_i hne
        rw [(h.regions hops.1).resolve_left hne, hrs, List.map_map, List.map_map]
        exact List.map_congr_left fun r _ => ((RegionTree.id_rename _).trans r.id_recast).symm
    · split
      · simp
      · intro r hr
        simp only [List.mem_map, exists_exists_and_eq_and] at hr
        obtain ⟨u, hu, rfl⟩ := hr
        exact ih u hu (hall u hu) (hops.2 u hu) (hblocks u hu)
  · rintro id blocks ih ⟨hr, hbs, hall⟩ hops hblocks
    simp only [RegionTree.preorder_node, List.forall_mem_flatMap] at hops
    simp only [RegionTree.allBlocks_node] at hblocks
    simp only [RegionTree.recast_node, RegionTree.rename_node]
    refine .node ((h.region? id).trans hr) ?_ ?_
    · rw [hbs, List.map_map, List.map_map]
      refine List.map_congr_left fun b _ => ?_
      obtain ⟨bid, args, ops⟩ := b
      simp [BlockTree.id]
    · intro b hb
      simp only [List.mem_map, exists_exists_and_eq_and] at hb
      obtain ⟨u, hu, rfl⟩ := hb
      refine ih u hu (hall u hu) (hops u hu) (List.forall_mem_cons.mpr ⟨?_, fun b hb => ?_⟩)
      · exact hblocks u (List.mem_append_left _ hu)
      · exact hblocks b (List.mem_append_right _ (List.mem_flatMap.mpr ⟨u, hu, hb⟩))
  · rintro id args ops ih ⟨-, -, -, -, hall⟩ hops hblocks
    simp only [BlockTree.preorder_node, List.forall_mem_flatMap] at hops
    simp only [BlockTree.nested_node, List.forall_mem_cons, List.forall_mem_flatMap] at hblocks
    simp only [BlockTree.recast_node, BlockTree.rename_node]
    obtain ⟨block, hblk, hargs, hops'⟩ := h.block? hblocks.1
    refine .node hblk ?_ ?_ ?_ ?_
    · rw [hargs, List.map_map, List.map_map]
      rfl
    · intro a ha
      simp only [List.mem_map, exists_exists_and_eq_and] at ha
      obtain ⟨a, ha, rfl⟩ := ha
      exact h.value? hblocks.1 ha
    · rw [hops', List.map_map, List.map_map]
      refine List.map_congr_left fun c _ => ?_
      obtain ⟨cid, op, regions⟩ := c
      simp [OpTree.id]
    · intro c hcm
      simp only [List.mem_map, exists_exists_and_eq_and] at hcm
      obtain ⟨u, hu, rfl⟩ := hcm
      exact ih u hu (hall u hu) (hops u hu) (hblocks.2 u hu)

end Context

end RegionIR
