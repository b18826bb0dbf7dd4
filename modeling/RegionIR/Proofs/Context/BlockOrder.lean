import RegionIR.Context.Collect
import RegionIR.Proofs.Context.UseFaults
import RegionIR.Proofs.Source.Definitions

/-! The order in which the blocks of a region are collected.

A walk enters a block, meets its operations and what is nested in them, and then enters the next
block. The collection lists all blocks of a region before it turns to the regions nested in them. It
finds the same blocks, each once, and in the same order just when in every region only the last block
has blocks nested in it. -/

namespace RegionIR

/-- What a walk comes to: a block that it enters, or an operation that it meets. -/
inductive WalkEvent where
  | enters (b : BlockId)
  | meets (o : OpId) (op : Op)

namespace WalkEvent

def block? : WalkEvent → Option BlockId
  | .enters b => some b
  | .meets _ _ => none

def op? : WalkEvent → Option (OpId × Op)
  | .enters _ => none
  | .meets o op => some (o, op)

end WalkEvent

mutual

/-- What a walk that descends everywhere comes to, in order. -/
def OpTree.events : OpTree → List WalkEvent
  | .node id op regions => .meets id op :: RegionTree.eventsOfAll regions

def RegionTree.events : RegionTree → List WalkEvent
  | .node _ blocks => BlockTree.eventsOfAll blocks

def BlockTree.events : BlockTree → List WalkEvent
  | .node id _ ops => .enters id :: OpTree.eventsOfAll ops

def OpTree.eventsOfAll : List OpTree → List WalkEvent
  | [] => []
  | t :: rest => t.events ++ OpTree.eventsOfAll rest

def RegionTree.eventsOfAll : List RegionTree → List WalkEvent
  | [] => []
  | t :: rest => t.events ++ RegionTree.eventsOfAll rest

def BlockTree.eventsOfAll : List BlockTree → List WalkEvent
  | [] => []
  | t :: rest => t.events ++ BlockTree.eventsOfAll rest

end

/-- The blocks of a region and of the regions nested in it, in the order in which a walk enters
them. -/
def RegionTree.entered (t : RegionTree) : List BlockId :=
  t.events.filterMap WalkEvent.block?

/-- In the region and in those nested in it no block but the last has blocks nested in it. -/
def RegionTree.NestsLast (t : RegionTree) : Prop :=
  ∀ s, Relation.ReflTransGen (fun t s => s ∈ t.inner) t s → ∀ b ∈ s.blocks.dropLast, b.nested = []

section Events

theorem OpTree.eventsOfAll_eq_flatMap (l : List OpTree) : eventsOfAll l = l.flatMap events := by
  induction l with
  | nil => rfl
  | cons t l ih => simp [eventsOfAll, ih]

theorem RegionTree.eventsOfAll_eq_flatMap (l : List RegionTree) :
    eventsOfAll l = l.flatMap events := by
  induction l with
  | nil => rfl
  | cons t l ih => simp [eventsOfAll, ih]

theorem BlockTree.eventsOfAll_eq_flatMap (l : List BlockTree) :
    eventsOfAll l = l.flatMap events := by
  induction l with
  | nil => rfl
  | cons t l ih => simp [eventsOfAll, ih]

theorem OpTree.events_eq (t : OpTree) :
    t.events = .meets t.id t.op :: t.regions.flatMap RegionTree.events := by
  obtain ⟨id, op, regions⟩ := t
  simp [events, RegionTree.eventsOfAll_eq_flatMap, OpTree.id, OpTree.op, OpTree.regions]

theorem RegionTree.events_eq (t : RegionTree) : t.events = t.blocks.flatMap BlockTree.events := by
  obtain ⟨id, blocks⟩ := t
  simp [events, BlockTree.eventsOfAll_eq_flatMap, RegionTree.blocks]

theorem BlockTree.events_eq (t : BlockTree) :
    t.events = .enters t.id :: t.ops.flatMap OpTree.events := by
  obtain ⟨id, args, ops⟩ := t
  simp [events, OpTree.eventsOfAll_eq_flatMap, BlockTree.id, BlockTree.ops]

theorem RegionTree.met_eq (t : RegionTree) : t.events.filterMap WalkEvent.op? = t.preorder := by
  refine RegionTree.forall_of (P := fun t => t.events.filterMap WalkEvent.op? = t.preorder)
    (Q := fun t => t.events.filterMap WalkEvent.op? = t.preorder)
    (R := fun t => t.events.filterMap WalkEvent.op? = t.preorder) ?_ ?_ ?_ t
  · intro id op regions ih
    simp only [OpTree.events_eq, OpTree.preorder_node, List.filterMap_cons, WalkEvent.op?,
      List.filterMap_flatMap]
    exact congrArg _ (List.flatMap_congr ih)
  · intro id blocks ih
    rw [RegionTree.events_eq, RegionTree.preorder_node, List.filterMap_flatMap]
    exact List.flatMap_congr ih
  · intro id args ops ih
    simp only [BlockTree.events_eq, BlockTree.preorder_node, List.filterMap_cons, WalkEvent.op?,
      List.filterMap_flatMap]
    exact List.flatMap_congr ih

/-- The regions that the operations of a block own. -/
def BlockTree.regions (b : BlockTree) : List RegionTree := b.ops.flatMap OpTree.regions

theorem RegionTree.entered_eq (t : RegionTree) :
    t.entered = t.blocks.flatMap fun b => b.id :: b.regions.flatMap RegionTree.entered := by
  rw [entered, events_eq, List.filterMap_flatMap]
  refine List.flatMap_congr fun b _ => ?_
  simp only [BlockTree.events_eq, BlockTree.regions, List.filterMap_cons, WalkEvent.block?,
    List.filterMap_flatMap, List.flatMap_assoc]
  refine congrArg _ (List.flatMap_congr fun c _ => ?_)
  simp only [OpTree.events_eq, List.filterMap_cons, WalkEvent.block?, List.filterMap_flatMap]
  rfl

theorem RegionTree.blockIds_eq (t : RegionTree) :
    t.blockIds = t.blocks.map BlockTree.id ++
      t.blocks.flatMap fun b => b.regions.flatMap RegionTree.blockIds := by
  rw [blockIds, allBlocks_eq, List.map_append, List.map_flatMap, inner, List.flatMap_assoc]
  rfl

theorem RegionTree.mem_inner_iff {t s : RegionTree} :
    s ∈ t.inner ↔ ∃ b ∈ t.blocks, s ∈ b.regions := List.mem_flatMap

end Events

section Order

theorem flatMap_eq_flatMap_iff {α β : Type} {l : List α} {f g : α → List β}
    (hlen : ∀ a ∈ l, (f a).length = (g a).length) :
    l.flatMap f = l.flatMap g ↔ ∀ a ∈ l, f a = g a := by
  refine ⟨fun h => ?_, List.flatMap_congr⟩
  induction l with
  | nil => simp
  | cons a l ih =>
    rw [List.forall_mem_cons] at hlen ⊢
    obtain ⟨ha, hl⟩ := List.append_inj h hlen.1
    exact ⟨ha, ih hlen.2 hl⟩

/-- Heads that stand in front of all tails, against heads each in front of its own tail. If the tail of
one that is not the last has an element, its first would have to be the next head. -/
theorem heads_append_tails_eq_iff {α β : Type} {l : List α} {f : α → β} {g k : α → List β}
    (hperm : ∀ a ∈ l, (g a).Perm (k a)) (hnd : (l.map f ++ l.flatMap g).Nodup) :
    l.map f ++ l.flatMap g = (l.flatMap fun a => f a :: k a) ↔
      (∀ a ∈ l.dropLast, k a = []) ∧ ∀ a ∈ l, g a = k a := by
  induction l with
  | nil => simp
  | cons a l ih =>
    cases l with
    | nil => simp
    | cons b l =>
      obtain ⟨ha, hl⟩ := List.forall_mem_cons.mp hperm
      cases hk : k a with
      | nil =>
        rw [hk, List.perm_nil] at ha
        have hnd : ((b :: l).map f ++ (b :: l).flatMap g).Nodup := by
          simpa [ha] using hnd.tail
        simpa [ha, hk] using ih hl hnd
      | cons x xs =>
        have hx : x ∈ g a := ha.mem_iff.mpr (hk ▸ List.mem_cons_self)
        have hne : f b ≠ x := by
          rintro rfl
          simp only [List.map_cons, List.flatMap_cons, List.nodup_append] at hnd
          exact hnd.2.2 (f b) (by simp) (f b) (List.mem_append_left _ hx) rfl
        simp [hk, hne]

theorem RegionTree.blockIds_perm_entered (t : RegionTree) : t.blockIds.Perm t.entered := by
  refine RegionTree.forall_of_inner (P := fun t => t.blockIds.Perm t.entered) (fun t ih => ?_) t
  have hnested {b : BlockTree} (hb : b ∈ t.blocks) :
      (b.regions.flatMap RegionTree.blockIds).Perm (b.regions.flatMap RegionTree.entered) :=
    List.Perm.flatMap_left _ fun s hs => ih s (mem_inner_iff.mpr ⟨b, hb, hs⟩)
  rw [t.blockIds_eq, t.entered_eq]
  refine ((List.Perm.flatMap_left _ fun b hb => hnested hb).append_left _).trans ?_
  rw [List.map_eq_flatMap]
  exact List.flatMap_append_perm t.blocks (fun b => [b.id]) _

theorem RegionTree.length_blockIds (t : RegionTree) : t.blockIds.length = t.entered.length :=
  t.blockIds_perm_entered.length_eq

theorem BlockTree.nested_eq (b : BlockTree) : b.nested = b.regions.flatMap RegionTree.allBlocks := by
  obtain ⟨id, args, ops⟩ := b
  rw [nested_node, regions, List.flatMap_assoc]
  refine List.flatMap_congr fun c _ => ?_
  obtain ⟨o, op, rs⟩ := c
  exact OpTree.blocks_node ..

theorem RegionTree.entered_eq_nil_iff (t : RegionTree) : t.entered = [] ↔ t.allBlocks = [] := by
  rw [← List.length_eq_zero_iff, ← t.length_blockIds, blockIds, List.length_map,
    List.length_eq_zero_iff]

theorem RegionTree.nestsLast_iff (t : RegionTree) : t.NestsLast ↔
    (∀ b ∈ t.blocks.dropLast, b.nested = []) ∧ ∀ s ∈ t.inner, s.NestsLast := by
  constructor
  · exact fun h => ⟨h t .refl, fun s hs s' hpath => h s' (hpath.head hs)⟩
  · rintro ⟨hown, hinner⟩ s hpath
    rcases Relation.ReflTransGen.cases_head hpath with rfl | ⟨s', hs', hpath⟩
    · exact hown
    · exact hinner s' hs' s hpath

theorem RegionTree.blockIds_eq_entered_iff {t : RegionTree} (hnd : t.blockIds.Nodup) :
    t.blockIds = t.entered ↔ t.NestsLast := by
  revert hnd
  refine RegionTree.forall_of_inner
    (P := fun t => t.blockIds.Nodup → (t.blockIds = t.entered ↔ t.NestsLast)) (fun t ih hnd => ?_) t
  rw [t.blockIds_eq] at hnd ⊢
  have hnested {b : BlockTree} (hb : b ∈ t.blocks) {s : RegionTree} (hs : s ∈ b.regions) :
      s.blockIds = s.entered ↔ s.NestsLast :=
    ih s (mem_inner_iff.mpr ⟨b, hb, hs⟩)
      ((List.nodup_flatMap.mp ((List.nodup_flatMap.mp hnd.of_append_right).1 b hb)).1 s hs)
  have hinner : (∀ b ∈ t.blocks, b.regions.flatMap RegionTree.blockIds =
      b.regions.flatMap RegionTree.entered) ↔ ∀ s ∈ t.inner, s.NestsLast := by
    simp only [flatMap_eq_flatMap_iff fun (s : RegionTree) _ => s.length_blockIds, mem_inner_iff]
    constructor
    · rintro h s ⟨b, hb, hs⟩
      exact (hnested hb hs).mp (h b hb s hs)
    · exact fun h b hb s hs => (hnested hb hs).mpr (h s ⟨b, hb, hs⟩)
  have hempty (b : BlockTree) : b.regions.flatMap RegionTree.entered = [] ↔ b.nested = [] := by
    simp only [b.nested_eq, List.flatMap_eq_nil_iff, RegionTree.entered_eq_nil_iff]
  rw [t.entered_eq, t.nestsLast_iff, heads_append_tails_eq_iff
    (fun b _ => List.Perm.flatMap_left _ fun s _ => s.blockIds_perm_entered) hnd, hinner]
  simp only [hempty]

end Order

namespace OpTree.HeldBy

variable {ctx : Context} {t : OpTree}

/-- Every operation of a tree but the root has its owner in the tree. -/
theorem exists_owner (ht : t.HeldBy ctx) {o : OpId} (ho : o ∈ t.opIds) (hne : o ≠ t.id) :
    ∃ p ∈ t.opIds, ctx.Owns p o := by
  revert ht ho hne
  refine forall_of_children (P := fun t => t.HeldBy ctx → o ∈ t.opIds → o ≠ t.id →
    ∃ p ∈ t.opIds, ctx.Owns p o) (fun t ih ht ho hne => ?_) t
  rcases opIds_cases ho with rfl | ⟨c, hc, ho⟩
  · exact absurd rfl hne
  · obtain ⟨hheld, howns⟩ := ht.child hc
    by_cases he : o = c.id
    · exact ⟨t.id, t.id_mem_opIds, he ▸ howns⟩
    · obtain ⟨p, hp, hpo⟩ := ih c hc hheld ho he
      exact ⟨p, mem_opIds_of_child hc hp, hpo⟩

end OpTree.HeldBy

namespace RegionTree.HeldBy

variable {ctx : Context} {t : RegionTree}

theorem unique {s : RegionTree} (hs : s.HeldBy ctx) (ht : t.HeldBy ctx) (hid : s.id = t.id) :
    s = t := by
  have hs := Context.regionTree_eq_ok_iff.mpr ⟨hid, hs⟩
  rw [Context.regionTree_eq_ok_iff.mpr ⟨rfl, ht⟩] at hs
  exact (Except.ok.inj hs).symm

theorem op (ht : t.HeldBy ctx) {c : OpTree} (hc : c ∈ t.blocks.flatMap BlockTree.ops) :
    c.HeldBy ctx := by
  obtain ⟨-, -, hheld⟩ := ht
  obtain ⟨b, hb, hc⟩ := List.mem_flatMap.mp hc
  exact (hheld b hb).op hc

/-- No operation nested in a region owns it: it would be nested in itself. -/
theorem id_not_mem_regions (ht : t.HeldBy ctx) {c : OpTree}
    (hc : c ∈ t.blocks.flatMap BlockTree.ops) {p : OpId} {op : Op} (hp : p ∈ c.opIds)
    (hop : ctx.op? p = some op) : t.id ∉ op.regions := by
  intro hr
  obtain ⟨s, hs, rfl, hle⟩ := (ht.op hc).exists_subtree hp
  obtain ⟨hop', hrs⟩ := hs.op?_regions
  cases hop.symm.trans hop'
  obtain ⟨t', hmem, hid⟩ := List.mem_map.mp (hrs ▸ hr)
  obtain rfl := (hs.region hmem).unique ht hid
  have hlt := OpTree.length_opIds_of_child (List.mem_flatMap.mpr ⟨t', hmem, hc⟩)
  omega

theorem op_not_nested (hl : ctx.Linked) (ht : t.HeldBy ctx) {c c' : OpTree}
    (hc : c ∈ t.blocks.flatMap BlockTree.ops) (hc' : c' ∈ t.blocks.flatMap BlockTree.ops)
    (hne : c'.id ≠ c.id) : c'.id ∉ c.opIds := by
  intro hm
  obtain ⟨p, hp, op, r, region, b, block, hop, hr, hreg, hb, hblk, ho⟩ :=
    (ht.op hc).exists_owner hm hne
  obtain ⟨op', b', block', hop', hpb, hblk', hpr⟩ := ht.parents hl (List.mem_map_of_mem hc')
  obtain ⟨x, hx, hxb⟩ := hl.op_of_listed hblk ho
  cases hop'.symm.trans hx
  cases hpb.symm.trans hxb
  obtain ⟨y, hy, hyr⟩ := hl.block_of_listed hreg hb
  cases hblk'.symm.trans hy
  cases hpr.symm.trans hyr
  exact ht.id_not_mem_regions hc hp hop hr

theorem parent_of_mem (hl : ctx.Linked) (ht : t.HeldBy ctx) {b : BlockId}
    (hb : b ∈ t.blocks.map BlockTree.id) :
    ∃ block, ctx.block? b = some block ∧ block.parent = some t.id := by
  obtain ⟨region, hr, hbs⟩ := ht.region?_id
  exact hl.block_of_listed hr (hbs ▸ hb)

/-- A block is collected once. -/
theorem blockIds_nodup (hl : ctx.Linked) (ht : t.HeldBy ctx) : t.blockIds.Nodup := by
  have hstands {c : OpTree} (hc : c ∈ t.blocks.flatMap BlockTree.ops) {b : BlockId}
      (hb : b ∈ c.blocks.map BlockTree.id) : ∃ r, ∃ o ∈ c.opIds, ctx.StandsIn b r o := by
    obtain ⟨b, hmem, rfl⟩ := List.mem_map.mp hb
    exact (ht.op hc).exists_standsIn hl hmem
  rw [blockIds, allBlocks_eq_ops, List.map_append, List.map_flatMap, List.nodup_append,
    List.nodup_flatMap]
  refine ⟨?_, ⟨fun c hc => (ht.op hc).blocks_nodup hl, ?_⟩, ?_⟩
  · obtain ⟨region, hr, hbs⟩ := ht.region?_id
    exact hbs ▸ hl.blocks_nodup hr
  · refine (List.pairwise_map.mp (ht.ops_ids_nodup hl)).imp_of_mem ?_
    intro c c' hc hc' hne b hb hb'
    obtain ⟨r, o, ho, hst⟩ := hstands hc hb
    obtain ⟨r', o', ho', hst'⟩ := hstands hc' hb'
    obtain ⟨rfl, rfl⟩ := hst.unique hst'
    rcases OpTree.HeldBy.comparable hl (ht.op hc) (ht.op hc') ho ho' with hm | hm
    · exact ht.op_not_nested hl hc' hc hne hm
    · exact ht.op_not_nested hl hc hc' hne.symm hm
  · rintro b hb b' hb' rfl
    obtain ⟨c, hc, hb'⟩ := List.mem_flatMap.mp hb'
    obtain ⟨r, o, ho, ⟨block, hblk, hp⟩, region, hr, hq⟩ := hstands hc hb'
    obtain ⟨block', hblk', hp'⟩ := ht.parent_of_mem hl hb
    cases hblk.symm.trans hblk'
    cases hp.symm.trans hp'
    obtain ⟨op, hop, hmem⟩ := hl.listed_of_region hr hq
    exact ht.id_not_mem_regions hc ho hop hmem

end RegionTree.HeldBy

namespace Context

variable {ctx : Context} {t : RegionTree}

theorem regionsOfBlock_of_heldBy {b : BlockTree} (hb : b.HeldBy ctx) :
    ctx.regionsOfBlock b.id = .ok (b.regions.map RegionTree.id) := by
  obtain ⟨block, hblk, -, hops, -⟩ := hb.exists_block
  have hregions : block.ops.mapM (fun o => do return (← ctx.op o).regions) =
      .ok (b.ops.map fun c => c.regions.map RegionTree.id) := by
    rw [mapM_eq_ok_iff, hops, List.forall₂_map_left_iff, List.forall₂_map_right_iff,
      List.forall₂_same]
    intro c hc
    obtain ⟨hop, hrs⟩ := (hb.op hc).op?_regions
    rw [op_eq_ok.mpr hop, except_ok_bind, hrs]
    rfl
  rw [regionsOfBlock, block_eq_ok.mpr hblk, except_ok_bind, hregions, except_ok_bind,
    BlockTree.regions, List.map_flatMap, List.flatMap_def]
  rfl

/-- One turn of the loop lists the blocks of a region and puts the regions in it on the stack. -/
theorem collectBlocksWithin_succ (ht : t.HeldBy ctx) (pops : Nat) (stack : List RegionId)
    (blocks : List BlockId) :
    ctx.collectBlocksWithin (pops + 1) (t.id :: stack) blocks =
      ctx.collectBlocksWithin pops (t.inner.map RegionTree.id ++ stack)
        (blocks ++ t.blocks.map BlockTree.id) := by
  obtain ⟨region, hr, hbs⟩ := ht.region?_id
  have hnested : (t.blocks.map BlockTree.id).mapM ctx.regionsOfBlock =
      .ok (t.blocks.map fun b => b.regions.map RegionTree.id) := by
    rw [mapM_eq_ok_iff, List.forall₂_map_left_iff, List.forall₂_map_right_iff,
      List.forall₂_same]
    intro b hb
    obtain ⟨-, -, hheld⟩ := ht
    exact regionsOfBlock_of_heldBy (hheld b hb)
  have hinner : (t.blocks.map fun b => b.regions.map RegionTree.id).flatten =
      t.inner.map RegionTree.id := by
    rw [← List.flatMap_def, ← List.map_flatMap]
    rfl
  simp only [collectBlocksWithin, region_eq_ok.mpr hr, except_ok_bind, hbs, hnested, hinner,
    List.foldl_reverse]
  exact congrArg (ctx.collectBlocksWithin pops · _) List.foldr_cons_eq_append'

theorem exists_collectBlocksWithin (ht : t.HeldBy ctx) : ∃ pops, ∀ n stack blocks,
    ctx.collectBlocksWithin (n + pops) (t.id :: stack) blocks =
      ctx.collectBlocksWithin n stack (blocks ++ t.blockIds) := by
  revert ht
  refine RegionTree.forall_of_inner (P := fun t => t.HeldBy ctx → ∃ pops, ∀ n stack blocks,
    ctx.collectBlocksWithin (n + pops) (t.id :: stack) blocks =
      ctx.collectBlocksWithin n stack (blocks ++ t.blockIds)) (fun t ih ht => ?_) t
  have hall (l : List RegionTree) (hl : ∀ s ∈ l, s ∈ t.inner) : ∃ pops, ∀ n stack blocks,
      ctx.collectBlocksWithin (n + pops) (l.map RegionTree.id ++ stack) blocks =
        ctx.collectBlocksWithin n stack (blocks ++ l.flatMap RegionTree.blockIds) := by
    induction l with
    | nil => exact ⟨0, by simp⟩
    | cons s l ihl =>
      rw [List.forall_mem_cons] at hl
      obtain ⟨k, hk⟩ := ih s hl.1 (ht.inner hl.1)
      obtain ⟨m, hm⟩ := ihl hl.2
      refine ⟨m + k, fun n stack blocks => ?_⟩
      rw [← Nat.add_assoc, List.map_cons, List.cons_append, hk, hm, List.append_assoc,
        List.flatMap_cons]
  obtain ⟨k, hk⟩ := hall t.inner fun _ hs => hs
  refine ⟨k + 1, fun n stack blocks => ?_⟩
  rw [← Nat.add_assoc, collectBlocksWithin_succ ht, hk, List.append_assoc, RegionTree.blockIds,
    RegionTree.allBlocks_eq, List.map_append, List.map_flatMap]
  rfl

theorem chain_of_forall₂ {α β : Type} {walk : α → Except Fault Trail} {f : β → List (OpId × Op)}
    {l : List α} {ts : List β} (h : List.Forall₂ (fun a t => walk a = .ok ⟨f t, none⟩) l ts) :
    Trail.chain walk l = .ok ⟨ts.flatMap f, none⟩ := by
  induction h with
  | nil => rfl
  | cons h _ ih => simp [Trail.chain, h, ih, pure, Except.pure]

section Walk

variable {walk : OpId → Except Fault Trail} {trees : OpId → Except Fault OpTree}

/-- A walk over a region visits the operations of its tree if walks over operations do. -/
theorem walkRegionWith_of_trees
    (h : ∀ o c, trees o = .ok c → walk o = .ok ⟨c.preorder, none⟩) {r : RegionId}
    (ht : ctx.regionTreeWith trees r = .ok t) :
    ctx.walkRegionWith walk r = .ok ⟨t.preorder, none⟩ := by
  obtain ⟨region, blocks, hr, hblocks, rfl⟩ := regionTreeWith_eq_ok.mp ht
  rw [walkRegionWith, region_eq_ok.mpr hr, except_ok_bind, RegionTree.preorder_node]
  refine chain_of_forall₂ (hblocks.imp fun b s hb => ?_)
  obtain ⟨block, args, ops, hblk, -, hops, rfl⟩ := blockTreeWith_eq_ok.mp hb
  rw [walkBlockWith, block_eq_ok.mpr hblk, except_ok_bind, BlockTree.preorder_node]
  exact chain_of_forall₂ (hops.imp h)

end Walk

/-- A walk that descends everywhere visits the operations of the tree in preorder. -/
theorem walkOpWithin_of_tree {depth : Nat} {o : OpId} {c : OpTree}
    (h : ctx.opTreeWithin depth o = .ok c) :
    ctx.walkOpWithin (fun _ _ => .descend) depth o = .ok ⟨c.preorder, none⟩ := by
  induction depth generalizing o c with
  | zero => simp [opTreeWithin] at h
  | succ depth ih =>
    obtain ⟨op, regions, hop, hregions, rfl⟩ := opTreeWithin_succ_eq_ok.mp h
    have hinner := chain_of_forall₂ (hregions.imp fun r t ht =>
      walkRegionWith_of_trees (fun o c => ih) ht)
    simp [walkOpWithin, op_eq_ok.mpr hop, hinner, pure, Except.pure]

/-- The collection of the blocks of a region ends and returns the blocks that are nested in it, each
once. A walk enters the same blocks, and in the same order just when, in the region and in those
nested in it, no block but the last has blocks nested in it. -/
theorem collectBlocks_of_regionTree {r : RegionId} (h : ctx.regionTree r = .ok t) :
    (∃ pops, ∀ n, pops ≤ n → ctx.collectBlocksWithin n [r] [] = .ok t.blockIds) ∧
      (∀ b, b ∈ t.blockIds ↔ ctx.BlockIn r b) ∧ (ctx.Linked → t.blockIds.Nodup) ∧
      ctx.walkRegion (fun _ _ => .descend) r = .ok ⟨t.events.filterMap WalkEvent.op?, none⟩ ∧
      t.blockIds.Perm t.entered ∧ (ctx.Linked → (t.blockIds = t.entered ↔ t.NestsLast)) := by
  obtain ⟨rfl, ht⟩ := regionTree_eq_ok_iff.mp h
  refine ⟨?_, fun b => ht.blockIn_iff.symm, fun hl => ht.blockIds_nodup hl, ?_,
    t.blockIds_perm_entered, fun hl => RegionTree.blockIds_eq_entered_iff (ht.blockIds_nodup hl)⟩
  · obtain ⟨pops, hpops⟩ := exists_collectBlocksWithin ht
    refine ⟨pops, fun n hn => ?_⟩
    rw [← Nat.sub_add_cancel hn, hpops, collectBlocksWithin]
    rfl
  · rw [t.met_eq]
    exact walkRegionWith_of_trees (fun o c => walkOpWithin_of_tree) h

/-- Two blocks in a region, with a block nested in the first. -/
def nestedFirstEdits : List Edit :=
  let nowhere : Location := ⟨"", ⟨0, 0⟩⟩
  [.createBlock [], .createRegion [⟨0⟩],
    .createOp { location := nowhere, dialect := "u", name := "u", regions := [⟨0⟩] },
    .createBlock [], .pushOp ⟨1⟩ ⟨0⟩, .createBlock [], .createRegion [⟨1⟩, ⟨2⟩]]

theorem collectBlocks_of_nestedFirst : ∃ ctx t, ofEdits nestedFirstEdits = .ok ctx ∧
    ctx.regionTree ⟨1⟩ = .ok t ∧
    (∃ pops, ctx.collectBlocksWithin pops [⟨1⟩] [] = .ok t.blockIds) ∧ t.blockIds.Nodup ∧
    t.blockIds.Perm t.entered ∧ ¬t.NestsLast := by
  have hcheck : (ofEdits nestedFirstEdits).toOption.any fun ctx =>
      (ctx.regionTree ⟨1⟩).toOption.any fun t => decide (t.blockIds ≠ t.entered) := by
    decide +kernel
  obtain ⟨ctx, hctx, hcheck⟩ := except_any_iff.mp hcheck
  obtain ⟨t, ht, hne⟩ := except_any_iff.mp hcheck
  obtain ⟨⟨pops, hpops⟩, -, hnodup, -, hperm, hiff⟩ := collectBlocks_of_regionTree ht
  have hl := linked_of_edits hctx
  exact ⟨ctx, t, hctx, ht, ⟨pops, hpops pops (Nat.le_refl _)⟩, hnodup hl, hperm,
    (hiff hl).not.mp (of_decide_eq_true hne)⟩

/-- The block that is nested in the first one is collected after the second, but entered before
it. -/
theorem not_preorder_of_nestedFirst : ∃ ctx t, ofEdits nestedFirstEdits = .ok ctx ∧
    ctx.regionTree ⟨1⟩ = .ok t ∧
    (ctx.collectBlocksWithin 2 [⟨1⟩] []).toOption = some [⟨1⟩, ⟨2⟩, ⟨0⟩] ∧
    t.entered = [⟨1⟩, ⟨0⟩, ⟨2⟩] := by
  have hcheck : (ofEdits nestedFirstEdits).toOption.any fun ctx =>
      (ctx.regionTree ⟨1⟩).toOption.any fun t => decide (
        (ctx.collectBlocksWithin 2 [⟨1⟩] []).toOption = some [⟨1⟩, ⟨2⟩, ⟨0⟩] ∧
        t.entered = [⟨1⟩, ⟨0⟩, ⟨2⟩]) := by
    decide +kernel
  obtain ⟨ctx, hctx, hcheck⟩ := except_any_iff.mp hcheck
  obtain ⟨t, ht, hfacts⟩ := except_any_iff.mp hcheck
  obtain ⟨hcollected, hentered⟩ := of_decide_eq_true hfacts
  exact ⟨ctx, t, hctx, ht, hcollected, hentered⟩

end Context

end RegionIR
