import RegionIR.Proofs.Context.Reachable
import RegionIR.Proofs.Source.Definitions

/-! Contexts that grow.

While a program is read, what is already there stays. A tree that was held goes on to be held as long
as its own operations and blocks are left alone; parents of regions and blocks do not show in it. -/

namespace RegionIR

theorem subset_flatMap_of_mem {α β : Type} {l : List α} {a : α} (f : α → List β) (h : a ∈ l) :
    f a ⊆ l.flatMap f :=
  fun _ hb => List.mem_flatMap.mpr ⟨a, h, hb⟩

/-- The blocks that are nested in an operation. -/
def OpTree.blockIds (t : OpTree) : List BlockId := t.blocks.map BlockTree.id

/-- The blocks that are nested in the operations of a block. -/
def BlockTree.nestedIds (b : BlockTree) : List BlockId := b.nested.map BlockTree.id

@[simp] theorem OpTree.blockIds_node (id : OpId) (op : Op) (regions : List RegionTree) :
    (OpTree.node id op regions).blockIds = regions.flatMap RegionTree.blockIds := by
  rw [blockIds, blocks_node, List.map_flatMap]
  rfl

@[simp] theorem RegionTree.blockIds_node (id : RegionId) (blocks : List BlockTree) :
    (RegionTree.node id blocks).blockIds =
      blocks.map BlockTree.id ++ blocks.flatMap BlockTree.nestedIds := by
  rw [blockIds, allBlocks_node, List.map_append, List.map_flatMap]
  rfl

@[simp] theorem BlockTree.nestedIds_node (id : BlockId) (args : List (ValueId × Ty))
    (ops : List OpTree) : (BlockTree.node id args ops).nestedIds = ops.flatMap OpTree.blockIds := by
  rw [nestedIds, nested_node, List.map_flatMap]
  rfl

/-- The tree of an operation after it was put in a block. -/
def OpTree.placed (b : BlockId) : OpTree → OpTree
  | .node id op regions => .node id { op with parent := some b } regions

namespace OpTree

variable (b : BlockId) (t : OpTree)

@[simp] theorem id_placed : (t.placed b).id = t.id := by
  cases t
  rfl

@[simp] theorem op_placed : (t.placed b).op = { t.op with parent := some b } := by
  cases t
  rfl

@[simp] theorem opIds_placed : (t.placed b).opIds = t.opIds := by
  cases t
  simp [opIds, placed]

@[simp] theorem blockIds_placed : (t.placed b).blockIds = t.blockIds := by
  cases t
  simp [blockIds, placed]

end OpTree

namespace Context

variable {ctx ctx₁ ctx' : Context}

theorem lt_size_of_value? {v : ValueId} {value : Value} (h : ctx.value? v = some value) :
    v.index < ctx.values.size := by
  obtain ⟨hlt, -⟩ := Array.getElem?_eq_some_iff.mp h
  exact hlt

/-- The second context shows some operations and blocks, the arguments of these blocks, and all
regions as the first does. -/
structure Agrees (ctx ctx' : Context) (ops : List OpId) (blocks : List BlockId) : Prop where
  op? {o : OpId} {op : Op} : o ∈ ops → ctx.op? o = some op → ctx'.op? o = some op
  block? {b : BlockId} {block : Block} : b ∈ blocks → ctx.block? b = some block →
    ∃ block', ctx'.block? b = some block' ∧ block'.args = block.args ∧ block'.ops = block.ops
  region? {r : RegionId} {region : Region} : ctx.region? r = some region →
    ∃ region', ctx'.region? r = some region' ∧ region'.blocks = region.blocks
  value? {b : BlockId} {block : Block} {v : ValueId} {value : Value} : b ∈ blocks →
    ctx.block? b = some block → v ∈ block.args → ctx.value? v = some value →
    ctx'.value? v = some value

namespace Agrees

variable {ops : List OpId} {blocks : List BlockId}

theorem heldBy_of_regions (h : ctx.Agrees ctx' ops blocks) {t : OpTree} (hops : t.opIds ⊆ ops)
    (hblocks : t.blockIds ⊆ blocks) (hregions : ∀ r ∈ t.regions, r.opIds ⊆ ops →
      r.blockIds ⊆ blocks → r.HeldBy ctx → r.HeldBy ctx') (ht : t.HeldBy ctx) : t.HeldBy ctx' := by
  obtain ⟨id, op, regions⟩ := t
  obtain ⟨ho, hrs, hall⟩ := ht
  rw [OpTree.opIds_eq_regions, List.cons_subset] at hops
  rw [OpTree.blockIds, OpTree.blocks_node, List.map_flatMap] at hblocks
  refine .node (h.op? hops.1 ho) hrs fun r hr => hregions r hr ?_ ?_ (hall r hr)
  · exact List.Subset.trans (subset_flatMap_of_mem RegionTree.opIds hr) hops.2
  · exact List.Subset.trans (subset_flatMap_of_mem RegionTree.blockIds hr) hblocks

theorem heldBy_of_ops (h : ctx.Agrees ctx' ops blocks) {t : BlockTree} (hid : t.id ∈ blocks)
    (hops : ∀ u ∈ t.ops, u.HeldBy ctx → u.HeldBy ctx') (ht : t.HeldBy ctx) : t.HeldBy ctx' := by
  obtain ⟨id, args, us⟩ := t
  obtain ⟨hb, hargs, hvals, hlist, hall⟩ := ht
  obtain ⟨block', hb', hargs', hops'⟩ := h.block? hid hb
  refine .node hb' (hargs'.trans hargs) (fun a ha => ?_) (hops'.trans hlist)
    fun u hu => hops u hu (hall u hu)
  obtain ⟨value, hv, hty⟩ := hvals a ha
  exact ⟨value, h.value? hid hb (hargs ▸ List.mem_map_of_mem ha) hv, hty⟩

theorem region_heldBy (h : ctx.Agrees ctx' ops blocks) (t : RegionTree) (hops : t.opIds ⊆ ops)
    (hblocks : t.blockIds ⊆ blocks) (ht : t.HeldBy ctx) : t.HeldBy ctx' := by
  revert hops hblocks ht
  refine RegionTree.forall_of
    (P := fun t => t.opIds ⊆ ops → t.blockIds ⊆ blocks → t.HeldBy ctx → t.HeldBy ctx')
    (Q := fun r => r.opIds ⊆ ops → r.blockIds ⊆ blocks → r.HeldBy ctx → r.HeldBy ctx')
    (R := fun b => b.id ∈ blocks → (b.preorder.map Prod.fst) ⊆ ops →
      b.nested.map BlockTree.id ⊆ blocks → b.HeldBy ctx → b.HeldBy ctx')
    (fun _ _ _ ih hops hblocks => h.heldBy_of_regions hops hblocks ih) ?_ ?_ t
  · rintro id blocks' ih hops hblocks ⟨hr, hbs, hall⟩
    obtain ⟨region', hr', hsame⟩ := h.region? hr
    rw [RegionTree.opIds, RegionTree.preorder_node, List.map_flatMap] at hops
    rw [RegionTree.blockIds, RegionTree.allBlocks_node, List.map_append, List.append_subset,
      List.map_flatMap] at hblocks
    refine .node hr' (hsame.trans hbs) fun b hb => ih b hb ?_ ?_ ?_ (hall b hb)
    · exact hblocks.1 (List.mem_map_of_mem hb)
    · exact List.Subset.trans (subset_flatMap_of_mem (fun b => b.preorder.map Prod.fst) hb) hops
    · exact List.Subset.trans (subset_flatMap_of_mem (fun b => b.nested.map BlockTree.id) hb)
        hblocks.2
  · rintro id args us ih hid hops hblocks ht
    rw [BlockTree.preorder_node, List.map_flatMap] at hops
    rw [BlockTree.nested_node, List.map_flatMap] at hblocks
    refine h.heldBy_of_ops hid (fun u hu => ih u hu ?_ ?_) ht
    · exact List.Subset.trans (subset_flatMap_of_mem OpTree.opIds hu) hops
    · exact List.Subset.trans (subset_flatMap_of_mem OpTree.blockIds hu) hblocks

theorem heldBy (h : ctx.Agrees ctx' ops blocks) {t : OpTree} (hops : t.opIds ⊆ ops)
    (hblocks : t.blockIds ⊆ blocks) (ht : t.HeldBy ctx) : t.HeldBy ctx' :=
  h.heldBy_of_regions hops hblocks (fun r _ => h.region_heldBy r) ht

theorem createRegion {bs : List BlockId} {r : RegionId} (h : CreatesRegion ctx bs ctx' r)
    (ops : List OpId) (blocks : List BlockId) : ctx.Agrees ctx' ops blocks where
  op? _ ho := (h.op? _).trans ho
  block? {b block} _ hb := by
    rw [h.block?, hb]
    exact ⟨_, rfl, by split <;> rfl, by split <;> rfl⟩
  region? hr := by
    refine ⟨_, ?_, rfl⟩
    rw [h.region?, if_neg, hr]
    rintro rfl
    simp [h.fresh] at hr
  value? _ _ _ hv := (h.value? _).trans hv

theorem createOp {spec : OpSpec} {o : OpId} (h : CreatesOp ctx spec ctx' o) (ops : List OpId)
    (blocks : List BlockId) : ctx.Agrees ctx' ops blocks where
  op? _ ho := h.op?_of_some ho
  block? _ hb := ⟨_, (h.block? _).trans hb, rfl, rfl⟩
  region? {r region} hr := by
    rw [h.region?, hr]
    exact ⟨_, rfl, by split <;> rfl⟩
  value? _ _ _ hv := by
    rw [h.value?, if_pos (lt_size_of_value? hv), hv]

end Agrees

/-- The second context has everything of the first, up to the operations of some filled blocks; of
operations only the given ones are new, these are recorded, all uses that were added are theirs, and
neither they nor the given blocks were there. -/
structure Gains (ctx ctx' : Context) (filled : List BlockId) (ops : List OpId)
    (blocks : List BlockId) : Prop where
  op? {o : OpId} {op : Op} : ctx.op? o = some op → ctx'.op? o = some op
  value? {v : ValueId} {value : Value} : ctx.value? v = some value → ctx'.value? v = some value
  region? {r : RegionId} {region : Region} : ctx.region? r = some region →
    ctx'.region? r = some region
  block? {b : BlockId} {block : Block} : b ∉ filled → ctx.block? b = some block →
    ctx'.block? b = some block
  filled? {b : BlockId} {block : Block} : ctx.block? b = some block →
    ∃ block', ctx'.block? b = some block' ∧ block'.args = block.args ∧ block'.parent = block.parent
  all {o : OpId} {op : Op} : ctx'.op? o = some op → (∃ old, ctx.op? o = some old) ∨ o ∈ ops
  ledger : ctx.ledger ⊆ ctx'.ledger
  users {e : ValueId × Use} : e ∈ ctx'.ledger → e ∈ ctx.ledger ∨ e.2.user ∈ ops
  recorded {o : OpId} : ctx.op? o = none → ctx'.Recorded o
  freshOps : ∀ o ∈ ops, ctx.op? o = none
  freshBlocks : ∀ b ∈ blocks, ctx.block? b = none

namespace Gains

variable {filled filled' : List BlockId} {ops ops' : List OpId} {blocks blocks' : List BlockId}

theorem refl (ctx : Context) (filled : List BlockId) : ctx.Gains ctx filled [] [] where
  op? h := h
  value? h := h
  region? h := h
  block? _ h := h
  filled? h := ⟨_, h, rfl, rfl⟩
  all h := .inl ⟨_, h⟩
  ledger := List.Subset.refl _
  users := .inl
  recorded ho op i v hop := by simp [ho] at hop
  freshOps := by simp
  freshBlocks := by simp

theorem op?_none (h : ctx.Gains ctx' filled ops blocks) {o : OpId} (ho : ctx'.op? o = none) :
    ctx.op? o = none := by
  cases hold : ctx.op? o with
  | none => rfl
  | some op => simp [h.op? hold] at ho

theorem block?_none (h : ctx.Gains ctx' filled ops blocks) {b : BlockId} (hb : ctx'.block? b = none) :
    ctx.block? b = none := by
  cases hold : ctx.block? b with
  | none => rfl
  | some block =>
    obtain ⟨block', hb', -⟩ := h.filled? hold
    simp [hb'] at hb

theorem trans (h : ctx.Gains ctx₁ filled ops blocks) (h' : ctx₁.Gains ctx' filled' ops' blocks') :
    ctx.Gains ctx' (filled ++ filled') (ops ++ ops') (blocks ++ blocks') where
  op? ho := h'.op? (h.op? ho)
  value? hv := h'.value? (h.value? hv)
  region? hr := h'.region? (h.region? hr)
  block? hb hblk := by
    rw [List.mem_append, not_or] at hb
    exact h'.block? hb.2 (h.block? hb.1 hblk)
  filled? hblk := by
    obtain ⟨block₁, hb₁, hargs₁, hp₁⟩ := h.filled? hblk
    obtain ⟨block₂, hb₂, hargs₂, hp₂⟩ := h'.filled? hb₁
    exact ⟨block₂, hb₂, hargs₂.trans hargs₁, hp₂.trans hp₁⟩
  all ho := by
    rcases h'.all ho with ⟨old, ho⟩ | ho
    · exact (h.all ho).imp_right (List.mem_append_left _)
    · exact .inr (List.mem_append_right _ ho)
  ledger := List.Subset.trans h.ledger h'.ledger
  users he := by
    rcases h'.users he with he | hu
    · exact (h.users he).imp_right (List.mem_append_left _)
    · exact .inr (List.mem_append_right _ hu)
  recorded {o} ho op i v hop hi := by
    cases h₁ : ctx₁.op? o with
    | none => exact h'.recorded h₁ op i v hop hi
    | some op₁ =>
      have hop₁ := h'.op? h₁
      rw [hop] at hop₁
      cases Option.some.inj hop₁
      exact h'.ledger (h.recorded ho op i v h₁ hi)
  freshOps := List.forall_mem_append.mpr ⟨h.freshOps, fun o ho => h.op?_none (h'.freshOps o ho)⟩
  freshBlocks := List.forall_mem_append.mpr
    ⟨h.freshBlocks, fun b hb => h.block?_none (h'.freshBlocks b hb)⟩

/-- Lists of new entities count only as to what is in them; a block that was not there need not
be named as filled. -/
theorem congr (h : ctx.Gains ctx' filled ops blocks)
    (hfilled : ∀ b ∈ filled, b ∈ filled' ∨ ctx.block? b = none) (hops : ∀ o, o ∈ ops ↔ o ∈ ops')
    (hblocks : ∀ b ∈ blocks', ctx.block? b = none) : ctx.Gains ctx' filled' ops' blocks' where
  op? := h.op?
  value? := h.value?
  region? := h.region?
  block? hb hblk := by
    refine h.block? (fun hmem => ?_) hblk
    rcases hfilled _ hmem with hmem | hnone
    · exact hb hmem
    · simp [hnone] at hblk
  filled? := h.filled?
  all ho := (h.all ho).imp_right (hops _).mp
  ledger := h.ledger
  users he := (h.users he).imp_right (hops _).mp
  recorded := h.recorded
  freshOps o ho := h.freshOps o ((hops o).mpr ho)
  freshBlocks := hblocks

theorem agrees (h : ctx.Gains ctx' filled ops blocks) (os : List OpId) {bs : List BlockId}
    (hfilled : ∀ b ∈ bs, b ∉ filled) : ctx.Agrees ctx' os bs where
  op? _ ho := h.op? ho
  block? hb hblk := ⟨_, h.block? (hfilled _ hb) hblk, rfl, rfl⟩
  region? hr := ⟨_, h.region? hr, rfl⟩
  value? _ _ _ := h.value?

theorem heldBy (h : ctx.Gains ctx' filled ops blocks) {t : OpTree} (ht : t.HeldBy ctx)
    (hfilled : ∀ b ∈ t.blockIds, b ∉ filled) : t.HeldBy ctx' :=
  (h.agrees t.opIds hfilled).heldBy (List.Subset.refl _) (List.Subset.refl _) ht

theorem createBlock {argTypes : List Ty} {b : BlockId} (h : CreatesBlock ctx argTypes ctx' b) :
    ctx.Gains ctx' [] [] [b] where
  op? ho := (h.op? _).trans ho
  value? hv := by
    rw [h.value?, if_pos (lt_size_of_value? hv), hv]
  region? hr := (h.region? _).trans hr
  block? _ hblk := by
    rw [h.block?, if_neg, hblk]
    rintro rfl
    simp [h.fresh] at hblk
  filled? hblk := by
    refine ⟨_, ?_, rfl, rfl⟩
    rw [h.block?, if_neg, hblk]
    rintro rfl
    simp [h.fresh] at hblk
  all ho := .inl ⟨_, (h.op? _).symm.trans ho⟩
  ledger := by rw [h.ledger]; exact List.Subset.refl _
  users he := .inl (h.ledger ▸ he)
  recorded {o} ho op i v hop := by simp [h.op?, ho] at hop
  freshOps := by simp
  freshBlocks := by simp [h.fresh]

theorem createRegion (h : ctx.Gains ctx₁ filled ops blocks) {bs : List BlockId} {r : RegionId}
    (hr : CreatesRegion ctx₁ bs ctx' r) (hbs : ∀ b ∈ bs, ctx.block? b = none)
    (hfilled : ∀ b ∈ filled, ctx.block? b = none) : ctx.Gains ctx' [] ops blocks := by
  have hblock {b : BlockId} {block : Block} (hb : ctx.block? b = some block) :
      ctx'.block? b = some block := by
    have hb₁ : ctx₁.block? b = some block := by
      refine h.block? (fun hmem => ?_) hb
      simp [hfilled b hmem] at hb
    have hnot : b ∉ bs := by
      intro hmem
      simp [hbs b hmem] at hb
    simp [hr.block?, hb₁, hnot]
  exact
    { op? := fun ho => (hr.op? _).trans (h.op? ho)
      value? := fun hv => (hr.value? _).trans (h.value? hv)
      region? := fun hreg => by
        rw [hr.region?, if_neg, h.region? hreg]
        rintro rfl
        simpa [hr.fresh] using h.region? hreg
      block? := fun _ => hblock
      filled? := fun hb => ⟨_, hblock hb, rfl, rfl⟩
      all := fun ho => h.all ((hr.op? _).symm.trans ho)
      ledger := by rw [hr.ledger]; exact h.ledger
      users := fun he => h.users (hr.ledger ▸ he)
      recorded := fun {o} ho op i v hop hi => by
        rw [hr.ledger]
        exact h.recorded ho op i v ((hr.op? o).symm.trans hop) hi
      freshOps := h.freshOps
      freshBlocks := h.freshBlocks }

theorem createOp (h : ctx.Gains ctx₁ [] ops blocks) {spec : OpSpec} {o : OpId}
    (ho : CreatesOp ctx₁ spec ctx' o) (hrs : ∀ r ∈ spec.regions, ctx.region? r = none) :
    ctx.Gains ctx' [] (o :: ops) blocks where
  op? hop := ho.op?_of_some (h.op? hop)
  value? hv := by
    rw [ho.value?, if_pos (lt_size_of_value? (h.value? hv)), h.value? hv]
  region? {r region} hr := by
    have hnot : r ∉ spec.regions := by
      intro hmem
      simp [hrs r hmem] at hr
    simp [ho.region?, h.region? hr, hnot]
  block? hb hblk := (ho.block? _).trans (h.block? hb hblk)
  filled? hblk := ⟨_, (ho.block? _).trans (h.block? List.not_mem_nil hblk), rfl, rfl⟩
  all {p op} hp := by
    rw [ho.op?] at hp
    split at hp
    · subst p
      exact .inr List.mem_cons_self
    · exact (h.all hp).imp_right (List.mem_cons_of_mem _)
  ledger := by
    rw [ho.ledger]
    exact List.Subset.trans h.ledger (List.subset_append_left _ _)
  users {e} he := by
    rw [ho.ledger, List.mem_append, mem_mapIdx_uses] at he
    rcases he with he | ⟨hu, -⟩
    · exact (h.users he).imp_right (List.mem_cons_of_mem _)
    · exact .inr (hu ▸ List.mem_cons_self)
  recorded {p} hp op i v hop hi := by
    rw [ho.op?] at hop
    rw [ho.ledger, List.mem_append]
    split at hop
    · subst p
      cases Option.some.inj hop
      exact .inr (mem_mapIdx_uses.mpr ⟨rfl, hi⟩)
    · exact .inl (h.recorded hp op i v hop hi)
  freshOps := List.forall_mem_cons.mpr ⟨h.op?_none ho.fresh, h.freshOps⟩
  freshBlocks := h.freshBlocks

theorem pushOp (h : ctx.Gains ctx₁ [] ops blocks) {b : BlockId} {o : OpId}
    (hpush : ctx₁.pushOp b o = .ok ctx') (ho : o ∈ ops) : ctx.Gains ctx' [b] ops blocks := by
  obtain ⟨-, -, rfl⟩ := pushOp_ok hpush
  have hop? (p : OpId) : (ctx₁.modifyOp o fun op => { op with parent := some b }).op? p =
      if p = o then (ctx₁.op? p).map fun op => { op with parent := some b } else ctx₁.op? p :=
    op?_modifyOp ..
  exact
    { op? := fun {p op} hp => by
        have hne : p ≠ o := by
          rintro rfl
          simp [h.freshOps p ho] at hp
        simpa [hop?, hne] using h.op? hp
      value? := fun hv => by simpa using h.value? hv
      region? := fun hr => by simpa using h.region? hr
      block? := fun {c block} hc hblk => by
        have hne : c ≠ b := by simpa using hc
        simpa [block?_modifyBlock, hne] using h.block? List.not_mem_nil hblk
      filled? := fun {c block} hblk => by
        have hc := h.block? List.not_mem_nil hblk
        rw [block?_modifyBlock, block?_modifyOp, hc]
        split
        · exact ⟨_, rfl, rfl, rfl⟩
        · exact ⟨_, rfl, rfl, rfl⟩
      all := fun {p op} hp => by
        simp only [op?_modifyBlock, hop?] at hp
        split at hp
        · obtain ⟨old, hold, -⟩ := Option.map_eq_some_iff.mp hp
          exact h.all hold
        · exact h.all hp
      ledger := by simpa using h.ledger
      users := h.users
      recorded := fun {p} hp op i v hop hi => by
        simp only [op?_modifyBlock, hop?] at hop
        rw [ledger_modifyBlock, ledger_modifyOp]
        split at hop
        · obtain ⟨old, hold, rfl⟩ := Option.map_eq_some_iff.mp hop
          exact h.recorded hp old i v hold hi
        · exact h.recorded hp op i v hop hi
      freshOps := h.freshOps
      freshBlocks := h.freshBlocks }

end Gains

theorem pushOp_heldBy {t : OpTree} {b : BlockId} (hl : ctx.Linked)
    (ht : t.HeldBy ctx) (hpush : ctx.pushOp b t.id = .ok ctx') (hb : b ∉ t.blockIds) :
    (t.placed b).HeldBy ctx' := by
  have hnd := ht.opIds_nodup hl
  obtain ⟨id, op, regions⟩ := t
  obtain ⟨ho, hrs, hall⟩ := ht
  obtain ⟨-, -, rfl⟩ := pushOp_ok hpush
  rw [OpTree.opIds_eq_regions, List.nodup_cons] at hnd
  simp only [OpTree.id, OpTree.blockIds, OpTree.blocks_node, List.map_flatMap] at hnd hb ⊢
  have hagrees {r : RegionTree} (hr : r ∈ regions) : ctx.Agrees ((ctx.modifyOp id fun op =>
      { op with parent := some b }).modifyBlock b fun block => { block with ops := block.ops ++ [id] })
      r.opIds r.blockIds :=
    { op? := fun {p op} hp hop => by
        have hne : p ≠ id := by
          rintro rfl
          exact hnd.1 (List.mem_flatMap.mpr ⟨r, hr, hp⟩)
        simpa [op?_modifyOp, hne] using hop
      block? := fun {c block} hc hblk => by
        have hne : c ≠ b := by
          rintro rfl
          exact hb (List.mem_flatMap.mpr ⟨r, hr, hc⟩)
        exact ⟨block, by simpa [block?_modifyBlock, hne] using hblk, rfl, rfl⟩
      region? := fun hreg => ⟨_, by simpa using hreg, rfl⟩
      value? := fun _ _ _ hv => by simpa using hv }
  refine .node (by simp [op?_modifyOp, ho]) hrs fun r hr => ?_
  exact (hagrees hr).region_heldBy r (List.Subset.refl _) (List.Subset.refl _) (hall r hr)

end Context

end RegionIR
