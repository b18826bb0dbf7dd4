import RegionIR.Proofs.Context.Ownership
import RegionIR.Proofs.Rewrite.Reworking
import RegionIR.Proofs.Rewrite.Retyping

/-! What is nested where does not change while a module is converted.

New operations own nothing, and old ones own what they owned and stand where they stood or nowhere
at all. So the tree of a region is still finite afterwards, and no block has come in. -/

namespace RegionIR

theorem exists_map_of_forall_mem {α β : Type} {f : β → α} {P : β → Prop} {l : List α}
    (h : ∀ a ∈ l, ∃ b, f b = a ∧ P b) : ∃ l' : List β, l'.map f = l ∧ ∀ b ∈ l', P b := by
  induction l with
  | nil => exact ⟨[], rfl, by simp⟩
  | cons a l ih =>
    rw [List.forall_mem_cons] at h
    obtain ⟨b, rfl, hb⟩ := h.1
    obtain ⟨l', rfl, hl'⟩ := ih h.2
    exact ⟨b :: l', rfl, List.forall_mem_cons.mpr ⟨hb, hl'⟩⟩

/-! What is held stays finite, and its blocks are among those that it had. -/

def OpTree.Survives (ctx : Context) (t : OpTree) : Prop :=
  ∃ t' : OpTree, t'.id = t.id ∧ t'.HeldBy ctx ∧ ∀ b ∈ t'.blocks, ∃ c ∈ t.blocks, c.id = b.id

def RegionTree.Survives (ctx : Context) (t : RegionTree) : Prop :=
  ∃ t' : RegionTree, t'.id = t.id ∧ t'.HeldBy ctx ∧ ∀ b ∈ t'.blockIds, b ∈ t.blockIds

def BlockTree.Survives (ctx : Context) (t : BlockTree) : Prop :=
  ∃ t' : BlockTree, t'.id = t.id ∧ t'.HeldBy ctx ∧ ∀ b ∈ t'.nested, ∃ c ∈ t.nested, c.id = b.id

namespace Context

variable {ctx ctx' ctx'' : Context}

structure Keeps (ctx ctx' : Context) : Prop where
  op? {o : OpId} {op : Op} : ctx.op? o = some op → ∃ op', ctx'.op? o = some op' ∧
    op'.regions = op.regions ∧ (op'.parent = none ∨ op'.parent = op.parent)
  created {o : OpId} {op : Op} : ctx.op? o = none → ctx'.op? o = some op → op.regions = []
  block? {b : BlockId} {block : Block} : ctx.block? b = some block →
    ∃ block', ctx'.block? b = some block'
  region? (r : RegionId) : ctx'.region? r = ctx.region? r

theorem Keeps.refl (ctx : Context) : ctx.Keeps ctx where
  op? ho := ⟨_, ho, rfl, .inr rfl⟩
  created hnone ho := by simp [hnone] at ho
  block? hb := ⟨_, hb⟩
  region? _ := rfl

theorem Keeps.trans (h : ctx.Keeps ctx') (h' : ctx'.Keeps ctx'') : ctx.Keeps ctx'' where
  op? ho := by
    obtain ⟨op', ho', hr, hp⟩ := h.op? ho
    obtain ⟨op'', ho'', hr', hp'⟩ := h'.op? ho'
    refine ⟨op'', ho'', hr'.trans hr, ?_⟩
    rcases hp' with hp' | hp'
    · exact .inl hp'
    · exact hp.imp hp'.trans hp'.trans
  created {o op} hnone ho := by
    cases ho' : ctx'.op? o with
    | none => exact h'.created ho' ho
    | some op' =>
      obtain ⟨op'', ho'', hr, -⟩ := h'.op? ho'
      obtain rfl := Option.some.inj (ho.symm.trans ho'')
      exact hr.trans (h.created hnone ho')
  block? hb := by
    obtain ⟨block', hb'⟩ := h.block? hb
    exact h'.block? hb'
  region? r := (h'.region? r).trans (h.region? r)

theorem Keeps.body (h : ctx.Keeps ctx') {m : OpId} {r : Option RegionId}
    (hr : ctx.body m = .ok r) : ctx'.body m = .ok r := by
  simp only [Context.body, except_bind_eq_ok, op_eq_ok, except_pure_eq_ok] at hr ⊢
  obtain ⟨op, ho, hr⟩ := hr
  obtain ⟨op', ho', hregions, -⟩ := h.op? ho
  exact ⟨op', ho', hregions ▸ hr⟩

theorem Reworks.keeps {old : OpId} {fresh : List OpId} {values : List ValueId}
    (h : Reworks ctx old fresh values ctx') : ctx.Keeps ctx' where
  op? ho := by
    obtain ⟨operands, parent, ho', -, hp, -⟩ := h.op? ho
    exact ⟨_, ho', rfl, hp.symm.imp_left And.right⟩
  created hnone ho := (h.created hnone ho).1
  block? hb := by
    obtain ⟨block', hb', -⟩ := exists_of_map_eq (h.block? _).symm hb
    exact ⟨block', hb'⟩
  region? := h.region?

theorem ChangesOp.keeps {o : OpId} {op new : Op} (h : ChangesOp ctx ctx' o new)
    (ho : ctx.op? o = some op) (hregions : new.regions = op.regions)
    (hparent : new.parent = op.parent) : ctx.Keeps ctx' where
  op? {p op'} hp := by
    rw [h.op?]
    split
    · rename_i he
      obtain rfl := Option.some.inj (ho.symm.trans (he ▸ hp))
      exact ⟨new, rfl, hregions, .inr hparent⟩
    · exact ⟨op', hp, rfl, .inr rfl⟩
  created {p op'} hnone hp := by
    rw [h.op?] at hp
    split at hp
    · rename_i he
      rw [he, ho] at hnone
      simp at hnone
    · simp [hnone] at hp
  block? hb := ⟨_, (h.block? _).trans hb⟩
  region? := h.region?

theorem RetypesArgs.keeps {c : Converter} {bs : List BlockId} (h : RetypesArgs c ctx ctx' bs) :
    ctx.Keeps ctx' where
  op? ho := ⟨_, (h.op? _).trans ho, rfl, .inr rfl⟩
  created hnone ho := by simp [(h.op? _).symm.trans ho] at hnone
  block? {b block} hb := by
    rw [h.block?, hb]
    split
    · exact ⟨_, rfl⟩
    · exact ⟨_, rfl⟩
  region? := h.region?

theorem Keeps.survives_op (h : ctx.Keeps ctx') {id : OpId} {op : Op} {regions : List RegionTree}
    (ho : ctx.op? id = some op) (hrs : op.regions = regions.map RegionTree.id)
    (ih : ∀ r ∈ regions, r.Survives ctx') : (OpTree.node id op regions).Survives ctx' := by
  obtain ⟨op', ho', hrs', -⟩ := h.op? ho
  obtain ⟨regions', hmap, hregions⟩ := exists_map_of_forall_mem (l := op'.regions)
    (f := RegionTree.id) (P := fun r' => r'.HeldBy ctx' ∧
      ∀ b ∈ r'.blockIds, ∃ r ∈ regions, b ∈ r.blockIds) (by
    intro r hr
    rw [hrs', hrs] at hr
    obtain ⟨s, hsm, rfl⟩ := List.mem_map.mp hr
    obtain ⟨s', hid, hheld, hblocks⟩ := ih s hsm
    exact ⟨s', hid, hheld, fun b hb => ⟨s, hsm, hblocks b hb⟩⟩)
  refine ⟨.node id op' regions', rfl, .node ho' hmap.symm fun r hr => (hregions r hr).1, ?_⟩
  intro b hb
  rw [OpTree.blocks_node, List.mem_flatMap] at hb
  obtain ⟨r', hr', hb⟩ := hb
  obtain ⟨r, hr, hm⟩ := (hregions r' hr').2 b.id (List.mem_map_of_mem hb)
  obtain ⟨c, hc, he⟩ := List.mem_map.mp hm
  exact ⟨c, by rw [OpTree.blocks_node]; exact List.mem_flatMap.mpr ⟨r, hr, hc⟩, he⟩

theorem Keeps.survives_region (h : ctx.Keeps ctx') {id : RegionId} {region : Region}
    {blocks : List BlockTree} (hr : ctx.region? id = some region)
    (hbs : region.blocks = blocks.map BlockTree.id) (ih : ∀ b ∈ blocks, b.Survives ctx') :
    (RegionTree.node id blocks).Survives ctx' := by
  obtain ⟨blocks', hmap, hblocks⟩ := exists_map_of_forall_mem (l := region.blocks)
    (f := BlockTree.id) (P := fun b' => b'.HeldBy ctx' ∧
      (∃ b ∈ blocks, b.id = b'.id) ∧ ∀ c ∈ b'.nested, ∃ b ∈ blocks, ∃ d ∈ b.nested, d.id = c.id) (by
    intro b hb
    rw [hbs] at hb
    obtain ⟨s, hsm, rfl⟩ := List.mem_map.mp hb
    obtain ⟨s', hid, hheld, hnested⟩ := ih s hsm
    exact ⟨s', hid, hheld, ⟨s, hsm, hid.symm⟩, fun c hc => ⟨s, hsm, hnested c hc⟩⟩)
  refine ⟨.node id blocks', rfl,
    .node ((h.region? id).trans hr) hmap.symm fun b hb => (hblocks b hb).1, ?_⟩
  simp only [RegionTree.blockIds, RegionTree.allBlocks_node, List.forall_mem_map]
  intro b hb
  rw [List.mem_append, List.mem_flatMap] at hb
  rcases hb with hb | ⟨b', hb', hb⟩
  · obtain ⟨c, hc, he⟩ := (hblocks b hb).2.1
    exact List.mem_map.mpr ⟨c, List.mem_append_left _ hc, he⟩
  · obtain ⟨c, hc, d, hd, he⟩ := (hblocks b' hb').2.2 b hb
    exact List.mem_map.mpr
      ⟨d, List.mem_append_right _ (List.mem_flatMap.mpr ⟨c, hc, hd⟩), he⟩

/-- What stands in a block afterwards stood in it before, or it is new and has nothing in it. -/
theorem Keeps.survives_block (h : ctx.Keeps ctx') (hs : ctx.Sound) (hs' : ctx'.Sound) {id : BlockId}
    {block : Block} {args : List (ValueId × Ty)} {ops : List OpTree}
    (hb : ctx.block? id = some block) (hops : block.ops = ops.map OpTree.id)
    (ih : ∀ c ∈ ops, c.Survives ctx') : (BlockTree.node id args ops).Survives ctx' := by
  obtain ⟨block', hb'⟩ := h.block? hb
  obtain ⟨args', hmap, hargs'⟩ := exists_map_of_forall_mem (l := block'.args) (f := Prod.fst)
    (P := fun a : ValueId × Ty => ∃ value, ctx'.value? a.1 = some value ∧ value.ty = a.2) (by
    intro v hv
    obtain ⟨i, hi⟩ := List.mem_iff_getElem?.mp hv
    obtain ⟨ty, -, hval⟩ := hs'.typed.argument hb' hi
    exact ⟨(v, ty), rfl, _, hval, rfl⟩)
  obtain ⟨ops', hmap', hops'⟩ := exists_map_of_forall_mem (l := block'.ops) (f := OpTree.id)
    (P := fun c' => c'.HeldBy ctx' ∧
      ∀ b ∈ c'.blocks, ∃ c ∈ ops, ∃ d ∈ c.blocks, d.id = b.id) (by
    intro o hm
    obtain ⟨op', ho', hp'⟩ := hs'.linked.op_of_listed hb' hm
    cases ho : ctx.op? o with
    | none => exact ⟨.node o op' [], rfl, .node ho' (h.created ho ho') (by simp), by simp⟩
    | some op =>
      obtain ⟨op'', ho'', -, hp⟩ := h.op? ho
      obtain rfl := Option.some.inj (ho'.symm.trans ho'')
      have hpo : op.parent = some id := by
        rcases hp with hp | hp
        · simp [hp] at hp'
        · exact hp.symm.trans hp'
      obtain ⟨block₀, hb₀, hmem⟩ := hs.linked.listed_of_op ho hpo
      obtain rfl := Option.some.inj (hb.symm.trans hb₀)
      rw [hops] at hmem
      obtain ⟨c, hc, rfl⟩ := List.mem_map.mp hmem
      obtain ⟨c', hid, hheld, hblocks⟩ := ih c hc
      exact ⟨c', hid, hheld, fun b hb => ⟨c, hc, hblocks b hb⟩⟩)
  refine ⟨.node id args' ops', rfl,
    .node hb' hmap.symm hargs' hmap'.symm fun c hc => (hops' c hc).1, fun b hb => ?_⟩
  rw [BlockTree.nested_node, List.mem_flatMap] at hb
  obtain ⟨c', hc', hb⟩ := hb
  obtain ⟨c, hc, d, hd, he⟩ := (hops' c' hc').2 b hb
  exact ⟨d, by rw [BlockTree.nested_node]; exact List.mem_flatMap.mpr ⟨c, hc, hd⟩, he⟩

theorem Keeps.exists_tree (h : ctx.Keeps ctx') (hs : ctx.Sound) (hs' : ctx'.Sound) {t : RegionTree}
    (ht : t.HeldBy ctx) : t.Survives ctx' := by
  revert ht
  refine RegionTree.forall_of (P := fun t => t.HeldBy ctx → t.Survives ctx')
    (Q := fun t => t.HeldBy ctx → t.Survives ctx') (R := fun t => t.HeldBy ctx → t.Survives ctx')
    ?_ ?_ ?_ t
  · rintro id op regions ih ⟨ho, hrs, hall⟩
    exact h.survives_op ho hrs fun r hr => ih r hr (hall r hr)
  · rintro id blocks ih ⟨hr, hbs, hall⟩
    exact h.survives_region hr hbs fun b hb => ih b hb (hall b hb)
  · rintro id args ops ih ⟨hb, -, -, hops, hall⟩
    exact h.survives_block hs hs' hb hops fun c hc => ih c hc (hall c hc)

end Context

end RegionIR
