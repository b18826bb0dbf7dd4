import RegionIR.Proofs.Lowering.Courses
import RegionIR.Proofs.Lowering.Pipeline
import RegionIR.Proofs.Source.Inclusion

/-! What a lowering leaves alone.

A tree that is not nested with the module goes on to be held, and if its body is used by itself only,
the context shows the body as before: the same operations, blocks and values, the same uses. So it is
printed and checked as before. -/

namespace RegionIR

namespace Context

variable {base ctx cur : Context} {t s : RegionTree} {tree other : OpTree} {forms : OpId → Op}
  {image : OpId → OpId} {subst : ValueId → ValueId}

/-- Neither tree stands in the other. -/
def Apart (tree other : OpTree) : Prop :=
  tree.id ∉ other.opIds ∧ other.id ∉ tree.opIds

theorem Apart.symm (h : Apart tree other) : Apart other tree := ⟨h.2, h.1⟩

namespace Apart

theorem opIds_disjoint (h : Apart tree other) (hl : ctx.Linked) (htree : tree.HeldBy ctx)
    (hother : other.HeldBy ctx) {o : OpId} (ho : o ∈ other.opIds) : o ∉ tree.opIds := by
  intro hm
  rcases htree.comparable hl hother hm ho with hc | hc
  · exact h.1 hc
  · exact h.2 hc

theorem blockIds_disjoint (h : Apart tree other) (hl : ctx.Linked) (htree : tree.HeldBy ctx)
    (hother : other.HeldBy ctx) {b : BlockId} (hb : b ∈ other.blockIds) : b ∉ tree.blockIds := by
  intro hm
  obtain ⟨s, hs, rfl⟩ := List.mem_map.mp hb
  obtain ⟨s', hs', he⟩ := List.mem_map.mp hm
  obtain ⟨r, o, ho, hstands⟩ := hother.exists_standsIn hl hs
  obtain ⟨r', o', ho', hstands'⟩ := htree.exists_standsIn hl hs'
  rw [he] at hstands'
  obtain rfl := (hstands.unique hstands').2
  exact h.opIds_disjoint hl htree hother ho ho'

end Apart

theorem opIds_subset_tree (ht : t ∈ tree.regions) {o : OpId} (ho : o ∈ t.opIds) : o ∈ tree.opIds := by
  rw [OpTree.opIds_eq_regions]
  exact List.mem_cons_of_mem _ (List.mem_flatMap.mpr ⟨t, ht, ho⟩)

theorem blockIds_subset_tree (ht : t ∈ tree.regions) {b : BlockId} (hb : b ∈ t.blockIds) :
    b ∈ tree.blockIds := by
  obtain ⟨id, op, regions⟩ := tree
  rw [OpTree.blockIds, OpTree.blocks_node, List.map_flatMap]
  exact List.mem_flatMap.mpr ⟨t, ht, hb⟩

theorem Confined.values_disjoint (hc : ctx.Confined t) (hc' : ctx.Confined s)
    (hops : ∀ o ∈ s.opIds, o ∉ t.opIds) (hblocks : ∀ b ∈ s.blockIds, b ∉ t.blockIds) {v : ValueId}
    (hv : v ∈ definedValues s) : v ∉ definedValues t := by
  intro hm
  rcases hc'.origin hv with ⟨o, ho, i, ty, hval, -⟩ | ⟨b, hb, i, ty, _, hval, -, -⟩ <;>
    rcases hc.origin hm with ⟨o', ho', i', ty', hval', -⟩ | ⟨b', hb', i', ty', _, hval', -, -⟩
  · rw [hval] at hval'
    simp only [Option.some.injEq, Value.mk.injEq, Origin.result.injEq] at hval'
    exact hops o ho (hval'.1.1 ▸ ho')
  · simp [hval] at hval'
  · simp [hval] at hval'
  · rw [hval] at hval'
    simp only [Option.some.injEq, Value.mk.injEq, Origin.argument.injEq] at hval'
    refine hblocks b.id (RegionTree.HeldBy.mem_blockIds_iff.mpr ⟨b, hb, rfl⟩) ?_
    exact RegionTree.HeldBy.mem_blockIds_iff.mpr ⟨b', hb', hval'.1.1.symm⟩

theorem Confined.useErrors (hc : ctx.Confined t) : ctx.useErrors t = .ok [] := by
  refine useErrors_eq_nil_iff.mpr ⟨fun e he => ?_, fun v hv u hu => ?_⟩
  · obtain ⟨v, ⟨user, i⟩⟩ := e
    obtain ⟨op, hm, hi⟩ := mem_operandUses.mp he
    exact hc.recorded (List.mem_map_of_mem hm) op i v (hc.held.op?_of_mem hm) hi
  · obtain ⟨op, hop, hi⟩ := hc.sound.ledgered.sound hu
    have hm := hc.held.mem_preorder_raw (hc.users hv hu)
    rw [raw_of_some hop] at hm
    exact mem_operandUses.mpr ⟨op, hm, hi⟩

namespace SameOn

/-- A region that is shown as before is as confined as before. -/
theorem confined (h : base.SameOn ctx t) (hc : base.Confined t) (hs : ctx.Sound) (ht : t.HeldBy ctx)
    (hgrounded : ∀ e ∈ ctx.ledger, ∃ value, ctx.value? e.1 = some value) : ctx.Confined t := by
  constructor
  case sound => exact hs
  case held => exact ht
  case nodup => exact hc.nodup
  case recorded =>
    intro o ho op i v hop hi
    rw [h.op? ho] at hop
    have hv : v ∈ definedValues t := by
      refine hc.operands ho ?_
      rw [raw_of_some hop]
      exact List.mem_of_getElem? hi
    rw [← mem_uses, h.uses hv, mem_uses]
    exact hc.recorded ho op i v hop hi
  case operands =>
    intro o v ho hv
    rw [h.raw ho] at hv
    exact hc.operands ho hv
  case users =>
    intro v u hv hu
    rw [← mem_uses, h.uses hv, mem_uses] at hu
    exact hc.users hv hu
  case grounded => exact fun hu => hgrounded _ hu

theorem scopeErrors (h : base.SameOn ctx t) (hc : base.Confined t) :
    ctx.scopeErrors [] t = base.scopeErrors [] t := by
  refine scopeErrors_congr t fun o ho v hv => ?_
  have hdefined : v ∈ definedValues t := by
    refine hc.operands (List.mem_map_of_mem ho) ?_
    rw [raw_of_some (hc.held.op?_of_mem ho)]
    exact hv
  rcases hc.origin hdefined with ⟨p, hp, i, ty, hval, -⟩ | ⟨b, -, i, ty, _, hval, -, -⟩
  · have hop := hc.held.op?_raw hp
    simp only [describe, value_eq_ok.mpr hval, value_eq_ok.mpr ((h.value? hdefined).trans hval),
      except_ok_bind, op_eq_ok.mpr hop, op_eq_ok.mpr ((h.op? hp).trans hop)]
  · simp only [describe, value_eq_ok.mpr hval, value_eq_ok.mpr ((h.value? hdefined).trans hval),
      except_ok_bind]

theorem validate (h : base.SameOn ctx t) (hc : base.Confined t) (hc' : ctx.Confined t)
    (htree : tree.HeldBy base) (htree' : tree.HeldBy ctx) (hbody : tree.regions.head? = some t) :
    ctx.validate tree.id = base.validate tree.id := by
  have hregion := regionTree_eq_ok_iff.mpr ⟨rfl, hc.held⟩
  have hregion' := regionTree_eq_ok_iff.mpr ⟨rfl, hc'.held⟩
  simp only [Context.validate, validateScopes, validateUses, htree.body_of_head hbody,
    htree'.body_of_head hbody, hregion, hregion', except_ok_bind, h.scopeErrors hc, hc.useErrors,
    hc'.useErrors]

end SameOn

namespace Refines

/-- What is not nested with the module is held as before. -/
theorem keeps (hc : ctx.Confined t) (h : ctx.Refines t forms cur image subst)
    (htree : tree.HeldBy ctx) (ht : t ∈ tree.regions) (hother : other.HeldBy ctx)
    (hapart : Apart tree other) : other.HeldBy cur := by
  have hl := hc.sound.linked
  have hagrees : ctx.Agrees cur other.opIds other.blockIds := h.agrees hc
    (fun o ho hm => hapart.opIds_disjoint hl htree hother ho (opIds_subset_tree ht hm))
    (fun b hb hm => hapart.blockIds_disjoint hl htree hother hb (blockIds_subset_tree ht hm))
  exact hagrees.heldBy (List.Subset.refl _) (List.Subset.refl _) hother

end Refines

/-- Another region is shown as before. -/
theorem Follows.sameOn {a : Account} {r : Run} (hc : ctx.Confined t) (hc' : ctx.Confined s)
    (h : ctx.Follows t a r image subst) (hops : ∀ o ∈ s.opIds, o ∉ t.opIds)
    (hblocks : ∀ b ∈ s.blockIds, b ∉ t.blockIds) : ctx.SameOn r.ctx s := by
  have hvalue {v : ValueId} (hv : v ∈ definedValues s) : ∃ value, ctx.value? v = some value :=
    exists_value_of_defined hc'.sound.typed hc'.held hv
  have hvalues {v : ValueId} (hv : v ∈ definedValues s) : v ∉ definedValues t :=
    hc.values_disjoint hc' hops hblocks hv
  constructor
  case op? =>
    intro o ho
    have hop := hc'.held.op?_raw ho
    rw [hop, h.refines.outside (hops o ho) hop]
  case block? =>
    intro b hb
    obtain ⟨s', hs', rfl⟩ := RegionTree.HeldBy.mem_blockIds_iff.mp hb
    obtain ⟨hblk, -⟩ := hc'.held.block hs'
    have hout := hblocks _ hb
    simp only [BlockTree.id] at hout ⊢
    rw [hblk, h.refines.block? hblk, if_neg hout]
  case value? =>
    intro v hv
    obtain ⟨value, hval⟩ := hvalue hv
    rw [hval, h.leaves.value? (hvalues hv) hval]
  case uses =>
    intro v hv
    obtain ⟨value, hval⟩ := hvalue hv
    exact h.leaves.uses (hvalues hv) hval

end Context

end RegionIR
