import RegionIR.Proofs.Lowering.Courses
import RegionIR.Proofs.Lowering.Pipeline

/-! Texts do not show how a lowering numbers what is new.

When the same account is followed in two contexts, the regions in the end differ in numbers only. What
stands around them may refer to any values; these are the same ones on both sides, and none that is
new. -/

namespace RegionIR

section Renaming

variable {V : ValueId → ValueId → Prop} {f g : ValueId → ValueId} {i j : OpId → OpId}

theorem OpTree.allMatch_map {α : Type} {B : BlockId → BlockId → Prop} {p q : α → OpTree} {l : List α}
    (h : ∀ x ∈ l, (p x).Matches V B (q x)) : OpTree.AllMatch V B (l.map p) (l.map q) := by
  induction l with
  | nil => exact trivial
  | cons x l ih => exact ⟨h x List.mem_cons_self, ih fun y hy => h y (List.mem_cons_of_mem _ hy)⟩

theorem RegionTree.allMatch_map {α : Type} {B : BlockId → BlockId → Prop} {p q : α → RegionTree}
    {l : List α} (h : ∀ x ∈ l, (p x).Matches V B (q x)) :
    RegionTree.AllMatch V B (l.map p) (l.map q) := by
  induction l with
  | nil => exact trivial
  | cons x l ih => exact ⟨h x List.mem_cons_self, ih fun y hy => h y (List.mem_cons_of_mem _ hy)⟩

theorem BlockTree.allMatch_map {α : Type} {B : BlockId → BlockId → Prop} {p q : α → BlockTree}
    {l : List α} (h : ∀ x ∈ l, (p x).Matches V B (q x)) :
    BlockTree.AllMatch V B (l.map p) (l.map q) := by
  induction l with
  | nil => exact trivial
  | cons x l ih => exact ⟨h x List.mem_cons_self, ih fun y hy => h y (List.mem_cons_of_mem _ hy)⟩

theorem forall₂_map_of_forall {α : Type} {l : List α} {p q : α → ValueId}
    (h : ∀ x ∈ l, V (p x) (q x)) : List.Forall₂ V (l.map p) (l.map q) := by
  rw [List.forall₂_map_left_iff, List.forall₂_map_right_iff]
  exact List.forall₂_same.mpr h

theorem Op.matches_rename {op : Op} (hoperands : ∀ v ∈ op.operands, V (f v) (g v))
    (hresults : ∀ v ∈ op.results, V (f v) (g v)) : (op.rename f).Matches V Eq (op.rename g) where
  dialect := rfl
  name := rfl
  attrs := rfl
  resultTypes := rfl
  operands := forall₂_map_of_forall hoperands
  results := forall₂_map_of_forall hresults
  successors := List.forall₂_same.mpr fun _ _ => rfl

theorem RegionTree.matches_rename (t : RegionTree)
    (hops : ∀ o ∈ t.preorder, (∀ v ∈ o.2.operands, V (f v) (g v)) ∧ ∀ v ∈ o.2.results, V (f v) (g v))
    (hblocks : ∀ b ∈ t.allBlocks, ∀ a ∈ b.args, V (f a.1) (g a.1)) :
    (t.rename i f).Matches V Eq (t.rename j g) := by
  revert hops hblocks
  refine RegionTree.forall_of
    (P := fun t => (∀ o ∈ t.preorder, (∀ v ∈ o.2.operands, V (f v) (g v)) ∧
      ∀ v ∈ o.2.results, V (f v) (g v)) → (∀ b ∈ t.blocks, ∀ a ∈ b.args, V (f a.1) (g a.1)) →
      (t.rename i f).Matches V Eq (t.rename j g))
    (Q := fun t => (∀ o ∈ t.preorder, (∀ v ∈ o.2.operands, V (f v) (g v)) ∧
      ∀ v ∈ o.2.results, V (f v) (g v)) → (∀ b ∈ t.allBlocks, ∀ a ∈ b.args, V (f a.1) (g a.1)) →
      (t.rename i f).Matches V Eq (t.rename j g))
    (R := fun b => (∀ o ∈ b.preorder, (∀ v ∈ o.2.operands, V (f v) (g v)) ∧
      ∀ v ∈ o.2.results, V (f v) (g v)) →
      (∀ c ∈ b :: b.nested, ∀ a ∈ c.args, V (f a.1) (g a.1)) →
      (b.rename i f).Matches V Eq (b.rename j g)) ?_ ?_ ?_ t
  · intro id op regions ih hops hblocks
    simp only [OpTree.preorder_node, List.forall_mem_cons, List.forall_mem_flatMap] at hops
    simp only [OpTree.blocks_node, List.forall_mem_flatMap] at hblocks
    rw [OpTree.rename_node, OpTree.rename_node, OpTree.Matches]
    refine ⟨Op.matches_rename hops.1.1 hops.1.2, RegionTree.allMatch_map fun r hr => ?_⟩
    exact ih r hr (hops.2 r hr) (hblocks r hr)
  · intro id blocks ih hops hblocks
    simp only [RegionTree.preorder_node, List.forall_mem_flatMap] at hops
    simp only [RegionTree.allBlocks_node] at hblocks
    rw [RegionTree.rename_node, RegionTree.rename_node, RegionTree.Matches]
    refine BlockTree.allMatch_map fun b hb => ih b hb (hops b hb) ?_
    refine List.forall_mem_cons.mpr ⟨hblocks b (List.mem_append_left _ hb), fun c hc => ?_⟩
    exact hblocks c (List.mem_append_right _ (List.mem_flatMap.mpr ⟨b, hb, hc⟩))
  · intro id args ops ih hops hblocks
    simp only [BlockTree.preorder_node, List.forall_mem_flatMap] at hops
    simp only [BlockTree.nested_node, List.forall_mem_cons, List.forall_mem_flatMap] at hblocks
    rw [BlockTree.rename_node, BlockTree.rename_node, BlockTree.Matches]
    refine ⟨rfl, ?_, OpTree.allMatch_map fun o ho => ih o ho (hops o ho) (hblocks.2 o ho)⟩
    rw [List.forall₂_map_left_iff, List.forall₂_map_right_iff]
    exact List.forall₂_same.mpr fun a ha => ⟨hblocks.1 a ha, rfl⟩

theorem RegionTree.rename_self (hi : ∀ o, i o = o) (hf : ∀ v, f v = v) (t : RegionTree) :
    t.rename i f = t := by
  have hmap (l : List ValueId) : l.map f = l := by rw [funext hf, List.map_id']
  refine RegionTree.forall_of (P := fun t => t.rename i f = t) (Q := fun t => t.rename i f = t)
    (R := fun t => t.rename i f = t) ?_ ?_ ?_ t
  · intro id op regions ih
    have hop : op.rename f = op := by rw [Op.rename, hmap, hmap]
    rw [OpTree.rename_node, hop, hi, List.map_congr_left ih, List.map_id']
  · intro id blocks ih
    rw [RegionTree.rename_node, List.map_congr_left ih, List.map_id']
  · intro id args ops ih
    rw [BlockTree.rename_node, List.map_congr_left ih, List.map_id']
    simp [hf]

end Renaming

namespace Context

variable {base ctx ctx₁ ctx₂ : Context} {t : RegionTree} {tree : OpTree} {a : Account} {r r₁ r₂ : Run}
  {image i₁ i₂ : OpId → OpId} {subst s₁ s₂ : ValueId → ValueId}

namespace Follows

/-- A value goes by its own number unless the operation that has it as a result was lowered. -/
theorem subst_eq_self_iff (hc : ctx.Confined t) (h : ctx.Follows t a r image subst) {v : ValueId}
    (hv : v ∈ definedValues t) : subst v = v ↔ ∀ o ∈ t.opIds, v ∈ (ctx.raw o).results →
      (a.forms o).isTupleOp = (ctx.raw o).isTupleOp := by
  constructor
  · intro he o ho hr
    by_contra hne
    have hnone := h.moved ho hr hne
    obtain ⟨value, hval⟩ := exists_value_of_defined hc.sound.typed hc.held hv
    rw [he, hval] at hnone
    simp at hnone
  · intro hall
    rcases mem_definedValues.mp hv with ⟨s, hs, ha⟩ | ⟨⟨o, op⟩, ho, hr⟩
    · exact h.refines.subst_arg hs ha
    · have hmem : o ∈ t.opIds := List.mem_map_of_mem ho
      have hraw : v ∈ (ctx.raw o).results := by
        rw [raw_of_some (hc.held.op?_of_mem ho)]
        exact hr
      exact h.stays hmem hraw (hall o hmem hraw)

/-- A value that is not called by its number any more is not stood for, nor does it stand for
another. -/
theorem ne_subst (hc : ctx.Confined t) (h : ctx.Follows t a r image subst) {v w : ValueId}
    {value : Value} (hval : ctx.value? v = some value) (hw : w ∈ definedValues t)
    (hne : v ∈ definedValues t → subst v ≠ v) : v ≠ subst w := by
  intro he
  rcases h.subst_cases hc hw with hself | hnone
  · rw [hself] at he
    exact hne (he ▸ hw) (he ▸ hself)
  · rw [← he, hval] at hnone
    simp at hnone

end Follows

/-- Numbers that stand for the same: of a value of the region, or of one that both keep. -/
def Exchanges (t : RegionTree) (s₁ s₂ : ValueId → ValueId) (x y : ValueId) : Prop :=
  (∃ v ∈ definedValues t, x = s₁ v ∧ y = s₂ v) ∨
    (x = y ∧ ∀ v ∈ definedValues t, x ≠ s₁ v ∧ x ≠ s₂ v)

theorem biUnique_exchanges
    (h₁ : ∀ v ∈ definedValues t, ∀ w ∈ definedValues t, s₁ v = s₁ w → v = w)
    (h₂ : ∀ v ∈ definedValues t, ∀ w ∈ definedValues t, s₂ v = s₂ w → v = w) :
    Relator.BiUnique (Exchanges t s₁ s₂) := by
  constructor
  · rintro x z y (⟨v, hv, rfl, rfl⟩ | ⟨rfl, hx⟩) (⟨w, hw, rfl, he⟩ | ⟨rfl, hy⟩)
    · rw [h₂ v hv w hw he]
    · exact absurd rfl (hy v hv).2
    · exact absurd he (hx w hw).2
    · rfl
  · rintro x y z (⟨v, hv, rfl, rfl⟩ | ⟨rfl, hx⟩) (⟨w, hw, he, rfl⟩ | ⟨rfl, hy⟩)
    · rw [h₁ v hv w hw he]
    · exact absurd rfl (hy v hv).1
    · exact absurd he (hx w hw).1
    · rfl

theorem matches_withBody {V : ValueId → ValueId → Prop} {u u' : RegionTree} (hs : base.Sound)
    (hground : base.Grounded) (htree : tree.HeldBy base)
    (hkept : ∀ v, (∃ value, base.value? v = some value) → V v v) (hbodies : u.Matches V Eq u') :
    (tree.withBody u).Matches V Eq (tree.withBody u') := by
  have hop : tree.op.Matches V Eq tree.op := by
    refine ⟨rfl, rfl, rfl, rfl, ?_, ?_, List.forall₂_same.mpr fun _ _ => rfl⟩
    · exact List.forall₂_same.mpr fun v hv => hkept v (hground _ _ htree.op?_id v hv)
    · refine List.forall₂_same.mpr fun v hv => hkept v ?_
      obtain ⟨i, hi⟩ := List.mem_iff_getElem?.mp hv
      obtain ⟨ty, -, hval⟩ := hs.typed.result htree.op?_id hi
      exact ⟨_, hval⟩
  have hrest : ∀ r ∈ tree.regions.tail, r.Matches V Eq r := by
    intro r hr
    have hheld := htree.region (List.mem_of_mem_tail hr)
    have hself : (r.rename (fun o => o) fun v => v).Matches V Eq
        (r.rename (fun o => o) fun v => v) := by
      refine RegionTree.matches_rename r (fun o ho => ⟨fun v hv => hkept v ?_, fun v hv => hkept v ?_⟩)
        fun b hb e he => hkept e.1 ?_
      · exact hground o.1 o.2 (hheld.op?_of_mem ho) v hv
      · exact exists_value_of_defined hs.typed hheld (mem_definedValues.mpr (.inr ⟨o, ho, hv⟩))
      · have he' := List.mem_map_of_mem (f := Prod.fst) he
        exact exists_value_of_defined hs.typed hheld (mem_definedValues.mpr (.inl ⟨b, hb, he'⟩))
    rwa [RegionTree.rename_self (fun _ => rfl) fun _ => rfl] at hself
  have hall := RegionTree.allMatch_map (p := fun r => r) (q := fun r => r) hrest
  obtain ⟨id, op, regions⟩ := tree
  refine ⟨hop, hbodies, ?_⟩
  rwa [List.map_id'] at hall

section Pairs

variable (hc₁ : ctx₁.Confined t) (hsame₁ : base.SameOn ctx₁ t) (h₁ : ctx₁.Follows t a r₁ i₁ s₁)
  (hc₂ : ctx₂.Confined t) (hsame₂ : base.SameOn ctx₂ t) (h₂ : ctx₂.Follows t a r₂ i₂ s₂)

include hc₁ h₁

theorem Follows.matches_bodies : ((a.tree t).rename i₁ s₁).Matches (Exchanges t s₁ s₂) Eq
    ((a.tree t).rename i₂ s₂) := by
  have hdefined {v : ValueId} (hv : v ∈ definedValues t) : Exchanges t s₁ s₂ (s₁ v) (s₂ v) :=
    .inl ⟨v, hv, rfl, rfl⟩
  refine RegionTree.matches_rename _ (fun o ho => ?_) fun b hb e he => ?_
  · obtain ⟨o, op⟩ := o
    obtain ⟨old, hm, rfl⟩ := RegionTree.mem_preorder_recast ho
    have hmem : o ∈ t.opIds := List.mem_map_of_mem hm
    exact ⟨fun v hv => hdefined (h₁.refines.operand_defined hc₁ hmem hv),
      fun v hv => hdefined (h₁.refines.result_defined hc₁ hmem hv)⟩
  · refine hdefined (h₁.refines.defined_of_recast hc₁ ?_)
    exact mem_definedValues.mpr (.inl ⟨b, hb, List.mem_map_of_mem he⟩)

include hc₂ h₂

theorem Follows.biUnique_exchanges : Relator.BiUnique (Exchanges t s₁ s₂) :=
  Context.biUnique_exchanges (fun _ hv _ hw => h₁.refines.subst_injective hc₁ hv hw)
    fun _ hv _ hw => h₂.refines.subst_injective hc₂ hv hw

include hsame₁ hsame₂

theorem Follows.exchanges_self {v : ValueId} {value₁ value₂ : Value}
    (hval₁ : ctx₁.value? v = some value₁) (hval₂ : ctx₂.value? v = some value₂) :
    Exchanges t s₁ s₂ v v := by
  have hiff (hv : v ∈ definedValues t) : s₁ v = v ↔ s₂ v = v := by
    rw [h₁.subst_eq_self_iff hc₁ hv, h₂.subst_eq_self_iff hc₂ hv]
    refine forall₂_congr fun o ho => ?_
    rw [hsame₁.raw ho, hsame₂.raw ho]
  by_cases hself : v ∈ definedValues t ∧ s₁ v = v
  · exact .inl ⟨v, hself.1, hself.2.symm, ((hiff hself.1).mp hself.2).symm⟩
  · have hne₁ (hv : v ∈ definedValues t) : s₁ v ≠ v := fun he => hself ⟨hv, he⟩
    have hne₂ (hv : v ∈ definedValues t) : s₂ v ≠ v := fun he => hne₁ hv ((hiff hv).mpr he)
    exact .inr ⟨rfl, fun w hw => ⟨h₁.ne_subst hc₁ hval₁ hw hne₁, h₂.ne_subst hc₂ hval₂ hw hne₂⟩⟩

theorem Follows.text_eq (hs : base.Sound) (hground : base.Grounded) (htree : tree.HeldBy base)
    (hlasts₁ : ∀ v value, base.value? v = some value → ∃ value', ctx₁.value? v = some value')
    (hlasts₂ : ∀ v value, base.value? v = some value → ∃ value', ctx₂.value? v = some value') :
    (tree.withBody ((a.tree t).rename i₁ s₁)).text =
      (tree.withBody ((a.tree t).rename i₂ s₂)).text := by
  have hkept (v : ValueId) (hv : ∃ value, base.value? v = some value) : Exchanges t s₁ s₂ v v := by
    obtain ⟨value, hval⟩ := hv
    obtain ⟨value₁, hval₁⟩ := hlasts₁ v value hval
    obtain ⟨value₂, hval₂⟩ := hlasts₂ v value hval
    exact h₁.exchanges_self hc₁ hsame₁ hc₂ hsame₂ h₂ hval₁ hval₂
  have hmatch : (tree.withBody ((a.tree t).rename i₁ s₁)).Matches (Exchanges t s₁ s₂) Eq
      (tree.withBody ((a.tree t).rename i₂ s₂)) :=
    matches_withBody hs hground htree hkept (h₁.matches_bodies hc₁)
  have heq : Relator.BiUnique (Eq : BlockId → BlockId → Prop) :=
    ⟨fun _ _ _ h h' => h.trans h'.symm, fun _ _ _ h h' => h.symm.trans h'⟩
  have hiso : OpTree.Isomorphic (tree.withBody ((a.tree t).rename i₁ s₁))
      (tree.withBody ((a.tree t).rename i₂ s₂)) :=
    ⟨_, Eq, h₁.biUnique_exchanges hc₁ hc₂ h₂, heq, hmatch⟩
  rw [OpTree.text, OpTree.text, hiso.toSource_eq]

end Pairs

end Context

end RegionIR
