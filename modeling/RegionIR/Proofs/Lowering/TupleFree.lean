import RegionIR.Proofs.Lowering.Pipeline
import RegionIR.Proofs.Rewrite.Stillness

/-! Regions without tuples.

A lowering that succeeds leaves no tuple in the body of the module, and a module whose body has none
is printed as it is. -/

namespace RegionIR

/-- No tuple operation, and no tuple in the types of results and in attributes. -/
def Op.TupleFree (op : Op) : Prop :=
  op.isTupleOp = false ∧ (∀ ty ∈ op.resultTypes, ty.TupleFree) ∧ ∀ e ∈ op.attrs, e.2.TupleFree

instance (op : Op) : Decidable op.TupleFree :=
  inferInstanceAs (Decidable (_ ∧ _ ∧ _))

theorem Op.Legal.tupleFree {op : Op} {types : ValueId → Ty} (h : op.Legal types) : op.TupleFree :=
  ⟨h.1, h.2.2⟩

theorem Op.tupleFree_of_retyped {op : Op} (hname : op.isTupleOp = false) (h : op.retyped = op) :
    op.TupleFree := by
  obtain ⟨hresults, hattrs⟩ := Op.retyped_eq_self_iff.mp h
  exact ⟨hname, fun ty hty => Ty.lowered_eq_self_iff.mp (hresults ty hty),
    fun e he => hattrs e he ▸ e.2.tupleFree_lowered⟩

theorem Op.tupleFree_rename_iff {op : Op} {f : ValueId → ValueId} :
    (op.rename f).TupleFree ↔ op.TupleFree :=
  Iff.rfl

namespace RegionTree

/-- No tuple operation and no tuple type at any depth. -/
structure TupleFree (t : RegionTree) : Prop where
  ops : ∀ o ∈ t.preorder, o.2.TupleFree
  args : ∀ b ∈ t.allBlocks, ∀ a ∈ b.args, a.2.TupleFree

theorem exists_of_mem_args_recast {f : OpId → Op → Op} {g : Ty → Ty} {t : RegionTree}
    {b : BlockTree}
    (hb : b ∈ (t.recast f g).allBlocks) {a : ValueId × Ty} (ha : a ∈ b.args) :
    ∃ ty, a.2 = g ty := by
  revert hb
  refine RegionTree.forall_of (P := fun t => b ∈ (t.recast f g).blocks → ∃ ty, a.2 = g ty)
    (Q := fun t => b ∈ (t.recast f g).allBlocks → ∃ ty, a.2 = g ty)
    (R := fun t => b ∈ (t.recast f g) :: (t.recast f g).nested → ∃ ty, a.2 = g ty) ?_ ?_ ?_ t
  · intro id op regions ih hb
    rw [OpTree.recast_node, OpTree.blocks_node] at hb
    split at hb
    · simp at hb
    · rw [List.flatMap_map, List.mem_flatMap] at hb
      obtain ⟨r, hr, hb⟩ := hb
      exact ih r hr hb
  · intro id blocks ih hb
    simp only [RegionTree.recast_node, RegionTree.allBlocks_node, List.mem_append, List.mem_map,
      List.mem_flatMap, exists_exists_and_eq_and] at hb
    rcases hb with ⟨c, hc, rfl⟩ | ⟨c, hc, hb⟩
    · exact ih c hc List.mem_cons_self
    · exact ih c hc (List.mem_cons_of_mem _ hb)
  · intro id args ops ih hb
    rw [BlockTree.recast_node, BlockTree.nested_node, List.flatMap_map, List.mem_cons,
      List.mem_flatMap] at hb
    rcases hb with rfl | ⟨c, hc, hb⟩
    · obtain ⟨arg, -, rfl⟩ := List.mem_map.mp ha
      exact ⟨arg.2, rfl⟩
    · exact ih c hc hb

end RegionTree

namespace Pipeline

variable {text : String} {verify : Bool} {lowered : Lowered} {ctx ctx' : Context} {id : OpId}
  {tree : OpTree} {t : RegionTree} {result : Engine.Result} {s : Progress} {image : OpId → OpId}
  {subst : ValueId → ValueId}

theorem Succeeds.tupleFree (h : Succeeds ctx tree verify lowered t ctx' result s image subst) :
    ((s.tree t).rename image subst).TupleFree := by
  have hlegal := h.lowers.left_nil.mp rfl
  constructor
  · intro o ho
    rw [RegionTree.preorder_rename] at ho
    obtain ⟨p, hp, rfl⟩ := List.mem_map.mp ho
    obtain ⟨op, -, hform⟩ := RegionTree.mem_preorder_recast hp
    rw [hform, Op.tupleFree_rename_iff]
    exact (hlegal p.1 (List.mem_map_of_mem hp)).tupleFree
  · intro b hb a ha
    rw [RegionTree.allBlocks_rename] at hb
    obtain ⟨c, hc, rfl⟩ := List.mem_map.mp hb
    obtain ⟨cid, args, ops⟩ := c
    rw [BlockTree.rename_node] at ha
    obtain ⟨arg, harg, rfl⟩ := List.mem_map.mp ha
    obtain ⟨ty, hty⟩ := RegionTree.exists_of_mem_args_recast hc harg
    rw [hty]
    exact ty.tupleFree_lowered

/-- The body of a lowered module is free of tuples. The module operation and the further regions are
as they were, with what tuples they have. -/
theorem lower_tupleFree (h : lower text verify = .ok lowered)
    (hparse : Context.parse {} text = (.ok id, ctx)) (htree : ctx.opTree id = .ok tree) :
    ∃ ctx' tree' body, TupleLowering.run ctx id verify = .ok (.ok lowered.stats, ctx') ∧
      ctx'.opTree id = .ok tree' ∧ lowered.text = tree'.text ∧ tree'.op = tree.op ∧
      tree'.regions = body :: tree.regions.tail ∧ body.TupleFree := by
  obtain ⟨t, ctx', result, s, image, subst, hs⟩ := exists_succeeds h hparse htree
  obtain ⟨rfl, -⟩ := Context.opTree_eq_ok_iff.mp htree
  refine ⟨ctx', _, _, hs.run, hs.opTree, hs.text, ?_, ?_, hs.tupleFree⟩ <;> cases tree <;> rfl

theorem lower_tupleFree_empty : ∃ lowered id ctx tree,
    lower "core.module @m \x7b t.t : core.tuple() \x7d" true = .ok lowered ∧
    Context.parse {} "core.module @m \x7b t.t : core.tuple() \x7d" = (.ok id, ctx) ∧
    ctx.opTree id = .ok tree ∧ ∃ ctx' tree' body,
      TupleLowering.run ctx id true = .ok (.ok lowered.stats, ctx') ∧
      ctx'.opTree id = .ok tree' ∧ lowered.text = tree'.text ∧ tree'.op = tree.op ∧
      tree'.regions = body :: tree.regions.tail ∧ body.TupleFree := by
  obtain ⟨lowered, id, ctx, tree, hlower, hparse, htree, -⟩ := exists_lowered
    "core.module @m \x7b t.t : core.tuple() \x7d" true (fun _ _ _ _ => true) (by decide +kernel)
  exact ⟨lowered, id, ctx, tree, hlower, hparse, htree, lower_tupleFree hlower hparse htree⟩

/-- A tuple type in an attribute of the module operation stays. -/
theorem lower_of_tuple_attribute : ∃ text lowered id ctx tree ctx' tree',
    lower text true = .ok lowered ∧ Context.parse {} text = (.ok id, ctx) ∧
      ctx.opTree id = .ok tree ∧ TupleLowering.run ctx id true = .ok (.ok lowered.stats, ctx') ∧
      ctx'.opTree id = .ok tree' ∧ lowered.text = tree'.text ∧ ¬tree'.op.TupleFree := by
  obtain ⟨lowered, id, ctx, tree, hlower, hparse, htree, hcheck⟩ := exists_lowered
    "core.module @m \x7ba = core.tuple()\x7d \x7b\x7d" true (fun lowered ctx id _ =>
      (TupleLowering.run ctx id true).toOption.any fun r => r.1.toOption.any fun stats =>
        (r.2.opTree id).toOption.any fun tree' =>
          decide (stats = lowered.stats ∧ lowered.text = tree'.text ∧ ¬tree'.op.TupleFree))
    (by decide +kernel)
  obtain ⟨⟨answer, ctx'⟩, hrun, hcheck⟩ := except_any_iff.mp hcheck
  obtain ⟨stats, hanswer, hcheck⟩ := except_any_iff.mp hcheck
  obtain ⟨tree', htree', hcheck⟩ := except_any_iff.mp hcheck
  obtain ⟨rfl, htext, hfree⟩ := of_decide_eq_true hcheck
  obtain rfl : answer = .ok lowered.stats := hanswer
  exact ⟨_, lowered, id, ctx, tree, ctx', tree', hlower, hparse, htree, hrun, htree', htext, hfree⟩

end Pipeline

namespace Context

variable {ctx : Context} {t : RegionTree} {tree : OpTree}

theorem tyOf_of_tupleFree (hs : ctx.Typed) (hheld : t.HeldBy ctx) (ht : t.TupleFree) {v : ValueId}
    (hv : v ∈ definedValues t) : ctx.typeOf v = .ok (ctx.tyOf v) ∧ (ctx.tyOf v).TupleFree := by
  obtain ⟨value, hval, hfree⟩ : ∃ value, ctx.value? v = some value ∧ value.ty.TupleFree := by
    rcases mem_definedValues.mp hv with ⟨b, hb, ha⟩ | ⟨o, ho, hr⟩
    · have hargs := ht.args b hb
      obtain ⟨-, -, hvals, -, -⟩ := hheld.block hb
      obtain ⟨a, hm, rfl⟩ := List.mem_map.mp ha
      obtain ⟨value, hval, hty⟩ := hvals a hm
      exact ⟨value, hval, hty ▸ hargs a hm⟩
    · obtain ⟨i, hi⟩ := List.mem_iff_getElem?.mp hr
      obtain ⟨ty, hty, hval⟩ := hs.result (hheld.op?_of_mem ho) hi
      exact ⟨_, hval, (ht.ops o ho).2.1 ty (List.mem_of_getElem? hty)⟩
  have htyOf : ctx.tyOf v = value.ty := by simp [tyOf, hval]
  rw [htyOf]
  exact ⟨typeOf_eq_ok.mpr ⟨value, hval, rfl⟩, hfree⟩

theorem isLegal_of_tupleFree (hs : ctx.Typed) (hheld : t.HeldBy ctx) (ht : t.TupleFree) {o : OpId}
    (ho : o ∈ t.opIds) (hops : ∀ v ∈ (ctx.raw o).operands, v ∈ definedValues t) :
    TupleLowering.target.isLegal ctx o = .ok true := by
  have htypes (v : ValueId) (hv : v ∈ (ctx.raw o).operands) :=
    tyOf_of_tupleFree hs hheld ht (hops v hv)
  obtain ⟨hname, hresults⟩ := ht.ops _ (hheld.mem_preorder_raw ho)
  obtain ⟨legal, hlegal, hiff⟩ := TupleLowering.isLegal_target (hheld.op?_raw ho)
    fun v hv => (htypes v hv).1
  rw [hlegal, hiff.mpr ⟨hname, fun v hv => (htypes v hv).2, hresults⟩]

theorem tupleFree_argTypes (hc : ctx.Confined t) (ht : t.TupleFree) {b : BlockId}
    (hb : b ∈ t.blockIds) {block : Block} (hblk : ctx.block? b = some block) :
    ∀ ty ∈ block.argTypes, ty.TupleFree := by
  obtain ⟨s, hm, rfl⟩ := RegionTree.HeldBy.mem_blockIds_iff.mp hb
  have hfree := ht.args s hm
  obtain ⟨hblk', hargs, hvals, -, -⟩ := hc.held.block hm
  obtain rfl := Option.some.inj (hblk.symm.trans hblk')
  intro ty hty
  obtain ⟨i, hi⟩ := List.mem_iff_getElem?.mp hty
  obtain ⟨hlt, -⟩ := List.getElem?_eq_some_iff.mp hi
  rw [← hc.sound.typed.args_length hblk] at hlt
  obtain ⟨v, hv⟩ : ∃ v, block.args[i]? = some v := ⟨_, List.getElem?_eq_getElem hlt⟩
  obtain ⟨ty', hty', hval⟩ := hc.sound.typed.argument hblk hv
  obtain rfl := Option.some.inj (hi.symm.trans hty')
  obtain ⟨a, ha, rfl⟩ := List.mem_map.mp (hargs ▸ List.mem_of_getElem? hv)
  obtain ⟨value, hval', he⟩ := hvals a ha
  obtain rfl := Option.some.inj (hval.symm.trans hval')
  obtain rfl : ty = a.2 := he
  exact hfree a ha

theorem convert_of_tupleFree (hc : ctx.Confined t) (ht : t.TupleFree) {m : OpId}
    (hbody : ctx.body m = .ok (some t.id)) :
    TupleLowering.engine.convert ctx m = .ok (ctx, {}) := by
  have hlegal (o : OpId) (ho : o ∈ t.opIds) :=
    isLegal_of_tupleFree hc.sound.typed hc.held ht ho fun _ => hc.operands ho
  obtain ⟨⟨rewrites, retyped, fixpoint, declines⟩, hconvert, rfl, rfl, rfl, hdeclines⟩ :=
    @Engine.convert_of_still TupleLowering.engine ctx m t hc.sound hc.held hbody rfl
      (fun b hb _ hblk ty hty => Ty.lowered_of_tupleFree (tupleFree_argTypes hc ht hb hblk ty hty))
      fun o ho => .legal (hlegal o ho)
  obtain rfl := hdeclines hlegal
  exact hconvert

theorem leftovers_of_tupleFree (hc : ctx.Confined t) (ht : t.TupleFree) {m : OpId}
    (hbody : ctx.body m = .ok (some t.id)) (result : Engine.Result) :
    TupleLowering.leftovers ctx m result = .ok [] := by
  have hillegal : TupleLowering.target.illegalIn ctx t =
      .ok (t.preorder.filter fun _ => false) := by
    refine filterM_of_ok fun o ho => ?_
    have hmem : o.1 ∈ t.opIds := List.mem_map_of_mem ho
    rw [isLegal_of_tupleFree hc.sound.typed hc.held ht hmem fun _ => hc.operands hmem]
    rfl
  rw [List.filter_eq_nil_iff.mpr (by simp)] at hillegal
  simp only [TupleLowering.leftovers, Engine.remaining, hbody, except_ok_bind,
    regionTree_eq_ok_iff.mpr ⟨rfl, hc.held⟩, hillegal]
  rfl

end Context

end RegionIR
