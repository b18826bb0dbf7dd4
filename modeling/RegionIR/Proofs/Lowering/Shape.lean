import RegionIR.Proofs.Lowering.Pipeline

/-! The shape of a lowered module.

Two trees have the same shape when their operations, blocks and regions correspond one by one, in the
same nesting and order, and the operations have the same names and as many operands and results. A
lowering gives tuple operations the names of struct operations and keeps the shape otherwise, unless a
tuple operation owns a region: that region is lost. -/

namespace RegionIR

/-- The name of what takes the place of the operation, within its dialect. -/
def Op.loweredName (op : Op) : String :=
  if op.is "adt" "tuple_new" then "struct_new"
  else if op.is "adt" "tuple_get" then "struct_extract"
  else op.name

/-- The second operation is what the first one is called after a lowering, with as many operands and
results. -/
structure Op.SameShape (op op' : Op) : Prop where
  dialect : op'.dialect = op.dialect
  name : op'.name = op.loweredName
  operands : op'.operands.length = op.operands.length
  results : op'.results.length = op.results.length

mutual

/-- The trees have the same shape, up to the names that a lowering gives. -/
def OpTree.SameShape : OpTree → OpTree → Prop
  | .node _ op regions, .node _ op' regions' =>
    op.SameShape op' ∧ RegionTree.AllSameShape regions regions'
termination_by structural t => t

def RegionTree.SameShape : RegionTree → RegionTree → Prop
  | .node _ blocks, .node _ blocks' => BlockTree.AllSameShape blocks blocks'
termination_by structural t => t

def BlockTree.SameShape : BlockTree → BlockTree → Prop
  | .node _ args ops, .node _ args' ops' =>
    args'.length = args.length ∧ OpTree.AllSameShape ops ops'
termination_by structural t => t

def OpTree.AllSameShape : List OpTree → List OpTree → Prop
  | [], [] => True
  | t :: ts, t' :: ts' => t.SameShape t' ∧ OpTree.AllSameShape ts ts'
  | _, _ => False
termination_by structural t => t

def RegionTree.AllSameShape : List RegionTree → List RegionTree → Prop
  | [], [] => True
  | t :: ts, t' :: ts' => t.SameShape t' ∧ RegionTree.AllSameShape ts ts'
  | _, _ => False
termination_by structural t => t

def BlockTree.AllSameShape : List BlockTree → List BlockTree → Prop
  | [], [] => True
  | t :: ts, t' :: ts' => t.SameShape t' ∧ BlockTree.AllSameShape ts ts'
  | _, _ => False
termination_by structural t => t

end

theorem OpTree.allSameShape_iff {l l' : List OpTree} :
    AllSameShape l l' ↔ List.Forall₂ SameShape l l' := by
  induction l generalizing l' with
  | nil => cases l' <;> simp [AllSameShape]
  | cons t l ih => cases l' <;> simp [AllSameShape, ih]

theorem RegionTree.allSameShape_iff {l l' : List RegionTree} :
    AllSameShape l l' ↔ List.Forall₂ SameShape l l' := by
  induction l generalizing l' with
  | nil => cases l' <;> simp [AllSameShape]
  | cons t l ih => cases l' <;> simp [AllSameShape, ih]

theorem BlockTree.allSameShape_iff {l l' : List BlockTree} :
    AllSameShape l l' ↔ List.Forall₂ SameShape l l' := by
  induction l generalizing l' with
  | nil => cases l' <;> simp [AllSameShape]
  | cons t l ih => cases l' <;> simp [AllSameShape, ih]

theorem RegionTree.SameShape.preorder {t t' : RegionTree} (h : t.SameShape t') :
    List.Forall₂ (fun o o' => o.2.SameShape o'.2) t.preorder t'.preorder := by
  refine RegionTree.forall_of
    (P := fun t => ∀ t', t.SameShape t' →
      List.Forall₂ (fun o o' => o.2.SameShape o'.2) t.preorder t'.preorder)
    (Q := fun t => ∀ t', t.SameShape t' →
      List.Forall₂ (fun o o' => o.2.SameShape o'.2) t.preorder t'.preorder)
    (R := fun t => ∀ t', t.SameShape t' →
      List.Forall₂ (fun o o' => o.2.SameShape o'.2) t.preorder t'.preorder) ?_ ?_ ?_ t t' h
  · rintro id op regions ih ⟨id', op', regions'⟩ ⟨hop, hregions⟩
    rw [OpTree.preorder_node, OpTree.preorder_node]
    exact .cons hop (forall₂_flatMap (RegionTree.allSameShape_iff.mp hregions) ih)
  · rintro id blocks ih ⟨id', blocks'⟩ hblocks
    rw [RegionTree.preorder_node, RegionTree.preorder_node]
    exact forall₂_flatMap (BlockTree.allSameShape_iff.mp hblocks) ih
  · rintro id args ops ih ⟨id', args', ops'⟩ ⟨-, hops⟩
    rw [BlockTree.preorder_node, BlockTree.preorder_node]
    exact forall₂_flatMap (OpTree.allSameShape_iff.mp hops) ih

theorem Op.sameShape_rename_iff {op op' : Op} {v : ValueId → ValueId} :
    op.SameShape (op'.rename v) ↔ op.SameShape op' := by
  constructor
  · rintro ⟨hdialect, hname, hoperands, hresults⟩
    exact ⟨hdialect, hname, by simpa [Op.rename] using hoperands, by simpa [Op.rename] using hresults⟩
  · rintro ⟨hdialect, hname, hoperands, hresults⟩
    exact ⟨hdialect, hname, by simpa [Op.rename] using hoperands, by simpa [Op.rename] using hresults⟩

section Recast

variable {ctx : Context} {t : RegionTree} {f : OpId → Op → Op} {g : Ty → Ty} {i : OpId → OpId}
  {v : ValueId → ValueId}

/-- A recast and renamed tree has the same shape exactly when no operation changes its shape or loses
its regions. -/
theorem RegionTree.sameShape_recast_iff (ht : t.HeldBy ctx) :
    t.SameShape ((t.recast f g).rename i v) ↔
      ∀ o ∈ t.preorder, o.2.SameShape (f o.1 o.2) ∧ ((f o.1 o.2).regions = [] → o.2.regions = []) := by
  revert ht
  refine RegionTree.forall_of
    (P := fun t => t.HeldBy ctx → (t.SameShape ((t.recast f g).rename i v) ↔ ∀ o ∈ t.preorder,
      o.2.SameShape (f o.1 o.2) ∧ ((f o.1 o.2).regions = [] → o.2.regions = [])))
    (Q := fun t => t.HeldBy ctx → (t.SameShape ((t.recast f g).rename i v) ↔ ∀ o ∈ t.preorder,
      o.2.SameShape (f o.1 o.2) ∧ ((f o.1 o.2).regions = [] → o.2.regions = [])))
    (R := fun t => t.HeldBy ctx → (t.SameShape ((t.recast f g).rename i v) ↔ ∀ o ∈ t.preorder,
      o.2.SameShape (f o.1 o.2) ∧ ((f o.1 o.2).regions = [] → o.2.regions = []))) ?_ ?_ ?_ t
  · rintro id op regions ih ⟨-, hrs, hall⟩
    have hregions : op.regions = [] ↔ regions = [] := by rw [hrs, List.map_eq_nil_iff]
    simp only [OpTree.recast_node, OpTree.rename_node, OpTree.SameShape, Op.sameShape_rename_iff,
      OpTree.preorder_node, List.forall_mem_cons, List.forall_mem_flatMap, and_assoc]
    refine and_congr_right fun _ => ?_
    by_cases hnil : (f id op).regions = []
    · rw [if_pos hnil, List.map_nil, RegionTree.allSameShape_iff, List.forall₂_nil_right_iff,
        ← hregions]
      refine ⟨fun h => ⟨fun _ => h, fun r hr => ?_⟩, fun h => h.1 hnil⟩
      rw [hregions.mp h] at hr
      exact absurd hr List.not_mem_nil
    · rw [if_neg hnil, List.map_map, RegionTree.allSameShape_iff, List.forall₂_map_right_iff,
        List.forall₂_same]
      refine Iff.trans ?_ (and_iff_right fun h => absurd h hnil).symm
      exact forall₂_congr fun r hr => ih r hr (hall r hr)
  · rintro id blocks ih ⟨-, -, hall⟩
    simp only [RegionTree.recast_node, RegionTree.rename_node, RegionTree.SameShape, List.map_map,
      BlockTree.allSameShape_iff, List.forall₂_map_right_iff, List.forall₂_same,
      RegionTree.preorder_node, List.forall_mem_flatMap]
    exact forall₂_congr fun b hb => ih b hb (hall b hb)
  · rintro id args ops ih ⟨-, -, -, -, hall⟩
    simp only [BlockTree.recast_node, BlockTree.rename_node, BlockTree.SameShape, List.map_map,
      OpTree.allSameShape_iff, List.forall₂_map_right_iff, List.forall₂_same,
      BlockTree.preorder_node, List.forall_mem_flatMap, List.length_map, true_and]
    exact forall₂_congr fun o ho => ih o ho (hall o ho)

end Recast

namespace Op

variable {op form : Op}

theorem loweredName_of_not_tupleOp (h : op.isTupleOp = false) : op.loweredName = op.name := by
  rw [isTupleOp, Bool.or_eq_false_iff] at h
  simp [loweredName, h]

theorem loweredName_of_lowering {settle : Ty → Ty} {types : ValueId → Ty}
    (h : op.lowering settle types = some form) : form.name = op.loweredName := by
  rcases lowering_eq_some_iff.mp h with ⟨type, hc, -, -, rfl⟩ | ⟨_, _, _, field, type, he, -, -, rfl⟩
  · have hnew := (construction?_eq_some_iff.mp hc).1
    simp [loweredName, hnew, toStructNew]
  · have hget := (extraction?_eq_some_iff.mp he).1
    simp [loweredName, hget, not_isNew_of_isGet hget, toStructExtract]

theorem SameShape.isTupleOp (h : op.SameShape form) : form.isTupleOp = false := by
  have hname {name : String} (hform : form.is "adt" name) : op.dialect = "adt" ∧
      op.loweredName = name := by
    rw [is, Bool.and_eq_true, beq_iff_eq, beq_iff_eq] at hform
    exact ⟨h.dialect ▸ hform.1, h.name ▸ hform.2⟩
  rw [Op.isTupleOp, Bool.or_eq_false_iff, Bool.eq_false_iff, Bool.eq_false_iff]
  constructor
  all_goals
    intro hform
    obtain ⟨hadt, hlowered⟩ := hname hform
    unfold loweredName at hlowered
    split at hlowered
    · simp at hlowered
    · split at hlowered
      · simp at hlowered
      · simp_all [is]

theorem dialect_of_lowering {settle : Ty → Ty} {types : ValueId → Ty}
    (h : op.lowering settle types = some form) : form.dialect = op.dialect := by
  have hop := (loweredFrom h).wasTupleOp
  simp only [Op.isTupleOp, is, Bool.or_eq_true, Bool.and_eq_true, beq_iff_eq] at hop
  rw [(loweredFrom h).dialect]
  rcases hop with ⟨hadt, -⟩ | ⟨hadt, -⟩ <;> exact hadt.symm

theorem Becomes.sameShape (h : op.Becomes form) (hform : form.isTupleOp = false) :
    op.SameShape form := by
  have hnames : form.dialect = op.dialect ∧ form.name = op.loweredName := by
    cases h with
    | same => exact ⟨rfl, (loweredName_of_not_tupleOp hform).symm⟩
    | retyped ht => exact ⟨rfl, (loweredName_of_not_tupleOp ht).symm⟩
    | lowered hl => exact ⟨dialect_of_lowering hl, loweredName_of_lowering hl⟩
    | settled hl =>
      have hdialect := dialect_of_lowering hl
      have hname := loweredName_of_lowering hl
      exact ⟨hdialect, hname⟩
  exact ⟨hnames.1, hnames.2, congrArg List.length h.operands, congrArg List.length h.results⟩

end Op

namespace Context

variable {ctx : Context} {t : RegionTree} {s : Progress}

/-- If all that is left is done, the region has its shape exactly when no tuple operation owned a
region. -/
theorem Steps.sameShape_iff (hc : ctx.Confined t) (h : ctx.Steps t (start ctx t) s)
    (hdone : ∀ o ∈ (s.tree t).opIds, (s.forms o).isTupleOp = false) {image : OpId → OpId}
    {subst : ValueId → ValueId} : t.SameShape ((s.tree t).rename image subst) ↔
      ∀ o ∈ t.preorder, o.2.isTupleOp → o.2.regions = [] := by
  have hraw {o : OpId × Op} (ho : o ∈ t.preorder) : ctx.raw o.1 = o.2 :=
    raw_of_some (hc.held.op?_of_mem ho)
  have hbecomes {o : OpId × Op} (ho : o ∈ t.preorder) : o.2.Becomes (s.forms o.1) :=
    hraw ho ▸ h.becomes o.1
  rw [Progress.tree, RegionTree.sameShape_recast_iff hc.held]
  constructor
  · intro hsame o ho htuple
    obtain ⟨hshape, hregions⟩ := hsame o ho
    refine hregions ?_
    rw [(hbecomes ho).regions, htuple, hshape.isTupleOp]
    rfl
  · intro hflat o ho
    refine ⟨(hbecomes ho).sameShape (hdone o.1 ?_), h.regions_of_flat hc hflat ho⟩
    rw [h.opIds_tree hc hflat]
    exact List.mem_map_of_mem ho

end Context

namespace Pipeline

variable {text : String} {verify : Bool} {lowered : Lowered} {ctx : Context} {id : OpId}
  {tree : OpTree}

/-- A lowered module is the module with another body. This has the shape of the old one, with every
tuple operation called by its struct name, exactly when no tuple operation in it owns a region. -/
theorem lower_sameShape_iff (h : lower text verify = .ok lowered)
    (hparse : Context.parse {} text = (.ok id, ctx)) (htree : ctx.opTree id = .ok tree) :
    ∃ t ctx' body, tree.regions.head? = some t ∧
      TupleLowering.run ctx id verify = .ok (.ok lowered.stats, ctx') ∧
      ctx'.opTree id = .ok (tree.withBody body) ∧ lowered.text = (tree.withBody body).text ∧
      (t.SameShape body ↔ ∀ o ∈ t.preorder, o.2.isTupleOp → o.2.regions = []) := by
  obtain ⟨t, ctx', result, s, image, subst, hs⟩ := exists_succeeds h hparse htree
  obtain ⟨rfl, -⟩ := Context.opTree_eq_ok_iff.mp htree
  have hlegal := hs.lowers.left_nil.mp rfl
  exact ⟨t, ctx', _, hs.body, hs.run, hs.opTree, hs.text,
    hs.lowers.steps.sameShape_iff (hs.program.confined hs.body) fun o ho => (hlegal o ho).1⟩

/-- An operation in the second block of a nested region, and a tuple around it. -/
def nestedText : String :=
  "core.module @m {
  %0 = t.r : core.i32 {
    ^a:
    t.br [^b]
    ^b(%1: core.tuple(core.i32)):
    %2 = adt.tuple_new %1 : core.tuple(core.tuple(core.i32))
  }
}
"

theorem lower_sameShape_iff_nested : ∃ lowered id ctx tree t ctx' body,
    lower nestedText true = .ok lowered ∧ Context.parse {} nestedText = (.ok id, ctx) ∧
    ctx.opTree id = .ok tree ∧ tree.regions.head? = some t ∧
    TupleLowering.run ctx id true = .ok (.ok lowered.stats, ctx') ∧
    ctx'.opTree id = .ok (tree.withBody body) ∧ lowered.text = (tree.withBody body).text ∧
    t.SameShape body := by
  obtain ⟨lowered, id, ctx, tree, hlower, hparse, htree, hcheck⟩ := exists_lowered nestedText true
    (fun _ _ _ tree => tree.regions.head?.all fun t =>
      t.preorder.all fun o => !o.2.isTupleOp || o.2.regions.isEmpty) (by decide +kernel)
  obtain ⟨t, ctx', body, hbody, hrun, htree', htext, hiff⟩ := lower_sameShape_iff hlower hparse htree
  rw [hbody, Option.all_some, List.all_eq_true] at hcheck
  refine ⟨lowered, id, ctx, tree, t, ctx', body, hlower, hparse, htree, hbody, hrun, htree', htext,
    hiff.mpr fun o ho htuple => ?_⟩
  simpa [htuple] using hcheck o ho

/-- A region that a construction owns is lost, with the operation that it holds. -/
theorem lower_of_region_in_tuple : ∃ text lowered id ctx tree t ctx' tree' body,
    lower text true = .ok lowered ∧ Context.parse {} text = (.ok id, ctx) ∧
    ctx.opTree id = .ok tree ∧ tree.regions.head? = some t ∧
    TupleLowering.run ctx id true = .ok (.ok lowered.stats, ctx') ∧ ctx'.opTree id = .ok tree' ∧
    lowered.text = tree'.text ∧ tree'.regions.head? = some body ∧ ¬t.SameShape body := by
  obtain ⟨lowered, id, ctx, tree, hlower, hparse, htree, hcheck⟩ := exists_lowered
    "core.module @m \x7b adt.tuple_new : core.tuple() \x7b u.u \x7d \x7d" true
    (fun lowered ctx id tree => tree.regions.head?.any fun t =>
      (TupleLowering.run ctx id true).toOption.any fun r => r.1.toOption.any fun stats =>
        (r.2.opTree id).toOption.any fun tree' => tree'.regions.head?.any fun body =>
          decide (stats = lowered.stats ∧ lowered.text = tree'.text ∧
            t.preorder.length ≠ body.preorder.length)) (by decide +kernel)
  obtain ⟨t, ht, hcheck⟩ := (Option.any_eq_true _ _).mp hcheck
  obtain ⟨⟨answer, ctx'⟩, hrun, hcheck⟩ := except_any_iff.mp hcheck
  obtain ⟨stats, hanswer, hcheck⟩ := except_any_iff.mp hcheck
  obtain ⟨tree', htree', hcheck⟩ := except_any_iff.mp hcheck
  obtain ⟨body, hbody, hcheck⟩ := (Option.any_eq_true _ _).mp hcheck
  obtain ⟨rfl, htext, hlength⟩ := of_decide_eq_true hcheck
  obtain rfl : answer = .ok lowered.stats := hanswer
  exact ⟨_, lowered, id, ctx, tree, t, ctx', tree', body, hlower, hparse, htree, ht, hrun, htree',
    htext, hbody, fun hsame => hlength hsame.preorder.length_eq⟩

end Pipeline

end RegionIR
