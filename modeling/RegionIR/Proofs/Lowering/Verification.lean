import RegionIR.Proofs.Lowering.Courses
import RegionIR.Proofs.Lowering.Pipeline
import RegionIR.Proofs.Lowering.Scopes

/-! When verification changes the answer.

The checks after a lowering look at what is left of the module. All that is left is in scope, and its
operands are in the ledger; but a tuple operation that is replaced loses its regions, and what stood
there keeps its entries in the ledger. So verification fails exactly when an operation that is lost
uses a value that stays. -/

namespace RegionIR

section Alike

variable {forms : OpId → Op} {f : OpId → Op → Op} {g : Ty → Ty}

/-- If the forms of operations that are left own a region where their new data do, then the operations
left have their forms, and the blocks left have arguments with recast types. -/
def RecastsAlike (forms : OpId → Op) (f : OpId → Op → Op) (g : Ty → Ty)
    (all ops ops' : List (OpId × Op)) (blocks blocks' : List BlockTree) : Prop :=
  (∀ o ∈ all, (o.1, forms o.1) ∈ ops → ((forms o.1).regions = [] ↔ (f o.1 o.2).regions = [])) →
    ops = ops'.map (fun o => (o.1, forms o.1)) ∧
    blocks.map BlockTree.args = blocks'.map fun b => b.args.map fun a => (a.1, g a.2)

/-- Where the same operations keep their regions, recast trees have the same operations and values. -/
theorem RegionTree.recast_alike (t : RegionTree) : RecastsAlike forms f g t.preorder
    (t.recast (fun o _ => forms o) g).preorder (t.recast f fun ty => ty).preorder
    (t.recast (fun o _ => forms o) g).allBlocks (t.recast f fun ty => ty).allBlocks := by
  have hargs (b : BlockTree) : (b.recast (fun o _ => forms o) g).args =
      (b.recast f fun ty => ty).args.map fun a => (a.1, g a.2) := by
    obtain ⟨id, args, ops⟩ := b
    simp [BlockTree.args]
  refine RegionTree.forall_of
    (P := fun t => RecastsAlike forms f g t.preorder (t.recast (fun o _ => forms o) g).preorder
      (t.recast f fun ty => ty).preorder (t.recast (fun o _ => forms o) g).blocks
      (t.recast f fun ty => ty).blocks)
    (Q := fun t => RecastsAlike forms f g t.preorder (t.recast (fun o _ => forms o) g).preorder
      (t.recast f fun ty => ty).preorder (t.recast (fun o _ => forms o) g).allBlocks
      (t.recast f fun ty => ty).allBlocks)
    (R := fun t => RecastsAlike forms f g t.preorder (t.recast (fun o _ => forms o) g).preorder
      (t.recast f fun ty => ty).preorder (t.recast (fun o _ => forms o) g).nested
      (t.recast f fun ty => ty).nested) ?_ ?_ ?_ t
  · intro id op regions ih h
    simp only [OpTree.preorder_node, List.forall_mem_cons, List.forall_mem_flatMap,
      OpTree.recast_node] at h
    have hid := h.1 List.mem_cons_self
    simp only [OpTree.recast_node]
    by_cases hnil : (forms id).regions = []
    · simp [hnil, hid.mp hnil]
    · rw [if_neg hnil, if_neg (mt hid.mpr hnil)]
      rw [if_neg hnil] at h
      have hall (r : RegionTree) (hr : r ∈ regions) := ih r hr fun o ho hm =>
        h.2 r hr o ho (List.mem_cons_of_mem _
          (List.mem_flatMap.mpr ⟨r.recast _ g, List.mem_map_of_mem hr, hm⟩))
      simp only [OpTree.preorder_node, OpTree.blocks_node, List.map_cons, List.map_flatMap,
        List.flatMap_map]
      exact ⟨congrArg _ (List.flatMap_congr fun r hr => (hall r hr).1),
        List.flatMap_congr fun r hr => (hall r hr).2⟩
  · intro id blocks ih h
    simp only [RegionTree.preorder_node, List.forall_mem_flatMap, RegionTree.recast_node] at h
    have hall (b : BlockTree) (hb : b ∈ blocks) := ih b hb fun o ho hm =>
      h b hb o ho (List.mem_flatMap.mpr ⟨b.recast _ g, List.mem_map_of_mem hb, hm⟩)
    simp only [RegionTree.recast_node, RegionTree.preorder_node, RegionTree.allBlocks_node,
      List.map_append, List.map_map, List.map_flatMap, List.flatMap_map]
    refine ⟨List.flatMap_congr fun b hb => (hall b hb).1, ?_⟩
    rw [List.flatMap_congr fun b hb => (hall b hb).2]
    exact congrArg (· ++ _) (List.map_congr_left fun b _ => hargs b)
  · intro id args ops ih h
    simp only [BlockTree.preorder_node, List.forall_mem_flatMap, BlockTree.recast_node] at h
    have hall (o : OpTree) (ho : o ∈ ops) := ih o ho fun p hp hm =>
      h o ho p hp (List.mem_flatMap.mpr ⟨o.recast _ g, List.mem_map_of_mem ho, hm⟩)
    simp only [BlockTree.recast_node, BlockTree.preorder_node, BlockTree.nested_node,
      List.map_flatMap, List.flatMap_map]
    exact ⟨List.flatMap_congr fun o ho => (hall o ho).1,
      List.flatMap_congr fun o ho => (hall o ho).2⟩

end Alike

/-- The operation, without its regions if it is a tuple operation. -/
def Op.pruned (op : Op) : Op :=
  if op.isTupleOp then { op with regions := [] } else op

/-- The region without what tuple operations own. -/
def RegionTree.kept (t : RegionTree) : RegionTree :=
  t.recast (fun _ op => op.pruned) fun ty => ty

/-- No operation that is lost with its region uses a value that stays. -/
def RegionTree.LosesNoUse (t : RegionTree) : Prop :=
  ∀ o ∈ t.preorder, ∀ v ∈ o.2.operands, v ∈ Context.definedValues t.kept → o.1 ∈ t.kept.opIds

instance (t : RegionTree) : Decidable t.LosesNoUse :=
  inferInstanceAs (Decidable (∀ _ ∈ _, _))

namespace Context

variable {ctx ctx' : Context} {t : RegionTree} {s : Progress} {m : OpId} {result : Engine.Result}
  {image : OpId → OpId} {subst : ValueId → ValueId}

/-- When all that is left is done, what is left is the region without what tuple operations own. -/
theorem Steps.tree_alike (hc : ctx.Confined t) (h : ctx.Steps t (start ctx t) s)
    (hdone : ∀ o ∈ (s.tree t).opIds, (s.forms o).isTupleOp = false) :
    (s.tree t).preorder = t.kept.preorder.map (fun o => (o.1, s.forms o.1)) ∧
    (s.tree t).allBlocks.map BlockTree.args =
      t.kept.allBlocks.map fun b => b.args.map fun a => (a.1, a.2.lowered) := by
  refine RegionTree.recast_alike t fun o ho hleft => ?_
  have hname : (s.forms o.1).isTupleOp = false := hdone o.1 (List.mem_map.mpr ⟨_, hleft, rfl⟩)
  rw [(h.becomes o.1).regions, raw_of_some (hc.held.op?_of_mem ho), hname, Op.pruned]
  cases o.2.isTupleOp <;> simp

theorem Steps.opIds_kept (hc : ctx.Confined t) (h : ctx.Steps t (start ctx t) s)
    (hdone : ∀ o ∈ (s.tree t).opIds, (s.forms o).isTupleOp = false) :
    (s.tree t).opIds = t.kept.opIds := by
  rw [RegionTree.opIds, (h.tree_alike hc hdone).1, List.map_map]
  rfl

theorem Steps.definedValues_kept (hc : ctx.Confined t) (h : ctx.Steps t (start ctx t) s)
    (hdone : ∀ o ∈ (s.tree t).opIds, (s.forms o).isTupleOp = false) :
    definedValues (s.tree t) = definedValues t.kept := by
  obtain ⟨hops, hargs⟩ := h.tree_alike hc hdone
  have hargs' : (s.tree t).allBlocks.map (fun b => b.args.map Prod.fst) =
      t.kept.allBlocks.map fun b => b.args.map Prod.fst := by
    have hfst := congrArg (List.map (List.map Prod.fst)) hargs
    simpa [Function.comp_def] using hfst
  have hresults : ∀ o ∈ t.kept.preorder, (s.forms o.1).results = o.2.results := by
    rintro ⟨o, op'⟩ ho
    obtain ⟨op, hop, rfl⟩ := RegionTree.mem_preorder_recast ho
    rw [(h.becomes o).results, raw_of_some (hc.held.op?_of_mem hop), Op.pruned]
    split <;> rfl
  rw [definedValues, definedValues, hops, List.flatMap_map, List.flatMap_congr hresults,
    List.flatMap_def, hargs', ← List.flatMap_def]

/-- Verification of what is left fails only for a use that was lost. -/
theorem Lowers.passed_iff (hc : ctx.Confined t) (h : ctx.Lowers m t ctx' result [] s image subst)
    (hbody : ctx'.body m = .ok (some t.id)) {report : Report}
    (hreport : ctx'.validateUses m = .ok report) : report.passed ↔ t.LosesNoUse := by
  have hid : ((s.tree t).rename image subst).id = t.id :=
    (RegionTree.id_rename _).trans (RegionTree.id_recast t)
  have hdone (o : OpId) (ho : o ∈ (s.tree t).opIds) := (h.left_nil.mp rfl o ho).1
  have hops := h.steps.opIds_kept hc hdone
  have hvalues := h.steps.definedValues_kept hc hdone
  have herrors := h.refines.useErrors_eq_nil_iff hc
  rw [← Progress.tree, hops, hvalues] at herrors
  simp only [validateUses, hbody, except_ok_bind, regionTree_eq_ok_iff.mpr ⟨hid, h.held⟩] at hreport
  obtain ⟨errors, huse, hreport⟩ := except_bind_eq_ok.mp hreport
  obtain rfl := except_pure_eq_ok.mp hreport
  rw [huse, Except.ok.injEq] at herrors
  simp only [Report.passed, List.isEmpty_nil, Bool.true_and, List.isEmpty_iff, herrors]
  rw [RegionTree.LosesNoUse, RegionTree.opIds, List.forall_mem_map]
  refine forall₂_congr fun o ho => ?_
  rw [(h.steps.becomes o.1).operands, raw_of_some (hc.held.op?_of_mem ho)]

theorem Program.body_of_lowers {tree : OpTree} {left : List Leftover} (h : ctx.Program tree)
    (hbody : tree.regions.head? = some t)
    (hl : ctx.Lowers tree.id t ctx' result left s image subst) :
    ctx'.body tree.id = .ok (some t.id) := by
  obtain ⟨hid, hheld⟩ := opTree_eq_ok_iff.mp (h.opTree_of_lowers hbody hl)
  rw [← hid, hheld.body, OpTree.head?_regions_withBody, Option.map_some, RegionTree.id_rename]
  exact congrArg (Except.ok ∘ some) (RegionTree.id_recast t)

theorem Lowers.exists_report {left : List Leftover}
    (h : ctx.Lowers m t ctx' result left s image subst) (hbody : ctx'.body m = .ok (some t.id)) :
    ∃ report, ctx'.validateUses m = .ok report := by
  have hid : ((s.tree t).rename image subst).id = t.id :=
    (RegionTree.id_rename _).trans (RegionTree.id_recast t)
  exact exists_validateUses h.refines.sound h.held (hid ▸ hbody)

theorem Program.validateScopes_of_convert {tree : OpTree} (h : ctx.Program tree)
    (hbody : tree.regions.head? = some t)
    (hconvert : TupleLowering.engine.convert ctx tree.id = .ok (ctx', result)) :
    ctx'.validateScopes tree.id = .ok {} := by
  obtain ⟨r, hr, rfl⟩ := Engine.exists_passesThrough (h.held.body_of_head hbody) hconvert
  have hbodyOf := bodyOf_of_head h.sound h.held hbody
  obtain ⟨t', hbody', hscoped⟩ := TupleLowering.scoped_of_passesThrough hr hbodyOf
    (scoped_of_validate h.sound h.held hbody h.validate rfl)
  exact hscoped.validateScopes hbody'

end Context

namespace Pipeline

variable {ctx : Context} {tree : OpTree}

/-- What is made of a program: it is refused, verified or not, or verification has the last word. -/
theorem lowerModule_cases (h : ctx.Program tree) :
    (∃ e, ∀ verify, lowerModule ctx tree.id verify = .ok (.error e)) ∨
    ∃ t lowered report, tree.regions.head? = some t ∧
      lowerModule ctx tree.id false = .ok (.ok lowered) ∧
      lowerModule ctx tree.id true = .ok (if Report.passed report then .ok lowered
        else .error (.invalidModule report.text)) ∧
      (report.passed ↔ t.LosesNoUse) := by
  have hmodule : ctx.isModule tree.id = .ok (tree.op.is "core" "module") := by
    simp [Context.isModule, Context.op_eq_ok.mpr h.held.op?_id, pure, Except.pure]
  cases his : tree.op.is "core" "module" with
  | false =>
    refine .inl ⟨.invalidModule "top-level operation is not a core.module", fun verify => ?_⟩
    rw [lowerModule, hmodule, his]
    rfl
  | true =>
    rw [his] at hmodule
    have hbody := h.held.body
    cases hhead : tree.regions.head? with
    | none =>
      rw [hhead] at hbody
      have hrun (verify : Bool) : TupleLowering.run ctx tree.id verify =
          .ok (.error (.invalidModule "core.module has no body region"), ctx) :=
        TupleLowering.run_eq_ok_iff.mpr (.inl ⟨hbody, rfl, rfl⟩)
      refine .inl ⟨.invalidModule "core.module has no body region", fun verify => ?_⟩
      rw [lowerModule, hmodule, except_ok_bind, hrun verify]
      rfl
    | some t =>
      rw [hhead, Option.map_some] at hbody
      obtain ⟨ctx', result, left, s, image, subst, hl⟩ := h.exists_lowers hhead
      have htree := h.opTree_of_lowers hhead hl
      have hbody' := h.body_of_lowers hhead hl
      obtain ⟨report, hreport⟩ := hl.exists_report hbody'
      have hunverified := hl.run_unverified hbody
      have hverified := hl.run_verified hbody hreport
      by_cases hleft : left = []
      · subst hleft
        obtain ⟨printed, hprint⟩ : ∃ printed, ctx'.print tree.id = .ok printed :=
          ⟨_, Context.print_of_opTree htree⟩
        have hscopes := h.validateScopes_of_convert hhead hl.converts
        rw [if_pos rfl] at hunverified hverified
        refine .inr ⟨t, ⟨printed, ⟨result.rewrites, result.retyped⟩⟩, report, rfl, ?_, ?_,
          hl.passed_iff (h.confined hhead) hbody' hreport⟩
        · rw [lowerModule, hmodule, except_ok_bind, hunverified]
          simp [hprint, pure, Except.pure, Report.passed]
        · rw [lowerModule, hmodule, except_ok_bind, hverified]
          cases hpassed : report.passed
          · simp [pure, Except.pure]
          · simp [pure, Except.pure, hscopes, hprint, Report.passed]
      · refine .inl ⟨.incomplete left, fun verify => ?_⟩
        rw [if_neg hleft] at hunverified hverified
        cases verify
        · rw [lowerModule, hmodule, hunverified]
          rfl
        · rw [lowerModule, hmodule, hverified]
          rfl

/-- Verification gives another answer exactly for a text that is lowered without it while an operation
that gets lost uses a value that stays. The module is refused then. -/
theorem lower_verified_eq_iff (text : String) :
    (lower text true = lower text false ↔ ∀ lowered id ctx tree t, lower text false = .ok lowered →
      Context.parse {} text = (.ok id, ctx) → ctx.opTree id = .ok tree →
      tree.regions.head? = some t → t.LosesNoUse) ∧
    (lower text true ≠ lower text false →
      ∃ message, lower text true = .error (.lowering (.invalidModule message))) := by
  rcases hparse : Context.parse {} text with ⟨e | id, ctx⟩
  · have hsame : lower text true = lower text false := by
      rw [lower, lower, hparse]
      cases e <;> rfl
    exact ⟨⟨fun _ _ _ _ _ _ _ h => by simp at h, fun _ => hsame⟩, fun hne => absurd hsame hne⟩
  · obtain ⟨tree, rfl, hprogram⟩ := Context.program_of_parse hparse
    rcases lowerModule_cases hprogram with
      ⟨e, hrefused⟩ | ⟨t, lowered, report, hhead, hunverified, hverified, hpassed⟩
    · have hsame : lower text true = lower text false := by
        simp [lower, hparse, hrefused]
      refine ⟨⟨fun _ lowered _ _ _ _ hlower => ?_, fun _ => hsame⟩, fun hne => absurd hsame hne⟩
      simp [lower, hparse, hrefused] at hlower
    · have hlowered : lower text false = .ok lowered := by
        simp [lower, hparse, hunverified]
      have hsame : lower text true = lower text false ↔ t.LosesNoUse := by
        rw [← hpassed, hlowered]
        cases hreport : report.passed <;> simp [lower, hparse, hverified, hreport]
      refine ⟨hsame.trans ⟨fun hlose _ _ _ _ _ _ h htree hbody => ?_, fun h => ?_⟩, fun hne => ?_⟩
      · cases h
        obtain ⟨hid, hheld⟩ := Context.opTree_eq_ok_iff.mp htree
        obtain rfl := hheld.unique hprogram.held hid
        obtain rfl := Option.some.inj (hhead.symm.trans hbody)
        exact hlose
      · exact h lowered _ ctx tree t hlowered rfl (Context.opTree_eq_ok_iff.mpr ⟨rfl, hprogram.held⟩)
          hhead
      · rw [ne_eq, hsame, ← hpassed, Bool.not_eq_true] at hne
        exact ⟨report.text, by simp [lower, hparse, hverified, hne]⟩

/-- The operand of an operation that is lost with the region of a construction stays in the ledger. -/
theorem lower_verified_of_lost_use : ∃ text, lower text true ≠ lower text false := by
  let text := "core.module @m \x7b %x = t.t : core.i32 %t = adt.tuple_new : core.tuple() " ++
    "\x7b u.u %x \x7d \x7d"
  have hlowered : (lower text false).toOption.isSome := by decide +kernel
  have hrefused : (lower text true).toOption.isSome = false := by decide +kernel
  refine ⟨text, fun hsame => ?_⟩
  rw [hsame, hlowered] at hrefused
  exact Bool.noConfusion hrefused

end Pipeline

end RegionIR
