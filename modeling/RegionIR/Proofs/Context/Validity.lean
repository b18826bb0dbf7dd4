import RegionIR.Context.Validation
import RegionIR.Proofs.Context.Ownership

/-! What it says of a region that the validator finds no error in it.

Without scope errors all operands are defined in the region, if nothing is visible from outside;
without use errors the ledger lists the operands of the region, and nothing else for the values that
are defined there. -/

namespace RegionIR

section Lists

variable {ε α β : Type}

theorem filterMapM_eq_ok_nil_iff {f : α → Except ε (Option β)} {l : List α} :
    l.filterMapM f = .ok [] ↔ ∀ a ∈ l, f a = .ok none := by
  induction l with
  | nil => simp [pure, Except.pure]
  | cons a l ih =>
    rw [List.filterMapM_cons, except_bind_eq_ok, List.forall_mem_cons]
    constructor
    · rintro ⟨b, hb, h⟩
      cases b with
      | none => exact ⟨hb, ih.mp h⟩
      | some b =>
        simp only [except_bind_eq_ok, except_pure_eq_ok] at h
        obtain ⟨bs, -, h⟩ := h
        simp at h
    · rintro ⟨ha, h⟩
      exact ⟨none, ha, ih.mpr h⟩

theorem mapM_eq_ok_nil {f : α → Except ε β} {l : List α} : l.mapM f = .ok [] ↔ l = [] := by
  rw [mapM_eq_ok_iff, List.forall₂_nil_right_iff]

end Lists

namespace Context

variable {ctx : Context}

theorem mem_definedValues {t : RegionTree} {v : ValueId} : v ∈ definedValues t ↔
    (∃ b ∈ t.allBlocks, v ∈ b.args.map Prod.fst) ∨ ∃ o ∈ t.preorder, v ∈ o.2.results := by
  simp only [definedValues, List.mem_append, List.mem_flatMap]

theorem exists_value_of_defined (hv : ctx.Typed) (ht : t.HeldBy ctx) {v : ValueId}
    (hd : v ∈ definedValues t) : ∃ value, ctx.value? v = some value := by
  rcases mem_definedValues.mp hd with ⟨b, hb, ha⟩ | ⟨o, ho, hr⟩
  · obtain ⟨-, -, hvals, -, -⟩ := ht.block hb
    obtain ⟨a, hm, rfl⟩ := List.mem_map.mp ha
    obtain ⟨value, hval, -⟩ := hvals a hm
    exact ⟨value, hval⟩
  · obtain ⟨i, hi⟩ := List.mem_iff_getElem?.mp hr
    obtain ⟨ty, -, hval⟩ := hv.result (ht.op?_of_mem ho) hi
    exact ⟨_, hval⟩

theorem exists_describe (ht : ctx.Typed) {v : ValueId}
    (hv : ∃ value, ctx.value? v = some value) : ∃ text, ctx.describe v = .ok text := by
  obtain ⟨⟨origin, ty⟩, hval⟩ := hv
  simp only [describe, value_eq_ok.mpr hval, except_ok_bind]
  cases origin with
  | result o i =>
    obtain ⟨op, hop, -⟩ := ht.origin_result hval
    simp only [op_eq_ok.mpr hop, except_ok_bind]
    exact ⟨_, rfl⟩
  | argument b i => exact ⟨_, rfl⟩

theorem mem_operandUses {ops : List (OpId × Op)} {v : ValueId} {u : Use} :
    (v, u) ∈ operandUses ops ↔ ∃ op, (u.user, op) ∈ ops ∧ op.operands[u.operand]? = some v := by
  simp only [operandUses, List.mem_eraseDups, List.mem_flatMap, List.mem_mapIdx, Prod.mk.injEq,
    Prod.exists]
  constructor
  · rintro ⟨id, op, hm, i, hi, rfl, rfl⟩
    exact ⟨op, hm, List.getElem?_eq_getElem hi⟩
  · rintro ⟨op, hm, hi⟩
    obtain ⟨hlt, rfl⟩ := List.getElem?_eq_some_iff.mp hi
    exact ⟨u.user, op, hm, u.operand, hlt, rfl, rfl⟩

theorem exists_useErrors (hv : ctx.Typed) {t : RegionTree} (ht : t.HeldBy ctx) :
    ∃ errors, ctx.useErrors t = .ok errors := by
  refine exists_bind (exists_mapM fun e he => ?_) fun unrecorded =>
    exists_bind (exists_mapM fun e he => ?_) fun foreign => ⟨_, rfl⟩
  · obtain ⟨op, hm, -⟩ := mem_operandUses.mp (List.mem_of_mem_filter he)
    exact exists_bind ⟨op, op_eq_ok.mpr (ht.op?_of_mem hm)⟩ fun _ => ⟨_, rfl⟩
  · obtain ⟨v, hm, he⟩ := List.mem_flatMap.mp he
    obtain ⟨u, -, he⟩ := List.mem_filterMap.mp he
    obtain rfl : (v, u) = e := by
      split at he
      · simp at he
      · exact Option.some.inj he
    exact exists_bind (exists_describe hv (exists_value_of_defined hv ht hm)) fun _ => ⟨_, rfl⟩

theorem exists_validateUses (hs : ctx.Sound) {m : OpId} {t : RegionTree} (ht : t.HeldBy ctx)
    (hbody : ctx.body m = .ok (some t.id)) : ∃ report, ctx.validateUses m = .ok report := by
  obtain ⟨errors, herrors⟩ := exists_useErrors hs.typed ht
  refine ⟨{ useErrors := errors }, ?_⟩
  simp only [validateUses, hbody, except_ok_bind, regionTree_eq_ok_iff.mpr ⟨rfl, ht⟩, herrors]
  rfl

/-- No use error: the ledger lists the operands, and for the values of the region only them. -/
theorem useErrors_eq_nil_iff {t : RegionTree} : ctx.useErrors t = .ok [] ↔
    (∀ e ∈ operandUses t.preorder, e ∈ ctx.ledger) ∧
      ∀ v ∈ definedValues t, ∀ u, (v, u) ∈ ctx.ledger → (v, u) ∈ operandUses t.preorder := by
  simp only [useErrors, except_bind_eq_ok, except_pure_eq_ok, List.append_eq_nil_iff]
  constructor
  · rintro ⟨_, hu, _, hf, rfl, rfl⟩
    rw [mapM_eq_ok_nil, List.filter_eq_nil_iff] at hu
    rw [mapM_eq_ok_nil, List.flatMap_eq_nil_iff] at hf
    refine ⟨fun e he => by simpa using hu e he, fun v hv u hvu => ?_⟩
    have hnone := List.filterMap_eq_nil_iff.mp (hf v hv) u (mem_uses.mpr hvu)
    by_contra hm
    simp [hm] at hnone
  · rintro ⟨hu, hf⟩
    refine ⟨[], mapM_eq_ok_nil.mpr ?_, [], mapM_eq_ok_nil.mpr ?_, rfl, rfl⟩
    · exact List.filter_eq_nil_iff.mpr fun e he => by simpa using hu e he
    · refine List.flatMap_eq_nil_iff.mpr fun v hv => List.filterMap_eq_nil_iff.mpr fun u hm => ?_
      rw [if_pos]
      simpa using hf v hv u (mem_uses.mp hm)

theorem operandErrors_eq_nil_iff {visible : List ValueId} {o : OpId} {op : Op} :
    ctx.operandErrors visible o op = .ok [] ↔ ∀ v ∈ op.operands, v ∈ visible := by
  rw [operandErrors, filterMapM_eq_ok_nil_iff]
  constructor
  · intro h v hv
    obtain ⟨i, hi⟩ := List.mem_iff_getElem?.mp hv
    have hnone := h (v, i) (List.mem_zipIdx_iff_getElem?.mpr (by simpa using hi))
    by_contra hm
    simp [hm] at hnone
  · rintro h ⟨v, i⟩ hvi
    have hi := List.mem_zipIdx_iff_getElem?.mp hvi
    simp [h v (List.mem_of_getElem? hi), pure, Except.pure]

section Layers

variable {visible outer : List ValueId} {siblings : List BlockTree}

theorem scopeErrorsOps_cons_iff {t : OpTree} {rest : List OpTree} :
    ctx.scopeErrorsOps visible (t :: rest) = .ok [] ↔ (∀ v ∈ t.op.operands, v ∈ visible) ∧
      ctx.scopeErrorsRegions visible t.regions = .ok [] ∧
      ctx.scopeErrorsOps (visible ++ t.op.results) rest = .ok [] := by
  obtain ⟨id, op, regions⟩ := t
  have howns : ctx.operandErrors visible id op = .ok [] ↔ ∀ v ∈ op.operands, v ∈ visible :=
    operandErrors_eq_nil_iff
  simp only [scopeErrorsOps, except_bind_eq_ok, except_pure_eq_ok, List.append_eq_nil_iff]
  constructor
  · rintro ⟨_, hown, _, hnested, _, hlater, ⟨rfl, rfl⟩, rfl⟩
    exact ⟨howns.mp hown, hnested, hlater⟩
  · rintro ⟨hown, hnested, hlater⟩
    exact ⟨[], howns.mpr hown, [], hnested, [], hlater, ⟨rfl, rfl⟩, rfl⟩

theorem scopeErrorsRegions_iff {l : List RegionTree} :
    ctx.scopeErrorsRegions visible l = .ok [] ↔ ∀ t ∈ l, ctx.scopeErrors visible t = .ok [] := by
  induction l with
  | nil => simp [scopeErrorsRegions, pure, Except.pure]
  | cons t l ih =>
    simp only [scopeErrorsRegions, except_bind_eq_ok, except_pure_eq_ok, List.append_eq_nil_iff,
      List.forall_mem_cons, ← ih]
    constructor
    · rintro ⟨_, hfirst, _, hrest, rfl, rfl⟩
      exact ⟨hfirst, hrest⟩
    · rintro ⟨hfirst, hrest⟩
      exact ⟨[], hfirst, [], hrest, rfl, rfl⟩

theorem scopeErrorsBlocks_iff {l : List BlockTree} :
    ctx.scopeErrorsBlocks outer siblings l = .ok [] ↔
      ∀ b ∈ l, ctx.scopeErrorsOps (outer ++ siblingValues b.id siblings) b.ops = .ok [] := by
  induction l with
  | nil => simp [scopeErrorsBlocks, pure, Except.pure]
  | cons b l ih =>
    obtain ⟨id, args, ops⟩ := b
    simp only [scopeErrorsBlocks, except_bind_eq_ok, except_pure_eq_ok, List.append_eq_nil_iff,
      List.forall_mem_cons, ← ih]
    constructor
    · rintro ⟨_, hfirst, _, hrest, rfl, rfl⟩
      exact ⟨hfirst, hrest⟩
    · rintro ⟨hfirst, hrest⟩
      exact ⟨[], hfirst, [], hrest, rfl, rfl⟩

end Layers

section Closed

variable {D : ValueId → Prop}

theorem siblingValues_subset {b : BlockId} {l : List BlockTree}
    (hargs : ∀ c ∈ l, ∀ a ∈ c.args, D a.1)
    (hresults : ∀ c ∈ l, ∀ o ∈ c.preorder, ∀ v ∈ o.2.results, D v) :
    ∀ v ∈ siblingValues b l, D v := by
  intro v hv
  simp only [siblingValues, List.mem_flatMap, List.mem_append, List.mem_map] at hv
  obtain ⟨c, hc, ⟨a, ha, rfl⟩ | hv⟩ := hv
  · exact hargs c hc a ha
  · split at hv
    · simp at hv
    · obtain ⟨t, ht, hv⟩ := List.mem_flatMap.mp hv
      refine hresults c hc (t.id, t.op) ?_ v hv
      obtain ⟨id, args, ops⟩ := c
      rw [BlockTree.preorder_node, List.mem_flatMap]
      exact ⟨t, ht, by rw [t.preorder_eq]; exact List.mem_cons_self⟩

mutual

theorem operands_of_scopeErrorsOps {visible : List ValueId} (hvisible : ∀ v ∈ visible, D v) :
    ∀ l : List OpTree, ctx.scopeErrorsOps visible l = .ok [] →
      (∀ o ∈ l.flatMap OpTree.preorder, ∀ v ∈ o.2.results, D v) →
      (∀ b ∈ l.flatMap OpTree.blocks, ∀ a ∈ b.args, D a.1) →
      ∀ o ∈ l.flatMap OpTree.preorder, ∀ v ∈ o.2.operands, D v
  | [], _, _, _ => by simp
  | .node id op regions :: rest, h, hresults, hargs => by
    obtain ⟨hown, hnested, hlater⟩ := scopeErrorsOps_cons_iff.mp h
    simp only [List.flatMap_cons, OpTree.preorder_node, OpTree.blocks_node, List.forall_mem_append,
      List.forall_mem_cons] at hresults hargs ⊢
    refine ⟨⟨fun v hv => hvisible v (hown v hv), ?_⟩, ?_⟩
    · exact operands_of_scopeErrorsRegions hvisible regions hnested hresults.1.2 hargs.1
    · refine operands_of_scopeErrorsOps ?_ rest hlater hresults.2 hargs.2
      exact List.forall_mem_append.mpr ⟨hvisible, hresults.1.1⟩

theorem operands_of_scopeErrorsRegions {visible : List ValueId} (hvisible : ∀ v ∈ visible, D v) :
    ∀ l : List RegionTree, ctx.scopeErrorsRegions visible l = .ok [] →
      (∀ o ∈ l.flatMap RegionTree.preorder, ∀ v ∈ o.2.results, D v) →
      (∀ b ∈ l.flatMap RegionTree.allBlocks, ∀ a ∈ b.args, D a.1) →
      ∀ o ∈ l.flatMap RegionTree.preorder, ∀ v ∈ o.2.operands, D v
  | [], _, _, _ => by simp
  | t :: rest, h, hresults, hargs => by
    rw [scopeErrorsRegions_iff, List.forall_mem_cons, ← scopeErrorsRegions_iff] at h
    simp only [List.flatMap_cons, List.forall_mem_append] at hresults hargs ⊢
    exact ⟨operands_of_scopeErrors hvisible t h.1 hresults.1 hargs.1,
      operands_of_scopeErrorsRegions hvisible rest h.2 hresults.2 hargs.2⟩

theorem operands_of_scopeErrors {outer : List ValueId} (houter : ∀ v ∈ outer, D v) :
    ∀ t : RegionTree, ctx.scopeErrors outer t = .ok [] →
      (∀ o ∈ t.preorder, ∀ v ∈ o.2.results, D v) →
      (∀ b ∈ t.allBlocks, ∀ a ∈ b.args, D a.1) →
      ∀ o ∈ t.preorder, ∀ v ∈ o.2.operands, D v
  | .node id blocks, h, hresults, hargs => by
    simp only [RegionTree.preorder_node, RegionTree.allBlocks_node, List.forall_mem_append]
      at hresults hargs ⊢
    refine operands_of_scopeErrorsBlocks houter (fun b => ?_) blocks h hresults hargs.2
    exact siblingValues_subset hargs.1 fun c hc => (List.forall_mem_flatMap.mp hresults) c hc

theorem operands_of_scopeErrorsBlocks {outer : List ValueId} {siblings : List BlockTree}
    (houter : ∀ v ∈ outer, D v) (hsiblings : ∀ b, ∀ v ∈ siblingValues b siblings, D v) :
    ∀ l : List BlockTree, ctx.scopeErrorsBlocks outer siblings l = .ok [] →
      (∀ o ∈ l.flatMap BlockTree.preorder, ∀ v ∈ o.2.results, D v) →
      (∀ b ∈ l.flatMap BlockTree.nested, ∀ a ∈ b.args, D a.1) →
      ∀ o ∈ l.flatMap BlockTree.preorder, ∀ v ∈ o.2.operands, D v
  | [], _, _, _ => by simp
  | .node b args ops :: rest, h, hresults, hargs => by
    rw [scopeErrorsBlocks_iff, List.forall_mem_cons, ← scopeErrorsBlocks_iff] at h
    simp only [List.flatMap_cons, BlockTree.preorder_node, BlockTree.nested_node,
      List.forall_mem_append] at hresults hargs ⊢
    refine ⟨operands_of_scopeErrorsOps ?_ ops h.1 hresults.1 hargs.1,
      operands_of_scopeErrorsBlocks houter hsiblings rest h.2 hresults.2 hargs.2⟩
    exact List.forall_mem_append.mpr ⟨houter, hsiblings b⟩

end

end Closed

theorem errors_of_validate {tree : OpTree} {t : RegionTree} (htree : tree.HeldBy ctx)
    (hbody : tree.regions.head? = some t) {report : Report}
    (hvalid : ctx.validate tree.id = .ok report) (hpassed : report.passed) :
    ctx.scopeErrors [] t = .ok [] ∧ ctx.useErrors t = .ok [] := by
  have hheld := htree.region (List.mem_of_mem_head? hbody)
  have htreeOf := regionTree_eq_ok_iff.mpr ⟨rfl, hheld⟩
  simp only [validate, validateScopes, validateUses, htree.body_of_head hbody, htreeOf, except_ok_bind,
    except_bind_eq_ok, except_pure_eq_ok] at hvalid
  obtain ⟨_, ⟨scopeErrors, hscopes, rfl⟩, _, ⟨useErrors, huses, rfl⟩, rfl⟩ := hvalid
  simp only [Report.passed, Bool.and_eq_true, List.isEmpty_iff] at hpassed
  obtain ⟨rfl, rfl⟩ := hpassed
  exact ⟨hscopes, huses⟩

theorem defined_of_scopeErrors {t : RegionTree} (h : ctx.scopeErrors [] t = .ok []) :
    ∀ o ∈ t.preorder, ∀ v ∈ o.2.operands, v ∈ definedValues t :=
  operands_of_scopeErrors (D := fun v => v ∈ definedValues t) (by simp) t h
    (fun o ho v hv => mem_definedValues.mpr (.inr ⟨o, ho, hv⟩))
    (fun b hb a ha => mem_definedValues.mpr (.inl ⟨b, hb, List.mem_map_of_mem ha⟩))

end Context

end RegionIR
