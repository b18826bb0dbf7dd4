import RegionIR.Proofs.Context.Histories
import RegionIR.Proofs.Context.Validity
import RegionIR.Proofs.Source.Building

/-! What is accepted is valid.

Where a name can be used in a text, what it stands for is visible to the validator: results after
their operation and in the later blocks, arguments in the whole region. As the parser records every
operand and nothing else, an operation that was parsed has no scope errors and no use errors. -/

namespace RegionIR

theorem RegionTree.mem_values_iff {r : RegionTree} {v : ValueId} :
    v ∈ r.values ↔ v ∈ Context.definedValues r := by
  rw [r.perm_results_args.mem_iff, List.mem_append, Context.definedValues, List.mem_append, or_comm]
  rfl

namespace Scope

variable {scope : Scope} {v : ValueId}

theorem mem_of_lookup {α : Type} {l : List (String × α)} {name : String} {a : α}
    (h : l.lookup name = some a) : a ∈ l.map Prod.snd := by
  induction l with
  | nil => simp at h
  | cons e l ih =>
    obtain ⟨key, b⟩ := e
    rw [List.lookup_cons] at h
    rw [List.map_cons, List.mem_cons]
    split at h
    · exact .inl (Option.some.inj h).symm
    · exact .inr (ih h)

theorem mem_define {names : List String} {vs : List ValueId}
    (h : v ∈ (scope.define names vs).values.map Prod.snd) :
    v ∈ vs ∨ v ∈ scope.values.map Prod.snd := by
  rw [define, List.map_append, List.mem_append, List.map_reverse, List.mem_reverse] at h
  refine h.imp_left fun h => ?_
  obtain ⟨e, he, rfl⟩ := List.mem_map.mp h
  exact (List.of_mem_zip he).2

theorem mem_enter {blocks : List SourceBlock} {bs : List (BlockId × List ValueId)}
    (h : v ∈ (scope.enter blocks bs).values.map Prod.snd) :
    v ∈ bs.flatMap Prod.snd ∨ v ∈ scope.values.map Prod.snd := by
  induction blocks generalizing scope bs with
  | nil => exact .inr (by simpa [enter] using h)
  | cons b blocks ih =>
    obtain ⟨label, args, ops⟩ := b
    cases bs with
    | nil => exact .inr (by simpa [enter] using h)
    | cons e bs =>
      rw [List.flatMap_cons, List.mem_append]
      rcases ih h with h | h
      · exact .inl (.inr h)
      · exact (mem_define h).imp_left .inl

theorem mem_after {ops : List SourceOp} {ts : List OpTree}
    (h : v ∈ (scope.after ops ts).values.map Prod.snd) :
    v ∈ ts.flatMap (·.op.results) ∨ v ∈ scope.values.map Prod.snd := by
  induction ops generalizing scope ts with
  | nil => exact .inr (by simpa [after] using h)
  | cons s ops ih =>
    cases ts with
    | nil => exact .inr (by simpa [after] using h)
    | cons t ts =>
      rw [List.flatMap_cons, List.mem_append]
      rcases ih h with h | h
      · exact .inl (.inr h)
      · exact (mem_define h).imp_left .inl

end Scope

namespace Context

variable {ctx : Context} {scope : Scope} {visible outer : List ValueId}

/-- Wherever the values of the scope are visible, those that the operation mentions are. -/
def InScope (ctx : Context) (s : SourceOp) : Prop :=
  ∀ ⦃scope t visible⦄, s.Means scope t → (t.blocks.map BlockTree.id).Nodup →
    scope.values.map Prod.snd ⊆ visible →
    t.op.operands ⊆ visible ∧ ctx.scopeErrorsRegions visible t.regions = .ok []

theorem scopeErrorsOps_of_means {ops : List SourceOp} (hops : ∀ s ∈ ops, ctx.InScope s)
    {ts : List OpTree} (hmeans : SourceOp.AllMean scope ops ts)
    (hnd : ((ts.flatMap OpTree.blocks).map BlockTree.id).Nodup)
    (hvisible : scope.values.map Prod.snd ⊆ visible) : ctx.scopeErrorsOps visible ts = .ok [] := by
  induction ops generalizing scope ts visible with
  | nil =>
    cases ts with
    | nil => rfl
    | cons t ts => exact hmeans.elim
  | cons s ops ih =>
    cases ts with
    | nil => exact hmeans.elim
    | cons t ts =>
      rw [List.forall_mem_cons] at hops
      rw [List.flatMap_cons, List.map_append] at hnd
      obtain ⟨hoperands, hregions⟩ := hops.1 hmeans.1 hnd.of_append_left hvisible
      refine scopeErrorsOps_cons_iff.mpr ⟨hoperands, hregions, ?_⟩
      refine ih hops.2 hmeans.2 hnd.of_append_right fun v hv => List.mem_append.mpr ?_
      exact (Scope.mem_define hv).symm.imp_left (hvisible ·)

/-- In a block the arguments of all blocks are visible, and the results in the blocks before it. -/
theorem scopeErrorsBlocks_of_means {blocks : List SourceBlock}
    (hblocks : ∀ b ∈ blocks, ∀ s ∈ b.ops, ctx.InScope s) (past : List BlockTree)
    {ts : List BlockTree} (hmeans : SourceBlock.AllMean scope blocks ts)
    (hids : ((past ++ ts).map BlockTree.id).Nodup)
    (hnd : ((ts.flatMap BlockTree.nested).map BlockTree.id).Nodup)
    (hvisible : ∀ v ∈ scope.values.map Prod.snd, v ∈ outer ∨
      v ∈ (past ++ ts).flatMap (fun t => t.args.map Prod.fst) ∨
      v ∈ past.flatMap fun t => t.ops.flatMap (·.op.results)) :
    ctx.scopeErrorsBlocks outer (past ++ ts) ts = .ok [] := by
  induction blocks generalizing scope past ts with
  | nil =>
    cases ts with
    | nil => rfl
    | cons t ts => exact hmeans.elim
  | cons b blocks ih =>
    obtain ⟨label, args, ops⟩ := b
    cases ts with
    | nil => exact hmeans.elim
    | cons t ts =>
      obtain ⟨id, targs, trees⟩ := t
      obtain ⟨-, hops, hrest⟩ := hmeans
      rw [List.forall_mem_cons] at hblocks
      rw [List.flatMap_cons, List.map_append, BlockTree.nested_node] at hnd
      rw [scopeErrorsBlocks_iff, List.forall_mem_cons, ← scopeErrorsBlocks_iff]
      constructor
      · refine scopeErrorsOps_of_means hblocks.1 hops hnd.of_append_left fun v hv => ?_
        refine List.mem_append.mpr ((hvisible v hv).imp_right fun hv => ?_)
        rw [siblingValues, List.mem_flatMap]
        rcases hv with hv | hv
        · obtain ⟨c, hc, hv⟩ := List.mem_flatMap.mp hv
          exact ⟨c, hc, List.mem_append_left _ hv⟩
        · obtain ⟨c, hc, hv⟩ := List.mem_flatMap.mp hv
          have hne : c.id ≠ (BlockTree.node id targs trees).id := fun he => by
            rw [List.map_append, List.nodup_append] at hids
            exact hids.2.2 c.id (List.mem_map_of_mem hc) _ (List.mem_map_of_mem List.mem_cons_self) he
          exact ⟨c, List.mem_append_left _ hc, List.mem_append_right _ (by rwa [if_neg hne])⟩
      · rw [List.append_cons] at hids hvisible ⊢
        refine ih hblocks.2 _ hrest hids hnd.of_append_right fun v hv => ?_
        rcases Scope.mem_after hv with hv | hv
        · exact .inr (.inr (by simp [BlockTree.ops] at hv ⊢; exact .inr hv))
        · refine (hvisible v hv).imp_right (Or.imp_right fun hv => ?_)
          rw [List.flatMap_append]
          exact List.mem_append_left _ hv

theorem scopeErrors_of_means {blocks : List SourceBlock}
    (hblocks : ∀ b ∈ blocks, ∀ s ∈ b.ops, ctx.InScope s) {t : RegionTree}
    (hmeans : (SourceRegion.mk blocks).Means scope t) (hnd : (t.allBlocks.map BlockTree.id).Nodup)
    (hvisible : scope.values.map Prod.snd ⊆ outer) : ctx.scopeErrors outer t = .ok [] := by
  obtain ⟨id, ts⟩ := t
  rw [RegionTree.allBlocks_node, List.map_append] at hnd
  refine scopeErrorsBlocks_of_means hblocks [] hmeans hnd.of_append_left hnd.of_append_right
    fun v hv => ?_
  refine (Scope.mem_enter hv).symm.imp (hvisible ·) fun hv => .inl ?_
  simpa [List.flatMap_map] using hv

theorem scopeErrorsRegions_of_means {regions : List SourceRegion}
    (hregions : ∀ r ∈ regions, ∀ ⦃scope t outer⦄, r.Means scope t →
      (t.allBlocks.map BlockTree.id).Nodup → scope.values.map Prod.snd ⊆ outer →
      ctx.scopeErrors outer t = .ok [])
    {ts : List RegionTree} (hmeans : SourceRegion.AllMean scope regions ts)
    (hnd : ((ts.flatMap RegionTree.allBlocks).map BlockTree.id).Nodup)
    (hvisible : scope.values.map Prod.snd ⊆ outer) : ctx.scopeErrorsRegions outer ts = .ok [] := by
  rw [scopeErrorsRegions_iff]
  induction regions generalizing ts with
  | nil =>
    cases ts with
    | nil => simp
    | cons t ts => exact hmeans.elim
  | cons r regions ih =>
    cases ts with
    | nil => exact hmeans.elim
    | cons t ts =>
      rw [List.flatMap_cons, List.map_append] at hnd
      rw [List.forall_mem_cons] at hregions ⊢
      exact ⟨hregions.1 hmeans.1 hnd.of_append_left hvisible,
        ih hregions.2 hmeans.2 hnd.of_append_right⟩

theorem inScope (s : SourceOp) : ctx.InScope s := by
  refine SourceOp.forall_of (P := ctx.InScope)
    (Q := fun r => ∀ ⦃scope t outer⦄, r.Means scope t → (t.allBlocks.map BlockTree.id).Nodup →
      scope.values.map Prod.snd ⊆ outer → ctx.scopeErrors outer t = .ok [])
    (R := fun b => ∀ s ∈ b.ops, ctx.InScope s) ?_ ?_ (fun _ _ _ ih => ih) s
  · rintro h regions ih scope ⟨id, op, trees⟩ visible ⟨hhead, hregions⟩ hnd hvisible
    constructor
    · have hmem : ∀ v ∈ op.operands, v ∈ scope.values.map Prod.snd :=
        forall_mem_right_of_forall₂ hhead.operands fun _ _ h => Scope.mem_of_lookup h
      exact fun v hv => hvisible (hmem v hv)
    · rw [OpTree.blocks_node] at hnd
      exact scopeErrorsRegions_of_means ih hregions hnd hvisible
  · intro blocks ih scope t outer hmeans hnd hvisible
    exact scopeErrors_of_means ih hmeans hnd hvisible

/-- The context holds the tree, the operands of its operations are recorded, and in the regions of the
tree all of them are in scope. -/
structure Enclosed (ctx : Context) (t : OpTree) : Prop where
  sound : ctx.Sound
  held : t.HeldBy ctx
  recorded {o : OpId} : o ∈ t.opIds → ctx.Recorded o
  operands : t.op.operands = []
  scopes : ctx.scopeErrorsRegions [] t.regions = .ok []

/-- What the regions of a tree define is used in the tree only. -/
def Private (ctx : Context) (t : OpTree) : Prop :=
  ∀ r ∈ t.regions, ∀ v ∈ definedValues r, ∀ u, (v, u) ∈ ctx.ledger → u.user ∈ t.opIds

namespace Enclosed

variable {t : OpTree}

theorem scopeErrors (h : ctx.Enclosed t) {r : RegionTree} (hr : r ∈ t.regions) :
    ctx.scopeErrors [] r = .ok [] :=
  scopeErrorsRegions_iff.mp h.scopes r hr

theorem operand_defined (h : ctx.Enclosed t) {r : RegionTree} (hr : r ∈ t.regions)
    {o : OpId × Op} (ho : o ∈ r.preorder) {v : ValueId} (hv : v ∈ o.2.operands) :
    v ∈ definedValues r :=
  defined_of_scopeErrors (h.scopeErrors hr) o ho v hv

/-- An operation of the tree is in one of its regions, unless it has no operands. -/
theorem exists_region (h : ctx.Enclosed t) {o : OpId} {op : Op} (hmem : (o, op) ∈ t.preorder)
    {v : ValueId} (hv : v ∈ op.operands) : ∃ r ∈ t.regions, (o, op) ∈ r.preorder := by
  have hroot := h.operands
  obtain ⟨id, top, regions⟩ := t
  rw [OpTree.preorder_node, List.mem_cons, List.mem_flatMap] at hmem
  rcases hmem with hmem | hmem
  · obtain ⟨rfl, rfl⟩ := Prod.mk.inj hmem
    simp only [OpTree.op] at hroot
    simp [hroot] at hv
  · exact hmem

theorem mem_tree {r : RegionTree} (hr : r ∈ t.regions) {o : OpId × Op} (ho : o ∈ r.preorder) :
    o ∈ t.preorder := by
  obtain ⟨id, op, regions⟩ := t
  rw [OpTree.preorder_node]
  exact List.mem_cons_of_mem _ (List.mem_flatMap.mpr ⟨r, hr, ho⟩)

theorem mem_preorder (h : ctx.Enclosed t) {r : RegionTree} (hr : r ∈ t.regions) {o : OpId × Op}
    (ho : o ∈ r.preorder) : ctx.op? o.1 = some o.2 :=
  h.held.op?_of_mem_preorder (mem_tree hr ho)

theorem region_unique (h : ctx.Enclosed t) {r s : RegionTree} (hr : r ∈ t.regions)
    (hs : s ∈ t.regions) {v : ValueId} (hvr : v ∈ definedValues r) (hvs : v ∈ definedValues s) :
    r = s := by
  have hnd := h.held.values_nodup h.sound.linked h.sound.typed
  obtain ⟨id, op, regions⟩ := t
  rw [OpTree.values, RegionTree.valuesOfAll_eq, List.nodup_append, List.nodup_flatMap] at hnd
  by_contra hne
  have : Std.Symm (Function.onFun List.Disjoint RegionTree.values) :=
    ⟨fun _ _ hd => List.Disjoint.symm hd⟩
  exact hnd.2.1.2.forall hr hs hne (RegionTree.mem_values_iff.mpr hvr)
    (RegionTree.mem_values_iff.mpr hvs)

theorem useErrors (h : ctx.Enclosed t) (hprivate : ctx.Private t) {r : RegionTree}
    (hr : r ∈ t.regions) : ctx.useErrors r = .ok [] := by
  refine useErrors_eq_nil_iff.mpr ⟨fun ⟨v, u⟩ hu => ?_, fun v hv u hu => ?_⟩
  · obtain ⟨op, hop, hi⟩ := mem_operandUses.mp hu
    have huser : u.user ∈ t.opIds := List.mem_map_of_mem (mem_tree hr hop)
    exact h.recorded huser op u.operand v (h.mem_preorder hr hop) hi
  · obtain ⟨op, hop, hi⟩ := h.sound.ledgered.sound hu
    obtain ⟨⟨o, op'⟩, hmem, rfl⟩ := List.mem_map.mp (hprivate r hr v hv u hu)
    rw [h.held.op?_of_mem_preorder hmem] at hop
    cases Option.some.inj hop
    have hvop := List.mem_of_getElem? hi
    obtain ⟨s, hs, hin⟩ := h.exists_region hmem hvop
    obtain rfl := h.region_unique hr hs hv (h.operand_defined hs hin hvop)
    exact mem_operandUses.mpr ⟨_, hin, hi⟩

/-- The validator finds all operands in scope, and no use error unless a value of the tree is used
from elsewhere. -/
theorem validate (h : ctx.Enclosed t) : ∃ report, ctx.validate t.id = .ok report ∧
    report.scopeErrors = [] ∧ (ctx.Private t → report.useErrors = []) := by
  have hbody := h.held.body
  cases hr : t.regions.head? with
  | none =>
    refine ⟨⟨[], []⟩, ?_, rfl, fun _ => rfl⟩
    simp [Context.validate, validateScopes, validateUses, hbody, hr, pure, Except.pure]
  | some r =>
    have hmem := List.mem_of_mem_head? hr
    have htree := regionTree_eq_ok_iff.mpr ⟨rfl, h.held.region hmem⟩
    obtain ⟨errors, herrors⟩ := exists_useErrors h.sound.typed (h.held.region hmem)
    refine ⟨⟨[], errors⟩, ?_, rfl, fun hprivate => ?_⟩
    · simp [Context.validate, validateScopes, validateUses, hbody, hr, htree, h.scopeErrors hmem,
        herrors, pure, Except.pure]
    · exact Except.ok.inj (herrors.symm.trans (h.useErrors hprivate hmem))

end Enclosed

/-- The context holds the tree and nothing else, all operands are recorded, and in the regions of the
tree all of them are in scope. -/
structure Program (ctx : Context) (t : OpTree) : Prop where
  sound : ctx.Sound
  held : t.HeldBy ctx
  all {o : OpId} {op : Op} : ctx.op? o = some op → (o, op) ∈ t.preorder
  recorded (o : OpId) : ctx.Recorded o
  operands : t.op.operands = []
  scopes : ctx.scopeErrorsRegions [] t.regions = .ok []

namespace Program

variable {t : OpTree}

theorem enclosed (h : ctx.Program t) : ctx.Enclosed t :=
  ⟨h.sound, h.held, fun {o} _ => h.recorded o, h.operands, h.scopes⟩

theorem isPrivate (h : ctx.Program t) : ctx.Private t := by
  intro r hr v hv u hu
  obtain ⟨op, hop, -⟩ := h.sound.ledgered.sound hu
  exact List.mem_map_of_mem (h.all hop)

theorem grounded (h : ctx.Program t) : ctx.Grounded := by
  intro o op ho v hv
  obtain ⟨r, hr, hmem⟩ := h.enclosed.exists_region (h.all ho) hv
  exact exists_value_of_defined h.sound.typed (h.held.region hr) (h.enclosed.operand_defined hr hmem hv)

theorem validate (h : ctx.Program t) : ctx.validate t.id = .ok ⟨[], []⟩ := by
  obtain ⟨⟨scopes, uses⟩, hreport, rfl, huses⟩ := h.enclosed.validate
  cases huses h.isPrivate
  exact hreport

end Program

theorem enclosed_of_parse {ctx' : Context} {text : String} {id : OpId} (hr : ctx.Reachable)
    (h : ctx.parse text = (.ok id, ctx')) :
    ∃ t, t.id = id ∧ ctx'.Enclosed t ∧ ctx.Gains ctx' [] t.opIds t.blockIds := by
  have hs := (hr.parse h).sound
  obtain ⟨source, scope, -, hgives⟩ := parse_eq_ok_iff.mp h
  obtain ⟨t, hid, ht⟩ := Resolve.opBuilds source hr hgives
  have hscope : (({} : Scope).values.map Prod.snd) ⊆ [] := List.Subset.refl _
  obtain ⟨hoperands, hscopes⟩ := inScope source ht.means (ht.held.blocks_nodup hs.linked) hscope
  exact ⟨t, hid, ⟨hs, ht.held, fun ho => ht.gains.recorded (ht.gains.freshOps _ ho),
    List.eq_nil_of_subset_nil hoperands, hscopes⟩, ht.gains⟩

theorem program_of_parse {text : String} {id : OpId} (h : Context.parse {} text = (.ok id, ctx)) :
    ∃ t, t.id = id ∧ ctx.Program t := by
  obtain ⟨t, hid, ht, hgains⟩ := enclosed_of_parse .empty h
  have hempty (o : OpId) : ({} : Context).op? o = none := rfl
  refine ⟨t, hid, ht.sound, ht.held, fun {o op} ho => ?_, fun o => hgains.recorded (hempty o),
    ht.operands, ht.scopes⟩
  rcases hgains.all ho with ⟨old, hold⟩ | hmem
  · simp [hempty] at hold
  · obtain ⟨⟨p, op'⟩, hp, rfl⟩ := List.mem_map.mp hmem
    rw [ht.held.op?_of_mem_preorder hp] at ho
    cases Option.some.inj ho
    exact hp

/-- If every use has a definition before the tree is added, what the tree defines is used in the tree
only. -/
theorem Gains.isPrivate {ctx' : Context} {t : OpTree} (h : ctx.Gains ctx' [] t.opIds t.blockIds)
    (hs : ctx.Sound) (ht : ctx'.Enclosed t)
    (hknown : ∀ e ∈ ctx.ledger, ∃ value, ctx.value? e.1 = some value) : ctx'.Private t := by
  intro r hr v hv u hu
  refine (h.users hu).resolve_left fun hold => ?_
  obtain ⟨value, hval⟩ := hknown _ hold
  have hval' := h.value? hval
  rcases mem_definedValues.mp hv with ⟨b, hb, ha⟩ | ⟨o, ho, hres⟩
  · have hbt : b ∈ t.blocks := by
      obtain ⟨id, op, regions⟩ := t
      rw [OpTree.blocks_node]
      exact List.mem_flatMap.mpr ⟨r, hr, hb⟩
    obtain ⟨block, hblk, hargs⟩ := ht.held.block_of_mem hbt
    obtain ⟨i, ty, horigin⟩ := ht.sound.typed.args_origin hblk (by rw [hargs]; exact ha)
    cases hval'.symm.trans horigin
    obtain ⟨old, hbefore, -⟩ := hs.typed.origin_argument hval
    simp [h.freshBlocks b.id (List.mem_map_of_mem hbt)] at hbefore
  · obtain ⟨i, ty, horigin⟩ := ht.sound.typed.results_origin (ht.mem_preorder hr ho) hres
    cases hval'.symm.trans horigin
    obtain ⟨old, hbefore, -⟩ := hs.typed.origin_result hval
    simp [h.freshOps o.1 (List.mem_map_of_mem (Enclosed.mem_tree hr ho))] at hbefore

/-- A text that is accepted has no scope errors, whatever is in the context already, and no use
errors unless a value was used there that did not exist. -/
theorem validate_of_parse {ctx' : Context} {text : String} {id : OpId} (hr : ctx.Reachable)
    (h : ctx.parse text = (.ok id, ctx')) : ∃ report, ctx'.validate id = .ok report ∧
      report.scopeErrors = [] ∧
      ((∀ e ∈ ctx.ledger, ∃ value, ctx.value? e.1 = some value) → report.useErrors = []) := by
  obtain ⟨t, rfl, ht, hgains⟩ := enclosed_of_parse hr h
  obtain ⟨report, hreport, hscopes, huses⟩ := ht.validate
  exact ⟨report, hreport, hscopes, fun hknown => huses (hgains.isPrivate hr.sound ht hknown)⟩

/-- In a nested region everything is visible that is visible around it. -/
def nestingText : String :=
  "core.module @m \x7b
^a(%0: t.t):
%1 = t.t %0, %2 : t.t
t.t %1 \x7b
^c(%3: t.t):
t.t %1, %2, %3
\x7d
^b(%2: t.t):
t.t %1
\x7d"

theorem validate_of_parse_nesting : ∃ ctx id ctx' report, ofEdits loopEdits = .ok ctx ∧
    ctx.Reachable ∧ (∀ e ∈ ctx.ledger, ∃ value, ctx.value? e.1 = some value) ∧
    ctx.parse nestingText = (.ok id, ctx') ∧ ctx'.validate id = .ok report ∧
    report.scopeErrors = [] ∧ report.useErrors = [] := by
  have hcheck : (ofEdits loopEdits).toOption.any fun ctx =>
      decide ctx.Grounded && (ctx.parse nestingText).1.toOption.isSome := by decide +kernel
  obtain ⟨ctx, hctx, hcheck⟩ := except_any_iff.mp hcheck
  rw [Bool.and_eq_true, decide_eq_true_eq] at hcheck
  obtain ⟨hgrounded, hparsed⟩ := hcheck
  obtain ⟨id, hid⟩ := Option.isSome_iff_exists.mp hparsed
  rw [except_toOption_eq_some] at hid
  have hr : ctx.Reachable := reachable_iff_exists_edits.mpr ⟨loopEdits, by decide +kernel, hctx⟩
  have hknown : ∀ e ∈ ctx.ledger, ∃ value, ctx.value? e.1 = some value :=
    fun e he => hgrounded.recorded hr.sound he
  have hparse : ctx.parse nestingText = (.ok id, (ctx.parse nestingText).2) := by
    rw [← hid, Prod.mk.eta]
  obtain ⟨report, hreport, hscopes, huses⟩ := validate_of_parse hr hparse
  exact ⟨ctx, id, _, report, hctx, hr, hknown, hparse, hreport, hscopes, huses hknown⟩

/-- An operation uses a value that does not exist. The value comes to be a result in the text, and the
operation is a user outside of the module. -/
theorem useErrors_of_dangling_use : ∃ (ctx ctx' : Context) (text : String) (id : OpId) (tree : OpTree)
    (report : Report), ctx.Reachable ∧ ctx.parse text = (.ok id, ctx') ∧ ctx'.opTree id = .ok tree ∧
    tree.op.is "core" "module" ∧ ctx'.validate id = .ok report ∧ report.useErrors ≠ [] := by
  let edits : List Edit :=
    [.createOp
      { location := ⟨"", ⟨0, 0⟩⟩, dialect := "u", name := "u", operands := [⟨0⟩] }]
  let text := "core.module @m \x7b %0 = t.t : t.t \x7d"
  have hcheck : (ofEdits edits).toOption.any fun ctx => (ctx.parse text).1.toOption.any fun id =>
      ((ctx.parse text).2.opTree id).toOption.any fun tree =>
        ((ctx.parse text).2.validate id).toOption.any fun report =>
          tree.op.is "core" "module" && !report.useErrors.isEmpty := by decide +kernel
  obtain ⟨ctx, hctx, hcheck⟩ := except_any_iff.mp hcheck
  obtain ⟨id, hid, hcheck⟩ := except_any_iff.mp hcheck
  obtain ⟨tree, htree, hcheck⟩ := except_any_iff.mp hcheck
  obtain ⟨report, hreport, hcheck⟩ := except_any_iff.mp hcheck
  rw [Bool.and_eq_true, Bool.not_eq_true', ← Bool.not_eq_true, List.isEmpty_iff] at hcheck
  have hr : ctx.Reachable := reachable_iff_exists_edits.mpr ⟨edits, by decide +kernel, hctx⟩
  have hparse : ctx.parse text = (.ok id, (ctx.parse text).2) := by
    rw [← hid, Prod.mk.eta]
  exact ⟨ctx, _, text, id, tree, report, hr, hparse, htree, hcheck.1, hreport, hcheck.2⟩

end Context

end RegionIR
