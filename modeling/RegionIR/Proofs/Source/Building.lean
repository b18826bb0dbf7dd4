import RegionIR.Proofs.Source.Growth
import RegionIR.Proofs.Source.Meaning
import RegionIR.Proofs.Source.Passes

/-! What resolving a program creates.

If an operation resolves, the context has gained a tree that it means, and nothing else. This is
proved from the inside out: what a list of operations fills a block with, the blocks of a region
together, regions, and at last the operation. -/

namespace RegionIR

namespace Resolve

variable {ctx ctx' : Context} {h : SourceHead} {scope scope' : Scope}

theorem gives_mapM {α β : Type} {f : α → Resolve β} {R : α → β → Prop}
    (hf : ∀ a b ctx ctx', Gives (f a) ctx b ctx' ↔ R a b ∧ ctx = ctx') {l : List α} {bs : List β} :
    Gives (l.mapM f) ctx bs ctx' ↔ List.Forall₂ R l bs ∧ ctx = ctx' := by
  induction l generalizing bs ctx ctx' with
  | nil => simp [gives_pure, eq_comm]
  | cons a l ih =>
    rw [List.mapM_cons, List.forall₂_cons_left_iff]
    constructor
    · intro hg
      obtain ⟨b, _, hb, hg⟩ := gives_bind.mp hg
      obtain ⟨hR, rfl⟩ := (hf _ _ _ _).mp hb
      obtain ⟨bs', _, hbs, hg⟩ := gives_bind.mp hg
      obtain ⟨hRs, rfl⟩ := ih.mp hbs
      obtain ⟨rfl, rfl⟩ := gives_pure.mp hg
      exact ⟨⟨b, bs', hR, hRs, rfl⟩, rfl⟩
    · rintro ⟨⟨b, bs, hb, hbs, rfl⟩, rfl⟩
      exact gives_bind.mpr ⟨b, ctx, (hf _ _ _ _).mpr ⟨hb, rfl⟩,
        gives_bind.mpr ⟨bs, ctx, ih.mpr ⟨hbs, rfl⟩, gives_pure.mpr ⟨rfl, rfl⟩⟩⟩

theorem gives_operand {name : String} {v : ValueId} :
    Gives (operand h scope name) ctx v ctx' ↔ scope.values.lookup name = some v ∧ ctx = ctx' := by
  unfold operand
  split
  · simp [gives_pure, *]
  · simp [gives_reject, *]

theorem gives_successor {label : String} {b : BlockId} :
    Gives (successor h scope label) ctx b ctx' ↔ scope.blocks.lookup label = some b ∧ ctx = ctx' := by
  unfold successor
  split
  · simp [gives_pure, *]
  · simp [gives_reject, *]

theorem gives_checkResults : Gives (checkResults h) ctx () ctx' ↔
    (h.results = [] ∨ h.results.length = h.resultTypes.length) ∧ ctx = ctx' := by
  unfold checkResults
  split
  · simp_all [gives_pure]
  · simp_all [gives_reject]

theorem gives_defineValues {names : List String} {vs : List ValueId}
    (hg : Gives (defineValues h scope names vs) ctx scope' ctx') :
    scope' = scope.define names vs ∧ ctx = ctx' := by
  induction names generalizing scope vs with
  | nil => exact ⟨(gives_pure.mp hg).1.symm, (gives_pure.mp hg).2⟩
  | cons name names ih =>
    cases vs with
    | nil =>
      have : ((Except.error _, ctx) : Except ResolveError Scope × Context) = (.ok scope', ctx') := hg
      simp at this
    | cons v vs =>
      obtain ⟨scope₁, ctx₁, hname, hrest⟩ := gives_bind.mp hg
      unfold defineValue at hname
      split at hname
      · exact absurd hname gives_reject
      · obtain ⟨rfl, rfl⟩ := gives_pure.mp hname
        rw [Scope.define_cons]
        exact ih hrest

theorem gives_resultsOf {id : OpId} {op : Op} (hop : ctx.op? id = some op) {vs : List ValueId} :
    Gives (resultsOf id) ctx vs ctx' ↔ op.results = vs ∧ ctx = ctx' := by
  rw [resultsOf, gives_read]
  simp [Context.op_eq_ok.mpr hop]

theorem gives_argsOf {b : BlockId} {block : Block} (hb : ctx.block? b = some block)
    {vs : List ValueId} : Gives (argsOf b) ctx vs ctx' ↔ block.args = vs ∧ ctx = ctx' := by
  rw [argsOf, gives_read]
  simp [Context.block_eq_ok.mpr hb]

section Blocks

/-- A block is there with the given arguments and their types, and nothing in it. -/
structure Opened (ctx : Context) (e : BlockId × List (ValueId × Ty)) : Prop where
  block : ctx.block? e.1 = some { argTypes := e.2.map Prod.snd, args := e.2.map Prod.fst }
  values : ∀ a ∈ e.2, ∃ value, ctx.value? a.1 = some value ∧ value.ty = a.2

theorem Opened.grow {e : BlockId × List (ValueId × Ty)} {filled : List BlockId} {ops : List OpId}
    {blocks : List BlockId} (ho : Opened ctx e) (hgain : ctx.Gains ctx' filled ops blocks)
    (he : e.1 ∉ filled) : Opened ctx' e := by
  refine ⟨hgain.block? he ho.block, fun a ha => ?_⟩
  obtain ⟨value, hv, hty⟩ := ho.values a ha
  exact ⟨value, hgain.value? hv, hty⟩

theorem opened_createBlock (ctx : Context) (tys : List Ty) :
    Opened (ctx.createBlock tys).1
      ((ctx.createBlock tys).2, (ctx.freshValues tys.length).zip tys) := by
  have hc := ctx.createBlock_creates tys
  have hlen := ctx.length_freshValues tys.length
  constructor
  · rw [hc.block?, if_pos rfl, List.map_fst_zip hlen.le, List.map_snd_zip hlen.ge]
  · rintro ⟨v, ty⟩ ha
    obtain ⟨i, hi⟩ := List.mem_iff_getElem?.mp ha
    rw [List.getElem?_zip_eq_some, ctx.getElem?_freshValues] at hi
    obtain ⟨hv, hty⟩ := hi
    split at hv
    · cases Option.some.inj hv
      exact ⟨⟨.argument (ctx.createBlock tys).2 i, ty⟩, by simp [hc.value?, hty], rfl⟩
    · simp at hv

theorem openBlocks_gives {seen : List String} {blocks : List SourceBlock} {ids : List BlockId}
    (hg : Gives (openBlocks h seen scope blocks) ctx (ids, scope') ctx') :
    ∃ entries : List (BlockId × List (ValueId × Ty)), ids = entries.map Prod.fst ∧
      scope' = scope.enter blocks (entries.map fun e => (e.1, e.2.map Prod.fst)) ∧
      List.Forall₂ (fun b e => e.2.map Prod.snd = b.args.map (·.2.canonical)) blocks entries ∧
      (∀ e ∈ entries, Opened ctx' e) ∧ ids.Nodup ∧ ctx.Gains ctx' [] [] ids := by
  induction blocks generalizing seen scope ctx ids with
  | nil =>
    obtain ⟨hids, rfl⟩ := gives_pure.mp hg
    obtain ⟨rfl, rfl⟩ := Prod.mk.inj hids
    exact ⟨[], rfl, rfl, .nil, by simp, by simp, .refl _ _⟩
  | cons block blocks ih =>
    obtain ⟨label, args, ops⟩ := block
    obtain ⟨-, hrest⟩ := gives_openBlocks_cons.mp hg
    obtain ⟨b, ctx₁, hcreate, hrest⟩ := gives_bind.mp hrest
    obtain ⟨vs, _, hargs, hrest⟩ := gives_bind.mp hrest
    have hb := gives_createBlock.mp hcreate
    have hctx : (ctx.createBlock (args.map fun a => a.2.canonical)).1 = ctx₁ := by rw [hb]
    have hid : (ctx.createBlock (args.map fun a => a.2.canonical)).2 = b := by rw [hb]
    have hopen := opened_createBlock ctx (args.map fun a => a.2.canonical)
    have hfirst := Context.Gains.createBlock (ctx.createBlock_creates (args.map fun a => a.2.canonical))
    rw [hctx, hid] at hopen hfirst
    obtain ⟨rfl, rfl⟩ := (gives_argsOf hopen.block).mp hargs
    obtain ⟨scope₁, _, hdefine, hrest⟩ := gives_bind.mp hrest
    obtain ⟨rfl, rfl⟩ := gives_defineValues hdefine
    obtain ⟨⟨ids, scope₂⟩, _, hblocks, hrest⟩ := gives_bind.mp hrest
    obtain ⟨hids, rfl⟩ := gives_pure.mp hrest
    obtain ⟨rfl, rfl⟩ := Prod.mk.inj hids
    obtain ⟨entries, rfl, hscope, htypes, hopened, hnd, hgain⟩ := ih hblocks
    have hzip : ((ctx.freshValues (args.map fun a => a.2.canonical).length).zip
        (args.map fun a => a.2.canonical)).map Prod.snd = args.map fun a => a.2.canonical :=
      List.map_snd_zip (ctx.length_freshValues _).ge
    have hnot : b ∉ entries.map Prod.fst := fun hmem => by
      have hnone := hgain.freshBlocks b hmem
      rw [hopen.block] at hnone
      simp at hnone
    refine ⟨(b, _) :: entries, rfl, hscope, .cons hzip htypes,
      List.forall_mem_cons.mpr ⟨hopen.grow hgain List.not_mem_nil, hopened⟩,
      List.nodup_cons.mpr ⟨hnot, hnd⟩, hfirst.trans hgain⟩

/-- Blocks whose arguments have the types that are written have as many as are written. -/
theorem forall₂_length_of_types {blocks : List SourceBlock}
    {entries : List (BlockId × List (ValueId × Ty))}
    (htypes : List.Forall₂ (fun b e => e.2.map Prod.snd = b.args.map (·.2.canonical)) blocks entries) :
    List.Forall₂ (fun (b : SourceBlock) (e : BlockId × List ValueId) => b.args.length = e.2.length)
      blocks (entries.map fun e => (e.1, e.2.map Prod.fst)) := by
  rw [List.forall₂_map_right_iff]
  refine htypes.imp fun b e htype => ?_
  simpa using (congrArg List.length htype).symm

/-- What an operation that resolves comes to. -/
structure OpBuilt (scope scope' : Scope) (ctx ctx' : Context) (s : SourceOp) (t : OpTree) : Prop where
  held : t.HeldBy ctx'
  detached : t.op.parent = none
  means : s.Means scope t
  scope : scope' = scope.define s.head.results t.op.results
  gains : ctx.Gains ctx' [] t.opIds t.blockIds

/-- If the operation resolves, there is a tree that it means. -/
def OpBuilds (s : SourceOp) : Prop :=
  ∀ ⦃scope scope' ctx ctx' id⦄, ctx.Reachable → Gives (op scope s) ctx (id, scope') ctx' →
    ∃ t, t.id = id ∧ OpBuilt scope scope' ctx ctx' s t

theorem fillBlock_gives {ops : List SourceOp} (hops : ∀ s ∈ ops, OpBuilds s) (hr : ctx.Reachable)
    {b : BlockId} {block : Block} (hb : ctx.block? b = some block)
    (hg : Gives (fillBlock scope b ops) ctx scope' ctx') :
    ∃ ts : List OpTree, (∀ t ∈ ts, t.HeldBy ctx') ∧ SourceOp.AllMean scope ops ts ∧
      scope' = scope.after ops ts ∧
      ctx'.block? b = some { block with ops := block.ops ++ ts.map OpTree.id } ∧
      ctx.Gains ctx' [b] (ts.flatMap OpTree.opIds) (ts.flatMap OpTree.blockIds) := by
  induction ops generalizing scope ctx block with
  | nil =>
    obtain ⟨rfl, rfl⟩ := gives_pure.mp hg
    exact ⟨[], by simp, trivial, rfl, by simpa using hb, .refl _ _⟩
  | cons s ops ih =>
    obtain ⟨⟨id, scope₁⟩, ctx₁, hop, hnext⟩ := gives_bind.mp hg
    obtain ⟨_, ctx₂, hpush, hrest⟩ := gives_bind.mp hnext
    have hr₁ := safe_op s scope ctx _ ctx₁ hr hop
    have hr₂ := safe_pushOp b id ctx₁ _ ctx₂ hr₁ hpush
    obtain ⟨t, rfl, ht⟩ := hops s List.mem_cons_self hr hop
    have hpush := gives_pushOp.mp hpush
    have hb₁ : ctx₁.block? b = some block := ht.gains.block? List.not_mem_nil hb
    have hb₂ : ctx₂.block? b = some { block with ops := block.ops ++ [t.id] } := by
      obtain ⟨-, -, rfl⟩ := Context.pushOp_ok hpush
      simp [Context.block?_modifyBlock, hb₁]
    have hfresh : b ∉ t.blockIds := fun hmem => by
      simp [ht.gains.freshBlocks b hmem] at hb
    obtain ⟨ts, hts, hmeans, hscope, hblock, hgain⟩ :=
      ih (fun u hu => hops u (List.mem_cons_of_mem _ hu)) hr₂ hb₂ hrest
    have hheld : (t.placed b).HeldBy ctx' := by
      refine hgain.heldBy (Context.pushOp_heldBy hr₁.sound.linked ht.held hpush hfresh) fun c hc => ?_
      rw [OpTree.blockIds_placed] at hc
      rw [List.mem_singleton]
      rintro rfl
      exact hfresh hc
    have hhead : ctx.Gains ctx₂ [b] t.opIds t.blockIds := ht.gains.pushOp hpush t.id_mem_opIds
    refine ⟨t.placed b :: ts, List.forall_mem_cons.mpr ⟨hheld, hts⟩, ⟨ht.means.placed b, ?_⟩, ?_,
      ?_, ?_⟩
    · simpa [ht.scope] using hmeans
    · simpa [Scope.after, ht.scope] using hscope
    · simpa using hblock
    · refine (hhead.trans hgain).congr (by simp) (by simp) ?_
      simpa using (hhead.trans hgain).freshBlocks

theorem fillBlocks_gives {blocks : List SourceBlock} (hblocks : ∀ b ∈ blocks, ∀ s ∈ b.ops, OpBuilds s)
    (hr : ctx.Reachable) {entries : List (BlockId × List (ValueId × Ty))}
    (htypes : List.Forall₂ (fun b e => e.2.map Prod.snd = b.args.map (·.2.canonical)) blocks entries)
    (hopened : ∀ e ∈ entries, Opened ctx e) (hnd : (entries.map Prod.fst).Nodup)
    (hg : Gives (fillBlocks scope blocks (entries.map Prod.fst)) ctx () ctx') :
    ∃ ts : List BlockTree, ts.map (fun t => (t.id, t.args)) = entries ∧ (∀ t ∈ ts, t.HeldBy ctx') ∧
      SourceBlock.AllMean scope blocks ts ∧
      ctx.Gains ctx' (entries.map Prod.fst) (ts.flatMap fun t => t.preorder.map Prod.fst)
        (ts.flatMap fun t => t.nested.map BlockTree.id) := by
  induction htypes generalizing scope ctx with
  | nil =>
    obtain ⟨-, rfl⟩ := gives_pure.mp hg
    exact ⟨[], rfl, by simp, trivial, .refl _ _⟩
  | @cons block e blocks entries htype htypes ih =>
    obtain ⟨label, args, ops⟩ := block
    obtain ⟨b, targs⟩ := e
    rw [List.forall_mem_cons] at hblocks hopened
    rw [List.map_cons, List.nodup_cons] at hnd
    obtain ⟨scope₁, ctx₁, hfill, hg⟩ := gives_bind.mp hg
    have hr₁ := safe_fillBlock ops scope b ctx _ ctx₁ hr hfill
    obtain ⟨us, hus, hmeans, rfl, hb₁, hgain₁⟩ :=
      fillBlock_gives hblocks.1 hr hopened.1.block hfill
    have hrest : ∀ e ∈ entries, Opened ctx₁ e := fun e he => by
      refine (hopened.2 e he).grow hgain₁ fun hmem => hnd.1 ?_
      rw [← List.mem_singleton.mp hmem]
      exact List.mem_map_of_mem he
    obtain ⟨ts, hentries, hts, hmeans', hgain₂⟩ := ih hblocks.2 hr₁ hrest hnd.2 hg
    have hblock : ctx'.block? b = _ := hgain₂.block? hnd.1 hb₁
    have hvalues : ∀ a ∈ targs, ∃ value, ctx'.value? a.1 = some value ∧ value.ty = a.2 := fun a ha => by
      obtain ⟨value, hv, hty⟩ := hopened.1.values a ha
      exact ⟨value, hgain₂.value? (hgain₁.value? hv), hty⟩
    have hheld : ∀ u ∈ us, u.HeldBy ctx' := fun u hu => by
      refine hgain₂.heldBy (hus u hu) fun c hc hmem => ?_
      obtain ⟨e, he, rfl⟩ := List.mem_map.mp hmem
      have hnone := hgain₁.freshBlocks e.1 (List.mem_flatMap.mpr ⟨u, hu, hc⟩)
      rw [(hopened.2 e he).block] at hnone
      simp at hnone
    refine ⟨.node b targs us :: ts, by rw [List.map_cons, hentries]; rfl,
      List.forall_mem_cons.mpr ⟨.node hblock rfl hvalues (by simp) hheld, hts⟩,
      ⟨htype, hmeans, hmeans'⟩, ?_⟩
    refine (hgain₁.trans hgain₂).congr (fun c hc => .inl hc) (fun o => ?_) ?_
    · simp [List.map_flatMap, OpTree.opIds]
    · simpa [List.map_flatMap, OpTree.blockIds] using (hgain₁.trans hgain₂).freshBlocks

end Blocks

section Regions

/-- What a region that resolves comes to. -/
structure RegionBuilt (scope : Scope) (ctx ctx' : Context) (s : SourceRegion) (t : RegionTree) :
    Prop where
  held : t.HeldBy ctx'
  free : ∃ region, ctx'.region? t.id = some region ∧ region.parent = none
  fresh : ctx.region? t.id = none
  means : s.Means scope t
  gains : ctx.Gains ctx' [] t.opIds t.blockIds

def RegionBuilds (s : SourceRegion) : Prop :=
  ∀ ⦃h scope ctx ctx' r⦄, ctx.Reachable → Gives (region h scope s) ctx r ctx' →
    ∃ t, t.id = r ∧ RegionBuilt scope ctx ctx' s t

theorem region_gives {blocks : List SourceBlock} (hblocks : ∀ b ∈ blocks, ∀ s ∈ b.ops, OpBuilds s) :
    RegionBuilds (.mk blocks) := by
  intro h scope ctx ctx' r hr hg
  obtain ⟨⟨ids, scope₁⟩, ctx₁, hopen, hnext⟩ := gives_bind.mp hg
  obtain ⟨_, ctx₂, hfill, hcreate⟩ := gives_bind.mp hnext
  have hr₁ := safe_openBlocks h [] scope blocks ctx _ ctx₁ hr hopen
  obtain ⟨entries, rfl, rfl, htypes, hopened, hnd, hgain₁⟩ := openBlocks_gives hopen
  obtain ⟨ts, rfl, hts, hmeans, hgain₂⟩ := fillBlocks_gives hblocks hr₁ htypes hopened hnd hfill
  have hregion := Context.createRegion_ok (gives_createRegion.mp hcreate)
  have hids : (ts.map fun t => (t.id, t.args)).map Prod.fst = ts.map BlockTree.id := by
    rw [List.map_map]
    rfl
  rw [hids] at hregion hgain₁ hgain₂
  have hfresh : ∀ b ∈ ts.map BlockTree.id, ctx.block? b = none := hgain₁.freshBlocks
  have hgain := (hgain₁.trans hgain₂).createRegion hregion hfresh (by simpa using hfresh)
  have hr' : ctx'.region? r = some { blocks := ts.map BlockTree.id } := by
    rw [hregion.region?, if_pos rfl]
  have hagrees (os : List OpId) (bs : List BlockId) : ctx₂.Agrees ctx' os bs := .createRegion hregion os bs
  have hheld : ∀ t ∈ ts, t.HeldBy ctx' := fun t ht => by
    refine (hagrees [] [t.id]).heldBy_of_ops List.mem_cons_self (fun u _ hu => ?_) (hts t ht)
    exact (hagrees u.opIds u.blockIds).heldBy (List.Subset.refl _) (List.Subset.refl _) hu
  refine ⟨.node r ts, rfl, ⟨.node hr' rfl hheld, ⟨_, hr', rfl⟩, ?_, ?_, ?_⟩⟩
  · cases hold : ctx.region? r with
    | none => exact hold
    | some region =>
      have hlater := (hgain₁.trans hgain₂).region? hold
      rw [hregion.fresh] at hlater
      simp at hlater
  · simpa only [SourceRegion.Means, List.map_map, Function.comp_def] using hmeans
  · refine hgain.congr (by simp) (fun o => ?_) ?_
    · simp [RegionTree.opIds, List.map_flatMap]
    · simpa [RegionTree.blockIds, List.map_flatMap] using hgain.freshBlocks

theorem regionsOf_gives {regions : List SourceRegion} (hregions : ∀ s ∈ regions, RegionBuilds s)
    (hr : ctx.Reachable) {rs : List RegionId} (hg : Gives (regionsOf h scope regions) ctx rs ctx') :
    ∃ ts : List RegionTree, ts.map RegionTree.id = rs ∧ rs.Nodup ∧
      (∀ t ∈ ts, t.HeldBy ctx' ∧ ctx.region? t.id = none ∧
        ∃ region, ctx'.region? t.id = some region ∧ region.parent = none) ∧
      SourceRegion.AllMean scope regions ts ∧
      ctx.Gains ctx' [] (ts.flatMap RegionTree.opIds) (ts.flatMap RegionTree.blockIds) := by
  induction regions generalizing ctx rs with
  | nil =>
    obtain ⟨rfl, rfl⟩ := gives_pure.mp hg
    exact ⟨[], rfl, by simp, by simp, trivial, .refl _ _⟩
  | cons s regions ih =>
    obtain ⟨r, ctx₁, hregion, hnext⟩ := gives_bind.mp hg
    obtain ⟨rs', ctx₂, hrest, hpure⟩ := gives_bind.mp hnext
    obtain ⟨rfl, rfl⟩ := gives_pure.mp hpure
    have hr₁ := safe_region s h scope ctx _ ctx₁ hr hregion
    obtain ⟨t, rfl, ht⟩ := hregions s List.mem_cons_self hr hregion
    obtain ⟨ts, rfl, hnd, hts, hmeans, hgain⟩ :=
      ih (fun u hu => hregions u (List.mem_cons_of_mem _ hu)) hr₁ hrest
    obtain ⟨region, hreg, hp⟩ := ht.free
    have hnone {u : RegionTree} (hu : u ∈ ts) : ctx.region? u.id = none := by
      cases hold : ctx.region? u.id with
      | none => rfl
      | some region =>
        have hlater := ht.gains.region? hold
        rw [(hts u hu).2.1] at hlater
        simp at hlater
    have hnot : t.id ∉ ts.map RegionTree.id := fun hmem => by
      obtain ⟨u, hu, hid⟩ := List.mem_map.mp hmem
      have hlater := (hts u hu).2.1
      rw [hid, hreg] at hlater
      simp at hlater
    refine ⟨t :: ts, rfl, List.nodup_cons.mpr ⟨hnot, hnd⟩, List.forall_mem_cons.mpr ⟨⟨?_, ht.fresh,
      region, hgain.region? hreg, hp⟩, fun u hu => ⟨(hts u hu).1, hnone hu, (hts u hu).2.2⟩⟩,
      ⟨ht.means, hmeans⟩, ?_⟩
    · have hagrees : ctx₁.Agrees ctx₂ t.opIds t.blockIds := hgain.agrees t.opIds (by simp)
      exact hagrees.region_heldBy t (List.Subset.refl _) (List.Subset.refl _) ht.held
    · exact ht.gains.trans hgain

end Regions

theorem opBuilds (s : SourceOp) : OpBuilds s := by
  refine SourceOp.forall_of (P := OpBuilds) (Q := RegionBuilds) (R := fun b => ∀ s ∈ b.ops, OpBuilds s)
    ?_ (fun _ ih => region_gives ih) (fun _ _ _ ih => ih) s
  intro head regions ih scope scope' ctx ctx' id hr hg
  obtain ⟨operands, _, hoperands, hnext⟩ := gives_bind.mp hg
  obtain ⟨hfound, rfl⟩ := (gives_mapM fun _ _ _ _ => gives_operand).mp hoperands
  obtain ⟨successors, _, hsuccessors, hnext⟩ := gives_bind.mp hnext
  obtain ⟨hlabelled, rfl⟩ := (gives_mapM fun _ _ _ _ => gives_successor).mp hsuccessors
  obtain ⟨_, _, hcheck, hnext⟩ := gives_bind.mp hnext
  obtain ⟨-, rfl⟩ := gives_checkResults.mp hcheck
  obtain ⟨rs, ctx₁, hregions, hnext⟩ := gives_bind.mp hnext
  obtain ⟨o, ctx₂, hcreate, hnext⟩ := gives_bind.mp hnext
  obtain ⟨results, _, hresults, hnext⟩ := gives_bind.mp hnext
  obtain ⟨scope₁, _, hdefine, hpure⟩ := gives_bind.mp hnext
  obtain ⟨ts, rfl, hnd, hts, hmeans, hgain⟩ := regionsOf_gives ih hr hregions
  have hop := Context.createOp_ok (gives_createOp.mp hcreate)
  have ho := hop.op? o
  rw [if_pos rfl] at ho
  obtain ⟨rfl, rfl⟩ := (gives_resultsOf ho).mp hresults
  obtain ⟨rfl, rfl⟩ := gives_defineValues hdefine
  obtain ⟨hid, rfl⟩ := gives_pure.mp hpure
  obtain ⟨rfl, rfl⟩ := Prod.mk.inj hid
  have hheld : ∀ t ∈ ts, t.HeldBy ctx₂ := fun t ht => by
    have hagrees := Context.Agrees.createOp hop t.opIds t.blockIds
    exact hagrees.region_heldBy t (List.Subset.refl _) (List.Subset.refl _) (hts t ht).1
  have hfresh : ∀ r ∈ ts.map RegionTree.id, ctx.region? r = none := by
    rw [List.forall_mem_map]
    exact fun t ht => (hts t ht).2.1
  have hgain' := hgain.createOp hop hfresh
  refine ⟨.node o _ ts, rfl, ⟨.node ho rfl hheld, rfl, ⟨⟨rfl, rfl, hfound, hlabelled, rfl, ?_, rfl⟩,
    hmeans⟩, rfl, ?_⟩⟩
  · exact ctx₁.length_freshValues _
  · refine hgain'.congr (by simp) (fun p => ?_) ?_
    · rw [OpTree.opIds_eq_regions]
      rfl
    · rw [OpTree.blockIds, OpTree.blocks_node, List.map_flatMap]
      exact hgain'.freshBlocks

theorem regionBuilds (s : SourceRegion) : RegionBuilds s := by
  obtain ⟨blocks⟩ := s
  exact region_gives fun _ _ s _ => opBuilds s

end Resolve

end RegionIR
