import RegionIR.Proofs.Source.Building

/-! Which programs resolve.

It is a matter of names alone whether a program resolves: every name that is mentioned is visible,
and no name is given a second time where it is visible. The context refuses nothing, because blocks,
regions and operations are new when they are put in their places. -/

namespace RegionIR

mutual

/-- Where the given names and labels are visible, no name of the operation is wrong. -/
def SourceOp.Resolvable (values labels : List String) : SourceOp → Prop
  | .mk h regions =>
    h.operands ⊆ values ∧ h.successors ⊆ labels ∧
      (h.results = [] ∨ h.results.length = h.resultTypes.length) ∧
      h.results.Nodup ∧ h.results.Disjoint values ∧
      SourceRegion.AllResolvable values labels regions

def SourceRegion.Resolvable (values labels : List String) : SourceRegion → Prop
  | .mk blocks =>
    (blocks.map SourceBlock.label).Nodup ∧ (blocks.flatMap SourceBlock.argNames).Nodup ∧
      (blocks.flatMap SourceBlock.argNames).Disjoint values ∧
      SourceBlock.AllResolvable (blocks.flatMap SourceBlock.argNames ++ values)
        (blocks.map SourceBlock.label ++ labels) blocks

def SourceRegion.AllResolvable (values labels : List String) : List SourceRegion → Prop
  | [] => True
  | r :: rest => r.Resolvable values labels ∧ SourceRegion.AllResolvable values labels rest

def SourceBlock.AllResolvable (values labels : List String) : List SourceBlock → Prop
  | [] => True
  | .mk _ _ ops :: rest =>
    SourceOp.AllResolvable values labels ops ∧
      SourceBlock.AllResolvable (ops.flatMap (·.head.results) ++ values) labels rest

def SourceOp.AllResolvable (values labels : List String) : List SourceOp → Prop
  | [] => True
  | o :: rest =>
    o.Resolvable values labels ∧ SourceOp.AllResolvable (o.head.results ++ values) labels rest

end

namespace Scope

variable {scope : Scope} {values labels : List String}

/-- The visible values and labels have just the given names. -/
structure Shows (scope : Scope) (values labels : List String) : Prop where
  values (name : String) : name ∈ values ↔ name ∈ scope.values.map Prod.fst
  labels (label : String) : label ∈ labels ↔ label ∈ scope.blocks.map Prod.fst

theorem Shows.of_mem_iff {values' : List String} (h : scope.Shows values labels)
    (hv : ∀ n, n ∈ values' ↔ n ∈ values) : scope.Shows values' labels :=
  ⟨fun n => (hv n).trans (h.values n), h.labels⟩

theorem exists_lookup {α : Type} {l : List (String × α)} {name : String}
    (h : name ∈ l.map Prod.fst) : ∃ a, l.lookup name = some a := by
  obtain ⟨e, he, rfl⟩ := List.mem_map.mp h
  exact Option.isSome_iff_exists.mp (List.lookup_isSome_iff.mpr ⟨e, he, by simp⟩)

theorem lookup_eq_none {α : Type} {l : List (String × α)} {name : String}
    (h : name ∉ l.map Prod.fst) : l.lookup name = none := by
  refine List.lookup_eq_none_iff.mpr fun e he => ?_
  simp only [bne_iff_ne, ne_eq]
  rintro rfl
  exact h (List.mem_map_of_mem he)

theorem keys_zip {names : List String} {vs : List ValueId}
    (hlen : names = [] ∨ names.length = vs.length) : (names.zip vs).map Prod.fst = names := by
  rcases hlen with rfl | hlen
  · rfl
  · exact List.map_fst_zip hlen.le

theorem Shows.define (h : scope.Shows values labels) {names : List String} {vs : List ValueId}
    (hlen : names = [] ∨ names.length = vs.length) :
    (scope.define names vs).Shows (names ++ values) labels := by
  refine ⟨fun name => ?_, h.labels⟩
  rw [Scope.define, List.map_append, List.map_reverse, keys_zip hlen, List.mem_append,
    List.mem_append, List.mem_reverse, h.values]

theorem length_flatMap_argNames {blocks : List SourceBlock} {bs : List (BlockId × List ValueId)}
    (hlen : List.Forall₂ (fun b e => b.args.length = e.2.length) blocks bs) :
    (blocks.flatMap SourceBlock.argNames).length = (bs.flatMap Prod.snd).length := by
  induction hlen with
  | nil => rfl
  | cons hfirst _ ih => simp [SourceBlock.argNames, hfirst, ih]

theorem Shows.enter (h : scope.Shows values labels) {blocks : List SourceBlock}
    {bs : List (BlockId × List ValueId)}
    (hlen : List.Forall₂ (fun b e => b.args.length = e.2.length) blocks bs) :
    (scope.enter blocks bs).Shows (blocks.flatMap SourceBlock.argNames ++ values)
      (blocks.map SourceBlock.label ++ labels) := by
  have hlabels : ((blocks.map SourceBlock.label).zip (bs.map Prod.fst)).map Prod.fst =
      blocks.map SourceBlock.label :=
    List.map_fst_zip (by simp [hlen.length_eq])
  rw [Scope.enter_eq hlen]
  refine ⟨(h.define (.inr (length_flatMap_argNames hlen))).values, fun label => ?_⟩
  rw [List.map_append, List.map_reverse, hlabels, List.mem_append, List.mem_append,
    List.mem_reverse, h.labels]

end Scope

theorem SourceOp.Means.results_named {scope : Scope} {s : SourceOp} {t : OpTree}
    {values labels : List String} (hm : s.Means scope t) (h : s.Resolvable values labels) :
    s.head.results = [] ∨ s.head.results.length = t.op.results.length := by
  obtain ⟨head, regions⟩ := s
  obtain ⟨id, op, trees⟩ := t
  obtain ⟨-, -, hlen, -⟩ := h
  refine hlen.imp_right fun hlen => ?_
  have hresults : op.results.length = (Ty.canonicalList head.resultTypes).length := by
    rw [← hm.1.resultTypes, hm.1.results]
  rw [Ty.canonicalList_eq_map, List.length_map] at hresults
  exact hlen.trans hresults.symm

namespace Resolve

variable {ctx : Context} {h : SourceHead} {scope : Scope} {values labels : List String}

theorem exists_forall₂_lookup {α : Type} {l : List (String × α)} {names : List String}
    (h : ∀ name ∈ names, name ∈ l.map Prod.fst) :
    ∃ as, List.Forall₂ (fun name a => l.lookup name = some a) names as := by
  induction names with
  | nil => exact ⟨[], .nil⟩
  | cons name names ih =>
    rw [List.forall_mem_cons] at h
    obtain ⟨a, ha⟩ := Scope.exists_lookup h.1
    obtain ⟨as, has⟩ := ih h.2
    exact ⟨a :: as, .cons ha has⟩

theorem defineValues_total {names : List String} (hnd : names.Nodup)
    (hfresh : ∀ name ∈ names, name ∉ scope.values.map Prod.fst) {vs : List ValueId}
    (hlen : names.length ≤ vs.length) :
    Gives (defineValues h scope names vs) ctx (scope.define names vs) ctx := by
  induction names generalizing scope vs with
  | nil => exact gives_pure.mpr ⟨rfl, rfl⟩
  | cons name names ih =>
    cases vs with
    | nil => simp at hlen
    | cons v vs =>
      rw [List.nodup_cons] at hnd
      rw [List.forall_mem_cons] at hfresh
      have hname : Gives (defineValue h scope name v) ctx
          { scope with values := (name, v) :: scope.values } ctx := by
        rw [defineValue, Scope.lookup_eq_none hfresh.1]
        exact gives_pure.mpr ⟨rfl, rfl⟩
      rw [Scope.define_cons]
      refine gives_bind.mpr ⟨_, ctx, hname, ih hnd.2 (fun other hother => ?_) (by simpa using hlen)⟩
      rw [List.map_cons, List.mem_cons, not_or]
      refine ⟨?_, hfresh.2 other hother⟩
      rintro rfl
      exact hnd.1 hother

theorem openBlocks_total {seen : List String} {blocks : List SourceBlock}
    (hlabels : (blocks.map SourceBlock.label).Nodup)
    (hseen : ∀ b ∈ blocks, b.label ∉ seen)
    (hnd : (blocks.flatMap SourceBlock.argNames).Nodup)
    (hfresh : ∀ name ∈ blocks.flatMap SourceBlock.argNames, name ∉ scope.values.map Prod.fst) :
    ∃ r ctx', Gives (openBlocks h seen scope blocks) ctx r ctx' := by
  induction blocks generalizing seen scope ctx with
  | nil => exact ⟨_, ctx, gives_pure.mpr ⟨rfl, rfl⟩⟩
  | cons block blocks ih =>
    obtain ⟨label, args, ops⟩ := block
    rw [List.map_cons, List.nodup_cons] at hlabels
    rw [List.forall_mem_cons] at hseen
    rw [List.flatMap_cons, List.nodup_append] at hnd
    rw [List.flatMap_cons, List.forall_mem_append] at hfresh
    obtain ⟨ctx₁, b, hcreate⟩ : ∃ ctx₁ b,
        ctx.createBlock (args.map fun a => a.2.canonical) = (ctx₁, b) := ⟨_, _, rfl⟩
    let vs := ctx.freshValues (args.map fun a => a.2.canonical).length
    have hblock : ctx₁.block? b = some { argTypes := args.map fun a => a.2.canonical, args := vs } := by
      have hc := ctx.createBlock_creates (args.map fun a => a.2.canonical)
      rw [hcreate] at hc
      rw [hc.block?, if_pos rfl]
    let scope₁ : Scope := { scope with blocks := (label, b) :: scope.blocks }
    have hargs : (args.map Prod.fst).Nodup := hnd.1
    have hfreshArgs : ∀ name ∈ args.map Prod.fst, name ∉ scope₁.values.map Prod.fst := hfresh.1
    have hdefine : Gives (defineValues h scope₁ (args.map Prod.fst) vs) ctx₁
        (scope₁.define (args.map Prod.fst) vs) ctx₁ :=
      defineValues_total hargs hfreshArgs (by simp [vs])
    have hnext : ∀ name ∈ blocks.flatMap SourceBlock.argNames,
        name ∉ (scope₁.define (args.map Prod.fst) vs).values.map Prod.fst := by
      intro name hname hmem
      rw [Scope.define, List.map_append, List.mem_append, List.map_reverse, List.mem_reverse] at hmem
      rcases hmem with hmem | hmem
      · obtain ⟨e, he, rfl⟩ := List.mem_map.mp hmem
        exact hnd.2.2 _ (List.of_mem_zip he).1 _ hname rfl
      · exact hfresh.2 name hname hmem
    have hunseen : ∀ c ∈ blocks, c.label ∉ label :: seen := by
      intro c hc
      rw [List.mem_cons, not_or]
      exact ⟨fun heq => hlabels.1 (List.mem_map.mpr ⟨c, hc, heq⟩), hseen.2 c hc⟩
    obtain ⟨⟨ids, scope₂⟩, ctx₂, hrest⟩ : ∃ r ctx₂, Gives (openBlocks h (label :: seen)
        (scope₁.define (args.map Prod.fst) vs) blocks) ctx₁ r ctx₂ :=
      ih hlabels.2 hunseen hnd.2.1 hnext
    refine ⟨(b :: ids, scope₂), ctx₂, gives_openBlocks_cons.mpr ⟨hseen.1, ?_⟩⟩
    refine gives_bind.mpr ⟨b, ctx₁, gives_createBlock.mpr hcreate, ?_⟩
    refine gives_bind.mpr ⟨vs, ctx₁, (gives_argsOf hblock).mpr ⟨rfl, rfl⟩, ?_⟩
    refine gives_bind.mpr ⟨_, ctx₁, hdefine, ?_⟩
    exact gives_bind.mpr ⟨_, ctx₂, hrest, gives_pure.mpr ⟨rfl, rfl⟩⟩

/-- Whether the operation resolves wherever its names are in order. -/
def OpResolves (s : SourceOp) : Prop :=
  ∀ ⦃scope values labels ctx⦄, ctx.Reachable → scope.Shows values labels → s.Resolvable values labels →
    ∃ id scope' ctx', Gives (op scope s) ctx (id, scope') ctx'

theorem fillBlock_total {ops : List SourceOp} (hops : ∀ s ∈ ops, OpResolves s) (hr : ctx.Reachable)
    {b : BlockId} {block : Block} (hb : ctx.block? b = some block) (hs : scope.Shows values labels)
    (hok : SourceOp.AllResolvable values labels ops) :
    ∃ scope' ctx', Gives (fillBlock scope b ops) ctx scope' ctx' ∧
      scope'.Shows (ops.flatMap (·.head.results) ++ values) labels := by
  induction ops generalizing scope values ctx block with
  | nil => exact ⟨scope, ctx, gives_pure.mpr ⟨rfl, rfl⟩, hs⟩
  | cons s ops ih =>
    obtain ⟨hfirst, hrest⟩ := hok
    obtain ⟨id, scope₁, ctx₁, hop⟩ := hops s List.mem_cons_self hr hs hfirst
    obtain ⟨t, rfl, ht⟩ := opBuilds s hr hop
    have hr₁ := safe_op s scope ctx _ ctx₁ hr hop
    obtain ⟨ctx₂, hpush⟩ := Context.pushOp_total ht.held.op?_id ht.detached
      (ht.gains.block? List.not_mem_nil hb)
    have hb₂ : ∃ block, ctx₂.block? b = some block := by
      obtain ⟨block', hblock', -, -⟩ := (ht.gains.pushOp hpush t.id_mem_opIds).filled? hb
      exact ⟨block', hblock'⟩
    obtain ⟨block₂, hb₂⟩ := hb₂
    have hs₁ : scope₁.Shows (s.head.results ++ values) labels := by
      rw [ht.scope]
      exact hs.define (ht.means.results_named hfirst)
    obtain ⟨scope', ctx', hfill, hs'⟩ := ih (fun u hu => hops u (List.mem_cons_of_mem _ hu))
      (hr₁.pushOp hpush) hb₂ hs₁ hrest
    refine ⟨scope', ctx', gives_bind.mpr ⟨_, ctx₁, hop, gives_bind.mpr ⟨(), ctx₂,
      gives_pushOp.mpr hpush, hfill⟩⟩, fun name => ?_, hs'.labels⟩
    rw [← hs'.values]
    simp only [List.flatMap_cons, List.mem_append]
    tauto

theorem fillBlocks_total {blocks : List SourceBlock}
    (hblocks : ∀ b ∈ blocks, ∀ s ∈ b.ops, OpResolves s) (hr : ctx.Reachable) {ids : List BlockId}
    (hids : ∀ b ∈ ids, ∃ block, ctx.block? b = some block) (hs : scope.Shows values labels)
    (hok : SourceBlock.AllResolvable values labels blocks) :
    ∃ ctx', Gives (fillBlocks scope blocks ids) ctx () ctx' := by
  induction blocks generalizing scope values ctx ids with
  | nil =>
    refine ⟨ctx, ?_⟩
    unfold fillBlocks
    exact gives_pure.mpr ⟨rfl, rfl⟩
  | cons block blocks ih =>
    obtain ⟨label, args, ops⟩ := block
    obtain ⟨hfirst, hrest⟩ := hok
    rw [List.forall_mem_cons] at hblocks
    cases ids with
    | nil => exact ⟨ctx, gives_pure.mpr ⟨rfl, rfl⟩⟩
    | cons b ids =>
      rw [List.forall_mem_cons] at hids
      obtain ⟨block, hb⟩ := hids.1
      obtain ⟨scope₁, ctx₁, hfill, hs₁⟩ := fillBlock_total hblocks.1 hr hb hs hfirst
      have hr₁ := safe_fillBlock ops scope b ctx _ ctx₁ hr hfill
      obtain ⟨_, -, -, -, -, hgain⟩ := fillBlock_gives (fun s _ => opBuilds s) hr hb hfill
      obtain ⟨ctx', hnext⟩ := ih hblocks.2 hr₁ (fun c hc => by
        obtain ⟨old, hold⟩ := hids.2 c hc
        obtain ⟨block', hblock', -, -⟩ := hgain.filled? hold
        exact ⟨block', hblock'⟩) hs₁ hrest
      exact ⟨ctx', gives_bind.mpr ⟨scope₁, ctx₁, hfill, hnext⟩⟩

def RegionResolves (s : SourceRegion) : Prop :=
  ∀ ⦃h scope values labels ctx⦄, ctx.Reachable → scope.Shows values labels →
    s.Resolvable values labels → ∃ r ctx', Gives (region h scope s) ctx r ctx'

theorem region_total {blocks : List SourceBlock} (hblocks : ∀ b ∈ blocks, ∀ s ∈ b.ops, OpResolves s) :
    RegionResolves (.mk blocks) := by
  rintro h scope values labels ctx hr hs ⟨hlabels, hnd, hfresh, hok⟩
  have hnames : ∀ name ∈ blocks.flatMap SourceBlock.argNames, name ∉ scope.values.map Prod.fst :=
    fun name hname hmem => hfresh hname ((hs.values name).mpr hmem)
  obtain ⟨⟨ids, scope₁⟩, ctx₁, hopen⟩ : ∃ r ctx₁, Gives (openBlocks h [] scope blocks) ctx r ctx₁ :=
    openBlocks_total hlabels (fun _ _ => List.not_mem_nil) hnd hnames
  have hr₁ := safe_openBlocks h [] scope blocks ctx _ ctx₁ hr hopen
  obtain ⟨entries, rfl, rfl, htypes, hopened, hids, hgain₁⟩ := openBlocks_gives hopen
  have hlen := forall₂_length_of_types htypes
  have hthere : ∀ b ∈ entries.map Prod.fst, ∃ block, ctx₁.block? b = some block := by
    rw [List.forall_mem_map]
    exact fun e he => ⟨_, (hopened e he).block⟩
  obtain ⟨ctx₂, hfill⟩ := fillBlocks_total hblocks hr₁ hthere (hs.enter hlen) hok
  obtain ⟨_, -, -, -, hgain₂⟩ := fillBlocks_gives (fun _ _ s _ => opBuilds s) hr₁ htypes hopened hids hfill
  have hfree : ∀ b ∈ entries.map Prod.fst, ∃ block, ctx₂.block? b = some block ∧
      block.parent = none := by
    rw [List.forall_mem_map]
    intro e he
    obtain ⟨block, hblock, -, hp⟩ := hgain₂.filled? (hopened e he).block
    exact ⟨block, hblock, hp⟩
  obtain ⟨ctx', r, hcreate⟩ := Context.createRegion_total hids hfree
  exact ⟨r, ctx', gives_bind.mpr ⟨_, ctx₁, hopen, gives_bind.mpr ⟨(), ctx₂, hfill,
    gives_createRegion.mpr hcreate⟩⟩⟩

theorem regionsOf_total {regions : List SourceRegion} (hregions : ∀ s ∈ regions, RegionResolves s)
    (hr : ctx.Reachable) (hs : scope.Shows values labels)
    (hok : SourceRegion.AllResolvable values labels regions) :
    ∃ rs ctx', Gives (regionsOf h scope regions) ctx rs ctx' := by
  induction regions generalizing ctx with
  | nil => exact ⟨[], ctx, gives_pure.mpr ⟨rfl, rfl⟩⟩
  | cons s regions ih =>
    obtain ⟨hfirst, hrest⟩ := hok
    rw [List.forall_mem_cons] at hregions
    obtain ⟨r, ctx₁, hregion⟩ := hregions.1 (h := h) hr hs hfirst
    have hr₁ := safe_region s h scope ctx _ ctx₁ hr hregion
    obtain ⟨rs, ctx', hnext⟩ := ih hregions.2 hr₁ hrest
    exact ⟨r :: rs, ctx', gives_bind.mpr ⟨r, ctx₁, hregion, gives_bind.mpr ⟨rs, ctx', hnext,
      gives_pure.mpr ⟨rfl, rfl⟩⟩⟩⟩

theorem opResolves (s : SourceOp) : OpResolves s := by
  refine SourceOp.forall_of (P := OpResolves) (Q := RegionResolves)
    (R := fun b => ∀ s ∈ b.ops, OpResolves s) ?_ (fun _ ih => region_total ih) (fun _ _ _ ih => ih) s
  rintro h regions ih scope values labels ctx hr hs
    ⟨hoperands, hsuccessors, hresults, hnd, hfresh, hok⟩
  obtain ⟨operands, hfound⟩ := exists_forall₂_lookup fun name (hname : name ∈ h.operands) =>
    (hs.values name).mp (hoperands hname)
  obtain ⟨successors, hlabelled⟩ := exists_forall₂_lookup fun label (hlabel : label ∈ h.successors) =>
    (hs.labels label).mp (hsuccessors hlabel)
  obtain ⟨rs, ctx₁, hregions⟩ := regionsOf_total (h := h) ih hr hs hok
  obtain ⟨ts, rfl, hndr, hts, -, -⟩ :=
    regionsOf_gives (fun s _ => regionBuilds s) hr hregions
  let spec : OpSpec := {
    location := ⟨textPath, ⟨h.offset, h.offset⟩⟩
    dialect := h.dialect
    name := h.name
    operands := operands
    successors := successors
    regions := ts.map RegionTree.id
    resultTypes := Ty.canonicalList h.resultTypes
    attrs := attributes h }
  have hfree : ∀ r ∈ spec.regions, ∃ region, ctx₁.region? r = some region ∧ region.parent = none := by
    rw [List.forall_mem_map]
    exact fun t ht => (hts t ht).2.2
  obtain ⟨ctx₂, o, hcreate⟩ : ∃ ctx₂ o, ctx₁.createOp spec = .ok (ctx₂, o) :=
    Context.createOp_total rfl hndr hfree
  have ho := (Context.createOp_ok hcreate).op? o
  rw [if_pos rfl] at ho
  let vs := (spec.toOp (ctx₁.freshValues spec.resultTypes.length)).results
  have hdefine : Gives (defineValues h scope h.results vs) ctx₂ (scope.define h.results vs) ctx₂ :=
    defineValues_total hnd (fun name hname hmem => hfresh hname ((hs.values name).mpr hmem)) <| by
      rcases hresults with hnone | hlen
      · simp [hnone]
      · simp [vs, spec, OpSpec.toOp, Ty.canonicalList_eq_map, hlen]
  refine ⟨o, scope.define h.results vs, ctx₂, ?_⟩
  refine gives_bind.mpr ⟨operands, ctx,
    (gives_mapM fun _ _ _ _ => gives_operand).mpr ⟨hfound, rfl⟩, ?_⟩
  refine gives_bind.mpr ⟨successors, ctx,
    (gives_mapM fun _ _ _ _ => gives_successor).mpr ⟨hlabelled, rfl⟩, ?_⟩
  refine gives_bind.mpr ⟨(), ctx, gives_checkResults.mpr ⟨hresults, rfl⟩, ?_⟩
  refine gives_bind.mpr ⟨_, ctx₁, hregions, ?_⟩
  refine gives_bind.mpr ⟨o, ctx₂, gives_createOp.mpr hcreate, ?_⟩
  refine gives_bind.mpr ⟨_, ctx₂, (gives_resultsOf ho).mpr ⟨rfl, rfl⟩, ?_⟩
  exact gives_bind.mpr ⟨_, ctx₂, hdefine, gives_pure.mpr ⟨rfl, rfl⟩⟩

end Resolve

end RegionIR
