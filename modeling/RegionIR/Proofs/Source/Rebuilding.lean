import RegionIR.Proofs.Source.Definitions
import RegionIR.Proofs.Source.Isomorphism
import RegionIR.Proofs.Source.Spelling
import RegionIR.Proofs.Types.Canonical

/-! What a tree means when it is read again.

A tree that is written with different names for different values means an isomorphic tree. The scope
leads every name of a value to the value that took its place, which new definitions keep up. -/

namespace RegionIR

section Attributes

theorem Dict.find?_filter_of_ne {α : Type} {key other : String} (h : key ≠ other) (d : Dict α) :
    Dict.find? key (d.filter (·.1 ≠ other)) = Dict.find? key d := by
  induction d with
  | nil => rfl
  | cons e d ih =>
    rw [List.filter_cons]
    split
    · rw [Dict.find?_cons, Dict.find?_cons, ih]
    · rename_i he
      rw [ih, Dict.find?_cons, if_neg]
      rintro rfl
      exact he (by simpa using h)

theorem Names.find?_of_liftedSymbol {op : Op} {s : String} (h : Names.liftedSymbol op = some s) :
    op.attrs.find? "sym_name" = some (.symbol s) := by
  obtain ⟨a, ha, hs⟩ := Option.bind_eq_some_iff.mp h
  cases a with
  | symbol name =>
    cases Option.some.inj hs
    exact ha
  | _ => simp [Attr.asSymbol] at hs

theorem Resolve.attributes_namedHead {op : Op} (hsorted : op.attrs.Sorted)
    (hcanonical : ∀ e ∈ op.attrs, e.2.Canonical) (ν : ValueId → String) (β : BlockId → String) :
    attributes (op.namedHead ν β) = op.attrs := by
  cases hs : Names.liftedSymbol op with
  | none =>
    simp [attributes, Op.namedHead, hs, Ty.canonicalEntries_of_forall hcanonical,
      Dict.ofEntries_of_sorted hsorted]
  | some s =>
    let rest := op.attrs.filter (·.1 ≠ "sym_name")
    have hrest : ∀ e ∈ rest, e.2.Canonical := fun e he => hcanonical e (List.mem_of_mem_filter he)
    have hentries : attributes (op.namedHead ν β) =
        Dict.ofEntries (("sym_name", Attr.symbol s) :: rest) := by
      simp only [attributes, Op.namedHead, hs, Option.isSome_some, if_true, Option.toList_some]
      rw [Ty.canonicalEntries_of_forall hrest]
      rfl
    have hnd : ((("sym_name", Attr.symbol s) :: rest).map Prod.fst).Nodup := by
      rw [List.map_cons, List.nodup_cons]
      refine ⟨fun hmem => ?_, hsorted.nodup_keys.sublist (List.filter_sublist.map Prod.fst)⟩
      obtain ⟨e, he, hkey⟩ := List.mem_map.mp hmem
      simpa [hkey] using List.of_mem_filter he
    rw [hentries]
    refine (Dict.sorted_ofEntries _).ext hsorted fun key => ?_
    rw [Dict.find?_ofEntries hnd, Dict.find?_cons]
    split
    · subst key
      exact (Names.find?_of_liftedSymbol hs).symm
    · exact Dict.find?_filter_of_ne ‹_› op.attrs

end Attributes

section Regular

variable {t : OpTree}

theorem OpTree.Regular.child (h : t.Regular) {c : OpTree} (hc : c ∈ t.children) : c.Regular := by
  have hops : ∀ o ∈ c.preorder, o ∈ t.preorder := fun o ho => by
    rw [OpTree.preorder_eq]
    exact List.mem_cons_of_mem _ (List.mem_flatMap.mpr ⟨c, hc, ho⟩)
  have hblocks : ∀ b ∈ c.blocks, b ∈ t.blocks := fun b hb =>
    t.blocks_perm.mem_iff.mpr (List.mem_append_right _ (List.mem_flatMap.mpr ⟨c, hc, hb⟩))
  exact ⟨fun o ho => h.results o (hops o ho), fun o ho => h.sorted o (hops o ho),
    fun o ho => h.attrs o (hops o ho), fun o ho => h.resultTypes o (hops o ho),
    fun b hb => h.argTypes b (hblocks b hb)⟩

theorem OpTree.Regular.args (h : t.Regular) {r : RegionTree} (hr : r ∈ t.regions) {b : BlockTree}
    (hb : b ∈ r.blocks) : ∀ a ∈ b.args, a.2.Canonical :=
  h.argTypes b (t.blocks_perm.mem_iff.mpr
    (List.mem_append_left _ (List.mem_flatMap.mpr ⟨r, hr, hb⟩)))

end Regular

variable {ν : ValueId → String} {β : BlockId → String}

/-- Names of values, and the given labels, lead to what took the place of a value or block. -/
structure Scope.Fits (scope : Scope) (ν : ValueId → String) (β : BlockId → String)
    (lbls : List BlockId) (V : ValueId → ValueId → Prop) (B : BlockId → BlockId → Prop) : Prop where
  values (v v' : ValueId) : scope.values.lookup (ν v) = some v' → V v v'
  blocks : ∀ b ∈ lbls, ∀ b', scope.blocks.lookup (β b) = some b' → B b b'

namespace Scope.Fits

variable {scope : Scope} {lbls : List BlockId} {V : ValueId → ValueId → Prop}
  {B : BlockId → BlockId → Prop}

theorem mem_zip_of_lookup {α γ : Type} {names : List String} {as : List γ} {name : String} {a : γ}
    {f : α → String} {keys : List α} (hnames : names = keys.map f)
    (h : (names.zip as).reverse.lookup name = some a) :
    ∃ k, (k, a) ∈ keys.zip as ∧ f k = name := by
  obtain ⟨l, l', hsplit, -⟩ := List.lookup_eq_some_iff.mp h
  have hmem : (name, a) ∈ names.zip as := by
    rw [← List.mem_reverse, hsplit]
    simp
  rw [hnames, List.zip_map_left, List.mem_map] at hmem
  obtain ⟨⟨k, a'⟩, hk, he⟩ := hmem
  obtain ⟨rfl, rfl⟩ := Prod.mk.inj he
  exact ⟨k, hk, rfl⟩

/-- New names lead to the values that were defined with them, old names to what they led to. -/
theorem define (h : scope.Fits ν β lbls V B) {vs vs' : List ValueId} (hV : List.Forall₂ V vs vs')
    (hν : ∀ v ∈ vs, ∀ w, ν v = ν w → v = w) : (scope.define (vs.map ν) vs').Fits ν β lbls V B := by
  refine ⟨fun w w' hlookup => ?_, h.blocks⟩
  rw [Scope.define, List.lookup_append, Option.or_eq_some_iff] at hlookup
  rcases hlookup with hnew | ⟨-, hold⟩
  · obtain ⟨v, hv, hname⟩ := mem_zip_of_lookup rfl hnew
    rw [← hν v (List.of_mem_zip hv).1 w hname]
    exact (List.forall₂_iff_zip.mp hV).2 hv
  · exact h.values w w' hold

theorem enter (h : scope.Fits ν β lbls V B) {blocks blocks' : List BlockTree}
    (hB : List.Forall₂ B (blocks.map BlockTree.id) (blocks'.map BlockTree.id))
    (hV : List.Forall₂ (fun b b' => List.Forall₂ V b.argIds b'.argIds) blocks blocks')
    (hν : ∀ v ∈ blocks.flatMap BlockTree.argIds, ∀ w, ν v = ν w → v = w)
    {label : BlockId → String} {lbls' : List BlockId}
    (hlabel : ∀ c ∈ lbls', c ∈ blocks.map BlockTree.id ∧ label c = β c ∧
      ∀ b ∈ blocks.map BlockTree.id, label b = β c → b = c) :
    (scope.enter (BlockTree.allNamed ν β label blocks)
      (blocks'.map fun t => (t.id, t.argIds))).Fits ν β lbls' V B := by
  have hlen : List.Forall₂ (fun (b : SourceBlock) (e : BlockId × List ValueId) =>
      b.args.length = e.2.length) (BlockTree.allNamed ν β label blocks)
      (blocks'.map fun t => (t.id, t.argIds)) := by
    rw [BlockTree.allNamed_eq, List.forall₂_map_left_iff, List.forall₂_map_right_iff]
    refine hV.imp fun b b' hargs => ?_
    have hnames : (b.named ν β label).args.length = (b.argIds.map ν).length := by
      rw [← BlockTree.argNames_named (ν := ν) (β := β) label b, SourceBlock.argNames,
        List.length_map]
    rw [hnames, List.length_map, hargs.length_eq]
  have hargs : List.Forall₂ V (blocks.flatMap BlockTree.argIds) (blocks'.flatMap BlockTree.argIds) := by
    clear hB hlabel hlen hν
    induction hV with
    | nil => exact .nil
    | cons hfirst _ ih => exact List.rel_append hfirst ih
  have hnames : (BlockTree.allNamed ν β label blocks).flatMap SourceBlock.argNames =
      (blocks.flatMap BlockTree.argIds).map ν := by
    simp [BlockTree.allNamed_eq, List.flatMap_map, List.map_flatMap]
  have hlabels : (BlockTree.allNamed ν β label blocks).map SourceBlock.label =
      (blocks.map BlockTree.id).map label := by
    simp [BlockTree.allNamed_eq, Function.comp_def]
  have hids : (blocks'.map fun t => (t.id, t.argIds)).map Prod.fst = blocks'.map BlockTree.id := by
    rw [List.map_map]
    rfl
  have hkeys : (((blocks.map BlockTree.id).map label).zip (blocks'.map BlockTree.id)).map Prod.fst =
      (blocks.map BlockTree.id).map label :=
    List.map_fst_zip (by simpa using hB.length_eq.le)
  rw [Scope.enter_eq hlen, hnames, hlabels, List.flatMap_map, hids]
  refine ⟨(h.define hargs hν).values, fun c hc c' hlookup => ?_⟩
  rw [List.lookup_append, Option.or_eq_some_iff] at hlookup
  rcases hlookup with hnew | ⟨hnone, -⟩
  · obtain ⟨b, hb, hname⟩ := mem_zip_of_lookup rfl hnew
    rw [← (hlabel c hc).2.2 b (List.of_mem_zip hb).1 hname]
    exact (List.forall₂_iff_zip.mp hB).2 hb
  · have hmem : label c ∈ (blocks.map BlockTree.id).map label := List.mem_map_of_mem (hlabel c hc).1
    rw [← hkeys] at hmem
    obtain ⟨p, hp, hname⟩ := List.mem_map.mp hmem
    have hne := List.lookup_eq_none_iff.mp hnone p (List.mem_reverse.mpr hp)
    simp [hname, (hlabel c hc).2.1] at hne

end Scope.Fits

theorem OpTree.Matches.results {V : ValueId → ValueId → Prop} {B : BlockId → BlockId → Prop}
    {t t' : OpTree} (h : t.Matches V B t') : List.Forall₂ V t.op.results t'.op.results := by
  obtain ⟨id, op, regions⟩ := t
  obtain ⟨id', op', regions'⟩ := t'
  exact h.1.results

/-- Whether what the tree means, when it is written, matches the tree. -/
def OpTree.Rebuilt (ν : ValueId → String) (β : BlockId → String) (t : OpTree) : Prop :=
  ∀ ⦃scope visible lbls t'⦄, t.isScoped visible lbls → t.Regular →
    (∀ v ∈ t.values, ∀ w, ν v = ν w → v = w) → (∀ b ∈ t.labelled, ∀ c, β b = β c → b = c) →
    (t.named ν β).Means scope t' →
    Corresponds t.values t'.values t.blockIds t'.blockIds fun V B =>
      scope.Fits ν β lbls V B → t.Matches V B t'

theorem forall₂_args {V : ValueId → ValueId → Prop} {args args' : List (ValueId × Ty)}
    (hV : List.Forall₂ V (args.map Prod.fst) (args'.map Prod.fst))
    (htypes : args.map Prod.snd = args'.map Prod.snd) :
    List.Forall₂ (fun a a' => V a.1 a'.1 ∧ a.2 = a'.2) args args' := by
  induction args generalizing args' with
  | nil =>
    cases args' with
    | nil => exact .nil
    | cons a' args' => simp at htypes
  | cons a args ih =>
    cases args' with
    | nil => simp at htypes
    | cons a' args' =>
      simp only [List.map_cons, List.cons.injEq, List.forall₂_cons] at hV htypes
      exact .cons ⟨hV.1, htypes.1⟩ (ih hV.2 htypes.2)

section Lists

variable {scope : Scope} {visible : List ValueId} {lbls : List BlockId}

theorem ops_rebuilt {ops ts' : List OpTree} (hops : ∀ t ∈ ops, t.Rebuilt ν β)
    (hscoped : OpTree.areScoped visible lbls ops) (hregular : ∀ t ∈ ops, t.Regular)
    (hν : ∀ v ∈ OpTree.valuesOfAll ops, ∀ w, ν v = ν w → v = w)
    (hβ : ∀ b ∈ OpTree.labelledOfAll ops, ∀ c, β b = β c → b = c)
    (hmean : SourceOp.AllMean scope (OpTree.allNamed ν β ops) ts') :
    Corresponds (OpTree.valuesOfAll ops) (OpTree.valuesOfAll ts') (ops.flatMap OpTree.blockIds)
      (ts'.flatMap OpTree.blockIds) fun V B => scope.Fits ν β lbls V B →
        OpTree.AllMatch V B ops ts' ∧
          (scope.after (OpTree.allNamed ν β ops) ts').Fits ν β lbls V B := by
  induction ops generalizing scope visible ts' with
  | nil =>
    cases ts' with
    | nil => exact corresponds_nil fun V B hfits => ⟨trivial, hfits⟩
    | cons t' ts' => exact hmean.elim
  | cons t ops ih =>
    cases ts' with
    | nil => exact hmean.elim
    | cons t' ts' =>
      rw [List.forall_mem_cons] at hops hregular
      rw [OpTree.areScoped, Bool.and_eq_true] at hscoped
      rw [OpTree.valuesOfAll, List.forall_mem_append] at hν
      rw [OpTree.labelledOfAll, List.forall_mem_append] at hβ
      obtain ⟨hfirst, hrest⟩ := hmean
      refine ((hops.1 hscoped.1 hregular.1 hν.1 hβ.1 hfirst).append
        (ih hops.2 hscoped.2 hregular.2 hν.2 hβ.2 hrest)).mono fun V B h hfits => ?_
      have hmatch := h.1 hfits
      have hnext := hfits.define hmatch.results
        fun v hv => hν.1 v (OpTree.mem_values_of_result hv)
      rw [OpTree.head_named] at h
      obtain ⟨hall, hafter⟩ := h.2 hnext
      refine ⟨⟨hmatch, hall⟩, ?_⟩
      rw [OpTree.allNamed, Scope.after, OpTree.head_named]
      exact hafter

theorem blocks_rebuilt {label : BlockId → String} {blocks ts' : List BlockTree}
    (hblocks : ∀ b ∈ blocks, ∀ t ∈ b.ops, t.Rebuilt ν β)
    (hscoped : BlockTree.areScoped visible lbls blocks)
    (hregular : ∀ b ∈ blocks, ∀ t ∈ b.ops, t.Regular)
    (hargs : ∀ b ∈ blocks, ∀ a ∈ b.args, a.2.Canonical)
    (hν : ∀ v ∈ BlockTree.valuesOfAll blocks, ∀ w, ν v = ν w → v = w)
    (hβ : ∀ b ∈ BlockTree.labelledOfAll blocks, ∀ c, β b = β c → b = c)
    (hmean : SourceBlock.AllMean scope (BlockTree.allNamed ν β label blocks) ts') :
    Corresponds (BlockTree.valuesOfAll blocks) (BlockTree.valuesOfAll ts')
      (blocks.flatMap BlockTree.nestedIds) (ts'.flatMap BlockTree.nestedIds) fun V B =>
        List.Forall₂ (fun b b' => List.Forall₂ V b.argIds b'.argIds) blocks ts' ∧
          (List.Forall₂ B (blocks.map BlockTree.id) (ts'.map BlockTree.id) →
            scope.Fits ν β lbls V B → BlockTree.AllMatch V B blocks ts') := by
  induction blocks generalizing scope visible ts' with
  | nil =>
    cases ts' with
    | nil => exact corresponds_nil fun V B => ⟨.nil, fun _ _ => trivial⟩
    | cons t' ts' => exact hmean.elim
  | cons b blocks ih =>
    obtain ⟨id, args, ops⟩ := b
    cases ts' with
    | nil => exact hmean.elim
    | cons b' ts' =>
      obtain ⟨id', args', ops'⟩ := b'
      rw [List.forall_mem_cons] at hblocks hregular hargs
      rw [BlockTree.areScoped, Bool.and_eq_true] at hscoped
      rw [BlockTree.valuesOfAll, BlockTree.values, List.forall_mem_append,
        List.forall_mem_append] at hν
      rw [BlockTree.labelledOfAll, BlockTree.labelled, List.forall_mem_append] at hβ
      obtain ⟨htypes, hops, hrest⟩ := hmean
      have htypes' : args'.map Prod.snd = args.map Prod.snd := by
        rw [htypes, List.map_map]
        exact List.map_congr_left fun a ha => hargs.1 a ha
      have hlen : (args.map Prod.fst).length = (args'.map Prod.fst).length := by
        simpa using (congrArg List.length htypes').symm
      have hcorr := ((corresponds_values hlen).append (ops_rebuilt hblocks.1 hscoped.1 hregular.1
        hν.1.2 hβ.1 hops)).append (ih hblocks.2 hscoped.2 hregular.2 hargs.2 hν.2 hβ.2 hrest)
      rw [List.flatMap_cons, List.flatMap_cons, BlockTree.nestedIds_node, BlockTree.nestedIds_node]
      refine hcorr.mono fun V B h => ?_
      obtain ⟨⟨hargsV, hinner⟩, hargsRest, hblocksRest⟩ := h
      refine ⟨.cons hargsV hargsRest, fun hB hfits => ?_⟩
      rw [List.map_cons, List.map_cons, List.forall₂_cons] at hB
      obtain ⟨hall, hafter⟩ := hinner hfits
      exact ⟨⟨hB.1, forall₂_args hargsV htypes'.symm, hall⟩, hblocksRest hB.2 hafter⟩

theorem region_rebuilt {r r' : RegionTree} (hr : ∀ b ∈ r.blocks, ∀ t ∈ b.ops, t.Rebuilt ν β)
    (hscoped : r.isScoped visible) (hregular : ∀ b ∈ r.blocks, ∀ t ∈ b.ops, t.Regular)
    (hargs : ∀ b ∈ r.blocks, ∀ a ∈ b.args, a.2.Canonical)
    (hν : ∀ v ∈ r.values, ∀ w, ν v = ν w → v = w) (hβ : ∀ b ∈ r.labelled, ∀ c, β b = β c → b = c)
    (hmean : (r.named ν β).Means scope r') (lbls : List BlockId) :
    Corresponds r.values r'.values r.blockIds r'.blockIds fun V B =>
      scope.Fits ν β lbls V B → r.Matches V B r' := by
  obtain ⟨id, blocks⟩ := r
  obtain ⟨id', blocks'⟩ := r'
  rw [RegionTree.isScoped] at hscoped
  rw [RegionTree.labelled, List.forall_mem_append] at hβ
  simp only [RegionTree.blocks] at hr hregular hargs
  let label : BlockId → String :=
    if (RegionTree.node id blocks).isFlat then fun _ => SourceBlock.implicitLabel else β
  have hlabel : ∀ c ∈ (RegionTree.node id blocks).labels, c ∈ blocks.map BlockTree.id ∧
      label c = β c ∧ ∀ b ∈ blocks.map BlockTree.id, label b = β c → b = c := by
    unfold label
    unfold RegionTree.labels at hβ ⊢
    split
    · simp
    · rename_i hflat
      rw [if_neg hflat] at hβ
      exact fun c hc => ⟨hc, rfl, fun b hb => hβ.1 b hb c⟩
  have hblocks := blocks_rebuilt hr hscoped hregular hargs hν hβ.2 hmean
  have hlen : (blocks.map BlockTree.id).length = (blocks'.map BlockTree.id).length := by
    obtain ⟨vp, bp, -, -, -, -, h⟩ := hblocks
    simpa using (h (fun _ _ => True) (fun _ _ => True) (by simp) (by simp)).1.length_eq
  rw [RegionTree.blockIds_node, RegionTree.blockIds_node]
  refine ((corresponds_blocks hlen).append hblocks).mono fun V B h hfits => ?_
  obtain ⟨hB, hargsV, hmatch⟩ := h
  refine hmatch hB (hfits.enter hB hargsV (fun v hv => hν v ?_) hlabel)
  exact (RegionTree.values_perm (.node id blocks)).mem_iff.mpr (List.mem_append_left _ hv)

theorem regions_rebuilt {regions regions' : List RegionTree}
    (hrs : ∀ r ∈ regions, ∀ b ∈ r.blocks, ∀ t ∈ b.ops, t.Rebuilt ν β)
    (hscoped : RegionTree.areScoped visible regions)
    (hregular : ∀ r ∈ regions, ∀ b ∈ r.blocks, ∀ t ∈ b.ops, t.Regular)
    (hargs : ∀ r ∈ regions, ∀ b ∈ r.blocks, ∀ a ∈ b.args, a.2.Canonical)
    (hν : ∀ v ∈ RegionTree.valuesOfAll regions, ∀ w, ν v = ν w → v = w)
    (hβ : ∀ b ∈ RegionTree.labelledOfAll regions, ∀ c, β b = β c → b = c)
    (hmean : SourceRegion.AllMean scope (RegionTree.allNamed ν β regions) regions')
    (lbls : List BlockId) :
    Corresponds (RegionTree.valuesOfAll regions) (RegionTree.valuesOfAll regions')
      (regions.flatMap RegionTree.blockIds) (regions'.flatMap RegionTree.blockIds) fun V B =>
        scope.Fits ν β lbls V B → RegionTree.AllMatch V B regions regions' := by
  induction regions generalizing regions' with
  | nil =>
    cases regions' with
    | nil => exact corresponds_nil fun V B _ => trivial
    | cons r' regions' => exact hmean.elim
  | cons r regions ih =>
    cases regions' with
    | nil => exact hmean.elim
    | cons r' regions' =>
      rw [List.forall_mem_cons] at hrs hregular hargs
      rw [RegionTree.areScoped, Bool.and_eq_true] at hscoped
      rw [RegionTree.valuesOfAll, List.forall_mem_append] at hν
      rw [RegionTree.labelledOfAll, List.forall_mem_append] at hβ
      obtain ⟨hfirst, hrest⟩ := hmean
      have hregion :=
        region_rebuilt hrs.1 hscoped.1 hregular.1 hargs.1 hν.1 hβ.1 hfirst lbls
      refine (hregion.append
        (ih hrs.2 hscoped.2 hregular.2 hargs.2 hν.2 hβ.2 hrest)).mono fun V B h hfits => ?_
      exact ⟨h.1 hfits, h.2 hfits⟩

end Lists

theorem Op.matches_of_means {op op' : Op} {scope : Scope} {lbls : List BlockId}
    {V : ValueId → ValueId → Prop} {B : BlockId → BlockId → Prop} (hfits : scope.Fits ν β lbls V B)
    (hsorted : op.attrs.Sorted) (hattrs : ∀ e ∈ op.attrs, e.2.Canonical)
    (htypes : ∀ ty ∈ op.resultTypes, ty.Canonical) (hsuccessors : ∀ b ∈ op.successors, b ∈ lbls)
    (hresults : List.Forall₂ V op.results op'.results)
    (hmean : (op.namedHead ν β).Means scope op') : op.Matches V B op' where
  dialect := hmean.dialect.symm
  name := hmean.name.symm
  attrs := by rw [hmean.attrs, Resolve.attributes_namedHead hsorted hattrs]
  resultTypes := by
    rw [hmean.resultTypes]
    exact (Ty.canonicalList_of_forall htypes).symm
  operands := by
    have hfound := hmean.operands
    simp only [Op.namedHead, List.forall₂_map_left_iff] at hfound
    exact hfound.imp fun v v' h => hfits.values v v' h
  results := hresults
  successors := by
    have hfound := hmean.successors
    rw [Op.namedHead, List.forall₂_map_left_iff, List.forall₂_iff_zip] at hfound
    refine List.forall₂_iff_zip.mpr ⟨hfound.1, fun {b b'} hb => ?_⟩
    exact hfits.blocks b (hsuccessors b (List.of_mem_zip hb).1) b' (hfound.2 hb)

theorem OpTree.rebuilt (t : OpTree) : t.Rebuilt ν β := by
  refine OpTree.forall_of (P := OpTree.Rebuilt ν β) (Q := fun r => ∀ b ∈ r.blocks, ∀ t ∈ b.ops, t.Rebuilt ν β)
    (R := fun b => ∀ t ∈ b.ops, t.Rebuilt ν β) ?_ (fun _ _ ih => ih) (fun _ _ _ ih => ih) t
  rintro id op regions ih scope visible lbls ⟨id', op', regions'⟩ hscoped hregular hν hβ hmean
  rw [OpTree.isScoped, Bool.and_eq_true, Bool.and_eq_true, List.all_eq_true, List.all_eq_true] at hscoped
  simp only [decide_eq_true_eq] at hscoped
  obtain ⟨⟨-, hsuccessors⟩, hregions⟩ := hscoped
  obtain ⟨hhead, hinner⟩ := hmean
  rw [OpTree.values, List.forall_mem_append] at hν
  have hself : (id, op) ∈ (OpTree.node id op regions).preorder := by simp
  have hchild : ∀ r ∈ regions, ∀ b ∈ r.blocks, ∀ t ∈ b.ops, t.Regular := fun r hr b hb t ht =>
    hregular.child (List.mem_flatMap.mpr ⟨r, hr, List.mem_flatMap.mpr ⟨b, hb, ht⟩⟩)
  have hlen : op.results.length = op'.results.length := by
    rw [hregular.results _ hself, hhead.results, hhead.resultTypes]
    simp [Op.namedHead, Ty.canonicalList_eq_map]
  have hcorr := (corresponds_values hlen).append (regions_rebuilt ih hregions hchild
    (fun r hr b hb => hregular.args hr hb) hν.2 hβ hinner lbls)
  rw [OpTree.blockIds_node, OpTree.blockIds_node]
  refine hcorr.mono fun V B h hfits => ⟨?_, h.2 hfits⟩
  exact Op.matches_of_means hfits (hregular.sorted _ hself) (hregular.attrs _ hself)
    (hregular.resultTypes _ hself) hsuccessors h.1 hhead

end RegionIR
