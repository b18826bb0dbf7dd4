import RegionIR.Proofs.Source.Acceptance

/-! Which names are visible where, and that visibility decides whether a program resolves.

A place in a program is described by the regions around it, innermost first. In each of them the
arguments of all blocks and the results of the operations before the place are visible. A program
resolves just when every operation in it mentions what is visible where it stands, and gives only
names that are not. -/

namespace RegionIR

/-- A region around a place: its blocks, and the operations in it that come before. -/
structure Frame (β ω : Type) where
  blocks : List β
  earlier : List ω

section Occurs

variable {β ω : Type} (regions : ω → List (List β)) (ops : β → List ω)

/-- An operation that stands in `frames` holds, or is, one that stands in the frames given last. -/
inductive Occurs : List (Frame β ω) → ω → List (Frame β ω) → ω → Prop
  | self {frames : List (Frame β ω)} {o : ω} : Occurs frames o frames o
  | nested {frames frames' : List (Frame β ω)} {o p o' : ω} {bs₁ bs₂ : List β} {b : β}
      {os₁ os₂ : List ω} : bs₁ ++ b :: bs₂ ∈ regions o → ops b = os₁ ++ p :: os₂ →
      Occurs (⟨bs₁ ++ b :: bs₂, bs₁.flatMap ops ++ os₁⟩ :: frames) p frames' o' →
      Occurs frames o frames' o'

variable {regions ops} {P : List (Frame β ω) → ω → Prop}

/-- What holds of all that occurs in an operation holds of it, and of what occurs in its parts. -/
theorem forall_occurs_iff {frames : List (Frame β ω)} {o : ω} :
    (∀ frames' o', Occurs regions ops frames o frames' o' → P frames' o') ↔
      P frames o ∧ ∀ bs ∈ regions o, ∀ bs₁ b bs₂, bs = bs₁ ++ b :: bs₂ → ∀ os₁ p os₂,
        ops b = os₁ ++ p :: os₂ → ∀ frames' o',
          Occurs regions ops (⟨bs, bs₁.flatMap ops ++ os₁⟩ :: frames) p frames' o' → P frames' o' := by
  constructor
  · intro h
    refine ⟨h _ _ .self, ?_⟩
    rintro _ hbs bs₁ b bs₂ rfl os₁ p os₂ hops frames' o' hoccurs
    exact h _ _ (.nested hbs hops hoccurs)
  · rintro ⟨hself, hnested⟩ frames' o' hoccurs
    cases hoccurs with
    | self => exact hself
    | nested hbs hops hoccurs => exact hnested _ hbs _ _ _ rfl _ _ _ hops _ _ hoccurs

theorem forall_split_cons_iff {α : Type} {a : α} {l : List α} {Q : List α → α → Prop} :
    (∀ l₁ b l₂, a :: l = l₁ ++ b :: l₂ → Q l₁ b) ↔
      Q [] a ∧ ∀ l₁ b l₂, l = l₁ ++ b :: l₂ → Q (a :: l₁) b := by
  constructor
  · intro h
    refine ⟨h [] a l rfl, ?_⟩
    rintro l₁ b l₂ rfl
    exact h (a :: l₁) b l₂ rfl
  · rintro ⟨hfirst, hrest⟩ l₁ b l₂ hl
    cases l₁ with
    | nil =>
      obtain ⟨rfl, -⟩ := List.cons.inj hl
      exact hfirst
    | cons c l₁ =>
      obtain ⟨rfl, htail⟩ := List.cons.inj hl
      exact hrest l₁ b l₂ htail

end Occurs

/-- A region of a program around a place. -/
abbrev SourceFrame := Frame SourceBlock SourceOp

namespace SourceFrame

/-- The names that the arguments of the blocks and the results of the earlier operations have. -/
def values (f : SourceFrame) : List String :=
  f.blocks.flatMap SourceBlock.argNames ++ f.earlier.flatMap (·.head.results)

def labels (f : SourceFrame) : List String := f.blocks.map SourceBlock.label

end SourceFrame

/-- The names of values that are visible in the frames. -/
def visibleValues (frames : List SourceFrame) : List String := frames.flatMap SourceFrame.values

/-- The labels that are visible in the frames. -/
def visibleLabels (frames : List SourceFrame) : List String := frames.flatMap SourceFrame.labels

section Visible

variable {frames : List SourceFrame} {bs : List SourceBlock} {earlier os : List SourceOp} {n : String}

theorem visibleValues_enter : visibleValues (⟨bs, []⟩ :: frames) =
    bs.flatMap SourceBlock.argNames ++ visibleValues frames := by
  simp [visibleValues, SourceFrame.values]

theorem visibleLabels_enter : visibleLabels (⟨bs, []⟩ :: frames) =
    bs.map SourceBlock.label ++ visibleLabels frames := rfl

/-- After operations their results are visible too. -/
theorem mem_visibleValues_append : n ∈ visibleValues (⟨bs, earlier ++ os⟩ :: frames) ↔
    n ∈ os.flatMap (·.head.results) ∨ n ∈ visibleValues (⟨bs, earlier⟩ :: frames) := by
  simp only [visibleValues, SourceFrame.values, List.flatMap_cons, List.flatMap_append,
    List.mem_append]
  tauto

end Visible

/-- The blocks of each region of an operation. -/
def SourceOp.inner (o : SourceOp) : List (List SourceBlock) := o.regions.map SourceRegion.blocks

/-- The blocks of a region have different labels, and their arguments have different names, which are
not visible around the region. -/
structure SourceBlock.AllScopedIn (frames : List SourceFrame) (bs : List SourceBlock) : Prop where
  labels : (bs.map SourceBlock.label).Nodup
  args : (bs.flatMap SourceBlock.argNames).Nodup
  newArgs : ∀ n ∈ bs.flatMap SourceBlock.argNames, n ∉ visibleValues frames

/-- What an operation mentions is visible where it stands; its results, if they have names, have one
for each type, different ones that are not visible there; and its regions are in order. -/
structure SourceOp.ScopedIn (frames : List SourceFrame) (o : SourceOp) : Prop where
  operands : ∀ n ∈ o.head.operands, n ∈ visibleValues frames
  successors : ∀ l ∈ o.head.successors, l ∈ visibleLabels frames
  typed : o.head.results = [] ∨ o.head.results.length = o.head.resultTypes.length
  results : o.head.results.Nodup
  newResults : ∀ n ∈ o.head.results, n ∉ visibleValues frames
  regions : ∀ bs ∈ o.inner, SourceBlock.AllScopedIn frames bs

/-- Every operation of the program is in order where it stands. -/
def SourceOp.WellScoped (s : SourceOp) : Prop :=
  ∀ frames o, Occurs SourceOp.inner SourceBlock.ops [] s frames o → o.ScopedIn frames

section Resolvable

variable {frames : List SourceFrame} {values labels : List String}

/-- All that occurs in an operation is in order. -/
abbrev SourceOp.ScopedBelow (frames : List SourceFrame) (s : SourceOp) : Prop :=
  ∀ frames' o, Occurs SourceOp.inner SourceBlock.ops frames s frames' o → o.ScopedIn frames'

/-- Whether the operation resolves as far as names are concerned is a matter of what occurs in it,
wherever the given names are the visible ones. -/
def SourceOp.ResolvesScoped (s : SourceOp) : Prop :=
  ∀ ⦃frames values labels⦄, (∀ n, n ∈ values ↔ n ∈ visibleValues frames) →
    (∀ l, l ∈ labels ↔ l ∈ visibleLabels frames) →
    (s.Resolvable values labels ↔ s.ScopedBelow frames)

theorem ops_resolvable_iff {ops : List SourceOp} (hops : ∀ o ∈ ops, o.ResolvesScoped)
    {bs : List SourceBlock} {earlier : List SourceOp}
    (hvalues : ∀ n, n ∈ values ↔ n ∈ visibleValues (⟨bs, earlier⟩ :: frames))
    (hlabels : ∀ l, l ∈ labels ↔ l ∈ visibleLabels (⟨bs, earlier⟩ :: frames)) :
    SourceOp.AllResolvable values labels ops ↔ ∀ os₁ o os₂, ops = os₁ ++ o :: os₂ →
      o.ScopedBelow (⟨bs, earlier ++ os₁⟩ :: frames) := by
  induction ops generalizing earlier values with
  | nil => simp [SourceOp.AllResolvable]
  | cons s ops ih =>
    rw [List.forall_mem_cons] at hops
    have hnext : ∀ n, n ∈ s.head.results ++ values ↔
        n ∈ visibleValues (⟨bs, earlier ++ [s]⟩ :: frames) := by
      intro n
      rw [List.mem_append, hvalues, mem_visibleValues_append, List.flatMap_singleton]
    rw [SourceOp.AllResolvable, hops.1 hvalues hlabels, ih hops.2 hnext hlabels,
      forall_split_cons_iff]
    simp only [List.append_nil, List.append_assoc, List.cons_append, List.nil_append]

theorem blocks_resolvable_iff {blocks : List SourceBlock}
    (hblocks : ∀ b ∈ blocks, ∀ o ∈ b.ops, o.ResolvesScoped) {bs : List SourceBlock}
    {earlier : List SourceOp}
    (hvalues : ∀ n, n ∈ values ↔ n ∈ visibleValues (⟨bs, earlier⟩ :: frames))
    (hlabels : ∀ l, l ∈ labels ↔ l ∈ visibleLabels (⟨bs, earlier⟩ :: frames)) :
    SourceBlock.AllResolvable values labels blocks ↔ ∀ bs₁ b bs₂, blocks = bs₁ ++ b :: bs₂ →
      ∀ os₁ o os₂, b.ops = os₁ ++ o :: os₂ →
        o.ScopedBelow (⟨bs, earlier ++ (bs₁.flatMap SourceBlock.ops ++ os₁)⟩ :: frames) := by
  induction blocks generalizing earlier values with
  | nil => simp [SourceBlock.AllResolvable]
  | cons block blocks ih =>
    obtain ⟨label, args, ops⟩ := block
    rw [List.forall_mem_cons] at hblocks
    have hfirst : ∀ o ∈ ops, o.ResolvesScoped := hblocks.1
    have hnext : ∀ n, n ∈ ops.flatMap (·.head.results) ++ values ↔
        n ∈ visibleValues (⟨bs, earlier ++ ops⟩ :: frames) := by
      intro n
      rw [List.mem_append, hvalues, mem_visibleValues_append]
    rw [SourceBlock.AllResolvable, ops_resolvable_iff hfirst hvalues hlabels,
      ih hblocks.2 hnext hlabels, forall_split_cons_iff]
    simp only [SourceBlock.ops, List.flatMap_nil, List.nil_append, List.flatMap_cons,
      List.append_assoc]

theorem region_resolvable_iff {r : SourceRegion}
    (hblocks : ∀ b ∈ r.blocks, ∀ o ∈ b.ops, o.ResolvesScoped)
    (hvalues : ∀ n, n ∈ values ↔ n ∈ visibleValues frames)
    (hlabels : ∀ l, l ∈ labels ↔ l ∈ visibleLabels frames) :
    r.Resolvable values labels ↔ SourceBlock.AllScopedIn frames r.blocks ∧
      ∀ bs₁ b bs₂, r.blocks = bs₁ ++ b :: bs₂ → ∀ os₁ o os₂, b.ops = os₁ ++ o :: os₂ →
        o.ScopedBelow (⟨r.blocks, bs₁.flatMap SourceBlock.ops ++ os₁⟩ :: frames) := by
  obtain ⟨blocks⟩ := r
  change ∀ b ∈ blocks, _ at hblocks
  have hnames : ∀ n, n ∈ blocks.flatMap SourceBlock.argNames ++ values ↔
      n ∈ visibleValues (⟨blocks, []⟩ :: frames) := by
    intro n
    rw [visibleValues_enter, List.mem_append, List.mem_append, hvalues]
  have hlabelled : ∀ l, l ∈ blocks.map SourceBlock.label ++ labels ↔
      l ∈ visibleLabels (⟨blocks, []⟩ :: frames) := by
    intro l
    rw [visibleLabels_enter, List.mem_append, List.mem_append, hlabels]
  have hdisjoint : (blocks.flatMap SourceBlock.argNames).Disjoint values ↔
      ∀ n ∈ blocks.flatMap SourceBlock.argNames, n ∉ visibleValues frames := by
    simp only [List.Disjoint, hvalues]
  rw [SourceRegion.Resolvable, hdisjoint, blocks_resolvable_iff hblocks hnames hlabelled]
  simp only [List.nil_append]
  exact ⟨fun ⟨hlabels, hargs, hnew, hrest⟩ => ⟨⟨hlabels, hargs, hnew⟩, hrest⟩,
    fun ⟨⟨hlabels, hargs, hnew⟩, hrest⟩ => ⟨hlabels, hargs, hnew, hrest⟩⟩

theorem allResolvable_regions_iff {regions : List SourceRegion} :
    SourceRegion.AllResolvable values labels regions ↔ ∀ r ∈ regions, r.Resolvable values labels := by
  induction regions with
  | nil => simp [SourceRegion.AllResolvable]
  | cons r regions ih => rw [SourceRegion.AllResolvable, ih, List.forall_mem_cons]

theorem SourceOp.resolvesScoped (s : SourceOp) : s.ResolvesScoped := by
  refine SourceOp.forall_of (P := SourceOp.ResolvesScoped)
    (Q := fun r => ∀ b ∈ r.blocks, ∀ o ∈ b.ops, o.ResolvesScoped)
    (R := fun b => ∀ o ∈ b.ops, o.ResolvesScoped) ?_ (fun _ ih => ih) (fun _ _ _ ih => ih) s
  intro h regions ih frames values labels hvalues hlabels
  have hregions (r : SourceRegion) (hr : r ∈ regions) :=
    region_resolvable_iff (ih r hr) hvalues hlabels
  rw [SourceOp.Resolvable, allResolvable_regions_iff, SourceOp.ScopedBelow, forall_occurs_iff]
  constructor
  · rintro ⟨hoperands, hsuccessors, htyped, hresults, hnew, hall⟩
    have hinner := fun r hr => (hregions r hr).mp (hall r hr)
    exact ⟨⟨fun n hn => (hvalues n).mp (hoperands hn), fun l hl => (hlabels l).mp (hsuccessors hl),
      htyped, hresults, fun n hn hmem => hnew hn ((hvalues n).mpr hmem),
      List.forall_mem_map.mpr fun r hr => (hinner r hr).1⟩,
      List.forall_mem_map.mpr fun r hr => (hinner r hr).2⟩
  · rintro ⟨hscoped, hbelow⟩
    refine ⟨fun n hn => (hvalues n).mpr (hscoped.operands n hn),
      fun l hl => (hlabels l).mpr (hscoped.successors l hl), hscoped.typed, hscoped.results,
      fun n hn hmem => hscoped.newResults n hn ((hvalues n).mp hmem), fun r hr => ?_⟩
    have hmem : r.blocks ∈ (SourceOp.mk h regions).inner := List.mem_map_of_mem hr
    exact (hregions r hr).mpr ⟨hscoped.regions _ hmem, hbelow _ hmem⟩

theorem SourceOp.resolvable_iff_wellScoped {s : SourceOp} : s.Resolvable [] [] ↔ s.WellScoped := by
  have hvalues : ∀ n : String, n ∈ [] ↔ n ∈ visibleValues [] := by simp [visibleValues]
  have hlabels : ∀ l : String, l ∈ [] ↔ l ∈ visibleLabels [] := by simp [visibleLabels]
  exact s.resolvesScoped hvalues hlabels

end Resolvable

namespace Resolve

variable {ctx ctx' : Context} {h : SourceHead} {scope scope' : Scope} {values labels : List String}

theorem mem_keys_of_lookup {α : Type} {l : List (String × α)} {name : String} {a : α}
    (h : l.lookup name = some a) : name ∈ l.map Prod.fst := by
  by_contra hnot
  rw [Scope.lookup_eq_none hnot] at h
  cases h

theorem mem_keys_of_forall₂_lookup {α : Type} {l : List (String × α)} {names : List String}
    {as : List α} (h : List.Forall₂ (fun name a => l.lookup name = some a) names as) :
    ∀ n ∈ names, n ∈ l.map Prod.fst := by
  induction h with
  | nil => simp
  | cons hfirst _ ih => exact List.forall_mem_cons.mpr ⟨mem_keys_of_lookup hfirst, ih⟩

theorem mem_keys_define {names : List String} {vs : List ValueId} (hlen : names.length ≤ vs.length)
    {name : String} : name ∈ (scope.define names vs).values.map Prod.fst ↔
      name ∈ names ∨ name ∈ scope.values.map Prod.fst := by
  rw [Scope.define, List.map_append, List.map_reverse, List.map_fst_zip hlen, List.mem_append,
    List.mem_reverse]

/-- Names that are accepted for values are different and new, and there is a value for each. -/
theorem new_of_defineValues {names : List String} {vs : List ValueId}
    (hg : Gives (defineValues h scope names vs) ctx scope' ctx') :
    names.Nodup ∧ (∀ n ∈ names, n ∉ scope.values.map Prod.fst) ∧ names.length ≤ vs.length := by
  induction names generalizing scope vs ctx with
  | nil => simp
  | cons name names ih =>
    cases vs with
    | nil => exact absurd hg gives_throw
    | cons v vs =>
      obtain ⟨scope₁, ctx₁, hname, hrest⟩ := gives_bind.mp hg
      unfold defineValue at hname
      split at hname
      · exact absurd hname gives_reject
      · rename_i hnone
        obtain ⟨rfl, rfl⟩ := gives_pure.mp hname
        obtain ⟨hnd, hnew, hlen⟩ := ih hrest
        simp only [List.map_cons, List.mem_cons, not_or] at hnew
        refine ⟨List.nodup_cons.mpr ⟨fun hmem => (hnew name hmem).1 rfl, hnd⟩,
          List.forall_mem_cons.mpr ⟨fun hmem => ?_, fun n hn => (hnew n hn).2⟩, by simpa using hlen⟩
        obtain ⟨a, ha⟩ := Scope.exists_lookup hmem
        rw [hnone] at ha
        cases ha

theorem new_of_openBlocks {seen : List String} {blocks : List SourceBlock}
    {r : List BlockId × Scope} (hg : Gives (openBlocks h seen scope blocks) ctx r ctx') :
    (blocks.map SourceBlock.label).Nodup ∧ (∀ b ∈ blocks, b.label ∉ seen) ∧
      (blocks.flatMap SourceBlock.argNames).Nodup ∧
      ∀ n ∈ blocks.flatMap SourceBlock.argNames, n ∉ scope.values.map Prod.fst := by
  induction blocks generalizing seen scope ctx ctx' r with
  | nil => simp
  | cons block blocks ih =>
    obtain ⟨label, args, ops⟩ := block
    obtain ⟨hlabel, hrest⟩ := gives_openBlocks_cons.mp hg
    obtain ⟨b, ctx₁, -, hrest⟩ := gives_bind.mp hrest
    obtain ⟨vs, ctx₂, -, hrest⟩ := gives_bind.mp hrest
    obtain ⟨scope₁, ctx₃, hdefine, hrest⟩ := gives_bind.mp hrest
    obtain ⟨rest, ctx₄, hblocks, -⟩ := gives_bind.mp hrest
    obtain ⟨hargs, hnew, hlen⟩ := new_of_defineValues hdefine
    obtain ⟨rfl, rfl⟩ := gives_defineValues hdefine
    obtain ⟨hlabels, hseen, hnd, hnames⟩ := ih hblocks
    simp only [List.mem_cons, not_or] at hseen
    simp only [mem_keys_define hlen, not_or] at hnames
    refine ⟨List.nodup_cons.mpr ⟨fun hmem => ?_, hlabels⟩,
      List.forall_mem_cons.mpr ⟨hlabel, fun c hc => (hseen c hc).2⟩, ?_, ?_⟩
    · obtain ⟨c, hc, heq⟩ := List.mem_map.mp hmem
      exact (hseen c hc).1 heq
    · refine List.nodup_append.mpr ⟨hargs, hnd, fun n hn m hm heq => ?_⟩
      exact (hnames m hm).1 (heq ▸ hn)
    · exact List.forall_mem_append.mpr ⟨hnew, fun n hn => (hnames n hn).2⟩

/-- Whether the names of the operation are in order wherever it resolves. -/
def OpResolvable (s : SourceOp) : Prop :=
  ∀ ⦃scope values labels ctx r ctx'⦄, ctx.Reachable → scope.Shows values labels →
    Gives (op scope s) ctx r ctx' → s.Resolvable values labels

theorem resolvable_of_fillBlock {ops : List SourceOp} (hops : ∀ s ∈ ops, OpResolvable s)
    (hr : ctx.Reachable) (hs : scope.Shows values labels) {b : BlockId}
    (hg : Gives (fillBlock scope b ops) ctx scope' ctx') :
    SourceOp.AllResolvable values labels ops ∧
      scope'.Shows (ops.flatMap (·.head.results) ++ values) labels := by
  induction ops generalizing scope values ctx with
  | nil =>
    obtain ⟨rfl, -⟩ := gives_pure.mp hg
    exact ⟨trivial, hs⟩
  | cons s ops ih =>
    rw [List.forall_mem_cons] at hops
    obtain ⟨⟨id, scope₁⟩, ctx₁, hop, hrest⟩ := gives_bind.mp hg
    obtain ⟨_, ctx₂, hpush, hrest⟩ := gives_bind.mp hrest
    have hfirst := hops.1 hr hs hop
    obtain ⟨t, -, ht⟩ := opBuilds s hr hop
    have hs₁ : scope₁.Shows (s.head.results ++ values) labels := by
      rw [ht.scope]
      exact hs.define (ht.means.results_named hfirst)
    have hr₂ := safe_pushOp b id ctx₁ _ ctx₂ (safe_op s scope ctx _ ctx₁ hr hop) hpush
    obtain ⟨hall, hs'⟩ := ih hops.2 hr₂ hs₁ hrest
    refine ⟨⟨hfirst, hall⟩, fun name => ?_, hs'.labels⟩
    rw [← hs'.values]
    simp only [List.flatMap_cons, List.mem_append]
    tauto

theorem resolvable_of_fillBlocks {blocks : List SourceBlock}
    (hblocks : ∀ b ∈ blocks, ∀ s ∈ b.ops, OpResolvable s) (hr : ctx.Reachable)
    (hs : scope.Shows values labels) {ids : List BlockId} (hlen : blocks.length = ids.length)
    (hg : Gives (fillBlocks scope blocks ids) ctx () ctx') :
    SourceBlock.AllResolvable values labels blocks := by
  induction blocks generalizing scope values ctx ids with
  | nil => trivial
  | cons block blocks ih =>
    obtain ⟨label, args, ops⟩ := block
    cases ids with
    | nil => simp at hlen
    | cons b ids =>
      rw [List.forall_mem_cons] at hblocks
      obtain ⟨scope₁, ctx₁, hfill, hrest⟩ := gives_bind.mp hg
      obtain ⟨hall, hs₁⟩ := resolvable_of_fillBlock hblocks.1 hr hs hfill
      exact ⟨hall, ih hblocks.2 (safe_fillBlock ops scope b ctx _ ctx₁ hr hfill) hs₁
        (by simpa using hlen) hrest⟩

theorem resolvable_of_region {r : SourceRegion} (hblocks : ∀ b ∈ r.blocks, ∀ s ∈ b.ops, OpResolvable s)
    (hr : ctx.Reachable) (hs : scope.Shows values labels) {id : RegionId}
    (hg : Gives (region h scope r) ctx id ctx') : r.Resolvable values labels := by
  obtain ⟨blocks⟩ := r
  obtain ⟨⟨ids, scope₁⟩, ctx₁, hopen, hrest⟩ := gives_bind.mp hg
  obtain ⟨_, ctx₂, hfill, -⟩ := gives_bind.mp hrest
  obtain ⟨hlabels, -, hnd, hnew⟩ := new_of_openBlocks hopen
  have hr₁ := safe_openBlocks h [] scope blocks ctx _ ctx₁ hr hopen
  obtain ⟨entries, rfl, rfl, htypes, -⟩ := openBlocks_gives hopen
  have hlen := forall₂_length_of_types htypes
  refine ⟨hlabels, hnd, fun n hn hmem => hnew n hn ((hs.values n).mp hmem), ?_⟩
  exact resolvable_of_fillBlocks hblocks hr₁ (hs.enter hlen) (by simpa using htypes.length_eq) hfill

theorem resolvable_of_regionsOf {regions : List SourceRegion}
    (hregions : ∀ r ∈ regions, ∀ b ∈ r.blocks, ∀ s ∈ b.ops, OpResolvable s) (hr : ctx.Reachable)
    (hs : scope.Shows values labels) {ids : List RegionId}
    (hg : Gives (regionsOf h scope regions) ctx ids ctx') :
    SourceRegion.AllResolvable values labels regions := by
  induction regions generalizing ctx ctx' ids with
  | nil => trivial
  | cons r regions ih =>
    rw [List.forall_mem_cons] at hregions
    obtain ⟨id, ctx₁, hregion, hrest⟩ := gives_bind.mp hg
    obtain ⟨ids', ctx₂, hnext, -⟩ := gives_bind.mp hrest
    exact ⟨resolvable_of_region hregions.1 hr hs hregion,
      ih hregions.2 (safe_region r h scope ctx _ ctx₁ hr hregion) hnext⟩

theorem opResolvable (s : SourceOp) : OpResolvable s := by
  refine SourceOp.forall_of (P := OpResolvable)
    (Q := fun r => ∀ b ∈ r.blocks, ∀ s ∈ b.ops, OpResolvable s)
    (R := fun b => ∀ s ∈ b.ops, OpResolvable s) ?_ (fun _ ih => ih) (fun _ _ _ ih => ih) s
  intro h regions ih scope values labels ctx r ctx' hr hs hg
  obtain ⟨operands, _, hoperands, hg⟩ := gives_bind.mp hg
  obtain ⟨hfound, rfl⟩ := (gives_mapM fun _ _ _ _ => gives_operand).mp hoperands
  obtain ⟨successors, _, hsuccessors, hg⟩ := gives_bind.mp hg
  obtain ⟨hlabelled, rfl⟩ := (gives_mapM fun _ _ _ _ => gives_successor).mp hsuccessors
  obtain ⟨_, _, hcheck, hg⟩ := gives_bind.mp hg
  obtain ⟨htyped, rfl⟩ := gives_checkResults.mp hcheck
  obtain ⟨rs, ctx₁, hregions, hg⟩ := gives_bind.mp hg
  obtain ⟨id, ctx₂, -, hg⟩ := gives_bind.mp hg
  obtain ⟨vs, ctx₃, -, hg⟩ := gives_bind.mp hg
  obtain ⟨scope₁, ctx₄, hdefine, -⟩ := gives_bind.mp hg
  obtain ⟨hnd, hnew, -⟩ := new_of_defineValues hdefine
  exact ⟨fun n hn => (hs.values n).mpr (mem_keys_of_forall₂_lookup hfound n hn),
    fun l hl => (hs.labels l).mpr (mem_keys_of_forall₂_lookup hlabelled l hl), htyped, hnd,
    fun n hn hmem => hnew n hn ((hs.values n).mp hmem), resolvable_of_regionsOf ih hr hs hregions⟩

end Resolve

end RegionIR
