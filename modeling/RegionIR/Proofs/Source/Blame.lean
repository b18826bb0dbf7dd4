import Mathlib.Data.List.Duplicate
import RegionIR.Proofs.Source.Renaming
import RegionIR.Proofs.Source.Scoping
import RegionIR.Proofs.Source.Suffixes

/-! A text may be wrong, but parsing it asks nothing of the context that is refused.

Whatever the parser hands to an edit it has just created itself: the operation that it puts in a block
stands nowhere, the blocks of a region and the regions of an operation have no owner, and there are as
many results and arguments as names for them. So parsing ends early only where the text is to blame,
and the error stands at the operation that is: the one that mentions what is not visible where it
stands or names its results wrongly, or the owner of the region whose labels and arguments are wrong. -/

namespace RegionIR

/-- A name is given where it is visible already, or is given twice. -/
def Clashes (visible names : List String) (name : String) : Prop :=
  name ∈ names ∧ name ∈ visible ∨ names.Duplicate name

section Clashes

variable {visible visible' names rest : List String} {name : String}

theorem Clashes.mono (h : Clashes visible names name) (hv : ∀ n ∈ visible, n ∈ visible') :
    Clashes visible' names name :=
  h.imp_left fun ⟨hn, hmem⟩ => ⟨hn, hv _ hmem⟩

theorem Clashes.append_right (h : Clashes visible names name) : Clashes visible (names ++ rest) name :=
  h.imp (fun ⟨hn, hmem⟩ => ⟨List.mem_append_left _ hn, hmem⟩)
    fun hd => hd.mono_sublist (List.sublist_append_left _ _)

/-- After some names are given, a name that clashes clashed before, with these or among the rest. -/
theorem Clashes.of_append (h : Clashes (names ++ visible) rest name) :
    Clashes visible (names ++ rest) name := by
  rcases h with ⟨hrest, hmem⟩ | hd
  · rcases List.mem_append.mp hmem with hn | hv
    · refine .inr (List.duplicate_iff_sublist.mpr ?_)
      exact (List.singleton_sublist.mpr hn).append (List.singleton_sublist.mpr hrest)
    · exact .inl ⟨List.mem_append_right _ hrest, hv⟩
  · exact .inr (hd.mono_sublist (List.sublist_append_right _ _))

theorem Clashes.of_cons {n : String} (h : Clashes (n :: visible) rest name) :
    Clashes visible (n :: rest) name :=
  @Clashes.of_append visible [n] rest name h

theorem exists_clash_iff : (∃ name, Clashes visible names name) ↔
    ¬ (names.Nodup ∧ ∀ n ∈ names, n ∉ visible) := by
  simp only [Clashes, exists_or, List.exists_duplicate_iff_not_nodup, not_and_or, not_forall, not_not,
    exists_prop]
  exact or_comm

end Clashes

/-- What is wrong with an operation that stands in the frames, apart from those nested in it. -/
inductive SourceOp.Prompts (frames : List SourceFrame) (s : SourceOp) : Complaint → Prop
  | undefinedValue {name : String} : name ∈ s.head.operands → name ∉ visibleValues frames →
      s.Prompts frames (.undefinedValue name s.head.fullName)
  | undefinedBlock {label : String} : label ∈ s.head.successors → label ∉ visibleLabels frames →
      s.Prompts frames (.undefinedBlock label s.head.fullName)
  | resultCount : s.head.results ≠ [] → s.head.results.length ≠ s.head.resultTypes.length →
      s.Prompts frames
        (.resultCount s.head.fullName s.head.results.length s.head.resultTypes.length)
  | duplicateResult {name : String} : Clashes (visibleValues frames) s.head.results name →
      s.Prompts frames (.duplicateValue name)
  | duplicateArg {bs : List SourceBlock} {name : String} : bs ∈ s.inner →
      Clashes (visibleValues frames) (bs.flatMap SourceBlock.argNames) name →
      s.Prompts frames (.duplicateValue name)
  | duplicateLabel {bs : List SourceBlock} {label : String} : bs ∈ s.inner →
      (bs.map SourceBlock.label).Duplicate label → s.Prompts frames (.duplicateLabel label)

/-- There is something wrong with an operation just when it is not in order where it stands. -/
theorem SourceOp.exists_prompts_iff {frames : List SourceFrame} {s : SourceOp} :
    (∃ c, s.Prompts frames c) ↔ ¬ s.ScopedIn frames := by
  constructor
  · rintro ⟨_, hc⟩ h
    cases hc with
    | undefinedValue hn hnot => exact hnot (h.operands _ hn)
    | undefinedBlock hl hnot => exact hnot (h.successors _ hl)
    | resultCount hne hlen => exact h.typed.elim hne hlen
    | duplicateResult hclash => exact exists_clash_iff.mp ⟨_, hclash⟩ ⟨h.results, h.newResults⟩
    | duplicateArg hbs hclash =>
      exact exists_clash_iff.mp ⟨_, hclash⟩ ⟨(h.regions _ hbs).args, (h.regions _ hbs).newArgs⟩
    | duplicateLabel hbs hd => exact hd.not_nodup (h.regions _ hbs).labels
  · intro h
    by_contra hnone
    have hnames {names : List String} (hclash : ∀ name, Clashes (visibleValues frames) names name →
        ∃ c, s.Prompts frames c) : names.Nodup ∧ ∀ n ∈ names, n ∉ visibleValues frames := by
      by_contra hnot
      obtain ⟨name, hname⟩ := exists_clash_iff.mpr hnot
      exact hnone (hclash name hname)
    obtain ⟨hresults, hnewResults⟩ := hnames fun _ hclash => ⟨_, .duplicateResult hclash⟩
    refine h ⟨fun n hn => ?_, fun l hl => ?_, ?_, hresults, hnewResults, fun bs hbs => ?_⟩
    · by_contra hnot
      exact hnone ⟨_, .undefinedValue hn hnot⟩
    · by_contra hnot
      exact hnone ⟨_, .undefinedBlock hl hnot⟩
    · by_contra hnot
      obtain ⟨hne, hlen⟩ := not_or.mp hnot
      exact hnone ⟨_, .resultCount hne hlen⟩
    · obtain ⟨hargs, hnewArgs⟩ := hnames fun _ hclash => ⟨_, .duplicateArg hbs hclash⟩
      refine ⟨?_, hargs, hnewArgs⟩
      by_contra hnot
      obtain ⟨label, hd⟩ := List.exists_duplicate_iff_not_nodup.mpr hnot
      exact hnone ⟨_, .duplicateLabel hbs hd⟩

/-- The error is a complaint about an operation of the program, which is not in order where it stands,
and stands at that operation. -/
def SourceOp.Accounts (frames : List SourceFrame) (s : SourceOp) (e : ParseError) : Prop :=
  ∃ frames' c, Occurs SourceOp.inner SourceBlock.ops frames s frames' c ∧
    ∃ complaint, c.Prompts frames' complaint ∧ e = ⟨complaint.message, c.head.offset⟩

theorem SourceOp.Accounts.of_nested {frames : List SourceFrame} {s c : SourceOp}
    {bs₁ bs₂ : List SourceBlock} {b : SourceBlock} {os₁ os₂ : List SourceOp}
    (hbs : bs₁ ++ b :: bs₂ ∈ s.inner) (hops : b.ops = os₁ ++ c :: os₂) {e : ParseError}
    (h : c.Accounts (⟨bs₁ ++ b :: bs₂, bs₁.flatMap SourceBlock.ops ++ os₁⟩ :: frames) e) :
    s.Accounts frames e := by
  obtain ⟨frames', d, hoccurs, h⟩ := h
  exact ⟨frames', d, .nested hbs hops hoccurs, h⟩

theorem SourceOp.All.of_nested {P : SourceHead → Prop} {s c : SourceOp} {bs : List SourceBlock}
    {b : SourceBlock} (hs : s.All P) (hbs : bs ∈ s.inner) (hb : b ∈ bs) (hc : c ∈ b.ops) : c.All P := by
  obtain ⟨-, hrs⟩ := hs
  obtain ⟨r, hr, rfl⟩ := List.mem_map.mp hbs
  obtain ⟨hblocks⟩ := hrs r hr
  obtain ⟨hops⟩ := hblocks b hb
  exact hops c hc

theorem SourceOp.All.head_of_occurs {P : SourceHead → Prop} {frames frames' : List SourceFrame}
    {s c : SourceOp} (hs : s.All P) (hc : Occurs SourceOp.inner SourceBlock.ops frames s frames' c) :
    P c.head := by
  induction hc with
  | self =>
    obtain ⟨hh, -⟩ := hs
    exact hh
  | nested hbs hops _ ih =>
    exact ih (hs.of_nested hbs List.mem_append_cons_self (hops ▸ List.mem_append_cons_self))

namespace Resolve

variable {α β : Type} {ctx : Context} {h : SourceHead} {scope : Scope} {F : ParseError → Prop}

/-- If the pass ends early then with an error as described. -/
def Blames (F : ParseError → Prop) (m : Resolve α) (ctx : Context) : Prop :=
  ∀ e ctx', Leaves m ctx (.error e) ctx' → ∃ pe, e = .rejected pe ∧ F pe

theorem Blames.mono {G : ParseError → Prop} {m : Resolve α} (hm : Blames F m ctx)
    (hG : ∀ e, F e → G e) : Blames G m ctx := by
  intro e ctx' he
  obtain ⟨pe, rfl, hpe⟩ := hm e ctx' he
  exact ⟨pe, rfl, hG pe hpe⟩

theorem blames_pure (a : α) : Blames F (pure a) ctx := by
  intro e ctx' hm
  cases (leaves_pure.mp hm).1

theorem blames_reject {message : String} (hF : F ⟨message, h.offset⟩) :
    Blames F (reject h message : Resolve α) ctx := by
  intro e ctx' hm
  exact ⟨_, Except.error.inj (leaves_throw.mp hm).1, hF⟩

theorem Blames.bind {x : Resolve α} {f : α → Resolve β} (hx : Blames F x ctx)
    (hf : ∀ a ctx₁, Gives x ctx a ctx₁ → Blames F (f a) ctx₁) : Blames F (x >>= f) ctx := by
  intro e ctx' hm
  rcases leaves_bind.mp hm with ⟨e, he, herr⟩ | ⟨a, ctx₁, ha, hm⟩
  · obtain rfl := Except.error.inj herr
    exact hx _ ctx' he
  · exact hf a ctx₁ ha e ctx' hm

theorem blames_mapM {f : α → Resolve β} {l : List α} (hf : ∀ a ∈ l, ∀ ctx, Blames F (f a) ctx) :
    Blames F (l.mapM f) ctx := by
  induction l generalizing ctx with
  | nil => exact blames_pure []
  | cons a l ih =>
    rw [List.forall_mem_cons] at hf
    rw [List.mapM_cons]
    exact (hf.1 ctx).bind fun _ _ _ => (ih hf.2).bind fun _ _ _ => blames_pure _

theorem blames_of_gives {m : Resolve α} (hm : ∃ a ctx', Gives m ctx a ctx') : Blames F m ctx := by
  intro e ctx' herr
  obtain ⟨a, ctx₁, ha⟩ := hm
  cases (Prod.mk.inj (ha.symm.trans herr)).1

/-- The errors that stand at an operation, given what can be wrong with it. -/
def At (h : SourceHead) (P : Complaint → Prop) (e : ParseError) : Prop :=
  ∃ complaint, P complaint ∧ e = ⟨complaint.message, h.offset⟩

section Names

variable {P : Complaint → Prop}

theorem blames_complaint {complaint : Complaint} (hP : P complaint) :
    Blames (At h P) (reject h complaint.message : Resolve α) ctx :=
  blames_reject ⟨complaint, hP, rfl⟩

theorem blames_operand {name : String}
    (hP : name ∉ scope.values.map Prod.fst → P (.undefinedValue name h.fullName)) :
    Blames (At h P) (operand h scope name) ctx := by
  unfold operand
  split
  · exact blames_pure _
  · rename_i hnone
    refine blames_complaint (hP fun hmem => ?_)
    obtain ⟨v, hv⟩ := Scope.exists_lookup hmem
    cases hnone.symm.trans hv

theorem blames_successor {label : String}
    (hP : label ∉ scope.blocks.map Prod.fst → P (.undefinedBlock label h.fullName)) :
    Blames (At h P) (successor h scope label) ctx := by
  unfold successor
  split
  · exact blames_pure _
  · rename_i hnone
    refine blames_complaint (hP fun hmem => ?_)
    obtain ⟨b, hb⟩ := Scope.exists_lookup hmem
    cases hnone.symm.trans hb

theorem blames_checkResults (hP : h.results ≠ [] → h.results.length ≠ h.resultTypes.length →
    P (.resultCount h.fullName h.results.length h.resultTypes.length)) :
    Blames (At h P) (checkResults h) ctx := by
  unfold checkResults
  split
  · exact blames_pure _
  · rename_i hcheck
    simp only [Bool.or_eq_true, List.isEmpty_iff, beq_iff_eq, not_or] at hcheck
    exact blames_complaint (hP hcheck.1 hcheck.2)

theorem blames_defineValues {names : List String}
    (hP : ∀ name, Clashes (scope.values.map Prod.fst) names name → P (.duplicateValue name))
    {vs : List ValueId} (hlen : names.length ≤ vs.length) :
    Blames (At h P) (defineValues h scope names vs) ctx := by
  induction names generalizing scope vs ctx with
  | nil => exact blames_pure _
  | cons name names ih =>
    cases vs with
    | nil => simp at hlen
    | cons v vs =>
      unfold defineValues defineValue
      split
      · rename_i hv
        refine (blames_complaint (hP name ?_)).bind fun _ _ hg => absurd hg gives_reject
        exact .inl ⟨List.mem_cons_self, mem_keys_of_lookup hv⟩
      · refine (blames_pure _).bind fun scope₁ ctx₁ hg => ?_
        obtain ⟨rfl, rfl⟩ := gives_pure.mp hg
        refine ih (fun n hn => hP n ?_) (by simpa using hlen)
        exact Clashes.of_cons hn

theorem blames_openBlocks {blocks : List SourceBlock} {seen : List String}
    (hlabels : ∀ label, Clashes seen (blocks.map SourceBlock.label) label → P (.duplicateLabel label))
    (hargs : ∀ name, Clashes (scope.values.map Prod.fst) (blocks.flatMap SourceBlock.argNames) name →
      P (.duplicateValue name)) : Blames (At h P) (openBlocks h seen scope blocks) ctx := by
  induction blocks generalizing seen scope ctx with
  | nil => exact blames_pure _
  | cons block blocks ih =>
    obtain ⟨label, args, ops⟩ := block
    have hrest : Blames (At h P) (openUnseen h seen scope label args blocks) ctx := by
      refine Blames.bind (blames_of_gives ⟨_, _, gives_createBlock.mpr rfl⟩) fun b ctx₁ hcreate => ?_
      have hcreates := ctx.createBlock_creates (args.map fun a => a.2.canonical)
      rw [gives_createBlock.mp hcreate] at hcreates
      have hb := hcreates.block? b
      rw [if_pos rfl] at hb
      refine Blames.bind (blames_of_gives ⟨_, _, (gives_argsOf hb).mpr ⟨rfl, rfl⟩⟩) fun vs ctx₂ hvs => ?_
      obtain ⟨rfl, rfl⟩ := (gives_argsOf hb).mp hvs
      have hlen : (args.map Prod.fst).length ≤
          (ctx.freshValues (args.map fun a => a.2.canonical).length).length := by simp
      refine Blames.bind (blames_defineValues ?_ hlen) fun scope₁ ctx₂ hdefine => ?_
      · exact fun n hn => hargs n hn.append_right
      · obtain ⟨rfl, rfl⟩ := gives_defineValues hdefine
        refine Blames.bind (ih ?_ fun n hn => ?_) fun _ _ _ => blames_pure _
        · exact fun l hl => hlabels l hl.of_cons
        · refine hargs n (Clashes.of_append (hn.mono fun m hm => ?_))
          exact List.mem_append.mpr ((mem_keys_define hlen).mp hm)
    rw [openBlocks_cons]
    split
    · rename_i hseen
      exact (blames_complaint (hlabels label (.inl ⟨List.mem_cons_self, hseen⟩))).bind
        fun _ _ hg => absurd hg gives_reject
    · exact hrest

end Names

section Nested

variable {frames : List SourceFrame} {bs : List SourceBlock} {earlier : List SourceOp}

/-- Whether only what the description allows is reported of an operation that stands in the frames,
wherever just that is in scope which is visible there. -/
def OpBlames (F : ParseError → Prop) (frames : List SourceFrame) (s : SourceOp) : Prop :=
  ∀ ⦃scope ctx⦄, ctx.Reachable → scope.Shows (visibleValues frames) (visibleLabels frames) →
    Blames F (op scope s) ctx

theorem blames_fillBlock {ops : List SourceOp}
    (hops : ∀ os₁ s os₂, ops = os₁ ++ s :: os₂ → OpBlames F (⟨bs, earlier ++ os₁⟩ :: frames) s)
    (hr : ctx.Reachable) (hs : scope.Shows (visibleValues (⟨bs, earlier⟩ :: frames))
      (visibleLabels (⟨bs, earlier⟩ :: frames)))
    {b : BlockId} {block : Block} (hb : ctx.block? b = some block) :
    Blames F (fillBlock scope b ops) ctx := by
  induction ops generalizing scope ctx block earlier with
  | nil => exact blames_pure _
  | cons s ops ih =>
    rw [forall_split_cons_iff, List.append_nil] at hops
    refine (hops.1 hr hs).bind fun (id, scope₁) ctx₁ hop => ?_
    have hr₁ := safe_op s scope ctx _ ctx₁ hr hop
    have hok := opResolvable s hr hs hop
    obtain ⟨t, rfl, ht⟩ := opBuilds s hr hop
    have hs₁ : scope₁.Shows (visibleValues (⟨bs, earlier ++ [s]⟩ :: frames))
        (visibleLabels (⟨bs, earlier ++ [s]⟩ :: frames)) := by
      rw [ht.scope]
      exact (hs.define (ht.means.results_named hok)).of_mem_iff fun n => by
        simp [mem_visibleValues_append]
    have hb₁ : ctx₁.block? b = some block := ht.gains.block? List.not_mem_nil hb
    obtain ⟨ctx₂, hpush⟩ := Context.pushOp_total ht.held.op?_id ht.detached hb₁
    refine Blames.bind (blames_of_gives ⟨(), ctx₂, gives_pushOp.mpr hpush⟩) fun _ ctx₃ hpush' => ?_
    have hpush' := gives_pushOp.mp hpush'
    obtain ⟨block', hb', -⟩ := (ht.gains.pushOp hpush' t.id_mem_opIds).filled? hb
    refine ih (fun os₁ o os₂ hsplit => ?_) (hr₁.pushOp hpush') hs₁ hb'
    rw [List.append_assoc]
    exact hops.2 os₁ o os₂ hsplit

theorem blames_fillBlocks {blocks : List SourceBlock}
    (hblocks : ∀ bs₁ b bs₂, blocks = bs₁ ++ b :: bs₂ → ∀ os₁ s os₂, b.ops = os₁ ++ s :: os₂ →
      OpBlames F (⟨bs, earlier ++ (bs₁.flatMap SourceBlock.ops ++ os₁)⟩ :: frames) s)
    (hr : ctx.Reachable) (hs : scope.Shows (visibleValues (⟨bs, earlier⟩ :: frames))
      (visibleLabels (⟨bs, earlier⟩ :: frames)))
    {ids : List BlockId} (hids : ∀ b ∈ ids, ∃ block, ctx.block? b = some block) :
    Blames F (fillBlocks scope blocks ids) ctx := by
  induction blocks generalizing scope ctx ids earlier with
  | nil =>
    unfold fillBlocks
    exact blames_pure _
  | cons block blocks ih =>
    obtain ⟨label, args, ops⟩ := block
    rw [forall_split_cons_iff] at hblocks
    cases ids with
    | nil => exact blames_pure _
    | cons b ids =>
      rw [List.forall_mem_cons] at hids
      obtain ⟨block, hb⟩ := hids.1
      refine (blames_fillBlock hblocks.1 hr hs hb).bind fun scope₁ ctx₁ hfill => ?_
      obtain ⟨-, hs₁⟩ := resolvable_of_fillBlock (fun s _ => opResolvable s) hr hs hfill
      obtain ⟨_, -, -, -, -, hgain⟩ := fillBlock_gives (fun s _ => opBuilds s) hr hb hfill
      have hs₂ : scope₁.Shows (visibleValues (⟨bs, earlier ++ ops⟩ :: frames))
          (visibleLabels (⟨bs, earlier ++ ops⟩ :: frames)) :=
        hs₁.of_mem_iff fun n => mem_visibleValues_append.trans List.mem_append.symm
      refine ih (fun bs₁ c bs₂ hsplit os₁ o os₂ hops => ?_)
        (safe_fillBlock ops scope b ctx _ ctx₁ hr hfill) hs₂ fun c hc => ?_
      · have hc := hblocks.2 bs₁ c bs₂ hsplit os₁ o os₂ hops
        rwa [List.flatMap_cons, List.append_assoc, ← List.append_assoc earlier] at hc
      · obtain ⟨old, hold⟩ := hids.2 c hc
        obtain ⟨block', hblock', -⟩ := hgain.filled? hold
        exact ⟨block', hblock'⟩

theorem blames_region {r : SourceRegion} (hopen : ∀ ⦃scope ctx⦄,
      scope.Shows (visibleValues frames) (visibleLabels frames) →
      Blames F (openBlocks h [] scope r.blocks) ctx)
    (hblocks : ∀ bs₁ b bs₂, r.blocks = bs₁ ++ b :: bs₂ → ∀ os₁ s os₂, b.ops = os₁ ++ s :: os₂ →
      OpBlames F (⟨r.blocks, bs₁.flatMap SourceBlock.ops ++ os₁⟩ :: frames) s)
    (hr : ctx.Reachable) (hs : scope.Shows (visibleValues frames) (visibleLabels frames)) :
    Blames F (region h scope r) ctx := by
  obtain ⟨blocks⟩ := r
  refine (hopen hs).bind fun (ids, scope₁) ctx₁ hopen => ?_
  have hr₁ := safe_openBlocks h [] scope blocks ctx _ ctx₁ hr hopen
  obtain ⟨entries, rfl, rfl, htypes, hopened, hids, hgain₁⟩ := openBlocks_gives hopen
  have hthere : ∀ b ∈ entries.map Prod.fst, ∃ block, ctx₁.block? b = some block := by
    rw [List.forall_mem_map]
    exact fun e he => ⟨_, (hopened e he).block⟩
  have hs₁ := hs.enter (forall₂_length_of_types htypes)
  rw [← visibleValues_enter, ← visibleLabels_enter] at hs₁
  refine (blames_fillBlocks hblocks hr₁ hs₁ hthere).bind fun _ ctx₂ hfill => ?_
  obtain ⟨_, -, -, -, hgain₂⟩ := fillBlocks_gives (fun _ _ s _ => opBuilds s) hr₁ htypes hopened hids hfill
  have hfree : ∀ b ∈ entries.map Prod.fst, ∃ block, ctx₂.block? b = some block ∧
      block.parent = none := by
    rw [List.forall_mem_map]
    intro e he
    obtain ⟨block, hblock, -, hp⟩ := hgain₂.filled? (hopened e he).block
    exact ⟨block, hblock, hp⟩
  obtain ⟨ctx', r, hcreate⟩ := Context.createRegion_total hids hfree
  exact blames_of_gives ⟨r, ctx', gives_createRegion.mpr hcreate⟩

theorem blames_regionsOf {regions : List SourceRegion} (hregions : ∀ r ∈ regions, ∀ ⦃ctx⦄,
      ctx.Reachable → Blames F (region h scope r) ctx) (hr : ctx.Reachable) :
    Blames F (regionsOf h scope regions) ctx := by
  induction regions generalizing ctx with
  | nil => exact blames_pure _
  | cons s regions ih =>
    rw [List.forall_mem_cons] at hregions
    refine (hregions.1 hr).bind fun r ctx₁ hregion => ?_
    exact (ih hregions.2 (safe_region s h scope ctx _ ctx₁ hr hregion)).bind fun _ _ _ =>
      blames_pure _

/-- The regions that were just built belong to nobody, so the context takes them for an operation, and
there is a result for every name. -/
theorem blames_create {regions : List SourceRegion} {rs : List RegionId} {operands : List ValueId}
    {successors : List BlockId} {ctx₀ : Context} (hr : ctx₀.Reachable)
    (hregions : Gives (regionsOf h scope regions) ctx₀ rs ctx)
    (hlen : h.results = [] ∨ h.results.length = h.resultTypes.length)
    (hresults : ∀ {vs ctx}, h.results.length ≤ vs.length →
      Blames F (defineValues h scope h.results vs) ctx) :
    Blames F (do
      let id ← createOp {
        location := ⟨textPath, ⟨h.offset, h.offset⟩⟩
        dialect := h.dialect
        name := h.name
        operands, successors, regions := rs
        resultTypes := Ty.canonicalList h.resultTypes
        attrs := attributes h }
      return (id, ← defineValues h scope h.results (← resultsOf id))) ctx := by
  obtain ⟨ts, rfl, hnd, hts, -, -⟩ := regionsOf_gives (fun s _ => regionBuilds s) hr hregions
  have hfree : ∀ r ∈ ts.map RegionTree.id, ∃ region, ctx.region? r = some region ∧
      region.parent = none := by
    rw [List.forall_mem_map]
    exact fun t ht => (hts t ht).2.2
  obtain ⟨ctx₁, o, hcreate⟩ : ∃ ctx₁ o, ctx.createOp {
      location := ⟨textPath, ⟨h.offset, h.offset⟩⟩
      dialect := h.dialect
      name := h.name
      operands := operands
      successors := successors
      regions := ts.map RegionTree.id
      resultTypes := Ty.canonicalList h.resultTypes
      attrs := attributes h } = .ok (ctx₁, o) := Context.createOp_total rfl hnd hfree
  refine Blames.bind (blames_of_gives ⟨o, ctx₁, gives_createOp.mpr hcreate⟩) fun o' ctx₂ hcreate' => ?_
  have ho := (Context.createOp_ok (gives_createOp.mp hcreate')).op? o'
  rw [if_pos rfl] at ho
  refine Blames.bind (blames_of_gives ⟨_, _, (gives_resultsOf ho).mpr ⟨rfl, rfl⟩⟩) fun vs ctx₃ hvs => ?_
  obtain ⟨rfl, rfl⟩ := (gives_resultsOf ho).mp hvs
  refine (hresults ?_).bind fun _ _ _ => blames_pure _
  rcases hlen with hnone | hlen
  · simp [hnone]
  · simp [OpSpec.toOp, Ty.canonicalList_eq_map, hlen]

/-- Where the visible names are in scope, only operations of the program that are not in order are to
blame if it does not resolve. -/
theorem opBlames (s : SourceOp) (frames : List SourceFrame) :
    OpBlames (s.Accounts frames) frames s := by
  revert frames
  refine SourceOp.forall_of (P := fun s => ∀ frames, OpBlames (s.Accounts frames) frames s)
    (Q := fun r => ∀ b ∈ r.blocks, ∀ s ∈ b.ops, ∀ frames, OpBlames (s.Accounts frames) frames s)
    (R := fun b => ∀ s ∈ b.ops, ∀ frames, OpBlames (s.Accounts frames) frames s)
    ?_ (fun _ ih => ih) (fun _ _ _ ih => ih) s
  intro h regions ih frames scope ctx hr hs
  have hown {e : ParseError} (he : At h ((SourceOp.mk h regions).Prompts frames) e) :
      (SourceOp.mk h regions).Accounts frames e := ⟨frames, _, .self, he⟩
  have hclash {names : List String} {name : String}
      (hn : Clashes (scope.values.map Prod.fst) names name) :
      Clashes (visibleValues frames) names name := hn.mono fun n => (hs.values n).mpr
  have hregions : ∀ r ∈ regions, ∀ ⦃ctx⦄, ctx.Reachable →
      Blames ((SourceOp.mk h regions).Accounts frames) (region h scope r) ctx := by
    intro r hmem ctx hr
    have hinner : r.blocks ∈ (SourceOp.mk h regions).inner := List.mem_map_of_mem hmem
    refine blames_region (fun scope ctx hs => ?_) (fun bs₁ b bs₂ hbs os₁ c os₂ hops => ?_) hr hs
    · refine (blames_openBlocks (fun label hl => ?_) fun name hn => ?_).mono fun _ => hown
      · exact .duplicateLabel hinner (hl.resolve_left fun hl => List.not_mem_nil hl.2)
      · exact .duplicateArg hinner (hn.mono fun n => (hs.values n).mpr)
    · intro scope ctx hr hs
      rw [hbs] at hinner hs
      exact (ih r hmem b (hbs ▸ List.mem_append_cons_self) c (hops ▸ List.mem_append_cons_self) _ hr
        hs).mono fun _ => .of_nested hinner hops
  have hoperand {name : String} (hn : name ∈ h.operands) (ctx : Context) :
      Blames (At h ((SourceOp.mk h regions).Prompts frames)) (operand h scope name) ctx :=
    blames_operand fun hnot => .undefinedValue hn fun hmem => hnot ((hs.values _).mp hmem)
  have hsuccessor {label : String} (hl : label ∈ h.successors) (ctx : Context) :
      Blames (At h ((SourceOp.mk h regions).Prompts frames)) (successor h scope label) ctx :=
    blames_successor fun hnot => .undefinedBlock hl fun hmem => hnot ((hs.labels _).mp hmem)
  refine Blames.bind ((blames_mapM fun _ => hoperand).mono fun _ => hown) fun operands ctx₁ hgives => ?_
  obtain ⟨-, rfl⟩ := (gives_mapM fun _ _ _ _ => gives_operand).mp hgives
  refine Blames.bind ((blames_mapM fun _ => hsuccessor).mono fun _ => hown)
    fun successors ctx₁ hgives => ?_
  obtain ⟨-, rfl⟩ := (gives_mapM fun _ _ _ _ => gives_successor).mp hgives
  have hcount : h.results ≠ [] → h.results.length ≠ h.resultTypes.length →
      (SourceOp.mk h regions).Prompts frames
        (.resultCount h.fullName h.results.length h.resultTypes.length) :=
    fun hne hlen => .resultCount hne hlen
  refine Blames.bind ((blames_checkResults hcount).mono fun _ => hown) fun _ ctx₁ hcheck => ?_
  obtain ⟨hlen, rfl⟩ := gives_checkResults.mp hcheck
  refine (blames_regionsOf hregions hr).bind fun rs ctx₁ hgives => ?_
  exact blames_create hr hgives hlen fun hle =>
    (blames_defineValues (fun _ hn => .duplicateResult (hclash hn)) hle).mono fun _ => hown

end Nested

end Resolve

/-- A source that does not resolve is rejected for one of its operations, and the context refuses
nothing. -/
theorem Context.accounts_of_parse_error {ctx : Context} (hr : ctx.Reachable) {text : String}
    {source : SourceOp} (hsource : SourceOp.parse text = .ok source) {e : ResolveError}
    (h : (ctx.parse text).1 = .error e) : ∃ pe, e = .rejected pe ∧ source.Accounts [] pe := by
  unfold parse at h
  rw [hsource] at h
  change @Except.map ResolveError (OpId × Scope) OpId Prod.fst
    ((Resolve.op {} source).run.run ctx).1 = .error e at h
  cases hrun : ((Resolve.op {} source).run.run ctx).1 with
  | ok a =>
    rw [hrun] at h
    cases h
  | error e' =>
    rw [hrun] at h
    obtain rfl := Except.error.inj h
    have hs : Scope.Shows {} (visibleValues []) (visibleLabels []) :=
      ⟨by simp [visibleValues], by simp [visibleLabels]⟩
    exact Resolve.opBlames source [] hr hs _ _ (Prod.ext hrun rfl)

theorem Context.isOffset_of_parse_error {ctx : Context} (hr : ctx.Reachable) {text : String}
    {e : ResolveError} (h : (ctx.parse text).1 = .error e) :
    ∃ pe, e = .rejected pe ∧ IsOffset text.toList pe.offset := by
  cases hparse : SourceOp.parse text with
  | error pe =>
    unfold parse at h
    rw [hparse] at h
    exact ⟨pe, (Except.error.inj h).symm, SourceOp.isOffset_of_parse_error hparse⟩
  | ok source =>
    obtain ⟨_, rfl, frames, c, hoccurs, complaint, -, rfl⟩ := accounts_of_parse_error hr hparse h
    exact ⟨_, rfl, (SourceOp.isOffset_of_parse hparse).head_of_occurs hoccurs⟩

end RegionIR
