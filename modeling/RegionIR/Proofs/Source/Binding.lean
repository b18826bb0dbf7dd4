import RegionIR.Proofs.Source.Definitions
import RegionIR.Proofs.Source.Scoping

/-! What the names of a program stand for.

Resolving accepts the programs in which every operation is in order where it stands, and no others.
In what it creates, an operand is the value of the one definition that is visible under its name, and
a successor is the block of the innermost region that has its label. -/

namespace RegionIR

/-- A region around a place, its blocks and earlier operations each with what was created for it. -/
abbrev BuiltFrame := Frame (SourceBlock × BlockTree) (SourceOp × OpTree)

namespace BuiltFrame

/-- The names of the arguments and of the earlier results, with the values that they are given to. -/
def values (f : BuiltFrame) : List (String × ValueId) :=
  f.blocks.flatMap (fun b => b.1.argNames.zip b.2.argIds) ++
    f.earlier.flatMap fun o => o.1.head.results.zip o.2.op.results

def labels (f : BuiltFrame) : List (String × BlockId) := f.blocks.map fun b => (b.1.label, b.2.id)

end BuiltFrame

/-- The definitions of values that are visible in the frames. -/
def visibleDefinitions (frames : List BuiltFrame) : List (String × ValueId) :=
  frames.flatMap BuiltFrame.values

/-- The block with the label in the innermost region that has one. -/
def innermostBlock (frames : List BuiltFrame) (label : String) : Option BlockId :=
  frames.findSome? fun f => f.labels.lookup label

/-- The blocks of each region of an operation, with what was created for them. -/
def builtInner (p : SourceOp × OpTree) : List (List (SourceBlock × BlockTree)) :=
  (p.1.regions.zip p.2.regions).map fun r => r.1.blocks.zip r.2.blocks

def builtOps (b : SourceBlock × BlockTree) : List (SourceOp × OpTree) := b.1.ops.zip b.2.ops

/-- Each operand is the value of the one visible definition of its name, and each successor is the
block of the innermost region that has its label. -/
structure BoundIn (frames : List BuiltFrame) (p : SourceOp × OpTree) : Prop where
  operands : List.Forall₂
    (fun name v => (visibleDefinitions frames).filter (fun d => d.1 = name) = [(name, v)])
    p.1.head.operands p.2.op.operands
  successors : List.Forall₂ (fun label b => innermostBlock frames label = some b)
    p.1.head.successors p.2.op.successors

/-- Names are bound as they should be at every place of the program. -/
def SourceOp.BindsAs (s : SourceOp) (t : OpTree) : Prop :=
  ∀ frames p, Occurs builtInner builtOps [] (s, t) frames p → BoundIn frames p

section Keys

variable {α : Type} {l : List (String × α)} {name : String} {a : α}

theorem lookup_reverse (hnd : (l.map Prod.fst).Nodup) : l.reverse.lookup name = l.lookup name := by
  have hnd' : (l.reverse.map Prod.fst).Nodup := by
    rw [List.map_reverse]
    exact List.nodup_reverse.mpr hnd
  refine Option.ext fun a => ?_
  rw [lookup_eq_some_iff_mem hnd, lookup_eq_some_iff_mem hnd', List.mem_reverse]

theorem filter_key (hnd : (l.map Prod.fst).Nodup) (h : (name, a) ∈ l) :
    l.filter (fun d => d.1 = name) = [(name, a)] := by
  induction l with
  | nil => simp at h
  | cons e l ih =>
    rw [List.map_cons, List.nodup_cons] at hnd
    rcases List.mem_cons.mp h with rfl | h
    · have hnone : l.filter (fun d => d.1 = name) = [] := by
        refine List.filter_eq_nil_iff.mpr fun d hd => ?_
        rw [decide_eq_true_iff]
        exact fun heq => hnd.1 (List.mem_map.mpr ⟨d, hd, heq⟩)
      rw [List.filter_cons_of_pos (by simp), hnone]
    · have hne : e.1 ≠ name := fun heq => hnd.1 (List.mem_map.mpr ⟨(name, a), h, heq.symm⟩)
      rw [List.filter_cons_of_neg (by simpa using hne), ih hnd.2 h]

end Keys

namespace Scope

variable {scope : Scope} {frames : List BuiltFrame}

/-- The scope holds the visible definitions, each under a name of its own, and finds the blocks of the
innermost regions. -/
structure Reads (scope : Scope) (frames : List BuiltFrame) : Prop where
  values : scope.values.Perm (visibleDefinitions frames)
  distinct : (scope.values.map Prod.fst).Nodup
  blocks (label : String) : scope.blocks.lookup label = innermostBlock frames label

theorem Reads.filter_eq (h : scope.Reads frames) {name : String} {v : ValueId}
    (hv : scope.values.lookup name = some v) :
    (visibleDefinitions frames).filter (fun d => d.1 = name) = [(name, v)] :=
  filter_key ((h.values.map Prod.fst).nodup_iff.mp h.distinct)
    (h.values.mem_iff.mp ((lookup_eq_some_iff_mem h.distinct).mp hv))

theorem nodup_keys_define {names : List String} {vs : List ValueId}
    (hlen : names = [] ∨ names.length = vs.length) (hnd : names.Nodup)
    (hnew : ∀ n ∈ names, n ∉ scope.values.map Prod.fst) (hkeys : (scope.values.map Prod.fst).Nodup) :
    ((scope.define names vs).values.map Prod.fst).Nodup := by
  rw [define, List.map_append, List.map_reverse, keys_zip hlen]
  refine List.nodup_append.mpr ⟨List.nodup_reverse.mpr hnd, hkeys, fun n hn m hm heq => ?_⟩
  exact hnew n (List.mem_reverse.mp hn) (heq ▸ hm)

theorem Reads.define {bs : List (SourceBlock × BlockTree)} {earlier : List (SourceOp × OpTree)}
    (h : scope.Reads (⟨bs, earlier⟩ :: frames)) {s : SourceOp} {t : OpTree}
    (hlen : s.head.results = [] ∨ s.head.results.length = t.op.results.length)
    (hnd : s.head.results.Nodup) (hnew : ∀ n ∈ s.head.results, n ∉ scope.values.map Prod.fst) :
    (scope.define s.head.results t.op.results).Reads (⟨bs, earlier ++ [(s, t)]⟩ :: frames) := by
  refine ⟨?_, nodup_keys_define hlen hnd hnew h.distinct, h.blocks⟩
  have hvalues := h.values
  simp only [visibleDefinitions, BuiltFrame.values, List.flatMap_cons, List.flatMap_append,
    List.flatMap_nil, List.append_nil] at hvalues ⊢
  refine ((List.reverse_perm _).append hvalues).trans ?_
  rw [← List.append_assoc (bs.flatMap _), List.append_assoc _ (s.head.results.zip _)]
  exact List.perm_append_comm_assoc _ _ _

theorem zip_flatMap_argNames {blocks : List SourceBlock} {trees : List BlockTree}
    (hlen : List.Forall₂ (fun b t => b.argNames.length = t.argIds.length) blocks trees) :
    (blocks.flatMap SourceBlock.argNames).zip (trees.flatMap BlockTree.argIds) =
      (blocks.zip trees).flatMap fun b => b.1.argNames.zip b.2.argIds := by
  induction hlen with
  | nil => rfl
  | cons hfirst _ ih => simp [List.zip_append hfirst, ih]

/-- In a region its arguments are visible and its labels come before those outside. -/
theorem Reads.enter (h : scope.Reads frames) {blocks : List SourceBlock} {trees : List BlockTree}
    (hlen : List.Forall₂ (fun b t => b.argNames.length = t.argIds.length) blocks trees)
    (hlabels : (blocks.map SourceBlock.label).Nodup) (hnd : (blocks.flatMap SourceBlock.argNames).Nodup)
    (hnew : ∀ n ∈ blocks.flatMap SourceBlock.argNames, n ∉ scope.values.map Prod.fst) :
    (scope.enter blocks (trees.map fun t => (t.id, t.args.map Prod.fst))).Reads
      (⟨blocks.zip trees, []⟩ :: frames) := by
  have hentries : List.Forall₂ (fun (b : SourceBlock) (e : BlockId × List ValueId) =>
      b.args.length = e.2.length) blocks (trees.map fun t => (t.id, t.args.map Prod.fst)) := by
    rw [List.forall₂_map_right_iff]
    exact hlen.imp fun b t hbt => by simpa [SourceBlock.argNames, BlockTree.argIds] using hbt
  have hids : (trees.map fun t => (t.id, t.args.map Prod.fst)).flatMap Prod.snd =
      trees.flatMap BlockTree.argIds := by
    rw [List.flatMap_map]
    rfl
  have hflat := length_flatMap_argNames hentries
  rw [hids] at hflat
  rw [enter_eq hentries, hids]
  refine ⟨?_, nodup_keys_define (.inr hflat) hnd hnew h.distinct, fun label => ?_⟩
  · simp only [Scope.define, zip_flatMap_argNames hlen, visibleDefinitions, BuiltFrame.values,
      List.flatMap_cons, List.flatMap_nil, List.append_nil]
    exact (List.reverse_perm _).append h.values
  · have hpairs : (blocks.map SourceBlock.label).zip (trees.map BlockTree.id) =
        BuiltFrame.labels ⟨blocks.zip trees, []⟩ := by
      rw [List.zip_map]
      rfl
    have hkeys : ((BuiltFrame.labels ⟨blocks.zip trees, []⟩).map Prod.fst).Nodup := by
      rw [← hpairs, List.map_fst_zip (by simp [hlen.length_eq])]
      exact hlabels
    have hblocks : (trees.map fun t => (t.id, t.args.map Prod.fst)).map Prod.fst =
        trees.map BlockTree.id := by
      rw [List.map_map]
      rfl
    rw [hblocks, hpairs, List.lookup_append, lookup_reverse hkeys, h.blocks, innermostBlock,
      innermostBlock, List.findSome?_cons]
    cases (BuiltFrame.labels ⟨blocks.zip trees, []⟩).lookup label <;> rfl

end Scope

section Binds

variable {frames : List BuiltFrame} {scope : Scope} {values labels : List String}

/-- All names in what was created for an operation are bound as they should be. -/
abbrev BoundBelow (frames : List BuiltFrame) (p : SourceOp × OpTree) : Prop :=
  ∀ frames' p', Occurs builtInner builtOps frames p frames' p' → BoundIn frames' p'

/-- Whether the operation binds its names as it should wherever it is read in a scope that finds what
is visible there. -/
def SourceOp.Binds (s : SourceOp) : Prop :=
  ∀ ⦃frames scope values labels t⦄, s.Means scope t → s.Resolvable values labels →
    scope.Shows values labels → scope.Reads frames → BoundBelow frames (s, t)

theorem ops_bind {ops : List SourceOp} (hops : ∀ s ∈ ops, s.Binds)
    {bs : List (SourceBlock × BlockTree)} {earlier : List (SourceOp × OpTree)} {trees : List OpTree}
    (hmeans : SourceOp.AllMean scope ops trees) (hok : SourceOp.AllResolvable values labels ops)
    (hs : scope.Shows values labels) (hr : scope.Reads (⟨bs, earlier⟩ :: frames)) :
    (scope.after ops trees).Shows (ops.flatMap (·.head.results) ++ values) labels ∧
      (scope.after ops trees).Reads (⟨bs, earlier ++ ops.zip trees⟩ :: frames) ∧
      ∀ ps₁ p ps₂, ops.zip trees = ps₁ ++ p :: ps₂ →
        BoundBelow (⟨bs, earlier ++ ps₁⟩ :: frames) p := by
  induction ops generalizing scope values earlier trees with
  | nil =>
    cases trees with
    | nil => exact ⟨hs, by simpa [Scope.after] using hr, by simp⟩
    | cons t trees => exact hmeans.elim
  | cons s ops ih =>
    cases trees with
    | nil => exact hmeans.elim
    | cons t trees =>
      obtain ⟨hfirst, hrest⟩ := hmeans
      obtain ⟨hok, hoks⟩ := hok
      rw [List.forall_mem_cons] at hops
      have hlen := hfirst.results_named hok
      have hnew : s.head.results.Nodup ∧ s.head.results.Disjoint values := by
        obtain ⟨h, regions⟩ := s
        exact ⟨hok.2.2.2.1, hok.2.2.2.2.1⟩
      obtain ⟨hs', hr', hbound⟩ := ih hops.2 hrest hoks (hs.define hlen)
        (hr.define hlen hnew.1 fun n hn hmem => hnew.2 hn ((hs.values n).mpr hmem))
      refine ⟨⟨fun name => ?_, hs'.labels⟩, by simpa [Scope.after] using hr', ?_⟩
      · rw [Scope.after, ← hs'.values]
        simp only [List.flatMap_cons, List.mem_append]
        tauto
      · rw [List.zip_cons_cons, forall_split_cons_iff]
        refine ⟨?_, fun ps₁ p ps₂ hsplit => ?_⟩
        · rw [List.append_nil]
          exact hops.1 hfirst hok hs hr
        · have hp := hbound ps₁ p ps₂ hsplit
          rwa [List.append_assoc] at hp

theorem blocks_bind {blocks : List SourceBlock} (hblocks : ∀ b ∈ blocks, ∀ s ∈ b.ops, s.Binds)
    {bs : List (SourceBlock × BlockTree)} {earlier : List (SourceOp × OpTree)} {trees : List BlockTree}
    (hmeans : SourceBlock.AllMean scope blocks trees)
    (hok : SourceBlock.AllResolvable values labels blocks) (hs : scope.Shows values labels)
    (hr : scope.Reads (⟨bs, earlier⟩ :: frames)) :
    ∀ bs₁ b bs₂, blocks.zip trees = bs₁ ++ b :: bs₂ → ∀ ps₁ p ps₂, builtOps b = ps₁ ++ p :: ps₂ →
      BoundBelow (⟨bs, earlier ++ (bs₁.flatMap builtOps ++ ps₁)⟩ :: frames) p := by
  induction blocks generalizing scope values earlier trees with
  | nil => simp
  | cons block blocks ih =>
    obtain ⟨label, args, ops⟩ := block
    cases trees with
    | nil => simp
    | cons tree trees =>
      obtain ⟨id, targs, us⟩ := tree
      obtain ⟨-, hfirst, hrest⟩ := hmeans
      obtain ⟨hok, hoks⟩ := hok
      rw [List.forall_mem_cons] at hblocks
      obtain ⟨hs', hr', hbound⟩ := ops_bind hblocks.1 hfirst hok hs hr
      rw [List.zip_cons_cons, forall_split_cons_iff]
      refine ⟨fun ps₁ p ps₂ hsplit => ?_, fun bs₁ b bs₂ hsplit ps₁ p ps₂ hops => ?_⟩
      · exact hbound ps₁ p ps₂ hsplit
      · have hp := ih hblocks.2 hrest hoks hs' hr' bs₁ b bs₂ hsplit ps₁ p ps₂ hops
        rw [List.flatMap_cons, List.append_assoc, ← List.append_assoc earlier]
        exact hp

theorem forall_mem_zip_of_allMean {regions : List SourceRegion} {trees : List RegionTree}
    (h : SourceRegion.AllMean scope regions trees) :
    ∀ p ∈ regions.zip trees, p.1.Means scope p.2 := by
  induction regions generalizing trees with
  | nil => simp
  | cons r regions ih =>
    cases trees with
    | nil => simp
    | cons t trees => exact List.forall_mem_cons.mpr ⟨h.1, ih h.2⟩

theorem forall₂_length_of_allMean {blocks : List SourceBlock} {trees : List BlockTree}
    (h : SourceBlock.AllMean scope blocks trees) :
    List.Forall₂ (fun b t => b.argNames.length = t.argIds.length) blocks trees := by
  induction blocks generalizing scope trees with
  | nil =>
    cases trees with
    | nil => exact .nil
    | cons t trees => exact h.elim
  | cons block blocks ih =>
    obtain ⟨label, args, ops⟩ := block
    cases trees with
    | nil => exact h.elim
    | cons tree trees =>
      obtain ⟨id, targs, us⟩ := tree
      obtain ⟨htypes, -, hrest⟩ := h
      refine .cons ?_ (ih hrest)
      simpa [SourceBlock.argNames, SourceBlock.args, BlockTree.argIds, BlockTree.args] using
        (congrArg List.length htypes).symm

theorem region_binds {r : SourceRegion} (hblocks : ∀ b ∈ r.blocks, ∀ s ∈ b.ops, s.Binds)
    {t : RegionTree} (hmeans : r.Means scope t) (hok : r.Resolvable values labels)
    (hs : scope.Shows values labels) (hr : scope.Reads frames) :
    ∀ bs₁ b bs₂, r.blocks.zip t.blocks = bs₁ ++ b :: bs₂ → ∀ ps₁ p ps₂,
      builtOps b = ps₁ ++ p :: ps₂ →
        BoundBelow (⟨r.blocks.zip t.blocks, bs₁.flatMap builtOps ++ ps₁⟩ :: frames) p := by
  obtain ⟨blocks⟩ := r
  obtain ⟨id, trees⟩ := t
  obtain ⟨hlabels, hnd, hnew, hok⟩ := hok
  have hlen := forall₂_length_of_allMean hmeans
  have hentries : List.Forall₂ (fun (b : SourceBlock) (e : BlockId × List ValueId) =>
      b.args.length = e.2.length) blocks (trees.map fun t => (t.id, t.args.map Prod.fst)) := by
    rw [List.forall₂_map_right_iff]
    exact hlen.imp fun b t hbt => by simpa [SourceBlock.argNames, BlockTree.argIds] using hbt
  exact blocks_bind hblocks hmeans hok (hs.enter hentries)
    (hr.enter hlen hlabels hnd fun n hn hmem => hnew hn ((hs.values n).mpr hmem))

theorem SourceOp.binds (s : SourceOp) : s.Binds := by
  refine SourceOp.forall_of (P := SourceOp.Binds) (Q := fun r => ∀ b ∈ r.blocks, ∀ s ∈ b.ops, s.Binds)
    (R := fun b => ∀ s ∈ b.ops, s.Binds) ?_ (fun _ ih => ih) (fun _ _ _ ih => ih) s
  rintro h regions ih frames scope values labels ⟨id, op, trees⟩ ⟨hhead, hmeans⟩
    ⟨-, -, -, -, -, hok⟩ hs hr
  rw [BoundBelow, forall_occurs_iff]
  refine ⟨⟨hhead.operands.imp fun _ _ hv => hr.filter_eq hv,
    hhead.successors.imp fun label _ hb => (hr.blocks label).symm.trans hb⟩, ?_⟩
  refine List.forall_mem_map.mpr fun p hp => ?_
  exact region_binds (ih p.1 (List.of_mem_zip hp).1) (forall_mem_zip_of_allMean hmeans p hp)
    (allResolvable_regions_iff.mp hok p.1 (List.of_mem_zip hp).1) hs hr

end Binds

namespace Resolve

/-- Resolving in a scope without names accepts just the programs in which every operation is in order
where it stands. What it creates then is what is written, with every name bound to its one visible
definition and every label to the block of the innermost region that has it. -/
theorem gives_iff_wellScoped {ctx : Context} (hr : ctx.Reachable) (s : SourceOp) :
    ((∃ id scope ctx', Gives (op {} s) ctx (id, scope) ctx') ↔ s.WellScoped) ∧
      ∀ id scope ctx', Gives (op {} s) ctx (id, scope) ctx' →
        ∃ t, ctx'.opTree id = .ok t ∧ s.Means {} t ∧ s.BindsAs t := by
  have hshows : Scope.Shows {} [] [] := ⟨by simp, by simp⟩
  refine ⟨?_, fun id scope ctx' hg => ?_⟩
  · rw [← SourceOp.resolvable_iff_wellScoped]
    exact ⟨fun ⟨_, _, _, hg⟩ => opResolvable s hr hshows hg, opResolves s hr hshows⟩
  · obtain ⟨t, rfl, ht⟩ := opBuilds s hr hg
    have hreads : Scope.Reads {} [] := ⟨.refl _, List.nodup_nil, fun _ => rfl⟩
    exact ⟨t, Context.opTree_eq_ok_iff.mpr ⟨rfl, ht.held⟩, ht.means,
      s.binds ht.means (opResolvable s hr hshows hg) hshows hreads⟩

/-- The first block uses an argument of the second and jumps to it, while an operation nested there
jumps to its own block of the same label. -/
def crossing : SourceOp :=
  let i32 : Ty := .mk "core" "i32" [] []
  .mk { dialect := "t", name := "t" } [.mk [
    .mk "a" [("x", i32)] [
      .mk { results := ["y"], dialect := "t", name := "t", operands := ["x", "z"],
            successors := ["b"], resultTypes := [i32] }
        [.mk [.mk "b" [] [.mk { dialect := "u", name := "u", operands := ["z"],
                                successors := ["b", "a"] } []]]]],
    .mk "b" [("z", i32)] [.mk { dialect := "u", name := "u", operands := ["y"],
                                successors := ["a"] } []]]]

theorem gives_iff_wellScoped_crossing : Context.Reachable {} ∧ crossing.WellScoped ∧
    ∃ id scope ctx, Gives (op {} crossing) {} (id, scope) ctx ∧
      ∃ t, ctx.opTree id = .ok t ∧ crossing.Means {} t ∧ crossing.BindsAs t := by
  have hok : ((op {} crossing).run.run {}).1.isOk = true := by decide +kernel
  obtain ⟨id, scope, ctx, hg⟩ : ∃ id scope ctx, Gives (op {} crossing) {} (id, scope) ctx := by
    obtain ⟨⟨e | ⟨id, scope⟩, ctx⟩, hrun⟩ :
        ∃ r : Except ResolveError (OpId × Scope) × Context, (op {} crossing).run.run {} = r := ⟨_, rfl⟩
    · rw [hrun] at hok
      cases hok
    · exact ⟨id, scope, ctx, hrun⟩
  have h := gives_iff_wellScoped .empty crossing
  exact ⟨.empty, h.1.mp ⟨id, scope, ctx, hg⟩, id, scope, ctx, hg, h.2 id scope ctx hg⟩

end Resolve

end RegionIR
