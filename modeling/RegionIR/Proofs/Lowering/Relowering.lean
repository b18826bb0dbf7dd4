import RegionIR.Proofs.Lowering.Remains
import RegionIR.Proofs.Lowering.TupleFree
import RegionIR.Proofs.Source.RoundTrip

/-! Lowering the text of a lowered module.

The text is read as a program without tuples in its body, which is lowered to itself. A module that is
read back from its text may be lowered to one that is not: the elements of tuples become attributes, and a
type whose name begins with a word is read as that word there. -/

namespace RegionIR

namespace OpTree

variable {tree : OpTree} {t body : RegionTree}

theorem isReadable_withBody (hbody : tree.regions.head? = some t) (h : tree.isReadable) :
    (tree.withBody body).isReadable ↔ body.isReadable := by
  obtain ⟨id, op, _ | ⟨r, rest⟩⟩ := tree
  · simp [OpTree.regions] at hbody
  · rw [OpTree.isReadable_iff, List.forall_mem_cons] at h
    rw [withBody, OpTree.isReadable_iff, List.tail_cons, List.forall_mem_cons, and_iff_right h.1,
      and_iff_left h.2.2]

theorem isScoped_withBody (hbody : tree.regions.head? = some t) (h : tree.isScoped [] []) :
    t.isScoped [] ∧ (body.isScoped [] → (tree.withBody body).isScoped [] []) := by
  obtain ⟨id, op, _ | ⟨r, rest⟩⟩ := tree
  · simp [OpTree.regions] at hbody
  · obtain rfl : r = t := by simpa [OpTree.regions] using hbody
    simp only [withBody, OpTree.isScoped, RegionTree.areScoped, List.tail_cons,
      Bool.and_eq_true] at h ⊢
    exact ⟨h.2.1, fun hscoped => ⟨h.1, hscoped, h.2.2⟩⟩

theorem mem_preorder_withBody {o : OpId × Op} (h : o ∈ (tree.withBody body).preorder) :
    o ∈ tree.preorder ∨ o ∈ body.preorder := by
  obtain ⟨id, op, regions⟩ := tree
  rw [withBody, OpTree.preorder_node, List.flatMap_cons, List.mem_cons, List.mem_append] at h
  rw [OpTree.preorder_node, List.mem_cons]
  rcases h with h | h | h
  · exact .inl (.inl h)
  · exact .inr h
  · obtain ⟨r, hr, h⟩ := List.mem_flatMap.mp h
    exact .inl (.inr (List.mem_flatMap.mpr ⟨r, List.mem_of_mem_tail hr, h⟩))

theorem mem_blocks_withBody {b : BlockTree} (h : b ∈ (tree.withBody body).blocks) :
    b ∈ tree.blocks ∨ b ∈ body.allBlocks := by
  obtain ⟨id, op, regions⟩ := tree
  rw [withBody, OpTree.blocks_node, List.flatMap_cons, List.mem_append] at h
  rw [OpTree.blocks_node]
  refine h.symm.imp_left fun h => ?_
  obtain ⟨r, hr, h⟩ := List.mem_flatMap.mp h
  exact List.mem_flatMap.mpr ⟨r, List.mem_of_mem_tail hr, h⟩

end OpTree

theorem Context.Program.reports {ctx : Context} {tree : OpTree} {r : RegionId} (h : ctx.Program tree)
    (hbody : ctx.body tree.id = .ok (some r)) :
    ctx.validateScopes tree.id = .ok {} ∧ ctx.validateUses tree.id = .ok {} := by
  obtain ⟨scopes, hscopes, hrest⟩ := except_bind_eq_ok.mp h.validate
  obtain ⟨uses, huses, hboth⟩ := except_bind_eq_ok.mp hrest
  obtain ⟨hnoScopes, hnoUses⟩ := Report.mk.inj (except_pure_eq_ok.mp hboth)
  rw [hscopes, huses]
  simp only [validateScopes, validateUses, hbody, except_ok_bind] at hscopes huses
  obtain ⟨_, -, hscopes⟩ := except_bind_eq_ok.mp hscopes
  obtain ⟨errors, -, hscopes⟩ := except_bind_eq_ok.mp hscopes
  obtain ⟨_, -, huses⟩ := except_bind_eq_ok.mp huses
  obtain ⟨errors', -, huses⟩ := except_bind_eq_ok.mp huses
  obtain rfl := except_pure_eq_ok.mp hscopes
  obtain rfl := except_pure_eq_ok.mp huses
  obtain rfl : errors = [] := hnoScopes
  obtain rfl : errors' = [] := hnoUses
  exact ⟨rfl, rfl⟩

section Matches

variable {V : ValueId → ValueId → Prop} {B : BlockId → BlockId → Prop}

theorem Op.Matches.is {op op' : Op} (h : op.Matches V B op') (d n : String) :
    op'.is d n = op.is d n := by
  rw [Op.is, Op.is, h.dialect, h.name]

theorem Op.Matches.tupleFree {op op' : Op} (h : op.Matches V B op') (hop : op.TupleFree) :
    op'.TupleFree := by
  rwa [TupleFree, isTupleOp, ← h.is, ← h.is, h.resultTypes, h.attrs] at hop

theorem RegionTree.Matches.tupleFree {t t' : RegionTree} (h : t.Matches V B t') (ht : t.TupleFree) :
    t'.TupleFree := by
  obtain ⟨hops, hblocks⟩ := h.sameData
  constructor
  · exact forall_mem_of_forall₂
      (forall₂_imp_of_mem hops.flip fun o ho o' hoo => Op.Matches.tupleFree hoo (ht.ops o ho)) fun _ _ h => h
  · refine forall_mem_of_forall₂ (forall₂_imp_of_mem hblocks.flip fun b hb b' hbb => ?_) fun _ _ h => h
    exact forall_mem_of_forall₂
      (forall₂_imp_of_mem hbb.flip fun a ha a' haa => haa ▸ ht.args b hb a ha) fun _ _ h => h

theorem OpTree.Matches.body {tree tree' : OpTree} (h : tree.Matches V B tree') {t : RegionTree}
    (hbody : tree.regions.head? = some t) :
    tree.op.Matches V B tree'.op ∧ ∃ t', tree'.regions.head? = some t' ∧ t.Matches V B t' := by
  obtain ⟨id, op, regions⟩ := tree
  obtain ⟨id', op', regions'⟩ := tree'
  obtain ⟨hop, hregions⟩ := h
  obtain ⟨rest, rfl⟩ := List.head?_eq_some_iff.mp hbody
  obtain ⟨t', rest', ht, -, rfl⟩ := List.forall₂_cons_left_iff.mp (RegionTree.allMatch_iff.mp hregions)
  exact ⟨hop, t', rfl, ht⟩

end Matches

namespace Pipeline

variable {text : String} {verify : Bool} {lowered : Lowered} {ctx ctx' : Context} {id : OpId}
  {tree : OpTree} {t : RegionTree} {result : Engine.Result} {s : Progress} {image : OpId → OpId}
  {subst : ValueId → ValueId}

theorem lower_of_tupleFree (hparse : Context.parse {} text = (.ok tree.id, ctx))
    (hp : ctx.Program tree) (hmodule : tree.op.is "core" "module")
    (hbody : tree.regions.head? = some t) (ht : t.TupleFree) (verify : Bool) :
    lower text verify = .ok ⟨tree.text, ⟨0, 0⟩⟩ := by
  have hc := hp.confined hbody
  have hregion := hp.held.body_of_head hbody
  obtain ⟨hscopes, huses⟩ := hp.reports hregion
  have hisModule : ctx.isModule tree.id = .ok true := by
    simp [Context.isModule, Context.op_eq_ok.mpr hp.held.op?_id, hmodule, pure, Except.pure]
  have hprint : ctx.print tree.id = .ok tree.text :=
    Context.print_of_opTree (Context.opTree_eq_ok_iff.mpr ⟨rfl, hp.held⟩)
  have hreport : (if verify then ctx.validateUses tree.id else pure {}) = .ok {} := by
    cases verify
    · rfl
    · exact huses
  have hrun : TupleLowering.run ctx tree.id verify = .ok (.ok ⟨0, 0⟩, ctx) :=
    TupleLowering.run_eq_ok_iff.mpr (.inr ⟨t.id, {}, [], {}, hregion,
      Context.convert_of_tupleFree hc ht hregion, Context.leftovers_of_tupleFree hc ht hregion _,
      fun _ => hreport, rfl⟩)
  have hlower : lowerModule ctx tree.id verify = .ok (.ok ⟨tree.text, ⟨0, 0⟩⟩) := by
    cases verify <;> simp [lowerModule, hisModule, hrun, hscopes, hprint, Report.passed, pure, Except.pure]
  rw [lower, hparse]
  simp only [hlower]

theorem Succeeds.regular (h : Succeeds ctx tree verify lowered t ctx' result s image subst)
    (hr : ctx.Reachable) (hio : t.InOrder) (hscoped : t.isScoped []) :
    (tree.withBody ((s.tree t).rename image subst)).Regular := by
  have hheld := (Context.opTree_eq_ok_iff.mp h.opTree).2
  have hs := h.lowers.refines.sound
  obtain ⟨-, -, hattrs, htypes, hargs⟩ := h.program.held.regular hr
  have hmem : t ∈ tree.regions := List.mem_of_mem_head? h.body
  have hops {o : OpId × Op} (ho : o ∈ t.preorder) : o ∈ tree.preorder :=
    Context.Enclosed.mem_tree hmem ho
  have hblocks {b : BlockTree} (hb : b ∈ t.allBlocks) : b ∈ tree.blocks := by
    obtain ⟨o, op, regions⟩ := tree
    exact OpTree.blocks_node _ _ _ ▸ List.mem_flatMap.mpr ⟨t, hmem, hb⟩
  obtain ⟨hforms, hformArgs⟩ := h.lowers.canonical (h.program.confined h.body) hio hscoped
    (fun o ho => htypes o (hops ho)) (fun o ho => hattrs o (hops ho)) fun b hb => hargs b (hblocks hb)
  have hbody : ∀ o ∈ ((s.tree t).rename image subst).preorder,
      (∀ ty ∈ o.2.resultTypes, ty.Canonical) ∧ ∀ e ∈ o.2.attrs, e.2.Canonical := by
    rw [RegionTree.preorder_rename, List.forall_mem_map]
    exact hforms
  have hbodyArgs : ∀ b ∈ ((s.tree t).rename image subst).allBlocks, ∀ a ∈ b.args, a.2.Canonical := by
    rw [RegionTree.allBlocks_rename, List.forall_mem_map]
    rintro ⟨b, args, ops⟩ hb
    rw [BlockTree.rename_node]
    exact List.forall_mem_map.mpr (hformArgs _ hb)
  constructor
  case results => exact fun o ho => hs.typed.results_length (hheld.op?_of_mem_preorder ho)
  case sorted => exact fun o ho => hs.keyed _ _ (hheld.op?_of_mem_preorder ho)
  case attrs =>
    exact fun o ho => (OpTree.mem_preorder_withBody ho).elim (hattrs o) fun ho => (hbody o ho).2
  case resultTypes =>
    exact fun o ho => (OpTree.mem_preorder_withBody ho).elim (htypes o) fun ho => (hbody o ho).1
  case argTypes => exact fun b hb => (OpTree.mem_blocks_withBody hb).elim (hargs b) (hbodyArgs b)

/-- A module that is read back from its text is lowered to one that is lowered to itself, if the types
that stay may be moved. -/
theorem lower_lowered (h : lower text verify = .ok lowered)
    (hparse : Context.parse {} text = (.ok id, ctx)) (htree : ctx.opTree id = .ok tree)
    (hreadable : tree.isReadable) (hscoped : tree.isScoped [] [])
    (hbody : tree.regions.head? = some t) (hmovable : t.kept.IsMovable) (verify' : Bool) :
    lower lowered.text verify' = .ok ⟨lowered.text, ⟨0, 0⟩⟩ := by
  obtain ⟨t, ctx', result, s, image, subst, hs⟩ := exists_succeeds h hparse htree
  obtain ⟨rfl, hheld⟩ := Context.opTree_eq_ok_iff.mp htree
  obtain rfl := Option.some.inj (hs.body.symm.trans hbody)
  have hc := hs.program.confined hbody
  have hio : t.InOrder := Context.inOrder_of_parse hparse hheld rfl t (List.mem_of_mem_head? hbody)
  have hr := Context.Reachable.empty.parse hparse
  obtain ⟨hscopedBody, hscopedWith⟩ := OpTree.isScoped_withBody hbody hscoped
  have hregular := hs.regular hr hio hscopedBody
  have hreadable' : (tree.withBody ((s.tree t).rename image subst)).isReadable := by
    rw [OpTree.isReadable_withBody hbody hreadable, RegionTree.isReadable_rename_iff,
      hs.lowers.isReadable_tree_iff hc hio hscopedBody]
    · exact hmovable
    · obtain ⟨o, op, regions⟩ := tree
      exact (OpTree.isReadable_iff.mp hreadable).2 t (List.mem_of_mem_head? hbody)
  have hscoped' : (tree.withBody ((s.tree t).rename image subst)).isScoped [] [] :=
    hscopedWith (RegionTree.isScoped_rename (hs.lowers.steps.isScoped_tree hc hscopedBody))
  obtain ⟨id', ctx₂, tree₂, hparse₂, htree₂, hiso⟩ := Context.parse_text hs.lowers.refines.sound
    (Context.opTree_eq_ok_iff.mp hs.opTree).2 hregular hreadable' hscoped' .empty
  obtain ⟨tree₃, rfl, hp₂⟩ := Context.program_of_parse hparse₂
  obtain ⟨hid, hheld₂⟩ := Context.opTree_eq_ok_iff.mp htree₂
  obtain rfl := hheld₂.unique hp₂.held hid
  have htext : lowered.text = tree₂.text := by
    rw [hs.text, OpTree.text, OpTree.text, hiso.toSource_eq]
  obtain ⟨V, B, -, -, hmatch⟩ := hiso
  obtain ⟨hop, t₂, hbody₂, hmatchBody⟩ := hmatch.body (OpTree.head?_regions_withBody _ _)
  have hmodule : tree₂.op.is "core" "module" := by
    rw [hop.is]
    have hmodule := hs.isModule
    cases tree
    exact hmodule
  rw [← hs.text] at hparse₂
  rw [lower_of_tupleFree hparse₂ hp₂ hmodule hbody₂ (hmatchBody.tupleFree hs.tupleFree), htext]

/-- A type whose name begins with a word, in a box and as a type that an extraction loses. -/
def boxedText : String :=
  "core.module @m \x7b
  %0 = t.c : box.of(true.x)
  %1 = adt.tuple_new %0 : core.tuple(box.of(true.x))
  %2 = adt.tuple_get %1 \x7bindex = 0\x7d : core.tuple(true.x)
\x7d
"

theorem lower_lowered_boxed : ∃ lowered id ctx tree t, lower boxedText true = .ok lowered ∧
    Context.parse {} boxedText = (.ok id, ctx) ∧ ctx.opTree id = .ok tree ∧ tree.isReadable ∧
    tree.isScoped [] [] ∧ tree.regions.head? = some t ∧ t.kept.IsMovable ∧
    lower lowered.text true = .ok ⟨lowered.text, ⟨0, 0⟩⟩ := by
  obtain ⟨lowered, id, ctx, tree, hlower, hparse, htree, hcheck⟩ := exists_lowered boxedText true
    (fun _ _ _ tree => tree.isReadable && tree.isScoped [] [] &&
      tree.regions.head?.any fun t => decide (RegionTree.IsMovable t.kept)) (by decide +kernel)
  rw [Bool.and_eq_true, Bool.and_eq_true] at hcheck
  obtain ⟨⟨hreadable, hscoped⟩, hcheck⟩ := hcheck
  obtain ⟨t, hbody, hmovable⟩ := (Option.any_eq_true _ _).mp hcheck
  have hmovable := of_decide_eq_true hmovable
  exact ⟨lowered, id, ctx, tree, t, hlower, hparse, htree, hreadable, hscoped, hbody, hmovable,
    lower_lowered hlower hparse htree hreadable hscoped hbody hmovable true⟩

/-- An element whose name begins with a word is read back in its tuple, but not as an attribute of the
struct. -/
theorem not_lower_lowered_of_word : ∃ text id ctx printed id' ctx' lowered,
    Context.parse {} text = (.ok id, ctx) ∧ ctx.print id = .ok printed ∧
    Context.parse {} printed = (.ok id', ctx') ∧ ctx'.print id' = .ok printed ∧
    lower text true = .ok lowered ∧ ∀ again, lower lowered.text true ≠ .ok again := by
  let text := "core.module @m \x7b t.t : core.tuple(true.x) \x7d"
  obtain ⟨lowered, id, ctx, tree, hlower, hparse, htree, hcheck⟩ := exists_lowered text true
    (fun lowered _ _ tree => !(lower lowered.text true).isOk &&
      (Context.parse {} tree.text).1.toOption.any fun id =>
        ((Context.parse {} tree.text).2.print id).toOption.any fun printed =>
          decide (printed = tree.text)) (by decide +kernel)
  rw [Bool.and_eq_true] at hcheck
  obtain ⟨hrefused, hcheck⟩ := hcheck
  obtain ⟨id', hid, hcheck⟩ := except_any_iff.mp hcheck
  obtain ⟨printed, hprint, rfl⟩ := (except_any_iff.mp hcheck).imp fun _ h => h.imp_right of_decide_eq_true
  refine ⟨text, id, ctx, _, id', _, lowered, hparse, Context.print_of_opTree htree,
    by rw [← hid, Prod.mk.eta], hprint, hlower, fun again hagain => ?_⟩
  simp [hagain, Except.isOk, Except.toBool] at hrefused

end Pipeline

end RegionIR
