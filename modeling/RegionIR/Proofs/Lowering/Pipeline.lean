import RegionIR.Pipeline
import RegionIR.Proofs.Lowering.WellTyped
import RegionIR.Proofs.Source.Printing
import RegionIR.Proofs.Source.Validity

/-! A text that is lowered.

An accepted text denotes a program, and what is printed in the end is this program with the body
lowered: the module operation and its further regions are as they were. -/

namespace RegionIR

/-- The tree with another first region. -/
def OpTree.withBody (r : RegionTree) : OpTree → OpTree
  | .node id op regions => .node id op (r :: regions.tail)

theorem OpTree.head?_regions_withBody (r : RegionTree) (t : OpTree) :
    (t.withBody r).regions.head? = some r := by
  cases t
  rfl

namespace Context

variable {ctx ctx' cur : Context} {tree : OpTree} {t : RegionTree} {forms : OpId → Op}
  {image : OpId → OpId} {subst : ValueId → ValueId} {s : Progress} {m : OpId}
  {result : Engine.Result} {left : List Leftover}

theorem Refines.agrees (hc : ctx.Confined t) (h : ctx.Refines t forms cur image subst)
    {ops : List OpId} {blocks : List BlockId} (hops : ∀ o ∈ ops, o ∉ t.opIds)
    (hblocks : ∀ b ∈ blocks, b ∉ t.blockIds) : ctx.Agrees cur ops blocks := by
  have hblock {b : BlockId} {block : Block} (hb : b ∈ blocks) (hblk : ctx.block? b = some block) :
      cur.block? b = some block := by
    rw [h.block? hblk, if_neg (hblocks b hb)]
  constructor
  case op? => exact fun ho hop => h.outside (hops _ ho) hop
  case block? => exact fun hb hblk => ⟨_, hblock hb hblk, rfl, rfl⟩
  case region? => exact fun hr => ⟨_, (h.region? _).trans hr, rfl⟩
  case value? =>
    intro b block v value hb hblk hv hval
    obtain ⟨i, hi⟩ := List.mem_iff_getElem?.mp hv
    obtain ⟨ty, hty, hval₁⟩ := hc.sound.typed.argument hblk hi
    obtain ⟨ty', hty', hval₂⟩ := h.sound.typed.argument (hblock hb hblk) hi
    rw [hty] at hty'
    cases Option.some.inj hty'
    exact hval₂.trans (hval₁.symm.trans hval)

theorem Refines.heldBy_withBody (hc : ctx.Confined t) (h : ctx.Refines t forms cur image subst)
    (htree : tree.HeldBy ctx) (hbody : tree.regions.head? = some t) {u : RegionTree}
    (hid : u.id = t.id) (hu : u.HeldBy cur) : (tree.withBody u).HeldBy cur := by
  have hops := htree.regions_nodup hc.sound.linked
  have hblocks := htree.blocks_nodup hc.sound.linked
  obtain ⟨ho, hrs, hall⟩ := htree
  rename_i id op regions
  obtain ⟨rest, rfl⟩ : ∃ rest, regions = t :: rest := by
    simpa [OpTree.regions, List.head?_eq_some_iff] using hbody
  simp only [OpTree.id, OpTree.regions, List.flatMap_cons, List.mem_append, not_or,
    List.pairwise_cons] at hops
  rw [OpTree.blocks_node, List.flatMap_cons, List.map_append, List.nodup_append] at hblocks
  refine .node (h.outside hops.1.1 ho) ?_ ?_
  · rw [hrs, List.tail_cons, List.map_cons, List.map_cons, hid]
  · refine List.forall_mem_cons.mpr ⟨hu, fun r hr => ?_⟩
    have hagrees : ctx.Agrees cur r.opIds r.blockIds := by
      refine h.agrees hc (fun o ho ht => hops.2.2.1 r hr ht ho) fun b hb ht => ?_
      refine hblocks.2.2 b ht b ?_ rfl
      rw [List.map_flatMap]
      exact List.mem_flatMap.mpr ⟨r, hr, hb⟩
    exact hagrees.region_heldBy r (List.Subset.refl _) (List.Subset.refl _)
      (hall r (List.mem_cons_of_mem _ hr))

namespace Program

theorem confined (h : ctx.Program tree) (hbody : tree.regions.head? = some t) : ctx.Confined t :=
  confined_of_validate h.sound (fun _ he => h.grounded.recorded h.sound he) h.held hbody h.validate
    rfl

theorem exists_lowers (h : ctx.Program tree) (hbody : tree.regions.head? = some t) :
    ∃ ctx' result left s image subst,
      ctx.Lowers tree.id t ctx' result left s image subst :=
  exists_lowers_of_tree (h.confined hbody) h.held hbody

theorem opTree_of_lowers (h : ctx.Program tree) (hbody : tree.regions.head? = some t)
    (hl : ctx.Lowers tree.id t ctx' result left s image subst) :
    ctx'.opTree tree.id = .ok (tree.withBody ((s.tree t).rename image subst)) := by
  have hid : ((s.tree t).rename image subst).id = t.id :=
    (RegionTree.id_rename _).trans (RegionTree.id_recast t)
  have hheld := hl.refines.heldBy_withBody (h.confined hbody) h.held hbody hid hl.held
  obtain ⟨id, op, regions⟩ := tree
  exact opTree_eq_ok_iff.mpr ⟨rfl, hheld⟩

end Program

theorem Lowers.of_run (h : ctx.Lowers m t ctx' result left s image subst) {body : RegionId}
    (hbody : ctx.body m = .ok (some body)) {verify : Bool} {stats : TupleLowering.Stats}
    {last : Context} (hrun : TupleLowering.run ctx m verify = .ok (.ok stats, last)) :
    left = [] ∧ last = ctx' ∧ stats = ⟨result.rewrites, result.retyped⟩ := by
  rcases TupleLowering.run_eq_ok_iff.mp hrun with
    ⟨hnone, -⟩ | ⟨_, _, _, report, -, hconvert, hleft, -, hverdict⟩
  · simp [hbody] at hnone
  · obtain ⟨rfl, rfl⟩ := Prod.mk.inj (Except.ok.inj (h.converts.symm.trans hconvert))
    obtain rfl := Except.ok.inj (h.leftovers.symm.trans hleft)
    obtain ⟨hnil, -, hstats⟩ := TupleLowering.verdict_eq_ok_iff.mp hverdict.symm
    exact ⟨hnil, rfl, hstats.symm⟩

end Context

namespace Pipeline

variable {text : String} {verify : Bool} {lowered : Lowered} {ctx : Context} {id : OpId}

theorem lowerModule_of_lower (h : lower text verify = .ok lowered)
    (hparse : Context.parse {} text = (.ok id, ctx)) :
    lowerModule ctx id verify = .ok (.ok lowered) := by
  simp only [lower, hparse] at h
  split at h
  · simp at h
  · simp at h
  · rename_i hlower
    rw [hlower, Except.ok.inj h]

theorem run_of_lowerModule (h : lowerModule ctx id verify = .ok (.ok lowered)) :
    ctx.isModule id = .ok true ∧ ∃ ctx', TupleLowering.run ctx id verify =
      .ok (.ok lowered.stats, ctx') ∧ ctx'.print id = .ok lowered.text := by
  obtain ⟨isModule, hmodule, h⟩ := except_bind_eq_ok.mp h
  cases isModule with
  | false => simp [pure, Except.pure] at h
  | true =>
    refine ⟨hmodule, ?_⟩
    simp only [Bool.not_true, Bool.false_eq_true, if_false] at h
    obtain ⟨⟨answer, ctx'⟩, hrun, h⟩ := except_bind_eq_ok.mp h
    cases answer with
    | error e => simp [pure, Except.pure] at h
    | ok stats =>
      have hreturn {report : Report} (hr : (if report.passed then do
          return .ok ⟨← ctx'.print id, stats⟩
          else return .error (.invalidModule report.text) :
            Except Fault (Except LoweringError Lowered)) = .ok (.ok lowered)) :
          stats = lowered.stats ∧ ctx'.print id = .ok lowered.text := by
        split at hr
        · obtain ⟨printed, hprint, hr⟩ := except_bind_eq_ok.mp hr
          simp only [except_pure_eq_ok, Except.ok.injEq] at hr
          rw [hprint, ← hr]
          exact ⟨rfl, rfl⟩
        · simp [pure, Except.pure] at hr
      have hend : stats = lowered.stats ∧ ctx'.print id = .ok lowered.text := by
        cases verify
        · exact @hreturn {} h
        · simp only [if_true] at h
          obtain ⟨report, -, h⟩ := except_bind_eq_ok.mp h
          exact hreturn h
      exact ⟨ctx', hend.1 ▸ hrun, hend.2⟩

/-- The program `tree` is lowered with success: its body `t` ends up in `ctx'`, and that is
printed. -/
structure Succeeds (ctx : Context) (tree : OpTree) (verify : Bool) (lowered : Lowered)
    (t : RegionTree) (ctx' : Context) (result : Engine.Result) (s : Progress)
    (image : OpId → OpId) (subst : ValueId → ValueId) : Prop where
  program : ctx.Program tree
  isModule : tree.op.is "core" "module"
  body : tree.regions.head? = some t
  lowers : ctx.Lowers tree.id t ctx' result [] s image subst
  run : TupleLowering.run ctx tree.id verify = .ok (.ok lowered.stats, ctx')
  stats : lowered.stats = ⟨result.rewrites, result.retyped⟩
  opTree : ctx'.opTree tree.id = .ok (tree.withBody ((s.tree t).rename image subst))
  text : lowered.text = (tree.withBody ((s.tree t).rename image subst)).text

theorem exists_succeeds (h : lower text verify = .ok lowered)
    (hparse : Context.parse {} text = (.ok id, ctx)) {tree : OpTree}
    (htree : ctx.opTree id = .ok tree) :
    ∃ t ctx' result s image subst,
      Succeeds ctx tree verify lowered t ctx' result s image subst := by
  obtain ⟨hmodule, ctx₁, hrun, hprint⟩ := run_of_lowerModule (lowerModule_of_lower h hparse)
  obtain ⟨tree₁, hid, hprogram⟩ := Context.program_of_parse hparse
  obtain ⟨rfl, hheld⟩ := Context.opTree_eq_ok_iff.mp htree
  obtain rfl := hprogram.held.unique hheld hid
  have hbody := hheld.body
  cases hhead : tree₁.regions.head? with
  | none =>
    rw [hhead] at hbody
    simp [TupleLowering.run, hbody, pure, Except.pure] at hrun
  | some t =>
    rw [hhead, Option.map_some] at hbody
    obtain ⟨ctx', result, left, s, image, subst, hl⟩ := hprogram.exists_lowers hhead
    obtain ⟨rfl, rfl, hstats⟩ := hl.of_run hbody hrun
    have hlast := hprogram.opTree_of_lowers hhead hl
    rw [Context.print_of_opTree hlast, Except.ok.injEq] at hprint
    refine ⟨t, ctx₁, result, s, image, subst, hprogram, ?_, hhead, hl, hrun, hstats, hlast,
      hprint.symm⟩
    simpa [Context.isModule, Context.op_eq_ok.mpr hheld.op?_id, pure, Except.pure] using hmodule

/-- Whether a text is lowered and what it denotes has a property can be computed. -/
theorem exists_lowered (text : String) (verify : Bool) (p : Lowered → Context → OpId → OpTree → Bool)
    (h : (lower text verify).toOption.any fun lowered =>
      (Context.parse {} text).1.toOption.any fun id =>
        ((Context.parse {} text).2.opTree id).toOption.any fun tree =>
          p lowered (Context.parse {} text).2 id tree) :
    ∃ lowered id ctx tree, lower text verify = .ok lowered ∧
      Context.parse {} text = (.ok id, ctx) ∧ ctx.opTree id = .ok tree ∧ p lowered ctx id tree := by
  obtain ⟨lowered, hlower, h⟩ := except_any_iff.mp h
  obtain ⟨id, hid, h⟩ := except_any_iff.mp h
  obtain ⟨tree, htree, h⟩ := except_any_iff.mp h
  exact ⟨lowered, id, _, tree, hlower, by rw [← hid, Prod.mk.eta], htree, h⟩

end Pipeline

end RegionIR
