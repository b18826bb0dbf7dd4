import RegionIR.Proofs.Context.Reachable
import RegionIR.Proofs.Rewrite.Fixpoints

/-! A conversion as a whole.

Whatever the patterns do to the operations of a module, its blocks are as the retyping of the
arguments has left them. If the queue is empty in the end, every operation that then stands in the
body of the module is settled, and the reasons listed are those the patterns would give again. -/

namespace RegionIR

theorem Run.lookup_attachedDeclines {r : Run} {l : List (OpId × Decline)} (htidy : r.Tidy)
    (h : r.attachedDeclines = .ok l) {o : OpId} {b : BlockId} (hst : r.ctx.Stands o b) :
    l.lookup o = r.declines.lookup o := by
  simp only [attachedDeclines, except_bind_eq_ok, except_pure_eq_ok] at h
  obtain ⟨kept, hkept, rfl⟩ := h
  let p (d : OpId × Decline) : Bool := ((r.ctx.op? d.1).bind Op.parent).isSome
  have hall : ∀ d ∈ r.declines, r.ctx.isAttached d.1 = .ok (p d) := by
    intro d hd
    obtain ⟨attached, hd⟩ := forall_ok_of_filterM hkept d hd
    rw [hd]
    simp only [Context.isAttached, except_bind_eq_ok, Context.op_eq_ok, except_pure_eq_ok] at hd
    obtain ⟨op, hop, rfl⟩ := hd
    simp [p, hop]
  rw [filterM_of_ok hall, Except.ok.injEq] at hkept
  subst hkept
  have hperm := List.mergeSort_perm (r.declines.filter p) fun a b => decide (a.1.index ≤ b.1.index)
  have hnodup : (((r.declines.filter p).mergeSort fun a b =>
      decide (a.1.index ≤ b.1.index)).map Prod.fst).Nodup :=
    (hperm.map Prod.fst).nodup_iff.mpr (htidy.sublist (List.filter_sublist.map Prod.fst))
  refine Option.ext fun d => ?_
  rw [lookup_eq_some_iff_mem hnodup, lookup_eq_some_iff_mem htidy, hperm.mem_iff, List.mem_filter]
  obtain ⟨op, ho, hp⟩ := hst
  simp [p, ho, hp]

namespace Context

variable {ctx : Context} {m : OpId} {tree : OpTree} {t : RegionTree}

/-- `t` is the body of the module `m`, and no operation occurs twice in it. -/
structure BodyOf (ctx : Context) (m : OpId) (t : RegionTree) : Prop where
  sound : ctx.Sound
  held : t.HeldBy ctx
  nodup : t.opIds.Nodup
  region : ctx.body m = .ok (some t.id)

theorem bodyOf_of_head (hs : ctx.Sound) (htree : tree.HeldBy ctx)
    (hbody : tree.regions.head? = some t) : ctx.BodyOf tree.id t :=
  have hmem := List.mem_of_mem_head? hbody
  ⟨hs, htree.region hmem, (htree.regions_nodup hs.linked).2.1 t hmem, htree.body_of_head hbody⟩

theorem wired_of_validate (hs : ctx.Sound) (htree : tree.HeldBy ctx)
    (hbody : tree.regions.head? = some t) {report : Report}
    (hvalid : ctx.validate tree.id = .ok report) (hpassed : report.passed) {o : OpId}
    (ho : o ∈ t.opIds) : ctx.Wired o := by
  have hheld := htree.region (List.mem_of_mem_head? hbody)
  obtain ⟨hscopes, huses⟩ := errors_of_validate htree hbody hvalid hpassed
  have hmem {op : Op} (hop : ctx.op? o = some op) : (o, op) ∈ t.preorder := by
    rw [← raw_of_some hop]
    exact hheld.mem_preorder_raw ho
  refine ⟨fun op i v hop hi => ?_, fun hop hv => ?_⟩
  · exact (useErrors_eq_nil_iff.mp huses).1 _ (mem_operandUses.mpr ⟨op, hmem hop, hi⟩)
  · exact exists_value_of_defined hs.typed hheld (defined_of_scopeErrors hscopes _ (hmem hop) _ hv)

end Context

namespace Engine

variable {e : Engine} {ctx ctx' : Context} {m : OpId} {t : RegionTree} {result : Result}
  {r r' : Run}

/-- What every step keeps holds when a run ends, apart from the last operation taken from the
queue. -/
theorem run_invariant {P : Run → Prop} {budget limit : Nat} {ending : Ending}
    (hstep : ∀ r r', P r → e.step budget r = .ok (r', none) → P r') (hr : P r)
    (h : e.run budget limit r = .ok (r', ending)) :
    ∃ r₁ work, P r₁ ∧ r' = { r₁ with work } ∧
      (ending = .drained → r' = r₁ ∧ r₁.work.queue = []) := by
  induction limit generalizing r with
  | zero =>
    simp only [run, except_pure_eq_ok, Prod.mk.injEq] at h
    obtain ⟨rfl, rfl⟩ := h
    exact ⟨r, r.work, hr, rfl, by simp⟩
  | succ limit ih =>
    simp only [run, except_bind_eq_ok] at h
    obtain ⟨⟨r₁, stop⟩, hfirst, h⟩ := h
    cases stop with
    | none => exact ih (hstep r r₁ hr hfirst) h
    | some stop =>
      simp only [except_pure_eq_ok, Prod.mk.injEq] at h
      obtain ⟨rfl, rfl⟩ := h
      unfold step at hfirst
      split at hfirst
      · rename_i hpop
        simp only [except_pure_eq_ok, Prod.mk.injEq, Option.some.injEq] at hfirst
        obtain ⟨rfl, rfl⟩ := hfirst
        refine ⟨r, r.work, hr, rfl, fun _ => ⟨rfl, ?_⟩⟩
        unfold Worklist.pop at hpop
        split at hpop
        · assumption
        · simp at hpop
      · rename_i x work hpop
        simp only [except_bind_eq_ok] at hfirst
        obtain ⟨attached, -, hfirst⟩ := hfirst
        split at hfirst
        · simp at hfirst
        simp only [except_bind_eq_ok] at hfirst
        obtain ⟨legal, -, hfirst⟩ := hfirst
        split at hfirst
        · simp at hfirst
        split at hfirst
        · simp only [except_pure_eq_ok, Prod.mk.injEq, Option.some.injEq] at hfirst
          obtain ⟨rfl, rfl⟩ := hfirst
          exact ⟨r, work, hr, rfl, by simp⟩
        · simp at hfirst

/-- A conversion retypes the arguments of the blocks and then runs, with some limit on its steps. -/
theorem exists_run_of_convert (hc : e.converter.Settles) (hb : ctx.BodyOf m t)
    (h : e.convert ctx m = .ok (ctx', result)) :
    ∃ ctx₁ count limit r ending, ctx.RetypesArgs e.converter ctx₁ t.blockIds ∧
      e.run (e.maxRewrites.getD t.opIds.length) limit
        { ctx := ctx₁, work := .ofList t.opIds, retyped := count } = .ok (r, ending) ∧
      ctx' = r.ctx ∧ result.fixpoint = (ending == .drained) ∧
      r.attachedDeclines = .ok result.declines := by
  have hblocks : ∀ b ∈ t.blockIds, ∃ block, ctx.block? b = some block := by
    intro b hmem
    obtain ⟨s, hm, rfl⟩ := RegionTree.HeldBy.mem_blockIds_iff.mp hmem
    obtain ⟨hblk, -⟩ := hb.held.block hm
    exact ⟨_, hblk⟩
  obtain ⟨ctx₁, count, hargs, hret⟩ := Context.retypeArgs_blocks hc hb.sound hblocks 0
  rw [convert] at h
  obtain ⟨_, hbody', h₁⟩ := except_bind_eq_ok.mp h
  obtain rfl := Except.ok.inj (hb.region.symm.trans hbody')
  obtain ⟨tree, htree, h₂⟩ := except_bind_eq_ok.mp h₁
  obtain rfl := Except.ok.inj ((Context.regionTree_eq_ok_iff.mpr ⟨rfl, hb.held⟩).symm.trans htree)
  obtain ⟨_, hargs', h₃⟩ := except_bind_eq_ok.mp h₂
  obtain rfl := Except.ok.inj (hargs.symm.trans hargs')
  obtain ⟨⟨r, ending⟩, hrun, h₄⟩ := except_bind_eq_ok.mp h₃
  obtain ⟨declines, hdeclines, h₅⟩ := except_bind_eq_ok.mp h₄
  obtain ⟨rfl, rfl⟩ := Prod.mk.inj (except_pure_eq_ok.mp h₅)
  exact ⟨ctx₁, count, _, r, ending, hret, hrun, rfl, rfl, hdeclines⟩

/-- `ctx'` is `ctx` after a conversion of a module with the body `t`. -/
structure Converts (e : Engine) (ctx : Context) (t : RegionTree) (ctx' : Context) : Prop where
  sound : ctx'.Sound
  keeps : ctx.Keeps ctx'
  argTypes {b : BlockId} {block : Block} : b ∈ t.blockIds → ctx'.block? b = some block →
    ∀ ty ∈ block.argTypes, e.converter.convertOrKeep ty = ty

/-- Whether or not a conversion comes to an end by itself, the arguments of the blocks are
converted. -/
theorem converts_of_convert (hc : e.converter.Settles)
    (hps : ∀ p ∈ e.patterns, p.Local e.converter) (hb : ctx.BodyOf m t)
    (h : e.convert ctx m = .ok (ctx', result)) : e.Converts ctx t ctx' := by
  obtain ⟨ctx₁, count, limit, r, ending, hret, hrun, rfl, -⟩ := exists_run_of_convert hc hb h
  obtain ⟨r₁, work, ⟨-, hs₁, hkeeps, hargs⟩, rfl, -⟩ := run_invariant
    (P := fun r => r.work.Ready ∧ r.ctx.Sound ∧ ctx.Keeps r.ctx ∧
      ∀ b, (r.ctx.block? b).map Block.argTypes = (ctx₁.block? b).map Block.argTypes)
    (fun r r' ⟨hready, hs, hkeeps, hargs⟩ hstep => by
      obtain ⟨x, work, -, hadv⟩ := step_advances hps hs hready hstep
      exact ⟨hadv.ready, hadv.spares.sound, hkeeps.trans hadv.spares.keeps,
        fun b => (hadv.spares.block? b).trans (hargs b)⟩)
    ⟨Worklist.ready_ofList hb.nodup, hret.sound, hret.keeps, fun _ => rfl⟩ hrun
  refine ⟨hs₁, hkeeps, fun {b block} hmem hblk ty hty => ?_⟩
  obtain ⟨block₁, hblk₁, htypes⟩ := exists_of_map_eq (hargs b) hblk
  rw [hret.block?, if_pos hmem, Option.map_eq_some_iff] at hblk₁
  obtain ⟨block₀, -, rfl⟩ := hblk₁
  obtain ⟨ty₀, -, rfl⟩ := List.mem_map.mp (htypes ▸ hty)
  exact hc.convertOrKeep ty₀

/-- What stands in the body after a conversion stands in one of the blocks that were there. -/
theorem Converts.exists_body (h : e.Converts ctx t ctx') (hb : ctx.BodyOf m t) :
    ∃ t' : RegionTree, ctx'.body m = .ok (some t'.id) ∧ t'.HeldBy ctx' ∧
      (∀ b ∈ t'.blockIds, b ∈ t.blockIds) ∧
      ∀ o ∈ t'.opIds, ∃ b ∈ t.blockIds, ctx'.Stands o b := by
  obtain ⟨t', hid, ht', hblocks⟩ := h.keeps.exists_tree hb.sound h.sound hb.held
  refine ⟨t', hid ▸ h.keeps.body hb.region, ht', hblocks, fun o ho => ?_⟩
  obtain ⟨b, hb, -, -, -, hparent⟩ := ht'.exists_block h.sound.linked ho
  exact ⟨b, hblocks b hb, _, ht'.op?_raw ho, hparent⟩

theorem mem_opIds_of_stands (hret : ctx.RetypesArgs e.converter ctx' t.blockIds)
    (hbody : ctx.BodyOf m t) {o : OpId} {b : BlockId} (hb : b ∈ t.blockIds)
    (hst : ctx'.Stands o b) : o ∈ t.opIds := by
  obtain ⟨op, ho, hp⟩ := hst
  obtain ⟨block, hblk, hm⟩ := hbody.sound.linked.listed_of_op ((hret.op? o).symm.trans ho) hp
  exact hbody.held.mem_opIds_of_block hb hblk hm

theorem abides_start (hret : ctx.RetypesArgs e.converter ctx' t.blockIds)
    (hbody : ctx.BodyOf m t) (hwired : ∀ o ∈ t.opIds, ctx.Wired o) (count : Nat) :
    Abides e t.blockIds { ctx := ctx', work := .ofList t.opIds, retyped := count } := by
  have hmem {o : OpId} {b : BlockId} (hb : b ∈ t.blockIds) (hst : ctx'.Stands o b) :
      o ∈ t.opIds :=
    mem_opIds_of_stands hret hbody hb hst
  refine ⟨Worklist.ready_ofList hbody.nodup, hret.sound, fun {o b} hb hst => ?_,
    fun hb hst => .inl (hmem hb hst)⟩
  refine (hwired o (hmem hb hst)).of_same (by rw [hret.op?]) (fun _ _ he => ?_)
    fun _ _ hv => hret.value? hv
  rw [hret.ledger]
  exact he

/-- A run that ends with an empty queue has settled every operation of the body. -/
theorem Static.settled_of_convert (he : e.Static) (hbody : ctx.BodyOf m t)
    (hwired : ∀ o ∈ t.opIds, ctx.Wired o) (h : e.convert ctx m = .ok (ctx', result))
    (hfix : result.fixpoint = true) {o : OpId} {b : BlockId} (hb : b ∈ t.blockIds)
    (hst : ctx'.Stands o b) : ctx'.Wired o ∧ e.Settled ctx' o := by
  obtain ⟨ctx₁, count, limit, r, ending, hret, hrun, rfl, hending, -⟩ :=
    exists_run_of_convert he.settles hbody h
  obtain ⟨r₁, work, habides, -, hdrained⟩ := run_invariant
    (P := Abides e t.blockIds) (fun r r' h hstep => he.abides_step h hstep)
    (abides_start hret hbody hwired count) hrun
  obtain ⟨rfl, hempty⟩ := hdrained (by simpa using hending.symm.trans hfix)
  refine ⟨habides.wired hb hst, (habides.settled hb hst).resolve_left ?_⟩
  simp [hempty]

/-- After such a run the reasons listed are those that the patterns would give again. -/
theorem Static.reasonFor_of_convert (he : e.Static) {D : Op → Prop} (hD : e.Explains D)
    (hbody : ctx.BodyOf m t) (hwired : ∀ o ∈ t.opIds, ctx.Wired o)
    (h : e.convert ctx m = .ok (ctx', result)) (hfix : result.fixpoint = true) {o : OpId}
    {b : BlockId} (hb : b ∈ t.blockIds) (hst : ctx'.Stands o b) :
    result.reasonFor o = complaint e.converter ctx' o e.patterns := by
  obtain ⟨ctx₁, count, limit, r, ending, hret, hrun, rfl, hending, hdeclines⟩ :=
    exists_run_of_convert he.settles hbody h
  have hstart : Annotates e D t.blockIds
      { ctx := ctx₁, work := .ofList t.opIds, retyped := count } :=
    ⟨List.nodup_nil, fun _ => rfl, fun _ _ _ hne => absurd rfl hne,
      fun hb hst => .inl (mem_opIds_of_stands hret hbody hb hst)⟩
  obtain ⟨r₁, work, ⟨-, hnotes⟩, -, hdrained⟩ := run_invariant
    (P := fun r => Abides e t.blockIds r ∧ Annotates e D t.blockIds r)
    (fun r r' h hstep => ⟨he.abides_step h.1 hstep, he.annotates_step hD h.1 h.2 hstep⟩)
    ⟨abides_start hret hbody hwired count, hstart⟩ hrun
  obtain ⟨rfl, hempty⟩ := hdrained (by simpa using hending.symm.trans hfix)
  rw [Result.reasonFor, Run.lookup_attachedDeclines hnotes.tidy hdeclines hst]
  refine (hnotes.current hb hst).resolve_left ?_
  simp [hempty]

/-- An operation that is settled is legal, or else no pattern rewrites it and, unless a rule names
it illegal, nothing changes when it is retyped. -/
theorem settled_iff (hs : ctx.Sound) {o : OpId} {op : Op} (ho : ctx.op? o = some op) :
    e.Settled ctx o ↔ e.target.isLegal ctx o = .ok true ∨
      (e.Quiet ctx o ∧ (e.target.isNamedIllegal ctx o = .ok true ∨
        ∃ ctx', retypeOp e.converter ctx o = .ok (ctx', false))) := by
  have hnamed : e.target.isNamedIllegal ctx o = .ok true ↔
      e.target.staticRule op = some false := by
    simp [Target.isNamedIllegal, ho]
  obtain ⟨ctx', hret, -⟩ := Context.retypeOp_eq e.converter hs ho
  have hsame : (∃ ctx', retypeOp e.converter ctx o = .ok (ctx', false)) ↔
      op.retypedBy e.converter = op := by
    simp [hret]
  rw [hnamed, hsame]
  constructor
  · rintro (hlegal | ⟨ho', hq, hrule⟩)
    · exact .inl hlegal
    · obtain rfl := Option.some.inj (ho.symm.trans ho')
      exact .inr ⟨hq, hrule⟩
  · rintro (hlegal | ⟨hq, hrule⟩)
    · exact .legal hlegal
    · exact .stuck ho hq hrule

end Engine

end RegionIR
