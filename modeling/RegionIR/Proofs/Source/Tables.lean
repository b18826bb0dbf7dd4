import RegionIR.Proofs.Source.Passes
import RegionIR.Source.Arena

/-! The tables beside a context.

Resolving a program in a context and resolving it in the context together with its tables is the same,
but for the tables, and these only get longer, wherever resolving ends. -/

namespace RegionIR

namespace Build

variable {α β : Type}

section Runs

variable {arena arena' : Arena}

theorem run_bind_ok {x : Build α} {f : α → Build β} {a : α} (h : x.run.run arena = (.ok a, arena')) :
    (x >>= f).run.run arena = (f a).run.run arena' := by
  change (match x.run.run arena with | (s, arena₁) => (ExceptT.bindCont f s).run arena₁) = _
  rw [h]
  rfl

theorem run_bind_error {x : Build α} {f : α → Build β} {e : ResolveError}
    (h : x.run.run arena = (.error e, arena')) : (x >>= f).run.run arena = (.error e, arena') := by
  change (match x.run.run arena with | (s, arena₁) => (ExceptT.bindCont f s).run arena₁) = _
  rw [h]
  rfl

end Runs

/-- From every arena the pass comes to the same as the other one in its context, at an error too. It
leaves the paths as they are, and types that come after those that were there. -/
def Mirrors (m : Build α) (m' : Resolve α) : Prop :=
  ∀ (arena : Arena) ⦃r ctx'⦄, Resolve.Leaves m' arena.ctx r ctx' →
    ∃ types : TypeTable, arena.types.entries.toList <+: types.entries.toList ∧
      m.run.run arena = (r, ⟨ctx', types, arena.paths⟩)

theorem mirrors_pure (a : α) : Mirrors (pure a) (pure a) := by
  intro arena r ctx' h
  obtain ⟨rfl, rfl⟩ := Resolve.leaves_pure.mp h
  exact ⟨arena.types, List.prefix_rfl, rfl⟩

theorem mirrors_resolve (m : Resolve α) : Mirrors (resolve m) m := by
  intro arena r ctx' h
  have hrun : m.run.run arena.ctx = (r, ctx') := h
  refine ⟨arena.types, List.prefix_rfl, ?_⟩
  change (((m.run.run arena.ctx).1, { arena with ctx := (m.run.run arena.ctx).2 }) :
    Except ResolveError α × Arena) = _
  rw [hrun]

theorem Mirrors.bind {x : Build α} {x' : Resolve α} {f : α → Build β} {f' : α → Resolve β}
    (hx : Mirrors x x') (hf : ∀ a, Mirrors (f a) (f' a)) : Mirrors (x >>= f) (x' >>= f') := by
  intro arena r ctx' h
  rcases Resolve.leaves_bind.mp h with ⟨e, he, rfl⟩ | ⟨a, ctx₁, ha, hrest⟩
  · obtain ⟨types, hprefix, hrun⟩ := hx arena he
    exact ⟨types, hprefix, run_bind_error hrun⟩
  · obtain ⟨types₁, hprefix₁, hrun₁⟩ := hx arena ha
    obtain ⟨types, hprefix, hrun⟩ := hf a ⟨ctx₁, types₁, arena.paths⟩ hrest
    exact ⟨types, hprefix₁.trans hprefix, (run_bind_ok hrun₁).trans hrun⟩

/-- Types are put in their table without a trace in the context. -/
theorem Mirrors.intern {m : Build α} {m' : Resolve α} (hm : Mirrors m m') {f : TypeTable → TypeTable}
    (hf : ∀ table, table.entries.toList <+: (f table).entries.toList) :
    Mirrors (do intern f; m) m' := by
  intro arena r ctx' h
  obtain ⟨types, hprefix, hrun⟩ := hm { arena with types := f arena.types } h
  exact ⟨types, (hf arena.types).trans hprefix, hrun⟩

theorem Mirrors.internTypes {m : Build α} {m' : Resolve α} (hm : Mirrors m m') (types : List Ty) :
    Mirrors (do internTypes types; m) m' :=
  hm.intern fun table => table.prefix_internTrees types

theorem Mirrors.internAttrs {m : Build α} {m' : Resolve α} (hm : Mirrors m m')
    (attrs : List (String × Attr Ty)) : Mirrors (do internAttrs attrs; m) m' :=
  hm.intern fun table => table.prefix_internEntries attrs

theorem mirrors_openBlocks (h : SourceHead) (seen : List String) (scope : Scope)
    (blocks : List SourceBlock) :
    Mirrors (openBlocks h seen scope blocks) (Resolve.openBlocks h seen scope blocks) := by
  induction blocks generalizing seen scope with
  | nil => exact mirrors_pure _
  | cons block blocks ih =>
    obtain ⟨label, args, ops⟩ := block
    have hrest := ((mirrors_resolve (Resolve.createBlock (args.map fun a => a.2.canonical))).bind
      fun b => (mirrors_resolve (Resolve.argsOf b)).bind fun vs =>
        (mirrors_resolve (Resolve.defineValues h { scope with blocks := (label, b) :: scope.blocks }
          (args.map Prod.fst) vs)).bind fun scope => (ih (label :: seen) scope).bind fun p =>
            mirrors_pure (b :: p.1, p.2)).internTypes (args.map Prod.snd)
    unfold openBlocks Resolve.openBlocks
    split
    · exact (mirrors_resolve _).bind fun _ => hrest
    · exact hrest

mutual

theorem mirrors_op : ∀ (s : SourceOp) (scope : Scope), Mirrors (op scope s) (Resolve.op scope s)
  | .mk h regions, scope =>
    (mirrors_resolve _).bind fun _ => (mirrors_resolve _).bind fun _ => (mirrors_resolve _).bind fun _ =>
      (((mirrors_regionsOf regions h scope).bind fun _ => (mirrors_resolve _).bind fun _ =>
        (mirrors_resolve _).bind fun _ => (mirrors_resolve _).bind fun _ =>
          mirrors_pure _).internAttrs h.attrs).internTypes h.resultTypes

theorem mirrors_region : ∀ (r : SourceRegion) (h : SourceHead) (scope : Scope),
    Mirrors (region h scope r) (Resolve.region h scope r)
  | .mk blocks, h, scope =>
    (mirrors_openBlocks h [] scope blocks).bind fun (ids, scope) =>
      (mirrors_fillBlocks blocks scope ids).bind fun _ => mirrors_resolve _

theorem mirrors_regionsOf : ∀ (l : List SourceRegion) (h : SourceHead) (scope : Scope),
    Mirrors (regionsOf h scope l) (Resolve.regionsOf h scope l)
  | [], _, _ => mirrors_pure _
  | r :: rest, h, scope =>
    (mirrors_region r h scope).bind fun _ => (mirrors_regionsOf rest h scope).bind fun _ =>
      mirrors_pure _

theorem mirrors_fillBlocks : ∀ (l : List SourceBlock) (scope : Scope) (ids : List BlockId),
    Mirrors (fillBlocks scope l ids) (Resolve.fillBlocks scope l ids)
  | [], _, [] => mirrors_pure _
  | [], _, _ :: _ => mirrors_pure _
  | .mk _ _ _ :: _, _, [] => mirrors_pure _
  | .mk _ _ ops :: rest, scope, b :: ids =>
    (mirrors_fillBlock ops scope b).bind fun scope => mirrors_fillBlocks rest scope ids

theorem mirrors_fillBlock : ∀ (l : List SourceOp) (scope : Scope) (b : BlockId),
    Mirrors (fillBlock scope b l) (Resolve.fillBlock scope b l)
  | [], _, _ => mirrors_pure _
  | o :: rest, scope, b =>
    (mirrors_op o scope).bind fun (_, scope) =>
      (mirrors_resolve _).bind fun _ => mirrors_fillBlock rest scope b

end

end Build

namespace Arena

/-- Parsing into an arena is parsing into its context. What its tables have is there afterwards, under
the same number, whether the text is accepted or not. -/
theorem parse_eq (arena : Arena) (text : String) : ∃ (types : TypeTable) (paths : Table String),
    arena.types.entries.toList <+: types.entries.toList ∧
      arena.paths.entries.toList <+: paths.entries.toList ∧
      arena.parse text = ((arena.ctx.parse text).1, ⟨(arena.ctx.parse text).2, types, paths⟩) := by
  unfold parse Context.parse
  cases SourceOp.parse text with
  | error e => exact ⟨arena.types, arena.paths, List.prefix_rfl, List.prefix_rfl, rfl⟩
  | ok source =>
    let paths := (arena.paths.intern Resolve.textPath).1
    obtain ⟨⟨r, ctx'⟩, hleaves⟩ :
        ∃ s, (Resolve.op {} source).run.run arena.ctx = s := ⟨_, rfl⟩
    obtain ⟨types, hprefix, hrun⟩ :=
      Build.mirrors_op source {} ⟨arena.ctx, arena.types, paths⟩ hleaves
    refine ⟨types, paths, hprefix, arena.paths.prefix_intern _, ?_⟩
    simp only
    rw [hrun, hleaves]

end Arena

end RegionIR
