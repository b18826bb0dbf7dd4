import RegionIR.Proofs.Context.Reachable
import RegionIR.Source.Parse

/-! Passes over a context that end without an error.

A pass that ends gives a value and the context that it leaves. Its parts can be looked at one by one,
and every context on its way is reachable if the first one is. -/

namespace RegionIR

section Induction

variable {P : SourceOp → Prop} {Q : SourceRegion → Prop} {R : SourceBlock → Prop}
  (hop : ∀ head regions, (∀ r ∈ regions, Q r) → P (.mk head regions))
  (hregion : ∀ blocks, (∀ b ∈ blocks, R b) → Q (.mk blocks))
  (hblock : ∀ label args ops, (∀ o ∈ ops, P o) → R (.mk label args ops))

include hop hregion hblock

theorem SourceOp.forall_of (o : SourceOp) : P o := by
  refine @SourceOp.rec P Q R (fun l => ∀ r ∈ l, Q r) (fun l => ∀ b ∈ l, R b) (fun l => ∀ o ∈ l, P o)
    hop hregion hblock ?_ ?_ ?_ ?_ ?_ ?_ o
  · simp
  · exact fun _ _ hr hrs => List.forall_mem_cons.mpr ⟨hr, hrs⟩
  · simp
  · exact fun _ _ hb hbs => List.forall_mem_cons.mpr ⟨hb, hbs⟩
  · simp
  · exact fun _ _ ho hos => List.forall_mem_cons.mpr ⟨ho, hos⟩

end Induction

namespace Resolve

variable {α β : Type} {ctx ctx' : Context}

/-- What comes of the pass, and the context that it leaves. -/
def Leaves (m : Resolve α) (ctx : Context) (r : Except ResolveError α) (ctx' : Context) : Prop :=
  @Eq (Except ResolveError α × Context) (m.run.run ctx) (r, ctx')

/-- The pass ends with a value and a context. -/
def Gives (m : Resolve α) (ctx : Context) (a : α) (ctx' : Context) : Prop :=
  Leaves m ctx (.ok a) ctx'

section Outcomes

variable {r : Except ResolveError α}

theorem leaves_pure {a : α} : Leaves (pure a) ctx r ctx' ↔ r = .ok a ∧ ctx = ctx' := by
  change ((Except.ok a, ctx) : Except ResolveError α × Context) = (r, ctx') ↔ _
  rw [Prod.mk.injEq, eq_comm (a := r)]

theorem leaves_throw {e : ResolveError} :
    Leaves (throw e : Resolve α) ctx r ctx' ↔ r = .error e ∧ ctx = ctx' := by
  change ((Except.error e, ctx) : Except ResolveError α × Context) = (r, ctx') ↔ _
  rw [Prod.mk.injEq, eq_comm (a := r)]

theorem leaves_bind {x : Resolve α} {f : α → Resolve β} {r : Except ResolveError β} :
    Leaves (x >>= f) ctx r ctx' ↔ (∃ e, Leaves x ctx (.error e) ctx' ∧ r = .error e) ∨
      ∃ a ctx₁, Gives x ctx a ctx₁ ∧ Leaves (f a) ctx₁ r ctx' := by
  have hrun (s : Except ResolveError α × Context) (hs : x.run.run ctx = s) :
      (x >>= f).run.run ctx = (ExceptT.bindCont f s.1).run s.2 := by
    change (match x.run.run ctx with | (s, ctx₁) => (ExceptT.bindCont f s).run ctx₁) = _
    rw [hs]
  unfold Gives Leaves
  obtain ⟨⟨e | a, ctx₁⟩, hs⟩ : ∃ s : Except ResolveError α × Context, x.run.run ctx = s := ⟨_, rfl⟩
  · rw [hrun _ hs, hs]
    change ((Except.error e, ctx₁) : Except ResolveError β × Context) = (r, ctx') ↔ _
    simp only [Prod.mk.injEq, Except.error.injEq, reduceCtorEq, false_and]
    constructor
    · rintro ⟨rfl, rfl⟩
      exact .inl ⟨e, ⟨rfl, rfl⟩, rfl⟩
    · rintro (⟨e', ⟨rfl, rfl⟩, rfl⟩ | ⟨_, _, hfalse⟩)
      · exact ⟨rfl, rfl⟩
      · exact hfalse.elim
  · rw [hrun _ hs, hs]
    change (f a).run.run ctx₁ = (r, ctx') ↔ _
    simp [and_assoc]

theorem leaves_edit {f : Context → Except Fault (α × Context)} :
    Leaves (edit f) ctx r ctx' ↔ (∃ a, f ctx = .ok (a, ctx') ∧ r = .ok a) ∨
      ∃ fault, f ctx = .error fault ∧ r = .error (.fault fault) ∧ ctx = ctx' := by
  have hrun : Leaves (edit f) ctx r ctx' ↔ Leaves (edit fun _ => f ctx) ctx r ctx' := Iff.rfl
  rw [hrun]
  cases f ctx with
  | error fault =>
    change ((Except.error (.fault fault), ctx) : Except ResolveError α × Context) = (r, ctx') ↔ _
    simp [eq_comm (b := r)]
  | ok s =>
    change ((Except.ok s.1, s.2) : Except ResolveError α × Context) = (r, ctx') ↔ _
    rw [Prod.mk.injEq]
    simp [Prod.ext_iff, eq_comm (b := r), and_comm]

end Outcomes

theorem gives_pure {a b : α} : Gives (pure a) ctx b ctx' ↔ a = b ∧ ctx = ctx' := by
  rw [Gives, leaves_pure, Except.ok.injEq, eq_comm (a := b)]

theorem gives_bind {x : Resolve α} {f : α → Resolve β} {b : β} :
    Gives (x >>= f) ctx b ctx' ↔ ∃ a ctx₁, Gives x ctx a ctx₁ ∧ Gives (f a) ctx₁ b ctx' := by
  rw [Gives, leaves_bind]
  simp [Gives]

theorem gives_throw {e : ResolveError} {a : α} : ¬ Gives (throw e : Resolve α) ctx a ctx' := by
  rw [Gives, leaves_throw]
  simp

theorem gives_reject {h : SourceHead} {message : String} {a : α} :
    ¬ Gives (reject h message) ctx a ctx' :=
  gives_throw

theorem gives_edit {f : Context → Except Fault (α × Context)} {a : α} :
    Gives (edit f) ctx a ctx' ↔ f ctx = .ok (a, ctx') := by
  rw [Gives, leaves_edit]
  simp

theorem gives_read {f : Context → Except Fault α} {a : α} :
    Gives (read f) ctx a ctx' ↔ f ctx = .ok a ∧ ctx = ctx' := by
  unfold read
  rw [gives_edit]
  simp

theorem gives_createBlock {argTypes : List Ty} {b : BlockId} :
    Gives (createBlock argTypes) ctx b ctx' ↔ ctx.createBlock argTypes = (ctx', b) := by
  unfold createBlock
  rw [gives_edit]
  simp [Prod.ext_iff, and_comm]

theorem gives_createRegion {blocks : List BlockId} {r : RegionId} :
    Gives (createRegion blocks) ctx r ctx' ↔ ctx.createRegion blocks = .ok (ctx', r) := by
  unfold createRegion
  rw [gives_edit]
  simp [and_comm]

theorem gives_createOp {spec : OpSpec} {id : OpId} :
    Gives (createOp spec) ctx id ctx' ↔ ctx.createOp spec = .ok (ctx', id) := by
  unfold createOp
  rw [gives_edit]
  simp [and_comm]

theorem gives_pushOp {b : BlockId} {id : OpId} :
    Gives (pushOp b id) ctx () ctx' ↔ ctx.pushOp b id = .ok ctx' := by
  unfold pushOp
  rw [gives_edit]
  simp

section Opening

variable (h : SourceHead) (seen : List String) (scope : Scope) (label : String)
  (args : List (String × Ty)) (blocks : List SourceBlock)

/-- The blocks of a region are opened, the first of which has a label that was not seen. -/
def openUnseen : Resolve (List BlockId × Scope) := do
  let b ← createBlock (args.map fun a => a.2.canonical)
  let scope := { scope with blocks := (label, b) :: scope.blocks }
  let scope ← defineValues h scope (args.map Prod.fst) (← argsOf b)
  let rest ← openBlocks h (label :: seen) scope blocks
  return (b :: rest.1, rest.2)

variable {h seen scope label args blocks} {ops : List SourceOp}

theorem openBlocks_cons : openBlocks h seen scope (.mk label args ops :: blocks) =
    if label ∈ seen then do
      reject h ("duplicate block label '^" ++ label ++ "'")
      openUnseen h seen scope label args blocks
    else openUnseen h seen scope label args blocks := rfl

theorem gives_openBlocks_cons {r : List BlockId × Scope} :
    Gives (openBlocks h seen scope (.mk label args ops :: blocks)) ctx r ctx' ↔
      label ∉ seen ∧ Gives (openUnseen h seen scope label args blocks) ctx r ctx' := by
  rw [openBlocks_cons]
  split
  · rename_i hseen
    refine iff_of_false (fun hg => ?_) fun hg => hg.1 hseen
    obtain ⟨_, _, hreject, -⟩ := gives_bind.mp hg
    exact gives_reject hreject
  · rename_i hseen
    exact (and_iff_right hseen).symm

end Opening

/-- A pass that leaves a reachable context if it starts from one. -/
def Safe (m : Resolve α) : Prop :=
  ∀ ctx a ctx', ctx.Reachable → Gives m ctx a ctx' → ctx'.Reachable

theorem safe_pure (a : α) : Safe (pure a) := by
  intro ctx b ctx' hr h
  rwa [← (gives_pure.mp h).2]

theorem Safe.bind {x : Resolve α} {f : α → Resolve β} (hx : Safe x) (hf : ∀ a, Safe (f a)) :
    Safe (x >>= f) := by
  intro ctx b ctx' hr h
  obtain ⟨a, ctx₁, hx', hf'⟩ := gives_bind.mp h
  exact hf a ctx₁ b ctx' (hx ctx a ctx₁ hr hx') hf'

theorem safe_reject (h : SourceHead) (message : String) : Safe (reject h message : Resolve α) :=
  fun _ _ _ _ hg => absurd hg gives_reject

theorem safe_read (f : Context → Except Fault α) : Safe (read f) := by
  intro ctx a ctx' hr h
  rwa [← (gives_read.mp h).2]

theorem safe_fault (f : Fault) : Safe (throw (.fault f) : Resolve α) :=
  fun _ _ _ _ hg => absurd hg gives_throw

theorem safe_mapM {f : α → Resolve β} (hf : ∀ a, Safe (f a)) (l : List α) : Safe (l.mapM f) := by
  induction l with
  | nil => exact safe_pure []
  | cons a l ih =>
    rw [List.mapM_cons]
    exact (hf a).bind fun _ => ih.bind fun _ => safe_pure _

theorem safe_createBlock {argTypes : List Ty} (h : ∀ ty ∈ argTypes, ty.Canonical) :
    Safe (createBlock argTypes) := by
  intro ctx b ctx' hr hg
  have hreachable := hr.createBlock argTypes h
  rwa [gives_createBlock.mp hg] at hreachable

theorem safe_createRegion (blocks : List BlockId) : Safe (createRegion blocks) :=
  fun _ _ _ hr hg => hr.createRegion (gives_createRegion.mp hg)

theorem safe_createOp {spec : OpSpec} (h : spec.Regular) : Safe (createOp spec) :=
  fun _ _ _ hr hg => hr.createOp h (gives_createOp.mp hg)

theorem safe_pushOp (b : BlockId) (id : OpId) : Safe (pushOp b id) :=
  fun _ _ _ hr hg => hr.pushOp (gives_pushOp.mp hg)

theorem safe_operand (h : SourceHead) (scope : Scope) (name : String) :
    Safe (operand h scope name) := by
  unfold operand
  split
  · exact safe_pure _
  · exact safe_reject _ _

theorem safe_successor (h : SourceHead) (scope : Scope) (label : String) :
    Safe (successor h scope label) := by
  unfold successor
  split
  · exact safe_pure _
  · exact safe_reject _ _

theorem safe_checkResults (h : SourceHead) : Safe (checkResults h) := by
  unfold checkResults
  split
  · exact safe_pure _
  · exact safe_reject _ _

theorem safe_defineValues (h : SourceHead) (scope : Scope) (names : List String)
    (vs : List ValueId) : Safe (defineValues h scope names vs) := by
  induction names generalizing scope vs with
  | nil => exact safe_pure scope
  | cons name names ih =>
    cases vs with
    | nil => exact safe_fault _
    | cons v vs =>
      refine Safe.bind ?_ fun scope => ih scope vs
      unfold defineValue
      split
      · exact safe_reject _ _
      · exact safe_pure _

theorem safe_openBlocks (h : SourceHead) (seen : List String) (scope : Scope)
    (blocks : List SourceBlock) : Safe (openBlocks h seen scope blocks) := by
  induction blocks generalizing seen scope with
  | nil => exact safe_pure _
  | cons b blocks ih =>
    obtain ⟨label, args, ops⟩ := b
    have hcanonical : ∀ ty ∈ args.map fun a => a.2.canonical, ty.Canonical := by
      simp only [List.forall_mem_map]
      exact fun a _ => Ty.canonical_canonical a.2
    have hrest : Safe (openUnseen h seen scope label args blocks) :=
      (safe_createBlock hcanonical).bind fun b => (safe_read _).bind fun _ =>
        (safe_defineValues _ _ _ _).bind fun scope => (ih _ scope).bind fun _ => safe_pure _
    rw [openBlocks_cons]
    split
    · exact (safe_reject _ _).bind fun _ => hrest
    · exact hrest

theorem regular_spec (h : SourceHead) (operands : List ValueId) (successors : List BlockId)
    (regions : List RegionId) : OpSpec.Regular {
      location := ⟨textPath, ⟨h.offset, h.offset⟩⟩
      dialect := h.dialect
      name := h.name
      operands, successors, regions
      resultTypes := Ty.canonicalList h.resultTypes
      attrs := attributes h } := by
  refine ⟨Dict.sorted_ofEntries _, fun e he => ?_, fun ty hty => ?_⟩
  · rcases List.mem_append.mp (Dict.mem_ofEntries he) with he | he
    · obtain ⟨s, -, rfl⟩ := List.mem_map.mp he
      rfl
    · rw [Ty.canonicalEntries_eq_map] at he
      obtain ⟨e', -, rfl⟩ := List.mem_map.mp he
      exact Attr.canonical_canonicalAttr e'.2
  · rw [Ty.canonicalList_eq_map] at hty
    obtain ⟨ty', -, rfl⟩ := List.mem_map.mp hty
    exact Ty.canonical_canonical ty'

mutual

theorem safe_op : ∀ (s : SourceOp) (scope : Scope), Safe (op scope s)
  | .mk h regions, scope =>
    (safe_mapM (safe_operand h scope) _).bind fun operands =>
    (safe_mapM (safe_successor h scope) _).bind fun successors =>
    (safe_checkResults h).bind fun _ =>
    (safe_regionsOf regions h scope).bind fun regions =>
    (safe_createOp (regular_spec h operands successors regions)).bind fun _ =>
    (safe_read _).bind fun _ =>
    (safe_defineValues h scope _ _).bind fun _ => safe_pure _

theorem safe_region : ∀ (r : SourceRegion) (h : SourceHead) (scope : Scope), Safe (region h scope r)
  | .mk blocks, h, scope =>
    (safe_openBlocks h [] scope blocks).bind fun (ids, scope) =>
    (safe_fillBlocks blocks scope ids).bind fun _ => safe_createRegion ids

theorem safe_regionsOf : ∀ (l : List SourceRegion) (h : SourceHead) (scope : Scope),
    Safe (regionsOf h scope l)
  | [], _, _ => safe_pure _
  | r :: rest, h, scope =>
    (safe_region r h scope).bind fun _ => (safe_regionsOf rest h scope).bind fun _ => safe_pure _

theorem safe_fillBlocks : ∀ (l : List SourceBlock) (scope : Scope) (ids : List BlockId),
    Safe (fillBlocks scope l ids)
  | [], _, [] => safe_pure _
  | [], _, _ :: _ => safe_pure _
  | .mk _ _ _ :: _, _, [] => safe_pure _
  | .mk _ _ ops :: rest, scope, b :: ids =>
    (safe_fillBlock ops scope b).bind fun scope => safe_fillBlocks rest scope ids

theorem safe_fillBlock : ∀ (l : List SourceOp) (scope : Scope) (b : BlockId),
    Safe (fillBlock scope b l)
  | [], _, _ => safe_pure _
  | o :: rest, scope, b =>
    (safe_op o scope).bind fun (id, scope) =>
    (safe_pushOp b id).bind fun _ => safe_fillBlock rest scope b

end

end Resolve

theorem Context.parse_eq_ok_iff {ctx ctx' : Context} {text : String} {id : OpId} :
    ctx.parse text = (.ok id, ctx') ↔ ∃ source scope, SourceOp.parse text = .ok source ∧
      (Resolve.op {} source).Gives ctx (id, scope) ctx' := by
  have hresult (r : Except ResolveError (OpId × Scope) × Context) :
      ((r.1.map Prod.fst, r.2) : Except ResolveError OpId × Context) = (.ok id, ctx') ↔
        ∃ scope, r = (.ok (id, scope), ctx') := by
    obtain ⟨e | ⟨o, scope⟩, ctx₁⟩ := r
    · simp [Except.map]
    · simp [Except.map]
  unfold Context.parse
  cases hparse : SourceOp.parse text with
  | error e => simp
  | ok source =>
    refine (hresult ((Resolve.op {} source).run.run ctx)).trans ?_
    constructor
    · rintro ⟨scope, h⟩
      exact ⟨source, scope, rfl, h⟩
    · rintro ⟨_, scope, hsource, h⟩
      cases hsource
      exact ⟨scope, h⟩

theorem Context.Reachable.parse {ctx ctx' : Context} {text : String} {id : OpId}
    (hr : ctx.Reachable) (h : ctx.parse text = (.ok id, ctx')) : ctx'.Reachable := by
  obtain ⟨source, scope, -, hg⟩ := Context.parse_eq_ok_iff.mp h
  exact Resolve.safe_op source {} ctx _ ctx' hr hg

theorem Context.Reachable.parse_isOk {ctx : Context} {text : String} (hr : ctx.Reachable)
    (h : (ctx.parse text).1.isOk) : (ctx.parse text).2.Reachable := by
  cases hresult : (ctx.parse text).1 with
  | error e => simp [hresult, Except.isOk, Except.toBool] at h
  | ok id => exact hr.parse (Prod.ext hresult rfl)

end RegionIR
