import Mathlib.Data.List.Induction
import RegionIR.Proofs.Context.Reachable

/-! What every sequence of edits leaves behind.

A history is carried out from the empty context, edit by edit, and ends at the first edit that is
refused. What an edit preserves holds after every history. The two results are that the uses of a
value are exactly the operands that name it, for operations that were not removed, and that both
sides of every link say the same. -/

namespace RegionIR

/-- A request to change a context. -/
inductive Edit where
  | createOp (spec : OpSpec)
  | createBlock (argTypes : List Ty)
  | createRegion (blocks : List BlockId)
  | pushOp (block : BlockId) (op : OpId)
  | insertOpBefore (block : BlockId) (anchor op : OpId)
  | detachOp (block : BlockId) (op : OpId)
  | removeOp (op : OpId)
  | setResultType (op : OpId) (index : Nat) (ty : Ty)
  | setArgType (block : BlockId) (index : Nat) (ty : Ty)
  | setAttr (op : OpId) (key : String) (a : Attr Ty)
  | replaceAllUses (old new : ValueId)

/-- The operation that an edit removes. -/
def Edit.removed? : Edit → Option OpId
  | .removeOp op => some op
  | _ => none

/-- Types and attributes are handed over in canonical form. -/
def Edit.Regular : Edit → Prop
  | .createOp spec => spec.Regular
  | .createBlock argTypes => ∀ ty ∈ argTypes, ty.Canonical
  | .setResultType _ _ ty | .setArgType _ _ ty => ty.Canonical
  | .setAttr _ _ a => a.Canonical
  | _ => True

instance : (e : Edit) → Decidable e.Regular
  | .createOp spec => inferInstanceAs (Decidable spec.Regular)
  | .createBlock argTypes => inferInstanceAs (Decidable (∀ ty ∈ argTypes, ty.Canonical))
  | .setResultType _ _ ty => inferInstanceAs (Decidable ty.Canonical)
  | .setArgType _ _ ty => inferInstanceAs (Decidable ty.Canonical)
  | .setAttr _ _ a => inferInstanceAs (Decidable a.Canonical)
  | .createRegion _ | .pushOp _ _ | .insertOpBefore _ _ _ | .detachOp _ _ | .removeOp _
  | .replaceAllUses _ _ => isTrue trivial

namespace Context

variable {ctx ctx' : Context} {e : Edit} {edits : List Edit}

def perform (ctx : Context) : Edit → Except Fault Context
  | .createOp spec => return (← ctx.createOp spec).1
  | .createBlock argTypes => return (ctx.createBlock argTypes).1
  | .createRegion blocks => return (← ctx.createRegion blocks).1
  | .pushOp b op => ctx.pushOp b op
  | .insertOpBefore b anchor op => ctx.insertOpBefore b anchor op
  | .detachOp b op => ctx.detachOp b op
  | .removeOp op => ctx.removeOp op
  | .setResultType op i ty => ctx.setResultType op i ty
  | .setArgType b i ty => ctx.setArgType b i ty
  | .setAttr op key a => return (← ctx.setAttr op key a).1
  | .replaceAllUses old new => ctx.replaceAllUses old new

/-- The context after a history. -/
def ofEdits (edits : List Edit) : Except Fault Context := edits.foldlM perform {}

theorem perform_createOp {spec : OpSpec} (h : ctx.perform (.createOp spec) = .ok ctx') :
    ∃ id, ctx.createOp spec = .ok (ctx', id) := by
  simp only [perform, except_bind_eq_ok, except_pure_eq_ok, Prod.exists] at h
  obtain ⟨_, id, h, rfl⟩ := h
  exact ⟨id, h⟩

theorem perform_createBlock {argTypes : List Ty}
    (h : ctx.perform (.createBlock argTypes) = .ok ctx') :
    ∃ id, CreatesBlock ctx argTypes ctx' id := by
  cases except_pure_eq_ok.mp h
  exact ⟨_, createBlock_creates ctx argTypes⟩

theorem perform_createRegion {blocks : List BlockId}
    (h : ctx.perform (.createRegion blocks) = .ok ctx') :
    ∃ id, ctx.createRegion blocks = .ok (ctx', id) := by
  simp only [perform, except_bind_eq_ok, except_pure_eq_ok, Prod.exists] at h
  obtain ⟨_, id, h, rfl⟩ := h
  exact ⟨id, h⟩

theorem perform_setAttr {id : OpId} {key : String} {a : Attr Ty}
    (h : ctx.perform (.setAttr id key a) = .ok ctx') :
    ∃ old, ctx.setAttr id key a = .ok (ctx', old) := by
  simp only [perform, except_bind_eq_ok, except_pure_eq_ok, Prod.exists] at h
  obtain ⟨_, old, h, rfl⟩ := h
  exact ⟨old, h⟩

theorem ofEdits_induction {P : List Edit → Context → Prop} (hempty : P [] {})
    (hstep : ∀ {edits e ctx ctx'}, P edits ctx → ctx.perform e = .ok ctx' → P (edits ++ [e]) ctx')
    (h : ofEdits edits = .ok ctx) : P edits ctx := by
  induction edits using List.reverseRecOn generalizing ctx with
  | nil => exact except_pure_eq_ok.mp h ▸ hempty
  | append_singleton edits e ih =>
    simp only [ofEdits, List.foldlM_append, List.foldlM_cons, List.foldlM_nil, except_bind_eq_ok,
      except_pure_eq_ok] at h
    obtain ⟨ctx₁, hbefore, ctx₂, hlast, rfl⟩ := h
    exact hstep (ih hbefore) hlast

theorem ofEdits_concat (h : ofEdits edits = .ok ctx) (he : ctx.perform e = .ok ctx') :
    ofEdits (edits ++ [e]) = .ok ctx' := by
  have h : edits.foldlM perform {} = .ok ctx := h
  simp [ofEdits, List.foldlM_append, h, he]

theorem Reachable.perform (hr : ctx.Reachable) (he : e.Regular) (h : ctx.perform e = .ok ctx') :
    ctx'.Reachable := by
  cases e with
  | createOp spec => exact hr.createOp he (perform_createOp h).choose_spec
  | createBlock argTypes => exact except_pure_eq_ok.mp h ▸ hr.createBlock argTypes he
  | createRegion blocks => exact hr.createRegion (perform_createRegion h).choose_spec
  | pushOp b op => exact hr.pushOp h
  | insertOpBefore b anchor op => exact hr.insertOpBefore h
  | detachOp b op => exact hr.detachOp h
  | removeOp op => exact hr.removeOp h
  | setResultType op i ty => exact hr.setResultType he h
  | setArgType b i ty => exact hr.setArgType he h
  | setAttr op key a => exact hr.setAttr he (perform_setAttr h).choose_spec
  | replaceAllUses old new => exact hr.replaceAllUses h

theorem reachable_iff_exists_edits :
    ctx.Reachable ↔ ∃ edits, (∀ e ∈ edits, e.Regular) ∧ ofEdits edits = .ok ctx := by
  have more {ctx ctx' : Context} {e : Edit} (he : e.Regular) (h : ctx.perform e = .ok ctx') :
      (∃ edits, (∀ e ∈ edits, e.Regular) ∧ ofEdits edits = .ok ctx) →
        ∃ edits, (∀ e ∈ edits, e.Regular) ∧ ofEdits edits = .ok ctx' := by
    rintro ⟨edits, hall, hctx⟩
    exact ⟨edits ++ [e], List.forall_mem_append.mpr ⟨hall, by simpa using he⟩,
      ofEdits_concat hctx h⟩
  constructor
  · intro h
    induction h with
    | empty => exact ⟨[], by simp, rfl⟩
    | createOp _ hs h ih => exact more (e := .createOp _) hs (by simp [perform, h]) ih
    | createBlock argTypes _ hs ih => exact more (e := .createBlock argTypes) hs rfl ih
    | @createRegion _ _ blocks _ _ h ih =>
      exact more (e := .createRegion blocks) trivial (by simp [perform, h]) ih
    | pushOp _ h ih => exact more (e := .pushOp _ _) trivial h ih
    | insertOpBefore _ h ih => exact more (e := .insertOpBefore _ _ _) trivial h ih
    | detachOp _ h ih => exact more (e := .detachOp _ _) trivial h ih
    | removeOp _ h ih => exact more (e := .removeOp _) trivial h ih
    | setResultType _ hty h ih => exact more (e := .setResultType _ _ _) hty h ih
    | setArgType _ hty h ih => exact more (e := .setArgType _ _ _) hty h ih
    | @setAttr _ _ id key a _ _ ha h ih =>
      exact more (e := .setAttr id key a) ha (by simp [perform, h]) ih
    | replaceAllUses _ h ih => exact more (e := .replaceAllUses _ _) trivial h ih
  · rintro ⟨edits, hall, h⟩
    refine ofEdits_induction (P := fun edits ctx => (∀ e ∈ edits, e.Regular) → ctx.Reachable)
      (fun _ => .empty) (fun ih h hall => ?_) h hall
    rw [List.forall_mem_append, List.forall_mem_singleton] at hall
    exact (ih hall.1).perform hall.2 h

/-- No edit breaks the links, the types or the ledger, whatever types and attributes it is given. -/
theorem perform_keeps (h : ctx.perform e = .ok ctx') :
    (ctx.Linked → ctx'.Linked) ∧ (ctx.Typed → ctx'.Typed) ∧ (ctx.Ledgered → ctx'.Ledgered) := by
  cases e with
  | createOp spec =>
    have h := createOp_ok (perform_createOp h).choose_spec
    exact ⟨fun hl => hl.createOp h, fun ht => ht.createOp h, fun hd => hd.createOp h⟩
  | createBlock argTypes =>
    obtain ⟨id, h⟩ := perform_createBlock h
    exact ⟨fun hl => hl.createBlock h, fun ht => ht.createBlock h, fun hd => hd.createBlock h⟩
  | createRegion blocks =>
    have h := createRegion_ok (perform_createRegion h).choose_spec
    exact ⟨fun hl => hl.createRegion h, fun ht => ht.createRegion h, fun hd => hd.createRegion h⟩
  | pushOp b op => exact ⟨fun hl => hl.pushOp h, fun ht => ht.pushOp h, fun hd => hd.pushOp h⟩
  | insertOpBefore b anchor op =>
    exact ⟨fun hl => hl.insertOpBefore h, fun ht => ht.insertOpBefore h,
      fun hd => hd.insertOpBefore h⟩
  | detachOp b op =>
    exact ⟨fun hl => hl.detachOp h, fun ht => ht.detachOp h, fun hd => hd.detachOp h⟩
  | removeOp op => exact ⟨fun hl => hl.removeOp h, fun ht => ht.removeOp h, fun hd => hd.removeOp h⟩
  | setResultType op i ty =>
    exact ⟨fun hl => hl.setResultType h, fun ht => ht.setResultType h, fun hd => hd.setResultType h⟩
  | setArgType b i ty =>
    exact ⟨fun hl => hl.setArgType h, fun ht => ht.setArgType h, fun hd => hd.setArgType h⟩
  | setAttr op key a =>
    obtain ⟨old, h⟩ := perform_setAttr h
    exact ⟨fun hl => hl.setAttr h, fun ht => ht.setAttr h, fun hd => hd.setAttr h⟩
  | replaceAllUses old new =>
    exact ⟨fun hl => hl.replaceAllUses h, fun ht => ht.replaceAllUses h,
      fun hd => hd.replaceAllUses h⟩

/-- An operation comes to use its own result, and another that uses it is removed. -/
def loopEdits : List Edit :=
  let i32 : Ty := .mk "core" "i32" [] []
  let nowhere : Location := ⟨"", ⟨0, 0⟩⟩
  [.createBlock [i32],
    .createOp
      { location := nowhere, dialect := "t", name := "a", operands := [⟨0⟩, ⟨0⟩]
        resultTypes := [i32] },
    .pushOp ⟨0⟩ ⟨0⟩,
    .createOp
      { location := nowhere, dialect := "t", name := "b", operands := [⟨1⟩, ⟨0⟩]
        resultTypes := [i32] },
    .insertOpBefore ⟨0⟩ ⟨0⟩ ⟨1⟩,
    .replaceAllUses ⟨0⟩ ⟨1⟩,
    .detachOp ⟨0⟩ ⟨1⟩,
    .removeOp ⟨1⟩,
    .createRegion [⟨0⟩],
    .createOp { location := nowhere, dialect := "core", name := "module", regions := [⟨0⟩] },
    .setResultType ⟨0⟩ 0 (.mk "core" "f64" [] []),
    .setArgType ⟨0⟩ 0 (.mk "core" "f64" [] [])]

theorem linked_of_edits (h : ofEdits edits = .ok ctx) : ctx.Linked :=
  ofEdits_induction (P := fun _ ctx => ctx.Linked) Sound.empty.linked
    (fun hl h => (perform_keeps h).1 hl) h

theorem typed_of_edits (h : ofEdits edits = .ok ctx) : ctx.Typed :=
  ofEdits_induction (P := fun _ ctx => ctx.Typed) Sound.empty.typed
    (fun ht h => (perform_keeps h).2.1 ht) h

section Uses

/-- The ledger holds the operands of all operations but those in `removed`. -/
structure Accounted (removed : List OpId) (ctx : Context) : Prop where
  ledgered : ctx.Ledgered
  exist : ∀ o ∈ removed, ∃ op, ctx.op? o = some op
  struck {v : ValueId} {u : Use} : (v, u) ∈ ctx.ledger → u.user ∉ removed
  recorded {o : OpId} : o ∉ removed → ctx.Recorded o

namespace Accounted

variable {removed : List OpId}

theorem empty : Accounted [] {} :=
  ⟨Sound.empty.ledgered, by simp, by simp, fun {o} _ op i v ho => by simp [op?] at ho⟩

theorem of_keeps (ha : Accounted removed ctx) (h : KeepsUses ctx ctx') :
    Accounted removed ctx' := by
  refine ⟨ha.ledgered.of_keeps h, fun o ho => ?_, fun hu => ha.struck (h.ledger ▸ hu),
    fun {o} ho op i v hop hi => ?_⟩
  · obtain ⟨op, hop⟩ := ha.exist o ho
    obtain ⟨op', hop', -⟩ := exists_of_map_eq (h.operands o).symm hop
    exact ⟨op', hop'⟩
  · obtain ⟨old, hold, hops⟩ := exists_of_map_eq (h.operands o) hop
    exact h.ledger ▸ ha.recorded ho old i v hold (hops ▸ hi)

theorem createOp {spec : OpSpec} {id : OpId} (ha : Accounted removed ctx)
    (h : CreatesOp ctx spec ctx' id) : Accounted removed ctx' := by
  constructor
  case ledgered => exact ha.ledgered.createOp h
  case exist =>
    intro o ho
    obtain ⟨op, hop⟩ := ha.exist o ho
    exact ⟨op, h.op?_of_some hop⟩
  case struck =>
    intro v u hu
    rw [h.ledger, List.mem_append, mem_mapIdx_uses] at hu
    rcases hu with hu | ⟨hu, -⟩
    · exact ha.struck hu
    · intro hm
      obtain ⟨op, hop⟩ := ha.exist _ hm
      rw [hu, h.fresh] at hop
      simp at hop
  case recorded =>
    intro o ho op i v hop hi
    rw [h.ledger, List.mem_append, mem_mapIdx_uses]
    rw [h.op?] at hop
    split at hop
    case isTrue he =>
      cases Option.some.inj hop
      exact .inr ⟨he, hi⟩
    case isFalse => exact .inl (ha.recorded ho op i v hop hi)

theorem removeOp {id : OpId} (ha : Accounted removed ctx) (h : ctx.removeOp id = .ok ctx') :
    Accounted (removed ++ [id]) ctx' := by
  have hledgered := ha.ledgered.removeOp h
  obtain ⟨op, hop, -, -, rfl⟩ := removeOp_ok h
  constructor
  case ledgered => exact hledgered
  case exist =>
    intro o ho
    rcases List.mem_append.mp ho with ho | ho
    · exact ha.exist o ho
    · exact ⟨op, List.mem_singleton.mp ho ▸ hop⟩
  case struck =>
    intro v u hu
    obtain ⟨hold, hstays⟩ := List.mem_filter.mp hu
    obtain ⟨user, huser, hi⟩ := ha.ledgered.sound hold
    have hne : u.user ≠ id := by
      intro he
      rw [he, hop] at huser
      cases Option.some.inj huser
      simp [he, hi] at hstays
    simp [ha.struck hold, hne]
  case recorded =>
    intro o ho p i v hp hi
    obtain ⟨ho, hne⟩ : o ∉ removed ∧ o ≠ id := by simpa using ho
    exact List.mem_filter.mpr ⟨ha.recorded ho p i v hp hi, by simp [hne]⟩

theorem replaceAllUses {old new : ValueId} (ha : Accounted removed ctx)
    (h : ctx.replaceAllUses old new = .ok ctx') : Accounted removed ctx' := by
  by_cases hne : old = new
  · simp only [Context.replaceAllUses, hne, if_true, except_pure_eq_ok] at h
    exact h ▸ ha
  have hledgered := ha.ledgered.replaceAllUses h
  obtain ⟨hops, -⟩ := replaceAllUses_ok hne h
  have hmem {v : ValueId} {u : Use} := mem_ledger_of_replaceAllUses hne h (v := v) (u := u)
  constructor
  case ledgered => exact hledgered
  case exist =>
    intro o ho
    obtain ⟨op, hop⟩ := ha.exist o ho
    exact ⟨_, by rw [hops, hop, Option.map_some]⟩
  case struck =>
    intro v u hu
    rcases hmem.mp hu with ⟨hu, -⟩ | ⟨-, hu⟩ <;> exact ha.struck hu
  case recorded =>
    intro o ho op i v hop hi
    rw [hops, Option.map_eq_some_iff] at hop
    obtain ⟨before, hbefore, rfl⟩ := hop
    simp only [getElem?_redirected, Option.map_eq_some_iff, mem_uses] at hi
    obtain ⟨w, hw, hv⟩ := hi
    have hw := ha.recorded ho before i w hbefore hw
    rw [hmem]
    by_cases hold : w = old
    · subst hold
      exact .inr ⟨by simpa [hw] using hv.symm, hw⟩
    · have hnot : (old, (⟨o, i⟩ : Use)) ∉ ctx.ledger :=
        fun hm => hold (ha.ledgered.value_unique hw hm)
      rw [if_neg hnot] at hv
      subst hv
      exact .inl ⟨hw, hold⟩

theorem perform (ha : Accounted removed ctx) (h : ctx.perform e = .ok ctx') :
    Accounted (removed ++ e.removed?.toList) ctx' := by
  cases e with
  | removeOp op => exact ha.removeOp h
  | createOp spec =>
    simpa [Edit.removed?] using ha.createOp (createOp_ok (perform_createOp h).choose_spec)
  | replaceAllUses old new => simpa [Edit.removed?] using ha.replaceAllUses h
  | createBlock argTypes =>
    simpa [Edit.removed?] using ha.of_keeps (.createBlock (perform_createBlock h).choose_spec)
  | createRegion blocks =>
    simpa [Edit.removed?] using
      ha.of_keeps (.createRegion (createRegion_ok (perform_createRegion h).choose_spec))
  | pushOp b op => simpa [Edit.removed?] using ha.of_keeps (.pushOp h)
  | insertOpBefore b anchor op => simpa [Edit.removed?] using ha.of_keeps (.insertOpBefore h)
  | detachOp b op => simpa [Edit.removed?] using ha.of_keeps (.detachOp h)
  | setResultType op i ty => simpa [Edit.removed?] using ha.of_keeps (.setResultType h)
  | setArgType b i ty => simpa [Edit.removed?] using ha.of_keeps (.setArgType h)
  | setAttr op key a =>
    simpa [Edit.removed?] using ha.of_keeps (.setAttr (perform_setAttr h).choose_spec)

theorem mem_uses_iff (ha : Accounted removed ctx) {v : ValueId} {o : OpId} {i : Nat} :
    ⟨o, i⟩ ∈ ctx.uses v ↔ o ∉ removed ∧ (ctx.op? o).bind (·.operands[i]?) = some v := by
  rw [mem_uses, Option.bind_eq_some_iff]
  constructor
  · exact fun hu => ⟨ha.struck hu, ha.ledgered.sound hu⟩
  · rintro ⟨ho, op, hop, hi⟩
    exact ha.recorded ho op i v hop hi

end Accounted

theorem accounted_of_edits (h : ofEdits edits = .ok ctx) :
    Accounted (edits.filterMap Edit.removed?) ctx := by
  refine ofEdits_induction (P := fun edits => Accounted (edits.filterMap Edit.removed?))
    .empty (fun {edits e _ _} ha h => ?_) h
  have hsplit : (edits ++ [e]).filterMap Edit.removed? =
      edits.filterMap Edit.removed? ++ e.removed?.toList := by
    rw [List.filterMap_append]
    cases h : e.removed? <;> simp [h]
  exact hsplit ▸ ha.perform h

/-- A use is recorded once if its user was not removed and has the value as that operand, and is
not recorded otherwise. -/
theorem count_uses_of_edits (h : ofEdits edits = .ok ctx) (v : ValueId) (o : OpId) (i : Nat) :
    (ctx.uses v).count ⟨o, i⟩ =
      if o ∉ edits.filterMap Edit.removed? ∧ (ctx.op? o).bind (·.operands[i]?) = some v then 1
      else 0 := by
  have ha := accounted_of_edits h
  rw [(uses_nodup ha.ledgered v).count]
  exact if_congr ha.mem_uses_iff rfl rfl

/-- The removed operation has the value as an operand still. -/
theorem count_uses_of_loopEdits : ∃ ctx, ofEdits loopEdits = .ok ctx ∧
    (ctx.op? ⟨1⟩).bind (·.operands[0]?) = some ⟨1⟩ ∧
    (ctx.uses ⟨1⟩).count ⟨⟨0⟩, 1⟩ = 1 ∧ (ctx.uses ⟨1⟩).count ⟨⟨1⟩, 0⟩ = 0 := by
  have hcheck : (ofEdits loopEdits).toOption.any fun ctx =>
      decide ((ctx.op? ⟨0⟩).bind (·.operands[1]?) = some ⟨1⟩) &&
        decide ((ctx.op? ⟨1⟩).bind (·.operands[0]?) = some ⟨1⟩) := by
    decide +kernel
  obtain ⟨ctx, hctx, hfacts⟩ := except_any_iff.mp hcheck
  simp only [Bool.and_eq_true, decide_eq_true_eq] at hfacts
  obtain ⟨hself, hremoved⟩ := hfacts
  exact ⟨ctx, hctx, hremoved,
    (count_uses_of_edits hctx ⟨1⟩ ⟨0⟩ 1).trans (if_pos ⟨by decide, hself⟩),
    (count_uses_of_edits hctx ⟨1⟩ ⟨1⟩ 0).trans (if_neg fun h => h.1 (by decide))⟩

end Uses

section Links

/-- Both sides of every link say the same, at every number. What does not exist lists nothing and
has no parent. -/
structure Coherent (ctx : Context) : Prop where
  ops (b : BlockId) (o : OpId) : ((ctx.block? b).elim [] Block.ops).count o =
    if (ctx.op? o).bind Op.parent = some b then 1 else 0
  blocks (r : RegionId) (b : BlockId) : ((ctx.region? r).elim [] Region.blocks).count b =
    if (ctx.block? b).bind Block.parent = some r then 1 else 0
  regions (o : OpId) (r : RegionId) : ((ctx.op? o).elim [] Op.regions).count r =
    if (ctx.region? r).bind Region.parent = some o then 1 else 0
  results (v : ValueId) (o : OpId) (i : Nat) :
    (ctx.value? v).map Value.origin = some (.result o i) ↔
      (ctx.op? o).bind (·.results[i]?) = some v
  args (v : ValueId) (b : BlockId) (i : Nat) :
    (ctx.value? v).map Value.origin = some (.argument b i) ↔
      (ctx.block? b).bind (·.args[i]?) = some v
  resultType {v : ValueId} {o : OpId} {i : Nat} {ty : Ty} :
    ctx.value? v = some ⟨.result o i, ty⟩ → (ctx.op? o).bind (·.resultTypes[i]?) = some ty
  argType {v : ValueId} {b : BlockId} {i : Nat} {ty : Ty} :
    ctx.value? v = some ⟨.argument b i, ty⟩ → (ctx.block? b).bind (·.argTypes[i]?) = some ty

/-- How often a list of distinct entries holds one; there may be no list. -/
theorem count_elim {α β : Type} [DecidableEq α] {x : Option β} {f : β → List α} {a : α} {p : Prop}
    [Decidable p] (hnodup : ∀ {y}, x = some y → (f y).Nodup)
    (hmem : (∃ y, x = some y ∧ a ∈ f y) ↔ p) : (x.elim [] f).count a = if p then 1 else 0 := by
  cases x with
  | none => simp [← hmem]
  | some y =>
    rw [Option.elim_some, (hnodup rfl).count]
    exact if_congr (by simpa using hmem) rfl rfl

namespace Linked

theorem count_ops (hl : ctx.Linked) (b : BlockId) (o : OpId) :
    ((ctx.block? b).elim [] Block.ops).count o =
      if (ctx.op? o).bind Op.parent = some b then 1 else 0 := by
  refine count_elim hl.ops_nodup ?_
  rw [Option.bind_eq_some_iff]
  constructor
  · rintro ⟨block, hb, ho⟩
    exact hl.op_of_listed hb ho
  · rintro ⟨op, ho, hp⟩
    exact hl.listed_of_op ho hp

theorem count_blocks (hl : ctx.Linked) (r : RegionId) (b : BlockId) :
    ((ctx.region? r).elim [] Region.blocks).count b =
      if (ctx.block? b).bind Block.parent = some r then 1 else 0 := by
  refine count_elim hl.blocks_nodup ?_
  rw [Option.bind_eq_some_iff]
  constructor
  · rintro ⟨region, hr, hb⟩
    exact hl.block_of_listed hr hb
  · rintro ⟨block, hb, hp⟩
    exact hl.listed_of_block hb hp

theorem count_regions (hl : ctx.Linked) (o : OpId) (r : RegionId) :
    ((ctx.op? o).elim [] Op.regions).count r =
      if (ctx.region? r).bind Region.parent = some o then 1 else 0 := by
  refine count_elim hl.regions_nodup ?_
  rw [Option.bind_eq_some_iff]
  constructor
  · rintro ⟨op, ho, hr⟩
    exact hl.region_of_listed ho hr
  · rintro ⟨region, hr, hp⟩
    exact hl.listed_of_region hr hp

end Linked

namespace Typed

theorem origin_eq_result_iff (ht : ctx.Typed) (v : ValueId) (o : OpId) (i : Nat) :
    (ctx.value? v).map Value.origin = some (.result o i) ↔
      (ctx.op? o).bind (·.results[i]?) = some v := by
  rw [Option.map_eq_some_iff, Option.bind_eq_some_iff]
  constructor
  · rintro ⟨⟨origin, ty⟩, hv, rfl⟩
    exact ht.origin_result hv
  · rintro ⟨op, ho, hi⟩
    obtain ⟨ty, -, hv⟩ := ht.result ho hi
    exact ⟨_, hv, rfl⟩

theorem origin_eq_argument_iff (ht : ctx.Typed) (v : ValueId) (b : BlockId) (i : Nat) :
    (ctx.value? v).map Value.origin = some (.argument b i) ↔
      (ctx.block? b).bind (·.args[i]?) = some v := by
  rw [Option.map_eq_some_iff, Option.bind_eq_some_iff]
  constructor
  · rintro ⟨⟨origin, ty⟩, hv, rfl⟩
    exact ht.origin_argument hv
  · rintro ⟨block, hb, hi⟩
    obtain ⟨ty, -, hv⟩ := ht.argument hb hi
    exact ⟨_, hv, rfl⟩

theorem resultTypes_getElem? (ht : ctx.Typed) {v : ValueId} {o : OpId} {i : Nat} {ty : Ty}
    (hv : ctx.value? v = some ⟨.result o i, ty⟩) :
    (ctx.op? o).bind (·.resultTypes[i]?) = some ty := by
  obtain ⟨op, ho, hi⟩ := ht.origin_result hv
  obtain ⟨ty', hty, hv'⟩ := ht.result ho hi
  cases hv.symm.trans hv'
  exact Option.bind_eq_some_iff.mpr ⟨op, ho, hty⟩

theorem argTypes_getElem? (ht : ctx.Typed) {v : ValueId} {b : BlockId} {i : Nat} {ty : Ty}
    (hv : ctx.value? v = some ⟨.argument b i, ty⟩) :
    (ctx.block? b).bind (·.argTypes[i]?) = some ty := by
  obtain ⟨block, hb, hi⟩ := ht.origin_argument hv
  obtain ⟨ty', hty, hv'⟩ := ht.argument hb hi
  cases hv.symm.trans hv'
  exact Option.bind_eq_some_iff.mpr ⟨block, hb, hty⟩

end Typed

theorem coherent_of_edits (h : ofEdits edits = .ok ctx) : ctx.Coherent := by
  have hl := linked_of_edits h
  have ht := typed_of_edits h
  exact {
    ops := hl.count_ops
    blocks := hl.count_blocks
    regions := hl.count_regions
    results := ht.origin_eq_result_iff
    args := ht.origin_eq_argument_iff
    resultType := ht.resultTypes_getElem?
    argType := ht.argTypes_getElem? }

theorem coherent_of_loopEdits : ∃ ctx, ofEdits loopEdits = .ok ctx ∧ ctx.Coherent ∧
    (ctx.op? ⟨0⟩).bind Op.parent = some ⟨0⟩ ∧ (ctx.block? ⟨0⟩).bind Block.parent = some ⟨0⟩ ∧
    (ctx.region? ⟨0⟩).bind Region.parent = some ⟨2⟩ ∧
    ctx.value? ⟨1⟩ = some ⟨.result ⟨0⟩ 0, .mk "core" "f64" [] []⟩ := by
  have hcheck : (ofEdits loopEdits).toOption.any fun ctx =>
      decide ((ctx.op? ⟨0⟩).bind Op.parent = some ⟨0⟩ ∧
        (ctx.block? ⟨0⟩).bind Block.parent = some ⟨0⟩ ∧
        (ctx.region? ⟨0⟩).bind Region.parent = some ⟨2⟩ ∧
        ctx.value? ⟨1⟩ = some ⟨.result ⟨0⟩ 0, .mk "core" "f64" [] []⟩) := by
    decide +kernel
  obtain ⟨ctx, hctx, hfacts⟩ := except_any_iff.mp hcheck
  exact ⟨ctx, hctx, coherent_of_edits hctx, of_decide_eq_true hfacts⟩

end Links

end Context

end RegionIR
