import RegionIR.Proofs.Context.Sound
import RegionIR.Proofs.Types.Canonical

/-! Every context that the edits can build is sound, and its types are canonical.

A context is reachable when it is empty or comes from a reachable one by an edit that was not
refused. Types and attributes are handed to the edits in canonical form, because a dictionary has
no other. Renaming an operation in place and moving a block between regions are not among the
edits: they may break the links. -/

namespace RegionIR

/-- The attributes of a new operation are a dictionary, and its types are canonical. -/
structure OpSpec.Regular (spec : OpSpec) : Prop where
  sorted : spec.attrs.Sorted
  attrs : ∀ e ∈ spec.attrs, e.2.Canonical
  resultTypes : ∀ ty ∈ spec.resultTypes, ty.Canonical

instance (spec : OpSpec) : Decidable spec.Regular :=
  decidable_of_iff (spec.attrs.Sorted ∧ (∀ e ∈ spec.attrs, e.2.Canonical) ∧
      ∀ ty ∈ spec.resultTypes, ty.Canonical)
    ⟨fun h => ⟨h.1, h.2.1, h.2.2⟩, fun h => ⟨h.sorted, h.attrs, h.resultTypes⟩⟩

namespace Context

variable {ctx ctx' : Context}

/-- A context that the edits can build from nothing. -/
inductive Reachable : Context → Prop where
  | empty : Reachable {}
  | createOp {ctx ctx' : Context} {spec : OpSpec} {id : OpId} : Reachable ctx →
      spec.Regular → ctx.createOp spec = .ok (ctx', id) → Reachable ctx'
  | createBlock {ctx : Context} (argTypes : List Ty) : Reachable ctx →
      (∀ ty ∈ argTypes, ty.Canonical) → Reachable (ctx.createBlock argTypes).1
  | createRegion {ctx ctx' : Context} {blocks : List BlockId} {id : RegionId} : Reachable ctx →
      ctx.createRegion blocks = .ok (ctx', id) → Reachable ctx'
  | pushOp {ctx ctx' : Context} {b : BlockId} {id : OpId} : Reachable ctx →
      ctx.pushOp b id = .ok ctx' → Reachable ctx'
  | insertOpBefore {ctx ctx' : Context} {b : BlockId} {anchor id : OpId} : Reachable ctx →
      ctx.insertOpBefore b anchor id = .ok ctx' → Reachable ctx'
  | detachOp {ctx ctx' : Context} {b : BlockId} {id : OpId} : Reachable ctx →
      ctx.detachOp b id = .ok ctx' → Reachable ctx'
  | removeOp {ctx ctx' : Context} {id : OpId} : Reachable ctx →
      ctx.removeOp id = .ok ctx' → Reachable ctx'
  | setResultType {ctx ctx' : Context} {id : OpId} {i : Nat} {ty : Ty} : Reachable ctx →
      ty.Canonical → ctx.setResultType id i ty = .ok ctx' → Reachable ctx'
  | setArgType {ctx ctx' : Context} {b : BlockId} {i : Nat} {ty : Ty} : Reachable ctx →
      ty.Canonical → ctx.setArgType b i ty = .ok ctx' → Reachable ctx'
  | setAttr {ctx ctx' : Context} {id : OpId} {key : String} {a : Attr Ty}
      {old : Option (Attr Ty)} : Reachable ctx → a.Canonical →
      ctx.setAttr id key a = .ok (ctx', old) → Reachable ctx'
  | replaceAllUses {ctx ctx' : Context} {old new : ValueId} : Reachable ctx →
      ctx.replaceAllUses old new = .ok ctx' → Reachable ctx'

theorem Reachable.sound (h : ctx.Reachable) : ctx.Sound := by
  induction h with
  | empty => exact .empty
  | createOp _ ha h ih => exact ih.createOp ha.sorted (createOp_ok h)
  | createBlock argTypes _ _ ih => exact ih.createBlock (createBlock_creates _ argTypes)
  | createRegion _ h ih => exact ih.createRegion (createRegion_ok h)
  | pushOp _ h ih => exact ih.pushOp h
  | insertOpBefore _ h ih => exact ih.insertOpBefore h
  | detachOp _ h ih => exact ih.detachOp h
  | removeOp _ h ih => exact ih.removeOp h
  | setResultType _ _ h ih => exact ih.setResultType h
  | setArgType _ _ h ih => exact ih.setArgType h
  | setAttr _ _ h ih => exact ih.setAttr h
  | replaceAllUses _ h ih => exact ih.replaceAllUses h

/-- All types and attributes are canonical. -/
structure Canonical (ctx : Context) : Prop where
  resultTypes {o : OpId} {op : Op} : ctx.op? o = some op → ∀ ty ∈ op.resultTypes, ty.Canonical
  attrs {o : OpId} {op : Op} : ctx.op? o = some op → ∀ e ∈ op.attrs, e.2.Canonical
  argTypes {b : BlockId} {block : Block} : ctx.block? b = some block →
    ∀ ty ∈ block.argTypes, ty.Canonical

namespace Canonical

theorem of_same (hc : ctx.Canonical)
    (hop : ∀ o, (ctx'.op? o).map (fun op => (op.resultTypes, op.attrs)) =
      (ctx.op? o).map fun op => (op.resultTypes, op.attrs))
    (hblock : ∀ b, (ctx'.block? b).map Block.argTypes = (ctx.block? b).map Block.argTypes) :
    ctx'.Canonical := by
  have op_back {o : OpId} {op : Op} (h : ctx'.op? o = some op) : ∃ old, ctx.op? o = some old ∧
      old.resultTypes = op.resultTypes ∧ old.attrs = op.attrs := by
    simpa using exists_of_map_eq (hop o) h
  constructor
  case resultTypes =>
    intro o op ho
    obtain ⟨old, hold, htypes, -⟩ := op_back ho
    exact htypes ▸ hc.resultTypes hold
  case attrs =>
    intro o op ho
    obtain ⟨old, hold, -, hattrs⟩ := op_back ho
    exact hattrs ▸ hc.attrs hold
  case argTypes =>
    intro b block hb
    obtain ⟨old, hold, htypes⟩ := exists_of_map_eq (hblock b) hb
    exact htypes ▸ hc.argTypes hold

theorem createOp {spec : OpSpec} {id : OpId} (hc : ctx.Canonical) (hs : spec.Regular)
    (h : CreatesOp ctx spec ctx' id) : ctx'.Canonical := by
  constructor
  case resultTypes =>
    intro o op ho
    rw [h.op?] at ho
    split at ho
    · cases Option.some.inj ho
      exact hs.resultTypes
    · exact hc.resultTypes ho
  case attrs =>
    intro o op ho
    rw [h.op?] at ho
    split at ho
    · cases Option.some.inj ho
      exact hs.attrs
    · exact hc.attrs ho
  case argTypes => exact fun hb => hc.argTypes ((h.block? _).symm.trans hb)

theorem createBlock {argTypes : List Ty} {id : BlockId} (hc : ctx.Canonical)
    (hs : ∀ ty ∈ argTypes, ty.Canonical) (h : CreatesBlock ctx argTypes ctx' id) :
    ctx'.Canonical := by
  constructor
  case resultTypes => exact fun ho => hc.resultTypes ((h.op? _).symm.trans ho)
  case attrs => exact fun ho => hc.attrs ((h.op? _).symm.trans ho)
  case argTypes =>
    intro b block hb
    rw [h.block?] at hb
    split at hb
    · cases Option.some.inj hb
      exact hs
    · exact hc.argTypes hb

theorem setResultType {id : OpId} {i : Nat} {ty : Ty} (hc : ctx.Canonical) (hty : ty.Canonical)
    (h : ctx.setResultType id i ty = .ok ctx') : ctx'.Canonical := by
  obtain ⟨op, v, hop, -, -, rfl⟩ := setResultType_ok h
  constructor
  case resultTypes =>
    intro o new ho
    simp only [op?_modifyValue, op?_modifyOp] at ho
    split at ho
    · obtain ⟨old, hold, rfl⟩ := Option.map_eq_some_iff.mp ho
      intro ty' hm
      rcases List.mem_or_eq_of_mem_set hm with hm | rfl
      · exact hc.resultTypes hold ty' hm
      · exact hty
    · exact hc.resultTypes ho
  case attrs =>
    intro o new ho
    simp only [op?_modifyValue, op?_modifyOp] at ho
    split at ho
    · obtain ⟨old, hold, rfl⟩ := Option.map_eq_some_iff.mp ho
      exact fun e he => hc.attrs hold e he
    · exact hc.attrs ho
  case argTypes => exact fun {b block} hb => hc.argTypes (b := b) hb

theorem setArgType {b : BlockId} {i : Nat} {ty : Ty} (hc : ctx.Canonical) (hty : ty.Canonical)
    (h : ctx.setArgType b i ty = .ok ctx') : ctx'.Canonical := by
  obtain ⟨block, v, hb, -, -, rfl⟩ := setArgType_ok h
  constructor
  case resultTypes => exact fun {o op} ho => hc.resultTypes (o := o) ho
  case attrs => exact fun {o op} ho => hc.attrs (o := o) ho
  case argTypes =>
    intro c new hb
    simp only [block?_modifyValue, block?_modifyBlock] at hb
    split at hb
    · obtain ⟨old, hold, rfl⟩ := Option.map_eq_some_iff.mp hb
      intro ty' hm
      rcases List.mem_or_eq_of_mem_set hm with hm | rfl
      · exact hc.argTypes hold ty' hm
      · exact hty
    · exact hc.argTypes hb

theorem setAttr {id : OpId} {key : String} {a : Attr Ty} {old : Option (Attr Ty)}
    (hc : ctx.Canonical) (ha : a.Canonical) (h : ctx.setAttr id key a = .ok (ctx', old)) :
    ctx'.Canonical := by
  obtain ⟨op, hop, rfl⟩ := setAttr_ok h
  constructor
  case resultTypes =>
    intro o new ho
    rw [op?_modifyOp] at ho
    split at ho
    · obtain ⟨old, hold, rfl⟩ := Option.map_eq_some_iff.mp ho
      exact fun ty hty => hc.resultTypes hold ty hty
    · exact hc.resultTypes ho
  case attrs =>
    intro o new ho
    rw [op?_modifyOp] at ho
    split at ho
    · obtain ⟨old, hold, rfl⟩ := Option.map_eq_some_iff.mp ho
      intro e hm
      rcases Dict.mem_insert hm with rfl | hm
      · exact ha
      · exact hc.attrs hold e hm
    · exact hc.attrs ho
  case argTypes => exact fun {b block} hb => hc.argTypes (b := b) hb

theorem pushOp {b : BlockId} {id : OpId} (hc : ctx.Canonical) (h : ctx.pushOp b id = .ok ctx') :
    ctx'.Canonical := by
  obtain ⟨-, -, rfl⟩ := pushOp_ok h
  refine hc.of_same (fun o => ?_) fun c => ?_
  · simp only [op?_modifyBlock, op?_modifyOp]
    split <;> simp [Function.comp_def]
  · simp only [block?_modifyBlock, block?_modifyOp]
    split <;> simp [Function.comp_def]

theorem insertOpBefore {b : BlockId} {anchor id : OpId} (hc : ctx.Canonical)
    (h : ctx.insertOpBefore b anchor id = .ok ctx') : ctx'.Canonical := by
  obtain ⟨-, block, ops, -, -, rfl⟩ := insertOpBefore_ok h
  refine hc.of_same (fun o => ?_) fun c => ?_
  · simp only [op?_modifyBlock, op?_modifyOp]
    split <;> simp [Function.comp_def]
  · simp only [block?_modifyBlock, block?_modifyOp]
    split <;> simp [Function.comp_def]

theorem detachOp {b : BlockId} {id : OpId} (hc : ctx.Canonical)
    (h : ctx.detachOp b id = .ok ctx') : ctx'.Canonical := by
  obtain ⟨-, -, rfl⟩ := detachOp_ok h
  refine hc.of_same (fun o => ?_) fun c => ?_
  · simp only [op?_modifyOp, op?_modifyBlock]
    split
    · rw [Option.map_map]
      congr 1
      funext op
      simp only [Function.comp_apply]
      split <;> rfl
    · rfl
  · simp only [block?_modifyOp, block?_modifyBlock]
    split <;> simp [Function.comp_def]

theorem replaceAllUses {old new : ValueId} (hc : ctx.Canonical)
    (h : ctx.replaceAllUses old new = .ok ctx') : ctx'.Canonical := by
  by_cases hne : old = new
  · simp only [Context.replaceAllUses, hne, if_true, except_pure_eq_ok] at h
    exact h ▸ hc
  · obtain ⟨hop, hctx⟩ := replaceAllUses_ok hne h
    refine hc.of_same (fun o => ?_) fun b => ?_
    · rw [hop]
      simp [Function.comp_def]
    · rw [hctx]
      rfl

end Canonical

theorem Reachable.canonical (h : ctx.Reachable) : ctx.Canonical := by
  induction h with
  | empty =>
    have hop (o : OpId) : Context.op? {} o = none := by simp [op?]
    have hblock (b : BlockId) : Context.block? {} b = none := by simp [block?]
    constructor <;> simp [hop, hblock]
  | createOp _ hs h ih => exact ih.createOp hs (createOp_ok h)
  | createBlock argTypes _ hs ih => exact ih.createBlock hs (createBlock_creates _ argTypes)
  | createRegion _ h ih =>
    have hcreates := createRegion_ok h
    refine ih.of_same (fun o => by rw [hcreates.op?]) fun b => ?_
    rw [hcreates.block?, Option.map_map]
    congr 1
    funext block
    simp only [Function.comp_apply]
    split <;> rfl
  | pushOp _ h ih => exact ih.pushOp h
  | insertOpBefore _ h ih => exact ih.insertOpBefore h
  | detachOp _ h ih => exact ih.detachOp h
  | removeOp _ h ih =>
    obtain ⟨op, -, -, -, rfl⟩ := removeOp_ok h
    exact ih.of_same (fun _ => rfl) fun _ => rfl
  | setResultType _ hty h ih => exact ih.setResultType hty h
  | setArgType _ hty h ih => exact ih.setArgType hty h
  | setAttr _ ha h ih => exact ih.setAttr ha h
  | replaceAllUses _ h ih => exact ih.replaceAllUses h

/-- Whether every operand is a value of the context. The edits do not ask for it. -/
def Grounded (ctx : Context) : Prop :=
  ∀ o op, ctx.op? o = some op → ∀ v ∈ op.operands, ∃ value, ctx.value? v = some value

instance (ctx : Context) : Decidable ctx.Grounded :=
  decidable_of_iff (∀ op ∈ ctx.ops.toList, ∀ v ∈ op.operands, v.index < ctx.values.size) <| by
    have hvalue (v : ValueId) :
        (∃ value, ctx.value? v = some value) ↔ v.index < ctx.values.size := by
      rw [value?, ← Option.isSome_iff_exists, isSome_getElem?]
    simp only [Grounded, hvalue]
    constructor
    · intro h o op ho
      exact h op (Array.mem_toList_iff.mpr (Array.mem_of_getElem? ho))
    · intro h op hop
      obtain ⟨i, hi⟩ := List.mem_iff_getElem?.mp hop
      rw [Array.getElem?_toList] at hi
      exact h ⟨i⟩ op hi

theorem Grounded.recorded (hg : ctx.Grounded) (hs : ctx.Sound) {v : ValueId} {u : Use}
    (hu : (v, u) ∈ ctx.ledger) : ∃ value, ctx.value? v = some value := by
  obtain ⟨op, ho, hi⟩ := hs.ledgered.sound hu
  exact hg _ op ho v (List.mem_of_getElem? hi)

end Context

end RegionIR
