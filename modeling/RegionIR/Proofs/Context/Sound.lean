import RegionIR.Proofs.Context.Keys

/-! The edits keep a context sound. -/

namespace RegionIR

namespace Context

variable {ctx ctx' : Context}

/-- Links, types, ledger and attributes are in order. -/
structure Sound (ctx : Context) : Prop where
  linked : ctx.Linked
  typed : ctx.Typed
  ledgered : ctx.Ledgered
  keyed : ctx.Keyed

namespace Sound

theorem empty : Sound {} := by
  have hop (o : OpId) : Context.op? {} o = none := by simp [op?]
  have hblock (b : BlockId) : Context.block? {} b = none := by simp [block?]
  have hregion (r : RegionId) : Context.region? {} r = none := by simp [region?]
  have hvalue (v : ValueId) : Context.value? {} v = none := by simp [value?]
  exact
    { linked := by constructor <;> simp [hop, hblock, hregion]
      typed := by constructor <;> simp [hop, hblock, hvalue]
      ledgered := ⟨by simp, by simp⟩
      keyed := by simp [Keyed, hop] }

theorem createOp {spec : OpSpec} {id : OpId} (hs : ctx.Sound) (ha : spec.attrs.Sorted)
    (h : CreatesOp ctx spec ctx' id) : ctx'.Sound :=
  ⟨hs.linked.createOp h, hs.typed.createOp h, hs.ledgered.createOp h, hs.keyed.createOp ha h⟩

theorem createBlock {argTypes : List Ty} {id : BlockId} (hs : ctx.Sound)
    (h : CreatesBlock ctx argTypes ctx' id) : ctx'.Sound :=
  ⟨hs.linked.createBlock h, hs.typed.createBlock h, hs.ledgered.createBlock h,
    hs.keyed.of_same fun o => by rw [h.op?]⟩

theorem createRegion {blocks : List BlockId} {id : RegionId} (hs : ctx.Sound)
    (h : CreatesRegion ctx blocks ctx' id) : ctx'.Sound :=
  ⟨hs.linked.createRegion h, hs.typed.createRegion h, hs.ledgered.createRegion h,
    hs.keyed.of_same fun o => by rw [h.op?]⟩

theorem pushOp {b : BlockId} {id : OpId} (hs : ctx.Sound) (h : ctx.pushOp b id = .ok ctx') :
    ctx'.Sound :=
  ⟨hs.linked.pushOp h, hs.typed.pushOp h, hs.ledgered.pushOp h, hs.keyed.pushOp h⟩

theorem insertOpBefore {b : BlockId} {anchor id : OpId} (hs : ctx.Sound)
    (h : ctx.insertOpBefore b anchor id = .ok ctx') : ctx'.Sound :=
  ⟨hs.linked.insertOpBefore h, hs.typed.insertOpBefore h, hs.ledgered.insertOpBefore h,
    hs.keyed.insertOpBefore h⟩

theorem detachOp {b : BlockId} {id : OpId} (hs : ctx.Sound) (h : ctx.detachOp b id = .ok ctx') :
    ctx'.Sound :=
  ⟨hs.linked.detachOp h, hs.typed.detachOp h, hs.ledgered.detachOp h, hs.keyed.detachOp h⟩

theorem removeOp {id : OpId} (hs : ctx.Sound) (h : ctx.removeOp id = .ok ctx') : ctx'.Sound :=
  ⟨hs.linked.removeOp h, hs.typed.removeOp h, hs.ledgered.removeOp h, hs.keyed.removeOp h⟩

theorem setResultType {id : OpId} {i : Nat} {ty : Ty} (hs : ctx.Sound)
    (h : ctx.setResultType id i ty = .ok ctx') : ctx'.Sound :=
  ⟨hs.linked.setResultType h, hs.typed.setResultType h, hs.ledgered.setResultType h,
    hs.keyed.setResultType h⟩

theorem setArgType {b : BlockId} {i : Nat} {ty : Ty} (hs : ctx.Sound)
    (h : ctx.setArgType b i ty = .ok ctx') : ctx'.Sound :=
  ⟨hs.linked.setArgType h, hs.typed.setArgType h, hs.ledgered.setArgType h, hs.keyed.setArgType h⟩

theorem setAttr {id : OpId} {key : String} {a : Attr Ty} {old : Option (Attr Ty)}
    (hs : ctx.Sound) (h : ctx.setAttr id key a = .ok (ctx', old)) : ctx'.Sound :=
  ⟨hs.linked.setAttr h, hs.typed.setAttr h, hs.ledgered.setAttr h, hs.keyed.setAttr h⟩

theorem replaceAllUses {old new : ValueId} (hs : ctx.Sound)
    (h : ctx.replaceAllUses old new = .ok ctx') : ctx'.Sound :=
  ⟨hs.linked.replaceAllUses h, hs.typed.replaceAllUses h, hs.ledgered.replaceAllUses h,
    hs.keyed.replaceAllUses h⟩

end Sound

end Context

end RegionIR
