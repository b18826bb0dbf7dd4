import RegionIR.Proofs.Context.Ledger
import RegionIR.Proofs.Types.Dict

/-! The attributes of an operation are in key order.

Setting an attribute that is there changes it in its place. -/

namespace RegionIR

namespace Context

variable {ctx ctx' : Context}

/-- Whether the attributes of all operations are in key order. -/
def Keyed (ctx : Context) : Prop :=
  ∀ o op, ctx.op? o = some op → op.attrs.Sorted

namespace Keyed

theorem of_same (hk : ctx.Keyed) (hop : ∀ o, (ctx'.op? o).map Op.attrs = (ctx.op? o).map Op.attrs) :
    ctx'.Keyed := by
  intro o op ho
  obtain ⟨old, hold, he⟩ := exists_of_map_eq (hop o) ho
  exact he ▸ hk o old hold

theorem createOp {spec : OpSpec} {id : OpId} (hk : ctx.Keyed) (hs : spec.attrs.Sorted)
    (h : CreatesOp ctx spec ctx' id) : ctx'.Keyed := by
  intro o op ho
  rw [h.op?] at ho
  split at ho
  · cases Option.some.inj ho
    exact hs
  · exact hk o op ho

theorem pushOp {b : BlockId} {id : OpId} (hk : ctx.Keyed) (h : ctx.pushOp b id = .ok ctx') :
    ctx'.Keyed := by
  obtain ⟨-, -, rfl⟩ := pushOp_ok h
  refine hk.of_same fun o => ?_
  simp only [op?_modifyBlock, op?_modifyOp]
  split <;> simp [Function.comp_def]

theorem insertOpBefore {b : BlockId} {anchor id : OpId} (hk : ctx.Keyed)
    (h : ctx.insertOpBefore b anchor id = .ok ctx') : ctx'.Keyed := by
  obtain ⟨-, block, ops, -, -, rfl⟩ := insertOpBefore_ok h
  refine hk.of_same fun o => ?_
  simp only [op?_modifyBlock, op?_modifyOp]
  split <;> simp [Function.comp_def]

theorem detachOp {b : BlockId} {id : OpId} (hk : ctx.Keyed) (h : ctx.detachOp b id = .ok ctx') :
    ctx'.Keyed := by
  obtain ⟨-, -, rfl⟩ := detachOp_ok h
  refine hk.of_same fun o => ?_
  simp only [op?_modifyBlock, op?_modifyOp]
  split
  · rw [Option.map_map]
    congr 1
    funext op
    simp only [Function.comp_apply]
    split <;> rfl
  · rfl

theorem removeOp {id : OpId} (hk : ctx.Keyed) (h : ctx.removeOp id = .ok ctx') : ctx'.Keyed := by
  obtain ⟨op, -, -, -, rfl⟩ := removeOp_ok h
  exact hk

theorem setResultType {id : OpId} {i : Nat} {ty : Ty} (hk : ctx.Keyed)
    (h : ctx.setResultType id i ty = .ok ctx') : ctx'.Keyed := by
  obtain ⟨op, v, -, -, -, rfl⟩ := setResultType_ok h
  refine hk.of_same fun o => ?_
  simp only [op?_modifyValue, op?_modifyOp]
  split <;> simp [Function.comp_def]

theorem setArgType {b : BlockId} {i : Nat} {ty : Ty} (hk : ctx.Keyed)
    (h : ctx.setArgType b i ty = .ok ctx') : ctx'.Keyed := by
  obtain ⟨block, v, -, -, -, rfl⟩ := setArgType_ok h
  exact hk

theorem setAttr {id : OpId} {key : String} {a : Attr Ty} {old : Option (Attr Ty)}
    (hk : ctx.Keyed) (h : ctx.setAttr id key a = .ok (ctx', old)) : ctx'.Keyed := by
  obtain ⟨op, -, rfl⟩ := setAttr_ok h
  intro o op' ho
  rw [op?_modifyOp] at ho
  split at ho
  · rw [Option.map_eq_some_iff] at ho
    obtain ⟨op'', ho, rfl⟩ := ho
    exact (hk o op'' ho).insert key a
  · exact hk o op' ho

theorem replaceAllUses {old new : ValueId} (hk : ctx.Keyed)
    (h : ctx.replaceAllUses old new = .ok ctx') : ctx'.Keyed := by
  by_cases hne : old = new
  · simp only [Context.replaceAllUses, hne, if_true, except_pure_eq_ok] at h
    exact h ▸ hk
  · obtain ⟨hop, -⟩ := replaceAllUses_ok hne h
    refine hk.of_same fun o => ?_
    rw [hop]
    simp [Function.comp_def]

end Keyed

end Context

end RegionIR
