import RegionIR.Proofs.Context.Values

/-! The ledger lists operands only, and none twice.

An operation is recorded when all its operands are in the ledger. Creating an operation records
it, removing it strikes its uses, and what is recorded stays recorded while uses move from one
value to another. -/

namespace RegionIR

namespace Context

variable {ctx ctx' : Context}

structure Ledgered (ctx : Context) : Prop where
  sound {v : ValueId} {u : Use} : (v, u) ∈ ctx.ledger →
    ∃ op, ctx.op? u.user = some op ∧ op.operands[u.operand]? = some v
  nodup : ctx.ledger.Nodup

/-- Whether all operands of an operation are in the ledger. -/
def Recorded (ctx : Context) (o : OpId) : Prop :=
  ∀ op i v, ctx.op? o = some op → op.operands[i]? = some v → (v, ⟨o, i⟩) ∈ ctx.ledger

theorem uses_nodup (hd : ctx.Ledgered) (v : ValueId) : (ctx.uses v).Nodup := by
  refine List.Nodup.filterMap ?_ hd.nodup
  rintro ⟨w, u⟩ ⟨w', u'⟩ x hx hx'
  simp only [Option.mem_def, Option.ite_none_right_eq_some, Option.some.injEq] at hx hx'
  obtain ⟨rfl, rfl⟩ := hx
  obtain ⟨rfl, rfl⟩ := hx'
  rfl

theorem mem_mapIdx_uses {operands : List ValueId} {id : OpId} {v : ValueId} {u : Use} :
    (v, u) ∈ operands.mapIdx (fun i v => (v, (⟨id, i⟩ : Use))) ↔
      u.user = id ∧ operands[u.operand]? = some v := by
  obtain ⟨user, i⟩ := u
  simp only [List.mem_iff_getElem?, List.getElem?_mapIdx, Option.map_eq_some_iff, Prod.mk.injEq,
    Use.mk.injEq]
  constructor
  · rintro ⟨j, w, hw, rfl, rfl, rfl⟩
    exact ⟨rfl, hw⟩
  · rintro ⟨rfl, hv⟩
    exact ⟨i, v, hv, rfl, rfl, rfl⟩

/-- The uses that the operation `id` makes of a value when it has the given operands. -/
def usesBy (id : OpId) (operands : List ValueId) (v : ValueId) : List Use :=
  (operands.mapIdx fun i a => (a, (⟨id, i⟩ : Use))).filterMap fun e => if e.1 = v then some e.2 else none

theorem mem_usesBy {id : OpId} {operands : List ValueId} {v : ValueId} {u : Use} :
    u ∈ usesBy id operands v ↔ u.user = id ∧ operands[u.operand]? = some v := by
  rw [← mem_mapIdx_uses]
  simp [usesBy]

theorem usesBy_eq_nil {id : OpId} {operands : List ValueId} {v : ValueId} (h : v ∉ operands) :
    usesBy id operands v = [] :=
  List.eq_nil_iff_forall_not_mem.mpr fun _ hu => h (List.mem_of_getElem? (mem_usesBy.mp hu).2)

theorem map_user_usesBy (id : OpId) (operands : List ValueId) (v : ValueId) :
    (usesBy id operands v).map Use.user = List.replicate (operands.count v) id := by
  refine List.eq_replicate_iff.mpr ⟨?_, fun x hx => ?_⟩
  · rw [List.length_map, usesBy, List.length_filterMap_eq_countP, List.mapIdx_eq_zipIdx_map,
      List.countP_map]
    conv_rhs => rw [← List.zipIdx_map_fst 0 operands, List.count, List.countP_map]
    refine List.countP_congr fun e _ => ?_
    simp [Function.comp_apply]
  · obtain ⟨u, hu, rfl⟩ := List.mem_map.mp hx
    exact (mem_usesBy.mp hu).1

/-- What most edits leave alone: the operands and the ledger. -/
structure KeepsUses (ctx ctx' : Context) : Prop where
  operands (o : OpId) : (ctx'.op? o).map Op.operands = (ctx.op? o).map Op.operands
  ledger : ctx'.ledger = ctx.ledger

namespace KeepsUses

theorem trans {ctx₁ : Context} (h₁ : KeepsUses ctx ctx₁) (h₂ : KeepsUses ctx₁ ctx') :
    KeepsUses ctx ctx' :=
  ⟨fun o => (h₂.operands o).trans (h₁.operands o), h₂.ledger.trans h₁.ledger⟩

/-- An operation may change in all but its operands. -/
theorem modifyOp {id : OpId} {f : Op → Op} (hop : ∀ o, ctx'.op? o = (ctx.modifyOp id f).op? o)
    (hledger : ctx'.ledger = ctx.ledger) (hf : ∀ op, (f op).operands = op.operands) :
    KeepsUses ctx ctx' := by
  refine ⟨fun o => ?_, hledger⟩
  rw [hop, op?_modifyOp]
  split
  · rw [Option.map_map]
    exact congrArg (Option.map · _) (funext hf)
  · rfl

theorem createBlock {argTypes : List Ty} {id : BlockId} (h : CreatesBlock ctx argTypes ctx' id) :
    KeepsUses ctx ctx' :=
  ⟨fun o => by rw [h.op?], h.ledger⟩

theorem createRegion {blocks : List BlockId} {id : RegionId}
    (h : CreatesRegion ctx blocks ctx' id) : KeepsUses ctx ctx' :=
  ⟨fun o => by rw [h.op?], h.ledger⟩

theorem pushOp {b : BlockId} {id : OpId} (h : ctx.pushOp b id = .ok ctx') :
    KeepsUses ctx ctx' := by
  obtain ⟨-, -, rfl⟩ := pushOp_ok h
  exact .modifyOp (fun _ => rfl) rfl fun _ => rfl

theorem insertOpBefore {b : BlockId} {anchor id : OpId}
    (h : ctx.insertOpBefore b anchor id = .ok ctx') : KeepsUses ctx ctx' := by
  obtain ⟨-, block, ops, -, -, rfl⟩ := insertOpBefore_ok h
  exact .modifyOp (fun _ => rfl) rfl fun _ => rfl

theorem detachOp {b : BlockId} {id : OpId} (h : ctx.detachOp b id = .ok ctx') :
    KeepsUses ctx ctx' := by
  obtain ⟨-, -, rfl⟩ := detachOp_ok h
  refine .modifyOp (fun _ => rfl) rfl fun op => ?_
  split <;> rfl

theorem setResultType {id : OpId} {i : Nat} {ty : Ty} (h : ctx.setResultType id i ty = .ok ctx') :
    KeepsUses ctx ctx' := by
  obtain ⟨op, v, -, -, -, rfl⟩ := setResultType_ok h
  exact .modifyOp (fun _ => rfl) rfl fun _ => rfl

theorem setArgType {b : BlockId} {i : Nat} {ty : Ty} (h : ctx.setArgType b i ty = .ok ctx') :
    KeepsUses ctx ctx' := by
  obtain ⟨block, v, -, -, -, rfl⟩ := setArgType_ok h
  exact ⟨fun _ => rfl, rfl⟩

theorem setAttr {id : OpId} {key : String} {a : Attr Ty} {old : Option (Attr Ty)}
    (h : ctx.setAttr id key a = .ok (ctx', old)) : KeepsUses ctx ctx' := by
  obtain ⟨op, -, rfl⟩ := setAttr_ok h
  exact .modifyOp (fun _ => rfl) rfl fun _ => rfl

end KeepsUses

namespace Ledgered

theorem value_unique (hd : ctx.Ledgered) {v w : ValueId} {u : Use} (hv : (v, u) ∈ ctx.ledger)
    (hw : (w, u) ∈ ctx.ledger) : v = w := by
  obtain ⟨op, ho, hi⟩ := hd.sound hv
  obtain ⟨op', ho', hi'⟩ := hd.sound hw
  rw [ho] at ho'
  cases Option.some.inj ho'
  rw [hi] at hi'
  exact Option.some.inj hi'

/-- Only the operands and the ledger count; entries may be struck. -/
theorem of_same (hd : ctx.Ledgered)
    (hop : ∀ o, (ctx'.op? o).map Op.operands = (ctx.op? o).map Op.operands)
    (hledger : ctx'.ledger.Sublist ctx.ledger) : ctx'.Ledgered := by
  refine ⟨fun {v u} hm => ?_, hd.nodup.sublist hledger⟩
  obtain ⟨op, ho, hi⟩ := hd.sound (hledger.subset hm)
  obtain ⟨op', ho', hops⟩ := exists_of_map_eq (hop u.user).symm ho
  exact ⟨op', ho', hops ▸ hi⟩

theorem of_keeps (hd : ctx.Ledgered) (h : KeepsUses ctx ctx') : ctx'.Ledgered :=
  hd.of_same h.operands (by rw [h.ledger])

theorem createOp {spec : OpSpec} {id : OpId} (hd : ctx.Ledgered) (h : CreatesOp ctx spec ctx' id) :
    ctx'.Ledgered := by
  constructor
  case sound =>
    intro v u hm
    rw [h.ledger, List.mem_append] at hm
    rcases hm with hm | hm
    · obtain ⟨op, ho, hi⟩ := hd.sound hm
      exact ⟨op, h.op?_of_some ho, hi⟩
    · obtain ⟨hu, hi⟩ := mem_mapIdx_uses.mp hm
      exact ⟨_, by rw [h.op?, if_pos hu], hi⟩
  case nodup =>
    rw [h.ledger]
    refine List.Nodup.append hd.nodup ?_ ?_
    · rw [List.nodup_iff_injective_getElem]
      intro i j hij
      simpa [Fin.ext_iff] using congrArg (fun e => e.2.operand) hij
    · rintro ⟨v, u⟩ hold hnew
      obtain ⟨op, ho, -⟩ := hd.sound hold
      rw [(mem_mapIdx_uses.mp hnew).1, h.fresh] at ho
      simp at ho

theorem createBlock {argTypes : List Ty} {id : BlockId} (hd : ctx.Ledgered)
    (h : CreatesBlock ctx argTypes ctx' id) : ctx'.Ledgered :=
  hd.of_keeps (.createBlock h)

theorem createRegion {blocks : List BlockId} {id : RegionId} (hd : ctx.Ledgered)
    (h : CreatesRegion ctx blocks ctx' id) : ctx'.Ledgered :=
  hd.of_keeps (.createRegion h)

theorem pushOp {b : BlockId} {id : OpId} (hd : ctx.Ledgered) (h : ctx.pushOp b id = .ok ctx') :
    ctx'.Ledgered :=
  hd.of_keeps (.pushOp h)

theorem insertOpBefore {b : BlockId} {anchor id : OpId} (hd : ctx.Ledgered)
    (h : ctx.insertOpBefore b anchor id = .ok ctx') : ctx'.Ledgered :=
  hd.of_keeps (.insertOpBefore h)

theorem detachOp {b : BlockId} {id : OpId} (hd : ctx.Ledgered)
    (h : ctx.detachOp b id = .ok ctx') : ctx'.Ledgered :=
  hd.of_keeps (.detachOp h)

theorem removeOp {id : OpId} (hd : ctx.Ledgered) (h : ctx.removeOp id = .ok ctx') :
    ctx'.Ledgered := by
  obtain ⟨op, -, -, -, rfl⟩ := removeOp_ok h
  exact hd.of_same (fun _ => rfl) List.filter_sublist

theorem setResultType {id : OpId} {i : Nat} {ty : Ty} (hd : ctx.Ledgered)
    (h : ctx.setResultType id i ty = .ok ctx') : ctx'.Ledgered :=
  hd.of_keeps (.setResultType h)

theorem setArgType {b : BlockId} {i : Nat} {ty : Ty} (hd : ctx.Ledgered)
    (h : ctx.setArgType b i ty = .ok ctx') : ctx'.Ledgered :=
  hd.of_keeps (.setArgType h)

theorem setAttr {id : OpId} {key : String} {a : Attr Ty} {old : Option (Attr Ty)}
    (hd : ctx.Ledgered) (h : ctx.setAttr id key a = .ok (ctx', old)) : ctx'.Ledgered :=
  hd.of_keeps (.setAttr h)

theorem replaceAllUses {old new : ValueId} (hd : ctx.Ledgered)
    (h : ctx.replaceAllUses old new = .ok ctx') : ctx'.Ledgered := by
  by_cases hne : old = new
  · simp only [Context.replaceAllUses, hne, if_true, except_pure_eq_ok] at h
    exact h ▸ hd
  obtain ⟨hop, hctx⟩ := replaceAllUses_ok hne h
  have hledger : ctx'.ledger = ctx.ledger.filter (fun e => e.1 ≠ old)
      ++ (ctx.uses old).map fun u => (new, u) := by rw [hctx]
  constructor
  case sound =>
    intro v u hm
    rcases (mem_ledger_of_replaceAllUses hne h).mp hm with ⟨hm, hv⟩ | ⟨rfl, hu⟩
    · obtain ⟨op, ho, hi⟩ := hd.sound hm
      have hnot : u ∉ ctx.uses old := fun hu => hv (hd.value_unique hm (mem_uses.mp hu))
      refine ⟨_, by rw [hop, ho, Option.map_some], ?_⟩
      simp [hi, hnot]
    · obtain ⟨op, ho, hi⟩ := hd.sound hu
      refine ⟨_, by rw [hop, ho, Option.map_some], ?_⟩
      simp [hi, mem_uses.mpr hu]
  case nodup =>
    rw [hledger]
    refine List.Nodup.append (hd.nodup.sublist List.filter_sublist) ?_ ?_
    · exact (uses_nodup hd old).map fun a b e => (Prod.mk.inj e).2
    · rintro ⟨v, u⟩ hold hnew
      obtain ⟨hm, hv⟩ := List.mem_filter.mp hold
      simp only [List.mem_map, Prod.mk.injEq] at hnew
      obtain ⟨u, hu, rfl, rfl⟩ := hnew
      simp only [decide_eq_true_eq] at hv
      exact hv (hd.value_unique hm (mem_uses.mp hu))

end Ledgered

end Context

end RegionIR
