import RegionIR.Proofs.Context.Links

/-! The table of values agrees with the owners of values.

A result is listed by its operation, an argument by its block, at the index that its origin
names, and its type in the table is the one that the owner lists. Every edit keeps this. -/

namespace RegionIR

namespace Context

variable {ctx ctx' : Context}

theorem value?_of_appended {tys : List Ty} {origin : Nat → Origin}
    (hvalue : ∀ v, ctx'.value? v = if v.index < ctx.values.size then ctx.value? v
      else (tys[v.index - ctx.values.size]?).map fun ty => ⟨origin (v.index - ctx.values.size), ty⟩)
    {v : ValueId} {value : Value} :
    ctx'.value? v = some value ↔ ctx.value? v = some value ∨ ∃ i, v = ⟨ctx.values.size + i⟩ ∧
      value.origin = origin i ∧ tys[i]? = some value.ty := by
  rw [hvalue]
  obtain ⟨k⟩ := v
  by_cases hk : k < ctx.values.size
  · simp only [hk, if_true, iff_self_or, ValueId.mk.injEq]
    rintro ⟨i, rfl, -⟩
    omega
  · have hnone : ctx.value? ⟨k⟩ = none := by simpa [Context.value?] using hk
    simp only [hk, if_false, hnone, reduceCtorEq, false_or, Option.map_eq_some_iff,
      ValueId.mk.injEq]
    obtain ⟨o, t⟩ := value
    constructor
    · rintro ⟨ty, hty, he⟩
      simp only [Value.mk.injEq] at he
      obtain ⟨rfl, rfl⟩ := he
      exact ⟨k - ctx.values.size, by omega, rfl, hty⟩
    · rintro ⟨i, rfl, rfl, hty⟩
      exact ⟨t, by simpa using hty, by simp⟩

theorem exists_value?_of_retyped {v w : ValueId} {ty : Ty} {origin : Origin} {t : Ty}
    (h : (ctx.modifyValue v fun value => { value with ty }).value? w = some ⟨origin, t⟩) :
    ∃ t, ctx.value? w = some ⟨origin, t⟩ := by
  rw [value?_modifyValue] at h
  split at h
  · rw [Option.map_eq_some_iff] at h
    obtain ⟨⟨origin', t'⟩, hw, he⟩ := h
    simp only [Value.mk.injEq] at he
    exact ⟨t', by rw [hw, he.1]⟩
  · exact ⟨t, h⟩

theorem value?_of_retyped {v w : ValueId} {ty t : Ty} {origin : Origin}
    (h : ctx.value? w = some ⟨origin, t⟩) :
    (ctx.modifyValue v fun value => { value with ty }).value? w =
      some ⟨origin, if w = v then ty else t⟩ := by
  rw [value?_modifyValue, h]
  split <;> rfl

theorem ne_of_origin_ne {v w : ValueId} {o o' : Origin} {t t' : Ty}
    (hv : ctx.value? v = some ⟨o, t⟩) (hw : ctx.value? w = some ⟨o', t'⟩) (h : o ≠ o') : v ≠ w := by
  rintro rfl
  exact h (congrArg Value.origin (Option.some.inj (hv.symm.trans hw)))

theorem ite_map_eq_some_iff {ι α : Type} [DecidableEq ι] {i j : ι} {x : Option α} {f : α → α}
    {a : α} : (if i = j then x.map f else x) = some a ↔
      ∃ b, x = some b ∧ (if i = j then f b else b) = a := by
  split
  · exact Option.map_eq_some_iff
  · simp

theorem getElem?_set_types {vs : List ValueId} {tys : List Ty} {i j : Nat} {v w : ValueId}
    {ty t : Ty} (hnd : vs.Nodup) (hi : i < tys.length) (hv : vs[i]? = some v)
    (hw : vs[j]? = some w) (ht : tys[j]? = some t) :
    (tys.set i ty)[j]? = some (if w = v then ty else t) := by
  by_cases he : i = j
  · subst he
    obtain rfl := Option.some.inj (hv.symm.trans hw)
    rw [List.getElem?_set_self hi, if_pos rfl]
  · have hne : w ≠ v := by
      rintro rfl
      have hlt := (List.getElem?_eq_some_iff.mp hv).1
      exact he ((List.getElem?_inj hlt hnd).mp (hv.trans hw.symm))
    rw [List.getElem?_set_ne he, ht, if_neg hne]

theorem nodup_of_origins (ctx : Context) {l : List ValueId} (origin : Nat → Origin)
    (horigin : Function.Injective origin)
    (h : ∀ i v, l[i]? = some v → ∃ ty, ctx.value? v = some ⟨origin i, ty⟩) : l.Nodup := by
  rw [List.nodup_iff_injective_get]
  intro i j hij
  obtain ⟨ty, hi⟩ := h i (l.get i) (by simp)
  obtain ⟨ty', hj⟩ := h j (l.get j) (by simp)
  rw [hij, hj, Option.some_inj, Value.mk.injEq] at hi
  exact Fin.ext (horigin hi.1).symm

structure Typed (ctx : Context) : Prop where
  result {o : OpId} {op : Op} {i : Nat} {v : ValueId} : ctx.op? o = some op →
    op.results[i]? = some v →
      ∃ ty, op.resultTypes[i]? = some ty ∧ ctx.value? v = some ⟨.result o i, ty⟩
  results_length {o : OpId} {op : Op} : ctx.op? o = some op →
    op.results.length = op.resultTypes.length
  argument {b : BlockId} {block : Block} {i : Nat} {v : ValueId} : ctx.block? b = some block →
    block.args[i]? = some v →
      ∃ ty, block.argTypes[i]? = some ty ∧ ctx.value? v = some ⟨.argument b i, ty⟩
  args_length {b : BlockId} {block : Block} : ctx.block? b = some block →
    block.args.length = block.argTypes.length
  origin_result {v : ValueId} {o : OpId} {i : Nat} {ty : Ty} :
    ctx.value? v = some ⟨.result o i, ty⟩ → ∃ op, ctx.op? o = some op ∧ op.results[i]? = some v
  origin_argument {v : ValueId} {b : BlockId} {i : Nat} {ty : Ty} :
    ctx.value? v = some ⟨.argument b i, ty⟩ →
      ∃ block, ctx.block? b = some block ∧ block.args[i]? = some v

namespace Typed

theorem results_origin (ht : ctx.Typed) {o : OpId} {op : Op} (ho : ctx.op? o = some op)
    {v : ValueId} (hv : v ∈ op.results) : ∃ i ty, ctx.value? v = some ⟨.result o i, ty⟩ := by
  obtain ⟨i, hi⟩ := List.mem_iff_getElem?.mp hv
  obtain ⟨ty, -, hval⟩ := ht.result ho hi
  exact ⟨i, ty, hval⟩

theorem args_origin (ht : ctx.Typed) {b : BlockId} {block : Block} (hb : ctx.block? b = some block)
    {v : ValueId} (hv : v ∈ block.args) : ∃ i ty, ctx.value? v = some ⟨.argument b i, ty⟩ := by
  obtain ⟨i, hi⟩ := List.mem_iff_getElem?.mp hv
  obtain ⟨ty, -, hval⟩ := ht.argument hb hi
  exact ⟨i, ty, hval⟩

theorem result_unique (ht : ctx.Typed) {o p : OpId} {op op' : Op} (ho : ctx.op? o = some op)
    (hp : ctx.op? p = some op') {v : ValueId} (hv : v ∈ op.results) (hv' : v ∈ op'.results) :
    o = p := by
  obtain ⟨i, ty, hval⟩ := ht.results_origin ho hv
  obtain ⟨j, ty', hval'⟩ := ht.results_origin hp hv'
  rw [hval, Option.some_inj, Value.mk.injEq, Origin.result.injEq] at hval'
  exact hval'.1.1

theorem arg_not_result (ht : ctx.Typed) {o : OpId} {op : Op} {b : BlockId} {block : Block}
    (ho : ctx.op? o = some op) (hb : ctx.block? b = some block) {v : ValueId}
    (hv : v ∈ block.args) : v ∉ op.results := by
  intro hr
  obtain ⟨i, ty, hval⟩ := ht.results_origin ho hr
  obtain ⟨j, ty', hval'⟩ := ht.args_origin hb hv
  rw [hval, Option.some_inj, Value.mk.injEq] at hval'
  cases hval'.1

theorem results_nodup (ht : ctx.Typed) {o : OpId} {op : Op} (ho : ctx.op? o = some op) :
    op.results.Nodup := by
  refine nodup_of_origins ctx (Origin.result o) (fun i j h => by simpa using h) fun i v hi => ?_
  obtain ⟨ty, -, hval⟩ := ht.result ho hi
  exact ⟨ty, hval⟩

theorem args_nodup (ht : ctx.Typed) {b : BlockId} {block : Block}
    (hb : ctx.block? b = some block) : block.args.Nodup := by
  refine nodup_of_origins ctx (Origin.argument b) (fun i j h => by simpa using h)
    fun i v hi => ?_
  obtain ⟨ty, -, hval⟩ := ht.argument hb hi
  exact ⟨ty, hval⟩

theorem of_same (ht : ctx.Typed)
    (hop : ∀ o, (ctx'.op? o).map (fun op => (op.results, op.resultTypes)) =
      (ctx.op? o).map fun op => (op.results, op.resultTypes))
    (hblock : ∀ b, (ctx'.block? b).map (fun block => (block.args, block.argTypes)) =
      (ctx.block? b).map fun block => (block.args, block.argTypes))
    (hvalue : ∀ v, ctx'.value? v = ctx.value? v) : ctx'.Typed := by
  have op_back {o : OpId} {op : Op} (h : ctx'.op? o = some op) :
      ∃ old, ctx.op? o = some old ∧ old.results = op.results ∧
        old.resultTypes = op.resultTypes := by
    simpa using exists_of_map_eq (hop o) h
  have op_on {o : OpId} {old : Op} (h : ctx.op? o = some old) :
      ∃ op, ctx'.op? o = some op ∧ op.results = old.results ∧
        op.resultTypes = old.resultTypes := by
    simpa using exists_of_map_eq (hop o).symm h
  have block_back {b : BlockId} {block : Block} (h : ctx'.block? b = some block) :
      ∃ old, ctx.block? b = some old ∧ old.args = block.args ∧
        old.argTypes = block.argTypes := by
    simpa using exists_of_map_eq (hblock b) h
  have block_on {b : BlockId} {old : Block} (h : ctx.block? b = some old) :
      ∃ block, ctx'.block? b = some block ∧ block.args = old.args ∧
        block.argTypes = old.argTypes := by
    simpa using exists_of_map_eq (hblock b).symm h
  constructor
  case result => grind [ht.result]
  case results_length => grind [ht.results_length]
  case argument => grind [ht.argument]
  case args_length => grind [ht.args_length]
  case origin_result => grind [ht.origin_result]
  case origin_argument => grind [ht.origin_argument]

theorem createOp {spec : OpSpec} {id : OpId} (ht : ctx.Typed) (h : CreatesOp ctx spec ctx' id) :
    ctx'.Typed := by
  have hnew := h.fresh
  have hop := h.op?
  have hblock := h.block?
  have hvalue {v : ValueId} {value : Value} := @value?_of_appended ctx ctx' _ _ h.value? v value
  have hold {v : ValueId} {value : Value} (hv : ctx.value? v = some value) :
      ctx'.value? v = some value := hvalue.mpr (.inl hv)
  have hresults (i : Nat) : (ctx.freshValues spec.resultTypes.length)[i]? =
      if i < spec.resultTypes.length then some ⟨ctx.values.size + i⟩ else none :=
    getElem?_freshValues ..
  constructor
  case result =>
    intro o op i v ho hv
    rw [h.op? o] at ho
    split at ho
    · rename_i he
      cases Option.some.inj ho
      simp only [OpSpec.toOp, hresults, Option.ite_none_right_eq_some, Option.some.injEq] at hv
      obtain ⟨hi, rfl⟩ := hv
      refine ⟨spec.resultTypes[i], List.getElem?_eq_getElem hi, ?_⟩
      rw [h.value?, if_neg (by simp)]
      simp [hi, he]
    · obtain ⟨ty, hty, hval⟩ := ht.result ho hv
      exact ⟨ty, hty, hold hval⟩
  case results_length =>
    intro o op ho
    rw [h.op? o] at ho
    split at ho
    · cases Option.some.inj ho
      simp [OpSpec.toOp]
    · exact ht.results_length ho
  case argument =>
    intro b block i v hb hv
    obtain ⟨ty, hty, hval⟩ := ht.argument (h.block? b ▸ hb) hv
    exact ⟨ty, hty, hold hval⟩
  case args_length => exact fun hb => ht.args_length (h.block? _ ▸ hb)
  case origin_result =>
    intro v o i ty hv
    rcases hvalue.mp hv with hv | ⟨j, rfl, ho, hty⟩
    · obtain ⟨op, ho, hi⟩ := ht.origin_result hv
      exact ⟨op, h.op?_of_some ho, hi⟩
    · simp only [Origin.result.injEq] at ho
      obtain ⟨rfl, rfl⟩ := ho
      refine ⟨_, by rw [h.op?, if_pos rfl], ?_⟩
      simp only [OpSpec.toOp, hresults, (List.getElem?_eq_some_iff.mp hty).1, if_true]
  case origin_argument =>
    intro v b i ty hv
    rcases hvalue.mp hv with hv | ⟨j, rfl, ho, hty⟩
    · obtain ⟨block, hb, hi⟩ := ht.origin_argument hv
      exact ⟨block, (h.block? b).trans hb, hi⟩
    · simp at ho

theorem createBlock {argTypes : List Ty} {id : BlockId} (ht : ctx.Typed)
    (h : CreatesBlock ctx argTypes ctx' id) : ctx'.Typed := by
  have hvalue {v : ValueId} {value : Value} := @value?_of_appended ctx ctx' _ _ h.value? v value
  have hold {v : ValueId} {value : Value} (hv : ctx.value? v = some value) :
      ctx'.value? v = some value := hvalue.mpr (.inl hv)
  have hargs (i : Nat) : (ctx.freshValues argTypes.length)[i]? =
      if i < argTypes.length then some ⟨ctx.values.size + i⟩ else none :=
    getElem?_freshValues ..
  constructor
  case result =>
    intro o op i v ho hv
    obtain ⟨ty, hty, hval⟩ := ht.result (h.op? o ▸ ho) hv
    exact ⟨ty, hty, hold hval⟩
  case results_length => exact fun ho => ht.results_length (h.op? _ ▸ ho)
  case argument =>
    intro b block i v hb hv
    rw [h.block? b] at hb
    split at hb
    · rename_i he
      cases Option.some.inj hb
      simp only [hargs, Option.ite_none_right_eq_some, Option.some.injEq] at hv
      obtain ⟨hi, rfl⟩ := hv
      refine ⟨argTypes[i], List.getElem?_eq_getElem hi, ?_⟩
      rw [h.value?, if_neg (by simp)]
      simp [hi, he]
    · obtain ⟨ty, hty, hval⟩ := ht.argument hb hv
      exact ⟨ty, hty, hold hval⟩
  case args_length =>
    intro b block hb
    rw [h.block? b] at hb
    split at hb
    · cases Option.some.inj hb
      simp
    · exact ht.args_length hb
  case origin_result =>
    intro v o i ty hv
    rcases hvalue.mp hv with hv | ⟨j, rfl, ho, hty⟩
    · obtain ⟨op, ho, hi⟩ := ht.origin_result hv
      exact ⟨op, (h.op? o).trans ho, hi⟩
    · simp at ho
  case origin_argument =>
    intro v b i ty hv
    rcases hvalue.mp hv with hv | ⟨j, rfl, ho, hty⟩
    · obtain ⟨block, hb, hi⟩ := ht.origin_argument hv
      have hne : b ≠ id := by
        rintro rfl
        simp [h.fresh] at hb
      exact ⟨block, by rw [h.block?, if_neg hne, hb], hi⟩
    · simp only [Origin.argument.injEq] at ho
      obtain ⟨rfl, rfl⟩ := ho
      refine ⟨_, by rw [h.block?, if_pos rfl], ?_⟩
      simp only [hargs, (List.getElem?_eq_some_iff.mp hty).1, if_true]

theorem createRegion {blocks : List BlockId} {id : RegionId} (ht : ctx.Typed)
    (h : CreatesRegion ctx blocks ctx' id) : ctx'.Typed := by
  refine ht.of_same (fun o => by rw [h.op?]) (fun b => ?_) h.value?
  rw [h.block?, Option.map_map]
  congr 1
  funext block
  simp only [Function.comp_apply]
  split <;> rfl

theorem pushOp {b : BlockId} {id : OpId} (ht : ctx.Typed) (h : ctx.pushOp b id = .ok ctx') :
    ctx'.Typed := by
  obtain ⟨-, -, rfl⟩ := pushOp_ok h
  refine ht.of_same (fun o => ?_) (fun c => ?_) fun _ => rfl
  · simp only [op?_modifyBlock, op?_modifyOp]
    split <;> simp [Function.comp_def]
  · simp only [block?_modifyBlock, block?_modifyOp]
    split <;> simp [Function.comp_def]

theorem insertOpBefore {b : BlockId} {anchor id : OpId} (ht : ctx.Typed)
    (h : ctx.insertOpBefore b anchor id = .ok ctx') : ctx'.Typed := by
  obtain ⟨-, block, ops, -, -, rfl⟩ := insertOpBefore_ok h
  refine ht.of_same (fun o => ?_) (fun c => ?_) fun _ => rfl
  · simp only [op?_modifyBlock, op?_modifyOp]
    split <;> simp [Function.comp_def]
  · simp only [block?_modifyBlock, block?_modifyOp]
    split <;> simp [Function.comp_def]

theorem detachOp {b : BlockId} {id : OpId} (ht : ctx.Typed) (h : ctx.detachOp b id = .ok ctx') :
    ctx'.Typed := by
  obtain ⟨-, -, rfl⟩ := detachOp_ok h
  refine ht.of_same (fun o => ?_) (fun c => ?_) fun _ => rfl
  · simp only [op?_modifyBlock, op?_modifyOp]
    split
    · rw [Option.map_map]
      congr 1
      funext op
      simp only [Function.comp_apply]
      split <;> rfl
    · rfl
  · simp only [block?_modifyBlock, block?_modifyOp]
    split <;> simp [Function.comp_def]

theorem removeOp {id : OpId} (ht : ctx.Typed) (h : ctx.removeOp id = .ok ctx') : ctx'.Typed := by
  obtain ⟨op, -, -, -, rfl⟩ := removeOp_ok h
  exact ht.of_same (fun _ => rfl) (fun _ => rfl) fun _ => rfl

theorem setAttr {id : OpId} {key : String} {a : Attr Ty} {old : Option (Attr Ty)}
    (ht : ctx.Typed) (h : ctx.setAttr id key a = .ok (ctx', old)) : ctx'.Typed := by
  obtain ⟨op, -, rfl⟩ := setAttr_ok h
  refine ht.of_same (fun o => ?_) (fun _ => rfl) fun _ => rfl
  simp only [op?_modifyOp]
  split <;> simp [Function.comp_def]

theorem replaceAllUses {old new : ValueId} (ht : ctx.Typed)
    (h : ctx.replaceAllUses old new = .ok ctx') : ctx'.Typed := by
  by_cases hne : old = new
  · simp only [Context.replaceAllUses, hne, if_true, except_pure_eq_ok] at h
    exact h ▸ ht
  · obtain ⟨hop, hctx⟩ := replaceAllUses_ok hne h
    refine ht.of_same (fun o => ?_) (fun b => ?_) fun v => ?_
    · rw [hop]
      simp [Function.comp_def]
    · rw [hctx]
      rfl
    · rw [hctx]
      rfl

/-- The new type is seen where the value is, and no other operation has it among its results. -/
theorem setResultType {id : OpId} {i : Nat} {ty : Ty} (ht : ctx.Typed)
    (h : ctx.setResultType id i ty = .ok ctx') : ctx'.Typed := by
  obtain ⟨op, v, ho, hi, hv, rfl⟩ := setResultType_ok h
  obtain ⟨_, -, hval⟩ := ht.result ho hv
  constructor
  case result =>
    intro o new j w hnew hw
    rw [op?_modifyValue, op?_modifyOp, ite_map_eq_some_iff] at hnew
    obtain ⟨old, hold, rfl⟩ := hnew
    by_cases hid : o = id
    · subst hid
      obtain rfl := Option.some.inj (ho.symm.trans hold)
      rw [if_pos rfl] at hw ⊢
      obtain ⟨t, hty, hval'⟩ := ht.result ho hw
      exact ⟨_, getElem?_set_types (ht.results_nodup ho) hi hv hw hty, value?_of_retyped hval'⟩
    · rw [if_neg hid] at hw ⊢
      obtain ⟨t, hty, hval'⟩ := ht.result hold hw
      have hne := ne_of_origin_ne hval' hval (by simp [hid])
      refine ⟨t, hty, ?_⟩
      rw [value?_modifyValue, if_neg hne]
      exact hval'
  case results_length =>
    intro o new hnew
    rw [op?_modifyValue, op?_modifyOp, ite_map_eq_some_iff] at hnew
    obtain ⟨old, hold, rfl⟩ := hnew
    have hlen := ht.results_length hold
    split <;> simp [hlen]
  case argument =>
    intro b block j w hb hw
    obtain ⟨t, hty, hval'⟩ := ht.argument (b := b) hb hw
    have hne := ne_of_origin_ne hval' hval (by simp)
    refine ⟨t, hty, ?_⟩
    rw [value?_modifyValue, if_neg hne]
    exact hval'
  case args_length =>
    intro b block hb
    exact ht.args_length (b := b) hb
  case origin_result =>
    intro w o j t hw
    obtain ⟨t', hw'⟩ := exists_value?_of_retyped hw
    obtain ⟨old, hold, hj⟩ := ht.origin_result hw'
    refine ⟨if o = id then { old with resultTypes := old.resultTypes.set i ty } else old, ?_, ?_⟩
    · rw [op?_modifyValue, op?_modifyOp, ite_map_eq_some_iff]
      exact ⟨old, hold, rfl⟩
    · split <;> exact hj
  case origin_argument =>
    intro w b j t hw
    obtain ⟨t', hw'⟩ := exists_value?_of_retyped hw
    exact ht.origin_argument hw'

theorem setArgType {b : BlockId} {i : Nat} {ty : Ty} (ht : ctx.Typed)
    (h : ctx.setArgType b i ty = .ok ctx') : ctx'.Typed := by
  obtain ⟨block, v, hb, hi, hv, rfl⟩ := setArgType_ok h
  obtain ⟨_, -, hval⟩ := ht.argument hb hv
  constructor
  case argument =>
    intro c new j w hnew hw
    rw [block?_modifyValue, block?_modifyBlock, ite_map_eq_some_iff] at hnew
    obtain ⟨old, hold, rfl⟩ := hnew
    by_cases hid : c = b
    · subst hid
      obtain rfl := Option.some.inj (hb.symm.trans hold)
      rw [if_pos rfl] at hw ⊢
      obtain ⟨t, hty, hval'⟩ := ht.argument hb hw
      exact ⟨_, getElem?_set_types (ht.args_nodup hb) hi hv hw hty, value?_of_retyped hval'⟩
    · rw [if_neg hid] at hw ⊢
      obtain ⟨t, hty, hval'⟩ := ht.argument hold hw
      have hne := ne_of_origin_ne hval' hval (by simp [hid])
      refine ⟨t, hty, ?_⟩
      rw [value?_modifyValue, if_neg hne]
      exact hval'
  case args_length =>
    intro c new hnew
    rw [block?_modifyValue, block?_modifyBlock, ite_map_eq_some_iff] at hnew
    obtain ⟨old, hold, rfl⟩ := hnew
    have hlen := ht.args_length hold
    split <;> simp [hlen]
  case result =>
    intro o op j w ho hw
    obtain ⟨t, hty, hval'⟩ := ht.result (o := o) ho hw
    have hne := ne_of_origin_ne hval' hval (by simp)
    refine ⟨t, hty, ?_⟩
    rw [value?_modifyValue, if_neg hne]
    exact hval'
  case results_length =>
    intro o op ho
    exact ht.results_length (o := o) ho
  case origin_argument =>
    intro w c j t hw
    obtain ⟨t', hw'⟩ := exists_value?_of_retyped hw
    obtain ⟨old, hold, hj⟩ := ht.origin_argument hw'
    refine ⟨if c = b then { old with argTypes := old.argTypes.set i ty } else old, ?_, ?_⟩
    · rw [block?_modifyValue, block?_modifyBlock, ite_map_eq_some_iff]
      exact ⟨old, hold, rfl⟩
    · split <;> exact hj
  case origin_result =>
    intro w o j t hw
    obtain ⟨t', hw'⟩ := exists_value?_of_retyped hw
    exact ht.origin_result hw'

end Typed

end Context

end RegionIR
