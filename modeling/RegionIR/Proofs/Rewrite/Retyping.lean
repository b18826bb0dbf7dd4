import RegionIR.Proofs.Context.Sound
import RegionIR.Proofs.Types.Conversion
import RegionIR.Rewrite.Engine

/-! Retyping in place.

An operation keeps everything but its result types and the types in its attributes, a block
everything but the types of its arguments. In a sound context neither is ever refused. All this
holds for any converter; a type that it cannot convert stays. -/

namespace RegionIR

/-- The operation with its own types converted. -/
def Op.retypedBy (c : Converter) (op : Op) : Op :=
  { op with
    resultTypes := op.resultTypes.map c.convertOrKeep
    attrs := op.attrs.map fun e => (e.1, c.convertOrKeepAttr e.2) }

/-- The block with the types of its arguments converted. -/
def Block.retypedBy (c : Converter) (block : Block) : Block :=
  { block with argTypes := block.argTypes.map c.convertOrKeep }

/-- The operation with its own types lowered. -/
def Op.retyped (op : Op) : Op :=
  { op with resultTypes := op.resultTypes.map Ty.lowered, attrs := op.attrs.lowered }

/-- The block with the types of its arguments lowered. -/
def Block.retyped (block : Block) : Block :=
  { block with argTypes := block.argTypes.map Ty.lowered }

theorem Op.retypedBy_eq_self_iff {c : Converter} {op : Op} : op.retypedBy c = op ↔
    (∀ ty ∈ op.resultTypes, c.convertOrKeep ty = ty) ∧
      ∀ e ∈ op.attrs, c.convertOrKeepAttr e.2 = e.2 := by
  obtain ⟨location, dialect, name, operands, resultTypes, results, attrs, regions, successors,
    parent⟩ := op
  simp only [retypedBy, Op.mk.injEq, map_eq_self_iff, true_and, and_true, Prod.ext_iff]

theorem Op.retyped_eq_self_iff {op : Op} : op.retyped = op ↔
    (∀ ty ∈ op.resultTypes, ty.lowered = ty) ∧ ∀ e ∈ op.attrs, e.2.lowered = e.2 :=
  retypedBy_eq_self_iff (c := .tuples)

@[simp] theorem Op.retyped_retyped (op : Op) : op.retyped.retyped = op.retyped := by
  simp [Op.retyped, Function.comp_def]

theorem Op.retypedBy_retypedBy {c : Converter} (hc : c.Settles) (op : Op) :
    (op.retypedBy c).retypedBy c = op.retypedBy c := by
  simp [Op.retypedBy, Function.comp_def, hc.convertOrKeep, hc.convertOrKeepAttr]

theorem Block.retypedBy_retypedBy {c : Converter} (hc : c.Settles) (block : Block) :
    (block.retypedBy c).retypedBy c = block.retypedBy c := by
  simp [Block.retypedBy, Function.comp_def, hc.convertOrKeep]

namespace Context

variable {ctx ctx' ctx'' : Context} {id : OpId} {op : Op}

/-- The contexts differ in one operation and in the types of its results. -/
structure ChangesOp (ctx ctx' : Context) (id : OpId) (new : Op) : Prop where
  sound : ctx'.Sound
  op? (o : OpId) : ctx'.op? o = if o = id then some new else ctx.op? o
  block? (b : BlockId) : ctx'.block? b = ctx.block? b
  region? (r : RegionId) : ctx'.region? r = ctx.region? r
  value? {v : ValueId} : v ∉ new.results → ctx'.value? v = ctx.value? v
  ledger : ctx'.ledger = ctx.ledger

theorem ChangesOp.refl (hs : ctx.Sound) (ho : ctx.op? id = some op) : ChangesOp ctx ctx id op where
  sound := hs
  op? o := by
    split
    · rename_i he
      rw [he, ho]
    · rfl
  block? _ := rfl
  region? _ := rfl
  value? _ := rfl
  ledger := rfl

theorem ChangesOp.trans {new new' : Op} (h : ChangesOp ctx ctx' id new)
    (h' : ChangesOp ctx' ctx'' id new') (hr : new'.results = new.results) :
    ChangesOp ctx ctx'' id new' where
  sound := h'.sound
  op? o := by
    rw [h'.op?, h.op?]
    split <;> rfl
  block? b := (h'.block? b).trans (h.block? b)
  region? r := (h'.region? r).trans (h.region? r)
  value? hv := (h'.value? hv).trans (h.value? (hr ▸ hv))
  ledger := h'.ledger.trans h.ledger

theorem setResultType_total (hs : ctx.Sound) (ho : ctx.op? id = some op) {i : Nat}
    (hi : i < op.resultTypes.length) (ty : Ty) :
    ∃ ctx', ctx.setResultType id i ty = .ok ctx' ∧
      ChangesOp ctx ctx' id { op with resultTypes := op.resultTypes.set i ty } := by
  have hlen := hs.typed.results_length ho
  have hv : op.results[i]? = some (op.results.get ⟨i, hlen ▸ hi⟩) := List.getElem?_eq_getElem _
  obtain ⟨ctx', h⟩ : ∃ ctx', ctx.setResultType id i ty = .ok ctx' := by
    simp only [setResultType, except_bind_eq_ok, op_eq_ok, entryAt_eq_ok, except_pure_eq_ok]
    exact ⟨_, op, ho, _, List.getElem?_eq_getElem hi, _, hv, rfl⟩
  refine ⟨ctx', h, ?_⟩
  have hs' := hs.setResultType h
  obtain ⟨op', v, ho', -, hv', rfl⟩ := setResultType_ok h
  rw [ho] at ho'
  cases Option.some.inj ho'
  refine ⟨hs', fun o => ?_, fun _ => rfl, fun _ => rfl, fun {w} hw => ?_, rfl⟩
  · rw [op?_modifyValue, op?_modifyOp]
    split
    · rename_i he
      rw [he, ho]
      rfl
    · rfl
  · rw [value?_modifyValue, if_neg]
    · rfl
    · rintro rfl
      exact hw (List.mem_of_getElem? hv')

theorem setAttr_total (hs : ctx.Sound) (ho : ctx.op? id = some op) (key : String) (a : Attr Ty) :
    ∃ ctx' old, ctx.setAttr id key a = .ok (ctx', old) ∧
      ChangesOp ctx ctx' id { op with attrs := op.attrs.insert key a } := by
  obtain ⟨ctx', old, h⟩ : ∃ ctx' old, ctx.setAttr id key a = .ok (ctx', old) := by
    simp only [setAttr, except_bind_eq_ok, op_eq_ok, except_pure_eq_ok, Prod.mk.injEq]
    exact ⟨_, _, op, ho, rfl, rfl⟩
  refine ⟨ctx', old, h, ?_⟩
  have hs' := hs.setAttr h
  obtain ⟨op', -, rfl⟩ := setAttr_ok h
  refine ⟨hs', fun o => ?_, fun _ => rfl, fun _ => rfl, fun _ => rfl, rfl⟩
  rw [op?_modifyOp]
  split
  · rename_i he
    rw [he, ho]
    rfl
  · rfl

theorem foldlM_retypeResults {g : Ty → Ty}
    {f : Context × Bool → Ty × Nat → Except Fault (Context × Bool)}
    (hf : ∀ ctx op changed ty i, ctx.Sound → ctx.op? id = some op → op.resultTypes[i]? = some ty →
      ∃ ctx', f (ctx, changed) (ty, i) = .ok (ctx', changed || decide (g ty ≠ ty)) ∧
        ChangesOp ctx ctx' id { op with resultTypes := op.resultTypes.set i (g ty) })
    (rest done : List Ty) (changed : Bool) (hs : ctx.Sound)
    (ho : ctx.op? id = some op) (htypes : op.resultTypes = done ++ rest) :
    ∃ ctx', (rest.zipIdx done.length).foldlM f (ctx, changed) =
        .ok (ctx', changed || rest.any fun ty => decide (g ty ≠ ty)) ∧
      ChangesOp ctx ctx' id { op with resultTypes := done ++ rest.map g } := by
  induction rest generalizing ctx op done changed with
  | nil =>
    refine ⟨ctx, by simp [pure, Except.pure], ?_⟩
    rw [List.map_nil, ← htypes]
    exact ChangesOp.refl hs ho
  | cons ty rest ih =>
    have hi : op.resultTypes[done.length]? = some ty := by simp [htypes]
    obtain ⟨ctx₁, hstep, hch⟩ := hf ctx op changed ty done.length hs ho hi
    have hset : op.resultTypes.set done.length (g ty) = (done ++ [g ty]) ++ rest := by
      simp [htypes]
    rw [hset] at hch
    have ho₁ := hch.op? id
    rw [if_pos rfl] at ho₁
    obtain ⟨ctx', hrest, hch'⟩ := ih (done ++ [g ty])
      (changed || decide (g ty ≠ ty)) hch.sound ho₁ rfl
    rw [List.length_append, List.length_singleton] at hrest
    refine ⟨ctx', ?_, ?_⟩
    · rw [List.zipIdx_cons, List.foldlM_cons, hstep, except_ok_bind, hrest, List.any_cons,
        Bool.or_assoc]
    · have := hch.trans hch' rfl
      simpa using this

theorem foldlM_retypeAttrs {g : Attr Ty → Attr Ty}
    {f : Context × Bool → String × Attr Ty → Except Fault (Context × Bool)}
    (hf : ∀ ctx op changed key a, ctx.Sound → ctx.op? id = some op → (key, a) ∈ op.attrs →
      ∃ ctx', f (ctx, changed) (key, a) = .ok (ctx', changed || decide (g a ≠ a)) ∧
        ChangesOp ctx ctx' id { op with attrs := op.attrs.insert key (g a) })
    (rest done : Dict (Attr Ty)) (changed : Bool) (hs : ctx.Sound)
    (ho : ctx.op? id = some op) (hattrs : op.attrs = done ++ rest) :
    ∃ ctx', rest.foldlM f (ctx, changed) =
        .ok (ctx', changed || rest.any fun e => decide (g e.2 ≠ e.2)) ∧
      ChangesOp ctx ctx' id { op with attrs := done ++ rest.map fun e => (e.1, g e.2) } := by
  induction rest generalizing ctx op done changed with
  | nil =>
    refine ⟨ctx, by simp [pure, Except.pure], ?_⟩
    rw [List.map_nil, ← hattrs]
    exact ChangesOp.refl hs ho
  | cons e rest ih =>
    obtain ⟨key, a⟩ := e
    have hmem : (key, a) ∈ op.attrs := by simp [hattrs]
    obtain ⟨ctx₁, hstep, hch⟩ := hf ctx op changed key a hs ho hmem
    have hsorted := hs.keyed id op ho
    have hset : op.attrs.insert key (g a) = (done ++ [(key, g a)]) ++ rest := by
      rw [hattrs] at hsorted ⊢
      rw [Dict.insert_of_sorted hsorted, List.append_assoc, List.singleton_append]
    rw [hset] at hch
    have ho₁ := hch.op? id
    rw [if_pos rfl] at ho₁
    obtain ⟨ctx', hrest, hch'⟩ := ih (done ++ [(key, g a)])
      (changed || decide (g a ≠ a)) hch.sound ho₁ rfl
    refine ⟨ctx', ?_, ?_⟩
    · rw [List.foldlM_cons, hstep, except_ok_bind, hrest, List.any_cons, Bool.or_assoc]
    · have := hch.trans hch' rfl
      simpa using this

theorem retypeResults_eq (c : Converter) (hs : ctx.Sound) (ho : ctx.op? id = some op) :
    ∃ ctx', Engine.retypeResults c ctx id =
        .ok (ctx', op.resultTypes.any fun ty => decide (c.convertOrKeep ty ≠ ty)) ∧
      ChangesOp ctx ctx' id { op with resultTypes := op.resultTypes.map c.convertOrKeep } := by
  simp only [Engine.retypeResults, op_eq_ok.mpr ho, except_ok_bind]
  refine foldlM_retypeResults ?_ op.resultTypes [] false hs ho rfl
  intro ctx op changed ty i hs ho hi
  obtain ⟨hlt, hget⟩ := List.getElem?_eq_some_iff.mp hi
  by_cases he : c.convertOrKeep ty = ty
  · have hset : op.resultTypes.set i ty = op.resultTypes := by rw [← hget, List.set_getElem_self]
    refine ⟨ctx, ?_, by rw [he, hset]; exact ChangesOp.refl hs ho⟩
    cases hconv : c.convertType ty with
    | none => simp [he, pure, Except.pure]
    | some new =>
      obtain rfl : new = ty := by simpa [Converter.convertOrKeep, hconv] using he
      simp [he, pure, Except.pure]
  · obtain ⟨ctx', h, hch⟩ := setResultType_total hs ho hlt (c.convertOrKeep ty)
    refine ⟨ctx', ?_, hch⟩
    cases hconv : c.convertType ty with
    | none => simp [Converter.convertOrKeep, hconv] at he
    | some new =>
      obtain rfl : c.convertOrKeep ty = new := by simp [Converter.convertOrKeep, hconv]
      simp [he, h, pure, Except.pure]

theorem retypeAttrs_eq (c : Converter) (hs : ctx.Sound) (ho : ctx.op? id = some op) :
    ∃ ctx', Engine.retypeAttrs c ctx id =
        .ok (ctx', op.attrs.any fun e => decide (c.convertOrKeepAttr e.2 ≠ e.2)) ∧
      ChangesOp ctx ctx' id
        { op with attrs := op.attrs.map fun e => (e.1, c.convertOrKeepAttr e.2) } := by
  simp only [Engine.retypeAttrs, op_eq_ok.mpr ho, except_ok_bind]
  refine foldlM_retypeAttrs ?_ op.attrs [] false hs ho rfl
  intro ctx op changed key a hs ho hm
  by_cases he : c.convertOrKeepAttr a = a
  · have hset : op.attrs.insert key a = op.attrs := by
      have hsorted := hs.keyed id op ho
      obtain ⟨pre, post, hsplit⟩ := List.append_of_mem hm
      rw [hsplit] at hsorted ⊢
      exact Dict.insert_of_sorted hsorted a
    refine ⟨ctx, ?_, by rw [he, hset]; exact ChangesOp.refl hs ho⟩
    cases hconv : c.convertAttr a with
    | none => simp [he, pure, Except.pure]
    | some new =>
      obtain rfl : new = a := by simpa [Converter.convertOrKeepAttr, hconv] using he
      simp [he, pure, Except.pure]
  · obtain ⟨ctx', old, h, hch⟩ := setAttr_total hs ho key (c.convertOrKeepAttr a)
    refine ⟨ctx', ?_, hch⟩
    cases hconv : c.convertAttr a with
    | none => simp [Converter.convertOrKeepAttr, hconv] at he
    | some new =>
      obtain rfl : c.convertOrKeepAttr a = new := by simp [Converter.convertOrKeepAttr, hconv]
      simp [he, h, pure, Except.pure]

theorem retypeOp_eq (c : Converter) (hs : ctx.Sound) (ho : ctx.op? id = some op) :
    ∃ ctx', Engine.retypeOp c ctx id = .ok (ctx', decide (op.retypedBy c ≠ op)) ∧
      ChangesOp ctx ctx' id (op.retypedBy c) := by
  obtain ⟨ctx₁, h₁, hch₁⟩ := retypeResults_eq c hs ho
  have ho₁ := hch₁.op? id
  rw [if_pos rfl] at ho₁
  obtain ⟨ctx₂, h₂, hch₂⟩ := retypeAttrs_eq c hch₁.sound ho₁
  refine ⟨ctx₂, ?_, hch₁.trans hch₂ rfl⟩
  have hchanged : ((op.resultTypes.any fun ty => decide (c.convertOrKeep ty ≠ ty)) ||
      op.attrs.any fun e => decide (c.convertOrKeepAttr e.2 ≠ e.2)) =
        decide (op.retypedBy c ≠ op) := by
    rw [Bool.eq_iff_iff]
    simp only [Bool.or_eq_true, List.any_eq_true, decide_eq_true_eq, ne_eq,
      Op.retypedBy_eq_self_iff, not_and_or, not_forall, exists_prop]
  simp only [Engine.retypeOp, h₁, except_ok_bind, h₂, hchanged]
  rfl

theorem retypeOp_tuples (hs : ctx.Sound) (ho : ctx.op? id = some op) :
    ∃ ctx', Engine.retypeOp .tuples ctx id = .ok (ctx', decide (op.retyped ≠ op)) ∧
      ChangesOp ctx ctx' id op.retyped :=
  retypeOp_eq .tuples hs ho

section Args

variable {b : BlockId} {block : Block}

/-- The contexts differ in the types of the arguments of one block. -/
structure ChangesArgs (ctx ctx' : Context) (b : BlockId) (new : Block) : Prop where
  sound : ctx'.Sound
  op? (o : OpId) : ctx'.op? o = ctx.op? o
  block? (c : BlockId) : ctx'.block? c = if c = b then some new else ctx.block? c
  region? (r : RegionId) : ctx'.region? r = ctx.region? r
  value? {v : ValueId} : v ∉ new.args → ctx'.value? v = ctx.value? v
  ledger : ctx'.ledger = ctx.ledger

theorem ChangesArgs.refl (hs : ctx.Sound) (hb : ctx.block? b = some block) :
    ChangesArgs ctx ctx b block where
  sound := hs
  op? _ := rfl
  block? c := by
    split
    · rename_i he
      rw [he, hb]
    · rfl
  region? _ := rfl
  value? _ := rfl
  ledger := rfl

theorem ChangesArgs.trans {new new' : Block} (h : ChangesArgs ctx ctx' b new)
    (h' : ChangesArgs ctx' ctx'' b new') (ha : new'.args = new.args) :
    ChangesArgs ctx ctx'' b new' where
  sound := h'.sound
  op? o := (h'.op? o).trans (h.op? o)
  block? c := by
    rw [h'.block?, h.block?]
    split <;> rfl
  region? r := (h'.region? r).trans (h.region? r)
  value? hv := (h'.value? hv).trans (h.value? (ha ▸ hv))
  ledger := h'.ledger.trans h.ledger

theorem setArgType_total (hs : ctx.Sound) (hb : ctx.block? b = some block) {i : Nat}
    (hi : i < block.argTypes.length) (ty : Ty) :
    ∃ ctx', ctx.setArgType b i ty = .ok ctx' ∧
      ChangesArgs ctx ctx' b { block with argTypes := block.argTypes.set i ty } := by
  have hlen := hs.typed.args_length hb
  have hv : block.args[i]? = some (block.args.get ⟨i, hlen ▸ hi⟩) := List.getElem?_eq_getElem _
  obtain ⟨ctx', h⟩ : ∃ ctx', ctx.setArgType b i ty = .ok ctx' := by
    simp only [setArgType, except_bind_eq_ok, block_eq_ok, entryAt_eq_ok, except_pure_eq_ok]
    exact ⟨_, block, hb, _, List.getElem?_eq_getElem hi, _, hv, rfl⟩
  refine ⟨ctx', h, ?_⟩
  have hs' := hs.setArgType h
  obtain ⟨block', v, hb', -, hv', rfl⟩ := setArgType_ok h
  rw [hb] at hb'
  cases Option.some.inj hb'
  refine ⟨hs', fun _ => rfl, fun c => ?_, fun _ => rfl, fun {w} hw => ?_, rfl⟩
  · rw [block?_modifyValue, block?_modifyBlock]
    split
    · rename_i he
      rw [he, hb]
      rfl
    · rfl
  · rw [value?_modifyValue, if_neg]
    · rfl
    · rintro rfl
      exact hw (List.mem_of_getElem? hv')

theorem foldlM_retypeArgs {g : Ty → Ty} {p : Ty → Bool}
    {f : Context × Nat → Ty × Nat → Except Fault (Context × Nat)}
    (hf : ∀ ctx block count ty i, ctx.Sound → ctx.block? b = some block →
      block.argTypes[i]? = some ty →
        ∃ ctx', f (ctx, count) (ty, i) = .ok (ctx', count + if p ty then 1 else 0) ∧
          ChangesArgs ctx ctx' b { block with argTypes := block.argTypes.set i (g ty) })
    (rest done : List Ty) (count : Nat) (hs : ctx.Sound)
    (hb : ctx.block? b = some block) (htypes : block.argTypes = done ++ rest) :
    ∃ ctx', (rest.zipIdx done.length).foldlM f (ctx, count) = .ok (ctx', count + rest.countP p) ∧
      ChangesArgs ctx ctx' b { block with argTypes := done ++ rest.map g } := by
  induction rest generalizing ctx block done count with
  | nil =>
    refine ⟨ctx, by simp [pure, Except.pure], ?_⟩
    rw [List.map_nil, ← htypes]
    exact ChangesArgs.refl hs hb
  | cons ty rest ih =>
    have hi : block.argTypes[done.length]? = some ty := by simp [htypes]
    obtain ⟨ctx₁, hstep, hch⟩ := hf ctx block count ty done.length hs hb hi
    have hset : block.argTypes.set done.length (g ty) = (done ++ [g ty]) ++ rest := by
      simp [htypes]
    rw [hset] at hch
    have hb₁ := hch.block? b
    rw [if_pos rfl] at hb₁
    obtain ⟨ctx', hrest, hch'⟩ := ih (done ++ [g ty]) (count + if p ty then 1 else 0)
      hch.sound hb₁ rfl
    rw [List.length_append, List.length_singleton] at hrest
    refine ⟨ctx', ?_, ?_⟩
    · rw [List.zipIdx_cons, List.foldlM_cons, hstep, except_ok_bind, hrest, List.countP_cons,
        Nat.add_assoc, Nat.add_comm (rest.countP p)]
    · have := hch.trans hch' rfl
      simpa using this

theorem mapM_typeOf_args (hs : ctx.Sound) (hb : ctx.block? b = some block) :
    block.args.mapM ctx.typeOf = .ok block.argTypes := by
  refine mapM_eq_ok_iff.mpr (List.forall₂_iff_get.mpr ⟨hs.typed.args_length hb, ?_⟩)
  intro i h₁ h₂
  obtain ⟨ty, hty, hv⟩ := hs.typed.argument hb (List.getElem?_eq_getElem h₁)
  rw [List.getElem?_eq_getElem h₂] at hty
  exact typeOf_eq_ok.mpr ⟨_, hv, (Option.some.inj hty).symm⟩

/-- The arguments of a block of a sound context can always be retyped. Those that change are
counted. -/
theorem retypeArgs_eq (c : Converter) (hs : ctx.Sound) (hb : ctx.block? b = some block)
    (count : Nat) : ∃ ctx', Engine.retypeArgs c (ctx, count) b =
        .ok (ctx', count + block.argTypes.countP fun ty => c.convertOrKeep ty ≠ ty) ∧
      ChangesArgs ctx ctx' b (block.retypedBy c) := by
  simp only [Engine.retypeArgs, block_eq_ok.mpr hb, except_ok_bind, mapM_typeOf_args hs hb]
  refine foldlM_retypeArgs ?_ block.argTypes [] count hs hb rfl
  intro ctx block count ty i hs hb hi
  obtain ⟨hlt, hget⟩ := List.getElem?_eq_some_iff.mp hi
  by_cases he : c.convertOrKeep ty = ty
  · have hset : block.argTypes.set i ty = block.argTypes := by rw [← hget, List.set_getElem_self]
    refine ⟨ctx, ?_, by rw [he, hset]; exact ChangesArgs.refl hs hb⟩
    cases hconv : c.convertType ty with
    | none => simp [he, pure, Except.pure]
    | some new =>
      obtain rfl : new = ty := by simpa [Converter.convertOrKeep, hconv] using he
      simp [he, pure, Except.pure]
  · obtain ⟨ctx', h, hch⟩ := setArgType_total hs hb hlt (c.convertOrKeep ty)
    refine ⟨ctx', ?_, hch⟩
    cases hconv : c.convertType ty with
    | none => simp [Converter.convertOrKeep, hconv] at he
    | some new =>
      obtain rfl : c.convertOrKeep ty = new := by simp [Converter.convertOrKeep, hconv]
      simp [he, h, pure, Except.pure]

/-- The contexts differ in the types of the arguments of the given blocks. -/
structure RetypesArgs (c : Converter) (ctx ctx' : Context) (bs : List BlockId) : Prop where
  sound : ctx'.Sound
  op? (o : OpId) : ctx'.op? o = ctx.op? o
  block? (b : BlockId) : ctx'.block? b =
    if b ∈ bs then (ctx.block? b).map (Block.retypedBy c) else ctx.block? b
  region? (r : RegionId) : ctx'.region? r = ctx.region? r
  value? {v : ValueId} {value : Value} : ctx.value? v = some value →
    ∃ value', ctx'.value? v = some value'
  kept {v : ValueId} : (∀ b ∈ bs, ∀ block, ctx.block? b = some block → v ∉ block.args) →
    ctx'.value? v = ctx.value? v
  ledger : ctx'.ledger = ctx.ledger

theorem retypeArgs_blocks {c : Converter} (hc : c.Settles) (hs : ctx.Sound) {bs : List BlockId}
    (hbs : ∀ b ∈ bs, ∃ block, ctx.block? b = some block) (count : Nat) :
    ∃ ctx' count', bs.foldlM (Engine.retypeArgs c) (ctx, count) = .ok (ctx', count') ∧
      RetypesArgs c ctx ctx' bs := by
  induction bs generalizing ctx count with
  | nil =>
    exact ⟨ctx, count, rfl, hs, fun _ => rfl, fun _ => by simp, fun _ => rfl,
      fun h => ⟨_, h⟩, fun _ => rfl, rfl⟩
  | cons b bs ih =>
    obtain ⟨block, hb⟩ := hbs b List.mem_cons_self
    obtain ⟨ctx₁, hstep, hch⟩ := retypeArgs_eq c hs hb count
    have hbs₁ : ∀ c ∈ bs, ∃ block, ctx₁.block? c = some block := by
      intro c hc
      rw [hch.block?]
      split
      · exact ⟨_, rfl⟩
      · exact hbs c (List.mem_cons_of_mem _ hc)
    obtain ⟨ctx', count', hrest, hch'⟩ := ih hch.sound hbs₁ _
    refine ⟨ctx', count', by rw [List.foldlM_cons, hstep, except_ok_bind, hrest], hch'.sound,
      fun o => (hch'.op? o).trans (hch.op? o), fun b' => ?_,
      fun r => (hch'.region? r).trans (hch.region? r), fun {v value} hv => ?_,
      fun {v} hv => ?_, hch'.ledger.trans hch.ledger⟩
    · rw [hch'.block?, hch.block?]
      by_cases hcb : b' = b
      · subst hcb
        simp [hb, Block.retypedBy_retypedBy hc]
      · simp [hcb]
    · by_cases hm : v ∈ (block.retypedBy c).args
      · obtain ⟨i, hi⟩ := List.mem_iff_getElem?.mp hm
        obtain ⟨ty, -, hval⟩ := hch.sound.typed.argument (by rw [hch.block?, if_pos rfl]) hi
        exact hch'.value? hval
      · exact hch'.value? ((hch.value? hm).trans hv)
    · obtain ⟨hvb, hvbs⟩ := List.forall_mem_cons.mp hv
      refine (hch'.kept fun b' hb' block' hblk => ?_).trans (hch.value? (hvb block hb))
      rw [hch.block?] at hblk
      split at hblk
      · cases Option.some.inj hblk
        exact hvb block hb
      · exact hvbs b' hb' block' hblk

theorem retypeArgs_count {c : Converter} {ctx₂ ctx₂' : Context} {bs : List BlockId} {n m m₂ : Nat}
    (hs : ctx.Sound) (hs₂ : ctx₂.Sound)
    (hbs : ∀ b ∈ bs, ctx₂.block? b = ctx.block? b)
    (h : bs.foldlM (Engine.retypeArgs c) (ctx, n) = .ok (ctx', m))
    (h₂ : bs.foldlM (Engine.retypeArgs c) (ctx₂, n) = .ok (ctx₂', m₂)) : m₂ = m := by
  induction bs generalizing ctx ctx₂ n with
  | nil => rw [(Prod.mk.inj (except_pure_eq_ok.mp h)).2.symm, (Prod.mk.inj (except_pure_eq_ok.mp h₂)).2]
  | cons b bs ih =>
    obtain ⟨hsame, hbs⟩ := List.forall_mem_cons.mp hbs
    rw [List.foldlM_cons] at h h₂
    obtain ⟨⟨ctx₁, k⟩, hstep, h⟩ := except_bind_eq_ok.mp h
    obtain ⟨⟨ctx₃, k₂⟩, hstep₂, h₂⟩ := except_bind_eq_ok.mp h₂
    obtain ⟨block, hb, -⟩ := except_bind_eq_ok.mp hstep
    rw [block_eq_ok] at hb
    obtain ⟨_, heq, hch⟩ := retypeArgs_eq c hs hb n
    obtain ⟨_, heq₂, hch₂⟩ := retypeArgs_eq c hs₂ (hsame.trans hb) n
    obtain ⟨rfl, rfl⟩ := Prod.mk.inj (Except.ok.inj (hstep.symm.trans heq))
    obtain ⟨rfl, rfl⟩ := Prod.mk.inj (Except.ok.inj (hstep₂.symm.trans heq₂))
    refine ih hch.sound hch₂.sound (fun b' hb' => ?_) h h₂
    rw [hch.block?, hch₂.block?, hbs b' hb']

end Args

end Context

end RegionIR
