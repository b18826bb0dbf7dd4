import RegionIR.Proofs.Context.Lookup

/-! What each edit of a context asks for, and what every look-up gives afterwards.

No other proof opens the definition of an edit. -/

namespace RegionIR

/-- The operation that is created from `spec`, with its results. -/
def OpSpec.toOp (spec : OpSpec) (results : List ValueId) : Op :=
  { location := spec.location, dialect := spec.dialect, name := spec.name
    operands := spec.operands, resultTypes := spec.resultTypes, results
    attrs := spec.attrs, regions := spec.regions, successors := spec.successors }

namespace Context

variable {ctx ctx' : Context}

section Modify

theorem op?_modifyOp (o p : OpId) (f : Op → Op) :
    (ctx.modifyOp o f).op? p = if p = o then (ctx.op? p).map f else ctx.op? p := by
  obtain ⟨i⟩ := o
  obtain ⟨j⟩ := p
  simp [modifyOp, op?, Array.getElem?_modify, eq_comm]

theorem value?_modifyValue (v w : ValueId) (f : Value → Value) :
    (ctx.modifyValue v f).value? w = if w = v then (ctx.value? w).map f else ctx.value? w := by
  obtain ⟨i⟩ := v
  obtain ⟨j⟩ := w
  simp [modifyValue, value?, Array.getElem?_modify, eq_comm]

theorem block?_modifyBlock (b c : BlockId) (f : Block → Block) :
    (ctx.modifyBlock b f).block? c = if c = b then (ctx.block? c).map f else ctx.block? c := by
  obtain ⟨i⟩ := b
  obtain ⟨j⟩ := c
  simp [modifyBlock, block?, Array.getElem?_modify, eq_comm]

theorem region?_modifyRegion (r s : RegionId) (f : Region → Region) :
    (ctx.modifyRegion r f).region? s = if s = r then (ctx.region? s).map f else ctx.region? s := by
  obtain ⟨i⟩ := r
  obtain ⟨j⟩ := s
  simp [modifyRegion, region?, Array.getElem?_modify, eq_comm]

@[simp] theorem value?_modifyOp (o : OpId) (f : Op → Op) (v : ValueId) :
    (ctx.modifyOp o f).value? v = ctx.value? v := rfl

@[simp] theorem block?_modifyOp (o : OpId) (f : Op → Op) (b : BlockId) :
    (ctx.modifyOp o f).block? b = ctx.block? b := rfl

@[simp] theorem region?_modifyOp (o : OpId) (f : Op → Op) (r : RegionId) :
    (ctx.modifyOp o f).region? r = ctx.region? r := rfl

@[simp] theorem ledger_modifyOp (o : OpId) (f : Op → Op) :
    (ctx.modifyOp o f).ledger = ctx.ledger := rfl

@[simp] theorem op?_modifyValue (v : ValueId) (f : Value → Value) (o : OpId) :
    (ctx.modifyValue v f).op? o = ctx.op? o := rfl

@[simp] theorem block?_modifyValue (v : ValueId) (f : Value → Value) (b : BlockId) :
    (ctx.modifyValue v f).block? b = ctx.block? b := rfl

@[simp] theorem region?_modifyValue (v : ValueId) (f : Value → Value) (r : RegionId) :
    (ctx.modifyValue v f).region? r = ctx.region? r := rfl

@[simp] theorem ledger_modifyValue (v : ValueId) (f : Value → Value) :
    (ctx.modifyValue v f).ledger = ctx.ledger := rfl

@[simp] theorem op?_modifyBlock (b : BlockId) (f : Block → Block) (o : OpId) :
    (ctx.modifyBlock b f).op? o = ctx.op? o := rfl

@[simp] theorem value?_modifyBlock (b : BlockId) (f : Block → Block) (v : ValueId) :
    (ctx.modifyBlock b f).value? v = ctx.value? v := rfl

@[simp] theorem region?_modifyBlock (b : BlockId) (f : Block → Block) (r : RegionId) :
    (ctx.modifyBlock b f).region? r = ctx.region? r := rfl

@[simp] theorem ledger_modifyBlock (b : BlockId) (f : Block → Block) :
    (ctx.modifyBlock b f).ledger = ctx.ledger := rfl

@[simp] theorem op?_modifyRegion (r : RegionId) (f : Region → Region) (o : OpId) :
    (ctx.modifyRegion r f).op? o = ctx.op? o := rfl

@[simp] theorem value?_modifyRegion (r : RegionId) (f : Region → Region) (v : ValueId) :
    (ctx.modifyRegion r f).value? v = ctx.value? v := rfl

@[simp] theorem block?_modifyRegion (r : RegionId) (f : Region → Region) (b : BlockId) :
    (ctx.modifyRegion r f).block? b = ctx.block? b := rfl

@[simp] theorem ledger_modifyRegion (r : RegionId) (f : Region → Region) :
    (ctx.modifyRegion r f).ledger = ctx.ledger := rfl

end Modify

section Create

theorem getElem?_push_op (ops : Array Op) (op : Op) (o : OpId) :
    (ops.push op)[o.index]? = if o = ⟨ops.size⟩ then some op else ops[o.index]? := by
  obtain ⟨i⟩ := o
  simp [Array.getElem?_push]

/-- An edit of one entry, which has to be open for it and is marked by it, so that it is open no more. -/
structure Marks {ι α : Type} [DecidableEq ι] (act : Context → ι → Except Fault Context)
    (modify : Context → ι → Context) (get : Context → ι → Option α) (isOpen : α → Prop)
    (mark : α → α) : Prop where
  ok_iff {ctx ctx' : Context} {i : ι} : act ctx i = .ok ctx' ↔
    (∃ a, get ctx i = some a ∧ isOpen a) ∧ modify ctx i = ctx'
  get (ctx : Context) (i j : ι) :
    get (modify ctx i) j = if j = i then (get ctx j).map mark else get ctx j
  marked (a : α) : ¬isOpen (mark a)

namespace Marks

variable {ι α : Type} [DecidableEq ι] {act : Context → ι → Except Fault Context}
  {modify : Context → ι → Context} {get : Context → ι → Option α} {isOpen : α → Prop} {mark : α → α}
  {l : List ι}

/-- Entries can be edited one after the other if they are distinct and open, and only then. -/
theorem foldlM_ok_iff (hc : Marks act modify get isOpen mark) :
    l.foldlM act ctx = .ok ctx' ↔
      l.Nodup ∧ (∀ i ∈ l, ∃ a, get ctx i = some a ∧ isOpen a) ∧ l.foldl modify ctx = ctx' := by
  induction l generalizing ctx with
  | nil => simp
  | cons i l ih =>
    rw [List.foldlM_cons, except_bind_eq_ok, List.nodup_cons, List.forall_mem_cons, List.foldl_cons]
    constructor
    · rintro ⟨ctx₁, hi, h⟩
      obtain ⟨hopen, rfl⟩ := hc.ok_iff.mp hi
      obtain ⟨hnd, hrest, rfl⟩ := ih.mp h
      have hnot : i ∉ l := by
        intro hm
        obtain ⟨a, ha, hf⟩ := hrest i hm
        rw [hc.get, if_pos rfl, Option.map_eq_some_iff] at ha
        obtain ⟨a, -, rfl⟩ := ha
        exact hc.marked a hf
      refine ⟨⟨hnot, hnd⟩, ⟨hopen, fun j hj => ?_⟩, rfl⟩
      have hj' := hrest j hj
      rwa [hc.get, if_neg (ne_of_mem_of_not_mem hj hnot)] at hj'
    · rintro ⟨⟨hnot, hnd⟩, ⟨hopen, hrest⟩, rfl⟩
      refine ⟨modify ctx i, hc.ok_iff.mpr ⟨hopen, rfl⟩, ih.mpr ⟨hnd, fun j hj => ?_, rfl⟩⟩
      rw [hc.get, if_neg (ne_of_mem_of_not_mem hj hnot)]
      exact hrest j hj

theorem get_foldl (hc : Marks act modify get isOpen mark) (hnd : l.Nodup) (j : ι) :
    get (l.foldl modify ctx) j = (get ctx j).map fun a => if j ∈ l then mark a else a := by
  induction l generalizing ctx with
  | nil => simp
  | cons i l ih =>
    rw [List.nodup_cons] at hnd
    rw [List.foldl_cons, ih hnd.2, hc.get]
    by_cases hj : j = i
    · subst hj
      simp [hnd.1, Function.comp_def]
    · simp [hj]

end Marks

theorem marks_region (owner : OpId) : Marks (claimRegion owner)
    (fun ctx r => ctx.modifyRegion r fun region => { region with parent := some owner })
    region? (fun region => region.parent = none)
    (fun region => { region with parent := some owner }) where
  ok_iff {ctx ctx' r} := by
    simp only [claimRegion, except_bind_eq_ok, region_eq_ok]
    constructor
    · rintro ⟨region, hr, h⟩
      split at h
      · simp at h
      · exact ⟨⟨region, hr, ‹_›⟩, except_pure_eq_ok.mp h⟩
    · rintro ⟨⟨region, hr, hp⟩, rfl⟩
      exact ⟨region, hr, by rw [hp]; rfl⟩
  get ctx r s := region?_modifyRegion r s _
  marked region := by simp

theorem marks_block (owner : RegionId) : Marks (claimBlock owner)
    (fun ctx b => ctx.modifyBlock b fun block => { block with parent := some owner })
    block? (fun block => block.parent = none)
    (fun block => { block with parent := some owner }) where
  ok_iff {ctx ctx' b} := by
    simp only [claimBlock, except_bind_eq_ok, block_eq_ok]
    constructor
    · rintro ⟨block, hb, h⟩
      split at h
      · simp at h
      · exact ⟨⟨block, hb, ‹_›⟩, except_pure_eq_ok.mp h⟩
    · rintro ⟨⟨block, hb, hp⟩, rfl⟩
      exact ⟨block, hb, by rw [hp]; rfl⟩
  get ctx b c := block?_modifyBlock b c _
  marked block := by simp

theorem foldl_modifyRegion (f : Region → Region) (rs : List RegionId) :
    rs.foldl (fun ctx r => ctx.modifyRegion r f) ctx =
      { ctx with regions := (rs.foldl (fun ctx r => ctx.modifyRegion r f) ctx).regions } := by
  induction rs generalizing ctx with
  | nil => rfl
  | cons r rs ih =>
    rw [List.foldl_cons, ih]
    rfl

theorem foldl_modifyBlock (f : Block → Block) (bs : List BlockId) :
    bs.foldl (fun ctx b => ctx.modifyBlock b f) ctx =
      { ctx with blocks := (bs.foldl (fun ctx b => ctx.modifyBlock b f) ctx).blocks } := by
  induction bs generalizing ctx with
  | nil => rfl
  | cons b bs ih =>
    rw [List.foldl_cons, ih]
    rfl

/-- Claiming regions asks for distinct regions without parents and changes their parents only. -/
theorem claimRegions_ok {owner : OpId} {rs : List RegionId}
    (h : rs.foldlM (claimRegion owner) ctx = .ok ctx') :
    rs.Nodup ∧ (∀ r ∈ rs, ∃ region, ctx.region? r = some region ∧ region.parent = none) ∧
      ctx' = { ctx with regions := ctx'.regions } ∧
      ∀ r, ctx'.region? r = (ctx.region? r).map fun region =>
        if r ∈ rs then { region with parent := some owner } else region := by
  obtain ⟨hnd, hfree, rfl⟩ := (marks_region owner).foldlM_ok_iff.mp h
  exact ⟨hnd, hfree, foldl_modifyRegion _ _, (marks_region owner).get_foldl hnd⟩

theorem claimBlocks_ok {owner : RegionId} {bs : List BlockId}
    (h : bs.foldlM (claimBlock owner) ctx = .ok ctx') :
    bs.Nodup ∧ (∀ b ∈ bs, ∃ block, ctx.block? b = some block ∧ block.parent = none) ∧
      ctx' = { ctx with blocks := ctx'.blocks } ∧
      ∀ b, ctx'.block? b = (ctx.block? b).map fun block =>
        if b ∈ bs then { block with parent := some owner } else block := by
  obtain ⟨hnd, hfree, rfl⟩ := (marks_block owner).foldlM_ok_iff.mp h
  exact ⟨hnd, hfree, foldl_modifyBlock _ _, (marks_block owner).get_foldl hnd⟩

theorem getElem?_append_list {α : Type} (xs : Array α) (l : List α) (i : Nat) :
    (xs ++ l)[i]? = if i < xs.size then xs[i]? else l[i - xs.size]? := by
  simp [← Array.getElem?_toList, List.getElem?_append]

theorem getElem?_freshValues (ctx : Context) (n i : Nat) :
    (ctx.freshValues n)[i]? = if i < n then some ⟨ctx.values.size + i⟩ else none := by
  by_cases h : i < n <;> simp [freshValues, h]

@[simp] theorem length_freshValues (ctx : Context) (n : Nat) : (ctx.freshValues n).length = n := by
  simp [freshValues]

/-- What is found after an operation was created. -/
structure CreatesOp (ctx : Context) (spec : OpSpec) (ctx' : Context) (id : OpId) : Prop where
  detached : spec.parent = none
  id_eq : id = ⟨ctx.ops.size⟩
  nodup : spec.regions.Nodup
  free : ∀ r ∈ spec.regions, ∃ region, ctx.region? r = some region ∧ region.parent = none
  op? (o : OpId) : ctx'.op? o =
    if o = id then some (spec.toOp (ctx.freshValues spec.resultTypes.length)) else ctx.op? o
  block? (b : BlockId) : ctx'.block? b = ctx.block? b
  region? (r : RegionId) : ctx'.region? r = (ctx.region? r).map fun region =>
    if r ∈ spec.regions then { region with parent := some id } else region
  value? (v : ValueId) : ctx'.value? v =
    if v.index < ctx.values.size then ctx.value? v
    else (spec.resultTypes[v.index - ctx.values.size]?).map fun ty =>
      ⟨.result id (v.index - ctx.values.size), ty⟩
  ledger : ctx'.ledger = ctx.ledger ++ spec.operands.mapIdx fun i v => (v, ⟨id, i⟩)
  opCount : ctx'.ops.size = ctx.ops.size + 1
  blockCount : ctx'.blocks.size = ctx.blocks.size
  valueCount : ctx'.values.size = ctx.values.size + spec.resultTypes.length

theorem CreatesOp.fresh {spec : OpSpec} {id : OpId} (h : CreatesOp ctx spec ctx' id) :
    ctx.op? id = none := by
  simp [h.id_eq, Context.op?]

theorem CreatesOp.op?_of_some {spec : OpSpec} {id o : OpId} {op : Op}
    (h : CreatesOp ctx spec ctx' id) (ho : ctx.op? o = some op) : ctx'.op? o = some op := by
  have hne : o ≠ id := by
    rintro rfl
    simp [h.fresh] at ho
  rw [h.op? o, if_neg hne, ho]

theorem createOp_ok {spec : OpSpec} {id : OpId} (h : ctx.createOp spec = .ok (ctx', id)) :
    CreatesOp ctx spec ctx' id := by
  unfold createOp at h
  by_cases hp : spec.parent.isSome
  · simp [hp, throw, throwThe, MonadExceptOf.throw, bind, Except.bind] at h
  · simp only [hp, Bool.false_eq_true, if_false, except_bind_eq_ok, except_pure_eq_ok,
      Prod.mk.injEq] at h
    obtain ⟨ctx₁, hc, hctx, rfl⟩ := h
    obtain ⟨hnd, hfree, hctx₁, hlook⟩ := claimRegions_ok hc
    subst hctx
    rw [hctx₁]
    refine ⟨by simpa using hp, rfl, hnd, hfree, fun o => getElem?_push_op .., fun _ => rfl, hlook,
      ?_, rfl, by simp, rfl, by simp [← Array.length_toList]⟩
    intro v
    simp only [Context.value?, getElem?_append_list, List.getElem?_mapIdx]

/-- A new operation is not refused if it has no parent and its regions are free and distinct. -/
theorem createOp_of_no_regions (ctx : Context) {spec : OpSpec} (hp : spec.parent = none)
    (hr : spec.regions = []) :
    ∃ ctx' id, ctx.createOp spec = .ok (ctx', id) := by
  simp [createOp, hp, hr, bind, Except.bind, pure, Except.pure]

/-- What is found after a block was created. -/
structure CreatesBlock (ctx : Context) (argTypes : List Ty) (ctx' : Context) (id : BlockId) :
    Prop where
  id_eq : id = ⟨ctx.blocks.size⟩
  op? (o : OpId) : ctx'.op? o = ctx.op? o
  block? (b : BlockId) : ctx'.block? b =
    if b = id then some { argTypes, args := ctx.freshValues argTypes.length } else ctx.block? b
  region? (r : RegionId) : ctx'.region? r = ctx.region? r
  value? (v : ValueId) : ctx'.value? v =
    if v.index < ctx.values.size then ctx.value? v
    else (argTypes[v.index - ctx.values.size]?).map fun ty =>
      ⟨.argument id (v.index - ctx.values.size), ty⟩
  ledger : ctx'.ledger = ctx.ledger
  opCount : ctx'.ops.size = ctx.ops.size
  blockCount : ctx'.blocks.size = ctx.blocks.size + 1
  valueCount : ctx'.values.size = ctx.values.size + argTypes.length

theorem CreatesBlock.fresh {argTypes : List Ty} {id : BlockId}
    (h : CreatesBlock ctx argTypes ctx' id) : ctx.block? id = none := by
  simp [h.id_eq, Context.block?]

theorem createBlock_creates (ctx : Context) (argTypes : List Ty) :
    CreatesBlock ctx argTypes (ctx.createBlock argTypes).1 (ctx.createBlock argTypes).2 := by
  refine ⟨rfl, fun _ => rfl, ?_, fun _ => rfl, ?_, rfl, rfl, by simp [createBlock],
    by simp [createBlock, ← Array.length_toList]⟩
  · intro ⟨i⟩
    simp [createBlock, Context.block?, Array.getElem?_push]
  · intro v
    simp only [createBlock, Context.value?, getElem?_append_list, List.getElem?_mapIdx]

/-- What is found after a region was created. -/
structure CreatesRegion (ctx : Context) (blocks : List BlockId) (ctx' : Context) (id : RegionId) :
    Prop where
  id_eq : id = ⟨ctx.regions.size⟩
  nodup : blocks.Nodup
  free : ∀ b ∈ blocks, ∃ block, ctx.block? b = some block ∧ block.parent = none
  op? (o : OpId) : ctx'.op? o = ctx.op? o
  block? (b : BlockId) : ctx'.block? b = (ctx.block? b).map fun block =>
    if b ∈ blocks then { block with parent := some id } else block
  region? (r : RegionId) : ctx'.region? r = if r = id then some { blocks } else ctx.region? r
  value? (v : ValueId) : ctx'.value? v = ctx.value? v
  ledger : ctx'.ledger = ctx.ledger
  opCount : ctx'.ops.size = ctx.ops.size
  valueCount : ctx'.values.size = ctx.values.size

theorem CreatesRegion.fresh {blocks : List BlockId} {id : RegionId}
    (h : CreatesRegion ctx blocks ctx' id) : ctx.region? id = none := by
  simp [h.id_eq, Context.region?]

theorem createRegion_ok {blocks : List BlockId} {id : RegionId}
    (h : ctx.createRegion blocks = .ok (ctx', id)) : CreatesRegion ctx blocks ctx' id := by
  simp only [createRegion, except_bind_eq_ok, except_pure_eq_ok, Prod.mk.injEq] at h
  obtain ⟨ctx₁, hc, rfl, rfl⟩ := h
  obtain ⟨hnd, hfree, hctx, hlook⟩ := claimBlocks_ok hc
  refine ⟨rfl, hnd, hfree, ?_, hlook, ?_, ?_, by rw [hctx], by rw [hctx], by rw [hctx]⟩
  · intro o
    rw [hctx]
    rfl
  · rintro ⟨i⟩
    rw [hctx]
    simp [Context.region?, Array.getElem?_push]
  · intro v
    rw [hctx]
    rfl

theorem createRegion_total {bs : List BlockId} (hnd : bs.Nodup)
    (hfree : ∀ b ∈ bs, ∃ block, ctx.block? b = some block ∧ block.parent = none) :
    ∃ ctx' r, ctx.createRegion bs = .ok (ctx', r) := by
  let ctx₁ := { ctx with regions := ctx.regions.push { blocks := bs } }
  obtain ⟨ctx', h⟩ : ∃ ctx', bs.foldlM (claimBlock ⟨ctx.regions.size⟩) ctx₁ = .ok ctx' :=
    ⟨_, (marks_block _).foldlM_ok_iff.mpr ⟨hnd, hfree, rfl⟩⟩
  exact ⟨ctx', _, by rw [createRegion, h]; rfl⟩

theorem createOp_total {spec : OpSpec} (hp : spec.parent = none) (hnd : spec.regions.Nodup)
    (hfree : ∀ r ∈ spec.regions, ∃ region, ctx.region? r = some region ∧ region.parent = none) :
    ∃ ctx' o, ctx.createOp spec = .ok (ctx', o) := by
  let op := spec.toOp (ctx.freshValues spec.resultTypes.length)
  obtain ⟨ctx', h⟩ : ∃ ctx', spec.regions.foldlM (claimRegion ⟨ctx.ops.size⟩)
      { ctx with ops := ctx.ops.push op } = .ok ctx' :=
    ⟨_, (marks_region _).foldlM_ok_iff.mpr ⟨hnd, hfree, rfl⟩⟩
  simp only [op, OpSpec.toOp] at h
  simp [createOp, hp, h, bind, Except.bind, pure, Except.pure]

end Create

section Move

theorem pushOp_ok {b : BlockId} {id : OpId} (h : ctx.pushOp b id = .ok ctx') :
    (∃ op, ctx.op? id = some op ∧ op.parent = none) ∧ (∃ block, ctx.block? b = some block) ∧
      ctx' = (ctx.modifyOp id fun op => { op with parent := some b }).modifyBlock b
        fun block => { block with ops := block.ops ++ [id] } := by
  simp only [pushOp, except_bind_eq_ok, op_eq_ok] at h
  obtain ⟨op, ho, h⟩ := h
  split at h
  · simp at h
  · simp only [except_bind_eq_ok, block_eq_ok, except_pure_eq_ok] at h
    obtain ⟨block, hb, h⟩ := h
    exact ⟨⟨op, ho, ‹_›⟩, ⟨block, hb⟩, h.symm⟩

theorem pushOp_total {b : BlockId} {o : OpId} {op : Op} {block : Block} (ho : ctx.op? o = some op)
    (hp : op.parent = none) (hb : ctx.block? b = some block) : ∃ ctx', ctx.pushOp b o = .ok ctx' := by
  simp [pushOp, op_eq_ok.mpr ho, hp, block_eq_ok.mpr hb, pure, Except.pure, bind, Except.bind]

theorem insertBefore_eq_some_iff {α : Type} [DecidableEq α] {anchor a : α} {l l' : List α} :
    insertBefore anchor a l = some l' ↔
      ∃ pre post, l = pre ++ anchor :: post ∧ anchor ∉ pre ∧ l' = pre ++ a :: anchor :: post := by
  induction l generalizing l' with
  | nil => simp [insertBefore]
  | cons x l ih =>
    by_cases hx : x = anchor
    · subst hx
      simp only [insertBefore, if_true, Option.some.injEq]
      constructor
      · rintro rfl
        exact ⟨[], l, rfl, by simp, rfl⟩
      · rintro ⟨pre, post, hl, hnot, rfl⟩
        cases pre with
        | nil => simpa using hl
        | cons y pre => simp at hl hnot; exact absurd hl.1 hnot.1
    · simp only [insertBefore, hx, if_false, Option.map_eq_some_iff, ih]
      constructor
      · rintro ⟨_, ⟨pre, post, rfl, hnot, rfl⟩, rfl⟩
        exact ⟨x :: pre, post, rfl, by simp [hnot, Ne.symm hx], rfl⟩
      · rintro ⟨pre, post, hl, hnot, rfl⟩
        cases pre with
        | nil => simp at hl; exact absurd hl.1 hx
        | cons y pre =>
          simp only [List.cons_append, List.cons.injEq] at hl
          obtain ⟨rfl, rfl⟩ := hl
          exact ⟨_, ⟨pre, post, rfl, fun hm => hnot (List.mem_cons_of_mem _ hm), rfl⟩, rfl⟩

theorem insertOpBefore_ok {b : BlockId} {anchor id : OpId}
    (h : ctx.insertOpBefore b anchor id = .ok ctx') :
    (∃ op, ctx.op? id = some op ∧ op.parent = none) ∧
      ∃ block ops, ctx.block? b = some block ∧ insertBefore anchor id block.ops = some ops ∧
        ctx' = (ctx.modifyOp id fun op => { op with parent := some b }).modifyBlock b
          fun block => { block with ops } := by
  simp only [insertOpBefore, except_bind_eq_ok, op_eq_ok] at h
  obtain ⟨op, ho, h⟩ := h
  split at h
  · simp at h
  · simp only [except_bind_eq_ok, block_eq_ok] at h
    obtain ⟨block, hb, h⟩ := h
    split at h
    · simp at h
    · exact ⟨⟨op, ho, ‹_›⟩, block, _, hb, ‹_›, (except_pure_eq_ok.mp h).symm⟩

theorem detachOp_ok {b : BlockId} {id : OpId} (h : ctx.detachOp b id = .ok ctx') :
    (∃ block, ctx.block? b = some block) ∧ (∃ op, ctx.op? id = some op) ∧
      ctx' = (ctx.modifyBlock b fun block =>
          { block with ops := block.ops.filter (· ≠ id) }).modifyOp id
        fun op => if op.parent = some b then { op with parent := none } else op := by
  simp only [detachOp, except_bind_eq_ok, block_eq_ok, op_eq_ok, except_pure_eq_ok] at h
  obtain ⟨block, hb, op, ho, h⟩ := h
  exact ⟨⟨block, hb⟩, ⟨op, ho⟩, h.symm⟩

end Move

section Retype

theorem setResultType_ok {id : OpId} {i : Nat} {ty : Ty} (h : ctx.setResultType id i ty = .ok ctx') :
    ∃ op v, ctx.op? id = some op ∧ i < op.resultTypes.length ∧ op.results[i]? = some v ∧
      ctx' = (ctx.modifyOp id fun op =>
        { op with resultTypes := op.resultTypes.set i ty }).modifyValue v
          fun value => { value with ty } := by
  simp only [setResultType, except_bind_eq_ok, op_eq_ok, entryAt_eq_ok, except_pure_eq_ok] at h
  obtain ⟨op, ho, old, hold, v, hv, h⟩ := h
  exact ⟨op, v, ho, (List.getElem?_eq_some_iff.mp hold).1, hv, h.symm⟩

theorem setArgType_ok {b : BlockId} {i : Nat} {ty : Ty} (h : ctx.setArgType b i ty = .ok ctx') :
    ∃ block v, ctx.block? b = some block ∧ i < block.argTypes.length ∧ block.args[i]? = some v ∧
      ctx' = (ctx.modifyBlock b fun block =>
        { block with argTypes := block.argTypes.set i ty }).modifyValue v
          fun value => { value with ty } := by
  simp only [setArgType, except_bind_eq_ok, block_eq_ok, entryAt_eq_ok, except_pure_eq_ok] at h
  obtain ⟨block, hb, old, hold, v, hv, h⟩ := h
  exact ⟨block, v, hb, (List.getElem?_eq_some_iff.mp hold).1, hv, h.symm⟩

theorem setAttr_ok {id : OpId} {key : String} {a : Attr Ty} {old : Option (Attr Ty)}
    (h : ctx.setAttr id key a = .ok (ctx', old)) :
    ∃ op, ctx.op? id = some op ∧
      ctx' = ctx.modifyOp id fun op => { op with attrs := op.attrs.insert key a } := by
  simp only [setAttr, except_bind_eq_ok, op_eq_ok, except_pure_eq_ok, Prod.mk.injEq] at h
  obtain ⟨op, ho, h, -⟩ := h
  exact ⟨op, ho, h.symm⟩

end Retype

section Uses

theorem mem_uses {v : ValueId} {u : Use} : u ∈ ctx.uses v ↔ (v, u) ∈ ctx.ledger := by
  simp only [uses, List.mem_filterMap, Option.ite_none_right_eq_some, Option.some.injEq]
  constructor
  · rintro ⟨⟨w, u'⟩, hm, rfl, rfl⟩
    exact hm
  · intro h
    exact ⟨(v, u), h, rfl, rfl⟩

theorem checkUnused_eq_ok_iff {values : List ValueId} :
    ctx.checkUnused values = .ok () ↔ ∀ v ∈ values, ctx.uses v = [] := by
  simp only [checkUnused, List.forM_eq_forM]
  induction values with
  | nil => simp [pure, Except.pure]
  | cons v values ih =>
    simp only [List.forM_cons, except_bind_eq_ok, List.forall_mem_cons, ih]
    cases ctx.uses v <;> simp [pure, Except.pure]

theorem removeOp_ok {id : OpId} (h : ctx.removeOp id = .ok ctx') :
    ∃ op, ctx.op? id = some op ∧ op.parent = none ∧ (∀ v ∈ op.results, ctx.uses v = []) ∧
      ctx' = { ctx with
        ledger := ctx.ledger.filter fun (v, u) => !(u.user = id && op.operands[u.operand]? = some v) } := by
  simp only [removeOp, except_bind_eq_ok, op_eq_ok] at h
  obtain ⟨op, ho, h⟩ := h
  split at h
  · simp at h
  · simp only [except_bind_eq_ok, except_pure_eq_ok] at h
    obtain ⟨_, hu, h⟩ := h
    exact ⟨op, ho, ‹_›, checkUnused_eq_ok_iff.mp hu, h.symm⟩

/-- The operands of `user` with `new` at the places that `us` lists. -/
def redirected (us : List Use) (new : ValueId) (user : OpId) (operands : List ValueId) :
    List ValueId :=
  operands.mapIdx fun i v => if ⟨user, i⟩ ∈ us then new else v

@[simp] theorem getElem?_redirected (us : List Use) (new : ValueId) (user : OpId)
    (operands : List ValueId) (i : Nat) : (redirected us new user operands)[i]? =
      operands[i]?.map fun v => if ⟨user, i⟩ ∈ us then new else v :=
  List.getElem?_mapIdx

@[simp] theorem redirected_nil (new : ValueId) (user : OpId) (operands : List ValueId) :
    redirected [] new user operands = operands := by
  refine List.ext_getElem? fun i => ?_
  simp

theorem redirected_of_unused {o : OpId} {v : ValueId} (h : ∀ i, (v, ⟨o, i⟩) ∉ ctx.ledger)
    (w : ValueId) (operands : List ValueId) :
    redirected (ctx.uses v) w o operands = operands := by
  refine List.ext_getElem? fun i => ?_
  simp only [getElem?_redirected, mem_uses, h i, if_false, Option.map_id']

theorem redirected_cons (u : Use) (us : List Use) (new : ValueId) (user : OpId)
    (operands : List ValueId) : redirected (u :: us) new user operands =
      redirected us new user (if user = u.user then operands.set u.operand new else operands) := by
  obtain ⟨o, k⟩ := u
  refine List.ext_getElem? fun i => ?_
  simp only [getElem?_redirected, List.mem_cons, Use.mk.injEq]
  by_cases ho : user = o
  · by_cases hi : i = k
    · simp [ho, hi, List.getElem?_set', Function.comp_def]
    · simp [ho, hi, Ne.symm hi]
  · simp [ho]

theorem op?_foldl_redirect (new : ValueId) (us : List Use) (o : OpId) :
    (us.foldl (fun ctx u => ctx.modifyOp u.user fun op =>
      { op with operands := op.operands.set u.operand new }) ctx).op? o =
      (ctx.op? o).map fun op => { op with operands := redirected us new o op.operands } := by
  induction us generalizing ctx with
  | nil => simp
  | cons u us ih =>
    rw [List.foldl_cons, ih, op?_modifyOp]
    simp only [redirected_cons]
    split <;> simp [Function.comp_def]

theorem foldl_modifyOp (f : Use → Op → Op) (us : List Use) :
    us.foldl (fun ctx u => ctx.modifyOp u.user (f u)) ctx =
      { ctx with ops := (us.foldl (fun ctx u => ctx.modifyOp u.user (f u)) ctx).ops } := by
  induction us generalizing ctx with
  | nil => rfl
  | cons u us ih =>
    rw [List.foldl_cons, ih]
    rfl

/-- A use is open for the change as long as it is one of the old value. -/
theorem marks_use {old new : ValueId} (hne : old ≠ new) : Marks (redirect old new)
    (fun ctx u => ctx.modifyOp u.user fun op =>
      { op with operands := op.operands.set u.operand new })
    (fun ctx u => (ctx.op? u.user).bind fun op => op.operands[u.operand]?) (fun v => v = old)
    (fun _ => new) where
  ok_iff {ctx ctx' u} := by
    simp only [redirect, except_bind_eq_ok, op_eq_ok, entryAt_eq_ok, Option.bind_eq_some_iff]
    constructor
    · rintro ⟨op, ho, v, hv, h⟩
      split at h
      · exact ⟨⟨v, ⟨op, ho, hv⟩, ‹_›⟩, except_pure_eq_ok.mp h⟩
      · simp at h
    · rintro ⟨⟨v, ⟨op, ho, hv⟩, rfl⟩, rfl⟩
      exact ⟨op, ho, v, hv, by rw [if_pos rfl]; rfl⟩
  get ctx u w := by
    obtain ⟨o, i⟩ := u
    obtain ⟨p, j⟩ := w
    simp only [op?_modifyOp, Use.mk.injEq]
    by_cases hp : p = o
    · subst hp
      cases ctx.op? p with
      | none => simp
      | some op =>
        by_cases hj : j = i
        · subst hj
          simp [List.getElem?_set', Function.const_def]
        · simp [hj, Ne.symm hj]
    · simp [hp]
  marked v h := hne h.symm

theorem replaceAllUses_ok {old new : ValueId} (hne : old ≠ new)
    (h : ctx.replaceAllUses old new = .ok ctx') :
    (∀ o, ctx'.op? o = (ctx.op? o).map fun op =>
        { op with operands := redirected (ctx.uses old) new o op.operands }) ∧
      ctx' = { ctx with
        ops := ctx'.ops
        ledger := ctx.ledger.filter (fun (v, _) => v ≠ old)
          ++ (ctx.uses old).map fun u => (new, u) } := by
  unfold replaceAllUses at h
  simp only [hne, if_false, except_bind_eq_ok, except_pure_eq_ok] at h
  obtain ⟨ctx₁, hr, rfl⟩ := h
  obtain ⟨-, -, rfl⟩ := (marks_use hne).foldlM_ok_iff.mp hr
  refine ⟨op?_foldl_redirect new _, ?_⟩
  rw [foldl_modifyOp]

theorem mem_ledger_of_replaceAllUses {old new : ValueId} (hne : old ≠ new)
    (h : ctx.replaceAllUses old new = .ok ctx') {v : ValueId} {u : Use} :
    (v, u) ∈ ctx'.ledger ↔ (v, u) ∈ ctx.ledger ∧ v ≠ old ∨ v = new ∧ (old, u) ∈ ctx.ledger := by
  rw [(replaceAllUses_ok hne h).2]
  simp [mem_uses, and_comm, eq_comm (a := new) (b := v)]

/-- The uses of `old` are listed after those of `new`; both may be the same value. -/
theorem uses_of_replaceAllUses {old new : ValueId} (h : ctx.replaceAllUses old new = .ok ctx')
    (a : ValueId) : ctx'.uses a =
      (if a = old then [] else ctx.uses a) ++ if a = new then ctx.uses old else [] := by
  by_cases he : old = new
  · subst he
    simp only [replaceAllUses, if_true, except_pure_eq_ok] at h
    subst h
    split <;> simp [*]
  rw [(replaceAllUses_ok he h).2, uses]
  simp only
  rw [List.filterMap_append, List.filterMap_map, List.filterMap_filter]
  congr 1
  · split
    · rename_i ha
      subst ha
      apply List.filterMap_eq_nil_iff.mpr
      intro e _
      by_cases h : e.1 = a <;> simp [h]
    · rename_i ha
      apply List.filterMap_congr
      intro e _
      by_cases h : e.1 = a <;> simp [h, ha]
  · split
    · rename_i ha
      subst ha
      simp
    · rename_i ha
      simp [Ne.symm ha]

end Uses

end Context

end RegionIR
