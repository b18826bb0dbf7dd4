import RegionIR.Proofs.Context.Validity
import RegionIR.Proofs.Lowering.Forms
import RegionIR.Proofs.Rewrite.Replacement

/-! Contexts in the course of a lowering.

A lowering works on a confined region: what is used there is defined there, and what is defined
there is used there only. Every operation of the region has a form and an image, the operation
that stands in its place by now; every value has the one that stands for it. A context refines
the forms when the images have them and nothing else differs from the start. -/

namespace RegionIR

namespace Context

variable {ctx cur cur' : Context} {t : RegionTree}

/-- The type of a value when operations have the given forms and arguments are lowered. -/
def typeUnder (ctx : Context) (forms : OpId → Op) (v : ValueId) : Ty :=
  match ctx.value? v with
  | some ⟨.result o i, ty⟩ => ((forms o).resultTypes[i]?).getD ty
  | some ⟨.argument _ _, ty⟩ => ty.lowered
  | none => .tuple []

/-- The operation that has the value as a result. -/
def definer (ctx : Context) (v : ValueId) : Option OpId :=
  match ctx.value? v with
  | some ⟨.result o _, _⟩ => some o
  | _ => none

/-- A region of a sound context that uses and is used by itself only. -/
structure Confined (ctx : Context) (t : RegionTree) : Prop where
  sound : ctx.Sound
  held : t.HeldBy ctx
  nodup : t.opIds.Nodup
  recorded {o : OpId} : o ∈ t.opIds → ctx.Recorded o
  operands {o : OpId} {v : ValueId} : o ∈ t.opIds → v ∈ (ctx.raw o).operands → v ∈ definedValues t
  users {v : ValueId} {u : Use} : v ∈ definedValues t → (v, u) ∈ ctx.ledger → u.user ∈ t.opIds
  grounded {v : ValueId} {u : Use} : (v, u) ∈ ctx.ledger → ∃ value, ctx.value? v = some value

end Context

namespace Context.Confined

variable {ctx : Context} {t : RegionTree}

/-- A value of the region is a result of one of its operations or an argument of one of its
blocks. -/
theorem origin (hc : ctx.Confined t) {v : ValueId} (hv : v ∈ definedValues t) :
    (∃ o ∈ t.opIds, ∃ i ty, ctx.value? v = some ⟨.result o i, ty⟩ ∧
      (ctx.raw o).results[i]? = some v) ∨
    ∃ s ∈ t.allBlocks, ∃ i ty block, ctx.value? v = some ⟨.argument s.id i, ty⟩ ∧
      ctx.block? s.id = some block ∧ block.args[i]? = some v := by
  rcases mem_definedValues.mp hv with ⟨s, hs, ha⟩ | ⟨⟨o, op⟩, ho, hr⟩
  · right
    obtain ⟨hblk, hargs, -, -, -⟩ := hc.held.block hs
    simp only [BlockTree.args] at ha
    rw [← hargs] at ha
    obtain ⟨i, hi⟩ := List.mem_iff_getElem?.mp ha
    obtain ⟨ty, -, hval⟩ := hc.sound.typed.argument hblk hi
    exact ⟨_, hs, i, ty, _, hval, hblk, hi⟩
  · left
    have hop := hc.held.op?_of_mem ho
    obtain ⟨i, hi⟩ := List.mem_iff_getElem?.mp hr
    obtain ⟨ty, -, hval⟩ := hc.sound.typed.result hop hi
    exact ⟨o, List.mem_map_of_mem ho, i, ty, hval, by rw [raw_of_some hop]; exact hi⟩

theorem result_defined (hc : ctx.Confined t) {o : OpId} {v : ValueId} (ho : o ∈ t.opIds)
    (hv : v ∈ (ctx.raw o).results) : v ∈ definedValues t :=
  mem_definedValues.mpr (.inr ⟨_, hc.held.mem_preorder_raw ho, hv⟩)

end Context.Confined

namespace Context

/-- `cur` is `ctx` with the operations of a region turned into the images of their forms. -/
structure Refines (ctx : Context) (t : RegionTree) (forms : OpId → Op) (cur : Context)
    (image : OpId → OpId) (subst : ValueId → ValueId) : Prop where
  sound : cur.Sound
  op? {o : OpId} : o ∈ t.opIds → cur.op? (image o) = some ((forms o).rename subst)
  recorded {o : OpId} : o ∈ t.opIds → cur.Recorded (image o)
  operands {o : OpId} : o ∈ t.opIds → (forms o).operands = (ctx.raw o).operands
  results {o : OpId} : o ∈ t.opIds → (forms o).results = (ctx.raw o).results
  parent {o : OpId} : o ∈ t.opIds → (forms o).parent = (ctx.raw o).parent
  block? {b : BlockId} {block : Block} : ctx.block? b = some block → cur.block? b = some
    (if b ∈ t.blockIds then { block.retyped with ops := block.ops.map image } else block)
  region? (r : RegionId) : cur.region? r = ctx.region? r
  outside {o : OpId} {op : Op} : o ∉ t.opIds → ctx.op? o = some op → cur.op? o = some op
  persists {o : OpId} {op : Op} : ctx.op? o = some op → ∃ op', cur.op? o = some op'
  injective {o p : OpId} : o ∈ t.opIds → p ∈ t.opIds → image o = image p → o = p
  image_new {o : OpId} : o ∈ t.opIds → image o = o ∨ ctx.op? (image o) = none
  subst_arg {s : BlockTree} {v : ValueId} : s ∈ t.allBlocks → v ∈ s.args.map Prod.fst →
    subst v = v
  closed {v : ValueId} {u : Use} : v ∈ definedValues t → (subst v, u) ∈ cur.ledger →
    ∃ o ∈ t.opIds, u.user = image o
  grounded {v : ValueId} {u : Use} : (v, u) ∈ cur.ledger → ∃ value, cur.value? v = some value

namespace Refines

variable {ctx cur cur' : Context} {t : RegionTree} {forms : OpId → Op} {image : OpId → OpId}
  {subst : ValueId → ValueId}

theorem value?_arg (hc : ctx.Confined t) (h : ctx.Refines t forms cur image subst) {s : BlockTree}
    {v : ValueId} (hs : s ∈ t.allBlocks) (hv : v ∈ s.args.map Prod.fst) :
    ∃ i ty, cur.value? v = some ⟨.argument s.id i, ty⟩ := by
  have hid : s.id ∈ t.blockIds := RegionTree.HeldBy.mem_blockIds_iff.mpr ⟨s, hs, rfl⟩
  obtain ⟨hblk, hargs, -, -, -⟩ := hc.held.block hs
  simp only [BlockTree.args, BlockTree.id] at hv hid ⊢
  rw [← hargs] at hv
  obtain ⟨i, hi⟩ := List.mem_iff_getElem?.mp hv
  have hb := h.block? hblk
  rw [if_pos hid] at hb
  obtain ⟨ty, -, hval⟩ := h.sound.typed.argument hb (i := i) (v := v) hi
  exact ⟨i, ty, hval⟩

theorem value?_subst (hc : ctx.Confined t) (h : ctx.Refines t forms cur image subst) {v : ValueId}
    (hv : v ∈ definedValues t) :
    (∃ o ∈ t.opIds, ∃ i ty, (forms o).results[i]? = some v ∧
      cur.value? (subst v) = some ⟨.result (image o) i, ty⟩ ∧ ctx.typeUnder forms v = ty) ∨
    ∃ b i ty, subst v = v ∧ cur.value? v = some ⟨.argument b i, ty⟩ ∧
      ctx.typeUnder forms v = ty := by
  rcases hc.origin hv with ⟨o, ho, i, ty, hval, hi⟩ | ⟨s, hs, i, ty, block, hval, hb, hi⟩
  · left
    rw [← h.results ho] at hi
    have hi' : ((forms o).rename subst).results[i]? = some (subst v) := by
      simp [Op.rename, hi]
    obtain ⟨ty', hty, hval'⟩ := h.sound.typed.result (h.op? ho) hi'
    refine ⟨o, ho, i, ty', hi, hval', ?_⟩
    have hty' : (forms o).resultTypes[i]? = some ty' := hty
    simp [typeUnder, hval, hty']
  · right
    have hb' := h.block? hb
    rw [if_pos (RegionTree.HeldBy.mem_blockIds_iff.mpr ⟨s, hs, rfl⟩)] at hb'
    obtain ⟨ty', hty, hval'⟩ := h.sound.typed.argument hb' (i := i) (v := v) hi
    obtain ⟨ty'', hty'', hval''⟩ := hc.sound.typed.argument hb hi
    rw [hval] at hval''
    simp only [Option.some.injEq, Value.mk.injEq, true_and] at hval''
    subst hval''
    simp only [Block.retyped, List.getElem?_map, hty'', Option.map_some, Option.some.injEq] at hty
    subst hty
    refine ⟨s.id, i, ty.lowered, h.subst_arg hs ?_, hval', by simp [typeUnder, hval]⟩
    obtain ⟨hblk, hargs, -, -, -⟩ := hc.held.block hs
    simp only [BlockTree.id] at hb
    rw [hblk] at hb
    cases Option.some.inj hb
    exact hargs ▸ List.mem_of_getElem? hi

theorem typeOf_subst (hc : ctx.Confined t) (h : ctx.Refines t forms cur image subst) {v : ValueId}
    (hv : v ∈ definedValues t) : cur.typeOf (subst v) = .ok (ctx.typeUnder forms v) := by
  rcases h.value?_subst hc hv with ⟨o, -, i, ty, -, hval, hty⟩ | ⟨b, i, ty, he, hval, hty⟩
  · exact typeOf_eq_ok.mpr ⟨_, hval, hty.symm⟩
  · rw [he]
    exact typeOf_eq_ok.mpr ⟨_, hval, hty.symm⟩

theorem operand_defined (hc : ctx.Confined t) (h : ctx.Refines t forms cur image subst) {o : OpId}
    (ho : o ∈ t.opIds) {v : ValueId} (hv : v ∈ (forms o).operands) : v ∈ definedValues t :=
  hc.operands ho (h.operands ho ▸ hv)

theorem result_defined (hc : ctx.Confined t) (h : ctx.Refines t forms cur image subst) {o : OpId}
    (ho : o ∈ t.opIds) {v : ValueId} (hv : v ∈ (forms o).results) : v ∈ definedValues t :=
  hc.result_defined ho (h.results ho ▸ hv)

theorem subst_injective (hc : ctx.Confined t) (h : ctx.Refines t forms cur image subst)
    {v w : ValueId} (hv : v ∈ definedValues t) (hw : w ∈ definedValues t)
    (he : subst v = subst w) : v = w := by
  rcases h.value?_subst hc hv with ⟨o, ho, i, ty, hi, hval, -⟩ | ⟨b, i, ty, hsv, hval, -⟩ <;>
    rcases h.value?_subst hc hw with ⟨p, hp, j, ty', hj, hval', -⟩ | ⟨c, j, ty', hsw, hval', -⟩
  · rw [he, hval'] at hval
    simp only [Option.some.injEq, Value.mk.injEq, Origin.result.injEq] at hval
    obtain ⟨⟨himage, rfl⟩, -⟩ := hval
    rw [h.injective hp ho himage] at hj
    rw [hj] at hi
    exact (Option.some.inj hi).symm
  · rw [← hsw, ← he, hval] at hval'
    simp at hval'
  · rw [← hsv, he, hval'] at hval
    simp at hval
  · rw [← hsv, ← hsw, he]

/-- What a new form of one operation has in common with the old one, all forms keep. -/
theorem forms_update {α : Type} (f : Op → α) {forms : OpId → Op} {o : OpId} {op : Op}
    (h : f op = f (forms o)) (p : OpId) : f (Function.update forms o op p) = f (forms p) := by
  by_cases he : p = o
  · rw [he, Function.update_self, h]
  · rw [Function.update_of_ne he]

theorem image_ne_outside (h : ctx.Refines t forms cur image subst) {o p : OpId} {op : Op}
    (ho : o ∈ t.opIds) (hp : p ∉ t.opIds) (hop : ctx.op? p = some op) : p ≠ image o := by
  rintro rfl
  rcases h.image_new ho with hi | hi
  · exact hp (by rw [hi]; exact ho)
  · rw [hop] at hi
    simp at hi

theorem retype (h : ctx.Refines t forms cur image subst) {o : OpId}
    (ho : o ∈ t.opIds) (hch : ChangesOp cur cur' (image o) ((forms o).rename subst).retyped) :
    ctx.Refines t (Function.update forms o (forms o).retyped) cur' image subst := by
  have himage {p : OpId} (hp : p ∈ t.opIds) : image p = image o ↔ p = o :=
    ⟨h.injective hp ho, fun e => by rw [e]⟩
  constructor
  case sound => exact hch.sound
  case op? =>
    intro p hp
    rw [hch.op?, Function.update_apply]
    simp only [himage hp]
    split
    · rfl
    · exact h.op? hp
  case recorded =>
    intro p hp op i v hop hi
    rw [hch.ledger]
    rw [hch.op?] at hop
    simp only [himage hp] at hop
    split at hop
    · rename_i he
      cases Option.some.inj hop
      rw [he]
      exact h.recorded ho _ i v (h.op? ho) hi
    · exact h.recorded hp op i v hop hi
  case operands => exact fun hp => (forms_update Op.operands (by rfl) _).trans (h.operands hp)
  case results => exact fun hp => (forms_update Op.results (by rfl) _).trans (h.results hp)
  case parent => exact fun hp => (forms_update Op.parent (by rfl) _).trans (h.parent hp)
  case block? => exact fun hb => (hch.block? _).trans (h.block? hb)
  case region? => exact fun r => (hch.region? r).trans (h.region? r)
  case outside =>
    intro p op hp hop
    rw [hch.op?, if_neg (h.image_ne_outside ho hp hop)]
    exact h.outside hp hop
  case persists =>
    intro p op hop
    rw [hch.op?]
    split
    · exact ⟨_, rfl⟩
    · exact h.persists hop
  case injective => exact h.injective
  case image_new => exact h.image_new
  case subst_arg => exact h.subst_arg
  case closed => exact fun hv hu => h.closed hv (hch.ledger ▸ hu)
  case grounded =>
    intro v u hu
    obtain ⟨value, hval⟩ := h.grounded (hch.ledger ▸ hu)
    by_cases hv : v ∈ ((forms o).rename subst).retyped.results
    · obtain ⟨i, hi⟩ := List.mem_iff_getElem?.mp hv
      obtain ⟨ty, -, hval'⟩ := hch.sound.typed.result (by rw [hch.op?, if_pos rfl]) hi
      exact ⟨_, hval'⟩
    · exact ⟨value, (hch.value? hv).trans hval⟩

theorem exists_subst (hc : ctx.Confined t) (h : ctx.Refines t forms cur image subst) {a : ValueId}
    (ha : a ∈ definedValues t) : ∃ value, cur.value? (subst a) = some value := by
  rcases h.value?_subst hc ha with ⟨p, -, i, ty, -, hval, -⟩ | ⟨c, i, ty, hs, hval, -⟩
  · exact ⟨_, hval⟩
  · exact ⟨_, by rw [hs]; exact hval⟩

/-! Replacing the image of an operation that has one result. -/

section Replace

variable {o new : OpId} {spec : OpSpec} {ty : Ty} {b : BlockId} {v w : ValueId}

theorem image_ne_fresh (h : ctx.Refines t forms cur image subst)
    (hr : Replaces cur spec ty b (image o) (subst v) cur' new w) {p : OpId} (hp : p ∈ t.opIds) :
    image p ≠ new := by
  intro he
  have hop := h.op? hp
  rw [he, hr.fresh] at hop
  simp at hop

theorem image_ne (h : ctx.Refines t forms cur image subst) (ho : o ∈ t.opIds) {p : OpId}
    (hp : p ∈ t.opIds) (hne : p ≠ o) : image p ≠ image o :=
  fun he => hne (h.injective hp ho he)

theorem value?_replaced (h : ctx.Refines t forms cur image subst) (ho : o ∈ t.opIds)
    (hresults : (forms o).results = [v]) :
    ∃ ty, cur.value? (subst v) = some ⟨.result (image o) 0, ty⟩ := by
  obtain ⟨ty, -, hval⟩ := h.sound.typed.result (h.op? ho) (i := 0) (v := subst v)
    (by simp [Op.rename, hresults])
  exact ⟨ty, hval⟩

/-- The results of the other operations are stood for as before. -/
theorem results_replaced (h : ctx.Refines t forms cur image subst) (ho : o ∈ t.opIds)
    (hresults : (forms o).results = [v]) (w : ValueId) {p : OpId} (hp : p ∈ t.opIds) (hne : p ≠ o) :
    (forms p).results.map (swap (subst v) w ∘ subst) = (forms p).results.map subst := by
  refine List.map_congr_left fun a ha => swap_of_ne fun he => ?_
  obtain ⟨i, hi⟩ := List.mem_iff_getElem?.mp ha
  obtain ⟨_, -, hval⟩ := h.sound.typed.result (h.op? hp) (i := i) (v := subst a)
    (by simp [Op.rename, hi])
  obtain ⟨_, hval'⟩ := h.value?_replaced ho hresults
  rw [he, hval'] at hval
  simp only [Option.some.injEq, Value.mk.injEq, Origin.result.injEq] at hval
  exact h.image_ne ho hp hne hval.1.1.symm

theorem op?_replaced (h : ctx.Refines t forms cur image subst) (ho : o ∈ t.opIds)
    (hresults : (forms o).results = [v])
    (hr : Replaces cur spec ty b (image o) (subst v) cur' new w) {p : OpId} (hp : p ∈ t.opIds)
    (hne : p ≠ o) :
    cur'.op? (image p) = some ((forms p).rename (swap (subst v) w ∘ subst)) := by
  rw [hr.op?_recorded (h.image_ne ho hp hne) (h.op? hp) (h.recorded hp)]
  simp only [Op.rename, h.results_replaced ho hresults w hp hne, List.map_map]

/-- All operands are recorded again: those of the new operation when it was created, the others when
the old result was replaced in them. -/
theorem recorded_replaced (h : ctx.Refines t forms cur image subst) (ho : o ∈ t.opIds)
    (hr : Replaces cur spec ty b (image o) (subst v) cur' new w) {p : OpId} (hp : p ∈ t.opIds) :
    cur'.Recorded (Function.update image o new p) := by
  intro op i a hop hi
  by_cases he : p = o
  · subst he
    rw [Function.update_self] at hop ⊢
    rw [hr.op?_new] at hop
    cases Option.some.inj hop
    simp only [List.getElem?_map, Option.map_eq_some_iff] at hi
    obtain ⟨a₀, hi, rfl⟩ := hi
    exact hr.mem_ledger.mpr ⟨(h.image_ne_fresh hr hp).symm, a₀, rfl, .inr ⟨rfl, hi⟩⟩
  · rw [Function.update_of_ne he] at hop ⊢
    rw [hr.op?_recorded (h.image_ne ho hp he) (h.op? hp) (h.recorded hp)] at hop
    cases Option.some.inj hop
    simp only [List.getElem?_map, Option.map_eq_some_iff] at hi
    obtain ⟨a₀, hi, rfl⟩ := hi
    exact hr.mem_ledger.mpr ⟨h.image_ne ho hp he, a₀, rfl,
      .inl (h.recorded hp _ i a₀ (h.op? hp) hi)⟩

/-- The block of the operation lists the new one in its place, and the other blocks list neither. -/
theorem block?_replaced (hc : ctx.Confined t) (h : ctx.Refines t forms cur image subst)
    (ho : o ∈ t.opIds) (hparent : (forms o).parent = some b)
    (hr : Replaces cur spec ty b (image o) (subst v) cur' new w) {c : BlockId} {block : Block}
    (hblk : ctx.block? c = some block) : cur'.block? c = some
      (if c ∈ t.blockIds then
        { block.retyped with ops := block.ops.map (Function.update image o new) } else block) := by
  rw [hr.block?, h.block? hblk]
  obtain ⟨b', hb', block', hblk', hmo, hp'⟩ := hc.held.exists_block hc.sound.linked ho
  obtain rfl : b' = b := by
    rw [h.parent ho, hp'] at hparent
    exact Option.some.inj hparent
  by_cases hcb : c = b'
  · subst hcb
    simp only [if_true, hb', Option.map_some, Option.some.injEq, Block.mk.injEq, and_true,
      true_and, List.map_map]
    refine List.map_congr_left fun p hp => ?_
    by_cases he : p = o
    · simp [he]
    · have hmem : p ∈ t.opIds := hc.held.mem_opIds_of_block hb' hblk hp
      rw [Function.comp_apply, swap_of_ne (h.image_ne ho hmem he), Function.update_of_ne he]
  · rw [if_neg hcb]
    by_cases hcm : c ∈ t.blockIds
    · simp only [hcm, if_true, Option.some.injEq, Block.mk.injEq, and_true, true_and]
      refine List.map_congr_left fun p hp => ?_
      refine (Function.update_of_ne ?_ _ _).symm
      rintro rfl
      obtain ⟨op, hop, hpp⟩ := hc.sound.linked.op_of_listed hblk hp
      rw [raw_of_some hop, hpp] at hp'
      exact hcb (Option.some.inj hp')
    · simp only [hcm, if_false]

theorem outside_replaced (h : ctx.Refines t forms cur image subst) (ho : o ∈ t.opIds)
    (hv : v ∈ definedValues t) (hr : Replaces cur spec ty b (image o) (subst v) cur' new w)
    {p : OpId} {op : Op} (hp : p ∉ t.opIds) (hop : ctx.op? p = some op) :
    cur'.op? p = some op := by
  have hcur := h.outside hp hop
  rw [hr.op?_unused (h.image_ne_outside ho hp hop), hcur]
  · rintro rfl
    rw [hr.fresh] at hcur
    simp at hcur
  · intro i hm
    obtain ⟨q, hq, he⟩ := h.closed hv hm
    exact h.image_ne_outside hq hp hop he

theorem injective_replaced (h : ctx.Refines t forms cur image subst)
    (hr : Replaces cur spec ty b (image o) (subst v) cur' new w) {p q : OpId} (hp : p ∈ t.opIds)
    (hq : q ∈ t.opIds) (he : Function.update image o new p = Function.update image o new q) :
    p = q := by
  by_cases hpo : p = o <;> by_cases hqo : q = o
  · rw [hpo, hqo]
  · rw [hpo, Function.update_self, Function.update_of_ne hqo] at he
    exact absurd he.symm (h.image_ne_fresh hr hq)
  · rw [hqo, Function.update_self, Function.update_of_ne hpo] at he
    exact absurd he (h.image_ne_fresh hr hp)
  · rw [Function.update_of_ne hpo, Function.update_of_ne hqo] at he
    exact h.injective hp hq he

theorem image_new_replaced (h : ctx.Refines t forms cur image subst)
    (hr : Replaces cur spec ty b (image o) (subst v) cur' new w) {p : OpId} (hp : p ∈ t.opIds) :
    Function.update image o new p = p ∨ ctx.op? (Function.update image o new p) = none := by
  by_cases he : p = o
  · rw [he, Function.update_self]
    right
    cases hop : ctx.op? new with
    | none => rfl
    | some op =>
      obtain ⟨op', hop'⟩ := h.persists hop
      rw [hr.fresh] at hop'
      simp at hop'
  · rw [Function.update_of_ne he]
    exact h.image_new hp

theorem subst_arg_replaced (hc : ctx.Confined t) (h : ctx.Refines t forms cur image subst)
    (ho : o ∈ t.opIds) (hresults : (forms o).results = [v]) (w : ValueId) {s : BlockTree}
    {a : ValueId} (hs : s ∈ t.allBlocks) (ha : a ∈ s.args.map Prod.fst) :
    (swap (subst v) w ∘ subst) a = a := by
  have hsa := h.subst_arg hs ha
  rw [Function.comp_apply, hsa, swap_of_ne]
  intro he
  obtain ⟨_, hval⟩ := h.value?_replaced ho hresults
  obtain ⟨i, ty', hval'⟩ := h.value?_arg hc hs ha
  rw [he, hval] at hval'
  simp at hval'

/-- Among the values that exist by now, the swap keeps distinct ones apart. -/
theorem eq_of_swap (hr : Replaces cur spec ty b (image o) (subst v) cur' new w) {a a' : ValueId}
    {value value' : Value} (ha : cur.value? a = some value) (ha' : cur.value? a' = some value')
    (he : swap (subst v) w a = swap (subst v) w a') : a = a' := by
  have hne {x : ValueId} {value : Value} (hx : cur.value? x = some value) : x ≠ w := by
    rintro rfl
    rw [hr.freshValue] at hx
    simp at hx
  simp only [swap] at he
  split at he <;> split at he
  · simp [*]
  · exact absurd he.symm (hne ha')
  · exact absurd he (hne ha)
  · exact he

theorem closed_replaced (hc : ctx.Confined t) (h : ctx.Refines t forms cur image subst)
    (ho : o ∈ t.opIds) (hr : Replaces cur spec ty b (image o) (subst v) cur' new w) {a : ValueId}
    {u : Use} (ha : a ∈ definedValues t) (hu : ((swap (subst v) w ∘ subst) a, u) ∈ cur'.ledger) :
    ∃ p ∈ t.opIds, u.user = Function.update image o new p := by
  obtain ⟨hne, a₀, he, hm | ⟨hnew, -⟩⟩ := hr.mem_ledger.mp hu
  · obtain ⟨_, hval⟩ := h.grounded hm
    obtain ⟨_, hval'⟩ := h.exists_subst hc ha
    obtain rfl : a₀ = subst a := eq_of_swap hr hval hval' he
    obtain ⟨p, hp, hpu⟩ := h.closed ha hm
    refine ⟨p, hp, ?_⟩
    rw [Function.update_of_ne]
    · exact hpu
    · rintro rfl
      exact hne hpu
  · exact ⟨o, ho, by rw [Function.update_self]; exact hnew⟩

theorem exists_swap (hr : Replaces cur spec ty b (image o) (subst v) cur' new w) {a : ValueId}
    (ha : ∃ value, cur.value? a = some value) :
    ∃ value, cur'.value? (swap (subst v) w a) = some value := by
  rw [hr.value?]
  split
  · exact ⟨_, rfl⟩
  · rename_i hne
    by_cases he : a = subst v
    · rw [he, swap_self] at hne
      exact absurd rfl hne
    · rw [swap_of_ne he]
      exact ha

/-- Replacing the image of an operation that has one result gives it a new form. -/
theorem replace (hc : ctx.Confined t) (h : ctx.Refines t forms cur image subst)
    (ho : o ∈ t.opIds) (hresults : (forms o).results = [v]) (hparent : (forms o).parent = some b)
    (hoperands : spec.operands = (forms o).operands.map subst)
    (hr : Replaces cur spec ty b (image o) (subst v) cur' new w) :
    ctx.Refines t
      (Function.update forms o
        { spec.toOp [v] with operands := (forms o).operands, parent := some b })
      cur' (Function.update image o new) (swap (subst v) w ∘ subst) := by
  have hv : v ∈ definedValues t := h.result_defined hc ho (by simp [hresults])
  constructor
  case sound => exact hr.sound
  case op? =>
    intro p hp
    by_cases he : p = o
    · subst he
      rw [Function.update_self, Function.update_self, hr.op?_new]
      simp [Op.rename, OpSpec.toOp, hoperands]
    · rw [Function.update_of_ne he, Function.update_of_ne he]
      exact h.op?_replaced ho hresults hr hp he
  case recorded => exact fun hp => h.recorded_replaced ho hr hp
  case operands => exact fun hp => (forms_update Op.operands (by rfl) _).trans (h.operands hp)
  case results => exact fun hp => (forms_update Op.results hresults.symm _).trans (h.results hp)
  case parent => exact fun hp => (forms_update Op.parent hparent.symm _).trans (h.parent hp)
  case block? => exact fun hblk => h.block?_replaced hc ho hparent hr hblk
  case region? => exact fun r => (hr.region? r).trans (h.region? r)
  case outside => exact fun hp hop => h.outside_replaced ho hv hr hp hop
  case persists =>
    intro p op hop
    obtain ⟨op', hop'⟩ := h.persists hop
    exact hr.persists hop'
  case injective => exact fun hp hq he => h.injective_replaced hr hp hq he
  case image_new => exact fun hp => h.image_new_replaced hr hp
  case subst_arg => exact fun hs ha => h.subst_arg_replaced hc ho hresults w hs ha
  case closed => exact fun ha hu => h.closed_replaced hc ho hr ha hu
  case grounded =>
    intro a u hu
    obtain ⟨-, a₀, rfl, hm | ⟨-, hm⟩⟩ := hr.mem_ledger.mp hu
    · exact exists_swap hr (h.grounded hm)
    · have hmem := List.mem_of_getElem? hm
      rw [hoperands] at hmem
      obtain ⟨a₁, ha₁, rfl⟩ := List.mem_map.mp hmem
      exact exists_swap hr (h.exists_subst hc (h.operand_defined hc ho ha₁))

end Replace

/-- Before the first visit only the arguments of the blocks have other types. -/
theorem initial (hc : ctx.Confined t) (hr : RetypesArgs .tuples ctx cur t.blockIds) :
    ctx.Refines t ctx.raw cur id id := by
  have hrename (op : Op) : op.rename id = op := by simp [Op.rename]
  constructor
  case sound => exact hr.sound
  case op? => exact fun ho => by rw [id, hr.op?, hc.held.op?_raw ho, hrename]
  case recorded =>
    intro o ho op i v hop hi
    rw [hr.ledger]
    exact hc.recorded ho op i v ((hr.op? o).symm.trans hop) hi
  case block? =>
    intro b block hb
    rw [hr.block?, hb]
    split
    · rw [Option.map_some, List.map_id]
      rfl
    · rfl
  case region? => exact hr.region?
  case outside => exact fun _ hop => (hr.op? _).trans hop
  case persists => exact fun hop => ⟨_, (hr.op? _).trans hop⟩
  case closed => exact fun hv hu => ⟨_, hc.users hv (hr.ledger ▸ hu), rfl⟩
  case grounded =>
    intro v u hu
    obtain ⟨value, hval⟩ := hc.grounded (hr.ledger ▸ hu)
    exact hr.value? hval
  case operands => exact fun _ => rfl
  case results => exact fun _ => rfl
  case parent => exact fun _ => rfl
  case injective => exact fun _ _ h => h
  case image_new => exact fun _ => .inl rfl
  case subst_arg => exact fun _ _ => rfl

end Refines

end Context

end RegionIR
