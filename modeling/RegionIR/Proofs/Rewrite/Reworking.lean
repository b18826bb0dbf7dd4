import RegionIR.Proofs.Context.Sound
import RegionIR.Rewrite.Pattern

/-! What is left as it was while an operation is rewritten.

A pattern creates operations that stand nowhere and own nothing. Carrying out its plan puts some of
them in front of the operation it matched, hands the uses of its results to theirs and takes it out.
Whoever is not the old operation keeps all but its operands, and whose operands change is recorded
afterwards as a user of one of the values that came in. -/

namespace RegionIR

namespace Context

variable {base ctx ctx' : Context}

/-- An operation all of whose operands exist and are in the ledger. -/
structure Wired (ctx : Context) (o : OpId) : Prop where
  recorded : ctx.Recorded o
  operand {op : Op} {v : ValueId} : ctx.op? o = some op → v ∈ op.operands →
    ∃ value, ctx.value? v = some value

namespace Wired

variable {o : OpId}

theorem of_same (h : ctx.Wired o)
    (hop : (ctx'.op? o).map Op.operands = (ctx.op? o).map Op.operands)
    (hledger : ∀ v i, (v, (⟨o, i⟩ : Use)) ∈ ctx.ledger → (v, (⟨o, i⟩ : Use)) ∈ ctx'.ledger)
    (hvalue : ∀ v value, ctx.value? v = some value → ∃ value', ctx'.value? v = some value') :
    ctx'.Wired o := by
  constructor
  case recorded =>
    intro op i v ho hi
    obtain ⟨old, hold, hops⟩ := exists_of_map_eq hop ho
    exact hledger v i (h.recorded old i v hold (hops ▸ hi))
  case operand =>
    intro op v ho hv
    obtain ⟨old, hold, hops⟩ := exists_of_map_eq hop ho
    obtain ⟨value, hval⟩ := h.operand hold (hops ▸ hv)
    exact hvalue v value hval

theorem replaceAllUses (h : ctx.Wired o) {v w : ValueId} {value : Value}
    (hw : ctx.value? w = some value) (hr : ctx.replaceAllUses v w = .ok ctx') : ctx'.Wired o := by
  by_cases hne : v = w
  · simp only [Context.replaceAllUses, hne, if_true, except_pure_eq_ok] at hr
    exact hr ▸ h
  obtain ⟨hop, hctx⟩ := replaceAllUses_ok hne hr
  have hvalue (a : ValueId) : ctx'.value? a = ctx.value? a := by rw [hctx]; rfl
  have hoperand {op : Op} {i : Nat} {a : ValueId} (ho : ctx'.op? o = some op)
      (hi : op.operands[i]? = some a) : ∃ old b, ctx.op? o = some old ∧ old.operands[i]? = some b ∧
      a = if (v, (⟨o, i⟩ : Use)) ∈ ctx.ledger then w else b := by
    rw [hop, Option.map_eq_some_iff] at ho
    obtain ⟨old, hold, rfl⟩ := ho
    simp only [getElem?_redirected, Option.map_eq_some_iff, mem_uses] at hi
    obtain ⟨b, hb, rfl⟩ := hi
    exact ⟨old, b, hold, hb, rfl⟩
  constructor
  case recorded =>
    intro op i a ho hi
    obtain ⟨old, b, hold, hb, rfl⟩ := hoperand ho hi
    rw [mem_ledger_of_replaceAllUses hne hr]
    split
    · exact .inr ⟨rfl, ‹_›⟩
    · rename_i hnot
      have hm := h.recorded old i b hold hb
      exact .inl ⟨hm, fun e => hnot (e ▸ hm)⟩
  case operand =>
    intro op a ho ha
    obtain ⟨i, hi⟩ := List.mem_iff_getElem?.mp ha
    obtain ⟨old, b, hold, hb, rfl⟩ := hoperand ho hi
    rw [hvalue]
    split
    · exact ⟨value, hw⟩
    · exact h.operand hold (List.mem_of_getElem? hb)

end Wired

theorem CreatesOp.value?_of_some {spec : OpSpec} {id : OpId} (h : CreatesOp ctx spec ctx' id)
    {v : ValueId} {value : Value} (hv : ctx.value? v = some value) :
    ctx'.value? v = some value := by
  have hlt : v.index < ctx.values.size := (Array.getElem?_eq_some_iff.mp hv).1
  rw [h.value?, if_pos hlt, hv]

/-- `ctx` is `base` in the course of rewriting `old`: `fresh` are the operations that may have been
put in front of it and `values` those that may have taken the place of its results. -/
structure Reworks (base : Context) (old : OpId) (fresh : List OpId) (values : List ValueId)
    (ctx : Context) : Prop where
  sound : ctx.Sound
  op? {o : OpId} {op : Op} : base.op? o = some op → ∃ operands parent,
    ctx.op? o = some { op with operands, parent } ∧ operands.length = op.operands.length ∧
      (parent = op.parent ∨ (o = old ∧ parent = none)) ∧
      (o ≠ old → operands ≠ op.operands → ∃ v ∈ values, ∃ i, (v, (⟨o, i⟩ : Use)) ∈ ctx.ledger)
  wired {o : OpId} {op : Op} : o ≠ old → base.op? o = some op → base.Wired o → ctx.Wired o
  created {o : OpId} {op : Op} : base.op? o = none → ctx.op? o = some op →
    op.regions = [] ∧ (base.Wired old → ctx.Wired o) ∧ (op.parent = none ∨
      (o ∈ fresh ∧ ∃ oldOp, base.op? old = some oldOp ∧ op.parent = oldOp.parent))
  value? {v : ValueId} {value : Value} : base.value? v = some value → ctx.value? v = some value
  block? (b : BlockId) : (ctx.block? b).map Block.argTypes = (base.block? b).map Block.argTypes
  region? (r : RegionId) : ctx.region? r = base.region? r

namespace Reworks

variable {old : OpId} {fresh : List OpId} {values : List ValueId}

theorem refl (hs : base.Sound) : Reworks base old fresh values base where
  sound := hs
  op? ho := ⟨_, _, ho, rfl, .inl rfl, fun _ hne => absurd rfl hne⟩
  wired _ _ h := h
  created hnone ho := by simp [hnone] at ho
  value? h := h
  block? _ := rfl
  region? _ := rfl

theorem createOp (h : Reworks base old fresh values ctx) {spec : OpSpec} {id : OpId} {oldOp : Op}
    (hold : base.op? old = some oldOp) (hregions : spec.regions = []) (hattrs : spec.attrs.Sorted)
    (hoperands : ∀ v ∈ spec.operands, v ∈ oldOp.operands ∨ ∃ value, ctx.value? v = some value)
    (hc : CreatesOp ctx spec ctx' id) : Reworks base old fresh values ctx' := by
  have hledger {e : ValueId × Use} (he : e ∈ ctx.ledger) : e ∈ ctx'.ledger := by
    rw [hc.ledger]
    exact List.mem_append_left _ he
  have hwired {o : OpId} {op : Op} (ho : ctx.op? o = some op) (hw : ctx.Wired o) :
      ctx'.Wired o :=
    hw.of_same (by rw [hc.op?_of_some ho, ho]) (fun _ _ he => hledger he)
      fun _ _ hv => ⟨_, hc.value?_of_some hv⟩
  constructor
  case sound => exact h.sound.createOp hattrs hc
  case op? =>
    intro o op ho
    obtain ⟨operands, parent, ho', hlen, hparent, hops⟩ := h.op? ho
    refine ⟨operands, parent, hc.op?_of_some ho', hlen, hparent, fun hne hne' => ?_⟩
    obtain ⟨v, hv, i, hm⟩ := hops hne hne'
    exact ⟨v, hv, i, hledger hm⟩
  case wired =>
    intro o op hne ho hw
    obtain ⟨operands, parent, ho', -⟩ := h.op? ho
    exact hwired ho' (h.wired hne ho hw)
  case created =>
    intro o op hnone ho
    have hcreated := hc.op? o
    split at hcreated
    · rename_i he
      obtain rfl := Option.some.inj (hcreated.symm.trans ho)
      refine ⟨hregions, fun hw => ⟨fun op i v ho' hi => ?_, fun {op v} ho' hv => ?_⟩, .inl rfl⟩
      all_goals obtain rfl := Option.some.inj (ho.symm.trans ho')
      · rw [hc.ledger, List.mem_append]
        exact .inr (mem_mapIdx_uses.mpr ⟨he, hi⟩)
      · rcases hoperands v hv with hv | ⟨value, hv⟩
        · obtain ⟨value, hval⟩ := hw.operand hold hv
          exact ⟨_, hc.value?_of_some (h.value? hval)⟩
        · exact ⟨_, hc.value?_of_some hv⟩
    · rw [hcreated] at ho
      obtain ⟨hr, hw, hparent⟩ := h.created hnone ho
      exact ⟨hr, fun hold => hwired ho (hw hold), hparent⟩
  case value? => exact fun hv => hc.value?_of_some (h.value? hv)
  case block? => exact fun b => by rw [hc.block?, h.block?]
  case region? =>
    intro r
    rw [hc.region?, hregions, h.region?]
    simp

theorem insertOpBefore (h : Reworks base old fresh values ctx) {b : BlockId} {new : OpId}
    {oldOp : Op} (hold : base.op? old = some oldOp) (hparent : oldOp.parent = some b)
    (hmem : new ∈ fresh) (hnew : base.op? new = none)
    (hi : ctx.insertOpBefore b old new = .ok ctx') : Reworks base old fresh values ctx' := by
  have hs := h.sound.insertOpBefore hi
  obtain ⟨-, block, ops, hb, -, rfl⟩ := insertOpBefore_ok hi
  have hop (o : OpId) : ((ctx.modifyOp new fun op => { op with parent := some b }).modifyBlock b
      fun block => { block with ops }).op? o =
      if o = new then (ctx.op? o).map fun op => { op with parent := some b } else ctx.op? o := by
    rw [op?_modifyBlock, op?_modifyOp]
  have hwired {o : OpId} (hw : ctx.Wired o) :
      ((ctx.modifyOp new fun op => { op with parent := some b }).modifyBlock b
        fun block => { block with ops }).Wired o := hw.of_same
    (by rw [hop]; split <;> simp [Function.comp_def]) (fun _ _ he => he) fun _ _ hv => ⟨_, hv⟩
  constructor
  case sound => exact hs
  case op? =>
    intro o op ho
    have hne : o ≠ new := by
      rintro rfl
      simp [hnew] at ho
    obtain ⟨operands, parent, ho', hrest⟩ := h.op? ho
    exact ⟨operands, parent, by rw [hop, if_neg hne, ho'], hrest⟩
  case wired => exact fun hne ho hw => hwired (h.wired hne ho hw)
  case created =>
    intro o op hnone ho
    rw [hop] at ho
    split at ho
    · rename_i he
      obtain ⟨op', ho', rfl⟩ := Option.map_eq_some_iff.mp ho
      obtain ⟨hr, hw, -⟩ := h.created hnone ho'
      exact ⟨hr, fun hold => hwired (hw hold), .inr ⟨he ▸ hmem, oldOp, hold, hparent.symm⟩⟩
    · obtain ⟨hr, hw, hp⟩ := h.created hnone ho
      exact ⟨hr, fun hold => hwired (hw hold), hp⟩
  case value? => exact h.value?
  case block? =>
    intro c
    rw [← h.block?, block?_modifyBlock, block?_modifyOp]
    split <;> simp [Function.comp_def]
  case region? => exact h.region?

theorem replaceAllUses (h : Reworks base old fresh values ctx) {v w : ValueId} {value : Value}
    (hw : w ∈ values) (hval : ctx.value? w = some value)
    (hr : ctx.replaceAllUses v w = .ok ctx') : Reworks base old fresh values ctx' := by
  by_cases hne : v = w
  · simp only [Context.replaceAllUses, hne, if_true, except_pure_eq_ok] at hr
    exact hr ▸ h
  have hs := h.sound.replaceAllUses hr
  have hwired {o : OpId} (hwo : ctx.Wired o) : ctx'.Wired o :=
    hwo.replaceAllUses hval hr
  obtain ⟨hop, hctx⟩ := replaceAllUses_ok hne hr
  have hmem {a : ValueId} {u : Use} := mem_ledger_of_replaceAllUses hne hr (v := a) (u := u)
  constructor
  case sound => exact hs
  case op? =>
    intro o op ho
    obtain ⟨operands, parent, ho', hlen, hparent, hops⟩ := h.op? ho
    refine ⟨redirected (ctx.uses v) w o operands, parent, by rw [hop, ho']; rfl,
      by rw [redirected, List.length_mapIdx, hlen], hparent, fun hold hchanged => ?_⟩
    by_cases hused : ∃ i, (v, (⟨o, i⟩ : Use)) ∈ ctx.ledger
    · obtain ⟨i, hi⟩ := hused
      exact ⟨w, hw, i, hmem.mpr (.inr ⟨rfl, hi⟩)⟩
    · rw [redirected_of_unused fun i hi => hused ⟨i, hi⟩] at hchanged
      obtain ⟨a, ha, i, hi⟩ := hops hold hchanged
      refine ⟨a, ha, i, hmem.mpr (.inl ⟨hi, ?_⟩)⟩
      rintro rfl
      exact hused ⟨i, hi⟩
  case wired => exact fun hold ho hwo => hwired (h.wired hold ho hwo)
  case created =>
    intro o op hnone ho
    rw [hop, Option.map_eq_some_iff] at ho
    obtain ⟨op', ho', rfl⟩ := ho
    obtain ⟨hr, hw, hp⟩ := h.created hnone ho'
    exact ⟨hr, fun hold => hwired (hw hold), hp⟩
  case value? =>
    intro a value ha
    rw [hctx]
    exact h.value? ha
  case block? =>
    intro b
    rw [hctx]
    exact h.block? b
  case region? =>
    intro r
    rw [hctx]
    exact h.region? r

theorem detachOp (h : Reworks base old fresh values ctx) {b : BlockId}
    (hd : ctx.detachOp b old = .ok ctx') : Reworks base old fresh values ctx' := by
  have hs := h.sound.detachOp hd
  obtain ⟨-, -, rfl⟩ := detachOp_ok hd
  have hop (o : OpId) : ((ctx.modifyBlock b fun block =>
        { block with ops := block.ops.filter (· ≠ old) }).modifyOp old fun op =>
          if op.parent = some b then { op with parent := none } else op).op? o =
      if o = old then (ctx.op? o).map fun op =>
        if op.parent = some b then { op with parent := none } else op else ctx.op? o := by
    rw [op?_modifyOp, op?_modifyBlock]
  have hwired {o : OpId} (hne : o ≠ old) (hw : ctx.Wired o) :
      ((ctx.modifyBlock b fun block =>
        { block with ops := block.ops.filter (· ≠ old) }).modifyOp old fun op =>
          if op.parent = some b then { op with parent := none } else op).Wired o := hw.of_same
    (by rw [hop, if_neg hne]) (fun _ _ he => he) fun _ _ hv => ⟨_, hv⟩
  constructor
  case sound => exact hs
  case op? =>
    intro o op ho
    obtain ⟨operands, parent, ho', hlen, hparent, hops⟩ := h.op? ho
    by_cases he : o = old
    · by_cases hp : parent = some b
      · exact ⟨operands, none, by rw [hop, if_pos he, ho', Option.map_some, if_pos hp], hlen,
          .inr ⟨he, rfl⟩, fun hne => absurd he hne⟩
      · exact ⟨operands, parent, by rw [hop, if_pos he, ho', Option.map_some, if_neg hp], hlen,
          hparent, fun hne => absurd he hne⟩
    · exact ⟨operands, parent, by rw [hop, if_neg he, ho'], hlen, hparent, hops⟩
  case wired => exact fun hne ho hw => hwired hne (h.wired hne ho hw)
  case created =>
    intro o op hnone ho
    rw [hop] at ho
    split at ho
    · obtain ⟨op', ho', he⟩ := Option.map_eq_some_iff.mp ho
      obtain ⟨hr, hw, hp⟩ := h.created hnone ho'
      subst he
      refine ⟨?_, fun hold => (hw hold).of_same ?_ (fun _ _ he => he) fun _ _ hv => ⟨_, hv⟩, ?_⟩
      · split <;> exact hr
      · rw [hop, if_pos ‹_›, ho']
        simp only [Option.map_some]
        split <;> rfl
      · split
        · exact .inl rfl
        · exact hp
    · rename_i hne
      obtain ⟨hr, hw, hp⟩ := h.created hnone ho
      exact ⟨hr, fun hold => hwired hne (hw hold), hp⟩
  case value? => exact h.value?
  case block? =>
    intro c
    rw [← h.block?, block?_modifyOp, block?_modifyBlock]
    split <;> simp [Function.comp_def]
  case region? => exact h.region?

theorem removeOp (h : Reworks base old fresh values ctx) {oldOp : Op}
    (hold : base.op? old = some oldOp) (hr : ctx.removeOp old = .ok ctx') :
    Reworks base old fresh values ctx' := by
  have hs := h.sound.removeOp hr
  obtain ⟨op, -, -, -, hctx⟩ := removeOp_ok hr
  have hledger {v : ValueId} {u : Use} (hne : u.user ≠ old) (hm : (v, u) ∈ ctx.ledger) :
      (v, u) ∈ ctx'.ledger := by
    rw [hctx]
    simp [List.mem_filter, hm, hne]
  have hwired {o : OpId} (hne : o ≠ old) (hw : ctx.Wired o) : ctx'.Wired o :=
    hw.of_same (by rw [hctx]; rfl) (fun _ _ he => hledger hne he) fun _ _ hv =>
      ⟨_, by rw [hctx]; exact hv⟩
  subst hctx
  constructor
  case sound => exact hs
  case op? =>
    intro o op' ho
    obtain ⟨operands, parent, ho', hlen, hparent, hops⟩ := h.op? ho
    refine ⟨operands, parent, ho', hlen, hparent, fun hne hne' => ?_⟩
    obtain ⟨v, hv, i, hi⟩ := hops hne hne'
    exact ⟨v, hv, i, hledger hne hi⟩
  case wired => exact fun hne ho hw => hwired hne (h.wired hne ho hw)
  case created =>
    intro o op' hnone ho
    obtain ⟨hr, hw, hp⟩ := h.created hnone ho
    refine ⟨hr, fun hwo => hwired ?_ (hw hwo), hp⟩
    rintro rfl
    simp [hold] at hnone
  case value? => exact h.value?
  case block? => exact h.block?
  case region? => exact h.region?

end Reworks

/-- `ctx'` is `ctx` with further operations that stand nowhere and own nothing. Their operands are
among `uses`, or they exist. -/
inductive Creates (uses : List ValueId) (ctx : Context) : Context → Prop
  | refl : Creates uses ctx ctx
  | createOp {ctx₁ ctx₂ : Context} {spec : OpSpec} {id : OpId} : Creates uses ctx ctx₁ →
      spec.regions = [] → spec.attrs.Sorted →
      (∀ v ∈ spec.operands, v ∈ uses ∨ ∃ value, ctx₁.value? v = some value) →
      ctx₁.createOp spec = .ok (ctx₂, id) → Creates uses ctx ctx₂

theorem Creates.trans {uses : List ValueId} {ctx'' : Context} (h : Creates uses ctx ctx')
    (h' : Creates uses ctx' ctx'') : Creates uses ctx ctx'' := by
  induction h' with
  | refl => exact h
  | createOp _ hr ha ho hc ih => exact ih.createOp hr ha ho hc

theorem Creates.reworks {old : OpId} {oldOp : Op} (hs : base.Sound)
    (hold : base.op? old = some oldOp) (h : Creates oldOp.operands base ctx)
    (fresh : List OpId) (values : List ValueId) : Reworks base old fresh values ctx := by
  induction h with
  | refl => exact .refl hs
  | createOp _ hr ha ho hc ih => exact ih.createOp hold hr ha ho (createOp_ok hc)

end Context

end RegionIR
