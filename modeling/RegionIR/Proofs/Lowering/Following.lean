import RegionIR.Proofs.Lowering.Account
import RegionIR.Proofs.Lowering.Effects
import RegionIR.Proofs.Lowering.Simulation

/-! Lowerings follow their accounts.

The numbers of new operations and values depend on what else is in the context, and so does the
place of a use in the ledger. What a lowering does at each step is in the account all the same, and
outside of the region it leaves values and their uses as they were. -/

namespace RegionIR

namespace Op

variable {op op' : Op} {f : ValueId → ValueId}

theorem lowering_rename (settle : Ty → Ty) (types : ValueId → Ty) (op : Op) (f : ValueId → ValueId) :
    (op.rename f).lowering settle types = (op.lowering settle (types ∘ f)).map (rename f) := by
  rw [lowering, lowering, construction?_rename, extraction?_rename]
  cases op.construction? with
  | some type =>
    simp only [rename, List.length_map]
    split
    · rfl
    · rfl
  | none =>
    cases op.extraction? with
    | none => rfl
    | some e =>
      obtain ⟨tuple, index⟩ := e
      simp only [Option.map_some, Option.bind_eq_bind, Option.map_bind, Function.comp_def,
        Option.pure_def]
      rfl

theorem visited_rename (settle : Ty → Ty) (types : ValueId → Ty) (op : Op) (f : ValueId → ValueId) :
    (op.rename f).visited settle types = (op.visited settle (types ∘ f)).rename f := by
  have hname : (op.rename f).isTupleOp = op.isTupleOp := rfl
  rw [visited, visited, hname, lowering_rename]
  split
  · cases op.lowering settle (types ∘ f) <;> rfl
  · rfl

/-- Renaming loses nothing but operands and results. -/
theorem eq_of_rename (h : op.rename f = op'.rename f) (hoperands : op.operands = op'.operands)
    (hresults : op.results = op'.results) : op = op' := by
  obtain ⟨⟩ := op
  obtain ⟨⟩ := op'
  simp only [rename, Op.mk.injEq] at h hoperands hresults ⊢
  simp [h, hoperands, hresults]

end Op

namespace Context

variable {ctx cur : Context} {t : RegionTree} {forms : OpId → Op} {image : OpId → OpId}
  {subst : ValueId → ValueId}

/-- The operations that define the operands are the images of those that did at the start. -/
theorem Refines.producersOf_eq (hc : ctx.Confined t) (h : ctx.Refines t forms cur image subst)
    {op : Op} {operands : List ValueId} (hop : op.operands = operands.map subst)
    (hdefined : ∀ v ∈ operands, v ∈ definedValues t) :
    cur.producersOf op = .ok ((operands.filterMap ctx.definer).map image) := by
  have hdefiner {v : ValueId} (hv : v ∈ definedValues t) : ∃ value,
      cur.value? (subst v) = some value ∧ cur.definer (subst v) = (ctx.definer v).map image := by
    rcases hc.origin hv with ⟨o, ho, i, ty, hval, hi⟩ | ⟨s, hs, i, ty, block, hval, hb, hi⟩
    · have hi' : ((forms o).rename subst).results[i]? = some (subst v) := by
        simp [Op.rename, h.results ho, hi]
      obtain ⟨ty', -, hval'⟩ := h.sound.typed.result (h.op? ho) hi'
      exact ⟨_, hval', by simp [definer, hval, hval']⟩
    · obtain ⟨block', hblk, hargs, -, -⟩ := (hc.held.block hs).exists_block
      obtain rfl := Option.some.inj (hb.symm.trans hblk)
      have hv : v ∈ s.args.map Prod.fst := hargs ▸ List.mem_of_getElem? hi
      obtain ⟨j, ty', hval'⟩ := h.value?_arg hc hs hv
      rw [h.subst_arg hs hv]
      exact ⟨_, hval', by simp [definer, hval, hval']⟩
  have hexist : ∀ v ∈ op.operands, ∃ value, cur.value? v = some value := by
    rw [hop]
    intro v hv
    obtain ⟨v₀, hv₀, rfl⟩ := List.mem_map.mp hv
    obtain ⟨value, hval, -⟩ := hdefiner (hdefined v₀ hv₀)
    exact ⟨value, hval⟩
  rw [producersOf_of_exist hexist, hop, List.filterMap_map, List.map_filterMap]
  refine congrArg Except.ok (List.filterMap_congr fun v hv => ?_)
  obtain ⟨value, -, hd⟩ := hdefiner (hdefined v hv)
  exact hd

theorem Confined.definer_mem (hc : ctx.Confined t) {v : ValueId} {o : OpId}
    (hv : v ∈ definedValues t) (ho : ctx.definer v = some o) : o ∈ t.opIds := by
  rcases hc.origin hv with ⟨p, hp, i, ty, hval, -⟩ | ⟨s, -, i, ty, block, hval, -, -⟩
  · obtain rfl : p = o := by simpa [definer, hval] using ho
    exact hp
  · simp [definer, hval] at ho

theorem usersOf_map {users : ValueId → List OpId} {vs : List ValueId}
    (h : ∀ v ∈ vs, (cur.uses (subst v)).map Use.user = (users v).map image) :
    cur.usersOf (vs.map subst) = (vs.flatMap users).map image := by
  rw [usersOf, List.flatMap_map, List.map_flatMap]
  exact List.flatMap_congr h

/-- The values that the region does not define are as they were, with the same uses in the same
order. -/
structure Leaves (ctx : Context) (t : RegionTree) (cur : Context) : Prop where
  lasts {v : ValueId} {value : Value} : ctx.value? v = some value →
    ∃ value', cur.value? v = some value'
  value? {v : ValueId} {value : Value} : v ∉ definedValues t → ctx.value? v = some value →
    cur.value? v = some value
  uses {v : ValueId} {value : Value} : v ∉ definedValues t → ctx.value? v = some value →
    cur.uses v = ctx.uses v

/-- A run has come as far as an account. A result keeps its number unless its operation was lowered,
and then it has a new one. -/
structure Follows (ctx : Context) (t : RegionTree) (a : Account) (r : Run) (image : OpId → OpId)
    (subst : ValueId → ValueId) : Prop where
  refines : ctx.Refines t a.forms r.ctx image subst
  leaves : ctx.Leaves t r.ctx
  becomes {o : OpId} : o ∈ t.opIds → (ctx.raw o).Becomes (a.forms o)
  stays {o : OpId} {v : ValueId} : o ∈ t.opIds → v ∈ (ctx.raw o).results →
    (a.forms o).isTupleOp = (ctx.raw o).isTupleOp → subst v = v
  moved {o : OpId} {v : ValueId} : o ∈ t.opIds → v ∈ (ctx.raw o).results →
    (a.forms o).isTupleOp ≠ (ctx.raw o).isTupleOp → ctx.value? (subst v) = none
  ready : a.work.Ready
  known {o : OpId} : o ∈ a.work.queue → o ∈ t.opIds
  work : r.work = a.work.map image
  users {v : ValueId} : v ∈ definedValues t →
    (r.ctx.uses (subst v)).map Use.user = (a.users v).map image
  users_known {v : ValueId} {o : OpId} : v ∈ definedValues t → o ∈ a.users v → o ∈ t.opIds
  rewrites : r.rewrites = a.rewrites
  retyped : r.retyped = a.retyped

namespace Follows

variable {a : Account} {r r' : Run} {o : OpId}

theorem subst_cases (hc : ctx.Confined t) (h : ctx.Follows t a r image subst) {v : ValueId}
    (hv : v ∈ definedValues t) : subst v = v ∨ ctx.value? (subst v) = none := by
  rcases mem_definedValues.mp hv with ⟨s, hs, ha⟩ | ⟨⟨o, op⟩, ho, hr⟩
  · exact .inl (h.refines.subst_arg hs ha)
  · have hmem : o ∈ t.opIds := List.mem_map_of_mem ho
    have hraw : v ∈ (ctx.raw o).results := by
      rw [raw_of_some (hc.held.op?_of_mem ho)]
      exact hr
    by_cases hsame : (a.forms o).isTupleOp = (ctx.raw o).isTupleOp
    · exact .inl (h.stays hmem hraw hsame)
    · exact .inr (h.moved hmem hraw hsame)

theorem subst_ne (hc : ctx.Confined t) (h : ctx.Follows t a r image subst) {v w : ValueId}
    {value : Value} (hv : v ∈ definedValues t) (hw : w ∉ definedValues t)
    (hval : ctx.value? w = some value) : subst v ≠ w := by
  intro hvw
  rcases h.subst_cases hc hv with he | hnone
  · exact hw (hvw ▸ he.symm ▸ hv)
  · simp [hvw, hval] at hnone

theorem waiting_known (h : ctx.Follows t a r image subst) : a.work.waiting ⊆ t.opIds :=
  fun o ho => h.known ((h.ready.waiting o).mp ho)

theorem pop_eq (h : ctx.Follows t a r image subst) :
    r.work.pop = a.work.pop.map fun e => (image e.1, e.2.map image) := by
  rw [h.work]
  exact Worklist.pop_map fun x hx y hy he => h.refines.injective (h.waiting_known hy) (h.known hx) he

theorem pop (h : ctx.Follows t a r image subst) {work : Worklist}
    (hpop : a.work.pop = some (o, work)) : o ∈ t.opIds ∧ o ∉ work.queue ∧
      r.work.pop = some (image o, work.map image) ∧
      ctx.Follows t { a with work } { r with work := work.map image } image subst := by
  obtain ⟨hready, hqueue⟩ := h.ready.pop hpop
  have hmem : ∀ p ∈ o :: work.queue, p ∈ t.opIds := fun p hp => h.known (hqueue ▸ hp)
  have hnd := h.ready.nodup
  rw [hqueue] at hnd
  refine ⟨hmem o List.mem_cons_self, (List.nodup_cons.mp hnd).1, ?_, ?_⟩
  · rw [h.pop_eq, hpop, Option.map_some]
  · exact { h with ready := hready, known := fun hp => hmem _ (List.mem_cons_of_mem _ hp), work := rfl }

theorem retype (hc : ctx.Confined t) (h : ctx.Follows t a r image subst) (ho : o ∈ t.opIds)
    (htuple : (a.forms o).isTupleOp = false)
    (hch : r.ctx.ChangesOp r'.ctx (image o) ((a.forms o).rename subst).retyped)
    (hr' : r' = { r with
      ctx := r'.ctx, declines := r'.declines, retyped := r.retyped + 1
      work := r.work.pushAll (r'.ctx.usersOf ((a.forms o).rename subst).results) }) :
    ctx.Follows t (a.retype o) r' image subst := by
  have hname (p : OpId) : ((a.retype o).forms p).isTupleOp = (a.forms p).isTupleOp := by
    by_cases he : p = o
    · rw [he, Account.forms_retype, Function.update_self, Op.isTupleOp_retyped]
    · rw [Account.forms_retype, Function.update_of_ne he]
  have huses (v : ValueId) : r'.ctx.uses v = r.ctx.uses v := by
    rw [Context.uses, hch.ledger, Context.uses]
  have husers {v : ValueId} (hv : v ∈ definedValues t) :
      (r'.ctx.uses (subst v)).map Use.user = (a.users v).map image := by
    rw [huses, h.users hv]
  have hdefined : ∀ v ∈ (a.forms o).results, v ∈ definedValues t :=
    fun v hv => h.refines.result_defined hc ho hv
  have hneighbours : (a.forms o).results.flatMap a.users ⊆ t.opIds := by
    intro p hp
    obtain ⟨v, hv, hp⟩ := List.mem_flatMap.mp hp
    exact h.users_known (hdefined v hv) hp
  constructor
  case refines => exact h.refines.retype ho hch
  case leaves =>
    have hout {v : ValueId} {value : Value} (hv : v ∉ definedValues t)
        (hval : ctx.value? v = some value) : v ∉ ((a.forms o).rename subst).retyped.results := by
      intro hm
      obtain ⟨w, hw, he⟩ := List.mem_map.mp hm
      exact h.subst_ne hc (hdefined w hw) hv hval he
    refine ⟨fun {v value} hval => ?_, fun hv hval => ?_, fun hv hval => ?_⟩
    · obtain ⟨value', hval'⟩ := h.leaves.lasts hval
      by_cases hm : v ∈ ((a.forms o).rename subst).retyped.results
      · obtain ⟨i, hi⟩ := List.mem_iff_getElem?.mp hm
        obtain ⟨ty, -, hty⟩ := hch.sound.typed.result (by rw [hch.op?, if_pos rfl]) hi
        exact ⟨_, hty⟩
      · exact ⟨value', (hch.value? hm).trans hval'⟩
    · exact (hch.value? (hout hv hval)).trans (h.leaves.value? hv hval)
    · exact (huses _).trans (h.leaves.uses hv hval)
  case becomes =>
    intro p hp
    by_cases he : p = o
    · subst he
      have hvisited : (a.forms p).visited id (ctx.typeUnder a.forms) = (a.forms p).retyped :=
        Op.visited_of_not_tupleOp htuple
      rw [Account.forms_retype, Function.update_self, ← hvisited]
      exact (h.becomes hp).visited
    · rw [Account.forms_retype, Function.update_of_ne he]
      exact h.becomes hp
  case stays => exact fun hp hv hsame => h.stays hp hv ((hname _).symm.trans hsame)
  case moved => exact fun hp hv hne => h.moved hp hv fun hsame => hne ((hname _).trans hsame)
  case ready => exact (h.ready.pushAll _).1
  case known =>
    intro p hp
    rcases (Worklist.mem_pushAll h.ready).mp hp with hp | hp
    · exact h.known hp
    · exact hneighbours hp
  case work =>
    have hresults : ((a.forms o).rename subst).results = (a.forms o).results.map subst := rfl
    rw [hr', Account.work_retype]
    simp only
    rw [hresults, usersOf_map fun v hv => husers (hdefined v hv), h.work]
    exact Worklist.pushAll_map (fun x hx y hy he => h.refines.injective hx hy he) hneighbours
      h.waiting_known
  case users => exact husers
  case users_known => exact h.users_known
  case rewrites =>
    rw [hr']
    exact h.rewrites
  case retyped =>
    rw [hr']
    exact congrArg (· + 1) h.retyped

theorem count_map_of_injOn {l : List ValueId} {f : ValueId → ValueId} {v : ValueId}
    (h : ∀ x ∈ l, f x = f v → x = v) : (l.map f).count (f v) = l.count v := by
  rw [List.count, List.countP_map, List.count]
  refine List.countP_congr fun x hx => ?_
  simpa using ⟨h x hx, congrArg f⟩

/-! A tuple operation is lowered: the new one is `n`, and its result `w` stands for `v` from now on. -/

section Lower

variable {form : Op} {spec : OpSpec} {ty : Ty} {b : BlockId} {v w : ValueId} {n : OpId}
  (hc : ctx.Confined t) (h : ctx.Follows t a r image subst) (ho : o ∈ t.opIds)
  (hlow : (a.forms o).lowering id (ctx.typeUnder a.forms) = some form)
  (hv : (a.forms o).results = [v])
  (hoperands : spec.operands = (a.forms o).operands.map subst)
  (hr : r.ctx.Replaces spec ty b (image o) (subst v) r'.ctx n w)

include hr in
theorem ne_new {x : ValueId} (hx : ∃ value, r.ctx.value? x = some value) : x ≠ w := by
  rintro rfl
  obtain ⟨value, hval⟩ := hx
  simp [hr.freshValue] at hval

include hc h hr in
theorem subst_ne_new {x : ValueId} (hx : x ∈ definedValues t) : subst x ≠ w := by
  obtain ⟨value, hval, -⟩ := typeOf_eq_ok.mp (h.refines.typeOf_subst hc hx)
  exact ne_new hr ⟨value, hval⟩

include h ho in
theorem image_ne_new (hr : r.ctx.Replaces spec ty b (image o) (subst v) r'.ctx n w) : image o ≠ n := by
  intro he
  have hop := h.refines.op? ho
  simp [he, hr.fresh] at hop

include hc h ho hoperands hr in
/-- The new result is not used before, so that its uses are those of the old one. -/
theorem uses_swap {x : ValueId} (hx : ∃ value, r.ctx.value? x = some value) :
    r'.ctx.uses (swap (subst v) w x) = (r.ctx.uses x).filter (fun u => u.user ≠ image o) ++
      (usesBy n spec.operands x).filter fun u => u.user ≠ image o := by
  have hunused : r.ctx.uses w = [] := by
    refine List.eq_nil_iff_forall_not_mem.mpr fun u hu => ?_
    exact ne_new hr (h.refines.grounded (mem_uses.mp hu)) rfl
  have hw : w ∉ spec.operands := by
    rw [hoperands]
    intro hm
    obtain ⟨y, hy, he⟩ := List.mem_map.mp hm
    exact h.subst_ne_new hc hr (h.refines.operand_defined hc ho hy) he
  exact hr.uses_swap hunused hw (ne_new hr hx)

include hc h ho hlow hoperands hr in
theorem users_lower {x : ValueId} (hx : x ∈ definedValues t) :
    (r'.ctx.uses ((swap (subst v) w ∘ subst) x)).map Use.user =
      ((a.lower ctx o form).users x).map (Function.update image o n) := by
  have hold : ((r.ctx.uses (subst x)).filter fun u => u.user ≠ image o).map Use.user =
      ((a.users x).filter (· ≠ o)).map (Function.update image o n) := by
    have hsame : (a.users x).filter (fun p => image p ≠ image o) = (a.users x).filter (· ≠ o) := by
      refine List.filter_congr fun p hp => ?_
      have hiff : image p = image o ↔ p = o :=
        ⟨h.refines.injective (h.users_known hx hp) ho, fun he => by rw [he]⟩
      simp [hiff]
    calc ((r.ctx.uses (subst x)).filter fun u => u.user ≠ image o).map Use.user
        = ((r.ctx.uses (subst x)).map Use.user).filter (· ≠ image o) := by
          rw [List.filter_map]
          rfl
      _ = ((a.users x).filter (· ≠ o)).map image := by
          rw [h.users hx, List.filter_map, ← hsame]
          rfl
      _ = ((a.users x).filter (· ≠ o)).map (Function.update image o n) :=
          List.map_congr_left fun p hp =>
            (Function.update_of_ne (by simpa using (List.mem_filter.mp hp).2) _ _).symm
  have hown : ((usesBy n spec.operands (subst x)).filter fun u => u.user ≠ image o).map Use.user =
      (List.replicate (form.operands.count x) o).map (Function.update image o n) := by
    rw [List.filter_eq_self.mpr, map_user_usesBy, List.map_replicate, Function.update_self, hoperands,
      (Op.loweredFrom hlow).operands, count_map_of_injOn]
    · exact fun y hy he => h.refines.subst_injective hc (h.refines.operand_defined hc ho hy) hx he
    · intro u hu
      rw [(mem_usesBy.mp hu).1]
      simpa using (h.image_ne_new ho hr).symm
  obtain ⟨value, hval, -⟩ := typeOf_eq_ok.mp (h.refines.typeOf_subst hc hx)
  rw [Function.comp_apply, h.uses_swap hc ho hoperands hr ⟨value, hval⟩, List.map_append, hold, hown,
    Account.users_lower, List.map_append]

include h ho in
theorem users_lower_known {x : ValueId} {p : OpId} (hx : x ∈ definedValues t)
    (hp : p ∈ (a.lower ctx o form).users x) : p ∈ t.opIds := by
  rw [Account.users_lower, List.mem_append, List.mem_filter, List.mem_replicate] at hp
  rcases hp with ⟨hp, -⟩ | ⟨-, rfl⟩
  · exact h.users_known hx hp
  · exact ho

include hc h ho hlow in
theorem neighbours_known : form.results.flatMap (a.lower ctx o form).users ++
    form.operands.filterMap ctx.definer ⊆ t.opIds := by
  have hlf := Op.loweredFrom hlow
  intro p hp
  rcases List.mem_append.mp hp with hp | hp
  · obtain ⟨x, hx, hp⟩ := List.mem_flatMap.mp hp
    exact h.users_lower_known ho (h.refines.result_defined hc ho (hlf.results ▸ hx)) hp
  · obtain ⟨x, hx, hp⟩ := List.mem_filterMap.mp hp
    exact hc.definer_mem (h.refines.operand_defined hc ho (hlf.operands ▸ hx)) hp

include hc h ho hv in
theorem swap_subst_of_ne {p : OpId} {x : ValueId} (hp : p ∈ t.opIds) (hne : p ≠ o)
    (hx : x ∈ (ctx.raw p).results) : (swap (subst v) w ∘ subst) x = subst x := by
  have hdefined : v ∈ definedValues t := h.refines.result_defined hc ho (by simp [hv])
  refine swap_of_ne fun he => hne ?_
  have hxv := h.refines.subst_injective hc (hc.result_defined hp hx) hdefined he
  refine hc.sound.typed.result_unique (hc.held.op?_raw hp) (hc.held.op?_raw ho) hx ?_
  rw [← h.refines.results ho, hv, hxv]
  exact List.mem_singleton_self v

include hc h ho hv hoperands hr in
theorem leaves_lower : ctx.Leaves t r'.ctx := by
  have hdefined : v ∈ definedValues t := h.refines.result_defined hc ho (by simp [hv])
  refine ⟨fun {x value} hval => ?_, fun {x value} hx hval => ?_, fun {x value} hx hval => ?_⟩
  · obtain ⟨value', hval'⟩ := h.leaves.lasts hval
    exact ⟨value', by rw [hr.value?, if_neg (ne_new hr ⟨value', hval'⟩), hval']⟩
  · have hval' := h.leaves.value? hx hval
    rw [hr.value?, if_neg (ne_new hr ⟨value, hval'⟩), hval']
  · have hval' := h.leaves.value? hx hval
    have hkept := h.uses_swap hc ho hoperands hr ⟨value, hval'⟩
    have hxspec : x ∉ spec.operands := by
      rw [hoperands]
      intro hm
      obtain ⟨y, hy, he⟩ := List.mem_map.mp hm
      exact h.subst_ne hc (h.refines.operand_defined hc ho hy) hx hval he
    rw [swap_of_ne (h.subst_ne hc hdefined hx hval).symm, usesBy_eq_nil hxspec, List.filter_nil,
      List.append_nil] at hkept
    rw [hkept, ← h.leaves.uses hx hval]
    refine List.filter_eq_self.mpr fun u hu => ?_
    obtain ⟨op, hop, hi⟩ := h.refines.sound.ledgered.sound (mem_uses.mp hu)
    rw [decide_eq_true_eq]
    intro he
    rw [he, h.refines.op? ho] at hop
    cases Option.some.inj hop
    refine hxspec ?_
    rw [hoperands]
    exact List.mem_of_getElem? hi

include hc h ho hlow hv hoperands hr in
theorem work_lower (hout : o ∉ a.work.queue)
    (hrefines : ctx.Refines t (a.lower ctx o form).forms r'.ctx (Function.update image o n)
      (swap (subst v) w ∘ subst)) {producers : List OpId}
    (hproducers : r'.ctx.producersOf { spec.toOp [w] with
      operands := ((a.forms o).rename subst).operands.map (swap (subst v) w), parent := some b } =
        .ok producers) :
    (r.work.push n).pushAll (r'.ctx.usersOf [w] ++ producers) =
      (a.lower ctx o form).work.map (Function.update image o n) := by
  have hlf := Op.loweredFrom hlow
  have hresults : ∀ x ∈ form.results, x ∈ definedValues t :=
    fun x hx => h.refines.result_defined hc ho (hlf.results ▸ hx)
  have hdefined : ∀ x ∈ form.operands, x ∈ definedValues t :=
    fun x hx => h.refines.operand_defined hc ho (hlf.operands ▸ hx)
  have hinj : ∀ x ∈ t.opIds, ∀ y ∈ t.opIds, Function.update image o n x =
      Function.update image o n y → x = y := fun x hx y hy he => hrefines.injective hx hy he
  have hrenamed : r.work = a.work.map (Function.update image o n) := by
    rw [h.work]
    refine Worklist.map_congr h.ready fun p hp => (Function.update_of_ne ?_ _ _).symm
    rintro rfl
    exact hout hp
  have hself : Function.update image o n o = n := Function.update_self ..
  have hpush : (a.work.map (Function.update image o n)).push (Function.update image o n o) =
      (a.work.push o).map (Function.update image o n) :=
    Worklist.push_map fun x hx he => hinj x (h.waiting_known hx) o ho he
  have hwaiting : (a.work.push o).waiting ⊆ t.opIds := by
    unfold Worklist.push
    split
    · exact h.waiting_known
    · exact List.cons_subset.mpr ⟨ho, h.waiting_known⟩
  have husersOf : r'.ctx.usersOf [w] = (form.results.flatMap (a.lower ctx o form).users).map
      (Function.update image o n) := by
    have hw : [w] = form.results.map (swap (subst v) w ∘ subst) := by simp [hlf.results, hv]
    rw [hw]
    exact usersOf_map fun x hx => h.users_lower hc ho hlow hoperands hr (hresults x hx)
  have hrest : ((a.forms o).rename subst).operands.map (swap (subst v) w) =
      form.operands.map (swap (subst v) w ∘ subst) := by simp [Op.rename, hlf.operands]
  rw [hrefines.producersOf_eq hc hrest hdefined] at hproducers
  obtain rfl := Except.ok.inj hproducers
  rw [husersOf, ← List.map_append, hrenamed, Account.work_lower,
    ← Worklist.pushAll_map hinj (h.neighbours_known hc ho hlow) hwaiting, ← hpush, hself]

theorem lower (hc : ctx.Confined t) (h : ctx.Follows t a r image subst) (ho : o ∈ t.opIds)
    (hout : o ∉ a.work.queue)
    (hlow : (a.forms o).lowering id (ctx.typeUnder a.forms) = some form) {x : ValueId}
    {producers : List OpId}
    (hform : form.rename subst = spec.inPlaceOf ((a.forms o).rename subst))
    (hparent : ((a.forms o).rename subst).parent = some b)
    (hspec : spec.Supersedes ((a.forms o).rename subst) ty x)
    (hr : r.ctx.Replaces spec ty b (image o) x r'.ctx n w)
    (hproducers : r'.ctx.producersOf { spec.toOp [w] with
      operands := ((a.forms o).rename subst).operands.map (swap x w), parent := some b } =
        .ok producers)
    (hr' : r' = { r with
      ctx := r'.ctx, declines := r'.declines, rewrites := r.rewrites + 1
      work := (r.work.push n).pushAll (r'.ctx.usersOf [w] ++ producers) }) :
    ctx.Follows t (a.lower ctx o form) r' (Function.update image o n) (swap x w ∘ subst) := by
  obtain ⟨v, hv, rfl⟩ : ∃ v, (a.forms o).results = [v] ∧ subst v = x :=
    List.map_eq_singleton_iff.mp hspec.results
  have hlf := Op.loweredFrom hlow
  have hoperands : spec.operands = (a.forms o).operands.map subst := hspec.operands
  have hself : form = { spec.toOp [v] with operands := (a.forms o).operands, parent := some b } := by
    refine Op.eq_of_rename (f := subst) ?_ hlf.operands (hlf.results.trans hv)
    rw [hform]
    simp [OpSpec.inPlaceOf, OpSpec.toOp, Op.rename, hoperands, hv, ← hparent]
  have hrefines : ctx.Refines t (Function.update a.forms o form) r'.ctx (Function.update image o n)
      (swap (subst v) w ∘ subst) := by
    rw [hself]
    exact h.refines.replace hc ho hv hparent hoperands hr
  have hname {p : OpId} (hne : p ≠ o) :
      ((a.lower ctx o form).forms p).isTupleOp = (a.forms p).isTupleOp := by
    rw [Account.forms_lower, Function.update_of_ne hne]
  have hraw : (ctx.raw o).isTupleOp := by
    rw [← (h.becomes ho).eq_of_isTupleOp hlf.wasTupleOp]
    exact hlf.wasTupleOp
  have hchanged : ((a.lower ctx o form).forms o).isTupleOp ≠ (ctx.raw o).isTupleOp := by
    rw [Account.forms_lower, Function.update_self, hlf.isTupleOp, hraw]
    simp
  constructor
  case refines => exact hrefines
  case leaves => exact h.leaves_lower hc ho hv hoperands hr
  case becomes =>
    intro p hp
    by_cases he : p = o
    · subst he
      rw [Account.forms_lower, Function.update_self, ← Op.visited_of_lowering hlow]
      exact (h.becomes hp).visited
    · rw [Account.forms_lower, Function.update_of_ne he]
      exact h.becomes hp
  case stays =>
    intro p y hp hy hsame
    by_cases he : p = o
    · exact absurd hsame (he ▸ hchanged)
    · rw [h.swap_subst_of_ne hc ho hv hp he hy]
      exact h.stays hp hy ((hname he).symm.trans hsame)
  case moved =>
    intro p y hp hy hne
    by_cases he : p = o
    · subst he
      obtain rfl : y = v := by
        rw [← h.refines.results hp, hv] at hy
        exact List.mem_singleton.mp hy
      rw [Function.comp_apply, swap_self]
      refine Option.eq_none_iff_forall_ne_some.mpr fun value hval => ?_
      exact ne_new hr (h.leaves.lasts hval) rfl
    · rw [h.swap_subst_of_ne hc ho hv hp he hy]
      exact h.moved hp hy fun hsame => hne ((hname he).trans hsame)
  case ready => exact ((h.ready.push o).1.pushAll _).1
  case known =>
    intro p hp
    rw [Account.work_lower, ← Worklist.pushAll_cons, Worklist.mem_pushAll h.ready] at hp
    rcases hp with hp | hp
    · exact h.known hp
    · rcases List.mem_cons.mp hp with rfl | hp
      · exact ho
      · exact h.neighbours_known hc ho hlow hp
  case work =>
    rw [hr']
    exact h.work_lower hc ho hlow hv hoperands hr hout hrefines hproducers
  case users => exact h.users_lower hc ho hlow hoperands hr
  case users_known => exact h.users_lower_known ho
  case rewrites =>
    rw [hr']
    exact congrArg (· + 1) h.rewrites
  case retyped =>
    rw [hr']
    exact h.retyped

end Lower

theorem visit (hc : ctx.Confined t) (h : ctx.Follows t a r image subst) (ho : o ∈ t.opIds)
    (hout : o ∉ a.work.queue)
    (he : TupleLowering.Effect r (image o) ((a.forms o).rename subst) r') :
    ∃ image' subst', ctx.Follows t (a.visit ctx o) r' image' subst' := by
  have htypes : ∀ v ∈ (a.forms o).operands, (r.ctx.tyOf ∘ subst) v = ctx.typeUnder a.forms v :=
    fun v hv => h.refines.tyOf_subst hc (h.refines.operand_defined hc ho hv)
  have hlowering : ((a.forms o).rename subst).lowering id r.ctx.tyOf =
      ((a.forms o).lowering id (ctx.typeUnder a.forms)).map (Op.rename subst) := by
    rw [Op.lowering_rename, Op.lowering_congr htypes]
  cases he with
  | idle hvisited hr' =>
    rw [Op.visited_rename, Op.visited_congr htypes] at hvisited
    have hsame := Op.eq_of_rename hvisited Op.visited_operands Op.visited_results
    have hvisit : a.visit ctx o = a := by
      rw [Account.visit]
      split
      · rename_i form hform
        have hlf := Op.loweredFrom hform
        rw [Op.visited_of_lowering hform] at hsame
        have hname := hlf.isTupleOp
        simp [hsame, hlf.wasTupleOp] at hname
      · rw [if_pos hsame]
    refine ⟨image, subst, ?_⟩
    rw [hvisit, hr']
    exact { h with }
  | retyped htuple hne hch hr' =>
    have htuple : (a.forms o).isTupleOp = false := htuple
    have hnone : (a.forms o).lowering id (ctx.typeUnder a.forms) = none := by
      refine Option.eq_none_iff_forall_ne_some.mpr fun form hform => ?_
      simp [(Op.loweredFrom hform).wasTupleOp] at htuple
    have hchanged : (a.forms o).visited id (ctx.typeUnder a.forms) ≠ a.forms o := by
      rw [Op.visited_of_not_tupleOp htuple]
      exact fun hsame => hne ((Op.retyped_rename_eq_iff subst).mpr hsame)
    refine ⟨image, subst, ?_⟩
    rw [Account.visit, hnone]
    simp only [hchanged, if_false]
    exact h.retype hc ho htuple hch hr'
  | @replaced spec ty b v w n producers hlow hparent hspec hreplaces hproducers hr' =>
    rw [hlowering, Option.map_eq_some_iff] at hlow
    obtain ⟨form, hlow, hform⟩ := hlow
    refine ⟨Function.update image o n, swap v w ∘ subst, ?_⟩
    rw [Account.visit, hlow]
    exact h.lower hc ho hout hlow hform hparent hspec hreplaces hproducers hr'

/-- A step of the run is a step of the account, which looks at values of the region only. -/
theorem step {base : Context} {budget : Nat} {ending : Option Ending} (hc : ctx.Confined t)
    (hbase : ∀ v ∈ definedValues t, base.value? v = ctx.value? v)
    (h : ctx.Follows t a r image subst)
    (hstep : TupleLowering.engine.step budget r = .ok (r', ending)) :
    ending = (a.step base budget).2 ∧
      ∃ image' subst', ctx.Follows t (a.step base budget).1 r' image' subst' := by
  have hsame : a.step base budget = a.step ctx budget := by
    refine Account.step_congr fun o work hpop v hv => ?_
    exact hbase v (h.refines.operand_defined hc (h.pop hpop).1 hv)
  rw [hsame, Account.step]
  unfold Engine.step at hstep
  cases hpop : a.work.pop with
  | none =>
    simp only [h.pop_eq, hpop, Option.map_none, except_pure_eq_ok, Prod.mk.injEq] at hstep
    obtain ⟨rfl, rfl⟩ := hstep
    exact ⟨rfl, image, subst, h⟩
  | some next =>
    obtain ⟨o, work⟩ := next
    obtain ⟨ho, hout, hrpop, h'⟩ := h.pop hpop
    have hop := h.refines.op? ho
    obtain ⟨b, -, -, -, -, hparent⟩ := hc.held.exists_block hc.sound.linked ho
    rw [← h.refines.parent ho] at hparent
    have hattached : r.ctx.isAttached (image o) = .ok true := by
      simp [isAttached, op_eq_ok.mpr hop, Op.rename, hparent, pure, Except.pure]
    obtain ⟨legal, hlegal, hiff⟩ := TupleLowering.isLegal_target hop (h.refines.typeOf_operand hc ho)
    rw [h.refines.legal_iff hc ho] at hiff
    change TupleLowering.engine.target.isLegal _ _ = _ at hlegal
    simp only [hrpop, hattached, except_ok_bind, hlegal, Bool.not_true, Bool.false_eq_true,
      if_false] at hstep
    cases legal with
    | true =>
      obtain ⟨rfl, rfl⟩ := Prod.mk.inj (except_pure_eq_ok.mp hstep)
      simp only [hiff.mp rfl, if_true]
      exact ⟨trivial, image, subst, h'⟩
    | false =>
      have hillegal : ¬(a.forms o).Legal (ctx.typeUnder a.forms) := fun hl => by simp [hl] at hiff
      simp only [Bool.false_eq_true, if_false] at hstep
      simp only [if_neg hillegal]
      by_cases hbudget : budget ≤ a.rewrites
      · simp only [if_pos hbudget]
        rw [if_pos (h.rewrites ▸ hbudget)] at hstep
        obtain ⟨rfl, rfl⟩ := Prod.mk.inj (except_pure_eq_ok.mp hstep)
        exact ⟨rfl, image, subst, h'⟩
      · simp only [if_neg hbudget]
        rw [if_neg (h.rewrites ▸ hbudget)] at hstep
        obtain ⟨r₁, hvisit, hstep⟩ := except_bind_eq_ok.mp hstep
        obtain ⟨rfl, rfl⟩ := Prod.mk.inj (except_pure_eq_ok.mp hstep)
        have heffect := TupleLowering.effect_of_visit (r := { r with work := work.map image })
          h'.refines.sound hop hparent hvisit
        exact ⟨rfl, h'.visit hc ho hout heffect⟩

theorem run {base : Context} {budget limit : Nat} {ending : Ending} (hc : ctx.Confined t)
    (hbase : ∀ v ∈ definedValues t, base.value? v = ctx.value? v)
    (h : ctx.Follows t a r image subst)
    (hrun : TupleLowering.engine.run budget limit r = .ok (r', ending)) :
    ending = (a.run base budget limit).2 ∧
      ∃ image' subst', ctx.Follows t (a.run base budget limit).1 r' image' subst' := by
  induction limit generalizing a r image subst with
  | zero =>
    obtain ⟨rfl, rfl⟩ := Prod.mk.inj (except_pure_eq_ok.mp hrun)
    exact ⟨rfl, image, subst, h⟩
  | succ limit ih =>
    rw [Engine.run] at hrun
    obtain ⟨⟨r₁, ending₁⟩, hstep, hrun⟩ := except_bind_eq_ok.mp hrun
    obtain ⟨hending, image₁, subst₁, h₁⟩ := h.step hc hbase hstep
    rw [Account.run]
    cases hnext : a.step base budget with
    | mk a₁ ending₂ =>
      rw [hnext] at hending h₁
      obtain rfl : ending₁ = ending₂ := hending
      cases ending₁ with
      | some ending₁ =>
        obtain ⟨rfl, rfl⟩ := Prod.mk.inj (except_pure_eq_ok.mp hrun)
        exact ⟨rfl, image₁, subst₁, h₁⟩
      | none => exact ih h₁ hrun

end Follows

end Context

end RegionIR
