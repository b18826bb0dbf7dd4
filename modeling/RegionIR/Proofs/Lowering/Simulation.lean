import RegionIR.Proofs.Lowering.Patterns
import RegionIR.Proofs.Lowering.Visits

/-! Every step of the engine is a visit.

A run tracks a progress when its context refines the forms and its queue holds the images of the
operations that wait. A step is never refused, and what it does to the run a visit does to the
progress; so a run ends, and where it ends is known from its visits. -/

namespace RegionIR

namespace Op

variable {op : Op} (f : ValueId → ValueId)

theorem construction?_rename : (op.rename f).construction? = op.construction? := by
  refine Option.ext fun type => ?_
  simp only [construction?_eq_some_iff, rename, List.map_eq_singleton_iff]
  constructor
  · rintro ⟨his, ⟨_, v, hv, -⟩, ht⟩
    exact ⟨his, ⟨v, hv⟩, ht⟩
  · rintro ⟨his, ⟨v, hv⟩, ht⟩
    exact ⟨his, ⟨_, v, hv, rfl⟩, ht⟩

theorem extraction?_rename :
    (op.rename f).extraction? = op.extraction?.map fun e => (f e.1, e.2) := by
  refine Option.ext fun e => ?_
  obtain ⟨tuple, index⟩ := e
  simp only [Option.map_eq_some_iff, Prod.exists, extraction?_eq_some_iff, rename,
    List.map_eq_singleton_iff, Prod.mk.injEq]
  constructor
  · rintro ⟨his, ⟨v, hv, rfl⟩, ⟨_, w, hw, -⟩, hrest⟩
    exact ⟨v, index, ⟨his, hv, ⟨w, hw⟩, hrest⟩, rfl, rfl⟩
  · rintro ⟨v, _, ⟨his, hv, ⟨w, hw⟩, hrest⟩, rfl, rfl⟩
    exact ⟨his, ⟨v, hv, rfl⟩, ⟨_, w, hw, rfl⟩, hrest⟩

theorem retyped_rename_eq_iff : (op.rename f).retyped = op.rename f ↔ op.retyped = op := by
  simp only [retyped_eq_self_iff, rename]

end Op

namespace Context

variable {ctx cur : Context} {t : RegionTree} {forms : OpId → Op} {image : OpId → OpId}
  {subst : ValueId → ValueId}

theorem producersOf_of_exist {op : Op} (h : ∀ v ∈ op.operands, ∃ value, ctx.value? v = some value) :
    ctx.producersOf op = .ok (op.operands.filterMap ctx.definer) := by
  refine filterMapM_of_ok fun v hv => ?_
  obtain ⟨⟨origin, ty⟩, hval⟩ := h v hv
  simp only [value_eq_ok.mpr hval, except_ok_bind, definer, hval]
  cases origin <;> rfl

namespace Refines

theorem tyOf_subst (hc : ctx.Confined t) (h : ctx.Refines t forms cur image subst) {v : ValueId}
    (hv : v ∈ definedValues t) : cur.tyOf (subst v) = ctx.typeUnder forms v := by
  obtain ⟨value, hval, hty⟩ := typeOf_eq_ok.mp (h.typeOf_subst hc hv)
  simp [tyOf, hval, hty]

theorem typeOf_operand (hc : ctx.Confined t) (h : ctx.Refines t forms cur image subst) {o : OpId}
    (ho : o ∈ t.opIds) : ∀ v ∈ ((forms o).rename subst).operands,
      cur.typeOf v = .ok (cur.tyOf v) := by
  intro v hv
  obtain ⟨a, ha, rfl⟩ := List.mem_map.mp hv
  have hd := h.operand_defined hc ho ha
  rw [h.typeOf_subst hc hd, h.tyOf_subst hc hd]

theorem legal_iff (hc : ctx.Confined t) (h : ctx.Refines t forms cur image subst) {o : OpId}
    (ho : o ∈ t.opIds) :
    ((forms o).rename subst).Legal cur.tyOf ↔ (forms o).Legal (ctx.typeUnder forms) := by
  have hops : (∀ v ∈ ((forms o).rename subst).operands, (cur.tyOf v).TupleFree) ↔
      ∀ v ∈ (forms o).operands, (ctx.typeUnder forms v).TupleFree := by
    simp only [Op.rename, List.forall_mem_map]
    refine forall₂_congr fun v hv => ?_
    rw [h.tyOf_subst hc (h.operand_defined hc ho hv)]
  simp only [Op.Legal, hops]
  rfl

theorem mem_usersOf (hc : ctx.Confined t) (h : ctx.Refines t forms cur image subst) {o : OpId}
    (ho : o ∈ t.opIds) {x : OpId} : x ∈ cur.usersOf ((forms o).rename subst).results ↔
      ∃ p ∈ t.opIds, x = image p ∧ ∃ v ∈ (forms o).results, v ∈ (forms p).operands := by
  simp only [usersOf, Op.rename, List.mem_flatMap, List.mem_map, mem_uses]
  constructor
  · rintro ⟨_, ⟨v, hv, rfl⟩, u, hu, rfl⟩
    have hd := h.result_defined hc ho hv
    obtain ⟨p, hp, he⟩ := h.closed hd hu
    obtain ⟨op, hop, hi⟩ := h.sound.ledgered.sound hu
    rw [he, h.op? hp] at hop
    cases Option.some.inj hop
    simp only [Op.rename, List.getElem?_map, Option.map_eq_some_iff] at hi
    obtain ⟨a, ha, hav⟩ := hi
    have hma := List.mem_of_getElem? ha
    rw [← h.subst_injective hc (h.operand_defined hc hp hma) hd hav] at hv
    exact ⟨p, hp, he, a, hv, hma⟩
  · rintro ⟨p, hp, rfl, v, hv, hvp⟩
    obtain ⟨i, hi⟩ := List.mem_iff_getElem?.mp hvp
    exact ⟨_, ⟨v, hv, rfl⟩, ⟨image p, i⟩,
      h.recorded hp _ i _ (h.op? hp) (by simp [Op.rename, hi]), rfl⟩

theorem exists_producersOf (hc : ctx.Confined t) (h : ctx.Refines t forms cur image subst)
    {o : OpId} (ho : o ∈ t.opIds) : ∃ producers,
      cur.producersOf ((forms o).rename subst) = .ok producers ∧
        ∀ x ∈ producers, ∃ p ∈ t.opIds, x = image p := by
  have hexist : ∀ v ∈ ((forms o).rename subst).operands, ∃ value, cur.value? v = some value := by
    intro v hv
    obtain ⟨value, hval, -⟩ := typeOf_eq_ok.mp (h.typeOf_operand hc ho v hv)
    exact ⟨value, hval⟩
  refine ⟨_, producersOf_of_exist hexist, fun x hx => ?_⟩
  obtain ⟨v, hv, hdefiner⟩ := List.mem_filterMap.mp hx
  obtain ⟨a, ha, rfl⟩ := List.mem_map.mp hv
  rcases h.value?_subst hc (h.operand_defined hc ho ha) with
    ⟨p, hp, i, ty, -, hval, -⟩ | ⟨b, i, ty, he, hval, -⟩
  · simp only [definer, hval, Option.some.injEq] at hdefiner
    exact ⟨p, hp, hdefiner.symm⟩
  · simp [definer, he, hval] at hdefiner

theorem exists_replacement (hc : ctx.Confined t) (h : ctx.Refines t forms cur image subst)
    {o : OpId} (ho : o ∈ t.opIds) {spec : OpSpec} {ty : Ty} {v : ValueId}
    (hparent : spec.parent = none) (hregions : spec.regions = []) (htypes : spec.resultTypes = [ty])
    (hattrs : spec.attrs.Sorted) (hoperands : spec.operands = (forms o).operands.map subst)
    (hresults : (forms o).results = [v]) {op' : Op}
    (hop : op' = { spec.toOp [v] with
      operands := (forms o).operands, parent := (forms o).parent }) :
    ∃ ctx₁ new cur' image' subst', cur.createOp spec = .ok (ctx₁, new) ∧
      ({ replacement := some new } : Plan).carryOut ctx₁ (image o) = .ok cur' ∧
      ctx.Refines t (Function.update forms o op') cur' image' subst' ∧ image' o = new ∧
      (∀ p, p ≠ o → image' p = image p) ∧
      ∀ x op, cur.op? x = some op → ∃ op', cur'.op? x = some op' := by
  obtain ⟨b, -, -, -, -, hp⟩ := hc.held.exists_block hc.sound.linked ho
  rw [← h.parent ho] at hp
  obtain ⟨ctx₁, new, cur', w, hcreate, hcarry, hr⟩ := exists_replaces (v := subst v) h.sound hparent
    hregions htypes hattrs (h.op? ho) hp (by simp [Op.rename, hresults])
  refine ⟨ctx₁, new, cur', Function.update image o new, swap (subst v) w ∘ subst, hcreate, hcarry,
    ?_, Function.update_self .., fun p hne => Function.update_of_ne hne ..,
    fun x op hx => hr.persists hx⟩
  rw [hop, hp]
  exact h.replace hc ho hresults hp hoperands hr

end Refines

/-- A run has come as far as a progress. -/
structure Tracks (ctx : Context) (t : RegionTree) (s : Progress) (r : Run) (image : OpId → OpId)
    (subst : ValueId → ValueId) : Prop where
  refines : ctx.Refines t s.forms r.ctx image subst
  ready : r.work.Ready
  queue : r.work.queue = s.queue.map image
  known {o : OpId} : o ∈ s.queue → o ∈ t.opIds
  declined {d : OpId × Decline} : d ∈ r.declines → ∃ op, r.ctx.op? d.1 = some op
  rewrites : r.rewrites = lowered ctx t s
  raw {o : OpId} : (s.forms o).isTupleOp → (ctx.raw o).isTupleOp

theorem exists_map_image {image : OpId → OpId} {l : List OpId}
    (h : ∀ x ∈ l, ∃ o ∈ t.opIds, x = image o) :
    ∃ l' : List OpId, l = l'.map image ∧ ∀ o ∈ l', o ∈ t.opIds := by
  induction l with
  | nil => exact ⟨[], rfl, by simp⟩
  | cons x l ih =>
    obtain ⟨o, ho, rfl⟩ := h x List.mem_cons_self
    obtain ⟨l', rfl, hl'⟩ := ih fun y hy => h y (List.mem_cons_of_mem _ hy)
    exact ⟨o :: l', rfl, List.forall_mem_cons.mpr ⟨ho, hl'⟩⟩

namespace Tracks

variable {s : Progress} {r : Run}

theorem nodup (h : ctx.Tracks t s r image subst) : s.queue.Nodup := by
  have hnd := h.ready.nodup
  rw [h.queue] at hnd
  exact hnd.of_map image

theorem mem_head (h : ctx.Tracks t s r image subst) {o : OpId} {rest : List OpId}
    (hq : s.queue = o :: rest) : o ∈ t.opIds :=
  h.known (hq ▸ List.mem_cons_self)

theorem mem_rest (h : ctx.Tracks t s r image subst) {o p : OpId} {rest : List OpId}
    (hq : s.queue = o :: rest) (hp : p ∈ rest) : p ∈ t.opIds ∧ p ≠ o := by
  have hnd := h.nodup
  rw [hq] at hnd
  refine ⟨h.known (hq ▸ List.mem_cons_of_mem _ hp), ?_⟩
  rintro rfl
  exact (List.nodup_cons.mp hnd).1 hp

theorem visit (hc : ctx.Confined t) (h : ctx.Tracks t s r image subst) {o : OpId}
    {rest : List OpId} (hq : s.queue = o :: rest) (r' : Run) {image' : OpId → OpId}
    {subst' : ValueId → ValueId} (added : List OpId)
    (hrefines : ctx.Refines t (Function.update s.forms o
      ((s.forms o).visited id (ctx.typeUnder s.forms))) r'.ctx image' subst')
    (himage : ∀ p, p ≠ o → image' p = image p) (hready : r'.work.Ready)
    (hqueue : r'.work.queue = rest.map image ++ added)
    (hadded : ∀ x ∈ added, ∃ p ∈ t.opIds, x = image' p)
    (hidle : (s.forms o).visited id (ctx.typeUnder s.forms) = s.forms o → added = [])
    (hagain : (s.forms o).isTupleOp → (s.forms o).visited id (ctx.typeUnder s.forms) ≠ s.forms o →
      image' o ∈ r'.work.queue)
    (husers : (s.forms o).visited id (ctx.typeUnder s.forms) ≠ s.forms o → ∀ p ∈ t.opIds,
      (∃ v ∈ (s.forms o).results, v ∈ ((Function.update s.forms o
        ((s.forms o).visited id (ctx.typeUnder s.forms))) p).operands) →
      image' p ∈ r'.work.queue)
    (hdeclined : ∀ d ∈ r'.declines, ∃ op, r'.ctx.op? d.1 = some op)
    (hrewrites : r'.rewrites = r.rewrites + if (s.forms o).isTupleOp &&
      !((s.forms o).visited id (ctx.typeUnder s.forms)).isTupleOp then 1 else 0) :
    ∃ pushed s', ctx.Visits t s o rest pushed s' ∧ ctx.Tracks t s' r' image' subst' := by
  have hmem := h.mem_head hq
  obtain ⟨pushed, rfl, hpushed⟩ := exists_map_image hadded
  have hmap : rest.map image = rest.map image' :=
    List.map_congr_left fun p hp => (himage p (h.mem_rest hq hp).2).symm
  rw [hmap, ← List.map_append] at hqueue
  have hknown : ∀ p ∈ rest ++ pushed, p ∈ t.opIds := by
    intro p hp
    rcases List.mem_append.mp hp with hp | hp
    · exact (h.mem_rest hq hp).1
    · exact hpushed p hp
  have mem_of_image {p : OpId} (hp : p ∈ t.opIds) (hm : image' p ∈ r'.work.queue) :
      p ∈ rest ++ pushed := by
    rw [hqueue] at hm
    obtain ⟨q, hq, he⟩ := List.mem_map.mp hm
    rwa [← hrefines.injective (hknown q hq) hp he]
  have hv : ctx.Visits t s o rest pushed ⟨Function.update s.forms o
      ((s.forms o).visited id (ctx.typeUnder s.forms)), rest ++ pushed⟩ := by
    constructor
    case mem => exact hmem
    case queue => exact hq
    case forms' => rfl
    case queue' => rfl
    case nodup' =>
      have hnd := hready.nodup
      rw [hqueue] at hnd
      exact hnd.of_map image'
    case known => exact fun hp => hpushed _ hp
    case idle =>
      intro he
      simp only [Function.update_self] at he
      exact List.map_eq_nil_iff.mp (hidle he)
    case again =>
      intro ht hne
      simp only [Function.update_self, ne_eq] at hne
      exact mem_of_image hmem (hagain ht hne)
    case users =>
      intro p v hne hp hvo hvp
      simp only [Function.update_self, ne_eq] at hne
      refine mem_of_image hp (husers hne p hp ⟨v, ?_, ?_⟩)
      · rw [h.refines.results hmem]
        exact hvo
      · rw [hrefines.operands hp]
        exact hvp
  refine ⟨pushed, _, hv, hrefines, hready, hqueue, fun hp => hknown _ hp, fun hd => hdeclined _ hd,
    ?_, fun {p} hp => ?_⟩
  · rw [hv.lowered_eq hc.nodup h.raw, ← h.rewrites, hrewrites]
    simp only [Function.update_self]
  · by_cases he : p = o
    · subst he
      rw [hv.form_self] at hp
      exact h.raw (Op.isTupleOp_of_visited hp)
    · rw [hv.form_of_ne he] at hp
      exact h.raw hp

/-- A run from whose queue an operation was taken; reasons against it may have been noted. -/
structure Popped (r : Run) (x : OpId) (r₁ : Run) : Prop where
  ctx : r₁.ctx = r.ctx
  ready : r₁.work.Ready
  queue : r.work.queue = x :: r₁.work.queue
  rewrites : r₁.rewrites = r.rewrites
  declined {d : OpId × Decline} : d ∈ r₁.declines → ∃ op, r.ctx.op? d.1 = some op

theorem Popped.setDecline {r₁ : Run} {x : OpId} {op : Op} (hp : Popped r x r₁)
    (ho : r.ctx.op? x = some op) (d : Decline) : Popped r x (r₁.setDecline x d) where
  ctx := hp.ctx
  ready := hp.ready
  queue := hp.queue
  rewrites := hp.rewrites
  declined hd := by
    simp only [Run.setDecline, Run.clearDecline, List.mem_cons, List.mem_filter] at hd
    rcases hd with rfl | ⟨hd, -⟩
    · exact ⟨op, ho⟩
    · exact hp.declined hd

variable {o : OpId} {rest : List OpId} {r₁ : Run}

theorem queue_popped (h : ctx.Tracks t s r image subst) (hq : s.queue = o :: rest)
    (hp : Popped r (image o) r₁) : r₁.work.queue = rest.map image := by
  have he := h.queue
  rw [hp.queue, hq, List.map_cons, List.cons.injEq] at he
  exact he.2

theorem rewrite (hc : ctx.Confined t) (h : ctx.Tracks t s r image subst)
    (hq : s.queue = o :: rest) (hp : Popped r (image o) r₁) (spec : OpSpec) {ty : Ty} {v : ValueId}
    (hparent : spec.parent = none) (hregions : spec.regions = []) (htypes : spec.resultTypes = [ty])
    (hattrs : spec.attrs.Sorted) (hoperands : spec.operands = (s.forms o).operands.map subst)
    (hresults : (s.forms o).results = [v]) {op' : Op}
    (hop : op' = { spec.toOp [v] with
      operands := (s.forms o).operands, parent := (s.forms o).parent })
    (hlow : (s.forms o).lowering id (ctx.typeUnder s.forms) = some op') :
    ∃ ctx₁ new r' pushed s' image' subst', r₁.ctx.createOp spec = .ok (ctx₁, new) ∧
      Run.rewrite { r₁ with ctx := ctx₁ } (image o) { replacement := some new } = .ok r' ∧
      ctx.Visits t s o rest pushed s' ∧ ctx.Tracks t s' r' image' subst' := by
  have hmem := h.mem_head hq
  obtain ⟨ctx₁, new, cur', image', subst', hcreate, hcarry, hr, hnew, himage, hpersists⟩ :=
    h.refines.exists_replacement hc hmem hparent hregions htypes hattrs hoperands hresults hop
  have hvisited := Op.visited_of_lowering hlow
  have hlf := Op.loweredFrom hlow
  have ho' := hr.op? hmem
  rw [hnew, Function.update_self] at ho'
  obtain ⟨producers, hprod, hproducers⟩ := hr.exists_producersOf hc hmem
  rw [Function.update_self] at hprod
  have hneighbours : ∀ x ∈ new :: (cur'.usersOf (op'.rename subst').results ++ producers),
      ∃ p ∈ t.opIds, x = image' p := by
    rw [List.forall_mem_cons, List.forall_mem_append]
    refine ⟨⟨o, hmem, hnew.symm⟩, fun x hx => ?_, hproducers⟩
    have husers := hr.mem_usersOf hc hmem (x := x)
    rw [Function.update_self] at husers
    obtain ⟨p, hp, rfl, -⟩ := husers.mp hx
    exact ⟨p, hp, rfl⟩
  obtain ⟨hready, pushed, hqueue, hwaits⟩ :=
    hp.ready.pushAll (new :: (cur'.usersOf (op'.rename subst').results ++ producers))
  have hrest := h.queue_popped hq hp
  let r' : Run :=
    { ({ r₁ with ctx := cur', rewrites := r₁.rewrites + 1 } : Run).clearDecline (image o) with
      work := (r₁.work.push new).pushAll (cur'.usersOf (op'.rename subst').results ++ producers) }
  have hadded : ∀ x ∈ pushed, ∃ p ∈ t.opIds, x = image' p := by
    intro x hx
    rcases (hwaits x).mp (List.mem_append_right _ hx) with hx | hx
    · rw [hrest] at hx
      obtain ⟨p, hpr, rfl⟩ := List.mem_map.mp hx
      obtain ⟨hpt, hne⟩ := h.mem_rest hq hpr
      exact ⟨p, hpt, (himage p hne).symm⟩
    · exact hneighbours x hx
  have hwaits' {x : OpId} (hx : x ∈ new :: (cur'.usersOf (op'.rename subst').results ++ producers)) :
      x ∈ r'.work.queue := by
    change x ∈ (r₁.work.pushAll (new :: _)).queue
    rw [hqueue]
    exact (hwaits x).mpr (.inr hx)
  have hchanged : (s.forms o).visited id (ctx.typeUnder s.forms) ≠ s.forms o := by
    intro he
    rw [hvisited] at he
    have h₁ := hlf.wasTupleOp
    rw [← he, hlf.isTupleOp] at h₁
    simp at h₁
  have husers : ∀ p ∈ t.opIds, (∃ v ∈ (s.forms o).results, v ∈ ((Function.update s.forms o
      ((s.forms o).visited id (ctx.typeUnder s.forms))) p).operands) →
      image' p ∈ r'.work.queue := by
    intro p hp hv
    refine hwaits' (List.mem_cons_of_mem _ (List.mem_append_left _ ?_))
    have husers := hr.mem_usersOf hc hmem (x := image' p)
    rw [Function.update_self] at husers
    rw [husers, hlf.results]
    rw [hvisited] at hv
    exact ⟨p, hp, rfl, hv⟩
  have hdeclined : ∀ d ∈ r'.declines, ∃ op, r'.ctx.op? d.1 = some op := by
    intro d hd
    simp only [r', Run.clearDecline, List.mem_filter] at hd
    obtain ⟨op, hop'⟩ := hp.declined hd.1
    exact hpersists _ op hop'
  have hrewrites : r'.rewrites = r.rewrites + if (s.forms o).isTupleOp &&
      !((s.forms o).visited id (ctx.typeUnder s.forms)).isTupleOp then 1 else 0 := by
    simp [r', Run.clearDecline, hp.rewrites, hvisited, hlf.wasTupleOp, hlf.isTupleOp]
  obtain ⟨pushed, s', hv, ht⟩ := h.visit hc hq r' _ (hvisited ▸ hr) himage hready
    (hrest ▸ hqueue) hadded (fun he => absurd he hchanged)
    (fun _ _ => hwaits' (hnew ▸ List.mem_cons_self)) (fun _ => husers)
    hdeclined hrewrites
  refine ⟨ctx₁, new, r', pushed, s', image', subst', by rw [hp.ctx]; exact hcreate, ?_, hv, ht⟩
  simp [Run.rewrite, hcarry, Plan.newOps, Run.enqueueNew, Run.clearDecline, op_eq_ok.mpr ho',
    hprod, r', bind, Except.bind, pure, Except.pure]

end Tracks

end Context

end RegionIR
