import RegionIR.Proofs.Rewrite.Plans
import RegionIR.Rewrite.Engine

/-! The queue and the notes of a run.

What is queued waits until its turn comes, and a reason that a pattern gave against an operation is
noted until the next one is given or the operation is rewritten. Rewriting an operation queues the
new operations and all who use their results. -/

namespace RegionIR

namespace Worklist

/-- What counts as waiting is what stands in the queue, once. -/
structure Ready (w : Worklist) : Prop where
  waiting (id : OpId) : id ∈ w.waiting ↔ id ∈ w.queue
  nodup : w.queue.Nodup

variable {w : Worklist}

theorem ready_ofList {ids : List OpId} (h : ids.Nodup) : (ofList ids).Ready :=
  ⟨fun _ => Iff.rfl, h⟩

theorem Ready.push (h : w.Ready) (id : OpId) : (w.push id).Ready ∧
    ∃ pushed, (w.push id).queue = w.queue ++ pushed ∧ ∀ x, x ∈ w.queue ++ pushed ↔
      x ∈ w.queue ∨ x = id := by
  unfold Worklist.push
  split
  · rename_i hm
    rw [h.waiting] at hm
    refine ⟨h, [], by simp, fun x => ?_⟩
    simp only [List.append_nil, iff_self_or]
    rintro rfl
    exact hm
  · rename_i hm
    rw [h.waiting] at hm
    refine ⟨⟨fun x => ?_, ?_⟩, [id], rfl, fun x => by simp⟩
    · simp [h.waiting, or_comm]
    · rw [List.nodup_append]
      exact ⟨h.nodup, List.nodup_singleton id, by
        rintro a ha b hb rfl
        exact hm (List.mem_singleton.mp hb ▸ ha)⟩

theorem pushAll_cons (id : OpId) (ids : List OpId) :
    w.pushAll (id :: ids) = (w.push id).pushAll ids := rfl

theorem Ready.pushAll (h : w.Ready) (ids : List OpId) : (w.pushAll ids).Ready ∧
    ∃ pushed, (w.pushAll ids).queue = w.queue ++ pushed ∧ ∀ x, x ∈ w.queue ++ pushed ↔
      x ∈ w.queue ∨ x ∈ ids := by
  induction ids generalizing w with
  | nil => exact ⟨h, [], by simp [Worklist.pushAll], by simp⟩
  | cons id ids ih =>
    obtain ⟨h₁, pushed₁, hq₁, hm₁⟩ := h.push id
    obtain ⟨h₂, pushed₂, hq₂, hm₂⟩ := ih h₁
    refine ⟨h₂, pushed₁ ++ pushed₂, ?_, fun x => ?_⟩
    · rw [← List.append_assoc, ← hq₁]
      exact hq₂
    · rw [← List.append_assoc, ← hq₁, hm₂, hq₁, hm₁, List.mem_cons, or_assoc]

theorem mem_pushAll (h : w.Ready) {ids : List OpId} {x : OpId} :
    x ∈ (w.pushAll ids).queue ↔ x ∈ w.queue ∨ x ∈ ids := by
  obtain ⟨-, pushed, hq, hm⟩ := h.pushAll ids
  rw [hq, hm]

theorem Ready.pop (h : w.Ready) {id : OpId} {w' : Worklist} (hp : w.pop = some (id, w')) :
    w'.Ready ∧ w.queue = id :: w'.queue := by
  unfold Worklist.pop at hp
  split at hp
  · simp at hp
  · rename_i x rest hq
    simp only [Option.some.injEq, Prod.mk.injEq] at hp
    obtain ⟨rfl, rfl⟩ := hp
    have hnd := h.nodup
    rw [hq] at hnd
    obtain ⟨hnot, hnd⟩ := List.nodup_cons.mp hnd
    refine ⟨⟨fun y => ?_, hnd⟩, hq⟩
    simp only [List.mem_filter, h.waiting, hq, List.mem_cons, decide_eq_true_eq, ne_eq]
    constructor
    · rintro ⟨rfl | hy, hne⟩
      · exact absurd rfl hne
      · exact hy
    · intro hy
      exact ⟨.inr hy, fun e => hnot (e ▸ hy)⟩

end Worklist

theorem lookup_filter_ne {α β : Type} [DecidableEq α] (a b : α) (l : List (α × β)) :
    (l.filter fun e => e.1 ≠ a).lookup b = if b = a then none else l.lookup b := by
  induction l with
  | nil => simp
  | cons e l ih =>
    obtain ⟨k, d⟩ := e
    by_cases hk : k = a
    · rw [List.filter_cons_of_neg (by simp [hk]), ih, List.lookup_cons]
      by_cases hb : b = a
      · simp [hb]
      · have hne : b ≠ k := fun e => hb (e.trans hk)
        simp [hb, beq_eq_false_iff_ne.mpr hne]
    · rw [List.filter_cons_of_pos (by simp [hk]), List.lookup_cons, List.lookup_cons, ih]
      by_cases hb : b = a
      · have hne : b ≠ k := fun e => hk (e.symm.trans hb)
        simp [hb, beq_eq_false_iff_ne.mpr (hb ▸ hne)]
      · simp [hb]

namespace Run

variable {r r' : Run}

/-- What the patterns had to say against an operation. -/
def reason (r : Run) (id : OpId) : Option String :=
  (r.declines.lookup id).map Decline.reason

/-- Whether there is at most one note on each operation. -/
def Tidy (r : Run) : Prop :=
  (r.declines.map Prod.fst).Nodup

theorem reason_clearDecline (x y : OpId) :
    (r.clearDecline x).reason y = if y = x then none else r.reason y := by
  rw [reason, clearDecline, lookup_filter_ne, apply_ite (Option.map Decline.reason)]
  rfl

theorem reason_setDecline (x y : OpId) (d : Decline) :
    (r.setDecline x d).reason y = if y = x then some d.reason else r.reason y := by
  rw [reason, setDecline, List.lookup_cons]
  by_cases h : y = x
  · simp [h]
  · have hclear := r.reason_clearDecline x y
    rw [if_neg h] at hclear
    simp only [beq_eq_false_iff_ne.mpr h, if_neg h]
    exact hclear

theorem Tidy.clearDecline (h : r.Tidy) (x : OpId) : (r.clearDecline x).Tidy :=
  h.sublist (List.filter_sublist.map Prod.fst)

theorem Tidy.setDecline (h : r.Tidy) (x : OpId) (d : Decline) : (r.setDecline x d).Tidy := by
  refine List.nodup_cons.mpr ⟨fun hm => ?_, h.clearDecline x⟩
  obtain ⟨e, he, hx⟩ := List.mem_map.mp hm
  have hne := (List.mem_filter.mp he).2
  simp [hx] at hne

/-- Queueing a new operation changes the queue only. -/
structure Enqueues (r r' : Run) (news : List OpId) : Prop where
  same : r' = { r with work := r'.work }
  ready : r'.work.Ready
  queue {o : OpId} : o ∈ r.work.queue → o ∈ r'.work.queue
  new {n : OpId} : n ∈ news → n ∈ r'.work.queue
  users {n : OpId} {op : Op} {v : ValueId} {u : Use} : n ∈ news → r.ctx.op? n = some op →
    v ∈ op.results → (v, u) ∈ r.ctx.ledger → u.user ∈ r'.work.queue

theorem enqueueNew_ok (hr : r.work.Ready) {n : OpId} (h : r.enqueueNew n = .ok r') :
    Enqueues r r' [n] := by
  simp only [enqueueNew, except_bind_eq_ok, Context.op_eq_ok, except_pure_eq_ok] at h
  obtain ⟨op, hop, producers, -, rfl⟩ := h
  have hmem {o : OpId} : o ∈ ((r.work.push n).pushAll
      (r.ctx.usersOf op.results ++ producers)).queue ↔
      o ∈ r.work.queue ∨ o ∈ n :: (r.ctx.usersOf op.results ++ producers) := by
    rw [← Worklist.pushAll_cons, Worklist.mem_pushAll hr]
  refine ⟨rfl, (hr.pushAll (n :: _)).1, fun ho => hmem.mpr (.inl ho), fun hn => ?_,
    fun {m op' v u} hn hop' hv hu => hmem.mpr (.inr (List.mem_cons_of_mem _ ?_))⟩
  · exact hmem.mpr (.inr (List.mem_cons.mpr (.inl (List.mem_singleton.mp hn))))
  · obtain rfl := List.mem_singleton.mp hn
    obtain rfl := Option.some.inj (hop.symm.trans hop')
    refine List.mem_append_left _ (List.mem_flatMap.mpr ⟨v, hv, ?_⟩)
    exact List.mem_map_of_mem (Context.mem_uses.mpr hu)

theorem enqueueNew_foldlM {news : List OpId} (hr : r.work.Ready)
    (h : news.foldlM enqueueNew r = .ok r') : Enqueues r r' news := by
  induction news generalizing r with
  | nil =>
    rw [List.foldlM_nil, except_pure_eq_ok] at h
    subst h
    exact ⟨rfl, hr, fun ho => ho, by simp, by simp⟩
  | cons n news ih =>
    rw [List.foldlM_cons, except_bind_eq_ok] at h
    obtain ⟨r₁, hfirst, h⟩ := h
    have h₁ := enqueueNew_ok hr hfirst
    have h₂ := ih h₁.ready h
    have hctx : r₁.ctx = r.ctx := by rw [h₁.same]
    refine ⟨by rw [h₂.same, h₁.same], h₂.ready, fun ho => h₂.queue (h₁.queue ho), fun hn => ?_,
      fun hn hop hv hu => ?_⟩
    · rcases List.mem_cons.mp hn with rfl | hn
      · exact h₂.queue (h₁.new List.mem_cons_self)
      · exact h₂.new hn
    · rcases List.mem_cons.mp hn with rfl | hn
      · exact h₂.queue (h₁.users List.mem_cons_self hop hv hu)
      · exact h₂.users hn (hctx ▸ hop) hv (hctx ▸ hu)

/-- Rewriting an operation of a block. -/
structure Rewrites (base : Context) (x : OpId) (r r' : Run) (news : List OpId)
    (values : List ValueId) : Prop where
  reworks : base.Reworks x news values r'.ctx
  detached {op : Op} : r'.ctx.op? x = some op → op.parent = none
  ready : r'.work.Ready
  queue {o : OpId} : o ∈ r.work.queue → o ∈ r'.work.queue
  new {n : OpId} : n ∈ news → n ∈ r'.work.queue
  users {v : ValueId} {u : Use} : v ∈ values → (v, u) ∈ r'.ctx.ledger → u.user ∈ r'.work.queue
  reason (y : OpId) : r'.reason y = if y = x then none else r.reason y
  tidy : r.Tidy → r'.Tidy

theorem rewrite_ok {base : Context} {x : OpId} {op : Op} {b : BlockId} {plan : Plan}
    (hs : base.Sound) (hx : base.op? x = some op) (hparent : op.parent = some b)
    (hc : base.Creates op.operands r.ctx) (hnew : ∀ n ∈ plan.newOps, base.op? n = none)
    (hplan : plan.Removes) (hr : r.work.Ready) (h : r.rewrite x plan = .ok r') :
    ∃ values, Rewrites base x r r' plan.newOps values := by
  simp only [rewrite, except_bind_eq_ok] at h
  obtain ⟨ctx, hcarry, h⟩ := h
  obtain ⟨values, hrework, hdetached, hvalues⟩ := hc.carryOut hs hx hparent hnew hplan hcarry
  have henq := enqueueNew_foldlM (r := { r with ctx, rewrites := r.rewrites + 1 }.clearDecline x)
    hr h
  have hctx : r'.ctx = ctx := by rw [henq.same]; rfl
  have hdeclines : r'.declines = (r.clearDecline x).declines := by rw [henq.same]; rfl
  refine ⟨values, hctx ▸ hrework, fun hop => hdetached _ (hctx ▸ hop), henq.ready, henq.queue,
    henq.new, fun {v u} hv hu => ?_, fun y => ?_, fun htidy => ?_⟩
  · obtain ⟨n, hn, opn, hopn, hvn⟩ := hvalues v hv
    exact henq.users hn hopn hvn (hctx ▸ hu)
  · rw [reason, hdeclines]
    exact r.reason_clearDecline x y
  · rw [Tidy, hdeclines]
    exact htidy.clearDecline x

end Run

namespace Engine

variable {e : Engine} {ctx ctx₁ : Context} {r : Run}

theorem convert_of_run {m : OpId} {body : RegionId}
    {t : RegionTree} {count : Nat} {ending : Ending} {declines : List (OpId × Decline)}
    (hbody : ctx.body m = .ok (some body)) (htree : ctx.regionTree body = .ok t)
    (hargs : t.blockIds.foldlM (retypeArgs e.converter) (ctx, 0) = .ok (ctx₁, count))
    (hrun : e.run (e.maxRewrites.getD t.opIds.length)
      (stepLimit ctx₁ (e.maxRewrites.getD t.opIds.length))
      { ctx := ctx₁, work := .ofList t.opIds, retyped := count } = .ok (r, ending))
    (hdeclines : r.attachedDeclines = .ok declines) :
    e.convert ctx m = .ok (r.ctx, ⟨r.rewrites, r.retyped, ending == .drained, declines⟩) := by
  rw [convert]
  refine except_bind_eq_ok.mpr ⟨some body, hbody, ?_⟩
  refine except_bind_eq_ok.mpr ⟨t, htree, ?_⟩
  refine except_bind_eq_ok.mpr ⟨(ctx₁, count), hargs, ?_⟩
  refine except_bind_eq_ok.mpr ⟨(r, ending), hrun, ?_⟩
  exact except_bind_eq_ok.mpr ⟨declines, hdeclines, rfl⟩

end Engine

end RegionIR
