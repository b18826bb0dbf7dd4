import RegionIR.Proofs.Context.Ownership
import RegionIR.Proofs.Rewrite.Retyping
import RegionIR.Proofs.Rewrite.Visiting

/-! Conversions that change nothing.

If every operation of a body is legal, or is left alone by the patterns and has nothing to retype,
the queue is emptied and the context is as before. All that may come in are reasons of patterns. -/

namespace RegionIR

theorem foldlM_of_fixed {σ α ε : Type} {f : σ → α → Except ε σ} {state : σ} {l : List α}
    (h : ∀ a ∈ l, f state a = .ok state) : l.foldlM f state = .ok state := by
  induction l with
  | nil => rfl
  | cons a l ih =>
    rw [List.forall_mem_cons] at h
    rw [List.foldlM_cons, h.1, except_ok_bind, ih h.2]

theorem eq_none_or_of_getD_eq {α : Type} {x : Option α} {a : α} (h : x.getD a = a) :
    x = none ∨ x = some a := by
  cases x with
  | none => exact .inl rfl
  | some b => exact .inr (congrArg some h)

/-- `r'` is `r`, apart from what is noted about operations of the list. -/
structure Run.Notes (r : Run) (l : List OpId) (r' : Run) : Prop where
  same : r' = { r with declines := r'.declines }
  of_mem {d : OpId × Decline} : d ∈ r'.declines → d ∈ r.declines ∨ d.1 ∈ l

namespace Run.Notes

variable {r r' r'' : Run} {l l' : List OpId}

theorem refl (r : Run) (l : List OpId) : r.Notes l r :=
  ⟨rfl, .inl⟩

theorem trans (h : r.Notes l r') (h' : r'.Notes l' r'') : r.Notes (l ++ l') r'' := by
  refine ⟨by rw [h'.same, h.same], fun hd => ?_⟩
  rw [List.mem_append, or_assoc.symm]
  exact (h'.of_mem hd).imp_left h.of_mem

theorem setDecline (r : Run) (o : OpId) (d : Decline) : r.Notes [o] (r.setDecline o d) := by
  refine ⟨rfl, fun {n} hn => ?_⟩
  rw [Run.setDecline, List.mem_cons] at hn
  rcases hn with rfl | hn
  · exact .inr List.mem_cons_self
  · exact .inl (List.mem_of_mem_filter hn)

theorem mono (h : r.Notes l r') (hsub : l ⊆ l') : r.Notes l' r' :=
  ⟨h.same, fun hd => (h.of_mem hd).imp_right (hsub ·)⟩

end Run.Notes

namespace Engine

variable {e : Engine} {c : Converter} {ctx : Context} {o : OpId} {op : Op} {b : BlockId}
  {block : Block} {r : Run}

theorem retypeResults_of_fixed (ho : ctx.op? o = some op)
    (h : ∀ ty ∈ op.resultTypes, c.convertOrKeep ty = ty) :
    retypeResults c ctx o = .ok (ctx, false) := by
  simp only [retypeResults, Context.op_eq_ok.mpr ho, except_ok_bind]
  refine foldlM_of_fixed ?_
  rintro ⟨ty, i⟩ hi
  rcases eq_none_or_of_getD_eq (h ty (List.fst_mem_of_mem_zipIdx hi)) with hc | hc <;>
    simp [hc, pure, Except.pure]

theorem retypeAttrs_of_fixed (ho : ctx.op? o = some op)
    (h : ∀ a ∈ op.attrs, c.convertOrKeepAttr a.2 = a.2) :
    retypeAttrs c ctx o = .ok (ctx, false) := by
  simp only [retypeAttrs, Context.op_eq_ok.mpr ho, except_ok_bind]
  refine foldlM_of_fixed ?_
  rintro ⟨key, a⟩ hm
  rcases eq_none_or_of_getD_eq (h _ hm) with hc | hc <;> simp [hc, pure, Except.pure]

theorem retypeOp_of_fixed (ho : ctx.op? o = some op) (h : op.retypedBy c = op) :
    retypeOp c ctx o = .ok (ctx, false) := by
  obtain ⟨htypes, hattrs⟩ := Op.retypedBy_eq_self_iff.mp h
  simp only [retypeOp, retypeResults_of_fixed ho htypes, retypeAttrs_of_fixed ho hattrs,
    except_ok_bind]
  rfl

theorem retypeArgs_of_fixed (hs : ctx.Sound) (hb : ctx.block? b = some block)
    (h : ∀ ty ∈ block.argTypes, c.convertOrKeep ty = ty) (count : Nat) :
    retypeArgs c (ctx, count) b = .ok (ctx, count) := by
  simp only [retypeArgs, Context.block_eq_ok.mpr hb, except_ok_bind, Context.mapM_typeOf_args hs hb]
  refine foldlM_of_fixed ?_
  rintro ⟨ty, i⟩ hi
  rcases eq_none_or_of_getD_eq (h ty (List.fst_mem_of_mem_zipIdx hi)) with hc | hc <;>
    simp [hc, pure, Except.pure]

/-- A pattern that leaves the context as it is, and the operation alone. -/
def LeavesAlone (c : Converter) (ctx : Context) (o : OpId) (p : Pattern) : Prop :=
  ∃ a, p.attempt c ctx o = .ok (ctx, a) ∧ a.answer ≠ .fires

/-- Nothing happens to the operation when it comes up. -/
inductive Still (e : Engine) (ctx : Context) (o : OpId) : Prop
  | legal : e.target.isLegal ctx o = .ok true → Still e ctx o
  | stuck {op : Op} : ctx.op? o = some op → e.target.isLegal ctx o = .ok false →
      (∀ p ∈ e.patterns, LeavesAlone e.converter ctx o p) →
      e.target.staticRule op = some false ∨ op.retypedBy e.converter = op → Still e ctx o

theorem tryPatterns_of_leavesAlone {ps : List Pattern}
    (h : ∀ p ∈ ps, LeavesAlone c r.ctx o p) :
    ∃ r', tryPatterns c o ps r = .ok (r', false) ∧ r.Notes [o] r' := by
  induction ps generalizing r with
  | nil => exact ⟨r, rfl, .refl r _⟩
  | cons p ps ih =>
    obtain ⟨⟨a, ha, hne⟩, hrest⟩ := List.forall_mem_cons.mp h
    simp only [tryPatterns, ha, except_ok_bind]
    cases a with
    | noMatch => exact ih hrest
    | declined reason =>
      obtain ⟨r', he, hn⟩ := ih (r := r.setDecline o ⟨p.name, reason⟩) hrest
      exact ⟨r', he, ((Run.Notes.setDecline r o _).trans hn).mono (by simp)⟩
    | applied plan =>
      have hempty : plan.isEmpty := by
        by_contra hplan
        simp [Attempt.answer, hplan] at hne
      simp only [hempty, if_true]
      exact ih hrest

theorem step_of_still {budget : Nat} {work : Worklist} (hpop : r.work.pop = some (o, work))
    (hattached : r.ctx.isAttached o = .ok true) (hstill : e.Still r.ctx o)
    (hbudget : r.rewrites < budget) :
    ∃ r', e.step budget r = .ok (r', none) ∧ ({ r with work } : Run).Notes [o] r' ∧
      (e.target.isLegal r.ctx o = .ok true → r' = { r with work }) := by
  simp only [step, hpop, hattached, except_ok_bind, Bool.not_true, Bool.false_eq_true, if_false]
  cases hstill with
  | legal hlegal =>
    refine ⟨{ r with work }, ?_, .refl _ _, fun _ => rfl⟩
    simp only [hlegal, except_ok_bind, if_true]
    rfl
  | @stuck op ho hlegal hpatterns hrule =>
    obtain ⟨r', htry, hn⟩ := tryPatterns_of_leavesAlone (r := { r with work }) hpatterns
    refine ⟨r', ?_, hn, fun h => by simp [hlegal] at h⟩
    have hctx : r'.ctx = r.ctx := by rw [hn.same]
    have hnamed : e.target.isNamedIllegal r'.ctx o =
        .ok (e.target.staticRule op == some false) := by
      simp [Target.isNamedIllegal, hctx, Context.op_eq_ok.mpr ho, pure, Except.pure]
    simp only [hlegal, except_ok_bind, Bool.false_eq_true, if_false, Nat.not_le.mpr hbudget, visit,
      htry, hnamed]
    rcases hrule with hrule | hrule
    · simp [hrule, pure, Except.pure]
    · cases e.target.staticRule op == some false
      · simp only [Bool.false_eq_true, if_false, hctx, retypeOp_of_fixed ho hrule, except_ok_bind]
        rw [← hctx]
        rfl
      · rfl

theorem run_of_still {budget limit : Nat}
    (hattached : ∀ o ∈ r.work.queue, r.ctx.isAttached o = .ok true)
    (hstill : ∀ o ∈ r.work.queue, e.Still r.ctx o)
    (hbudget : r.work.queue ≠ [] → r.rewrites < budget)
    (hlimit : r.work.queue.length < limit) :
    ∃ r' work, e.run budget limit r = .ok (r', .drained) ∧
      ({ r with work } : Run).Notes r.work.queue r' ∧
      ((∀ o ∈ r.work.queue, e.target.isLegal r.ctx o = .ok true) → r'.declines = r.declines) := by
  induction limit generalizing r with
  | zero => omega
  | succ limit ih =>
    cases hq : r.work.queue with
    | nil =>
      refine ⟨r, r.work, ?_, .refl _ _, fun _ => rfl⟩
      simp [run, step, Worklist.pop, hq, pure, Except.pure]
    | cons o rest =>
      have hpop : r.work.pop = some (o, ⟨rest, r.work.waiting.filter (· ≠ o)⟩) := by
        simp only [Worklist.pop, hq]
      rw [hq, List.forall_mem_cons] at hattached hstill
      obtain ⟨r₁, hstep, hn, hsame⟩ := step_of_still hpop hattached.1 hstill.1
        (hbudget (by simp [hq]))
      have hqueue : r₁.work.queue = rest := by rw [hn.same]
      have hctx : r₁.ctx = r.ctx := by rw [hn.same]
      have hrewrites : r₁.rewrites = r.rewrites := by rw [hn.same]
      obtain ⟨r', work, hrun, hn', hlegal⟩ := @ih r₁ (by rw [hqueue, hctx]; exact hattached.2)
        (by rw [hqueue, hctx]; exact hstill.2)
        (fun _ => by rw [hrewrites]; exact hbudget (by simp [hq]))
        (by rw [hq, List.length_cons] at hlimit; rw [hqueue]; omega)
      refine ⟨r', work, by simp only [run, hstep, except_ok_bind, hrun], ⟨?_, fun hd => ?_⟩, ?_⟩
      · rw [hn'.same, hn.same]
      · rw [List.mem_cons, ← or_assoc, ← hqueue]
        refine (hn'.of_mem hd).imp_left fun hd => ?_
        exact (hn.of_mem hd).imp_right List.mem_singleton.mp
      · intro hall
        rw [List.forall_mem_cons] at hall
        rw [hlegal (by rw [hqueue, hctx]; exact hall.2), hsame hall.1]

theorem length_lt_stepLimit (ctx : Context) (n : Nat) : n < stepLimit ctx n := by
  have hlt : n < ctx.ops.size + ctx.ledger.length + n + 2048 := by omega
  exact Nat.lt_of_lt_of_le hlt (Nat.le_self_pow (by decide) _)

/-- If nothing happens to the operations of the body, and the arguments of its blocks are converted,
a conversion changes nothing. -/
theorem convert_of_still {m : OpId} {t : RegionTree} (hs : ctx.Sound) (ht : t.HeldBy ctx)
    (hbody : ctx.body m = .ok (some t.id)) (hmax : e.maxRewrites = none)
    (hargs : ∀ b ∈ t.blockIds, ∀ block, ctx.block? b = some block →
      ∀ ty ∈ block.argTypes, e.converter.convertOrKeep ty = ty)
    (hstill : ∀ o ∈ t.opIds, e.Still ctx o) :
    ∃ result, e.convert ctx m = .ok (ctx, result) ∧ result.rewrites = 0 ∧ result.retyped = 0 ∧
      result.fixpoint = true ∧
      ((∀ o ∈ t.opIds, e.target.isLegal ctx o = .ok true) → result.declines = []) := by
  have hfold : t.blockIds.foldlM (retypeArgs e.converter) (ctx, 0) = .ok (ctx, 0) := by
    refine foldlM_of_fixed fun b hb => ?_
    obtain ⟨tree, hm, rfl⟩ := RegionTree.HeldBy.mem_blockIds_iff.mp hb
    obtain ⟨hblk, -⟩ := ht.block hm
    exact retypeArgs_of_fixed hs hblk (hargs _ hb _ hblk) 0
  have hattached : ∀ o ∈ t.opIds, ctx.isAttached o = .ok true := by
    intro o ho
    obtain ⟨b, -, -, -, -, hparent⟩ := ht.exists_block hs.linked ho
    simp [Context.isAttached, Context.op_eq_ok.mpr (ht.op?_raw ho), hparent, pure, Except.pure]
  obtain ⟨r', work, hrun, hn, hlegal⟩ := @run_of_still e { ctx, work := .ofList t.opIds }
    t.opIds.length (stepLimit ctx t.opIds.length) hattached hstill
    (fun hne => List.length_pos_iff.mpr hne) (length_lt_stepLimit ctx _)
  have hctx : r'.ctx = ctx := by rw [hn.same]
  have hlisted : r'.declines.filterM (fun d => r'.ctx.isAttached d.1) =
      .ok (r'.declines.filter fun _ => true) := by
    refine filterM_of_ok fun d hd => ?_
    rw [hctx]
    exact hattached d.1 ((hn.of_mem hd).resolve_left (by simp))
  have hdeclines : r'.attachedDeclines = .ok (r'.declines.mergeSort
      fun a b => decide (a.1.index ≤ b.1.index)) := by
    rw [List.filter_true] at hlisted
    simp only [Run.attachedDeclines, hlisted, except_ok_bind]
    rfl
  have hconvert := convert_of_run hbody (Context.regionTree_eq_ok_iff.mpr ⟨rfl, ht⟩) hfold
    (by rw [hmax]; exact hrun) hdeclines
  rw [hctx] at hconvert
  refine ⟨_, hconvert, by rw [hn.same], by rw [hn.same], rfl, fun hall => ?_⟩
  simp [hlegal hall]

end Engine

end RegionIR
