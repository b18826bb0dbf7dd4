import RegionIR.Proofs.Context.Validity
import RegionIR.Proofs.Rewrite.Sparing

/-! What it means that a run ends with an empty queue.

Between two steps every operation of the region waits, or a visit would change nothing about it. So
when nothing waits any more no visit changes anything, and what the patterns had to say against an
operation is what they would say again. -/

namespace RegionIR

namespace Target

variable {t : Target} {c : Converter} {ctx ctx' : Context} {o : OpId} {op : Op}

theorem isLegal_of_static (hchecks : t.dynamicChecks = []) (ho : ctx.op? o = some op) :
    t.isLegal ctx o = match t.staticRule op with
      | some legal => .ok legal
      | none => t.otherOps ctx o := by
  have hrule : t.dynamicRule ctx o = .ok none := by rw [dynamicRule, hchecks]; rfl
  simp only [isLegal, hrule, except_ok_bind, Context.op_eq_ok.mpr ho]
  cases t.staticRule op <;> rfl

/-- Whether an operation is legal depends on the operation and the types of its operands. -/
theorem isLegal_congr (hchecks : t.dynamicChecks = []) (hothers : t.otherOps = c.isLegalOp)
    (ho : ctx.op? o = some op) (h : ctx.SameView ctx' o) : t.isLegal ctx' o = t.isLegal ctx o := by
  have ho' := h.op?.trans ho
  have htypes : (op.operands.allM fun v => do return c.isLegalType (← ctx'.typeOf v)) =
      op.operands.allM fun v => do return c.isLegalType (← ctx.typeOf v) :=
    allM_congr fun v hv => by rw [h.typeOf ho hv]
  rw [isLegal_of_static hchecks ho, isLegal_of_static hchecks ho', hothers]
  simp only [Converter.isLegalOp, Context.op_eq_ok.mpr ho, Context.op_eq_ok.mpr ho', except_ok_bind,
    htypes]

end Target

namespace Engine

variable {e : Engine} {ctx ctx' : Context} {o x : OpId} {op : Op} {b : BlockId} {r r' : Run}
  {bs : List BlockId} {D : Op → Prop}

/-- An engine that decides by the rules for operations and dialects and by types, the patterns of
which are local and rewrite only what such a rule names illegal. -/
structure Static (e : Engine) : Prop where
  settles : e.converter.Settles
  checks : e.target.dynamicChecks = []
  others : e.target.otherOps = e.converter.isLegalOp
  patterns : ∀ p ∈ e.patterns, p.Local e.converter
  named {p : Pattern} {ctx : Context} {o : OpId} {op : Op} : p ∈ e.patterns →
    ctx.op? o = some op → p.answer e.converter ctx o = some .fires →
    e.target.staticRule op = some false

/-- No pattern rewrites the operation. -/
def Quiet (e : Engine) (ctx : Context) (o : OpId) : Prop :=
  ∀ p ∈ e.patterns, p.answer e.converter ctx o ≠ some .fires

/-- A visit would change nothing about the operation. -/
inductive Settled (e : Engine) (ctx : Context) (o : OpId) : Prop
  | legal : e.target.isLegal ctx o = .ok true → Settled e ctx o
  | stuck {op : Op} : ctx.op? o = some op → e.Quiet ctx o →
      e.target.staticRule op = some false ∨ op.retypedBy e.converter = op → Settled e ctx o

/-- `D` holds of the operations against which the patterns give reasons. It can be told from the
operation alone, whatever its operands are. -/
structure Explains (e : Engine) (D : Op → Prop) : Prop where
  operands {op : Op} {operands : List ValueId} {parent : Option BlockId} :
    operands.length = op.operands.length → (D { op with operands, parent } ↔ D op)
  named {op : Op} : D op → e.target.staticRule op = some false
  reasons {ctx : Context} {o : OpId} {op : Op} : ctx.op? o = some op → ctx.Wired o →
    e.Quiet ctx o → (complaint e.converter ctx o e.patterns ≠ none ↔ D op)

/-- A run in the course of which nothing in the given blocks was forgotten. -/
structure Abides (e : Engine) (bs : List BlockId) (r : Run) : Prop where
  ready : r.work.Ready
  sound : r.ctx.Sound
  wired {o : OpId} {b : BlockId} : b ∈ bs → r.ctx.Stands o b → r.ctx.Wired o
  settled {o : OpId} {b : BlockId} : b ∈ bs → r.ctx.Stands o b →
    o ∈ r.work.queue ∨ e.Settled r.ctx o

/-- What is noted about the operations of the given blocks is up to date. -/
structure Annotates (e : Engine) (D : Op → Prop) (bs : List BlockId) (r : Run) : Prop where
  tidy : r.Tidy
  unknown {o : OpId} : r.ctx.op? o = none → r.reason o = none
  noted {o : OpId} {op : Op} {b : BlockId} : b ∈ bs → r.ctx.Stands o b → r.ctx.op? o = some op →
    r.reason o ≠ none → D op
  current {o : OpId} {b : BlockId} : b ∈ bs → r.ctx.Stands o b →
    o ∈ r.work.queue ∨ r.reason o = complaint e.converter r.ctx o e.patterns

theorem complaint_congr {c : Converter} {ps : List Pattern} (hps : ∀ p ∈ ps, p.Local c)
    (h : ctx.SameView ctx' o) : complaint c ctx' o ps = complaint c ctx o ps := by
  induction ps with
  | nil => rfl
  | cons p ps ih =>
    rw [List.forall_mem_cons] at hps
    rw [complaint, complaint, ih hps.2, hps.1.answer h]

theorem Explains.complaint_eq_none (hD : e.Explains D) (ho : ctx.op? o = some op)
    (hw : ctx.Wired o) (hq : e.Quiet ctx o) (hnot : ¬D op) :
    complaint e.converter ctx o e.patterns = none :=
  not_not.mp fun hne => hnot ((hD.reasons ho hw hq).mp hne)

namespace Static

variable (he : e.Static)

include he

theorem quiet_congr (h : ctx.SameView ctx' o) (hq : e.Quiet ctx o) : e.Quiet ctx' o :=
  fun p hp => by
    rw [(he.patterns p hp).answer h]
    exact hq p hp

theorem quiet_of_not_named (ho : ctx.op? o = some op) (hn : e.target.staticRule op ≠ some false) :
    e.Quiet ctx o :=
  fun _ hp hfires => hn (he.named hp ho hfires)

theorem settled_congr (ho : ctx.op? o = some op) (h : ctx.SameView ctx' o)
    (hs : e.Settled ctx o) : e.Settled ctx' o := by
  cases hs with
  | legal hlegal => exact .legal ((Target.isLegal_congr he.checks he.others ho h).trans hlegal)
  | stuck ho hq hrule => exact .stuck (h.op?.trans ho) (he.quiet_congr h hq) hrule

/-- A visited operation that still stands in a block is settled, for it does not depend on what the
visit has made of it whether it could be rewritten or retyped once more. -/
theorem settled_of_fate (hfate : Fate e r x r') (hst : r'.ctx.Stands x b) :
    e.Settled r'.ctx x := by
  cases hfate with
  | gone hgone =>
    obtain ⟨op, ho, hp⟩ := hst
    simp [hgone op ho] at hp
  | legal hlegal hctx _ => exact .legal (hctx ▸ hlegal)
  | left ho hquiet _ hnamed hview =>
    exact he.settled_congr ho hview (.stuck ho hquiet (.inl hnamed))
  | retyped _ _ _ hnamed ho =>
    exact .stuck ho (he.quiet_of_not_named ho hnamed)
      (.inr (Op.retypedBy_retypedBy he.settles _))

/-- A step settles the operation that it visits. Another one stays as settled as it was, unless its
operands were affected, and then it is queued again. -/
theorem abides_step (h : Abides e bs r) {budget : Nat} (hstep : e.step budget r = .ok (r', none)) :
    Abides e bs r' := by
  obtain ⟨x, work, hpop, hadv⟩ := step_advances he.patterns h.sound h.ready hstep
  obtain ⟨-, hqueue⟩ := h.ready.pop hpop
  have hspares := hadv.spares
  refine ⟨hadv.ready, hspares.sound, fun {o b} hb hst => ?_, fun {o b} hb hst => ?_⟩
  · cases ho : r.ctx.op? o with
    | none =>
      obtain ⟨-, hxst, hw⟩ := hspares.created ho hst
      exact hw (h.wired hb hxst)
    | some op => exact hspares.wired hst ho (h.wired hb (hspares.keeps.stands ho hst))
  · cases ho : r.ctx.op? o with
    | none => exact .inl (hspares.created ho hst).1
    | some op =>
      have hst₀ := hspares.keeps.stands ho hst
      have hw := h.wired hb hst₀
      by_cases hne : o = x
      · subst hne
        exact .inr (he.settled_of_fate (hadv.fate hw) hst)
      · rcases hspares.view hne hst ho hw with hview | hq
        · rcases h.settled hb hst₀ with hq | hsettled
          · rw [hqueue] at hq
            exact .inl (hadv.queue ((List.mem_cons.mp hq).resolve_left hne))
          · exact .inr (he.settled_congr ho hview hsettled)
        · exact .inl hq

section Notes

variable (hD : e.Explains D)

include hD

theorem not_explained_of_legal (ho : ctx.op? o = some op)
    (hlegal : e.target.isLegal ctx o = .ok true) : ¬D op := by
  intro hop
  rw [Target.isLegal_of_static he.checks ho, hD.named hop] at hlegal
  simp at hlegal

/-- What is noted about a visited operation that still stands in a block. Of a legal one no reason
was ever noted, and none would be given. -/
theorem reason_of_fate (hw : r.ctx.Wired x) (hw' : r'.ctx.Wired x) (hx : r.ctx.op? x = some op)
    (hnoted : r.reason x ≠ none → D op) (hfate : Fate e r x r') (hst : r'.ctx.Stands x b) :
    r'.reason x = complaint e.converter r'.ctx x e.patterns ∧
      ∀ op', r'.ctx.op? x = some op' → r'.reason x ≠ none → D op' := by
  have hnone (hnot : ¬D op) : r.reason x = none := not_not.mp fun hne => hnot (hnoted hne)
  cases hfate with
  | gone hgone =>
    obtain ⟨op, ho, hp⟩ := hst
    simp [hgone op ho] at hp
  | legal hlegal hctx hreason =>
    have hnot := he.not_explained_of_legal hD hx hlegal
    have hquiet : e.Quiet r.ctx x := by
      refine fun p hp hfires => ?_
      rw [Target.isLegal_of_static he.checks hx, he.named hp hx hfires] at hlegal
      simp at hlegal
    rw [hreason, hnone hnot, hctx, hD.complaint_eq_none hx hw hquiet hnot]
    simp
  | left ho hquiet hreason hnamed hview =>
    obtain rfl := Option.some.inj (hx.symm.trans ho)
    have hsome := hD.reasons hx hw hquiet
    have heq : r'.reason x = complaint e.converter r.ctx x e.patterns := by
      rw [hreason]
      cases hc : complaint e.converter r.ctx x e.patterns with
      | none => exact hnone fun hop => hsome.mpr hop hc
      | some reason => rfl
    rw [complaint_congr he.patterns hview]
    refine ⟨heq, fun op' ho' hne => ?_⟩
    obtain rfl := Option.some.inj ((hview.op?.trans hx).symm.trans ho')
    exact hsome.mp (heq ▸ hne)
  | retyped ho hquiet hreason hnamed ho' =>
    obtain rfl := Option.some.inj (hx.symm.trans ho)
    have hnot : ¬D op := fun hop => hnamed (hD.named hop)
    have hnot' : ¬D (op.retypedBy e.converter) := fun hop => hnamed (hD.named hop :)
    rw [hreason, hD.complaint_eq_none hx hw hquiet hnot, hnone hnot,
      hD.complaint_eq_none ho' hw' (he.quiet_of_not_named ho' hnamed) hnot']
    simp

theorem annotates_step (habides : Abides e bs r) (h : Annotates e D bs r) {budget : Nat}
    (hstep : e.step budget r = .ok (r', none)) : Annotates e D bs r' := by
  obtain ⟨x, work, hpop, hadv⟩ := step_advances he.patterns habides.sound habides.ready hstep
  obtain ⟨-, hqueue⟩ := habides.ready.pop hpop
  have hspares := hadv.spares
  have habides' := he.abides_step habides hstep
  obtain ⟨opx, hx⟩ := hadv.known
  have hnew {o : OpId} (ho : r.ctx.op? o = none) : r'.reason o = none := by
    refine (hadv.reason ?_).trans (h.unknown ho)
    rintro rfl
    simp [ho] at hx
  have hvisited {b : BlockId} (hb : b ∈ bs) (hst : r'.ctx.Stands x b) :=
    have hst₀ := hspares.keeps.stands hx hst
    have hw := habides.wired hb hst₀
    he.reason_of_fate (r := { r with work }) hD hw (habides'.wired hb hst) hx
      (h.noted hb hst₀ hx) (hadv.fate hw) hst
  refine ⟨hadv.tidy h.tidy, fun {o} ho => ?_, fun {o op b} hb hst ho hne => ?_,
    fun {o b} hb hst => ?_⟩
  · cases ho' : r.ctx.op? o with
    | none => exact hnew ho'
    | some op =>
      obtain ⟨op', hop', -⟩ := hspares.keeps.op? ho'
      simp [ho] at hop'
  · cases ho' : r.ctx.op? o with
    | none => exact absurd (hnew ho') hne
    | some op₀ =>
      by_cases hox : o = x
      · subst hox
        exact (hvisited hb hst).2 op ho hne
      · obtain ⟨operands, parent, hop, hlen⟩ := hspares.shape hox ho'
        obtain rfl := Option.some.inj (hop.symm.trans ho)
        rw [hadv.reason hox] at hne
        exact (hD.operands hlen).mpr (h.noted hb (hspares.keeps.stands ho' hst) ho' hne)
  · cases ho : r.ctx.op? o with
    | none => exact .inl (hspares.created ho hst).1
    | some op =>
      by_cases hox : o = x
      · subst hox
        exact .inr (hvisited hb hst).1
      · have hst₀ := hspares.keeps.stands ho hst
        rcases hspares.view hox hst ho (habides.wired hb hst₀) with hview | hq
        · rcases h.current hb hst₀ with hq | hcurrent
          · rw [hqueue] at hq
            exact .inl (hadv.queue ((List.mem_cons.mp hq).resolve_left hox))
          · rw [hadv.reason hox, complaint_congr he.patterns hview]
            exact .inr hcurrent
        · exact .inl hq

end Notes

end Static

end Engine

end RegionIR
