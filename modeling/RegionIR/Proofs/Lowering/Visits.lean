import Mathlib.Algebra.Ring.Nat
import RegionIR.Proofs.Lowering.Refinement
import RegionIR.Proofs.Rewrite.Runs

/-! A lowering as a sequence of visits.

A visit takes the first operation from the queue, gives it the form that a visit makes of it, and
puts operations at the end of the queue. If the form changed, all users of the results wait
afterwards, and so does the operation itself if it was lowered. What is said here leaves open
which operations wait in addition. -/

namespace RegionIR

namespace Op

/-- How often the form of an operation can still change. -/
def weight (op : Op) : Nat :=
  if op.isTupleOp then 2 else if op.retyped = op then 0 else 1

theorem weight_le (op : Op) : op.weight ≤ 2 := by
  unfold weight
  split
  · omega
  · split <;> omega

theorem weight_visited_lt {settle : Ty → Ty} {types : ValueId → Ty} {op : Op}
    (h : op.visited settle types ≠ op) : (op.visited settle types).weight < op.weight := by
  rcases visited_cases settle types op with ⟨op', hl, he⟩ | ⟨-, -, he⟩ | ⟨ht, he⟩
  · have hw : op.weight = 2 := by simp [weight, (loweredFrom hl).wasTupleOp]
    have hw' : op'.weight ≤ 1 := by
      simp only [weight, (loweredFrom hl).isTupleOp, Bool.false_eq_true, if_false]
      split <;> omega
    rw [he]
    omega
  · exact absurd he h
  · rw [he] at h ⊢
    have hw : op.weight = 1 := by simp [weight, ht, h]
    have hw' : op.retyped.weight = 0 := by simp [weight, isTupleOp_retyped, ht]
    omega

end Op

/-- The forms of the operations of a region, and the operations that wait for a visit. -/
structure Progress where
  forms : OpId → Op
  queue : List OpId

namespace Context

variable {ctx : Context} {t : RegionTree} {s s' : Progress}

/-- One visit. -/
structure Visits (ctx : Context) (t : RegionTree) (s : Progress) (o : OpId) (rest : List OpId)
    (pushed : List OpId) (s' : Progress) : Prop where
  mem : o ∈ t.opIds
  queue : s.queue = o :: rest
  forms' : s'.forms =
    Function.update s.forms o ((s.forms o).visited id (ctx.typeUnder s.forms))
  queue' : s'.queue = rest ++ pushed
  nodup' : s'.queue.Nodup
  known {p : OpId} : p ∈ pushed → p ∈ t.opIds
  idle : s'.forms o = s.forms o → pushed = []
  again : (s.forms o).isTupleOp → s'.forms o ≠ s.forms o → o ∈ s'.queue
  users {p : OpId} {v : ValueId} : s'.forms o ≠ s.forms o → p ∈ t.opIds →
    v ∈ (ctx.raw o).results → v ∈ (ctx.raw p).operands → p ∈ s'.queue

/-- One visit after another. -/
inductive Steps (ctx : Context) (t : RegionTree) (s : Progress) : Progress → Prop
  | refl : Steps ctx t s s
  | visit {s' s'' : Progress} {o : OpId} {rest pushed : List OpId} : Steps ctx t s s' →
      Visits ctx t s' o rest pushed s'' → Steps ctx t s s''

/-- What every visit keeps holds after all visits. -/
theorem Steps.invariant {I : Progress → Prop}
    (hstep : ∀ s o rest pushed s', Visits ctx t s o rest pushed s' → I s → I s')
    (h : ctx.Steps t s s') (hs : I s) : I s' := by
  induction h with
  | refl => exact hs
  | visit _ hv ih => exact hstep _ _ _ _ _ hv ih

theorem Steps.trans {s'' : Progress} (h : ctx.Steps t s s') (h' : ctx.Steps t s' s'') :
    ctx.Steps t s s'' := by
  induction h' with
  | refl => exact h
  | visit _ hv ih => exact ih.visit hv

namespace Visits

variable {o : OpId} {rest pushed : List OpId}

theorem form_self (hv : ctx.Visits t s o rest pushed s') :
    s'.forms o = (s.forms o).visited id (ctx.typeUnder s.forms) := by
  rw [hv.forms', Function.update_self]

theorem form_of_ne (hv : ctx.Visits t s o rest pushed s') {p : OpId} (hne : p ≠ o) :
    s'.forms p = s.forms p := by
  rw [hv.forms', Function.update_of_ne hne]

theorem mem_queue_of_mem (hv : ctx.Visits t s o rest pushed s') {p : OpId} (hp : p ∈ s.queue)
    (hne : p ≠ o) : p ∈ s'.queue := by
  rw [hv.queue] at hp
  rw [hv.queue', List.mem_append]
  exact .inl ((List.mem_cons.mp hp).resolve_left hne)

end Visits

/-- The start of a lowering: everything waits. -/
def start (ctx : Context) (t : RegionTree) : Progress :=
  ⟨ctx.raw, t.opIds⟩

theorem Steps.becomes (h : ctx.Steps t (start ctx t) s) (o : OpId) :
    (ctx.raw o).Becomes (s.forms o) := by
  refine h.invariant (I := fun s => ∀ o, (ctx.raw o).Becomes (s.forms o)) ?_ (fun _ => .same) o
  intro s p rest pushed s' hv hs o
  by_cases he : o = p
  · subst he
    rw [hv.form_self]
    exact (hs o).visited
  · rw [hv.form_of_ne he]
    exact hs o

/-- The type of a value depends on the form of the operation that defines it only. -/
theorem typeUnder_congr {forms forms' : OpId → Op} {v : ValueId}
    (h : ∀ o i ty, ctx.value? v = some ⟨.result o i, ty⟩ → forms o = forms' o) :
    ctx.typeUnder forms v = ctx.typeUnder forms' v := by
  unfold typeUnder
  split
  · rename_i o i ty hv
    rw [h o i ty hv]
  · rfl
  · rfl

theorem Steps.settled (hc : ctx.Confined t) (h : ctx.Steps t (start ctx t) s) {o : OpId}
    (ho : o ∈ t.opIds) (hq : o ∉ s.queue) :
    (s.forms o).visited id (ctx.typeUnder s.forms) = s.forms o := by
  refine (h.invariant (I := fun s => (∀ o, (s.forms o).operands = (ctx.raw o).operands) ∧
    ∀ o ∈ t.opIds, o ∉ s.queue → (s.forms o).visited id (ctx.typeUnder s.forms) = s.forms o)
    ?_ ⟨fun _ => rfl, fun o ho hq => absurd ho hq⟩).2 o ho hq
  rintro s p rest pushed s' hv ⟨hops, hs⟩
  refine ⟨fun o => ?_, fun o ho hq => ?_⟩
  · by_cases he : o = p
    · rw [he, hv.form_self, Op.visited_operands, hops]
    · rw [hv.form_of_ne he, hops]
  · by_cases hsame : s'.forms p = s.forms p
    · have hforms : s'.forms = s.forms := by
        rw [hv.forms', ← hv.form_self, hsame]
        exact Function.update_eq_self p s.forms
      rw [hforms]
      by_cases he : o = p
      · rw [he, ← hv.form_self, hsame]
      · refine hs o ho fun hm => hq (hv.mem_queue_of_mem hm he)
    · by_cases he : o = p
      · subst he
        have ht : (s.forms o).isTupleOp = false := by
          by_contra ht
          exact hq (hv.again (by simpa using ht) hsame)
        rw [hv.form_self, Op.visited_of_not_tupleOp ht,
          Op.visited_of_not_tupleOp (Op.isTupleOp_retyped.trans ht), Op.retyped_retyped]
      · have hsettled := hs o ho fun hm => hq (hv.mem_queue_of_mem hm he)
        rw [hv.form_of_ne he]
        rw [← Op.visited_congr, hsettled]
        intro v hvo
        refine typeUnder_congr fun q i ty hval => ?_
        by_cases hqp : q = p
        · subst hqp
          obtain ⟨op, hop, hi⟩ := hc.sound.typed.origin_result hval
          refine absurd (hv.users hsame ho ?_ (hops o ▸ hvo)) hq
          rw [raw_of_some hop]
          exact List.mem_of_getElem? hi
        · exact (hv.form_of_ne hqp).symm

section Measure

/-- How often the forms of the operations can still change. -/
def load (t : RegionTree) (s : Progress) : Nat :=
  (t.opIds.map fun o => (s.forms o).weight).sum

/-- How many operations were lowered. -/
def lowered (ctx : Context) (t : RegionTree) (s : Progress) : Nat :=
  t.opIds.countP fun o => (ctx.raw o).isTupleOp && !(s.forms o).isTupleOp

/-- A bound on the visits to come. -/
def fuel (t : RegionTree) (s : Progress) : Nat :=
  load t s * (t.opIds.length + 1) + s.queue.length

theorem exists_split {l : List OpId} (hnd : l.Nodup) {o : OpId} (ho : o ∈ l) :
    ∃ l₁ l₂, l = l₁ ++ o :: l₂ ∧ (∀ p ∈ l₁, p ≠ o) ∧ ∀ p ∈ l₂, p ≠ o := by
  obtain ⟨l₁, l₂, rfl⟩ := List.append_of_mem ho
  rw [List.nodup_append, List.nodup_cons] at hnd
  refine ⟨l₁, l₂, rfl, fun p hp => hnd.2.2 p hp o List.mem_cons_self, ?_⟩
  rintro p hp rfl
  exact hnd.2.1.1 hp

namespace Visits

variable {o : OpId} {rest pushed : List OpId}

theorem load_add (hc : t.opIds.Nodup) (hv : ctx.Visits t s o rest pushed s') :
    load t s' + (s.forms o).weight = load t s + (s'.forms o).weight := by
  obtain ⟨l₁, l₂, hl, h₁, h₂⟩ := exists_split hc hv.mem
  have hsame {l : List OpId} (h : ∀ p ∈ l, p ≠ o) :
      l.map (fun p => (s'.forms p).weight) = l.map fun p => (s.forms p).weight :=
    List.map_congr_left fun p hp => by rw [hv.form_of_ne (h p hp)]
  simp only [load, hl, List.map_append, List.map_cons, List.sum_append, List.sum_cons, hsame h₁,
    hsame h₂]
  omega

theorem lowered_eq (hc : t.opIds.Nodup) (hv : ctx.Visits t s o rest pushed s')
    (hraw : (s.forms o).isTupleOp → (ctx.raw o).isTupleOp) :
    lowered ctx t s' = lowered ctx t s +
      if (s.forms o).isTupleOp && !(s'.forms o).isTupleOp then 1 else 0 := by
  obtain ⟨l₁, l₂, hl, h₁, h₂⟩ := exists_split hc hv.mem
  have hsame {l : List OpId} (h : ∀ p ∈ l, p ≠ o) :
      (l.countP fun p => (ctx.raw p).isTupleOp && !(s'.forms p).isTupleOp) =
        l.countP fun p => (ctx.raw p).isTupleOp && !(s.forms p).isTupleOp :=
    List.countP_congr fun p hp => by rw [hv.form_of_ne (h p hp)]
  have hmono : (s'.forms o).isTupleOp → (s.forms o).isTupleOp := by
    rw [hv.form_self]
    exact Op.isTupleOp_of_visited
  simp only [lowered, hl, List.countP_append, List.countP_cons, hsame h₁, hsame h₂]
  cases hs : (s.forms o).isTupleOp <;> cases hs' : (s'.forms o).isTupleOp <;>
    cases hr : (ctx.raw o).isTupleOp <;> simp_all
  omega

theorem fuel_lt (hc : t.opIds.Nodup) (hv : ctx.Visits t s o rest pushed s')
    (hq : ∀ p ∈ s.queue, p ∈ t.opIds) : fuel t s' < fuel t s := by
  have hload := hv.load_add hc
  have hlen : s.queue.length = rest.length + 1 := by rw [hv.queue, List.length_cons]
  by_cases he : s'.forms o = s.forms o
  · have hq' : s'.queue.length = rest.length := by
      rw [hv.queue', hv.idle he, List.append_nil]
    rw [he] at hload
    have heq : load t s' = load t s := by omega
    simp only [fuel, heq, hq', hlen]
    omega
  · have hlt : (s'.forms o).weight < (s.forms o).weight := by
      rw [hv.form_self] at he ⊢
      exact Op.weight_visited_lt he
    have hq' : s'.queue.length ≤ t.opIds.length := by
      refine (hv.nodup'.subperm fun p hp => ?_).length_le
      rw [hv.queue', List.mem_append] at hp
      rcases hp with hp | hp
      · exact hq p (by rw [hv.queue]; exact List.mem_cons_of_mem _ hp)
      · exact hv.known hp
    have hle : load t s' + 1 ≤ load t s := by omega
    have hmul := Nat.mul_le_mul_right (t.opIds.length + 1) hle
    rw [Nat.add_mul, Nat.one_mul] at hmul
    simp only [fuel]
    omega

end Visits

theorem load_le (t : RegionTree) (s : Progress) : load t s ≤ 2 * t.opIds.length := by
  unfold load
  induction t.opIds with
  | nil => simp
  | cons o l ih =>
    have hw := Op.weight_le (s.forms o)
    simp only [List.map_cons, List.sum_cons, List.length_cons]
    omega

theorem lowered_le (ctx : Context) (t : RegionTree) (s : Progress) :
    lowered ctx t s ≤ t.opIds.length :=
  List.countP_le_length

theorem forall_lowered (h : t.opIds.length ≤ lowered ctx t s) {o : OpId} (ho : o ∈ t.opIds) :
    (ctx.raw o).isTupleOp ∧ (s.forms o).isTupleOp = false := by
  have heq := Nat.le_antisymm (lowered_le ctx t s) h
  have hall := List.countP_eq_length.mp heq o ho
  simpa using hall

end Measure

end Context

end RegionIR
