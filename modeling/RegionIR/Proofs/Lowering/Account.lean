import RegionIR.Proofs.Lowering.Patterns
import RegionIR.Proofs.Rewrite.Runs

/-! A lowering without numbers for what it creates.

An account names operations and values as they were named at the start. It has the forms of the
operations, their users in the order of the ledger, and what waits; this is all that a lowering
decides by. Its run is a function, so that lowerings with the same account take the same course. -/

namespace RegionIR

namespace Worklist

variable {f g : OpId → OpId} {w : Worklist} {id : OpId} {ids l : List OpId}

/-- The worklist under other numbers. -/
def map (f : OpId → OpId) (w : Worklist) : Worklist :=
  ⟨w.queue.map f, w.waiting.map f⟩

theorem map_congr (hw : w.Ready) (h : ∀ x ∈ w.queue, f x = g x) : w.map f = w.map g := by
  have hwaiting : ∀ x ∈ w.waiting, f x = g x := fun x hx => h x ((hw.waiting x).mp hx)
  rw [map, map, List.map_congr_left h, List.map_congr_left hwaiting]

theorem push_map (h : ∀ x ∈ w.waiting, f x = f id → x = id) :
    (w.map f).push (f id) = (w.push id).map f := by
  by_cases hm : id ∈ w.waiting
  · have hm' : f id ∈ (w.map f).waiting := List.mem_map_of_mem hm
    rw [push, push, if_pos hm, if_pos hm']
  · have hm' : f id ∉ (w.map f).waiting := by
      intro hm'
      obtain ⟨x, hx, he⟩ := List.mem_map.mp hm'
      exact hm (h x hx he ▸ hx)
    rw [push, push, if_neg hm, if_neg hm', map, map, List.map_append, List.map_cons]
    rfl

theorem pushAll_map (hf : ∀ x ∈ l, ∀ y ∈ l, f x = f y → x = y) (hids : ids ⊆ l)
    (hw : w.waiting ⊆ l) : (w.map f).pushAll (ids.map f) = (w.pushAll ids).map f := by
  induction ids generalizing w with
  | nil => rfl
  | cons id ids ih =>
    rw [List.cons_subset] at hids
    have hpush := push_map (w := w) fun x hx => hf x (hw hx) id hids.1
    have hw' : (w.push id).waiting ⊆ l := by
      unfold push
      split
      · exact hw
      · exact List.cons_subset.mpr ⟨hids.1, hw⟩
    rw [List.map_cons, pushAll, List.foldl_cons, hpush]
    exact ih hids.2 hw'

theorem pop_map (h : ∀ x ∈ w.queue, ∀ y ∈ w.waiting, f y = f x → y = x) :
    (w.map f).pop = w.pop.map fun e => (f e.1, e.2.map f) := by
  obtain ⟨queue, waiting⟩ := w
  cases queue with
  | nil => rfl
  | cons id rest =>
    simp only [pop, map, List.map_cons, Option.map_some, List.filter_map]
    congr 4
    refine List.filter_congr fun y hy => ?_
    have hiff : f y = f id ↔ y = id := ⟨h id List.mem_cons_self y hy, congrArg f⟩
    simp [hiff]

end Worklist

instance (types : ValueId → Ty) (op : Op) : Decidable (op.Legal types) :=
  inferInstanceAs (Decidable (_ ∧ _ ∧ _ ∧ _))

/-- What a run does to a region, told in the ids of the start: it names no id that the run created. -/
structure Account where
  forms : OpId → Op
  users : ValueId → List OpId
  work : Worklist
  rewrites : Nat := 0
  retyped : Nat := 0

namespace Account

/-- The account of a region before the first step. -/
def start (ctx : Context) (t : RegionTree) (retyped : Nat) : Account where
  forms := ctx.raw
  users v := (ctx.uses v).map Use.user
  work := .ofList t.opIds
  retyped := retyped

/-- A tuple operation gives way to its lowering, which is entered as a new user of its operands. -/
def lower (ctx : Context) (a : Account) (o : OpId) (form : Op) : Account :=
  let users (v : ValueId) : List OpId :=
    (a.users v).filter (· ≠ o) ++ List.replicate (form.operands.count v) o
  { a with
    forms := Function.update a.forms o form, users
    work := (a.work.push o).pushAll (form.results.flatMap users ++ form.operands.filterMap ctx.definer)
    rewrites := a.rewrites + 1 }

def retype (a : Account) (o : OpId) : Account :=
  { a with
    forms := Function.update a.forms o (a.forms o).retyped
    work := a.work.pushAll ((a.forms o).results.flatMap a.users)
    retyped := a.retyped + 1 }

/-- What comes of an illegal operation. -/
def visit (ctx : Context) (a : Account) (o : OpId) : Account :=
  match (a.forms o).lowering id (ctx.typeUnder a.forms) with
  | some form => a.lower ctx o form
  | none => if (a.forms o).visited id (ctx.typeUnder a.forms) = a.forms o then a else a.retype o

def step (ctx : Context) (budget : Nat) (a : Account) : Account × Option Ending :=
  match a.work.pop with
  | none => (a, some .drained)
  | some (o, work) =>
    if (a.forms o).Legal (ctx.typeUnder a.forms) then ({ a with work }, none)
    else if budget ≤ a.rewrites then ({ a with work }, some .outOfRewrites)
    else (visit ctx { a with work } o, none)

/-- At most `limit` steps. -/
def run (ctx : Context) (budget : Nat) : (limit : Nat) → Account → Account × Ending
  | 0, a => (a, .outOfSteps)
  | limit + 1, a =>
    match a.step ctx budget with
    | (a, some ending) => (a, ending)
    | (a, none) => run ctx budget limit a

variable {ctx ctx' : Context} {a : Account} {budget : Nat}

theorem forms_lower (o : OpId) (form : Op) :
    (a.lower ctx o form).forms = Function.update a.forms o form := rfl

theorem users_lower (o : OpId) (form : Op) (v : ValueId) : (a.lower ctx o form).users v =
    (a.users v).filter (· ≠ o) ++ List.replicate (form.operands.count v) o := rfl

theorem work_lower (o : OpId) (form : Op) : (a.lower ctx o form).work = (a.work.push o).pushAll
    (form.results.flatMap (a.lower ctx o form).users ++ form.operands.filterMap ctx.definer) := rfl

theorem forms_retype (o : OpId) :
    (a.retype o).forms = Function.update a.forms o (a.forms o).retyped := rfl

theorem work_retype (o : OpId) :
    (a.retype o).work = a.work.pushAll ((a.forms o).results.flatMap a.users) := rfl

theorem legal_congr {forms : OpId → Op} {o : OpId}
    (h : ∀ v ∈ (forms o).operands, ctx'.value? v = ctx.value? v) :
    (forms o).Legal (ctx'.typeUnder forms) ↔ (forms o).Legal (ctx.typeUnder forms) := by
  refine and_congr_right fun _ => and_congr_left fun _ => forall₂_congr fun v hv => ?_
  rw [Context.typeUnder, Context.typeUnder, h v hv]

theorem visit_congr {o : OpId}
    (h : ∀ v ∈ (a.forms o).operands, ctx'.value? v = ctx.value? v) :
    visit ctx' a o = visit ctx a o := by
  have htypes : ∀ v ∈ (a.forms o).operands,
      ctx'.typeUnder a.forms v = ctx.typeUnder a.forms v := by
    intro v hv
    rw [Context.typeUnder, Context.typeUnder, h v hv]
  have hlow : (a.forms o).lowering id (ctx'.typeUnder a.forms) =
      (a.forms o).lowering id (ctx.typeUnder a.forms) := Op.lowering_congr htypes
  have hvis : (a.forms o).visited id (ctx'.typeUnder a.forms) =
      (a.forms o).visited id (ctx.typeUnder a.forms) := Op.visited_congr htypes
  rw [visit, visit, hlow, hvis]
  cases hform : (a.forms o).lowering id (ctx.typeUnder a.forms) with
  | none => rfl
  | some form =>
    have hdefiners : form.operands.filterMap ctx'.definer = form.operands.filterMap ctx.definer := by
      refine List.filterMap_congr fun v hv => ?_
      rw [(Op.loweredFrom hform).operands] at hv
      rw [Context.definer, Context.definer, h v hv]
    simp only [lower, hdefiners]

theorem step_congr (h : ∀ o work, a.work.pop = some (o, work) →
    ∀ v ∈ (a.forms o).operands, ctx'.value? v = ctx.value? v) :
    a.step ctx' budget = a.step ctx budget := by
  rw [step, step]
  cases hpop : a.work.pop with
  | none => rfl
  | some next =>
    obtain ⟨o, work⟩ := next
    have hvalue := h o work hpop
    simp only [legal_congr hvalue]
    rw [visit_congr (a := { a with work }) hvalue]

/-- A run that has ended by itself does not depend on how many steps it was allowed. -/
theorem run_of_ended {limit limit' : Nat} (h : (a.run ctx budget limit).2 ≠ .outOfSteps)
    (h' : (a.run ctx budget limit').2 ≠ .outOfSteps) :
    a.run ctx budget limit = a.run ctx budget limit' := by
  induction limit generalizing a limit' with
  | zero => exact absurd rfl h
  | succ limit ih =>
    cases limit' with
    | zero => exact absurd rfl h'
    | succ limit' =>
      rw [run] at h h' ⊢
      rw [run]
      cases hstep : a.step ctx budget with
      | mk a' ending =>
        cases ending with
        | some ending => rfl
        | none =>
          rw [hstep] at h h'
          exact ih h h'

end Account

end RegionIR
