import Mathlib.Dynamics.FixedPoints.Basic
import Mathlib.Order.Lattice.Nat
import RegionIR.Proofs.Rewrite.Retyping

/-! How often a type can be converted.

Under a converter that settles at once a type is converted once. In general it may be converted over
and over, and only if it comes to rest in the end is there a number of conversions to count down
from. If all types come to rest, so do all attributes and operations. -/

namespace RegionIR

open Function (IsFixedPt Semiconj)

/-- Applied over and over from `a`, the function comes to a fixed point. -/
def ComesToRest {α : Type} (f : α → α) (a : α) : Prop :=
  ∃ n, IsFixedPt f (f^[n] a)

/-- How often the function is to be applied from `a` until it comes to a fixed point. -/
noncomputable def stepsToRest {α : Type} (f : α → α) (a : α) : Nat :=
  sInf {n | IsFixedPt f (f^[n] a)}

namespace ComesToRest

variable {α β : Type} {f : α → α} {g : β → β} {a : α} {b : β}

theorem stepsToRest_lt (h : ComesToRest f a) (hne : f a ≠ a) :
    stepsToRest f (f a) < stepsToRest f a := by
  have hmem : IsFixedPt f (f^[stepsToRest f a] a) := Nat.sInf_mem h
  cases hn : stepsToRest f a with
  | zero =>
    rw [hn] at hmem
    exact absurd hmem hne
  | succ n =>
    rw [hn, Function.iterate_succ_apply] at hmem
    exact Nat.lt_succ_of_le (Nat.sInf_le hmem)

theorem image {e : α → β} (h : ComesToRest f a) (he : Semiconj e f g) : ComesToRest g (e a) := by
  obtain ⟨n, hn⟩ := h
  exact ⟨n, he.iterate_right n a ▸ hn.map he⟩

theorem isFixedPt_of_le {m n : Nat} (h : IsFixedPt f (f^[n] a)) (hle : n ≤ m) :
    IsFixedPt f (f^[m] a) := by
  obtain ⟨k, rfl⟩ := Nat.exists_eq_add_of_le' hle
  rw [Function.iterate_add_apply, (h.iterate k).eq]
  exact h

theorem prod (ha : ComesToRest f a) (hb : ComesToRest g b) :
    ComesToRest (Prod.map f g) (a, b) := by
  obtain ⟨m, hm⟩ := ha
  obtain ⟨n, hn⟩ := hb
  refine ⟨max m n, ?_⟩
  rw [Prod.map_iterate]
  exact Prod.ext (isFixedPt_of_le hm (Nat.le_max_left m n))
    (isFixedPt_of_le hn (Nat.le_max_right m n))

theorem list {l : List α} (h : ∀ a ∈ l, ComesToRest f a) : ComesToRest (List.map f) l := by
  induction l with
  | nil => exact ⟨0, rfl⟩
  | cons a l ih =>
    obtain ⟨ha, hl⟩ := List.forall_mem_cons.mp h
    exact (ha.prod (ih hl)).image (e := fun p => p.1 :: p.2) (g := List.map f) fun _ => rfl

end ComesToRest

namespace Converter

variable {c : Converter}

/-- Every type comes to rest when it is converted over and over. -/
def Rests (c : Converter) : Prop :=
  ∀ t, ComesToRest c.convertOrKeep t

theorem Settles.rests (h : c.Settles) : c.Rests :=
  fun t => ⟨1, h.convertOrKeep t⟩

theorem convertOrKeepAttr_type (t : Ty) :
    c.convertOrKeepAttr (.type t) = .type (c.convertOrKeep t) := by
  cases h : c.convertType t <;> simp [convertOrKeepAttr, convertAttr, convertOrKeep, h]

theorem eq_map_of_convertAttrs {items converted : List (Attr Ty)}
    (h : c.convertAttrs items = some converted) : converted = items.map c.convertOrKeepAttr := by
  induction items generalizing converted with
  | nil => simpa [convertAttrs] using h.symm
  | cons a items ih =>
    simp only [convertAttrs, Option.bind_eq_bind, Option.bind_eq_some_iff, Option.pure_def,
      Option.some.injEq] at h
    obtain ⟨b, hb, bs, hbs, rfl⟩ := h
    rw [List.map_cons, ← ih hbs, convertOrKeepAttr, hb, Option.getD_some]

/-- A list is converted item by item, unless an item cannot be converted. -/
theorem convertOrKeepAttr_list (items : List (Attr Ty)) :
    IsFixedPt c.convertOrKeepAttr (.list items) ∨
      c.convertOrKeepAttr (.list items) = .list (items.map c.convertOrKeepAttr) := by
  cases h : c.convertAttrs items with
  | none =>
    have hkept : c.convertOrKeepAttr (.list items) = .list items := by
      simp [convertOrKeepAttr, convertAttr, h]
    exact .inl hkept
  | some converted =>
    exact .inr (by simp [convertOrKeepAttr, convertAttr, h, ← eq_map_of_convertAttrs h])

/-- A list comes to rest because its items do. -/
theorem Rests.attr (h : c.Rests) (a : Attr Ty) : ComesToRest c.convertOrKeepAttr a := by
  refine Attr.forall_of_items (Q := ComesToRest c.convertOrKeepAttr) ?_ ?_ ?_ a
  · intro t
    exact (h t).image fun t => (convertOrKeepAttr_type t).symm
  · intro items ih
    by_contra hnot
    have hiterate (n : Nat) : c.convertOrKeepAttr^[n] (.list items) =
        .list ((List.map c.convertOrKeepAttr)^[n] items) := by
      induction n with
      | zero => rfl
      | succ n ihn =>
        rw [Function.iterate_succ_apply', Function.iterate_succ_apply', ihn]
        exact (convertOrKeepAttr_list _).resolve_left fun hfix => hnot ⟨n, ihn ▸ hfix⟩
    obtain ⟨n, hn⟩ := ComesToRest.list ih
    have hstays : c.convertOrKeepAttr (c.convertOrKeepAttr^[n] (.list items)) =
        c.convertOrKeepAttr^[n] (.list items) := by
      rw [← Function.iterate_succ_apply' c.convertOrKeepAttr, hiterate, hiterate,
        Function.iterate_succ_apply', hn.eq]
    exact hnot ⟨n, hstays⟩
  · intro a ht hl
    have hkept : c.convertOrKeepAttr a = a := by
      simp [convertOrKeepAttr, (convertAttr_of_leaf c ht hl).1]
    exact ⟨0, hkept⟩

theorem Rests.op (h : c.Rests) (op : Op) : ComesToRest (Op.retypedBy c) op := by
  let entry (e : String × Attr Ty) : String × Attr Ty := (e.1, c.convertOrKeepAttr e.2)
  have hentry (e : String × Attr Ty) : ComesToRest entry e :=
    (h.attr e.2).image (e := Prod.mk e.1) fun _ => rfl
  have htypes : ComesToRest (List.map c.convertOrKeep) op.resultTypes := .list fun t _ => h t
  have hattrs : ComesToRest (List.map entry) op.attrs := .list fun e _ => hentry e
  exact (htypes.prod hattrs).image (g := Op.retypedBy c)
    (e := fun p => { op with resultTypes := p.1, attrs := p.2 }) fun _ => rfl

end Converter

end RegionIR
