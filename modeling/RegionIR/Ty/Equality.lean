import RegionIR.Ty.Basic

/-! Equality of attributes and of types is decidable. -/

namespace RegionIR

namespace Attr

variable {τ : Type} [DecidableEq τ]

mutual

def same : Attr τ → Attr τ → Bool
  | .unit, .unit => true
  | .bool x, .bool y => x == y
  | .int x, .int y => x == y
  | .float x, .float y => x == y
  | .string x, .string y => x == y
  | .symbol x, .symbol y => x == y
  | .type x, .type y => decide (x = y)
  | .list x, .list y => sameList x y
  | _, _ => false

def sameList : List (Attr τ) → List (Attr τ) → Bool
  | [], [] => true
  | a :: as, b :: bs => a.same b && sameList as bs
  | _, _ => false

end

mutual

theorem same_iff (a b : Attr τ) : a.same b = true ↔ a = b := by
  cases a with
  | list x =>
    cases b with
    | list y => simpa [same] using sameList_iff x y
    | _ => simp [same]
  | _ => cases b <;> simp [same]

theorem sameList_iff (a b : List (Attr τ)) : sameList a b = true ↔ a = b := by
  cases a with
  | nil => cases b <;> simp [sameList]
  | cons x xs =>
    cases b with
    | nil => simp [sameList]
    | cons y ys => simp [sameList, same_iff x y, sameList_iff xs ys]

end

instance : DecidableEq (Attr τ) :=
  fun a b => decidable_of_iff _ (same_iff a b)

end Attr

namespace Ty

mutual

def same : Ty → Ty → Bool
  | .mk d n ps as, .mk d' n' ps' as' =>
    d == d' && n == n' && sameList ps ps' && sameEntries as as'

def sameList : List Ty → List Ty → Bool
  | [], [] => true
  | s :: ss, t :: ts => s.same t && sameList ss ts
  | _, _ => false

def sameEntries : List (String × Attr Ty) → List (String × Attr Ty) → Bool
  | [], [] => true
  | (k, a) :: as, (l, b) :: bs => k == l && sameAttr a b && sameEntries as bs
  | _, _ => false

def sameAttr : Attr Ty → Attr Ty → Bool
  | .unit, .unit => true
  | .bool x, .bool y => x == y
  | .int x, .int y => x == y
  | .float x, .float y => x == y
  | .string x, .string y => x == y
  | .symbol x, .symbol y => x == y
  | .type x, .type y => x.same y
  | .list x, .list y => sameAttrs x y
  | _, _ => false

def sameAttrs : List (Attr Ty) → List (Attr Ty) → Bool
  | [], [] => true
  | a :: as, b :: bs => sameAttr a b && sameAttrs as bs
  | _, _ => false

end

mutual

theorem same_iff (s t : Ty) : s.same t = true ↔ s = t := by
  cases s with
  | mk d n ps as =>
    cases t with
    | mk d' n' ps' as' =>
      simp [same, sameList_iff ps ps', sameEntries_iff as as', and_assoc]

theorem sameList_iff (s t : List Ty) : sameList s t = true ↔ s = t := by
  cases s with
  | nil => cases t <;> simp [sameList]
  | cons x xs =>
    cases t with
    | nil => simp [sameList]
    | cons y ys => simp [sameList, same_iff x y, sameList_iff xs ys]

theorem sameEntries_iff (a b : List (String × Attr Ty)) : sameEntries a b = true ↔ a = b := by
  cases a with
  | nil => cases b <;> simp [sameEntries]
  | cons x xs =>
    cases b with
    | nil => simp [sameEntries]
    | cons y ys =>
      obtain ⟨k, x⟩ := x
      obtain ⟨l, y⟩ := y
      simp [sameEntries, sameAttr_iff x y, sameEntries_iff xs ys]

theorem sameAttr_iff (a b : Attr Ty) : sameAttr a b = true ↔ a = b := by
  cases a with
  | type x =>
    cases b with
    | type y => simpa [sameAttr] using same_iff x y
    | _ => simp [sameAttr]
  | list x =>
    cases b with
    | list y => simpa [sameAttr] using sameAttrs_iff x y
    | _ => simp [sameAttr]
  | _ => cases b <;> simp [sameAttr]

theorem sameAttrs_iff (a b : List (Attr Ty)) : sameAttrs a b = true ↔ a = b := by
  cases a with
  | nil => cases b <;> simp [sameAttrs]
  | cons x xs =>
    cases b with
    | nil => simp [sameAttrs]
    | cons y ys => simp [sameAttrs, sameAttr_iff x y, sameAttrs_iff xs ys]

end

instance : DecidableEq Ty :=
  fun s t => decidable_of_iff _ (same_iff s t)

end Ty

end RegionIR
