import RegionIR.Context.Walk
import RegionIR.Dialect.View

/-! Walks over the operations of one kind. -/

namespace RegionIR

/-- Whether the operation can be viewed as one of a kind. -/
def Op.viewsAs (op : Op) (kind : OpKind) : Bool :=
  (op.view kind).toOption.isSome

/-- The operations of a kind in a region, in preorder. With `outermost` those nested in
another one of the kind are left out. -/
def Context.opsOfKind (ctx : Context) (kind : OpKind) (outermost : Bool) (r : RegionId) :
    Except Fault (List OpId) := do
  let visit : OpId → Op → Visit := fun _ op =>
    if outermost && op.viewsAs kind then .skip else .descend
  let trail ← ctx.walkRegion visit r
  return (trail.visited.filter fun o => o.2.viewsAs kind).map Prod.fst

end RegionIR
