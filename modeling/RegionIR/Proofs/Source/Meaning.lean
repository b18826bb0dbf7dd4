import RegionIR.Proofs.Source.Growth
import RegionIR.Proofs.Source.Operations
import RegionIR.Source.Resolve

/-! What the operations that are created for a program have to do with it.

A source operation means a tree, in a scope, when the tree has what is written, with every name
replaced by what it stands for there. Resolving a program that is accepted creates a tree that it
means, and nothing else. -/

namespace RegionIR

/-- The names of the arguments of a block. -/
def SourceBlock.argNames (b : SourceBlock) : List String := b.args.map Prod.fst

namespace Scope

/-- The scope with names for further values. -/
def define (scope : Scope) (names : List String) (vs : List ValueId) : Scope :=
  { scope with values := (names.zip vs).reverse ++ scope.values }

/-- The scope with the labels of blocks and the names of their arguments. -/
def enter (scope : Scope) : List SourceBlock → List (BlockId × List ValueId) → Scope
  | .mk label args _ :: rest, (b, vs) :: bs =>
    ({ scope with blocks := (label, b) :: scope.blocks }.define (args.map Prod.fst) vs).enter rest bs
  | _, _ => scope

/-- The scope after operations. -/
def after (scope : Scope) : List SourceOp → List OpTree → Scope
  | o :: rest, t :: ts => (scope.define o.head.results t.op.results).after rest ts
  | _, _ => scope

@[simp] theorem define_nil_left (scope : Scope) (vs : List ValueId) : scope.define [] vs = scope := rfl

@[simp] theorem define_nil_right (scope : Scope) (names : List String) :
    scope.define names [] = scope := by
  simp [define]

theorem define_cons (scope : Scope) (name : String) (names : List String) (v : ValueId)
    (vs : List ValueId) : scope.define (name :: names) (v :: vs) =
      Scope.define { scope with values := (name, v) :: scope.values } names vs := by
  simp [define]

theorem enter_eq {blocks : List SourceBlock} {bs : List (BlockId × List ValueId)}
    (hlen : List.Forall₂ (fun b e => b.args.length = e.2.length) blocks bs) (scope : Scope) :
    scope.enter blocks bs =
      { values := (scope.define (blocks.flatMap SourceBlock.argNames) (bs.flatMap Prod.snd)).values
        blocks := ((blocks.map SourceBlock.label).zip (bs.map Prod.fst)).reverse ++ scope.blocks } := by
  induction hlen generalizing scope with
  | nil => rfl
  | @cons block e blocks bs hfirst _ ih =>
    obtain ⟨label, args, ops⟩ := block
    obtain ⟨b, vs⟩ := e
    have hargs : (args.map Prod.fst).length = vs.length := by
      simpa [SourceBlock.args] using hfirst
    simp [enter, ih, define, SourceBlock.argNames, SourceBlock.args, SourceBlock.label,
      List.zip_append hargs]

end Scope

/-- An operation has what its line says. -/
structure SourceHead.Means (scope : Scope) (h : SourceHead) (op : Op) : Prop where
  dialect : op.dialect = h.dialect
  name : op.name = h.name
  operands : List.Forall₂ (fun name v => scope.values.lookup name = some v) h.operands op.operands
  successors : List.Forall₂ (fun label b => scope.blocks.lookup label = some b) h.successors
    op.successors
  resultTypes : op.resultTypes = Ty.canonicalList h.resultTypes
  results : op.results.length = op.resultTypes.length
  attrs : op.attrs = Resolve.attributes h

mutual

/-- The tree is what is written, read in the scope. -/
def SourceOp.Means (scope : Scope) : SourceOp → OpTree → Prop
  | .mk h regions, .node _ op trees => h.Means scope op ∧ SourceRegion.AllMean scope regions trees

def SourceRegion.Means (scope : Scope) : SourceRegion → RegionTree → Prop
  | .mk blocks, .node _ trees =>
    SourceBlock.AllMean (scope.enter blocks (trees.map fun t => (t.id, t.args.map Prod.fst))) blocks
      trees

def SourceRegion.AllMean (scope : Scope) : List SourceRegion → List RegionTree → Prop
  | [], [] => True
  | r :: rest, t :: ts => r.Means scope t ∧ SourceRegion.AllMean scope rest ts
  | _, _ => False

def SourceBlock.AllMean (scope : Scope) : List SourceBlock → List BlockTree → Prop
  | [], [] => True
  | .mk _ args ops :: rest, .node _ targs trees :: ts =>
    targs.map Prod.snd = args.map (·.2.canonical) ∧ SourceOp.AllMean scope ops trees ∧
      SourceBlock.AllMean (scope.after ops trees) rest ts
  | _, _ => False

def SourceOp.AllMean (scope : Scope) : List SourceOp → List OpTree → Prop
  | [], [] => True
  | o :: rest, t :: ts =>
    o.Means scope t ∧ SourceOp.AllMean (scope.define o.head.results t.op.results) rest ts
  | _, _ => False

end

theorem SourceOp.Means.placed {scope : Scope} {s : SourceOp} {t : OpTree} (h : s.Means scope t)
    (b : BlockId) : s.Means scope (t.placed b) := by
  obtain ⟨head, regions⟩ := s
  obtain ⟨id, op, trees⟩ := t
  exact ⟨⟨h.1.dialect, h.1.name, h.1.operands, h.1.successors, h.1.resultTypes, h.1.results,
    h.1.attrs⟩, h.2⟩

end RegionIR
