import RegionIR.Ty.Equality

/-! Tables that give equal things one number.

A table keeps what was put in, each thing once, in the order of first appearance. A type
table keeps types one level at a time: the parameters and attributes of an entry refer to
other entries. -/

namespace RegionIR

/-- Distinct things, numbered from zero. -/
structure Table (α : Type) where
  entries : Array α := #[]

namespace Table

variable {α : Type} [DecidableEq α]

/-- The number of `a`, which is added at the end if it is new. -/
def intern (table : Table α) (a : α) : Table α × Nat :=
  match table.entries.findIdx? (· = a) with
  | some i => (table, i)
  | none => (⟨table.entries.push a⟩, table.entries.size)

/-- What is put in is found under its number. -/
theorem getElem?_intern (table : Table α) (a : α) :
    (table.intern a).1.entries[(table.intern a).2]? = some a := by
  unfold intern
  split
  · rename_i i h
    obtain ⟨hi, ha, -⟩ := Array.findIdx?_eq_some_iff_getElem.1 h
    rw [Array.getElem?_eq_getElem hi]
    simpa using ha
  · simp

/-- What was put in before keeps its number. -/
theorem getElem?_intern_of_some {table : Table α} {i : Nat} {b : α} (a : α)
    (h : table.entries[i]? = some b) : (table.intern a).1.entries[i]? = some b := by
  unfold intern
  split
  · exact h
  · obtain ⟨hi, hb⟩ := Array.getElem?_eq_some_iff.1 h
    rw [Array.getElem?_push_lt hi, hb]

/-- Nothing that was put in is moved. -/
theorem prefix_intern (table : Table α) (a : α) :
    table.entries.toList <+: (table.intern a).1.entries.toList := by
  unfold intern
  split
  · exact List.prefix_rfl
  · rw [Array.toList_push]
    exact List.prefix_append _ _

end Table

/-- A type whose components are entries of a table. -/
structure TypeNode where
  dialect : String
  name : String
  params : List Nat
  attrs : Dict (Attr Nat)
  deriving DecidableEq

namespace TypeNode

/-- Whether the type is called `dialect.name`. -/
def is (node : TypeNode) (dialect name : String) : Bool :=
  node.dialect == dialect && node.name == name

/-- The numbers that the type mentions. -/
def components (node : TypeNode) : List Nat :=
  node.params ++ node.attrs.flatMap fun e => e.2.types

/-- The tree of the type, given what the numbers in it stand for. -/
def toTy (f : Nat → Option Ty) (node : TypeNode) : Option Ty := do
  let params ← node.params.mapM f
  let attrs ← node.attrs.mapM fun e => do return (e.1, ← e.2.mapTypesM f)
  return .mk node.dialect node.name params attrs

end TypeNode

/-- Types by number. -/
abbrev TypeTable := Table TypeNode

namespace TypeTable

/-- The tree of an entry in which at most `depth` types are nested in each other. -/
def treeWithin (table : TypeTable) : (depth : Nat) → Nat → Option Ty
  | 0, _ => none
  | depth + 1, i => do
    let node ← table.entries[i]?
    node.toTy (table.treeWithin depth)

/-- The tree of an entry. A type comes after its components, so that its number bounds
how many types are nested in it. -/
def tree (table : TypeTable) (i : Nat) : Option Ty :=
  table.treeWithin (i + 1) i

mutual

/-- The number of a type as it is written; its components come before it. Every type that
is mentioned gets a number, also one in an entry that a later entry for its key overrides. -/
def internTree (table : TypeTable) : Ty → TypeTable × Nat
  | .mk dialect name params attrs =>
    let (table, params) := internTrees table params
    let (table, attrs) := internEntries table attrs
    table.intern ⟨dialect, name, params, Dict.ofEntries attrs⟩

def internTrees (table : TypeTable) : List Ty → TypeTable × List Nat
  | [] => (table, [])
  | t :: rest =>
    let (table, i) := internTree table t
    let (table, is) := internTrees table rest
    (table, i :: is)

def internEntries (table : TypeTable) : List (String × Attr Ty) →
    TypeTable × List (String × Attr Nat)
  | [] => (table, [])
  | (key, a) :: rest =>
    let (table, b) := internAttr table a
    let (table, bs) := internEntries table rest
    (table, (key, b) :: bs)

def internAttr (table : TypeTable) : Attr Ty → TypeTable × Attr Nat
  | .type t => let (table, i) := internTree table t; (table, .type i)
  | .list items => let (table, bs) := internAttrs table items; (table, .list bs)
  | .unit => (table, .unit)
  | .bool b => (table, .bool b)
  | .int bits => (table, .int bits)
  | .float bits => (table, .float bits)
  | .string s => (table, .string s)
  | .symbol s => (table, .symbol s)

def internAttrs (table : TypeTable) : List (Attr Ty) → TypeTable × List (Attr Nat)
  | [] => (table, [])
  | a :: rest =>
    let (table, b) := internAttr table a
    let (table, bs) := internAttrs table rest
    (table, b :: bs)

end

mutual

/-- The types that are put in with a type come after those that were there. -/
theorem prefix_internTree (table : TypeTable) :
    ∀ t : Ty, table.entries.toList <+: (table.internTree t).1.entries.toList
  | .mk dialect name params attrs => by
    unfold internTree
    exact ((prefix_internTrees table params).trans (prefix_internEntries _ attrs)).trans
      (Table.prefix_intern _ _)

theorem prefix_internTrees (table : TypeTable) :
    ∀ ts : List Ty, table.entries.toList <+: (table.internTrees ts).1.entries.toList
  | [] => List.prefix_rfl
  | t :: rest => (prefix_internTree table t).trans (prefix_internTrees _ rest)

theorem prefix_internEntries (table : TypeTable) : ∀ entries : List (String × Attr Ty),
    table.entries.toList <+: (table.internEntries entries).1.entries.toList
  | [] => List.prefix_rfl
  | (_, a) :: rest => (prefix_internAttr table a).trans (prefix_internEntries _ rest)

theorem prefix_internAttr (table : TypeTable) :
    ∀ a : Attr Ty, table.entries.toList <+: (table.internAttr a).1.entries.toList
  | .type t => prefix_internTree table t
  | .list items => prefix_internAttrs table items
  | .unit | .bool _ | .int _ | .float _ | .string _ | .symbol _ => List.prefix_rfl

theorem prefix_internAttrs (table : TypeTable) :
    ∀ as : List (Attr Ty), table.entries.toList <+: (table.internAttrs as).1.entries.toList
  | [] => List.prefix_rfl
  | a :: rest => (prefix_internAttr table a).trans (prefix_internAttrs _ rest)

end

end TypeTable

end RegionIR
