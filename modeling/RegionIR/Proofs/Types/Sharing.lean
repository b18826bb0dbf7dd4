import Mathlib.Data.List.Induction
import RegionIR.Proofs.Types.Interning

/-! Types that are put in one after the other share what is equal in them.

A request compares one level of a type with the entries: the numbers in it, not the trees that these
stand for. If each type mentions only numbers that were given before it, one level is enough. A number
then stands for one tree and a tree for one number, and the components of an entry come before it. -/

namespace RegionIR

namespace Table

variable {α : Type} [DecidableEq α] {table : Table α} {a b : α}

theorem intern_of_mem (h : a ∈ table.entries) : (table.intern a).1 = table := by
  unfold intern
  split
  · rfl
  · rename_i hnone
    simpa using Array.findIdx?_eq_none_iff.mp hnone a h

theorem intern_of_not_mem (h : a ∉ table.entries) :
    table.intern a = (⟨table.entries.push a⟩, table.entries.size) := by
  have hnone : table.entries.findIdx? (· = a) = none := by
    refine Array.findIdx?_eq_none_iff.mpr fun b hb => ?_
    have hne : b ≠ a := fun hba => h (hba ▸ hb)
    simpa using hne
  simp only [intern, hnone]

theorem mem_intern : b ∈ (table.intern a).1.entries ↔ b ∈ table.entries ∨ b = a := by
  by_cases h : a ∈ table.entries
  · rw [intern_of_mem h]
    refine ⟨.inl, ?_⟩
    rintro (hb | rfl)
    · exact hb
    · exact h
  · rw [intern_of_not_mem h, Array.mem_push]

theorem size_intern : (table.intern a).1.entries.size =
    table.entries.size + if a ∈ table.entries then 0 else 1 := by
  by_cases h : a ∈ table.entries
  · rw [intern_of_mem h, if_pos h, Nat.add_zero]
  · rw [intern_of_not_mem h, if_neg h, Array.size_push]

theorem lt_size_intern_iff {i : Nat} : i < (table.intern a).1.entries.size ↔
    i < table.entries.size ∨ i = (table.intern a).2 := by
  by_cases h : a ∈ table.entries
  · have hgiven : (table.intern a).2 < table.entries.size := by
      have hentry := table.getElem?_intern a
      rw [intern_of_mem h] at hentry
      exact (Array.getElem?_eq_some_iff.mp hentry).1
    rw [intern_of_mem h]
    omega
  · rw [intern_of_not_mem h, Array.size_push]
    omega

end Table

namespace TypeTable

variable {nodes : List TypeNode} {node : TypeNode} {i j : Nat}

/-- The table that the types make of the empty one. -/
def ofNodes (nodes : List TypeNode) : TypeTable :=
  (internAll Table.intern {} nodes).1

/-- The numbers that the types are given, in order. -/
def numbers (nodes : List TypeNode) : List Nat :=
  (internAll Table.intern {} nodes).2

theorem internAll_append {α β : Type} (f : TypeTable → β → TypeTable × α) (table : TypeTable)
    (bs bs' : List β) : table.internAll f (bs ++ bs') =
      (((table.internAll f bs).1.internAll f bs').1,
        (table.internAll f bs).2 ++ ((table.internAll f bs).1.internAll f bs').2) := by
  induction bs generalizing table with
  | nil => rfl
  | cons b bs ih => simp only [List.cons_append, internAll, ih]

theorem ofNodes_concat (nodes : List TypeNode) (node : TypeNode) :
    ofNodes (nodes ++ [node]) = ((ofNodes nodes).intern node).1 := by
  simp only [ofNodes, internAll_append, internAll]

theorem numbers_concat (nodes : List TypeNode) (node : TypeNode) :
    numbers (nodes ++ [node]) = numbers nodes ++ [((ofNodes nodes).intern node).2] := by
  simp only [numbers, ofNodes, internAll_append, internAll]

theorem mem_ofNodes : node ∈ (ofNodes nodes).entries ↔ node ∈ nodes := by
  induction nodes using List.reverseRecOn with
  | nil => simp [ofNodes, internAll]
  | append_singleton nodes new ih =>
    rw [ofNodes_concat, Table.mem_intern, ih, List.mem_append, List.mem_singleton]

theorem mem_numbers : i ∈ numbers nodes ↔ i < (ofNodes nodes).entries.size := by
  induction nodes using List.reverseRecOn with
  | nil => simp [numbers, ofNodes, internAll]
  | append_singleton nodes new ih =>
    rw [ofNodes_concat, numbers_concat, Table.lt_size_intern_iff, List.mem_append, ih,
      List.mem_singleton]

theorem forall₂_numbers (nodes : List TypeNode) :
    List.Forall₂ (fun i node => (ofNodes nodes).entries[i]? = some node) (numbers nodes) nodes := by
  induction nodes using List.reverseRecOn with
  | nil => exact .nil
  | append_singleton nodes new ih =>
    rw [ofNodes_concat, numbers_concat]
    refine List.rel_append (ih.imp fun i node => Table.getElem?_intern_of_some new) ?_
    exact .cons (Table.getElem?_intern _ new) .nil

/-- Each type mentions only numbers that were given before it. -/
def InTurn (nodes : List TypeNode) : Prop :=
  ∀ k (hk : k < nodes.length), ∀ j ∈ nodes[k].components, j ∈ numbers (nodes.take k)

instance : Decidable (InTurn nodes) :=
  inferInstanceAs
    (Decidable (∀ k (hk : k < nodes.length), ∀ j ∈ nodes[k].components, j ∈ numbers (nodes.take k)))

theorem inTurn_concat_iff : InTurn (nodes ++ [node]) ↔
    InTurn nodes ∧ ∀ j ∈ node.components, j ∈ numbers nodes := by
  constructor
  · intro h
    constructor
    · intro k hk
      have hlast := h k (by rw [List.length_append]; omega)
      rwa [List.getElem_append_left hk, List.take_append_of_le_length (Nat.le_of_lt hk)] at hlast
    · have hlast := h nodes.length (by simp)
      simpa using hlast
  · rintro ⟨h, hnode⟩ k hk
    rw [List.length_append, List.length_singleton, Nat.lt_succ_iff_lt_or_eq] at hk
    rcases hk with hk | rfl
    · rw [List.getElem_append_left hk, List.take_append_of_le_length (Nat.le_of_lt hk)]
      exact h k hk
    · simpa using hnode

theorem InTurn.built (h : InTurn nodes) : (ofNodes nodes).Built := by
  induction nodes using List.reverseRecOn with
  | nil => exact .refl
  | append_singleton nodes node ih =>
    obtain ⟨hnodes, hnode⟩ := inTurn_concat_iff.mp h
    rw [ofNodes_concat]
    exact (ih hnodes).tail ⟨node, fun j hj => mem_numbers.mp (hnode j hj), rfl⟩

/-- The entry `j` is a component of the entry `i`. -/
def Mentions (table : TypeTable) (j i : Nat) : Prop :=
  ∃ node, table.entries[i]? = some node ∧ j ∈ node.components

/-- What a table of types that are put in one after the other keeps. -/
structure Sharing (nodes : List TypeNode) : Prop where
  /-- A type stands where its number says, and every entry has been given as a number. -/
  holds : List.Forall₂ (fun i node => (ofNodes nodes).entries[i]? = some node) (numbers nodes) nodes
  given : ∀ i, i ∈ numbers nodes ↔ i < (ofNodes nodes).entries.size
  /-- Components come before the types that mention them, so that every descent ends. -/
  below : ∀ i j, (ofNodes nodes).Mentions j i → j < i
  descent : WellFounded (ofNodes nodes).Mentions
  distinct : ∀ (i j : Nat) (node : TypeNode), (ofNodes nodes).entries[i]? = some node →
    (ofNodes nodes).entries[j]? = some node → i = j
  /-- A number unfolds to one tree, and two numbers to the same one only if they are equal. -/
  unfolds : ∀ i t, (ofNodes nodes).tree i = some t ↔
    ∃ node, (ofNodes nodes).entries[i]? = some node ∧ node.toTy (ofNodes nodes).tree = some t
  exists_tree : ∀ i ∈ numbers nodes, ∃ t, (ofNodes nodes).tree i = some t
  eq_iff : ∀ i ∈ numbers nodes, ∀ j ∈ numbers nodes,
    i = j ↔ (ofNodes nodes).tree i = (ofNodes nodes).tree j
  /-- No request changes an entry, and it adds one exactly when the type is new. -/
  keeps : ∀ k < nodes.length, ∀ (i : Nat) (node : TypeNode),
    (ofNodes (nodes.take k)).entries[i]? = some node →
      (ofNodes (nodes.take (k + 1))).entries[i]? = some node
  size : ∀ k (hk : k < nodes.length), (ofNodes (nodes.take (k + 1))).entries.size =
    (ofNodes (nodes.take k)).entries.size + if nodes[k] ∈ nodes.take k then 0 else 1

/-- Numbers are equal exactly when the types that they stand for are, with everything in them. -/
theorem sharing_of_inTurn (h : InTurn nodes) : Sharing nodes := by
  have ho : (ofNodes nodes).Ordered := h.built.ordered
  have hbelow (i j : Nat) (hij : (ofNodes nodes).Mentions j i) : j < i := by
    obtain ⟨node, hnode, hj⟩ := hij
    exact ho.below i node hnode j hj
  have htree (i : Nat) (hi : i ∈ numbers nodes) : ∃ t, (ofNodes nodes).tree i = some t :=
    ho.exists_tree (mem_numbers.mp hi)
  have hstep (k : Nat) (hk : k < nodes.length) :
      ofNodes (nodes.take (k + 1)) = ((ofNodes (nodes.take k)).intern nodes[k]).1 := by
    rw [List.take_succ_eq_append_getElem hk, ofNodes_concat]
  refine {
    holds := forall₂_numbers nodes
    given := fun _ => mem_numbers
    below := hbelow
    descent := Subrelation.wf (hbelow _ _) Nat.lt_wfRel.wf
    distinct := ho.distinct
    unfolds := fun _ _ => ho.tree_eq_some_iff
    exists_tree := htree
    eq_iff := fun i hi j _ => ⟨fun hij => hij ▸ rfl, fun heq => ?_⟩
    keeps := fun k hk i node hentry => ?_
    size := fun k hk => ?_ }
  · obtain ⟨t, ht⟩ := htree i hi
    exact ho.tree_inj ht (heq ▸ ht)
  · rw [hstep k hk]
    exact Table.getElem?_intern_of_some _ hentry
  · rw [hstep k hk, Table.size_intern]
    simp only [mem_ofNodes]

/-- A pair of pairs with a name, put in twice together with all that is in it. -/
def pairOfPairs : List TypeNode :=
  [⟨"core", "i32", [], []⟩, ⟨"core", "tuple", [0, 0], []⟩, ⟨"core", "i32", [], []⟩,
    ⟨"core", "tuple", [0, 0], []⟩,
    ⟨"adt", "struct", [1], [("fields", .list [.list [.symbol "x", .type 1], .type 0])]⟩,
    ⟨"adt", "struct", [1], [("fields", .list [.list [.symbol "x", .type 1], .type 0])]⟩]

theorem sharing_of_inTurn_pairOfPairs :
    InTurn pairOfPairs ∧ numbers pairOfPairs = [0, 1, 0, 1, 2, 2] ∧ Sharing pairOfPairs :=
  have h : InTurn pairOfPairs := by decide +kernel
  ⟨h, by decide +kernel, sharing_of_inTurn h⟩

end TypeTable

end RegionIR
