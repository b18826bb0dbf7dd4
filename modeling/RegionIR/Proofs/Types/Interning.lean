import Mathlib.Logic.Relation
import RegionIR.Proofs.Types.Canonical

/-! Tables of types that are put in one after the other.

A type can be put in once its components are there. In a table that comes about in this way the
components of an entry stand before it, and no type stands in two places. Every entry has a tree
then, entries with the same tree are the same entry, and no later request changes the tree of
an entry. -/

namespace RegionIR

namespace TypeTable

/-- A type is put in whose components are there. -/
def Puts (table table' : TypeTable) : Prop :=
  ∃ node : TypeNode, (∀ i ∈ node.components, i < table.entries.size) ∧
    table' = (table.intern node).1

/-- Any number of types are put in, each after its components. -/
def Grows : TypeTable → TypeTable → Prop := Relation.ReflTransGen Puts

/-- The table is what requests have made of the empty one. -/
def Built (table : TypeTable) : Prop := Grows {} table

variable {table table' table'' : TypeTable} {i j : Nat} {node : TypeNode} {t : Ty}

theorem Grows.trans (h : table.Grows table') (h' : table'.Grows table'') : table.Grows table'' :=
  Relation.ReflTransGen.trans h h'

theorem Grows.prefix (h : table.Grows table') :
    table.entries.toList <+: table'.entries.toList := by
  induction h with
  | refl => exact List.prefix_rfl
  | tail _ hstep ih =>
    obtain ⟨node, -, rfl⟩ := hstep
    exact ih.trans (Table.prefix_intern _ node)

theorem Grows.entry (h : table.Grows table') (hi : table.entries[i]? = some node) :
    table'.entries[i]? = some node := by
  induction h with
  | refl => exact hi
  | tail _ hstep ih =>
    obtain ⟨new, -, rfl⟩ := hstep
    exact Table.getElem?_intern_of_some new ih

/-- The order and the economy of a table. -/
structure Ordered (table : TypeTable) : Prop where
  below : ∀ (i : Nat) (node : TypeNode), table.entries[i]? = some node →
    ∀ j ∈ node.components, j < i
  distinct : ∀ (i j : Nat) (node : TypeNode), table.entries[i]? = some node →
    table.entries[j]? = some node → i = j

theorem ordered_empty : Ordered {} := by
  constructor <;> simp

theorem getElem?_push_cases {entries : Array TypeNode} {new : TypeNode}
    (h : (entries.push new)[i]? = some node) :
    entries[i]? = some node ∨ i = entries.size ∧ node = new := by
  rw [Array.getElem?_push] at h
  split at h
  · rename_i hi
    exact .inr ⟨hi, (Option.some.inj h).symm⟩
  · exact .inl h

theorem Puts.ordered (h : table.Puts table') (ho : table.Ordered) : table'.Ordered := by
  obtain ⟨new, hnew, rfl⟩ := h
  unfold Table.intern
  split
  · exact ho
  · rename_i hnone
    have habsent (k : Nat) (hk : table.entries[k]? = some new) : False := by
      have hmem : new ∈ table.entries := Array.mem_of_getElem? hk
      simpa using Array.findIdx?_eq_none_iff.mp hnone new hmem
    constructor
    · intro i node hi
      obtain hold | ⟨rfl, rfl⟩ := getElem?_push_cases hi
      · exact ho.below i node hold
      · exact hnew
    · intro i j node hi hj
      obtain hi | ⟨hi, hnode⟩ := getElem?_push_cases hi
      · obtain hj | ⟨-, hnode⟩ := getElem?_push_cases hj
        · exact ho.distinct i j node hi hj
        · exact (habsent i (hnode ▸ hi)).elim
      · obtain hj | ⟨hj, -⟩ := getElem?_push_cases hj
        · exact (habsent j (hnode ▸ hj)).elim
        · rw [hi, hj]

theorem Grows.ordered (h : table.Grows table') (ho : table.Ordered) : table'.Ordered := by
  induction h with
  | refl => exact ho
  | tail _ hstep ih => exact hstep.ordered ih

theorem Built.ordered (h : table.Built) : table.Ordered :=
  Grows.ordered h ordered_empty

/-! Trees. -/

theorem treeWithin_succ_eq_some_iff {depth : Nat} : table.treeWithin (depth + 1) i = some t ↔
    ∃ node, table.entries[i]? = some node ∧ node.toTy (table.treeWithin depth) = some t := by
  rw [treeWithin, Option.bind_eq_bind, Option.bind_eq_some_iff]

theorem treeWithin_succ {depth : Nat} (h : table.treeWithin depth i = some t) :
    table.treeWithin (depth + 1) i = some t := by
  induction depth generalizing i t with
  | zero => simp [treeWithin] at h
  | succ depth ih =>
    obtain ⟨node, hnode, ht⟩ := treeWithin_succ_eq_some_iff.mp h
    exact treeWithin_succ_eq_some_iff.mpr ⟨node, hnode, TypeNode.toTy_mono (fun _ _ => ih) ht⟩

theorem treeWithin_of_le {depth depth' : Nat} (hle : depth ≤ depth')
    (h : table.treeWithin depth i = some t) : table.treeWithin depth' i = some t := by
  induction hle with
  | refl => exact h
  | step _ ih => exact treeWithin_succ ih

theorem Grows.treeWithin {depth : Nat} (hg : table.Grows table')
    (h : table.treeWithin depth i = some t) : table'.treeWithin depth i = some t := by
  induction depth generalizing i t with
  | zero => simp [TypeTable.treeWithin] at h
  | succ depth ih =>
    obtain ⟨node, hnode, ht⟩ := treeWithin_succ_eq_some_iff.mp h
    exact treeWithin_succ_eq_some_iff.mpr
      ⟨node, hg.entry hnode, TypeNode.toTy_mono (fun _ _ => ih) ht⟩

theorem Grows.tree (hg : table.Grows table') (h : table.tree i = some t) :
    table'.tree i = some t :=
  hg.treeWithin h

/-- What stands for something does so while the table grows. -/
def Kept {α β : Type} (R : TypeTable → α → β → Prop) : Prop :=
  ∀ ⦃table table' a b⦄, table.Grows table' → R table a b → R table' a b

theorem kept_standsWithin (depth : Nat) : Kept fun table i t => table.treeWithin depth i = some t :=
  fun _ _ _ _ => Grows.treeWithin

/-- The entry stands for the tree. -/
abbrev Stands (table : TypeTable) (i : Nat) (t : Ty) : Prop := table.tree i = some t

theorem kept_stands : Kept Stands :=
  fun _ _ _ _ => Grows.tree

section Kept

variable {f : TypeTable → Nat → Option Ty} (hf : Kept fun table i t => f table i = some t)
include hf

theorem kept_attr :
    Kept fun table (b : Attr Nat) (a : Attr Ty) => b.mapTypesM (f table) = some a :=
  fun _ _ _ _ hgrows => Attr.mapTypesM_mono (fun _ _ => hf hgrows) _ _

theorem kept_entry : Kept fun table (e : String × Attr Nat) (e' : String × Attr Ty) =>
    e'.1 = e.1 ∧ e.2.mapTypesM (f table) = some e'.2 :=
  fun _ _ _ _ hgrows h => ⟨h.1, kept_attr hf hgrows h.2⟩

end Kept

theorem lt_size_of_tree (h : table.tree i = some t) : i < table.entries.size := by
  obtain ⟨node, hnode, -⟩ := treeWithin_succ_eq_some_iff.mp h
  exact (Array.getElem?_eq_some_iff.mp hnode).1

namespace Ordered

variable (ho : table.Ordered)
include ho

theorem exists_tree (hi : i < table.entries.size) : ∃ t, table.tree i = some t := by
  induction i using Nat.strongRecOn with
  | ind i ih =>
    have hnode := Array.getElem?_eq_getElem hi
    have hcomponents (j : Nat) (hj : j ∈ table.entries[i].components) :
        ∃ u, table.treeWithin i j = some u := by
      have hlt := ho.below i _ hnode j hj
      obtain ⟨u, hu⟩ := ih j hlt (Nat.lt_trans hlt hi)
      exact ⟨u, treeWithin_of_le hlt hu⟩
    obtain ⟨t, ht⟩ := TypeNode.exists_toTy hcomponents
    exact ⟨t, treeWithin_succ_eq_some_iff.mpr ⟨_, hnode, ht⟩⟩

theorem tree_of_treeWithin {depth : Nat} (h : table.treeWithin depth i = some t) :
    table.tree i = some t := by
  have hi : i < table.entries.size := by
    cases depth with
    | zero => simp [treeWithin] at h
    | succ depth =>
      obtain ⟨node, hnode, -⟩ := treeWithin_succ_eq_some_iff.mp h
      exact (Array.getElem?_eq_some_iff.mp hnode).1
  obtain ⟨u, hu⟩ := ho.exists_tree hi
  have hmax := treeWithin_of_le (Nat.le_max_left depth (i + 1)) h
  rw [treeWithin_of_le (Nat.le_max_right depth (i + 1)) hu] at hmax
  exact hmax ▸ hu

/-- An entry unfolds if its components do, for the size of the table is room enough for all of them. -/
theorem tree_eq_some_iff : table.tree i = some t ↔
    ∃ node, table.entries[i]? = some node ∧ node.toTy table.tree = some t := by
  constructor
  · intro h
    obtain ⟨node, hnode, ht⟩ := treeWithin_succ_eq_some_iff.mp h
    exact ⟨node, hnode, TypeNode.toTy_mono (fun _ _ => ho.tree_of_treeWithin) ht⟩
  · rintro ⟨node, hnode, ht⟩
    have hroom (j : Nat) (u : Ty) (hu : table.tree j = some u) :
        table.treeWithin table.entries.size j = some u :=
      treeWithin_of_le (lt_size_of_tree hu) hu
    exact ho.tree_of_treeWithin
      (treeWithin_succ_eq_some_iff.mpr ⟨node, hnode, TypeNode.toTy_mono hroom ht⟩)

theorem treeWithin_inj {depth : Nat} (h : table.treeWithin depth i = some t)
    (h' : table.treeWithin depth j = some t) : i = j := by
  induction depth generalizing i j t with
  | zero => simp [treeWithin] at h
  | succ depth ih =>
    obtain ⟨node, hnode, ht⟩ := treeWithin_succ_eq_some_iff.mp h
    obtain ⟨node', hnode', ht'⟩ := treeWithin_succ_eq_some_iff.mp h'
    obtain rfl := TypeNode.toTy_inj (fun _ _ _ => ih) ht ht'
    exact ho.distinct i j node hnode hnode'

theorem tree_inj (h : table.tree i = some t) (h' : table.tree j = some t) : i = j :=
  ho.treeWithin_inj (treeWithin_of_le (Nat.le_max_left (i + 1) (j + 1)) h)
    (treeWithin_of_le (Nat.le_max_right (i + 1) (j + 1)) h')

end Ordered

/-! Trees that are put in. -/

theorem intern_spec (ho : table.Ordered) (ht : node.toTy table.tree = some t) :
    table.Grows (table.intern node).1 ∧
      tree (table.intern node).1 (table.intern node).2 = some t := by
  have hputs : table.Puts (table.intern node).1 := by
    refine ⟨node, fun j hj => ?_, rfl⟩
    obtain ⟨u, hu⟩ := TypeNode.exists_of_mem_components ht j hj
    exact lt_size_of_tree hu
  have hgrows : table.Grows (table.intern node).1 := .single hputs
  exact ⟨hgrows, (hputs.ordered ho).tree_eq_some_iff.mpr
    ⟨node, table.getElem?_intern node, TypeNode.toTy_mono (fun _ _ => hgrows.tree) ht⟩⟩

/-- One after the other, things are put in with `f`. -/
def internAll {α β : Type} (f : TypeTable → β → TypeTable × α) (table : TypeTable) :
    List β → TypeTable × List α
  | [] => (table, [])
  | b :: bs =>
    let (table, a) := f table b
    let (table, as) := internAll f table bs
    (table, a :: as)

theorem internTrees_eq (ts : List Ty) : table.internTrees ts = table.internAll internTree ts := by
  induction ts generalizing table with
  | nil => rfl
  | cons t ts ih => simp only [internTrees, internAll, ih]

/-- An entry of a dictionary with the types in it put in. -/
def internEntry (table : TypeTable) (e : String × Attr Ty) : TypeTable × (String × Attr Nat) :=
  let (table, a) := table.internAttr e.2
  (table, (e.1, a))

theorem internEntries_eq (as : List (String × Attr Ty)) :
    table.internEntries as = table.internAll internEntry as := by
  induction as generalizing table with
  | nil => rfl
  | cons e as ih => simp only [internEntries, internAll, internEntry, ih]

theorem internAttrs_eq (items : List (Attr Ty)) :
    table.internAttrs items = table.internAll internAttr items := by
  induction items generalizing table with
  | nil => rfl
  | cons a items ih => simp only [internAttrs, internAll, ih]

theorem internAll_spec {α β γ : Type} {R : TypeTable → α → γ → Prop} (hR : Kept R)
    {f : TypeTable → β → TypeTable × α} {g : β → γ} {bs : List β}
    (h : ∀ b ∈ bs, ∀ {table : TypeTable}, table.Ordered →
      table.Grows (f table b).1 ∧ R (f table b).1 (f table b).2 (g b)) (ho : table.Ordered) :
    table.Grows (table.internAll f bs).1 ∧
      List.Forall₂ (R (table.internAll f bs).1) (table.internAll f bs).2 (bs.map g) := by
  induction bs generalizing table with
  | nil => exact ⟨.refl, .nil⟩
  | cons b bs ih =>
    rw [List.forall_mem_cons] at h
    obtain ⟨hgrows, hb⟩ := h.1 ho
    obtain ⟨hgrows', hbs⟩ := ih h.2 (hgrows.ordered ho)
    exact ⟨hgrows.trans hgrows', .cons (hR hgrows' hb) hbs⟩

/-- The number of a type stands for its canonical form, and to get it types are only put in. -/
theorem internTree_spec (t : Ty) (ho : table.Ordered) :
    table.Grows (table.internTree t).1 ∧
      (table.internTree t).1.tree (table.internTree t).2 = some t.canonical := by
  revert ho
  refine Ty.forall_of
    (P := fun t => ∀ {table : TypeTable}, table.Ordered → table.Grows (table.internTree t).1 ∧
      (table.internTree t).1.tree (table.internTree t).2 = some t.canonical)
    (Q := fun a => ∀ {table : TypeTable}, table.Ordered → table.Grows (table.internAttr a).1 ∧
      (table.internAttr a).2.mapTypesM (table.internAttr a).1.tree = some (Ty.canonicalAttr a))
    ?_ ?_ ?_ ?_ t
  · intro d n ps as hps has table ho
    obtain ⟨hgrows, hparams⟩ := internAll_spec kept_stands hps ho
    have hentries := internAll_spec (kept_entry kept_stands) (f := internEntry)
      (g := fun (e : String × Attr Ty) => (e.1, Ty.canonicalAttr e.2))
      (fun e (he : e ∈ as) _ ho => ⟨(has e he ho).1, rfl, (has e he ho).2⟩) (hgrows.ordered ho)
    rw [← internEntries_eq, ← internTrees_eq] at hentries
    rw [← internTrees_eq] at hgrows hparams
    obtain ⟨hgrows', hattrs⟩ := hentries
    have hattrs' : Dict.Corresponds (fun (b : Attr Nat) a => b.mapTypesM _ = some a) _ _ := hattrs
    have hnode : TypeNode.toTy _ ⟨d, n, _, _⟩ = some _ := TypeNode.toTy_eq_some_iff.mpr
      ⟨_, _, rfl, hparams.imp fun _ _ => kept_stands hgrows', hattrs'.ofEntries⟩
    have hentry := intern_spec (hgrows'.ordered (hgrows.ordered ho)) hnode
    rw [Ty.canonical, Ty.canonicalList_eq_map, Ty.canonicalEntries_eq_map]
    exact ⟨hgrows.trans (hgrows'.trans hentry.1), hentry.2⟩
  · intro t ht table ho
    obtain ⟨hgrows, htree⟩ := ht ho
    exact ⟨hgrows, Attr.mapTypesM_eq_some_type_iff.mpr ⟨_, rfl, htree⟩⟩
  · intro items hitems table ho
    obtain ⟨hgrows, hall⟩ := internAll_spec (kept_attr kept_stands) hitems ho
    rw [← internAttrs_eq] at hgrows hall
    rw [Ty.canonicalAttr, Ty.canonicalAttrs_eq_map]
    exact ⟨hgrows, Attr.mapTypesM_eq_some_list_iff.mpr ⟨_, rfl, hall⟩⟩
  · intro a ht hl table ho
    cases a <;> simp [Attr.asType, Attr.asList] at ht hl <;> exact ⟨.refl, rfl⟩

theorem Built.internTree (h : table.Built) (t : Ty) : Built (table.internTree t).1 :=
  Grows.trans h (internTree_spec t h.ordered).1

end TypeTable

end RegionIR
