import RegionIR.Proofs.Context.Lookup
import RegionIR.Proofs.Types.Conversion
import RegionIR.Proofs.Types.Interning

/-! Conversion in a table is conversion of trees.

If every conversion of entries does to trees what a conversion of types does, then the converter
of the table finds legal what the converter of types finds legal, gives an entry with the converted
tree, and fails where the other fails. All it does to the table is to put types in. -/

namespace RegionIR

namespace Interning

open TypeTable

variable {α β γ δ : Type}

/-- The action ends and its answer stands for the expected one, in a table in which it has only
put types. -/
def Yields (R : TypeTable → α → β → Prop) (table : TypeTable) (action : Interning α)
    (expected : Option β) : Prop :=
  ∃ answer table', action.run.run table = .ok (answer, table') ∧ table.Grows table' ∧
    Option.Rel (R table') answer expected

variable {R : TypeTable → α → β → Prop} {S : TypeTable → γ → δ → Prop} {table : TypeTable}

theorem yields_pure {a : α} {b : β} (h : R table a b) : Yields R table (pure a) (some b) :=
  ⟨some a, table, rfl, .refl, .some h⟩

theorem run_bind_some {action : Interning α} {k : α → Interning γ} {table' : TypeTable} {a : α}
    (h : action.run.run table = .ok (some a, table')) :
    (action >>= k).run.run table = (k a).run.run table' := by
  simp [OptionT.run_bind, Option.elimM, StateT.run_bind, h]

theorem run_bind_none {action : Interning α} {k : α → Interning γ} {table' : TypeTable}
    (h : action.run.run table = .ok (none, table')) :
    (action >>= k).run.run table = .ok (none, table') := by
  simp [OptionT.run_bind, Option.elimM, StateT.run_bind, h]

theorem Yields.bind {action : Interning α} {expected : Option β} {k : α → Interning γ}
    {l : β → Option δ} (h : Yields R table action expected)
    (hk : ∀ table' a b, table.Grows table' → R table' a b → Yields S table' (k a) (l b)) :
    Yields S table (action >>= k) (expected >>= l) := by
  obtain ⟨answer, table', hrun, hgrows, hrel⟩ := h
  cases hrel with
  | none => exact ⟨none, table', run_bind_none hrun, hgrows, .none⟩
  | some hab =>
    obtain ⟨answer', table'', hrun', hgrows', hrel'⟩ := hk table' _ _ hgrows hab
    exact ⟨answer', table'', (run_bind_some hrun).trans hrun', hgrows.trans hgrows', hrel'⟩

theorem Yields.andThen {action : Interning α} {b : β} {k : α → Interning γ} {expected : Option δ}
    (h : Yields R table action (some b))
    (hk : ∀ table' a, table.Grows table' → R table' a b → Yields S table' (k a) expected) :
    Yields S table (action >>= k) expected := by
  obtain ⟨answer, table', hrun, hgrows, hrel⟩ := h
  cases hrel with
  | some hab =>
    obtain ⟨answer', table'', hrun', hgrows', hrel'⟩ := hk table' _ hgrows hab
    exact ⟨answer', table'', (run_bind_some hrun).trans hrun', hgrows.trans hgrows', hrel'⟩

theorem yields_get {k : TypeTable → Interning γ} {expected : Option δ}
    (h : Yields S table (k table) expected) : Yields S table (get >>= k) expected :=
  h

theorem yields_lift {x : Except Fault α} {a : α} {k : α → Interning γ} {expected : Option δ}
    (hx : x = .ok a) (h : Yields S table (k a) expected) :
    Yields S table (liftM x >>= k) expected := by
  subst hx
  exact h

theorem Yields.mapM {f : α → Interning γ} {g : β → Option δ} {as : List α} {bs : List β}
    (hR : Kept R) (hS : Kept S) (has : List.Forall₂ (R table) as bs)
    (hf : ∀ b ∈ bs, ∀ table' a, table.Grows table' → R table' a b → Yields S table' (f a) (g b)) :
    Yields (fun table' => List.Forall₂ (S table')) table (as.mapM f) (bs.mapM g) := by
  induction as generalizing bs table with
  | nil =>
    obtain rfl := List.forall₂_nil_left_iff.mp has
    rw [List.mapM_nil, List.mapM_nil]
    exact yields_pure .nil
  | cons a as ih =>
    obtain ⟨b, bs, hab, htail, rfl⟩ := List.forall₂_cons_left_iff.mp has
    rw [List.forall_mem_cons] at hf
    rw [List.mapM_cons, List.mapM_cons]
    refine (hf.1 table a .refl hab).bind fun table₁ c d hgrows hcd => ?_
    refine (ih (htail.imp fun _ _ => hR hgrows) fun b hb table' a hgrows' =>
      hf.2 b hb table' a (hgrows.trans hgrows')).bind fun table₂ cs ds hgrows' hcds => ?_
    exact yields_pure (.cons (hS hgrows' hcd) hcds)

end Interning

theorem allM_of_forall₂ {ε α β : Type} {p : α → Except ε Bool} {q : β → Bool} {as : List α}
    {bs : List β} (h : List.Forall₂ (fun a b => p a = .ok (q b)) as bs) :
    as.allM p = .ok (bs.all q) := by
  induction h with
  | nil => rfl
  | cons hab _ ih =>
    rw [List.allM_cons, hab, except_ok_bind, ih, List.all_cons]
    split <;> simp_all

namespace TypeTable

open Interning

variable {table : TypeTable} {i : Nat} {node : TypeNode} {t : Ty}

theorem node_of_entry (h : table.entries[i]? = some node) : table.node i = .ok node := by
  rw [TypeTable.node, h]

theorem yields_put (ho : table.Ordered) (ht : node.toTy table.tree = some t) :
    Yields Stands table (put node) (some t) := by
  obtain ⟨hgrows, htree⟩ := intern_spec ho ht
  exact ⟨_, _, rfl, hgrows, .some htree⟩

theorem yields_rebuild {params : List Nat} {attrs : List (String × Attr Nat)}
    (ho : table.Ordered) (hi : table.entries[i]? = some node)
    (ht : ({ node with params, attrs } : TypeNode).toTy table.tree = some t) :
    Yields Stands table (rebuild i node params attrs) (some t) := by
  unfold rebuild
  split
  · rename_i hsame
    rw [hsame.1, hsame.2] at ht
    exact yields_pure (ho.tree_eq_some_iff.mpr ⟨node, hi, ht⟩)
  · exact yields_put ho ht

end TypeTable

/-- A conversion of entries does to trees what a conversion of types does. -/
structure TableConversion.Implements (conversion : TableConversion) (spec : Conversion) : Prop where
  applies : ∀ {table : TypeTable} {i : Nat} {t : Ty}, table.Ordered → table.tree i = some t →
    conversion.applies table i = .ok (spec.applies t)
  convert : ∀ {table : TypeTable} {i : Nat} {t : Ty}, table.Ordered → table.tree i = some t →
    spec.applies t = true →
    Interning.Yields TypeTable.Stands table (conversion.convert i) (spec.convert t)

namespace TableConverter

open TypeTable Interning

theorem entry_eq (f : Nat → Interning Nat) (e : String × Attr Nat) :
    (if e.2.containsType then do return (e.1, ← e.2.mapTypesM f) else return e : Interning _) =
      do return (e.1, ← e.2.mapTypesM f) := by
  split
  · rfl
  · rename_i hnot
    rw [Attr.mapTypesM_of_not_containsType f e.2 (by simpa using hnot), pure_bind]

/-- Conversion by conversion the converters do the same. -/
def Implements (c : TableConverter) (spec : Converter) : Prop :=
  List.Forall₂ TableConversion.Implements c spec

variable {c : TableConverter} {spec : Converter} {table : TypeTable} {i : Nat} {t : Ty}

theorem convertType_of_isLegalType (h : c.isLegalType table i = .ok true) :
    c.convertType i table = .ok (some i, table) := by
  unfold isLegalType at h
  have hrun : Yields (fun table' j k => table' = table ∧ j = k) table (c.convertWithin (i + 1) i)
      (some i) := yields_get (yields_lift h (yields_pure ⟨rfl, rfl⟩))
  obtain ⟨answer, table', hrun, -, hrel⟩ := hrun
  cases hrel with
  | some hsame =>
    rw [convertType, hrun, hsame.1, hsame.2]

namespace Implements

variable (h : c.Implements spec)
include h

theorem touches (ho : table.Ordered) (ht : table.tree i = some t) :
    c.touches table i = .ok (spec.touches t) := by
  unfold TableConverter.touches Converter.touches
  induction h with
  | nil => rfl
  | cons hfirst _ ih =>
    rw [List.anyM_cons, hfirst.applies ho ht, except_ok_bind, ih, List.any_cons]
    split <;> simp_all

theorem isLegalWithin (t : Ty) : ∀ {table : TypeTable} {depth i : Nat}, table.Ordered →
    table.treeWithin depth i = some t →
    c.isLegalWithin table depth i = .ok (spec.isLegalType t) := by
  refine Ty.forall_of
    (P := fun t => ∀ {table : TypeTable} {depth i : Nat}, table.Ordered →
      table.treeWithin depth i = some t →
      c.isLegalWithin table depth i = .ok (spec.isLegalType t))
    (Q := fun a => ∀ {table : TypeTable} {depth : Nat} {b : Attr Nat}, table.Ordered →
      b.mapTypesM (table.treeWithin depth) = some a →
      b.allTypesM (c.isLegalWithin table depth) = .ok (spec.isLegalAttr a)) ?_ ?_ ?_ ?_ t
  · intro d n ps as hps has table depth i ho ht
    cases depth with
    | zero => simp [treeWithin] at ht
    | succ depth =>
      have htouches := h.touches ho (ho.tree_of_treeWithin ht)
      obtain ⟨node, hnode, ht⟩ := treeWithin_succ_eq_some_iff.mp ht
      obtain ⟨ps', as', heq, hparams, hattrs⟩ := TypeNode.toTy_eq_some_iff.mp ht
      obtain ⟨-, -, rfl, rfl⟩ := Ty.mk.injEq .. ▸ heq
      have hparams : node.params.allM (c.isLegalWithin table depth) =
          .ok (ps.all spec.isLegalType) :=
        allM_of_forall₂ (forall₂_imp_of_mem hparams fun p hp j hj => hps p hp ho hj)
      have hattrs : (node.attrs.allM fun e => e.2.allTypesM (c.isLegalWithin table depth)) =
          .ok (as.all fun e => spec.isLegalAttr e.2) :=
        allM_of_forall₂ (forall₂_imp_of_mem hattrs fun e he e' he' => has e he ho he'.2)
      simp only [TableConverter.isLegalWithin, htouches, node_of_entry hnode, hparams, hattrs,
        except_ok_bind, Converter.isLegalType, Converter.areLegalTypes_eq,
        Converter.areLegalEntries_eq]
      cases spec.touches (.mk d n ps as) <;> cases ps.all spec.isLegalType <;> simp
  · intro t ht table depth b ho hb
    obtain ⟨i, rfl, hi⟩ := Attr.mapTypesM_eq_some_type_iff.mp hb
    exact ht ho hi
  · intro items hitems table depth b ho hb
    obtain ⟨bs, rfl, hbs⟩ := Attr.mapTypesM_eq_some_list_iff.mp hb
    rw [Attr.allTypesM, Attr.allItemTypesM_eq, Converter.isLegalAttr, Converter.areLegalAttrs_eq]
    exact allM_of_forall₂ (forall₂_imp_of_mem hbs fun a ha b hb => hitems a ha ho hb)
  · intro a ht hl table depth b ho hb
    cases b <;> cases a <;>
      simp_all [Attr.mapTypesM, Attr.allTypesM, Converter.isLegalAttr, Attr.asType, Attr.asList,
        Option.bind_eq_some_iff]

theorem applicable (ho : table.Ordered) (ht : table.tree i = some t) :
    ∃ found, c.applicable table i = .ok found ∧
      Option.Rel (fun first first' => first.Implements first' ∧ first'.applies t = true) found
        (spec.find? fun conversion => conversion.applies t) := by
  unfold TableConverter.applicable
  induction h with
  | nil => exact ⟨none, rfl, .none⟩
  | @cons first first' _ _ hfirst _ ih =>
    simp only [List.findM?, hfirst.applies ho ht, except_ok_bind, List.find?_cons]
    cases happlies : first'.applies t with
    | true => exact ⟨some first, rfl, .some ⟨hfirst, happlies⟩⟩
    | false => exact ih

theorem yields_convertOuter (ho : table.Ordered) (ht : table.tree i = some t) :
    Yields Stands table (c.convertOuter i) (spec.convertOuter t) := by
  obtain ⟨found, hfound, hrel⟩ := h.applicable ho ht
  refine yields_get (yields_lift hfound ?_)
  unfold Converter.convertOuter
  generalize (spec.find? fun conversion => conversion.applies t) = found' at hrel ⊢
  cases hrel with
  | none => exact yields_pure ht
  | some hconversion => exact hconversion.1.convert ho ht hconversion.2

theorem yields_rebuilt {node : TypeNode} {params : List Nat} {attrs : List (String × Attr Nat)}
    {ps : List Ty} {as : List (String × Attr Ty)} (ho : table.Ordered)
    (hnode : table.entries[i]? = some node) (hparams : List.Forall₂ table.Stands params ps)
    (hattrs : Dict.Corresponds (fun b a => b.mapTypesM table.tree = some a) attrs as) :
    Yields Stands table (rebuild i node params attrs >>= c.convertOuter)
      (spec.convertOuter (.mk node.dialect node.name ps as)) :=
  (yields_rebuild ho hnode (TypeNode.toTy_eq_some_iff.mpr ⟨ps, as, rfl, hparams, hattrs⟩)).andThen
    fun _ _ hgrows hj => h.yields_convertOuter (hgrows.ordered ho) hj

theorem yields_convertWithin (t : Ty) : ∀ {table : TypeTable} {depth i : Nat}, table.Ordered →
    table.treeWithin depth i = some t →
    Yields Stands table (c.convertWithin depth i) (spec.convertType t) := by
  refine Ty.forall_of
    (P := fun t => ∀ {table : TypeTable} {depth i : Nat}, table.Ordered →
      table.treeWithin depth i = some t →
      Yields Stands table (c.convertWithin depth i) (spec.convertType t))
    (Q := fun a => ∀ {table : TypeTable} {depth : Nat} {b : Attr Nat}, table.Ordered →
      b.mapTypesM (table.treeWithin depth) = some a →
      Yields (fun table' b' a' => b'.mapTypesM table'.tree = some a') table
        (b.mapTypesM (c.convertWithin depth)) (spec.convertAttr a)) ?_ ?_ ?_ ?_ t
  · intro d n ps as hps has table depth i ho ht
    cases depth with
    | zero => simp [treeWithin] at ht
    | succ depth =>
      have htree := ho.tree_of_treeWithin ht
      refine yields_get (yields_lift (h.isLegalWithin _ ho ht) ?_)
      by_cases hlegal : spec.isLegalType (.mk d n ps as)
      · rw [if_pos hlegal, Converter.convertType_of_legal hlegal]
        exact yields_pure htree
      obtain ⟨node, hnode, ht⟩ := treeWithin_succ_eq_some_iff.mp ht
      obtain ⟨ps', as', heq, hparams, hattrs⟩ := TypeNode.toTy_eq_some_iff.mp ht
      obtain ⟨rfl, rfl, rfl, rfl⟩ := Ty.mk.injEq .. ▸ heq
      rw [if_neg hlegal, Converter.convertType, if_neg hlegal, Converter.convertTypes_eq,
        Converter.convertEntries_eq]
      refine yields_lift (node_of_entry hnode) ?_
      refine (Yields.mapM (kept_standsWithin depth) kept_stands hparams
        fun p hp table' j hgrows hj => hps p hp (hgrows.ordered ho) hj).bind
        fun table₁ params params' hgrows₁ hparams₁ => ?_
      refine (Yields.mapM (kept_entry (kept_standsWithin depth)) (kept_entry kept_stands)
        (hattrs.imp fun _ _ => kept_attr (kept_standsWithin depth) hgrows₁) ?_).bind
        fun table₂ attrs attrs' hgrows₂ hattrs₂ => ?_
      · intro e' he' table' e hgrows he
        simp only [entry_eq]
        refine (has e' he' ((hgrows₁.trans hgrows).ordered ho) he.2).bind
          fun table'' b a _ hb => ?_
        exact yields_pure ⟨he.1, hb⟩
      · exact h.yields_rebuilt (hgrows₂.ordered (hgrows₁.ordered ho))
          (hgrows₂.entry (hgrows₁.entry hnode)) (hparams₁.imp fun _ _ => kept_stands hgrows₂)
          hattrs₂
  · intro t ht table depth b ho hb
    obtain ⟨i, rfl, hi⟩ := Attr.mapTypesM_eq_some_type_iff.mp hb
    refine (ht ho hi).bind fun table' j u _ hj => ?_
    exact yields_pure (Attr.mapTypesM_eq_some_type_iff.mpr ⟨j, rfl, hj⟩)
  · intro items hitems table depth b ho hb
    obtain ⟨bs, rfl, hbs⟩ := Attr.mapTypesM_eq_some_list_iff.mp hb
    rw [Attr.mapTypesM, Attr.mapItemTypesM_eq, Converter.convertAttr, Converter.convertAttrs_eq]
    refine (Yields.mapM (kept_attr (kept_standsWithin depth)) (kept_attr kept_stands) hbs
      fun a ha table' b hgrows hb => hitems a ha (hgrows.ordered ho) hb).bind
      fun table' bs' as' _ hbs' => ?_
    exact yields_pure (Attr.mapTypesM_eq_some_list_iff.mpr ⟨bs', rfl, hbs'⟩)
  · intro a ht hl table depth b ho hb
    rw [(Converter.convertAttr_of_leaf spec ht hl).1,
      Attr.mapTypesM_of_not_containsType _ b (Attr.not_containsType_of_leaf hb ht hl)]
    exact yields_pure ((Attr.mapTypesM_eq_some_leaf_iff ht hl).mp hb)

theorem isLegalType (ho : table.Ordered) (ht : table.tree i = some t) :
    c.isLegalType table i = .ok (spec.isLegalType t) :=
  h.isLegalWithin t ho ht

/-- A conversion in a table ends. It fails if the conversion of the tree fails, and otherwise its
answer is an entry with the converted tree; the table has only grown. -/
theorem convertType (ho : table.Ordered) (ht : table.tree i = some t) :
    ∃ answer table', c.convertType i table = .ok (answer, table') ∧ table.Grows table' ∧
      Option.Rel table'.Stands answer (spec.convertType t) :=
  h.yields_convertWithin t ho ht

end Implements

end TableConverter

end RegionIR
