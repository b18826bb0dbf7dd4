import RegionIR.Proofs.Types.TableConversion

/-! Tuple types in a table become struct types.

The conversion of an entry is the substitution of structs for tuples in its tree, from the inside
out and at every depth. Apart from types that are called like the structs that come from tuples, and
from tuples with attributes, it keeps different types apart. -/

namespace RegionIR

mutual

/-- The type in which every tuple, from the inside out, is replaced by a struct with a field for
each element. -/
def Ty.replaceTuples : Ty → Ty
  | .mk d n ps as =>
    if d = "core" ∧ n = "tuple" then
      .mk "adt" "struct" []
        [("fields", .list ((Ty.replaceTuplesList ps).mapIdx fun i t =>
          .list [.symbol ("elemet_" ++ Nat.repr i), .type t])),
         ("name", .symbol "_tupletoStruct")]
    else .mk d n (Ty.replaceTuplesList ps) (Ty.replaceTuplesEntries as)

def Ty.replaceTuplesList : List Ty → List Ty
  | [] => []
  | t :: rest => t.replaceTuples :: Ty.replaceTuplesList rest

def Ty.replaceTuplesEntries : List (String × Attr Ty) → List (String × Attr Ty)
  | [] => []
  | (k, a) :: rest => (k, Ty.replaceTuplesAttr a) :: Ty.replaceTuplesEntries rest

def Ty.replaceTuplesAttr : Attr Ty → Attr Ty
  | .type t => .type t.replaceTuples
  | .list items => .list (Ty.replaceTuplesAttrs items)
  | .unit => .unit
  | .bool b => .bool b
  | .int bits => .int bits
  | .float bits => .float bits
  | .string s => .string s
  | .symbol s => .symbol s

def Ty.replaceTuplesAttrs : List (Attr Ty) → List (Attr Ty)
  | [] => []
  | a :: rest => Ty.replaceTuplesAttr a :: Ty.replaceTuplesAttrs rest

end

theorem forall₂_mapIdx {α β γ δ : Type} {R : α → β → Prop} {S : γ → δ → Prop}
    {f : Nat → α → γ} {g : Nat → β → δ} {l : List α} {l' : List β} (h : List.Forall₂ R l l')
    (himp : ∀ k a b, R a b → S (f k a) (g k b)) : List.Forall₂ S (l.mapIdx f) (l'.mapIdx g) := by
  induction h generalizing f g with
  | nil => exact .nil
  | cons hab _ ih =>
    rw [List.mapIdx_cons, List.mapIdx_cons]
    exact .cons (himp 0 _ _ hab) (ih fun k => himp (k + 1))

theorem map_mapIdx {α β γ : Type} (l : List α) (f : Nat → α → β) (g : β → γ) :
    (l.mapIdx f).map g = l.mapIdx fun i a => g (f i a) := by
  simp [List.mapIdx_eq_zipIdx_map, Function.comp_def]

namespace Ty

theorem replaceTuplesList_eq (ts : List Ty) : replaceTuplesList ts = ts.map replaceTuples := by
  induction ts with
  | nil => rfl
  | cons t ts ih => rw [replaceTuplesList, ih, List.map_cons]

theorem replaceTuplesEntries_eq (as : List (String × Attr Ty)) :
    replaceTuplesEntries as = as.map fun e => (e.1, replaceTuplesAttr e.2) := by
  induction as with
  | nil => rfl
  | cons e as ih => rw [replaceTuplesEntries, ih, List.map_cons]

theorem replaceTuplesAttrs_eq (items : List (Attr Ty)) :
    replaceTuplesAttrs items = items.map replaceTuplesAttr := by
  induction items with
  | nil => rfl
  | cons a items ih => rw [replaceTuplesAttrs, ih, List.map_cons]

theorem lowered_eq_replaceTuples (t : Ty) : t.lowered = t.replaceTuples := by
  refine Ty.forall_of (P := fun t => t.lowered = t.replaceTuples)
    (Q := fun a => a.lowered = replaceTuplesAttr a) ?_ ?_ ?_ ?_ t
  · intro d n ps as hps has
    have hparams : ps.map lowered = ps.map replaceTuples := List.map_congr_left hps
    have hattrs : Dict.lowered as = as.map fun e => (e.1, replaceTuplesAttr e.2) :=
      List.map_congr_left fun e he => by rw [has e he]
    have htuple : (Ty.mk d n ps as).isTuple = true ↔ d = "core" ∧ n = "tuple" := by
      simp [isTuple, is, dialect, name]
    rw [lowered_mk, replaceTuples, replaceTuplesList_eq, replaceTuplesEntries_eq, hparams, hattrs]
    split
    · rename_i h
      rw [if_pos (htuple.mp h), structOfElements, Ty.struct, map_mapIdx]
      rfl
    · rename_i h
      rw [if_neg fun hnot => h (htuple.mpr hnot)]
  · intro t ht
    rw [Attr.lowered_type, ht, replaceTuplesAttr]
  · intro items hitems
    rw [Attr.lowered_list, replaceTuplesAttr, replaceTuplesAttrs_eq, List.map_congr_left hitems]
  · intro a ht hl
    rw [Attr.lowered_leaf ht hl]
    cases a <;> simp_all [replaceTuplesAttr, Attr.asType, Attr.asList]

end Ty

namespace TypeNode

variable {f : Nat → Option Ty} {node : TypeNode} {t : Ty}

theorem params_of_toTy (h : node.toTy f = some t) :
    List.Forall₂ (fun i p => f i = some p) node.params t.params := by
  obtain ⟨ps, as, rfl, hps, -⟩ := toTy_eq_some_iff.mp h
  exact hps

theorem toTy_struct {name : String} {fields : List (String × Nat)} {fields' : List (String × Ty)}
    (h : List.Forall₂ (fun x y => x.1 = y.1 ∧ f x.2 = some y.2) fields fields') :
    (struct name fields).toTy f = some (.struct name fields') := by
  have hitems : List.Forall₂ (fun (b : Attr Nat) (a : Attr Ty) => b.mapTypesM f = some a)
      (fields.map fun x => .list [.symbol x.1, .type x.2])
      (fields'.map fun y => .list [.symbol y.1, .type y.2]) := by
    rw [List.forall₂_map_left_iff, List.forall₂_map_right_iff]
    exact h.imp fun x y hxy => by simp [Attr.mapTypesM, Attr.mapItemTypesM, hxy.1, hxy.2]
  exact toTy_eq_some_iff.mpr ⟨[], _, rfl, .nil,
    .cons ⟨rfl, Attr.mapTypesM_eq_some_list_iff.mpr ⟨_, rfl, hitems⟩⟩ (.cons ⟨rfl, rfl⟩ .nil)⟩

end TypeNode

open TypeTable Interning

theorem TypeTable.yields_tupleToStruct {table : TypeTable} {i : Nat} {t : Ty}
    (ho : table.Ordered) (ht : table.tree i = some t) (htuple : t.isTuple) :
    Yields Stands table (tupleToStruct i) t.tupleToStruct := by
  obtain ⟨node, hnode, hnodeTree⟩ := ho.tree_eq_some_iff.mp ht
  have hisTuple : node.is "core" "tuple" = true := (TypeNode.is_of_toTy hnodeTree _ _).trans htuple
  refine yields_get (yields_lift (node_of_entry hnode) ?_)
  rw [if_pos hisTuple, Ty.tupleToStruct, Ty.tupleElements, if_pos htuple]
  refine yields_put ho (TypeNode.toTy_struct ?_)
  exact forall₂_mapIdx (TypeNode.params_of_toTy hnodeTree) fun k j u hj => ⟨rfl, hj⟩

/-- The tuple converter of a table does to the trees what the one of types does. -/
theorem TableConverter.implements_tuples : tuples.Implements Converter.tuples := by
  refine .cons ⟨fun {table i t} ho ht => ?_, yields_tupleToStruct⟩ .nil
  obtain ⟨node, hnode, hnodeTree⟩ := ho.tree_eq_some_iff.mp ht
  simp only [node_of_entry hnode, except_ok_bind, TypeNode.is_of_toTy hnodeTree]
  rfl

namespace TableConverter

variable {table : TypeTable} {i : Nat} {t : Ty}

theorem convertType_tuples_of_tree (ho : table.Ordered) (ht : table.tree i = some t) :
    ∃ j table', tuples.convertType i table = .ok (some j, table') ∧ table.Grows table' ∧
      table'.tree j = some t.lowered := by
  obtain ⟨answer, table', hrun, hgrows, hrel⟩ := implements_tuples.convertType ho ht
  rw [Ty.convertType_tuples] at hrel
  cases hrel with
  | some hj => exact ⟨_, table', hrun, hgrows, hj⟩

/-- The entry `j` of the later table is the entry `i` of the earlier one with structs for tuples. -/
structure Substitutes (table : TypeTable) (i : Nat) (table' : TypeTable) (j : Nat) : Prop where
  tree : ∃ t, table.tree i = some t ∧ table'.tree j = some t.replaceTuples ∧
    Converter.tuples.convertType t = some t.replaceTuples
  legal : tuples.isLegalType table' j = .ok true
  again : tuples.convertType j table' = .ok (some j, table')
  unchanged : j = i ↔ tuples.isLegalType table i = .ok true
  built : table'.Built
  kept : table.entries.toList <+: table'.entries.toList

/-- The conversion of a type in a table substitutes structs for tuples. -/
theorem convertType_substitutes (hb : table.Built) (hi : i < table.entries.size) :
    ∃ j table', tuples.convertType i table = .ok (some j, table') ∧
      Substitutes table i table' j := by
  have ho := hb.ordered
  obtain ⟨t, ht⟩ := ho.exists_tree hi
  obtain ⟨j, table', hrun, hgrows, hj⟩ := convertType_tuples_of_tree ho ht
  have ho' := hgrows.ordered ho
  have hlegal : tuples.isLegalType table' j = .ok true := by
    rw [implements_tuples.isLegalType ho' hj]
    exact congrArg Except.ok t.tupleFree_lowered
  refine ⟨j, table', hrun, ⟨t, ht, ?_, ?_⟩, hlegal, convertType_of_isLegalType hlegal, ?_,
    Relation.ReflTransGen.trans hb hgrows, hgrows.prefix⟩
  · rw [hj, t.lowered_eq_replaceTuples]
  · rw [t.convertType_tuples, t.lowered_eq_replaceTuples]
  · constructor
    · rintro rfl
      have hsame : t.lowered = t := Option.some.inj (hj.symm.trans (hgrows.tree ht))
      rw [implements_tuples.isLegalType ho ht]
      exact congrArg Except.ok (Ty.lowered_eq_self_iff.mp hsame)
    · intro hlegal
      rw [convertType_of_isLegalType hlegal] at hrun
      have hsame := Except.ok.inj hrun
      simp only [Prod.mk.injEq, Option.some.injEq] at hsame
      exact hsame.1.symm

/-- A type with tuples among its parameters, in each other and in an attribute. -/
def tupleBox : Ty :=
  .mk "test" "box" [.tuple [.mk "core" "i32" [] [], .tuple []]]
    [("slots", .list [.list [.symbol "x", .type (.tuple [.mk "core" "i32" [] []])]])]

def tupleBoxTable : TypeTable := (TypeTable.internTree {} tupleBox).1

theorem built_tupleBoxTable : tupleBoxTable.Built :=
  Built.internTree .refl tupleBox

theorem convertType_substitutes_tupleBox :
    tupleBoxTable.Built ∧ 4 < tupleBoxTable.entries.size ∧
      ∃ j table', tuples.convertType 4 tupleBoxTable = .ok (some j, table') ∧ j ≠ 4 ∧
        table'.tree j = some (.mk "test" "box"
          [.struct "_tupletoStruct"
            [("elemet_0", .mk "core" "i32" [] []), ("elemet_1", .struct "_tupletoStruct" [])]]
          [("slots", .list [.list [.symbol "x",
            .type (.struct "_tupletoStruct" [("elemet_0", .mk "core" "i32" [] [])])]])]) := by
  have hsize : 4 < tupleBoxTable.entries.size := by decide +kernel
  have hbox : tupleBoxTable.tree 4 = some tupleBox := by decide +kernel
  have hillegal : tuples.isLegalType tupleBoxTable 4 ≠ .ok true := by decide +kernel
  obtain ⟨j, table', hrun, hsubstitutes⟩ := convertType_substitutes built_tupleBoxTable hsize
  obtain ⟨t, ht, hj, -⟩ := hsubstitutes.tree
  obtain rfl : tupleBox = t := Option.some.inj (hbox.symm.trans ht)
  exact ⟨built_tupleBoxTable, hsize, j, table', hrun,
    fun hsame => hillegal (hsubstitutes.unchanged.mp hsame), hj⟩

end TableConverter

/-! Different types stay different. -/

/-- No tuple in the type has attributes, and no struct in it has the name of the structs that come
from tuples. -/
def Ty.Unmistakable (t : Ty) : Prop :=
  ∀ s, Ty.Mentions s t →
    (s.isTuple → s.attrs = []) ∧ s.structName ≠ some "_tupletoStruct"

def Attr.Unmistakable (a : Attr Ty) : Prop :=
  ∀ s, Attr.Mentions s a →
    (s.isTuple → s.attrs = []) ∧ s.structName ≠ some "_tupletoStruct"

theorem Ty.unmistakable_mk_iff {d n : String} {ps : List Ty} {as : List (String × Attr Ty)} :
    (Ty.mk d n ps as).Unmistakable ↔
      (((Ty.mk d n ps as).isTuple → as = []) ∧
        (Ty.mk d n ps as).structName ≠ some "_tupletoStruct") ∧
      (∀ p ∈ ps, p.Unmistakable) ∧ ∀ e ∈ as, e.2.Unmistakable := by
  constructor
  · intro h
    exact ⟨h _ .self, fun p hp s hs => h s (.param hp hs), fun e he s hs => h s (.attr he hs)⟩
  · rintro ⟨hself, hps, has⟩ s (_ | ⟨hp, hs⟩ | ⟨he, hs⟩)
    · exact hself
    · exact hps _ hp s hs
    · exact has _ he s hs

theorem Attr.unmistakable_type_iff {t : Ty} : (Attr.type t).Unmistakable ↔ t.Unmistakable :=
  ⟨fun h s hs => h s (.type hs), fun h s hs => by cases hs with | type hs => exact h s hs⟩

theorem Attr.unmistakable_list_iff {items : List (Attr Ty)} :
    (Attr.list items).Unmistakable ↔ ∀ a ∈ items, a.Unmistakable :=
  ⟨fun h a ha s hs => h s (.item ha hs),
    fun h s hs => by cases hs with | item ha hs => exact h _ ha s hs⟩

theorem Attr.unmistakable_symbol {name : String} : (Attr.symbol name).Unmistakable :=
  fun _ hs => by cases hs

namespace Ty

theorem structOfElements_inj {ps ps' : List Ty}
    (h : structOfElements ps = structOfElements ps') : ps = ps' := by
  have hfields := congrArg structFields h
  have helements (l : List Ty) : (l.mapIdx fun k t => (tupleFieldName k, t)).map Prod.snd = l := by
    simp [List.mapIdx_eq_zipIdx_map, Function.comp_def]
  simp only [structOfElements, structFields_struct, Option.some.injEq] at hfields
  rw [← helements ps, hfields, helements]

theorem structName_structOfElements (ps : List Ty) :
    (structOfElements ps).structName = some "_tupletoStruct" :=
  rfl

theorem structName_lowered {t : Ty} (h : t.isTuple = false) :
    t.lowered.structName = t.structName := by
  obtain ⟨d, n, ps, as⟩ := t
  have hsymbol (a : Attr Ty) : a.lowered.asSymbol = a.asSymbol := by
    cases a <;> simp [Attr.asSymbol]
  have hsame (ps' : List Ty) (as' : List (String × Attr Ty)) :
      (Ty.mk d n ps' as').isStruct = (Ty.mk d n ps as).isStruct := rfl
  rw [lowered_mk, h]
  simp only [Bool.false_eq_true, if_false, structName, hsame, attrs, Dict.find?_lowered]
  cases Dict.find? "name" as <;> simp [hsymbol]

theorem lowered_ne_lowered {s t : Ty} (hs : s.isTuple) (ht : t.isTuple = false)
    (hname : t.structName ≠ some "_tupletoStruct") : s.lowered ≠ t.lowered := by
  intro h
  rw [lowered_tuple hs] at h
  rw [← structName_lowered ht, ← h] at hname
  exact hname (structName_structOfElements _)

/-- The conversion keeps types apart. -/
theorem lowered_inj {s t : Ty} (hs : s.Unmistakable) (ht : t.Unmistakable)
    (h : s.lowered = t.lowered) : s = t := by
  revert t
  refine Ty.forall_of
    (P := fun s => s.Unmistakable → ∀ {t : Ty}, t.Unmistakable → s.lowered = t.lowered → s = t)
    (Q := fun a => a.Unmistakable → ∀ {b : Attr Ty}, b.Unmistakable → a.lowered = b.lowered → a = b)
    ?_ ?_ ?_ ?_ s hs
  · intro d n ps as hps has hs t ht h
    obtain ⟨d', n', ps', as'⟩ := t
    obtain ⟨⟨hplain, hname⟩, hps', has'⟩ := unmistakable_mk_iff.mp hs
    obtain ⟨⟨hplain', hname'⟩, hqs, hbs⟩ := unmistakable_mk_iff.mp ht
    have hparams : ps.map lowered = ps'.map lowered → ps = ps' :=
      eq_of_map_eq fun p hp q hq => hps p hp (hps' p hp) (hqs q hq)
    have hattrs : Dict.lowered as = Dict.lowered as' → as = as' :=
      eq_of_map_eq fun e he f hf heq => by
        obtain ⟨hkey, hvalue⟩ := Prod.mk.injEq .. ▸ heq
        exact Prod.ext hkey (has e he (has' e he) (hbs f hf) hvalue)
    cases htuple : (Ty.mk d n ps as).isTuple <;> cases htuple' : (Ty.mk d' n' ps' as').isTuple
    · simp only [lowered_mk, htuple, htuple', Bool.false_eq_true, if_false, Ty.mk.injEq] at h
      rw [h.1, h.2.1, hparams h.2.2.1, hattrs h.2.2.2]
    · exact absurd h.symm (lowered_ne_lowered htuple' htuple hname)
    · exact absurd h (lowered_ne_lowered htuple htuple' hname')
    · rw [lowered_tuple htuple, lowered_tuple htuple'] at h
      rw [hparams (structOfElements_inj h), hplain htuple, hplain' htuple']
      simp only [isTuple, is, dialect, name, Bool.and_eq_true, beq_iff_eq] at htuple htuple'
      rw [htuple.1, htuple.2, htuple'.1, htuple'.2]
  · intro t ih ha b hb h
    cases b with
    | type u =>
      simp only [Attr.lowered_type, Attr.type.injEq] at h
      rw [ih (Attr.unmistakable_type_iff.mp ha) (Attr.unmistakable_type_iff.mp hb) h]
    | _ => simp at h
  · intro items ih ha b hb h
    rw [Attr.unmistakable_list_iff] at ha
    cases b with
    | list items' =>
      rw [Attr.unmistakable_list_iff] at hb
      simp only [Attr.lowered_list, Attr.list.injEq] at h
      rw [eq_of_map_eq (fun a hitem b hitem' => ih a hitem (ha a hitem) (hb b hitem')) h]
    | _ => simp at h
  · intro a hat hal _ b hb h
    rw [Attr.lowered_leaf hat hal] at h
    subst h
    cases b <;> simp_all [Attr.asType, Attr.asList]

end Ty

/-- Different types of a table are converted to different types, also if other types are put in
in between. -/
theorem TableConverter.convertType_separates {table : TypeTable} {s t : Nat} {u v : Ty}
    (hb : table.Built) (hs : table.tree s = some u) (ht : table.tree t = some v)
    (hu : u.Unmistakable) (hv : v.Unmistakable) :
    ∃ j table₁, tuples.convertType s table = .ok (some j, table₁) ∧
      ∀ table₂, table₁.Grows table₂ →
        ∃ k table₃, tuples.convertType t table₂ = .ok (some k, table₃) ∧ (j = k ↔ s = t) := by
  have ho := hb.ordered
  obtain ⟨j, table₁, hrun, hgrows₁, hj⟩ := convertType_tuples_of_tree ho hs
  refine ⟨j, table₁, hrun, fun table₂ hgrows₂ => ?_⟩
  have ho₂ := hgrows₂.ordered (hgrows₁.ordered ho)
  obtain ⟨k, table₃, hrun', hgrows₃, hk⟩ :=
    convertType_tuples_of_tree ho₂ (hgrows₂.tree (hgrows₁.tree ht))
  have hj' := hgrows₃.tree (hgrows₂.tree hj)
  refine ⟨k, table₃, hrun', ?_, ?_⟩
  · rintro rfl
    have hsame : u = v := Ty.lowered_inj hu hv (Option.some.inj (hj'.symm.trans hk))
    exact ho.tree_inj hs (hsame ▸ ht)
  · rintro rfl
    have hsame : u = v := Option.some.inj (hs.symm.trans ht)
    exact (hgrows₃.ordered ho₂).tree_inj hj' (hsame ▸ hk)

/-- A function from a tuple to a struct with the fields that the tuple gets. -/
def lookalike : Ty :=
  .function [.tuple [.mk "core" "i32" [] []]]
    (.struct "pair" [("elemet_0", .mk "core" "i32" [] [])])

def lookalikeTable : TypeTable := (TypeTable.internTree {} lookalike).1

theorem TableConverter.convertType_separates_lookalike :
    lookalikeTable.Built ∧
      ∃ u v, lookalikeTable.tree 1 = some u ∧ lookalikeTable.tree 2 = some v ∧
        u.Unmistakable ∧ v.Unmistakable ∧
        ∃ j table₁, tuples.convertType 1 lookalikeTable = .ok (some j, table₁) ∧
          ∃ k table₂, tuples.convertType 2 table₁ = .ok (some k, table₂) ∧ j ≠ k := by
  have hb : lookalikeTable.Built := TypeTable.Built.internTree .refl lookalike
  have hs : lookalikeTable.tree 1 =
    some (.struct "pair" [("elemet_0", .mk "core" "i32" [] [])]) := by decide +kernel
  have ht : lookalikeTable.tree 2 = some (.tuple [.mk "core" "i32" [] []]) := by decide +kernel
  have hi32 : (Ty.mk "core" "i32" [] []).Unmistakable :=
    Ty.unmistakable_mk_iff.mpr ⟨⟨by decide, by decide⟩, by simp, by simp⟩
  have hu : (Ty.struct "pair" [("elemet_0", .mk "core" "i32" [] [])]).Unmistakable :=
    Ty.unmistakable_mk_iff.mpr ⟨⟨by decide, by decide⟩, by simp, by
      simp [Attr.unmistakable_list_iff, Attr.unmistakable_type_iff, Attr.unmistakable_symbol, hi32]⟩
  have hv : (Ty.tuple [.mk "core" "i32" [] []]).Unmistakable :=
    Ty.unmistakable_mk_iff.mpr ⟨⟨by simp, by decide⟩, by simpa using hi32, by simp⟩
  obtain ⟨j, table₁, hrun, hlater⟩ := convertType_separates hb hs ht hu hv
  obtain ⟨k, table₂, hrun', hsame⟩ := hlater table₁ .refl
  exact ⟨hb, _, _, hs, ht, hu, hv, j, table₁, hrun, k, table₂, hrun', fun hjk =>
    absurd (hsame.mp hjk) (by decide)⟩

end RegionIR
