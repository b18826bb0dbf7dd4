import RegionIR.Proofs.Types.TableConversion

/-! Conversion without a look at what is legal.

The plain conversion rebuilds every type from the inside out and applies to it the first conversion
that takes it. The converter spares itself the way through a legal type. In such a type there is
nothing to convert, so both give the same answer, fail at the same conversions, and put the same types
into a table. -/

namespace RegionIR

section Reached

variable {α β : Type} {f : α → Option β} {l : List α} {a b : α}

/-- `f` is done to the members of a list up to the first at which it fails, and `a` is one of them. -/
def Reached (f : α → Option β) (l : List α) (a : α) : Prop :=
  ∃ front rest, l = front ++ a :: rest ∧ ∀ b ∈ front, (f b).isSome

theorem Reached.mem (h : Reached f l a) : a ∈ l := by
  obtain ⟨front, rest, rfl, -⟩ := h
  exact List.mem_append_right _ List.mem_cons_self

theorem reached_head : Reached f (a :: l) a :=
  ⟨[], l, rfl, by simp⟩

theorem Reached.cons (hb : (f b).isSome) (h : Reached f l a) : Reached f (b :: l) a := by
  obtain ⟨front, rest, rfl, hfront⟩ := h
  exact ⟨b :: front, rest, rfl, List.forall_mem_cons.mpr ⟨hb, hfront⟩⟩

/-- It only matters where `f` succeeds. -/
theorem reached_congr {γ : Type} {g : α → Option γ} (h : ∀ b, (f b).isSome = (g b).isSome) :
    Reached f l a ↔ Reached g l a := by
  simp only [Reached, h]

theorem mapM_eq_none_iff : l.mapM f = none ↔ ∃ a, Reached f l a ∧ f a = none := by
  constructor
  · intro h
    induction l with
    | nil => simp at h
    | cons b l ih =>
      cases hb : f b with
      | none => exact ⟨b, reached_head, hb⟩
      | some c =>
        have htail : l.mapM f = none := by
          cases hl : l.mapM f with
          | none => rfl
          | some cs => simp [List.mapM_cons, hb, hl] at h
        obtain ⟨a, hreached, ha⟩ := ih htail
        exact ⟨a, hreached.cons (by simp [hb]), ha⟩
  · rintro ⟨a, hreached, ha⟩
    cases h : l.mapM f with
    | none => rfl
    | some l' =>
      have hall := forall_mem_of_forall₂ (p := fun a => f a ≠ none) (mapM_eq_some_iff.mp h)
        fun a b hb => by simp [hb]
      exact absurd ha (hall a hreached.mem)

end Reached

namespace Converter

mutual

/-- The type rebuilt from the inside out, also where nothing in it needs converting; nothing when
a conversion fails. -/
def convertPlainly (c : Converter) : Ty → Option Ty
  | .mk d n ps as => do
    let ps ← convertAllPlainly c ps
    let as ← convertEntriesPlainly c as
    c.convertOuter (.mk d n ps as)

def convertAllPlainly (c : Converter) : List Ty → Option (List Ty)
  | [] => some []
  | t :: rest => do
    let t ← convertPlainly c t
    return t :: (← convertAllPlainly c rest)

def convertEntriesPlainly (c : Converter) :
    List (String × Attr Ty) → Option (List (String × Attr Ty))
  | [] => some []
  | (key, a) :: rest => do
    let a ← convertAttrPlainly c a
    return (key, a) :: (← convertEntriesPlainly c rest)

def convertAttrPlainly (c : Converter) : Attr Ty → Option (Attr Ty)
  | .type t => do return .type (← convertPlainly c t)
  | .list items => do return .list (← convertAttrsPlainly c items)
  | .unit => some .unit
  | .bool b => some (.bool b)
  | .int bits => some (.int bits)
  | .float bits => some (.float bits)
  | .string s => some (.string s)
  | .symbol s => some (.symbol s)

def convertAttrsPlainly (c : Converter) : List (Attr Ty) → Option (List (Attr Ty))
  | [] => some []
  | a :: rest => do
    let a ← convertAttrPlainly c a
    return a :: (← convertAttrsPlainly c rest)

end

variable {c : Converter}

theorem convertAllPlainly_eq (ts : List Ty) :
    c.convertAllPlainly ts = ts.mapM c.convertPlainly := by
  induction ts with
  | nil => rfl
  | cons t ts ih => simp [convertAllPlainly, ih, List.mapM_cons]

theorem convertEntriesPlainly_eq (as : List (String × Attr Ty)) : c.convertEntriesPlainly as =
    as.mapM fun e => do return (e.1, ← c.convertAttrPlainly e.2) := by
  induction as with
  | nil => rfl
  | cons e as ih =>
    simp only [convertEntriesPlainly, ih, List.mapM_cons, bind_assoc, pure_bind]

theorem convertAttrsPlainly_eq (items : List (Attr Ty)) :
    c.convertAttrsPlainly items = items.mapM c.convertAttrPlainly := by
  induction items with
  | nil => rfl
  | cons a items ih => simp [convertAttrsPlainly, ih, List.mapM_cons]

theorem mapM_eq_self {α : Type} {f : α → Option α} {l : List α} (h : ∀ a ∈ l, f a = some a) :
    l.mapM f = some l := by
  rw [mapM_eq_some_iff, List.forall₂_same]
  exact h

theorem convertOuter_of_not_touches {t : Ty} (h : c.touches t = false) :
    c.convertOuter t = some t := by
  have hnone : (c.find? fun conversion => conversion.applies t) = none := by
    simpa [touches, List.find?_eq_none] using h
  rw [convertOuter, hnone]

/-- What a legal type is made of is legal, and no conversion applies to the type itself. -/
theorem isLegalType_mk_iff {d n : String} {ps : List Ty} {as : List (String × Attr Ty)} :
    c.isLegalType (.mk d n ps as) ↔ c.touches (.mk d n ps as) = false ∧
      (∀ p ∈ ps, c.isLegalType p) ∧ ∀ e ∈ as, c.isLegalAttr e.2 := by
  simp [isLegalType, areLegalTypes_eq, areLegalEntries_eq, and_assoc]

/-- Every part of a legal type is legal, so that the type that is rebuilt is the type itself. -/
theorem convertPlainly_eq (t : Ty) : c.convertPlainly t = c.convertType t := by
  refine Ty.forall_of (P := fun t => c.convertPlainly t = c.convertType t)
    (Q := fun a => c.convertAttrPlainly a = c.convertAttr a) ?_ ?_ ?_ ?_ t
  · intro d n ps as hps has
    have hentries : ∀ e ∈ as, (do return (e.1, ← c.convertAttrPlainly e.2) : Option (String × Attr Ty)) =
        (do return (e.1, ← c.convertAttr e.2)) := fun e he => by rw [has e he]
    rw [convertPlainly, convertAllPlainly_eq, convertEntriesPlainly_eq, mapM_congr hps,
      mapM_congr hentries]
    by_cases hlegal : c.isLegalType (.mk d n ps as)
    · obtain ⟨htouches, hps, has⟩ := isLegalType_mk_iff.mp hlegal
      rw [convertType_of_legal hlegal, mapM_eq_self fun p hp => convertType_of_legal (hps p hp),
        mapM_eq_self fun e he => by rw [convertAttr_of_legal (has e he)]; rfl]
      exact convertOuter_of_not_touches htouches
    · rw [convertType, if_neg hlegal, convertTypes_eq, convertEntries_eq]
  · intro t ht
    rw [convertAttrPlainly, convertAttr, ht]
  · intro items hitems
    rw [convertAttrPlainly, convertAttr, convertAttrsPlainly_eq, convertAttrs_eq,
      mapM_congr hitems]
  · intro a ht hl
    cases a <;> simp_all [convertAttrPlainly, convertAttr, Attr.asType, Attr.asList]

mutual

/-- The plain conversion of a type comes to apply the conversion to the type `s`. -/
inductive Applies (c : Converter) (conversion : Conversion) (s : Ty) : Ty → Prop
  | param {d n : String} {ps : List Ty} {as : List (String × Attr Ty)} {p : Ty} :
      Reached c.convertPlainly ps p → Applies c conversion s p →
      Applies c conversion s (.mk d n ps as)
  | attr {d n : String} {ps : List Ty} {as : List (String × Attr Ty)} {e : String × Attr Ty} :
      (c.convertAllPlainly ps).isSome → Reached (fun e => c.convertAttrPlainly e.2) as e →
      AppliesAttr c conversion s e.2 → Applies c conversion s (.mk d n ps as)
  | outer {d n : String} {ps ps' : List Ty} {as as' : List (String × Attr Ty)} :
      c.convertAllPlainly ps = some ps' → c.convertEntriesPlainly as = some as' →
      s = .mk d n ps' as' → (c.find? fun conversion => conversion.applies s) = some conversion →
      Applies c conversion s (.mk d n ps as)

inductive AppliesAttr (c : Converter) (conversion : Conversion) (s : Ty) : Attr Ty → Prop
  | type {t : Ty} : Applies c conversion s t → AppliesAttr c conversion s (.type t)
  | item {items : List (Attr Ty)} {a : Attr Ty} : Reached c.convertAttrPlainly items a →
      AppliesAttr c conversion s a → AppliesAttr c conversion s (.list items)

end

/-- Some conversion that the plain conversion of the type comes to apply fails. -/
def FailsIn (c : Converter) (t : Ty) : Prop :=
  ∃ conversion s, Applies c conversion s t ∧ conversion.convert s = none

def FailsInAttr (c : Converter) (a : Attr Ty) : Prop :=
  ∃ conversion s, AppliesAttr c conversion s a ∧ conversion.convert s = none

theorem convertOuter_eq_none_iff {t : Ty} : c.convertOuter t = none ↔
    ∃ conversion, (c.find? fun conversion => conversion.applies t) = some conversion ∧
      conversion.convert t = none := by
  unfold convertOuter
  cases c.find? fun conversion => conversion.applies t <;> simp

theorem convertEntriesPlainly_eq_none_iff {as : List (String × Attr Ty)} :
    c.convertEntriesPlainly as = none ↔
      ∃ e, Reached (fun e => c.convertAttrPlainly e.2) as e ∧ c.convertAttrPlainly e.2 = none := by
  have hsome (e : String × Attr Ty) :
      (do return (e.1, ← c.convertAttrPlainly e.2) : Option (String × Attr Ty)).isSome =
        (c.convertAttrPlainly e.2).isSome := by
    cases c.convertAttrPlainly e.2 <;> rfl
  have hnone (e : String × Attr Ty) :
      (do return (e.1, ← c.convertAttrPlainly e.2) : Option (String × Attr Ty)) = none ↔
        c.convertAttrPlainly e.2 = none := by
    cases c.convertAttrPlainly e.2 <;> simp
  simp only [convertEntriesPlainly_eq, mapM_eq_none_iff, reached_congr hsome, hnone]

/-- A conversion of a type fails in a parameter, in an attribute, or in the end. -/
theorem failsIn_mk_iff {d n : String} {ps : List Ty} {as : List (String × Attr Ty)} :
    c.FailsIn (.mk d n ps as) ↔ (∃ p, Reached c.convertPlainly ps p ∧ c.FailsIn p) ∨
      ((c.convertAllPlainly ps).isSome ∧
        ∃ e, Reached (fun e => c.convertAttrPlainly e.2) as e ∧ c.FailsInAttr e.2) ∨
      ∃ ps' as', c.convertAllPlainly ps = some ps' ∧ c.convertEntriesPlainly as = some as' ∧
        c.convertOuter (.mk d n ps' as') = none := by
  simp only [convertOuter_eq_none_iff]
  constructor
  · rintro ⟨conversion, s, happlies, hfails⟩
    cases happlies with
    | param hp h => exact .inl ⟨_, hp, conversion, s, h, hfails⟩
    | attr hps he h => exact .inr (.inl ⟨hps, _, he, conversion, s, h, hfails⟩)
    | outer hps has hs hfind =>
      subst hs
      exact .inr (.inr ⟨_, _, hps, has, conversion, hfind, hfails⟩)
  · rintro (⟨p, hp, conversion, s, h, hfails⟩ | ⟨hps, e, he, conversion, s, h, hfails⟩ |
      ⟨ps', as', hps, has, conversion, hfind, hfails⟩)
    · exact ⟨conversion, s, .param hp h, hfails⟩
    · exact ⟨conversion, s, .attr hps he h, hfails⟩
    · exact ⟨conversion, _, .outer hps has rfl hfind, hfails⟩

theorem failsInAttr_type_iff {t : Ty} : c.FailsInAttr (.type t) ↔ c.FailsIn t := by
  constructor
  · rintro ⟨conversion, s, ⟨h⟩, hfails⟩
    exact ⟨conversion, s, h, hfails⟩
  · rintro ⟨conversion, s, h, hfails⟩
    exact ⟨conversion, s, .type h, hfails⟩

theorem failsInAttr_list_iff {items : List (Attr Ty)} : c.FailsInAttr (.list items) ↔
    ∃ a, Reached c.convertAttrPlainly items a ∧ c.FailsInAttr a := by
  constructor
  · rintro ⟨conversion, s, h, hfails⟩
    cases h with
    | item ha h => exact ⟨_, ha, conversion, s, h, hfails⟩
  · rintro ⟨a, ha, conversion, s, h, hfails⟩
    exact ⟨conversion, s, .item ha h, hfails⟩

theorem not_failsInAttr_of_leaf {a : Attr Ty} (ht : a.asType = none) (hl : a.asList = none) :
    ¬ c.FailsInAttr a := by
  rintro ⟨conversion, s, h, -⟩
  cases h <;> simp [Attr.asType, Attr.asList] at ht hl

/-- The plain conversion fails just when a conversion fails that it comes to apply. -/
theorem convertPlainly_eq_none_iff (t : Ty) : c.convertPlainly t = none ↔ c.FailsIn t := by
  refine Ty.forall_of (P := fun t => c.convertPlainly t = none ↔ c.FailsIn t)
    (Q := fun a => c.convertAttrPlainly a = none ↔ c.FailsInAttr a) ?_ ?_ ?_ ?_ t
  · intro d n ps as hps has
    have hparams : c.convertAllPlainly ps = none ↔
        ∃ p, Reached c.convertPlainly ps p ∧ c.FailsIn p := by
      rw [convertAllPlainly_eq, mapM_eq_none_iff]
      exact exists_congr fun p => and_congr_right fun hp => hps p hp.mem
    have hattrs : c.convertEntriesPlainly as = none ↔
        ∃ e, Reached (fun e => c.convertAttrPlainly e.2) as e ∧ c.FailsInAttr e.2 := by
      rw [convertEntriesPlainly_eq_none_iff]
      exact exists_congr fun e => and_congr_right fun he => has e he.mem
    rw [failsIn_mk_iff, ← hparams, ← hattrs, convertPlainly]
    cases c.convertAllPlainly ps <;> cases c.convertEntriesPlainly as <;> simp
  · intro t ht
    rw [failsInAttr_type_iff, ← ht, convertAttrPlainly]
    cases c.convertPlainly t <;> simp
  · intro items hitems
    rw [failsInAttr_list_iff, convertAttrPlainly, convertAttrsPlainly_eq]
    have hall : items.mapM c.convertAttrPlainly = none ↔
        ∃ a, Reached c.convertAttrPlainly items a ∧ c.FailsInAttr a := by
      rw [mapM_eq_none_iff]
      exact exists_congr fun a => and_congr_right fun ha => hitems a ha.mem
    rw [← hall]
    cases items.mapM c.convertAttrPlainly <;> simp
  · intro a ht hl
    have hself : c.convertAttrPlainly a = some a := by
      cases a <;> simp_all [convertAttrPlainly, Attr.asType, Attr.asList]
    simp [hself, not_failsInAttr_of_leaf ht hl]

end Converter

namespace Interning

open TypeTable

variable {α β γ δ : Type} {R : TypeTable → α → β → Prop} {S : TypeTable → γ → δ → Prop}
  {table : TypeTable}

/-- The action gives an answer and leaves the table as it is. -/
def Spares (table : TypeTable) (action : Interning α) (a : α) : Prop :=
  action.run.run table = .ok (some a, table)

theorem Spares.bind {action : Interning α} {k : α → Interning γ} {a : α} {g : γ}
    (h : Spares table action a) (hk : Spares table (k a) g) : Spares table (action >>= k) g :=
  (run_bind_some h).trans hk

theorem spares_get {k : TypeTable → Interning γ} {g : γ} (h : Spares table (k table) g) :
    Spares table (get >>= k) g :=
  h

theorem spares_lift {x : Except Fault α} {a : α} {k : α → Interning γ} {g : γ} (hx : x = .ok a)
    (h : Spares table (k a) g) : Spares table (liftM x >>= k) g := by
  subst hx
  exact h

theorem spares_mapM {f : α → Interning α} {l : List α} (h : ∀ a ∈ l, Spares table (f a) a) :
    Spares table (l.mapM f) l := by
  induction l with
  | nil => rw [List.mapM_nil]; rfl
  | cons a l ih =>
    rw [List.forall_mem_cons] at h
    rw [List.mapM_cons]
    exact h.1.bind ((ih h.2).bind rfl)

/-- Two actions do the same, namely what is expected of them. -/
structure Alike (R : TypeTable → α → β → Prop) (table : TypeTable) (x y : Interning α)
    (expected : Option β) : Prop where
  yields : Yields R table x expected
  run_eq : x.run.run table = y.run.run table

theorem alike_get {k l : TypeTable → Interning γ} {expected : Option δ}
    (h : Alike S table (k table) (l table) expected) : Alike S table (get >>= k) (get >>= l) expected :=
  ⟨h.yields, h.run_eq⟩

theorem alike_lift {x : Except Fault α} {a : α} {k l : α → Interning γ} {expected : Option δ}
    (hx : x = .ok a) (h : Alike S table (k a) (l a) expected) :
    Alike S table (liftM x >>= k) (liftM x >>= l) expected := by
  subst hx
  exact ⟨h.yields, h.run_eq⟩

theorem Alike.lift_left {x : Except Fault α} {a : α} {k : α → Interning γ} {y : Interning γ}
    {expected : Option δ} (hx : x = .ok a) (h : Alike S table (k a) y expected) :
    Alike S table (liftM x >>= k) y expected := by
  subst hx
  exact ⟨h.yields, h.run_eq⟩

theorem alike_self {x : Interning α} {expected : Option β} (h : Yields R table x expected) :
    Alike R table x x expected :=
  ⟨h, rfl⟩

theorem Alike.bind {x y : Interning α} {expected : Option β} {k l : α → Interning γ}
    {m : β → Option δ} (h : Alike R table x y expected)
    (hk : ∀ table' a b, table.Grows table' → R table' a b → Alike S table' (k a) (l a) (m b)) :
    Alike S table (x >>= k) (y >>= l) (expected >>= m) := by
  refine ⟨h.yields.bind fun table' a b hgrows hab => (hk table' a b hgrows hab).yields, ?_⟩
  obtain ⟨answer, table', hrun, hgrows, hrel⟩ := h.yields
  have hrun' := h.run_eq ▸ hrun
  cases hrel with
  | none => rw [run_bind_none hrun, run_bind_none hrun']
  | some hab =>
    rw [run_bind_some hrun, run_bind_some hrun']
    exact (hk table' _ _ hgrows hab).run_eq

theorem Alike.mapM {f g : α → Interning γ} {m : β → Option δ} {as : List α} {bs : List β}
    (hR : Kept R) (hS : Kept S) (has : List.Forall₂ (R table) as bs)
    (hf : ∀ b ∈ bs, ∀ table' a, table.Grows table' → R table' a b →
      Alike S table' (f a) (g a) (m b)) :
    Alike (fun table' => List.Forall₂ (S table')) table (as.mapM f) (as.mapM g) (bs.mapM m) := by
  induction as generalizing bs table with
  | nil =>
    obtain rfl := List.forall₂_nil_left_iff.mp has
    rw [List.mapM_nil, List.mapM_nil, List.mapM_nil]
    exact alike_self (yields_pure .nil)
  | cons a as ih =>
    obtain ⟨b, bs, hab, htail, rfl⟩ := List.forall₂_cons_left_iff.mp has
    rw [List.forall_mem_cons] at hf
    rw [List.mapM_cons, List.mapM_cons, List.mapM_cons]
    refine (hf.1 table a .refl hab).bind fun table₁ c d hgrows hcd => ?_
    refine (ih (htail.imp fun _ _ => hR hgrows) fun b hb table' a hgrows' =>
      hf.2 b hb table' a (hgrows.trans hgrows')).bind fun table₂ cs ds hgrows' hcds => ?_
    exact alike_self (yields_pure (.cons (hS hgrows' hcd) hcds))

end Interning

namespace TableConverter

open TypeTable Interning

/-- The conversion that rebuilds and puts in again every type, also where nothing in it needs
converting, if at most `depth` types are nested in each other. -/
def plainlyWithin (c : TableConverter) : (depth : Nat) → Nat → Interning Nat
  | 0, _ => liftM (Except.error Fault.cyclicOwnership : Except Fault Nat)
  | depth + 1, i => do
    let table ← get
    let node ← table.node i
    let params ← node.params.mapM (c.plainlyWithin depth)
    let attrs ← node.attrs.mapM fun e => do
      if e.2.containsType then return (e.1, ← e.2.mapTypesM (c.plainlyWithin depth)) else return e
    c.convertOuter (← put { node with params, attrs })

def convertPlainly (c : TableConverter) (i : Nat) (table : TypeTable) :
    Except Fault (Option Nat × TypeTable) :=
  (c.plainlyWithin (i + 1) i).run.run table

theorem spares_put {table : TypeTable} {i : Nat} {node : TypeNode} (ho : table.Ordered)
    (hi : table.entries[i]? = some node) : Spares table (put node) i := by
  have hfound := table.getElem?_intern node
  unfold Table.intern at hfound
  change Except.ok (some (table.intern node).2, (table.intern node).1) = .ok (some i, table)
  unfold Table.intern
  cases hidx : table.entries.findIdx? (· = node) with
  | some j =>
    rw [hidx] at hfound
    rw [ho.distinct i j node hi hfound]
  | none =>
    have habsent := Array.findIdx?_eq_none_iff.mp hidx node (Array.mem_of_getElem? hi)
    simp at habsent

variable {c : TableConverter} {spec : Converter} {table : TypeTable} {i : Nat} {t : Ty}

theorem spares_entry {f : Nat → Interning Nat} {e : String × Attr Nat}
    (h : Spares table (e.2.mapTypesM f) e.2) :
    Spares table (if e.2.containsType then do return (e.1, ← e.2.mapTypesM f) else return e) e := by
  rw [entry_eq]
  exact h.bind rfl

/-- To rebuild a type whose components are the old ones is to put it in where it is. -/
theorem alike_rebuild {node : TypeNode} {params : List Nat} {attrs : List (String × Attr Nat)}
    {u : Ty} (ho : table.Ordered) (hi : table.entries[i]? = some node)
    (hu : ({ node with params, attrs } : TypeNode).toTy table.tree = some u) :
    Alike Stands table (rebuild i node params attrs) (put { node with params, attrs }) (some u) := by
  refine ⟨yields_rebuild ho hi hu, ?_⟩
  unfold rebuild
  split
  · rename_i hsame
    rw [hsame.1, hsame.2]
    exact (spares_put ho hi).symm
  · rfl

namespace Implements

variable (h : c.Implements spec)
include h

theorem spares_convertOuter (ho : table.Ordered) (ht : table.tree i = some t)
    (hlegal : spec.touches t = false) : Spares table (c.convertOuter i) i := by
  obtain ⟨found, hfound, hrel⟩ := h.applicable ho ht
  have hnone : (spec.find? fun conversion => conversion.applies t) = none := by
    simpa [Converter.touches, List.find?_eq_none] using hlegal
  rw [hnone] at hrel
  cases hrel with
  | none => exact spares_get (spares_lift hfound rfl)

/-- The plain conversion of a legal type gives the type back and puts nothing in. -/
theorem spares_plainlyWithin (t : Ty) : ∀ {table : TypeTable} {depth i : Nat}, table.Ordered →
    table.treeWithin depth i = some t → spec.isLegalType t →
    Spares table (c.plainlyWithin depth i) i := by
  refine Ty.forall_of
    (P := fun t => ∀ {table : TypeTable} {depth i : Nat}, table.Ordered →
      table.treeWithin depth i = some t → spec.isLegalType t →
      Spares table (c.plainlyWithin depth i) i)
    (Q := fun a => ∀ {table : TypeTable} {depth : Nat} {b : Attr Nat}, table.Ordered →
      b.mapTypesM (table.treeWithin depth) = some a → spec.isLegalAttr a →
      Spares table (b.mapTypesM (c.plainlyWithin depth)) b) ?_ ?_ ?_ ?_ t
  · intro d n ps as hps has table depth i ho ht hlegal
    cases depth with
    | zero => simp [treeWithin] at ht
    | succ depth =>
      have htree := ho.tree_of_treeWithin ht
      obtain ⟨node, hnode, ht⟩ := treeWithin_succ_eq_some_iff.mp ht
      obtain ⟨ps', as', heq, hparams, hattrs⟩ := TypeNode.toTy_eq_some_iff.mp ht
      obtain ⟨-, -, rfl, rfl⟩ := Ty.mk.injEq .. ▸ heq
      obtain ⟨htouches, hlegals, hlegalAttrs⟩ := Converter.isLegalType_mk_iff.mp hlegal
      have hsparesParams : Spares table (node.params.mapM (c.plainlyWithin depth)) node.params :=
        spares_mapM (forall_mem_of_forall₂ (forall₂_imp_of_mem hparams fun p hp j hj =>
          hps p hp ho hj (hlegals p hp)) fun _ _ hj => hj)
      have hsparesAttrs : Spares table (node.attrs.mapM fun e => do
          if e.2.containsType then return (e.1, ← e.2.mapTypesM (c.plainlyWithin depth))
          else return e) node.attrs :=
        spares_mapM (forall_mem_of_forall₂ (forall₂_imp_of_mem hattrs fun e he e' he' =>
          spares_entry (has e he ho he'.2 (hlegalAttrs e he))) fun _ _ he => he)
      refine spares_get (spares_lift (node_of_entry hnode) ?_)
      refine hsparesParams.bind (hsparesAttrs.bind ?_)
      exact (spares_put ho hnode).bind (h.spares_convertOuter ho htree htouches)
  · intro t ht table depth b ho hb hlegal
    obtain ⟨i, rfl, hi⟩ := Attr.mapTypesM_eq_some_type_iff.mp hb
    exact (ht ho hi hlegal).bind rfl
  · intro items hitems table depth b ho hb hlegal
    obtain ⟨bs, rfl, hbs⟩ := Attr.mapTypesM_eq_some_list_iff.mp hb
    rw [Converter.isLegalAttr, Converter.areLegalAttrs_eq, List.all_eq_true] at hlegal
    rw [Attr.mapTypesM, Attr.mapItemTypesM_eq]
    refine Spares.bind (spares_mapM ?_) rfl
    exact forall_mem_of_forall₂ (forall₂_imp_of_mem hbs fun a ha b hb =>
      hitems a ha ho hb (hlegal a ha)) fun _ _ hb => hb
  · intro a ht hl table depth b ho hb _
    rw [Attr.mapTypesM_of_not_containsType _ b (Attr.not_containsType_of_leaf hb ht hl)]
    rfl

/-- The converter and the plain conversion give the same number and leave the same table. On a legal
type the one returns at once, and the other goes through it and changes nothing. -/
theorem alike_convertWithin (t : Ty) : ∀ {table : TypeTable} {depth i : Nat}, table.Ordered →
    table.treeWithin depth i = some t →
    Alike Stands table (c.convertWithin depth i) (c.plainlyWithin depth i) (spec.convertType t) := by
  refine Ty.forall_of
    (P := fun t => ∀ {table : TypeTable} {depth i : Nat}, table.Ordered →
      table.treeWithin depth i = some t → Alike Stands table (c.convertWithin depth i)
        (c.plainlyWithin depth i) (spec.convertType t))
    (Q := fun a => ∀ {table : TypeTable} {depth : Nat} {b : Attr Nat}, table.Ordered →
      b.mapTypesM (table.treeWithin depth) = some a →
      Alike (fun table' b' a' => b'.mapTypesM table'.tree = some a') table
        (b.mapTypesM (c.convertWithin depth)) (b.mapTypesM (c.plainlyWithin depth))
        (spec.convertAttr a)) ?_ ?_ ?_ ?_ t
  · intro d n ps as hps has table depth i ho ht
    cases depth with
    | zero => simp [treeWithin] at ht
    | succ depth =>
      have hyields := h.yields_convertWithin _ ho ht
      have hlegalWithin := h.isLegalWithin _ ho ht
      by_cases hlegal : spec.isLegalType (.mk d n ps as)
      · refine ⟨hyields, Eq.trans ?_ (h.spares_plainlyWithin _ ho ht hlegal).symm⟩
        rw [hlegal] at hlegalWithin
        exact spares_get (spares_lift hlegalWithin rfl)
      obtain ⟨node, hnode, ht⟩ := treeWithin_succ_eq_some_iff.mp ht
      obtain ⟨ps', as', heq, hparams, hattrs⟩ := TypeNode.toTy_eq_some_iff.mp ht
      obtain ⟨rfl, rfl, rfl, rfl⟩ := Ty.mk.injEq .. ▸ heq
      refine alike_get (Alike.lift_left hlegalWithin ?_)
      rw [if_neg hlegal, Converter.convertType, if_neg hlegal, Converter.convertTypes_eq,
        Converter.convertEntries_eq]
      refine alike_lift (node_of_entry hnode) ?_
      refine (Alike.mapM (kept_standsWithin depth) kept_stands hparams
        fun p hp table' j hgrows hj => hps p hp (hgrows.ordered ho) hj).bind
        fun table₁ params params' hgrows₁ hparams₁ => ?_
      refine (Alike.mapM (kept_entry (kept_standsWithin depth)) (kept_entry kept_stands)
        (hattrs.imp fun _ _ => kept_attr (kept_standsWithin depth) hgrows₁) ?_).bind
        fun table₂ attrs attrs' hgrows₂ hattrs₂ => ?_
      · intro e' he' table' e hgrows he
        simp only [entry_eq]
        refine (has e' he' ((hgrows₁.trans hgrows).ordered ho) he.2).bind
          fun table'' b a _ hb => ?_
        exact alike_self (yields_pure ⟨he.1, hb⟩)
      · have hrebuilt := alike_rebuild (hgrows₂.ordered (hgrows₁.ordered ho))
          (hgrows₂.entry (hgrows₁.entry hnode)) (TypeNode.toTy_eq_some_iff.mpr
            ⟨params', attrs', rfl, hparams₁.imp fun _ _ => kept_stands hgrows₂, hattrs₂⟩)
        exact hrebuilt.bind fun table₃ j u hgrows₃ hj =>
          alike_self (h.yields_convertOuter ((hgrows₂.trans hgrows₃).ordered (hgrows₁.ordered ho)) hj)
  · intro t ht table depth b ho hb
    obtain ⟨i, rfl, hi⟩ := Attr.mapTypesM_eq_some_type_iff.mp hb
    refine (ht ho hi).bind fun table' j u _ hj => ?_
    exact alike_self (yields_pure (Attr.mapTypesM_eq_some_type_iff.mpr ⟨j, rfl, hj⟩))
  · intro items hitems table depth b ho hb
    obtain ⟨bs, rfl, hbs⟩ := Attr.mapTypesM_eq_some_list_iff.mp hb
    rw [Attr.mapTypesM, Attr.mapTypesM, Attr.mapItemTypesM_eq, Attr.mapItemTypesM_eq,
      Converter.convertAttr, Converter.convertAttrs_eq]
    refine (Alike.mapM (kept_attr (kept_standsWithin depth)) (kept_attr kept_stands) hbs
      fun a ha table' b hgrows hb => hitems a ha (hgrows.ordered ho) hb).bind
      fun table' bs' as' _ hbs' => ?_
    exact alike_self (yields_pure (Attr.mapTypesM_eq_some_list_iff.mpr ⟨bs', rfl, hbs'⟩))
  · intro a ht hl table depth b ho hb
    have hleaf := Attr.not_containsType_of_leaf hb ht hl
    rw [(Converter.convertAttr_of_leaf spec ht hl).1, Attr.mapTypesM_of_not_containsType _ b hleaf,
      Attr.mapTypesM_of_not_containsType _ b hleaf]
    exact alike_self (yields_pure ((Attr.mapTypesM_eq_some_leaf_iff ht hl).mp hb))

end Implements

/-- A conversion gives the same number as the plain one and leaves the same table, or fails with it.
It fails just when a conversion fails that the plain conversion comes to apply, and it gives a legal
type back without a change to the table. -/
theorem convertType_eq_convertPlainly (h : c.Implements spec) (hb : table.Built)
    (hi : i < table.entries.size) :
    c.convertType i table = c.convertPlainly i table ∧
      ∃ t answer table', table.tree i = some t ∧
        c.convertPlainly i table = .ok (answer, table') ∧ table.Grows table' ∧
        Option.Rel table'.Stands answer (spec.convertPlainly t) ∧
        spec.convertType t = spec.convertPlainly t ∧ (answer = none ↔ spec.FailsIn t) ∧
        (c.isLegalType table i = .ok true → answer = some i ∧ table' = table) := by
  have ho := hb.ordered
  obtain ⟨t, ht⟩ := ho.exists_tree hi
  have hrun : c.convertType i table = c.convertPlainly i table :=
    (h.alike_convertWithin t ho ht).run_eq
  obtain ⟨answer, table', hanswer, hgrows, hrel⟩ := h.convertType ho ht
  rw [← Converter.convertPlainly_eq] at hrel
  refine ⟨hrun, t, answer, table', ht, hrun ▸ hanswer, hgrows, hrel,
    (Converter.convertPlainly_eq t).symm, ?_, fun hlegal => ?_⟩
  · rw [← Converter.convertPlainly_eq_none_iff]
    generalize spec.convertPlainly t = expected at hrel ⊢
    cases hrel <;> simp
  · rw [convertType_of_isLegalType hlegal] at hanswer
    simpa [eq_comm] using hanswer

/-- A conversion of the entries that are called `dialect.name`, to a bare type or to nothing. -/
def bareConversion (dialect name : String) (new : Option (String × String)) : TableConversion where
  applies := fun table i => do return (← table.node i).is dialect name
  convert := fun _ => match new with
    | some (dialect, name) => put ⟨dialect, name, [], []⟩
    | none => failure

/-- The same of types. -/
def bareConversionOfTypes (dialect name : String) (new : Option (String × String)) : Conversion where
  applies := fun t => t.is dialect name
  convert := fun _ => new.map fun new => .mk new.1 new.2 [] []

theorem implements_bareConversion (d n : String) (new : Option (String × String)) :
    (bareConversion d n new).Implements (bareConversionOfTypes d n new) := by
  constructor
  · intro table i t ho ht
    obtain ⟨node, hnode, htree⟩ := ho.tree_eq_some_iff.mp ht
    simp only [bareConversion, node_of_entry hnode, except_ok_bind, TypeNode.is_of_toTy htree]
    rfl
  · intro table i t ho _ _
    cases new with
    | none => exact ⟨none, table, rfl, .refl, .none⟩
    | some new => exact yields_put ho (TypeNode.toTy_eq_some_iff.mpr ⟨[], [], rfl, .nil, .nil⟩)

/-- Two conversions that apply to the same types, and one that fails. -/
def patchwork : List (String × String × Option (String × String)) :=
  [("core", "i32", some ("core", "i64")), ("core", "i32", none), ("test", "hole", none)]

def patchworkOfEntries : TableConverter :=
  patchwork.map fun p => bareConversion p.1 p.2.1 p.2.2

def patchworkOfTypes : Converter :=
  patchwork.map fun p => bareConversionOfTypes p.1 p.2.1 p.2.2

/-- A type that cannot be converted, for what is in its attribute. -/
def holedBox : Ty :=
  .mk "test" "box" [.tuple [.mk "core" "i32" [] []]]
    [("slots", .list [.unit, .type (.mk "test" "hole" [] [])])]

def holedBoxTable : TypeTable := (TypeTable.internTree {} holedBox).1

theorem convertType_eq_convertPlainly_holedBox :
    patchworkOfEntries.Implements patchworkOfTypes ∧ holedBoxTable.Built ∧
      3 < holedBoxTable.entries.size ∧ holedBoxTable.tree 3 = some holedBox ∧
      holedBoxTable.tree 1 = some (.tuple [.mk "core" "i32" [] []]) ∧
      (∃ table', patchworkOfEntries.convertType 3 holedBoxTable = .ok (none, table')) ∧
      patchworkOfTypes.FailsIn holedBox ∧
      ∃ j table', patchworkOfEntries.convertType 1 holedBoxTable = .ok (some j, table') ∧
        table'.tree j = some (.tuple [.mk "core" "i64" [] []]) := by
  have himplements : patchworkOfEntries.Implements patchworkOfTypes := by
    unfold Implements patchworkOfEntries patchworkOfTypes
    rw [List.forall₂_map_left_iff, List.forall₂_map_right_iff, List.forall₂_same]
    exact fun p _ => implements_bareConversion p.1 p.2.1 p.2.2
  have hb : holedBoxTable.Built := Built.internTree .refl holedBox
  have hbox : holedBoxTable.tree 3 = some holedBox := by decide +kernel
  have htuple : holedBoxTable.tree 1 = some (.tuple [.mk "core" "i32" [] []]) := by decide +kernel
  have hfailure : patchworkOfTypes.convertPlainly holedBox = none := by decide +kernel
  have hsuccess : patchworkOfTypes.convertPlainly (.tuple [.mk "core" "i32" [] []]) =
    some (.tuple [.mk "core" "i64" [] []]) := by decide +kernel
  obtain ⟨hrun, t, answer, table', ht, hplain, -, hrel, -, hfails, -⟩ :=
    convertType_eq_convertPlainly himplements hb (lt_size_of_tree hbox)
  obtain rfl : holedBox = t := Option.some.inj (hbox.symm.trans ht)
  obtain ⟨hrun₁, t₁, answer₁, table₁, ht₁, hplain₁, -, hrel₁, -⟩ :=
    convertType_eq_convertPlainly himplements hb (lt_size_of_tree htuple)
  obtain rfl : Ty.tuple [.mk "core" "i32" [] []] = t₁ := Option.some.inj (htuple.symm.trans ht₁)
  rw [hfailure] at hrel
  rw [hsuccess] at hrel₁
  cases hrel with
  | none =>
    cases hrel₁ with
    | some hj =>
      exact ⟨himplements, hb, lt_size_of_tree hbox, hbox, htuple, ⟨table', hrun.trans hplain⟩,
        hfails.mp rfl, _, table₁, hrun₁.trans hplain₁, hj⟩

end TableConverter

end RegionIR
