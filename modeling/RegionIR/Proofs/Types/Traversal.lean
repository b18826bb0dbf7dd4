import RegionIR.Proofs.Types.Dict
import RegionIR.Ty.Table

/-! Induction on types and attributes, and what the traversal of an attribute does.

A traversal that may give nothing relates an attribute to one of the same form, the types in
the one to the types in the other. -/

namespace RegionIR

section Induction

variable {τ : Type} {Q : Attr τ → Prop} (htype : ∀ t, Q (.type t))
  (hlist : ∀ items, (∀ a ∈ items, Q a) → Q (.list items))
  (hleaf : ∀ a : Attr τ, a.asType = none → a.asList = none → Q a)

include htype hlist hleaf

/-- What is in the types is left out of this induction. -/
theorem Attr.forall_of_items (a : Attr τ) : Q a := by
  refine @Attr.rec τ Q (fun l => ∀ a ∈ l, Q a) ?unit ?bool ?int ?float ?string ?symbol htype hlist
    ?nil ?cons a
  case nil => simp
  case cons => exact fun _ _ ha has => List.forall_mem_cons.mpr ⟨ha, has⟩
  all_goals intros; exact hleaf _ rfl rfl

end Induction

section Induction

variable {P : Ty → Prop} {Q : Attr Ty → Prop}
  (hty : ∀ d n ps as, (∀ p ∈ ps, P p) → (∀ e ∈ as, Q e.2) → P (.mk d n ps as))
  (htype : ∀ t, P t → Q (.type t)) (hlist : ∀ items, (∀ a ∈ items, Q a) → Q (.list items))
  (hleaf : ∀ a : Attr Ty, a.asType = none → a.asList = none → Q a)

include hty htype hlist hleaf

theorem Ty.forall_of (t : Ty) : P t := by
  refine @Ty.rec P (fun l => ∀ p ∈ l, P p) (fun l => ∀ e ∈ l, Q e.2) (fun e => Q e.2) Q
    (fun l => ∀ a ∈ l, Q a) hty ?nil ?cons ?nilEntry ?consEntry (fun _ _ ha => ha) ?unit ?bool ?int
    ?float ?string ?symbol htype hlist ?nilItem ?consItem t
  case nil => simp
  case cons => exact fun _ _ hp hps => List.forall_mem_cons.mpr ⟨hp, hps⟩
  case nilEntry => simp
  case consEntry => exact fun _ _ he hes => List.forall_mem_cons.mpr ⟨he, hes⟩
  case nilItem => simp
  case consItem => exact fun _ _ ha has => List.forall_mem_cons.mpr ⟨ha, has⟩
  all_goals intros; exact hleaf _ rfl rfl

theorem Attr.forall_of (a : Attr Ty) : Q a :=
  Attr.forall_of_items (fun t => htype t (Ty.forall_of hty htype hlist hleaf t)) hlist hleaf a

theorem Ty.both_of : (∀ t, P t) ∧ ∀ a, Q a :=
  ⟨Ty.forall_of hty htype hlist hleaf, Attr.forall_of hty htype hlist hleaf⟩

end Induction

theorem map_eq_self_iff {α : Type} {f : α → α} {l : List α} : l.map f = l ↔ ∀ a ∈ l, f a = a := by
  induction l with
  | nil => simp
  | cons a l ih => simp [ih]

theorem exists_forall₂ {α β : Type} {R : α → β → Prop} {l : List α} (h : ∀ a ∈ l, ∃ b, R a b) :
    ∃ l', List.Forall₂ R l l' := by
  induction l with
  | nil => exact ⟨[], .nil⟩
  | cons a l ih =>
    rw [List.forall_mem_cons] at h
    obtain ⟨b, hb⟩ := h.1
    obtain ⟨l', hl'⟩ := ih h.2
    exact ⟨b :: l', .cons hb hl'⟩

theorem forall₂_imp_of_mem {α β : Type} {R S : α → β → Prop} {l : List α} {l' : List β}
    (h : List.Forall₂ R l l') (himp : ∀ b ∈ l', ∀ a, R a b → S a b) : List.Forall₂ S l l' := by
  induction h with
  | nil => exact .nil
  | cons hab _ ih =>
    rw [List.forall_mem_cons] at himp
    exact .cons (himp.1 _ hab) (ih himp.2)

theorem forall_mem_of_forall₂ {α β : Type} {R : α → β → Prop} {p : α → Prop} {l : List α}
    {l' : List β} (h : List.Forall₂ R l l') (hp : ∀ a b, R a b → p a) : ∀ a ∈ l, p a := by
  induction h with
  | nil => simp
  | cons hab _ ih => exact List.forall_mem_cons.mpr ⟨hp _ _ hab, ih⟩

theorem mapM_eq_some_iff {α β : Type} {f : α → Option β} {l : List α} {l' : List β} :
    l.mapM f = some l' ↔ List.Forall₂ (fun a b => f a = some b) l l' := by
  induction l generalizing l' with
  | nil => simp [List.forall₂_nil_left_iff, eq_comm]
  | cons a l ih =>
    simp only [List.mapM_cons, Option.bind_eq_bind, Option.bind_eq_some_iff, Option.pure_def,
      Option.some.injEq, List.forall₂_cons_left_iff, ih]
    constructor
    · rintro ⟨b, hb, bs, hbs, rfl⟩
      exact ⟨b, bs, hb, hbs, rfl⟩
    · rintro ⟨b, bs, hb, hbs, rfl⟩
      exact ⟨b, hb, bs, hbs, rfl⟩

namespace Attr

variable {σ τ : Type}

theorem itemTypes_eq (items : List (Attr τ)) : itemTypes items = items.flatMap types := by
  induction items with
  | nil => rfl
  | cons a items ih => rw [itemTypes, ih, List.flatMap_cons]

theorem anyContainsType_eq (items : List (Attr τ)) :
    anyContainsType items = items.any containsType := by
  induction items with
  | nil => rfl
  | cons a items ih => rw [anyContainsType, ih, List.any_cons]

section Monadic

variable {m : Type → Type} [Monad m]

theorem allItemTypesM_eq (p : τ → m Bool) (items : List (Attr τ)) :
    allItemTypesM p items = items.allM (allTypesM p) := by
  induction items with
  | nil => rfl
  | cons a items ih =>
    simp only [allItemTypesM, List.allM, ih]
    congr 1
    funext b
    cases b <;> rfl

variable [LawfulMonad m]

theorem mapItemTypesM_eq (f : τ → m σ) (items : List (Attr τ)) :
    mapItemTypesM f items = items.mapM (mapTypesM f) := by
  induction items with
  | nil => simp [mapItemTypesM]
  | cons a items ih => simp [mapItemTypesM, ih, List.mapM_cons]

theorem mapTypesM_of_not_containsType (f : τ → m τ) :
    ∀ a : Attr τ, a.containsType = false → a.mapTypesM f = pure a := by
  refine forall_of_items ?_ ?_ ?_
  · intro t h
    simp [containsType] at h
  · intro items ih h
    rw [containsType, anyContainsType_eq, List.any_eq_false] at h
    have hitems : items.mapM (mapTypesM f) = pure items := by
      induction items with
      | nil => simp
      | cons a items ih' =>
        simp only [List.forall_mem_cons, Bool.not_eq_true] at ih h
        rw [List.mapM_cons, ih.1 h.1, ih' ih.2 (by simpa using h.2)]
        simp
    simp [mapTypesM, mapItemTypesM_eq, hitems]
  · intro a ht hl _
    cases a <;> simp_all [mapTypesM, asType, asList]

end Monadic

variable {f g : σ → Option τ}

theorem mapTypesM_eq_some_type_iff {a : Attr σ} {y : τ} :
    a.mapTypesM f = some (.type y) ↔ ∃ x, a = .type x ∧ f x = some y := by
  cases a <;> simp [mapTypesM, Option.bind_eq_some_iff]

theorem mapTypesM_eq_some_list_iff {a : Attr σ} {bs : List (Attr τ)} :
    a.mapTypesM f = some (.list bs) ↔
      ∃ as, a = .list as ∧ List.Forall₂ (fun a b => a.mapTypesM f = some b) as bs := by
  cases a <;> simp [mapTypesM, mapItemTypesM_eq, mapM_eq_some_iff, Option.bind_eq_some_iff]

theorem mapTypesM_leaf_comm {a : Attr σ} {b : Attr τ} (ht : b.asType = none) (hl : b.asList = none) :
    a.mapTypesM f = some b ↔ b.mapTypesM (fun _ => none) = some a := by
  cases b <;> simp only [asType, asList, reduceCtorEq] at ht hl <;>
    cases a <;> simp [mapTypesM, Option.bind_eq_some_iff] <;> exact eq_comm

theorem mapTypesM_eq_some_leaf_iff {a : Attr σ} {b : Attr τ} (ht : b.asType = none)
    (hl : b.asList = none) : a.mapTypesM f = some b ↔ a.mapTypesM g = some b :=
  (mapTypesM_leaf_comm ht hl).trans (mapTypesM_leaf_comm ht hl).symm

theorem not_containsType_of_leaf {a : Attr σ} {b : Attr τ} (h : a.mapTypesM f = some b)
    (ht : b.asType = none) (hl : b.asList = none) : a.containsType = false := by
  cases a <;> cases b <;>
    simp_all [mapTypesM, containsType, asType, asList, Option.bind_eq_some_iff]

theorem mapTypesM_mono (h : ∀ x y, f x = some y → g x = some y) :
    ∀ (b : Attr τ) (a : Attr σ), a.mapTypesM f = some b → a.mapTypesM g = some b := by
  refine forall_of_items ?_ ?_ ?_
  · intro y a ha
    obtain ⟨x, rfl, hx⟩ := mapTypesM_eq_some_type_iff.mp ha
    exact mapTypesM_eq_some_type_iff.mpr ⟨x, rfl, h x y hx⟩
  · intro bs ih a ha
    rw [mapTypesM_eq_some_list_iff] at ha
    obtain ⟨as, rfl, has⟩ := ha
    exact mapTypesM_eq_some_list_iff.mpr ⟨as, rfl, forall₂_imp_of_mem has ih⟩
  · exact fun b ht hl a ha => (mapTypesM_eq_some_leaf_iff ht hl).mp ha

theorem mapTypesM_inj (h : ∀ x x' y, f x = some y → f x' = some y → x = x') :
    ∀ (b : Attr τ) (a a' : Attr σ), a.mapTypesM f = some b → a'.mapTypesM f = some b → a = a' := by
  refine forall_of_items ?_ ?_ ?_
  · intro y a a' ha ha'
    obtain ⟨x, rfl, hx⟩ := mapTypesM_eq_some_type_iff.mp ha
    obtain ⟨x', rfl, hx'⟩ := mapTypesM_eq_some_type_iff.mp ha'
    rw [h x x' y hx hx']
  · intro bs ih a a' ha ha'
    rw [mapTypesM_eq_some_list_iff] at ha
    obtain ⟨as, rfl, has⟩ := ha
    rw [mapTypesM_eq_some_list_iff] at ha'
    obtain ⟨as', rfl, has'⟩ := ha'
    congr 1
    induction has generalizing as' with
    | nil => exact (List.forall₂_nil_right_iff.mp has').symm
    | cons hab _ ih' =>
      obtain ⟨a', as', hab', htail, rfl⟩ := List.forall₂_cons_right_iff.mp has'
      rw [List.forall_mem_cons] at ih
      rw [ih.1 _ _ hab hab', ih' ih.2 as' htail]
  · intro b ht hl a a' ha ha'
    rw [mapTypesM_leaf_comm ht hl] at ha ha'
    exact Option.some.inj (ha.symm.trans ha')

theorem exists_of_mem_types :
    ∀ (b : Attr τ) (a : Attr σ), a.mapTypesM f = some b → ∀ x ∈ a.types, ∃ y, f x = some y := by
  refine forall_of_items ?_ ?_ ?_
  · intro y a ha
    obtain ⟨x, rfl, hx⟩ := mapTypesM_eq_some_type_iff.mp ha
    simpa [types] using ⟨y, hx⟩
  · intro bs ih a ha
    rw [mapTypesM_eq_some_list_iff] at ha
    obtain ⟨as, rfl, has⟩ := ha
    rw [types, itemTypes_eq]
    induction has with
    | nil => simp
    | cons hab _ ih' =>
      rw [List.forall_mem_cons] at ih
      rw [List.flatMap_cons, List.forall_mem_append]
      exact ⟨ih.1 _ hab, ih' ih.2⟩
  · intro b ht hl a ha
    cases a <;> cases b <;> simp_all [mapTypesM, asType, asList, types, Option.bind_eq_some_iff]

theorem exists_mapTypesM :
    ∀ a : Attr σ, (∀ x ∈ a.types, ∃ y, f x = some y) → ∃ b, a.mapTypesM f = some b := by
  refine forall_of_items ?_ ?_ ?_
  · intro x h
    obtain ⟨y, hy⟩ := h x (by simp [types])
    exact ⟨.type y, by simp [mapTypesM, hy]⟩
  · intro items ih h
    rw [types, itemTypes_eq] at h
    have hitems (a : Attr σ) (ha : a ∈ items) : ∃ b, a.mapTypesM f = some b :=
      ih a ha fun x hx => h x (List.mem_flatMap_of_mem ha hx)
    obtain ⟨bs, hbs⟩ := exists_forall₂ hitems
    exact ⟨.list bs, mapTypesM_eq_some_list_iff.mpr ⟨items, rfl, hbs⟩⟩
  · intro a ht hl _
    cases a <;> simp_all [mapTypesM, asType, asList]

end Attr

namespace TypeNode

variable {f g : Nat → Option Ty} {node : TypeNode} {t : Ty}

theorem toTy_eq_some_iff : node.toTy f = some t ↔
    ∃ ps as, t = .mk node.dialect node.name ps as ∧
      List.Forall₂ (fun i p => f i = some p) node.params ps ∧
      Dict.Corresponds (fun b a => b.mapTypesM f = some a) node.attrs as := by
  have hentry (e : String × Attr Nat) (e' : String × Attr Ty) :
      ((e.2.mapTypesM f).bind fun a => some (e.1, a)) = some e' ↔
        e'.1 = e.1 ∧ e.2.mapTypesM f = some e'.2 := by
    obtain ⟨k, a⟩ := e'
    simp only [Option.bind_eq_some_iff, Option.some.injEq, Prod.mk.injEq]
    exact ⟨fun ⟨b, hb, hk, hba⟩ => ⟨hk.symm, hba ▸ hb⟩, fun ⟨hk, ha⟩ => ⟨a, ha, hk.symm, rfl⟩⟩
  simp only [toTy, Option.bind_eq_bind, Option.bind_eq_some_iff, Option.pure_def,
    Option.some.injEq, mapM_eq_some_iff, hentry]
  constructor
  · rintro ⟨ps, hps, as, has, rfl⟩
    exact ⟨ps, as, rfl, hps, has⟩
  · rintro ⟨ps, as, rfl, hps, has⟩
    exact ⟨ps, hps, as, has, rfl⟩

theorem is_of_toTy (h : node.toTy f = some t) (d n : String) : node.is d n = t.is d n := by
  obtain ⟨ps, as, rfl, -, -⟩ := toTy_eq_some_iff.mp h
  rfl

theorem toTy_mono (h : ∀ i t, f i = some t → g i = some t) (ht : node.toTy f = some t) :
    node.toTy g = some t := by
  obtain ⟨ps, as, rfl, hps, has⟩ := toTy_eq_some_iff.mp ht
  exact toTy_eq_some_iff.mpr ⟨ps, as, rfl, hps.imp h,
    has.imp fun b a => Attr.mapTypesM_mono h a b⟩

theorem toTy_inj (h : ∀ i j t, f i = some t → f j = some t → i = j) {node' : TypeNode}
    (ht : node.toTy f = some t) (ht' : node'.toTy f = some t) : node = node' := by
  obtain ⟨ps, as, rfl, hps, has⟩ := toTy_eq_some_iff.mp ht
  obtain ⟨ps', as', heq, hps', has'⟩ := toTy_eq_some_iff.mp ht'
  simp only [Ty.mk.injEq] at heq
  obtain ⟨hd, hn, rfl, rfl⟩ := heq
  have hcomponent : Relator.LeftUnique fun i p => f i = some p := fun i j t => h i j t
  have hentry : Relator.LeftUnique fun (e : String × Attr Nat) (e' : String × Attr Ty) =>
      e'.1 = e.1 ∧ e.2.mapTypesM f = some e'.2 := fun e₁ e₂ e' he₁ he₂ =>
    Prod.ext (he₁.1.symm.trans he₂.1) (Attr.mapTypesM_inj h _ _ _ he₁.2 he₂.2)
  have hparams := List.left_unique_forall₂' hcomponent hps hps'
  have hattrs := List.left_unique_forall₂' hentry has has'
  cases node
  cases node'
  simp_all

theorem exists_of_mem_components (ht : node.toTy f = some t) :
    ∀ i ∈ node.components, ∃ u, f i = some u := by
  obtain ⟨ps, as, rfl, hps, has⟩ := toTy_eq_some_iff.mp ht
  rw [components, List.forall_mem_append]
  refine ⟨forall_mem_of_forall₂ hps fun i p hp => ⟨p, hp⟩, fun i hi => ?_⟩
  obtain ⟨e, he, hi⟩ := List.mem_flatMap.mp hi
  have hattrs := forall_mem_of_forall₂ (p := fun e => ∀ i ∈ e.2.types, ∃ u, f i = some u) has
    fun e e' he => Attr.exists_of_mem_types _ _ he.2
  exact hattrs e he i hi

theorem exists_toTy (h : ∀ i ∈ node.components, ∃ u, f i = some u) : ∃ t, node.toTy f = some t := by
  rw [components, List.forall_mem_append] at h
  have hattrs (e : String × Attr Nat) (he : e ∈ node.attrs) :
      ∃ e' : String × Attr Ty, e'.1 = e.1 ∧ e.2.mapTypesM f = some e'.2 := by
    obtain ⟨a, ha⟩ := Attr.exists_mapTypesM e.2 fun i hi => h.2 i (List.mem_flatMap_of_mem he hi)
    exact ⟨(e.1, a), rfl, ha⟩
  obtain ⟨ps, hps⟩ := exists_forall₂ h.1
  obtain ⟨as, has⟩ := exists_forall₂ hattrs
  exact ⟨_, toTy_eq_some_iff.mpr ⟨ps, as, rfl, hps, has⟩⟩

end TypeNode

end RegionIR
