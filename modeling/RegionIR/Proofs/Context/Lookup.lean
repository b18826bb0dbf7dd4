import Mathlib.Data.List.Forall2
import Mathlib.Data.List.Nodup
import Mathlib.Tactic.Common
import RegionIR.Context.Edit
import RegionIR.Ty.Builtin

/-! Looking entities up, and what each edit of a context leaves to be found.

Proofs about contexts ask for entities by `op?`, `value?`, `block?` and `region?`, which say
nothing about why there is none. Each edit has one lemma that says what it asked for and what
every look-up gives afterwards; no other proof opens the edits. -/

namespace RegionIR

@[simp] theorem except_bind_eq_ok {ε α β : Type} {x : Except ε α} {f : α → Except ε β} {b : β} :
    (x >>= f) = .ok b ↔ ∃ a, x = .ok a ∧ f a = .ok b := by
  cases x <;> simp [bind, Except.bind]

@[simp] theorem except_map_eq_ok {ε α β : Type} {x : Except ε α} {f : α → β} {b : β} :
    (f <$> x) = .ok b ↔ ∃ a, x = .ok a ∧ f a = b := by
  cases x <;> simp [Functor.map, Except.map]

@[simp] theorem except_pure_eq_ok {ε α : Type} {a b : α} :
    (pure a : Except ε α) = .ok b ↔ a = b := by
  simp [pure, Except.pure]

@[simp] theorem except_throw_eq_ok {ε α : Type} {e : ε} {b : α} :
    (throw e : Except ε α) = .ok b ↔ False := by
  simp [throw, throwThe, MonadExceptOf.throw]

@[simp] theorem except_ok_bind {ε α β : Type} {a : α} {f : α → Except ε β} :
    ((.ok a : Except ε α) >>= f) = f a := rfl

theorem except_any_iff {ε α : Type} {x : Except ε α} {p : α → Bool} :
    x.toOption.any p ↔ ∃ a, x = .ok a ∧ p a := by
  cases x <;> simp [Except.toOption]

theorem except_toOption_eq_some {ε α : Type} {x : Except ε α} {a : α} :
    x.toOption = some a ↔ x = .ok a := by
  cases x <;> simp [Except.toOption]

theorem except_isNone_iff {ε α : Type} {x : Except ε α} :
    x.toOption.isNone ↔ ∃ e, x = .error e := by
  cases x <;> simp [Except.toOption]

theorem mapM_eq_ok_iff {ε α β : Type} {f : α → Except ε β} {l : List α} {l' : List β} :
    l.mapM f = .ok l' ↔ List.Forall₂ (fun a b => f a = .ok b) l l' := by
  induction l generalizing l' with
  | nil => simp [pure, Except.pure, eq_comm]
  | cons a l ih =>
    simp only [List.mapM_cons, except_bind_eq_ok, except_pure_eq_ok, ih, List.forall₂_cons_left_iff]
    constructor
    · rintro ⟨b, hb, bs, hbs, rfl⟩
      exact ⟨b, bs, hb, hbs, rfl⟩
    · rintro ⟨b, bs, hb, hbs, rfl⟩
      exact ⟨b, hb, bs, hbs, rfl⟩

theorem eq_of_map_eq {α β : Type} {f : α → β} {l l' : List α}
    (h : ∀ a ∈ l, ∀ a' ∈ l', f a = f a' → a = a') (hmap : l.map f = l'.map f) : l = l' := by
  induction l generalizing l' with
  | nil => exact (List.map_eq_nil_iff.mp hmap.symm).symm
  | cons a l ih =>
    obtain ⟨a', l'', rfl, hhead, htail⟩ := List.map_eq_cons_iff.mp hmap.symm
    rw [h a List.mem_cons_self a' List.mem_cons_self hhead.symm, ih (fun b hb b' hb' =>
      h b (List.mem_cons_of_mem a hb) b' (List.mem_cons_of_mem a' hb')) htail.symm]

theorem lookup_eq_some_iff_mem {α β : Type} [DecidableEq α] {l : List (α × β)}
    (h : (l.map Prod.fst).Nodup) {a : α} {b : β} : l.lookup a = some b ↔ (a, b) ∈ l := by
  induction l with
  | nil => simp
  | cons e l ih =>
    obtain ⟨k, d⟩ := e
    rw [List.map_cons, List.nodup_cons] at h
    rw [List.lookup_cons, List.mem_cons, Prod.mk.injEq]
    by_cases hk : a = k
    · subst hk
      have hnot : (a, b) ∉ l := fun hm => h.1 (List.mem_map.mpr ⟨_, hm, rfl⟩)
      simp [hnot, eq_comm]
    · simp [beq_eq_false_iff_ne.mpr hk, hk, ih h.2]

section Lists

variable {ε α β : Type}

theorem allM_of_ok {f : α → Except ε Bool} {p : α → Bool} {l : List α}
    (h : ∀ a ∈ l, f a = .ok (p a)) : l.allM f = .ok (l.all p) := by
  induction l with
  | nil => rfl
  | cons a l ih =>
    simp only [List.forall_mem_cons] at h
    rw [List.allM_cons, h.1, except_ok_bind, List.all_cons, ih h.2]
    cases p a <;> rfl

theorem mapM_congr {m : Type → Type} [Monad m] [LawfulMonad m] {α β : Type} {f g : α → m β}
    {l : List α} (h : ∀ a ∈ l, f a = g a) : l.mapM f = l.mapM g := by
  induction l with
  | nil => rw [List.mapM_nil, List.mapM_nil]
  | cons a l ih =>
    rw [List.forall_mem_cons] at h
    rw [List.mapM_cons, List.mapM_cons, h.1, ih h.2]

theorem allM_congr {f g : α → Except ε Bool} {l : List α} (h : ∀ a ∈ l, f a = g a) :
    l.allM f = l.allM g := by
  induction l with
  | nil => rfl
  | cons a l ih =>
    rw [List.forall_mem_cons] at h
    rw [List.allM_cons, List.allM_cons, h.1, ih h.2]

theorem filterMapM_congr {f g : α → Except ε (Option β)} {l : List α} (h : ∀ a ∈ l, f a = g a) :
    l.filterMapM f = l.filterMapM g := by
  induction l with
  | nil => rfl
  | cons a l ih =>
    rw [List.forall_mem_cons] at h
    rw [List.filterMapM_cons, List.filterMapM_cons, h.1, ih h.2]

theorem forall_of_allM {f : α → Except ε Bool} {l : List α} (h : l.allM f = .ok true) :
    ∀ a ∈ l, f a = .ok true := by
  induction l with
  | nil => simp
  | cons a l ih =>
    rw [List.allM_cons, except_bind_eq_ok] at h
    obtain ⟨b, hb, h⟩ := h
    cases b with
    | false => simp at h
    | true => exact List.forall_mem_cons.mpr ⟨hb, ih h⟩

theorem filterMapM_of_ok {f : α → Except ε (Option β)} {g : α → Option β} {l : List α}
    (h : ∀ a ∈ l, f a = .ok (g a)) : l.filterMapM f = .ok (l.filterMap g) := by
  induction l with
  | nil => rfl
  | cons a l ih =>
    simp only [List.forall_mem_cons] at h
    rw [List.filterMapM_cons, h.1, except_ok_bind, ih h.2, List.filterMap_cons]
    cases g a <;> rfl

theorem filterM_of_ok {f : α → Except ε Bool} {p : α → Bool} {l : List α}
    (h : ∀ a ∈ l, f a = .ok (p a)) : l.filterM f = .ok (l.filter p) := by
  have haux (acc : List α) : l.filterAuxM f acc = .ok ((l.filter p).reverse ++ acc) := by
    induction l generalizing acc with
    | nil => rfl
    | cons a l ih =>
      simp only [List.forall_mem_cons] at h
      simp only [List.filterAuxM, h.1, except_ok_bind, ih h.2, List.filter_cons]
      cases p a <;> simp
  simp only [List.filterM, haux, except_ok_bind, List.append_nil]
  exact congrArg Except.ok (List.reverse_reverse _)

theorem forall_ok_of_filterM {f : α → Except ε Bool} {l l' : List α} (h : l.filterM f = .ok l') :
    ∀ a ∈ l, ∃ b, f a = .ok b := by
  simp only [List.filterM, except_bind_eq_ok] at h
  obtain ⟨acc, h, -⟩ := h
  generalize [] = done at h
  induction l generalizing done with
  | nil => simp
  | cons a l ih =>
    simp only [List.filterAuxM, except_bind_eq_ok] at h
    obtain ⟨b, hb, h⟩ := h
    exact List.forall_mem_cons.mpr ⟨⟨b, hb⟩, ih _ h⟩

theorem exists_bind {x : Except ε α} {f : α → Except ε β} (hx : ∃ a, x = .ok a)
    (hf : ∀ a, ∃ b, f a = .ok b) : ∃ b, (x >>= f) = .ok b := by
  obtain ⟨a, rfl⟩ := hx
  exact hf a

theorem exists_mapM {f : α → Except ε β} {l : List α} (h : ∀ a ∈ l, ∃ b, f a = .ok b) :
    ∃ l', l.mapM f = .ok l' := by
  induction l with
  | nil => exact ⟨[], rfl⟩
  | cons a l ih =>
    obtain ⟨⟨b, hb⟩, hl⟩ := List.forall_mem_cons.mp h
    obtain ⟨bs, hbs⟩ := ih hl
    exact ⟨b :: bs, by simp [hb, hbs]⟩

theorem eq_filter_of_filterM {f : α → Except ε Bool} {l l' : List α} (h : l.filterM f = .ok l') :
    (∀ a ∈ l, f a = .ok ((f a).toOption.getD false)) ∧
      l' = l.filter fun a => (f a).toOption.getD false := by
  have hall : ∀ a ∈ l, f a = .ok ((f a).toOption.getD false) := fun a ha => by
    obtain ⟨b, hb⟩ := forall_ok_of_filterM h a ha
    rw [hb]
    rfl
  rw [filterM_of_ok hall, Except.ok.injEq] at h
  exact ⟨hall, h.symm⟩

theorem mem_of_filterM {f : α → Except ε Bool} {l l' : List α} (h : l.filterM f = .ok l') :
    ∀ a ∈ l', a ∈ l := by
  obtain ⟨-, rfl⟩ := eq_filter_of_filterM h
  exact fun a ha => List.mem_of_mem_filter ha

theorem filterM_eq_ok_nil {f : α → Except ε Bool} {l : List α} (h : l.filterM f = .ok []) :
    ∀ a ∈ l, f a = .ok false := by
  obtain ⟨hall, hnil⟩ := eq_filter_of_filterM h
  intro a ha
  rw [hall a ha, Bool.eq_false_iff.mpr (List.filter_eq_nil_iff.mp hnil.symm a ha)]

end Lists

namespace Context

variable {ctx ctx' : Context}

def op? (ctx : Context) (id : OpId) : Option Op := ctx.ops[id.index]?

def value? (ctx : Context) (id : ValueId) : Option Value := ctx.values[id.index]?

def block? (ctx : Context) (id : BlockId) : Option Block := ctx.blocks[id.index]?

def region? (ctx : Context) (id : RegionId) : Option Region := ctx.regions[id.index]?

@[simp] theorem op_eq_ok {id : OpId} {op : Op} : ctx.op id = .ok op ↔ ctx.op? id = some op := by
  unfold Context.op op?
  split <;> simp [*]

@[simp] theorem value_eq_ok {id : ValueId} {value : Value} :
    ctx.value id = .ok value ↔ ctx.value? id = some value := by
  unfold Context.value value?
  split <;> simp [*]

@[simp] theorem block_eq_ok {id : BlockId} {block : Block} :
    ctx.block id = .ok block ↔ ctx.block? id = some block := by
  unfold Context.block block?
  split <;> simp [*]

@[simp] theorem region_eq_ok {id : RegionId} {region : Region} :
    ctx.region id = .ok region ↔ ctx.region? id = some region := by
  unfold Context.region region?
  split <;> simp [*]

@[simp] theorem entryAt_eq_ok {α : Type} {l : List α} {i : Nat} {a : α} :
    entryAt l i = .ok a ↔ l[i]? = some a := by
  unfold entryAt
  split <;> simp [*]

theorem typeOf_eq_ok {v : ValueId} {ty : Ty} :
    ctx.typeOf v = .ok ty ↔ ∃ value, ctx.value? v = some value ∧ value.ty = ty := by
  simp [typeOf]

/-- The type of a value as a plain function. -/
def tyOf (ctx : Context) (v : ValueId) : Ty :=
  ((ctx.value? v).map Value.ty).getD (.tuple [])

theorem typeOf_of_value?_eq_some {v : ValueId} {value : Value} (h : ctx.value? v = some value) :
    ctx.typeOf v = .ok (ctx.tyOf v) :=
  typeOf_eq_ok.mpr ⟨value, h, by simp [tyOf, h]⟩

end Context

end RegionIR
