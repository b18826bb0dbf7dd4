import Mathlib.Data.List.Forall2
import Mathlib.Tactic.Common
import RegionIR.Ty.Dict

/-! Dictionaries in key order.

Setting a key keeps the order, and changes a value that is there in its place. A dictionary in
key order is determined by the values of its keys. -/

namespace RegionIR

namespace Dict

variable {α : Type}

/-- Entries in strictly increasing key order. -/
def Sorted (d : Dict α) : Prop :=
  d.Pairwise fun e f => e.1 < f.1

instance (d : Dict α) : Decidable d.Sorted :=
  inferInstanceAs (Decidable (d.Pairwise fun e f => e.1 < f.1))

theorem mem_insert {key : String} {value : α} {d : Dict α} {e : String × α}
    (h : e ∈ d.insert key value) : e = (key, value) ∨ e ∈ d := by
  induction d with
  | nil =>
    simp only [insert, List.mem_singleton] at h
    exact .inl h
  | cons f d ih =>
    obtain ⟨k, v⟩ := f
    simp only [insert] at h
    split at h
    · rcases List.mem_cons.mp h with rfl | h
      · exact .inl rfl
      · exact .inr h
    · split at h
      · rcases List.mem_cons.mp h with rfl | h
        · exact .inl rfl
        · exact .inr (List.mem_cons_of_mem _ h)
      · rcases List.mem_cons.mp h with rfl | h
        · exact .inr List.mem_cons_self
        · exact (ih h).imp_right (List.mem_cons_of_mem _)

theorem Sorted.insert {d : Dict α} (hd : d.Sorted) (key : String) (value : α) :
    (d.insert key value).Sorted := by
  induction d with
  | nil => simp [Dict.insert, Sorted]
  | cons f d ih =>
    obtain ⟨k, v⟩ := f
    obtain ⟨hhead, htail⟩ := List.pairwise_cons.mp hd
    simp only [Dict.insert]
    split
    · rename_i hlt
      refine List.pairwise_cons.mpr ⟨fun e he => ?_, hd⟩
      rcases List.mem_cons.mp he with rfl | he
      · exact hlt
      · exact String.lt_trans hlt (hhead e he)
    · rename_i hnlt
      split
      · rename_i heq
        exact List.pairwise_cons.mpr ⟨fun e he => heq ▸ hhead e he, htail⟩
      · rename_i hne
        refine List.pairwise_cons.mpr ⟨fun e he => ?_, ih htail⟩
        rcases mem_insert he with rfl | he
        · have hlt : k < key := by
            refine Decidable.not_not.mp fun hn => hne ?_
            exact String.le_antisymm (String.not_lt.mp hn) (String.not_lt.mp hnlt)
          exact hlt
        · exact hhead e he

theorem sorted_ofEntries (entries : List (String × α)) : (ofEntries entries).Sorted := by
  have hgen : ∀ d : Dict α, d.Sorted → (entries.foldl (fun d e => d.insert e.1 e.2) d).Sorted := by
    induction entries with
    | nil => exact fun d hd => hd
    | cons e entries ih => exact fun d hd => ih _ (hd.insert e.1 e.2)
  exact hgen [] (by simp [Sorted])

theorem insert_of_sorted {pre post : Dict α} {key : String} {old : α}
    (h : Sorted (pre ++ (key, old) :: post)) (value : α) :
    Dict.insert key value (pre ++ (key, old) :: post) = pre ++ (key, value) :: post := by
  induction pre with
  | nil => simp [Dict.insert]
  | cons f pre ih =>
    obtain ⟨k, v⟩ := f
    obtain ⟨hhead, htail⟩ := List.pairwise_cons.mp h
    have hlt : k < key := hhead (key, old) (by simp)
    have hne : key ≠ k := fun e => String.lt_irrefl k (e ▸ hlt)
    simp [Dict.insert, String.lt_asymm hlt, hne, ih htail]

theorem Sorted.nodup_keys {d : Dict α} (hd : d.Sorted) : (d.map Prod.fst).Nodup := by
  refine List.pairwise_map.mpr (hd.imp fun {e f} h he => ?_)
  exact String.lt_irrefl _ (he ▸ h)

theorem find?_cons (key : String) (e : String × α) (d : Dict α) :
    Dict.find? key (e :: d) = if key = e.1 then some e.2 else Dict.find? key d := by
  obtain ⟨k, v⟩ := e
  by_cases h : key = k
  · simp [find?, h]
  · have hne : (key == k) = false := by simp [h]
    simp [find?, List.lookup_cons, h, hne]

theorem find?_eq_none_of_forall_ne {key : String} {d : Dict α} (h : ∀ e ∈ d, key ≠ e.1) :
    d.find? key = none := by
  induction d with
  | nil => rfl
  | cons e d ih =>
    obtain ⟨hne, hd⟩ := List.forall_mem_cons.mp h
    rw [find?_cons, if_neg hne, ih hd]

theorem mem_of_find? {key : String} {value : α} {d : Dict α} (h : d.find? key = some value) :
    (key, value) ∈ d := by
  induction d with
  | nil => simp [find?] at h
  | cons e d ih =>
    rw [find?_cons] at h
    split at h
    · rename_i hk
      cases Option.some.inj h
      exact hk ▸ List.mem_cons_self
    · exact List.mem_cons_of_mem _ (ih h)

theorem Sorted.ext {d d' : Dict α} (hd : d.Sorted) (hd' : d'.Sorted)
    (h : ∀ key, d.find? key = d'.find? key) : d = d' := by
  induction d generalizing d' with
  | nil =>
    cases d' with
    | nil => rfl
    | cons e d' =>
      have he := h e.1
      rw [find?_cons, if_pos rfl] at he
      simp [find?] at he
  | cons e d ih =>
    obtain ⟨hhead, htail⟩ := List.pairwise_cons.mp hd
    have hnot : Dict.find? e.1 d = none :=
      find?_eq_none_of_forall_ne fun f hf he => String.lt_irrefl _ (he ▸ hhead f hf)
    cases d' with
    | nil =>
      have he := h e.1
      rw [find?_cons, if_pos rfl] at he
      simp [find?] at he
    | cons f d' =>
      obtain ⟨hhead', htail'⟩ := List.pairwise_cons.mp hd'
      have hnot' : Dict.find? f.1 d' = none :=
        find?_eq_none_of_forall_ne fun g hg he => String.lt_irrefl _ (he ▸ hhead' g hg)
      have hkey : e.1 = f.1 := by
        by_contra hne
        have he := h e.1
        have hf := h f.1
        simp only [find?_cons, if_true, if_neg hne] at he
        simp only [find?_cons, if_true, if_neg (Ne.symm hne)] at hf
        have hlt := hhead _ (mem_of_find? hf)
        have hlt' := hhead' _ (mem_of_find? he.symm)
        exact String.lt_asymm hlt hlt'
      have hvalue : e.2 = f.2 := by
        have he := h e.1
        rw [find?_cons, find?_cons, if_pos rfl, if_pos hkey] at he
        exact Option.some.inj he
      rw [Prod.ext hkey hvalue, ih htail htail' fun key => ?_]
      have hk := h key
      simp only [find?_cons, hkey] at hk
      by_cases he : key = f.1
      · rw [he, hnot', ← hkey, hnot]
      · simpa [he] using hk

theorem find?_foldl_insert {key : String} (entries : List (String × α)) {d : Dict α}
    (hnd : (entries.map Prod.fst).Nodup) :
    (entries.foldl (fun d e => d.insert e.1 e.2) d).find? key =
      (Dict.find? key entries).or (d.find? key) := by
  induction entries generalizing d with
  | nil => simp [find?]
  | cons e entries ih =>
    obtain ⟨hnot, hnd⟩ := List.nodup_cons.mp hnd
    rw [List.foldl_cons, ih hnd, find?_cons]
    by_cases hk : key = e.1
    · subst hk
      have hnone : Dict.find? e.1 entries = none :=
        find?_eq_none_of_forall_ne fun f hf he => hnot (List.mem_map.mpr ⟨f, hf, he.symm⟩)
      simp [hnone, find?_insert_self]
    · simp [hk, find?_insert_of_ne hk]

theorem find?_ofEntries {entries : List (String × α)} (hnd : (entries.map Prod.fst).Nodup)
    (key : String) : (ofEntries entries).find? key = Dict.find? key entries := by
  rw [ofEntries, find?_foldl_insert entries hnd]
  simp [find?]

theorem ofEntries_of_sorted {d : Dict α} (hd : d.Sorted) : ofEntries d = d :=
  (sorted_ofEntries d).ext hd (find?_ofEntries hd.nodup_keys)

theorem mem_ofEntries {entries : List (String × α)} {e : String × α} (h : e ∈ ofEntries entries) :
    e ∈ entries := by
  have hgen : ∀ d : Dict α, e ∈ entries.foldl (fun d e => d.insert e.1 e.2) d →
      e ∈ entries ∨ e ∈ d := by
    clear h
    induction entries with
    | nil => exact fun d h => .inr h
    | cons f entries ih =>
      intro d h
      rcases ih _ h with h | h
      · exact .inl (List.mem_cons_of_mem _ h)
      · rcases mem_insert h with rfl | h
        · exact .inl List.mem_cons_self
        · exact .inr h
  exact (hgen [] h).resolve_right (by simp)

section Corresponds

variable {β : Type} {R : α → β → Prop}

/-- Dictionaries with the same keys whose values correspond. -/
def Corresponds (R : α → β → Prop) (d : List (String × α)) (d' : List (String × β)) : Prop :=
  List.Forall₂ (fun e e' => e'.1 = e.1 ∧ R e.2 e'.2) d d'

theorem Corresponds.imp {S : α → β → Prop} {d : List (String × α)} {d' : List (String × β)}
    (h : Corresponds R d d') (himp : ∀ a b, R a b → S a b) : Corresponds S d d' :=
  List.Forall₂.imp (fun _ _ he => ⟨he.1, himp _ _ he.2⟩) h

theorem Corresponds.insert {d : Dict α} {d' : Dict β} (h : Corresponds R d d') (key : String)
    {a : α} {b : β} (hab : R a b) : Corresponds R (d.insert key a) (d'.insert key b) := by
  induction h with
  | nil => exact .cons ⟨rfl, hab⟩ .nil
  | @cons e e' rest rest' he hrest ih =>
    obtain ⟨k, x⟩ := e
    obtain ⟨k', y⟩ := e'
    obtain rfl : k' = k := he.1
    simp only [Dict.insert]
    split
    · exact .cons ⟨rfl, hab⟩ (.cons he hrest)
    · split
      · exact .cons ⟨rfl, hab⟩ hrest
      · exact .cons he ih

theorem Corresponds.ofEntries {l : List (String × α)} {l' : List (String × β)}
    (h : Corresponds R l l') : Corresponds R (Dict.ofEntries l) (Dict.ofEntries l') := by
  have hgen : ∀ {d : Dict α} {d' : Dict β}, Corresponds R d d' →
      Corresponds R (l.foldl (fun d e => Dict.insert e.1 e.2 d) d)
        (l'.foldl (fun d e => Dict.insert e.1 e.2 d) d') := by
    induction h with
    | nil => exact fun hd => hd
    | cons he _ ih =>
      intro d d' hd
      rw [List.foldl_cons, List.foldl_cons, he.1]
      exact ih (hd.insert _ he.2)
  exact hgen .nil

end Corresponds

end Dict

end RegionIR
