import Mathlib.Tactic.Common
import RegionIR.Source.Reader
import RegionIR.Text.Join

/-! What readers make of a text of which the front part is known.

A reader that takes a class of characters needs to know that the rest does not go on with one of
them, and a reader of items that the rest does not go on with a separator. -/

namespace RegionIR

/-- The rest does not begin with a character of the class. -/
def Stops (p : Char → Bool) (r : List Char) : Prop :=
  ∀ c ∈ r.head?, p c = false

@[simp] theorem stops_nil (p : Char → Bool) : Stops p [] := by simp [Stops]

@[simp] theorem stops_cons (p : Char → Bool) (c : Char) (r : List Char) :
    Stops p (c :: r) ↔ p c = false := by simp [Stops]

theorem Stops.mono {p q : Char → Bool} {r : List Char} (h : Stops p r) (hq : ∀ c, q c → p c) :
    Stops q r := by
  intro c hc
  by_contra hqc
  have hp := h c hc
  rw [hq c (by simpa using hqc)] at hp
  simp at hp

theorem Stops.dropWhile {p : Char → Bool} {r : List Char} (h : Stops p r) : r.dropWhile p = r := by
  cases r with
  | nil => rfl
  | cons c r => simp [(stops_cons p c r).mp h]

theorem Stops.takeWhile {p : Char → Bool} {r : List Char} (h : Stops p r) : r.takeWhile p = [] := by
  cases r with
  | nil => rfl
  | cons c r => simp [(stops_cons p c r).mp h]

theorem stops_dropWhile (p : Char → Bool) (r : List Char) : Stops p (r.dropWhile p) := by
  induction r with
  | nil => simp
  | cons c r ih =>
    cases hc : p c with
    | true => simpa [hc] using ih
    | false => simp [hc]

/-- The text without the blanks at its front. -/
def trimBlanks (r : List Char) : List Char :=
  r.dropWhile Reader.isBlank

@[simp] theorem trimBlanks_trimBlanks (r : List Char) : trimBlanks (trimBlanks r) = trimBlanks r :=
  (stops_dropWhile _ r).dropWhile

@[simp] theorem trimBlanks_space (r : List Char) : trimBlanks (' ' :: r) = trimBlanks r := rfl

@[simp] theorem trimBlanks_newline (r : List Char) : trimBlanks ('\n' :: r) = trimBlanks r := rfl

@[simp] theorem trimBlanks_nil : trimBlanks [] = [] := rfl

theorem trimBlanks_of_stops {r : List Char} (h : Stops Reader.isBlank r) : trimBlanks r = r :=
  h.dropWhile

theorem trimBlanks_cons {c : Char} (h : Reader.isBlank c = false) (r : List Char) :
    trimBlanks (c :: r) = c :: r :=
  trimBlanks_of_stops (by simpa using h)

/-- A text that begins with a character that is not blank. -/
def Inked (l : List Char) : Prop :=
  ∃ c cs, l = c :: cs ∧ Reader.isBlank c = false

theorem Inked.stops {l : List Char} (h : Inked l) (r : List Char) :
    Stops Reader.isBlank (l ++ r) := by
  obtain ⟨c, cs, rfl, hc⟩ := h
  simpa using hc

theorem trimBlanks_spaces (n : Nat) (r : List Char) :
    trimBlanks ((Text.spaces n).toList ++ r) = trimBlanks r := by
  induction n with
  | zero => simp [Text.spaces]
  | succ n ih => simpa [Text.spaces] using ih

namespace Reader

variable {α β γ : Type} {p : Reader α} {f : α → Reader β} {s t r : List Char} {a : α}

@[simp] theorem pure_eq (a : α) (s : List Char) : (pure a : Reader α) s = .ok a s := rfl

theorem bind_ok (h : p s = .ok a t) : (p >>= f) s = f a t := by
  simp only [bind, h]

theorem bind_fail (h : p s = .fail t) : (p >>= f) s = .fail t := by
  simp only [bind, h]

theorem bind_eq_ok {b : β} :
    (p >>= f) s = .ok b r ↔ ∃ a t, p s = .ok a t ∧ f a t = .ok b r := by
  cases hp : p s with
  | ok a t => simp [bind_ok hp]
  | fail t => simp [bind_fail hp]

theorem return_ok {g : α → β} (h : p s = .ok a t) :
    (do return g (← p) : Reader β) s = .ok (g a) t := by
  rw [bind_ok h, pure_eq]

@[simp] theorem blanks_eq (s : List Char) : blanks s = .ok () (trimBlanks s) := rfl

@[simp] theorem ahead_eq (s : List Char) : ahead s = .ok s s := rfl

@[simp] theorem char_cons (c : Char) (s : List Char) : char c (c :: s) = .ok () s := by
  simp [char]

theorem char_fail {c : Char} (h : ∀ d ∈ s.head?, d ≠ c) : char c s = .fail s := by
  cases s with
  | nil => rfl
  | cons d s =>
    have hne : d ≠ c := h d rfl
    simp [char, hne]

theorem char_eq_ok {c : Char} : char c s = .ok () t ↔ s = c :: t := by
  cases s with
  | nil => simp [char]
  | cons d s =>
    by_cases hd : d = c
    · simp [char, hd]
    · simp [char, hd]

theorem one_cons {q : Char → Bool} {c : Char} (h : q c = true) (s : List Char) :
    one q (c :: s) = .ok c s := by
  simp [one, h]

theorem one_fail {q : Char → Bool} (h : Stops q s) : one q s = .fail s := by
  cases s with
  | nil => rfl
  | cons c s => simp [one, (stops_cons q c s).mp h]

theorem run_append {q : Char → Bool} {l : List Char} (hl : ∀ c ∈ l, q c) (hr : Stops q r) :
    run q (l ++ r) = .ok l r := by
  simp [run, List.takeWhile_append_of_pos hl, List.dropWhile_append_of_pos hl, hr.takeWhile,
    hr.dropWhile]

theorem run1_append {q : Char → Bool} {l : List Char} (hne : l ≠ []) (hl : ∀ c ∈ l, q c)
    (hr : Stops q r) : run1 q (l ++ r) = .ok l r := by
  have htake : (l ++ r).takeWhile q = l := by
    rw [List.takeWhile_append_of_pos hl, hr.takeWhile, List.append_nil]
  have hdrop : (l ++ r).dropWhile q = r := by
    rw [List.dropWhile_append_of_pos hl, hr.dropWhile]
  obtain ⟨c, l, rfl⟩ := List.exists_cons_of_ne_nil hne
  simp only [run1, htake, hdrop]

theorem run1_fail {q : Char → Bool} (h : Stops q s) : run1 q s = .fail s := by
  simp [run1, h.takeWhile]

theorem literal_fail {text : String} (h : ¬ text.toList <+: s) : literal text s = .fail s := by
  rw [← List.isPrefixOf_iff_prefix] at h
  simp [literal, h]

theorem optional_ok (h : p s = .ok a t) : optional p s = .ok (some a) t := by
  simp [optional, h]

theorem optional_fail (h : p s = .fail t) : optional p s = .ok none s := by
  simp [optional, h]

theorem orElse_ok {q : Reader α} (h : p s = .ok a t) : orElse p q s = .ok a t := by
  simp [orElse, h]

theorem orElse_fail {q : Reader α} (h : p s = .fail t) : orElse p q s = q s := by
  simp [orElse, h]

theorem spaced_ok (h : p (trimBlanks s) = .ok a t) : spaced p s = .ok a (trimBlanks t) := by
  unfold spaced
  rw [bind_ok (blanks_eq s), bind_ok h, bind_ok (blanks_eq t)]
  rfl

theorem spaced_fail (h : p (trimBlanks s) = .fail t) : spaced p s = .fail t := by
  unfold spaced
  rw [bind_ok (blanks_eq s), bind_fail h]

theorem between_ok {opening closing : Char} (h : p (trimBlanks s) = .ok a t)
    (ht : trimBlanks t = closing :: r) : between opening closing p (opening :: s) = .ok a r := by
  unfold between
  rw [bind_ok (char_cons opening s), bind_ok (blanks_eq s), bind_ok h, bind_ok (blanks_eq t), ht,
    bind_ok (char_cons closing r)]
  rfl

theorem between_fail_opening {opening closing : Char} (h : ∀ c ∈ s.head?, c ≠ opening) :
    between opening closing p s = .fail s := by
  unfold between
  rw [bind_fail (char_fail h)]

theorem between_fail_inside {opening closing : Char} (h : p (trimBlanks s) = .fail t) :
    between opening closing p (opening :: s) = .fail t := by
  unfold between
  rw [bind_ok (char_cons opening s), bind_ok (blanks_eq s), bind_fail h]

end Reader

/-! Items with commas between them. -/

/-- The text of further items, each after a comma and a blank. -/
def furtherTexts {γ : Type} (text : γ → List Char) (l : List γ) : List Char :=
  l.flatMap fun c => ',' :: ' ' :: text c

theorem toList_joinWith (s : String) (l : List String) :
    (Text.joinWith ", " (s :: l)).toList = s.toList ++ furtherTexts String.toList l := by
  induction l generalizing s with
  | nil => simp [Text.joinWith, furtherTexts]
  | cons t l ih => simp [Text.joinWith, ih, furtherTexts]

theorem furtherTexts_map {γ δ : Type} (text : δ → List Char) (g : γ → δ) (l : List γ) :
    furtherTexts text (l.map g) = furtherTexts (text ∘ g) l := by
  simp [furtherTexts, List.flatMap_map]

theorem length_le_furtherTexts {γ : Type} (text : γ → List Char) (l : List γ) :
    l.length ≤ (furtherTexts text l).length := by
  induction l with
  | nil => simp
  | cons c l ih =>
    simp only [furtherTexts, List.flatMap_cons, List.length_append, List.length_cons] at ih ⊢
    omega

namespace Reader

section Items

variable {α β γ : Type} {item : Reader α} {separator : Reader β} {text : γ → List Char}
  {value : γ → α} {trim : List Char → List Char} {Ends : List Char → Prop} {l : List γ}
  {r : List Char}

/-- An item of a list leaves a rest that `trim` describes, and a further one is found behind a comma
and a blank. -/
structure ReadsItem (item : Reader α) (separator : Reader β) (text : γ → List Char) (value : γ → α)
    (trim : List Char → List Char) (Ends : List Char → Prop) (c : γ) : Prop where
  first {r : List Char} : Ends r → item (text c ++ r) = .ok (value c) (trim r)
  further {r : List Char} : Ends r → ∃ u s, separator (',' :: ' ' :: (text c ++ r)) = .ok u s ∧
    item s = .ok (value c) (trim r)

theorem furtherItems_eq (hl : ∀ c ∈ l, ReadsItem item separator text value trim Ends c)
    (hcomma : ∀ s, Ends (',' :: s) ∧ trim (',' :: s) = ',' :: s) (hr : Ends r) {t : List Char}
    (hend : separator (trim r) = .fail t) {bound : List Char} (hbound : l.length ≤ bound.length) :
    furtherItems item separator bound (trim (furtherTexts text l ++ r)) =
      (l.map value, trim r) := by
  induction l generalizing bound with
  | nil =>
    cases bound with
    | nil => simp [furtherItems, furtherTexts]
    | cons b bound => simp [furtherItems, furtherTexts, hend]
  | cons c l ih =>
    obtain ⟨b, bound, rfl⟩ : ∃ b bound', bound = b :: bound' := by
      cases bound with
      | nil => simp at hbound
      | cons b bound => exact ⟨b, bound, rfl⟩
    have hends : Ends (furtherTexts text l ++ r) := by
      cases l with
      | nil => exact hr
      | cons d l => exact (hcomma _).1
    obtain ⟨u, s, hsep, hitem⟩ := (hl c List.mem_cons_self).further hends
    have hrest := ih (fun d hd => hl d (List.mem_cons_of_mem _ hd))
      (Nat.le_of_succ_le_succ hbound)
    have htext : furtherTexts text (c :: l) ++ r =
        ',' :: ' ' :: (text c ++ (furtherTexts text l ++ r)) := by
      simp [furtherTexts]
    rw [htext, (hcomma _).2]
    simp only [furtherItems, hsep, hitem, hrest, List.map_cons]

theorem items1_eq {c : γ} (hc : ReadsItem item separator text value trim Ends c)
    (hl : ∀ c ∈ l, ReadsItem item separator text value trim Ends c)
    (hcomma : ∀ s, Ends (',' :: s) ∧ trim (',' :: s) = ',' :: s) (hr : Ends r) {t : List Char}
    (hend : separator (trim r) = .fail t) :
    items1 item separator (text c ++ (furtherTexts text l ++ r)) =
      .ok (value c :: l.map value) (trim r) := by
  have hends : Ends (furtherTexts text l ++ r) := by
    cases l with
    | nil => exact hr
    | cons d l => exact (hcomma _).1
  have hbound : l.length ≤ (trim (furtherTexts text l ++ r)).length := by
    cases l with
    | nil => simp
    | cons d l =>
      have htext : furtherTexts text (d :: l) ++ r =
          ',' :: (' ' :: (text d ++ (furtherTexts text l ++ r))) := by
        simp [furtherTexts]
      have := length_le_furtherTexts text l
      rw [htext, (hcomma _).2]
      simp only [List.length_cons, List.length_append]
      omega
  simp only [items1, hc.first hends, furtherItems_eq hl hcomma hr hend hbound]

theorem items1_fail {s t : List Char} (h : item s = .fail t) :
    items1 item separator s = .fail t := by
  simp only [items1, h]

theorem items_eq_orElse : items item separator = orElse (items1 item separator) (pure []) := by
  funext s
  unfold items orElse items1
  cases item s <;> rfl

theorem items_of_items1 {s t : List Char} {as : List α}
    (h : items1 item separator s = .ok as t) : items item separator s = .ok as t := by
  rw [items_eq_orElse, orElse_ok h]

theorem items_nil {s t : List Char} (h : item s = .fail t) : items item separator s = .ok [] s := by
  rw [items_eq_orElse, orElse_fail (items1_fail h), pure_eq]

end Items

theorem readsItem_spaced {α γ : Type} {p : Reader α} {text : γ → List Char} {value : γ → α}
    {Ends : List Char → Prop} {c : γ} (hstart : ∀ r, Stops isBlank (text c ++ r))
    (hread : ∀ r, Ends r → p (text c ++ r) = .ok (value c) r) :
    ReadsItem (spaced p) (char ',') text value trimBlanks Ends c where
  first {r} hr := spaced_ok (by rw [trimBlanks_of_stops (hstart r), hread r hr])
  further {r} hr := ⟨(), _, char_cons _ _, spaced_ok (by
    rw [trimBlanks_space, trimBlanks_of_stops (hstart r), hread r hr])⟩

section Between

variable {α γ : Type} {p : Reader α} {text : γ → String} {g : γ → α}
  {E : List Char → Prop} {opening closing : Char} {r : List Char}

theorem items1_spaced {c : γ} {l : List γ} (hstart : ∀ d ∈ c :: l, Inked (text d).toList)
    (hread : ∀ d ∈ c :: l, ∀ r, E r → p ((text d).toList ++ r) = .ok (g d) r)
    (hcomma : ∀ s, E (',' :: s)) (hr : E r) (hend : ∀ d ∈ (trimBlanks r).head?, d ≠ ',') :
    items1 (spaced p) (char ',') ((Text.joinWith ", " ((c :: l).map text)).toList ++ r) =
      .ok ((c :: l).map g) (trimBlanks r) := by
  have hitem : ∀ d ∈ c :: l,
      ReadsItem (spaced p) (char ',') (String.toList ∘ text) g trimBlanks E d :=
    fun d hd => readsItem_spaced (hstart d hd).stops (hread d hd)
  rw [List.map_cons, toList_joinWith, furtherTexts_map, List.append_assoc]
  exact items1_eq (hitem c List.mem_cons_self) (fun d hd => hitem d (List.mem_cons_of_mem _ hd))
    (fun s => ⟨hcomma s, rfl⟩) hr (char_fail hend)

theorem items1_joinWith {c : γ} {l : List γ} (hclosing : closing ≠ ',')
    (hblank : isBlank closing = false) (hstart : ∀ d ∈ c :: l, Inked (text d).toList)
    (hread : ∀ d ∈ c :: l, ∀ r, E r → p ((text d).toList ++ r) = .ok (g d) r)
    (hcomma : ∀ s, E (',' :: s)) (hr : E (closing :: r)) :
    items1 (spaced p) (char ',')
      (trimBlanks ((Text.joinWith ", " ((c :: l).map text)).toList ++ closing :: r)) =
        .ok ((c :: l).map g) (closing :: r) := by
  have htrim : trimBlanks (closing :: r) = closing :: r := trimBlanks_cons hblank r
  have hitems := items1_spaced hstart hread hcomma hr (by simpa [htrim] using hclosing)
  have hstops : Stops isBlank ((Text.joinWith ", " ((c :: l).map text)).toList ++ closing :: r) := by
    rw [List.map_cons, toList_joinWith, List.append_assoc]
    exact (hstart c List.mem_cons_self).stops _
  rw [trimBlanks_of_stops hstops, hitems, htrim]

theorem between_items {l : List γ} (hclosing : closing ≠ ',')
    (hblank : isBlank closing = false) (hstart : ∀ d ∈ l, Inked (text d).toList)
    (hread : ∀ d ∈ l, ∀ r, E r → p ((text d).toList ++ r) = .ok (g d) r)
    (hcomma : ∀ s, E (',' :: s)) (hr : E (closing :: r)) {t : List Char}
    (hempty : p (closing :: r) = .fail t) :
    between opening closing (items (spaced p) (char ','))
      (opening :: ((Text.joinWith ", " (l.map text)).toList ++ closing :: r)) =
        .ok (l.map g) r := by
  have htrim : trimBlanks (closing :: r) = closing :: r := trimBlanks_cons hblank r
  refine between_ok ?_ htrim
  cases l with
  | nil =>
    have hfail : spaced p (closing :: r) = .fail t := spaced_fail (by rw [htrim, hempty])
    change items (spaced p) (char ',') (trimBlanks (closing :: r)) = _
    rw [htrim, items_nil hfail]
    rfl
  | cons c l =>
    exact items_of_items1 (items1_joinWith hclosing hblank hstart hread hcomma hr)

end Between

section Repetition

variable {α γ δ : Type} {more : List Char → Bool} {item : Reader α} {text : γ → List Char}
  {strip : α → δ} {g : γ → δ} {E : List Char → Prop} {l : List γ} {r : List Char}

theorem whileAhead_trimBlanks (bound s : List Char) :
    whileAhead more item bound (trimBlanks s) = whileAhead more item bound s := by
  cases bound <;> simp only [whileAhead, bind, blanks_eq, trimBlanks_trimBlanks]

/-- Where no item is ahead, only blanks are read. -/
theorem whileAhead_stop {s : List Char} (hmore : more (trimBlanks s) = false) (bound : List Char) :
    whileAhead more item bound s = .ok [] (trimBlanks s) := by
  cases bound <;>
    · unfold whileAhead
      rw [bind_ok (blanks_eq s), bind_ok (ahead_eq _), hmore]
      rfl

theorem ends_flatMap (hends : ∀ c ∈ l, ∀ r, E r → E (text c ++ r)) (hr : E r) :
    E (l.flatMap text ++ r) := by
  induction l with
  | nil => exact hr
  | cons c l ih =>
    rw [List.flatMap_cons, List.append_assoc]
    exact hends c List.mem_cons_self _ (ih fun d hd => hends d (List.mem_cons_of_mem _ hd))

/-- Items are read one after the other. What is read is known up to `strip`, and the blanks after an
item may or may not be read with it. -/
theorem whileAhead_eq
    (hitem : ∀ c ∈ l, ∀ r, E r → more (trimBlanks (text c ++ r)) ∧
      ∃ a t, item (trimBlanks (text c ++ r)) = .ok a t ∧ strip a = g c ∧
        trimBlanks t = trimBlanks r)
    (hends : ∀ c ∈ l, ∀ r, E r → E (text c ++ r)) (hr : E r)
    (hmore : more (trimBlanks r) = false) {bound : List Char} (hbound : l.length ≤ bound.length) :
    ∃ as, whileAhead more item bound (l.flatMap text ++ r) = .ok as (trimBlanks r) ∧
      as.map strip = l.map g := by
  induction l generalizing bound with
  | nil => exact ⟨[], whileAhead_stop hmore bound, rfl⟩
  | cons c l ih =>
    obtain ⟨b, bound, rfl⟩ : ∃ b bound', bound = b :: bound' := by
      cases bound with
      | nil => simp at hbound
      | cons b bound => exact ⟨b, bound, rfl⟩
    have hrest : E (l.flatMap text ++ r) :=
      ends_flatMap (fun d hd => hends d (List.mem_cons_of_mem _ hd)) hr
    obtain ⟨hmore', a, t, hread, hstrip, ht⟩ := hitem c List.mem_cons_self _ hrest
    obtain ⟨as, has, hmap⟩ := ih (fun d hd => hitem d (List.mem_cons_of_mem _ hd))
      (fun d hd => hends d (List.mem_cons_of_mem _ hd)) (Nat.le_of_succ_le_succ hbound)
    refine ⟨a :: as, ?_, by rw [List.map_cons, List.map_cons, hstrip, hmap]⟩
    have hrun : whileAhead more item bound t = .ok as (trimBlanks r) := by
      rw [← whileAhead_trimBlanks, ht, whileAhead_trimBlanks, has]
    unfold whileAhead
    rw [List.flatMap_cons, List.append_assoc, bind_ok (blanks_eq _), bind_ok (ahead_eq _),
      if_pos hmore', bind_ok hread, bind_ok hrun]
    rfl

theorem countP_trimBlanks (s : List Char) :
    (trimBlanks s).countP (!isBlank ·) = s.countP (!isBlank ·) := by
  induction s with
  | nil => rfl
  | cons c s ih =>
    cases hc : isBlank c with
    | true => simpa [trimBlanks, hc] using ih
    | false => rw [trimBlanks_cons hc]

theorem length_le_trimBlanks (hinked : ∀ c ∈ l, ∃ d ∈ text c, isBlank d = false) (r : List Char) :
    l.length ≤ (trimBlanks (l.flatMap text ++ r)).length := by
  have hcount : l.length ≤ (l.flatMap text).countP (!isBlank ·) := by
    clear r
    induction l with
    | nil => simp
    | cons c l ih =>
      obtain ⟨d, hd, hblank⟩ := hinked c List.mem_cons_self
      have hpos : 0 < (text c).countP (!isBlank ·) :=
        List.countP_pos_iff.mpr ⟨d, hd, by simp [hblank]⟩
      have := ih fun e he => hinked e (List.mem_cons_of_mem _ he)
      simp only [List.flatMap_cons, List.countP_append, List.length_cons]
      omega
  calc l.length ≤ (l.flatMap text).countP (!isBlank ·) := hcount
    _ ≤ (l.flatMap text ++ r).countP (!isBlank ·) := by
      rw [List.countP_append]
      omega
    _ = (trimBlanks (l.flatMap text ++ r)).countP (!isBlank ·) := (countP_trimBlanks _).symm
    _ ≤ _ := List.countP_le_length

theorem many_eq
    (hitem : ∀ c ∈ l, ∀ r, E r → more (trimBlanks (text c ++ r)) ∧
      ∃ a t, item (trimBlanks (text c ++ r)) = .ok a t ∧ strip a = g c ∧
        trimBlanks t = trimBlanks r)
    (hends : ∀ c ∈ l, ∀ r, E r → E (text c ++ r))
    (hinked : ∀ c ∈ l, ∃ d ∈ text c, isBlank d = false) (hr : E r)
    (hmore : more (trimBlanks r) = false) {s : List Char}
    (hs : trimBlanks s = trimBlanks (l.flatMap text ++ r)) :
    ∃ as, many more item s = .ok as (trimBlanks r) ∧ as.map strip = l.map g := by
  have hbound : l.length ≤ s.length := by
    have hle := length_le_trimBlanks hinked r
    have hdrop : (trimBlanks s).length ≤ s.length := (List.dropWhile_sublist _).length_le
    rw [← hs] at hle
    omega
  obtain ⟨as, has, hmap⟩ := whileAhead_eq hitem hends hr hmore hbound
  refine ⟨as, ?_, hmap⟩
  change whileAhead more item s s = _
  rw [← whileAhead_trimBlanks, hs, whileAhead_trimBlanks, has]

end Repetition

end Reader

end RegionIR
