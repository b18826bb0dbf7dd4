import RegionIR.Proofs.Source.Building
import RegionIR.Proofs.Source.Suffixes
import RegionIR.Proofs.Source.Types
import RegionIR.Proofs.Types.Canonical

/-! Which attributes are read back from their text.

Among the attributes whose names are names and whose floats are numbers these are the readable ones.
A type whose text begins with a word stands in the others; the word is taken from its front, and the
reader of items gets stuck in what is left of the type. The brackets around it are not closed then,
nor any further out, so that the whole text is refused. -/

namespace RegionIR

mutual

/-- Whether the names in the type are names and the floats numbers. -/
def Ty.isPlain : Ty → Bool
  | .mk dialect name params attrs =>
    Text.isName dialect && Text.isName name && Ty.arePlain params && Ty.entriesPlain attrs

def Ty.arePlain : List Ty → Bool
  | [] => true
  | t :: rest => t.isPlain && Ty.arePlain rest

def Ty.entriesPlain : List (String × Attr Ty) → Bool
  | [] => true
  | (key, a) :: rest => Text.isName key && Attr.isPlain a && Ty.entriesPlain rest

/-- Whether the names in the attribute are names and the floats numbers. -/
def Attr.isPlain : Attr Ty → Bool
  | .float bits => (Decimal.Binary64.ofBits bits).isFinite
  | .type t => t.isPlain
  | .list items => Attr.arePlain items
  | _ => true

def Attr.arePlain : List (Attr Ty) → Bool
  | [] => true
  | a :: rest => Attr.isPlain a && Attr.arePlain rest

end

theorem Ty.arePlain_iff {ts : List Ty} : Ty.arePlain ts ↔ ∀ t ∈ ts, t.isPlain := by
  induction ts with
  | nil => simp [Ty.arePlain]
  | cons t ts ih => simp [Ty.arePlain, ih]

theorem Ty.entriesPlain_iff {as : List (String × Attr Ty)} :
    Ty.entriesPlain as ↔ ∀ e ∈ as, Text.isName e.1 ∧ Attr.isPlain e.2 := by
  induction as with
  | nil => simp [Ty.entriesPlain]
  | cons e as ih => simp [Ty.entriesPlain, ih, and_assoc]

theorem Ty.isPlain_iff {d n : String} {ps : List Ty} {as : List (String × Attr Ty)} :
    (Ty.mk d n ps as).isPlain ↔ Text.isName d ∧ Text.isName n ∧ (∀ p ∈ ps, p.isPlain) ∧
      ∀ e ∈ as, Text.isName e.1 ∧ e.2.isPlain := by
  simp only [Ty.isPlain, Bool.and_eq_true, Ty.arePlain_iff, Ty.entriesPlain_iff, and_assoc]

theorem Attr.arePlain_iff {items : List (Attr Ty)} : Attr.arePlain items ↔ ∀ a ∈ items, a.isPlain := by
  induction items with
  | nil => simp [Attr.arePlain]
  | cons a items ih => simp [Attr.arePlain, ih]

mutual

/-- The type `s` stands as an attribute in a type, at any depth. -/
inductive Ty.HasAttr (s : Ty) : Ty → Prop
  | param {d n : String} {ps : List Ty} {as : List (String × Attr Ty)} {p : Ty} : p ∈ ps →
      Ty.HasAttr s p → Ty.HasAttr s (.mk d n ps as)
  | attr {d n : String} {ps : List Ty} {as : List (String × Attr Ty)} {e : String × Attr Ty} :
      e ∈ as → Attr.HasAttr s e.2 → Ty.HasAttr s (.mk d n ps as)

/-- The type `s` is the attribute, or it stands as an attribute in it. -/
inductive Attr.HasAttr (s : Ty) : Attr Ty → Prop
  | self : Attr.HasAttr s (.type s)
  | type {t : Ty} : Ty.HasAttr s t → Attr.HasAttr s (.type t)
  | item {items : List (Attr Ty)} {a : Attr Ty} : a ∈ items → Attr.HasAttr s a →
      Attr.HasAttr s (.list items)

end

/-- The name of the dialect does not begin with a word. -/
def Ty.Wordless (t : Ty) : Prop :=
  ∀ w ∈ Attr.words, ¬ w.toList <+: t.dialect.toList

theorem word_append_eq {w : String} (hw : w ∈ Attr.words) {d s x : List Char}
    (h : w.toList ++ s = d ++ '.' :: x) : ∃ l, d = w.toList ++ l ∧ s = l ++ '.' :: x := by
  have hplain : ∀ w ∈ Attr.words, '.' ∉ w.toList := by decide
  rw [List.append_eq_append_iff] at h
  rcases h with ⟨l, hl, rfl⟩ | ⟨l, hl, hs⟩
  · exact ⟨l, hl, rfl⟩
  · cases l with
    | nil => exact ⟨[], by simpa using hl.symm, by simpa using hs.symm⟩
    | cons c l =>
      obtain ⟨rfl, -⟩ := List.cons.inj hs
      exact absurd (by simp [hl]) (hplain w hw)

theorem Ty.wordless_iff {t : Ty} :
    t.Wordless ↔ Attr.words.all fun w => !w.toList.isPrefixOf t.text.toList := by
  obtain ⟨d, n, ps, as⟩ := t
  simp only [Wordless, List.all_eq_true, Bool.not_eq_true', ← Bool.not_eq_true,
    List.isPrefixOf_iff_prefix, Ty.dialect, Ty.toList_text]
  refine forall₂_congr fun w hw => not_congr ⟨fun h => h.trans (List.prefix_append _ _), ?_⟩
  rintro ⟨s, hs⟩
  obtain ⟨l, hl, -⟩ := word_append_eq hw hs
  exact ⟨l, hl.symm⟩

/-- What is plain is readable if no type whose name begins with a word stands in it as an attribute. -/
theorem Attr.isReadable_iff_plain (a : Attr Ty) :
    a.isReadable ↔ a.isPlain ∧ ∀ s, Attr.HasAttr s a → s.Wordless := by
  refine Attr.forall_of
    (P := fun t => t.isReadable ↔ t.isPlain ∧ ∀ s, Ty.HasAttr s t → s.Wordless)
    (Q := fun a => a.isReadable ↔ a.isPlain ∧ ∀ s, Attr.HasAttr s a → s.Wordless) ?_ ?_ ?_ ?_ a
  · intro d n ps as hps has
    rw [Ty.isReadable_iff, Ty.isPlain_iff]
    constructor
    · rintro ⟨hd, hn, hps', has'⟩
      refine ⟨⟨hd, hn, fun p hp => ((hps p hp).mp (hps' p hp)).1, fun e he =>
        ⟨(has' e he).1, ((has e he).mp (has' e he).2).1⟩⟩, fun s hs => ?_⟩
      cases hs with
      | param hp hs => exact ((hps _ hp).mp (hps' _ hp)).2 s hs
      | attr he hs => exact ((has _ he).mp (has' _ he).2).2 s hs
    · rintro ⟨⟨hd, hn, hps', has'⟩, hwordless⟩
      exact ⟨hd, hn,
        fun p hp => (hps p hp).mpr ⟨hps' p hp, fun s hs => hwordless s (.param hp hs)⟩,
        fun e he => ⟨(has' e he).1,
          (has e he).mpr ⟨(has' e he).2, fun s hs => hwordless s (.attr he hs)⟩⟩⟩
  · intro t ht
    rw [Attr.isReadable, Attr.isPlain, Bool.and_eq_true, ht, ← Ty.wordless_iff, and_assoc]
    refine and_congr_right fun _ => ⟨?_, fun h => ⟨fun s hs => h s (.type hs), h t .self⟩⟩
    rintro ⟨hin, hself⟩ s hs
    cases hs with
    | self => exact hself
    | type hs => exact hin s hs
  · intro items hitems
    rw [Attr.isReadable, Attr.isPlain, Attr.areReadable_iff, Attr.arePlain_iff]
    constructor
    · intro h
      refine ⟨fun b hb => ((hitems b hb).mp (h b hb)).1, fun s hs => ?_⟩
      cases hs with
      | item hb hs => exact ((hitems _ hb).mp (h _ hb)).2 s hs
    · rintro ⟨hplain, hwordless⟩ b hb
      exact (hitems b hb).mpr ⟨hplain b hb, fun s hs => hwordless s (.item hb hs)⟩
  · intro a ht hl
    have hnone (s : Ty) : ¬ Attr.HasAttr s a := by
      intro h
      cases h <;> simp [Attr.asType, Attr.asList] at ht hl
    have hsame : a.isReadable = a.isPlain := by
      cases a <;> simp_all [Attr.isReadable, Attr.isPlain, Attr.asType, Attr.asList]
    simp [hsame, hnone]

theorem exists_first_not {α : Type} {p : α → Prop} {l : List α} (h : ¬ ∀ a ∈ l, p a) :
    ∃ front a rest, l = front ++ a :: rest ∧ (∀ b ∈ front, p b) ∧ ¬ p a := by
  classical
  induction l with
  | nil => simp at h
  | cons b l ih =>
    rw [List.forall_mem_cons] at h
    by_cases hb : p b
    · obtain ⟨front, a, rest, rfl, hfront, ha⟩ := ih fun hl => h ⟨hb, hl⟩
      exact ⟨b :: front, a, rest, rfl, List.forall_mem_cons.mpr ⟨hb, hfront⟩, ha⟩
    · exact ⟨[], b, l, rfl, by simp, hb⟩

/-- What is left begins, after blanks, with something that is none of the ends. -/
def Stuck (ends : List Char) (r : List Char) : Prop :=
  ∃ c s, trimBlanks r = c :: s ∧ c ∉ ends

/-- The characters that end a list. -/
def listEnds : List Char := [')', ']', '\x7d']

/-- The characters that end an item of a list. -/
def itemEnds : List Char := ',' :: listEnds

theorem stuck_cons {ends : List Char} {c : Char} (hblank : Reader.isBlank c = false) (hc : c ∉ ends)
    (s : List Char) : Stuck ends (c :: s) :=
  ⟨c, s, trimBlanks_cons hblank s, hc⟩

theorem Stuck.trimBlanks {ends r : List Char} (h : Stuck ends r) : Stuck ends (trimBlanks r) := by
  obtain ⟨c, s, hr, hc⟩ := h
  exact ⟨c, s, by rw [trimBlanks_trimBlanks, hr], hc⟩

theorem Stuck.ofItem {r : List Char} (h : Stuck itemEnds r) : Stuck listEnds r := by
  obtain ⟨c, s, hr, hc⟩ := h
  exact ⟨c, s, hr, fun hmem => hc (List.mem_cons_of_mem _ hmem)⟩

theorem Stuck.char_fail {ends r : List Char} (h : Stuck ends r) {c : Char} (hc : c ∈ ends) :
    Reader.char c (RegionIR.trimBlanks r) = .fail (RegionIR.trimBlanks r) := by
  obtain ⟨d, s, hr, hd⟩ := h
  refine Reader.char_fail ?_
  rw [hr]
  rintro e he rfl
  obtain rfl : d = e := by simpa using he
  exact hd hc

/-- The reader gives up, or leaves something in front of which the list cannot end. -/
def Reading.GetsStuck {α : Type} (ends : List Char) : Reading α → Prop
  | .fail _ => True
  | .ok _ r => Stuck ends r

namespace Reader

theorem getsStuck_map {α β : Type} {p : Reader α} {f : α → β} {ends s : List Char}
    (h : (p s).GetsStuck ends) : ((do return f (← p) : Reader β) s).GetsStuck ends := by
  cases hp : p s with
  | fail t =>
    rw [bind_fail hp]
    trivial
  | ok a t =>
    rw [return_ok hp]
    rwa [hp] at h

theorem furtherItems_of_fail {α β : Type} {item : Reader α} {separator : Reader β}
    {r t : List Char} (h : separator r = .fail t) (bound : List Char) :
    furtherItems item separator bound r = ([], r) := by
  cases bound with
  | nil => rfl
  | cons b bound => simp only [furtherItems, h]

theorem between_fail_closing {α : Type} {opening closing : Char} {p : Reader α} {s : List Char}
    (h : (p (trimBlanks s)).GetsStuck listEnds) (hclosing : closing ∈ listEnds) :
    ∃ t, between opening closing p (opening :: s) = .fail t := by
  unfold between
  rw [bind_ok (char_cons opening s), bind_ok (blanks_eq s)]
  cases hp : p (trimBlanks s) with
  | fail t => exact ⟨t, bind_fail hp⟩
  | ok a r =>
    rw [hp] at h
    rw [bind_ok hp, bind_ok (blanks_eq r), bind_fail (h.char_fail hclosing)]
    exact ⟨_, rfl⟩

section Lists

variable {α γ : Type} {p : Reader α} {text : γ → String} {g : γ → α} {E : List Char → Prop}
  {front rest : List γ} {b : γ} {r : List Char}

/-- After a comma: the items of `front` are read, and then the list gets stuck. -/
theorem furtherItems_stuck
    (hread : ∀ d ∈ front, Inked (text d).toList ∧ ∀ r, E r → p ((text d).toList ++ r) = .ok (g d) r)
    (hcomma : ∀ s, E (',' :: s)) (hb : Inked (text b).toList) {tail : List Char}
    (hstuck : (p ((text b).toList ++ tail)).GetsStuck itemEnds) {bound : List Char}
    (hbound : front.length < bound.length) :
    ∃ as t, furtherItems (spaced p) (char ',') bound
      (furtherTexts String.toList (front.map text) ++
        ',' :: ' ' :: ((text b).toList ++ tail)) = (as, t) ∧ Stuck listEnds t := by
  induction front generalizing bound with
  | nil =>
    obtain ⟨x, bound, rfl⟩ := List.exists_cons_of_length_pos hbound
    have htrim : trimBlanks (' ' :: ((text b).toList ++ tail)) = (text b).toList ++ tail :=
      trimBlanks_of_stops (hb.stops tail)
    simp only [List.map_nil, furtherTexts, List.flatMap_nil, List.nil_append, furtherItems,
      char_cons]
    cases hitem : p ((text b).toList ++ tail) with
    | fail t =>
      rw [spaced_fail (by rw [htrim, hitem])]
      exact ⟨[], _, rfl, stuck_cons (by decide) (by decide) _⟩
    | ok a t =>
      rw [hitem] at hstuck
      rw [spaced_ok (by rw [htrim, hitem])]
      dsimp only
      rw [furtherItems_of_fail (hstuck.char_fail List.mem_cons_self)]
      exact ⟨[a], _, rfl, hstuck.ofItem.trimBlanks⟩
  | cons d front ih =>
    obtain ⟨x, bound, rfl⟩ := List.exists_cons_of_length_pos (Nat.lt_of_le_of_lt (Nat.zero_le _) hbound)
    rw [List.forall_mem_cons] at hread
    obtain ⟨as, t, hfurther, ht⟩ := ih hread.2 (Nat.lt_of_succ_lt_succ hbound)
    obtain ⟨s, hs⟩ : ∃ s, furtherTexts String.toList (front.map text) ++
        ',' :: ' ' :: ((text b).toList ++ tail) = ',' :: s := by
      cases front <;> exact ⟨_, rfl⟩
    have htext : furtherTexts String.toList ((d :: front).map text) ++
        ',' :: ' ' :: ((text b).toList ++ tail) = ',' :: ' ' :: ((text d).toList ++ ',' :: s) := by
      rw [← hs]
      simp [furtherTexts]
    have hitem : spaced p (' ' :: ((text d).toList ++ ',' :: s)) = .ok (g d) (',' :: s) := by
      rw [spaced_ok (a := g d) (t := ',' :: s), trimBlanks_cons (by decide)]
      rw [trimBlanks_space, trimBlanks_of_stops (hread.1.1.stops _), hread.1.2 _ (hcomma s)]
    rw [hs] at hfurther
    rw [htext]
    simp only [furtherItems, char_cons, hitem, hfurther]
    exact ⟨_, t, rfl, ht⟩

theorem items1_stuck
    (hread : ∀ d ∈ front, Inked (text d).toList ∧ ∀ r, E r → p ((text d).toList ++ r) = .ok (g d) r)
    (hcomma : ∀ s, E (',' :: s)) (hb : Inked (text b).toList)
    (hstuck : ∀ r, E r → (p ((text b).toList ++ r)).GetsStuck itemEnds) (hr : E r) :
    (items1 (spaced p) (char ',')
      ((Text.joinWith ", " ((front ++ b :: rest).map text)).toList ++ r)).GetsStuck listEnds := by
  have htail : E (furtherTexts String.toList (rest.map text) ++ r) := by
    cases rest with
    | nil => exact hr
    | cons d rest => exact hcomma _
  cases front with
  | nil =>
    have hspaced : trimBlanks ((text b).toList ++ (furtherTexts String.toList (rest.map text) ++ r)) =
        (text b).toList ++ (furtherTexts String.toList (rest.map text) ++ r) :=
      trimBlanks_of_stops (hb.stops _)
    have hb := hstuck _ htail
    rw [List.nil_append, List.map_cons, toList_joinWith, List.append_assoc]
    unfold items1
    cases hitem : p ((text b).toList ++ (furtherTexts String.toList (rest.map text) ++ r)) with
    | fail t =>
      rw [spaced_fail (by rw [hspaced, hitem])]
      trivial
    | ok a t =>
      rw [hitem] at hb
      rw [spaced_ok (by rw [hspaced, hitem])]
      dsimp only
      rw [furtherItems_of_fail (hb.char_fail List.mem_cons_self)]
      exact hb.ofItem.trimBlanks
  | cons d front =>
    rw [List.forall_mem_cons] at hread
    obtain ⟨s, hs⟩ : ∃ s, furtherTexts String.toList (front.map text) ++ ',' :: ' ' ::
        ((text b).toList ++ (furtherTexts String.toList (rest.map text) ++ r)) = ',' :: s := by
      cases front <;> exact ⟨_, rfl⟩
    have htext : (Text.joinWith ", " ((d :: front ++ b :: rest).map text)).toList ++ r =
        (text d).toList ++ ',' :: s := by
      rw [← hs, List.cons_append, List.map_cons, toList_joinWith]
      simp [furtherTexts]
    have hitem : spaced p ((text d).toList ++ ',' :: s) = .ok (g d) (',' :: s) := by
      rw [spaced_ok (a := g d) (t := ',' :: s), trimBlanks_cons (by decide)]
      rw [trimBlanks_of_stops (hread.1.1.stops _), hread.1.2 _ (hcomma s)]
    have hbound : front.length < (',' :: s).length := by
      have hle := length_le_furtherTexts String.toList (front.map text)
      rw [← hs]
      simp only [List.length_map, List.length_append, List.length_cons] at hle ⊢
      omega
    obtain ⟨as, t, hfurther, ht⟩ := furtherItems_stuck hread.2 hcomma hb (hstuck _ htail) hbound
    rw [htext]
    unfold items1
    rw [hitem]
    dsimp only
    rw [← hs] at hfurther ⊢
    rw [hfurther]
    exact ht

end Lists

section Attributes

variable {type : Reader Ty} {attr : Reader (Attr Ty)} {r : List Char}

/-- The text begins with a character that is neither a blank nor the end of an item. -/
def Begins (l : List Char) : Prop :=
  ∃ c cs, l = c :: cs ∧ isBlank c = false ∧ c ∉ itemEnds

theorem Begins.inked {l : List Char} (h : Begins l) : Inked l := by
  obtain ⟨c, cs, rfl, hc, -⟩ := h
  exact ⟨c, cs, rfl, hc⟩

theorem Begins.stuck {l : List Char} (h : Begins l) (r : List Char) : Stuck itemEnds (l ++ r) := by
  obtain ⟨c, cs, rfl, hblank, hc⟩ := h
  exact stuck_cons hblank hc (cs ++ r)

/-- A reader of types or attributes reads what is readable back, and gets stuck in anything else. -/
structure Decides {τ : Type} (p : Reader τ) (text : τ → String) (readable : τ → Bool)
    (E : List Char → Prop) (a : τ) : Prop where
  begins : Begins (text a).toList
  reads {r : List Char} : readable a → E r → p ((text a).toList ++ r) = .ok a r
  stuck {r : List Char} : readable a = false → E r →
    (p ((text a).toList ++ r)).GetsStuck itemEnds

section Decides

variable {τ : Type} {p : Reader τ} {text : τ → String} {readable : τ → Bool}
  {E : List Char → Prop} {l : List τ} {opening closing : Char}

theorem items_stuck {α β : Type} {item : Reader α} {separator : Reader β} {ends s : List Char}
    (h : (items1 item separator s).GetsStuck ends) (hs : Stuck ends s) :
    (items item separator s).GetsStuck ends := by
  rw [items_eq_orElse]
  cases hitems : items1 item separator s with
  | fail t =>
    rw [orElse_fail hitems]
    exact hs
  | ok as t =>
    rw [orElse_ok hitems]
    rwa [hitems] at h

theorem items1_stuck_of_not (hl : ∀ a ∈ l, Decides p text readable E a)
    (hnot : ¬ ∀ a ∈ l, readable a) (hcomma : ∀ s, E (',' :: s)) (hr : E r) :
    (items1 (spaced p) (char ',')
      ((Text.joinWith ", " (l.map text)).toList ++ r)).GetsStuck listEnds := by
  obtain ⟨front, b, rest, rfl, hfront, hb⟩ := exists_first_not hnot
  have hmem : b ∈ front ++ b :: rest := List.mem_append_right _ List.mem_cons_self
  exact items1_stuck (g := id)
    (fun d hd => ⟨(hl d (List.mem_append_left _ hd)).begins.inked,
      fun r => (hl d (List.mem_append_left _ hd)).reads (hfront d hd)⟩)
    hcomma (hl b hmem).begins.inked (fun r => (hl b hmem).stuck (by simpa using hb)) hr

theorem begins_joinWith (hl : ∀ a ∈ l, Decides p text readable E a) (hne : l ≠ []) :
    Begins (Text.joinWith ", " (l.map text)).toList := by
  obtain ⟨a, l, rfl⟩ := List.exists_cons_of_ne_nil hne
  obtain ⟨c, cs, hcs, hblank, hc⟩ := (hl a List.mem_cons_self).begins
  exact ⟨c, _, by rw [List.map_cons, toList_joinWith, hcs]; rfl, hblank, hc⟩

theorem listed_fail_of_not (hl : ∀ a ∈ l, Decides p text readable E a)
    (hnot : ¬ ∀ a ∈ l, readable a) (hcomma : ∀ s, E (',' :: s)) (hr : E (closing :: r))
    (hclosing : closing ∈ listEnds) :
    ∃ t, listed opening closing p
      (opening :: ((Text.joinWith ", " (l.map text)).toList ++ closing :: r)) = .fail t := by
  have hne : l ≠ [] := by
    rintro rfl
    simp at hnot
  have hbegins := begins_joinWith hl hne
  refine between_fail_closing ?_ hclosing
  rw [trimBlanks_of_stops (hbegins.inked.stops _)]
  exact items_stuck (items1_stuck_of_not hl hnot hcomma hr) (hbegins.stuck _).ofItem

end Decides

theorem not_mem_itemEnds {c : Char} (h : Text.isWordChar c) : c ∉ itemEnds := by
  have hends : ∀ c ∈ itemEnds, Text.isWordChar c = false := by
    simp [itemEnds, listEnds, Text.isWordChar]
  intro hc
  simp [hends c hc] at h

theorem begins_of_isWordChar {c : Char} (h : Text.isWordChar c) (l : List Char) : Begins (c :: l) :=
  ⟨c, l, rfl, Text.not_isBlank_of_isWordChar h, not_mem_itemEnds h⟩

theorem begins_of_isName {x : String} (h : Text.isName x) (l : List Char) :
    Begins (x.toList ++ l) := by
  obtain ⟨c, cs, hcs, hc, -⟩ := Text.isName_iff.mp h
  rw [hcs]
  exact begins_of_isWordChar (Text.isWordChar_of_isNameStart hc) (cs ++ l)

/-- An entry of a dictionary is read back if its value is, and gets stuck with it. -/
theorem decides_entry {e : String × Attr Ty} (hkey : Text.isName e.1)
    (h : Decides attr Attr.text Attr.isReadable AttrEnd e.2) :
    Decides (entryWith attr) entryText (fun e => e.2.isReadable) AttrEnd e := by
  have hbegins : Begins (entryText e).toList := by
    simpa [entryText] using begins_of_isName hkey (" = ".toList ++ e.2.text.toList)
  refine ⟨hbegins, fun he hr => entryWith_eq hkey h.begins.inked (h.reads he hr), fun he hr => ?_⟩
  rw [entryWith_text hkey h.begins.inked]
  exact getsStuck_map (h.stuck he hr)

theorem dictWith_fail_of_not {as : List (String × Attr Ty)}
    (has : ∀ e ∈ as, Text.isName e.1 ∧ Decides attr Attr.text Attr.isReadable AttrEnd e.2)
    (hnot : ¬ ∀ e ∈ as, e.2.isReadable) (r : List Char) :
    ∃ t, (do blanks; dictWith attr) ((attrsText as).toList ++ r) = .fail t := by
  have hentries (e : String × Attr Ty) (he : e ∈ as) :
      Decides (entryWith attr) entryText (fun e => e.2.isReadable) AttrEnd e :=
    decides_entry (has e he).1 (has e he).2
  have hne : as ≠ [] := by
    rintro rfl
    simp at hnot
  have htext : (attrsText as).toList ++ r =
      ' ' :: '\x7b' :: ((Text.joinWith ", " (as.map entryText)).toList ++ '\x7d' :: r) := by
    rw [attrsText, if_neg (by simpa using hne), toList_dictText]
    simp
  have hbegins := begins_joinWith hentries hne
  rw [htext, bind_ok (blanks_eq _), trimBlanks_space, trimBlanks_cons (by decide)]
  refine between_fail_closing ?_ (by decide)
  rw [trimBlanks_of_stops (hbegins.inked.stops _)]
  exact items1_stuck_of_not hentries hnot (fun s => ⟨',', s, rfl, by simp⟩)
    ⟨'\x7d', r, rfl, by simp⟩

/-- In a type that is not readable the reader gets stuck, in front of its parentheses or its
attributes. -/
theorem typeWith_stuck {d n : String} {ps : List Ty} {as : List (String × Attr Ty)}
    (hd : Text.isName d) (hn : Text.isName n)
    (hps : ∀ p ∈ ps, Decides type Ty.text Ty.isReadable TypeEnd p)
    (has : ∀ e ∈ as, Text.isName e.1 ∧ Decides attr Attr.text Attr.isReadable AttrEnd e.2)
    (hclose : ∀ s, ∃ t, type (')' :: s) = .fail t) (hnot : (Ty.mk d n ps as).isReadable = false)
    (r : List Char) :
    (typeWith type attr ((Ty.mk d n ps as).text.toList ++ r)).GetsStuck itemEnds := by
  have hsome : ¬((∀ p ∈ ps, p.isReadable) ∧ ∀ e ∈ as, e.2.isReadable) := by
    rintro ⟨hps', has'⟩
    have hreadable := Ty.isReadable_iff.mpr ⟨hd, hn, hps', fun e he => ⟨(has e he).1, has' e he⟩⟩
    simp [hnot] at hreadable
  have hparen : ¬(ps.isEmpty && as.isEmpty && !(d == "core" && n == "tuple")) := by
    intro h
    obtain ⟨⟨hp, ha⟩, -⟩ : (ps = [] ∧ as = []) ∧ _ := by simpa using h
    subst hp ha
    simp at hsome
  have htext : (Ty.mk d n ps as).text.toList ++ r =
      d.toList ++ '.' :: (n.toList ++ ((paramsText d n ps as).toList ++ ((attrsText as).toList ++ r))) := by
    simp [Ty.toList_text]
  have hopen : Stops Text.isWordChar
      ((paramsText d n ps as).toList ++ ((attrsText as).toList ++ r)) := by
    simp [toList_paramsText hparen, Text.isWordChar]
  unfold typeWith
  rw [htext, bind_ok (qualifiedName_eq hd hn hopen)]
  dsimp only
  by_cases hall : ∀ p ∈ ps, p.isReadable
  · have hread := params_eq hparen (fun p hp => ⟨(hps p hp).begins.inked, fun r hr =>
      (hps p hp).reads (hall p hp) hr⟩) hclose ((attrsText as).toList ++ r)
    have hattrs : ¬ ∀ e ∈ as, e.2.isReadable := fun h => hsome ⟨hall, h⟩
    obtain ⟨t, ht⟩ := dictWith_fail_of_not has hattrs r
    rw [bind_ok (optional_ok hread)]
    dsimp only
    rw [bind_ok (optional_fail ht)]
    cases as with
    | nil => simp at hattrs
    | cons e as =>
      rw [attrsText, if_neg (by simp), toList_dictText]
      exact ⟨'\x7b', _, by rw [List.cons_append, trimBlanks_space]; rfl, by decide⟩
  · have hfail : ∃ t, listed '(' ')' type ((paramsText d n ps as).toList ++
        ((attrsText as).toList ++ r)) = .fail t := by
      rw [toList_paramsText hparen]
      simpa using listed_fail_of_not hps hall (fun s => typeEnd_cons (by simp) s)
        (typeEnd_cons (by simp) ((attrsText as).toList ++ r)) (by decide)
    obtain ⟨t, ht⟩ := hfail
    rw [bind_ok (optional_fail ht), toList_paramsText hparen]
    exact stuck_cons (by decide) (by decide) _

/-- A word is taken from the front of a type whose text begins with it, and the reader gets stuck in
what is left of the name. -/
theorem stuck_word {t : Ty} (ht : t.isPlain) {w : String} (hw : w ∈ Attr.words) {s r : List Char}
    (hs : w.toList ++ s = t.text.toList ++ r) : Stuck itemEnds s := by
  obtain ⟨d, n, ps, as⟩ := t
  obtain ⟨hd, -⟩ := Ty.isPlain_iff.mp ht
  obtain ⟨c, cs, hcs, hc, hword⟩ := Text.isName_iff.mp hd
  have hletters : ∀ e ∈ d.toList, Text.isWordChar e := by
    rw [hcs]
    exact List.forall_mem_cons.mpr ⟨Text.isWordChar_of_isNameStart hc, hword⟩
  rw [Ty.toList_text, List.append_assoc, List.cons_append] at hs
  obtain ⟨l, hl, rfl⟩ := word_append_eq hw hs
  cases l with
  | nil => exact stuck_cons (by decide) (by decide) _
  | cons e l => exact (begins_of_isWordChar (hletters e (by simp [hl])) l).stuck _

theorem typeWith_fail (h : Stops Text.isNameStart r) : typeWith type attr r = .fail r := by
  unfold typeWith
  rw [bind_fail (qualifiedName_fail h)]

/-- A type that begins with the word of another attribute is taken for that attribute, and what follows
the word is left over. -/
theorem attrWith_type_stuck {t : Ty} (ha : t.isPlain) (hnot : (Attr.type t).isReadable = false)
    (htype : Decides type Ty.text Ty.isReadable TypeEnd t) (hr : AttrEnd r) :
    (attrWith type attr (t.text.toList ++ r)).GetsStuck itemEnds := by
  by_cases hword : ∃ w ∈ Attr.words, w.toList <+: t.text.toList ++ r
  · obtain ⟨w, hw, s, hs⟩ := hword
    have hstuck := stuck_word ha hw hs
    rw [← hs]
    simp only [Attr.words, List.mem_cons, List.not_mem_nil, or_false] at hw
    rcases hw with rfl | rfl | rfl
    · exact hstuck
    · exact hstuck
    · exact hstuck
  · simp only [not_exists, not_and] at hword
    have hwords : Attr.words.all fun w => !w.toList.isPrefixOf t.text.toList := by
      rw [List.all_eq_true]
      intro w hw
      have hno := fun h => hword w hw (List.IsPrefix.trans h (List.prefix_append t.text.toList r))
      simpa [← List.isPrefixOf_iff_prefix] using hno
    have ht : t.isReadable = false := by
      rw [Attr.isReadable, hwords, Bool.and_true] at hnot
      exact hnot
    have hstuck := htype.stuck ht hr.typeEnd
    obtain ⟨d, n, ps, as⟩ := t
    obtain ⟨hd, -⟩ := Ty.isPlain_iff.mp ha
    obtain ⟨c, cs, hcs, hc, -⟩ := Text.isName_iff.mp hd
    rw [Ty.toList_text, hcs, List.cons_append, List.cons_append] at hstuck hword ⊢
    rw [attrWith_of_isNameStart hc hword]
    exact getsStuck_map hstuck

/-- Every alternative but the type is tried in vain on a list, and no type begins with a bracket. -/
theorem attrWith_list_fail {items : List (Attr Ty)} (hnot : (Attr.list items).isReadable = false)
    (hbracket : ∀ s, ∃ t, type ('[' :: s) = .fail t)
    (hlist : ∀ b ∈ items, Decides attr Attr.text Attr.isReadable AttrEnd b) :
    ∃ t, attrWith type attr ((Attr.list items).text.toList ++ r) = .fail t := by
  have hsome : ¬ ∀ b ∈ items, b.isReadable := by
    intro h
    rw [Attr.isReadable, Attr.areReadable_iff.mpr h] at hnot
    simp at hnot
  have hend : AttrEnd (']' :: r) := ⟨']', r, rfl, by simp⟩
  obtain ⟨t, ht⟩ : ∃ t, listed '[' ']' _ _ = .fail t :=
    listed_fail_of_not hlist hsome (fun s => ⟨',', s, rfl, by simp⟩) hend (by decide)
  have htext : (Attr.list items).text.toList ++ r =
      '[' :: ((Text.joinWith ", " (items.map Attr.text)).toList ++ ']' :: r) := by
    simp [Attr.text, Attr.texts_eq_map]
  obtain ⟨u, hu⟩ := hbracket ((Text.joinWith ", " (items.map Attr.text)).toList ++ ']' :: r)
  rw [htext, attrWith_of_no_word (no_word_of_head (by decide) _),
    orElse_fail (bind_fail (quoted_fail (by simp))),
    orElse_fail (bind_fail (symbol_fail (by simp))), orElse_fail (bind_fail ht),
    orElse_fail (bind_fail (by rfl)), orElse_fail (bind_fail (by rfl)), bind_fail hu]
  exact ⟨_, rfl⟩

theorem attrWith_stuck {a : Attr Ty} (ha : a.isPlain) (hnot : a.isReadable = false)
    (htype : ∀ t, a = .type t → Decides type Ty.text Ty.isReadable TypeEnd t)
    (hbracket : ∀ s, ∃ t, type ('[' :: s) = .fail t)
    (hlist : ∀ items, a = .list items →
      ∀ b ∈ items, Decides attr Attr.text Attr.isReadable AttrEnd b) (hr : AttrEnd r) :
    (attrWith type attr (a.text.toList ++ r)).GetsStuck itemEnds := by
  cases a with
  | unit => simp [Attr.isReadable] at hnot
  | bool b => simp [Attr.isReadable] at hnot
  | int bits => simp [Attr.isReadable] at hnot
  | float bits =>
    rw [Attr.isPlain] at ha
    simp [Attr.isReadable, ha] at hnot
  | string x => simp [Attr.isReadable] at hnot
  | symbol x => simp [Attr.isReadable] at hnot
  | type t =>
    rw [Attr.text]
    exact attrWith_type_stuck ha hnot (htype t rfl) hr
  | list items =>
    obtain ⟨t, ht⟩ := attrWith_list_fail hnot hbracket (hlist items rfl)
    rw [ht]
    trivial

theorem begins_type {t : Ty} (h : t.isPlain) : Begins t.text.toList := by
  obtain ⟨d, n, ps, as⟩ := t
  rw [Ty.toList_text]
  exact begins_of_isName (Ty.isPlain_iff.mp h).1 _

theorem begins_attr {a : Attr Ty} (h : a.isPlain) : Begins a.text.toList := by
  have hmarks : ∀ c ∈ ['-', '"', '@', '['], isBlank c = false ∧ c ∉ itemEnds := by
    simp [isBlank, itemEnds, listEnds]
  obtain ⟨c, cs, hcs, hc⟩ : ∃ c cs, a.text.toList = c :: cs ∧
      (Text.isWordChar c ∨ c ∈ ['-', '"', '@', '[']) := by
    apply head_attr
    · rintro bits rfl
      exact h
    · rintro ⟨d, n, ps, as⟩ rfl
      obtain ⟨c, cs, hcs, hc, -⟩ := Text.isName_iff.mp (Ty.isPlain_iff.mp h).1
      exact ⟨c, _, by rw [Ty.toList_text, hcs, List.cons_append], Text.isWordChar_of_isNameStart hc⟩
  rcases hc with hc | hc
  · rw [hcs]
    exact begins_of_isWordChar hc cs
  · exact ⟨c, cs, hcs, hmarks c hc⟩

/-- A bound as long as the text of a type or attribute is enough to decide about it. -/
theorem within_decides (bound : List Char) :
    (∀ t : Ty, t.isPlain → t.text.toList.length ≤ bound.length →
      Decides (typeWithin bound) Ty.text Ty.isReadable TypeEnd t) ∧
    (∀ a : Attr Ty, a.isPlain → a.text.toList.length ≤ bound.length →
      Decides (attrWithin bound) Attr.text Attr.isReadable AttrEnd a) := by
  induction bound with
  | nil => exact ⟨fun t ht _ => ⟨begins_type ht, fun h hr => (within_eq []).1 t h ‹_› _ hr,
      fun _ _ => trivial⟩, fun a ha _ => ⟨begins_attr ha, fun h hr => (within_eq []).2 a h ‹_› _ hr,
      fun _ _ => trivial⟩⟩
  | cons b bound ih =>
    obtain ⟨ihtype, ihattr⟩ := ih
    have htypes (t : Ty) (ht : t.isPlain) (hlen : t.text.toList.length ≤ (b :: bound).length) :
        Decides (typeWithin (b :: bound)) Ty.text Ty.isReadable TypeEnd t := by
      refine ⟨begins_type ht, fun h hr => (within_eq _).1 t h hlen _ hr, fun hnot hr => ?_⟩
      obtain ⟨d, n, ps, as⟩ := t
      obtain ⟨hd, hn, hps, has⟩ := Ty.isPlain_iff.mp ht
      rw [List.length_cons] at hlen
      refine typeWith_stuck hd hn (fun p hp => ihtype p (hps p hp) ?_)
        (fun e he => ⟨(has e he).1, ihattr e.2 (has e he).2 ?_⟩) (typeWithin_fail bound) hnot _
      · have hlt : p.text.toList.length < (Ty.mk d n ps as).text.toList.length := length_param_lt hp
        omega
      · have hlt : e.2.text.toList.length < (Ty.mk d n ps as).text.toList.length :=
          length_entry_lt he
        omega
    refine ⟨htypes, fun a ha hlen => ⟨begins_attr ha, fun h hr => (within_eq _).2 a h hlen _ hr,
      fun hnot hr => ?_⟩⟩
    refine attrWith_stuck ha hnot ?_ (fun s => ⟨_, typeWith_fail (by simp [Text.isNameStart])⟩) ?_ hr
    · rintro t rfl
      exact htypes t ha hlen
    · rintro items rfl c hc
      have hlt := length_item_lt hc
      rw [List.length_cons] at hlen
      exact ihattr c (Attr.arePlain_iff.mp ha c hc) (by omega)

end Attributes

end Reader

theorem Reader.op_of_cons {s : List Char} {b : Char} {bound : List Char} (hs : s = b :: bound)
    (total : Nat) : Reader.op total s = (do
      let h ← Reader.head total
      let regions ← Reader.many (fun s => s.head? = some '\x7b')
        (Reader.regionWith (Reader.opWithin total bound))
      return .mk h regions : Reader SourceOp) s := by
  subst hs
  rfl

/-- An operation with the attribute `a` and nothing else, as it is written. -/
def Attr.source (a : Attr Ty) : String :=
  "t.t \x7ba = " ++ a.text ++ "\x7d"

/-- The line of that operation. -/
def Attr.sourceHead (a : Attr Ty) : SourceHead :=
  { dialect := "t", name := "t", attrs := [("a", a)] }

/-- That operation with any text in the place of the value. -/
def attrSource (text : String) : String :=
  "t.t \x7ba = " ++ text ++ "\x7d"

section AttrSource

variable (text : String)

/-- The braces of that operation. -/
def attrBraces : List Char :=
  (dictText ["a" ++ " = " ++ text]).toList

theorem attrBraces_eq :
    attrBraces text = ' ' :: '\x7b' :: 'a' :: ' ' :: '=' :: ' ' :: (text.toList ++ ['\x7d']) := by
  simp [attrBraces, toList_dictText, Text.joinWith]

theorem toList_attrSource : (attrSource text).toList = 't' :: '.' :: 't' :: attrBraces text := by
  simp [attrSource, attrBraces_eq]

theorem head_attrSource (total : Nat) : Reader.head total (attrSource text).toList = (do
    let attrs ← Reader.optional (do Reader.blanks; Reader.dict)
    let resultTypes ← Reader.optional Reader.resultTypes
    return {
      offset := total - Reader.byteCount (attrSource text).toList, dialect := "t", name := "t"
      attrs := attrs.getD [], resultTypes := resultTypes.getD [] } : Reader SourceHead)
    (attrBraces text) := by
  rw [toList_attrSource, attrBraces_eq]
  rfl

variable {text}

theorem parse_attrSource {as : List (String × Attr Ty)}
    (h : (do Reader.blanks; Reader.dict) (attrBraces text) = .ok as []) :
    SourceOp.parse (attrSource text) = .ok (.mk { dialect := "t", name := "t", attrs := as } []) := by
  have hhead : Reader.head (Reader.byteCount (attrSource text).toList) (attrSource text).toList =
      .ok { dialect := "t", name := "t", attrs := as } [] := by
    rw [head_attrSource, Nat.sub_self, Reader.bind_ok (Reader.optional_ok h)]
    rfl
  have hop := Reader.op_of_cons (toList_attrSource text)
    (Reader.byteCount (attrSource text).toList)
  rw [Reader.bind_ok hhead] at hop
  simp only [SourceOp.parse, hop]
  rfl

/-- Otherwise its braces are taken for those of a region, in which no operation stands: they begin with
a name that no point follows. -/
theorem parse_attrSource_of_fail {t : List Char}
    (h : (do Reader.blanks; Reader.dict) (attrBraces text) = .fail t) :
    SourceOp.parse (attrSource text) = .error ⟨syntaxMessage, 6⟩ := by
  have hhead (total : Nat) : Reader.head total (attrSource text).toList = .ok
      { offset := total - Reader.byteCount (attrSource text).toList, dialect := "t", name := "t" }
      (attrBraces text) := by
    rw [head_attrSource, Reader.bind_ok (Reader.optional_fail h), attrBraces_eq]
    rfl
  have hregion (total : Nat) (bound : List Char) :
      Reader.many (fun s => s.head? = some '\x7b')
        (Reader.regionWith (Reader.opWithin total ('.' :: bound))) (attrBraces text) =
      .fail (' ' :: '=' :: ' ' :: (text.toList ++ ['\x7d'])) := by
    rw [attrBraces_eq]
    rfl
  have hop := Reader.op_of_cons (toList_attrSource text)
    (Reader.byteCount (attrSource text).toList)
  rw [Reader.bind_ok (hhead _), Reader.bind_fail (hregion _ _)] at hop
  have hcount : Reader.byteCount (attrSource text).toList =
      6 + Reader.byteCount (' ' :: '=' :: ' ' :: (text.toList ++ ['\x7d'])) := by
    rw [toList_attrSource, attrBraces_eq]
    exact Reader.byteCount_append ['t', '.', 't', ' ', '\x7b', 'a']
      (' ' :: '=' :: ' ' :: (text.toList ++ ['\x7d']))
  simp only [SourceOp.parse, hop]
  rw [hcount, Nat.add_sub_cancel_right]

end AttrSource

namespace Attr

variable {a : Attr Ty}

theorem source_eq (a : Attr Ty) : a.source = attrSource a.text := rfl

theorem attrsText_eq (a : Attr Ty) : (attrsText [("a", a)]).toList ++ [] = attrBraces a.text :=
  List.append_nil _

theorem parse_source (ha : a.isReadable) :
    ∃ n, SourceOp.parse a.source = .ok (.mk { a.sourceHead with offset := n } []) := by
  have hname : Text.isName "a" := by decide
  have hread := Reader.dict_eq (List.cons_ne_nil ("a", a) []) (by simp [hname, ha]) []
  rw [attrsText_eq] at hread
  rw [source_eq]
  exact ⟨0, parse_attrSource hread⟩

theorem decides_attr (ha : a.isPlain) :
    Reader.Decides Reader.attr Attr.text Attr.isReadable AttrEnd a := by
  refine ⟨Reader.begins_attr ha, fun h hr => Reader.attr_eq h hr, fun {r} hnot hr => ?_⟩
  exact ((Reader.within_decides (a.text.toList ++ r)).2 a ha (by simp)).stuck hnot hr

theorem parse_source_of_not (ha : a.isPlain) (hnot : a.isReadable = false) :
    SourceOp.parse a.source = .error ⟨syntaxMessage, 6⟩ := by
  have hname : Text.isName "a" := by decide
  obtain ⟨t, ht⟩ : ∃ t, (do Reader.blanks; Reader.dict) ((attrsText [("a", a)]).toList ++ []) =
      .fail t := by
    refine Reader.dictWith_fail_of_not (fun e he => ?_) (by simp [hnot]) []
    obtain rfl : e = ("a", a) := by simpa using he
    exact ⟨hname, decides_attr ha⟩
  rw [attrsText_eq] at ht
  rw [source_eq]
  exact parse_attrSource_of_fail ht

end Attr

namespace Context

/-- An operation that mentions no names is created with the attributes that are written. -/
theorem gives_bare (ctx : Context) (h : SourceHead) (hresults : h.results = [])
    (hoperands : h.operands = []) (hsuccessors : h.successors = []) :
    ∃ id scope ctx' op, Resolve.Gives (Resolve.op {} (.mk h [])) ctx (id, scope) ctx' ∧
      ctx'.op? id = some op ∧ op.attrs = Resolve.attributes h := by
  obtain ⟨id, ctx', hcreate⟩ : ∃ id ctx', ctx.createOp {
      location := ⟨Resolve.textPath, ⟨h.offset, h.offset⟩⟩
      dialect := h.dialect
      name := h.name
      operands := [], successors := [], regions := []
      resultTypes := Ty.canonicalList h.resultTypes
      attrs := Resolve.attributes h } = .ok (ctx', id) := ⟨_, _, rfl⟩
  have hop := (createOp_ok hcreate).op? id
  rw [if_pos rfl] at hop
  refine ⟨id, {}, ctx', _, ?_, hop, rfl⟩
  unfold Resolve.op
  rw [hoperands, hsuccessors, hresults]
  refine Resolve.gives_bind.mpr ⟨[], ctx, rfl, Resolve.gives_bind.mpr ⟨[], ctx, rfl, ?_⟩⟩
  refine Resolve.gives_bind.mpr ⟨(), ctx, Resolve.gives_checkResults.mpr ⟨.inl hresults, rfl⟩, ?_⟩
  refine Resolve.gives_bind.mpr ⟨[], ctx, rfl, ?_⟩
  refine Resolve.gives_bind.mpr ⟨id, ctx', Resolve.gives_createOp.mpr hcreate, ?_⟩
  refine Resolve.gives_bind.mpr ⟨_, ctx', (Resolve.gives_resultsOf hop).mpr ⟨rfl, rfl⟩, ?_⟩
  exact Resolve.gives_bind.mpr ⟨{}, ctx', rfl, rfl⟩

/-- An attribute whose names are names and whose floats are numbers is read back from its text,
whatever else is in it, unless a type whose name begins with a word stands in it as an attribute. Such
an attribute is refused. -/
theorem parse_attr (ctx : Context) {a : Attr Ty} (hc : a.Canonical) (ha : a.isPlain) :
    ((∀ t, Attr.HasAttr t a → t.Wordless) →
      ∃ id ctx' op, ctx.parse a.source = (.ok id, ctx') ∧ ctx'.op id = .ok op ∧
        op.attrs.find? "a" = some a) ∧
    (¬ (∀ t, Attr.HasAttr t a → t.Wordless) →
      ctx.parse a.source = (.error (.rejected ⟨syntaxMessage, 6⟩), ctx)) := by
  constructor
  · intro hwordless
    obtain ⟨n, hparse⟩ := Attr.parse_source (a.isReadable_iff_plain.mpr ⟨ha, hwordless⟩)
    obtain ⟨id, scope, ctx', op, hgives, hop, hattrs⟩ :=
      ctx.gives_bare { a.sourceHead with offset := n } rfl rfl rfl
    refine ⟨id, ctx', op, parse_eq_ok_iff.mpr ⟨_, scope, hparse, hgives⟩, op_eq_ok.mpr hop, ?_⟩
    have hsingle : op.attrs = [("a", Ty.canonicalAttr a)] := hattrs
    rw [hsingle, hc]
    rfl
  · intro hword
    have hnot : a.isReadable = false := by
      rw [← Bool.not_eq_true]
      exact fun h => hword (a.isReadable_iff_plain.mp h).2
    rw [parse, Attr.parse_source_of_not ha hnot]

/-- Every kind of attribute, among them names and texts that only quotes or escapes can hold, and a
type with parameters and attributes. -/
def assorted : Attr Ty :=
  .list [.unit, .bool false, .int 18446744073709551615, .float 13826050856027422720,
    .string "tab \t, quote \" and \\n", .symbol "", .symbol "two words", .list [],
    .type (.mk "test" "box" [.tuple [], .mk "true" "x" [] []] [("k", .type (.mk "u" "nit" [] []))])]

theorem parse_attr_assorted :
    assorted.Canonical ∧ assorted.isPlain ∧ (∀ t, Attr.HasAttr t assorted → t.Wordless) ∧
      ∃ id ctx' op, parse {} assorted.source = (.ok id, ctx') ∧ ctx'.op id = .ok op ∧
        op.attrs.find? "a" = some assorted := by
  have hc : assorted.Canonical := by decide +kernel
  have ha : assorted.isPlain := by decide +kernel
  have hreadable : assorted.isReadable := by decide +kernel
  have hwordless := (assorted.isReadable_iff_plain.mp hreadable).2
  exact ⟨hc, ha, hwordless, (parse_attr {} hc ha).1 hwordless⟩

/-- The word `true` is taken from the front of the type `true.x`. -/
theorem not_parse_attr_of_word :
    (Attr.type (.mk "true" "x" [] [])).Canonical ∧ (Attr.type (.mk "true" "x" [] [])).isPlain ∧
      ¬ ∃ id ctx' op, parse {} (Attr.type (.mk "true" "x" [] [])).source = (.ok id, ctx') ∧
        ctx'.op id = .ok op ∧ op.attrs.find? "a" = some (.type (.mk "true" "x" [] [])) := by
  have ha : (Attr.type (.mk "true" "x" [] [])).isPlain := by decide +kernel
  refine ⟨by decide +kernel, ha, ?_⟩
  rintro ⟨id, ctx', op, hparse, -, -⟩
  rw [parse, Attr.parse_source_of_not ha (by decide +kernel)] at hparse
  simp at hparse

end Context

end RegionIR
