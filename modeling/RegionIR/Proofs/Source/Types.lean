import RegionIR.Proofs.Source.Literals
import RegionIR.Proofs.Types.Conversion
import RegionIR.Source.Grammar
import RegionIR.Ty.Printer

/-! Types and attributes are read as they were written.

A type is read back if its names are names and its floats are numbers. Where a type stands as an
attribute its text must not begin with one of the words that are constants; a word is taken even
from the front of a longer name. What follows a type must not look like a part of it. -/

namespace RegionIR

/-- The words that are read as constants where an attribute may stand. -/
def Attr.words : List String := ["true", "false", "unit"]

mutual

/-- Whether the type is read back from its text. -/
def Ty.isReadable : Ty → Bool
  | .mk dialect name params attrs =>
    Text.isName dialect && Text.isName name && Ty.areReadable params && Ty.entriesReadable attrs

def Ty.areReadable : List Ty → Bool
  | [] => true
  | t :: rest => t.isReadable && Ty.areReadable rest

def Ty.entriesReadable : List (String × Attr Ty) → Bool
  | [] => true
  | (key, a) :: rest => Text.isName key && Attr.isReadable a && Ty.entriesReadable rest

/-- Whether the attribute is read back from its text. -/
def Attr.isReadable : Attr Ty → Bool
  | .float bits => (Decimal.Binary64.ofBits bits).isFinite
  | .type t => t.isReadable && Attr.words.all fun w => !w.toList.isPrefixOf t.text.toList
  | .list items => Attr.areReadable items
  | _ => true

def Attr.areReadable : List (Attr Ty) → Bool
  | [] => true
  | a :: rest => Attr.isReadable a && Attr.areReadable rest

end

theorem Ty.areReadable_iff {ts : List Ty} : Ty.areReadable ts ↔ ∀ t ∈ ts, t.isReadable := by
  induction ts with
  | nil => simp [Ty.areReadable]
  | cons t ts ih => simp [Ty.areReadable, ih]

theorem Ty.entriesReadable_iff {as : List (String × Attr Ty)} :
    Ty.entriesReadable as ↔ ∀ e ∈ as, Text.isName e.1 ∧ Attr.isReadable e.2 := by
  induction as with
  | nil => simp [Ty.entriesReadable]
  | cons e as ih => simp [Ty.entriesReadable, ih, and_assoc]

theorem Ty.isReadable_iff {d n : String} {ps : List Ty} {as : List (String × Attr Ty)} :
    (Ty.mk d n ps as).isReadable ↔ Text.isName d ∧ Text.isName n ∧ (∀ p ∈ ps, p.isReadable) ∧
      ∀ e ∈ as, Text.isName e.1 ∧ e.2.isReadable := by
  simp only [Ty.isReadable, Bool.and_eq_true, Ty.areReadable_iff, Ty.entriesReadable_iff, and_assoc]

theorem Attr.areReadable_iff {items : List (Attr Ty)} :
    Attr.areReadable items ↔ ∀ a ∈ items, a.isReadable := by
  induction items with
  | nil => simp [Attr.areReadable]
  | cons a items ih => simp [Attr.areReadable, ih]

section Texts

theorem Ty.texts_eq_map (ts : List Ty) : Ty.texts ts = ts.map Ty.text := by
  induction ts with
  | nil => rfl
  | cons t ts ih => simp [Ty.texts, ih]

theorem Attr.texts_eq_map (items : List (Attr Ty)) : Attr.texts items = items.map Attr.text := by
  induction items with
  | nil => rfl
  | cons a items ih => simp [Attr.texts, ih]

/-- The text of an entry of a dictionary. -/
def entryText (e : String × Attr Ty) : String := e.1 ++ " = " ++ e.2.text

theorem Ty.entryTexts_eq_map (as : List (String × Attr Ty)) :
    Ty.entryTexts as = as.map entryText := by
  induction as with
  | nil => rfl
  | cons e as ih => simp [Ty.entryTexts, ih, entryText]

theorem length_le_joinWith {s : String} {l : List String} (h : s ∈ l) :
    s.toList.length ≤ (Text.joinWith ", " l).toList.length := by
  cases l with
  | nil => simp at h
  | cons t l =>
    rw [toList_joinWith, List.length_append]
    rcases List.mem_cons.mp h with rfl | h
    · omega
    · have hle : s.toList.length ≤ (furtherTexts String.toList l).length := by
        unfold furtherTexts
        rw [List.length_flatMap]
        refine le_trans ?_ (List.single_le_sum (by simp) _ (List.mem_map_of_mem h))
        simp only [List.length_cons]
        omega
      omega

/-- The parentheses of a type and what is in them. -/
def paramsText (dialect name : String) (params : List Ty) (attrs : List (String × Attr Ty)) :
    String :=
  if params.isEmpty then
    if attrs.isEmpty && !(dialect == "core" && name == "tuple") then "" else "()"
  else "(" ++ Text.joinWith ", " (params.map Ty.text) ++ ")"

theorem toList_paramsText {d n : String} {ps : List Ty} {as : List (String × Attr Ty)}
    (h : ¬(ps.isEmpty && as.isEmpty && !(d == "core" && n == "tuple"))) :
    (paramsText d n ps as).toList =
      '(' :: ((Text.joinWith ", " (ps.map Ty.text)).toList ++ [')']) := by
  cases ps with
  | nil =>
    rw [List.isEmpty_nil, Bool.true_and] at h
    rw [paramsText, List.isEmpty_nil, if_pos rfl, if_neg h]
    rfl
  | cons p ps => simp [paramsText]

/-- A dictionary with a blank in front, or nothing for no entries. -/
def attrsText (attrs : List (String × Attr Ty)) : String :=
  if attrs.isEmpty then "" else dictText (attrs.map entryText)

theorem Ty.toList_text (d n : String) (ps : List Ty) (as : List (String × Attr Ty)) :
    (Ty.mk d n ps as).text.toList =
      d.toList ++ '.' :: (n.toList ++ ((paramsText d n ps as).toList ++ (attrsText as).toList)) := by
  rw [Ty.text, Ty.texts_eq_map, Ty.entryTexts_eq_map]
  simp [paramsText, attrsText]

theorem Ty.head_text {t : Ty} (h : t.isReadable) :
    ∃ c cs, t.text.toList = c :: cs ∧ Text.isNameStart c := by
  obtain ⟨d, n, ps, as⟩ := t
  simp only [Ty.isReadable, Bool.and_eq_true] at h
  obtain ⟨c, cs, hs, hc, -⟩ := Text.isName_iff.mp h.1.1.1
  exact ⟨c, _, by rw [Ty.toList_text, hs]; rfl, hc⟩

theorem Attr.isReadable_type {t : Ty} (h : (Attr.type t).isReadable) : t.isReadable := by
  rw [Attr.isReadable, Bool.and_eq_true] at h
  exact h.1

theorem toList_dictText (entries : List String) : (dictText entries).toList =
    ' ' :: '\x7b' :: ((Text.joinWith ", " entries).toList ++ ['\x7d']) := by
  simp [dictText]

theorem length_param_lt {d n : String} {ps : List Ty} {as : List (String × Attr Ty)} {p : Ty}
    (h : p ∈ ps) : p.text.toList.length < (Ty.mk d n ps as).text.toList.length := by
  have hle := length_le_joinWith (List.mem_map_of_mem (f := Ty.text) h)
  have hne : ps.isEmpty = false := by
    cases ps <;> simp at h ⊢
  rw [Ty.toList_text, paramsText, hne]
  simp only [Bool.false_eq_true, if_false, String.toList_append, List.length_append,
    List.length_cons]
  omega

theorem length_entry_lt {d n : String} {ps : List Ty} {as : List (String × Attr Ty)}
    {e : String × Attr Ty} (h : e ∈ as) :
    e.2.text.toList.length < (Ty.mk d n ps as).text.toList.length := by
  have hle := length_le_joinWith (List.mem_map_of_mem (f := entryText) h)
  have hne : as.isEmpty = false := by
    cases as <;> simp at h ⊢
  rw [Ty.toList_text, attrsText, hne]
  simp only [Bool.false_eq_true, if_false, toList_dictText, entryText, String.toList_append,
    List.length_append, List.length_cons] at hle ⊢
  omega

theorem length_item_lt {items : List (Attr Ty)} {a : Attr Ty} (h : a ∈ items) :
    a.text.toList.length < (Attr.list items).text.toList.length := by
  have hle := length_le_joinWith (List.mem_map_of_mem (f := Attr.text) h)
  rw [Attr.text, Attr.texts_eq_map]
  simp only [String.toList_append, List.length_append] at hle ⊢
  have hone : "[".toList.length = 1 := rfl
  omega

end Texts

/-- The text does not go on with a dictionary. -/
def NoDict (r : List Char) : Prop :=
  ∀ attr : Reader (Attr Ty), ∃ t, (do Reader.blanks; Reader.dictWith attr) r = .fail t

theorem noDict_of_head {r : List Char} (h : ∀ c ∈ (trimBlanks r).head?, c ≠ '\x7b') : NoDict r := by
  intro attr
  refine ⟨trimBlanks r, ?_⟩
  rw [Reader.bind_ok (Reader.blanks_eq r)]
  exact Reader.between_fail_opening h

/-- What follows a type does not belong to it. -/
structure TypeEnd (r : List Char) : Prop where
  word : Stops Text.isWordChar r
  paren : ∀ c ∈ r.head?, c ≠ '('
  dict : NoDict r

theorem typeEnd_cons {c : Char} (hc : c ∈ [',', ')', ']', '\x7d']) (s : List Char) :
    TypeEnd (c :: s) := by
  have hfacts : ∀ c ∈ [',', ')', ']', '\x7d'], Text.isWordChar c = false ∧ c ≠ '(' ∧
      Reader.isBlank c = false ∧ c ≠ '\x7b' := by
    simp only [List.forall_mem_cons, List.not_mem_nil, false_implies, implies_true]
    decide
  obtain ⟨hword, hparen, hblank, hbrace⟩ := hfacts c hc
  refine ⟨by simpa using hword, by simpa using hparen, noDict_of_head ?_⟩
  rw [trimBlanks_cons hblank]
  simpa using hbrace

/-- What follows an attribute: a comma or the end of a list or dictionary. -/
def AttrEnd (r : List Char) : Prop :=
  ∃ c s, r = c :: s ∧ c ∈ [',', ']', '\x7d']

theorem AttrEnd.typeEnd {r : List Char} (h : AttrEnd r) : TypeEnd r := by
  obtain ⟨c, s, rfl, hc⟩ := h
  refine typeEnd_cons ?_ s
  simp only [List.mem_cons, List.not_mem_nil, or_false] at hc ⊢
  tauto

theorem AttrEnd.noPoint {r : List Char} (h : AttrEnd r) : ∀ c ∈ r.head?, c ≠ '.' := by
  obtain ⟨c, s, rfl, hc⟩ := h
  rintro d hd rfl
  obtain rfl : c = '.' := by simpa using hd
  revert hc
  decide

namespace Reader

variable {type : Reader Ty} {attr : Reader (Attr Ty)} {r : List Char}

theorem inked_of_isName {s : String} (h : Text.isName s) (l : List Char) : Inked (s.toList ++ l) := by
  obtain ⟨c, cs, hs, hc, -⟩ := Text.isName_iff.mp h
  exact ⟨c, cs ++ l, by simp [hs],
    Text.not_isBlank_of_isWordChar (Text.isWordChar_of_isNameStart hc)⟩

theorem listed_fail {α : Type} {opening closing : Char} {item : Reader α}
    (h : ∀ c ∈ r.head?, c ≠ opening) : listed opening closing item r = .fail r :=
  between_fail_opening h

theorem listed_eq {α : Type} {opening closing : Char} {item : Reader α} {text : α → String}
    {E : List Char → Prop} {l : List α} (hclosing : closing ≠ ',')
    (hblank : isBlank closing = false) (hitems : ∀ a ∈ l, Inked (text a).toList ∧
      ∀ r, E r → item ((text a).toList ++ r) = .ok a r)
    (hcomma : ∀ s, E (',' :: s)) (hr : E (closing :: r)) {t : List Char}
    (hempty : item (closing :: r) = .fail t) :
    listed opening closing item
      (opening :: ((Text.joinWith ", " (l.map text)).toList ++ closing :: r)) = .ok l r := by
  have hlist : between opening closing (items (spaced item) (char ','))
      (opening :: ((Text.joinWith ", " (l.map text)).toList ++ closing :: r)) = .ok (l.map id) r :=
    between_items hclosing hblank (fun a ha => (hitems a ha).1) (fun a ha => (hitems a ha).2) hcomma
      hr hempty
  rwa [List.map_id] at hlist

/-- The key of an entry of a dictionary is read, and the text of its value is left. -/
theorem entryWith_append {key text : String} (hkey : Text.isName key) (hink : Inked text.toList) :
    entryWith attr ((key ++ " = " ++ text).toList ++ r) =
      (do return (key, ← attr) : Reader (String × Attr Ty)) (text.toList ++ r) := by
  have htext : (key ++ " = " ++ text).toList ++ r =
      key.toList ++ ' ' :: '=' :: ' ' :: (text.toList ++ r) := by
    simp
  unfold entryWith
  rw [htext, bind_ok (name_eq hkey (by simp [Text.isWordChar])), bind_ok (blanks_eq _),
    trimBlanks_space, trimBlanks_cons (by decide), bind_ok (char_cons '=' _), bind_ok (blanks_eq _),
    trimBlanks_space, trimBlanks_of_stops (hink.stops r)]

theorem entryWith_text {e : String × Attr Ty} (hkey : Text.isName e.1)
    (hink : Inked e.2.text.toList) : entryWith attr ((entryText e).toList ++ r) =
      (do return (e.1, ← attr) : Reader (String × Attr Ty)) (e.2.text.toList ++ r) :=
  entryWith_append hkey hink

theorem entryWith_eq {e : String × Attr Ty} (hkey : Text.isName e.1) (hink : Inked e.2.text.toList)
    (hattr : attr (e.2.text.toList ++ r) = .ok e.2 r) :
    entryWith attr ((entryText e).toList ++ r) = .ok e r := by
  rw [entryWith_text hkey hink, return_ok hattr]

/-- A dictionary is read, whatever texts are read as its values. -/
theorem dictWith_append {γ : Type} {key text : γ → String} {value : γ → Attr Ty} {c : γ} {l : List γ}
    (h : ∀ d ∈ c :: l, Text.isName (key d) ∧ Inked (text d).toList ∧
      ∀ r, AttrEnd r → attr ((text d).toList ++ r) = .ok (value d) r) :
    (do blanks; dictWith attr)
      ((dictText ((c :: l).map fun d => key d ++ " = " ++ text d)).toList ++ r) =
        .ok ((c :: l).map fun d => (key d, value d)) r := by
  have hread : ∀ d ∈ c :: l, ∀ r, AttrEnd r →
      entryWith attr ((key d ++ " = " ++ text d).toList ++ r) = .ok (key d, value d) r := by
    intro d hd r hr
    obtain ⟨hkey, hink, hattr⟩ := h d hd
    rw [entryWith_append hkey hink, return_ok (hattr r hr)]
  have hstart : ∀ d ∈ c :: l, Inked (key d ++ " = " ++ text d).toList := fun d hd => by
    have hink := inked_of_isName (h d hd).1 (" = ".toList ++ (text d).toList)
    simpa using hink
  rw [toList_dictText, bind_ok (blanks_eq _)]
  have hitems := items1_joinWith (r := r) (by decide) (by decide) hstart hread
    (fun s => ⟨',', s, rfl, by simp⟩) ⟨'\x7d', r, rfl, by simp⟩
  have hbrace : isBlank '\x7b' = false := by decide
  have hbetween : between '\x7b' '\x7d' (items1 (spaced (entryWith attr)) (char ','))
      ('\x7b' :: ((Text.joinWith ", " ((c :: l).map fun d => key d ++ " = " ++ text d)).toList ++
        '\x7d' :: r)) = .ok ((c :: l).map fun d => (key d, value d)) r :=
    between_ok hitems (trimBlanks_cons (by decide) r)
  simpa [dictWith, trimBlanks_cons hbrace] using hbetween

theorem dictWith_eq {e : String × Attr Ty} {as : List (String × Attr Ty)}
    (has : ∀ f ∈ e :: as, Text.isName f.1 ∧ Inked f.2.text.toList ∧
      ∀ r, AttrEnd r → attr (f.2.text.toList ++ r) = .ok f.2 r) :
    (do blanks; dictWith attr) ((dictText ((e :: as).map entryText)).toList ++ r) =
      .ok (e :: as) r := by
  have hread := dictWith_append (r := r) has
  rwa [List.map_id'] at hread

theorem params_eq {d n : String} {ps : List Ty} {as : List (String × Attr Ty)}
    (hparen : ¬(ps.isEmpty && as.isEmpty && !(d == "core" && n == "tuple")))
    (hps : ∀ p ∈ ps, Inked p.text.toList ∧ ∀ r, TypeEnd r → type (p.text.toList ++ r) = .ok p r)
    (hclose : ∀ s, ∃ t, type (')' :: s) = .fail t) (r : List Char) :
    listed '(' ')' type ((paramsText d n ps as).toList ++ r) = .ok ps r := by
  obtain ⟨t, ht⟩ := hclose r
  rw [toList_paramsText hparen]
  simpa using listed_eq (by decide) (by decide) hps (fun s => typeEnd_cons (by simp) s)
    (typeEnd_cons (by simp) r) ht

theorem typeWith_eq {d n : String} {ps : List Ty} {as : List (String × Attr Ty)}
    (hd : Text.isName d) (hn : Text.isName n)
    (hps : ∀ p ∈ ps, Inked p.text.toList ∧ ∀ r, TypeEnd r → type (p.text.toList ++ r) = .ok p r)
    (has : ∀ e ∈ as, Text.isName e.1 ∧ Inked e.2.text.toList ∧
      ∀ r, AttrEnd r → attr (e.2.text.toList ++ r) = .ok e.2 r)
    (hclose : ∀ s, ∃ t, type (')' :: s) = .fail t) (hr : TypeEnd r) :
    typeWith type attr ((Ty.mk d n ps as).text.toList ++ r) = .ok (.mk d n ps as) r := by
  have hattrs : optional (do blanks; dictWith attr) ((attrsText as).toList ++ r) =
      .ok (if as.isEmpty then none else some as) r := by
    cases as with
    | nil =>
      obtain ⟨t, ht⟩ := hr.dict attr
      exact optional_fail ht
    | cons e as => exact optional_ok (dictWith_eq has)
  have htext : (Ty.mk d n ps as).text.toList ++ r =
      d.toList ++ '.' :: (n.toList ++ ((paramsText d n ps as).toList ++ ((attrsText as).toList ++ r))) := by
    simp [Ty.toList_text]
  unfold typeWith
  rw [htext]
  by_cases hparen : ps.isEmpty && as.isEmpty && !(d == "core" && n == "tuple")
  · obtain ⟨⟨hp, ha⟩, -⟩ : (ps = [] ∧ as = []) ∧ _ := by simpa using hparen
    subst hp ha
    have hnone : paramsText d n [] [] = "" := by
      rw [paramsText, List.isEmpty_nil, if_pos rfl]
      exact if_pos hparen
    rw [hnone, show ("".toList ++ ((attrsText []).toList ++ r)) = r from rfl,
      bind_ok (qualifiedName_eq hd hn hr.word)]
    dsimp only
    rw [bind_ok (optional_fail (listed_fail hr.paren))]
    rfl
  · have hopen : Stops Text.isWordChar
        ((paramsText d n ps as).toList ++ ((attrsText as).toList ++ r)) := by
      simp [toList_paramsText hparen, Text.isWordChar]
    rw [bind_ok (qualifiedName_eq hd hn hopen)]
    dsimp only
    rw [bind_ok (optional_ok (params_eq hparen hps hclose _))]
    dsimp only
    rw [bind_ok hattrs]
    cases as <;> rfl

section Attributes

variable {s : List Char}

theorem no_word_of_head {c : Char} (hc : c ∉ ['t', 'f', 'u']) (s : List Char) :
    ∀ w ∈ Attr.words, ¬ w.toList <+: c :: s := by
  rintro w hw ⟨t, ht⟩
  have hheads : ∀ w ∈ Attr.words, ∃ d ∈ ['t', 'f', 'u'], w.toList.head? = some d := by
    simp [Attr.words]
  obtain ⟨d, hd, hwd⟩ := hheads w hw
  have hhead : (w.toList ++ t).head? = some d := by simp [List.head?_append, hwd]
  rw [ht, List.head?_cons, Option.some_inj] at hhead
  exact hc (hhead ▸ hd)

theorem attrWith_of_no_word (h : ∀ w ∈ Attr.words, ¬ w.toList <+: s) :
    attrWith type attr s =
      (orElse (do return .string (← quoted)) <|
      orElse (do return .symbol (← symbol)) <|
      orElse (do return .list (← listed '[' ']' attr)) <|
      orElse (do return .float (← float)) <|
      orElse (do return .int (← integer)) <|
      (do return .type (← type))) s := by
  have hword (w : String) (hw : w ∈ Attr.words) (a : Attr Ty) :
      (do literal w; return a : Reader (Attr Ty)) s = .fail s :=
    bind_fail (literal_fail (h w hw))
  unfold attrWith
  rw [orElse_fail (hword "true" (by simp [Attr.words]) _),
    orElse_fail (hword "false" (by simp [Attr.words]) _),
    orElse_fail (hword "unit" (by simp [Attr.words]) _)]

/-- Where neither a word nor one of the other marks stands, a number or a type is tried. -/
theorem attrWith_of_head {c : Char} (hc : c ∉ ['"', '@', '['])
    (hw : ∀ w ∈ Attr.words, ¬ w.toList <+: c :: s) :
    attrWith type attr (c :: s) =
      (orElse (do return .float (← float)) <|
      orElse (do return .int (← integer)) <|
      (do return .type (← type))) (c :: s) := by
  simp only [List.mem_cons, List.not_mem_nil, or_false, not_or] at hc
  obtain ⟨hq, ha, hb⟩ := hc
  rw [attrWith_of_no_word hw,
    orElse_fail (bind_fail (quoted_fail (by simpa using hq))),
    orElse_fail (bind_fail (symbol_fail (by simpa using ha))),
    orElse_fail (bind_fail (listed_fail (by simpa using hb)))]

theorem attrWith_of_isNameStart {c : Char} (hc : Text.isNameStart c)
    (hw : ∀ w ∈ Attr.words, ¬ w.toList <+: c :: s) :
    attrWith type attr (c :: s) = (do return .type (← type) : Reader (Attr Ty)) (c :: s) := by
  have hmarks : c ∉ ['"', '@', '['] := by
    rintro h
    simp only [List.mem_cons, List.not_mem_nil, or_false] at h
    rcases h with rfl | rfl | rfl <;> revert hc <;> decide
  have hsign : c ≠ '-' := by
    rintro rfl
    revert hc
    decide
  have hdigit : c.isDigit = false := Text.not_isDigit_of_isNameStart hc
  have hopt : optional (char '-') (c :: s) = .ok none (c :: s) :=
    optional_fail (char_fail (by simpa using hsign))
  have hfloat : float (c :: s) = .fail (c :: s) := by
    unfold float
    rw [bind_ok hopt, bind_fail (run1_fail (by simpa using hdigit))]
  have hint : integer (c :: s) = .fail (c :: s) := by
    unfold integer natural
    rw [bind_ok hopt, bind_fail (bind_fail (one_fail (by simpa using hdigit)))]
  rw [attrWith_of_head hmarks hw, orElse_fail (bind_fail hfloat), orElse_fail (bind_fail hint)]

/-- Where a number stands, the readers before that of floats fail. -/
theorem attrWith_of_number {c : Char} (hc : c = '-' ∨ c.isDigit) (s : List Char) :
    attrWith type attr (c :: s) =
      (orElse (do return .float (← float)) <|
      orElse (do return .int (← integer)) <|
      (do return .type (← type))) (c :: s) := by
  have hmarks : c ∉ ['"', '@', '['] ∧ c ∉ ['t', 'f', 'u'] := by
    rcases hc with rfl | hc
    · decide
    · constructor
      all_goals
        intro h
        simp only [List.mem_cons, List.not_mem_nil, or_false] at h
        rcases h with rfl | rfl | rfl <;> revert hc <;> decide
  exact attrWith_of_head hmarks.1 (no_word_of_head hmarks.2 s)

/-- Where an integer stands that 64 bits cannot hold, only a type is left to try. -/
theorem attrWith_of_spells {text : String} {n : Int} (h : Text.Spells text n) (hr : AttrEnd r) :
    attrWith type attr (text.toList ++ r) =
      if -2 ^ 63 ≤ n ∧ n < 2 ^ 64 then .ok (.int (UInt64.ofInt n)) r
      else (do return .type (← type) : Reader (Attr Ty)) (text.toList ++ r) := by
  have hstop : Stops Char.isDigit r := hr.typeEnd.word.mono fun _ => isWordChar_of_isDigit
  have hfloat := float_fail_of_spells h hstop hr.noPoint
  have hint := integer_of_spells h hstop
  obtain ⟨c, cs, hcs, hc⟩ := head_of_spells h
  rw [hcs, List.cons_append] at hfloat hint ⊢
  rw [attrWith_of_number hc, orElse_fail (bind_fail hfloat)]
  split
  · rename_i hn
    rw [if_pos hn] at hint
    exact orElse_ok (return_ok hint)
  · rename_i hn
    rw [if_neg hn] at hint
    exact orElse_fail (bind_fail hint)

theorem attrWith_int (bits : UInt64) (hr : AttrEnd r) :
    attrWith type attr ((Attr.int bits).text.toList ++ r) = .ok (.int bits) r := by
  have hlt := bits.toNat_lt
  rw [Attr.text, attrWith_of_spells (.plain bits.toNat) hr, if_pos (by omega), ofInt_toNat]

theorem attrWith_float {bits : UInt64} (h : (Decimal.Binary64.ofBits bits).isFinite)
    (hr : AttrEnd r) :
    attrWith type attr ((Attr.float bits).text.toList ++ r) = .ok (.float bits) r := by
  have hfloat := float_eq h hr.typeEnd.word
  obtain ⟨c, cs, hcs, hc⟩ := head_floatText h
  rw [Attr.text]
  rw [hcs, List.cons_append] at hfloat ⊢
  rw [attrWith_of_number hc, orElse_ok (return_ok hfloat)]

theorem attrWith_bool (b : Bool) (r : List Char) :
    attrWith type attr ((Attr.bool b).text.toList ++ r) = .ok (.bool b) r := by
  cases b with
  | true => rfl
  | false => rfl

theorem attrWith_unit (r : List Char) :
    attrWith type attr (Attr.unit.text.toList ++ r) = .ok .unit r := rfl

theorem attrWith_string (x : String) (r : List Char) :
    attrWith type attr ((Attr.string x).text.toList ++ r) = .ok (.string x) r := by
  have hquoted := quoted_eq x r
  rw [Attr.text]
  rw [Text.toList_quote, List.cons_append] at hquoted ⊢
  rw [attrWith_of_no_word (no_word_of_head (by decide) _), orElse_ok (return_ok hquoted)]

theorem attrWith_symbol (x : String) (hr : AttrEnd r) :
    attrWith type attr ((Attr.symbol x).text.toList ++ r) = .ok (.symbol x) r := by
  have hsymbol := symbol_eq x hr.typeEnd.word
  obtain ⟨cs, hcs⟩ := Text.head_symbol x
  rw [Attr.text]
  rw [hcs, List.cons_append] at hsymbol ⊢
  rw [attrWith_of_no_word (no_word_of_head (by decide) _),
    orElse_fail (bind_fail (quoted_fail (by simp))), orElse_ok (return_ok hsymbol)]

theorem attrWith_list {items : List (Attr Ty)}
    (hitems : ∀ a ∈ items, Inked a.text.toList ∧
      ∀ r, AttrEnd r → attr (a.text.toList ++ r) = .ok a r)
    (hclose : ∀ s, ∃ t, attr (']' :: s) = .fail t) (r : List Char) :
    attrWith type attr ((Attr.list items).text.toList ++ r) = .ok (.list items) r := by
  obtain ⟨t, ht⟩ := hclose r
  have hlist : listed '[' ']' attr ('[' :: ((Text.joinWith ", " (items.map Attr.text)).toList ++
      ']' :: r)) = .ok items r :=
    listed_eq (by decide) (by decide) hitems (fun s => ⟨',', s, rfl, by simp⟩)
      ⟨']', r, rfl, by simp⟩ ht
  have htext : (Attr.list items).text.toList ++ r =
      '[' :: ((Text.joinWith ", " (items.map Attr.text)).toList ++ ']' :: r) := by
    simp [Attr.text, Attr.texts_eq_map]
  rw [htext, attrWith_of_no_word (no_word_of_head (by decide) _),
    orElse_fail (bind_fail (quoted_fail (by simp))), orElse_fail (bind_fail (symbol_fail (by simp))),
    orElse_ok (return_ok hlist)]

/-- No word of an attribute leads the text of a readable type: a word longer than the type would hold
the point in its name. -/
theorem no_word_append {t : Ty} (h : (Attr.type t).isReadable) (r : List Char) :
    ∀ w ∈ Attr.words, ¬ w.toList <+: t.text.toList ++ r := by
  intro w hw hlead
  have hno : ¬ w.toList <+: t.text.toList := by
    rw [Attr.isReadable, Bool.and_eq_true, List.all_eq_true] at h
    simpa [← List.isPrefixOf_iff_prefix] using h.2 w hw
  have hpoint : '.' ∈ t.text.toList := by
    obtain ⟨d, n, ps, as⟩ := t
    simp [Ty.toList_text]
  have hplain : ∀ w ∈ Attr.words, '.' ∉ w.toList := by decide
  rcases List.prefix_or_prefix_of_prefix hlead (List.prefix_append _ _) with h | h
  · exact hno h
  · exact hplain w hw (h.subset hpoint)

theorem attrWith_type {t : Ty} (hreadable : (Attr.type t).isReadable)
    (htype : ∀ r, TypeEnd r → type (t.text.toList ++ r) = .ok t r) (hr : AttrEnd r) :
    attrWith type attr ((Attr.type t).text.toList ++ r) = .ok (.type t) r := by
  have hread := htype r hr.typeEnd
  have hwords := no_word_append hreadable r
  obtain ⟨c, cs, hcs, hc⟩ := t.head_text (Attr.isReadable_type hreadable)
  rw [Attr.text]
  rw [hcs, List.cons_append] at hread hwords ⊢
  rw [attrWith_of_isNameStart hc hwords, return_ok hread]

end Attributes

theorem attrWith_eq {a : Attr Ty} (h : a.isReadable)
    (htype : ∀ t, a = .type t → ∀ r, TypeEnd r → type (t.text.toList ++ r) = .ok t r)
    (hlist : ∀ items, a = .list items → ∀ b ∈ items, Inked b.text.toList ∧
      ∀ r, AttrEnd r → attr (b.text.toList ++ r) = .ok b r)
    (hclose : ∀ s, ∃ t, attr (']' :: s) = .fail t) (hr : AttrEnd r) :
    attrWith type attr (a.text.toList ++ r) = .ok a r := by
  cases a with
  | unit => exact attrWith_unit r
  | bool b => exact attrWith_bool b r
  | int bits => exact attrWith_int bits hr
  | float bits => exact attrWith_float h hr
  | string x => exact attrWith_string x r
  | symbol x => exact attrWith_symbol x hr
  | type t => exact attrWith_type h (htype t rfl) hr
  | list items => exact attrWith_list (hlist items rfl) hclose r

theorem typeWithin_fail (bound s : List Char) : ∃ t, typeWithin bound (')' :: s) = .fail t := by
  cases bound with
  | nil => exact ⟨_, rfl⟩
  | cons b bound =>
    refine ⟨')' :: s, ?_⟩
    unfold typeWithin typeWith
    rw [bind_fail (qualifiedName_fail (by simp [Text.isNameStart]))]

theorem attrWithin_fail (bound s : List Char) : ∃ t, attrWithin bound (']' :: s) = .fail t := by
  cases bound with
  | nil => exact ⟨_, rfl⟩
  | cons b bound => exact ⟨']' :: s, rfl⟩

theorem inked_type {t : Ty} (h : t.isReadable) : Inked t.text.toList := by
  obtain ⟨c, cs, hcs, hc⟩ := t.head_text h
  exact ⟨c, cs, hcs, Text.not_isBlank_of_isWordChar (Text.isWordChar_of_isNameStart hc)⟩

/-- An attribute begins with a character of a word or with the mark of its kind. -/
theorem head_attr {a : Attr Ty}
    (hfloat : ∀ bits, a = .float bits → (Decimal.Binary64.ofBits bits).isFinite)
    (htype : ∀ t, a = .type t → ∃ c cs, t.text.toList = c :: cs ∧ Text.isWordChar c) :
    ∃ c cs, a.text.toList = c :: cs ∧ (Text.isWordChar c ∨ c ∈ ['-', '"', '@', '[']) := by
  cases a with
  | unit => exact ⟨'u', _, rfl, .inl (by decide)⟩
  | bool b =>
    cases b with
    | true => exact ⟨'t', _, rfl, .inl (by decide)⟩
    | false => exact ⟨'f', _, rfl, .inl (by decide)⟩
  | int bits =>
    obtain ⟨c, cs, hcs⟩ := List.exists_cons_of_ne_nil (isDigits_repr bits.toNat).1
    have hc : c.isDigit := (isDigits_repr bits.toNat).2 c (by simp [hcs])
    exact ⟨c, cs, by rw [Attr.text, hcs], .inl (isWordChar_of_isDigit hc)⟩
  | float bits =>
    obtain ⟨c, cs, hcs, rfl | hc⟩ := head_floatText (hfloat bits rfl)
    · exact ⟨'-', cs, by rw [Attr.text, hcs], .inr (by decide)⟩
    · exact ⟨c, cs, by rw [Attr.text, hcs], .inl (isWordChar_of_isDigit hc)⟩
  | string x => exact ⟨'"', _, by rw [Attr.text, Text.toList_quote], .inr (by decide)⟩
  | symbol x =>
    obtain ⟨cs, hcs⟩ := Text.head_symbol x
    exact ⟨'@', cs, by rw [Attr.text, hcs], .inr (by decide)⟩
  | type t =>
    obtain ⟨c, cs, hcs, hc⟩ := htype t rfl
    exact ⟨c, cs, by rw [Attr.text, hcs], .inl hc⟩
  | list items =>
    exact ⟨'[', (Text.joinWith ", " (Attr.texts items)).toList ++ [']'], by simp [Attr.text],
      .inr (by decide)⟩

theorem inked_attr {a : Attr Ty} (h : a.isReadable) : Inked a.text.toList := by
  have hmarks : ∀ c ∈ ['-', '"', '@', '['], isBlank c = false := by simp [isBlank]
  obtain ⟨c, cs, hcs, hc⟩ : ∃ c cs, a.text.toList = c :: cs ∧
      (Text.isWordChar c ∨ c ∈ ['-', '"', '@', '[']) := by
    apply head_attr
    · rintro bits rfl
      exact h
    · rintro t rfl
      obtain ⟨c, cs, hcs, hc⟩ := t.head_text (Attr.isReadable_type h)
      exact ⟨c, cs, hcs, Text.isWordChar_of_isNameStart hc⟩
  exact ⟨c, cs, hcs, hc.elim Text.not_isBlank_of_isWordChar (hmarks c)⟩

theorem within_eq (bound : List Char) :
    (∀ t : Ty, t.isReadable → t.text.toList.length ≤ bound.length → ∀ r, TypeEnd r →
      typeWithin bound (t.text.toList ++ r) = .ok t r) ∧
    (∀ a : Attr Ty, a.isReadable → a.text.toList.length ≤ bound.length → ∀ r, AttrEnd r →
      attrWithin bound (a.text.toList ++ r) = .ok a r) := by
  induction bound with
  | nil =>
    refine ⟨fun t ht hlen => ?_, fun a ha hlen => ?_⟩
    · obtain ⟨c, cs, hcs, -⟩ := inked_type ht
      simp [hcs] at hlen
    · obtain ⟨c, cs, hcs, -⟩ := inked_attr ha
      simp [hcs] at hlen
  | cons b bound ih =>
    obtain ⟨ihtype, ihattr⟩ := ih
    have htypes (t : Ty) (ht : t.isReadable) (hlen : t.text.toList.length ≤ (b :: bound).length)
        (r : List Char) (hr : TypeEnd r) : typeWithin (b :: bound) (t.text.toList ++ r) = .ok t r := by
      obtain ⟨d, n, ps, as⟩ := t
      obtain ⟨hd, hn, hps, has⟩ := Ty.isReadable_iff.mp ht
      rw [List.length_cons] at hlen
      refine typeWith_eq hd hn (fun p hp => ⟨inked_type (hps p hp), ?_⟩)
        (fun e he => ⟨(has e he).1, inked_attr (has e he).2, ?_⟩) (typeWithin_fail bound) hr
      · have hlt : p.text.toList.length < (Ty.mk d n ps as).text.toList.length := length_param_lt hp
        exact ihtype p (hps p hp) (by omega)
      · have hlt : e.2.text.toList.length < (Ty.mk d n ps as).text.toList.length :=
          length_entry_lt he
        exact ihattr e.2 (has e he).2 (by omega)
    refine ⟨htypes, fun a ha hlen r hr => attrWith_eq ha ?_ ?_ (attrWithin_fail bound) hr⟩
    · rintro t rfl
      exact htypes t (Attr.isReadable_type ha) hlen
    · rintro items rfl a hitem
      have ha' : a.isReadable := Attr.areReadable_iff.mp ha a hitem
      have := length_item_lt hitem
      rw [List.length_cons] at hlen
      exact ⟨inked_attr ha', ihattr a ha' (by omega)⟩

theorem type_eq {t : Ty} (h : t.isReadable) {r : List Char} (hr : TypeEnd r) :
    Reader.type (t.text.toList ++ r) = .ok t r :=
  (within_eq (t.text.toList ++ r)).1 t h (by simp) r hr

theorem attr_eq {a : Attr Ty} (h : a.isReadable) {r : List Char} (hr : AttrEnd r) :
    Reader.attr (a.text.toList ++ r) = .ok a r :=
  (within_eq (a.text.toList ++ r)).2 a h (by simp) r hr

theorem dict_eq {as : List (String × Attr Ty)} (hne : as ≠ [])
    (has : ∀ e ∈ as, Text.isName e.1 ∧ e.2.isReadable) (r : List Char) :
    (do blanks; dict) ((attrsText as).toList ++ r) = .ok as r := by
  obtain ⟨e, as, rfl⟩ := List.exists_cons_of_ne_nil hne
  exact dictWith_eq fun f hf =>
    ⟨(has f hf).1, inked_attr (has f hf).2, fun r hr => attr_eq (has f hf).2 hr⟩

end Reader

end RegionIR
