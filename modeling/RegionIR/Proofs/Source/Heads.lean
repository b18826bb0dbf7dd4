import RegionIR.Proofs.Source.Types
import RegionIR.Source.Printer

/-! The line of an operation is read as it was written.

Each part of the line may be missing, and a reader that finds its part missing must not take up the
next one: every part has a mark of its own after a blank, and what follows the line has none of
these marks in the places where they count. -/

namespace RegionIR

/-- Whether the line is read back from its text. -/
def SourceHead.isReadable (h : SourceHead) : Bool :=
  h.results.all Text.isWord && Text.isName h.dialect && Text.isName h.name
    && h.operands.all Text.isWord && h.successors.all Text.isWord
    && Ty.entriesReadable h.attrs && Ty.areReadable h.resultTypes

theorem SourceHead.isReadable_iff {h : SourceHead} : h.isReadable ↔
    (∀ n ∈ h.results, Text.isWord n) ∧ Text.isName h.dialect ∧ Text.isName h.name ∧
      (∀ n ∈ h.operands, Text.isWord n) ∧ (∀ l ∈ h.successors, Text.isWord l) ∧
      (∀ e ∈ h.attrs, Text.isName e.1 ∧ e.2.isReadable) ∧ ∀ t ∈ h.resultTypes, t.isReadable := by
  simp only [SourceHead.isReadable, Bool.and_eq_true, List.all_eq_true, Ty.entriesReadable_iff,
    Ty.areReadable_iff, and_assoc]

section Texts

def resultsText (names : List String) : String :=
  if names.isEmpty then "" else Text.joinWith ", " (names.map valueText) ++ " = "

def symbolText : Option String → String
  | some s => " " ++ Text.symbol s
  | none => ""

def operandsText (names : List String) : String :=
  if names.isEmpty then "" else " " ++ Text.joinWith ", " (names.map valueText)

def successorsText (labels : List String) : String :=
  if labels.isEmpty then "" else " [" ++ Text.joinWith ", " (labels.map labelText) ++ "]"

def typesText (types : List Ty) : String :=
  if types.isEmpty then "" else " : " ++ Text.joinWith ", " (types.map Ty.text)

theorem SourceHead.toList_text (h : SourceHead) (r : List Char) : h.text.toList ++ r =
    (resultsText h.results).toList ++ (h.dialect.toList ++ '.' :: (h.name.toList ++
      ((symbolText h.symbol).toList ++ ((operandsText h.operands).toList ++
        ((successorsText h.successors).toList ++ ((attrsText h.attrs).toList ++
          ((typesText h.resultTypes).toList ++ r))))))) := by
  unfold SourceHead.text
  rw [Ty.texts_eq_map, Ty.entryTexts_eq_map]
  cases h.symbol <;>
    simp [SourceHead.fullName, resultsText, symbolText, operandsText, successorsText, attrsText,
      typesText]

end Texts

section Marks

theorem symbolText_marked (o : Option String) :
    (symbolText o).toList = [] ∨ ∃ t, (symbolText o).toList = ' ' :: '@' :: t := by
  cases o with
  | none => exact .inl rfl
  | some s =>
    obtain ⟨cs, hcs⟩ := Text.head_symbol s
    exact .inr ⟨cs, by simp [symbolText, hcs]⟩

theorem operandsText_marked (names : List String) :
    (operandsText names).toList = [] ∨ ∃ t, (operandsText names).toList = ' ' :: '%' :: t := by
  cases names with
  | nil => exact .inl rfl
  | cons n names => exact .inr ⟨_, by simp [operandsText, toList_joinWith, valueText]; rfl⟩

theorem successorsText_marked (labels : List String) :
    (successorsText labels).toList = [] ∨ ∃ t, (successorsText labels).toList = ' ' :: '[' :: t := by
  cases labels with
  | nil => exact .inl rfl
  | cons l labels => exact .inr ⟨_, by simp [successorsText]; rfl⟩

theorem attrsText_marked (as : List (String × Attr Ty)) :
    (attrsText as).toList = [] ∨ ∃ t, (attrsText as).toList = ' ' :: '\x7b' :: t := by
  cases as with
  | nil => exact .inl rfl
  | cons e as => exact .inr ⟨_, toList_dictText _⟩

theorem typesText_marked (types : List Ty) :
    (typesText types).toList = [] ∨ ∃ t, (typesText types).toList = ' ' :: ':' :: t := by
  cases types with
  | nil => exact .inl rfl
  | cons t types => exact .inr ⟨_, by simp [typesText]; rfl⟩

end Marks

/-- What follows the line of an operation does not belong to it. -/
structure LineEnd (r : List Char) : Prop where
  type : TypeEnd r
  operand : ∀ c ∈ (r.dropWhile fun c => c == ' ' || c == '\t').head?, c ≠ '%'
  marks : ∀ c ∈ (trimBlanks r).head?, c ∉ ['@', ',', '[', ':']

/-- The rest of a line: a part that begins with one of the marks, or nothing more of it. -/
def Follows (r : List Char) (marks : List Char) (s : List Char) : Prop :=
  s = r ∨ ∃ m ∈ marks, ∃ t, s = ' ' :: m :: t ∧ Reader.isBlank m = false

theorem Follows.append {r : List Char} {marks : List Char} {s : List Char} {m : Char}
    {text : List Char} (h : Follows r marks s) (hm : Reader.isBlank m = false)
    (ht : text = [] ∨ ∃ t, text = ' ' :: m :: t) : Follows r (m :: marks) (text ++ s) := by
  rcases ht with rfl | ⟨t, rfl⟩
  · rcases h with h | ⟨m', hm', h⟩
    · exact .inl h
    · exact .inr ⟨m', List.mem_cons_of_mem _ hm', h⟩
  · exact .inr ⟨m, List.mem_cons_self, t ++ s, rfl, hm⟩

theorem Follows.of_end (r : List Char) : Follows r [] r := .inl rfl

namespace Follows

variable {r : List Char} {marks : List Char} {s : List Char}

theorem word (h : Follows r marks s) (hr : LineEnd r) : Stops Text.isWordChar s := by
  rcases h with rfl | ⟨m, -, t, rfl, -⟩
  · exact hr.type.word
  · simp [Text.isWordChar]

theorem mark (h : Follows r marks s) (hr : LineEnd r) {c : Char}
    (hc : c ∈ ['@', ',', '[', ':']) (hm : c ∉ marks) : ∀ d ∈ (trimBlanks s).head?, d ≠ c := by
  rintro d hd rfl
  rcases h with rfl | ⟨m, hmem, t, rfl, hblank⟩
  · exact hr.marks d hd hc
  · rw [trimBlanks_space, trimBlanks_cons hblank] at hd
    obtain rfl : m = d := by simpa using hd
    exact hm hmem

theorem operand (h : Follows r marks s) (hr : LineEnd r) (hm : '%' ∉ marks) :
    ∀ c ∈ (s.dropWhile fun c => c == ' ' || c == '\t').head?, c ≠ '%' := by
  rcases h with rfl | ⟨m, hmem, t, rfl, hblank⟩
  · exact hr.operand
  · have htab : (m == ' ' || m == '\t') = false := by
      by_contra hc
      simp only [Bool.or_eq_true, beq_iff_eq, Bool.not_eq_false] at hc
      rcases hc with rfl | rfl <;> revert hblank <;> decide
    rintro c hc rfl
    obtain rfl : m = '%' := by simpa [htab] using hc
    exact hm hmem

theorem dict (h : Follows r marks s) (hr : LineEnd r) (hm : '\x7b' ∉ marks) : NoDict s := by
  rcases h with rfl | ⟨m, hmem, t, rfl, hblank⟩
  · exact hr.type.dict
  · refine noDict_of_head ?_
    rw [trimBlanks_space, trimBlanks_cons hblank]
    rintro c hc rfl
    obtain rfl : m = '\x7b' := by simpa using hc
    exact hm hmem

end Follows

namespace Reader

/-- The optional part of a line: what it lists is read from its text, and a missing part lists
nothing. -/
def ReadsPart {α : Type} (p : Reader (List α)) (l : List α) (s t : List Char) : Prop :=
  ∃ o, optional p s = .ok o t ∧ o.getD [] = l

section Parts

variable {r s : List Char}

theorem valueName_text {name : String} (h : Text.isWord name) {r : List Char}
    (hr : Stops Text.isWordChar r) : valueName ((valueText name).toList ++ r) = .ok name r := by
  have htext : (valueText name).toList ++ r = '%' :: (name.toList ++ r) := by simp [valueText]
  rw [htext, valueName_eq h hr]

theorem blockLabel_text {label : String} (h : Text.isWord label) {r : List Char}
    (hr : Stops Text.isWordChar r) : blockLabel ((labelText label).toList ++ r) = .ok label r := by
  have htext : (labelText label).toList ++ r = '^' :: (label.toList ++ r) := by simp [labelText]
  rw [htext, blockLabel_eq h hr]

theorem inked_valueText (name : String) : Inked (valueText name).toList :=
  ⟨'%', name.toList, by simp [valueText], by decide⟩

theorem inked_labelText (label : String) : Inked (labelText label).toList :=
  ⟨'^', label.toList, by simp [labelText], by decide⟩

/-- The results are read with the equals sign; a blank is left in front of the name. -/
theorem resultNames_eq {names : List String} (h : ∀ n ∈ names, Text.isWord n)
    (hs : ∀ c ∈ s.head?, c ≠ '%') (hstop : Stops isBlank s) :
    ∃ t, ReadsPart resultNames names ((resultsText names).toList ++ s) t ∧ trimBlanks t = s := by
  have htrim : trimBlanks s = s := trimBlanks_of_stops hstop
  cases names with
  | nil =>
    refine ⟨s, ⟨none, optional_fail (t := s) (bind_fail ?_), rfl⟩, htrim⟩
    have hfail : spaced valueName s = .fail s := spaced_fail (by rw [htrim, valueName_fail hs])
    exact items1_fail hfail
  | cons n names =>
    refine ⟨' ' :: s, ⟨some (n :: names), optional_ok ?_, rfl⟩, by simpa using htrim⟩
    have hitems := items1_spaced (E := Stops Text.isWordChar) (g := id)
      (r := ' ' :: '=' :: ' ' :: s) (fun d _ => inked_valueText d)
      (fun d hd _ hr => valueName_text (h d hd) hr) (by simp [Text.isWordChar])
      (by simp [Text.isWordChar]) (by simp [trimBlanks_cons (show isBlank '=' = false by decide)])
    rw [trimBlanks_space, trimBlanks_cons (by decide), List.map_id] at hitems
    have htext : (resultsText (n :: names)).toList ++ s =
        (Text.joinWith ", " ((n :: names).map valueText)).toList ++ ' ' :: '=' :: ' ' :: s := by
      simp [resultsText]
    unfold resultNames
    rw [htext, bind_ok hitems, bind_ok (char_cons '=' _)]
    rfl

theorem symbol_part (o : Option String) (hs : Stops Text.isWordChar s)
    (hmark : ∀ c ∈ (trimBlanks s).head?, c ≠ '@') :
    optional (do blanks; symbol) ((symbolText o).toList ++ s) = .ok o s := by
  cases o with
  | none =>
    refine optional_fail (t := trimBlanks s) ?_
    change (blanks >>= fun _ => symbol) s = _
    rw [bind_ok (blanks_eq s), symbol_fail hmark]
  | some x =>
    obtain ⟨cs, hcs⟩ := Text.head_symbol x
    have hread := symbol_eq x hs
    have htext : (symbolText (some x)).toList ++ s = ' ' :: ((Text.symbol x).toList ++ s) := by
      simp [symbolText]
    refine optional_ok ?_
    rw [htext, bind_ok (blanks_eq _), trimBlanks_space]
    rw [hcs, List.cons_append] at hread ⊢
    rw [trimBlanks_cons (by decide), hread]

theorem operandNames_eq {names : List String} (h : ∀ n ∈ names, Text.isWord n)
    (hs : Stops Text.isWordChar s) (hcomma : ∀ c ∈ (trimBlanks s).head?, c ≠ ',')
    (hno : ∀ c ∈ (s.dropWhile fun c => c == ' ' || c == '\t').head?, c ≠ '%') :
    ReadsPart operandNames names ((operandsText names).toList ++ s) s := by
  cases names with
  | nil =>
    refine ⟨none, optional_fail (t := s.dropWhile fun c => c == ' ' || c == '\t') ?_, rfl⟩
    change operandNames s = _
    unfold operandNames
    rw [bind_ok (by rfl), items1_fail (valueName_fail hno)]
  | cons n names =>
    refine ⟨some (n :: names), optional_ok ?_, rfl⟩
    have hitem : ∀ d ∈ n :: names, ReadsItem valueName (spaced (char ','))
        (String.toList ∘ valueText) id id (Stops Text.isWordChar) d := fun d hd =>
      { first := valueName_text (h d hd)
        further := fun {r} hr => ⟨(), (valueText d).toList ++ r,
          by
            have htrim := trimBlanks_of_stops ((inked_valueText d).stops r)
            rw [spaced_ok (a := ()) (t := ' ' :: ((valueText d).toList ++ r)) (by rfl),
              trimBlanks_space, htrim],
          valueName_text (h d hd) hr⟩ }
    have hitems := items1_eq (r := s) (hitem n List.mem_cons_self)
      (fun d hd => hitem d (List.mem_cons_of_mem _ hd)) (fun t => ⟨by simp [Text.isWordChar], rfl⟩)
      hs (spaced_fail (char_fail hcomma))
    rw [← furtherTexts_map, ← List.append_assoc] at hitems
    have htext : (operandsText (n :: names)).toList ++ s =
        [' '] ++ ((valueText n).toList ++ furtherTexts String.toList (names.map valueText) ++ s) := by
      rw [← toList_joinWith]
      simp [operandsText]
    have hrun := run_append (q := fun c => c == ' ' || c == '\t') (l := [' '])
      (r := (valueText n).toList ++ furtherTexts String.toList (names.map valueText) ++ s)
      (by simp) (by simp [valueText])
    unfold operandNames
    rw [htext, bind_ok hrun]
    simpa using hitems

theorem successorLabels_eq {labels : List String} (h : ∀ l ∈ labels, Text.isWord l)
    (hmark : ∀ c ∈ (trimBlanks s).head?, c ≠ '[') :
    ReadsPart successorLabels labels ((successorsText labels).toList ++ s) s := by
  cases labels with
  | nil =>
    refine ⟨none, optional_fail (t := trimBlanks s) ?_, rfl⟩
    change successorLabels s = _
    unfold successorLabels
    rw [bind_ok (blanks_eq s), between_fail_opening hmark]
  | cons l labels =>
    refine ⟨some (l :: labels), optional_ok ?_, rfl⟩
    have hclosing : ']' ≠ ',' := by decide
    have hitems := items1_joinWith (E := Stops Text.isWordChar) (g := id) (r := s) hclosing
      (by decide) (fun d _ => inked_labelText d)
      (fun d hd _ hr => blockLabel_text (h d hd) hr) (by simp [Text.isWordChar])
      (by simp [Text.isWordChar])
    have htext : (successorsText (l :: labels)).toList ++ s =
        ' ' :: '[' :: ((Text.joinWith ", " ((l :: labels).map labelText)).toList ++ ']' :: s) := by
      simp [successorsText]
    rw [List.map_id] at hitems
    unfold successorLabels
    rw [htext, bind_ok (blanks_eq _), trimBlanks_space, trimBlanks_cons (by decide)]
    exact between_ok hitems (trimBlanks_cons (by decide) s)

theorem attrs_part {as : List (String × Attr Ty)}
    (h : ∀ e ∈ as, Text.isName e.1 ∧ e.2.isReadable) (hs : NoDict s) :
    ReadsPart (do blanks; dict) as ((attrsText as).toList ++ s) s := by
  cases as with
  | nil =>
    obtain ⟨t, ht⟩ := hs Reader.attr
    exact ⟨none, optional_fail ht, rfl⟩
  | cons e as => exact ⟨some (e :: as), optional_ok (dict_eq (by simp) h s), rfl⟩

theorem resultTypes_eq {types : List Ty} (h : ∀ t ∈ types, t.isReadable) (hs : TypeEnd s)
    (hcomma : ∀ c ∈ (trimBlanks s).head?, c ≠ ',') (hmark : ∀ c ∈ (trimBlanks s).head?, c ≠ ':') :
    ∃ t, ReadsPart resultTypes types ((typesText types).toList ++ s) t ∧
      trimBlanks t = trimBlanks s := by
  cases types with
  | nil =>
    refine ⟨s, ⟨none, optional_fail (t := trimBlanks s) ?_, rfl⟩, rfl⟩
    change resultTypes s = _
    unfold resultTypes
    rw [bind_ok (blanks_eq s), bind_fail (char_fail hmark)]
  | cons t types =>
    refine ⟨trimBlanks s, ⟨some (t :: types), optional_ok ?_, rfl⟩, trimBlanks_trimBlanks s⟩
    have hstart (d : Ty) (hd : d ∈ t :: types) : Inked d.text.toList := inked_type (h d hd)
    have hitems := items1_spaced (E := TypeEnd) (g := id) (r := s) hstart
      (fun d hd _ hr => type_eq (h d hd) hr) (fun s => typeEnd_cons (by simp) s) hs hcomma
    have htext : (typesText (t :: types)).toList ++ s =
        ' ' :: ':' :: ' ' :: ((Text.joinWith ", " ((t :: types).map Ty.text)).toList ++ s) := by
      simp [typesText]
    have hstops : Stops isBlank ((Text.joinWith ", " ((t :: types).map Ty.text)).toList ++ s) := by
      rw [List.map_cons, toList_joinWith, List.append_assoc]
      exact (inked_type (h t List.mem_cons_self)).stops _
    rw [List.map_id] at hitems
    unfold resultTypes
    rw [htext, bind_ok (blanks_eq _), trimBlanks_space, trimBlanks_cons (by decide),
      bind_ok (char_cons ':' _), bind_ok (blanks_eq _), trimBlanks_space,
      trimBlanks_of_stops hstops, hitems]

end Parts

theorem lineStart_name {d : String} (h : Text.isName d) (s : List Char) :
    (∀ c ∈ (d.toList ++ '.' :: s).head?, c ≠ '%') ∧ Stops isBlank (d.toList ++ '.' :: s) := by
  obtain ⟨c, cs, hs, hc, -⟩ := Text.isName_iff.mp h
  rw [hs]
  refine ⟨?_, by simpa using Text.not_isBlank_of_isWordChar (Text.isWordChar_of_isNameStart hc)⟩
  rintro d hd rfl
  obtain rfl : c = '%' := by simpa using hd
  revert hc
  decide

/-- A line is read part by part. Each part ends where the mark of a later one begins. -/
theorem head_eq {h : SourceHead} (hh : h.isReadable) {r : List Char} (hr : LineEnd r) (total : Nat) :
    ∃ n t, head total (h.text.toList ++ r) = .ok { h with offset := n } t ∧
      trimBlanks t = trimBlanks r := by
  obtain ⟨hresults, hdialect, hname, hoperands, hsuccessors, hattrs, htypes⟩ :=
    SourceHead.isReadable_iff.mp hh
  have htypes' := (Follows.of_end r).append (m := ':') (by decide) (typesText_marked h.resultTypes)
  have hattrs' := htypes'.append (m := '\x7b') (by decide) (attrsText_marked h.attrs)
  have hsuccessors' := hattrs'.append (m := '[') (by decide) (successorsText_marked h.successors)
  have hoperands' := hsuccessors'.append (m := '%') (by decide) (operandsText_marked h.operands)
  have hsymbol' := hoperands'.append (m := '@') (by decide) (symbolText_marked h.symbol)
  obtain ⟨t, ⟨types, hreadTypes, htypesD⟩, ht⟩ := resultTypes_eq htypes hr.type
    (fun c hc hcc => hr.marks c hc (by simp [hcc])) (fun c hc hcc => hr.marks c hc (by simp [hcc]))
  obtain ⟨attrs, hreadAttrs, hattrsD⟩ := attrs_part hattrs (htypes'.dict hr (by decide))
  obtain ⟨successors, hreadSuccessors, hsuccessorsD⟩ :=
    successorLabels_eq hsuccessors (hattrs'.mark hr (by simp) (by decide))
  obtain ⟨operands, hreadOperands, hoperandsD⟩ := operandNames_eq hoperands (hsuccessors'.word hr)
    (hsuccessors'.mark hr (by simp) (by decide)) (hsuccessors'.operand hr (by decide))
  have hreadSymbol := symbol_part h.symbol (hoperands'.word hr)
    (hoperands'.mark hr (by simp) (by decide))
  have hreadName := qualifiedName_eq hdialect hname (hsymbol'.word hr)
  have hstart := lineStart_name hdialect
    (h.name.toList ++ ((symbolText h.symbol).toList ++ ((operandsText h.operands).toList ++
      ((successorsText h.successors).toList ++ ((attrsText h.attrs).toList ++
        ((typesText h.resultTypes).toList ++ r))))))
  obtain ⟨t', ⟨results, hreadResults, hresultsD⟩, ht'⟩ :=
    resultNames_eq hresults hstart.1 hstart.2
  have hstops : Stops isBlank (h.text.toList ++ r) := by
    rw [SourceHead.toList_text]
    cases h.results with
    | nil => exact hstart.2
    | cons n names => simp [resultsText, toList_joinWith, valueText, isBlank]
  refine ⟨total - byteCount (h.text.toList ++ r), t, ?_, ht⟩
  unfold head
  rw [bind_ok (blanks_eq _), trimBlanks_of_stops hstops, bind_ok (ahead_eq _),
    SourceHead.toList_text, bind_ok hreadResults, bind_ok (blanks_eq _), ht', bind_ok hreadName]
  dsimp only
  rw [bind_ok hreadSymbol, bind_ok hreadOperands, bind_ok hreadSuccessors, bind_ok hreadAttrs,
    bind_ok hreadTypes, hresultsD, hoperandsD, hsuccessorsD, hattrsD, htypesD]
  rfl

end Reader

end RegionIR
