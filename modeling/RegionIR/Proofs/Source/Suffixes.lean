import RegionIR.Proofs.Source.Readers
import RegionIR.Source.Parse

/-! Where readers stop.

A reader that starts on a suffix of a text stops on a suffix of it, whether it succeeds or not. So
the place where it stops is a place in the text, and to subtract the bytes ahead from the bytes of the
text gives the bytes before: no difference of lengths is cut off at zero. -/

namespace RegionIR

namespace Reader

theorem byteCount_cons (c : Char) (s : List Char) : byteCount (c :: s) = c.utf8Size + byteCount s := by
  have hfold (n : Nat) : s.foldl (fun n c => n + c.utf8Size) n = n + byteCount s := by
    unfold byteCount
    induction s generalizing n with
    | nil => rfl
    | cons d s ih =>
      rw [List.foldl_cons, List.foldl_cons, ih, ih (0 + d.utf8Size)]
      omega
  rw [byteCount, List.foldl_cons, hfold]
  omega

theorem byteCount_append (s t : List Char) : byteCount (s ++ t) = byteCount s + byteCount t := by
  induction s with
  | nil => simp [byteCount]
  | cons c s ih =>
    rw [List.cons_append, byteCount_cons, byteCount_cons, ih]
    omega

theorem byteCount_le_of_suffix {s t : List Char} (h : s <:+ t) : byteCount s ≤ byteCount t := by
  obtain ⟨front, rfl⟩ := h
  rw [byteCount_append]
  omega

end Reader

/-- The reading stops on a suffix of the text, and what was read is as described. -/
def Reading.Within {α : Type} (text : List Char) (P : α → Prop) : Reading α → Prop
  | .ok a rest => rest <:+ text ∧ P a
  | .fail rest => rest <:+ text

namespace Reader

variable {α β : Type} {text : List Char} {P : α → Prop} {Q : β → Prop} {p : Reader α} {f : α → Reader β}

/-- From any suffix of the text the reader stops on one, and what it reads is as described. -/
def Within (text : List Char) (p : Reader α) (P : α → Prop) : Prop :=
  ∀ s, s <:+ text → (p s).Within text P

theorem Within.mono {P' : α → Prop} (h : Within text p P) (hP : ∀ a, P a → P' a) :
    Within text p P' := by
  intro s hs
  have hp := h s hs
  cases hr : p s with
  | ok a rest =>
    rw [hr] at hp
    exact ⟨hp.1, hP a hp.2⟩
  | fail rest =>
    rw [hr] at hp
    exact hp

theorem within_pure {a : α} (ha : P a) : Within text (pure a) P :=
  fun _ hs => ⟨hs, ha⟩

theorem within_fail : Within text (fail : Reader α) P :=
  fun _ hs => hs

theorem within_ahead : Within text ahead (· <:+ text) :=
  fun _ hs => ⟨hs, hs⟩

theorem Within.bind (hp : Within text p P) (hf : ∀ a, P a → Within text (f a) Q) :
    Within text (p >>= f) Q := by
  intro s hs
  have hfirst := hp s hs
  cases hr : p s with
  | ok a rest =>
    rw [hr] at hfirst
    rw [bind_ok hr]
    exact hf a hfirst.2 rest hfirst.1
  | fail rest =>
    rw [hr] at hfirst
    rw [bind_fail hr]
    exact hfirst

theorem within_one (q : Char → Bool) : Within text (one q) fun _ => True := by
  intro s hs
  cases s with
  | nil => exact hs
  | cons c s =>
    rw [one]
    split
    · exact ⟨(List.suffix_cons c s).trans hs, trivial⟩
    · exact hs

theorem within_char (c : Char) : Within text (char c) fun _ => True := by
  intro s hs
  cases s with
  | nil => exact hs
  | cons d s =>
    unfold char
    dsimp only
    split
    · exact ⟨(List.suffix_cons d s).trans hs, trivial⟩
    · exact hs

theorem within_run (q : Char → Bool) : Within text (run q) fun _ => True :=
  fun _ hs => ⟨(List.dropWhile_suffix q).trans hs, trivial⟩

theorem within_run1 (q : Char → Bool) : Within text (run1 q) fun _ => True := by
  intro s hs
  unfold run1
  split
  · exact hs
  · exact ⟨(List.dropWhile_suffix q).trans hs, trivial⟩

theorem within_literal (word : String) : Within text (literal word) fun _ => True := by
  intro s hs
  unfold literal
  split
  · exact ⟨(List.drop_suffix _ s).trans hs, trivial⟩
  · exact hs

theorem Within.optional (h : Within text p P) :
    Within text (optional p) fun o => ∀ a ∈ o, P a := by
  intro s hs
  have hp := h s hs
  cases hr : p s with
  | ok a rest =>
    rw [hr] at hp
    rw [optional_ok hr]
    exact ⟨hp.1, by simpa using hp.2⟩
  | fail rest =>
    rw [optional_fail hr]
    exact ⟨hs, by simp⟩

theorem Within.orElse {q : Reader α} (h : Within text p P) (h' : Within text q P) :
    Within text (orElse p q) P := by
  intro s hs
  have hp := h s hs
  cases hr : p s with
  | ok a rest =>
    rw [hr] at hp
    rw [orElse_ok hr]
    exact hp
  | fail rest =>
    rw [orElse_fail hr]
    exact h' s hs

theorem within_blanks : Within text blanks fun _ => True :=
  (within_run isBlank).bind fun _ _ => within_pure trivial

theorem Within.spaced (h : Within text p P) : Within text (spaced p) P :=
  within_blanks.bind fun _ _ => h.bind fun _ ha => within_blanks.bind fun _ _ => within_pure ha

theorem Within.between {opening closing : Char} (h : Within text p P) :
    Within text (between opening closing p) P :=
  (within_char opening).bind fun _ _ => within_blanks.bind fun _ _ => h.bind fun _ ha =>
  within_blanks.bind fun _ _ => (within_char closing).bind fun _ _ => within_pure ha

section Items

variable {item : Reader α} {separator : Reader β}

theorem furtherItems_within (hi : Within text item P) (hs : Within text separator Q)
    (bound : List Char) {s : List Char} (h : s <:+ text) :
    (∀ a ∈ (furtherItems item separator bound s).1, P a) ∧
      (furtherItems item separator bound s).2 <:+ text := by
  induction bound generalizing s with
  | nil => exact ⟨by simp [furtherItems], h⟩
  | cons _ bound ih =>
    have hsep := hs s h
    unfold furtherItems
    cases hr : separator s with
    | fail rest => exact ⟨by simp, h⟩
    | ok b t =>
      rw [hr] at hsep
      have hitem := hi t hsep.1
      cases ht : item t with
      | fail rest => simpa [ht] using h
      | ok a rest =>
        rw [ht] at hitem
        obtain ⟨hall, hrest⟩ := ih hitem.1
        simpa [ht] using ⟨⟨hitem.2, hall⟩, hrest⟩

theorem Within.items1 (hi : Within text item P) (hs : Within text separator Q) :
    Within text (items1 item separator) fun as => ∀ a ∈ as, P a := by
  intro s h
  have hitem := hi s h
  unfold Reader.items1
  cases hr : item s with
  | fail rest =>
    rw [hr] at hitem
    exact hitem
  | ok a rest =>
    rw [hr] at hitem
    obtain ⟨hall, hrest⟩ := furtherItems_within hi hs rest hitem.1
    exact ⟨hrest, List.forall_mem_cons.mpr ⟨hitem.2, hall⟩⟩

theorem Within.items (hi : Within text item P) (hs : Within text separator Q) :
    Within text (items item separator) fun as => ∀ a ∈ as, P a := by
  rw [items_eq_orElse]
  exact (hi.items1 hs).orElse (within_pure (by simp))

theorem Within.whileAhead (hi : Within text item P) (more : List Char → Bool) (bound : List Char) :
    Within text (whileAhead more item bound) fun as => ∀ a ∈ as, P a := by
  induction bound with
  | nil =>
    refine within_blanks.bind fun _ _ => within_ahead.bind fun s _ => ?_
    split
    · exact within_fail
    · exact within_pure (by simp)
  | cons _ bound ih =>
    refine within_blanks.bind fun _ _ => within_ahead.bind fun s _ => ?_
    split
    · exact hi.bind fun a ha => ih.bind fun as has =>
        within_pure (List.forall_mem_cons.mpr ⟨ha, has⟩)
    · exact within_pure (by simp)

theorem Within.many (hi : Within text item P) (more : List Char → Bool) :
    Within text (many more item) fun as => ∀ a ∈ as, P a :=
  fun s hs => hi.whileAhead more s s hs

theorem Within.listed {opening closing : Char} (hi : Within text item P) :
    Within text (listed opening closing item) fun as => ∀ a ∈ as, P a :=
  (hi.spaced.items (within_char ',')).between

end Items

section Words

theorem within_name : Within text name fun _ => True :=
  (within_one _).bind fun _ _ => (within_run _).bind fun _ _ => within_pure trivial

theorem within_word : Within text word fun _ => True :=
  (within_run1 _).bind fun _ _ => within_pure trivial

theorem within_valueName : Within text valueName fun _ => True :=
  (within_char '%').bind fun _ _ => within_word

theorem within_blockLabel : Within text blockLabel fun _ => True :=
  (within_char '^').bind fun _ _ => within_word

theorem within_qualifiedName : Within text qualifiedName fun _ => True :=
  within_name.bind fun _ _ => (within_char '.').bind fun _ _ => within_name.bind fun _ _ =>
  within_pure trivial

theorem within_quotedTail : Within text quotedTail fun _ => True := by
  intro s hs
  fun_induction quotedTail s with
  | case1 => exact hs
  | case2 rest => exact ⟨(List.suffix_cons _ rest).trans hs, trivial⟩
  | case3 => exact (List.nil_suffix).trans hs
  | case4 c rest cs rest' hr ih =>
    rw [hr] at ih
    exact ih ((List.suffix_cons _ _).trans ((List.suffix_cons _ _).trans hs))
  | case5 c rest rest' hr ih =>
    rw [hr] at ih
    exact ih ((List.suffix_cons _ _).trans ((List.suffix_cons _ _).trans hs))
  | case6 c rest _ _ _ cs rest' hr ih =>
    rw [hr] at ih
    exact ih ((List.suffix_cons _ _).trans hs)
  | case7 c rest _ _ _ rest' hr ih =>
    rw [hr] at ih
    exact ih ((List.suffix_cons _ _).trans hs)

theorem within_quoted : Within text quoted fun _ => True :=
  (within_char '"').bind fun _ _ => within_quotedTail.bind fun _ _ => within_pure trivial

theorem within_symbol : Within text symbol fun _ => True := by
  refine (within_char '@').bind fun _ _ => within_ahead.bind fun s _ => ?_
  split
  · exact within_quoted
  · exact within_word

theorem within_natural : Within text natural fun _ => True := by
  refine (within_one _).bind fun c _ => ?_
  split
  · exact within_pure trivial
  · exact (within_run _).bind fun _ _ => within_pure trivial

theorem within_integer : Within text integer fun _ => True := by
  refine (within_char '-').optional.bind fun sign _ => within_natural.bind fun n _ => ?_
  split
  · split
    · exact within_pure trivial
    · exact within_fail
  · split
    · exact within_pure trivial
    · exact within_fail

theorem within_exponent : Within text exponent fun _ => True :=
  (within_one _).bind fun _ _ => (within_one _).optional.bind fun _ _ =>
  (within_run1 _).bind fun _ _ => within_pure trivial

theorem within_float : Within text float fun _ => True :=
  (within_char '-').optional.bind fun _ _ => (within_run1 _).bind fun _ _ =>
  (within_char '.').bind fun _ _ => (within_run1 _).bind fun _ _ =>
  within_exponent.optional.bind fun _ _ => within_pure trivial

end Words

section Types

variable {type : Reader Ty} {attr : Reader (Attr Ty)}

theorem within_dictWith (ha : Within text attr fun _ => True) :
    Within text (dictWith attr) fun _ => True := by
  have hentry : Within text (entryWith attr) fun _ => True :=
    within_name.bind fun _ _ => within_blanks.bind fun _ _ => (within_char '=').bind fun _ _ =>
    within_blanks.bind fun _ _ => ha.bind fun _ _ => within_pure trivial
  exact (hentry.spaced.items1 (within_char ',')).between.mono fun _ _ => trivial

theorem within_typeWith (ht : Within text type fun _ => True) (ha : Within text attr fun _ => True) :
    Within text (typeWith type attr) fun _ => True := by
  refine within_qualifiedName.bind fun (dialect, name) _ => ht.listed.optional.bind fun params _ => ?_
  cases params with
  | none => exact within_pure trivial
  | some params =>
    exact (within_blanks.bind fun _ _ => within_dictWith ha).optional.bind fun _ _ =>
      within_pure trivial

theorem within_attrWith (ht : Within text type fun _ => True) (ha : Within text attr fun _ => True) :
    Within text (attrWith type attr) fun _ => True :=
  ((within_literal "true").bind fun _ _ => within_pure trivial).orElse <|
  ((within_literal "false").bind fun _ _ => within_pure trivial).orElse <|
  ((within_literal "unit").bind fun _ _ => within_pure trivial).orElse <|
  (within_quoted.bind fun _ _ => within_pure trivial).orElse <|
  (within_symbol.bind fun _ _ => within_pure trivial).orElse <|
  (ha.listed.bind fun _ _ => within_pure trivial).orElse <|
  (within_float.bind fun _ _ => within_pure trivial).orElse <|
  (within_integer.bind fun _ _ => within_pure trivial).orElse <|
  ht.bind fun _ _ => within_pure trivial

theorem within_typeWithin_attrWithin (bound : List Char) :
    Within text (typeWithin bound) (fun _ => True) ∧ Within text (attrWithin bound) fun _ => True := by
  induction bound with
  | nil => exact ⟨within_fail, within_fail⟩
  | cons _ bound ih =>
    have htype := within_typeWith ih.1 ih.2
    exact ⟨htype, within_attrWith htype ih.2⟩

theorem within_type : Within text Reader.type fun _ => True :=
  fun s hs => (within_typeWithin_attrWithin s).1 s hs

theorem within_attr : Within text Reader.attr fun _ => True :=
  fun s hs => (within_typeWithin_attrWithin s).2 s hs

theorem within_dict : Within text dict fun _ => True :=
  within_dictWith within_attr

end Types

end Reader

/-- The offset is that of a place in the text: as many bytes are ahead as the text has beyond it. -/
def IsOffset (text : List Char) (offset : Nat) : Prop :=
  ∃ rest, rest <:+ text ∧ offset + Reader.byteCount rest = Reader.byteCount text

theorem isOffset_sub {text rest : List Char} (h : rest <:+ text) :
    IsOffset text (Reader.byteCount text - Reader.byteCount rest) :=
  ⟨rest, h, Nat.sub_add_cancel (Reader.byteCount_le_of_suffix h)⟩

/-- What an operation begins with: its first result, or its name if it lists no results. -/
def SourceHead.front (h : SourceHead) : List Char :=
  match h.results with
  | [] => h.fullName.toList
  | name :: _ => '%' :: name.toList

/-- At the offset of the operation the text goes on with the operation. -/
def SourceHead.BeginsIn (text : List Char) (h : SourceHead) : Prop :=
  ∃ rest, rest <:+ text ∧ h.offset + Reader.byteCount rest = Reader.byteCount text ∧ h.front <+: rest

theorem SourceHead.BeginsIn.isOffset {text : List Char} {h : SourceHead} (hb : h.BeginsIn text) :
    IsOffset text h.offset := by
  obtain ⟨rest, hsuffix, hbytes, -⟩ := hb
  exact ⟨rest, hsuffix, hbytes⟩

mutual

/-- All operations as written are as described, at all depths. -/
inductive SourceOp.All (P : SourceHead → Prop) : SourceOp → Prop
  | mk {head : SourceHead} {regions : List SourceRegion} : P head →
      (∀ r ∈ regions, SourceRegion.All P r) → SourceOp.All P (.mk head regions)

inductive SourceRegion.All (P : SourceHead → Prop) : SourceRegion → Prop
  | mk {blocks : List SourceBlock} : (∀ b ∈ blocks, SourceBlock.All P b) →
      SourceRegion.All P (.mk blocks)

inductive SourceBlock.All (P : SourceHead → Prop) : SourceBlock → Prop
  | mk {label : String} {args : List (String × Ty)} {ops : List SourceOp} :
      (∀ o ∈ ops, SourceOp.All P o) → SourceBlock.All P (.mk label args ops)

end

namespace Reader

variable {text : List Char}

section Operations

theorem within_resultNames : Within text resultNames fun _ => True :=
  (within_valueName.spaced.items1 (within_char ',')).bind fun _ _ => (within_char '=').bind fun _ _ =>
  within_pure trivial

theorem within_operandNames : Within text operandNames fun _ => True :=
  (within_run _).bind fun _ _ =>
  (within_valueName.items1 (within_char ',').spaced).mono fun _ _ => trivial

theorem within_successorLabels : Within text successorLabels fun _ => True :=
  within_blanks.bind fun _ _ =>
  (within_blockLabel.spaced.items1 (within_char ',')).between.mono fun _ _ => trivial

theorem within_resultTypes : Within text resultTypes fun _ => True :=
  within_blanks.bind fun _ _ => (within_char ':').bind fun _ _ => within_blanks.bind fun _ _ =>
  (within_type.spaced.items1 (within_char ',')).mono fun _ _ => trivial

/-- The line of an operation after its name. -/
def headAfter (offset : Nat) (results : List String) (dialect name : String) : Reader SourceHead := do
  let symbol ← optional (do blanks; symbol)
  let operands ← optional operandNames
  let successors ← optional successorLabels
  let attrs ← optional (do blanks; dict)
  let resultTypes ← optional resultTypes
  return {
    offset, results, dialect, name, symbol
    operands := operands.getD []
    successors := successors.getD []
    attrs := attrs.getD []
    resultTypes := resultTypes.getD [] }

theorem head_eq_headAfter (total : Nat) : head total = (do
    blanks
    let offset := total - byteCount (← ahead)
    let results ← optional resultNames
    blanks
    let (dialect, name) ← qualifiedName
    headAfter offset (results.getD []) dialect name) := rfl

theorem within_headAfter (offset : Nat) (results : List String) (dialect name : String) :
    Within text (headAfter offset results dialect name) fun _ => True :=
  (within_blanks.bind fun _ _ => within_symbol).optional.bind fun _ _ =>
  within_operandNames.optional.bind fun _ _ => within_successorLabels.optional.bind fun _ _ =>
  (within_blanks.bind fun _ _ => within_dict).optional.bind fun _ _ =>
  within_resultTypes.optional.bind fun _ _ => within_pure trivial

theorem within_head (total : Nat) : Within text (head total) fun _ => True :=
  within_blanks.bind fun _ _ => within_ahead.bind fun _ _ =>
  within_resultNames.optional.bind fun _ _ => within_blanks.bind fun _ _ =>
  within_qualifiedName.bind fun (_, _) _ => within_headAfter _ _ _ _

section Front

variable {s t : List Char}

theorem name_front {a : String} (h : name s = .ok a t) : s = a.toList ++ t := by
  obtain ⟨c, u, hone, h⟩ := bind_eq_ok.mp h
  obtain ⟨cs, v, hrun, h⟩ := bind_eq_ok.mp h
  cases hrun
  cases h
  cases s with
  | nil => cases hone
  | cons d s =>
    simp only [one] at hone
    split at hone
    · cases hone
      simp
    · cases hone

theorem word_front {a : String} (h : word s = .ok a t) : a.toList <+: s := by
  obtain ⟨l, u, hrun, h⟩ := bind_eq_ok.mp h
  cases h
  unfold run1 at hrun
  split at hrun
  · cases hrun
  · rename_i c cs hcs
    cases hrun
    rw [String.toList_ofList, ← hcs]
    exact List.takeWhile_prefix _

theorem qualifiedName_front {d n : String} (h : qualifiedName s = .ok (d, n) t) :
    s = d.toList ++ '.' :: (n.toList ++ t) := by
  obtain ⟨d, u, hd, h⟩ := bind_eq_ok.mp h
  obtain ⟨_, v, hpoint, h⟩ := bind_eq_ok.mp h
  obtain ⟨n, w, hn, h⟩ := bind_eq_ok.mp h
  cases h
  rw [name_front hd, char_eq_ok.mp hpoint, name_front hn]

theorem resultNames_front {names : List String} (h : resultNames s = .ok names t) :
    ∃ name rest, names = name :: rest ∧ '%' :: name.toList <+: trimBlanks s := by
  obtain ⟨names, u, hitems, h⟩ := bind_eq_ok.mp h
  obtain ⟨_, v, -, h⟩ := bind_eq_ok.mp h
  cases h
  unfold Reader.items1 at hitems
  split at hitems
  · cases hitems
  · rename_i name rest hname
    cases hitems
    obtain ⟨_, _, hblanks, hname⟩ := bind_eq_ok.mp hname
    cases hblanks
    obtain ⟨_, _, hname, hrest⟩ := bind_eq_ok.mp hname
    obtain ⟨_, _, -, hrest⟩ := bind_eq_ok.mp hrest
    cases hrest
    obtain ⟨_, w, hpercent, hword⟩ := bind_eq_ok.mp hname
    refine ⟨name, _, rfl, ?_⟩
    have hpercent : trimBlanks s = '%' :: w := char_eq_ok.mp hpercent
    rw [hpercent]
    exact List.cons_prefix_cons.mpr ⟨rfl, word_front hword⟩

theorem head_front {total : Nat} {h : SourceHead} (hh : head total s = .ok h t) :
    h.offset = total - byteCount (trimBlanks s) ∧ h.front <+: trimBlanks s := by
  unfold head at hh
  rw [bind_ok (blanks_eq s), bind_ok (ahead_eq _)] at hh
  simp only [bind_eq_ok] at hh
  obtain ⟨results, u, hresults, _, u', hblanks, ⟨d, n⟩, v, hname, symbol, _, -, operands, _, -,
    successors, _, -, attrs, _, -, types, _, -, hh⟩ := hh
  cases hh
  cases hblanks
  refine ⟨rfl, ?_⟩
  cases hres : resultNames (trimBlanks s) with
  | ok names w =>
    rw [optional_ok hres] at hresults
    cases hresults
    obtain ⟨name, rest, rfl, hfront⟩ := resultNames_front hres
    rwa [trimBlanks_trimBlanks] at hfront
  | fail w =>
    rw [optional_fail hres] at hresults
    cases hresults
    have hname : qualifiedName (trimBlanks s) = .ok (d, n) v := by
      rw [← trimBlanks_trimBlanks]
      exact hname
    rw [qualifiedName_front hname]
    exact ⟨v, by simp [SourceHead.front, SourceHead.fullName]⟩

end Front

theorem within_head_begins : Within text (head (byteCount text)) (SourceHead.BeginsIn text) := by
  intro s hs
  have hwithin : (head (byteCount text) s).Within text fun _ => True := within_head _ s hs
  cases hr : head (byteCount text) s with
  | fail rest =>
    rw [hr] at hwithin
    exact hwithin
  | ok h rest =>
    rw [hr] at hwithin
    obtain ⟨hoffset, hfront⟩ := head_front hr
    have hsuffix : trimBlanks s <:+ text := (List.dropWhile_suffix _).trans hs
    refine ⟨hwithin.1, trimBlanks s, hsuffix, ?_, hfront⟩
    rw [hoffset, Nat.sub_add_cancel (byteCount_le_of_suffix hsuffix)]

variable {P : SourceHead → Prop} {op : Reader SourceOp}

/-- A block after its label. -/
def blockAfter (op : Reader SourceOp) (label : String) : Reader SourceBlock := do
  let args ← optional blockArgs
  blanks
  char ':'
  return .mk label (args.getD []) (← opsWith op)

theorem blockWith_eq_blockAfter (op : Reader SourceOp) : blockWith op = (do
    blanks
    blockAfter op (← blockLabel)) := rfl

theorem within_blockArgs : Within text blockArgs fun _ => True := by
  refine Within.mono (Within.listed (P := fun _ => True) ?_) fun _ _ => trivial
  exact within_valueName.bind fun _ _ => within_blanks.bind fun _ _ =>
    (within_char ':').bind fun _ _ => within_blanks.bind fun _ _ => within_type.bind fun _ _ =>
    within_pure trivial

theorem within_blockAfter (ho : Within text op (SourceOp.All P)) (label : String) :
    Within text (blockAfter op label) (SourceBlock.All P) :=
  within_blockArgs.optional.bind fun _ _ => within_blanks.bind fun _ _ =>
  (within_char ':').bind fun _ _ => (ho.many _).bind fun _ hops => within_pure (.mk hops)

theorem within_blockWith (ho : Within text op (SourceOp.All P)) :
    Within text (blockWith op) (SourceBlock.All P) :=
  within_blanks.bind fun _ _ => within_blockLabel.bind fun _ _ => within_blockAfter ho _

theorem within_blocksWith (ho : Within text op (SourceOp.All P)) :
    Within text (blocksWith op) fun bs => ∀ b ∈ bs, SourceBlock.All P b := by
  refine within_ahead.bind fun s _ => ?_
  split
  · exact (within_blockWith ho).many _
  · split
    · exact within_pure (by simp)
    · exact (ho.many _).bind fun ops hops => within_pure (by simpa using .mk hops)

theorem within_regionWith (ho : Within text op (SourceOp.All P)) :
    Within text (regionWith op) (SourceRegion.All P) :=
  (within_blocksWith ho).between.bind fun _ hbs => within_pure (.mk hbs)

theorem within_opWithin {total : Nat} (hh : Within text (head total) P) (bound : List Char) :
    Within text (opWithin total bound) (SourceOp.All P) := by
  induction bound with
  | nil => exact within_fail
  | cons _ bound ih =>
    exact hh.bind fun _ hh => ((within_regionWith ih).many _).bind fun _ hrs =>
      within_pure (.mk hh hrs)

theorem within_op {total : Nat} (hh : Within text (head total) P) :
    Within text (Reader.op total) (SourceOp.All P) :=
  fun s hs => within_opWithin hh s s hs

end Operations

/-- Wherever the bytes of what is left are subtracted from those of the text, they are no more than
these: where reading gives up, behind the operation that was read, and in front of each operation as it
is read. -/
structure Measures (text : List Char) : Prop where
  failed {rest : List Char} : op (byteCount text) text = .fail rest → byteCount rest ≤ byteCount text
  trailing {source : SourceOp} {rest : List Char} : op (byteCount text) text = .ok source rest →
    byteCount (trimBlanks rest) ≤ byteCount text
  heads {source : SourceOp} {rest : List Char} : op (byteCount text) text = .ok source rest →
    source.All fun h => ∃ s t, s <:+ text ∧ head (byteCount text) s = .ok h t ∧
      h.offset = byteCount text - byteCount (trimBlanks s) ∧
      byteCount (trimBlanks s) ≤ byteCount text

theorem within_head_measured : Within text (head (byteCount text)) fun h => ∃ s t, s <:+ text ∧
    head (byteCount text) s = .ok h t ∧ h.offset = byteCount text - byteCount (trimBlanks s) ∧
      byteCount (trimBlanks s) ≤ byteCount text := by
  intro s hs
  have hwithin : (head (byteCount text) s).Within text fun _ => True := within_head _ s hs
  cases hr : head (byteCount text) s with
  | fail rest =>
    rw [hr] at hwithin
    exact hwithin
  | ok h rest =>
    rw [hr] at hwithin
    exact ⟨hwithin.1, s, rest, hs, hr, (head_front hr).1,
      byteCount_le_of_suffix ((List.dropWhile_suffix _).trans hs)⟩

theorem measures (text : List Char) : Measures text := by
  have hop := within_op within_head_measured text List.suffix_rfl
  refine ⟨fun hr => ?_, fun hr => ?_, fun hr => ?_⟩ <;> rw [hr] at hop
  · exact byteCount_le_of_suffix hop
  · exact byteCount_le_of_suffix ((List.dropWhile_suffix _).trans hop.1)
  · exact hop.2

end Reader

theorem SourceOp.isOffset_of_parse_error {text : String} {e : ParseError}
    (h : SourceOp.parse text = .error e) : IsOffset text.toList e.offset := by
  have hop := Reader.within_op (Reader.within_head (Reader.byteCount text.toList)) text.toList
    List.suffix_rfl
  simp only [SourceOp.parse] at h
  split at h
  · rename_i rest hr
    rw [hr] at hop
    rw [← Except.error.inj h]
    exact isOffset_sub hop
  · rename_i op rest hr
    rw [hr] at hop
    split at h
    · simp at h
    · rw [← Except.error.inj h]
      exact isOffset_sub ((List.dropWhile_suffix _).trans hop.1)

theorem SourceOp.all_of_parse {P : SourceHead → Prop} {text : String} {source : SourceOp}
    (hh : Reader.Within text.toList (Reader.head (Reader.byteCount text.toList)) P)
    (h : SourceOp.parse text = .ok source) : source.All P := by
  have hop := Reader.within_op hh text.toList List.suffix_rfl
  simp only [SourceOp.parse] at h
  split at h
  · simp at h
  · rename_i op rest hr
    rw [hr] at hop
    split at h
    · rw [← Except.ok.inj h]
      exact hop.2
    · simp at h

theorem SourceOp.isOffset_of_parse {text : String} {source : SourceOp}
    (h : SourceOp.parse text = .ok source) : source.All fun h => IsOffset text.toList h.offset :=
  all_of_parse (Reader.within_head_begins.mono fun _ hb => hb.isOffset) h

end RegionIR
