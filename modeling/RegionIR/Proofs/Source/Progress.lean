import RegionIR.Proofs.Source.Blame

/-! Reading makes progress, and bounds do not matter.

Whatever reads an operation, a block or a region takes a character at least, so that every turn of a
loop and every level of nesting goes on with a shorter text. The bounds that the readers carry are as
long as the text: the readers satisfy the equations in which nothing is bounded. A text is rejected at
a place in it, and a program at the operation that is wrong. -/

namespace RegionIR

namespace Reader

variable {α β : Type} {p q : Reader α} {f g : α → Reader β} {text s t : List Char}

section Progress

/-- On success and on failure the reader leaves a suffix of what it is given. -/
def Stays (p : Reader α) : Prop :=
  ∀ s, (p s).Within s fun _ => True

/-- On success the reader has read one character at least. -/
def Takes (p : Reader α) : Prop :=
  ∀ ⦃s a t⦄, p s = .ok a t → ∃ c front, s = c :: (front ++ t)

theorem stays_of_within {P : List Char → α → Prop} (h : ∀ text, Within text p (P text)) : p.Stays :=
  fun s => ((h s).mono fun _ _ => trivial) s List.suffix_rfl

theorem Stays.within (h : p.Stays) : Within text p fun _ => True := by
  intro s hs
  have hp := h s
  cases hr : p s with
  | ok a t =>
    rw [hr] at hp
    exact ⟨hp.1.trans hs, trivial⟩
  | fail t =>
    rw [hr] at hp
    exact hp.trans hs

theorem Stays.suffix {a : α} (h : p.Stays) (hs : p s = .ok a t) : t <:+ s := by
  have hp := h s
  rw [hs] at hp
  exact hp.1

theorem stays_pure (a : α) : (pure a : Reader α).Stays :=
  fun _ => ⟨List.suffix_rfl, trivial⟩

theorem stays_blanks : blanks.Stays :=
  stays_of_within fun _ => within_blanks

theorem Stays.bind (hp : p.Stays) (hf : ∀ a, (f a).Stays) : (p >>= f).Stays :=
  stays_of_within fun _ => hp.within.bind fun a _ => (hf a).within

theorem Takes.length_lt {a : α} (h : p.Takes) (hs : p s = .ok a t) : t.length < s.length := by
  obtain ⟨c, front, rfl⟩ := h hs
  simp only [List.length_cons, List.length_append]
  omega

theorem Takes.byteCount_lt {a : α} (h : p.Takes) (hs : p s = .ok a t) :
    byteCount t < byteCount s := by
  obtain ⟨c, front, rfl⟩ := h hs
  have := c.utf8Size_pos
  rw [byteCount_cons, byteCount_append]
  omega

theorem Takes.bind (hp : p.Takes) (hf : ∀ a, (f a).Stays) : (p >>= f).Takes := by
  intro s b r h
  obtain ⟨a, t, ha, hb⟩ := bind_eq_ok.mp h
  obtain ⟨c, front, rfl⟩ := hp ha
  obtain ⟨middle, rfl⟩ := (hf a).suffix hb
  exact ⟨c, front ++ middle, by rw [List.append_assoc]⟩

theorem Stays.bind_takes (hp : p.Stays) (hf : ∀ a, (f a).Takes) : (p >>= f).Takes := by
  intro s b r h
  obtain ⟨a, t, ha, hb⟩ := bind_eq_ok.mp h
  obtain ⟨front, rfl⟩ := hp.suffix ha
  obtain ⟨c, rest, rfl⟩ := hf a hb
  cases front with
  | nil => exact ⟨c, rest, rfl⟩
  | cons d front => exact ⟨d, front ++ c :: rest, by simp⟩

theorem takes_char (c : Char) : (char c).Takes := by
  intro s a t h
  exact ⟨c, [], char_eq_ok.mp h⟩

theorem takes_between {opening closing : Char} (hp : p.Stays) : (between opening closing p).Takes :=
  (takes_char opening).bind fun _ => stays_blanks.bind fun _ => hp.bind fun _ =>
  stays_blanks.bind fun _ => (stays_of_within fun _ => within_char closing).bind fun _ => stays_pure _

theorem takes_qualifiedName : qualifiedName.Takes := by
  rintro s ⟨d, n⟩ t h
  rw [qualifiedName_front h]
  cases d.toList with
  | nil => exact ⟨'.', n.toList, rfl⟩
  | cons c d => exact ⟨c, d ++ '.' :: n.toList, by simp⟩

theorem takes_head (total : Nat) : (head total).Takes := by
  rw [head_eq_headAfter]
  have hresults : (optional resultNames).Stays := stays_of_within fun _ => within_resultNames.optional
  refine stays_blanks.bind_takes fun _ => (stays_of_within fun _ => within_ahead).bind_takes fun _ => ?_
  refine hresults.bind_takes fun _ => stays_blanks.bind_takes fun _ => ?_
  exact takes_qualifiedName.bind fun (_, _) => stays_of_within fun _ => within_headAfter _ _ _ _

end Progress

section Congruence

variable {p' : Reader α} {f' : α → Reader β} {item item' : Reader α} {separator : Reader β}
  {P : α → Prop}

/-- The readers do the same on every suffix of the text. -/
def Alike (text : List Char) (p p' : Reader α) : Prop :=
  ∀ s, s <:+ text → p s = p' s

theorem Alike.refl (p : Reader α) : Alike text p p :=
  fun _ _ => rfl

theorem bind_congr (h : p s = p' s) : (p >>= f) s = (p' >>= f) s := by
  simp only [bind, h]

theorem orElse_congr {q' : Reader α} (hp : p s = p' s) (hq : q s = q' s) :
    orElse p q s = orElse p' q' s := by
  simp only [orElse, hp, hq]

theorem Alike.bind (hw : Within text p P) (hp : Alike text p p') (hf : ∀ a, Alike text (f a) (f' a)) :
    Alike text (p >>= f) (p' >>= f') := by
  intro s hs
  have hrest := hw s hs
  cases hr : p s with
  | ok a t =>
    rw [hr] at hrest
    rw [bind_ok hr, bind_ok ((hp s hs).symm.trans hr)]
    exact hf a t hrest.1
  | fail t => rw [bind_fail hr, bind_fail ((hp s hs).symm.trans hr)]

theorem Alike.optional (h : Alike text p p') : Alike text (optional p) (optional p') := by
  intro s hs
  simp only [Reader.optional, h s hs]

theorem Alike.after (hw : Within text p P) (hf : ∀ a, Alike text (f a) (f' a)) :
    Alike text (p >>= f) (p >>= f') :=
  .bind hw (.refl p) hf

theorem Alike.spaced (hw : Within text p P) (h : Alike text p p') :
    Alike text (spaced p) (spaced p') :=
  .after within_blanks fun _ => .bind hw h fun _ => .refl _

theorem Alike.between {opening closing : Char} (hw : Within text p P) (h : Alike text p p') :
    Alike text (between opening closing p) (between opening closing p') :=
  .after (within_char opening) fun _ => .after within_blanks fun _ => .bind hw h fun _ => .refl _

theorem furtherItems_congr (hw : Within text item P) (h : Alike text item item')
    (hs : Within text separator fun _ => True) (bound : List Char) (hsuffix : s <:+ text) :
    furtherItems item separator bound s = furtherItems item' separator bound s := by
  induction bound generalizing s with
  | nil => rfl
  | cons _ bound ih =>
    have hsep := hs s hsuffix
    unfold furtherItems
    cases hr : separator s with
    | fail t => rfl
    | ok b t =>
      rw [hr] at hsep
      have hitem := hw t hsep.1
      dsimp only
      rw [← h t hsep.1]
      cases ht : item t with
      | fail u => rfl
      | ok a u =>
        rw [ht] at hitem
        dsimp only
        rw [ih hitem.1]

theorem Alike.items1 (hw : Within text item P) (h : Alike text item item')
    (hs : Within text separator fun _ => True) :
    Alike text (items1 item separator) (items1 item' separator) := by
  intro s hsuffix
  have hitem := hw s hsuffix
  unfold Reader.items1
  rw [← h s hsuffix]
  cases hr : item s with
  | fail t => rfl
  | ok a t =>
    rw [hr] at hitem
    dsimp only
    rw [furtherItems_congr hw h hs t hitem.1]

theorem Alike.items (hw : Within text item P) (h : Alike text item item')
    (hs : Within text separator fun _ => True) :
    Alike text (items item separator) (items item' separator) := by
  rw [items_eq_orElse, items_eq_orElse]
  exact fun s hsuffix => orElse_congr (Alike.items1 hw h hs s hsuffix) rfl

theorem Alike.whileAhead (hw : Within text item P) (h : Alike text item item')
    (more : List Char → Bool) (bound : List Char) :
    Alike text (whileAhead more item bound) (whileAhead more item' bound) := by
  induction bound with
  | nil => exact .refl _
  | cons _ bound ih =>
    refine .after within_blanks fun _ => .after within_ahead fun s => ?_
    split
    · exact .bind hw h fun a => .bind (hw.whileAhead more bound) ih fun _ => .refl _
    · exact .refl _

theorem Alike.many (hw : Within text item P) (h : Alike text item item') (more : List Char → Bool) :
    Alike text (many more item) (many more item') :=
  fun s hs => Alike.whileAhead hw h more s s hs

theorem Alike.listed {opening closing : Char} (hw : Within text item P) (h : Alike text item item') :
    Alike text (listed opening closing item) (listed opening closing item') :=
  .between (hw.spaced.items (within_char ',')) (.items hw.spaced (h.spaced hw) (within_char ','))

end Congruence

/-- A bound that is as long as the text does not matter if every level, or every turn, goes on with a
shorter text. -/
theorem bound_eq {γ : Type} {F : (bound : List Char) → List Char → γ}
    (hnil : ∀ bound bound', F bound [] = F bound' [])
    (hcons : ∀ c bound c' bound' s, (∀ t, t.length < s.length → F bound t = F bound' t) →
      F (c :: bound) s = F (c' :: bound') s)
    {bound bound' : List Char} (h : s.length ≤ bound.length) (h' : s.length ≤ bound'.length) :
    F bound s = F bound' s := by
  induction bound generalizing s bound' with
  | nil =>
    obtain rfl : s = [] := List.length_eq_zero_iff.mp (Nat.le_zero.mp h)
    exact hnil ..
  | cons c bound ih =>
    cases bound' with
    | nil =>
      obtain rfl : s = [] := List.length_eq_zero_iff.mp (Nat.le_zero.mp h')
      exact hnil ..
    | cons c' bound' =>
      simp only [List.length_cons] at h h'
      exact hcons _ _ _ _ s fun t ht => ih (by omega) (by omega)

section Nesting

variable {type type' : Reader Ty} {attr attr' : Reader (Attr Ty)} {op op' : Reader SourceOp}

theorem Alike.dictWith (hw : Within text attr fun _ => True) (h : Alike text attr attr') :
    Alike text (dictWith attr) (dictWith attr') := by
  have hentry : Within text (entryWith attr) fun _ => True :=
    within_name.bind fun _ _ => within_blanks.bind fun _ _ => (within_char '=').bind fun _ _ =>
    within_blanks.bind fun _ _ => hw.bind fun _ _ => within_pure trivial
  have halike : Alike text (entryWith attr) (entryWith attr') :=
    .after within_name fun _ => .after within_blanks fun _ => .after (within_char '=') fun _ =>
    .after within_blanks fun _ => .bind hw h fun _ => .refl _
  exact .between (hentry.spaced.items1 (within_char ','))
    (.items1 hentry.spaced (halike.spaced hentry) (within_char ','))

/-- What a type is made of stands behind its name, and attributes only behind parameters. -/
theorem typeWith_congr (hw : type.Stays) (hw' : attr.Stays)
    (h : ∀ t, t.length < s.length → type t = type' t ∧ attr t = attr' t) :
    typeWith type attr s = typeWith type' attr' s := by
  unfold typeWith
  cases hr : qualifiedName s with
  | fail t => rw [bind_fail hr, bind_fail hr]
  | ok a t =>
    obtain ⟨d, n⟩ := a
    have hlt := takes_qualifiedName.length_lt hr
    have halike : Alike t type type' ∧ Alike t attr attr' :=
      ⟨fun u hu => (h u (Nat.lt_of_le_of_lt hu.length_le hlt)).1,
        fun u hu => (h u (Nat.lt_of_le_of_lt hu.length_le hlt)).2⟩
    rw [bind_ok hr, bind_ok hr]
    refine Alike.bind hw.within.listed.optional (Alike.listed hw.within halike.1).optional
      (fun params => ?_) t List.suffix_rfl
    cases params with
    | none => exact .refl _
    | some params =>
      exact .bind (within_blanks.bind fun _ _ => within_dictWith hw'.within).optional
        (Alike.after within_blanks fun _ => .dictWith hw'.within halike.2).optional fun _ => .refl _

/-- What a list is made of stands behind its bracket, but a type may begin where the attribute does. -/
theorem attrWith_congr (hw : attr.Stays) (htype : type s = type' s)
    (h : ∀ t, t.length < s.length → attr t = attr' t) :
    attrWith type attr s = attrWith type' attr' s := by
  have hlist : listed '[' ']' attr s = listed '[' ']' attr' s := by
    unfold listed between
    cases hr : char '[' s with
    | fail t => rw [bind_fail hr, bind_fail hr]
    | ok a t =>
      have halike : Alike t attr attr' := fun u hu =>
        h u (Nat.lt_of_le_of_lt hu.length_le ((takes_char '[').length_lt hr))
      rw [bind_ok hr, bind_ok hr]
      exact Alike.after within_blanks (fun _ => .bind (hw.within.spaced.items (within_char ','))
        (.items hw.within.spaced (halike.spaced hw.within) (within_char ',')) fun _ => .refl _)
        t List.suffix_rfl
  exact orElse_congr rfl <| orElse_congr rfl <| orElse_congr rfl <| orElse_congr rfl <|
    orElse_congr rfl <| orElse_congr (bind_congr hlist) <| orElse_congr rfl <| orElse_congr rfl <|
    bind_congr htype

theorem stays_typeWithin (bound : List Char) : (typeWithin bound).Stays :=
  stays_of_within fun _ => (within_typeWithin_attrWithin bound).1

theorem stays_attrWithin (bound : List Char) : (attrWithin bound).Stays :=
  stays_of_within fun _ => (within_typeWithin_attrWithin bound).2

/-- All bounds as long as the text are alike. An attribute that is a type begins where the type does, so
the type is settled first. -/
theorem typeWithin_attrWithin_bound {bound bound' : List Char} (h : s.length ≤ bound.length)
    (h' : s.length ≤ bound'.length) :
    typeWithin bound s = typeWithin bound' s ∧ attrWithin bound s = attrWithin bound' s := by
  rw [← Prod.mk.injEq]
  refine bound_eq (F := fun bound s => (typeWithin bound s, attrWithin bound s)) ?_ ?_ h h'
  · intro bound bound'
    cases bound <;> cases bound' <;> rfl
  · intro c bound c' bound' s ih
    simp only [Prod.mk.injEq] at ih ⊢
    have htype := typeWith_congr (stays_typeWithin bound) (stays_attrWithin bound) ih
    exact ⟨htype, attrWith_congr (stays_attrWithin bound) htype fun t ht => (ih t ht).2⟩

theorem type_eq_typeWith : Reader.type = typeWith Reader.type Reader.attr := by
  funext s
  calc Reader.type s
      = typeWithin (' ' :: s) s := (typeWithin_attrWithin_bound (Nat.le_refl _) (Nat.le_succ _)).1
    _ = typeWith Reader.type Reader.attr s :=
      typeWith_congr (stays_typeWithin s) (stays_attrWithin s) fun t ht =>
        typeWithin_attrWithin_bound (Nat.le_of_lt ht) (Nat.le_refl _)

theorem attr_eq_attrWith : Reader.attr = attrWith Reader.type Reader.attr := by
  funext s
  have htype : typeWithin (' ' :: s) s = Reader.type s :=
    (typeWithin_attrWithin_bound (Nat.le_succ _) (Nat.le_refl _)).1
  calc Reader.attr s
      = attrWithin (' ' :: s) s := (typeWithin_attrWithin_bound (Nat.le_refl _) (Nat.le_succ _)).2
    _ = attrWith Reader.type Reader.attr s :=
      attrWith_congr (stays_attrWithin s) htype fun t ht =>
        (typeWithin_attrWithin_bound (Nat.le_of_lt ht) (Nat.le_refl _)).2

/-- An operation, given a reader of the operations in its regions. -/
def opWith (total : Nat) (op : Reader SourceOp) : Reader SourceOp := do
  let h ← head total
  let regions ← many (fun s => s.head? = some '\x7b') (regionWith op)
  return .mk h regions

variable {P : SourceHead → Prop}

theorem Alike.opsWith (hw : Within text op (SourceOp.All P)) (h : Alike text op op') :
    Alike text (opsWith op) (opsWith op') :=
  .many hw h _

theorem Alike.blockWith (hw : Within text op (SourceOp.All P)) (h : Alike text op op') :
    Alike text (blockWith op) (blockWith op') :=
  .after within_blanks fun _ => .after within_blockLabel fun _ =>
  .after within_blockArgs.optional fun _ => .after within_blanks fun _ =>
  .after (within_char ':') fun _ => .bind (hw.many _) (.opsWith hw h) fun _ => .refl _

theorem Alike.regionWith (hw : Within text op (SourceOp.All P)) (h : Alike text op op') :
    Alike text (regionWith op) (regionWith op') := by
  have hblocks : Alike text (blocksWith op) (blocksWith op') := by
    refine .after within_ahead fun s => ?_
    split
    · exact .many (within_blockWith hw) (.blockWith hw h) _
    · split
      · exact .refl _
      · exact .bind (hw.many _) (.opsWith hw h) fun _ => .refl _
  exact .bind (within_blocksWith hw).between (.between (within_blocksWith hw) hblocks) fun _ =>
    .refl _

theorem opWith_congr (total : Nat) (hw : ∀ text, Within text op (SourceOp.All P))
    (h : ∀ t, t.length < s.length → op t = op' t) : opWith total op s = opWith total op' s := by
  unfold opWith
  cases hr : head total s with
  | fail t => rw [bind_fail hr, bind_fail hr]
  | ok a t =>
    have halike : Alike t op op' := fun u hu =>
      h u (Nat.lt_of_le_of_lt hu.length_le ((takes_head total).length_lt hr))
    rw [bind_ok hr, bind_ok hr]
    exact Alike.bind ((within_regionWith (hw t)).many _)
      (.many (within_regionWith (hw t)) (.regionWith (hw t) halike) _) (fun _ => .refl _) t
      List.suffix_rfl

theorem opWithin_bound {total : Nat} {bound bound' : List Char} (h : s.length ≤ bound.length)
    (h' : s.length ≤ bound'.length) : opWithin total bound s = opWithin total bound' s := by
  refine bound_eq ?_ (fun c bound c' bound' s ih => ?_) h h'
  · intro bound bound'
    cases bound <;> cases bound' <;> rfl
  · exact opWith_congr total (fun _ => within_opWithin (within_head total) bound) ih

theorem op_eq_opWith (total : Nat) : Reader.op total = opWith total (Reader.op total) := by
  funext s
  calc Reader.op total s
      = opWithin total (' ' :: s) s := opWithin_bound (Nat.le_refl _) (Nat.le_succ _)
    _ = opWith total (Reader.op total) s :=
      opWith_congr total (fun _ => within_opWithin (within_head total) s) fun t ht =>
        opWithin_bound (Nat.le_of_lt ht) (Nat.le_refl _)

end Nesting

section Loops

variable {item : Reader α} {separator : Reader β} {more : List Char → Bool}

/-- One turn of the loop of `many`, given how it goes on. -/
def turn (more : List Char → Bool) (item : Reader α) (further : Reader (List α)) :
    Reader (List α) := do
  blanks
  if more (← ahead) then
    let a ← item
    return a :: (← further)
  else return []

/-- One turn of the loop of `furtherItems`, given how it goes on. -/
def furtherTurn (item : Reader α) (separator : Reader β) (further : List Char → List α × List Char)
    (s : List Char) : List α × List Char :=
  match separator s with
  | .fail _ => ([], s)
  | .ok _ t =>
    match item t with
    | .fail _ => ([], s)
    | .ok a rest => (a :: (further rest).1, (further rest).2)

theorem turn_congr (hi : item.Takes) {further further' : Reader (List α)}
    (h : ∀ t, t.length < s.length → further t = further' t) :
    turn more item further s = turn more item further' s := by
  have hle : (trimBlanks s).length ≤ s.length := (List.dropWhile_suffix _).length_le
  unfold turn
  rw [bind_ok (blanks_eq s), bind_ok (blanks_eq s), bind_ok (ahead_eq _), bind_ok (ahead_eq _)]
  split
  · cases hr : item (trimBlanks s) with
    | fail t => rw [bind_fail hr, bind_fail hr]
    | ok a t =>
      have hlt := hi.length_lt hr
      rw [bind_ok hr, bind_ok hr]
      exact bind_congr (h t (by omega))
  · rfl

theorem whileAhead_bound (hi : item.Takes) (hmore : more [] = false) {bound bound' : List Char}
    (h : s.length ≤ bound.length) (h' : s.length ≤ bound'.length) :
    whileAhead more item bound s = whileAhead more item bound' s := by
  refine bound_eq (fun bound bound' => ?_) (fun c bound c' bound' s ih => turn_congr hi ih) h h'
  rw [whileAhead_stop hmore, whileAhead_stop hmore]

theorem many_eq_turn (hi : item.Takes) (hmore : more [] = false) :
    many more item = turn more item (many more item) := by
  funext s
  calc many more item s
      = whileAhead more item (' ' :: s) s := whileAhead_bound hi hmore (Nat.le_refl _) (Nat.le_succ _)
    _ = turn more item (many more item) s := turn_congr hi fun t ht =>
      whileAhead_bound hi hmore (Nat.le_of_lt ht) (Nat.le_refl _)

theorem furtherItems_cons (c : Char) (bound s : List Char) :
    furtherItems item separator (c :: bound) s =
      furtherTurn item separator (furtherItems item separator bound) s := by
  unfold furtherItems furtherTurn
  cases separator s with
  | fail t => rfl
  | ok b t => cases item t <;> rfl

theorem furtherTurn_congr (hi : item.Stays) (hs : separator.Takes)
    {further further' : List Char → List α × List Char}
    (h : ∀ t, t.length < s.length → further t = further' t) :
    furtherTurn item separator further s = furtherTurn item separator further' s := by
  unfold furtherTurn
  cases hsep : separator s with
  | fail t => rfl
  | ok b t =>
    dsimp only
    cases hitem : item t with
    | fail u => rfl
    | ok a u =>
      have hlt := hs.length_lt hsep
      have hle := (hi.suffix hitem).length_le
      dsimp only
      rw [h u (by omega)]

theorem furtherItems_nil (hs : separator.Takes) (bound : List Char) :
    furtherItems item separator bound [] = ([], []) := by
  cases bound with
  | nil => rfl
  | cons c bound =>
    rw [furtherItems_cons, furtherTurn]
    cases hsep : separator [] with
    | fail t => rfl
    | ok b t =>
      obtain ⟨c, front, hnil⟩ := hs hsep
      cases hnil

theorem furtherItems_bound (hi : item.Stays) (hs : separator.Takes) {bound bound' : List Char}
    (h : s.length ≤ bound.length) (h' : s.length ≤ bound'.length) :
    furtherItems item separator bound s = furtherItems item separator bound' s := by
  refine bound_eq (fun bound bound' => ?_) (fun c bound c' bound' s ih => ?_) h h'
  · rw [furtherItems_nil hs, furtherItems_nil hs]
  · rw [furtherItems_cons, furtherItems_cons]
    exact furtherTurn_congr hi hs ih

theorem furtherItems_eq_furtherTurn (hi : item.Stays) (hs : separator.Takes) (s : List Char) :
    furtherItems item separator s s =
      furtherTurn item separator (fun t => furtherItems item separator t t) s := by
  calc furtherItems item separator s s
      = furtherItems item separator (' ' :: s) s :=
        furtherItems_bound hi hs (Nat.le_refl _) (Nat.le_succ _)
    _ = furtherTurn item separator (furtherItems item separator s) s := furtherItems_cons ..
    _ = furtherTurn item separator (fun t => furtherItems item separator t t) s :=
      furtherTurn_congr hi hs fun t ht => furtherItems_bound hi hs (Nat.le_of_lt ht) (Nat.le_refl _)

end Loops

section Parser

variable (total : Nat)

theorem within_op_true : Within text (Reader.op total) (SourceOp.All fun _ => True) :=
  within_op (within_head total)

theorem takes_op : (Reader.op total).Takes := by
  rw [op_eq_opWith]
  have hregions := stays_of_within fun text =>
    (within_regionWith (@within_op_true text total)).many fun s => s.head? = some '\x7b'
  exact (takes_head total).bind fun _ => hregions.bind fun _ => stays_pure _

theorem takes_block : (blockWith (Reader.op total)).Takes := by
  have hlabel : blockLabel.Takes :=
    (takes_char '^').bind fun _ => stays_of_within fun _ => within_word
  rw [blockWith_eq_blockAfter]
  exact stays_blanks.bind_takes fun _ => hlabel.bind fun label =>
    stays_of_within fun _ => within_blockAfter (within_op_true total) label

theorem takes_region : (regionWith (Reader.op total)).Takes :=
  (takes_between (stays_of_within fun _ => within_blocksWith (within_op_true total))).bind fun _ =>
  stays_pure _

/-- The readers of the grammar. -/
def combinators : List ((α : Type) × Reader α) :=
  [⟨_, blanks⟩, ⟨_, name⟩, ⟨_, word⟩, ⟨_, valueName⟩, ⟨_, blockLabel⟩, ⟨_, symbol⟩,
    ⟨_, qualifiedName⟩, ⟨_, integer⟩, ⟨_, float⟩, ⟨_, quoted⟩, ⟨_, Reader.type⟩, ⟨_, Reader.attr⟩,
    ⟨_, dict⟩, ⟨_, resultNames⟩, ⟨_, operandNames⟩, ⟨_, successorLabels⟩, ⟨_, resultTypes⟩,
    ⟨_, Reader.op total⟩, ⟨_, opsWith (Reader.op total)⟩, ⟨_, blockWith (Reader.op total)⟩,
    ⟨_, regionWith (Reader.op total)⟩]

theorem stays_combinators : ∀ p ∈ combinators total, p.2.Stays := by
  have hop (text : List Char) := @within_op_true text total
  simp only [combinators, List.forall_mem_cons, List.not_mem_nil, false_implies, implies_true,
    and_true]
  exact ⟨stays_blanks, stays_of_within fun _ => within_name, stays_of_within fun _ => within_word,
    stays_of_within fun _ => within_valueName,
    stays_of_within fun _ => within_blockLabel, stays_of_within fun _ => within_symbol,
    stays_of_within fun _ => within_qualifiedName, stays_of_within fun _ => within_integer,
    stays_of_within fun _ => within_float, stays_of_within fun _ => within_quoted,
    stays_of_within fun _ => within_type, stays_of_within fun _ => within_attr,
    stays_of_within fun _ => within_dict, stays_of_within fun _ => within_resultNames,
    stays_of_within fun _ => within_operandNames, stays_of_within fun _ => within_successorLabels,
    stays_of_within fun _ => within_resultTypes, stays_of_within hop,
    stays_of_within fun text => (hop text).many _,
    stays_of_within fun text => within_blockWith (hop text),
    stays_of_within fun text => within_regionWith (hop text)⟩

/-- The readers nest and loop as if there were no bounds. -/
structure Unbounded : Prop where
  type : Reader.type = typeWith Reader.type Reader.attr
  attr : Reader.attr = attrWith Reader.type Reader.attr
  op : Reader.op total = opWith total (Reader.op total)
  regions : many (fun s => s.head? = some '\x7b') (regionWith (Reader.op total)) =
    turn (fun s => s.head? = some '\x7b') (regionWith (Reader.op total))
      (many (fun s => s.head? = some '\x7b') (regionWith (Reader.op total)))
  blocks : many (fun s => s.head? = some '^') (blockWith (Reader.op total)) =
    turn (fun s => s.head? = some '^') (blockWith (Reader.op total))
      (many (fun s => s.head? = some '^') (blockWith (Reader.op total)))
  ops : opsWith (Reader.op total) =
    turn (fun s => !(s.isEmpty || s.head? = some '^' || s.head? = some '\x7d')) (Reader.op total)
      (opsWith (Reader.op total))
  list {α : Type} {item : Reader α} : item.Stays → ∀ s, furtherItems item (char ',') s s =
    furtherTurn item (char ',') (fun t => furtherItems item (char ',') t t) s
  operands {α : Type} {item : Reader α} : item.Stays → ∀ s, furtherItems item (spaced (char ',')) s s =
    furtherTurn item (spaced (char ',')) (fun t => furtherItems item (spaced (char ',')) t t) s

theorem unbounded : Unbounded total where
  type := type_eq_typeWith
  attr := attr_eq_attrWith
  op := op_eq_opWith total
  regions := many_eq_turn (takes_region total) rfl
  blocks := many_eq_turn (takes_block total) rfl
  ops := many_eq_turn (takes_op total) rfl
  list hi := furtherItems_eq_furtherTurn hi (takes_char ',')
  operands hi := furtherItems_eq_furtherTurn hi
    (stays_blanks.bind_takes fun _ => (takes_char ',').bind fun _ =>
      stays_blanks.bind fun _ => stays_pure _)

end Parser

end Reader

/-- Parsing ends. Every reader leaves a suffix of what it is given, whether it succeeds or not, and one
that reads an operation, a block or a region leaves less, so that all nesting and all loops come to an
end by themselves. A text is rejected at a place in it, and, once it is read, at the beginning of an
operation that mentions what is not visible where it stands, gives names to its results that it cannot
give, or has a region whose labels or arguments are wrong there. -/
theorem Context.parse_progress {ctx : Context} (hr : ctx.Reachable) (text : String) :
    (∀ p ∈ Reader.combinators (Reader.byteCount text.toList), p.2.Stays) ∧
      (∀ s o rest, Reader.op (Reader.byteCount text.toList) s = .ok o rest →
        Reader.byteCount rest < Reader.byteCount s) ∧
      (∀ s b rest, Reader.blockWith (Reader.op (Reader.byteCount text.toList)) s = .ok b rest →
        Reader.byteCount rest < Reader.byteCount s) ∧
      (∀ s r rest, Reader.regionWith (Reader.op (Reader.byteCount text.toList)) s = .ok r rest →
        Reader.byteCount rest < Reader.byteCount s) ∧
      Reader.Unbounded (Reader.byteCount text.toList) ∧
      ∀ e, (ctx.parse text).1 = .error e → ∃ pe, e = .rejected pe ∧ IsOffset text.toList pe.offset ∧
        ∀ source, SourceOp.parse text = .ok source →
          ∃ frames s, Occurs SourceOp.inner SourceBlock.ops [] source frames s ∧
            pe.offset = s.head.offset ∧ s.head.BeginsIn text.toList ∧
            ∃ c, s.Prompts frames c ∧ pe.message = c.message := by
  refine ⟨Reader.stays_combinators _, fun s o rest => (Reader.takes_op _).byteCount_lt,
    fun s b rest => (Reader.takes_block _).byteCount_lt,
    fun s r rest => (Reader.takes_region _).byteCount_lt, Reader.unbounded _, fun e he => ?_⟩
  obtain ⟨pe, rfl, hoffset⟩ := isOffset_of_parse_error hr he
  refine ⟨pe, rfl, hoffset, fun source hsource => ?_⟩
  obtain ⟨_, heq, frames, s, hoccurs, complaint, hprompts, rfl⟩ :=
    accounts_of_parse_error hr hsource he
  obtain rfl := ResolveError.rejected.inj heq
  have hbegins := SourceOp.all_of_parse Reader.within_head_begins hsource
  exact ⟨frames, s, hoccurs, rfl, hbegins.head_of_occurs hoccurs, complaint, hprompts, rfl⟩

/-- An operand that is defined nowhere. -/
def undefinedText : String := "t.t \x7b %a = u.u : t.t v.v %b \x7d"

theorem Context.parse_progress_undefined : ∃ (pe : ParseError) (frames : List SourceFrame)
    (s : SourceOp), Context.Reachable {} ∧
      (Context.parse {} undefinedText).1 = .error (.rejected pe) ∧ pe.offset = s.head.offset ∧
      s.head.BeginsIn undefinedText.toList ∧ ∃ c, s.Prompts frames c ∧ pe.message = c.message := by
  have hcheck : (SourceOp.parse undefinedText).toOption.any fun _ =>
      (Context.parse {} undefinedText).1.toOption.isNone := by decide +kernel
  obtain ⟨source, hsource, hcheck⟩ := except_any_iff.mp hcheck
  obtain ⟨e, herror⟩ := except_isNone_iff.mp hcheck
  obtain ⟨-, -, -, -, -, herrors⟩ := parse_progress .empty undefinedText
  obtain ⟨pe, rfl, -, hbuild⟩ := herrors e herror
  obtain ⟨frames, s, -, hoffset, hbegins, hprompts⟩ := hbuild source hsource
  exact ⟨pe, frames, s, .empty, herror, hoffset, hbegins, hprompts⟩

end RegionIR
