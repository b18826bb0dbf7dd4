import RegionIR.Proofs.Decimal.Shortest
import RegionIR.Proofs.Source.Readers
import RegionIR.Source.Literal

/-! Names and constants are read as they were written.

A name or number needs to know that the text does not go on with a character that would belong to
it; a quoted string brings its own end. -/

namespace RegionIR

namespace Text

/-- A letter or an underscore, then letters, digits and underscores. -/
def isName (s : String) : Bool :=
  match s.toList with
  | [] => false
  | c :: cs => isNameStart c && cs.all isWordChar

theorem isName_iff {s : String} : isName s ↔
    ∃ c cs, s.toList = c :: cs ∧ isNameStart c ∧ ∀ d ∈ cs, isWordChar d := by
  unfold isName
  split
  · simp [*]
  · rename_i c cs h
    simp only [h, Bool.and_eq_true, List.all_eq_true, List.cons.injEq]
    constructor
    · rintro ⟨hc, hcs⟩
      exact ⟨c, cs, ⟨rfl, rfl⟩, hc, hcs⟩
    · rintro ⟨_, _, ⟨rfl, rfl⟩, hc, hcs⟩
      exact ⟨hc, hcs⟩

theorem isWordChar_of_isNameStart {c : Char} (h : isNameStart c) : isWordChar c := by
  simp only [isNameStart, isWordChar, Char.isAlphanum, Bool.or_eq_true] at h ⊢
  tauto

theorem not_isDigit_of_isNameStart {c : Char} (h : isNameStart c) : c.isDigit = false := by
  by_contra hc
  have hletter : c.isAlpha = (decide (c.val ≥ 'A'.val ∧ c.val ≤ 'Z'.val) ||
      decide (c.val ≥ 'a'.val) && decide (c.val ≤ 'z'.val)) := rfl
  simp only [isNameStart, hletter, Char.isDigit, Bool.or_eq_true, Bool.not_eq_false,
    Bool.and_eq_true, decide_eq_true_eq, beq_iff_eq, ge_iff_le, UInt32.le_iff_toNat_le] at h hc
  obtain ⟨hlow, hhigh⟩ := hc
  rcases h with (⟨h, -⟩ | ⟨h, -⟩) | rfl
  · have := le_trans h hhigh
    revert this
    decide
  · have := le_trans h hhigh
    revert this
    decide
  · revert hhigh
    decide

theorem isWord_iff {s : String} : isWord s ↔ s.toList ≠ [] ∧ ∀ c ∈ s.toList, isWordChar c := by
  simp [isWord]

theorem isWord_repr (n : Nat) : isWord (Nat.repr n) := by
  rw [isWord_iff, Nat.repr_eq_ofList_toDigits, String.toList_ofList]
  refine ⟨Nat.toDigits_ne_nil, fun c hc => ?_⟩
  have hd := Nat.isDigit_of_mem_toDigits (by decide) (by decide) hc
  simp [isWordChar, Char.isAlphanum, hd]

theorem repr_injective : Function.Injective Nat.repr := by
  intro m n h
  simp only [Nat.repr_eq_ofList_toDigits] at h
  have hdigits := congrArg (fun l => Nat.ofDigitChars 10 l 0) (String.ofList_injective h)
  simpa only [Nat.ofDigitChars_ten_toDigits] using hdigits

theorem not_isBlank_of_isWordChar {c : Char} (h : isWordChar c) : Reader.isBlank c = false := by
  by_contra hb
  simp only [Reader.isBlank, Bool.or_eq_true, beq_iff_eq, Bool.not_eq_false] at hb
  rcases hb with (((rfl | rfl) | rfl) | rfl) | rfl <;> simp [isWordChar] at h

/-- The text is the integer in decimal, without leading zeros and without a plus sign. -/
inductive Spells : String → Int → Prop
  | plain (n : Nat) : Spells (Nat.repr n) n
  | minus (n : Nat) : Spells ("-" ++ Nat.repr n) (-n)

theorem toList_quote (s : String) :
    (quote s).toList = '"' :: (s.toList.flatMap escapeChar ++ ['"']) := by
  simp [quote, escape]

theorem head_symbol (s : String) : ∃ cs, (symbol s).toList = '@' :: cs := by
  unfold symbol
  split
  · exact ⟨s.toList, by simp⟩
  · exact ⟨(quote s).toList, by simp⟩

end Text

namespace Reader

variable {s : String} {r : List Char}

theorem name_eq (hs : Text.isName s) (hr : Stops Text.isWordChar r) :
    name (s.toList ++ r) = .ok s r := by
  obtain ⟨c, cs, htext, hc, hcs⟩ := Text.isName_iff.mp hs
  unfold name
  rw [htext, List.cons_append, bind_ok (one_cons hc _), bind_ok (run_append hcs hr), ← htext,
    String.ofList_toList]
  rfl

theorem name_fail (h : Stops Text.isNameStart r) : name r = .fail r := by
  unfold name
  rw [bind_fail (one_fail h)]

theorem word_eq (hs : Text.isWord s) (hr : Stops Text.isWordChar r) :
    word (s.toList ++ r) = .ok s r := by
  obtain ⟨hne, hall⟩ := Text.isWord_iff.mp hs
  unfold word
  rw [bind_ok (run1_append hne hall hr), String.ofList_toList]
  rfl

theorem word_append (hs : Text.isWord s) (r : List Char) : word (s.toList ++ r) =
    .ok (String.ofList (s.toList ++ r.takeWhile Text.isWordChar)) (r.dropWhile Text.isWordChar) := by
  obtain ⟨hne, hall⟩ := Text.isWord_iff.mp hs
  have hlonger : Text.isWord (String.ofList (s.toList ++ r.takeWhile Text.isWordChar)) := by
    rw [Text.isWord_iff, String.toList_ofList]
    refine ⟨by simp [hne], fun c hc => ?_⟩
    rcases List.mem_append.mp hc with hc | hc
    · exact hall c hc
    · exact List.all_eq_true.mp List.all_takeWhile c hc
  have hread := word_eq hlonger (stops_dropWhile Text.isWordChar r)
  rwa [String.toList_ofList, List.append_assoc, List.takeWhile_append_dropWhile] at hread

theorem valueName_eq (hs : Text.isWord s) (hr : Stops Text.isWordChar r) :
    valueName ('%' :: (s.toList ++ r)) = .ok s r := by
  unfold valueName
  rw [bind_ok (char_cons '%' _), word_eq hs hr]

theorem valueName_fail (h : ∀ c ∈ r.head?, c ≠ '%') : valueName r = .fail r := by
  unfold valueName
  rw [bind_fail (char_fail h)]

theorem blockLabel_eq (hs : Text.isWord s) (hr : Stops Text.isWordChar r) :
    blockLabel ('^' :: (s.toList ++ r)) = .ok s r := by
  unfold blockLabel
  rw [bind_ok (char_cons '^' _), word_eq hs hr]

theorem qualifiedName_eq {d n : String} (hd : Text.isName d) (hn : Text.isName n)
    (hr : Stops Text.isWordChar r) :
    qualifiedName (d.toList ++ '.' :: (n.toList ++ r)) = .ok (d, n) r := by
  unfold qualifiedName
  rw [bind_ok (name_eq hd (by simp [Text.isWordChar])), bind_ok (char_cons '.' _),
    bind_ok (name_eq hn hr)]
  rfl

theorem qualifiedName_fail (h : Stops Text.isNameStart r) : qualifiedName r = .fail r := by
  unfold qualifiedName
  rw [bind_fail (name_fail h)]

section Quoted

theorem quotedTail_plain {c : Char} {cs : List Char} {s t : List Char} (hq : c ≠ '"')
    (hb : c ≠ '\\') (h : quotedTail s = .ok cs t) : quotedTail (c :: s) = .ok (c :: cs) t := by
  rw [quotedTail.eq_5 _ _ hq (fun e _ => hb e) (fun _ _ e _ => hb e), h]

theorem quotedTail_escaped {c : Char} {cs : List Char} {s t : List Char}
    (h : quotedTail s = .ok cs t) : quotedTail ('\\' :: c :: s) = .ok (unescape c ++ cs) t := by
  simp only [quotedTail, h]

theorem quotedTail_escapeChar (c : Char) {cs : List Char} {s t : List Char}
    (h : quotedTail s = .ok cs t) : quotedTail (Text.escapeChar c ++ s) = .ok (c :: cs) t := by
  unfold Text.escapeChar
  split_ifs with hb hq hn ht hr
  · subst hb
    exact quotedTail_escaped h
  · subst hq
    exact quotedTail_escaped h
  · subst hn
    exact quotedTail_escaped h
  · subst ht
    exact quotedTail_escaped h
  · subst hr
    exact quotedTail_escaped h
  · exact quotedTail_plain hq hb h

theorem quotedTail_escape (cs : List Char) (r : List Char) :
    quotedTail (cs.flatMap Text.escapeChar ++ '"' :: r) = .ok cs r := by
  induction cs with
  | nil => simp [quotedTail]
  | cons c cs ih =>
    rw [List.flatMap_cons, List.append_assoc]
    exact quotedTail_escapeChar c ih

/-- Quoting is undone, whatever comes next. -/
theorem quoted_eq (s : String) (r : List Char) : quoted ((Text.quote s).toList ++ r) = .ok s r := by
  unfold quoted
  rw [Text.toList_quote, List.cons_append, List.append_assoc, bind_ok (char_cons '"' _)]
  change (_ >>= _ : Reader String) (s.toList.flatMap Text.escapeChar ++ '"' :: r) = _
  rw [bind_ok (quotedTail_escape s.toList r), String.ofList_toList]
  rfl

theorem quoted_fail (h : ∀ c ∈ r.head?, c ≠ '"') : quoted r = .fail r := by
  unfold quoted
  rw [bind_fail (char_fail h)]

theorem symbol_of_isWord (hs : Text.isWord s) (r : List Char) :
    symbol ((Text.symbol s).toList ++ r) = word (s.toList ++ r) := by
  obtain ⟨hne, hall⟩ := Text.isWord_iff.mp hs
  obtain ⟨c, cs, htext⟩ := List.exists_cons_of_ne_nil hne
  have hc : c ≠ '"' := by
    rintro rfl
    have hq := hall '"' (by simp [htext])
    revert hq
    decide
  have hhead : ¬ (s.toList ++ r).head? = some '"' := by simpa [htext] using hc
  have hsymbol : (Text.symbol s).toList ++ r = '@' :: (s.toList ++ r) := by
    simp [Text.symbol, hs]
  unfold symbol
  rw [hsymbol, bind_ok (char_cons '@' _), bind_ok (ahead_eq _), if_neg hhead]

theorem symbol_of_not_isWord (hs : Text.isWord s = false) (r : List Char) :
    symbol ((Text.symbol s).toList ++ r) = .ok s r := by
  have hsymbol : (Text.symbol s).toList ++ r = '@' :: ((Text.quote s).toList ++ r) := by
    simp [Text.symbol, hs]
  unfold symbol
  rw [hsymbol, bind_ok (char_cons '@' _), bind_ok (ahead_eq _), if_pos (by simp [Text.quote]),
    quoted_eq]

theorem symbol_eq (s : String) (hr : Stops Text.isWordChar r) :
    symbol ((Text.symbol s).toList ++ r) = .ok s r := by
  cases hs : Text.isWord s with
  | true => rw [symbol_of_isWord hs, word_eq hs hr]
  | false => exact symbol_of_not_isWord hs r

theorem symbol_fail (h : ∀ c ∈ r.head?, c ≠ '@') : symbol r = .fail r := by
  unfold symbol
  rw [bind_fail (char_fail h)]

/-- A string is read back from its text whatever comes next, and so is a symbol, unless it stands
without quotes and the text goes on with a letter, a digit or an underscore. -/
theorem quoted_and_symbol_read_back (s : String) (r : List Char) :
    quoted ((Text.quote s).toList ++ r) = .ok s r ∧
      (symbol ((Text.symbol s).toList ++ r) = .ok s r ↔
        Text.isWord s = false ∨ Stops Text.isWordChar r) := by
  refine ⟨quoted_eq s r, fun h => ?_, ?_⟩
  · cases hs : Text.isWord s with
    | false => exact .inl rfl
    | true =>
      rw [symbol_of_isWord hs, word_append hs] at h
      injection h with _ hrest
      have hstops := stops_dropWhile Text.isWordChar r
      rw [hrest] at hstops
      exact .inr hstops
  · rintro (hs | hr)
    · exact symbol_of_not_isWord hs r
    · exact symbol_eq s hr

end Quoted

section Numbers

theorem head_toDigits_ne_zero {n : Nat} (hn : 0 < n) : ∀ c ∈ (Nat.toDigits 10 n).head?, c ≠ '0' := by
  induction n using Nat.strongRecOn with
  | _ n ih =>
    rw [Nat.toDigits_eq_if (by decide)]
    split
    · rename_i hlt
      have hdigit : ∀ m < 10, 0 < m → Nat.digitChar m ≠ '0' := by decide
      simpa using hdigit n hlt hn
    · rename_i hge
      have hpos : 0 < n / 10 := by omega
      obtain ⟨c, cs, hcs⟩ := List.exists_cons_of_ne_nil (Nat.toDigits_ne_nil (n := n / 10) (b := 10))
      have hc := ih (n / 10) (by omega) hpos c
      rw [hcs] at hc ⊢
      simpa using hc

theorem natural_eq (n : Nat) (hr : Stops Char.isDigit r) :
    natural ((Nat.repr n).toList ++ r) = .ok n r := by
  rw [Nat.repr_eq_ofList_toDigits, String.toList_ofList]
  obtain ⟨c, cs, hcs⟩ := List.exists_cons_of_ne_nil (Nat.toDigits_ne_nil (n := n) (b := 10))
  have hall : ∀ d ∈ c :: cs, d.isDigit := fun d hd =>
    Nat.isDigit_of_mem_toDigits (b := 10) (n := n) (by decide) (by decide) (hcs ▸ hd)
  obtain ⟨hc, hcs'⟩ := List.forall_mem_cons.mp hall
  unfold natural
  rw [hcs, List.cons_append, bind_ok (one_cons hc _)]
  by_cases hn : n = 0
  · subst hn
    rw [Nat.toDigits_zero] at hcs
    obtain ⟨rfl, rfl⟩ := List.cons.inj hcs
    rfl
  · have hne : c ≠ '0' := head_toDigits_ne_zero (Nat.pos_of_ne_zero hn) c (by simp [hcs])
    rw [if_neg hne, bind_ok (run_append hcs' hr), ← hcs, Nat.ofDigitChars_ten_toDigits]
    rfl

theorem isDigits_repr (n : Nat) : Decimal.IsDigits (Nat.repr n).toList := by
  rw [Nat.repr_eq_ofList_toDigits, String.toList_ofList]
  exact Decimal.isDigits_toDigits n

theorem sign_of_isDigits {l : List Char} (hl : Decimal.IsDigits l) (r : List Char) :
    optional (char '-') (l ++ r) = .ok none (l ++ r) := by
  refine optional_fail (char_fail ?_)
  obtain ⟨c, cs, rfl⟩ := List.exists_cons_of_ne_nil hl.1
  have hc : c.isDigit := hl.2 c List.mem_cons_self
  rintro d hd rfl
  obtain rfl : c = '-' := by simpa using hd
  revert hc
  decide

theorem integer_plain (n : Nat) (hr : Stops Char.isDigit r) :
    integer ((Nat.repr n).toList ++ r) =
      if n < 2 ^ 64 then .ok (UInt64.ofNat n) r else .fail r := by
  unfold integer
  rw [bind_ok (sign_of_isDigits (isDigits_repr n) r), bind_ok (natural_eq n hr)]
  by_cases hn : n < 2 ^ 64
  · rw [if_pos hn]
    exact congrFun (if_pos hn) r
  · rw [if_neg hn]
    exact congrFun (if_neg hn) r

theorem toList_minus (s : String) (r : List Char) :
    ("-" ++ s).toList ++ r = '-' :: (s.toList ++ r) := by
  simp

theorem integer_minus (n : Nat) (hr : Stops Char.isDigit r) :
    integer ('-' :: ((Nat.repr n).toList ++ r)) =
      if n ≤ 2 ^ 63 then .ok (UInt64.ofNat (2 ^ 64 - n)) r else .fail r := by
  unfold integer
  rw [bind_ok (optional_ok (char_cons '-' _)), bind_ok (natural_eq n hr)]
  by_cases hn : n ≤ 2 ^ 63
  · rw [if_pos hn]
    exact congrFun (if_pos hn) r
  · rw [if_neg hn]
    exact congrFun (if_neg hn) r

theorem toNat_ofInt (n : Int) : ((UInt64.ofInt n).toNat : Int) = n % 2 ^ 64 := by
  rw [UInt64.ofInt, UInt64.toNat_ofNat']
  omega

theorem ofInt_toNat (bits : UInt64) : UInt64.ofInt bits.toNat = bits := by
  have hlt := bits.toNat_lt
  have hbits := toNat_ofInt bits.toNat
  rw [← UInt64.toNat_inj]
  omega

/-- An integer is read as its value modulo `2 ^ 64` if 64 bits can hold it, with a sign or without. -/
theorem integer_of_spells {text : String} {n : Int} (h : Text.Spells text n)
    (hr : Stops Char.isDigit r) : integer (text.toList ++ r) =
      if -2 ^ 63 ≤ n ∧ n < 2 ^ 64 then .ok (UInt64.ofInt n) r else .fail r := by
  have hbits {k : Nat} (hk : (k : Int) % 2 ^ 64 = n % 2 ^ 64) :
      UInt64.ofNat k = UInt64.ofInt n := by
    have hn := toNat_ofInt n
    rw [← UInt64.toNat_inj, UInt64.toNat_ofNat']
    omega
  cases h with
  | plain m =>
    rw [integer_plain m hr]
    refine if_congr (by omega) ?_ rfl
    rw [hbits rfl]
  | minus m =>
    rw [toList_minus, integer_minus m hr]
    by_cases hm : m ≤ 2 ^ 63
    · rw [if_pos hm, if_pos (by omega), hbits (by omega)]
    · rw [if_neg hm, if_neg (by omega)]

theorem float_fail_of_spells {text : String} {n : Int} (h : Text.Spells text n)
    (hr : Stops Char.isDigit r) (hpoint : ∀ c ∈ r.head?, c ≠ '.') :
    float (text.toList ++ r) = .fail r := by
  obtain ⟨m, sign, hsign⟩ : ∃ (m : Nat) (sign : Option Unit), optional (char '-') (text.toList ++ r) =
      .ok sign ((Nat.repr m).toList ++ r) := by
    cases h with
    | plain m => exact ⟨m, none, sign_of_isDigits (isDigits_repr m) r⟩
    | minus m =>
      rw [toList_minus]
      exact ⟨m, some (), optional_ok (char_cons '-' _)⟩
  have hdigits := isDigits_repr m
  unfold float
  rw [bind_ok hsign, bind_ok (run1_append hdigits.1 hdigits.2 hr), bind_fail (char_fail hpoint)]

theorem head_of_spells {text : String} {n : Int} (h : Text.Spells text n) :
    ∃ c cs, text.toList = c :: cs ∧ (c = '-' ∨ c.isDigit) := by
  cases h with
  | plain m =>
    have hdigits := isDigits_repr m
    obtain ⟨c, cs, hcs⟩ := List.exists_cons_of_ne_nil hdigits.1
    exact ⟨c, cs, hcs, .inr (hdigits.2 c (by simp [hcs]))⟩
  | minus m => exact ⟨'-', (Nat.repr m).toList, by simp, .inl rfl⟩

theorem isWordChar_of_isDigit {c : Char} (h : c.isDigit) : Text.isWordChar c := by
  simp [Text.isWordChar, Char.isAlphanum, h]

theorem float_digits {whole fraction : List Char} (sign : Bool) (hwhole : Decimal.IsDigits whole)
    (hfraction : Decimal.IsDigits fraction) (hr : Stops Text.isWordChar r) :
    float ((if sign then ['-'] else []) ++ (whole ++ '.' :: (fraction ++ r))) =
      .ok (UInt64.ofNat (Decimal.Numeral.toBits
        ⟨Nat.ofDigitChars 10 (whole ++ fraction) 0, -(fraction.length : Int)⟩
          + if sign then Decimal.signBit else 0)) r := by
  have hsign : optional (char '-') ((if sign then ['-'] else []) ++ (whole ++ '.' :: (fraction ++ r)))
      = .ok (if sign then some () else none) (whole ++ '.' :: (fraction ++ r)) := by
    cases sign with
    | true => exact optional_ok (char_cons '-' _)
    | false => exact sign_of_isDigits hwhole _
  have hexponent : optional exponent r = .ok none r := by
    have hstops : Stops (fun c => c == 'e' || c == 'E') r := by
      refine hr.mono fun c hc => ?_
      simp only [Bool.or_eq_true, beq_iff_eq] at hc
      rcases hc with rfl | rfl <;> decide
    exact optional_fail (bind_fail (one_fail hstops))
  unfold float
  rw [bind_ok hsign, bind_ok (run1_append hwhole.1 hwhole.2 (by simp)), bind_ok (char_cons '.' _),
    bind_ok (run1_append hfraction.1 hfraction.2 (hr.mono fun _ => isWordChar_of_isDigit)), bind_ok hexponent]
  cases sign <;> simp

theorem float_eq {bits : UInt64} (h : (Decimal.Binary64.ofBits bits).isFinite)
    (hr : Stops Text.isWordChar r) : float ((Decimal.floatText bits).toList ++ r) = .ok bits r := by
  obtain ⟨n, htext, hbits⟩ := Decimal.floatText_finite h
  obtain ⟨whole, fraction, hn, hwhole, hfraction, hvalue⟩ := n.text_reads
  have hread := float_digits (decide (Decimal.signBit ≤ bits.toNat)) hwhole hfraction hr
  simp only [decide_eq_true_eq, hvalue, hbits, UInt64.ofNat_toNat] at hread
  rw [← hread, htext]
  congr 1
  split <;> simp [hn]

theorem head_floatText {bits : UInt64} (h : (Decimal.Binary64.ofBits bits).isFinite) :
    ∃ c cs, (Decimal.floatText bits).toList = c :: cs ∧ (c = '-' ∨ c.isDigit) := by
  obtain ⟨n, htext, -⟩ := Decimal.floatText_finite h
  obtain ⟨whole, fraction, hn, hwhole, -, -⟩ := n.text_reads
  rw [htext]
  split
  · exact ⟨'-', n.text.toList, by simp, .inl rfl⟩
  · obtain ⟨c, cs, rfl⟩ := List.exists_cons_of_ne_nil hwhole.1
    exact ⟨c, cs ++ '.' :: fraction, by simp [hn], .inr (hwhole.2 c List.mem_cons_self)⟩

end Numbers

end Reader

end RegionIR
