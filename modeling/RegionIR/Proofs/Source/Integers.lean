import RegionIR.Proofs.Source.Attributes

/-! Integers as attributes.

The text of an integer is tried as a float first and then read with its sign. The integers from
`-2 ^ 63` up to `2 ^ 64` are kept modulo `2 ^ 64`, and an operation with any other integer is
refused. What is written is the number of the bits, without a sign, which is read as the same bits. -/

namespace RegionIR

namespace Reader

variable {text : String} {n : Int} {r : List Char}

/-- An integer is an attribute if 64 bits can hold it, and nothing at all otherwise: a type would begin
with a name. -/
theorem attr_of_spells (h : Text.Spells text n) (hr : AttrEnd r) : attr (text.toList ++ r) =
    if -2 ^ 63 ≤ n ∧ n < 2 ^ 64 then .ok (.int (UInt64.ofInt n)) r else .fail (text.toList ++ r) := by
  obtain ⟨c, cs, hcs, hc⟩ := head_of_spells h
  have hno : Stops Text.isNameStart (text.toList ++ r) := by
    rw [hcs, List.cons_append, stops_cons, ← Bool.not_eq_true]
    intro hname
    rcases hc with rfl | hc
    · revert hname
      decide
    · simp [Text.not_isDigit_of_isNameStart hname] at hc
  have hbound (bound : List Char) : attrWithin (c :: bound) (text.toList ++ r) =
      if -2 ^ 63 ≤ n ∧ n < 2 ^ 64 then .ok (.int (UInt64.ofInt n)) r
      else .fail (text.toList ++ r) := by
    have htype : typeWith (typeWithin bound) (attrWithin bound) (text.toList ++ r) =
        .fail (text.toList ++ r) := typeWith_fail hno
    rw [attrWithin, attrWith_of_spells h hr, bind_fail htype]
  have hattr : attr (text.toList ++ r) = attrWithin (c :: (cs ++ r)) (text.toList ++ r) := by
    simp only [attr, hcs, List.cons_append]
  rw [hattr, hbound]

theorem inked_of_spells (h : Text.Spells text n) : Inked text.toList := by
  obtain ⟨c, cs, hcs, hc⟩ := head_of_spells h
  refine ⟨c, cs, hcs, ?_⟩
  rcases hc with rfl | hc
  · decide
  · exact Text.not_isBlank_of_isWordChar (isWordChar_of_isDigit hc)

/-- A dictionary is read if its only value is. -/
theorem dict_of_attr {key : String} {a : Attr Ty} (hkey : Text.isName key)
    (hink : Inked text.toList) (h : ∀ r, AttrEnd r → attr (text.toList ++ r) = .ok a r)
    (r : List Char) :
    (do blanks; dict) ((dictText [key ++ " = " ++ text]).toList ++ r) = .ok [(key, a)] r := by
  have hall : ∀ e ∈ [(key, text, a)], Text.isName e.1 ∧ Inked e.2.1.toList ∧
      ∀ r, AttrEnd r → attr (e.2.1.toList ++ r) = .ok e.2.2 r := by
    rw [List.forall_mem_singleton]
    exact ⟨hkey, hink, h⟩
  have hread := dictWith_append (r := r) hall
  rw [List.map_singleton, List.map_singleton] at hread
  exact hread

/-- A dictionary is refused if its only value is. -/
theorem dict_fail_of_attr {key : String} {t : List Char} (hkey : Text.isName key)
    (hink : Inked text.toList) (h : attr (text.toList ++ '\x7d' :: r) = .fail t) :
    (do blanks; dict) ((dictText [key ++ " = " ++ text]).toList ++ r) = .fail t := by
  have hentry : entryWith attr ((key ++ " = " ++ text).toList ++ '\x7d' :: r) = .fail t := by
    rw [entryWith_append hkey hink, bind_fail h]
  have hstart : Stops isBlank ((key ++ " = " ++ text).toList ++ '\x7d' :: r) := by
    have hinked := (inked_of_isName hkey (" = ".toList ++ text.toList)).stops ('\x7d' :: r)
    simpa using hinked
  have hitems : items1 (spaced (entryWith attr)) (char ',')
      (trimBlanks ((key ++ " = " ++ text).toList ++ '\x7d' :: r)) = .fail t := by
    rw [trimBlanks_of_stops hstart]
    exact items1_fail (spaced_fail (by rw [trimBlanks_of_stops hstart, hentry]))
  have hbrace : isBlank '\x7b' = false := by decide
  have htext : (dictText [key ++ " = " ++ text]).toList ++ r =
      ' ' :: '\x7b' :: ((key ++ " = " ++ text).toList ++ '\x7d' :: r) := by
    simp [toList_dictText, Text.joinWith]
  rw [htext, bind_ok (blanks_eq _), trimBlanks_space, trimBlanks_cons hbrace]
  exact between_fail_inside hitems

end Reader

namespace Context

/-- Where the text is the value of the only attribute of an operation, this operation is created with
the attribute. -/
def ReadsAttr (ctx : Context) (text : String) (a : Attr Ty) : Prop :=
  ∃ id ctx' op, ctx.parse (attrSource text) = (.ok id, ctx') ∧ ctx'.op id = .ok op ∧
    op.attrs = [("a", a)]

variable {text : String} {n : Int}

theorem readsAttr_of_spells (ctx : Context) (h : Text.Spells text n) (hlow : -2 ^ 63 ≤ n)
    (hhigh : n < 2 ^ 64) : ctx.ReadsAttr text (.int (UInt64.ofInt n)) := by
  have hname : Text.isName "a" := by decide
  have hread (r : List Char) (hr : AttrEnd r) :
      Reader.attr (text.toList ++ r) = .ok (.int (UInt64.ofInt n)) r := by
    rw [Reader.attr_of_spells h hr, if_pos ⟨hlow, hhigh⟩]
  have hbraces := Reader.dict_of_attr hname (Reader.inked_of_spells h) hread []
  rw [List.append_nil] at hbraces
  obtain ⟨id, scope, ctx', op, hgives, hop, hattrs⟩ := ctx.gives_bare
    { dialect := "t", name := "t", attrs := [("a", .int (UInt64.ofInt n))] } rfl rfl rfl
  exact ⟨id, ctx', op, parse_eq_ok_iff.mpr ⟨_, scope, parse_attrSource hbraces, hgives⟩,
    op_eq_ok.mpr hop, hattrs⟩

theorem parse_of_spells_outside (ctx : Context) (h : Text.Spells text n)
    (hn : ¬(-2 ^ 63 ≤ n ∧ n < 2 ^ 64)) :
    ctx.parse (attrSource text) = (.error (.rejected ⟨syntaxMessage, 6⟩), ctx) := by
  have hname : Text.isName "a" := by decide
  have hfail := Reader.attr_of_spells h (r := ['\x7d']) ⟨'\x7d', [], rfl, by simp⟩
  rw [if_neg hn] at hfail
  have hbraces := Reader.dict_fail_of_attr (r := []) hname (Reader.inked_of_spells h) hfail
  rw [List.append_nil] at hbraces
  rw [parse, parse_attrSource_of_fail hbraces]

/-- An integer is read as its value modulo `2 ^ 64`, and written as that number, if 64 bits can hold
it, with a sign or without. Any other integer is refused. All bits are read back from their text. -/
theorem parse_integer (ctx : Context) :
    (∀ text n, Text.Spells text n → -2 ^ 63 ≤ n → n < 2 ^ 64 →
      ∃ bits : UInt64, ctx.ReadsAttr text (.int bits) ∧ (bits.toNat : Int) = n % 2 ^ 64 ∧
        (Attr.int bits).text = Nat.repr (n % 2 ^ 64).toNat) ∧
    (∀ text n, Text.Spells text n → ¬(-2 ^ 63 ≤ n ∧ n < 2 ^ 64) →
      ctx.parse (attrSource text) = (.error (.rejected ⟨syntaxMessage, 6⟩), ctx)) ∧
    ∀ bits : UInt64, ctx.ReadsAttr (Attr.int bits).text (.int bits) := by
  refine ⟨fun text n h hlow hhigh => ?_, fun text n h => ctx.parse_of_spells_outside h, fun bits => ?_⟩
  · have hbits := Reader.toNat_ofInt n
    refine ⟨UInt64.ofInt n, ctx.readsAttr_of_spells h hlow hhigh, hbits, ?_⟩
    rw [Attr.text, ← hbits, Int.toNat_natCast]
  · have hlt := bits.toNat_lt
    have hread := ctx.readsAttr_of_spells (.plain bits.toNat) (by omega) (by omega)
    rwa [Reader.ofInt_toNat] at hread

/-- The integers at the limits and the ones next to them. -/
theorem parse_integer_limits :
    Text.Spells "-9223372036854775808" (-2 ^ 63) ∧ Text.Spells "-9223372036854775809" (-2 ^ 63 - 1) ∧
      Text.Spells "18446744073709551615" (2 ^ 64 - 1) ∧ Text.Spells "18446744073709551616" (2 ^ 64) ∧
      (∃ bits : UInt64, ReadsAttr {} "-9223372036854775808" (.int bits) ∧ (bits.toNat : Int) = 2 ^ 63) ∧
      parse {} (attrSource "-9223372036854775809") = (.error (.rejected ⟨syntaxMessage, 6⟩), {}) ∧
      (∃ bits : UInt64, ReadsAttr {} "18446744073709551615" (.int bits) ∧
        (bits.toNat : Int) = 2 ^ 64 - 1) ∧
      parse {} (attrSource "18446744073709551616") = (.error (.rejected ⟨syntaxMessage, 6⟩), {}) := by
  have hlow : Text.Spells "-9223372036854775808" (-2 ^ 63) := .minus 9223372036854775808
  have hbelow : Text.Spells "-9223372036854775809" (-2 ^ 63 - 1) := .minus 9223372036854775809
  have hhigh : Text.Spells "18446744073709551615" (2 ^ 64 - 1) := .plain 18446744073709551615
  have habove : Text.Spells "18446744073709551616" (2 ^ 64) := .plain 18446744073709551616
  obtain ⟨b, hb, hvalue, -⟩ := (parse_integer {}).1 _ _ hlow (by decide) (by decide)
  obtain ⟨b', hb', hvalue', -⟩ := (parse_integer {}).1 _ _ hhigh (by decide) (by decide)
  exact ⟨hlow, hbelow, hhigh, habove, ⟨b, hb, hvalue⟩,
    (parse_integer {}).2.1 _ _ hbelow (by decide), ⟨b', hb', hvalue'⟩,
    (parse_integer {}).2.1 _ _ habove (by decide)⟩

end Context

end RegionIR
