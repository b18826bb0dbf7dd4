import RegionIR.Proofs.Source.Heads
import RegionIR.Source.Parse

/-! Operations are read as they were written.

The text of an operation determines it up to the positions that the operations in it are given. A
region must not lie flat in the text: of an only block without arguments the label is left out, and
without operations nothing of the block would be left. -/

namespace RegionIR

mutual

/-- The operation with no operation in it at a position. -/
def SourceOp.unplaced : SourceOp → SourceOp
  | .mk head regions => .mk { head with offset := 0 } (SourceRegion.allUnplaced regions)

def SourceRegion.unplaced : SourceRegion → SourceRegion
  | .mk blocks => .mk (SourceBlock.allUnplaced blocks)

def SourceBlock.unplaced : SourceBlock → SourceBlock
  | .mk label args ops => .mk label args (SourceOp.allUnplaced ops)

def SourceOp.allUnplaced : List SourceOp → List SourceOp
  | [] => []
  | op :: rest => op.unplaced :: SourceOp.allUnplaced rest

def SourceRegion.allUnplaced : List SourceRegion → List SourceRegion
  | [] => []
  | r :: rest => r.unplaced :: SourceRegion.allUnplaced rest

def SourceBlock.allUnplaced : List SourceBlock → List SourceBlock
  | [] => []
  | b :: rest => b.unplaced :: SourceBlock.allUnplaced rest

end

mutual

/-- Whether the operation is read back from its text. -/
def SourceOp.isReadable : SourceOp → Bool
  | .mk head regions => head.isReadable && SourceRegion.areReadable regions

def SourceRegion.isReadable : SourceRegion → Bool
  | .mk [.mk label [] ops] =>
    label == SourceBlock.implicitLabel && !ops.isEmpty && SourceOp.areReadable ops
  | .mk blocks => SourceBlock.areReadable blocks

def SourceBlock.isReadable : SourceBlock → Bool
  | .mk label args ops =>
    Text.isWord label && args.all (fun a => Text.isWord a.1 && a.2.isReadable)
      && SourceOp.areReadable ops

def SourceOp.areReadable : List SourceOp → Bool
  | [] => true
  | op :: rest => op.isReadable && SourceOp.areReadable rest

def SourceRegion.areReadable : List SourceRegion → Bool
  | [] => true
  | r :: rest => r.isReadable && SourceRegion.areReadable rest

def SourceBlock.areReadable : List SourceBlock → Bool
  | [] => true
  | b :: rest => b.isReadable && SourceBlock.areReadable rest

end

section Lists

theorem SourceOp.allUnplaced_eq (ops : List SourceOp) :
    SourceOp.allUnplaced ops = ops.map SourceOp.unplaced := by
  induction ops with
  | nil => rfl
  | cons o ops ih => rw [SourceOp.allUnplaced, ih, List.map_cons]

theorem SourceRegion.allUnplaced_eq (regions : List SourceRegion) :
    SourceRegion.allUnplaced regions = regions.map SourceRegion.unplaced := by
  induction regions with
  | nil => rfl
  | cons g regions ih => rw [SourceRegion.allUnplaced, ih, List.map_cons]

theorem SourceBlock.allUnplaced_eq (blocks : List SourceBlock) :
    SourceBlock.allUnplaced blocks = blocks.map SourceBlock.unplaced := by
  induction blocks with
  | nil => rfl
  | cons b blocks ih => rw [SourceBlock.allUnplaced, ih, List.map_cons]

theorem SourceOp.areReadable_iff {ops : List SourceOp} :
    SourceOp.areReadable ops ↔ ∀ o ∈ ops, o.isReadable := by
  induction ops with
  | nil => simp [SourceOp.areReadable]
  | cons o ops ih => simp [SourceOp.areReadable, ih]

theorem SourceRegion.areReadable_iff {regions : List SourceRegion} :
    SourceRegion.areReadable regions ↔ ∀ g ∈ regions, g.isReadable := by
  induction regions with
  | nil => simp [SourceRegion.areReadable]
  | cons g regions ih => simp [SourceRegion.areReadable, ih]

theorem SourceBlock.areReadable_iff {blocks : List SourceBlock} :
    SourceBlock.areReadable blocks ↔ ∀ b ∈ blocks, b.isReadable := by
  induction blocks with
  | nil => simp [SourceBlock.areReadable]
  | cons b blocks ih => simp [SourceBlock.areReadable, ih]

theorem SourceBlock.isReadable_iff {label : String} {args : List (String × Ty)}
    {ops : List SourceOp} : (SourceBlock.mk label args ops).isReadable ↔ Text.isWord label ∧
      (∀ a ∈ args, Text.isWord a.1 ∧ a.2.isReadable) ∧ ∀ o ∈ ops, o.isReadable := by
  simp only [SourceBlock.isReadable, Bool.and_eq_true, List.all_eq_true, SourceOp.areReadable_iff,
    and_assoc]

/-- The text of a region with its braces. -/
def SourceRegion.braced (indent : Nat) (g : SourceRegion) : List Char :=
  ' ' :: '\x7b' :: '\n' :: ((g.text indent).toList ++ ((Text.spaces indent).toList ++ ['\x7d']))

theorem SourceOp.toList_texts (indent : Nat) (ops : List SourceOp) :
    (SourceOp.texts indent ops).toList = ops.flatMap fun o => (o.text indent).toList := by
  induction ops with
  | nil => rfl
  | cons o ops ih => simp [SourceOp.texts, ih]

theorem SourceRegion.toList_texts (indent : Nat) (regions : List SourceRegion) :
    (SourceRegion.texts indent regions).toList = regions.flatMap (SourceRegion.braced indent) := by
  induction regions with
  | nil => rfl
  | cons g regions ih => simp [SourceRegion.texts, ih, SourceRegion.braced]

theorem SourceBlock.toList_texts (indent : Nat) (b : SourceBlock) (blocks : List SourceBlock) :
    '\n' :: (SourceBlock.texts indent (b :: blocks)).toList =
      (b :: blocks).flatMap fun b => '\n' :: (b.text indent).toList := by
  induction blocks generalizing b with
  | nil => simp [SourceBlock.texts]
  | cons c blocks ih => simpa [SourceBlock.texts] using ih c

theorem SourceOp.toList_text (indent : Nat) (h : SourceHead) (regions : List SourceRegion)
    (r : List Char) : ((SourceOp.mk h regions).text indent).toList ++ r =
      (Text.spaces indent).toList ++ (h.text.toList ++
        (regions.flatMap (SourceRegion.braced indent) ++ '\n' :: r)) := by
  simp [SourceOp.text, SourceRegion.toList_texts]

theorem length_le_flatMap {γ : Type} {f : γ → List Char} {l : List γ} {c : γ} (h : c ∈ l) :
    (f c).length ≤ (l.flatMap f).length := by
  rw [List.length_flatMap]
  exact List.single_le_sum (by simp) _ (List.mem_map_of_mem h)

end Lists

/-- What follows an operation and its line break: nothing that the operation would take up. -/
def OpEnd (r : List Char) : Prop :=
  ∀ c ∈ (trimBlanks r).head?, c ∉ ['@', ',', '[', ':', '\x7b']

/-- A text that begins as an operation does. -/
def OpStart (s : List Char) : Prop :=
  (∃ t, s = '%' :: t) ∨ ∃ d t, Text.isName d ∧ s = d.toList ++ '.' :: t

theorem OpStart.head {s : List Char} (h : OpStart s) : ∃ c t, s = c :: t ∧
    Reader.isBlank c = false ∧ c ∉ ['@', ',', '[', ':', '\x7b', '^', '\x7d'] := by
  rcases h with ⟨t, rfl⟩ | ⟨d, t, hd, rfl⟩
  · exact ⟨'%', t, rfl, by decide, by decide⟩
  · obtain ⟨c, cs, hs, hc, -⟩ := Text.isName_iff.mp hd
    refine ⟨c, cs ++ '.' :: t, by simp [hs],
      Text.not_isBlank_of_isWordChar (Text.isWordChar_of_isNameStart hc), fun hmem => ?_⟩
    have hmarks : ∀ c ∈ ['@', ',', '[', ':', '\x7b', '^', '\x7d'], Text.isNameStart c = false := by
      simp only [List.forall_mem_cons, List.not_mem_nil, false_implies, implies_true]
      decide
    rw [hmarks c hmem] at hc
    simp at hc

theorem SourceHead.opStart {h : SourceHead} (hh : h.isReadable) (r : List Char) :
    OpStart (h.text.toList ++ r) := by
  obtain ⟨-, hdialect, -⟩ := SourceHead.isReadable_iff.mp hh
  rw [SourceHead.toList_text]
  cases h.results with
  | nil => exact .inr ⟨h.dialect, _, hdialect, rfl⟩
  | cons n names => exact .inl ⟨_, by simp [resultsText, toList_joinWith, valueText]; rfl⟩

theorem SourceOp.opStart {o : SourceOp} (ho : o.isReadable) (indent : Nat) (r : List Char) :
    OpStart (trimBlanks ((o.text indent).toList ++ r)) := by
  obtain ⟨h, regions⟩ := o
  rw [SourceOp.isReadable, Bool.and_eq_true] at ho
  have hstart := SourceHead.opStart ho.1 (regions.flatMap (SourceRegion.braced indent) ++ '\n' :: r)
  obtain ⟨c, t, hs, hblank, -⟩ := hstart.head
  rwa [SourceOp.toList_text, trimBlanks_spaces, hs, trimBlanks_cons hblank, ← hs]

theorem OpStart.opEnd {r : List Char} (h : OpStart (trimBlanks r)) : OpEnd r := by
  obtain ⟨c, t, hs, -, hmarks⟩ := h.head
  intro d hd hmem
  rw [hs, List.head?_cons, Option.mem_some_iff] at hd
  subst hd
  simp only [List.mem_cons, List.not_mem_nil, or_false] at hmem hmarks
  tauto

/-- What follows the operations of a block: a label, a closing brace or nothing. -/
def OpsEnd (r : List Char) : Prop :=
  ∀ c ∈ (trimBlanks r).head?, c = '^' ∨ c = '\x7d'

theorem OpsEnd.opEnd {r : List Char} (h : OpsEnd r) : OpEnd r := by
  intro c hc
  rcases h c hc with rfl | rfl <;> decide

namespace Reader

/-- Operations whose text is no longer than the bound are read back, up to their positions. -/
def ReadsOps (op : Reader SourceOp) (bound : Nat) : Prop :=
  ∀ (o : SourceOp) (indent : Nat) (r : List Char), o.isReadable →
    (o.text indent).toList.length ≤ bound → OpEnd r →
      ∃ o' t, op (trimBlanks ((o.text indent).toList ++ r)) = .ok o' t ∧
        o'.unplaced = o.unplaced ∧ trimBlanks t = trimBlanks r

variable {op : Reader SourceOp} {bound : Nat}

theorem opsWith_eq (hop : ReadsOps op bound) {ops : List SourceOp} {indent : Nat}
    (hops : ∀ o ∈ ops, o.isReadable) (hlen : (SourceOp.texts indent ops).toList.length ≤ bound)
    {r s : List Char} (hr : OpsEnd r)
    (hs : trimBlanks s = trimBlanks ((SourceOp.texts indent ops).toList ++ r)) :
    ∃ ops', opsWith op s = .ok ops' (trimBlanks r) ∧
      ops'.map SourceOp.unplaced = ops.map SourceOp.unplaced := by
  rw [SourceOp.toList_texts] at hs hlen
  refine many_eq (E := OpEnd) (fun o ho r hr => ⟨?_, ?_⟩) (fun o ho r _ => ?_)
    (fun o ho => ?_) hr.opEnd ?_ hs
  · obtain ⟨c, t, hs, -, hmarks⟩ := (SourceOp.opStart (hops o ho) indent r).head
    simp only [List.mem_cons, List.not_mem_nil, or_false, not_or] at hmarks
    simp [hs, hmarks]
  · exact hop o indent r (hops o ho) ((length_le_flatMap ho).trans hlen) hr
  · exact (SourceOp.opStart (hops o ho) indent r).opEnd
  · obtain ⟨c, t, hs, hblank, -⟩ := (SourceOp.opStart (hops o ho) indent []).head
    refine ⟨c, ?_, hblank⟩
    have hmem : c ∈ trimBlanks ((o.text indent).toList ++ []) := by
      rw [hs]
      exact List.mem_cons_self
    simpa using (List.dropWhile_sublist _).subset hmem
  · cases hc : trimBlanks r with
    | nil => rfl
    | cons c t =>
      rcases hr c (by simp [hc]) with rfl | rfl <;> simp

/-- The text of an argument of a block. -/
def argText (a : String × Ty) : String := valueText a.1 ++ ": " ++ a.2.text

theorem blockArgs_part {args : List (String × Ty)}
    (h : ∀ a ∈ args, Text.isWord a.1 ∧ a.2.isReadable) (r : List Char) :
    ReadsPart blockArgs args ((argsText args).toList ++ ':' :: r) (':' :: r) := by
  cases args with
  | nil => exact ⟨none, optional_fail (listed_fail (by simp [argsText])), rfl⟩
  | cons a args =>
    refine ⟨some (a :: args), optional_ok ?_, rfl⟩
    have htext : (argsText (a :: args)).toList ++ ':' :: r =
        '(' :: ((Text.joinWith ", " ((a :: args).map argText)).toList ++ ')' :: ':' :: r) := by
      have hmap : (a :: args).map (fun a => valueText a.1 ++ ": " ++ a.2.text) =
          (a :: args).map argText := rfl
      simp [argsText, hmap]
    rw [htext]
    refine listed_eq (E := TypeEnd) (by decide) (by decide) (fun b hb => ⟨?_, fun r hr => ?_⟩)
      (fun s => typeEnd_cons (by simp) s) (typeEnd_cons (by simp) _)
      (bind_fail (valueName_fail (by simp)))
    · exact ⟨'%', b.1.toList ++ (": " ++ b.2.text).toList, by simp [argText, valueText], by decide⟩
    · obtain ⟨hname, htype⟩ := h b hb
      have htext : (argText b).toList ++ r =
          (valueText b.1).toList ++ ':' :: ' ' :: (b.2.text.toList ++ r) := by simp [argText]
      rw [htext, bind_ok (valueName_text hname (by simp [Text.isWordChar])), bind_ok (blanks_eq _),
        trimBlanks_cons (by decide), bind_ok (char_cons ':' _), bind_ok (blanks_eq _),
        trimBlanks_space, trimBlanks_of_stops ((inked_type htype).stops r),
        bind_ok (type_eq htype hr)]
      rfl

theorem blockWith_eq (hop : ReadsOps op bound) {b : SourceBlock} {indent : Nat}
    (hb : b.isReadable) (hlen : (b.text indent).toList.length ≤ bound) {r : List Char}
    (hr : OpsEnd r) :
    ∃ b', blockWith op (trimBlanks ((b.text indent).toList ++ r)) = .ok b' (trimBlanks r) ∧
      b'.unplaced = b.unplaced := by
  obtain ⟨label, args, ops⟩ := b
  obtain ⟨hlabel, hargs, hops⟩ := SourceBlock.isReadable_iff.mp hb
  have htext : ((SourceBlock.mk label args ops).text indent).toList ++ r =
      (Text.spaces (indent + 2)).toList ++ ((labelText label).toList ++ ((argsText args).toList ++
        ':' :: '\n' :: ((SourceOp.texts (indent + 4) ops).toList ++ r))) := by
    simp [SourceBlock.text]
  have hlen' : (SourceOp.texts (indent + 4) ops).toList.length ≤ bound := by
    refine le_trans ?_ hlen
    simp only [SourceBlock.text, String.toList_append, List.length_append]
    omega
  obtain ⟨args', hreadArgs, hargsD⟩ :=
    blockArgs_part hargs ('\n' :: ((SourceOp.texts (indent + 4) ops).toList ++ r))
  obtain ⟨ops', hreadOps, hopsD⟩ :=
    opsWith_eq hop hops hlen' hr (trimBlanks_newline ((SourceOp.texts (indent + 4) ops).toList ++ r))
  have hstop : Stops Text.isWordChar ((argsText args).toList ++
      ':' :: '\n' :: ((SourceOp.texts (indent + 4) ops).toList ++ r)) := by
    cases args with
    | nil => simp [argsText, Text.isWordChar]
    | cons a args => simp [argsText, Text.isWordChar]
  have hink : Stops isBlank ((labelText label).toList ++ ((argsText args).toList ++
      ':' :: '\n' :: ((SourceOp.texts (indent + 4) ops).toList ++ r))) :=
    (inked_labelText label).stops _
  refine ⟨.mk label (args'.getD []) ops', ?_, ?_⟩
  · unfold blockWith
    rw [htext, trimBlanks_spaces, bind_ok (blanks_eq _), trimBlanks_trimBlanks,
      trimBlanks_of_stops hink, bind_ok (blockLabel_text hlabel hstop), bind_ok hreadArgs,
      bind_ok (blanks_eq _), trimBlanks_cons (by decide), bind_ok (char_cons ':' _),
      bind_ok hreadOps]
    rfl
  · rw [SourceBlock.unplaced, SourceBlock.unplaced, SourceOp.allUnplaced_eq,
      SourceOp.allUnplaced_eq, hopsD, hargsD]

theorem head_blockText (b : SourceBlock) (indent : Nat) (r : List Char) :
    ∃ t, trimBlanks ((b.text indent).toList ++ r) = '^' :: t := by
  obtain ⟨label, args, ops⟩ := b
  refine ⟨label.toList ++ ((argsText args).toList ++
    ':' :: '\n' :: ((SourceOp.texts (indent + 4) ops).toList ++ r)), ?_⟩
  have htext : ((SourceBlock.mk label args ops).text indent).toList ++ r =
      (Text.spaces (indent + 2)).toList ++ '^' :: (label.toList ++ ((argsText args).toList ++
        ':' :: '\n' :: ((SourceOp.texts (indent + 4) ops).toList ++ r))) := by
    simp [SourceBlock.text, labelText]
  rw [htext, trimBlanks_spaces, trimBlanks_cons (by decide)]

theorem trimBlanks_blockTexts (indent : Nat) (b : SourceBlock) (blocks : List SourceBlock)
    (r : List Char) : trimBlanks ((SourceBlock.texts indent (b :: blocks)).toList ++ r) =
      trimBlanks ((b :: blocks).flatMap (fun c => '\n' :: (c.text indent).toList) ++ r) := by
  rw [← SourceBlock.toList_texts]
  rfl

theorem head_blockTexts (indent : Nat) (b : SourceBlock) (blocks : List SourceBlock)
    (r : List Char) :
    ∃ t, trimBlanks ((SourceBlock.texts indent (b :: blocks)).toList ++ r) = '^' :: t := by
  obtain ⟨t, ht⟩ := head_blockText b indent
    (blocks.flatMap (fun c => '\n' :: (c.text indent).toList) ++ r)
  refine ⟨t, ?_⟩
  rw [trimBlanks_blockTexts, List.flatMap_cons, List.append_assoc, List.cons_append,
    trimBlanks_newline, ht]

theorem labelled_eq (hop : ReadsOps op bound) {b : SourceBlock} {blocks : List SourceBlock}
    {indent : Nat} (hblocks : ∀ c ∈ b :: blocks, c.isReadable)
    (hlen : (SourceBlock.texts indent (b :: blocks)).toList.length ≤ bound) {r : List Char}
    (hend : OpsEnd r) (hr : (trimBlanks r).head? = some '\x7d') :
    ∃ blocks', blocksWith op (trimBlanks ((SourceBlock.texts indent (b :: blocks)).toList ++ r)) =
      .ok blocks' (trimBlanks r) ∧
        blocks'.map SourceBlock.unplaced = (b :: blocks).map SourceBlock.unplaced := by
  have htexts := SourceBlock.toList_texts indent b blocks
  have hlen' (c : SourceBlock) (hc : c ∈ b :: blocks) : (c.text indent).toList.length ≤ bound := by
    have hle := length_le_flatMap (f := fun c => '\n' :: (c.text indent).toList) hc
    rw [← htexts] at hle
    simp only [List.length_cons] at hle
    omega
  have htrim := trimBlanks_blockTexts indent b blocks r
  obtain ⟨t, ht⟩ := head_blockTexts indent b blocks r
  suffices hread : ∃ blocks', many (fun s => s.head? = some '^') (blockWith op)
      (trimBlanks ((SourceBlock.texts indent (b :: blocks)).toList ++ r)) =
        .ok blocks' (trimBlanks r) ∧
          blocks'.map SourceBlock.unplaced = (b :: blocks).map SourceBlock.unplaced by
    obtain ⟨blocks', hread, hmap⟩ := hread
    refine ⟨blocks', ?_, hmap⟩
    unfold blocksWith
    rw [bind_ok (ahead_eq _), if_pos (by rw [ht]; rfl), hread]
  refine many_eq (E := OpsEnd) (fun c hc r hr => ⟨?_, ?_⟩) (fun c _ r _ => ?_) (fun c _ => ?_) hend
    (by simp [hr]) ((trimBlanks_trimBlanks _).trans htrim)
  · obtain ⟨t, ht⟩ := head_blockText c indent r
    rw [List.cons_append, trimBlanks_newline, ht]
    rfl
  · obtain ⟨c', hread, hstrip⟩ := blockWith_eq hop (hblocks c hc) (hlen' c hc) hr
    exact ⟨c', trimBlanks r, hread, hstrip, trimBlanks_trimBlanks r⟩
  · obtain ⟨t, ht⟩ := head_blockText c indent r
    intro d hd
    rw [List.cons_append, trimBlanks_newline, ht] at hd
    exact .inl (by simpa using hd.symm)
  · refine ⟨'^', ?_, by decide⟩
    obtain ⟨t, ht⟩ := head_blockText c indent []
    rw [List.append_nil] at ht
    have hmem : '^' ∈ trimBlanks (c.text indent).toList := by
      rw [ht]
      exact List.mem_cons_self
    exact List.mem_cons_of_mem _ ((List.dropWhile_sublist _).subset hmem)

theorem blocksWith_eq (hop : ReadsOps op bound) {g : SourceRegion} {indent : Nat}
    (hg : g.isReadable) (hlen : (g.text indent).toList.length ≤ bound) {r : List Char}
    (hr : (trimBlanks r).head? = some '\x7d') :
    ∃ blocks, blocksWith op (trimBlanks ((g.text indent).toList ++ r)) = .ok blocks (trimBlanks r) ∧
      (SourceRegion.mk blocks).unplaced = g.unplaced := by
  have hend : OpsEnd r := by
    intro c hc
    rw [hr] at hc
    exact .inr (by simpa using hc.symm)
  unfold SourceRegion.isReadable at hg
  split at hg
  case h_1 label ops =>
    simp only [Bool.and_eq_true, beq_iff_eq, Bool.not_eq_true', List.isEmpty_eq_false_iff,
      SourceOp.areReadable_iff] at hg
    obtain ⟨⟨rfl, hne⟩, hops⟩ := hg
    rw [SourceRegion.text] at hlen ⊢
    obtain ⟨ops', hread, hmap⟩ := opsWith_eq hop hops hlen hend
      (trimBlanks_trimBlanks ((SourceOp.texts (indent + 2) ops).toList ++ r))
    have hstart : OpStart (trimBlanks ((SourceOp.texts (indent + 2) ops).toList ++ r)) := by
      obtain ⟨o, ops, rfl⟩ := List.exists_cons_of_ne_nil hne
      rw [SourceOp.texts, String.toList_append, List.append_assoc]
      exact SourceOp.opStart (hops o List.mem_cons_self) _ _
    obtain ⟨c, t, hs, -, hmarks⟩ := hstart.head
    simp only [List.mem_cons, List.not_mem_nil, or_false, not_or] at hmarks
    refine ⟨[.mk SourceBlock.implicitLabel [] ops'], ?_, ?_⟩
    · unfold blocksWith
      rw [bind_ok (ahead_eq _), if_neg (by simp [hs, hmarks]), if_neg (by simp [hs, hmarks]),
        bind_ok hread]
      rfl
    · simp only [SourceRegion.unplaced, SourceBlock.allUnplaced, SourceBlock.unplaced,
        SourceOp.allUnplaced_eq, hmap]
  case h_2 blocks hflat =>
    rw [SourceRegion.text.eq_2 _ _ hflat] at hlen ⊢
    rw [SourceBlock.areReadable_iff] at hg
    cases blocks with
    | nil =>
      refine ⟨[], ?_, rfl⟩
      rw [SourceBlock.texts, show "".toList ++ r = r from rfl]
      unfold blocksWith
      rw [bind_ok (ahead_eq _), if_neg (by simp [hr]), if_pos hr]
      rfl
    | cons b blocks =>
      obtain ⟨blocks', hread, hmap⟩ := labelled_eq hop hg hlen hend hr
      refine ⟨blocks', hread, ?_⟩
      rw [SourceRegion.unplaced, SourceRegion.unplaced, SourceBlock.allUnplaced_eq,
        SourceBlock.allUnplaced_eq, hmap]

theorem regionWith_eq (hop : ReadsOps op bound) {g : SourceRegion} {indent : Nat}
    (hg : g.isReadable) (hlen : (g.text indent).toList.length ≤ bound) (r : List Char) :
    ∃ g', regionWith op (trimBlanks (g.braced indent ++ r)) = .ok g' r ∧
      g'.unplaced = g.unplaced := by
  have htext : trimBlanks (g.braced indent ++ r) = '\x7b' :: '\n' :: ((g.text indent).toList ++
      ((Text.spaces indent).toList ++ '\x7d' :: r)) := by
    simp [SourceRegion.braced, trimBlanks_cons (show isBlank '\x7b' = false by decide)]
  have hclose : trimBlanks ((Text.spaces indent).toList ++ '\x7d' :: r) = '\x7d' :: r := by
    rw [trimBlanks_spaces, trimBlanks_cons (by decide)]
  obtain ⟨blocks, hread, hstrip⟩ :=
    blocksWith_eq hop hg hlen (r := (Text.spaces indent).toList ++ '\x7d' :: r) (by rw [hclose]; rfl)
  refine ⟨.mk blocks, ?_, hstrip⟩
  rw [hclose] at hread
  unfold regionWith
  rw [htext, bind_ok (between_ok (by rw [trimBlanks_newline, hread]) (trimBlanks_cons (by decide) r))]
  rfl

theorem entryWith_fail (attr : Reader (Attr Ty)) {s : List Char}
    (h : OpStart s ∨ ∀ c ∈ s.head?, c = '^' ∨ c = '\x7d') : ∃ t, entryWith attr s = .fail t := by
  have hno (hs : Stops Text.isNameStart s) : ∃ t, entryWith attr s = .fail t :=
    ⟨s, by
      unfold entryWith
      rw [bind_fail (name_fail hs)]⟩
  rcases h with (⟨t, rfl⟩ | ⟨d, t, hd, rfl⟩) | h
  · exact hno (by simp [Text.isNameStart])
  · refine ⟨'.' :: t, ?_⟩
    unfold entryWith
    rw [bind_ok (name_eq hd (by simp [Text.isWordChar])), bind_ok (blanks_eq _),
      trimBlanks_cons (by decide), bind_fail (char_fail (by simp))]
  · refine hno fun c hc => ?_
    rcases h c hc with rfl | rfl <;> decide

theorem regionStart {g : SourceRegion} (hg : g.isReadable) (indent : Nat) {r : List Char}
    (hr : (trimBlanks r).head? = some '\x7d') :
    OpStart (trimBlanks ((g.text indent).toList ++ r)) ∨
      ∀ c ∈ (trimBlanks ((g.text indent).toList ++ r)).head?, c = '^' ∨ c = '\x7d' := by
  unfold SourceRegion.isReadable at hg
  split at hg
  case h_1 label ops =>
    simp only [Bool.and_eq_true, Bool.not_eq_true', List.isEmpty_eq_false_iff,
      SourceOp.areReadable_iff] at hg
    obtain ⟨o, ops, rfl⟩ := List.exists_cons_of_ne_nil hg.1.2
    rw [SourceRegion.text, SourceOp.texts, String.toList_append, List.append_assoc]
    exact .inl (SourceOp.opStart (hg.2 o List.mem_cons_self) _ _)
  case h_2 blocks hflat =>
    rw [SourceRegion.text.eq_2 _ _ hflat]
    right
    cases blocks with
    | nil =>
      intro c hc
      rw [SourceBlock.texts, show "".toList ++ r = r from rfl, hr] at hc
      exact .inr (by simpa using hc.symm)
    | cons b blocks =>
      obtain ⟨t, ht⟩ := head_blockTexts indent b blocks r
      intro c hc
      rw [ht] at hc
      exact .inl (by simpa using hc.symm)

theorem noDict_braced {g : SourceRegion} (hg : g.isReadable) (indent : Nat) (r : List Char) :
    NoDict (g.braced indent ++ r) := by
  intro attr
  have htext : g.braced indent ++ r = ' ' :: '\x7b' :: '\n' :: ((g.text indent).toList ++
      ((Text.spaces indent).toList ++ '\x7d' :: r)) := by
    simp [SourceRegion.braced]
  have hclose : (trimBlanks ((Text.spaces indent).toList ++ '\x7d' :: r)).head? = some '\x7d' := by
    rw [trimBlanks_spaces, trimBlanks_cons (by decide), List.head?_cons]
  obtain ⟨t, ht⟩ := entryWith_fail attr (regionStart hg indent hclose)
  refine ⟨t, ?_⟩
  rw [htext, bind_ok (blanks_eq _), trimBlanks_space, trimBlanks_cons (by decide)]
  refine between_fail_inside (items1_fail (spaced_fail ?_))
  rw [trimBlanks_trimBlanks, trimBlanks_newline, ht]

theorem lineEnd_regions {regions : List SourceRegion} (h : ∀ g ∈ regions, g.isReadable)
    (indent : Nat) {r : List Char} (hr : OpEnd r) :
    LineEnd (regions.flatMap (SourceRegion.braced indent) ++ '\n' :: r) := by
  cases regions with
  | nil =>
    refine ⟨⟨by simp [Text.isWordChar], by simp, noDict_of_head fun c hc hcc => ?_⟩, by simp,
      fun c hc hmem => ?_⟩
    · exact hr c (by simpa using hc) (by simp [hcc])
    · refine hr c (by simpa using hc) ?_
      simp only [List.mem_cons, List.not_mem_nil, or_false] at hmem ⊢
      tauto
  | cons g regions =>
    rw [List.flatMap_cons, List.append_assoc]
    refine ⟨⟨by simp [SourceRegion.braced, Text.isWordChar], by simp [SourceRegion.braced],
      noDict_braced (h g List.mem_cons_self) indent _⟩, by simp [SourceRegion.braced], ?_⟩
    rw [SourceRegion.braced, List.cons_append, trimBlanks_space, List.cons_append,
      trimBlanks_cons (by decide)]
    simp

theorem opWithin_eq (total : Nat) (bound : List Char) : ReadsOps (opWithin total bound) bound.length := by
  induction bound with
  | nil =>
    intro o indent r ho hlen
    obtain ⟨c, t, hs, -, -⟩ := (SourceOp.opStart ho indent []).head
    have hnil : (o.text indent).toList = [] := List.eq_nil_of_length_eq_zero (by simpa using hlen)
    simp [hnil] at hs
  | cons b bound ih =>
    intro o indent r ho hlen hr
    obtain ⟨h, regions⟩ := o
    rw [SourceOp.isReadable, Bool.and_eq_true, SourceRegion.areReadable_iff] at ho
    obtain ⟨hh, hregions⟩ := ho
    have hlen' (g : SourceRegion) (hg : g ∈ regions) :
        (g.text indent).toList.length ≤ bound.length := by
      have hle := length_le_flatMap (f := SourceRegion.braced indent) hg
      rw [← List.append_nil (SourceOp.text _ _).toList, SourceOp.toList_text] at hlen
      simp only [SourceRegion.braced, List.length_append, List.length_cons] at hle hlen
      omega
    have hinked : Stops isBlank (h.text.toList ++
        (regions.flatMap (SourceRegion.braced indent) ++ '\n' :: r)) := by
      obtain ⟨c, t, hs, hblank, -⟩ := (SourceHead.opStart hh
        (regions.flatMap (SourceRegion.braced indent) ++ '\n' :: r)).head
      simpa [hs] using hblank
    have hend : decide ((trimBlanks ('\n' :: r)).head? = some '\x7b') = false := by
      rw [trimBlanks_newline, decide_eq_false_iff_not]
      intro hc
      exact hr _ hc (by simp)
    obtain ⟨n, t, hread, ht⟩ := head_eq hh (lineEnd_regions hregions indent hr) total
    have hbrace : isBlank '\x7b' = false := by decide
    obtain ⟨regions', hreadRegions, hmap⟩ : ∃ regions', many (fun s => s.head? = some '\x7b')
        (regionWith (opWithin total bound)) t = .ok regions' (trimBlanks ('\n' :: r)) ∧
          regions'.map SourceRegion.unplaced = regions.map SourceRegion.unplaced :=
      many_eq (E := fun _ => True)
        (fun g hg r _ => ⟨by simp [SourceRegion.braced, trimBlanks_cons hbrace], by
          obtain ⟨g', hread, hstrip⟩ := regionWith_eq ih (hregions g hg) (hlen' g hg) r
          exact ⟨g', r, hread, hstrip, rfl⟩⟩)
        (fun _ _ _ _ => trivial)
        (fun g _ => ⟨'\x7b', by simp [SourceRegion.braced], hbrace⟩) trivial hend ht
    refine ⟨.mk { h with offset := n } regions', trimBlanks r, ?_, ?_, trimBlanks_trimBlanks r⟩
    · unfold opWithin
      rw [SourceOp.toList_text, trimBlanks_spaces, trimBlanks_of_stops hinked, bind_ok hread,
        bind_ok hreadRegions]
      rfl
    · rw [SourceOp.unplaced, SourceOp.unplaced, SourceRegion.allUnplaced_eq,
        SourceRegion.allUnplaced_eq, hmap]

end Reader

theorem SourceOp.parse_text {o : SourceOp} (ho : o.isReadable) :
    ∃ o', SourceOp.parse (o.text 0) = .ok o' ∧ o'.unplaced = o.unplaced := by
  have htrim : trimBlanks ((o.text 0).toList ++ []) = (o.text 0).toList := by
    obtain ⟨h, regions⟩ := o
    rw [SourceOp.isReadable, Bool.and_eq_true] at ho
    have htext := SourceOp.toList_text 0 h regions []
    obtain ⟨c, t, hs, hblank, -⟩ := (SourceHead.opStart ho.1
      (regions.flatMap (SourceRegion.braced 0) ++ ['\n'])).head
    rw [hs] at htext
    rw [htext, trimBlanks_spaces, trimBlanks_cons hblank, ← List.append_nil (SourceOp.text _ _).toList,
      htext]
    rfl
  obtain ⟨o', t, hread, hstrip, ht⟩ := Reader.opWithin_eq
    (Reader.byteCount (o.text 0).toList) (o.text 0).toList o 0 [] ho le_rfl (by simp [OpEnd])
  refine ⟨o', ?_, hstrip⟩
  rw [htrim] at hread
  have hop : Reader.op (Reader.byteCount (o.text 0).toList) (o.text 0).toList = .ok o' t := hread
  have hrest : t.dropWhile Reader.isBlank = [] := ht
  simp only [SourceOp.parse, hop, hrest]

end RegionIR
