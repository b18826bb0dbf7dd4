import RegionIR.Proofs.Context.Trees
import RegionIR.Proofs.Source.Operations
import RegionIR.Source.Naming

/-! The names that a text gives to the values and blocks of a tree.

The text counts values and labels in the order in which it defines them. Where every operand and
successor is defined before it is mentioned, counting amounts to a name for each value and each
label: its place among all that the tree defines. -/

namespace RegionIR

/-- Whether the label of the only block is left out. -/
def RegionTree.isFlat : RegionTree → Bool
  | .node _ [.node _ [] _] => true
  | _ => false

/-- The blocks of a region whose labels the text shows. -/
def RegionTree.labels (t : RegionTree) : List BlockId :=
  if t.isFlat then [] else t.blocks.map BlockTree.id

mutual

/-- The values that a tree defines, in the order of its text. -/
def OpTree.values : OpTree → List ValueId
  | .node _ op regions => op.results ++ RegionTree.valuesOfAll regions

def RegionTree.values : RegionTree → List ValueId
  | .node _ blocks => BlockTree.valuesOfAll blocks

def BlockTree.values : BlockTree → List ValueId
  | .node _ args ops => args.map Prod.fst ++ OpTree.valuesOfAll ops

def OpTree.valuesOfAll : List OpTree → List ValueId
  | [] => []
  | t :: rest => t.values ++ OpTree.valuesOfAll rest

def RegionTree.valuesOfAll : List RegionTree → List ValueId
  | [] => []
  | t :: rest => t.values ++ RegionTree.valuesOfAll rest

def BlockTree.valuesOfAll : List BlockTree → List ValueId
  | [] => []
  | t :: rest => t.values ++ BlockTree.valuesOfAll rest

end

mutual

/-- The blocks with labels in the text of a tree, in the order in which they are counted. -/
def OpTree.labelled : OpTree → List BlockId
  | .node _ _ regions => RegionTree.labelledOfAll regions

def RegionTree.labelled : RegionTree → List BlockId
  | .node id blocks => (RegionTree.node id blocks).labels ++ BlockTree.labelledOfAll blocks

def BlockTree.labelled : BlockTree → List BlockId
  | .node _ _ ops => OpTree.labelledOfAll ops

def OpTree.labelledOfAll : List OpTree → List BlockId
  | [] => []
  | t :: rest => t.labelled ++ OpTree.labelledOfAll rest

def RegionTree.labelledOfAll : List RegionTree → List BlockId
  | [] => []
  | t :: rest => t.labelled ++ RegionTree.labelledOfAll rest

def BlockTree.labelledOfAll : List BlockTree → List BlockId
  | [] => []
  | t :: rest => t.labelled ++ BlockTree.labelledOfAll rest

end

mutual

/-- Whether every operand and successor is defined in the text before it is mentioned, where it is
visible: an operand in the same or an enclosing region, a successor among the labels of the own
region. -/
def OpTree.isScoped (visible : List ValueId) (labels : List BlockId) : OpTree → Bool
  | .node _ op regions =>
    op.operands.all (· ∈ visible) && op.successors.all (· ∈ labels)
      && RegionTree.areScoped visible regions

def RegionTree.isScoped (visible : List ValueId) : RegionTree → Bool
  | .node id blocks => BlockTree.areScoped visible (RegionTree.node id blocks).labels blocks

def RegionTree.areScoped (visible : List ValueId) : List RegionTree → Bool
  | [] => true
  | t :: rest => t.isScoped visible && RegionTree.areScoped visible rest

def BlockTree.areScoped (visible : List ValueId) (labels : List BlockId) : List BlockTree → Bool
  | [] => true
  | .node _ args ops :: rest =>
    OpTree.areScoped (visible ++ args.map Prod.fst) labels ops
      && BlockTree.areScoped (visible ++ args.map Prod.fst ++ ops.flatMap (·.op.results)) labels rest

def OpTree.areScoped (visible : List ValueId) (labels : List BlockId) : List OpTree → Bool
  | [] => true
  | t :: rest =>
    t.isScoped visible labels && OpTree.areScoped (visible ++ t.op.results) labels rest

end

/-- Whether names, keys, constants and types of an operation are read back from its text. -/
def Op.isReadable (op : Op) : Bool :=
  Text.isName op.dialect && Text.isName op.name && Ty.entriesReadable op.attrs
    && Ty.areReadable op.resultTypes

mutual

/-- Whether names, keys, constants and types are read back from the text of a tree, and no region
is a single block without arguments and operations, of which nothing is written. -/
def OpTree.isReadable : OpTree → Bool
  | .node _ op regions => op.isReadable && RegionTree.areReadable regions

def RegionTree.isReadable : RegionTree → Bool
  | .node _ [.node _ [] []] => false
  | .node _ blocks => BlockTree.areReadable blocks

def BlockTree.isReadable : BlockTree → Bool
  | .node _ args ops => args.all (·.2.isReadable) && OpTree.areReadable ops

def OpTree.areReadable : List OpTree → Bool
  | [] => true
  | t :: rest => t.isReadable && OpTree.areReadable rest

def RegionTree.areReadable : List RegionTree → Bool
  | [] => true
  | t :: rest => t.isReadable && RegionTree.areReadable rest

def BlockTree.areReadable : List BlockTree → Bool
  | [] => true
  | t :: rest => t.isReadable && BlockTree.areReadable rest

end

/-- The line of an operation with given names. -/
def Op.namedHead (ν : ValueId → String) (β : BlockId → String) (op : Op) : SourceHead where
  results := op.results.map ν
  dialect := op.dialect
  name := op.name
  symbol := Names.liftedSymbol op
  operands := op.operands.map ν
  successors := op.successors.map β
  attrs := if (Names.liftedSymbol op).isSome then op.attrs.filter (·.1 ≠ "sym_name") else op.attrs
  resultTypes := op.resultTypes

mutual

/-- The tree as it is written with given names. -/
def OpTree.named (ν : ValueId → String) (β : BlockId → String) : OpTree → SourceOp
  | .node _ op regions => .mk (op.namedHead ν β) (RegionTree.allNamed ν β regions)

def RegionTree.named (ν : ValueId → String) (β : BlockId → String) : RegionTree → SourceRegion
  | .node id blocks =>
    .mk (BlockTree.allNamed ν β
      (if (RegionTree.node id blocks).isFlat then fun _ => SourceBlock.implicitLabel else β) blocks)

def BlockTree.named (ν : ValueId → String) (β label : BlockId → String) : BlockTree → SourceBlock
  | .node id args ops => .mk (label id) (args.map fun a => (ν a.1, a.2)) (OpTree.allNamed ν β ops)

def OpTree.allNamed (ν : ValueId → String) (β : BlockId → String) : List OpTree → List SourceOp
  | [] => []
  | t :: rest => t.named ν β :: OpTree.allNamed ν β rest

def RegionTree.allNamed (ν : ValueId → String) (β : BlockId → String) :
    List RegionTree → List SourceRegion
  | [] => []
  | t :: rest => t.named ν β :: RegionTree.allNamed ν β rest

def BlockTree.allNamed (ν : ValueId → String) (β label : BlockId → String) :
    List BlockTree → List SourceBlock
  | [] => []
  | t :: rest => t.named ν β label :: BlockTree.allNamed ν β label rest

end

section Lists

theorem RegionTree.isFlat_iff {id : RegionId} {blocks : List BlockTree} :
    (RegionTree.node id blocks).isFlat ↔ ∃ b ops, blocks = [.node b [] ops] := by
  unfold RegionTree.isFlat
  split
  · rename_i h
    obtain ⟨-, rfl⟩ := RegionTree.node.inj h
    simp
  · rename_i hne
    simp only [Bool.false_eq_true, false_iff]
    rintro ⟨b, ops, rfl⟩
    exact hne _ _ _ rfl

theorem OpTree.valuesOfAll_eq (l : List OpTree) : OpTree.valuesOfAll l = l.flatMap OpTree.values := by
  induction l with
  | nil => rfl
  | cons t l ih => rw [OpTree.valuesOfAll, ih, List.flatMap_cons]

theorem RegionTree.valuesOfAll_eq (l : List RegionTree) :
    RegionTree.valuesOfAll l = l.flatMap RegionTree.values := by
  induction l with
  | nil => rfl
  | cons t l ih => rw [RegionTree.valuesOfAll, ih, List.flatMap_cons]

theorem BlockTree.valuesOfAll_eq (l : List BlockTree) :
    BlockTree.valuesOfAll l = l.flatMap BlockTree.values := by
  induction l with
  | nil => rfl
  | cons t l ih => rw [BlockTree.valuesOfAll, ih, List.flatMap_cons]

theorem OpTree.labelledOfAll_eq (l : List OpTree) :
    OpTree.labelledOfAll l = l.flatMap OpTree.labelled := by
  induction l with
  | nil => rfl
  | cons t l ih => rw [OpTree.labelledOfAll, ih, List.flatMap_cons]

theorem RegionTree.labelledOfAll_eq (l : List RegionTree) :
    RegionTree.labelledOfAll l = l.flatMap RegionTree.labelled := by
  induction l with
  | nil => rfl
  | cons t l ih => rw [RegionTree.labelledOfAll, ih, List.flatMap_cons]

theorem BlockTree.labelledOfAll_eq (l : List BlockTree) :
    BlockTree.labelledOfAll l = l.flatMap BlockTree.labelled := by
  induction l with
  | nil => rfl
  | cons t l ih => rw [BlockTree.labelledOfAll, ih, List.flatMap_cons]

theorem OpTree.mem_values_of_result {t : OpTree} {v : ValueId} (h : v ∈ t.op.results) :
    v ∈ t.values := by
  obtain ⟨id, op, regions⟩ := t
  exact List.mem_append_left _ h

theorem BlockTree.mem_values_of_arg {b : BlockTree} {v : ValueId} (h : v ∈ b.args.map Prod.fst) :
    v ∈ b.values := by
  obtain ⟨id, args, ops⟩ := b
  exact List.mem_append_left _ h

theorem BlockTree.mem_values_of_result {b : BlockTree} {v : ValueId}
    (h : v ∈ b.ops.flatMap (·.op.results)) : v ∈ b.values := by
  obtain ⟨id, args, ops⟩ := b
  obtain ⟨t, ht, hv⟩ := List.mem_flatMap.mp h
  rw [BlockTree.values, OpTree.valuesOfAll_eq]
  exact List.mem_append_right _ (List.mem_flatMap.mpr ⟨t, ht, OpTree.mem_values_of_result hv⟩)

theorem OpTree.allNamed_eq (ν : ValueId → String) (β : BlockId → String) (l : List OpTree) :
    OpTree.allNamed ν β l = l.map (OpTree.named ν β) := by
  induction l with
  | nil => rfl
  | cons t l ih => rw [OpTree.allNamed, ih, List.map_cons]

theorem RegionTree.allNamed_eq (ν : ValueId → String) (β : BlockId → String) (l : List RegionTree) :
    RegionTree.allNamed ν β l = l.map (RegionTree.named ν β) := by
  induction l with
  | nil => rfl
  | cons t l ih => rw [RegionTree.allNamed, ih, List.map_cons]

theorem BlockTree.allNamed_eq (ν : ValueId → String) (β label : BlockId → String)
    (l : List BlockTree) : BlockTree.allNamed ν β label l = l.map (BlockTree.named ν β label) := by
  induction l with
  | nil => rfl
  | cons t l ih => rw [BlockTree.allNamed, ih, List.map_cons]

theorem OpTree.areReadable_iff {l : List OpTree} :
    OpTree.areReadable l ↔ ∀ t ∈ l, t.isReadable := by
  induction l with
  | nil => simp [OpTree.areReadable]
  | cons t l ih => simp [OpTree.areReadable, ih]

theorem RegionTree.areReadable_iff {l : List RegionTree} :
    RegionTree.areReadable l ↔ ∀ t ∈ l, t.isReadable := by
  induction l with
  | nil => simp [RegionTree.areReadable]
  | cons t l ih => simp [RegionTree.areReadable, ih]

theorem BlockTree.areReadable_iff {l : List BlockTree} :
    BlockTree.areReadable l ↔ ∀ t ∈ l, t.isReadable := by
  induction l with
  | nil => simp [BlockTree.areReadable]
  | cons t l ih => simp [BlockTree.areReadable, ih]

theorem OpTree.isReadable_iff {id : OpId} {op : Op} {regions : List RegionTree} :
    (OpTree.node id op regions).isReadable ↔ op.isReadable ∧ ∀ r ∈ regions, r.isReadable := by
  rw [OpTree.isReadable, Bool.and_eq_true, RegionTree.areReadable_iff]

theorem RegionTree.isReadable_iff {id : RegionId} {blocks : List BlockTree} :
    (RegionTree.node id blocks).isReadable ↔
      (∀ b, blocks ≠ [.node b [] []]) ∧ ∀ b ∈ blocks, b.isReadable := by
  by_cases hbare : ∃ b, blocks = [.node b [] []]
  · obtain ⟨b, rfl⟩ := hbare
    simp [RegionTree.isReadable]
  · rw [RegionTree.isReadable.eq_2 _ _ fun b h => hbare ⟨b, h⟩, BlockTree.areReadable_iff]
    exact (and_iff_right fun b h => hbare ⟨b, h⟩).symm

theorem BlockTree.isReadable_iff {id : BlockId} {args : List (ValueId × Ty)} {ops : List OpTree} :
    (BlockTree.node id args ops).isReadable ↔
      (∀ a ∈ args, a.2.isReadable) ∧ ∀ t ∈ ops, t.isReadable := by
  rw [BlockTree.isReadable, Bool.and_eq_true, List.all_eq_true, OpTree.areReadable_iff]

end Lists

section Readable

variable {ν : ValueId → String} {β : BlockId → String}

theorem Op.isReadable_iff {op : Op} : op.isReadable ↔ Text.isName op.dialect ∧ Text.isName op.name ∧
    (∀ e ∈ op.attrs, Text.isName e.1 ∧ e.2.isReadable) ∧ ∀ ty ∈ op.resultTypes, ty.isReadable := by
  simp only [Op.isReadable, Bool.and_eq_true, Ty.entriesReadable_iff, Ty.areReadable_iff, and_assoc]

theorem Op.isReadable_namedHead {op : Op} (h : op.isReadable) (hν : ∀ v, Text.isWord (ν v))
    (hβ : ∀ b, Text.isWord (β b)) : (op.namedHead ν β).isReadable := by
  obtain ⟨hdialect, hname, hattrs, htypes⟩ := Op.isReadable_iff.mp h
  have hattrs' : ∀ e ∈ (op.namedHead ν β).attrs, Text.isName e.1 ∧ e.2.isReadable := by
    intro e he
    refine hattrs e ?_
    unfold Op.namedHead at he
    dsimp only at he
    split at he
    · exact List.mem_of_mem_filter he
    · exact he
  exact SourceHead.isReadable_iff.mpr ⟨by simp [Op.namedHead, hν], hdialect, hname,
    by simp [Op.namedHead, hν], by simp [Op.namedHead, hβ], hattrs', htypes⟩

theorem isReadable_namedBlock {label : BlockId → String} {b : BlockTree} (hb : b.isReadable)
    (hops : ∀ t ∈ b.ops, (t.named ν β).isReadable) (hν : ∀ v, Text.isWord (ν v))
    (hlabel : ∀ b, Text.isWord (label b)) : (b.named ν β label).isReadable := by
  obtain ⟨id, args, ops⟩ := b
  rw [BlockTree.isReadable_iff] at hb
  refine SourceBlock.isReadable_iff.mpr ⟨hlabel id, ?_, ?_⟩
  · rw [List.forall_mem_map]
    exact fun a ha => ⟨hν a.1, hb.1 a ha⟩
  · rw [OpTree.allNamed_eq, List.forall_mem_map]
    exact hops

theorem isReadable_namedRegion {t : RegionTree} (ht : t.isReadable)
    (hops : ∀ b ∈ t.blocks, b.isReadable → ∀ u ∈ b.ops, (u.named ν β).isReadable)
    (hν : ∀ v, Text.isWord (ν v)) (hβ : ∀ b, Text.isWord (β b)) :
    (t.named ν β).isReadable := by
  obtain ⟨id, blocks⟩ := t
  obtain ⟨hbare, hblocks⟩ := RegionTree.isReadable_iff.mp ht
  rw [RegionTree.named]
  cases hflat : (RegionTree.node id blocks).isFlat with
  | true =>
    obtain ⟨b, ops, rfl⟩ := RegionTree.isFlat_iff.mp hflat
    have hne : ops ≠ [] := by
      rintro rfl
      exact hbare b rfl
    have hops' := hops _ List.mem_cons_self (hblocks _ List.mem_cons_self)
    simp only [BlockTree.ops] at hops'
    simpa [BlockTree.allNamed, BlockTree.named, SourceRegion.isReadable, OpTree.allNamed_eq,
      SourceOp.areReadable_iff, hne] using hops'
  | false =>
    have hall : SourceBlock.areReadable (BlockTree.allNamed ν β β blocks) := by
      rw [SourceBlock.areReadable_iff, BlockTree.allNamed_eq, List.forall_mem_map]
      exact fun b hb => isReadable_namedBlock (hblocks b hb) (hops b hb (hblocks b hb)) hν hβ
    have hno : ∀ l ops, BlockTree.allNamed ν β β blocks = [.mk l [] ops] → False := by
      intro l ops h
      rcases blocks with _ | ⟨⟨id', args, ops'⟩, _ | ⟨c, blocks⟩⟩
      · simp [BlockTree.allNamed] at h
      · simp only [BlockTree.allNamed, BlockTree.named, List.cons.injEq, SourceBlock.mk.injEq,
          List.map_eq_nil_iff, and_true] at h
        obtain ⟨-, rfl, -⟩ := h
        simp [RegionTree.isFlat] at hflat
      · simp [BlockTree.allNamed] at h
    simp only [Bool.false_eq_true, if_false]
    rwa [SourceRegion.isReadable.eq_2 _ hno]

theorem OpTree.isReadable_named {t : OpTree} (ht : t.isReadable) (hν : ∀ v, Text.isWord (ν v))
    (hβ : ∀ b, Text.isWord (β b)) : (t.named ν β).isReadable := by
  revert ht
  refine OpTree.forall_of (P := fun t => t.isReadable → (t.named ν β).isReadable)
    (Q := fun r => r.isReadable → (r.named ν β).isReadable)
    (R := fun b => b.isReadable → ∀ u ∈ b.ops, (u.named ν β).isReadable) ?_ ?_ ?_ t
  · intro id op regions ih h
    rw [OpTree.isReadable_iff] at h
    rw [OpTree.named, SourceOp.isReadable, Bool.and_eq_true, SourceRegion.areReadable_iff,
      RegionTree.allNamed_eq, List.forall_mem_map]
    exact ⟨Op.isReadable_namedHead h.1 hν hβ, fun r hr => ih r hr (h.2 r hr)⟩
  · exact fun id blocks ih h => isReadable_namedRegion h ih hν hβ
  · intro id args ops ih h u hu
    exact ih u hu ((BlockTree.isReadable_iff.mp h).2 u hu)

end Readable

namespace Names

/-- The name of a value by its place among values. -/
def nameIn (vs : List ValueId) (v : ValueId) : String := Nat.repr (vs.idxOf v)

/-- The label of a block by its place among blocks. -/
def labelIn (bs : List BlockId) (b : BlockId) : String := "bb" ++ Nat.repr (bs.idxOf b)

theorem run_bind_eq {α β : Type} {x : Naming α} {f : α → Naming β} {names names' : Names} {a : α}
    (h : x.run names = (a, names')) : (x >>= f).run names = (f a).run names' := by
  rw [StateT.run_bind, h]
  rfl

/-- The values and labels so far are the first of all, and have their names. -/
structure Numbers (names : Names) (ws : List ValueId) (cs : List BlockId) (vs : List ValueId)
    (bs : List BlockId) : Prop where
  nextValue : names.nextValue = vs.length
  nextBlock : names.nextBlock = bs.length
  value : ∀ v ∈ vs, names.values.lookup v = some (nameIn ws v)
  block : ∀ b ∈ bs, names.blocks.lookup b = some (labelIn cs b)

section Count

variable {names : Names} {ws : List ValueId} {cs : List BlockId} {vs : List ValueId}
  {bs : List BlockId}

theorem Numbers.operands (h : names.Numbers ws cs vs bs) {l : List ValueId} (hl : ∀ v ∈ l, v ∈ vs) :
    l.map names.value = l.map (nameIn ws) := by
  refine List.map_congr_left fun v hv => ?_
  rw [Names.value, h.value v (hl v hv), Option.getD_some]

theorem Numbers.successors (h : names.Numbers ws cs vs bs) {l : List BlockId}
    (hl : ∀ b ∈ l, b ∈ bs) : l.map names.block = l.map (labelIn cs) := by
  refine List.map_congr_left fun b hb => ?_
  rw [Names.block, h.block b (hl b hb), Option.getD_some]

theorem idxOf_of_prefix {α : Type} [DecidableEq α] {a : α} {l k : List α} (hk : k.Nodup)
    (hlead : l ++ [a] <+: k) : k.idxOf a = l.length := by
  obtain ⟨t, rfl⟩ := hlead
  have hnot : a ∉ l := by
    rw [List.append_assoc, List.nodup_append] at hk
    exact fun hmem => hk.2.2 a hmem a (by simp) rfl
  rw [List.append_assoc, List.idxOf_append_of_notMem hnot]
  simp

theorem Numbers.defineValue (h : names.Numbers ws cs vs bs) (hws : ws.Nodup) {v : ValueId}
    (hlead : vs ++ [v] <+: ws) :
    ∃ names', (Names.defineValue v).run names = (nameIn ws v, names') ∧
      names'.Numbers ws cs (vs ++ [v]) bs := by
  have hname : Nat.repr names.nextValue = nameIn ws v := by
    rw [nameIn, idxOf_of_prefix hws hlead, h.nextValue]
  refine ⟨{ names with values := (v, nameIn ws v) :: names.values, nextValue := names.nextValue + 1 },
    by rw [← hname]; rfl, ⟨by simp [h.nextValue], h.nextBlock, fun w hw => ?_, h.block⟩⟩
  rw [List.lookup_cons]
  cases hwv : w == v with
  | true => rw [beq_iff_eq.mp hwv]
  | false =>
    refine h.value w ((List.mem_append.mp hw).resolve_right fun hmem => ?_)
    simp [List.mem_singleton.mp hmem] at hwv

theorem Numbers.defineValues (h : names.Numbers ws cs vs bs) (hws : ws.Nodup) {l : List ValueId}
    (hlead : vs ++ l <+: ws) :
    ∃ names', (l.mapM Names.defineValue).run names = (l.map (nameIn ws), names') ∧
      names'.Numbers ws cs (vs ++ l) bs := by
  induction l generalizing names vs with
  | nil => exact ⟨names, rfl, by simpa using h⟩
  | cons v l ih =>
    rw [List.append_cons] at hlead
    obtain ⟨names₁, hrun, h₁⟩ := h.defineValue hws ((List.prefix_append _ _).trans hlead)
    obtain ⟨names₂, hrun', h₂⟩ := ih h₁ hlead
    refine ⟨names₂, ?_, by simpa using h₂⟩
    rw [List.mapM_cons, run_bind_eq hrun, run_bind_eq hrun']
    rfl

theorem Numbers.defineArgs (h : names.Numbers ws cs vs bs) (hws : ws.Nodup)
    {args : List (ValueId × Ty)} (hlead : vs ++ args.map Prod.fst <+: ws) :
    ∃ names', (args.mapM fun a => do return (← Names.defineValue a.1, a.2) :
        Naming (List (String × Ty))).run names = (args.map fun a => (nameIn ws a.1, a.2), names') ∧
      names'.Numbers ws cs (vs ++ args.map Prod.fst) bs := by
  induction args generalizing names vs with
  | nil => exact ⟨names, rfl, by simpa using h⟩
  | cons a args ih =>
    rw [List.map_cons, List.append_cons] at hlead
    obtain ⟨names₁, hrun, h₁⟩ := h.defineValue hws ((List.prefix_append _ _).trans hlead)
    obtain ⟨names₂, hrun', h₂⟩ := ih h₁ hlead
    refine ⟨names₂, ?_, by simpa using h₂⟩
    have hfirst : (do return (← Names.defineValue a.1, a.2) : Naming (String × Ty)).run names =
        ((nameIn ws a.1, a.2), names₁) := by
      rw [run_bind_eq hrun]
      rfl
    rw [List.mapM_cons, run_bind_eq hfirst, run_bind_eq hrun']
    rfl

theorem Numbers.defineBlocks (h : names.Numbers ws cs vs bs) (hcs : cs.Nodup)
    {blocks : List BlockTree} (hlead : bs ++ blocks.map BlockTree.id <+: cs) :
    ∃ names', (blocks.forM fun b => Names.defineBlock b.id).run names = ((), names') ∧
      names'.Numbers ws cs vs (bs ++ blocks.map BlockTree.id) := by
  induction blocks generalizing names bs with
  | nil => exact ⟨names, rfl, by simpa using h⟩
  | cons b blocks ih =>
    rw [List.map_cons, List.append_cons] at hlead
    have hlabel : "bb" ++ Nat.repr names.nextBlock = labelIn cs b.id := by
      rw [labelIn, idxOf_of_prefix hcs ((List.prefix_append _ _).trans hlead), h.nextBlock]
    let names₁ : Names := { names with
      blocks := (b.id, labelIn cs b.id) :: names.blocks, nextBlock := names.nextBlock + 1 }
    have hrun : (Names.defineBlock b.id).run names = ((), names₁) := by
      rw [show names₁ = { names with
        blocks := (b.id, labelIn cs b.id) :: names.blocks, nextBlock := names.nextBlock + 1 } from rfl,
        ← hlabel]
      rfl
    have h₁ : names₁.Numbers ws cs vs (bs ++ [b.id]) := by
      refine ⟨h.nextValue, by simp [names₁, h.nextBlock], h.value, fun c hc => ?_⟩
      simp only [names₁, List.lookup_cons]
      cases hcb : c == b.id with
      | true => rw [beq_iff_eq.mp hcb]
      | false =>
        refine h.block c ((List.mem_append.mp hc).resolve_right fun hmem => ?_)
        simp [List.mem_singleton.mp hmem] at hcb
    obtain ⟨names₂, hrun', h₂⟩ := ih h₁ hlead
    refine ⟨names₂, ?_, by simpa using h₂⟩
    change (Names.defineBlock b.id >>= fun _ => blocks.forM _ : Naming Unit).run names = _
    rw [run_bind_eq hrun, hrun']

end Count

/-- What naming a part of a tree gives, from any state that fits. -/
def NamesPart {α : Type} (ws : List ValueId) (cs : List BlockId) (action : Naming α) (a : α)
    (vs : List ValueId) (bs : List BlockId) (values : List ValueId) (labels : List BlockId) : Prop :=
  ∀ names : Names, names.Numbers ws cs vs bs → vs ++ values <+: ws → bs ++ labels <+: cs →
    ∃ names', action.run names = (a, names') ∧ names'.Numbers ws cs (vs ++ values) (bs ++ labels)

section Trees

variable {ws : List ValueId} {cs : List BlockId}

theorem NamesPart.bind {α β : Type} {x : Naming α} {f : α → Naming β} {a : α} {b : β}
    {vs values values' : List ValueId} {bs labels labels' : List BlockId}
    (hx : NamesPart ws cs x a vs bs values labels)
    (hf : NamesPart ws cs (f a) b (vs ++ values) (bs ++ labels) values' labels') :
    NamesPart ws cs (x >>= f) b vs bs (values ++ values') (labels ++ labels') := by
  intro names h hws hcs
  rw [← List.append_assoc] at hws hcs
  obtain ⟨names₁, hrun, h₁⟩ :=
    hx names h ((List.prefix_append _ _).trans hws) ((List.prefix_append _ _).trans hcs)
  obtain ⟨names₂, hrun', h₂⟩ := hf names₁ h₁ hws hcs
  exact ⟨names₂, by rw [run_bind_eq hrun, hrun'], by rwa [← List.append_assoc, ← List.append_assoc]⟩

theorem NamesPart.pure {α : Type} (a : α) (vs : List ValueId) (bs : List BlockId) :
    NamesPart ws cs (pure a) a vs bs [] [] := by
  intro names h _ _
  exact ⟨names, rfl, by simpa using h⟩

theorem NamesPart.map {α β : Type} {x : Naming α} {a : α} {vs values : List ValueId}
    {bs labels : List BlockId} (h : NamesPart ws cs x a vs bs values labels) (g : α → β) :
    NamesPart ws cs (do return g (← x)) (g a) vs bs values labels := by
  intro names hn hws hcs
  obtain ⟨names', hrun, h'⟩ := h names hn hws hcs
  refine ⟨names', ?_, h'⟩
  rw [run_bind_eq hrun]
  rfl

theorem namesPart_head (hws : ws.Nodup) {op : Op} {vs visible : List ValueId}
    {bs labels : List BlockId} (hoperands : ∀ v ∈ op.operands, v ∈ visible)
    (hsuccessors : ∀ b ∈ op.successors, b ∈ labels) (hvisible : visible ⊆ vs) (hlabels : labels ⊆ bs) :
    NamesPart ws cs (Names.head op) (Op.namedHead (nameIn ws) (labelIn cs) op) vs bs op.results [] := by
  intro names h hlead _
  obtain ⟨names', hrun, h'⟩ := h.defineValues hws hlead
  refine ⟨names', ?_, by simpa using h'⟩
  have hops := h'.operands fun v hv =>
    List.mem_append_left op.results (hvisible (hoperands v hv))
  have hsucc := h'.successors fun b hb => hlabels (hsuccessors b hb)
  unfold Names.head
  rw [run_bind_eq hrun]
  change (_, names') = _
  simp only [Op.namedHead, hops, hsucc]

/-- What naming an operation gives, from any state in which what it may mention has names. -/
def NamesOp (ws : List ValueId) (cs : List BlockId) (t : OpTree) : Prop :=
  ∀ vs bs visible labels, t.isScoped visible labels → visible ⊆ vs → labels ⊆ bs →
    NamesPart ws cs (nameOp t) (t.named (nameIn ws) (labelIn cs)) vs bs t.values t.labelled

theorem namesPart_ops {ops : List OpTree} (hops : ∀ t ∈ ops, NamesOp ws cs t)
    {vs visible : List ValueId} {bs labels : List BlockId} (h : OpTree.areScoped visible labels ops)
    (hvisible : visible ⊆ vs) (hlabels : labels ⊆ bs) :
    NamesPart ws cs (nameOps ops) (OpTree.allNamed (nameIn ws) (labelIn cs) ops) vs bs
      (OpTree.valuesOfAll ops) (OpTree.labelledOfAll ops) := by
  induction ops generalizing vs visible bs with
  | nil => exact .pure _ _ _
  | cons t ops ih =>
    rw [OpTree.areScoped, Bool.and_eq_true] at h
    obtain ⟨ht, hrest⟩ := h
    have hresults : visible ++ t.op.results ⊆ vs ++ t.values :=
      List.append_subset.mpr ⟨List.subset_append_of_subset_left _ hvisible,
        fun v hv => List.mem_append_right _ (OpTree.mem_values_of_result hv)⟩
    have hlabels' : labels ⊆ bs ++ t.labelled := fun b hb => List.mem_append_left _ (hlabels hb)
    have hfirst := hops t List.mem_cons_self vs bs visible labels ht hvisible hlabels
    have hnext := ih (fun u hu => hops u (List.mem_cons_of_mem _ hu)) hrest hresults hlabels'
    exact hfirst.bind (hnext.map (t.named (nameIn ws) (labelIn cs) :: ·))

theorem namesPart_regions {regions : List RegionTree} {visible : List ValueId}
    (hregions : ∀ t ∈ regions, ∀ vs bs, t.isScoped visible → visible ⊆ vs →
      NamesPart ws cs (nameRegion t) (t.named (nameIn ws) (labelIn cs)) vs bs t.values t.labelled)
    (h : RegionTree.areScoped visible regions) {vs : List ValueId} {bs : List BlockId}
    (hvisible : visible ⊆ vs) :
    NamesPart ws cs (nameRegions regions) (RegionTree.allNamed (nameIn ws) (labelIn cs) regions) vs
      bs (RegionTree.valuesOfAll regions) (RegionTree.labelledOfAll regions) := by
  induction regions generalizing vs bs with
  | nil => exact .pure _ _ _
  | cons t regions ih =>
    rw [RegionTree.areScoped, Bool.and_eq_true] at h
    obtain ⟨ht, hrest⟩ := h
    have hvisible' : visible ⊆ vs ++ t.values := fun v hv => List.mem_append_left _ (hvisible hv)
    have hfirst := hregions t List.mem_cons_self vs bs ht hvisible
    have hnext : NamesPart ws cs (nameRegions regions)
        (RegionTree.allNamed (nameIn ws) (labelIn cs) regions) (vs ++ t.values) (bs ++ t.labelled)
        (RegionTree.valuesOfAll regions) (RegionTree.labelledOfAll regions) :=
      ih (fun u hu => hregions u (List.mem_cons_of_mem _ hu)) hrest hvisible'
    exact hfirst.bind (hnext.map (t.named (nameIn ws) (labelIn cs) :: ·))

theorem namesPart_block (hws : ws.Nodup) {b : BlockTree} (hb : ∀ t ∈ b.ops, NamesOp ws cs t)
    {vs visible : List ValueId} {bs labels : List BlockId}
    (h : OpTree.areScoped (visible ++ b.args.map Prod.fst) labels b.ops) (hvisible : visible ⊆ vs)
    (hlabels : labels ⊆ bs) (hshown : b.id ∈ bs) :
    NamesPart ws cs (nameBlock b) (b.named (nameIn ws) (labelIn cs) (labelIn cs)) vs bs b.values
      b.labelled := by
  obtain ⟨id, args, ops⟩ := b
  simp only [BlockTree.ops, BlockTree.args, BlockTree.id] at hb h hshown
  intro names hn hlead hcs
  have hlabel : names.block id = labelIn cs id := by
    rw [Names.block, hn.block id hshown, Option.getD_some]
  rw [BlockTree.values, ← List.append_assoc] at hlead ⊢
  obtain ⟨names₁, hrun, h₁⟩ := hn.defineArgs hws ((List.prefix_append _ _).trans hlead)
  have hvisible' : visible ++ args.map Prod.fst ⊆ vs ++ args.map Prod.fst :=
    List.append_subset.mpr ⟨List.subset_append_of_subset_left _ hvisible, List.subset_append_right _ _⟩
  obtain ⟨names₂, hrun', h₂⟩ := namesPart_ops hb h hvisible' hlabels names₁ h₁ hlead hcs
  refine ⟨names₂, ?_, h₂⟩
  have hget : (get : Naming Names).run names = (names, names) := rfl
  rw [nameBlock, run_bind_eq hget, run_bind_eq hrun, run_bind_eq hrun', hlabel]
  rfl

theorem namesPart_blocks (hws : ws.Nodup) {blocks : List BlockTree}
    (hblocks : ∀ b ∈ blocks, ∀ t ∈ b.ops, NamesOp ws cs t) {vs visible : List ValueId}
    {bs labels : List BlockId} (h : BlockTree.areScoped visible labels blocks)
    (hvisible : visible ⊆ vs) (hlabels : labels ⊆ bs) (hshown : ∀ b ∈ blocks, b.id ∈ bs) :
    NamesPart ws cs (nameBlocks blocks)
      (BlockTree.allNamed (nameIn ws) (labelIn cs) (labelIn cs) blocks) vs bs
      (BlockTree.valuesOfAll blocks) (BlockTree.labelledOfAll blocks) := by
  induction blocks generalizing vs visible bs with
  | nil => exact .pure _ _ _
  | cons b blocks ih =>
    have hparts : OpTree.areScoped (visible ++ b.args.map Prod.fst) labels b.ops ∧
        BlockTree.areScoped (visible ++ b.args.map Prod.fst ++ b.ops.flatMap (·.op.results)) labels
          blocks := by
      obtain ⟨id, args, ops⟩ := b
      rwa [BlockTree.areScoped, Bool.and_eq_true] at h
    obtain ⟨hops, hrest⟩ := hparts
    have hvisible' : visible ++ b.args.map Prod.fst ++ b.ops.flatMap (·.op.results) ⊆
        vs ++ b.values := by
      refine List.append_subset.mpr ⟨List.append_subset.mpr
        ⟨List.subset_append_of_subset_left _ hvisible, fun v hv => ?_⟩, fun v hv => ?_⟩
      · exact List.mem_append_right _ (BlockTree.mem_values_of_arg hv)
      · exact List.mem_append_right _ (BlockTree.mem_values_of_result hv)
    have hfirst := namesPart_block hws (hblocks b List.mem_cons_self) hops hvisible hlabels
      (hshown b List.mem_cons_self)
    have hnext := ih (fun c hc => hblocks c (List.mem_cons_of_mem _ hc)) hrest hvisible'
      (List.subset_append_of_subset_left b.labelled hlabels)
      (fun c hc => List.mem_append_left _ (hshown c (List.mem_cons_of_mem _ hc)))
    exact hfirst.bind (hnext.map (b.named (nameIn ws) (labelIn cs) (labelIn cs) :: ·))

theorem namesPart_region (hws : ws.Nodup) (hcs : cs.Nodup) {t : RegionTree}
    (ht : ∀ b ∈ t.blocks, ∀ u ∈ b.ops, NamesOp ws cs u) {vs visible : List ValueId}
    {bs : List BlockId} (h : t.isScoped visible) (hvisible : visible ⊆ vs) :
    NamesPart ws cs (nameRegion t) (t.named (nameIn ws) (labelIn cs)) vs bs t.values t.labelled := by
  obtain ⟨id, blocks⟩ := t
  rw [RegionTree.isScoped] at h
  rw [RegionTree.labelled, RegionTree.values, RegionTree.named]
  cases hflat : (RegionTree.node id blocks).isFlat with
  | true =>
    obtain ⟨bid, ops, rfl⟩ := RegionTree.isFlat_iff.mp hflat
    simp only [RegionTree.labels, hflat, if_true, BlockTree.areScoped, Bool.and_true] at h ⊢
    have hvisible' : visible ++ ([] : List (ValueId × Ty)).map Prod.fst ⊆ vs := by simpa using hvisible
    have hops := namesPart_ops (ht _ List.mem_cons_self) h hvisible' (List.nil_subset bs)
    have hvalues : BlockTree.valuesOfAll [.node bid [] ops] = OpTree.valuesOfAll ops := by
      simp [BlockTree.valuesOfAll, BlockTree.values]
    have hlabelled : BlockTree.labelledOfAll [.node bid [] ops] = OpTree.labelledOfAll ops := by
      simp [BlockTree.labelledOfAll, BlockTree.labelled]
    rw [hvalues, hlabelled, List.nil_append]
    exact hops.map fun ops => SourceRegion.mk [.mk SourceBlock.implicitLabel [] ops]
  | false =>
    have hshape : ∀ bid ops, blocks = [.node bid [] ops] → False := by
      rintro bid ops rfl
      simp [RegionTree.isFlat] at hflat
    simp only [RegionTree.labels, hflat, Bool.false_eq_true, if_false, RegionTree.blocks] at h ⊢
    have hlabels : NamesPart ws cs (blocks.forM fun b => Names.defineBlock b.id) () vs bs []
        (blocks.map BlockTree.id) := by
      intro names hn _ hlead
      simpa using hn.defineBlocks hcs hlead
    have hvisible' : visible ⊆ vs ++ [] := List.subset_append_of_subset_left _ hvisible
    have hblocks := namesPart_blocks hws ht h hvisible'
      (List.subset_append_right bs (blocks.map BlockTree.id))
      (fun b hb => List.mem_append_right _ (List.mem_map_of_mem hb))
    rw [nameRegion.eq_2 _ _ hshape]
    exact hlabels.bind (hblocks.map SourceRegion.mk)

/-- Where everything is defined before it is mentioned, an operation is named by counting. -/
theorem namesOp (hws : ws.Nodup) (hcs : cs.Nodup) (t : OpTree) : NamesOp ws cs t := by
  refine OpTree.forall_of (P := NamesOp ws cs) (Q := fun r => ∀ b ∈ r.blocks, ∀ u ∈ b.ops, NamesOp ws cs u)
    (R := fun b => ∀ u ∈ b.ops, NamesOp ws cs u) ?_ (fun _ _ ih => ih) (fun _ _ _ ih => ih) t
  intro id op regions ih vs bs visible labels h hvisible hlabels
  rw [OpTree.isScoped, Bool.and_eq_true, Bool.and_eq_true] at h
  obtain ⟨⟨hoperands, hsuccessors⟩, hregions⟩ := h
  have hhead : NamesPart ws cs (Names.head op) (op.namedHead (nameIn ws) (labelIn cs)) vs bs
      op.results [] :=
    namesPart_head hws (by simpa using hoperands) (by simpa using hsuccessors) hvisible hlabels
  have hrest : NamesPart ws cs (nameRegions regions)
      (RegionTree.allNamed (nameIn ws) (labelIn cs) regions) (vs ++ op.results) (bs ++ [])
      (RegionTree.valuesOfAll regions) (RegionTree.labelledOfAll regions) :=
    namesPart_regions (fun t ht vs bs h hvisible =>
      namesPart_region hws hcs (ih t ht) h hvisible) hregions
      (List.subset_append_of_subset_left _ hvisible)
  exact hhead.bind (hrest.map (SourceOp.mk (op.namedHead (nameIn ws) (labelIn cs)) ·))

end Trees

theorem isWord_nameIn (vs : List ValueId) (v : ValueId) : Text.isWord (nameIn vs v) :=
  Text.isWord_repr _

theorem isWord_labelIn (bs : List BlockId) (b : BlockId) : Text.isWord (labelIn bs b) := by
  obtain ⟨-, hrepr⟩ := Text.isWord_iff.mp (Text.isWord_repr (bs.idxOf b))
  refine Text.isWord_iff.mpr ⟨by simp [labelIn], ?_⟩
  simpa [labelIn, Text.isWordChar] using hrepr

theorem nameIn_injOn {vs : List ValueId} {v w : ValueId} (hv : v ∈ vs)
    (h : nameIn vs v = nameIn vs w) : v = w := by
  have hidx : vs.idxOf v = vs.idxOf w := Text.repr_injective h
  exact (List.idxOf_inj hv).mp hidx

theorem labelIn_injOn {bs : List BlockId} {b c : BlockId} (hb : b ∈ bs)
    (h : labelIn bs b = labelIn bs c) : b = c := by
  have hrepr : Nat.repr (bs.idxOf b) = Nat.repr (bs.idxOf c) := by
    simpa [labelIn] using h
  exact (List.idxOf_inj hb).mp (Text.repr_injective hrepr)

end Names

/-- The text of a tree names values and labels by their places, if everything is defined before it
is mentioned. -/
theorem OpTree.toSource_eq {t : OpTree} (hvalues : t.values.Nodup) (hlabels : t.labelled.Nodup)
    (h : t.isScoped [] []) :
    t.toSource = t.named (Names.nameIn t.values) (Names.labelIn t.labelled) := by
  have hstart : Names.Numbers {} t.values t.labelled [] [] := ⟨rfl, rfl, by simp, by simp⟩
  obtain ⟨names, hrun, -⟩ := Names.namesOp hvalues hlabels t [] [] [] [] h (List.Subset.refl _)
    (List.Subset.refl _) {} hstart (by simp) (by simp)
  rw [OpTree.toSource, hrun]

end RegionIR
