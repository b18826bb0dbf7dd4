import Mathlib.Logic.Relator
import RegionIR.Proofs.Source.Naming
import RegionIR.Proofs.Source.Meaning

/-! Trees that differ in nothing but numbers.

Two trees are isomorphic when they have the same shape and the same data, and a one-to-one
correspondence between values and one between blocks carries the operands, successors, results and
arguments of one into those of the other. A tree that is named and read again is isomorphic to the
first: the correspondences are collected in the order of the text. -/

namespace RegionIR

/-- The operations have the same data, and the relations carry values and blocks over. -/
structure Op.Matches (V : ValueId → ValueId → Prop) (B : BlockId → BlockId → Prop) (op op' : Op) :
    Prop where
  dialect : op.dialect = op'.dialect
  name : op.name = op'.name
  attrs : op.attrs = op'.attrs
  resultTypes : op.resultTypes = op'.resultTypes
  operands : List.Forall₂ V op.operands op'.operands
  results : List.Forall₂ V op.results op'.results
  successors : List.Forall₂ B op.successors op'.successors

mutual

/-- The trees have the same shape, and their operations and blocks match in order. -/
def OpTree.Matches (V : ValueId → ValueId → Prop) (B : BlockId → BlockId → Prop) :
    OpTree → OpTree → Prop
  | .node _ op regions, .node _ op' regions' =>
    op.Matches V B op' ∧ RegionTree.AllMatch V B regions regions'
termination_by structural t => t

def RegionTree.Matches (V : ValueId → ValueId → Prop) (B : BlockId → BlockId → Prop) :
    RegionTree → RegionTree → Prop
  | .node _ blocks, .node _ blocks' => BlockTree.AllMatch V B blocks blocks'
termination_by structural t => t

def BlockTree.Matches (V : ValueId → ValueId → Prop) (B : BlockId → BlockId → Prop) :
    BlockTree → BlockTree → Prop
  | .node b args ops, .node b' args' ops' =>
    B b b' ∧ List.Forall₂ (fun a a' => V a.1 a'.1 ∧ a.2 = a'.2) args args' ∧
      OpTree.AllMatch V B ops ops'
termination_by structural t => t

def OpTree.AllMatch (V : ValueId → ValueId → Prop) (B : BlockId → BlockId → Prop) :
    List OpTree → List OpTree → Prop
  | [], [] => True
  | t :: ts, t' :: ts' => t.Matches V B t' ∧ OpTree.AllMatch V B ts ts'
  | _, _ => False
termination_by structural t => t

def RegionTree.AllMatch (V : ValueId → ValueId → Prop) (B : BlockId → BlockId → Prop) :
    List RegionTree → List RegionTree → Prop
  | [], [] => True
  | t :: ts, t' :: ts' => t.Matches V B t' ∧ RegionTree.AllMatch V B ts ts'
  | _, _ => False
termination_by structural t => t

def BlockTree.AllMatch (V : ValueId → ValueId → Prop) (B : BlockId → BlockId → Prop) :
    List BlockTree → List BlockTree → Prop
  | [], [] => True
  | t :: ts, t' :: ts' => t.Matches V B t' ∧ BlockTree.AllMatch V B ts ts'
  | _, _ => False
termination_by structural t => t

end

theorem forall₂_flatMap {α β γ δ : Type} {R : α → β → Prop} {S : γ → δ → Prop} {f : α → List γ}
    {g : β → List δ} {l : List α} {l' : List β} (h : List.Forall₂ R l l')
    (hf : ∀ a ∈ l, ∀ b, R a b → List.Forall₂ S (f a) (g b)) :
    List.Forall₂ S (l.flatMap f) (l'.flatMap g) := by
  induction h with
  | nil => exact .nil
  | cons hab _ ih =>
    rw [List.forall_mem_cons] at hf
    exact List.rel_append (hf.1 _ hab) (ih hf.2)

section Matches

variable {V : ValueId → ValueId → Prop} {B : BlockId → BlockId → Prop}

theorem OpTree.allMatch_iff {l l' : List OpTree} :
    AllMatch V B l l' ↔ List.Forall₂ (Matches V B) l l' := by
  induction l generalizing l' with
  | nil => cases l' <;> simp [AllMatch]
  | cons t l ih => cases l' <;> simp [AllMatch, ih]

theorem RegionTree.allMatch_iff {l l' : List RegionTree} :
    AllMatch V B l l' ↔ List.Forall₂ (Matches V B) l l' := by
  induction l generalizing l' with
  | nil => cases l' <;> simp [AllMatch]
  | cons t l ih => cases l' <;> simp [AllMatch, ih]

theorem BlockTree.allMatch_iff {l l' : List BlockTree} :
    AllMatch V B l l' ↔ List.Forall₂ (Matches V B) l l' := by
  induction l generalizing l' with
  | nil => cases l' <;> simp [AllMatch]
  | cons t l ih => cases l' <;> simp [AllMatch, ih]

/-- The operations match and the arguments have the same types. -/
def SameData (V : ValueId → ValueId → Prop) (B : BlockId → BlockId → Prop)
    (ops ops' : List (OpId × Op)) (blocks blocks' : List BlockTree) : Prop :=
  List.Forall₂ (fun o o' => o.2.Matches V B o'.2) ops ops' ∧
    List.Forall₂ (fun b b' => List.Forall₂ (fun a a' => a.2 = a'.2) b.args b'.args) blocks blocks'

theorem RegionTree.Matches.sameData {t t' : RegionTree} (h : t.Matches V B t') :
    SameData V B t.preorder t'.preorder t.allBlocks t'.allBlocks := by
  refine RegionTree.forall_of
    (P := fun t => ∀ t', t.Matches V B t' → SameData V B t.preorder t'.preorder t.blocks t'.blocks)
    (Q := fun t => ∀ t', t.Matches V B t' → SameData V B t.preorder t'.preorder t.allBlocks t'.allBlocks)
    (R := fun t => ∀ t', t.Matches V B t' →
      SameData V B t.preorder t'.preorder (t :: t.nested) (t' :: t'.nested)) ?_ ?_ ?_ t t' h
  · rintro id op regions ih ⟨id', op', regions'⟩ ⟨hop, hregions⟩
    have hall := RegionTree.allMatch_iff.mp hregions
    rw [OpTree.preorder_node, OpTree.preorder_node, OpTree.blocks_node, OpTree.blocks_node]
    exact ⟨.cons hop (forall₂_flatMap hall fun r hr r' hrr => (ih r hr r' hrr).1),
      forall₂_flatMap hall fun r hr r' hrr => (ih r hr r' hrr).2⟩
  · rintro id blocks ih ⟨id', blocks'⟩ hblocks
    have hall := BlockTree.allMatch_iff.mp hblocks
    have halike (b : BlockTree) (hb : b ∈ blocks) (b' : BlockTree) (hbb : b.Matches V B b') :=
      (ih b hb b' hbb).2
    simp only [List.forall₂_cons] at halike
    rw [RegionTree.preorder_node, RegionTree.preorder_node, RegionTree.allBlocks_node,
      RegionTree.allBlocks_node]
    refine ⟨forall₂_flatMap hall fun b hb b' hbb => (ih b hb b' hbb).1, List.rel_append ?_ ?_⟩
    · exact (forall₂_imp_of_mem hall.flip fun b hb b' hbb => (halike b hb b' hbb).1).flip
    · exact forall₂_flatMap hall fun b hb b' hbb => (halike b hb b' hbb).2
  · rintro id args ops ih ⟨id', args', ops'⟩ ⟨-, hargs, hops⟩
    have hall := OpTree.allMatch_iff.mp hops
    rw [BlockTree.preorder_node, BlockTree.preorder_node, BlockTree.nested_node,
      BlockTree.nested_node]
    exact ⟨forall₂_flatMap hall fun u hu u' huu => (ih u hu u' huu).1,
      .cons (hargs.imp fun _ _ h => h.2) (forall₂_flatMap hall fun u hu u' huu => (ih u hu u' huu).2)⟩

end Matches

/-- One-to-one correspondences of values and of blocks carry one tree into the other. -/
def OpTree.Isomorphic (t t' : OpTree) : Prop :=
  ∃ V B, Relator.BiUnique V ∧ Relator.BiUnique B ∧ t.Matches V B t'

/-- Types and attributes are in canonical form, and every result has a type. -/
structure OpTree.Regular (t : OpTree) : Prop where
  results : ∀ o ∈ t.preorder, o.2.results.length = o.2.resultTypes.length
  sorted : ∀ o ∈ t.preorder, o.2.attrs.Sorted
  attrs : ∀ o ∈ t.preorder, ∀ e ∈ o.2.attrs, e.2.Canonical
  resultTypes : ∀ o ∈ t.preorder, ∀ ty ∈ o.2.resultTypes, ty.Canonical
  argTypes : ∀ b ∈ t.blocks, ∀ a ∈ b.args, a.2.Canonical

section Corresponds

/-- Lists of values and lists of blocks correspond one by one, and wherever relations hold of the
pairs, `P` holds of the relations. -/
def Corresponds (vs vs' : List ValueId) (bs bs' : List BlockId)
    (P : (ValueId → ValueId → Prop) → (BlockId → BlockId → Prop) → Prop) : Prop :=
  ∃ (vp : List (ValueId × ValueId)) (bp : List (BlockId × BlockId)), vp.map Prod.fst = vs ∧
    vp.map Prod.snd = vs' ∧ bp.map Prod.fst = bs ∧ bp.map Prod.snd = bs' ∧
    ∀ V B, (∀ p ∈ vp, V p.1 p.2) → (∀ p ∈ bp, B p.1 p.2) → P V B

variable {vs vs' ws ws' : List ValueId} {bs bs' cs cs' : List BlockId}
  {P Q : (ValueId → ValueId → Prop) → (BlockId → BlockId → Prop) → Prop}

theorem Corresponds.append (h : Corresponds vs vs' bs bs' P) (h' : Corresponds ws ws' cs cs' Q) :
    Corresponds (vs ++ ws) (vs' ++ ws') (bs ++ cs) (bs' ++ cs') fun V B => P V B ∧ Q V B := by
  obtain ⟨vp, bp, rfl, rfl, rfl, rfl, hP⟩ := h
  obtain ⟨wp, cp, rfl, rfl, rfl, rfl, hQ⟩ := h'
  refine ⟨vp ++ wp, bp ++ cp, by simp, by simp, by simp, by simp, fun V B hV hB => ?_⟩
  rw [List.forall_mem_append] at hV hB
  exact ⟨hP V B hV.1 hB.1, hQ V B hV.2 hB.2⟩

theorem Corresponds.mono (h : Corresponds vs vs' bs bs' P) (hPQ : ∀ V B, P V B → Q V B) :
    Corresponds vs vs' bs bs' Q := by
  obtain ⟨vp, bp, hv, hv', hb, hb', hP⟩ := h
  exact ⟨vp, bp, hv, hv', hb, hb', fun V B hV hB => hPQ V B (hP V B hV hB)⟩

theorem corresponds_nil (h : ∀ V B, P V B) : Corresponds [] [] [] [] P :=
  ⟨[], [], rfl, rfl, rfl, rfl, fun V B _ _ => h V B⟩

theorem forall₂_of_zip {α : Type} {l l' : List α} (hlen : l.length = l'.length) {V : α → α → Prop}
    (h : ∀ p ∈ l.zip l', V p.1 p.2) : List.Forall₂ V l l' :=
  List.forall₂_iff_zip.mpr ⟨hlen, fun hp => h _ hp⟩

theorem corresponds_values (hlen : vs.length = vs'.length) :
    Corresponds vs vs' [] [] fun V _ => List.Forall₂ V vs vs' :=
  ⟨vs.zip vs', [], List.map_fst_zip hlen.le, List.map_snd_zip hlen.ge, rfl, rfl,
    fun _ _ hV _ => forall₂_of_zip hlen hV⟩

theorem corresponds_blocks (hlen : bs.length = bs'.length) :
    Corresponds [] [] bs bs' fun _ B => List.Forall₂ B bs bs' :=
  ⟨[], bs.zip bs', rfl, rfl, List.map_fst_zip hlen.le, List.map_snd_zip hlen.ge,
    fun _ _ _ hB => forall₂_of_zip hlen hB⟩

/-- Pairs of entries of lists without repetitions are a one-to-one correspondence. -/
theorem biUnique_of_nodup {α : Type} {p : List (α × α)} (hfst : (p.map Prod.fst).Nodup)
    (hsnd : (p.map Prod.snd).Nodup) : Relator.BiUnique fun a a' => (a, a') ∈ p := by
  constructor
  · intro a b c ha hb
    have := List.inj_on_of_nodup_map hsnd ha hb rfl
    simpa using this
  · intro a b c hb hc
    have := List.inj_on_of_nodup_map hfst hb hc rfl
    simpa using this

end Corresponds

end RegionIR
