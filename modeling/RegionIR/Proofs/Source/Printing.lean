import RegionIR.Proofs.Source.Isomorphism
import RegionIR.Proofs.Source.Naming

/-! Isomorphic trees have the same text.

Names depend on the order in which values and labels are met, and on nothing else. Two walks over
isomorphic trees meet corresponding values and blocks together, so they give them the same names. -/

namespace RegionIR

namespace Names

variable {V : ValueId → ValueId → Prop} {B : BlockId → BlockId → Prop}

/-- Corresponding values and blocks have the same names, and the next numbers are the same. -/
structure Agree (V : ValueId → ValueId → Prop) (B : BlockId → BlockId → Prop) (names names' : Names) :
    Prop where
  nextValue : names.nextValue = names'.nextValue
  nextBlock : names.nextBlock = names'.nextBlock
  value {v v' : ValueId} : V v v' → names.value v = names'.value v'
  block {b b' : BlockId} : B b b' → names.block b = names'.block b'

/-- Two walks that give the same from states that agree, and leave such states. -/
def Alike {α : Type} (V : ValueId → ValueId → Prop) (B : BlockId → BlockId → Prop)
    (x x' : Naming α) : Prop :=
  ∀ names names' : Names, Agree V B names names' →
    (x.run names).1 = (x'.run names').1 ∧ Agree V B (x.run names).2 (x'.run names').2

theorem Alike.pure {α : Type} (a : α) : Alike V B (pure a) (pure a) :=
  fun _ _ h => ⟨rfl, h⟩

theorem Alike.bind {α β : Type} {x x' : Naming α} {f f' : α → Naming β} (hx : Alike V B x x')
    (hf : ∀ a, Alike V B (f a) (f' a)) : Alike V B (x >>= f) (x' >>= f') := by
  intro names names' h
  obtain ⟨hresult, hagree⟩ := hx names names' h
  have hnext := hf (x.run names).1 (x.run names).2 (x'.run names').2 hagree
  refine ⟨?_, ?_⟩
  · change ((f (x.run names).1).run (x.run names).2).1 = ((f' (x'.run names').1).run (x'.run names').2).1
    rw [hnext.1, hresult]
  · change Agree V B ((f (x.run names).1).run (x.run names).2).2
      ((f' (x'.run names').1).run (x'.run names').2).2
    rw [← hresult]
    exact hnext.2

theorem alike_get_bind {α : Type} {f f' : Names → Naming α}
    (hf : ∀ names names', Agree V B names names' → Alike V B (f names) (f' names')) :
    Alike V B (get >>= f) (get >>= f') :=
  fun names names' h => hf names names' h names names' h

theorem alike_mapM {α α' β : Type} {f : α → Naming β} {f' : α' → Naming β} {l : List α} {l' : List α'}
    (h : List.Forall₂ (fun a a' => Alike V B (f a) (f' a')) l l') :
    Alike V B (l.mapM f) (l'.mapM f') := by
  induction h with
  | nil => exact .pure []
  | cons hfirst _ ih =>
    rw [List.mapM_cons, List.mapM_cons]
    exact hfirst.bind fun _ => ih.bind fun _ => .pure _

theorem alike_defineValue (hV : Relator.BiUnique V) {v v' : ValueId} (hv : V v v') :
    Alike V B (defineValue v) (defineValue v') := by
  intro names names' h
  have hname : Nat.repr names.nextValue = Nat.repr names'.nextValue := by rw [h.nextValue]
  refine ⟨hname, congrArg (· + 1) h.nextValue, h.nextBlock, fun {w w'} hw => ?_, h.block⟩
  have hold := h.value hw
  simp only [value] at hold
  change (List.lookup w ((v, Nat.repr names.nextValue) :: names.values)).getD "?" =
    (List.lookup w' ((v', Nat.repr names'.nextValue) :: names'.values)).getD "?"
  rw [List.lookup_cons, List.lookup_cons]
  by_cases heq : w = v
  · subst w
    simp [hV.2 hw hv, hname]
  · have hne : w' ≠ v' := by
      rintro rfl
      exact heq (hV.1 hw hv)
    rw [beq_false_of_ne heq, beq_false_of_ne hne]
    exact hold

theorem alike_defineBlock (hB : Relator.BiUnique B) {b b' : BlockId} (hb : B b b') :
    Alike V B (defineBlock b) (defineBlock b') := by
  intro names names' h
  refine ⟨rfl, h.nextValue, congrArg (· + 1) h.nextBlock, h.value, fun {c c'} hc => ?_⟩
  have hold := h.block hc
  simp only [block] at hold
  change (List.lookup c ((b, "bb" ++ Nat.repr names.nextBlock) :: names.blocks)).getD "bb?" =
    (List.lookup c' ((b', "bb" ++ Nat.repr names'.nextBlock) :: names'.blocks)).getD "bb?"
  rw [List.lookup_cons, List.lookup_cons]
  by_cases heq : c = b
  · subst c
    simp [hB.2 hc hb, h.nextBlock]
  · have hne : c' ≠ b' := by
      rintro rfl
      exact heq (hB.1 hc hb)
    rw [beq_false_of_ne heq, beq_false_of_ne hne]
    exact hold

theorem map_eq_of_forall₂ {α γ : Type} {R : α → α → Prop} {f f' : α → γ} {l l' : List α}
    (h : List.Forall₂ R l l') (hf : ∀ a a', R a a' → f a = f' a') : l.map f = l'.map f' := by
  induction h with
  | nil => rfl
  | cons hfirst _ ih => rw [List.map_cons, List.map_cons, hf _ _ hfirst, ih]

theorem alike_head (hV : Relator.BiUnique V) {op op' : Op} (h : op.Matches V B op') :
    Alike V B (head op) (head op') := by
  have hsymbol : liftedSymbol op = liftedSymbol op' := by
    rw [liftedSymbol, h.attrs]
    rfl
  refine (alike_mapM (h.results.imp fun _ _ hv => alike_defineValue hV hv)).bind fun results => ?_
  refine alike_get_bind fun names names' hagree => ?_
  have hoperands := map_eq_of_forall₂ h.operands fun _ _ hv => hagree.value hv
  have hsuccessors := map_eq_of_forall₂ h.successors fun _ _ hb => hagree.block hb
  simp only [h.dialect, h.name, h.attrs, h.resultTypes, hsymbol, hoperands, hsuccessors]
  exact .pure _

section Trees

theorem alike_ops {ops ops' : List OpTree}
    (hops : ∀ t ∈ ops, ∀ t', t.Matches V B t' → Alike V B (nameOp t) (nameOp t'))
    (h : OpTree.AllMatch V B ops ops') : Alike V B (nameOps ops) (nameOps ops') := by
  induction ops generalizing ops' with
  | nil =>
    cases ops' with
    | nil => exact .pure []
    | cons t' ops' => exact h.elim
  | cons t ops ih =>
    cases ops' with
    | nil => exact h.elim
    | cons t' ops' =>
      rw [List.forall_mem_cons] at hops
      exact (hops.1 t' h.1).bind fun _ => (ih hops.2 h.2).bind fun _ => .pure _

theorem alike_defineBlocks (hB : Relator.BiUnique B) {blocks blocks' : List BlockTree}
    (h : BlockTree.AllMatch V B blocks blocks') :
    Alike V B (blocks.forM fun b => defineBlock b.id) (blocks'.forM fun b => defineBlock b.id) := by
  induction blocks generalizing blocks' with
  | nil =>
    cases blocks' with
    | nil => exact .pure ()
    | cons b' blocks' => exact h.elim
  | cons b blocks ih =>
    cases blocks' with
    | nil => exact h.elim
    | cons b' blocks' =>
      obtain ⟨id, args, ops⟩ := b
      obtain ⟨id', args', ops'⟩ := b'
      exact (alike_defineBlock hB h.1.1).bind fun _ => ih h.2

theorem alike_blocks (hV : Relator.BiUnique V) {blocks blocks' : List BlockTree}
    (hblocks : ∀ b ∈ blocks, ∀ t ∈ b.ops, ∀ t', t.Matches V B t' → Alike V B (nameOp t) (nameOp t'))
    (h : BlockTree.AllMatch V B blocks blocks') :
    Alike V B (nameBlocks blocks) (nameBlocks blocks') := by
  induction blocks generalizing blocks' with
  | nil =>
    cases blocks' with
    | nil => exact .pure []
    | cons b' blocks' => exact h.elim
  | cons b blocks ih =>
    cases blocks' with
    | nil => exact h.elim
    | cons b' blocks' =>
      obtain ⟨id, args, ops⟩ := b
      obtain ⟨id', args', ops'⟩ := b'
      obtain ⟨⟨hb, hargs, hops⟩, hrest⟩ := h
      rw [List.forall_mem_cons] at hblocks
      refine Alike.bind ?_ fun _ => (ih hblocks.2 hrest).bind fun _ => .pure _
      refine alike_get_bind fun names names' hagree => ?_
      rw [hagree.block hb]
      refine (alike_mapM (hargs.imp fun a a' ha => ?_)).bind fun args =>
        (alike_ops hblocks.1 hops).bind fun _ => .pure _
      rw [ha.2]
      exact (alike_defineValue hV ha.1).bind fun _ => .pure _

/-- Whether the label of the only block is left out is seen in either tree. -/
theorem isFlat_iff_of_matches {r r' : RegionTree} (h : r.Matches V B r') : r.isFlat ↔ r'.isFlat := by
  obtain ⟨id, blocks⟩ := r
  obtain ⟨id', blocks'⟩ := r'
  rw [RegionTree.isFlat_iff, RegionTree.isFlat_iff]
  rcases blocks with _ | ⟨⟨b, _ | ⟨a, args⟩, ops⟩, _ | ⟨c, blocks⟩⟩ <;>
    rcases blocks' with _ | ⟨⟨b', _ | ⟨a', args'⟩, ops'⟩, _ | ⟨c', blocks'⟩⟩ <;>
    simp_all [RegionTree.Matches, BlockTree.AllMatch, BlockTree.Matches]

theorem alike_region (hV : Relator.BiUnique V) (hB : Relator.BiUnique B) {r r' : RegionTree}
    (hr : ∀ b ∈ r.blocks, ∀ t ∈ b.ops, ∀ t', t.Matches V B t' → Alike V B (nameOp t) (nameOp t'))
    (h : r.Matches V B r') : Alike V B (nameRegion r) (nameRegion r') := by
  obtain ⟨id, blocks⟩ := r
  obtain ⟨id', blocks'⟩ := r'
  have hsame := isFlat_iff_of_matches h
  by_cases hflat : (RegionTree.node id blocks).isFlat
  · obtain ⟨b, ops, rfl⟩ := RegionTree.isFlat_iff.mp hflat
    obtain ⟨b', ops', rfl⟩ := RegionTree.isFlat_iff.mp (hsame.mp hflat)
    exact (alike_ops (hr _ List.mem_cons_self) h.1.2.2).bind fun _ => .pure _
  · have hshape : ∀ b ops, blocks = [.node b [] ops] → False := fun b ops heq =>
      hflat (RegionTree.isFlat_iff.mpr ⟨b, ops, heq⟩)
    have hshape' : ∀ b ops, blocks' = [.node b [] ops] → False := fun b ops heq =>
      hflat (hsame.mpr (RegionTree.isFlat_iff.mpr ⟨b, ops, heq⟩))
    rw [nameRegion.eq_2 _ _ hshape, nameRegion.eq_2 _ _ hshape']
    exact (alike_defineBlocks hB h).bind fun _ => (alike_blocks hV hr h).bind fun _ => .pure _

theorem alike_op (hV : Relator.BiUnique V) (hB : Relator.BiUnique B) (t : OpTree) :
    ∀ t', t.Matches V B t' → Alike V B (nameOp t) (nameOp t') := by
  refine OpTree.forall_of (P := fun t => ∀ t', t.Matches V B t' → Alike V B (nameOp t) (nameOp t'))
    (Q := fun r => ∀ r', r.Matches V B r' → Alike V B (nameRegion r) (nameRegion r'))
    (R := fun b => ∀ t ∈ b.ops, ∀ t', t.Matches V B t' → Alike V B (nameOp t) (nameOp t'))
    ?_ (fun _ _ ih _ h => alike_region hV hB ih h) (fun _ _ _ ih => ih) t
  rintro id op regions ih ⟨id', op', regions'⟩ ⟨hop, hregions⟩
  refine (alike_head hV hop).bind fun _ => Alike.bind ?_ fun _ => .pure _
  clear hop
  induction regions generalizing regions' with
  | nil =>
    cases regions' with
    | nil => exact .pure []
    | cons r' regions' => exact hregions.elim
  | cons r regions ihr =>
    cases regions' with
    | nil => exact hregions.elim
    | cons r' regions' =>
      rw [List.forall_mem_cons] at ih
      exact (ih.1 r' hregions.1).bind fun _ => (ihr ih.2 regions' hregions.2).bind fun _ => .pure _

end Trees

end Names

theorem OpTree.Isomorphic.toSource_eq {t t' : OpTree} (h : t.Isomorphic t') :
    t.toSource = t'.toSource := by
  obtain ⟨V, B, hV, hB, hmatch⟩ := h
  exact (Names.alike_op hV hB t t' hmatch {} {} ⟨rfl, rfl, fun _ => rfl, fun _ => rfl⟩).1

theorem Context.print_of_opTree {ctx : Context} {id : OpId} {t : OpTree}
    (ht : ctx.opTree id = .ok t) : ctx.print id = .ok t.text := by
  rw [print, ht]
  rfl

end RegionIR
