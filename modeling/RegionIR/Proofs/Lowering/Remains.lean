import RegionIR.Proofs.Lowering.Forward
import RegionIR.Proofs.Lowering.Texts
import RegionIR.Proofs.Source.Moving

/-! What a lowering that succeeds has left.

What is left of a body uses what is left only, so every operation in it is what one pass makes of it. Its
types are lowered types of the body or fields of such. So it can be told from the body before the lowering
whether the text of what is left is read back. -/

namespace RegionIR

namespace Op

variable {op form : Op} {types : ValueId → Ty}

theorem Becomes.successors (h : op.Becomes form) : form.successors ⊆ op.successors := by
  have hlowered {op' : Op} {types : ValueId → Ty} (hl : op.lowering id types = some op') :
      op'.successors ⊆ op.successors := by
    rcases lowering_eq_some_iff.mp hl with ⟨type, -, -, -, rfl⟩ | ⟨_, _, _, field, type, -, -, -, rfl⟩
    · exact List.nil_subset _
    · exact List.nil_subset _
  cases h with
  | same => exact List.Subset.refl _
  | retyped => exact List.Subset.refl _
  | lowered hl => exact hlowered hl
  | settled hl => exact fun b hb => hlowered hl hb

theorem Becomes.narrows (h : op.Becomes form) : form.Narrows op :=
  ⟨h.operands, h.results, h.successors⟩

theorem not_isGet_of_isNew (h : op.is "adt" "tuple_new") : op.is "adt" "tuple_get" = false := by
  rw [Bool.eq_false_iff]
  intro hget
  rw [not_isNew_of_isGet hget] at h
  exact Bool.noConfusion h

/-- What an operation is when it is done, by the types of its operands: retyped, a construction of a
lowered struct, or an extraction of a field. -/
inductive Done (op : Op) (types : ValueId → Ty) : Op → Prop
  | retyped : op.isTupleOp = false → Done op types op.retyped
  | construction {type : Ty} : op.is "adt" "tuple_new" → op.resultTypes = [type] →
      Done op types (op.toStructNew type.lowered)
  | extraction {v : ValueId} {field : String × Ty} : op.is "adt" "tuple_get" → v ∈ op.operands →
      field ∈ (types v).structFields.getD [] →
      Done op types (op.toStructExtract field.1 field.2.lowered)

theorem done_visited (h : (op.visited Ty.lowered types).isTupleOp = false) :
    op.Done types (op.visited Ty.lowered types) := by
  rcases visited_cases Ty.lowered types op with ⟨op', hl, he⟩ | ⟨htuple, -, he⟩ | ⟨htuple, he⟩
  · rw [he]
    rcases lowering_eq_some_iff.mp hl with
      ⟨type, hc, -, -, rfl⟩ | ⟨v, i, fields, field, type, hx, hf, hi, rfl⟩
    · obtain ⟨hnew, -, htype⟩ := construction?_eq_some_iff.mp hc
      exact .construction hnew htype
    · obtain ⟨hget, hoperands, -⟩ := extraction?_eq_some_iff.mp hx
      have hfield : (field, type) ∈ (types v).structFields.getD [] := by
        simpa [hf] using List.mem_of_getElem? hi
      exact .extraction hget (by simp [hoperands]) hfield
  · rw [he, htuple] at h
    exact absurd h (by simp)
  · rw [he]
    exact .retyped htuple

/-- Whether the types that a lowering of the operation keeps may be moved. An extraction gets another
type, and tuple operations lose their attributes. -/
def IsMovable (op : Op) : Prop :=
  (op.is "adt" "tuple_get" = false → ∀ ty ∈ op.resultTypes, ty.isMovable) ∧
    (op.isTupleOp = false → ∀ e ∈ op.attrs, e.2.isMovable)

instance (op : Op) : Decidable op.IsMovable :=
  inferInstanceAs (Decidable (_ ∧ _))

namespace Done

variable {P : Ty → Prop} {Q : String × Attr Ty → Prop}

theorem resultTypes (h : op.Done types form)
    (hown : op.is "adt" "tuple_get" = false → ∀ ty ∈ op.resultTypes, P ty.lowered)
    (hfields : ∀ v ∈ op.operands, ∀ f ∈ (types v).structFields.getD [], P f.2.lowered) :
    ∀ ty ∈ form.resultTypes, P ty := by
  cases h with
  | retyped htuple =>
    rw [Op.isTupleOp, Bool.or_eq_false_iff] at htuple
    exact List.forall_mem_map.mpr (hown htuple.2)
  | construction hnew htype =>
    exact List.forall_mem_singleton.mpr (hown (not_isGet_of_isNew hnew) _ (htype ▸ List.mem_cons_self))
  | extraction _ hv hf => exact List.forall_mem_singleton.mpr (hfields _ hv _ hf)

theorem attrs (h : op.Done types form)
    (hown : op.isTupleOp = false → ∀ e ∈ op.attrs, Q (e.1, e.2.lowered))
    (hfield : ∀ field, Q ("field", .symbol field)) : ∀ e ∈ form.attrs, Q e := by
  cases h with
  | retyped htuple => exact List.forall_mem_map.mpr (hown htuple)
  | construction => exact fun e he => absurd he List.not_mem_nil
  | extraction => exact List.forall_mem_singleton.mpr (hfield _)

theorem isName (h : op.Done types form) (hd : Text.isName op.dialect) (hn : Text.isName op.name) :
    Text.isName form.dialect ∧ Text.isName form.name := by
  cases h with
  | retyped => exact ⟨hd, hn⟩
  | construction => exact ⟨hd, show Text.isName "struct_new" by decide⟩
  | extraction => exact ⟨hd, show Text.isName "struct_extract" by decide⟩

theorem isMovable (h : op.Done types form) (hop : op.isReadable) (hform : form.isReadable) :
    op.IsMovable := by
  rw [Op.isReadable_iff] at hop hform
  obtain ⟨-, -, hattrs, htypes⟩ := hop
  obtain ⟨-, -, hattrs', htypes'⟩ := hform
  have hmovable {ty : Ty} (hty : ty ∈ op.resultTypes) (hlowered : ty.lowered.isReadable) :
      ty.isMovable := (isReadable_lowered_iff.1 ty (htypes ty hty)).mp hlowered
  cases h with
  | retyped =>
    simp only [Op.retyped, Dict.lowered, List.forall_mem_map] at hattrs' htypes'
    exact ⟨fun _ ty hty => hmovable hty (htypes' ty hty), fun _ e he =>
      (isReadable_lowered_iff.2 e.2 (hattrs e he).2).mp (hattrs' e he).2⟩
  | construction hnew htype =>
    refine ⟨fun _ ty hty => hmovable hty ?_, fun h => by simp [Op.isTupleOp, hnew] at h⟩
    rw [htype, List.mem_singleton] at hty
    exact hty ▸ htypes' _ List.mem_cons_self
  | extraction hget =>
    exact ⟨fun h => by simp [hget] at h, fun h => by simp [Op.isTupleOp, hget] at h⟩

theorem isReadable (h : op.Done types form) (hop : op.isReadable) (hmovable : op.IsMovable)
    (htypes : ∀ ty ∈ form.resultTypes, ty.isReadable) : form.isReadable := by
  rw [Op.isReadable_iff] at hop ⊢
  obtain ⟨hd, hn, hattrs, -⟩ := hop
  obtain ⟨hd', hn'⟩ := h.isName hd hn
  refine ⟨hd', hn', h.attrs (Q := fun e => Text.isName e.1 ∧ e.2.isReadable) (fun htuple e he => ?_)
    fun _ => ⟨show Text.isName "field" by decide, rfl⟩, htypes⟩
  exact ⟨(hattrs e he).1, (isReadable_lowered_iff.2 e.2 (hattrs e he).2).mpr (hmovable.2 htuple e he)⟩

end Done

theorem isMovable_pruned : op.pruned.IsMovable ↔ op.IsMovable := by
  unfold pruned
  split <;> rfl

end Op

/-- Whether the types that a lowering of the region keeps may be moved. -/
def RegionTree.IsMovable (t : RegionTree) : Prop :=
  (∀ o ∈ t.preorder, o.2.IsMovable) ∧ ∀ b ∈ t.allBlocks, ∀ a ∈ b.args, a.2.isMovable

instance (t : RegionTree) : Decidable t.IsMovable :=
  inferInstanceAs (Decidable (_ ∧ _))

namespace Context

variable {ctx ctx' : Context} {t : RegionTree} {s : Progress} {m : OpId} {result : Engine.Result}
  {image : OpId → OpId} {subst : ValueId → ValueId}

theorem Steps.isScoped_tree (hc : ctx.Confined t) (h : ctx.Steps t (start ctx t) s)
    (hscoped : t.isScoped []) : (s.tree t).isScoped [] := by
  refine RegionTree.isScoped_recast (fun o ho => ?_) hscoped
  have hbecomes := (h.becomes o.1).narrows
  rwa [raw_of_some (hc.held.op?_of_mem ho)] at hbecomes

theorem mem_tree {o : OpId} (ho : o ∈ (s.tree t).opIds) : (o, s.forms o) ∈ (s.tree t).preorder := by
  obtain ⟨⟨o, form⟩, hmem, rfl⟩ := List.mem_map.mp ho
  obtain ⟨-, -, rfl⟩ := RegionTree.mem_preorder_recast hmem
  exact hmem

/-- An operand of what is left is an argument or a result of what is left, as it is by then. -/
theorem Steps.operand_tree (hc : ctx.Confined t) (h : ctx.Steps t (start ctx t) s)
    (hscoped : t.isScoped []) {o : OpId} (ho : o ∈ (s.tree t).opIds) {v : ValueId}
    (hv : v ∈ (ctx.raw o).operands) :
    (∃ b i ty, ctx.value? v = some ⟨.argument b i, ty⟩ ∧
      ∃ b' ∈ (s.tree t).allBlocks, (v, ty.lowered) ∈ b'.args) ∨
    ∃ p ∈ (s.tree t).opIds, ∃ i ty, ctx.value? v = some ⟨.result p i, ty⟩ := by
  rw [← (h.becomes o).operands] at hv
  have hdef := RegionTree.operands_subset (h.isScoped_tree hc hscoped) _ (mem_tree ho) hv
  rcases mem_definedValues.mp hdef with ⟨b', hb', ha⟩ | ⟨⟨p, form⟩, hp, hr⟩
  · left
    obtain ⟨⟨id, args, ops⟩, hb, rfl⟩ := RegionTree.mem_allBlocks_recast hb'
    rw [BlockTree.recast_node] at ha hb'
    obtain ⟨a', ha', rfl⟩ := List.mem_map.mp ha
    obtain ⟨a, hmem, rfl⟩ := List.mem_map.mp ha'
    obtain ⟨hblk, hargs, hvals, -, -⟩ := hc.held.block hb
    have harg := List.mem_map_of_mem (f := Prod.fst) hmem
    rw [← hargs] at harg
    obtain ⟨i, hi⟩ := List.mem_iff_getElem?.mp harg
    obtain ⟨ty, -, hval⟩ := hc.sound.typed.argument hblk hi
    obtain ⟨value, hval', hty⟩ := hvals a hmem
    rw [hval] at hval'
    cases Option.some.inj hval'
    subst hty
    exact ⟨_, i, a.2, hval, _, hb', ha'⟩
  · right
    obtain ⟨op, hmem, rfl⟩ := RegionTree.mem_preorder_recast hp
    rw [(h.becomes p).results, raw_of_some (hc.held.op?_of_mem hmem)] at hr
    obtain ⟨i, hi⟩ := List.mem_iff_getElem?.mp hr
    obtain ⟨ty, -, hval⟩ := hc.sound.typed.result (hc.held.op?_of_mem hmem) hi
    exact ⟨p, List.mem_map_of_mem hp, i, ty, hval⟩

theorem Steps.closed_tree (hc : ctx.Confined t) (h : ctx.Steps t (start ctx t) s)
    (hscoped : t.isScoped []) : ctx.Closed t (s.tree t).opIds := by
  refine ⟨fun o ho => RegionTree.opIds_recast_subset ho, fun ho hv hval => ?_⟩
  rcases h.operand_tree hc hscoped ho hv with ⟨b, i, ty, hval', -⟩ | ⟨p, hp, i, ty, hval'⟩
  · simp [hval] at hval'
  · rw [hval] at hval'
    simp only [Option.some.injEq, Value.mk.injEq, Origin.result.injEq] at hval'
    exact hval'.1.1 ▸ hp

/-- After a lowering that succeeds every operation that is left is done, by the types that there are
in the end. -/
theorem Lowers.done (hc : ctx.Confined t) (hio : t.InOrder) (hscoped : t.isScoped [])
    (h : ctx.Lowers m t ctx' result [] s image subst) {o : OpId} (ho : o ∈ (s.tree t).opIds) :
    (ctx.raw o).Done (ctx.typeUnder s.forms) (s.forms o) := by
  obtain ⟨ending, hends, -⟩ := h.ends
  have hclosed := h.steps.closed_tree hc hscoped
  have hlegal := h.left_nil.mp rfl
  have hforms : ∀ o ∈ (s.tree t).opIds, s.forms o = ctx.forwardForms t o := by
    refine (h.steps.forward hc hio hclosed hends).resolve_right ?_
    rintro ⟨p, hp, hmisleads, hform⟩
    have hdone := (hlegal p hp).1
    rw [hform, hmisleads.1] at hdone
    exact Bool.noConfusion hdone
  have htypes : ∀ v ∈ (ctx.raw o).operands,
      ctx.typeUnder (ctx.forwardForms t) v = ctx.typeUnder s.forms v := fun v hv =>
    typeUnder_congr fun p i ty hval => (hforms p (hclosed.definer ho hv hval)).symm
  have hform := forwardForms_eq hc hio (hclosed.subset ho)
  rw [Op.visited_congr htypes, ← hforms o ho] at hform
  have hdone := (hlegal o ho).1
  rw [hform] at hdone ⊢
  exact Op.done_visited hdone

/-- What holds of the arguments and of the results that keep their types, and of the fields of such
types, holds of all results that are left. -/
theorem Lowers.resultTypes_of (hc : ctx.Confined t) (hio : t.InOrder) (hscoped : t.isScoped [])
    (h : ctx.Lowers m t ctx' result [] s image subst) {P : Ty → Prop}
    (hfields : ∀ ty, P ty → ∀ f ∈ ty.structFields.getD [], P f.2)
    (hargs : ∀ b ∈ (s.tree t).allBlocks, ∀ a ∈ b.args, P a.2)
    (hops : ∀ o ∈ (s.tree t).opIds, (ctx.raw o).is "adt" "tuple_get" = false →
      ∀ ty ∈ (ctx.raw o).resultTypes, P ty.lowered) :
    ∀ o ∈ (s.tree t).opIds, ∀ ty ∈ (s.forms o).resultTypes, P ty := by
  suffices hpre : ∀ pre post, t.opIds = pre ++ post → ∀ o ∈ pre, o ∈ (s.tree t).opIds →
      ∀ ty ∈ (s.forms o).resultTypes, P ty by
    exact fun o ho => hpre t.opIds [] (by simp) o (RegionTree.opIds_recast_subset ho) ho
  intro pre
  induction pre using List.reverseRecOn with
  | nil => simp
  | append_singleton pre o ih =>
    intro post hsplit
    rw [List.append_assoc, List.singleton_append] at hsplit
    refine List.forall_mem_append.mpr ⟨ih _ hsplit, List.forall_mem_singleton.mpr fun ho => ?_⟩
    refine (h.done hc hio hscoped ho).resultTypes (hops o ho) fun v hv f hf => ?_
    have hform := (h.left_nil.mp rfl o ho).2.1 v (((h.steps.becomes o).operands) ▸ hv)
    rw [Ty.lowered_of_tupleFree (Ty.tupleFree_of_mem_structFields hform f hf)]
    refine hfields _ ?_ f hf
    rcases origin_of_inOrder hc hio hsplit hv with ⟨b, i, ty, hval⟩ | ⟨p, hp, i, ty, hval, hi⟩
    · rcases h.steps.operand_tree hc hscoped ho hv with
        ⟨b, i, ty, hval, b', hb', ha⟩ | ⟨p, -, i, ty', hval'⟩
      · simp only [typeUnder, hval]
        exact hargs b' hb' _ ha
      · simp [hval] at hval'
    · have hpo := (h.steps.closed_tree hc hscoped).definer ho hv hval
      exact ih _ hsplit p hp hpo _ (typeUnder_mem_resultTypes hc (RegionTree.opIds_recast_subset hpo)
        (h.steps.becomes p) hval hi)

/-- What is left after a lowering of a readable region is readable if the types that it keeps may be
moved, and only then. The type of an extraction's result may come from a field of the struct it reads,
so the result types of the whole tree are settled before any single operation. -/
theorem Lowers.isReadable_tree_iff (hc : ctx.Confined t) (hio : t.InOrder) (hscoped : t.isScoped [])
    (h : ctx.Lowers m t ctx' result [] s image subst) (hreadable : t.isReadable) :
    (s.tree t).isReadable ↔ t.kept.IsMovable := by
  obtain ⟨hraws, hrawArgs⟩ := RegionTree.opsReadable hreadable
  obtain ⟨hops, hargs⟩ := h.steps.tree_alike hc fun o ho => (h.left_nil.mp rfl o ho).1
  have hkept {o : OpId × Op} (ho : o ∈ t.kept.preorder) :
      o.1 ∈ (s.tree t).opIds ∧ (ctx.raw o.1).isReadable ∧ o.2 = (ctx.raw o.1).pruned := by
    obtain ⟨op, hmem, he⟩ := RegionTree.mem_preorder_recast ho
    rw [raw_of_some (hc.held.op?_of_mem hmem)]
    refine ⟨?_, hraws _ hmem, he⟩
    rw [RegionTree.opIds, hops, List.map_map]
    exact List.mem_map_of_mem ho
  have hkeptArgs {b : BlockTree} (hb : b ∈ t.kept.allBlocks) {a : ValueId × Ty} (ha : a ∈ b.args) :
      a.2.isReadable := by
    obtain ⟨⟨id, args, ops⟩, hmem, rfl⟩ := RegionTree.mem_allBlocks_recast hb
    rw [BlockTree.recast_node] at ha
    obtain ⟨a', ha', rfl⟩ := List.mem_map.mp ha
    exact hrawArgs _ hmem a' ha'
  have hargsIff : (∀ b ∈ (s.tree t).allBlocks, ∀ a ∈ b.args, a.2.isReadable) ↔
      ∀ b ∈ t.kept.allBlocks, ∀ a ∈ b.args, a.2.isMovable := by
    have hlists := List.forall_mem_map (f := BlockTree.args) (l := (s.tree t).allBlocks)
      (P := fun args => ∀ a ∈ args, a.2.isReadable)
    rw [← hlists, hargs]
    simp only [List.forall_mem_map]
    exact forall₂_congr fun b hb => forall₂_congr fun a ha =>
      isReadable_lowered_iff.1 a.2 (hkeptArgs hb ha)
  have hopsIff : (∀ o ∈ (s.tree t).preorder, o.2.isReadable) ↔
      ∀ o ∈ t.kept.preorder, (s.forms o.1).isReadable := by
    rw [hops, List.forall_mem_map]
  constructor
  · intro htree
    obtain ⟨hforms, hformArgs⟩ := RegionTree.opsReadable htree
    refine ⟨fun o ho => ?_, hargsIff.mp hformArgs⟩
    obtain ⟨hmem, hraw, he⟩ := hkept ho
    rw [he, Op.isMovable_pruned]
    exact (h.done hc hio hscoped hmem).isMovable hraw (hopsIff.mp hforms o ho)
  · rintro ⟨hmovable, hmovableArgs⟩
    have hmovable' {o : OpId} (ho : o ∈ (s.tree t).opIds) :
        (ctx.raw o).isReadable ∧ (ctx.raw o).IsMovable := by
      rw [RegionTree.opIds, hops, List.map_map] at ho
      obtain ⟨p, hp, rfl⟩ := List.mem_map.mp ho
      obtain ⟨-, hraw, he⟩ := hkept hp
      exact ⟨hraw, Op.isMovable_pruned.mp (he ▸ hmovable p hp)⟩
    have htypes := h.resultTypes_of hc hio hscoped (P := fun ty => ty.isReadable)
      (fun ty hty f hf => Ty.isReadable_of_mentions hty (Ty.mentions_of_mem_structFields hf))
      (hargsIff.mpr hmovableArgs) fun o ho hget ty hty => by
        obtain ⟨hraw, hmove⟩ := hmovable' ho
        have hread := (Op.isReadable_iff.mp hraw).2.2.2 ty hty
        exact (isReadable_lowered_iff.1 ty hread).mpr (hmove.1 hget ty hty)
    refine RegionTree.isReadable_recast hreadable ⟨hopsIff.mpr fun o ho => ?_,
      hargsIff.mpr hmovableArgs⟩
    obtain ⟨hmem, hraw, -⟩ := hkept ho
    exact (h.done hc hio hscoped hmem).isReadable hraw (hmovable' hmem).2 (htypes o.1 hmem)

/-- What is left after a lowering of a region with canonical types has canonical types. -/
theorem Lowers.canonical (hc : ctx.Confined t) (hio : t.InOrder) (hscoped : t.isScoped [])
    (h : ctx.Lowers m t ctx' result [] s image subst)
    (htypes : ∀ o ∈ t.preorder, ∀ ty ∈ o.2.resultTypes, ty.Canonical)
    (hattrs : ∀ o ∈ t.preorder, ∀ e ∈ o.2.attrs, e.2.Canonical)
    (hargs : ∀ b ∈ t.allBlocks, ∀ a ∈ b.args, a.2.Canonical) :
    (∀ o ∈ (s.tree t).preorder, (∀ ty ∈ o.2.resultTypes, ty.Canonical) ∧
      ∀ e ∈ o.2.attrs, e.2.Canonical) ∧
    ∀ b ∈ (s.tree t).allBlocks, ∀ a ∈ b.args, a.2.Canonical := by
  have hraw {o : OpId} (ho : o ∈ (s.tree t).opIds) : (o, ctx.raw o) ∈ t.preorder :=
    hc.held.mem_preorder_raw (RegionTree.opIds_recast_subset ho)
  have hargs' : ∀ b ∈ (s.tree t).allBlocks, ∀ a ∈ b.args, a.2.Canonical := by
    intro b hb a ha
    obtain ⟨⟨id, args, ops⟩, hmem, rfl⟩ := RegionTree.mem_allBlocks_recast hb
    rw [BlockTree.recast_node] at ha
    obtain ⟨a', ha', rfl⟩ := List.mem_map.mp ha
    exact canonical_lowered.1 a'.2 (hargs _ hmem a' ha')
  have htypes' := h.resultTypes_of hc hio hscoped
    (fun ty hty f hf => Ty.canonical_of_mentions hty (Ty.mentions_of_mem_structFields hf)) hargs'
    fun o ho _ ty hty => canonical_lowered.1 ty (htypes _ (hraw ho) ty hty)
  refine ⟨?_, hargs'⟩
  rintro ⟨o, form⟩ ho
  have hid : o ∈ (s.tree t).opIds := List.mem_map_of_mem ho
  obtain ⟨op, hmem, rfl⟩ := RegionTree.mem_preorder_recast ho
  exact ⟨htypes' o hid, (h.done hc hio hscoped hid).attrs (Q := fun e => e.2.Canonical)
    (fun _ e he => canonical_lowered.2 e.2 (hattrs _ (hraw hid) e he)) fun _ => rfl⟩

end Context

end RegionIR
