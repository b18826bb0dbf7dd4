import RegionIR.Proofs.Source.Acceptance

/-! Nothing but messages depends on where operations are written.

Reading a text back gives the operations that were printed at the places where they stand in the
text; whether they resolve and what they mean is the same. -/

namespace RegionIR

@[simp] theorem SourceOp.head_unplaced_results (s : SourceOp) : s.unplaced.head.results = s.head.results := by
  cases s
  rfl

@[simp] theorem SourceBlock.label_unplaced (b : SourceBlock) : b.unplaced.label = b.label := by
  cases b
  rfl

@[simp] theorem SourceBlock.args_unplaced (b : SourceBlock) : b.unplaced.args = b.args := by
  cases b
  rfl

@[simp] theorem SourceBlock.argNames_unplaced (b : SourceBlock) : b.unplaced.argNames = b.argNames := by
  simp [SourceBlock.argNames]

theorem allResolvable_unplaced {ops : List SourceOp}
    (hops : ∀ s ∈ ops, ∀ values labels, s.unplaced.Resolvable values labels ↔ s.Resolvable values labels)
    (values labels : List String) :
    SourceOp.AllResolvable values labels (SourceOp.allUnplaced ops) ↔
      SourceOp.AllResolvable values labels ops := by
  induction ops generalizing values with
  | nil => rfl
  | cons s ops ih =>
    rw [List.forall_mem_cons] at hops
    simp only [SourceOp.allUnplaced, SourceOp.AllResolvable, SourceOp.head_unplaced_results]
    rw [hops.1, ih hops.2]

theorem SourceOp.resolvable_unplaced (s : SourceOp) (values labels : List String) :
    s.unplaced.Resolvable values labels ↔ s.Resolvable values labels := by
  refine SourceOp.forall_of
    (P := fun s => ∀ values labels, s.unplaced.Resolvable values labels ↔ s.Resolvable values labels)
    (Q := fun r => ∀ values labels, r.unplaced.Resolvable values labels ↔ r.Resolvable values labels)
    (R := fun b => ∀ s ∈ b.ops, ∀ values labels,
      s.unplaced.Resolvable values labels ↔ s.Resolvable values labels)
    ?_ ?_ (fun _ _ _ ih => ih) s values labels
  · intro head regions ih values labels
    have hregions : SourceRegion.AllResolvable values labels (SourceRegion.allUnplaced regions) ↔
        SourceRegion.AllResolvable values labels regions := by
      induction regions with
      | nil => rfl
      | cons r regions ihr =>
        rw [List.forall_mem_cons] at ih
        simp only [SourceRegion.allUnplaced, SourceRegion.AllResolvable]
        rw [ih.1, ihr ih.2]
    simp only [SourceOp.unplaced, SourceOp.Resolvable, hregions]
  · intro blocks ih values labels
    have hblocks (values labels : List String) :
        SourceBlock.AllResolvable values labels (blocks.map SourceBlock.unplaced) ↔
          SourceBlock.AllResolvable values labels blocks := by
      induction blocks generalizing values with
      | nil => rfl
      | cons b blocks ihb =>
        obtain ⟨label, args, ops⟩ := b
        rw [List.forall_mem_cons] at ih
        have hresults : (SourceOp.allUnplaced ops).flatMap (·.head.results) =
            ops.flatMap (·.head.results) := by
          rw [SourceOp.allUnplaced_eq, List.flatMap_map]
          simp
        simp only [List.map_cons, SourceBlock.unplaced, SourceBlock.AllResolvable, hresults]
        have hops : SourceOp.AllResolvable values labels (SourceOp.allUnplaced ops) ↔
            SourceOp.AllResolvable values labels ops := allResolvable_unplaced ih.1 values labels
        rw [hops, ihb ih.2]
    simp only [SourceRegion.unplaced, SourceRegion.Resolvable, SourceBlock.allUnplaced_eq, hblocks,
      List.map_map, List.flatMap_map, Function.comp_def, SourceBlock.label_unplaced,
      SourceBlock.argNames_unplaced]

theorem Scope.enter_unplaced (scope : Scope) (blocks : List SourceBlock)
    (bs : List (BlockId × List ValueId)) :
    scope.enter (blocks.map SourceBlock.unplaced) bs = scope.enter blocks bs := by
  induction blocks generalizing scope bs with
  | nil => rfl
  | cons b blocks ih =>
    obtain ⟨label, args, ops⟩ := b
    cases bs with
    | nil => rfl
    | cons e bs => exact ih _ bs

theorem Scope.after_unplaced (scope : Scope) (ops : List SourceOp) (ts : List OpTree) :
    scope.after (SourceOp.allUnplaced ops) ts = scope.after ops ts := by
  induction ops generalizing scope ts with
  | nil => rfl
  | cons s ops ih =>
    cases ts with
    | nil => rfl
    | cons t ts => simp only [SourceOp.allUnplaced, Scope.after, SourceOp.head_unplaced_results, ih]

theorem allMean_unplaced {ops : List SourceOp}
    (hops : ∀ s ∈ ops, ∀ scope t, s.unplaced.Means scope t ↔ s.Means scope t)
    (scope : Scope) (ts : List OpTree) :
    SourceOp.AllMean scope (SourceOp.allUnplaced ops) ts ↔ SourceOp.AllMean scope ops ts := by
  induction ops generalizing scope ts with
  | nil => rfl
  | cons s ops ih =>
    rw [List.forall_mem_cons] at hops
    cases ts with
    | nil => rfl
    | cons t ts =>
      simp only [SourceOp.allUnplaced, SourceOp.AllMean, SourceOp.head_unplaced_results]
      rw [hops.1, ih hops.2]

theorem SourceOp.means_unplaced (s : SourceOp) (scope : Scope) (t : OpTree) :
    s.unplaced.Means scope t ↔ s.Means scope t := by
  refine SourceOp.forall_of (P := fun s => ∀ scope t, s.unplaced.Means scope t ↔ s.Means scope t)
    (Q := fun r => ∀ scope t, r.unplaced.Means scope t ↔ r.Means scope t)
    (R := fun b => ∀ s ∈ b.ops, ∀ scope t, s.unplaced.Means scope t ↔ s.Means scope t)
    ?_ ?_ (fun _ _ _ ih => ih) s scope t
  · rintro head regions ih scope ⟨id, op, trees⟩
    have hregions : SourceRegion.AllMean scope (SourceRegion.allUnplaced regions) trees ↔
        SourceRegion.AllMean scope regions trees := by
      induction regions generalizing trees with
      | nil => rfl
      | cons r regions ihr =>
        rw [List.forall_mem_cons] at ih
        cases trees with
        | nil => rfl
        | cons u trees =>
          simp only [SourceRegion.allUnplaced, SourceRegion.AllMean]
          rw [ih.1, ihr ih.2]
    have hhead : SourceHead.Means scope { head with offset := 0 } op ↔ head.Means scope op :=
      ⟨fun h => ⟨h.dialect, h.name, h.operands, h.successors, h.resultTypes, h.results, h.attrs⟩,
        fun h => ⟨h.dialect, h.name, h.operands, h.successors, h.resultTypes, h.results, h.attrs⟩⟩
    simp only [SourceOp.unplaced, SourceOp.Means, hregions, hhead]
  · rintro blocks ih scope ⟨id, trees⟩
    have hblocks (scope : Scope) : SourceBlock.AllMean scope (blocks.map SourceBlock.unplaced) trees ↔
        SourceBlock.AllMean scope blocks trees := by
      induction blocks generalizing scope trees with
      | nil => rfl
      | cons b blocks ihb =>
        obtain ⟨label, args, ops⟩ := b
        rw [List.forall_mem_cons] at ih
        cases trees with
        | nil => rfl
        | cons u trees =>
          obtain ⟨bid, targs, ts⟩ := u
          simp only [List.map_cons, SourceBlock.unplaced, SourceBlock.AllMean, Scope.after_unplaced]
          have hops : SourceOp.AllMean scope (SourceOp.allUnplaced ops) ts ↔
              SourceOp.AllMean scope ops ts := allMean_unplaced ih.1 scope ts
          rw [hops, ihb ih.2]
    simp only [SourceRegion.unplaced, SourceRegion.Means, SourceBlock.allUnplaced_eq, hblocks,
      Scope.enter_unplaced]

end RegionIR
