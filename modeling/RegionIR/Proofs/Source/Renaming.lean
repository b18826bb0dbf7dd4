import Mathlib.Data.Set.Function
import RegionIR.Proofs.Source.Passes

/-! Names carry no meaning.

A program and the same program with other names for its values and labels are resolved in the same
way, if different names stay different: the same entities are created, and if a program is wrong then
at the same place, for the same reason. The two passes go in step, with scopes that differ in nothing
but the names. -/

namespace RegionIR

/-- New names for values and for labels. -/
structure Renaming where
  value : String → String
  label : String → String

def SourceHead.rename (ρ : Renaming) (h : SourceHead) : SourceHead :=
  { h with
    results := h.results.map ρ.value
    operands := h.operands.map ρ.value
    successors := h.successors.map ρ.label }

mutual

/-- The program with new names. -/
def SourceOp.rename (ρ : Renaming) : SourceOp → SourceOp
  | .mk h regions => .mk (h.rename ρ) (SourceRegion.renameAll ρ regions)

def SourceRegion.rename (ρ : Renaming) : SourceRegion → SourceRegion
  | .mk blocks => .mk (SourceBlock.renameAll ρ blocks)

def SourceBlock.rename (ρ : Renaming) : SourceBlock → SourceBlock
  | .mk label args ops =>
    .mk (ρ.label label) (args.map (Prod.map ρ.value id)) (SourceOp.renameAll ρ ops)

def SourceOp.renameAll (ρ : Renaming) : List SourceOp → List SourceOp
  | [] => []
  | o :: rest => o.rename ρ :: SourceOp.renameAll ρ rest

def SourceRegion.renameAll (ρ : Renaming) : List SourceRegion → List SourceRegion
  | [] => []
  | r :: rest => r.rename ρ :: SourceRegion.renameAll ρ rest

def SourceBlock.renameAll (ρ : Renaming) : List SourceBlock → List SourceBlock
  | [] => []
  | b :: rest => b.rename ρ :: SourceBlock.renameAll ρ rest

end

mutual

/-- The names of values and the labels that are written in a program are among the given ones. -/
def SourceOp.NamedIn (V L : Set String) : SourceOp → Prop
  | .mk h regions =>
    (∀ n ∈ h.operands, n ∈ V) ∧ (∀ n ∈ h.results, n ∈ V) ∧ (∀ l ∈ h.successors, l ∈ L) ∧
      SourceRegion.AllNamedIn V L regions

def SourceRegion.NamedIn (V L : Set String) : SourceRegion → Prop
  | .mk blocks => SourceBlock.AllNamedIn V L blocks

def SourceBlock.NamedIn (V L : Set String) : SourceBlock → Prop
  | .mk label args ops => label ∈ L ∧ (∀ a ∈ args, a.1 ∈ V) ∧ SourceOp.AllNamedIn V L ops

def SourceOp.AllNamedIn (V L : Set String) : List SourceOp → Prop
  | [] => True
  | o :: rest => o.NamedIn V L ∧ SourceOp.AllNamedIn V L rest

def SourceRegion.AllNamedIn (V L : Set String) : List SourceRegion → Prop
  | [] => True
  | r :: rest => r.NamedIn V L ∧ SourceRegion.AllNamedIn V L rest

def SourceBlock.AllNamedIn (V L : Set String) : List SourceBlock → Prop
  | [] => True
  | b :: rest => b.NamedIn V L ∧ SourceBlock.AllNamedIn V L rest

end

/-- What can be wrong with the names of a program. An operation is mentioned by its full name. -/
inductive Complaint where
  | duplicateValue (name : String)
  | undefinedValue (name op : String)
  | undefinedBlock (label op : String)
  | duplicateLabel (label : String)
  | resultCount (op : String) (names types : Nat)

namespace Complaint

def message : Complaint → String
  | duplicateValue name => "duplicate SSA name '%" ++ name ++ "'"
  | undefinedValue name op => "undefined value '%" ++ name ++ "' in '" ++ op ++ "'"
  | undefinedBlock label op => "undefined block '^" ++ label ++ "' in '" ++ op ++ "'"
  | duplicateLabel label => "duplicate block label '^" ++ label ++ "'"
  | resultCount op names types =>
    "'" ++ op ++ "' names " ++ Nat.repr names ++ " result(s) but declares " ++ Nat.repr types
      ++ " type(s)"

/-- The same complaint about the new name. -/
def rename (ρ : Renaming) : Complaint → Complaint
  | duplicateValue name => duplicateValue (ρ.value name)
  | undefinedValue name op => undefinedValue (ρ.value name) op
  | undefinedBlock label op => undefinedBlock (ρ.label label) op
  | duplicateLabel label => duplicateLabel (ρ.label label)
  | resultCount op names types => resultCount op names types

end Complaint

namespace Renaming

variable {α β : Type} (ρ : Renaming)

/-- Two passes come to the same: to related values, to one complaint at one place, where the second
has the new name, or to one refused request. -/
inductive Outcomes (R : α → β → Prop) : Except ResolveError α → Except ResolveError β → Prop
  | value {a : α} {b : β} : R a b → Outcomes R (.ok a) (.ok b)
  | complaint (c : Complaint) (offset : Nat) : Outcomes R (.error (.rejected ⟨c.message, offset⟩))
      (.error (.rejected ⟨(c.rename ρ).message, offset⟩))
  | fault (f : Fault) : Outcomes R (.error (.fault f)) (.error (.fault f))

/-- From every context the two passes leave the same context and come to the same. -/
def Alike (R : α → β → Prop) (m : Resolve α) (m' : Resolve β) : Prop :=
  ∀ ctx, ∃ r r' ctx', Resolve.Leaves m ctx r ctx' ∧ Resolve.Leaves m' ctx r' ctx' ∧
    ρ.Outcomes R r r'

/-- Scopes with the same values and blocks, under the names and the new names. -/
structure Scopes (V L : Set String) (scope scope' : Scope) : Prop where
  values : scope'.values = scope.values.map (Prod.map ρ.value id)
  blocks : scope'.blocks = scope.blocks.map (Prod.map ρ.label id)
  valueNames : ∀ e ∈ scope.values, e.1 ∈ V
  labels : ∀ e ∈ scope.blocks, e.1 ∈ L

end Renaming

namespace Resolve

open Renaming (Alike)

variable {α β γ δ : Type} {ρ : Renaming} {V L : Set String} {h : SourceHead} {scope scope' : Scope}

section Rules

variable {R : α → β → Prop} {S : γ → δ → Prop}

theorem alike_pure {a : α} {b : β} (hR : R a b) : ρ.Alike R (pure a) (pure b) := fun ctx =>
  ⟨.ok a, .ok b, ctx, leaves_pure.mpr ⟨rfl, rfl⟩, leaves_pure.mpr ⟨rfl, rfl⟩, .value hR⟩

theorem alike_bind {x : Resolve α} {x' : Resolve β} {f : α → Resolve γ} {f' : β → Resolve δ}
    (hx : ρ.Alike R x x') (hf : ∀ a b, R a b → ρ.Alike S (f a) (f' b)) :
    ρ.Alike S (x >>= f) (x' >>= f') := by
  intro ctx
  obtain ⟨r, r', ctx₁, hr, hr', ho⟩ := hx ctx
  cases ho with
  | value hR =>
    obtain ⟨s, s', ctx₂, hs, hs', ho⟩ := hf _ _ hR ctx₁
    exact ⟨s, s', ctx₂, leaves_bind.mpr (.inr ⟨_, ctx₁, hr, hs⟩),
      leaves_bind.mpr (.inr ⟨_, ctx₁, hr', hs'⟩), ho⟩
  | complaint c offset =>
    exact ⟨_, _, ctx₁, leaves_bind.mpr (.inl ⟨_, hr, rfl⟩), leaves_bind.mpr (.inl ⟨_, hr', rfl⟩),
      .complaint c offset⟩
  | fault f =>
    exact ⟨_, _, ctx₁, leaves_bind.mpr (.inl ⟨_, hr, rfl⟩), leaves_bind.mpr (.inl ⟨_, hr', rfl⟩),
      .fault f⟩

theorem alike_edit (f : Context → Except Fault (α × Context)) : ρ.Alike Eq (edit f) (edit f) := by
  intro ctx
  cases hf : f ctx with
  | ok s =>
    have hs : Leaves (edit f) ctx (.ok s.1) s.2 := leaves_edit.mpr (.inl ⟨s.1, hf, rfl⟩)
    exact ⟨_, _, _, hs, hs, .value rfl⟩
  | error fault =>
    have hs : Leaves (edit f) ctx (.error (.fault fault)) ctx :=
      leaves_edit.mpr (.inr ⟨fault, hf, rfl, rfl⟩)
    exact ⟨_, _, _, hs, hs, .fault fault⟩

theorem alike_fault (f : Fault) : ρ.Alike R (throw (.fault f)) (throw (.fault f)) := fun ctx =>
  ⟨_, _, ctx, leaves_throw.mpr ⟨rfl, rfl⟩, leaves_throw.mpr ⟨rfl, rfl⟩, .fault f⟩

theorem alike_reject (c : Complaint) :
    ρ.Alike R (reject h c.message) (reject (h.rename ρ) (c.rename ρ).message) := fun ctx =>
  ⟨_, _, ctx, leaves_throw.mpr ⟨rfl, rfl⟩, leaves_throw.mpr ⟨rfl, rfl⟩, .complaint c h.offset⟩

theorem alike_mapM {f : α → Resolve γ} {f' : β → Resolve γ} {φ : α → β} {l : List α}
    (hf : ∀ a ∈ l, ρ.Alike Eq (f a) (f' (φ a))) :
    ρ.Alike Eq (l.mapM f) ((l.map φ).mapM f') := by
  induction l with
  | nil => exact alike_pure rfl
  | cons a l ih =>
    rw [List.forall_mem_cons] at hf
    rw [List.map_cons, List.mapM_cons, List.mapM_cons]
    refine alike_bind hf.1 ?_
    rintro c _ rfl
    refine alike_bind (ih hf.2) ?_
    rintro cs _ rfl
    exact alike_pure rfl

end Rules

theorem lookup_map_fst {α : Type} {f : String → String} {l : List (String × α)} {name : String}
    (hf : ∀ e ∈ l, f e.1 = f name → e.1 = name) :
    (l.map (Prod.map f id)).lookup (f name) = l.lookup name := by
  induction l with
  | nil => rfl
  | cons e l ih =>
    rw [List.forall_mem_cons] at hf
    obtain ⟨n, a⟩ := e
    by_cases hn : name = n
    · simp [hn]
    · have hne : f name ≠ f n := fun h => hn (hf.1 h.symm).symm
      rw [List.map_cons, Prod.map_apply, id, List.lookup_cons, List.lookup_cons,
        beq_false_of_ne hne, beq_false_of_ne hn]
      exact ih hf.2

theorem alike_checkResults : ρ.Alike Eq (checkResults h) (checkResults (h.rename ρ)) := by
  unfold checkResults
  simp only [SourceHead.rename, List.isEmpty_map, List.length_map]
  split
  · exact alike_pure rfl
  · exact alike_reject (.resultCount h.fullName h.results.length h.resultTypes.length)

theorem alike_successor (hL : L.InjOn ρ.label) (hs : ρ.Scopes V L scope scope') {label : String}
    (hlabel : label ∈ L) :
    ρ.Alike Eq (successor h scope label) (successor (h.rename ρ) scope' (ρ.label label)) := by
  unfold successor
  rw [hs.blocks, lookup_map_fst fun e he heq => hL (hs.labels e he) hlabel heq]
  cases scope.blocks.lookup label with
  | some b => exact alike_pure rfl
  | none => exact alike_reject (.undefinedBlock label h.fullName)

section Values

variable (hV : V.InjOn ρ.value)

include hV

theorem lookup_values (hs : ρ.Scopes V L scope scope') {name : String} (hname : name ∈ V) :
    scope'.values.lookup (ρ.value name) = scope.values.lookup name := by
  rw [hs.values]
  exact lookup_map_fst fun e he heq => hV (hs.valueNames e he) hname heq

theorem alike_operand (hs : ρ.Scopes V L scope scope') {name : String} (hname : name ∈ V) :
    ρ.Alike Eq (operand h scope name) (operand (h.rename ρ) scope' (ρ.value name)) := by
  unfold operand
  rw [lookup_values hV hs hname]
  cases scope.values.lookup name with
  | some v => exact alike_pure rfl
  | none => exact alike_reject (.undefinedValue name h.fullName)

theorem alike_defineValue (hs : ρ.Scopes V L scope scope') {name : String} (hname : name ∈ V)
    (v : ValueId) : ρ.Alike (ρ.Scopes V L) (defineValue h scope name v)
      (defineValue (h.rename ρ) scope' (ρ.value name) v) := by
  unfold defineValue
  rw [lookup_values hV hs hname]
  cases scope.values.lookup name with
  | some _ => exact alike_reject (.duplicateValue name)
  | none =>
    refine alike_pure ⟨?_, hs.blocks, List.forall_mem_cons.mpr ⟨hname, hs.valueNames⟩, hs.labels⟩
    simp [hs.values]

theorem alike_defineValues (hs : ρ.Scopes V L scope scope') {names : List String}
    (hnames : ∀ n ∈ names, n ∈ V) (vs : List ValueId) :
    ρ.Alike (ρ.Scopes V L) (defineValues h scope names vs)
      (defineValues (h.rename ρ) scope' (names.map ρ.value) vs) := by
  induction names generalizing scope scope' vs with
  | nil => exact alike_pure hs
  | cons name names ih =>
    rw [List.forall_mem_cons] at hnames
    cases vs with
    | nil => exact alike_fault _
    | cons v vs =>
      exact alike_bind (alike_defineValue hV hs hnames.1 v) fun _ _ hs₁ => ih hs₁ hnames.2 vs

end Values

theorem alike_openBlocks (hV : V.InjOn ρ.value) (hL : L.InjOn ρ.label) {seen : List String}
    (hseen : ∀ l ∈ seen, l ∈ L) {blocks : List SourceBlock} (hs : ρ.Scopes V L scope scope')
    (hb : SourceBlock.AllNamedIn V L blocks) :
    ρ.Alike (fun r r' => r.1 = r'.1 ∧ ρ.Scopes V L r.2 r'.2) (openBlocks h seen scope blocks)
      (openBlocks (h.rename ρ) (seen.map ρ.label) scope' (SourceBlock.renameAll ρ blocks)) := by
  induction blocks generalizing seen scope scope' with
  | nil => exact alike_pure ⟨rfl, hs⟩
  | cons block blocks ih =>
    obtain ⟨label, args, ops⟩ := block
    obtain ⟨⟨hlabel, hargs, -⟩, hrest⟩ := hb
    have hmem : ρ.label label ∈ seen.map ρ.label ↔ label ∈ seen := by
      rw [List.mem_map]
      exact ⟨fun ⟨l, hl, heq⟩ => hL (hseen l hl) hlabel heq ▸ hl, fun hl => ⟨label, hl, rfl⟩⟩
    have htypes : (args.map (Prod.map ρ.value id)).map (fun a => a.2.canonical) =
        args.map fun a => a.2.canonical := by simp
    have hnames : (args.map (Prod.map ρ.value id)).map Prod.fst = (args.map Prod.fst).map ρ.value := by
      simp
    have hopen : ρ.Alike (fun r r' => r.1 = r'.1 ∧ ρ.Scopes V L r.2 r'.2)
        (openUnseen h seen scope label args blocks)
        (openUnseen (h.rename ρ) (seen.map ρ.label) scope' (ρ.label label)
          (args.map (Prod.map ρ.value id)) (SourceBlock.renameAll ρ blocks)) := by
      unfold openUnseen
      rw [htypes, hnames]
      refine alike_bind (alike_edit _) ?_
      rintro b _ rfl
      refine alike_bind (alike_edit _) ?_
      rintro vs _ rfl
      have hs₁ : ρ.Scopes V L { scope with blocks := (label, b) :: scope.blocks }
          { scope' with blocks := (ρ.label label, b) :: scope'.blocks } :=
        ⟨hs.values, by simp [hs.blocks], hs.valueNames, List.forall_mem_cons.mpr ⟨hlabel, hs.labels⟩⟩
      refine alike_bind (alike_defineValues hV hs₁ (List.forall_mem_map.mpr hargs) vs) fun s s' hs₂ => ?_
      refine alike_bind (ih (List.forall_mem_cons.mpr ⟨hlabel, hseen⟩) hs₂ hrest) ?_
      rintro ⟨ids, s₁⟩ ⟨_, s₁'⟩ ⟨rfl, hs₃⟩
      exact alike_pure ⟨rfl, hs₃⟩
    rw [SourceBlock.renameAll, SourceBlock.rename, openBlocks_cons, openBlocks_cons]
    by_cases hin : label ∈ seen
    · rw [if_pos hin, if_pos (hmem.mpr hin)]
      exact alike_bind (R := Eq) (alike_reject (.duplicateLabel label)) fun _ _ _ => hopen
    · rw [if_neg hin, if_neg (mt hmem.mp hin)]
      exact hopen

mutual

theorem alike_op (hV : V.InjOn ρ.value) (hL : L.InjOn ρ.label) :
    ∀ {s : SourceOp} {scope scope' : Scope}, s.NamedIn V L →
    ρ.Scopes V L scope scope' → ρ.Alike (fun r r' => r.1 = r'.1 ∧ ρ.Scopes V L r.2 r'.2)
      (op scope s) (op scope' (s.rename ρ))
  | .mk h regions, scope, scope', ⟨hoperands, hresults, hsuccessors, hregions⟩, hs => by
    refine alike_bind (alike_mapM fun n hn => alike_operand hV hs (hoperands n hn)) ?_
    rintro operands _ rfl
    refine alike_bind (alike_mapM fun l hl => alike_successor hL hs (hsuccessors l hl)) ?_
    rintro successors _ rfl
    refine alike_bind alike_checkResults fun _ _ _ => ?_
    refine alike_bind (alike_regionsOf hV hL hregions hs) ?_
    rintro rs _ rfl
    refine alike_bind (alike_edit _) ?_
    rintro id _ rfl
    refine alike_bind (alike_edit _) ?_
    rintro vs _ rfl
    exact alike_bind (alike_defineValues hV hs hresults vs) fun _ _ hs₁ => alike_pure ⟨rfl, hs₁⟩

theorem alike_region (hV : V.InjOn ρ.value) (hL : L.InjOn ρ.label) :
    ∀ {s : SourceRegion} {h : SourceHead} {scope scope' : Scope},
      s.NamedIn V L → ρ.Scopes V L scope scope' →
      ρ.Alike Eq (region h scope s) (region (h.rename ρ) scope' (s.rename ρ))
  | .mk blocks, h, scope, scope', hblocks, hs => by
    refine alike_bind (alike_openBlocks hV hL (by simp) hs hblocks) ?_
    rintro ⟨ids, scope₁⟩ ⟨_, scope₁'⟩ ⟨rfl, hs₁⟩
    exact alike_bind (alike_fillBlocks hV hL ids hblocks hs₁) fun _ _ _ => alike_edit _

theorem alike_regionsOf (hV : V.InjOn ρ.value) (hL : L.InjOn ρ.label) :
    ∀ {l : List SourceRegion} {h : SourceHead} {scope scope' : Scope},
      SourceRegion.AllNamedIn V L l → ρ.Scopes V L scope scope' →
      ρ.Alike Eq (regionsOf h scope l)
        (regionsOf (h.rename ρ) scope' (SourceRegion.renameAll ρ l))
  | [], _, _, _, _, _ => alike_pure rfl
  | r :: rest, h, scope, scope', ⟨hr, hrest⟩, hs => by
    refine alike_bind (alike_region hV hL hr hs) ?_
    rintro id _ rfl
    refine alike_bind (alike_regionsOf hV hL hrest hs) ?_
    rintro ids _ rfl
    exact alike_pure rfl

theorem alike_fillBlocks (hV : V.InjOn ρ.value) (hL : L.InjOn ρ.label) :
    ∀ {l : List SourceBlock} {scope scope' : Scope} (ids : List BlockId),
      SourceBlock.AllNamedIn V L l → ρ.Scopes V L scope scope' →
      ρ.Alike Eq (fillBlocks scope l ids) (fillBlocks scope' (SourceBlock.renameAll ρ l) ids)
  | [], _, _, [], _, _ => alike_pure rfl
  | [], _, _, _ :: _, _, _ => alike_pure rfl
  | .mk _ _ _ :: _, _, _, [], _, _ => alike_pure rfl
  | .mk _ _ _ :: _, _, _, b :: ids, ⟨⟨_, _, hops⟩, hrest⟩, hs =>
    alike_bind (alike_fillBlock hV hL b hops hs) fun _ _ hs₁ => alike_fillBlocks hV hL ids hrest hs₁

theorem alike_fillBlock (hV : V.InjOn ρ.value) (hL : L.InjOn ρ.label) :
    ∀ {l : List SourceOp} {scope scope' : Scope} (b : BlockId),
      SourceOp.AllNamedIn V L l → ρ.Scopes V L scope scope' →
      ρ.Alike (ρ.Scopes V L) (fillBlock scope b l) (fillBlock scope' b (SourceOp.renameAll ρ l))
  | [], _, _, _, _, hs => alike_pure hs
  | o :: rest, _, _, b, ⟨ho, hrest⟩, hs => by
    refine alike_bind (alike_op hV hL ho hs) ?_
    rintro ⟨id, scope₁⟩ ⟨_, scope₁'⟩ ⟨rfl, hs₁⟩
    exact alike_bind (alike_edit _) fun _ _ _ => alike_fillBlock hV hL b hrest hs₁

end

/-- Names carry no meaning: in every context a program resolves as the program does in which values
and labels have other names, different ones for different ones. Both leave the same context and give
the same operation, or they make the same complaint at the same place. -/
theorem op_rename {s : SourceOp} (hs : s.NamedIn V L) (hV : V.InjOn ρ.value) (hL : L.InjOn ρ.label)
    (ctx : Context) :
    ∃ r r' ctx', Leaves (op {} s) ctx r ctx' ∧ Leaves (op {} (s.rename ρ)) ctx r' ctx' ∧
      ρ.Outcomes (fun a a' => a.1 = a'.1 ∧ ρ.Scopes V L a.2 a'.2) r r' :=
  alike_op hV hL hs ⟨rfl, rfl, by simp, by simp⟩ ctx

/-- Two blocks named alike, one inside of an operation of the other, that mentions the name of a result
before it is there. -/
def earlyUse : SourceOp :=
  let i32 : Ty := .mk "core" "i32" [] []
  .mk { dialect := "t", name := "t" } [.mk [.mk "a" [("x", i32)] [
    .mk { results := ["y"], dialect := "t", name := "t", operands := ["x"], successors := ["a"],
          resultTypes := [i32] }
      [.mk [.mk "a" [] [.mk { offset := 40, dialect := "u", name := "u",
                              operands := ["x", "y"] } []]]]]]]

/-- The names of the values are exchanged: the complaint about one becomes one about the other. -/
theorem op_rename_earlyUse :
    let ρ : Renaming := ⟨fun n => if n = "x" then "y" else "x", fun l => "block " ++ l⟩
    earlyUse.NamedIn {"x", "y"} {"a"} ∧ Set.InjOn ρ.value {"x", "y"} ∧ Set.InjOn ρ.label {"a"} ∧
      ∃ r r' ctx', Leaves (op {} earlyUse) {} r ctx' ∧ Leaves (op {} (earlyUse.rename ρ)) {} r' ctx' ∧
        ρ.Outcomes (fun a a' => a.1 = a'.1 ∧ ρ.Scopes {"x", "y"} {"a"} a.2 a'.2) r r' := by
  intro ρ
  have hs : earlyUse.NamedIn {"x", "y"} {"a"} := by
    simp [earlyUse, SourceOp.NamedIn, SourceRegion.AllNamedIn, SourceRegion.NamedIn,
      SourceBlock.AllNamedIn, SourceBlock.NamedIn, SourceOp.AllNamedIn]
  have hV : Set.InjOn ρ.value {"x", "y"} := by simp [Set.InjOn, ρ]
  have hL : Set.InjOn ρ.label {"a"} := Set.injOn_singleton _ _
  exact ⟨hs, hV, hL, op_rename hs hV hL {}⟩

end Resolve

end RegionIR
