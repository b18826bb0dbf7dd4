import RegionIR.Proofs.Source.Places
import RegionIR.Proofs.Source.Printing
import RegionIR.Proofs.Source.Rebuilding
import RegionIR.Source.Parse

/-! Printed programs read back.

A tree whose names and constants are readable, and in which everything is defined before it is
mentioned, is rebuilt from its text: the text parses to an isomorphic tree, which has the same
text. -/

namespace RegionIR

namespace OpTree.HeldBy

variable {ctx : Context} {t : OpTree}

theorem regular (hr : ctx.Reachable) (ht : t.HeldBy ctx) : t.Regular where
  results _ ho := hr.sound.typed.results_length (ht.op?_of_mem_preorder ho)
  sorted _ ho := hr.sound.keyed _ _ (ht.op?_of_mem_preorder ho)
  attrs _ ho := hr.canonical.attrs (ht.op?_of_mem_preorder ho)
  resultTypes _ ho := hr.canonical.resultTypes (ht.op?_of_mem_preorder ho)
  argTypes b hb a ha := by
    obtain ⟨r, hrt, hb⟩ : ∃ r ∈ t.regions, b ∈ r.allBlocks := by
      obtain ⟨id, op, regions⟩ := t
      rw [OpTree.blocks_node] at hb
      exact List.mem_flatMap.mp hb
    obtain ⟨hblk, hargs, hvals, -, -⟩ := (ht.region hrt).block hb
    obtain ⟨value, hv, hty⟩ := hvals a ha
    obtain ⟨i, hi⟩ := List.mem_iff_getElem?.mp (List.mem_map_of_mem ha : a.1 ∈ _)
    obtain ⟨ty, hget, hval⟩ := hr.sound.typed.argument hblk (by rw [hargs]; exact hi)
    rw [hv, Option.some_inj] at hval
    have hty' : a.2 = ty := by rw [← hty, hval]
    rw [hty']
    exact hr.canonical.argTypes hblk ty (List.mem_of_getElem? hget)

/-- Writing a held tree with the names of its text and reading it gives an isomorphic tree. -/
theorem isomorphic_of_means (hs : ctx.Sound) (ht : t.HeldBy ctx) (hregular : t.Regular)
    (hscoped : t.isScoped [] []) {ctx' : Context} (hs' : ctx'.Sound) {t' : OpTree} (ht' : t'.HeldBy ctx')
    (hmean : (t.named (Names.nameIn t.values) (Names.labelIn t.labelled)).Means {} t') :
    t.Isomorphic t' := by
  obtain ⟨vp, bp, hv, hv', hb, hb', hmatch⟩ := t.rebuilt hscoped hregular
    (fun v hv w h => Names.nameIn_injOn hv h) (fun b hb c h => Names.labelIn_injOn hb h) hmean
  have hV : Relator.BiUnique fun v v' => (v, v') ∈ vp := by
    refine biUnique_of_nodup ?_ ?_
    · rw [hv]
      exact ht.values_nodup hs.linked hs.typed
    · rw [hv']
      exact ht'.values_nodup hs'.linked hs'.typed
  have hB : Relator.BiUnique fun b b' => (b, b') ∈ bp := by
    refine biUnique_of_nodup ?_ ?_
    · rw [hb]
      exact ht.blocks_nodup hs.linked
    · rw [hb']
      exact ht'.blocks_nodup hs'.linked
  exact ⟨_, _, hV, hB, hmatch _ _ (fun p hp => hp) (fun p hp => hp)
    ⟨fun v v' h => by simp at h, by simp⟩⟩

end OpTree.HeldBy

namespace Context

/-- The text of a readable and scoped tree is accepted and gives an isomorphic tree. -/
theorem parse_text {ctx : Context} (hs : ctx.Sound) {t : OpTree} (ht : t.HeldBy ctx)
    (hregular : t.Regular) (hreadable : t.isReadable) (hscoped : t.isScoped [] []) {target : Context}
    (htarget : target.Reachable) :
    ∃ id ctx' t', target.parse t.text = (.ok id, ctx') ∧ ctx'.opTree id = .ok t' ∧
      t.Isomorphic t' := by
  have hvalues := ht.values_nodup hs.linked hs.typed
  have hlabels := ht.labelled_nodup hs.linked
  let s := t.named (Names.nameIn t.values) (Names.labelIn t.labelled)
  have hsource : t.toSource = s := OpTree.toSource_eq hvalues hlabels hscoped
  have hnamed : s.isReadable := OpTree.isReadable_named hreadable (Names.isWord_nameIn _)
    (Names.isWord_labelIn _)
  obtain ⟨s', hparse, hunplaced⟩ := SourceOp.parse_text hnamed
  have htext : t.text = s.text 0 := by rw [OpTree.text, hsource]
  rw [← htext] at hparse
  have hfresh : Fresh (Names.nameIn t.values) t.values [] :=
    ⟨hvalues.map_on fun v hv w _ h => Names.nameIn_injOn hv h, by simp⟩
  have hdistinct : (t.labelled.map (Names.labelIn t.labelled)).Nodup :=
    hlabels.map_on fun b hb c _ h => Names.labelIn_injOn hb h
  have hresolvable : s.Resolvable [] [] := t.spelled hscoped hregular.results (by simp)
    (by simp) hfresh hdistinct
  rw [← SourceOp.resolvable_unplaced, ← hunplaced, SourceOp.resolvable_unplaced] at hresolvable
  have hshows : Scope.Shows {} [] [] := ⟨by simp, by simp⟩
  obtain ⟨id, scope, ctx', hgives⟩ := Resolve.opResolves s' htarget hshows hresolvable
  have haccepted := parse_eq_ok_iff.mpr ⟨s', scope, hparse, hgives⟩
  obtain ⟨t', rfl, hbuilt⟩ := Resolve.opBuilds s' htarget hgives
  have hmean : s.Means {} t' := by
    rw [← SourceOp.means_unplaced, ← hunplaced, SourceOp.means_unplaced]
    exact hbuilt.means
  exact ⟨t'.id, ctx', t', haccepted, opTree_eq_ok_iff.mpr ⟨rfl, hbuilt.held⟩,
    ht.isomorphic_of_means hs hregular hscoped (htarget.parse haccepted).sound hbuilt.held hmean⟩

/-- Parsing the printed text rebuilds the operation: what is printed is accepted, and the tree that
it gives is isomorphic to the one that was printed. -/
theorem parse_print {ctx : Context} (hr : ctx.Reachable) {id : OpId} {t : OpTree}
    (ht : ctx.opTree id = .ok t) (hreadable : t.isReadable) (hscoped : t.isScoped [] [])
    {target : Context} (htarget : target.Reachable) :
    ∃ text id' ctx' t', ctx.print id = .ok text ∧ target.parse text = (.ok id', ctx') ∧
      ctx'.opTree id' = .ok t' ∧ t.Isomorphic t' := by
  obtain ⟨-, hheld⟩ := opTree_eq_ok_iff.mp ht
  obtain ⟨id', ctx', t', hparse, ht', hiso⟩ :=
    parse_text hr.sound hheld (hheld.regular hr) hreadable hscoped htarget
  exact ⟨t.text, id', ctx', t', print_of_opTree ht, hparse, ht', hiso⟩

/-- Two blocks with arguments, the first of which ends in a jump, and an operation nested in the
second that uses a value of the first. -/
def loopText : String :=
  "func.func @f \x7bn = -3, t = core.tuple(core.i32), w = 0.5\x7d \x7b
  ^bb0(%0: core.i32):
    %1, %2 = t.two %0 [^bb1] : core.i32, core.f64

  ^bb1(%3: core.f64):
    t.use %1, %3 \x7b
      u.u %2
    \x7d
\x7d
"

theorem parse_print_loop : ∃ t, (Context.parse {} loopText).2.Reachable ∧
    (Context.parse {} loopText).2.opTree ⟨3⟩ = .ok t ∧ t.isReadable ∧ t.isScoped [] [] ∧
    ∃ text id ctx t', (Context.parse {} loopText).2.print ⟨3⟩ = .ok text ∧
      Context.parse {} text = (.ok id, ctx) ∧ ctx.opTree id = .ok t' ∧ t.Isomorphic t' := by
  have hr : (Context.parse {} loopText).2.Reachable := Reachable.empty.parse_isOk (by decide +kernel)
  have hcheck : ((Context.parse {} loopText).2.opTree ⟨3⟩).toOption.any fun t =>
      t.isReadable && t.isScoped [] [] := by decide +kernel
  obtain ⟨t, ht, hcheck⟩ := except_any_iff.mp hcheck
  rw [Bool.and_eq_true] at hcheck
  exact ⟨t, hr, ht, hcheck.1, hcheck.2, parse_print hr ht hcheck.1 hcheck.2 .empty⟩

/-- What is printed for an accepted program is accepted and printed again in the same way, if its
names and constants are readable and it mentions nothing before its definition. -/
theorem print_parse_print {text : String} {id : OpId} {ctx : Context}
    (h : Context.parse {} text = (.ok id, ctx)) {t : OpTree} (ht : ctx.opTree id = .ok t)
    (hreadable : t.isReadable) (hscoped : t.isScoped [] []) :
    ∃ printed id' ctx', ctx.print id = .ok printed ∧ Context.parse {} printed = (.ok id', ctx') ∧
      ctx'.print id' = .ok printed := by
  have hr : ctx.Reachable := Reachable.empty.parse h
  obtain ⟨-, hheld⟩ := opTree_eq_ok_iff.mp ht
  obtain ⟨id', ctx', t', hparse, ht', hiso⟩ :=
    parse_text hr.sound hheld (hheld.regular hr) hreadable hscoped .empty
  have htext : t'.text = t.text := by rw [OpTree.text, OpTree.text, hiso.toSource_eq]
  exact ⟨t.text, id', ctx', print_of_opTree ht, hparse, htext ▸ print_of_opTree ht'⟩

theorem print_parse_print_loop : ∃ id ctx t, Context.parse {} loopText = (.ok id, ctx) ∧
    ctx.opTree id = .ok t ∧ t.isReadable ∧ t.isScoped [] [] ∧
    ∃ printed id' ctx', ctx.print id = .ok printed ∧ Context.parse {} printed = (.ok id', ctx') ∧
      ctx'.print id' = .ok printed := by
  have hcheck : (Context.parse {} loopText).1.toOption.any fun id =>
      ((Context.parse {} loopText).2.opTree id).toOption.any fun t =>
        t.isReadable && t.isScoped [] [] := by decide +kernel
  obtain ⟨id, hid, hcheck⟩ := except_any_iff.mp hcheck
  obtain ⟨t, ht, hcheck⟩ := except_any_iff.mp hcheck
  rw [Bool.and_eq_true] at hcheck
  have hparse : Context.parse {} loopText = (.ok id, (Context.parse {} loopText).2) := by
    rw [← hid, Prod.mk.eta]
  exact ⟨id, _, t, hparse, ht, hcheck.1, hcheck.2,
    print_parse_print hparse ht hcheck.1 hcheck.2⟩

/-- An operation may use an argument of a later block. It is printed before the argument has a name,
and the text without the name is refused. -/
theorem print_parse_of_later_argument : ∃ text id ctx printed,
    Context.parse {} text = (.ok id, ctx) ∧ ctx.print id = .ok printed ∧
      ∀ id' ctx', Context.parse {} printed ≠ (.ok id', ctx') := by
  let text := "t.t \x7b ^a: u.u %x ^b(%x: t.t): \x7d"
  have hcheck : (Context.parse {} text).1.toOption.any fun id =>
      ((Context.parse {} text).2.print id).toOption.any fun printed =>
        !(Context.parse {} printed).1.isOk := by decide +kernel
  obtain ⟨id, hid, hcheck⟩ := except_any_iff.mp hcheck
  obtain ⟨printed, hprint, hcheck⟩ := except_any_iff.mp hcheck
  have hparse : Context.parse {} text = (.ok id, (Context.parse {} text).2) := by
    rw [← hid, Prod.mk.eta]
  refine ⟨text, id, _, printed, hparse, hprint, fun id' ctx' hparse => ?_⟩
  simp [hparse, Except.isOk, Except.toBool] at hcheck

end Context

end RegionIR
