import RegionIR.Proofs.Lowering.Answers
import RegionIR.Proofs.Lowering.Verification
import RegionIR.Proofs.Rewrite.Halting
import RegionIR.Proofs.Source.Blame

/-! Every text gets an answer.

A text is rejected at a place in it, or it denotes a program. A program can be lowered as far as the
visits come, and whatever was done to it by then, it can be checked and printed. On the way the context
refuses no request, and the engine comes to an end by itself. -/

namespace RegionIR

namespace Context

variable {ctx ctx' : Context}

theorem Creates.extends {uses : List ValueId} (hs : ctx.Sound) (h : Creates uses ctx ctx') :
    ctx.Extends ctx' := by
  induction h with
  | refl => exact .refl hs
  | createOp _ _ ha _ hcreate ih => exact ih.trans (.createOp ih.sound ha hcreate)

end Context

theorem Pattern.Local.additive {p : Pattern} {c : Converter} (h : p.Local c) : p.Additive c :=
  fun _ _ _ _ _ hs hop ha => (h.creates hop ha).extends hs

namespace Pipeline

variable {ctx : Context} {id : OpId} {text : String} {verify : Bool}

theorem haltsOn_engine (hr : ctx.Reachable) (m : OpId) : TupleLowering.engine.HaltsOn ctx m := by
  intro body tree ctx' retyped _ _ hargs
  have hs : ctx'.Sound := foldlM_invariant (P := fun s => s.1.Sound)
    (fun _ _ _ _ => Engine.retypeArgs_sound) hr.sound hargs
  exact Engine.halts_of_rests TupleLowering.static_engine.settles.rests
    (fun p hp => (TupleLowering.static_engine.patterns p hp).additive) _ _ hs

/-- What a text denotes is lowered, checked and printed, or there is a reason why not. -/
theorem exists_lowerModule (hparse : Context.parse {} text = (.ok id, ctx)) (verify : Bool) :
    ∃ answer, lowerModule ctx id verify = .ok answer := by
  obtain ⟨tree, rfl, hprogram⟩ := Context.program_of_parse hparse
  rcases lowerModule_cases hprogram with
    ⟨e, hrefused⟩ | ⟨t, lowered, report, -, hunverified, hverified, -⟩
  · exact ⟨_, hrefused verify⟩
  · cases verify with
    | false => exact ⟨_, hunverified⟩
    | true => exact ⟨_, hverified⟩

/-- Every text is lowered or refused with a reason; a fault never comes up. A text that is no program is
refused at a place in it, and the operations that it lists begin at such places; no more bytes are
subtracted from those of the text than it has. The engine ends by itself. -/
theorem lower_total (text : String) (verify : Bool) :
    ((∃ lowered, lower text verify = .ok lowered) ∨
      (∃ e, lower text verify = .error (.parse e) ∧ IsOffset text.toList e.offset) ∨
      ∃ e, lower text verify = .error (.lowering e)) ∧
    (∀ source, SourceOp.parse text = .ok source →
      source.All fun h => IsOffset text.toList h.offset) ∧
    Reader.Measures text.toList ∧
    ∀ id ctx, Context.parse {} text = (.ok id, ctx) → TupleLowering.engine.HaltsOn ctx id := by
  refine ⟨?_, fun _ h => SourceOp.isOffset_of_parse h, Reader.measures _, fun id ctx h =>
    haltsOn_engine (Context.Reachable.empty.parse h) id⟩
  obtain ⟨⟨answer, ctx⟩, hparse⟩ : ∃ s, Context.parse {} text = s := ⟨_, rfl⟩
  cases answer with
  | error e =>
    obtain ⟨pe, rfl, hoffset⟩ :=
      Context.isOffset_of_parse_error .empty (congrArg Prod.fst hparse)
    exact .inr (.inl ⟨pe, by rw [lower, hparse], hoffset⟩)
  | ok id =>
    obtain ⟨answer, hanswer⟩ := exists_lowerModule hparse verify
    cases answer with
    | error e => exact .inr (.inr ⟨e, by simp only [lower, hparse, hanswer]⟩)
    | ok lowered => exact .inl ⟨lowered, by simp only [lower, hparse, hanswer]⟩

end Pipeline

end RegionIR
