import Mathlib
import Straightline.Command.Build
import Straightline.Proofs.Lowering.Sound
import Straightline.Proofs.Optimize.Sound
import Straightline.Proofs.Target.Emission
import Straightline.Proofs.Tree.Fetching
import Straightline.Proofs.Tree.WellFormed

/-!
# Builds fail for reasons in the source only

Behind lowering nothing can fail: the module of any tree without gaps is sound,
so it is verified, emitted and optimized, and what comes out of the optimizer is
sound again. A build is therefore never at fault, and it fails exactly if there
are lexical, syntax or semantic errors to report (`Objectionable`). Then no more
than the tokens or the tree is printed; otherwise it comes to a target text
through every phase (`Completes`).
-/

namespace Straightline

open Code Lowering

namespace Command

/-! ## Phases -/

@[simp] theorem Build.verdict_after (b : Build) (out err : String) :
    (b.after out err).verdict = b.verdict := rfl

@[simp] theorem Build.out_after (b : Build) (out err : String) :
    (b.after out err).out = out ++ b.out :=
  rfl

/-- How a build ends that comes to a target text. -/
def Options.verdict (o : Options) (text : String) : Verdict :=
  if o.writeTarget then .write text else .done

/-- The module that is emitted for another one: that module itself, or what
the optimizer makes of it. -/
inductive Delivers (o : Options) (m : Module) : Module → Prop
  | plain : o.optimize = false → Delivers o m m
  | optimized {r : Optimize.Optimizer.Outcome Module} : o.optimize = true →
      Optimize.Optimizer.optimize { logging := o.progress } m = .ok r →
      r.error = none → Delivers o m r.code

theorem Delivers.unique {o : Options} {m m₁ m₂ : Module} (h₁ : Delivers o m m₁)
    (h₂ : Delivers o m m₂) : m₁ = m₂ := by
  cases h₁ with
  | plain hoff =>
    cases h₂ with
    | plain _ => rfl
    | optimized hon _ _ => simp [hoff] at hon
  | optimized hon hr _ =>
    cases h₂ with
    | plain hoff => simp [hoff] at hon
    | optimized _ hr' _ => rw [Except.ok.inj (hr.symm.trans hr')]

theorem finishModule_verdict (o : Options) {m : Module} {text : String}
    (htext : m.targetText = .ok text) :
    ∃ b, finishModule o m = .ok b ∧ b.verdict = o.verdict text := by
  unfold finishModule
  split
  · rw [htext]
    exact ⟨_, rfl, rfl⟩
  · next hneither =>
    refine ⟨_, rfl, ?_⟩
    simp_all [Options.verdict]

/-- Nothing fails behind lowering: a sound module is optimized, if that is
asked for, and emitted. -/
theorem checkModule_verdict (o : Options) {m : Module} (hm : m.IsSound) :
    ∃ m' text b, Delivers o m m' ∧ m'.verify = .ok [] ∧ m'.targetText = .ok text ∧
      checkModule o m = .ok b ∧ b.verdict = o.verdict text := by
  have hcheck : checkModule o m = if o.optimize then optimizeModule o m
      else finishModule o m := by
    simp [checkModule, hm.verify, bind, Except.bind]
  rw [hcheck]
  cases hoptimize : o.optimize with
  | false =>
    obtain ⟨text, htext⟩ := hm.targetText
    obtain ⟨b, hb, hverdict⟩ := finishModule_verdict o htext
    exact ⟨m, text, b, .plain hoptimize, hm.verify, htext, hb, hverdict⟩
  | true =>
    -- The driver runs the default passes, whatever its options are.
    have hpasses : Optimize.Optimizer.passes { logging := o.progress } =
      [.constantFolding, .deadCode] := rfl
    obtain ⟨r, hr, herror, hsound⟩ := Optimize.Optimizer.optimize_sound hpasses hm
    obtain ⟨text, htext⟩ := hsound.targetText
    obtain ⟨b, hb, hverdict⟩ := finishModule_verdict o htext
    let note := o.note ("Optimization successful (" ++ r.optimizer.stats.text ++ ")")
    refine ⟨r.code, text, b.after "" (r.log ++ note),
      .optimized hoptimize hr herror, hsound.verify, htext, ?_, hverdict⟩
    simp [optimizeModule, note, hr, herror, hsound.verify, hb, bind, Except.bind,
      pure, Except.pure]

/-- A tree with semantic errors is given up, and nothing is printed for it but them. -/
theorem compileTree_of_errors (o : Options) {t : Tree} {c : Compiled}
    (hc : t.compile = .ok c) (herrors : c.errors ≠ []) :
    ∃ b, compileTree o t = .ok b ∧ b.verdict = .failed ∧ b.out = "" := by
  obtain ⟨e, es, hes⟩ := List.exists_cons_of_ne_nil herrors
  refine ⟨Build.failure "Semantic errors" (c.errors.map SemanticError.text),
    ?_, rfl, rfl⟩
  simp [compileTree, hc, hes, bind, Except.bind, pure, Except.pure]

theorem compileTree_of_noErrors (o : Options) {t : Tree} {c : Compiled}
    (hc : t.compile = .ok c) (herrors : c.errors = []) :
    ∃ m text b, Delivers o c.module m ∧ m.verify = .ok [] ∧ m.targetText = .ok text ∧
      compileTree o t = .ok b ∧ b.verdict = o.verdict text := by
  obtain ⟨m, text, b, hm, hverify, htext, hb, hverdict⟩ :=
    checkModule_verdict o (Tree.compile_sound hc)
  refine ⟨m, text, b.after "" (o.note "IR generation successful"), hm, hverify,
    htext, ?_, hverdict⟩
  simp [compileTree, hc, herrors, hb, bind, Except.bind, pure, Except.pure]

/-! ## Sources -/

/-- What is printed of a tree. -/
def Options.shownTree (o : Options) (t : Tree) : String :=
  if o.tree then t.outline else ""

/-- Trees that were read can be printed, so nothing but their errors keeps
them from being compiled. -/
theorem readTree_eq (o : Options) (l : Lexer) :
    readTree o l =
      match (Parser.parse l).errors with
      | [] => do
        return (← compileTree o (Parser.parse l).tree).after
          (o.shownTree (Parser.parse l).tree) (o.note "Parsing successful")
      | errors =>
        .ok ((Build.failure "Syntax errors" (errors.map ParseError.text)).after
          (o.shownTree (Parser.parse l).tree) "") := by
  have houtline : (Parser.parse l).tree.outline? =
      .ok (Parser.parse l).tree.outline := by
    rw [Tree.outline?, if_pos (Parser.isPrintable_parse l)]
  unfold readTree Options.shownTree
  cases o.tree <;> simp only [houtline, Bool.false_eq_true, if_true, if_false] <;> rfl

theorem readTree_of_errors (o : Options) {l : Lexer}
    (herrors : (Parser.parse l).errors ≠ []) :
    ∃ b, readTree o l = .ok b ∧ b.verdict = .failed ∧
      b.out = o.shownTree (Parser.parse l).tree := by
  obtain ⟨e, es, hes⟩ := List.exists_cons_of_ne_nil herrors
  rw [readTree_eq, hes]
  exact ⟨_, rfl, rfl, by simp [Build.failure]⟩

theorem readTree_of_noErrors (o : Options) {l : Lexer}
    (herrors : (Parser.parse l).errors = []) {b : Build}
    (hb : compileTree o (Parser.parse l).tree = .ok b) :
    readTree o l = .ok (b.after (o.shownTree (Parser.parse l).tree)
      (o.note "Parsing successful")) := by
  rw [readTree_eq, herrors, hb]
  rfl

/-- What there is to report on a source: lexical errors if its tokens are
listed, and otherwise syntax errors or the semantic errors of its tree. -/
def Objectionable (o : Options) (source : List UInt8) : Prop :=
  let l := Lexer.ofBytes source o.source
  if o.tokens then l.drain.errors ≠ []
  else (Parser.parse l).errors ≠ [] ∨ ∃ c, (Parser.parse l).tree.compile = .ok c ∧
    c.errors ≠ []

/-- Lexical errors are reported, whatever is asked for. -/
theorem objectionable_of_lexical {o : Options} {source : List UInt8}
    (h : (Lexer.ofBytes source o.source).drain.errors ≠ []) :
    Objectionable o source := by
  unfold Objectionable
  split
  · exact h
  · refine .inl fun hnone => h ?_
    rw [← Parser.lexical_errors_parse, hnone]
    rfl

/-- Whether a source has errors of any kind, be they reported or not. -/
def HasErrors (o : Options) (source : List UInt8) : Prop :=
  let l := Lexer.ofBytes source o.source
  l.drain.errors ≠ [] ∨ (Parser.parse l).errors ≠ [] ∨ ∃ c,
    (Parser.parse l).tree.compile = .ok c ∧ c.errors ≠ []

theorem HasErrors.objectionable {o : Options} {source : List UInt8}
    (h : HasErrors o source) (htokens : o.tokens = false) :
    Objectionable o source := by
  obtain hlexical | hothers := h
  · exact objectionable_of_lexical hlexical
  · simpa [Objectionable, htokens] using hothers

/-- What is printed of a source with errors: its tokens if they are asked for,
and otherwise its tree if that is. -/
def Options.shown (o : Options) (source : List UInt8) : String :=
  let l := Lexer.ofBytes source o.source
  if o.tokens then String.join (l.drain.all.map fun t => t.listing ++ "\n")
  else o.shownTree (Parser.parse l).tree

/-- Whether a file is to be written in the end. -/
def Options.WantsFile (o : Options) : Prop := o.writeTarget = true ∧ o.tokens = false

/-- Every phase has its way with a source, and `text` is what they come to. -/
def Completes (o : Options) (source : List UInt8) (text : String) : Prop :=
  let l := Lexer.ofBytes source o.source
  l.drain.errors = [] ∧ (Parser.parse l).errors = [] ∧
    ∃ c m, (Parser.parse l).tree.compile = .ok c ∧ c.errors = [] ∧
    c.module.verify = .ok [] ∧
      Delivers o c.module m ∧ m.verify = .ok [] ∧ m.targetText = .ok text

theorem Completes.unique {o : Options} {source : List UInt8} {text₁ text₂ : String}
    (h₁ : Completes o source text₁) (h₂ : Completes o source text₂) :
    text₁ = text₂ := by
  obtain ⟨-, -, c₁, m₁, hc₁, -, -, hm₁, -, htext₁⟩ := h₁
  obtain ⟨-, -, c₂, m₂, hc₂, -, -, hm₂, -, htext₂⟩ := h₂
  obtain rfl : c₁ = c₂ := Except.ok.inj (hc₁.symm.trans hc₂)
  obtain rfl := hm₁.unique hm₂
  exact Except.ok.inj (htext₁.symm.trans htext₂)

/-- A build with something to report fails, and prints no more than
the tokens or the tree. -/
theorem build_of_objectionable {o : Options} {source : List UInt8}
    (h : Objectionable o source) :
    ∃ b, build o source = .ok b ∧ b.verdict = .failed ∧ b.out = o.shown source := by
  unfold build Objectionable Options.shown at *
  cases htokens : o.tokens with
  | true =>
    obtain ⟨e, es, hes⟩ := List.exists_cons_of_ne_nil (by simpa [htokens] using h)
    refine ⟨_, rfl, ?_, ?_⟩ <;> simp [listTokens, hes, Build.failure]
  | false =>
    simp only [htokens, Bool.false_eq_true, if_false] at h ⊢
    by_cases herrors : (Parser.parse (.ofBytes source o.source)).errors = []
    · obtain hparse | ⟨c, hc, hsemantic⟩ := h
      · exact absurd herrors hparse
      obtain ⟨b, hb, hverdict, hout⟩ := compileTree_of_errors o hc hsemantic
      exact ⟨_, readTree_of_noErrors o herrors hb, hverdict, by simp [hout]⟩
    · exact readTree_of_errors o herrors

/-- A build with nothing to report goes through all phases that are asked for. -/
theorem build_of_not_objectionable {o : Options} {source : List UInt8}
    (h : ¬ Objectionable o source) :
    ∃ b, build o source = .ok b ∧ (¬ o.WantsFile → b.verdict = .done) ∧
      (o.WantsFile → ∃ text, Completes o source text ∧ b.verdict = .write text) ∧
      (o.tokens = true → b.out = o.shown source) := by
  have hlexical := not_not.mp (mt objectionable_of_lexical h)
  unfold build Objectionable Options.WantsFile Options.shown at *
  cases htokens : o.tokens with
  | true =>
    exact ⟨_, rfl, by simp [listTokens,
      hlexical], by simp, by simp [listTokens, hlexical]⟩
  | false =>
    obtain ⟨c, hc, _⟩ :=
      Tree.compile_of_complete (Parser.isComplete_parse (.ofBytes source o.source))
    simp only [htokens, Bool.false_eq_true, if_false, not_or, not_not, hc] at h
    obtain ⟨hparse, hsemantic⟩ := h
    have hsemantic : c.errors = [] := by simpa using hsemantic
    obtain ⟨m, text, b, hm, hverify, htext, hb, hverdict⟩ :=
      compileTree_of_noErrors o hc hsemantic
    refine ⟨_, readTree_of_noErrors o hparse hb, ?_, ?_, by simp⟩
    · intro hoff
      simp_all [Options.verdict]
    · rintro ⟨hon, -⟩
      have hsound := Tree.compile_sound hc
      refine ⟨text, ⟨hlexical, hparse, c, m, hc, hsemantic, hsound.verify, hm,
        hverify, htext⟩, ?_⟩
      simp [hverdict, Options.verdict, hon]

/-- A build is never at fault, and fails exactly if there is something to report. -/
theorem build_verdict (o : Options) (source : List UInt8) :
    ∃ b, build o source = .ok b ∧ (b.verdict = .failed ↔ Objectionable o source) := by
  by_cases h : Objectionable o source
  · obtain ⟨b, hb, hverdict, -⟩ := build_of_objectionable h
    exact ⟨b, hb, by simp [h, hverdict]⟩
  · obtain ⟨b, hb, hdone, hwrite, -⟩ := build_of_not_objectionable h
    refine ⟨b, hb, by_contra fun hne => ?_⟩
    by_cases hwants : o.WantsFile
    · obtain ⟨text, -, hverdict⟩ := hwrite hwants
      simp [h, hverdict] at hne
    · simp [h, hdone hwants] at hne

end Command

/-! ## Everything behind lowering -/

/-- A module that passes verification and has a target text. -/
def Code.Module.IsReady (m : Module) : Prop :=
  m.verify = .ok [] ∧ ∃ t, m.emit = .ok t ∧ ∃ text, t.print = .ok text

theorem Code.Module.IsSound.isReady {m : Module} (h : m.IsSound) : m.IsReady :=
  ⟨h.verify, h.emit⟩

/-- Whatever a tree without gaps says, it is compiled to a module that is
verified and emitted, and the default passes, run for any number of rounds,
leave such a module again. Trees read from source text have no gaps, so a build
ends with a verdict on the source and with no other failure. -/
theorem phases_behind_lowering_succeed :
    (∀ t : Tree, t.isComplete → ∃ c, t.compile = .ok c ∧ c.module.IsReady ∧
      ∀ limit logging stats, ∃ r,
        Optimize.Optimizer.optimize { limit, logging, stats } c.module = .ok r ∧
        r.error = none ∧
          r.code.IsReady) ∧
    (∀ source filename, (Parser.parse (.ofBytes source filename)).tree.isComplete) ∧
    ∀ o source, ∃ b, Command.build o source = .ok b ∧
      (b.verdict = .failed ↔ Command.Objectionable o source) := by
  refine ⟨fun t complete => ?_, fun source filename => Parser.isComplete_parse _,
    Command.build_verdict⟩
  obtain ⟨c, hc, _⟩ := t.compile_of_complete complete
  have hsound := Tree.compile_sound hc
  refine ⟨c, hc, hsound.isReady, fun limit logging stats => ?_⟩
  have hpasses : Optimize.Optimizer.passes { limit, logging, stats } =
    [.constantFolding, .deadCode] := rfl
  obtain ⟨r, hr, herror, hcode⟩ := Optimize.Optimizer.optimize_sound hpasses hsound
  exact ⟨r, hr, herror, hcode.isReady⟩

/-- A function with statements that are given up halfway, and code behind its return. -/
def halfway : Tree where
  filename := "halfway"
  globals := [
    .func {} "main" [] [
      .decl {} "x" (some .int),
      .assign {} "x" [.binary (.arith .add) {}
        (.binary (.arith .div) {} (.int {} 1) (.ident {} "x")) (.ident {} "y")],
      .ret {} [.ident {} "x"],
      .call {} "puts" [.text {} "x", .ident {} "x"],
      .ret {} [.int {} 1, .int {} 2]],
    .external {} "puts" [⟨"s", some .str, {}⟩]]

theorem phases_behind_lowering_succeed_halfway : halfway.isComplete ∧
    ∃ c, halfway.compile = .ok c ∧ c.errors.length = 3 ∧ c.module.IsReady ∧
      ∃ r, Optimize.Optimizer.optimize {} c.module = .ok r ∧ r.error = none ∧
      r.code.IsReady := by
  have complete : halfway.isComplete := by decide
  obtain ⟨c, hc, hready, hoptimize⟩ := phases_behind_lowering_succeed.1 halfway complete
  refine ⟨complete, c, hc, ?_, hready, hoptimize _ _ _⟩
  have herrors : (halfway.compile.map fun c => c.errors.length) = .ok 3 := by
    decide +kernel
  rw [hc] at herrors
  exact Except.ok.inj herrors

end Straightline
