import Mathlib
import Straightline.Command
import Straightline.Proofs.Build
import Straightline.Proofs.Command.Arguments

/-!
# What a run of the command does

A run ends in one of five ways (`Ends`): the arguments are misuse, the source
cannot be read, there is something to report on it, it is built and no file is
asked for, or it is built and the file is written, which may come off or not. To
see what is done with files, a run is watched on files that keep a record
(`Files.recorded`). The exit status and the accesses follow from what there is
to report, and from nothing else (`Follows`).
-/

namespace Straightline.Command

variable {σ : Type}

/-! ## Accesses -/

/-- What is done with a file. -/
inductive Access where
  | read (path : String)
  | write (path : String) (data : List UInt8)
deriving DecidableEq, Repr

/-- Files with a record of what was done with them. -/
def Files.recorded (files : Files (StateM σ)) : Files (StateM (σ × List Access)) where
  read path := do
    let (s, log) ← get
    let (result, s') := (files.read path).run s
    set (s', log ++ [Access.read path])
    return result
  write path data := do
    let (s, log) ← get
    let (result, s') := (files.write path data).run s
    set (s', log ++ [Access.write path data])
    return result

theorem Files.recorded_read {files : Files (StateM σ)} {path : String} {s s' : σ}
    {result : Except Reason (List UInt8)} (h : files.read path s = (result, s'))
    (log : List Access) :
    files.recorded.read path (s, log) = (result, s', log ++ [.read path]) := by
  show ((files.read path s).1, (files.read path s).2, log ++ [Access.read path]) = _
  rw [h]

theorem Files.recorded_write {files : Files (StateM σ)} {path : String}
    {data : List UInt8} {s s' : σ} {result : Except Reason Unit}
    (h : files.write path data s = (result, s')) (log : List Access) :
    files.recorded.write path data (s, log) =
      (result, s', log ++ [.write path data]) := by
  show ((files.write path data s).1, (files.write path data s).2,
    log ++ [Access.write path data]) = _
  rw [h]

/-! ## Runs -/

section
variable (files : Files (StateM σ)) {args : List String} {o : Options} {s s₁ s₂ : σ}
  {source : List UInt8} {b : Build}

theorem conclude_of_failed (o : Options) (h : b.verdict = .failed) (s : σ) :
    conclude files o b s = ({ status := 1, out := b.out, err := b.err }, s) := by
  rw [conclude, h]
  rfl

theorem conclude_of_done (o : Options) (h : b.verdict = .done) (s : σ) :
    conclude files o b s = ({ status := 0, out := b.out, err := b.err }, s) := by
  rw [conclude, h]
  rfl

/-- The report on a file that was to be written depends on what came of
it, and not on the files. -/
theorem exists_report (o : Options) {text : String} (h : b.verdict = .write text)
    (result : Except Reason Unit) :
    ∃ report : Report, report.status ≤ 1 ∧ (report.status = 0 ↔ result = .ok ()) ∧
      ∀ {τ : Type} (files : Files (StateM τ)) {t t' : τ},
        files.write o.outputPath (Rune.utf8 text) t = (result, t') →
        conclude files o b t = (report, t') := by
  cases result with
  | ok _ =>
    refine ⟨{ status := 0, out := b.out,
              err := b.err ++ o.note ("Wrote " ++ o.outputPath) }, by simp, by simp, ?_⟩
    intro τ files t t' hwrite
    rw [conclude, h]
    simp only [bind, StateT.bind, hwrite]
    rfl
  | error reason =>
    let message := "orka: writing " ++ o.outputPath ++ ": open " ++ o.outputPath ++
      ": " ++ reason.message ++ "\n"
    refine ⟨{ status := 1, out := b.out, err := b.err ++ message }, by
      simp, by simp, ?_⟩
    intro τ files t t' hwrite
    rw [conclude, h]
    simp only [bind, StateT.bind, hwrite]
    rfl

theorem run_of_misuses {e : UsageError} (h : Misuses args e) (s : σ) :
    run files args s = (.ok { status := 2, err := e.report }, s) := by
  rw [run, Options.parse_of_misuses h]
  rfl

theorem run_of_unreadable (h : Asks args o) {reason : Reason}
    (hread : files.read o.source s = (.error reason, s₁)) :
    run files args s =
      (.ok { status := 1,
             err := "orka: unreadable source: " ++ readError o.source reason ++ "\n" },
        s₁) := by
  rw [run, Options.parse_of_asks h]
  simp only [bind, StateT.bind, hread]
  rfl

theorem run_of_build (h : Asks args o)
    (hread : files.read o.source s = (.ok source, s₁)) (hb : build o source = .ok b)
    {report : Report} (hconclude : conclude files o b s₁ = (report, s₂)) :
    run files args s = (.ok report, s₂) := by
  rw [run, Options.parse_of_asks h]
  simp only [bind, StateT.bind, hread, hb, hconclude]
  rfl

end

/-- How a run from `s` ends: with a report, in which state, and after which accesses. -/
inductive Ends (files : Files (StateM σ)) (args : List String) (s : σ) :
    Report → σ → List Access → Prop
  | misused {e : UsageError} : Misuses args e →
      Ends files args s { status := 2, err := e.report } s []
  | unreadable {o : Options} {reason : Reason} {s₁ : σ} {report : Report} :
      Asks args o → files.read o.source s = (.error reason, s₁) →
      report.status = 1 →
      Ends files args s report s₁ [.read o.source]
  | failed {o : Options} {source : List UInt8} {s₁ : σ} {report : Report} :
      Asks args o → files.read o.source s = (.ok source, s₁) →
      Objectionable o source →
      report.status = 1 → report.out = o.shown source →
      Ends files args s report s₁ [.read o.source]
  | done {o : Options} {source : List UInt8} {s₁ : σ} {report : Report} :
      Asks args o → files.read o.source s = (.ok source, s₁) →
      ¬ Objectionable o source → ¬ o.WantsFile →
      report.status = 0 → (o.tokens = true → report.out = o.shown source) →
      Ends files args s report s₁ [.read o.source]
  | written {o : Options} {source : List UInt8} {text : String}
      {result : Except Reason Unit} {s₁ s₂ : σ} {report : Report} :
      Asks args o → files.read o.source s = (.ok source, s₁) →
      ¬ Objectionable o source → o.WantsFile → Completes o source text →
      files.write o.outputPath (Rune.utf8 text) s₁ = (result, s₂) →
      (report.status = 0 ↔ result = .ok ()) → report.status ≤ 1 →
      Ends files args s report s₂
        [.read o.source, .write o.outputPath (Rune.utf8 text)]

/-- A run with and without a record comes to the same end. -/
theorem exists_ends (files : Files (StateM σ)) (args : List String) (s : σ) :
    ∃ report s' log, run files args s = (.ok report, s') ∧
      run files.recorded args (s, []) = (.ok report, s', log) ∧
      Ends files args s report s' log := by
  obtain ⟨e, hmisuses⟩ | ⟨o, hasks⟩ := (asks_or_misuses args).symm
  · exact ⟨_, _, _, run_of_misuses files hmisuses s,
      run_of_misuses files.recorded hmisuses (s, []), .misused hmisuses⟩
  rcases hread : files.read o.source s with ⟨result, s₁⟩
  have hrecord := Files.recorded_read hread []
  cases result with
  | error reason =>
    exact ⟨_, _, _, run_of_unreadable files hasks hread,
      run_of_unreadable files.recorded hasks hrecord, .unreadable hasks hread rfl⟩
  | ok source =>
    by_cases hobject : Objectionable o source
    · obtain ⟨b, hb, hverdict, hout⟩ := build_of_objectionable hobject
      have hconclude := conclude_of_failed files o hverdict s₁
      have hconclude' :=
        conclude_of_failed files.recorded o hverdict (s₁, [.read o.source])
      exact ⟨_, _, _, run_of_build files hasks hread hb hconclude,
        run_of_build files.recorded hasks hrecord hb hconclude',
        .failed hasks hread hobject rfl hout⟩
    obtain ⟨b, hb, hdone, hwrite, hout⟩ := build_of_not_objectionable hobject
    by_cases hwants : o.WantsFile
    · obtain ⟨text, hcompletes, hverdict⟩ := hwrite hwants
      rcases hwritten : files.write o.outputPath (Rune.utf8 text) s₁ with ⟨result, s₂⟩
      obtain ⟨report, hstatus, hzero, hconclude⟩ := exists_report o hverdict result
      have hrecord' := Files.recorded_write hwritten [.read o.source]
      exact ⟨_, _, _, run_of_build files hasks hread hb (hconclude files hwritten),
        run_of_build files.recorded hasks hrecord hb
          (hconclude files.recorded hrecord'),
        .written hasks hread hobject hwants hcompletes hwritten hzero hstatus⟩
    · have hconclude := conclude_of_done files o (hdone hwants) s₁
      have hconclude' :=
        conclude_of_done files.recorded o (hdone hwants) (s₁, [.read o.source])
      exact ⟨_, _, _, run_of_build files hasks hread hb hconclude,
        run_of_build files.recorded hasks hrecord hb hconclude',
        .done hasks hread hobject hwants rfl hout⟩

/-! ## What follows from the errors -/

/-- What is promised about a run for the request `o`, once reading its source
has come to `given` and left the state `s`: about the report, the state in
the end and all accesses. -/
structure Follows (files : Files (StateM σ)) (o : Options)
    (given : Except Reason (List UInt8)) (s : σ) (report : Report) (s' : σ)
    (log : List Access) : Prop where
  status : report.status = 0 ∨ report.status = 1
  /-- It succeeds if the source can be read, there is nothing to report on it,
  and a file that is asked for can be written. -/
  zero_iff : report.status = 0 ↔ ∃ source, given = .ok source ∧
    ¬ Objectionable o source ∧ (o.WantsFile → ∃ text, Completes o source text ∧
      (files.write o.outputPath (Rune.utf8 text) s).1 = .ok ())
  /-- The file is written if it is asked for and every phase
  succeeds, and no other file is. -/
  accesses : (∃ source text, given = .ok source ∧ o.WantsFile ∧
    Completes o source text ∧
      log = [.read o.source, .write o.outputPath (Rune.utf8 text)] ∧
      s' = (files.write o.outputPath (Rune.utf8 text) s).2) ∨
    ((∀ source, given = .ok source → o.WantsFile → Objectionable o source) ∧
      log = [.read o.source] ∧ s' = s)
  /-- For a source with errors nothing is written, and no more than the tokens
  or the tree is printed. -/
  errors : ∀ source, given = .ok source → HasErrors o source →
    log = [.read o.source] ∧ s' = s ∧ report.out = o.shown source

section
variable {files : Files (StateM σ)} {o : Options} {source : List UInt8} {s s' : σ}
  {report : Report}

theorem follows_unreadable (reason : Reason) (hstatus : report.status = 1) :
    Follows files o (.error reason) s report s [.read o.source] where
  status := .inr hstatus
  zero_iff := by simp [hstatus]
  accesses := .inr (by simp)
  errors := by simp

theorem follows_failed (hobject : Objectionable o source)
    (hstatus : report.status = 1) (hout : report.out = o.shown source) :
    Follows files o (.ok source) s report s [.read o.source] where
  status := .inr hstatus
  zero_iff := by simp [hstatus, hobject]
  accesses := .inr (by simp [hobject])
  errors := by
    intro source' hsource _
    cases hsource
    exact ⟨rfl, rfl, hout⟩

theorem follows_done (hobject : ¬ Objectionable o source) (hwants : ¬ o.WantsFile)
    (hstatus : report.status = 0)
    (hout : o.tokens = true → report.out = o.shown source) :
    Follows files o (.ok source) s report s [.read o.source] where
  status := .inl hstatus
  zero_iff := by simp [hstatus, hobject, hwants]
  accesses := .inr (by simp [hwants])
  errors := by
    intro source' hsource herrors
    cases hsource
    have htokens : o.tokens = true := by
      by_contra hoff
      exact hobject (herrors.objectionable (Bool.eq_false_iff.mpr hoff))
    exact ⟨rfl, rfl, hout htokens⟩

theorem follows_written (hobject : ¬ Objectionable o source) (hwants : o.WantsFile)
    {text : String} (htext : Completes o source text) {result : Except Reason Unit}
    (hwritten : files.write o.outputPath (Rune.utf8 text) s = (result, s'))
    (hzero : report.status = 0 ↔ result = .ok ()) (hstatus : report.status ≤ 1) :
    Follows files o (.ok source) s report s'
      [.read o.source, .write o.outputPath (Rune.utf8 text)] where
  status := by omega
  zero_iff := by
    rw [hzero]
    constructor
    · intro hok
      exact ⟨source, rfl, hobject, fun _ => ⟨text, htext, by rw [hwritten, hok]⟩⟩
    · rintro ⟨source', hsource, -, hfile⟩
      cases hsource
      obtain ⟨text', htext', hok⟩ := hfile hwants
      obtain rfl := htext.unique htext'
      rwa [hwritten] at hok
  accesses := .inl ⟨source, text, rfl, hwants, htext, rfl, by rw [hwritten]⟩
  errors := by
    intro source' hsource herrors
    cases hsource
    exact absurd (herrors.objectionable hwants.2) hobject

theorem Ends.misused_or_follows {args : List String} {log : List Access}
    (h : Ends files args s report s' log) :
    (∃ e, Misuses args e ∧ report.status = 2 ∧ log = [] ∧ s' = s ∧ report.out = "") ∨
      ∃ o given s₁, Asks args o ∧ files.read o.source s = (given, s₁) ∧
        Follows files o given s₁ report s' log := by
  cases h with
  | misused hmisuses => exact .inl ⟨_, hmisuses, rfl, rfl, rfl, rfl⟩
  | unreadable hasks hread hstatus =>
    exact .inr ⟨_, _, _, hasks, hread, follows_unreadable _ hstatus⟩
  | failed hasks hread hobject hstatus hout =>
    exact .inr ⟨_, _, _, hasks, hread, follows_failed hobject hstatus hout⟩
  | done hasks hread hobject hwants hstatus hout =>
    exact .inr ⟨_, _, _, hasks, hread, follows_done hobject hwants hstatus hout⟩
  | written hasks hread hobject hwants htext hwritten hzero hstatus =>
    exact .inr ⟨_, _, _, hasks, hread,
      follows_written hobject hwants htext hwritten hzero hstatus⟩

end

/-- Whatever the arguments and the files are, a run ends with a report, and its
exit status is 2 exactly for misuse: a flag that is refused, a call for help, or
more or less than one file. Then no file is touched. Otherwise what it reports
and what it does follow from the errors of the source. -/
theorem run_follows_errors (files : Files (StateM σ)) (args : List String) (s : σ) :
    ∃ report s' log, run files args s = (.ok report, s') ∧
      run files.recorded args (s, []) = (.ok report, s', log) ∧
      (report.status = 2 ↔ ∃ e, Misuses args e) ∧
      (report.status = 2 → log = [] ∧ s' = s ∧ report.out = "") ∧
      (report.status ≠ 2 → ∃ o given s₁, Asks args o ∧
        files.read o.source s = (given, s₁) ∧
        Follows files o given s₁ report s' log) := by
  obtain ⟨report, s', log, hrun, hrecorded, hends⟩ := exists_ends files args s
  refine ⟨report, s', log, hrun, hrecorded, ?_⟩
  obtain ⟨e, hmisuses, htwo, hrest⟩ | ⟨o, given, s₁, hasks, hread, hfollows⟩ :=
    hends.misused_or_follows
  · exact ⟨iff_of_true htwo ⟨e, hmisuses⟩, fun _ => hrest, fun hne => absurd htwo hne⟩
  · have hne : report.status ≠ 2 := by
      have hstatus := hfollows.status
      omega
    refine ⟨iff_of_false hne ?_, fun htwo => absurd htwo hne, fun _ =>
      ⟨o, given, s₁, hasks, hread, hfollows⟩⟩
    rintro ⟨e, hmisuses⟩
    exact hasks.not_misuses hmisuses

/-- A program that uses a variable it does not declare. -/
def undeclared : List UInt8 := Rune.utf8 "func main\nbegin\n y = 2\nend\n"

/-- Nothing is written for it, although a file is asked for, and its tree is printed. -/
theorem run_follows_errors_undeclared :
    let args := ["-emit-llvm", "--ast=T", "-o", "out.ll", "p.ok"]
    let t := FileTree.ofList [("p.ok", undeclared)] []
    ∃ report, run FileTree.access args t = (.ok report, t) ∧
      run FileTree.access.recorded args (t, []) = (.ok report, t, [.read "p.ok"]) ∧
      report.status = 1 ∧ report.out = "func main()\n  assign y\n    int 2\n" := by
  intro args t
  let o : Options :=
    { tree := true, writeTarget := true, output := "out.ll", source := "p.ok" }
  have hasks : Asks args o := Options.parse_eq_ok_iff.mp (by decide +kernel)
  obtain ⟨report, s', log, hrun, hrecorded, htwo, -, hrequest⟩ :=
    run_follows_errors FileTree.access args t
  have hne : report.status ≠ 2 := fun h => (htwo.mp h).elim fun _ => hasks.not_misuses
  obtain ⟨o', given, s₁, hasks', hread, hfollows⟩ := hrequest hne
  obtain rfl : o = o' :=
    Except.ok.inj ((Options.parse_of_asks hasks).symm.trans
      (Options.parse_of_asks hasks'))
  have hgiven : given = .ok undeclared ∧ s₁ = t := by
    have hsource : t.read "p.ok" = .ok undeclared := by decide +kernel
    have heq : (t.read "p.ok", t) = (given, s₁) := hread
    rw [hsource] at heq
    exact ⟨(Prod.mk.inj heq).1.symm, (Prod.mk.inj heq).2.symm⟩
  obtain ⟨rfl, rfl⟩ := hgiven
  have hflawed : HasErrors o undeclared := by
    let l := Lexer.ofBytes undeclared "p.ok"
    have herrors : ((Parser.parse l).tree.compile.map fun c => c.errors.length) =
      .ok 1 := by decide +kernel
    obtain ⟨c, hc, -⟩ := Tree.compile_of_complete (Parser.isComplete_parse l)
    rw [hc] at herrors
    have hlength : c.errors.length = 1 := Except.ok.inj herrors
    exact .inr (.inr ⟨c, hc, List.ne_nil_of_length_pos (by omega)⟩)
  obtain ⟨rfl, rfl, hout⟩ := hfollows.errors undeclared rfl hflawed
  have hone : report.status = 1 := by
    refine hfollows.status.resolve_left fun hzero => ?_
    obtain ⟨source, hsource, hclean, -⟩ := hfollows.zero_iff.mp hzero
    cases hsource
    exact hclean (hflawed.objectionable rfl)
  have hshown : o.shown undeclared = "func main()\n  assign y\n    int 2\n" := by
    decide +kernel
  exact ⟨report, hrun, hrecorded, hone, hout.trans hshown⟩

end Straightline.Command
