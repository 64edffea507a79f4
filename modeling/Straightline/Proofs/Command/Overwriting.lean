import Mathlib
import Straightline.Proofs.Command.Conduct
import Straightline.Proofs.Command.Files

/-!
# When a run overwrites its source

Without an output path, target text goes to the source path with its extension
replaced by `.ll`. Nothing keeps a source from being called so itself. A source
of any other name is never touched, whatever the flags and files are; one that
is called so is replaced by its target text, unless no file is asked for, there
is something to report on the source, or the file cannot be written
(`source_overwritten_iff`).
-/

namespace Straightline.Command

/-! ## Access to a directory tree -/

theorem FileTree.access_read {t t' : FileTree} {path : String}
    {result : Except Reason (List UInt8)} (h : access.read path t = (result, t')) :
    t.read path = result ∧ t' = t := by
  have hread : access.read path t = (t.read path, t) := rfl
  rw [hread] at h
  obtain ⟨rfl, rfl⟩ := Prod.mk.inj h
  exact ⟨rfl, rfl⟩

/-- A file that cannot be written leaves the tree as it was. -/
theorem FileTree.access_write {t t' : FileTree} {path : String} {data : List UInt8}
    {result : Except Reason Unit} (h : access.write path data t = (result, t')) :
    (result = .ok () ∧ t.write path data = .ok t') ∨
      ((∃ reason, result = .error reason) ∧ t' = t) := by
  cases hresult : t.write path data with
  | ok t₁ =>
    have hwrite : access.write path data t = (.ok (), t₁) := by
      simp only [access, bind, StateT.bind, get, getThe, MonadStateOf.get,
        StateT.get, pure, hresult]
      rfl
    rw [hwrite] at h
    obtain ⟨rfl, rfl⟩ := Prod.mk.inj h
    exact .inl ⟨rfl, rfl⟩
  | error reason =>
    have hwrite : access.write path data t = (.error reason, t) := by
      simp only [access, bind, StateT.bind, get, getThe, MonadStateOf.get,
        StateT.get, pure, hresult]
      rfl
    rw [hwrite] at h
    obtain ⟨rfl, rfl⟩ := Prod.mk.inj h
    exact .inr ⟨⟨reason, rfl⟩, rfl⟩

/-! ## What a run leaves of its source -/

section
variable {args : List String} {o : Options} {t t' : FileTree} {report : Report}
  {log : List Access}

theorem outputPath_of_default (hdefault : o.output = "") :
    o.outputPath = Path.targetPath o.source := by
  rw [Options.outputPath, if_pos hdefault]

/-- A run that changes what is read at the source path has written target text there. -/
theorem Ends.of_read_ne (h : Ends FileTree.access args t report t' log)
    (hasks : Asks args o) (hdefault : o.output = "")
    (hne : t'.read o.source ≠ t.read o.source) :
    Path.targetPath o.source = o.source ∧ o.WantsFile ∧ report.status = 0 ∧
      ∃ source text, t.read o.source = .ok source ∧ Completes o source text ∧
      Rune.utf8 text ≠ source := by
  cases h with
  | misused hmisuses => exact absurd hmisuses hasks.not_misuses
  | unreadable _ hread _ =>
    obtain ⟨-, rfl⟩ := FileTree.access_read hread
    exact absurd rfl hne
  | failed _ hread _ _ _ =>
    obtain ⟨-, rfl⟩ := FileTree.access_read hread
    exact absurd rfl hne
  | done _ hread _ _ _ _ =>
    obtain ⟨-, rfl⟩ := FileTree.access_read hread
    exact absurd rfl hne
  | @written o' source text result _ _ _ hasks' hread _ hwants htext hwritten hzero _ =>
    obtain rfl := hasks.unique hasks'
    obtain ⟨hsource, rfl⟩ := FileTree.access_read hread
    rw [outputPath_of_default hdefault] at hwritten
    rcases FileTree.access_write hwritten with ⟨hok, hwrite⟩ | ⟨-, rfl⟩
    · have hafter := FileTree.read_of_write_targetPath hsource hwrite
      rw [hafter, hsource] at hne
      by_cases hpath : Path.targetPath o.source = o.source
      · rw [if_pos hpath] at hne
        exact ⟨hpath, hwants, hzero.mpr hok, source, text, hsource, htext,
          fun heq => hne (by rw [heq])⟩
      · rw [if_neg hpath] at hne
        exact absurd rfl hne
    · exact absurd rfl hne

/-- A run that writes target text to the source path replaces the source by it. -/
theorem Ends.read_eq (h : Ends FileTree.access args t report t' log)
    (hasks : Asks args o) (hdefault : o.output = "")
    (hpath : Path.targetPath o.source = o.source) (hwants : o.WantsFile)
    (hstatus : report.status = 0) {source : List UInt8} {text : String}
    (hsource : t.read o.source = .ok source) (htext : Completes o source text) :
    t'.read o.source = .ok (Rune.utf8 text) := by
  cases h with
  | misused => cases hstatus
  | unreadable _ _ hone => cases hstatus.symm.trans hone
  | failed _ _ _ hone _ => cases hstatus.symm.trans hone
  | done hasks' _ _ hnot _ _ =>
    obtain rfl := hasks.unique hasks'
    exact absurd hwants hnot
  | @written o' source' text' result _ _ _ hasks' hread _ _ htext' hwritten hzero _ =>
    obtain rfl := hasks.unique hasks'
    obtain ⟨hsource', rfl⟩ := FileTree.access_read hread
    obtain rfl : source' = source := Except.ok.inj (hsource'.symm.trans hsource)
    obtain rfl := htext.unique htext'
    rw [outputPath_of_default hdefault] at hwritten
    rcases FileTree.access_write hwritten with ⟨-, hwrite⟩ | ⟨⟨reason, herror⟩, -⟩
    · rw [FileTree.read_of_write_targetPath hsource hwrite, if_pos hpath]
    · cases (hzero.mp hstatus).symm.trans herror

end

/-- Where no output path is given, the output is the source itself just if the
source path ends in `.ll`. A run, on any files and with any other flags, changes
what is read at the source path just if that is so and target text is written
there that differs from what it replaces. -/
theorem source_overwritten_iff {args : List String} {o : Options}
    (hasks : Asks args o) (hdefault : o.output = "") (t : FileTree) :
    (o.outputPath = o.source ↔ ∃ front, o.source = front ++ ".ll") ∧
      ∃ report t', run FileTree.access args t = (.ok report, t') ∧
        (t'.read o.source ≠ t.read o.source ↔
          (∃ front, o.source = front ++ ".ll") ∧ o.WantsFile ∧ report.status = 0 ∧
            ∃ source text, t.read o.source = .ok source ∧ Completes o source text ∧
            Rune.utf8 text ≠ source) := by
  rw [outputPath_of_default hdefault, ← Path.targetPath_eq_iff]
  refine ⟨Iff.rfl, ?_⟩
  obtain ⟨report, t', log, hrun, -, hends⟩ := exists_ends FileTree.access args t
  refine ⟨report, t', hrun, hends.of_read_ne hasks hdefault, ?_⟩
  rintro ⟨hpath, hwants, hstatus, source, text, hsource, htext, hdiffer⟩
  rw [hends.read_eq hasks hdefault hpath hwants hstatus hsource htext, hsource]
  exact fun heq => hdiffer (Except.ok.inj heq)

/-- A small program. -/
def smallSource : List UInt8 := Rune.utf8 "func f\nbegin\nend\n"

/-- The program is kept, although its directory has a dot in its name and it
has no extension itself. -/
theorem source_overwritten_iff_dotted :
    let args := ["-emit-llvm", "-O", "lib.ll/f"]
    let t := FileTree.ofList [("lib.ll/f", smallSource)] []
    ∃ report t', run FileTree.access args t = (.ok report, t') ∧
      t'.read "lib.ll/f" = .ok smallSource := by
  intro args t
  let o : Options := { writeTarget := true, optimize := true, source := "lib.ll/f" }
  have hasks : Asks args o := Options.parse_eq_ok_iff.mp (by decide +kernel)
  have hsource : t.read "lib.ll/f" = .ok smallSource := by decide +kernel
  obtain ⟨-, report, t', hrun, hiff⟩ := source_overwritten_iff hasks rfl t
  refine ⟨report, t', hrun, ?_⟩
  by_contra hne
  rw [← hsource] at hne
  obtain ⟨⟨front, hfront⟩, -⟩ := hiff.mp hne
  have hlast := congrArg (fun path : String => path.toList.getLast?) hfront
  simp [o] at hlast

/-- The program is lost if its file is called like one with target text. -/
theorem exists_source_overwritten :
    ∃ (args : List String) (o : Options) (t : FileTree), Asks args o ∧ o.output = "" ∧
      t.read o.source = .ok smallSource ∧
      (run FileTree.access args t).2.read o.source ≠ .ok smallSource := by
  let o : Options := { writeTarget := true, source := "x.ll" }
  refine ⟨["-emit-llvm", "x.ll"], o, FileTree.ofList [("x.ll", smallSource)] [], ?_,
    rfl, ?_, ?_⟩
  · exact Options.parse_eq_ok_iff.mp (by decide +kernel)
  · decide +kernel
  · decide +kernel

end Straightline.Command
