import Mathlib
import Straightline.Proofs.Tree.ErrorOrder
import Straightline.Proofs.Tree.Moves

/-!
# Reading without errors

Errors are never taken back, and whatever a parser gives up or skips leaves one
behind. An invalid token is not complained about, but its own error is recorded
before it comes into view (`Alert`). So if no error is found up to some place,
then every statement and every declaration in front of it was read to its end.
-/

namespace Straightline.Parser

variable {α : Type} {s s' : State}

/-- Whether the tokens that are left stand as the lexer gives them, and the
error of an invalid one in view is recorded. -/
structure Alert (s : State) : Prop extends Placed s where
  proper : ∀ t ∈ s.tokens, t.token.kind ≠ .eof
  noted : s.current.kind = .invalid → s.errors ≠ []

theorem Placed.errorsAhead_ne_nil (h : Placed s)
    (hinvalid : s.current.kind = .invalid) : State.errorsAhead s.tokens ≠ [] := by
  cases htokens : s.tokens with
  | nil => simp [State.current, htokens] at hinvalid
  | cons t ts =>
    have hkind : t.token.kind = .invalid := by
      simpa [State.current, htokens] using hinvalid
    have herror := h.errors t (htokens ▸ List.mem_cons_self)
    rw [if_pos hkind] at herror
    obtain ⟨x, hx, -⟩ := Option.map_eq_some_iff.mp herror
    simp [State.errorsAhead, hx]

theorem alert_start {tokens : List Scanned} {endPos : Position}
    (h : Placed (State.start tokens endPos))
    (hproper : ∀ t ∈ tokens, t.token.kind ≠ .eof) :
    Alert (State.start tokens endPos) :=
  { h with proper := hproper, noted := h.errorsAhead_ne_nil }

theorem Move.alert (h : Move s s') (hs : Alert s) : Alert s' := by
  have hlater := h.isLater
  refine { hs.toPlaced.later hlater with
    proper := fun t ht => hs.proper t (hlater.tokens.subset ht), noted := ?_ }
  cases h with
  | fetch heof =>
    intro hinvalid
    have htokens : s.tokens ≠ [] := fun hnil => heof (by simp [State.current, hnil])
    rw [State.errors_advance htokens]
    exact List.append_ne_nil_of_right_ne_nil
      _ (hs.toPlaced.advance.errorsAhead_ne_nil hinvalid)
  | complain _ _ _ _ => exact fun _ => by simp [State.record]
  | emit _ => exact hs.noted
  | clear => exact hs.noted

theorem Reaches.alert (h : Reaches s s') (hs : Alert s) : Alert s' := by
  induction h with
  | refl => exact hs
  | tail _ hmove ih => exact hmove.alert ih

/-- Errors are not taken back. -/
theorem Reaches.noErrors (h : Reaches s s') (hquiet : s'.errors = []) :
    s.errors = [] := by
  have hprefix := h.isLater.errors
  rw [hquiet] at hprefix
  exact List.prefix_nil.mp hprefix

theorem Outcome.ReachedFrom.reaches {o : Outcome α} {a : α} (h : o.ReachedFrom s)
    (hdone : o = .done a s') : Reaches s s' := by
  rw [hdone] at h
  exact h

/-- What is given up leaves an error. -/
theorem errors_of_abandoned {p : Parse α} (hs : Alert s) (hp : (p s).ReachedFrom s)
    (h : p s = .abandoned s') : s'.errors ≠ [] := by
  rw [h] at hp
  obtain ⟨hreaches, hinvalid | herrors⟩ := hp
  · exact (Reaches.alert hreaches hs).noted hinvalid
  · exact herrors

/-- Where no error is found later on, a statement was read to its end. -/
theorem done_of_statement {p : Parse Unit} (hs : Alert s) (hp : (p s).ReachedFrom s)
    (hreaches : Reaches (statement p s) s') (hquiet : s'.errors = []) :
    p s = .done () (statement p s) := by
  cases hps : p s with
  | done a s₁ => simp only [statement, hps]
  | abandoned s₁ =>
    simp only [statement, hps] at hreaches
    have hskip : Reaches s₁ s' := (reaches_skipStatement s₁).trans hreaches
    exact absurd (hskip.noErrors hquiet) (errors_of_abandoned hs hp hps)

/-- Where no error is found later on, a declaration was read to its end. -/
theorem done_of_global {p : Parse Global} (hs : Alert s) (hp : (p s).ReachedFrom s)
    (hreaches : Reaches (global p s).2 s') (hquiet : s'.errors = []) :
    ∃ g s₁, p s = .done g s₁ ∧ global p s = (some g, s₁) := by
  cases hps : p s with
  | done g s₁ => exact ⟨g, s₁, rfl, by simp only [global, hps]⟩
  | abandoned s₁ =>
    simp only [global, hps] at hreaches
    have hskip : Reaches s₁ s' := (reaches_skipGlobal s₁).trans hreaches
    exact absurd (hskip.noErrors hquiet) (errors_of_abandoned hs hp hps)

/-- A token that is reported and skipped leaves an error. -/
theorem errors_of_skipped (hs : Alert s) (heof : s.current.kind ≠ .eof)
    {cause : ParseCause}
    (hreaches : Reaches (s.report s.current cause).advance s') :
    s'.errors ≠ [] := by
  intro hquiet
  have hfetch : Reaches (s.report s.current cause) s' :=
    (Reaches.fetch (by rwa [State.current_report])).trans hreaches
  have hreport := hfetch.noErrors hquiet
  unfold State.report at hreport
  split at hreport
  · next hinvalid => exact hs.noted hinvalid hreport
  · simp [State.record] at hreport

end Straightline.Parser
