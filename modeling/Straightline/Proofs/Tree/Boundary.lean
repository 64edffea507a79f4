import Mathlib
import Straightline.Proofs.Tree.Lockstep

/-!
# Declarations are read apart from each other

A keyword that starts a declaration ends whatever was being read before it,
however broken that is. So tokens can be cut in front of such a keyword, and
the two parts read on their own: the same declarations are found, and as many
errors (`parseTokens_append`). The one place where the cut would be seen is
between `extern` and `func`.

The proof runs parsers side by side twice: the one of the whole next to the
one of the first part (`Joined`), and then, from the cut on, next to the one
of the second part (`Shifted`).
-/

namespace Straightline.Parser

open State

theorem State.length_errors_record (s : State) (pos : Position) (cause : ParseCause) :
    (s.record pos cause).errors.length = s.errors.length + 1 :=
  List.length_append

/-! ## A text and its first part -/

/-- The second parser has the tokens of the first one in front of it, and
`back` behind them. The error of the first token of `back` is recorded when the
first parser is at its end. -/
structure Joined (back : List Scanned) (s s' : State) : Prop where
  tokens : s'.tokens = s.tokens ++ back
  errors : s'.errors.length = s.errors.length + if s.tokens = [] then
    (errorsAhead back).length else 0
  proper : ∀ t ∈ s.tokens, t.token.kind ≠ .eof
  apart : (∃ a ∈ s.tokens.getLast?, a.token.kind = .keyword .external) →
    ∀ b ∈ back.head?, b.token.kind ≠ .keyword .func

namespace Joined

variable {back : List Scanned} {s s' : State}

theorem start {front : List Scanned} (p r : Position)
    (hfront : ∀ t ∈ front, t.token.kind ≠ .eof)
    (happart : (∃ a ∈ front.getLast?, a.token.kind = .keyword .external) →
      ∀ b ∈ back.head?, b.token.kind ≠ .keyword .func) :
    Joined back (State.start front p) (State.start (front ++ back) r) where
  tokens := rfl
  errors := by cases front <;> simp [State.start, errorsAhead]
  proper := hfront
  apart := happart

/-- In front of a token of the first part both parsers take it away. -/
theorem advance (h : Joined back s s') {t : Scanned} {ts : List Scanned}
    (htokens : s.tokens = t :: ts) : Joined back s.advance s'.advance := by
  have htokens' : s'.tokens = t :: (ts ++ back) := by
    rw [h.tokens, htokens, List.cons_append]
  have herrors := h.errors
  rw [htokens, if_neg (List.cons_ne_nil t ts)] at herrors
  constructor
  · simp [State.advance, htokens, htokens']
  · cases ts with
    | nil => simp [State.advance, htokens, htokens', errorsAhead, herrors]
    | cons u us => simp [State.advance, htokens, htokens', errorsAhead, herrors]
  · intro u hu
    exact h.proper u (s.tokens_advance_suffix.subset hu)
  · intro hlast
    apply h.apart
    cases ts with
    | nil => simp [State.advance, htokens] at hlast
    | cons u us =>
      rw [htokens, List.getLast?_cons_cons]
      simpa [State.advance, htokens] using hlast

/-- Where the second part starts with a declaration, reading keeps
the two parsers in step. -/
theorem inStep
    (hback : ∃ b ∈ back.head?, b.token.kind = .keyword .func ∨
      b.token.kind = .keyword .external) : InStep (Joined back) where
  look s s' h := by
    cases htokens : s.tokens with
    | nil =>
      obtain ⟨b, hb, hkind⟩ := hback
      refine .inr ⟨by simp [State.current, htokens], ?_⟩
      cases hrest : back with
      | nil => simp [hrest] at hb
      | cons b' bs =>
        obtain rfl : b' = b := by simpa [hrest] using hb
        have hcurrent : s'.current = b'.token := by
          simp [State.current, h.tokens, htokens, hrest]
        rw [hcurrent]
        exact .inr hkind
    | cons t ts =>
      have hcurrent : s.current = t.token := by simp [State.current, htokens]
      refine .inl ⟨?_, ?_, h.advance htokens⟩
      · rw [hcurrent]
        exact h.proper t (htokens ▸ List.mem_cons_self)
      · simp [State.current, h.tokens, htokens]
  record s s' _ _ h _ :=
    { h with
      errors := by
        rw [length_errors_record, length_errors_record, h.errors]
        exact Nat.add_right_comm _ _ _ }
  emit s s' _ h := { h with }
  clear s s' h := { h with }
  external s s' h hkind hend := by
    cases htokens : s.tokens with
    | nil => simp [State.current, htokens] at hkind
    | cons t ts =>
      have hnil : ts = [] := by
        simpa [State.advance, htokens] using
          State.tokens_eq_nil hend (h.advance htokens).proper
      subst hnil
      have hlast : ∃ a ∈ s.tokens.getLast?, a.token.kind = .keyword .external :=
        ⟨t, by simp [htokens], by simpa [State.current, htokens] using hkind⟩
      cases hrest : back with
      | nil => simp [State.current, State.advance, h.tokens, htokens, hrest]
      | cons b bs =>
        have hne := h.apart hlast b (by simp [hrest])
        simpa [State.current, State.advance, h.tokens, htokens, hrest] using hne

end Joined

/-! ## A text, from the cut on, and its second part -/

/-- Two parsers of the same tokens, the second of which has found `n` errors more. -/
structure Shifted (n : Nat) (s s' : State) : Prop where
  tokens : s'.tokens = s.tokens
  errors : s'.errors.length = n + s.errors.length

namespace Shifted

variable {n : Nat} {s s' : State}

theorem inStep : InStep (Shifted n) where
  look s s' h := by
    cases htokens : s.tokens with
    | nil =>
      exact .inr ⟨by simp [State.current, htokens],
        .inl (by simp [State.current, h.tokens, htokens])⟩
    | cons t ts =>
      have hcurrent : s'.current = s.current := by
        simp [State.current, h.tokens, htokens]
      by_cases heof : s.current.kind = .eof
      · refine .inr ⟨heof, ?_⟩
        rw [hcurrent]
        exact .inl heof
      · refine .inl ⟨heof, hcurrent, ?_, ?_⟩
        · simp [State.advance, h.tokens, htokens]
        · simp [State.advance, h.tokens, htokens, h.errors, Nat.add_assoc]
  record s s' _ _ h _ :=
    { h with
      errors := by
        rw [length_errors_record, length_errors_record, h.errors, Nat.add_assoc] }
  emit s s' _ h := { h with }
  clear s s' h := { h with }
  external s s' h hkind hend := by
    have hcurrent : s'.advance.current.kind = .eof := by
      cases htokens : s.tokens with
      | nil => simp [State.current, htokens] at hkind
      | cons t ts => cases ts <;> simp_all [State.advance, State.current, h.tokens]
    rw [hcurrent]
    exact Token.Kind.noConfusion

/-- Errors found before do not change what is read. -/
theorem globals (h : Shifted n s s') :
    (globals s').1 = (Parser.globals s).1 ∧
      (Parser.globals s').2.errors.length = n + (Parser.globals s).2.errors.length := by
  obtain ⟨e', he, hend, hrest⟩ := inStep.globals s s' h
  have hend' : e'.current.kind = .eof := by
    cases htokens : (Parser.globals s).2.tokens with
    | nil => simp [State.current, he.tokens, htokens]
    | cons t ts => simpa [State.current, he.tokens, htokens] using hend
  have hnone : Parser.globals e' = ([], e') := by rw [Parser.globals, if_pos hend']
  rw [hrest, hnone]
  exact ⟨List.append_nil _, he.errors⟩

end Shifted

/-! ## Both parts -/

/-- Tokens may be cut in front of `func` and of `extern`, however broken they
are on either side: the declarations of the whole are those of the two parts,
and so are its errors, by their number. -/
theorem parseTokens_append (filename : String) (front back : List Scanned)
    (p q r : Position) (hfront : ∀ t ∈ front, t.token.kind ≠ .eof)
    (hback : ∃ b ∈ back.head?, b.token.kind = .keyword .func ∨
      b.token.kind = .keyword .external)
    (hjoint : ¬ ((∃ a ∈ front.getLast?, a.token.kind = .keyword .external) ∧
      ∃ b ∈ back.head?, b.token.kind = .keyword .func)) :
    (parseTokens filename (front ++ back) r).tree.globals =
        (parseTokens filename front p).tree.globals ++
          (parseTokens filename back q).tree.globals ∧
      (parseTokens filename (front ++ back) r).errors.length =
        (parseTokens filename front p).errors.length +
          (parseTokens filename back q).errors.length := by
  have hstart : Joined back (start front p) (start (front ++ back) r) :=
    .start p r hfront fun hlast b hb hfunc => hjoint ⟨hlast, b, hb, hfunc⟩
  obtain ⟨e', he, hend, hwhole⟩ := (Joined.inStep hback).globals _ _ hstart
  -- The first parser is at its end, so the second one is in front of `back`.
  have hnil := State.tokens_eq_nil hend he.proper
  have hcut : Shifted (globals (start front p)).2.errors.length (start back q) e' := by
    constructor
    · rw [he.tokens, hnil]
      rfl
    · rw [he.errors, if_pos hnil]
      rfl
  obtain ⟨hglobals, herrors⟩ := hcut.globals
  constructor
  · show (globals (start (front ++ back) r)).1 = _ ++ _
    rw [hwhole, hglobals]
    rfl
  · show (globals (start (front ++ back) r)).2.errors.length = _ + _
    rw [hwhole, herrors]
    rfl

/-- A call that is not closed, and `extern` without a declaration, in front of a
declaration without a name. -/
theorem parseTokens_append_unfinished :
    let word (kind : Token.Kind) (lexeme : String) : Scanned :=
      { token := { kind, lexeme } }
    let front :=
      [word (.keyword .func) "func", word .identifier "f",
        word (.keyword .begins) "begin",
      word .identifier "g", word (.mark .leftParen) "(", word .integer "1",
      word (.keyword .external) "extern"]
    let back :=
      [word (.keyword .external) "extern", word (.keyword .func) "func",
        word (.mark .comma) ",",
      word (.keyword .func) "func", word .identifier "h",
      word (.keyword .begins) "begin", word (.keyword .ends) "end"]
    (parseTokens "" (front ++ back) {}).tree.globals = [.func {} "h" [] []] ∧
      (parseTokens "" (front ++ back) {}).errors.length =
        (parseTokens "" front {}).errors.length +
          (parseTokens "" back {}).errors.length := by
  intro word front back
  have h :=
    parseTokens_append "" front back {} {} {} (by decide +kernel)
      (by decide +kernel) (by decide +kernel)
  refine ⟨?_, h.2⟩
  rw [h.1]
  decide +kernel

end Straightline.Parser
