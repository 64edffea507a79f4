import Mathlib
import Straightline.Proofs.Tree.Quiet
import Straightline.Proofs.Tree.Words

/-!
# A text without errors is in its tree, all of it and once

If no error is found, then the declarations of the tree are the pieces of the
text from `func` to `end` and from `extern` to `)`, one for one, and what a
declaration holds is what the tokens of its piece say
(`tree_accounts_for_tokens`).

The proof follows the tokens that reading takes away (`Spends`) and the
statements that it adds (`Took`). A statement or a declaration that is
given up would lose tokens, and so would a token that is skipped; but each
of them leaves an error behind.
-/

namespace Straightline.Parser

/-! ## Taking tokens away -/

/-- Whether the tokens taken away from `s` to `s'` say `ws` and `ops`, and none
of them is of the kind `close`. -/
def Spends (close : Token.Kind) (ws : List (Position × Word))
    (ops : List (Position × OpCode)) (s s' : State) : Prop :=
  ∃ ts, s.tokens.map (·.token) = ts ++ s'.tokens.map (·.token) ∧
    ts.filterMap word? = ws ∧
    ts.filterMap operation? = ops ∧ ∀ t ∈ ts, t.kind ≠ close

/-- Whether, besides, the statements added from `s` to `s'` are `stmts`. -/
structure Took (close : Token.Kind) (ws : List (Position × Word))
    (ops : List (Position × OpCode)) (stmts : List Stmt) (s s' : State) : Prop where
  spends : Spends close ws ops s s'
  body : s'.body = s.body ++ stmts

section
variable {close : Token.Kind} {ws ws' : List (Position × Word)}
  {ops ops' : List (Position × OpCode)} {stmts stmts' : List Stmt}
  {s s' s'' : State}

theorem Spends.trans (h : Spends close ws ops s s')
    (h' : Spends close ws' ops' s' s'') :
    Spends close (ws ++ ws') (ops ++ ops') s s'' := by
  obtain ⟨ts, htokens, hwords, hops, hopen⟩ := h
  obtain ⟨ts', htokens', hwords', hops', hopen'⟩ := h'
  refine ⟨ts ++ ts', ?_, ?_, ?_, List.forall_mem_append.mpr ⟨hopen, hopen'⟩⟩
  · rw [htokens, htokens', List.append_assoc]
  · rw [List.filterMap_append, hwords, hwords']
  · rw [List.filterMap_append, hops, hops']

namespace Took

theorem still (htokens : s'.tokens = s.tokens) (hbody : s'.body = s.body) :
    Took close [] [] [] s s' :=
  ⟨⟨[], by rw [htokens]; rfl, rfl, rfl, by simp⟩, by rw [hbody, List.append_nil]⟩

theorem refl (s : State) : Took close [] [] [] s s := .still rfl rfl

theorem trans (h : Took close ws ops stmts s s')
    (h' : Took close ws' ops' stmts' s' s'') :
    Took close (ws ++ ws') (ops ++ ops') (stmts ++ stmts') s s'' :=
  ⟨h.spends.trans h'.spends, by rw [h'.body, h.body, List.append_assoc]⟩

/-- A step that leaves no trace may come before another one. -/
theorem after (h : Took close ws ops stmts s' s'') (hs : Took close [] [] [] s s') :
    Took close ws ops stmts s s'' :=
  hs.trans h

/-- A step that leaves no trace may come behind another one. -/
theorem andThen (h : Took close ws ops stmts s s') (hs : Took close [] [] [] s' s'') :
    Took close ws ops stmts s s'' := by
  have hall := h.trans hs
  rwa [List.append_nil, List.append_nil, List.append_nil] at hall

/-- A statement may be added to what was read. -/
theorem emit (h : Took close ws ops stmts s s') (stmt : Stmt) :
    Took close ws ops (stmts ++ [stmt]) s (s'.emit stmt) := by
  refine ⟨h.spends, ?_⟩
  show s'.body ++ [stmt] = s.body ++ (stmts ++ [stmt])
  rw [h.body, List.append_assoc]

/-- Tokens that are passed may be looked at all at once. -/
theorem of_tokens {ts : List Token}
    (htokens : s.tokens.map (·.token) = ts ++ s'.tokens.map (·.token))
    (hbody : s'.body = s.body) (hopen : ∀ t ∈ ts, t.kind ≠ close) :
    Took close (ts.filterMap word?) (ts.filterMap operation?) [] s s' :=
  ⟨⟨ts, htokens, rfl, rfl, hopen⟩, by rw [hbody, List.append_nil]⟩

end Took

theorem took_advance (heof : s.current.kind ≠ .eof)
    (hopen : s.current.kind ≠ close) :
    Took close ([s.current].filterMap word?) ([s.current].filterMap operation?)
      [] s s.advance :=
  .of_tokens (tokens_eq_cons heof) s.body_advance (by simpa using hopen)

/-- Whether tokens of a kind leave no trace in the tree: punctuation, and
keywords other than `return`. -/
def isMute : Token.Kind → Bool
  | .mark _ => true
  | .keyword k => k ≠ .returns
  | _ => false

theorem silent_of_isMute {t : Token} (h : isMute t.kind = true) :
    word? t = none ∧ operation? t = none := by
  unfold word? operation? sign? Token.Kind.operator?
  cases hkind : t.kind with
  | keyword k => cases k <;> simp_all [isMute]
  | mark m => exact ⟨rfl, rfl⟩
  | _ => simp [hkind, isMute] at h

theorem ne_eof_of_isMute {kind : Token.Kind} (h : isMute kind = true) :
    kind ≠ .eof := by
  rintro rfl
  cases h

theorem took_mute (hmute : isMute s.current.kind = true)
    (hopen : s.current.kind ≠ close) : Took close [] [] [] s s.advance := by
  obtain ⟨hword, hoperation⟩ := silent_of_isMute hmute
  have h := took_advance (ne_eof_of_isMute hmute) hopen
  rwa [List.filterMap_cons_none hword, List.filterMap_cons_none hoperation] at h

theorem took_word {w : Position × Word} (hword : word? s.current = some w)
    (hopen : s.current.kind ≠ close) : Took close [w] [] [] s s.advance := by
  have heof : s.current.kind ≠ .eof := by
    intro heof
    rw [word?, heof] at hword
    cases hword
  have hoperation : operation? s.current = none := by
    cases hsign : sign? s.current with
    | none => rw [operation?, hsign]; rfl
    | some o =>
      rw [word?_of_sign? hsign] at hword
      cases hword
  have h := took_advance heof hopen
  rwa [List.filterMap_cons_some hword, List.filterMap_cons_none hoperation] at h

theorem took_name (hkind : s.current.kind = .identifier) (hopen : .identifier ≠ close) :
    Took close [(s.current.pos, .name s.current.lexeme)] [] [] s s.advance :=
  took_word (by rw [word?, hkind]) (hkind.trans_ne hopen)

/-! ## Steps that are done -/

theorem bind_eq_done {α β : Type} {p : Parse α} {f : α → Parse β} {b : β}
    (h : (p >>= f) s = .done b s') :
    ∃ a s₁, p s = .done a s₁ ∧ f a s₁ = .done b s' := by
  cases hp : p s with
  | done a s₁ =>
    rw [bind_of_done hp] at h
    exact ⟨a, s₁, rfl, h⟩
  | abandoned s₁ =>
    rw [bind_of_abandoned hp] at h
    cases h

theorem accept_eq_done {kind : Token.Kind} {b : Bool} (h : accept kind s = .done b s') :
    (b = true ∧ s.current.kind = kind ∧ s' = s.advance) ∨ (b = false ∧ s' = s) := by
  unfold accept at h
  split at h
  · next hkind => cases h; exact .inl ⟨rfl, hkind, rfl⟩
  · cases h; exact .inr ⟨rfl, rfl⟩

theorem consume_eq_done {kind : Token.Kind} {what : Expectation}
    (h : consume kind what s = .done () s') :
    s.current.kind = kind ∧ s' = s.advance := by
  obtain ⟨b, s₁, haccept, h⟩ := bind_eq_done h
  rcases accept_eq_done haccept with ⟨rfl, hkind, rfl⟩ | ⟨rfl, -⟩
  · cases h; exact ⟨hkind, rfl⟩
  · cases h

theorem took_accept {kind : Token.Kind} {b : Bool} (h : accept kind s = .done b s')
    (hmute : isMute kind = true) (hopen : kind ≠ close) :
    Took close [] [] [] s s' := by
  rcases accept_eq_done h with ⟨-, hkind, rfl⟩ | ⟨-, rfl⟩
  · exact took_mute (hkind ▸ hmute) (hkind ▸ hopen)
  · exact .refl s'

theorem took_consume {kind : Token.Kind} {what : Expectation}
    (h : consume kind what s = .done () s') (hmute : isMute kind = true)
    (hopen : kind ≠ close) : Took close [] [] [] s s' := by
  obtain ⟨hkind, rfl⟩ := consume_eq_done h
  exact took_mute (hkind ▸ hmute) (hkind ▸ hopen)

theorem identifier_eq_done {what : Expectation} {t : Token}
    (h : identifier what s = .done t s') :
    s.current.kind = .identifier ∧ t = s.current ∧ s' = s.advance := by
  obtain ⟨_, _, ⟨⟩, h⟩ := bind_eq_done h
  split at h
  · next hkind => cases h; exact ⟨hkind, rfl, rfl⟩
  · cases h

theorem took_typeName {type : DataType} (h : typeName s = .done type s')
    (hint : .keyword .int ≠ close) (hstr : .keyword .str ≠ close) :
    Took close [] [] [] s s' := by
  obtain ⟨b, s₁, haccept, h⟩ := bind_eq_done h
  have hfirst := took_accept haccept rfl hint
  cases b with
  | true => cases h; exact hfirst
  | false =>
    obtain ⟨b, s₂, haccept, h⟩ := bind_eq_done h
    cases b with
    | true => cases h; exact (took_accept haccept rfl hstr).after hfirst
    | false => cases h

/-! ## Statements -/

theorem Passes.tokens_eq {part : List Token} (h : Passes part s s') :
    s.tokens.map (·.token) = part ++ s'.tokens.map (·.token) ∧ s'.body = s.body ∧
      ∀ t ∈ part, IsPart t := by
  induction h with
  | nil => exact ⟨rfl, rfl, by simp⟩
  | @cons part s s' hfirst _ ih =>
    obtain ⟨htokens, hbody, hparts⟩ := ih
    refine ⟨?_, hbody.trans s.body_advance, List.forall_mem_cons.mpr ⟨hfirst, hparts⟩⟩
    rw [tokens_eq_cons (ne_eof_of_isPart hfirst), htokens]
    rfl

theorem ne_keyword_of_isPart {t : Token} (h : IsPart t) (k : Keyword) :
    t.kind ≠ .keyword k := by
  intro hkind
  simp [IsPart, leaf?, sign?, hkind, Token.Kind.operator?] at h

theorem Passes.took {part : List Token} (h : Passes part s s') {required : Bool}
    {t : Token} {es : List Expr}
    (hpiece : piece required (stacksOf part) t = .ok es) :
    Took (.keyword .ends) (es.flatMap Expr.words) (es.flatMap Expr.operations)
      [] s s' := by
  obtain ⟨htokens, hbody, hparts⟩ := h.tokens_eq
  obtain ⟨hwords, hoperations⟩ := words_of_piece hparts hpiece
  rw [← hwords, ← hoperations]
  exact .of_tokens htokens hbody fun t ht => ne_keyword_of_isPart (hparts t ht) _

/-- Expressions say what the tokens say that they were read from, those
held at the start included. -/
theorem took_expressionsFrom {d : Delimiters}
    (hd : ∀ k ∈ d.separator, ∃ m, k = .mark m) {exprs : List Expr} {held : Stacks}
    {es : List Expr} (h : expressionsFrom d exprs held s = .done es s') :
    ∀ part s₀, held = stacksOf part → Passes part s₀ s → ∃ more, es = exprs ++ more ∧
      Took (.keyword .ends) (more.flatMap Expr.words) (more.flatMap Expr.operations)
        [] s₀ s' := by
  fun_induction expressionsFrom d exprs held s with
  | case1 exprs held s t _ e hpiece =>
    rintro part s₀ rfl hpasses
    cases h
    exact ⟨e, rfl, hpasses.took hpiece⟩
  | case2 => cases h
  | case3 exprs held s t _ hsep e hpiece ih =>
    rintro part s₀ rfl hpasses
    obtain ⟨more, rfl, hmore⟩ := ih h [] s.advance rfl .nil
    obtain ⟨m, hm⟩ := hd t.kind hsep.symm
    have hcomma : Took (.keyword .ends) [] [] [] s s.advance :=
      took_mute (by rw [hm]; rfl) (by rw [hm]; exact Token.Kind.noConfusion)
    refine ⟨e ++ more, List.append_assoc _ _ _, ?_⟩
    rw [List.flatMap_append, List.flatMap_append]
    exact (hpasses.took hpiece).trans (hmore.after hcomma)
  | case4 => cases h
  | case5 exprs held s t _ _ held' hpush ih =>
    rintro part s₀ rfl hpasses
    obtain ⟨hpart, hheld⟩ := (pushToken?_stacksOf part t held').mp hpush
    exact ih h (part ++ [t]) s₀ hheld (hpasses.snoc hpart)
  | case6 => cases h

theorem took_expressions {d : Delimiters} (hd : ∀ k ∈ d.separator, ∃ m, k = .mark m)
    {es : List Expr} (h : expressions d s = .done es s') :
    Took (.keyword .ends) (es.flatMap Expr.words) (es.flatMap Expr.operations)
      [] s s' := by
  obtain ⟨more, rfl, hmore⟩ := took_expressionsFrom hd h [] s rfl .nil
  exact hmore

theorem took_line {es : List Expr} (h : expressions .line s = .done es s') :
    Took (.keyword .ends) (es.flatMap Expr.words)
      (es.flatMap Expr.operations) [] s s' :=
  took_expressions (by simp [Delimiters.line]) h

theorem took_report (t : Token) (cause : ParseCause) :
    Took close [] [] [] s (s.report t cause) := by
  refine .still (s.tokens_report t cause) ?_
  unfold State.report State.record
  split <;> rfl

theorem took_assignment {name : Token} (h : assignment name s = .done () s') :
    ∃ values, Took (.keyword .ends) (values.flatMap Expr.words)
      (values.flatMap Expr.operations)
      [.assign name.pos name.lexeme values] s s' := by
  obtain ⟨values, s₁, hvalues, h⟩ := bind_eq_done h
  obtain ⟨_, _, ⟨⟩, h⟩ := bind_eq_done h
  have hassign := (took_line hvalues).emit (.assign name.pos name.lexeme values)
  refine ⟨values, ?_⟩
  split at h
  · cases h
    exact hassign.andThen (took_report _ _)
  · cases h
    exact hassign

theorem took_call {name : Token} (h : call name s = .done () s') :
    ∃ args, Took (.keyword .ends) (args.flatMap Expr.words)
      (args.flatMap Expr.operations) [.call name.pos name.lexeme args] s s' := by
  obtain ⟨args, s₁, hargs, h⟩ := bind_eq_done h
  obtain ⟨_, s₂, hparen, h⟩ := bind_eq_done h
  obtain ⟨_, s₃, hsemicolon, h⟩ := bind_eq_done h
  cases h
  have hread := took_expressions (by simp [Delimiters.arguments]) hargs
  have hclosed :=
    (hread.andThen (took_consume hparen rfl Token.Kind.noConfusion)).andThen
    (took_consume hsemicolon rfl Token.Kind.noConfusion)
  exact ⟨args, hclosed.emit _⟩

/-- Whether the statements added from `s` to `s'` say what the tokens
say that are taken away. -/
def Records (s s' : State) : Prop :=
  ∃ stmts, Took (.keyword .ends) (wordsAfter none stmts) (operationsOf stmts) stmts s s'

theorem Records.of_took {stmts : List Stmt} {ws : List (Position × Word)}
    {ops : List (Position × OpCode)} (h : Took (.keyword .ends) ws ops stmts s s')
    (hwords : wordsAfter none stmts = ws) (hoperations : operationsOf stmts = ops) :
    Records s s' :=
  ⟨stmts, hwords ▸ hoperations ▸ h⟩

theorem records_declaration (h : declaration s = .done () s')
    (hkind : s.current.kind = .identifier) : Records s s' := by
  obtain ⟨_, _, ⟨⟩, h⟩ := bind_eq_done h
  obtain ⟨_, _, ⟨⟩, h⟩ := bind_eq_done h
  obtain ⟨_, s₁, hcolon, h⟩ := bind_eq_done h
  obtain ⟨type, s₂, htype, h⟩ := bind_eq_done h
  obtain ⟨_, s₃, hemit, h⟩ := bind_eq_done h
  obtain ⟨_, _, ⟨⟩, h⟩ := bind_eq_done h
  have hname : Took (.keyword .ends) [(s.current.pos, .name s.current.lexeme)] []
      [] s s.advance :=
    took_name hkind Token.Kind.noConfusion
  have htyped :=
    (hname.andThen (took_consume hcolon rfl Token.Kind.noConfusion)).andThen
    (took_typeName htype (by decide) (by decide))
  have hdecl : Took (.keyword .ends) [(s.current.pos, .name s.current.lexeme)] []
      [.decl s.current.pos s.current.lexeme (some type)] s s₃ := by
    cases hemit
    exact htyped.emit _
  have hplain : Records s s₃ := .of_took hdecl rfl rfl
  have hinitial : (accept (.mark .assign) >>= fun _ => assignment s.current) s₃ =
      .done () s' → Records s s' := by
    intro h
    obtain ⟨b, s₄, hassign, h⟩ := bind_eq_done h
    obtain ⟨values, hvalues⟩ := took_assignment h
    have hall :=
      (hdecl.andThen (took_accept hassign rfl Token.Kind.noConfusion)).trans hvalues
    refine .of_took hall ?_ ?_
    · simp [wordsAfter]
    · simp [operationsOf, Stmt.exprs]
  -- A line end, a keyword or the end of the text leaves it at that; all
  -- else starts an initial value.
  cases hnext : s₃.current.kind with
  | eof => simp only [hnext] at h; cases h; exact hplain
  | keyword k => simp only [hnext] at h; cases h; exact hplain
  | mark m =>
    cases m with
    | semicolon =>
      simp only [hnext] at h
      cases h
      exact .of_took (hdecl.andThen
        (took_mute (hnext ▸ rfl) (hnext ▸ Token.Kind.noConfusion))) rfl rfl
    | newline => simp only [hnext] at h; cases h; exact hplain
    | _ => simp only [hnext] at h; exact hinitial h
  | _ => simp only [hnext] at h; exact hinitial h

theorem records_namedStatement (h : namedStatement s = .done () s')
    (hkind : s.current.kind = .identifier) : Records s s' := by
  obtain ⟨_, _, ⟨⟩, h⟩ := bind_eq_done h
  obtain ⟨_, _, ⟨⟩, h⟩ := bind_eq_done h
  obtain ⟨b, s₁, hassign, h⟩ := bind_eq_done h
  have hname : Took (.keyword .ends) [(s.current.pos, .name s.current.lexeme)] []
      [] s s.advance :=
    took_name hkind Token.Kind.noConfusion
  have hfirst := hname.andThen (took_accept hassign rfl Token.Kind.noConfusion)
  cases b with
  | true =>
    obtain ⟨values, hvalues⟩ := took_assignment h
    refine .of_took (hfirst.trans hvalues) ?_ ?_
    · simp [wordsAfter]
    · simp [operationsOf, Stmt.exprs]
  | false =>
    obtain ⟨b, s₂, hparen, h⟩ := bind_eq_done h
    have hsecond := hfirst.andThen (took_accept hparen rfl Token.Kind.noConfusion)
    cases b with
    | true =>
      obtain ⟨args, hargs⟩ := took_call h
      refine .of_took (hsecond.trans hargs) ?_ ?_
      · simp [wordsAfter]
      · simp [operationsOf, Stmt.exprs]
    | false => cases h

theorem records_returnStatement (h : returnStatement s = .done () s')
    (hkind : s.current.kind = .keyword .returns) : Records s s' := by
  obtain ⟨_, _, ⟨⟩, h⟩ := bind_eq_done h
  obtain ⟨_, _, ⟨⟩, h⟩ := bind_eq_done h
  obtain ⟨values, s₁, hvalues, h⟩ := bind_eq_done h
  cases h
  have hreturn : Took (.keyword .ends) [(s.current.pos, .returns)] [] [] s s.advance :=
    took_word (by rw [word?, hkind]) (by rw [hkind]; decide)
  refine .of_took ((hreturn.trans (took_line hvalues)).emit _) ?_ ?_
  · simp [wordsAfter]
  · simp [operationsOf, Stmt.exprs]

/-! ## Bodies -/

theorem pos_of_word? {t : Token} {w : Position × Word} (h : word? t = some w) :
    w.1 = t.pos := by
  unfold word? at h
  split at h <;> cases h <;> rfl

/-- Words that are taken one after the other stand in different places. -/
theorem Spends.apart (hs : Placed s) (h : Spends close ws ops s s')
    (h' : Spends close ws' ops' s' s'') : ∀ w ∈ ws, ∀ w' ∈ ws', w.1 ≠ w'.1 := by
  obtain ⟨ts, htokens, rfl, -, -⟩ := h
  obtain ⟨ts', htokens', rfl, -, -⟩ := h'
  have hord : Ordered (s.tokens.map (·.token)) := List.pairwise_map.mpr hs.increasing
  rw [htokens, htokens'] at hord
  intro w hw w' hw' heq
  obtain ⟨t, ht, hword⟩ := List.mem_filterMap.mp hw
  obtain ⟨t', ht', hword'⟩ := List.mem_filterMap.mp hw'
  have hlt := (List.pairwise_append.mp hord).2.2 t ht t' (List.mem_append_left _ ht')
  rw [← pos_of_word? hword, ← pos_of_word? hword', heq] at hlt
  exact Int.lt_irrefl _ hlt

theorem Records.refl (s : State) : Records s s := ⟨[], .refl s⟩

theorem Records.trans (hs : Placed s) (h : Records s s') (h' : Records s' s'') :
    Records s s'' := by
  obtain ⟨stmts, h⟩ := h
  obtain ⟨stmts', h'⟩ := h'
  refine .of_took (h.trans h') ?_ (operationsOf_append stmts stmts')
  exact wordsAfter_append (by simp) (Spends.apart hs h.spends h'.spends)

/-- The end of a line says nothing. -/
theorem records_endsLine (h : endsLine s.current.kind = true) :
    Records s s.advance := by
  refine ⟨[], took_mute ?_ ?_⟩
  · cases hkind : s.current.kind <;> simp_all [endsLine, isMute]
  · cases hkind : s.current.kind <;> simp_all [endsLine]

/-- A statement comes first and the rest of the body behind it. -/
theorem records_statement {p : Parse Unit} (hs : Alert s) (hp : (p s).ReachedFrom s)
    (hrecords : ∀ s₁, p s = .done () s₁ → Records s s₁)
    (hreaches : Reaches (statement p s) s') (hquiet : s'.errors = [])
    (hrest : Alert (statement p s) → Records (statement p s) s') : Records s s' :=
  .trans hs.toPlaced (hrecords _ (done_of_statement hs hp hreaches hquiet))
    (hrest ((reaches_statement hp).alert hs))

theorem records_declarations {fn : String} (hs : Alert s)
    (h : declarations fn s = .done () s') (hquiet : s'.errors = []) :
    Records s s' := by
  fun_induction Parser.declarations fn s with
  | case1 => cases h; exact .refl _
  | case2 s t _ hline ih =>
    have hreaches : Reaches s s.advance := .fetch fun heof => by
      simp [t, heof, endsLine] at hline
    exact .trans hs.toPlaced (records_endsLine hline) (ih (hreaches.alert hs) h)
  | case3 s t _ _ hname ih =>
    have heof : s.current.kind ≠ .eof := fun heof => by simp [t, heof] at hname
    exact records_statement hs (reachedFrom_declaration heof) (fun _ hdone =>
      records_declaration hdone hname)
      ((leads_declarations fn _).reaches h) hquiet fun hs' => ih hs' h
  | case4 => cases h
  -- A token that starts no declaration would be lost here, but not without an error.
  | case5 s t _ _ _ hlimit ih =>
    have hreaches := (leads_declarations fn _).reaches h
    exact absurd hquiet (errors_of_skipped hs (fun heof => hlimit (.inl heof)) hreaches)

theorem records_statements {fn : String} (hs : Alert s)
    (h : statements fn s = .done () s') (hquiet : s'.errors = []) :
    Records s s' := by
  fun_induction Parser.statements fn s with
  | case1 => cases h; exact .refl _
  | case2 s t _ hline ih =>
    have hreaches : Reaches s s.advance := .fetch fun heof => by
      simp [t, heof, endsLine] at hline
    exact .trans hs.toPlaced (records_endsLine hline) (ih (hreaches.alert hs) h)
  | case3 s t _ _ hname ih =>
    have heof : s.current.kind ≠ .eof := fun heof => by simp [t, heof] at hname
    exact records_statement hs (reachedFrom_namedStatement heof) (fun _ hdone =>
      records_namedStatement hdone hname)
      ((leads_statements fn _).reaches h) hquiet fun hs' => ih hs' h
  | case4 s t _ _ _ hret ih =>
    have heof : s.current.kind ≠ .eof := fun heof => by simp [t, heof] at hret
    exact records_statement hs (reachedFrom_returnStatement heof) (fun _ hdone =>
      records_returnStatement hdone hret)
      ((leads_statements fn _).reaches h) hquiet fun hs' => ih hs' h
  | case5 => cases h
  | case6 s t _ _ _ _ hlimit ih =>
    have hreaches := (leads_statements fn _).reaches h
    exact absurd hquiet (errors_of_skipped hs (fun heof => hlimit (.inl heof)) hreaches)

/-- The declarations of a function, `begin`, and its statements. -/
theorem records_body {fn : String} (hs : Alert s)
    (hdecls : declarations fn s = .done () s')
    (hstmts : statements fn s'.advance = .done () s'') (hquiet : s''.errors = []) :
    Records s s'' := by
  have hkind := InStep.current_of_declarations hdecls
  have hreaches := (leads_declarations fn s).reaches hdecls
  have hbegin : Reaches s' s'.advance := .fetch (by rw [hkind]; decide)
  have hrest : Reaches s' s'' := hbegin.trans ((leads_statements fn _).reaches hstmts)
  have hs' := hreaches.alert hs
  have hmute : Records s' s'.advance :=
    ⟨[], took_mute (hkind ▸ rfl) (by rw [hkind]; decide)⟩
  refine .trans hs.toPlaced (records_declarations hs hdecls (hrest.noErrors hquiet)) ?_
  exact .trans hs'.toPlaced hmute (records_statements (hbegin.alert hs') hstmts hquiet)

/-! ## Declarations -/

/-- Whether the first declaration of the text in front of `s` goes up to `s'`,
and `g` says what it says. -/
def Declares (s s' : State) (g : Global) : Prop :=
  ∃ ts, declared (s.tokens.map (·.token)) =
    ts :: declared (s'.tokens.map (·.token)) ∧ Accounts ts g

/-- What stands between the keyword of a declaration and its end is its
name and all that it holds. -/
theorem declares_of_spends {g : Global} {p : Position}
    (hfirst : s.current.kind = .keyword g.keyword) (hpos : s.current.pos = g.pos)
    (hclose : closing? (.keyword g.keyword) = some close)
    (hinner : Spends close ((p, .name g.name) :: g.words) (operationsOf g.body)
      s.advance s')
    (hlast : s'.current.kind = close) : Declares s s'.advance g := by
  obtain ⟨inner, htokens, hwords, hoperations, hopen⟩ := hinner
  have hmute : isMute s.current.kind = true := by
    rw [hfirst]
    cases g <;> rfl
  have hmute' : isMute s'.current.kind = true := by
    rw [hlast]
    cases g <;> cases hclose <;> rfl
  have hall : s.tokens.map (·.token) =
      s.current :: (inner ++ s'.current :: s'.advance.tokens.map (·.token)) := by
    rw [tokens_eq_cons (ne_eof_of_isMute hmute), htokens,
      tokens_eq_cons (ne_eof_of_isMute hmute')]
  refine ⟨s.current :: (inner ++ [s'.current]), ?_, ?_⟩
  · rw [hall]
    exact declared_cons_closed (by rw [hfirst, hclose, hlast]) (by rwa [hlast])
  · obtain ⟨hword, hoperation⟩ := silent_of_isMute hmute
    obtain ⟨hword', hoperation'⟩ := silent_of_isMute hmute'
    constructor
    · exact ⟨s.current, rfl, hfirst, hpos⟩
    · rw [← List.cons_append, List.getLast?_concat, Option.map_some, hlast, hclose]
    · exact ⟨p, by simp [hword, hword', hwords]⟩
    · simp [hoperation, hoperation', hoperations]

theorem took_parameter {v : Variable} (h : parameter s = .done v s') :
    Took (.mark .rightParen) [(v.pos, .name v.name)] [] [] s s' := by
  obtain ⟨name, s₁, hname, h⟩ := bind_eq_done h
  obtain ⟨_, s₂, hcolon, h⟩ := bind_eq_done h
  obtain ⟨type, s₃, htype, h⟩ := bind_eq_done h
  cases h
  obtain ⟨hkind, rfl, rfl⟩ := identifier_eq_done hname
  have hfirst : Took (.mark .rightParen) [(s.current.pos, .name s.current.lexeme)]
      [] [] s s.advance :=
    took_name hkind Token.Kind.noConfusion
  exact (hfirst.andThen (took_consume hcolon rfl (by decide))).andThen
    (took_typeName htype (by decide) (by decide))

/-- Parameters are read up to the parenthesis that closes their list. -/
theorem spends_parameters {params vs : List Variable}
    (h : parameters params s = .done vs s') :
    ∃ more s₁, vs = params ++ more ∧ s' = s₁.advance ∧
      s₁.current.kind = .mark .rightParen ∧
      Spends (.mark .rightParen) (more.map fun v => (v.pos, .name v.name)) [] s s₁ := by
  fun_induction Parser.parameters params s with
  | case1 => cases h
  | case2 params s v s₁ hparam hcomma ih =>
    obtain ⟨more, s₂, rfl, hend, hparen, hmore⟩ := ih h
    refine ⟨v :: more, s₂, List.append_assoc _ _ _, hend, hparen, ?_⟩
    have hfirst :=
      (took_parameter hparam).andThen
        (took_mute (hcomma ▸ rfl) (by rw [hcomma]; decide))
    exact hfirst.spends.trans hmore
  | case3 params s v s₁ hparam _ =>
    obtain ⟨_, s₂, hconsume, h⟩ := bind_eq_done h
    cases h
    obtain ⟨hparen, rfl⟩ := consume_eq_done hconsume
    exact ⟨[v], s₁, rfl, rfl, hparen, (took_parameter hparam).spends⟩

theorem declares_function (hs : Alert s) (hkind : s.current.kind = .keyword .func)
    {g : Global} (h : function s = .done g s') (hquiet : s'.errors = []) :
    Declares s s' g := by
  obtain ⟨_, _, ⟨⟩, h⟩ := bind_eq_done h
  obtain ⟨_, _, ⟨⟩, h⟩ := bind_eq_done h
  obtain ⟨name, s₁, hname, h⟩ := bind_eq_done h
  obtain ⟨_, _, ⟨⟩, h⟩ := bind_eq_done h
  obtain ⟨_, s₃, hdecls, h⟩ := bind_eq_done h
  obtain ⟨_, _, ⟨⟩, h⟩ := bind_eq_done h
  obtain ⟨_, s₄, hstmts, h⟩ := bind_eq_done h
  obtain ⟨_, _, ⟨⟩, h⟩ := bind_eq_done h
  obtain ⟨_, _, ⟨⟩, h⟩ := bind_eq_done h
  cases h
  obtain ⟨hident, rfl, rfl⟩ := identifier_eq_done hname
  have hreaches : Reaches s { s.advance.advance with body := [] } :=
    ((Reaches.fetch (by rw [hkind]; decide)).trans
      (Reaches.fetch (by rw [hident]; decide))).tail .clear
  have hend := InStep.current_of_statements hstmts
  have hlast : Reaches s₄ s₄.advance := .fetch (by rw [hend]; decide)
  obtain ⟨stmts, hstmts⟩ :=
    records_body (hreaches.alert hs) hdecls hstmts (hlast.noErrors hquiet)
  have hbody : s₄.advance.body = stmts := by
    rw [State.body_advance, hstmts.body]
    rfl
  have hname : Took (.keyword .ends)
      [(s.advance.current.pos, .name s.advance.current.lexeme)] [] [] s.advance
      s.advance.advance := took_name hident Token.Kind.noConfusion
  -- Clearing the statements of the function before takes no token away.
  have hspends : Spends (.keyword .ends) (wordsAfter none stmts)
      (operationsOf stmts) s.advance.advance s₄ :=
    hstmts.spends
  rw [hbody]
  exact declares_of_spends hkind rfl rfl (hname.spends.trans hspends) hend

theorem declares_externalFunction (hkind : s.current.kind = .keyword .external)
    {g : Global} (h : externalFunction s = .done g s') : Declares s s' g := by
  obtain ⟨_, _, ⟨⟩, h⟩ := bind_eq_done h
  obtain ⟨_, _, ⟨⟩, h⟩ := bind_eq_done h
  obtain ⟨_, s₁, hfunc, h⟩ := bind_eq_done h
  obtain ⟨name, s₂, hname, h⟩ := bind_eq_done h
  obtain ⟨_, s₃, hparen, h⟩ := bind_eq_done h
  obtain ⟨b, s₄, haccept, hrest⟩ := bind_eq_done h
  obtain ⟨hident, rfl, rfl⟩ := identifier_eq_done hname
  have hfirst : Took (.mark .rightParen) [(s₁.current.pos, .name s₁.current.lexeme)]
      [] [] s₁ s₁.advance :=
    took_name hident Token.Kind.noConfusion
  have hhead :=
    (hfirst.after (took_consume hfunc rfl (by decide))).andThen
      (took_consume hparen rfl (by decide))
  rcases accept_eq_done haccept with ⟨rfl, hclosed, rfl⟩ | ⟨rfl, rfl⟩
  · cases hrest
    exact declares_of_spends hkind rfl rfl hhead.spends hclosed
  · obtain ⟨params, s₅, hparams, hpure⟩ := bind_eq_done hrest
    cases hpure
    obtain ⟨more, s₆, rfl, rfl, hclosed, hmore⟩ := spends_parameters hparams
    have hall := hhead.spends.trans hmore
    rw [← List.append_nil (List.map _ _)] at hall
    exact declares_of_spends hkind rfl rfl hall hclosed

/-- A declaration comes first and the rest of the text behind it. -/
theorem accounts_global {p : Parse Global} (hs : Alert s) (hp : (p s).ReachedFrom s)
    (hdeclares : ∀ g s₁, p s = .done g s₁ → s₁.errors = [] → Declares s s₁ g)
    (hquiet : (globals (global p s).2).2.errors = [])
    (hrest : Alert (global p s).2 →
      List.Forall₂ Accounts (declared ((global p s).2.tokens.map (·.token)))
      (globals (global p s).2).1) :
    List.Forall₂ Accounts (declared (s.tokens.map (·.token)))
      ((global p s).1.toList ++ (globals (global p s).2).1) := by
  have hreaches := (reaches_globals (global p s).2).1
  obtain ⟨g, s₁, hdone, hglobal⟩ := done_of_global hs hp hreaches hquiet
  have hs' := (reaches_global hp).alert hs
  rw [hglobal] at hreaches hquiet hrest hs' ⊢
  obtain ⟨ts, hts, haccounts⟩ := hdeclares g s₁ hdone (hreaches.noErrors hquiet)
  rw [hts]
  exact .cons haccounts (hrest hs')

theorem accounts_globals (hs : Alert s) (hquiet : (globals s).2.errors = []) :
    List.Forall₂ Accounts (declared (s.tokens.map (·.token))) (globals s).1 := by
  fun_induction globals s with
  | case1 s heof =>
    rw [State.tokens_eq_nil heof hs.proper, List.map_nil, declared]
    exact .nil
  | case2 s heof hfunc r rest ih =>
    exact accounts_global hs (reachedFrom_function heof)
      (fun _ _ => declares_function hs hfunc) hquiet fun hs' => ih hs' hquiet
  | case3 s heof _ hexternal r rest ih =>
    exact accounts_global hs (reachedFrom_externalFunction heof)
      (fun _ _ hdone _ => declares_externalFunction hexternal hdone) hquiet
        fun hs' => ih hs' hquiet
  | case4 s heof hfunc hexternal ih =>
    have hnone : closing? s.current.kind = none := by
      unfold closing?
      split <;> simp_all
    rw [tokens_eq_cons heof, declared_cons_of_none hnone]
    exact ih ((Reaches.fetch heof).alert hs) hquiet

end

/-- If no error is found in a text, then its tree has a declaration for each
piece of the text that is one, in the same order. What such a declaration holds,
name for name, leaf for leaf and operation for operation, is what the tokens of
its piece say, and each part of it stands where its token does. The operands and
operators of one expression stand next to each other. -/
theorem tree_accounts_for_tokens (source : List UInt8) (filename : String)
    (h : (parse (Lexer.ofBytes source filename)).errors = []) :
    let l := Lexer.ofBytes source filename
    let tokens := l.drain.tokens.map (·.token)
    List.Forall₂ Accounts (declared tokens) (parse l).tree.globals ∧
      ∀ e ∈ (parse l).tree.exprs, Drawn tokens e := by
  intro l tokens
  have hplaced := placed_start source filename
  have halert := alert_start hplaced fun _ => Lexical.ne_eof_of_mem_drain
  exact ⟨accounts_globals halert h, fun _ => drawn_of_mem_parse⟩

/-- Words outside of declarations, an initial value, a second assignment to the
same name, and operands and operators that do not take turns. -/
theorem tree_accounts_for_tokens_scattered :
    let l :=
      Lexer.ofBytes (Rune.utf8
        ("extern func p(s: str, n: int) stray\nfunc f\nx: int = 1 + 2 - 3; y: str\n" ++
      "begin\nx = x 4 *\np(\"a\\n\", x);\nreturn\nend\nlost + 1\n")) "f.ok"
    let tokens := l.drain.tokens.map (·.token)
    (parse l).errors = [] ∧ (parse l).tree.globals.length = 2 ∧
      List.Forall₂ Accounts (declared tokens) (parse l).tree.globals ∧
      ∀ e ∈ (parse l).tree.exprs, Drawn tokens e := by
  intro l tokens
  have h : (parse l).errors = [] := by decide +kernel
  exact ⟨h, by decide +kernel, tree_accounts_for_tokens _ _ h⟩

end Straightline.Parser
