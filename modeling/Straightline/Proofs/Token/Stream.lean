import Mathlib
import Straightline.Proofs.Token.Munch

/-!
# A lexer is a stream with a stack in front

What a lexer still has to hand out is an endless stream
(`Lexer.stream`): its pending tokens, the latest first, then the tokens
of its text, then the end of the file again and again. Reading takes the
head of the stream and handing a token back puts it in front, in
whatever order this happens (`use_eq_useStream`).

The lexer uses its stack for itself too: a mark that ends a word is read with
the word and kept there. That does not show in the stream, so such a mark
comes out in its place in the text, behind whatever the user handed back and
did not read again (`Account`).
-/

namespace Straightline.Lexer

open Lexical (inFront Splits)

/-! ## Streams -/

/-- A token without an error. -/
def plain (t : Token) : Scanned := { token := t }

/-- What a lexer scans from its text, whatever is pending. -/
def scans (l : Lexer) : Stream' Scanned :=
  (inFront l.pos l.rest).drain.tokens ++ₛ Stream'.const
    (plain (inFront l.pos l.rest).drain.eof)

/-- What a lexer still has to hand out. -/
def stream (l : Lexer) : Stream' Scanned := l.pending.map plain ++ₛ l.scans

theorem stream_pushBack (l : Lexer) (t : Token) :
    (l.pushBack t).stream = Stream'.cons (plain t) l.stream :=
  rfl

/-- The tokens scanned are those that the text splits into. -/
theorem scans_of_splits {l : Lexer} {ts : List Scanned} {q : Position}
    (h : Splits l.pos l.rest ts q) :
    l.scans = ts ++ₛ Stream'.const (plain { kind := .eof, pos := q }) := by
  rw [scans, h.drain_eq]

/-- Where no end of file is pending, a lexer hands out its stream up
to the end of its text. -/
theorem stream_eq_drain {l : Lexer} (h : ∀ t ∈ l.pending, t.kind ≠ .eof) :
    l.stream = l.drain.tokens ++ₛ Stream'.const (plain l.drain.eof) := by
  obtain ⟨rest, pos, pending⟩ := l
  induction pending with
  | nil => rfl
  | cons t ts ih =>
    obtain ⟨ht, hts⟩ := List.forall_mem_cons.mp h
    have hnext : next { rest, pos, pending := t :: ts } =
      (plain t, { rest, pos, pending := ts }) := rfl
    rw [Lexical.drain_of_next hnext ht]
    exact congrArg (Stream'.cons (plain t)) (ih hts)

/-! ## Reading -/

/-- Scanning keeps nothing pending but the mark behind a word. -/
theorem ne_eof_of_mem_pending (i : Input) :
    ∀ t ∈ (scanAt i).2.pending, t.kind ≠ .eof := by
  obtain ⟨_ | ⟨r, rs⟩, pos⟩ := i
  · simp [scanAt]
  · simp only [scanAt]
    split
    · split <;> simp
    · split
      · simp
      · split
        · split
          · next kind hkind =>
              simpa [markToken] using Lexical.kind_ne_eof_of_punctuation? hkind
          · simp
        · simp

theorem kind_scanAt_ne_eof (r : Rune) (rs : List Rune) (pos : Position) :
    (scanAt (r :: rs, pos)).1.token.kind ≠ .eof := by
  have hword (chars : List Char) : (classify chars pos).token.kind ≠ .eof :=
    (Lexical.names_iff.mpr rfl : Lexical.Names chars pos _).kind_ne_eof
  simp only [scanAt]
  split
  · split <;> exact Token.Kind.noConfusion
  · split
    · next kind hkind => exact Lexical.kind_ne_eof_of_punctuation? hkind
    · split
      · split <;> exact hword _
      · exact hword _

/-- Only at the end of a text does scanning give the end of file. -/
theorem scanAt_of_eof {i : Input} (h : (scanAt i).1.token.kind = .eof) :
    scanAt i = (plain { kind := .eof, pos := i.2 }, inFront i.2 []) := by
  obtain ⟨_ | ⟨r, rs⟩, pos⟩ := i
  · rfl
  · exact absurd h (kind_scanAt_ne_eof r rs pos)

theorem stream_inFront_nil (p : Position) :
    (inFront p []).stream = Stream'.const (plain { kind := .eof, pos := p }) :=
  scans_of_splits (l := inFront p []) .done

/-- Reading takes the head of the stream. -/
theorem next_eq_stream (l : Lexer) :
    l.next.1 = l.stream.head ∧ l.next.2.stream = l.stream.tail := by
  obtain ⟨rest, pos, pending⟩ := l
  cases pending with
  | cons t ts => exact ⟨rfl, rfl⟩
  | nil =>
    have hstream : stream { rest, pos } = scans { rest, pos } := rfl
    rcases hnext : next { rest, pos } with ⟨s, l'⟩
    have hscan : scanAt (skip (rest, pos)) = (s, l') := hnext
    by_cases heof : s.token.kind = .eof
    · rw [scanAt_of_eof (by rw [hscan]; exact heof)] at hscan
      cases hscan
      rw [hstream, scans, Lexical.drain_of_eof hnext heof, stream_inFront_nil]
      exact ⟨rfl, rfl⟩
    · -- What is scanned may leave a mark pending, which is the next token of the text.
      have hpending := ne_eof_of_mem_pending (skip (rest, pos))
      rw [hscan] at hpending
      rw [stream_eq_drain hpending, hstream, scans, Lexical.drain_of_next hnext heof]
      exact ⟨rfl, rfl⟩

/-! ## Reading and handing back in any order -/

/-- What the user of a lexer can do. -/
inductive Action where
  | read
  | push (t : Token)
deriving DecidableEq, Repr

/-- The tokens read while actions are taken one after the other,
and what is left then. -/
def perform {σ : Type} (read : σ → Scanned × σ) (push : σ → Token → σ) :
    List Action → σ → List Scanned × σ
  | [], s => ([], s)
  | .read :: rest, s =>
    let r := perform read push rest (read s).2
    ((read s).1 :: r.1, r.2)
  | .push t :: rest, s => perform read push rest (push s t)

/-- Uses a lexer. -/
def use (l : Lexer) (actions : List Action) : List Scanned × Lexer :=
  perform next pushBack actions l

/-- Uses a stream: reading takes its head off, handing back puts a token in front. -/
def useStream (s : Stream' Scanned) (actions : List Action) :
    List Scanned × Stream' Scanned :=
  perform (fun s => (s.head, s.tail)) (fun s t => Stream'.cons (plain t) s) actions s

/-- What a use comes to: the tokens that were handed back and not read again,
the latest first, and the number of other tokens that were read. -/
structure Account where
  held : List Token := []
  taken : Nat := 0
deriving DecidableEq, Repr

/-- Takes one more action into account. A token that was handed back
is read before any other. -/
def Account.add (a : Account) : Action → Account
  | .push t => { a with held := t :: a.held }
  | .read =>
    match a.held with
    | [] => { a with taken := a.taken + 1 }
    | _ :: ts => { a with held := ts }

/-- The stream that an account leaves of `s`. -/
def Account.rest (a : Account) (s : Stream' Scanned) : Stream' Scanned :=
  a.held.map plain ++ₛ s.drop a.taken

theorem useStream_rest (s : Stream' Scanned) (a : Account) (actions : List Action) :
    (useStream (a.rest s) actions).2 = (actions.foldl Account.add a).rest s := by
  induction actions generalizing a with
  | nil => rfl
  | cons action actions ih =>
    cases action with
    | push t => exact ih (a.add (.push t))
    | read =>
      have htail : (a.rest s).tail = (a.add .read).rest s := by
        obtain ⟨_ | ⟨t, ts⟩, n⟩ := a
        · simp [Account.rest, Account.add]
        · rfl
      show (useStream (a.rest s).tail actions).2 = _
      rw [htail, ih, List.foldl_cons]

/-- Each step of a lexer is a step of its stream, so a run is a run. -/
theorem use_stream (l : Lexer) (actions : List Action) :
    (l.use actions).1 = (useStream l.stream actions).1 ∧
      (l.use actions).2.stream = (useStream l.stream actions).2 := by
  induction actions generalizing l with
  | nil => exact ⟨rfl, rfl⟩
  | cons action actions ih =>
    cases action with
    | push t =>
      have hrun := ih (l.pushBack t)
      rw [stream_pushBack] at hrun
      exact hrun
    | read =>
      obtain ⟨hhead, htail⟩ := next_eq_stream l
      obtain ⟨htokens, hleft⟩ := ih l.next.2
      rw [htail] at htokens hleft
      exact ⟨congrArg₂ List.cons hhead htokens, hleft⟩

/-- However reading and handing back alternate, a lexer gives what its stream
gives and leaves what its stream leaves: first what was handed back and not read
again, then what its own stream has left, in order. -/
theorem use_eq_useStream (l : Lexer) (actions : List Action) :
    (∃ ts q, Splits l.pos l.rest ts q ∧
      l.stream = l.pending.map plain ++ₛ
        (ts ++ₛ Stream'.const (plain { kind := .eof, pos := q }))) ∧
    (l.use actions).1 = (useStream l.stream actions).1 ∧
    (l.use actions).2.stream = (useStream l.stream actions).2 ∧
    (l.use actions).2.stream = (actions.foldl Account.add {}).rest l.stream := by
  obtain ⟨ts, q, hsplits⟩ := Lexical.exists_splits l.pos l.rest
  obtain ⟨htokens, hleft⟩ := use_stream l actions
  refine ⟨⟨ts, q, hsplits, ?_⟩, htokens, hleft,
    hleft.trans (useStream_rest l.stream {} actions)⟩
  rw [stream, scans_of_splits hsplits]

end Straightline.Lexer
