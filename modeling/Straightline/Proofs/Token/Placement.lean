import Mathlib
import Straightline.Proofs.Token.Munch

/-!
# Tokens stand where their positions say

The lexer moves a position along rune by rune. What line, column and offset come
to can be read off the bytes of the source (`placeOf`): the line counts the
newline bytes in front, the column counts the runes behind the last one of them.
Bytes are cut at places between runes only, and there a piece of the source is
read as it is read within the whole (`decode_of_append`), so moving along and
looking back agree (`advanceAll_start`).

Every token stands at such a place (`Splits.places`), which gives its position
exactly (`token_positions_exact`).
-/

namespace Straightline

/-! ## Cutting bytes between runes -/

namespace Rune

@[simp] theorem encode_nil : encode [] = [] := rfl

@[simp] theorem encode_cons (r : Rune) (rs : List Rune) :
    encode (r :: rs) = r.bytes ++ encode rs :=
  List.flatMap_cons

@[simp] theorem encode_append (rs rs' : List Rune) :
    encode (rs ++ rs') = encode rs ++ encode rs' :=
  List.flatMap_append

theorem length_bytes (r : Rune) : r.bytes.length = r.width := by
  cases r with
  | char c => exact String.length_utf8EncodeChar c
  | stray b => rfl

/-- Reading bytes and writing them again gives the same bytes. -/
theorem Decodes.encode_eq {bs : List UInt8} {rs : List Rune} (h : Decodes bs rs) :
    encode rs = bs := by
  induction h with
  | nil => rfl
  | char _ ih => rw [encode_cons, ih]; rfl
  | stray _ _ ih => rw [encode_cons, ih]; rfl

/-- In front of a cut between runes, bytes are read as they are read within the
whole: a byte that starts no character of the whole starts none of a part. -/
theorem Decodes.front {bs : List UInt8} {rs rs' : List Rune}
    (h : Decodes bs (rs ++ rs')) : Decodes (encode rs) rs := by
  induction rs generalizing bs with
  | nil => exact .nil
  | cons r rs ih =>
    rw [List.cons_append] at h
    cases h with
    | char h => exact .char (ih h)
    | stray hb h =>
      refine .stray ?_ (ih h)
      intro c hc
      refine hb c (hc.trans ?_)
      rw [← h.encode_eq, encode_append]
      exact (List.prefix_cons_inj _).mpr (List.prefix_append _ _)

theorem Decodes.back {bs : List UInt8} {rs rs' : List Rune}
    (h : Decodes bs (rs ++ rs')) : Decodes (encode rs') rs' := by
  induction rs generalizing bs with
  | nil => rwa [← h.encode_eq] at h
  | cons r rs ih =>
    rw [List.cons_append] at h
    cases h with
    | char h => exact ih h
    | stray _ h => exact ih h

/-- A part of the source between runes is read as it is read within the whole. -/
theorem decode_of_append {bs : List UInt8} {front mid back : List Rune}
    (h : decode bs = front ++ mid ++ back) : decode (encode mid) = mid :=
  decode_eq_iff.mpr (decode_eq_iff.mp h).front.back

/-! ## Newlines -/

/-- The byte of a newline. -/
def newline : UInt8 := 10

/-- No byte of a character but the newline is that of a newline. -/
theorem newline_notMem {c : Char} (h : c ≠ '\n') :
    newline ∉ String.utf8EncodeChar c := by
  intro hmem
  obtain ⟨mark, room, more, least, hform, n, hn, ks, hlength, hks, hcode, -,
    hbytes⟩ := exists_form c
  rw [hbytes, List.mem_cons] at hmem
  -- All bytes of the longer forms are above 127.
  have hfirst (hn : n + mark < 256) (h10 : n + mark ≠ 10) :
      newline ≠ UInt8.ofNat (n + mark) := by
    intro heq
    have := congrArg UInt8.toNat heq
    rw [UInt8.toNat_ofNat_of_lt' hn] at this
    exact h10 this.symm
  have hmore : newline ∉ sixBytes ks := by
    intro hk
    obtain ⟨k, hk, heq⟩ := List.mem_map.mp hk
    have := congrArg UInt8.toNat heq
    rw [UInt8.toNat_ofNat_of_lt' (show k + 128 < 256 by have := hks k hk; omega)]
      at this
    have hten : newline.toNat = 10 := rfl
    omega
  refine hmem.elim ?_ hmore
  cases hform with
  | one =>
    obtain rfl := List.length_eq_zero_iff.mp hlength
    refine hfirst (by omega) ?_
    rintro rfl
    exact h (Char.toNat_inj.mp hcode)
  | two => exact hfirst (by omega) (by omega)
  | three => exact hfirst (by omega) (by omega)
  | four => exact hfirst (by omega) (by omega)

/-- The byte of a newline is never read as a stray one. -/
theorem Decodes.stray_notMem {bs : List UInt8} {rs : List Rune}
    (h : Decodes bs rs) : .stray newline ∉ rs := by
  induction h with
  | nil => simp
  | char _ ih => simpa using ih
  | stray hb _ ih =>
    rw [List.mem_cons, not_or]
    refine ⟨?_, ih⟩
    rintro ⟨⟩
    exact hb '\n' ⟨_, rfl⟩

/-- A rune is the newline, or it neither reads as one nor has the byte of one. -/
theorem newline_or {r : Rune} (h : r ≠ .stray newline) :
    r = .char '\n' ∨ (r.toChar ≠ '\n' ∧ newline ∉ r.bytes) := by
  cases r with
  | char c =>
    by_cases hc : c = '\n'
    · exact .inl (congrArg _ hc)
    · exact .inr ⟨hc, newline_notMem hc⟩
  | stray b =>
    have hchar : (stray b).toChar ≠ '\n' := by
      show '\uFFFD' ≠ '\n'
      decide
    refine .inr ⟨hchar, ?_⟩
    intro hb
    exact h (congrArg _ (List.mem_singleton.mp hb).symm)

end Rune

/-! ## Places in a source -/

/-- The place of the offset `n` in a source. -/
def placeOf (filename : String) (source : List UInt8) (n : Nat) : Position where
  filename := filename
  line := 1 + (source.take n).count Rune.newline
  column := 1 + (Rune.decode ((source.take n).rtakeWhile (· ≠ Rune.newline))).length
  offset := n

/-- Behind the last newline rune are the bytes behind the last newline byte. -/
theorem rtakeWhile_encode {rs : List Rune} (h : .stray Rune.newline ∉ rs) :
    (Rune.encode rs).rtakeWhile (· ≠ Rune.newline) =
      Rune.encode (rs.rtakeWhile (·.toChar ≠ '\n')) := by
  induction rs using List.reverseRecOn with
  | nil => rfl
  | append_singleton rs r ih =>
    rw [List.mem_append, not_or, List.mem_singleton] at h
    rw [Rune.encode_append]
    rcases Rune.newline_or (Ne.symm h.2) with rfl | ⟨hchar, hbytes⟩
    · have hlast : Rune.encode [.char '\n'] = [Rune.newline] := rfl
      rw [hlast, List.rtakeWhile_concat_neg _ _ _ (by simp),
        List.rtakeWhile_concat_neg _ _ _ (by decide)]
      rfl
    · have hother : ∀ b ∈ Rune.encode [r], decide (b ≠ Rune.newline) = true := by
        intro b hb
        simp only [Rune.encode_cons, Rune.encode_nil, List.append_nil] at hb
        simpa using ne_of_mem_of_not_mem hb hbytes
      rw [rtakeWhile_append_of_pos hother, ih h.1,
        List.rtakeWhile_concat_pos _ _ _ (by simpa using hchar), Rune.encode_append]

/-- Where the position at the start of a file gets to along `rs`. -/
theorem advanceAll_start_eq (filename : String) {rs : List Rune}
    (h : .stray Rune.newline ∉ rs) :
    (Position.start filename).advanceAll rs = {
      filename
      line := 1 + (Rune.encode rs).count Rune.newline
      column := 1 + (rs.rtakeWhile (·.toChar ≠ '\n')).length
      offset := (Rune.encode rs).length } := by
  induction rs using List.reverseRecOn with
  | nil => rfl
  | append_singleton rs r ih =>
    rw [List.mem_append, not_or, List.mem_singleton] at h
    have hlast : Rune.encode [r] = r.bytes := by simp
    rw [Lexical.advanceAll_append, ih h.1, Rune.encode_append, hlast,
      List.count_append, List.length_append, Rune.length_bytes]
    show Position.advance _ r = _
    rcases Rune.newline_or (Ne.symm h.2) with rfl | ⟨hchar, hbytes⟩
    · rw [List.rtakeWhile_concat_neg _ _ _ (by decide)]
      rfl
    · rw [List.rtakeWhile_concat_pos _ _ _ (by simpa using hchar),
        List.count_eq_zero.mpr hbytes]
      simp only [Position.advance, if_neg hchar, List.length_append,
        List.length_singleton, Nat.add_zero, Nat.cast_add, Nat.cast_one, add_assoc]

/-- The position that the start of a file gets to along the first runes of a
source is the place behind them. -/
theorem advanceAll_start (filename : String) {source : List UInt8}
    {front back : List Rune} (h : Rune.decode source = front ++ back) :
    (Position.start filename).advanceAll front =
      placeOf filename source (Rune.encode front).length := by
  have hdecodes := Rune.decode_eq_iff.mp h
  have hfront : source.take (Rune.encode front).length = Rune.encode front := by
    rw [← hdecodes.encode_eq, Rune.encode_append, List.take_left]
  have hstray : .stray Rune.newline ∉ front := hdecodes.front.stray_notMem
  obtain ⟨lines, hlines⟩ : front.rtakeWhile (·.toChar ≠ '\n') <:+ front :=
    List.rtakeWhile_suffix _ _
  have hline : Rune.decode source =
    lines ++ front.rtakeWhile (·.toChar ≠ '\n') ++ back := by rw [hlines, h]
  rw [advanceAll_start_eq filename hstray, placeOf, hfront,
    rtakeWhile_encode hstray, Rune.decode_of_append hline]

/-! ## Tokens -/

namespace Lexical

/-- Whether a token was read from a string literal, closed or not. -/
def IsTextLiteral (t : Scanned) : Prop :=
  t.token.kind = .text ∨ t.error.map (·.cause) = some .unterminated

instance (t : Scanned) : Decidable (IsTextLiteral t) :=
  inferInstanceAs (Decidable (_ ∨ _))

/-- Whether a token stands at the front of `back`, with its own text there
unless it is a string literal. -/
def StandsAt (t : Scanned) (back : List Rune) : Prop :=
  back ≠ [] ∧ (¬ IsTextLiteral t → t.token.lexeme ≠ "" ∧
    t.token.lexeme.toList <+: back.map Rune.toChar)

theorem Names.lexeme_eq {chars : List Char} {p : Position} {t : Scanned}
    (h : Names chars p t) : t.token.lexeme = String.ofList chars := by
  cases h <;> rfl

/-- A text ends where its last rune leads to, and every token stands where the
runes in front of it lead to. -/
theorem Splits.places {p q : Position} {rs : List Rune} {ts : List Scanned}
    (h : Splits p rs ts q) :
    q = p.advanceAll rs ∧ ∀ t ∈ ts, ∃ front back, rs = front ++ back ∧
      t.token.pos = p.advanceAll front ∧ StandsAt t back := by
  -- What is in front of a text moves its tokens along.
  have behind (run : List Rune) {p : Position} {rs : List Rune} {ts : List Scanned}
      (h : ∀ t ∈ ts, ∃ front back, rs = front ++ back ∧
        t.token.pos = (p.advanceAll run).advanceAll front ∧ StandsAt t back) :
      ∀ t ∈ ts, ∃ front back, run ++ rs = front ++ back ∧
          t.token.pos = p.advanceAll front ∧ StandsAt t back := by
    intro t ht
    obtain ⟨front, back, rfl, hpos, hstands⟩ := h t ht
    exact ⟨run ++ front, back, by rw [List.append_assoc], by rw [hpos,
      advanceAll_append], hstands⟩
  -- A token at the very front stands there.
  have first {p : Position} {t : Scanned} {rs : List Rune} (hpos : t.token.pos = p)
      (h : StandsAt t rs) :
      ∃ front back, rs = front ++ back ∧ t.token.pos = p.advanceAll front ∧
      StandsAt t back :=
    ⟨[], rs, rfl, hpos, h⟩
  induction h with
  | done => exact ⟨rfl, by simp⟩
  | @blank p _ r rs ts _ _ ih => exact ⟨ih.1, behind [r] ih.2⟩
  | @comment p _ r text rest ts _ _ _ _ ih =>
    refine ⟨ih.1.trans ?_, behind (r :: text) ih.2⟩
    rw [advanceAll_append]
  | @mark p _ r rs ts kind _ _ ih =>
    refine ⟨ih.1, List.forall_mem_cons.mpr ⟨first rfl ⟨List.cons_ne_nil r rs, ?_⟩,
      behind [r] ih.2⟩⟩
    intro _
    exact ⟨String.singleton_ne_empty, by simp⟩
  | @text p _ ps rest ts _ ih =>
    refine ⟨ih.1.trans ?_, List.forall_mem_cons.mpr
      ⟨first rfl ⟨by simp, ?_⟩, behind _ ih.2⟩⟩
    · rw [advanceAll_append _ _ rest]
    · intro h
      exact absurd (.inl rfl) h
  | @unclosed p ps last _ =>
    refine ⟨rfl, List.forall_mem_singleton.mpr (first rfl ⟨by simp, ?_⟩)⟩
    intro h
    exact absurd (.inr rfl) h
  | @word p _ w rest t ts hne _ _ ht _ ih =>
    refine ⟨ih.1.trans ?_, List.forall_mem_cons.mpr
      ⟨first ht.pos_eq ⟨by simp [hne], ?_⟩, behind w ih.2⟩⟩
    · rw [advanceAll_append]
    · intro _
      rw [ht.lexeme_eq, String.toList_ofList, List.map_append]
      exact ⟨by simpa using hne, List.prefix_append _ _⟩

/-- A token of a source stands at an offset of the source, in front of its end. -/
theorem Splits.exists_place {filename : String} {source : List UInt8}
    {ts : List Scanned} {q : Position}
    (h : Splits (.start filename) (Rune.decode source) ts q) {t : Scanned}
    (ht : t ∈ ts) :
    ∃ n ≤ source.length, t.token.pos = placeOf filename source n ∧
      t.token.pos.offset < q.offset ∧ StandsAt t (Rune.decode (source.drop n)) := by
  obtain ⟨hend, hplaces⟩ := h.places
  obtain ⟨front, back, hruns, hpos, hstands⟩ := hplaces t ht
  have hdecodes := Rune.decode_eq_iff.mp hruns
  have hsource : source = Rune.encode front ++ Rune.encode back := by
    rw [← Rune.encode_append, hdecodes.encode_eq]
  refine ⟨(Rune.encode front).length, ?_,
    hpos.trans (advanceAll_start filename hruns), ?_, ?_⟩
  · rw [hsource, List.length_append]
    omega
  · rw [hpos, hend, hruns, advanceAll_append]
    exact offset_lt_advanceAll _ hstands.1
  · rw [hsource, List.drop_left, Rune.decode_eq_iff.mpr hdecodes.back]
    exact hstands

/-- The end of the file is at the very end of the source. -/
theorem Splits.end_place {filename : String} {source : List UInt8}
    {ts : List Scanned} {q : Position}
    (h : Splits (.start filename) (Rune.decode source) ts q) :
    q = placeOf filename source source.length := by
  rw [h.places.1, advanceAll_start filename (List.append_nil _).symm,
    (Rune.decodes_decode source).encode_eq]

theorem Splits.increasing_end {filename : String} {source : List UInt8}
    {ts : List Scanned} {q : Position}
    (h : Splits (.start filename) (Rune.decode source) ts q) :
    (ts.map (·.token) ++ [({ kind := .eof, pos := q } : Token)]).Pairwise fun t u =>
      t.pos.offset < u.pos.offset := by
  refine List.pairwise_append.mpr ⟨List.pairwise_map.mpr h.increasing.2,
    List.pairwise_singleton _ _, ?_⟩
  intro t ht eof heof
  obtain ⟨s, hs, rfl⟩ := List.mem_map.mp ht
  obtain ⟨n, -, -, hbefore, -⟩ := h.exists_place hs
  rw [List.mem_singleton.mp heof]
  exact hbefore

/-- The tokens of any source come in order of their offsets, up to the end of
the file at the very end of the source. Each one has the line, column and offset
of its place, and a token that is no string literal has its text there. -/
theorem token_positions_exact (source : List UInt8) (filename : String) :
    let d := (Lexer.ofBytes source filename).drain
    (d.all.Pairwise fun t u => t.pos.offset < u.pos.offset) ∧
    d.all.getLast? =
      some { kind := .eof, pos := placeOf filename source source.length } ∧
    (∀ t ∈ d.all, ∃ n ≤ source.length, t.pos = placeOf filename source n) ∧
    ∀ t ∈ d.tokens, ¬ IsTextLiteral t → t.token.lexeme ≠ "" ∧
      t.token.lexeme.toList <+:
        (Rune.decode (source.drop t.token.pos.offset.toNat)).map Rune.toChar := by
  intro d
  obtain ⟨ts, q, hsplits⟩ := exists_splits (.start filename) (Rune.decode source)
  have hd :
    d = { tokens := ts, eof := { kind := .eof, pos := q }, left := inFront q [] } :=
    hsplits.drain_eq
  have hall : d.all = ts.map (·.token) ++ [{ kind := .eof, pos := q }] := by
    rw [hd]; rfl
  rw [hall]
  refine ⟨hsplits.increasing_end, ?_, ?_, ?_⟩
  · rw [List.getLast?_append_cons, hsplits.end_place]
    rfl
  · intro t ht
    rcases List.mem_append.mp ht with ht | ht
    · obtain ⟨s, hs, rfl⟩ := List.mem_map.mp ht
      obtain ⟨n, hn, hpos, -⟩ := hsplits.exists_place hs
      exact ⟨n, hn, hpos⟩
    · rw [List.mem_singleton.mp ht]
      exact ⟨source.length, Nat.le_refl _, hsplits.end_place⟩
  · intro t ht hword
    rw [hd] at ht
    obtain ⟨n, -, hpos, -, hstands⟩ := hsplits.exists_place ht
    rw [hpos]
    exact hstands.2 hword

/-- A comment with a stray byte, a string literal with a newline and a long
character, and a word with a stray byte. -/
def stained : List UInt8 :=
  [0x23, 0xFF, 0x0A, 0x22, 0x78, 0x0A, 0xC3, 0xA9, 0x22, 0x20, 0x79, 0xFF, 0x2B]

theorem token_positions_exact_stained :
    let d := (Lexer.ofBytes stained "stained").drain
    let word : Scanned :=
      { token := { kind := .identifier, lexeme := "y\uFFFD",
                   pos := ⟨"stained", 3, 4, 10⟩ } }
    d.all.map (·.pos.offset) = [2, 3, 10, 12, 13] ∧ word ∈ d.tokens ∧
      ¬ IsTextLiteral word ∧
      word.token.lexeme.toList <+: (Rune.decode (stained.drop 10)).map Rune.toChar ∧
      ∃ n ≤ stained.length, word.token.pos = placeOf "stained" stained n := by
  intro d word
  obtain ⟨-, -, hplaces, htexts⟩ := token_positions_exact stained "stained"
  have hword : word ∈ d.tokens := by decide +kernel
  have hliteral : ¬ IsTextLiteral word := by decide
  have hmem : word.token ∈ d.all :=
    List.mem_append_left _ (List.mem_map.mpr ⟨word, hword, rfl⟩)
  exact ⟨by decide +kernel, hword, hliteral, (htexts word hword hliteral).2,
    hplaces _ hmem⟩

end Lexical

end Straightline
