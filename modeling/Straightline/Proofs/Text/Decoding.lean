import Mathlib
import Straightline.Text.Rune

/-!
# What bytes are read as

`Decodes` says what reading bytes as runes means, without saying how it is done:
where the bytes start with the encoding of a character, that character is read,
and otherwise the first byte is read alone, as a stray one. `decode_eq_iff`
shows that `Rune.decode` does just this.

A character is encoded in one of four forms, by the number of bytes
that follow the first one. The reader and the encoding are both
compared with these forms (`Writes`).
-/

namespace Straightline.Rune

/-- Bytes read as runes, character by character; a byte stands alone only if no
character starts there. -/
inductive Decodes : List UInt8 → List Rune → Prop
  | nil : Decodes [] []
  | char {c : Char} {bs : List UInt8} {rs : List Rune} :
      Decodes bs rs → Decodes (String.utf8EncodeChar c ++ bs) (.char c :: rs)
  | stray {b : UInt8} {bs : List UInt8} {rs : List Rune} :
      (∀ c, ¬ String.utf8EncodeChar c <+: b :: bs) → Decodes bs rs →
      Decodes (b :: bs) (.stray b :: rs)

/-! ## Forms of encoded characters -/

/-- The forms: the first byte is `mark` plus a number below `room`, and `more`
bytes of six bits follow. Codes below `least` have a shorter form. -/
inductive Form : (mark room more least : Nat) → Prop
  | one : Form 0 128 0 0
  | two : Form 192 32 1 0x80
  | three : Form 224 16 2 0x800
  | four : Form 240 8 3 0x10000

/-- The number that groups of six bits make up behind `n`. -/
def sixes (n : Nat) (ks : List Nat) : Nat := ks.foldl (fun n k => n * 64 + k) n

theorem sixes_cons (n k : Nat) (ks : List Nat) :
    sixes n (k :: ks) = sixes (n * 64 + k) ks := by
  rw [sixes, sixes, List.foldl_cons]

/-- The bytes that carry groups of six bits. -/
def sixBytes (ks : List Nat) : List UInt8 := ks.map fun k => UInt8.ofNat (k + 128)

/-- Whether a form writes `c` as `bs`. -/
def Writes (mark room more least : Nat) (c : Char) (bs : List UInt8) : Prop :=
  ∃ n < room, ∃ ks : List Nat, ks.length = more ∧ (∀ k ∈ ks, k < 64) ∧
    c.toNat = sixes n ks ∧
    least ≤ c.toNat ∧ bs = UInt8.ofNat (n + mark) :: sixBytes ks

theorem toNat_lt (c : Char) : c.toNat < 0x110000 := by
  rcases c.valid with h | h
  · have hlow : c.toNat < 0xd800 := h
    omega
  · exact h.2

/-- Every character is encoded in one of the forms. -/
theorem exists_form (c : Char) : ∃ mark room more least, Form mark room more least ∧
    Writes mark room more least c (String.utf8EncodeChar c) := by
  have hlt := toNat_lt c
  have hval : c.val.toNat = c.toNat := rfl
  simp only [String.utf8EncodeChar, hval]
  split
  · exact ⟨_, _, _, _, .one, c.toNat, by omega, [], rfl, by simp, rfl, by omega, rfl⟩
  split
  · exact ⟨_, _, _, _, .two, c.toNat / 64 % 32, by omega, [c.toNat % 64], rfl,
      by simp; omega, by simp only [sixes, List.foldl]; omega, by omega, rfl⟩
  split
  · exact ⟨_, _, _, _, .three, c.toNat / 4096 % 16, by omega,
      [c.toNat / 64 % 64, c.toNat % 64], rfl, by simp; omega, by
      simp only [sixes, List.foldl]; omega, by omega, rfl⟩
  · exact ⟨_, _, _, _, .four, c.toNat / 262144 % 8, by omega,
      [c.toNat / 4096 % 64, c.toNat / 64 % 64, c.toNat % 64], rfl, by simp; omega,
      by simp only [sixes, List.foldl]; omega, by omega, rfl⟩

/-- No form writes a character in any other way. -/
theorem Writes.eq_encode {mark room more least : Nat}
    (hf : Form mark room more least) {c : Char} {bs : List UInt8}
    (h : Writes mark room more least c bs) : bs = String.utf8EncodeChar c := by
  have hval : c.val.toNat = c.toNat := rfl
  obtain ⟨n, hn, ks, hlength, hks, hcode, hleast, rfl⟩ := h
  cases hf with
  | one =>
    obtain rfl := List.length_eq_zero_iff.mp hlength
    simp only [sixes, List.foldl] at hcode
    simp only [String.utf8EncodeChar, hval, sixBytes, List.map]
    rw [if_pos (by omega), hcode, Nat.add_zero]
  | two =>
    obtain ⟨k, rfl⟩ := List.length_eq_one_iff.mp hlength
    simp only [List.forall_mem_cons] at hks
    simp only [sixes, List.foldl] at hcode
    have hn' : c.toNat / 64 % 32 = n := by omega
    have hk' : c.toNat % 64 = k := by omega
    simp only [String.utf8EncodeChar, hval, sixBytes, List.map]
    rw [if_neg (by omega), if_pos (by omega), hn', hk']
  | three =>
    obtain ⟨j, k, rfl⟩ := List.length_eq_two.mp hlength
    simp only [List.forall_mem_cons] at hks
    simp only [sixes, List.foldl] at hcode
    have hn' : c.toNat / 4096 % 16 = n := by omega
    have hj' : c.toNat / 64 % 64 = j := by omega
    have hk' : c.toNat % 64 = k := by omega
    simp only [String.utf8EncodeChar, hval, sixBytes, List.map]
    rw [if_neg (by omega), if_neg (by omega), if_pos (by omega), hn', hj', hk']
  | four =>
    obtain ⟨i, j, k, rfl⟩ := List.length_eq_three.mp hlength
    simp only [List.forall_mem_cons] at hks
    simp only [sixes, List.foldl] at hcode
    have hn' : c.toNat / 262144 % 8 = n := by omega
    have hi' : c.toNat / 4096 % 64 = i := by omega
    have hj' : c.toNat / 64 % 64 = j := by omega
    have hk' : c.toNat % 64 = k := by omega
    simp only [String.utf8EncodeChar, hval, sixBytes, List.map]
    rw [if_neg (by omega), if_neg (by omega), if_neg (by omega), hn', hi', hj', hk']

/-! ## Reading a character -/

theorem lead?_eq_some_iff {b : UInt8} {more n least : Nat} :
    lead? b = some ⟨more, n, least⟩ ↔
      ∃ mark room, Form mark room more least ∧ n < room ∧
      b = UInt8.ofNat (n + mark) := by
  constructor
  · intro h
    have hb {k : Nat} (hk : k ≤ b.toNat) : b = UInt8.ofNat (b.toNat - k + k) := by
      rw [Nat.sub_add_cancel hk, UInt8.ofNat_toNat]
    simp only [lead?] at h
    split at h
    · cases h
      exact ⟨_, _, .one, by omega, hb (Nat.zero_le _)⟩
    split at h
    · cases h
    split at h
    · cases h
      exact ⟨_, _, .two, by omega, hb (by omega)⟩
    split at h
    · cases h
      exact ⟨_, _, .three, by omega, hb (by omega)⟩
    split at h
    · cases h
      exact ⟨_, _, .four, by omega, hb (by omega)⟩
    · cases h
  · rintro ⟨mark, room, hf, hn, rfl⟩
    cases hf with
    | one =>
      simp only [lead?]
      rw [UInt8.toNat_ofNat_of_lt' (show _ < 256 by omega), if_pos (by omega),
        Nat.add_zero]
    | two =>
      simp only [lead?]
      rw [UInt8.toNat_ofNat_of_lt' (show _ < 256 by omega), if_neg (by omega),
        if_neg (by omega), if_pos (by omega), Nat.add_sub_cancel]
    | three =>
      simp only [lead?]
      rw [UInt8.toNat_ofNat_of_lt' (show _ < 256 by omega), if_neg (by omega),
        if_neg (by omega), if_neg (by omega), if_pos (by omega), Nat.add_sub_cancel]
    | four =>
      simp only [lead?]
      rw [UInt8.toNat_ofNat_of_lt' (show _ < 256 by omega), if_neg (by omega),
        if_neg (by omega), if_neg (by omega), if_neg (by omega), if_pos (by omega),
        Nat.add_sub_cancel]

theorem tails?_eq_some_iff {more n m : Nat} {bs bs' : List UInt8} :
    tails? more n bs = some (m, bs') ↔ ∃ ks : List Nat, ks.length = more ∧
      (∀ k ∈ ks, k < 64) ∧ m = sixes n ks ∧ bs = sixBytes ks ++ bs' := by
  induction more generalizing n bs with
  | zero =>
    constructor
    · intro h
      cases h
      exact ⟨[], rfl, by simp, rfl, rfl⟩
    · rintro ⟨ks, hlength, -, rfl, rfl⟩
      obtain rfl := List.length_eq_zero_iff.mp hlength
      rfl
  | succ more ih =>
    constructor
    · intro h
      cases bs with
      | nil => cases h
      | cons b bs =>
        rw [tails?] at h
        split at h
        · next hb =>
          obtain ⟨ks, hlength, hks, rfl, rfl⟩ := ih.mp h
          refine ⟨(b.toNat - 0x80) :: ks, by simp [hlength], ?_, ?_, ?_⟩
          · exact List.forall_mem_cons.mpr ⟨by omega, hks⟩
          · rw [sixes_cons]
          · simp only [sixBytes, List.map_cons, List.cons_append]
            rw [Nat.sub_add_cancel hb.1, UInt8.ofNat_toNat]
        · cases h
    · rintro ⟨ks, hlength, hks, rfl, rfl⟩
      obtain ⟨k, ks, rfl⟩ := List.exists_cons_of_length_eq_add_one hlength
      rw [List.forall_mem_cons] at hks
      have hb := UInt8.toNat_ofNat_of_lt' (show k + 128 < 256 by omega)
      simp only [sixBytes, List.map_cons, List.cons_append]
      rw [tails?, hb, if_pos (by omega), Nat.add_sub_cancel]
      exact ih.mpr ⟨ks, by simpa using hlength, hks.2, sixes_cons n k ks, rfl⟩

theorem scalar?_eq_some_iff {least n : Nat} {c : Char} :
    scalar? least n = some c ↔ c.toNat = n ∧ least ≤ n := by
  unfold scalar?
  constructor
  · intro h
    split at h
    · next hn =>
      cases h
      rw [Char.toNat_ofNat, if_pos hn.2]
      exact ⟨rfl, hn.1⟩
    · cases h
  · rintro ⟨rfl, hleast⟩
    rw [if_pos ⟨hleast, c.valid⟩, Char.ofNat_toNat]

/-- A character is read where its encoding stands, and nowhere else. -/
theorem readChar?_eq_some_iff {b : UInt8} {bs bs' : List UInt8} {c : Char} :
    readChar? b bs = some (c, bs') ↔ b :: bs = String.utf8EncodeChar c ++ bs' := by
  constructor
  · intro h
    simp only [readChar?, Option.bind_eq_some_iff, Option.map_eq_some_iff,
      Prod.mk.injEq] at h
    obtain ⟨⟨more, n, least⟩, hlead, ⟨code, rest⟩, htails, c, hscalar, rfl, rfl⟩ := h
    obtain ⟨mark, room, hf, hn, rfl⟩ := lead?_eq_some_iff.mp hlead
    obtain ⟨ks, hlength, hks, rfl, rfl⟩ := tails?_eq_some_iff.mp htails
    obtain ⟨hcode, hleast⟩ := scalar?_eq_some_iff.mp hscalar
    have hwrites : Writes mark room more least c
        (UInt8.ofNat (n + mark) :: sixBytes ks) :=
      ⟨n, hn, ks, hlength, hks, hcode, hcode ▸ hleast, rfl⟩
    rw [← hwrites.eq_encode hf]
    rfl
  · intro h
    obtain ⟨mark, room, more, least, hf, n, hn, ks, hlength, hks, hcode, hleast,
      hbytes⟩ := exists_form c
    rw [hbytes, List.cons_append, List.cons.injEq] at h
    obtain ⟨rfl, rfl⟩ := h
    have hlead := lead?_eq_some_iff.mpr ⟨mark, room, hf, hn, rfl⟩
    have htails : tails? more n (sixBytes ks ++ bs') = some (sixes n ks, bs') :=
      tails?_eq_some_iff.mpr ⟨ks, hlength, hks, rfl, rfl⟩
    have hscalar := scalar?_eq_some_iff.mpr ⟨hcode, hcode ▸ hleast⟩
    simp only [readChar?, hlead, htails, hscalar, Option.bind_some, Option.map_some]

theorem readChar?_eq_none_iff {b : UInt8} {bs : List UInt8} :
    readChar? b bs = none ↔ ∀ c, ¬ String.utf8EncodeChar c <+: b :: bs := by
  constructor
  · rintro h c ⟨bs', heq⟩
    rw [readChar?_eq_some_iff.mpr heq.symm] at h
    cases h
  · intro h
    cases hread : readChar? b bs with
    | none => rfl
    | some r => exact absurd ⟨r.2, (readChar?_eq_some_iff.mp hread).symm⟩ (h r.1)

/-! ## Reading bytes -/

theorem decode_encodeChar_append (c : Char) (bs : List UInt8) :
    decode (String.utf8EncodeChar c ++ bs) = .char c :: decode bs := by
  obtain ⟨b, rest, hbytes⟩ :=
    List.exists_cons_of_ne_nil (String.utf8EncodeChar_ne_nil (c := c))
  have hread : readChar? b (rest ++ bs) = some (c, bs) :=
    readChar?_eq_some_iff.mpr (by rw [hbytes]; rfl)
  rw [hbytes, List.cons_append, decode]
  split
  · next c' bs' h =>
    rw [hread] at h
    cases h
    rfl
  · next h =>
    rw [hread] at h
    cases h

theorem decode_stray {b : UInt8} {bs : List UInt8}
    (h : ∀ c, ¬ String.utf8EncodeChar c <+: b :: bs) :
    decode (b :: bs) = .stray b :: decode bs := by
  have hread := readChar?_eq_none_iff.mpr h
  rw [decode]
  split
  · next c' bs' hsome =>
    rw [hread] at hsome
    cases hsome
  · rfl

theorem decodes_decode (bs : List UInt8) : Decodes bs (decode bs) := by
  fun_induction decode bs with
  | case1 => exact .nil
  | case2 b bs c bs' h ih =>
    rw [readChar?_eq_some_iff.mp h]
    exact .char ih
  | case3 b bs h ih => exact .stray (readChar?_eq_none_iff.mp h) ih

/-- Bytes are read as the runes that `Decodes` asks for. -/
theorem decode_eq_iff {bs : List UInt8} {rs : List Rune} :
    decode bs = rs ↔ Decodes bs rs := by
  constructor
  · rintro rfl
    exact decodes_decode bs
  · intro h
    induction h with
    | nil => rw [decode]
    | char _ ih => rw [decode_encodeChar_append, ih]
    | stray hstray _ ih => rw [decode_stray hstray, ih]

/-- The bytes of a string are read as its characters. -/
theorem decode_utf8 (s : String) : decode (utf8 s) = ofString s := by
  have hchars (cs : List Char) : decode (encode (cs.map .char)) = cs.map .char := by
    induction cs with
    | nil => rw [List.map_nil, encode, List.flatMap_nil, decode]
    | cons c cs ih =>
      rw [List.map_cons, encode, List.flatMap_cons]
      exact (decode_encodeChar_append c _).trans (congrArg _ ih)
  exact hchars s.toList

end Straightline.Rune
