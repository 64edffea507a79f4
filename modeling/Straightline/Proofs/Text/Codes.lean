import Mathlib
import Straightline.Proofs.Sequences
import Straightline.Proofs.Text.Decoding
import Straightline.Text.Decimal
import Straightline.Text.Quoted

/-!
# Texts that can be read back

A list of things is written by writing them one after the other. It can be read
back if one can tell where each of them ends, perhaps by looking at what stands
behind it, and where the whole list ends (`IsCode`, `IsCode.flatMap_inj`).

Quoted text is such a code: every character is written as itself, as a backslash
and a letter, or as a backslash, a mark and as many digits as the mark says. So
no two strings have the same quoted form (`Quoted.ofString_injective`), and none
takes more than one line (`Quoted.newline_notMem_ofString`).
-/

namespace Straightline

/-! ## Codes -/

section
variable {α β γ : Type} {P : α → Prop} {code : α → List β} {key : α → γ}
  {Follows Ends : List β → Prop}

/-- Whether one can tell the `key` of what is written from how it is written, if
`Follows` holds of what stands behind it. Behind a whole list stands what `Ends`
says, which can be told from the members of the list. -/
structure IsCode (P : α → Prop) (code : α → List β) (key : α → γ)
    (Follows Ends : List β → Prop) : Prop where
  ends : ∀ u, Ends u → Follows u
  follows : ∀ a u, P a → Follows (code a ++ u)
  not_ends : ∀ a u, P a → ¬ Ends (code a ++ u)
  cut : ∀ a b u v, P a → P b → Follows u → Follows v → code a ++ u = code b ++ v →
    key a = key b ∧ u = v

theorem IsCode.follows_flatMap (h : IsCode P code key Follows Ends) {as : List α}
    (has : ∀ a ∈ as, P a) {u : List β} (hu : Ends u) :
    Follows (as.flatMap code ++ u) := by
  cases as with
  | nil => exact h.ends u hu
  | cons a as =>
    rw [List.flatMap_cons, List.append_assoc]
    exact h.follows a _ (has a List.mem_cons_self)

/-- A list of things can be read back if each of them can. -/
theorem IsCode.flatMap_inj (h : IsCode P code key Follows Ends) {as bs : List α}
    (has : ∀ a ∈ as, P a) (hbs : ∀ b ∈ bs, P b) {u v : List β} (hu : Ends u)
    (hv : Ends v) (heq : as.flatMap code ++ u = bs.flatMap code ++ v) :
    as.map key = bs.map key ∧ u = v := by
  induction as generalizing bs with
  | nil =>
    cases bs with
    | nil => exact ⟨rfl, heq⟩
    | cons b bs =>
      rw [List.flatMap_nil, List.nil_append, List.flatMap_cons, List.append_assoc]
        at heq
      exact absurd (heq ▸ hu) (h.not_ends b _ (hbs b List.mem_cons_self))
  | cons a as ih =>
    rw [List.forall_mem_cons] at has
    cases bs with
    | nil =>
      rw [List.flatMap_nil, List.nil_append, List.flatMap_cons, List.append_assoc]
        at heq
      exact absurd (heq ▸ hv) (h.not_ends a _ has.1)
    | cons b bs =>
      rw [List.forall_mem_cons] at hbs
      rw [List.flatMap_cons, List.flatMap_cons, List.append_assoc,
        List.append_assoc] at heq
      obtain ⟨hkey, hrest⟩ :=
        h.cut a b _ _ has.1 hbs.1 (h.follows_flatMap has.2 hu)
          (h.follows_flatMap hbs.2 hv) heq
      obtain ⟨hkeys, huv⟩ := ih has.2 hbs.2 hrest
      exact ⟨by rw [List.map_cons, List.map_cons, hkey, hkeys], huv⟩

/-- Where nothing stands behind a list, the list itself can be read back. -/
theorem IsCode.flatMap_injective {code : α → List β}
    (h : IsCode P code id Follows (· = [])) {as bs : List α} (has : ∀ a ∈ as, P a)
    (hbs : ∀ b ∈ bs, P b) (heq : as.flatMap code = bs.flatMap code) : as = bs := by
  have hkeys := (h.flatMap_inj has hbs rfl rfl (congrArg (· ++ []) heq)).1
  rwa [List.map_id, List.map_id] at hkeys

end

/-! ## Lists with commas -/

theorem toList_intercalate_comma (x : String) (xs : List String) :
    (", ".intercalate (x :: xs)).toList =
      x.toList ++ xs.flatMap fun y => ',' :: ' ' :: y.toList := by
  induction xs generalizing x with
  | nil => simp
  | cons y ys ih => simp [String.intercalate_cons_cons, ih y]

section
variable {α : Type} {P : α → Prop} {text : α → String}

theorem isCode_comma (hcomma : ∀ a, P a → ',' ∉ (text a).toList)
    (hinj : ∀ a b, P a → P b → text a = text b → a = b) :
    IsCode P (fun a => ',' :: ' ' :: (text a).toList) id
      (fun u => ∀ c ∈ u.head?, decide (c ≠ ',') = false) (· = []) where
  ends := by simp
  follows := by simp
  not_ends := by simp
  cut a b u v ha hb hu hv heq := by
    have hrest := (List.cons.inj (List.cons.inj heq).2).2
    obtain ⟨hab, huv⟩ :=
      append_inj_of_run (forall_mem_ne (hcomma a ha))
        (forall_mem_ne (hcomma b hb)) hu hv hrest
    exact ⟨hinj a b ha hb (String.toList_injective hab), huv⟩

/-- What is listed with commas can be read back if the text of each thing tells
the thing, and has no comma in it. -/
theorem intercalate_comma_injective (hne : ∀ a, P a → text a ≠ "")
    (hcomma : ∀ a, P a → ',' ∉ (text a).toList)
    (hinj : ∀ a b, P a → P b → text a = text b → a = b) {as bs : List α}
    (has : ∀ a ∈ as, P a) (hbs : ∀ b ∈ bs, P b)
    (h : ", ".intercalate (as.map text) = ", ".intercalate (bs.map text)) :
    as = bs := by
  have hcode := isCode_comma hcomma hinj
  have hnil (x : α) (xs : List α) (hx : P x) :
      ", ".intercalate ((x :: xs).map text) ≠ "" := by
    intro heq
    have hempty := congrArg String.toList heq
    rw [List.map_cons, toList_intercalate_comma, String.toList_empty,
      List.append_eq_nil_iff] at hempty
    exact hne x hx (String.toList_eq_nil_iff.mp hempty.1)
  have hends {xs : List α} (hxs : ∀ x ∈ xs, P x) :
      ∀ c ∈ (xs.flatMap fun x => ',' :: ' ' :: (text x).toList).head?,
      decide (c ≠ ',') = false := by
    simpa using hcode.follows_flatMap hxs rfl
  cases as with
  | nil =>
    cases bs with
    | nil => rfl
    | cons b bs => exact absurd h.symm (hnil b bs (hbs b List.mem_cons_self))
  | cons a as =>
    cases bs with
    | nil => exact absurd h (hnil a as (has a List.mem_cons_self))
    | cons b bs =>
      rw [List.forall_mem_cons] at has hbs
      have hlists := congrArg String.toList h
      rw [List.map_cons, List.map_cons, toList_intercalate_comma,
        toList_intercalate_comma, List.flatMap_map, List.flatMap_map] at hlists
      obtain ⟨hfirst, hrest⟩ :=
        append_inj_of_run (forall_mem_ne (hcomma a has.1))
          (forall_mem_ne (hcomma b hbs.1))
        (hends has.2) (hends hbs.2) hlists
      rw [hinj a b has.1 hbs.1 (String.toList_injective hfirst),
        hcode.flatMap_injective has.2 hbs.2 hrest]

end

theorem notMem_intercalate_comma {c : Char} {xs : List String}
    (hxs : ∀ x ∈ xs, c ∉ x.toList) (hcomma : c ≠ ',') (hblank : c ≠ ' ') :
    c ∉ (", ".intercalate xs).toList := by
  cases xs with
  | nil => simp
  | cons x xs =>
    rw [List.forall_mem_cons] at hxs
    rw [toList_intercalate_comma]
    simpa [hcomma, hblank, hxs.1] using hxs.2

/-! ## Numerals -/

namespace Decimal

theorem notMem_digits {c : Char} (hc : isDigit c = false) (n : Nat) : c ∉ digits n := by
  intro hmem
  rw [isDigit_of_mem_digits hmem] at hc
  cases hc

theorem ofInt_injective {m n : Int} (h : ofInt m = ofInt n) : m = n := by
  -- Digits have no sign among them.
  have hsign (k j : Nat) : ofNat k ≠ "-" ++ ofNat j := by
    intro heq
    have hmem : '-' ∈ (ofNat k).toList := by simp [heq]
    rw [ofNat, String.toList_ofList] at hmem
    exact notMem_digits (by decide) k hmem
  cases m with
  | ofNat k =>
    cases n with
    | ofNat j => rw [ofNat_injective h]
    | negSucc j => exact absurd h (hsign k (j + 1))
  | negSucc k =>
    cases n with
    | ofNat j => exact absurd h.symm (hsign j (k + 1))
    | negSucc j =>
      rw [Nat.succ.inj (ofNat_injective ((String.append_right_inj "-").mp h))]

theorem newline_notMem_ofInt (n : Int) : '\n' ∉ (ofInt n).toList := by
  cases n with
  | ofNat k => simpa [ofInt, ofNat] using notMem_digits (by decide) k
  | negSucc k => simpa [ofInt, ofNat] using notMem_digits (by decide) (k + 1)

end Decimal

/-! ## Hexadecimal digits -/

namespace Hex

theorem lowerDigit_injective :
    ∀ n < 16, ∀ m < 16, lowerDigit n = lowerDigit m → n = m := by
  decide

theorem lower_injective {width n m : Nat} (hn : n < 16 ^ width) (hm : m < 16 ^ width)
    (h : lower width n = lower width m) : n = m := by
  induction width generalizing n m with
  | zero => omega
  | succ width ih =>
    rw [Nat.pow_succ] at hn hm
    obtain ⟨hfront, hlast⟩ := List.append_inj' h rfl
    have hrest : n / 16 = m / 16 := ih (by omega) (by omega) hfront
    have hdigit : n % 16 = m % 16 :=
      lowerDigit_injective _ (Nat.mod_lt _ (by decide)) _ (Nat.mod_lt _ (by decide))
        (List.singleton_inj.mp hlast)
    omega

theorem newline_notMem_lower (width n : Nat) : '\n' ∉ lower width n := by
  have hdigit : ∀ n < 16, lowerDigit n ≠ '\n' := by decide
  induction width generalizing n with
  | zero => simp [lower, fixed]
  | succ width ih =>
    intro hmem
    rcases List.mem_append.mp hmem with hmem | hmem
    · exact ih (n / 16) hmem
    · exact hdigit _ (Nat.mod_lt _ (by decide)) (List.mem_singleton.mp hmem).symm

end Hex

/-! ## Quoted text -/

namespace Quoted

/-- The characters that are written as a backslash and a letter or sign. -/
def letters : List (Char × Char) :=
  [('"', '"'), ('\\', '\\'), ('\x07', 'a'), ('\x08', 'b'), ('\x0c', 'f'),
    ('\n', 'n'), ('\r', 'r'), ('\t', 't'), ('\x0b', 'v')]

/-- The marks that say how many digits come behind them. -/
def marks : List (Char × Nat) := [('x', 2), ('u', 4), ('U', 8)]

/-- The ways to write a character. -/
inductive Escapes (c : Char) : List Char → Prop
  | plain : c ≠ '\\' → Printable.isPrintable c = true → Escapes c [c]
  | letter {l : Char} : (c, l) ∈ letters → Escapes c ['\\', l]
  | digits (mark : Char) (width : Nat) : (mark, width) ∈ marks → c.toNat < 16 ^ width →
      Escapes c ('\\' :: mark :: Hex.lower width c.toNat)

theorem escape_of_mem_letters : ∀ p ∈ letters, escape p.1 = ['\\', p.2] := by
  decide +kernel

theorem escapes_escape (c : Char) : Escapes c (escape c) := by
  by_cases hletter : c ∈ letters.map Prod.fst
  · obtain ⟨p, hp, rfl⟩ := List.mem_map.mp hletter
    rw [escape_of_mem_letters p hp]
    exact .letter hp
  · have hother : c ≠ '"' ∧ c ≠ '\\' ∧ c ≠ '\x07' ∧ c ≠ '\x08' ∧ c ≠ '\x0c' ∧
        c ≠ '\n' ∧ c ≠ '\r' ∧ c ≠ '\t' ∧ c ≠ '\x0b' := by
      simpa [letters] using hletter
    simp only [escape, hother, or_self, if_false]
    split
    next hprintable => exact .plain hother.2.1 hprintable
    next =>
    split
    next hlow => exact .digits 'x' 2 (by decide) (by omega)
    next =>
    split
    next hlow => exact .digits 'u' 4 (by decide) (by omega)
    next =>
      have hmax := Rune.toNat_lt c
      exact .digits 'U' 8 (by decide) (by omega)

theorem Escapes.cut {c d : Char} {w w' u v : List Char} (h : Escapes c w)
    (h' : Escapes d w') (heq : w ++ u = w' ++ v) : c = d ∧ u = v := by
  have hletters : ∀ p ∈ letters, ∀ q ∈ letters, p.2 = q.2 → p.1 = q.1 := by decide
  have hmarks : ∀ p ∈ letters, ∀ m ∈ marks, p.2 ≠ m.1 := by decide
  have hwidths : ∀ m ∈ marks, ∀ m' ∈ marks, m.1 = m'.1 → m.2 = m'.2 := by decide
  cases h with
  | plain hc _ =>
    cases h' with
    | plain _ _ => simpa using heq
    | letter _ => exact absurd (List.cons.inj heq).1 hc
    | digits _ _ _ _ => exact absurd (List.cons.inj heq).1 hc
  | letter hl =>
    cases h' with
    | plain hd _ => exact absurd (List.cons.inj heq).1.symm hd
    | letter hl' =>
      obtain ⟨-, hsecond⟩ := List.cons.inj heq
      obtain ⟨hsecond, hrest⟩ := List.cons.inj hsecond
      exact ⟨hletters _ hl _ hl' hsecond, hrest⟩
    | digits _ _ hmark _ =>
      obtain ⟨-, hsecond⟩ := List.cons.inj heq
      exact absurd (List.cons.inj hsecond).1 (hmarks _ hl _ hmark)
  | digits _ _ hmark hc =>
    cases h' with
    | plain hd _ => exact absurd (List.cons.inj heq).1.symm hd
    | letter hl' =>
      obtain ⟨-, hsecond⟩ := List.cons.inj heq
      exact absurd (List.cons.inj hsecond).1.symm (hmarks _ hl' _ hmark)
    | digits _ _ hmark' hd =>
      obtain ⟨-, hsecond⟩ := List.cons.inj heq
      obtain ⟨hsecond, hrest⟩ := List.cons.inj hsecond
      obtain rfl := hwidths _ hmark _ hmark' hsecond
      obtain ⟨hdigits, hrest⟩ := List.append_inj hrest (by simp [Hex.lower])
      exact ⟨Char.toNat_inj.mp (Hex.lower_injective hc hd hdigits), hrest⟩

theorem isCode_escape : IsCode (fun _ => True) escape id (fun _ => True) (· = []) where
  ends _ _ := trivial
  follows _ _ _ := trivial
  not_ends c u _ hend := by
    have hne : escape c ≠ [] := fun hnil => by
      have hescapes := escapes_escape c
      rw [hnil] at hescapes
      cases hescapes
    exact hne (List.append_eq_nil_iff.mp hend).1
  cut c d u v _ _ _ _ heq := (escapes_escape c).cut (escapes_escape d) heq

theorem toList_ofString (s : String) :
    (ofString s).toList = '"' :: s.toList.flatMap escape ++ ['"'] := by
  rw [ofString, ofRunes, String.toList_ofList, Rune.ofString, List.flatMap_map]
  rfl

/-- The quoted form of a string tells the string. -/
theorem ofString_injective {s t : String} (h : ofString s = ofString t) : s = t := by
  have hlists := congrArg String.toList h
  rw [toList_ofString, toList_ofString, List.append_cancel_right_eq,
    List.cons_inj_right] at hlists
  exact String.toList_injective
    (isCode_escape.flatMap_injective (by simp) (by simp) hlists)

theorem Escapes.newline_notMem {c : Char} {w : List Char} (h : Escapes c w) :
    '\n' ∉ w := by
  have hletters : ∀ p ∈ letters, p.2 ≠ '\n' := by decide
  have hmarks : ∀ m ∈ marks, m.1 ≠ '\n' := by decide
  have hplain : Printable.isPrintable '\n' = false := by decide +kernel
  cases h with
  | plain _ hprintable =>
    intro hmem
    rw [← List.mem_singleton.mp hmem, hplain] at hprintable
    cases hprintable
  | letter hl => simpa using (hletters _ hl).symm
  | digits _ _ hmark _ =>
    simpa using ⟨(hmarks _ hmark).symm, Hex.newline_notMem_lower _ _⟩

theorem newline_notMem_ofString (s : String) : '\n' ∉ (ofString s).toList := by
  rw [toList_ofString]
  intro hmem
  simp only [List.cons_append, List.mem_cons, List.mem_append, List.mem_flatMap,
    List.not_mem_nil, or_false] at hmem
  rcases hmem with hquote | ⟨c, -, hmem⟩ | hquote
  · exact absurd hquote (by decide)
  · exact (escapes_escape c).newline_notMem hmem
  · exact absurd hquote (by decide)

end Quoted

end Straightline
