import Mathlib
import Straightline.Proofs.Target.Translation
import Straightline.Target

/-!
# The names in a target text

In the text of the target a name stands behind a sigil, `@` or `%`. A name in
quotes runs to the closing quote, any other to a blank, a comma, a parenthesis
or the end of the line. `namesIn` reads the names off a text in this way and
knows nothing of modules. If every name of a module is there, it finds those
that the module mentions, each as it is written and in their order, and no
others (`Module.namesIn_print`).
-/

namespace Straightline.Target

open Code (Ty textName)

/-! ## Finding names -/

/-- Whether a name stands behind a character. -/
def isSigil (c : Char) : Bool := c == '@' || c == '%'

/-- Whether a character ends a name that is not in quotes. -/
def isBreak (c : Char) : Bool :=
  c == ' ' || c == ',' || c == '(' || c == ')' || c == '\n'

/-- What comes behind the next quote. -/
def afterQuote (cs : List Char) : List Char := (cs.dropWhile (· != '"')).tail

/-- The name that a text starts with, with its quotes if it has some. -/
def nameFirst : List Char → List Char
  | '"' :: cs => '"' :: cs.takeWhile (· != '"') ++ (cs.dropWhile (· != '"')).take 1
  | cs => cs.takeWhile (!isBreak ·)

/-- What comes behind the name that a text starts with. -/
def afterName : List Char → List Char
  | '"' :: cs => afterQuote cs
  | cs => cs.dropWhile (!isBreak ·)

theorem length_afterQuote_le (cs : List Char) : (afterQuote cs).length ≤ cs.length := by
  have hdrop := (List.dropWhile_suffix (l := cs) (· != '"')).length_le
  rw [afterQuote, List.length_tail]
  omega

theorem length_afterName_le (cs : List Char) : (afterName cs).length ≤ cs.length := by
  fun_cases afterName cs with
  | case1 cs => exact Nat.le_succ_of_le (length_afterQuote_le cs)
  | case2 => exact (List.dropWhile_suffix _).length_le

/-- The names in a text. What is in quotes has none, unless it is one. -/
def namesIn : List Char → List (List Char)
  | [] => []
  | c :: cs =>
    if isSigil c then nameFirst cs :: namesIn (afterName cs)
    else if c == '"' then namesIn (afterQuote cs)
    else namesIn cs
termination_by cs => cs.length
decreasing_by
  · exact Nat.lt_succ_of_le (length_afterName_le cs)
  · exact Nat.lt_succ_of_le (length_afterQuote_le cs)
  · exact Nat.lt_succ_self _

theorem namesIn_sigil {c : Char} (h : isSigil c = true) (cs : List Char) :
    namesIn (c :: cs) = nameFirst cs :: namesIn (afterName cs) := by
  rw [namesIn, if_pos h]

theorem namesIn_quote (cs : List Char) :
    namesIn ('"' :: cs) = namesIn (afterQuote cs) := by
  rw [namesIn, if_neg (by decide), if_pos (beq_self_eq_true _)]

/-- Whether a character is neither a sigil nor a quote. -/
def isPlain (c : Char) : Bool := !isSigil c && c != '"'

theorem namesIn_plain {cs : List Char} (h : cs.all isPlain = true) (rest : List Char) :
    namesIn (cs ++ rest) = namesIn rest := by
  induction cs with
  | nil => rfl
  | cons c cs ih =>
    rw [List.all_cons, Bool.and_eq_true, isPlain, Bool.and_eq_true] at h
    obtain ⟨⟨hsigil, hquote⟩, hcs⟩ := h
    rw [List.cons_append, namesIn, if_neg (by simpa using hsigil),
      if_neg (by simpa using hquote)]
    exact ih hcs

theorem cut_quoted {body : List Char} (hbody : '"' ∉ body) (rest : List Char) :
    (body ++ '"' :: rest).takeWhile (· != '"') = body ∧
      (body ++ '"' :: rest).dropWhile (· != '"') = '"' :: rest := by
  have hrun : ∀ c ∈ body, (c != '"') = true :=
    fun c hc => bne_iff_ne.mpr fun heq => hbody (heq ▸ hc)
  exact ⟨takeWhile_run hrun (by simp), dropWhile_run hrun (by simp)⟩

theorem afterQuote_quoted {body : List Char} (hbody : '"' ∉ body) (rest : List Char) :
    afterQuote (body ++ '"' :: rest) = rest := by
  rw [afterQuote, (cut_quoted hbody rest).2, List.tail_cons]

/-! ## What the pieces of a text show -/

/-- A place where a name that is not in quotes ends. -/
def AtBreak (rest : List Char) : Prop := ∀ c ∈ rest.head?, isBreak c = true

/-- Any place. -/
def Anywhere (_ : List Char) : Prop := True

/-- In front of any text of which `Follows` holds, just the names `xs` are found
in a piece, each as it is written. -/
def Shows (Follows : List Char → Prop) (piece : String) (xs : List String) : Prop :=
  ∀ rest, Follows rest →
    namesIn (piece.toList ++ rest) =
      (xs.map fun x => (writeName x).toList) ++ namesIn rest

/-- Whether a piece of text has neither sigils nor quotes. -/
def IsPlain (piece : String) : Prop := piece.toList.all isPlain = true

namespace Shows

variable {P Q : List Char → Prop} {a b : String} {xs ys : List String}

theorem of_plain (h : IsPlain a) : Shows P a [] := fun rest _ => namesIn_plain h rest

theorem anywhere (h : Shows Anywhere a xs) : Shows P a xs :=
  fun rest _ => h rest trivial

theorem append (ha : Shows P a xs) (hb : Shows Q b ys)
    (h : ∀ rest, Q rest → P (b.toList ++ rest)) : Shows Q (a ++ b) (xs ++ ys) := by
  intro rest hrest
  rw [String.toList_append, List.append_assoc, ha _ (h rest hrest), hb rest hrest,
    List.map_append, List.append_assoc]

/-- Behind a piece that shows the same wherever it stands. -/
theorem next (ha : Shows Anywhere a xs) (hb : Shows Q b ys) :
    Shows Q (a ++ b) (xs ++ ys) :=
  ha.append hb fun _ _ => trivial

theorem plain (ha : Shows Anywhere a xs) (hb : IsPlain b) :
    Shows Anywhere (a ++ b) xs := by
  simpa using ha.next (of_plain (P := Anywhere) hb)

/-- A break closes the name in front of it. -/
theorem close (ha : Shows AtBreak a xs) (hb : IsPlain b)
    (hbreak : b.toList.head?.any isBreak = true) : Shows Anywhere (a ++ b) xs := by
  have happend : Shows Anywhere (a ++ b) (xs ++ []) := by
    refine ha.append (of_plain hb) fun rest _ => ?_
    cases hchars : b.toList with
    | nil => simp [hchars] at hbreak
    | cons c cs =>
      rw [hchars] at hbreak
      intro d hd
      cases hd
      exact hbreak
  simpa using happend

theorem intercalate {sep : String} (hsep : IsPlain sep)
    (hP : ∀ rest, P (sep.toList ++ rest)) {pieces : List String}
    {names : List (List String)} (h : List.Forall₂ (Shows P) pieces names) :
    Shows P (sep.intercalate pieces) names.flatten := by
  induction h with
  | nil => exact of_plain rfl
  | @cons piece xs pieces names hpiece hrest ih =>
    cases hrest with
    | nil => simpa using hpiece
    | cons =>
      have hfront := hpiece.append (of_plain (P := Anywhere) hsep) fun rest _ => hP rest
      rw [List.append_nil] at hfront
      rw [String.intercalate_cons_cons, List.flatten_cons]
      exact hfront.next ih

theorem join {pieces : List String} {names : List (List String)}
    (h : List.Forall₂ (Shows Anywhere) pieces names) :
    Shows Anywhere (String.join pieces) names.flatten := by
  induction h with
  | nil => exact of_plain rfl
  | cons hpiece _ ih =>
    rw [String.join_cons, List.flatten_cons]
    exact hpiece.next ih

theorem eq_nil_of_empty (h : Shows Anywhere "" xs) : xs = [] := by
  have hrest : namesIn [] = (xs.map fun x => (writeName x).toList) ++ namesIn [] :=
    h [] trivial
  simpa using (List.self_eq_append_left.mp hrest)

/-- Empty pieces can be left out. -/
theorem filter {pieces : List String} {names : List (List String)}
    (h : List.Forall₂ (Shows Anywhere) pieces names) :
    ∃ names', List.Forall₂ (Shows Anywhere) (pieces.filter (· ≠ "")) names' ∧
      names'.flatten = names.flatten := by
  induction h with
  | nil => exact ⟨[], .nil, rfl⟩
  | @cons piece xs pieces names hpiece _ ih =>
    obtain ⟨names', hnames', hflatten⟩ := ih
    by_cases hempty : piece = ""
    · subst hempty
      rw [List.filter_cons_of_neg (by simp), List.flatten_cons,
        hpiece.eq_nil_of_empty, List.nil_append]
      exact ⟨names', hnames', hflatten⟩
    · rw [List.filter_cons_of_pos (by simpa using hempty)]
      exact ⟨xs :: names', .cons hpiece hnames', by rw [List.flatten_cons,
        List.flatten_cons, hflatten]⟩

end Shows

/-! ## Names and literals -/

theorem isPlain_of_isNameChar {c : Char} (h : isNameChar c = true) :
    isPlain c = true := by
  by_contra hnot
  simp only [isPlain, isSigil, Bool.and_eq_true, Bool.not_eq_true',
    Bool.or_eq_false_iff, beq_eq_false_iff_ne, bne_iff_ne, not_and_or, not_not] at hnot
  rcases hnot with (rfl | rfl) | rfl <;> cases h

theorem isBreak_of_isNameChar {c : Char} (h : isNameChar c = true) :
    isBreak c = false := by
  by_contra hnot
  simp only [isBreak, Bool.not_eq_false, Bool.or_eq_true, beq_iff_eq] at hnot
  rcases hnot with (((rfl | rfl) | rfl) | rfl) | rfl <;> cases h

theorem isPlain_ofNat (n : Nat) : IsPlain (Decimal.ofNat n) := by
  rw [IsPlain, Decimal.ofNat, String.toList_ofList, List.all_eq_true]
  exact fun c hc => isPlain_of_isNameChar
    (by simp [isNameChar, Decimal.isDigit_of_mem_digits hc])

theorem IsPlain.append {a b : String} (ha : IsPlain a) (hb : IsPlain b) :
    IsPlain (a ++ b) := by
  rw [IsPlain, String.toList_append, List.all_append, Bool.and_eq_true]
  exact ⟨ha, hb⟩

theorem isPlain_upperDigit {n : Nat} (h : n < 16) :
    isPlain (Hex.upperDigit n) = true := by
  revert n
  decide

theorem all_isPlain_hexDigits (n : Nat) : (hexDigits n).all isPlain = true := by
  induction n using hexDigits.induct with
  | case1 n h =>
    rw [hexDigits, if_pos h]
    simp [isPlain_upperDigit h]
  | case2 n h ih =>
    rw [hexDigits, if_neg h]
    simp [ih, isPlain_upperDigit (Nat.mod_lt n (by decide : 16 > 0))]

theorem isPlain_writeInt (n : Int32) : IsPlain (writeInt n) := by
  rw [writeInt]
  split
  · refine IsPlain.append rfl ?_
    rw [IsPlain, String.toList_ofList]
    exact all_isPlain_hexDigits _
  · rw [Decimal.ofInt32]
    cases n.toInt with
    | ofNat k => exact isPlain_ofNat k
    | negSucc k => exact IsPlain.append rfl (isPlain_ofNat (k + 1))

theorem isPlain_comma : IsPlain ", " := rfl

theorem atBreak_comma (rest : List Char) : AtBreak (", ".toList ++ rest) := by
  intro c hc
  cases hc
  rfl

theorem isPlain_newline : IsPlain "\n" := rfl

theorem isPlain_mnemonic (op : Operator) : IsPlain op.mnemonic := by
  cases op <;> rfl

mutual

theorem isPlain_text : (t : Ty) → IsPlain t.text
  | .absent | .void | .i8 | .i32 | .unknown _ => by rw [Ty.text]; rfl
  | .ptr elem => by
    rw [Ty.text]
    exact (isPlain_text elem).append rfl
  | .func ret params => by
    rw [Ty.text]
    exact (((isPlain_text ret).append (by rfl)).append
      (isPlain_texts params)).append rfl

theorem isPlain_texts : (ts : List Ty) → IsPlain (", ".intercalate (Ty.texts ts))
  | [] => rfl
  | [t] => by
    rw [Ty.texts, Ty.texts, String.intercalate_singleton]
    exact isPlain_text t
  | t :: u :: us => by
    have hrest := isPlain_texts (u :: us)
    rw [Ty.texts] at hrest
    rw [Ty.texts, Ty.texts, String.intercalate_cons_cons]
    exact ((isPlain_text t).append (by rfl)).append hrest

end

/-- Whether a character stands for itself inside quotes. -/
def isPrintable (c : Char) : Bool :=
  0x20 ≤ c.toNat && c.toNat ≤ 0x7e && c != '"' && c != '\\'

/-- Whether a character is a hexadecimal digit. -/
def isHexDigit (c : Char) : Bool :=
  Decimal.isDigit c || 0x41 ≤ c.toNat && c.toNat ≤ 0x46 || 0x61 ≤
    c.toNat && c.toNat ≤ 0x66

theorem isHexDigit_upperDigit {n : Nat} (h : n < 16) :
    isHexDigit (Hex.upperDigit n) = true := by
  revert n
  decide

theorem escapeByte_cases (b : UInt8) :
    (∃ c, isPrintable c = true ∧ escapeByte b = [c]) ∨
      ∃ c d, isHexDigit c = true ∧ isHexDigit d = true ∧
      escapeByte b = ['\\', c, d] := by
  rw [escapeByte]
  split
  next h =>
    refine .inl ⟨Char.ofNat b.toNat, ?_, rfl⟩
    revert h
    have hbytes : ∀ n < 256, isPlainByte (UInt8.ofNat n) = true →
        isPrintable (Char.ofNat n) = true := by
      decide +kernel
    simpa using hbytes b.toNat b.toNat_lt
  · have hdigit (n : Nat) := isHexDigit_upperDigit (Nat.mod_lt n (by decide : 16 > 0))
    exact .inr ⟨_, _, hdigit _, hdigit _, rfl⟩

theorem quote_notMem_escapeByte (b : UInt8) : '"' ∉ escapeByte b := by
  rcases escapeByte_cases b with ⟨c, hc, hb⟩ | ⟨c, d, hc, hd, hb⟩
  · rw [hb, List.mem_singleton]
    rintro rfl
    cases hc
  · rw [hb, List.mem_cons, List.mem_cons, List.mem_singleton]
    rintro (h | rfl | rfl)
    · cases h
    · cases hc
    · cases hd

theorem toList_quoteBytes (bs : List UInt8) :
    ∃ body, '"' ∉ body ∧ (quoteBytes bs).toList = '"' :: body ++ ['"'] := by
  refine ⟨bs.flatMap escapeByte, ?_, String.toList_ofList⟩
  simp [quote_notMem_escapeByte]

theorem shows_quoteBytes (bs : List UInt8) : Shows Anywhere (quoteBytes bs) [] := by
  intro rest _
  obtain ⟨body, hbody, htext⟩ := toList_quoteBytes bs
  rw [htext, List.append_assoc, List.cons_append, namesIn_quote]
  show namesIn (afterQuote (body ++ '"' :: rest)) = namesIn rest
  rw [afterQuote_quoted hbody]

/-- A name is written in quotes or as it is. -/
theorem writeName_cases (x : String) :
    (∃ bs, writeName x = quoteBytes bs) ∨ writeName x = x ∧
      x.toList.all isNameChar = true := by
  rw [writeName]
  split
  · exact .inl ⟨_, rfl⟩
  next h =>
    rw [Bool.or_eq_true, not_or] at h
    exact .inr ⟨rfl, by simpa using h.2⟩

/-- Without a sigil in front a name is not found. -/
theorem shows_writeName (x : String) : Shows Anywhere (writeName x) [] := by
  rcases writeName_cases x with ⟨bs, hx⟩ | ⟨hx, hall⟩
  · rw [hx]
    exact shows_quoteBytes bs
  · rw [hx]
    refine .of_plain (List.all_eq_true.mpr fun c hc => ?_)
    exact isPlain_of_isNameChar (List.all_eq_true.mp hall c hc)

theorem cut_writeName (x : String) {rest : List Char} (h : AtBreak rest) :
    nameFirst ((writeName x).toList ++ rest) = (writeName x).toList ∧
      afterName ((writeName x).toList ++ rest) = rest := by
  rcases writeName_cases x with ⟨bs, hx⟩ | ⟨hx, hall⟩
  · obtain ⟨body, hbody, htext⟩ := toList_quoteBytes bs
    rw [hx, htext, List.append_assoc, List.cons_append]
    show '"' :: (body ++ '"' :: rest).takeWhile (· != '"') ++
      ((body ++ '"' :: rest).dropWhile (· != '"')).take 1 = _ ∧
      afterQuote (body ++ '"' :: rest) = rest
    rw [afterQuote_quoted hbody, (cut_quoted hbody rest).1, (cut_quoted hbody rest).2]
    exact ⟨rfl, rfl⟩
  · have hname : ∀ c ∈ x.toList, (!isBreak c) = true := fun c hc => by
      rw [isBreak_of_isNameChar (List.all_eq_true.mp hall c hc)]
      rfl
    have hbreak : ∀ c ∈ rest.head?, (!isBreak c) = false := fun c hc => by
      rw [h c hc]
      rfl
    have hhead : ∀ cs, x.toList ++ rest ≠ '"' :: cs := by
      intro cs heq
      cases hchars : x.toList with
      | nil =>
        rw [hchars, List.nil_append] at heq
        exact absurd (h '"' (by simp [heq])) (by decide)
      | cons c cs' =>
        rw [hchars, List.cons_append] at heq
        cases heq
        exact absurd (List.all_eq_true.mp hall '"' (by simp [hchars])) (by decide)
    rw [hx, nameFirst.eq_2 _ hhead, afterName.eq_2 _ hhead]
    exact ⟨takeWhile_run hname hbreak, dropWhile_run hname hbreak⟩

/-- Whether a piece of text ends in a sigil and is plain otherwise. -/
def IsLead (piece : String) : Prop :=
  piece.toList.dropLast.all isPlain = true ∧ piece.toList.getLast?.any isSigil = true

theorem shows_name {lead : String} (hlead : IsLead lead) (x : String) :
    Shows AtBreak (lead ++ writeName x) [x] := by
  intro rest hrest
  obtain ⟨hplain, hsigil⟩ := hlead
  obtain ⟨c, hlast, hc⟩ : ∃ c, lead.toList.getLast? = some c ∧ isSigil c = true := by
    cases hlast : lead.toList.getLast? with
    | none =>
      rw [hlast] at hsigil
      cases hsigil
    | some c =>
      rw [hlast] at hsigil
      exact ⟨c, rfl, hsigil⟩
  rw [String.toList_append, ← List.dropLast_append_getLast? c hlast,
    List.append_assoc, List.append_assoc, namesIn_plain hplain]
  show namesIn (c :: ((writeName x).toList ++ rest)) =
    (writeName x).toList :: namesIn rest
  obtain ⟨hname, hafter⟩ := cut_writeName x hrest
  rw [namesIn_sigil hc, hname, hafter]

theorem Shows.name {a lead : String} {xs : List String} (ha : Shows Anywhere a xs)
    (hlead : IsLead lead) (x : String) :
    Shows AtBreak (a ++ lead ++ writeName x) (xs ++ [x]) := by
  rw [String.append_assoc]
  exact ha.next (shows_name hlead x)

/-- What has a name is not numbered. -/
theorem nameAt_eq_writeName {names : List String} {index : Nat}
    (h : "" ≠ names.getD index "") :
    nameAt names index = writeName (names.getD index "") :=
  if_neg h.symm

/-! ## Names that a module mentions -/

namespace Operand

/-- The name that an operand mentions. It is empty for what has only a number. -/
def mentions (names : Names) : Operand → List String
  | .int _ => []
  | .text index _ => [textName index]
  | .func index _ => [names.functions.getD index ""]
  | .param index _ => [names.params.getD index ""]
  | .result _ _ name _ => [name]

theorem shows_print (names : Names) (o : Operand) (h : "" ∉ o.mentions names) :
    Shows AtBreak (o.print names) (o.mentions names) := by
  cases o with
  | int n => exact .of_plain (isPlain_writeInt n)
  | text index size =>
    have harray : IsPlain ("[" ++ Decimal.ofNat size ++ " x i8]") :=
      (IsPlain.append (by rfl) (isPlain_ofNat size)).append (by rfl)
    have hfront : IsPlain ("getelementptr (" ++
        ("[" ++ Decimal.ofNat size ++ " x i8]") ++ ", " ++
        ("[" ++ Decimal.ofNat size ++ " x i8]")) :=
      ((IsPlain.append (by rfl) harray).append (by rfl)).append harray
    have hlead : IsLead "* @" := ⟨rfl, rfl⟩
    have hclosed :=
      ((Shows.of_plain hfront).name hlead (textName index)).close
        (b := ", i64 0, i64 0)") rfl rfl
    exact hclosed.anywhere
  | func index type =>
    rw [mentions, List.mem_singleton] at h
    show Shows AtBreak ("@" ++ nameAt names.functions index)
      [names.functions.getD index ""]
    rw [nameAt_eq_writeName h]
    exact shows_name ⟨rfl, rfl⟩ _
  | param index type =>
    rw [mentions, List.mem_singleton] at h
    show Shows AtBreak ("%" ++ nameAt names.params index) [names.params.getD index ""]
    rw [nameAt_eq_writeName h]
    exact shows_name ⟨rfl, rfl⟩ _
  | result block index name type => exact shows_name ⟨rfl, rfl⟩ name

theorem shows_typed (names : Names) (o : Operand) (h : "" ∉ o.mentions names) :
    Shows AtBreak (o.typed names) (o.mentions names) := by
  have htype : Shows Anywhere (o.type.text ++ " ") [] :=
    .of_plain ((isPlain_text o.type).append rfl)
  exact htype.next (o.shows_print names h)

theorem shows_arguments (names : Names) {os : List Operand}
    (h : "" ∉ os.flatMap (mentions names)) :
    Shows AtBreak (", ".intercalate (os.map (typed names)))
      (os.flatMap (mentions names)) := by
  have hargs : ∀ o ∈ os, Shows AtBreak (o.typed names) (o.mentions names) := fun o ho =>
    o.shows_typed names fun hempty => h (List.mem_flatMap.mpr ⟨o, ho, hempty⟩)
  rw [List.flatMap_def]
  apply Shows.intercalate isPlain_comma atBreak_comma
  rw [List.forall₂_map_left_iff, List.forall₂_map_right_iff, List.forall₂_same]
  exact hargs

end Operand

namespace Instr

/-- The names that an instruction mentions, first the one of what it makes. -/
def mentions (names : Names) : Instr → List String
  | .alloca name _ => [name]
  | .load name _ address => name :: address.mentions names
  | .store value address => value.mentions names ++ address.mentions names
  | .binary _ name left right => name :: (left.mentions names ++ right.mentions names)
  | .call name ret callee args =>
    (if ret = .void then [] else [name.getD ""]) ++
      names.functions.getD callee "" :: args.flatMap (Operand.mentions names)

theorem shows_call (names : Names) {dest : String} {xs : List String}
    (hdest : Shows Anywhere dest xs) (ret : Ty) {callee : Nat} {args : List Operand}
    (h : "" ∉ names.functions.getD callee "" :: args.flatMap (Operand.mentions names)) :
    Shows AtBreak
      (dest ++ "call " ++ ret.text ++ " @" ++ nameAt names.functions callee ++ "(" ++
        ", ".intercalate (args.map (Operand.typed names)) ++ ")")
      (xs ++ names.functions.getD callee "" :: args.flatMap
        (Operand.mentions names)) := by
  rw [List.mem_cons, not_or] at h
  have hlead : IsLead " @" := ⟨rfl, rfl⟩
  have hkeyword := (hdest.plain (b := "call ") rfl).plain (isPlain_text ret)
  have hopen :=
    (hkeyword.name hlead (names.functions.getD callee "")).close (b := "(") rfl rfl
  have hclosed :=
    (hopen.next (Operand.shows_arguments names h.2)).close (b := ")") rfl rfl
  rw [nameAt_eq_writeName h.1]
  rw [List.append_assoc] at hclosed
  exact hclosed.anywhere

theorem shows_print (names : Names) (number : Nat) (i : Instr)
    (h : "" ∉ i.mentions names) :
    Shows AtBreak (i.print names number) (i.mentions names) := by
  -- What an instruction makes is followed by an equals sign.
  have hdest (name : String) : Shows Anywhere ("%" ++ writeName name ++ " = ") [name] :=
    (shows_name ⟨rfl, rfl⟩ name).close rfl rfl
  have hcomma {a : String} {xs : List String} (ha : Shows AtBreak a xs) :
      Shows Anywhere (a ++ ", ") xs :=
    ha.close rfl rfl
  cases i with
  | alloca name type =>
    have hkeyword : Shows Anywhere ("%" ++ writeName name ++ " = alloca ") [name] :=
      (shows_name ⟨rfl, rfl⟩ name).close rfl rfl
    exact (hkeyword.plain (isPlain_text type)).anywhere
  | load name type address =>
    rw [mentions, List.mem_cons, not_or] at h
    have hkeyword : Shows Anywhere ("%" ++ writeName name ++ " = load ") [name] :=
      (shows_name ⟨rfl, rfl⟩ name).close rfl rfl
    exact ((hkeyword.plain (isPlain_text type)).plain (by rfl)).next
      (address.shows_typed names h.2)
  | store value address =>
    rw [mentions, List.mem_append, not_or] at h
    have hvalue : Shows AtBreak ("store " ++ value.typed names)
        (value.mentions names) :=
      (Shows.of_plain (by rfl)).next (value.shows_typed names h.1)
    exact (hcomma hvalue).next (address.shows_typed names h.2)
  | binary op name left right =>
    rw [mentions, List.mem_cons, List.mem_append, not_or, not_or] at h
    have hkeyword := ((hdest name).plain (isPlain_mnemonic op)).plain (b := " ") rfl
    exact (hcomma (hkeyword.next (left.shows_typed names h.2.1))).next
      (right.shows_print names h.2.2)
  | call name ret callee args =>
    rw [mentions, List.mem_append, not_or] at h
    rw [mentions]
    by_cases hvoid : ret = .void
    · rw [if_pos hvoid]
      show Shows AtBreak ((if ret = .void then "" else _) ++ _ ++ _ ++ _ ++ _ ++
        _ ++ _ ++ _) _
      rw [if_pos hvoid]
      exact shows_call names (.of_plain (by rfl)) ret h.2
    · rw [if_neg hvoid] at h ⊢
      show Shows AtBreak ((if ret = .void then "" else _) ++ _ ++ _ ++ _ ++ _ ++
        _ ++ _ ++ _) _
      rw [if_neg hvoid]
      cases name with
      | none => exact absurd List.mem_cons_self h.1
      | some name => exact shows_call names (hdest name) ret h.2

end Instr

theorem shows_printInstrs (names : Names) (number : Nat) (is : List Instr)
    (h : "" ∉ is.flatMap (Instr.mentions names)) :
    Shows Anywhere (String.join (printInstrs names number is).1)
      (is.flatMap (Instr.mentions names)) := by
  induction is generalizing number with
  | nil => exact .of_plain rfl
  | cons i is ih =>
    rw [List.flatMap_cons, List.mem_append, not_or] at h
    have hline : Shows Anywhere ("\t" ++ i.print names number ++ "\n")
        (i.mentions names) :=
      Shows.close ((Shows.of_plain (by rfl)).next (i.shows_print names number h.1))
        rfl rfl
    rw [printInstrs, String.join_cons, List.flatMap_cons]
    exact hline.next (ih _ h.2)

/-- The names that the end of a block mentions. -/
def Terminator.mentions (names : Names) : Terminator → List String
  | .retVoid => []
  | .ret value => value.mentions names

theorem Terminator.shows_print (names : Names) (t : Terminator)
    (h : "" ∉ t.mentions names) :
    Shows AtBreak (t.print names) (t.mentions names) := by
  cases t with
  | retVoid => exact .of_plain (show IsPlain "ret void" from rfl)
  | ret value => exact (Shows.of_plain (by rfl)).next (value.shows_typed names h)

/-- The names that a block mentions. -/
def Block.mentions (names : Names) (b : Block) : List String :=
  b.instrs.flatMap (Instr.mentions names) ++ b.terminator.toList.flatMap
    (Terminator.mentions names)

theorem Block.shows_print {names : Names} {number : Nat} {b : Block} {text : String}
    {next : Nat} (hprint : b.print names number = .ok (text, next))
    (h : "" ∉ b.mentions names) : Shows Anywhere text (b.mentions names) := by
  rw [Block.mentions, List.mem_append, not_or] at h
  have hlabel : Shows Anywhere (if b.label = "" then Decimal.ofNat number
      else writeName b.label) [] := by
    split
    · exact .of_plain (isPlain_ofNat number)
    · exact shows_writeName b.label
  rw [Block.print] at hprint
  dsimp only at hprint
  split at hprint
  next t ht =>
    cases hprint
    have hbody := (hlabel.plain (b := ":\n") rfl).next
      (shows_printInstrs names (if b.label = "" then number + 1 else number)
        b.instrs h.1)
    have hend : "" ∉ t.mentions names := by simpa [ht] using h.2
    have hclosed :=
      ((hbody.plain (b := "\t") rfl).next (t.shows_print names hend)).close
        (b := "\n") rfl rfl
    simpa [Block.mentions, ht] using hclosed
  · cases hprint

theorem shows_printBlocks {names : Names} {number : Nat} {bs : List Block}
    {texts : List String} (hprint : printBlocks names number bs = .ok texts)
    (h : "" ∉ bs.flatMap (Block.mentions names)) :
    List.Forall₂ (Shows Anywhere) texts (bs.map (Block.mentions names)) := by
  induction bs generalizing number texts with
  | nil =>
    cases hprint
    exact .nil
  | cons b bs ih =>
    rw [List.flatMap_cons, List.mem_append, not_or] at h
    obtain ⟨⟨text, next⟩, hblock, hrest⟩ := bind_eq_ok.mp hprint
    obtain ⟨texts', hblocks, hdone⟩ := bind_eq_ok.mp hrest
    cases hdone
    exact .cons (Block.shows_print hblock h.1) (ih hblocks h.2)

namespace Function

/-- The names that a function of a module with the given functions
mentions, its own first. -/
def mentions (functions : List String) (f : Function) : List String :=
  f.name :: (f.params.map (·.1) ++
    f.blocks.flatMap (Block.mentions { functions, params := f.params.map (·.1) }))

theorem shows_params {params : List (String × Ty)} (h : "" ∉ params.map (·.1)) :
    Shows AtBreak
      (", ".intercalate (params.mapIdx fun i p =>
        p.2.text ++ " %" ++ nameAt (params.map (·.1)) i))
      (params.map (·.1)) := by
  have hlead : IsLead " %" := ⟨rfl, rfl⟩
  have hpieces : List.Forall₂ (Shows AtBreak)
      (params.mapIdx fun i p => p.2.text ++ " %" ++ nameAt (params.map (·.1)) i)
      (params.map fun p => [p.1]) := by
    rw [List.forall₂_iff_get]
    refine ⟨by simp, fun i hi hi' => ?_⟩
    rw [List.length_map] at hi'
    have hget : (params.map (·.1)).getD i "" = params[i].1 := by simp [hi']
    have hname : "" ≠ (params.map (·.1)).getD i "" := by
      rw [hget]
      exact fun heq => h (heq ▸ List.mem_map_of_mem (List.getElem_mem hi'))
    have hwritten : nameAt (params.map (·.1)) i = writeName params[i].1 := by
      rw [nameAt_eq_writeName hname, hget]
    have hparam := (Shows.of_plain (isPlain_text params[i].2)).name hlead params[i].1
    simpa [hwritten] using hparam
  have hall := Shows.intercalate isPlain_comma atBreak_comma hpieces
  rwa [flatten_map_singleton] at hall

theorem shows_print {functions : List String} {index : Nat} {f : Function}
    {text : String} (hname : functions.getD index "" = f.name)
    (hprint : f.print functions index = .ok text) (h : "" ∉ f.mentions functions) :
    Shows Anywhere text (f.mentions functions) := by
  rw [mentions, List.mem_cons, List.mem_append, not_or, not_or] at h
  obtain ⟨hown, hparams, hblocks⟩ := h
  have hlead : IsLead " @" := ⟨rfl, rfl⟩
  have hsignature (keyword : String) (hkeyword : IsPlain keyword) : Shows Anywhere
      (keyword ++ (f.ret.text ++ " @" ++ nameAt functions index ++ "(" ++
        ", ".intercalate
        (f.params.mapIdx fun i p =>
          p.2.text ++ " %" ++ nameAt (f.params.map (·.1)) i) ++ ")"))
      (f.name :: f.params.map (·.1)) := by
    rw [nameAt_eq_writeName (hname.symm ▸ hown), hname]
    have hopen :=
      ((Shows.of_plain (isPlain_text f.ret)).name hlead f.name).close (b := "(") rfl rfl
    have hclosed := (hopen.next (shows_params hparams)).close (b := ")") rfl rfl
    exact (Shows.of_plain hkeyword).next hclosed
  rw [Function.print] at hprint
  dsimp only at hprint
  split at hprint
  next hempty =>
    cases hprint
    have hnone : f.blocks = [] := List.isEmpty_iff.mp hempty
    rw [mentions, hnone, List.flatMap_nil, List.append_nil]
    exact (hsignature "declare " rfl).plain rfl
  · obtain ⟨texts, htexts, hdone⟩ := bind_eq_ok.mp hprint
    cases hdone
    have hbody :=
      Shows.intercalate isPlain_newline (fun _ => trivial)
        (shows_printBlocks htexts hblocks)
    have hopen := (hsignature "define " rfl).plain (b := " \x7b\n") rfl
    rw [mentions, List.flatMap_def]
    exact (hopen.next hbody).plain rfl

end Function

theorem shows_printFunctions {functions : List String} {index : Nat}
    {fs : List Function} {texts : List String}
    (hnames : ∀ k f, fs[k]? = some f → functions.getD (index + k) "" = f.name)
    (hprint : printFunctions functions index fs = .ok texts)
    (h : "" ∉ fs.flatMap (Function.mentions functions)) :
    List.Forall₂ (Shows Anywhere) texts (fs.map (Function.mentions functions)) := by
  induction fs generalizing index texts with
  | nil =>
    cases hprint
    exact .nil
  | cons f fs ih =>
    rw [List.flatMap_cons, List.mem_append, not_or] at h
    obtain ⟨text, hfunction, hrest⟩ := bind_eq_ok.mp hprint
    obtain ⟨texts', hfunctions, hdone⟩ := bind_eq_ok.mp hrest
    cases hdone
    refine .cons (Function.shows_print (hnames 0 f rfl) hfunction h.1)
      (ih (fun k g hg => ?_) hfunctions h.2)
    have hk := hnames (k + 1) g hg
    rwa [show index + (k + 1) = index + 1 + k by omega] at hk

theorem shows_printText (index : Nat) (data : List UInt8) :
    Shows Anywhere (printText index data) [textName index] := by
  have hlead : IsLead "@" := ⟨rfl, rfl⟩
  have hopen :=
    (shows_name hlead (textName index)).close
      (b := " = private unnamed_addr constant [") rfl rfl
  have hsize := (hopen.plain (isPlain_ofNat data.length)).plain (b := " x i8] c") rfl
  exact (hsize.next (shows_quoteBytes data)).plain rfl

theorem shows_texts (texts : List (List UInt8)) :
    Shows Anywhere (String.join (texts.mapIdx printText))
      ((List.range texts.length).map textName) := by
  rw [← flatten_map_singleton]
  refine .join (List.forall₂_iff_get.mpr ⟨by simp, fun i hi hi' => ?_⟩)
  simpa using shows_printText i _

namespace Module

/-- The names that a module mentions, in the order of its text. -/
def mentions (m : Module) : List String :=
  (List.range m.texts.length).map textName ++
    m.functions.flatMap (Function.mentions (m.functions.map (·.name)))

/-- The names that are found in the text of a module are those that it mentions,
if nothing in it goes by number. -/
theorem namesIn_print {m : Module} {text : String} (hprint : m.print = .ok text)
    (h : "" ∉ m.mentions) :
    namesIn text.toList = m.mentions.map fun x => (writeName x).toList := by
  obtain ⟨functions, hfunctions, hdone⟩ := bind_eq_ok.mp hprint
  have hnames (k : Nat) (f : Function) (hf : m.functions[k]? = some f) :
      (m.functions.map (·.name)).getD (0 + k) "" = f.name := by
    simp [hf]
  rw [mentions, List.mem_append, not_or] at h
  have hfuncs :=
    Shows.intercalate isPlain_newline (fun _ => trivial)
      (shows_printFunctions hnames hfunctions h.2)
  have hsource : Shows Anywhere (if m.name = "" then ""
      else "source_filename = " ++ quote m.name ++ "\n") [] := by
    split
    · exact .of_plain rfl
    · exact ((Shows.of_plain (by rfl)).next (shows_quoteBytes _)).plain rfl
  obtain ⟨names, hparts, hflatten⟩ :=
    Shows.filter (.cons hsource (.cons (shows_texts m.texts) (.cons hfuncs .nil)))
  have htext := Shows.intercalate isPlain_newline (fun _ => trivial) hparts
  cases hdone
  have hnone := htext [] trivial
  rw [List.append_nil, hflatten] at hnone
  simpa [mentions, namesIn, List.flatMap_def] using hnone

end Module

end Straightline.Target
