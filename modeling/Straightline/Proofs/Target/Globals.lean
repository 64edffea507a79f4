import Mathlib
import Straightline.Proofs.Target.Spelling

/-!
# String constants in a target text

A string constant of a module has a line of its own in the target text, and
it is the only thing whose line starts with the sigil of a global
(`globalsIn`). The line gives the name, the number of bytes and the bytes in
quotes, where a backslash with two hexadecimal digits stands for any byte
(`unescape`). What `globalsIn` finds in the text of a module are the lines of
its string constants, in order (`Module.globalsIn_print`), and each can be
read back (`defines_textLine`).
-/

namespace Straightline.Target

open Code (Ty textName)

/-! ## Reading bytes -/

/-- The number that a hexadecimal digit stands for. -/
def hexValue? (c : Char) : Option Nat :=
  if Decimal.isDigit c then some (c.toNat - 0x30)
  else if 0x41 ≤ c.toNat ∧ c.toNat ≤ 0x46 then some (c.toNat - 0x37)
  else if 0x61 ≤ c.toNat ∧ c.toNat ≤ 0x66 then some (c.toNat - 0x57)
  else none

/-- The bytes that a text inside quotes stands for. -/
def unescape : List Char → Option (List UInt8)
  | [] => some []
  | '\\' :: c :: d :: cs =>
    (hexValue? c).bind fun high => (hexValue? d).bind fun low =>
      (unescape cs).map (UInt8.ofNat (16 * high + low) :: ·)
  | c :: cs =>
    if isPrintable c then (unescape cs).map (UInt8.ofNat c.toNat :: ·) else none

theorem hexValue?_upperDigit {n : Nat} (h : n < 16) :
    hexValue? (Hex.upperDigit n) = some n := by
  revert n
  decide

/-- A byte that is written as it is can be read off its character. -/
theorem ofNat_toNat_of_isPlainByte {b : UInt8} (h : isPlainByte b = true) :
    isPrintable (Char.ofNat b.toNat) = true ∧
      UInt8.ofNat (Char.ofNat b.toNat).toNat = b := by
  have hbytes : ∀ n < 256, isPlainByte (UInt8.ofNat n) = true →
      isPrintable (Char.ofNat n) = true ∧
      UInt8.ofNat (Char.ofNat n).toNat = UInt8.ofNat n := by
    decide +kernel
  simpa [h] using hbytes b.toNat b.toNat_lt

theorem unescape_escapeByte (b : UInt8) (cs : List Char) :
    unescape (escapeByte b ++ cs) = (unescape cs).map (b :: ·) := by
  rw [escapeByte]
  split
  next h =>
    obtain ⟨hprintable, hbyte⟩ := ofNat_toNat_of_isPlainByte h
    rw [List.singleton_append, unescape, if_pos hprintable, hbyte]
    rintro - - - heq -
    rw [heq] at hprintable
    cases hprintable
  · have hdigits : Hex.upper 2 b.toNat =
      [Hex.upperDigit (b.toNat / 16 % 16), Hex.upperDigit (b.toNat % 16)] := rfl
    have hlt := b.toNat_lt
    have hbyte : 16 * (b.toNat / 16 % 16) + b.toNat % 16 = b.toNat := by omega
    rw [hdigits]
    show (hexValue? _).bind (fun high => (hexValue? _).bind fun low =>
      (unescape cs).map (UInt8.ofNat (16 * high + low) :: ·)) = _
    rw [hexValue?_upperDigit (Nat.mod_lt _ (by decide)),
      hexValue?_upperDigit (Nat.mod_lt _ (by decide)), Option.bind_some,
      Option.bind_some, hbyte, UInt8.ofNat_toNat]

/-- Bytes that are written inside quotes can be read back. -/
theorem unescape_flatMap (bs : List UInt8) :
    unescape (bs.flatMap escapeByte) = some bs := by
  induction bs with
  | nil => rfl
  | cons b bs ih => rw [List.flatMap_cons, unescape_escapeByte, ih, Option.map_some]

/-! ## Lines that define constants -/

/-- The lines of a text that start with the sigil of a global. -/
def globalsIn (cs : List Char) : List (List Char) :=
  (cs.splitOnP (· == '\n')).filter (·.head? == some '@')

/-- Whether a line defines the constant `name` as an array of bytes: it gives
their number, and its quotes hold them. -/
def Defines (line : List Char) (name : String) (bytes : List UInt8) : Prop :=
  ∃ body, line = ("@" ++ name ++ " = private unnamed_addr constant [" ++
    Decimal.ofNat bytes.length ++
    " x i8] c\"").toList ++ body ++ ['"'] ∧ unescape body = some bytes

/-- The line of the `index`-th string constant, without its end. -/
def textLine (index : Nat) (data : List UInt8) : String :=
  "@" ++ writeName (textName index) ++ " = private unnamed_addr constant [" ++
    Decimal.ofNat data.length ++ " x i8] c" ++ quoteBytes data

theorem all_isNameChar_digits (n : Nat) : (Decimal.digits n).all isNameChar = true :=
  List.all_eq_true.mpr fun c hc => by
    simp [isNameChar, Decimal.isDigit_of_mem_digits hc]

theorem writeName_textName (index : Nat) :
    writeName (textName index) = textName index := by
  have hchars : (textName index).toList.all isNameChar = true := by
    rw [toList_textName]
    exact all_isNameChar_digits index
  rw [writeName, isNumeral_of_isName (isName_textName index), hchars]
  rfl

/-- The line of a string constant says how many bytes it has and which. -/
theorem defines_textLine (index : Nat) (data : List UInt8) :
    Defines (textLine index data).toList (textName index) data := by
  refine ⟨data.flatMap escapeByte, ?_, unescape_flatMap data⟩
  rw [textLine, writeName_textName, quoteBytes]
  simp

/-! ## Pieces without an end of line -/

/-- Whether no line ends in a piece of text. -/
def IsLine (piece : String) : Prop := piece.toList.all (· != '\n') = true

instance (piece : String) : Decidable (IsLine piece) :=
  inferInstanceAs (Decidable (piece.toList.all (· != '\n') = true))

@[simp] theorem isLine_append {a b : String} :
    IsLine (a ++ b) ↔ IsLine a ∧ IsLine b := by
  rw [IsLine, String.toList_append, List.all_append, Bool.and_eq_true]
  rfl

theorem isLine_intercalate {pieces : List String} (h : ∀ p ∈ pieces, IsLine p) :
    IsLine (", ".intercalate pieces) := by
  induction pieces with
  | nil => rfl
  | cons p pieces ih =>
    obtain ⟨hp, hpieces⟩ := List.forall_mem_cons.mp h
    cases pieces with
    | nil => rwa [String.intercalate_singleton]
    | cons =>
      rw [String.intercalate_cons_cons, isLine_append, isLine_append]
      exact ⟨⟨hp, rfl⟩, ih hpieces⟩

theorem isLine_of_isNameChar {piece : String}
    (h : piece.toList.all isNameChar = true) : IsLine piece := by
  refine List.all_eq_true.mpr fun c hc => bne_iff_ne.mpr ?_
  rintro rfl
  cases List.all_eq_true.mp h '\n' hc

@[simp] theorem isLine_ofNat (n : Nat) : IsLine (Decimal.ofNat n) := by
  refine isLine_of_isNameChar ?_
  rw [Decimal.ofNat, String.toList_ofList]
  exact all_isNameChar_digits n

theorem isNameChar_upperDigit {n : Nat} (h : n < 16) :
    isNameChar (Hex.upperDigit n) = true := by
  revert n
  decide

theorem all_isNameChar_hexDigits (n : Nat) : (hexDigits n).all isNameChar = true := by
  induction n using hexDigits.induct with
  | case1 n h =>
    rw [hexDigits, if_pos h]
    simp [isNameChar_upperDigit h]
  | case2 n h ih =>
    rw [hexDigits, if_neg h]
    simp [ih, isNameChar_upperDigit (Nat.mod_lt n (by decide : 16 > 0))]

@[simp] theorem isLine_writeInt (n : Int32) : IsLine (writeInt n) := by
  rw [writeInt]
  split
  · refine isLine_append.mpr ⟨rfl, isLine_of_isNameChar ?_⟩
    rw [String.toList_ofList]
    exact all_isNameChar_hexDigits _
  · rw [Decimal.ofInt32]
    cases n.toInt with
    | ofNat k => exact isLine_ofNat k
    | negSucc k => exact isLine_append.mpr ⟨rfl, isLine_ofNat (k + 1)⟩

mutual

@[simp] theorem isLine_text : (t : Ty) → IsLine t.text
  | .absent | .void | .i8 | .i32 | .unknown _ => by rw [Ty.text]; rfl
  | .ptr elem => by simp +decide [Ty.text, isLine_text elem]
  | .func ret params => by
    simp +decide [Ty.text, isLine_text ret, isLine_intercalate (isLine_texts params)]

theorem isLine_texts : (ts : List Ty) → ∀ p ∈ Ty.texts ts, IsLine p
  | [] => by simp [Ty.texts]
  | t :: ts => by
    rw [Ty.texts]
    exact List.forall_mem_cons.mpr ⟨isLine_text t, isLine_texts ts⟩

end

@[simp] theorem isLine_quoteBytes (bs : List UInt8) : IsLine (quoteBytes bs) := by
  have hbyte (b : UInt8) : (escapeByte b).all (· != '\n') = true := by
    rcases escapeByte_cases b with ⟨c, hc, hb⟩ | ⟨c, d, hc, hd, hb⟩
    · rw [hb, List.all_cons, List.all_nil, Bool.and_true, bne_iff_ne]
      rintro rfl
      cases hc
    · have hdigit {c : Char} (h : isHexDigit c = true) : (c != '\n') = true := by
        rw [bne_iff_ne]
        rintro rfl
        cases h
      simp [hb, hdigit hc, hdigit hd]
  rw [IsLine, quoteBytes, String.toList_ofList]
  simp only [List.cons_append, List.all_cons, List.all_append, List.all_flatMap, hbyte]
  simp

@[simp] theorem isLine_writeName (x : String) : IsLine (writeName x) := by
  rcases writeName_cases x with ⟨bs, hx⟩ | ⟨hx, hall⟩
  · rw [hx]
    exact isLine_quoteBytes bs
  · rw [hx]
    exact isLine_of_isNameChar hall

@[simp] theorem isLine_nameAt (names : List String) (index : Nat) :
    IsLine (nameAt names index) := by
  rw [nameAt]
  split
  · exact isLine_ofNat _
  · exact isLine_writeName _

@[simp] theorem Operand.isLine_print (names : Names) (o : Operand) :
    IsLine (o.print names) := by
  cases o with
  | int => exact isLine_writeInt _
  | text index size =>
    have harray : IsLine ("[" ++ Decimal.ofNat size ++ " x i8]") := by simp +decide
    show IsLine ("getelementptr (" ++ ("[" ++ Decimal.ofNat size ++ " x i8]") ++ ", " ++
      ("[" ++ Decimal.ofNat size ++ " x i8]") ++ "* @" ++
        writeName (textName index) ++ ", i64 0, i64 0)")
    simp +decide only [isLine_append, harray, isLine_writeName]
  | func => exact isLine_append.mpr ⟨rfl, isLine_nameAt _ _⟩
  | param => exact isLine_append.mpr ⟨rfl, isLine_nameAt _ _⟩
  | result => exact isLine_append.mpr ⟨rfl, isLine_writeName _⟩

@[simp] theorem Operand.isLine_typed (names : Names) (o : Operand) :
    IsLine (o.typed names) := by
  simp +decide [Operand.typed]

theorem isLine_arguments (names : Names) (args : List Operand) :
    IsLine (", ".intercalate (args.map (Operand.typed names))) :=
  isLine_intercalate (List.forall_mem_map.mpr fun o _ => o.isLine_typed names)

@[simp] theorem isLine_mnemonic (op : Operator) : IsLine op.mnemonic := by
  cases op <;> rfl

@[simp] theorem Instr.isLine_print (names : Names) (number : Nat) (i : Instr) :
    IsLine (i.print names number) := by
  cases i with
  | alloca => simp +decide [Instr.print]
  | load => simp +decide [Instr.print]
  | store => simp +decide [Instr.print]
  | binary => simp +decide [Instr.print]
  | call name ret callee args =>
    simp +decide only [Instr.print, isLine_append, isLine_text, isLine_nameAt,
      isLine_arguments]
    split
    · decide
    · cases name <;> simp +decide

@[simp] theorem Terminator.isLine_print (names : Names) (t : Terminator) :
    IsLine (t.print names) := by
  cases t <;> simp +decide [Terminator.print]

/-! ## What the pieces of a text list -/

/-- In front of any text, just the lines `found` are found in a piece. -/
def Lists (piece : String) (found : List (List Char)) : Prop :=
  ∀ rest, globalsIn (piece.toList ++ rest) = found ++ globalsIn rest

theorem globalsIn_line {line : List Char} (h : line.all (· != '\n') = true)
    (rest : List Char) :
    globalsIn (line ++ '\n' :: rest) =
      [line].filter (·.head? == some '@') ++ globalsIn rest := by
  have hline : ∀ c ∈ line, (c == '\n') = false := fun c hc => by
    simpa using List.all_eq_true.mp h c hc
  rw [globalsIn, List.splitOnP_append_cons_of_forall_mem (by simpa using hline) '\n'
    (by rfl), globalsIn, ← List.singleton_append, List.filter_append]

namespace Lists

variable {a b : String} {xs ys : List (List Char)}

theorem empty : Lists "" [] := fun _ => rfl

theorem append (ha : Lists a xs) (hb : Lists b ys) : Lists (a ++ b) (xs ++ ys) := by
  intro rest
  rw [String.toList_append, List.append_assoc, ha, hb, List.append_assoc]

theorem globalsIn_eq (h : Lists a xs) : globalsIn a.toList = xs := by
  have hrest := h []
  rwa [List.append_nil, show globalsIn [] = [] from rfl, List.append_nil] at hrest

theorem line (h : IsLine a) :
    Lists (a ++ "\n") ([a.toList].filter (·.head? == some '@')) := by
  intro rest
  rw [String.toList_append, List.append_assoc]
  exact globalsIn_line h rest

/-- A line that does not start with the sigil of a global. -/
theorem other (h : IsLine a) (hhead : a.toList.head? ≠ some '@') :
    Lists (a ++ "\n") [] := by
  have hline := line h
  rwa [List.filter_cons_of_neg (by simpa using hhead)] at hline

theorem join {α : Type} {as : List α} {piece : α → String}
    {found : α → List (List Char)} (h : ∀ x ∈ as, Lists (piece x) (found x)) :
    Lists (String.join (as.map piece)) (as.flatMap found) := by
  induction as with
  | nil => exact empty
  | cons x as ih =>
    obtain ⟨hx, has⟩ := List.forall_mem_cons.mp h
    rw [List.map_cons, String.join_cons, List.flatMap_cons]
    exact hx.append (ih has)

/-- Pieces that are divided by empty lines. -/
theorem intercalate {pieces : List String} {found : String → List (List Char)}
    (h : ∀ p ∈ pieces, Lists p (found p)) :
    Lists ("\n".intercalate pieces) (pieces.flatMap found) := by
  induction pieces with
  | nil => exact empty
  | cons p pieces ih =>
    obtain ⟨hp, hpieces⟩ := List.forall_mem_cons.mp h
    cases pieces with
    | nil => simpa using hp
    | cons =>
      have hblank : Lists "\n" [] := other (a := "") rfl (by decide)
      rw [String.intercalate_cons_cons, List.flatMap_cons]
      simpa using (hp.append hblank).append (ih hpieces)

theorem flatMap_filter_nonempty (pieces : List String) :
    (pieces.filter (· ≠ "")).flatMap (fun p => globalsIn p.toList) =
      pieces.flatMap fun p => globalsIn p.toList := by
  induction pieces with
  | nil => rfl
  | cons p pieces ih =>
    by_cases hempty : p = ""
    · rw [List.filter_cons_of_neg (by simpa using hempty), ih,
        List.flatMap_cons, hempty]
      rfl
    · rw [List.filter_cons_of_pos (by simpa using hempty), List.flatMap_cons,
        List.flatMap_cons, ih]

/-- Empty pieces list nothing and can be left out. -/
theorem intercalate_filter {pieces : List String}
    (h : ∀ p ∈ pieces, ∃ xs, Lists p xs) :
    Lists ("\n".intercalate (pieces.filter (· ≠ "")))
      (pieces.flatMap fun p => globalsIn p.toList) := by
  have hself : ∀ p ∈ pieces.filter (· ≠ ""),
      Lists p (globalsIn p.toList) := fun p hp => by
    obtain ⟨xs, hxs⟩ := h p (List.mem_of_mem_filter hp)
    rwa [hxs.globalsIn_eq]
  rw [← flatMap_filter_nonempty]
  exact intercalate hself

theorem intercalate_none {pieces : List String} (h : ∀ p ∈ pieces, Lists p []) :
    Lists ("\n".intercalate pieces) [] := by
  have hpieces := intercalate h
  rwa [List.flatMap_eq_nil_iff.mpr fun _ _ => rfl] at hpieces

end Lists

/-! ## Functions list nothing -/

theorem head?_ne_of_isNameChar {cs : List Char} (h : cs.all isNameChar = true) :
    cs.head? ≠ some '@' := by
  intro hhead
  cases List.all_eq_true.mp h '@' (List.mem_of_head? hhead)

theorem head?_label (b : Block) (number : Nat) :
    (if b.label = "" then Decimal.ofNat number
      else writeName b.label).toList.head? ≠ some '@' := by
  split
  · rw [Decimal.ofNat, String.toList_ofList]
    exact head?_ne_of_isNameChar (all_isNameChar_digits number)
  · rcases writeName_cases b.label with ⟨bs, hlabel⟩ | ⟨hlabel, hall⟩
    · rw [hlabel, quoteBytes, String.toList_ofList]
      simp
    · rw [hlabel]
      exact head?_ne_of_isNameChar hall

theorem lists_label (b : Block) (number : Nat) :
    Lists ((if b.label = "" then Decimal.ofNat number else writeName b.label) ++
      ":\n") [] := by
  have hline : IsLine (if b.label = "" then Decimal.ofNat number
      else writeName b.label) := by
    split <;> simp
  have hhead := head?_label b number
  rw [show ":\n" = ":" ++ "\n" from rfl, ← String.append_assoc]
  refine .other (isLine_append.mpr ⟨hline, rfl⟩) ?_
  rw [String.toList_append, List.head?_append]
  cases hfirst : (if b.label = "" then Decimal.ofNat number
    else writeName b.label).toList.head? with
  | none => decide
  | some c => rwa [hfirst] at hhead

theorem lists_printInstrs (names : Names) (number : Nat) (is : List Instr) :
    Lists (String.join (printInstrs names number is).1) [] := by
  induction is generalizing number with
  | nil => exact .empty
  | cons i is ih =>
    have hline : Lists ("\t" ++ i.print names number ++ "\n") [] :=
      .other (isLine_append.mpr ⟨rfl, i.isLine_print names number⟩) (by simp)
    rw [printInstrs, String.join_cons]
    exact hline.append (ih _)

theorem Block.lists_print {names : Names} {number : Nat} {b : Block} {text : String}
    {next : Nat} (h : b.print names number = .ok (text, next)) : Lists text [] := by
  rw [Block.print] at h
  dsimp only at h
  split at h
  next t ht =>
    cases h
    have hend : Lists ("\t" ++ t.print names ++ "\n") [] :=
      .other (isLine_append.mpr ⟨rfl, t.isLine_print names⟩) (by simp)
    have hbody := (lists_label b number).append
      (lists_printInstrs names (if b.label = "" then number + 1 else number) b.instrs)
    simpa [String.append_assoc] using hbody.append hend
  · cases h

theorem lists_printBlocks {names : Names} {number : Nat} {bs : List Block}
    {texts : List String} (h : printBlocks names number bs = .ok texts) :
    ∀ text ∈ texts, Lists text [] := by
  induction bs generalizing number texts with
  | nil =>
    cases h
    simp
  | cons b bs ih =>
    obtain ⟨⟨text, next⟩, hblock, hrest⟩ := bind_eq_ok.mp h
    obtain ⟨texts', hblocks, hdone⟩ := bind_eq_ok.mp hrest
    cases hdone
    exact List.forall_mem_cons.mpr ⟨Block.lists_print hblock, ih hblocks⟩

theorem Function.lists_print {functions : List String} {index : Nat} {f : Function}
    {text : String} (h : f.print functions index = .ok text) : Lists text [] := by
  have hparams : IsLine (", ".intercalate
      (f.params.mapIdx fun i p =>
        p.2.text ++ " %" ++ nameAt (f.params.map (·.1)) i)) := by
    refine isLine_intercalate fun p hp => ?_
    obtain ⟨i, hi, rfl⟩ := List.mem_mapIdx.mp hp
    simp +decide
  rw [Function.print] at h
  dsimp only at h
  generalize hsignature : f.ret.text ++ " @" ++ nameAt functions index ++ "(" ++
    ", ".intercalate
    (f.params.mapIdx fun i p =>
      p.2.text ++ " %" ++ nameAt (f.params.map (·.1)) i) ++ ")" = signature at h
  have hline : IsLine signature := by
    rw [← hsignature]
    simp +decide only [isLine_append, isLine_text, isLine_nameAt, hparams]
  split at h
  · cases h
    exact .other (isLine_append.mpr ⟨rfl, hline⟩) (by simp)
  · obtain ⟨texts, htexts, hdone⟩ := bind_eq_ok.mp h
    cases hdone
    have hopen : Lists ("define " ++ signature ++ " \x7b" ++ "\n") [] :=
      .other (isLine_append.mpr ⟨isLine_append.mpr ⟨rfl, hline⟩, rfl⟩) (by simp)
    have hclose : Lists ("\x7d" ++ "\n") [] := .other rfl (by decide)
    have hbody :=
      (hopen.append (Lists.intercalate_none (lists_printBlocks htexts))).append hclose
    simpa [String.append_assoc] using hbody

theorem lists_printFunctions {functions : List String} {index : Nat}
    {fs : List Function} {texts : List String}
    (h : printFunctions functions index fs = .ok texts) :
    ∀ text ∈ texts, Lists text [] := by
  induction fs generalizing index texts with
  | nil =>
    cases h
    simp
  | cons f fs ih =>
    obtain ⟨text, hfunction, hrest⟩ := bind_eq_ok.mp h
    obtain ⟨texts', hfunctions, hdone⟩ := bind_eq_ok.mp hrest
    cases hdone
    exact List.forall_mem_cons.mpr ⟨Function.lists_print hfunction, ih hfunctions⟩

/-! ## The constants of a module -/

theorem lists_printText (index : Nat) (data : List UInt8) :
    Lists (printText index data) [(textLine index data).toList] := by
  have hline : IsLine (textLine index data) := by
    simp +decide only [textLine, isLine_append, isLine_writeName, isLine_ofNat,
      isLine_quoteBytes]
  have hlists := Lists.line hline
  rwa [List.filter_cons_of_pos (by simp [textLine])] at hlists

theorem lists_texts (texts : List (List UInt8)) :
    Lists (String.join (texts.mapIdx printText))
      (texts.mapIdx fun index data => (textLine index data).toList) := by
  have hjoin := Lists.join fun (p : List UInt8 × Nat) (_ : p ∈ texts.zipIdx) =>
    lists_printText p.2 p.1
  rw [← List.map_eq_flatMap] at hjoin
  simpa only [List.mapIdx_eq_zipIdx_map] using hjoin

/-- The lines that are found in the text of a module are those of
its string constants. -/
theorem Module.globalsIn_print {m : Module} {text : String}
    (h : m.print = .ok text) :
    globalsIn text.toList = m.texts.mapIdx fun index data =>
      (textLine index data).toList := by
  obtain ⟨functions, hfunctions, hdone⟩ := bind_eq_ok.mp h
  have hfuncs := Lists.intercalate_none (lists_printFunctions hfunctions)
  have htexts := lists_texts m.texts
  have hsource : Lists (if m.name = "" then ""
      else "source_filename = " ++ quote m.name ++ "\n") [] := by
    split
    · exact .empty
    · exact .other (isLine_append.mpr ⟨rfl, isLine_quoteBytes _⟩) (by simp)
  have hparts :
      ∀ p ∈ [if m.name = "" then "" else "source_filename = " ++ quote m.name ++ "\n",
      String.join (m.texts.mapIdx printText), "\n".intercalate functions], ∃ xs,
      Lists p xs :=
    List.forall_mem_cons.mpr ⟨⟨_, hsource⟩, List.forall_mem_cons.mpr ⟨⟨_, htexts⟩,
      List.forall_mem_singleton.mpr ⟨_, hfuncs⟩⟩⟩
  cases hdone
  rw [(Lists.intercalate_filter hparts).globalsIn_eq, List.flatMap_cons,
    List.flatMap_cons, List.flatMap_singleton, hsource.globalsIn_eq,
    htexts.globalsIn_eq, hfuncs.globalsIn_eq, List.nil_append, List.append_nil]

end Straightline.Target
