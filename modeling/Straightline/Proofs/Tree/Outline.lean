import Mathlib
import Straightline.Proofs.Text.Codes
import Straightline.Proofs.Tree.Names

/-!
# The outline of a tree tells the tree

An outline is a list of lines, each with a depth. Three things make it possible
to read it back. A line tells where it ends, how deep it stands and what it
says, as long as names are words (`isCode_chars`). An expression tells where it
ends, since an operation has two sides (`isCode_expr`). And what belongs to a
statement or to a declaration stands deeper than the next one (`isCode_nested`).

Names in a tree that was read from a text are words, so two texts have the same
outline just if they have the same tree, positions apart
(`outline_eq_iff_unplaced_eq`).
-/

namespace Straightline

/-! ## Lines -/

/-- What a line of an outline says. -/
inductive Row where
  | int (value : Int32)
  | text (value : String)
  | ident (name : String)
  | binary (op : OpCode)
  | decl (name : String) (type : Option DataType)
  | assign (name : String)
  | call (name : String)
  | ret
  | func (name : String) (params : List (String × Option DataType))
  | external (name : String) (params : List (String × Option DataType))

/-- A name with its type, as it is declared. -/
def declarationText (v : String × Option DataType) : String :=
  v.1 ++ ": " ++ declaredType v.2

namespace Row

/-- The word that a line starts with. -/
def word : Row → String
  | .int _ => "int"
  | .text _ => "string"
  | .ident _ => "ident"
  | .binary _ => "binary"
  | .decl _ _ => "decl"
  | .assign _ => "assign"
  | .call _ => "call"
  | .ret => "return"
  | .func _ _ => "func"
  | .external _ _ => "extern"

/-- What a line says behind its first word. -/
def details : Row → String
  | .int value => " " ++ Decimal.ofInt32 value
  | .text value => " " ++ Quoted.ofString value
  | .ident name => " " ++ name
  | .binary op => " " ++ op.sign
  | .decl name type => " " ++ declarationText (name, type)
  | .assign name => " " ++ name
  | .call name => " " ++ name
  | .ret => ""
  | .func name params =>
    " " ++ name ++ "(" ++ ", ".intercalate (params.map declarationText) ++ ")"
  | .external name params =>
    " " ++ name ++ "(" ++ ", ".intercalate (params.map declarationText) ++ ") void"

/-- The characters of a line at a depth. -/
def chars (l : Nat × Row) : List Char :=
  List.replicate (2 * l.1) ' ' ++ (l.2.word.toList ++ l.2.details.toList ++ ['\n'])

/-- Whether a line says nothing but words and operators where
names and signs should be. -/
def IsReadable : Row → Prop
  | .ident x | .decl x _ | .assign x | .call x => IsWord x
  | .binary op => ∃ o, op = .arith o
  | .func x params | .external x params => IsWord x ∧ ∀ v ∈ params, IsWord v.1
  | .int _ | .text _ | .ret => True

end Row

/-! ## Outlines as lists of lines -/

/-- The lines of an expression. -/
def Expr.lines (depth : Nat) : Expr → List (Nat × Row)
  | .int _ value => [(depth, .int value)]
  | .text _ value => [(depth, .text value)]
  | .ident _ name => [(depth, .ident name)]
  | .binary op _ left right =>
    (depth, .binary op) :: (left.lines (depth + 1) ++ right.lines (depth + 1))
  | .hole => []

/-- The first line of a statement. -/
def Stmt.heading : Stmt → Row
  | .decl _ name type => .decl name type
  | .assign _ name _ => .assign name
  | .call _ name _ => .call name
  | .ret _ _ => .ret

/-- The lines of a statement. -/
def Stmt.lines (depth : Nat) (s : Stmt) : List (Nat × Row) :=
  (depth, s.heading) :: s.exprs.flatMap (Expr.lines (depth + 1))

/-- The name and type of a variable. -/
def Variable.named (v : Variable) : String × Option DataType := (v.name, v.type)

/-- The first line of a declaration. -/
def Global.heading : Global → Row
  | .func _ name params _ => .func name (params.map Variable.named)
  | .external _ name params => .external name (params.map Variable.named)

/-- The lines of a declaration. -/
def Global.lines (g : Global) : List (Nat × Row) :=
  (0, g.heading) :: g.body.flatMap (Stmt.lines 1)

theorem toList_outlineLine (depth : Nat) (s : String) :
    (outlineLine depth s).toList =
      List.replicate (2 * depth) ' ' ++ (s.toList ++ ['\n']) := by
  simp [outlineLine]

theorem Expr.toList_outline (depth : Nat) (e : Expr) :
    (e.outline depth).toList = (e.lines depth).flatMap Row.chars := by
  induction e generalizing depth with
  | binary op pos left right ihl ihr =>
    simp [outline, lines, toList_outlineLine, Row.chars, Row.word,
      Row.details, ihl, ihr]
  | hole => rfl
  | _ => simp [outline, lines, toList_outlineLine, Row.chars, Row.word, Row.details]

theorem toList_outlineExprs (depth : Nat) (es : List Expr) :
    (outlineExprs depth es).toList =
      (es.flatMap (Expr.lines depth)).flatMap Row.chars := by
  rw [outlineExprs, String.toList_join, List.flatMap_map, List.flatMap_assoc]
  exact congrArg (List.flatMap · es) (funext (Expr.toList_outline depth))

theorem Stmt.toList_outline (depth : Nat) (s : Stmt) :
    (s.outline depth).toList = (s.lines depth).flatMap Row.chars := by
  cases s <;>
    simp [outline, lines, heading, exprs, toList_outlineLine, toList_outlineExprs,
      Row.chars, Row.word, Row.details, declarationText]

theorem outlineParams_eq (ps : List Variable) :
    outlineParams ps = ", ".intercalate
      ((ps.map Variable.named).map declarationText) := by
  rw [outlineParams, List.map_map]
  rfl

theorem Global.toList_outline (g : Global) :
    g.outline.toList = g.lines.flatMap Row.chars := by
  have hbody (body : List Stmt) : (String.join (body.map (Stmt.outline 1))).toList =
      (body.flatMap (Stmt.lines 1)).flatMap Row.chars := by
    rw [String.toList_join, List.flatMap_map, List.flatMap_assoc]
    exact congrArg (List.flatMap · body) (funext (Stmt.toList_outline 1))
  cases g with
  | func pos name params body =>
    simp [outline, lines, heading, Global.body, toList_outlineLine, hbody,
      outlineParams_eq, Row.chars, Row.word, Row.details]
  | external pos name params =>
    simp [outline, lines, heading, Global.body, toList_outlineLine,
      outlineParams_eq, Row.chars, Row.word, Row.details, DataType.text]

theorem Tree.toList_outline (t : Tree) :
    t.outline.toList = (t.globals.flatMap Global.lines).flatMap Row.chars := by
  rw [outline, String.toList_join, List.flatMap_map, List.flatMap_assoc]
  exact congrArg (List.flatMap · t.globals) (funext Global.toList_outline)

/-! ## Reading a line -/

theorem IsWord.notMem {x : String} (hx : IsWord x) {c : Char}
    (hc : Lexer.isWord c = false) : c ∉ x.toList := by
  intro hmem
  rw [hx c hmem] at hc
  cases hc

theorem DataType.text_injective {s t : DataType} (h : s.text = t.text) : s = t := by
  induction s generalizing t with
  | pointer elem ih =>
    cases t with
    | pointer elem' => rw [ih ((String.append_right_inj "*").mp h)]
    | _ => simpa [text] using congrArg String.toList h
  | _ =>
    cases t with
    | pointer elem' => simpa [text] using congrArg String.toList h
    | _ => first | rfl | simp [text] at h

theorem declaredType_injective {s t : Option DataType}
    (h : declaredType s = declaredType t) : s = t := by
  have hnone (t : DataType) : t.text ≠ "%!s(<nil>)" := by
    cases t with
    | pointer elem =>
      exact fun h => by simpa [DataType.text] using congrArg String.toList h
    | _ => simp [DataType.text]
  cases s with
  | none =>
    cases t with
    | none => rfl
    | some t => exact absurd h.symm (hnone t)
  | some s =>
    cases t with
    | none => exact absurd h (hnone s)
    | some t => rw [DataType.text_injective h]

theorem notMem_declaredType (t : Option DataType) :
    ',' ∉ (declaredType t).toList ∧ '\n' ∉ (declaredType t).toList := by
  cases t with
  | none => decide
  | some t =>
    induction t with
    | pointer elem ih => simpa [declaredType, DataType.text] using ih
    | _ => decide

theorem toList_declarationText (v : String × Option DataType) :
    (declarationText v).toList =
      v.1.toList ++ ':' :: ' ' :: (declaredType v.2).toList := by
  simp [declarationText]

theorem declarationText_injective {v w : String × Option DataType} (hv : IsWord v.1)
    (hw : IsWord w.1) (h : declarationText v = declarationText w) : v = w := by
  have hlists := congrArg String.toList h
  rw [toList_declarationText, toList_declarationText] at hlists
  obtain ⟨hname, htype⟩ :=
    append_cons_inj_of_first (hv.notMem (by decide)) (hw.notMem (by decide)) hlists
  have htypes :=
    declaredType_injective (String.toList_injective (List.cons.inj htype).2)
  exact Prod.ext (String.toList_injective hname) htypes

theorem notMem_declarationText {v : String × Option DataType} (hv : IsWord v.1) :
    ',' ∉ (declarationText v).toList ∧ '\n' ∉ (declarationText v).toList := by
  have hcomma := hv.notMem (c := ',') (by decide)
  have hnewline := hv.notMem (c := '\n') (by decide)
  simp [toList_declarationText, hcomma, hnewline, notMem_declaredType]

theorem declarationText_ne_empty (v : String × Option DataType) :
    declarationText v ≠ "" := by
  intro h
  have hlists := congrArg String.toList h
  rw [toList_declarationText] at hlists
  simp at hlists

namespace Row

/-- A name and a parameter list can be told apart, whatever closes them. -/
theorem signature_injective {x y : String} {vs ws : List (String × Option DataType)}
    (hx : IsWord x) (hvs : ∀ v ∈ vs, IsWord v.1) (hy : IsWord y)
    (hws : ∀ w ∈ ws, IsWord w.1) (close : String)
    (h : " " ++ x ++ "(" ++ ", ".intercalate (vs.map declarationText) ++ close =
      " " ++ y ++ "(" ++ ", ".intercalate (ws.map declarationText) ++ close) :
    x = y ∧ vs = ws := by
  have hlists := congrArg String.toList ((String.append_left_inj close).mp h)
  have hopen (z text : String) : (" " ++ z ++ "(" ++ text).toList =
    ' ' :: (z.toList ++ '(' :: text.toList) := by simp
  rw [hopen, hopen, List.cons_inj_right] at hlists
  obtain ⟨hname, hparams⟩ :=
    append_cons_inj_of_first (hx.notMem (by decide)) (hy.notMem (by decide)) hlists
  refine ⟨String.toList_injective hname, ?_⟩
  exact intercalate_comma_injective (fun v _ => declarationText_ne_empty v)
    (fun v hv => (notMem_declarationText hv).1)
    (fun v w hv hw => declarationText_injective hv hw) hvs hws
      (String.toList_injective hparams)

theorem eq_of_details_eq {l l' : Row} (hl : l.IsReadable) (hl' : l'.IsReadable)
    (hword : l.word = l'.word) (hdetails : l.details = l'.details) : l = l' := by
  cases l with
  | int n =>
    cases l' with
    | int m =>
      have hints := Decimal.ofInt_injective ((String.append_right_inj " ").mp hdetails)
      rw [Int32.toInt_inj.mp hints]
    | _ => simp [word] at hword
  | text x =>
    cases l' with
    | text y =>
      rw [Quoted.ofString_injective ((String.append_right_inj " ").mp hdetails)]
    | _ => simp [word] at hword
  | ident x =>
    cases l' with
    | ident y => rw [(String.append_right_inj " ").mp hdetails]
    | _ => simp [word] at hword
  | binary op =>
    cases l' with
    | binary op' =>
      obtain ⟨o, rfl⟩ := hl
      obtain ⟨o', rfl⟩ := hl'
      have hsigns : ∀ o o' : Operator, o.sign = o'.sign → o = o' := by
        intro o o'
        cases o <;> cases o' <;> simp [Operator.sign]
      rw [hsigns o o' ((String.append_right_inj " ").mp hdetails)]
    | _ => simp [word] at hword
  | decl x t =>
    cases l' with
    | decl y t' =>
      have heq : (x, t) = (y, t') :=
        declarationText_injective hl hl' ((String.append_right_inj " ").mp hdetails)
      cases heq
      rfl
    | _ => simp [word] at hword
  | assign x =>
    cases l' with
    | assign y => rw [(String.append_right_inj " ").mp hdetails]
    | _ => simp [word] at hword
  | call x =>
    cases l' with
    | call y => rw [(String.append_right_inj " ").mp hdetails]
    | _ => simp [word] at hword
  | ret =>
    cases l' with
    | ret => rfl
    | _ => simp [word] at hword
  | func x vs =>
    cases l' with
    | func y ws =>
      obtain ⟨rfl, rfl⟩ := signature_injective hl.1 hl.2 hl'.1 hl'.2 ")" hdetails
      rfl
    | _ => simp [word] at hword
  | external x vs =>
    cases l' with
    | external y ws =>
      obtain ⟨rfl, rfl⟩ := signature_injective hl.1 hl.2 hl'.1 hl'.2 ") void" hdetails
      rfl
    | _ => simp [word] at hword

theorem newline_notMem_details {l : Row} (hl : l.IsReadable) :
    '\n' ∉ l.details.toList := by
  have hword {x : String} (hx : IsWord x) : '\n' ∉ x.toList := hx.notMem (by decide)
  have hsignature {x : String} {vs : List (String × Option DataType)}
      (hx : IsWord x) (hvs : ∀ v ∈ vs, IsWord v.1)
      {close : String} (hclose : '\n' ∉ close.toList) :
      '\n' ∉ (" " ++ x ++ "(" ++ ", ".intercalate (vs.map declarationText) ++
          close).toList := by
    have hparams : '\n' ∉ (", ".intercalate (vs.map declarationText)).toList := by
      refine notMem_intercalate_comma (fun x hx => ?_) (by decide) (by decide)
      obtain ⟨v, hv, rfl⟩ := List.mem_map.mp hx
      exact (notMem_declarationText (hvs v hv)).2
    simp only [String.toList_append, List.mem_append, not_or]
    exact ⟨⟨⟨⟨by decide, hword hx⟩, by decide⟩, hparams⟩, hclose⟩
  cases l with
  | int n => simpa [details, Decimal.ofInt32] using Decimal.newline_notMem_ofInt n.toInt
  | text x => simpa [details] using Quoted.newline_notMem_ofString x
  | ident x => simpa [details] using hword hl
  | binary op =>
    obtain ⟨o, rfl⟩ := hl
    cases o <;> decide
  | decl x t =>
    have hdeclaration := (notMem_declarationText (v := (x, t)) hl).2
    simpa [details] using hdeclaration
  | assign x => simpa [details] using hword hl
  | call x => simpa [details] using hword hl
  | ret => decide
  | func x vs => exact hsignature hl.1 hl.2 (by decide)
  | external x vs => exact hsignature hl.1 hl.2 (by decide)

/-- Whether a character can stand in the first word of a line. -/
def isInside (c : Char) : Bool := c ≠ ' ' ∧ c ≠ '\n'

theorem isInside_of_mem_word (l : Row) : ∀ c ∈ l.word.toList, isInside c = true := by
  cases l <;> simp [word, isInside]

theorem head?_word (l : Row) (u : List Char) :
    ∀ c ∈ (l.word.toList ++ u).head?, decide (c = ' ') = false := by
  cases l <;> simp [word]

theorem head?_details (l : Row) (u : List Char) :
    ∀ c ∈ (l.details.toList ++ '\n' :: u).head?, isInside c = false := by
  cases l <;> simp [details, isInside]

theorem chars_append (l : Nat × Row) (u : List Char) :
    chars l ++ u = List.replicate (2 * l.1) ' ' ++
      (l.2.word.toList ++ (l.2.details.toList ++ '\n' :: u)) := by
  simp [chars]

/-- A line tells how deep it stands, what it says and where it ends. -/
theorem isCode_chars :
    IsCode (fun l : Nat × Row => l.2.IsReadable) chars id (fun _ => True) (· = []) where
  ends _ _ := trivial
  follows _ _ _ := trivial
  not_ends l u _ hend := by simp [chars] at hend
  cut l l' u v hl hl' _ _ heq := by
    rw [chars_append, chars_append] at heq
    have hblanks (n : Nat) : ∀ c ∈ List.replicate n ' ',
      decide (c = ' ') = true := by simp [List.mem_replicate]
    -- The blanks end with the first character that is none, the word with a
    -- blank or the line, the rest with the line.
    obtain ⟨hdepth, heq⟩ :=
      append_inj_of_run (hblanks _) (hblanks _) (head?_word _ _) (head?_word _ _) heq
    obtain ⟨hword, heq⟩ :=
      append_inj_of_run (isInside_of_mem_word _) (isInside_of_mem_word _)
        (head?_details _ _) (head?_details _ _) heq
    obtain ⟨hdetails, huv⟩ :=
      append_cons_inj_of_first (newline_notMem_details hl)
        (newline_notMem_details hl') heq
    have hline :=
      eq_of_details_eq hl hl' (String.toList_injective hword)
        (String.toList_injective hdetails)
    have hlength := congrArg List.length hdepth
    rw [List.length_replicate, List.length_replicate] at hlength
    have hsame : l.1 = l'.1 := by omega
    exact ⟨Prod.ext hsame hline, huv⟩

end Row

/-! ## Reading a tree -/

/-- Whether what comes next is not as deep as `depth`. -/
def Above (depth : Nat) (ls : List (Nat × Row)) : Prop := ∀ l ∈ ls.head?, l.1 < depth

theorem Above.succ {depth : Nat} {ls : List (Nat × Row)} (h : Above depth ls) :
    Above (depth + 1) ls :=
  fun l hl => Nat.lt_succ_of_lt (h l hl)

theorem above_cons {depth d : Nat} {l : Row} {ls : List (Nat × Row)} :
    Above depth ((d, l) :: ls) ↔ d < depth := by
  simp [Above]

namespace Expr

theorem exists_lines_eq {e : Expr} (he : e.isComplete = true) (depth : Nat) :
    ∃ l ls, e.lines depth = (depth, l) :: ls := by
  cases e with
  | hole => cases he
  | _ => exact ⟨_, _, rfl⟩

/-- An expression tells where it ends, since an operation has two sides. -/
theorem lines_append_inj {e e' : Expr} (he : e.isComplete = true)
    (he' : e'.isComplete = true) {depth : Nat} {u v : List (Nat × Row)}
    (h : e.lines depth ++ u = e'.lines depth ++ v) :
    e.unplaced = e'.unplaced ∧ u = v := by
  induction e generalizing e' depth u v with
  | int p n =>
    cases e' with
    | int p' m => simpa [lines, unplaced] using h
    | hole => cases he'
    | _ => simp [lines] at h
  | text p x =>
    cases e' with
    | text p' y => simpa [lines, unplaced] using h
    | hole => cases he'
    | _ => simp [lines] at h
  | ident p x =>
    cases e' with
    | ident p' y => simpa [lines, unplaced] using h
    | hole => cases he'
    | _ => simp [lines] at h
  | binary op p left right ihl ihr =>
    cases e' with
    | binary op' p' left' right' =>
      rw [isComplete, Bool.and_eq_true] at he he'
      simp only [lines, List.cons_append, List.append_assoc, List.cons.injEq,
        Prod.mk.injEq, true_and, Row.binary.injEq] at h
      obtain ⟨rfl, h⟩ := h
      obtain ⟨hleft, h⟩ := ihl he.1 he'.1 h
      obtain ⟨hright, h⟩ := ihr he.2 he'.2 h
      exact ⟨by rw [unplaced, unplaced, hleft, hright], h⟩
    | hole => cases he'
    | _ => simp [lines] at h
  | hole => cases he

end Expr

theorem isCode_expr (depth : Nat) :
    IsCode (fun e : Expr => e.isComplete = true) (Expr.lines depth) Expr.unplaced
      (fun _ => True) (Above depth) where
  ends _ _ := trivial
  follows _ _ _ := trivial
  not_ends e u he hend := by
    obtain ⟨l, ls, hlines⟩ := Expr.exists_lines_eq he depth
    rw [hlines, List.cons_append, above_cons] at hend
    exact lt_irrefl _ hend
  cut _ _ _ _ he he' _ _ h := Expr.lines_append_inj he he' h

/-- A line with parts below it tells where it ends, since its parts stand deeper
than the next line does. -/
theorem isCode_nested {α π κ γ : Type} {P : α → Prop} {Q : π → Prop}
    {part : π → List (Nat × Row)} {partKey : π → κ}
    {Follows : List (Nat × Row) → Prop} {depth : Nat} {heading : α → Row}
    {parts : α → List π} {key : α → γ}
    (hpart : IsCode Q part partKey Follows (Above (depth + 1)))
    (hparts : ∀ a, P a → ∀ p ∈ parts a, Q p)
    (hkey : ∀ a b, heading a = heading b →
      (parts a).map partKey = (parts b).map partKey → key a = key b) :
    IsCode P (fun a => (depth, heading a) :: (parts a).flatMap part) key
      (Above (depth + 1)) (Above depth) where
  ends _ := Above.succ
  follows a u _ := above_cons.mpr (Nat.lt_succ_self depth)
  not_ends a u _ hend := lt_irrefl _ (above_cons.mp hend)
  cut a b u v ha hb hu hv h := by
    simp only [List.cons_append, List.cons.injEq, Prod.mk.injEq, true_and] at h
    obtain ⟨hheading, h⟩ := h
    obtain ⟨hkeys, huv⟩ := hpart.flatMap_inj (hparts a ha) (hparts b hb) hu hv h
    exact ⟨hkey a b hheading hkeys, huv⟩

theorem Stmt.unplaced_eq {s s' : Stmt} (hheading : s.heading = s'.heading)
    (hexprs : s.exprs.map Expr.unplaced = s'.exprs.map Expr.unplaced) :
    s.unplaced = s'.unplaced := by
  cases s <;> cases s' <;> simp_all [heading, exprs, unplaced]

theorem isCode_stmt (depth : Nat) :
    IsCode (fun s : Stmt => s.isComplete = true) (Stmt.lines depth) Stmt.unplaced
    (Above (depth + 1)) (Above depth) :=
  isCode_nested (isCode_expr (depth + 1)) (fun _ hs => List.all_eq_true.mp hs)
    fun _ _ => Stmt.unplaced_eq

theorem Variable.unplaced_eq {vs vs' : List Variable}
    (h : vs.map named = vs'.map named) : vs.map unplaced = vs'.map unplaced := by
  have hnamed : (unplaced : Variable → Variable) =
    (fun n => { name := n.1, type := n.2, pos := {} }) ∘ named := rfl
  rw [hnamed, ← List.map_map, h, List.map_map]

theorem Global.unplaced_eq {g g' : Global} (hheading : g.heading = g'.heading)
    (hbody : g.body.map Stmt.unplaced = g'.body.map Stmt.unplaced) :
    g.unplaced = g'.unplaced := by
  cases g with
  | func p x vs body =>
    cases g' with
    | func p' x' vs' body' =>
      simp only [heading, Row.func.injEq] at hheading
      rw [unplaced, unplaced, hheading.1, Variable.unplaced_eq hheading.2]
      exact congrArg _ hbody
    | external => cases hheading
  | external p x vs =>
    cases g' with
    | func => cases hheading
    | external p' x' vs' =>
      simp only [heading, Row.external.injEq] at hheading
      rw [unplaced, unplaced, hheading.1, Variable.unplaced_eq hheading.2]

theorem isCode_global :
    IsCode (fun g : Global => g.isComplete = true) Global.lines Global.unplaced
      (Above 1) (Above 0) :=
  isCode_nested (isCode_stmt 1) (fun _ hg => List.all_eq_true.mp hg) fun _ _ =>
    Global.unplaced_eq

/-! ## Positions do not show -/

theorem Expr.lines_unplaced (depth : Nat) (e : Expr) :
    e.unplaced.lines depth = e.lines depth := by
  induction e generalizing depth with
  | binary op p left right ihl ihr => simp [unplaced, lines, ihl, ihr]
  | _ => rfl

theorem Stmt.lines_unplaced (depth : Nat) (s : Stmt) :
    s.unplaced.lines depth = s.lines depth := by
  cases s <;> simp [unplaced, lines, heading, exprs, List.flatMap_map,
    Expr.lines_unplaced]

theorem Global.lines_unplaced (g : Global) : g.unplaced.lines = g.lines := by
  cases g <;>
    simp [unplaced, lines, heading, Global.body, List.flatMap_map,
      Stmt.lines_unplaced, Function.comp_def, Variable.named, Variable.unplaced]

/-! ## Trees that are read -/

namespace Expr

theorem isReadable_lines {e : Expr} (he : e.isComb = true)
    (hnames : ∀ p x, (p, .name x) ∈ e.words → IsWord x) (depth : Nat) :
    ∀ l ∈ e.lines depth, l.2.IsReadable := by
  induction e generalizing depth with
  | int p n => simp [lines, Row.IsReadable]
  | text p x => simp [lines, Row.IsReadable]
  | ident p x =>
    have hx : IsWord x := hnames p x (by simp [words])
    simpa [lines, Row.IsReadable] using hx
  | binary op p left right ihl ihr =>
    cases op with
    | arith op =>
      rw [isComb, Bool.and_eq_true] at he
      have hleft :=
        ihl (isComb_of_isLeaf he.1) (fun p x hx =>
          hnames p x (List.mem_append_left _ hx)) (depth + 1)
      have hright :=
        ihr he.2 (fun p x hx => hnames p x (List.mem_append_right _ hx)) (depth + 1)
      exact List.forall_mem_cons.mpr
        ⟨⟨op, rfl⟩, List.forall_mem_append.mpr ⟨hleft, hright⟩⟩
    | unknown code => cases he
  | hole => cases he

end Expr

theorem Stmt.isReadable_heading {s : Stmt} (h : ∀ x ∈ s.name?, IsWord x) :
    s.heading.IsReadable := by
  cases s with
  | ret => trivial
  | _ => exact h _ rfl

theorem Global.isReadable_heading {g : Global} (hname : IsWord g.name)
    (hparams : ∀ v ∈ g.params, IsWord v.name) : g.heading.IsReadable := by
  have hnamed : ∀ n ∈ g.params.map Variable.named, IsWord n.1 := by
    intro n hn
    obtain ⟨v, hv, rfl⟩ := List.mem_map.mp hn
    exact hparams v hv
  cases g with
  | func => exact ⟨hname, hnamed⟩
  | external => exact ⟨hname, hnamed⟩

namespace Parser

/-- Every line in the outline of a tree that was read can be read back. -/
theorem isReadable_of_mem_lines {source : List UInt8} {filename : String} :
    ∀ l ∈ (parse (Lexer.ofBytes source filename)).tree.globals.flatMap Global.lines,
      l.2.IsReadable := by
  intro l hl
  obtain ⟨g, hg, hl⟩ := List.mem_flatMap.mp hl
  obtain ⟨hname, hparams, s, hs, hbody⟩ := stems_of_mem_parse g hg
  rcases List.mem_cons.mp hl with rfl | hl
  · exact Global.isReadable_heading hname.isWord fun v hv => (hparams v hv).2.isWord
  obtain ⟨stmt, hstmt, hl⟩ := List.mem_flatMap.mp hl
  rcases List.mem_cons.mp hl with rfl | hl
  · exact Stmt.isReadable_heading fun x hx => (hs.body stmt (hbody ▸ hstmt) x hx).isWord
  obtain ⟨e, he, hl⟩ := List.mem_flatMap.mp hl
  have hcomb := ((isWellFormed_parse _ g hg).body.stmts stmt hstmt).areCombs e he
  have hexprs : e ∈ (parse (Lexer.ofBytes source filename)).tree.exprs :=
    List.mem_flatMap.mpr ⟨g, hg, List.mem_flatMap.mpr ⟨stmt, hstmt, he⟩⟩
  exact Expr.isReadable_lines hcomb (fun p x hx =>
    (isIdentifier_of_mem_words hexprs hx).isWord) _ l hl

/-- Whatever two sources are like, the trees read from them can be printed, and
their outlines are the same text just if the trees are the same, apart from
positions and the name of the file. -/
theorem outline_eq_iff_unplaced_eq (source source' : List UInt8)
    (filename filename' : String) :
    let t := (parse (Lexer.ofBytes source filename)).tree
    let t' := (parse (Lexer.ofBytes source' filename')).tree
    t.outline? = .ok t.outline ∧ t'.outline? = .ok t'.outline ∧
      (t.outline? = t'.outline? ↔ t.unplaced.globals = t'.unplaced.globals) := by
  intro t t'
  have ht : t.outline? = .ok t.outline := if_pos (isPrintable_parse _)
  have ht' : t'.outline? = .ok t'.outline := if_pos (isPrintable_parse _)
  refine ⟨ht, ht', ?_⟩
  rw [ht, ht', Except.ok.injEq]
  constructor
  · intro h
    have hchars := congrArg String.toList h
    rw [Tree.toList_outline, Tree.toList_outline] at hchars
    have hlines :=
      Row.isCode_chars.flatMap_injective isReadable_of_mem_lines
        isReadable_of_mem_lines hchars
    have hcomplete (l : Lexer) : ∀ g ∈ (parse l).tree.globals, g.isComplete = true :=
      List.all_eq_true.mp (isComplete_parse l)
    exact (isCode_global.flatMap_inj (hcomplete _) (hcomplete _) (by simp [Above])
      (by simp [Above]) (congrArg (· ++ []) hlines)).1
  · intro h
    have hlines (t : Tree) : t.globals.flatMap Global.lines =
        t.unplaced.globals.flatMap Global.lines := by
      rw [Tree.unplaced, List.flatMap_map]
      exact congrArg (List.flatMap · t.globals) (funext fun g =>
        (Global.lines_unplaced g).symm)
    apply String.toList_injective
    rw [Tree.toList_outline, Tree.toList_outline, hlines t, hlines t', h]

/-- Names have to be words: with a line break in a name, one
statement looks like two. -/
example :
    let name (x : String) : Tree := ⟨"", [.func {} "f" [] [.assign {} x []]]⟩
    let two : Tree := ⟨"", [.func {} "f" [] [.assign {} "x" [], .ret {} []]]⟩
    (name "x\n  return").outline? = two.outline? ∧
        (name "x\n  return").unplaced.globals ≠ two.unplaced.globals := by
  decide

end Parser

end Straightline
