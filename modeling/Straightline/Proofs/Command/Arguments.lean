import Mathlib
import Straightline.Command.Options

/-!
# How requests are written

In front of the files stand settings, each of them a flag with one or two dashes
(`Spells`) that may be followed by its value (`Gives`). Arguments are read as
the settings and files that they are written from (`Reads`), or one of them is
refused (`Refused`), and never both. They are a request (`Asks`) if there is one
file, and misuse (`Misuses`) otherwise; that is what `Options.parse` decides.
-/

namespace Straightline.Command

/-! ## Words -/

/-- A value as it stands behind the name of a flag. -/
def valueText : Option String → String
  | none => ""
  | some value => "=" ++ value

/-- Whether an argument is the flag of the given name and value. -/
inductive Spells : (arg name : String) → (value : Option String) → Prop
  | intro {dashes name : String} {value : Option String} :
      dashes ∈ ["-", "--"] → name ≠ "" →
      name.toList.head? ≠ some '-' → '=' ∉ name.toList →
      Spells (dashes ++ name ++ valueText value) name value

/-- Whether an argument has dashes in front, and no flag behind them. -/
def IsGarbled (arg : String) : Prop :=
  ∃ rest, arg = "---" ++ rest ∨ arg = "-=" ++ rest ∨ arg = "--=" ++ rest

/-- Whether an argument is a file where flags may stand. -/
def IsFile (arg : String) : Prop := arg = "-" ∨ arg.toList.head? ≠ some '-'

namespace Word

theorem ofFlag_cons {c : Char} (hdash : c ≠ '-') (hequals : c ≠ '=')
    (cs : List Char) :
    ofFlag (c :: cs) =
      match cs.dropWhile (· ≠ '=') with
      | [] => .flag (String.ofList (c :: cs.takeWhile (· ≠ '='))) none
      | _ :: value => .flag (String.ofList (c :: cs.takeWhile (· ≠ '=')))
        (some (String.ofList value)) := by
  unfold ofFlag
  split
  · next h => cases h
  · next h => exact absurd (List.cons.inj h).1 hdash
  · next h => exact absurd (List.cons.inj h).1 hequals
  · next h =>
    obtain ⟨rfl, rfl⟩ := List.cons.inj h
    rfl

theorem ofFlag_name {name : String} (value : Option String) (hname : name ≠ "")
    (hdash : name.toList.head? ≠ some '-') (hequals : '=' ∉ name.toList) :
    ofFlag (name.toList ++ (valueText value).toList) = .flag name value := by
  obtain ⟨c, cs, hcs⟩ : ∃ c cs, name.toList = c :: cs :=
    List.exists_cons_of_ne_nil fun hnil => hname (String.toList_inj.mp hnil)
  have hback : String.ofList (c :: cs) = name := by rw [← hcs, String.ofList_toList]
  rw [hcs] at hdash hequals ⊢
  have hc : c ≠ '=' := fun heq => hequals (heq ▸ List.mem_cons_self)
  have hpass : ∀ d ∈ cs, decide (d ≠ '=') = true := fun d hd =>
    decide_eq_true fun heq => hequals (heq ▸ List.mem_cons_of_mem _ hd)
  rw [List.cons_append, ofFlag_cons (by simpa using hdash) hc,
    List.takeWhile_append_of_pos hpass, List.dropWhile_append_of_pos hpass]
  cases value with
  | none => simpa [valueText] using hback
  | some value => simpa [valueText] using hback

/-- A flag without its dashes is a name and a value, unless
something else stands first. -/
theorem ofFlag_eq_flag {cs : List Char} {name : String} {value : Option String}
    (h : ofFlag cs = .flag name value) :
    name ≠ "" ∧ name.toList.head? ≠ some '-' ∧ '=' ∉ name.toList ∧
      cs = name.toList ++ (valueText value).toList := by
  cases cs with
  | nil => cases h
  | cons c rest =>
    by_cases hdash : c = '-'
    · subst hdash
      cases h
    by_cases hequals : c = '='
    · subst hequals
      cases h
    have hfront : '=' ∉ c :: rest.takeWhile (· ≠ '=') := by
      intro hmem
      obtain heq | hmem := List.mem_cons.mp hmem
      · exact hequals heq.symm
      · simpa using List.mem_takeWhile_imp hmem
    have hsplit := rest.takeWhile_append_dropWhile (p := (· ≠ '='))
    rw [ofFlag_cons hdash hequals] at h
    split at h
    · next hdrop =>
      obtain ⟨rfl, rfl⟩ := Word.flag.inj h
      rw [hdrop] at hsplit
      refine ⟨by simp, by simpa using hdash, by simpa using hfront, ?_⟩
      simpa [valueText] using hsplit.symm
    · next d value' hdrop =>
      obtain ⟨rfl, rfl⟩ := Word.flag.inj h
      have hd : d = '=' := by
        have hhead := List.head?_dropWhile_not (· ≠ '=') rest
        rw [hdrop] at hhead
        simpa using hhead
      subst hd
      rw [hdrop] at hsplit
      refine ⟨by simp, by simpa using hdash, by simpa using hfront, ?_⟩
      simpa [valueText] using hsplit.symm

theorem ofArg_of_spells {arg name : String} {value : Option String}
    (h : Spells arg name value) : ofArg arg = .flag name value := by
  cases h with
  | @intro dashes _ _ hdashes hname hdash hequals =>
    have hflag := ofFlag_name value hname hdash hequals
    obtain ⟨c, cs, hcs⟩ : ∃ c cs, name.toList = c :: cs :=
      List.exists_cons_of_ne_nil fun hnil => hname (String.toList_inj.mp hnil)
    rw [hcs] at hdash hflag
    have hc : c ≠ '-' := by simpa using hdash
    obtain rfl | rfl : dashes = "-" ∨ dashes = "--" := by simpa using hdashes
    · simpa [ofArg, hcs, hc] using hflag
    · simpa [ofArg, hcs] using hflag

theorem ofArg_of_isFile {arg : String} (h : IsFile arg) : ofArg arg = .file := by
  obtain rfl | hdash := h
  · rfl
  · unfold ofArg
    split <;> simp_all

theorem ofArg_of_isGarbled {arg : String} (h : IsGarbled arg) :
    ofArg arg = .malformed := by
  obtain ⟨rest, rfl | rfl | rfl⟩ := h <;> simp [ofArg, ofFlag]

/-- Behind dashes stands a flag, unless an equals sign comes first. -/
theorem isGarbled_or_spells {dashes : String} (hdashes : dashes ∈ ["-", "--"])
    {c : Char} (hdash : c ≠ '-') (cs : List Char) :
    let arg := dashes ++ String.ofList (c :: cs)
    IsGarbled arg ∨ ∃ name value, Spells arg name value := by
  by_cases hequals : c = '='
  · subst hequals
    refine .inl ⟨String.ofList cs, .inr ?_⟩
    obtain rfl | rfl : dashes = "-" ∨ dashes = "--" := by simpa using hdashes
    · exact .inl (String.toList_inj.mp (by simp))
    · exact .inr (String.toList_inj.mp (by simp))
  · obtain ⟨name, value, hflag⟩ : ∃ name value,
        ofFlag (c :: cs) = .flag name value := by
      rw [ofFlag_cons hdash hequals]
      split <;> exact ⟨_, _, rfl⟩
    obtain ⟨hname, hdash, hequals, heq⟩ := ofFlag_eq_flag hflag
    have htext : String.ofList (c :: cs) = name ++ valueText value :=
      String.toList_inj.mp (by simpa using heq)
    refine .inr ⟨name, value, ?_⟩
    rw [htext, ← String.append_assoc]
    exact .intro hdashes hname hdash hequals

/-- What an argument can be where flags may stand. -/
theorem word_cases (arg : String) :
    arg = "--" ∨ IsFile arg ∨ IsGarbled arg ∨ ∃ name value, Spells arg name value := by
  obtain ⟨cs, rfl⟩ : ∃ cs, arg = String.ofList cs := ⟨arg.toList, by simp⟩
  cases cs with
  | nil => exact .inr (.inl (.inr (by simp)))
  | cons c cs =>
    by_cases hc : c = '-'
    · subst hc
      cases cs with
      | nil => exact .inr (.inl (.inl rfl))
      | cons d ds =>
        by_cases hd : d = '-'
        · subst hd
          cases ds with
          | nil => exact .inl rfl
          | cons e es =>
            by_cases he : e = '-'
            · subst he
              exact .inr
                (.inr (.inl ⟨String.ofList es,
                .inl (String.toList_inj.mp (by simp))⟩))
            · have htext : String.ofList ('-' :: '-' :: e :: es) =
                  "--" ++ String.ofList (e :: es) :=
                String.toList_inj.mp (by simp)
              rw [htext]
              exact .inr (.inr (isGarbled_or_spells (by simp) he es))
        · have htext : String.ofList ('-' :: d :: ds) =
              "-" ++ String.ofList (d :: ds) :=
            String.toList_inj.mp (by simp)
          rw [htext]
          exact .inr (.inr (isGarbled_or_spells (by simp) hd ds))
    · exact .inr (.inl (.inr (by simpa using hc)))

end Word

/-! ## Settings -/

/-- The name of a switch. -/
def Switch.name : Switch → String
  | .tokens => "test-lex"
  | .tree => "ast"
  | .target => "llvm"
  | .writeTarget => "emit-llvm"
  | .optimize => "O"
  | .progress => "v"

/-- The words for a truth value. -/
def boolWords : Bool → List String
  | true => ["1", "t", "T", "true", "TRUE", "True"]
  | false => ["0", "f", "F", "false", "FALSE", "False"]

@[simp] theorem Switch.ofName?_name (s : Switch) : ofName? s.name = some s := by
  cases s <;> rfl

theorem Switch.ofName?_eq_some_iff {name : String} {s : Switch} :
    ofName? name = some s ↔ name = s.name := by
  constructor
  · intro h
    unfold ofName? at h
    split at h <;> cases h <;> rfl
  · rintro rfl
    exact s.ofName?_name

theorem parseBool?_eq_some_iff {word : String} {on : Bool} :
    parseBool? word = some on ↔ word ∈ boolWords on := by
  constructor
  · intro h
    unfold parseBool? at h
    split at h <;> cases h <;> decide
  · cases on <;> simp only [boolWords, List.mem_cons, List.not_mem_nil, or_false] <;>
      rintro (rfl | rfl | rfl | rfl | rfl | rfl) <;> rfl

/-- What is asked for in front of the files. -/
inductive Setting where
  | switch (s : Switch) (on : Bool)
  | output (path : String)
deriving DecidableEq, Repr

/-- Flags with one more setting; a later one counts. -/
def Flags.take (f : Flags) : Setting → Flags
  | .switch s on => f.set s on
  | .output path => { f with output := path }

/-- How a setting is written. -/
inductive Gives : (words : List String) → Setting → Prop
  | on {arg : String} {s : Switch} : Spells arg s.name none →
      Gives [arg] (.switch s true)
  | value {arg word : String} {s : Switch} {on : Bool} :
      Spells arg s.name (some word) → word ∈ boolWords on → Gives [arg] (.switch s on)
  | output {arg path : String} : Spells arg "o" (some path) → Gives [arg] (.output path)
  | outputNext {arg path : String} : Spells arg "o" none →
      Gives [arg, path] (.output path)

/-- How settings and files are written. Files follow the settings, or `--`
does and then the files. -/
inductive Reads : (args : List String) → List Setting → (files : List String) → Prop
  | files {args : List String} : (∀ arg ∈ args.head?, IsFile arg) → Reads args [] args
  | stop {args : List String} : Reads ("--" :: args) [] args
  | setting {words args files : List String} {x : Setting} {xs : List Setting} :
      Gives words x → Reads args xs files → Reads (words ++ args) (x :: xs) files

/-- Why an argument behind some settings is refused. -/
inductive Refused : (args : List String) → UsageError → Prop
  | malformed {arg : String} {args : List String} : IsGarbled arg →
      Refused (arg :: args) (.malformed arg)
  | undefined {arg name : String} {value : Option String} {args : List String} :
      Spells arg name value →
      (∀ s : Switch, name ≠ s.name) → name ∉ ["o", "help", "h"] →
      Refused (arg :: args) (.undefined name)
  | help {arg name : String} {value : Option String} {args : List String} :
      Spells arg name value →
      name ∈ ["help", "h"] → Refused (arg :: args) .help
  | notBoolean {arg word : String} {s : Switch} {args : List String} :
      Spells arg s.name (some word) →
      (∀ on, word ∉ boolWords on) → Refused (arg :: args) (.notBoolean word s.name)
  | needsArgument {arg : String} : Spells arg "o" none →
      Refused [arg] (.needsArgument "o")
  | setting {words args : List String} {x : Setting} {e : UsageError} :
      Gives words x → Refused args e → Refused (words ++ args) e

theorem parseFlags_of_gives {words : List String} {x : Setting} (h : Gives words x)
    (f : Flags) (args : List String) :
    parseFlags f (words ++ args) = parseFlags (f.take x) args := by
  cases h with
  | on hspells =>
    simp [parseFlags, Word.ofArg_of_spells hspells, switchValue, Flags.take]
  | value hspells hword =>
    simp [parseFlags, Word.ofArg_of_spells hspells, switchValue,
      parseBool?_eq_some_iff.mpr hword, Flags.take]
  | output hspells =>
    simp [parseFlags, Word.ofArg_of_spells hspells, Switch.ofName?, Flags.take]
  | outputNext hspells =>
    simp [parseFlags, Word.ofArg_of_spells hspells, Switch.ofName?, Flags.take]

theorem parseFlags_of_reads {args files : List String} {xs : List Setting}
    (h : Reads args xs files) (f : Flags) :
    parseFlags f args = .ok (xs.foldl Flags.take f, files) := by
  induction h generalizing f with
  | @files args hfile =>
    cases args with
    | nil => simp [parseFlags]
    | cons arg args => simp [parseFlags, Word.ofArg_of_isFile (hfile arg rfl)]
  | stop => simp [parseFlags, Word.ofArg]
  | setting hgives _ ih => rw [parseFlags_of_gives hgives, ih, List.foldl_cons]

theorem parseFlags_of_refused {args : List String} {e : UsageError}
    (h : Refused args e) (f : Flags) : parseFlags f args = .error e := by
  induction h generalizing f with
  | malformed hgarbled => simp [parseFlags, Word.ofArg_of_isGarbled hgarbled]
  | @undefined arg name value args hspells hswitch hname =>
    have hnone : Switch.ofName? name = none :=
      Option.eq_none_iff_forall_ne_some.mpr fun s hs =>
        hswitch s (Switch.ofName?_eq_some_iff.mp hs)
    simp only [List.mem_cons, List.not_mem_nil, or_false, not_or] at hname
    simp [parseFlags, Word.ofArg_of_spells hspells, hnone, hname]
  | help hspells hname =>
    obtain rfl | rfl := List.mem_pair.mp hname <;>
      simp [parseFlags, Word.ofArg_of_spells hspells, Switch.ofName?]
  | @notBoolean arg word s args hspells hword =>
    have hnone : parseBool? word = none :=
      Option.eq_none_iff_forall_ne_some.mpr fun on hon =>
        hword on (parseBool?_eq_some_iff.mp hon)
    simp [parseFlags, Word.ofArg_of_spells hspells, switchValue, hnone]
  | needsArgument hspells =>
    simp [parseFlags, Word.ofArg_of_spells hspells, Switch.ofName?]
  | setting hgives _ ih => rw [parseFlags_of_gives hgives, ih]

/-- A flag is refused, or it is a setting, perhaps together with
the argument behind it. -/
theorem refused_or_gives {arg name : String} {value : Option String}
    (h : Spells arg name value) (args : List String) :
    (∃ e, Refused (arg :: args) e) ∨ ∃ words rest x, arg :: args = words ++ rest ∧
      Gives words x := by
  by_cases hswitch : ∃ s : Switch, name = s.name
  · obtain ⟨s, rfl⟩ := hswitch
    cases value with
    | none => exact .inr ⟨[arg], args, _, rfl, .on h⟩
    | some word =>
      by_cases hword : ∃ on, word ∈ boolWords on
      · obtain ⟨on, hon⟩ := hword
        exact .inr ⟨[arg], args, _, rfl, .value h hon⟩
      · exact .inl ⟨_, .notBoolean h (not_exists.mp hword)⟩
  by_cases houtput : name = "o"
  · subst houtput
    cases value with
    | some path => exact .inr ⟨[arg], args, _, rfl, .output h⟩
    | none =>
      cases args with
      | nil => exact .inl ⟨_, .needsArgument h⟩
      | cons path args => exact .inr ⟨[arg, path], args, _, rfl, .outputNext h⟩
  by_cases hhelp : name ∈ ["help", "h"]
  · exact .inl ⟨_, .help h hhelp⟩
  · refine .inl ⟨_, .undefined h (not_exists.mp hswitch) ?_⟩
    exact fun hmem => (List.mem_cons.mp hmem).elim houtput hhelp

/-- Arguments are read, or refused. -/
theorem reads_or_refused (args : List String) :
    (∃ xs files, Reads args xs files) ∨ ∃ e, Refused args e := by
  -- A setting is at least one argument long, so there are fewer of them behind it.
  induction hn : args.length using Nat.strong_induction_on generalizing args with
  | _ n ih =>
  cases args with
  | nil => exact .inl ⟨[], [], .files (by simp)⟩
  | cons arg args =>
    obtain rfl | hfile | hgarbled | ⟨name, value, hspells⟩ := Word.word_cases arg
    · exact .inl ⟨[], args, .stop⟩
    · exact .inl ⟨[], arg :: args, .files (by simpa using hfile)⟩
    · exact .inr ⟨_, .malformed hgarbled⟩
    · obtain hrefused | ⟨words, rest, x, heq, hgives⟩ := refused_or_gives hspells args
      · exact .inr hrefused
      have hshorter : rest.length < n := by
        rw [← hn, heq, List.length_append]
        cases hgives <;> simp
      rw [heq]
      obtain ⟨xs, files, hreads⟩ | ⟨e, hrefused⟩ := ih _ hshorter rest rfl
      · exact .inl ⟨x :: xs, files, .setting hgives hreads⟩
      · exact .inr ⟨e, .setting hgives hrefused⟩

/-! ## Requests -/

/-- Whether arguments are the request `o`: they name one file, and their
settings add up to its flags. -/
def Asks (args : List String) (o : Options) : Prop :=
  ∃ xs, Reads args xs [o.source] ∧ o.toFlags = xs.foldl Flags.take {}

/-- Why arguments are no request. -/
inductive Misuses (args : List String) : UsageError → Prop
  | refused {e : UsageError} : Refused args e → Misuses args e
  | fileCount {xs : List Setting} {files : List String} :
      Reads args xs files → files.length ≠ 1 → Misuses args .fileCount

theorem asks_or_misuses (args : List String) :
    (∃ o, Asks args o) ∨ ∃ e, Misuses args e := by
  obtain ⟨xs, files, hreads⟩ | ⟨e, hrefused⟩ := reads_or_refused args
  · by_cases hone : files.length = 1
    · obtain ⟨source, rfl⟩ := List.length_eq_one_iff.mp hone
      exact .inl ⟨{ xs.foldl Flags.take {} with source }, xs, hreads, rfl⟩
    · exact .inr ⟨_, .fileCount hreads hone⟩
  · exact .inr ⟨e, .refused hrefused⟩

theorem Options.parse_of_asks {args : List String} {o : Options} (h : Asks args o) :
    parse args = .ok o := by
  obtain ⟨xs, hreads, hflags⟩ := h
  simp [parse, parseFlags_of_reads hreads, ← hflags]

theorem Options.parse_of_misuses {args : List String} {e : UsageError}
    (h : Misuses args e) : parse args = .error e := by
  cases h with
  | refused hrefused => simp [parse, parseFlags_of_refused hrefused]
  | @fileCount xs files hreads hcount =>
    simp only [parse, parseFlags_of_reads hreads]
    split
    · next heq => cases heq
    · next heq =>
      obtain ⟨-, rfl⟩ := Prod.mk.inj (Except.ok.inj heq)
      exact absurd rfl hcount
    · rfl

theorem Asks.not_misuses {args : List String} {o : Options} {e : UsageError}
    (h : Asks args o) : ¬ Misuses args e := by
  intro hmisuses
  cases (Options.parse_of_asks h).symm.trans (Options.parse_of_misuses hmisuses)

theorem Asks.unique {args : List String} {o o' : Options} (h : Asks args o)
    (h' : Asks args o') : o = o' :=
  Except.ok.inj ((Options.parse_of_asks h).symm.trans (Options.parse_of_asks h'))

/-- The requests that are carried out are those that are written down. -/
theorem Options.parse_eq_ok_iff {args : List String} {o : Options} :
    parse args = .ok o ↔ Asks args o := by
  refine ⟨fun h => ?_, parse_of_asks⟩
  obtain ⟨o', hasks⟩ | ⟨e, hmisuses⟩ := asks_or_misuses args
  · obtain rfl : o' = o := Except.ok.inj ((parse_of_asks hasks).symm.trans h)
    exact hasks
  · cases (parse_of_misuses hmisuses).symm.trans h

end Straightline.Command
