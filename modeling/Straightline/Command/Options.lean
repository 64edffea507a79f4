import Straightline.Command.Path
import Straightline.Text.Quoted

/-!
# Options of the command

Arguments are flags up to the first one that is none; what follows are files, of
which there has to be one. A flag starts with one or two dashes and may carry a
value behind an equals sign. A switch is on unless its value says otherwise; the
output flag takes the next argument if it carries no value. `--` ends the flags.
-/

namespace Straightline.Command

/-- The flags that are on or off. -/
inductive Switch where
  | tokens
  | tree
  | target
  | writeTarget
  | optimize
  | progress
deriving DecidableEq, Repr

/-- The switch of the given name. -/
def Switch.ofName? : String → Option Switch
  | "test-lex" => some .tokens
  | "ast" => some .tree
  | "llvm" => some .target
  | "emit-llvm" => some .writeTarget
  | "O" => some .optimize
  | "v" => some .progress
  | _ => none

/-- What the flags ask for. An empty output path stands for the one
derived from the source. -/
structure Flags where
  tokens : Bool := false
  tree : Bool := false
  target : Bool := false
  writeTarget : Bool := false
  optimize : Bool := false
  progress : Bool := false
  output : String := ""
deriving DecidableEq, Repr

/-- Sets a switch. -/
def Flags.set (f : Flags) (s : Switch) (on : Bool) : Flags :=
  match s with
  | .tokens => { f with tokens := on }
  | .tree => { f with tree := on }
  | .target => { f with target := on }
  | .writeTarget => { f with writeTarget := on }
  | .optimize => { f with optimize := on }
  | .progress => { f with progress := on }

/-- A request to the command: what the flags ask for, and the source file. -/
structure Options extends Flags where
  source : String
deriving DecidableEq, Repr

/-- The file that the target text is written to. -/
def Options.outputPath (o : Options) : String :=
  if o.output = "" then Path.targetPath o.source else o.output

/-! ## Usage errors -/

/-- Why the arguments are no request. -/
inductive UsageError where
  | help
  | malformed (arg : String)
  | undefined (name : String)
  | notBoolean (value name : String)
  | needsArgument (name : String)
  | fileCount
deriving DecidableEq, Repr

/-- How the command is used. -/
def usage : String :=
  "Usage: orka [flags] <source-file>\n" ++
  "  -O\trun the optimizer\n" ++
  "  -ast\n    \tprint the syntax tree\n" ++
  "  -emit-llvm\n    \twrite LLVM IR to the output file\n" ++
  "  -llvm\n    \tprint LLVM IR to stdout\n" ++
  "  -o string\n    \toutput file for -emit-llvm (default: <source>.ll)\n" ++
  "  -test-lex\n    \tprint the token stream and stop\n" ++
  "  -v\treport progress on stderr\n"

/-- What is wrong with a flag; asking for help and the number of
files are not about a flag. -/
def UsageError.flagMessage? : UsageError → Option String
  | .help => none
  | .malformed arg => some ("bad flag syntax: " ++ arg)
  | .undefined name => some ("flag provided but not defined: -" ++ name)
  | .notBoolean value name =>
    some ("invalid boolean value " ++ Quoted.ofString value ++ " for -" ++ name ++
      ": parse error")
  | .needsArgument name => some ("flag needs an argument: -" ++ name)
  | .fileCount => none

/-- The report of a usage error. A wrong flag is named before and after the usage. -/
def UsageError.report (e : UsageError) : String :=
  match e.flagMessage? with
  | some message => message ++ "\n" ++ usage ++ "orka: " ++ message ++ "\n"
  | none =>
    if e = .fileCount then usage ++ "orka: expected exactly one source file\n"
      else usage

/-! ## Reading arguments -/

/-- What an argument in front of the files is. -/
inductive Word where
  | file
  | stop
  | malformed
  | flag (name : String) (value : Option String)
deriving DecidableEq, Repr

/-- A flag without its dashes. -/
def Word.ofFlag (cs : List Char) : Word :=
  match cs with
  | [] | '-' :: _ | '=' :: _ => .malformed
  | c :: rest =>
    let name := String.ofList (c :: rest.takeWhile (· ≠ '='))
    match rest.dropWhile (· ≠ '=') with
    | [] => .flag name none
    | _ :: value => .flag name (some (String.ofList value))

/-- What an argument is, if it stands in front of the files. -/
def Word.ofArg (arg : String) : Word :=
  match arg.toList with
  | ['-', '-'] => .stop
  | '-' :: '-' :: cs => ofFlag cs
  | '-' :: c :: cs => ofFlag (c :: cs)
  | _ => .file

/-- The truth value that a word stands for. -/
def parseBool? : String → Option Bool
  | "1" | "t" | "T" | "true" | "TRUE" | "True" => some true
  | "0" | "f" | "F" | "false" | "FALSE" | "False" => some false
  | _ => none

/-- The value of a switch: on, unless it carries a value that says otherwise. -/
def switchValue (name : String) : Option String → Except UsageError Bool
  | none => .ok true
  | some value =>
    match parseBool? value with
    | some on => .ok on
    | none => .error (.notBoolean value name)

/-- Reads the flags in front of the files; gives what they ask for and the files. -/
def parseFlags (f : Flags) : List String → Except UsageError (Flags × List String)
  | [] => .ok (f, [])
  | arg :: args =>
    match Word.ofArg arg with
    | .file => .ok (f, arg :: args)
    | .stop => .ok (f, args)
    | .malformed => .error (.malformed arg)
    | .flag name value =>
      match Switch.ofName? name with
      | some s =>
        match switchValue name value with
        | .ok on => parseFlags (f.set s on) args
        | .error e => .error e
      | none =>
        if name = "o" then
          match value, args with
          | some value, args => parseFlags { f with output := value } args
          | none, value :: args => parseFlags { f with output := value } args
          | none, [] => .error (.needsArgument name)
        else if name = "help" ∨ name = "h" then .error .help
        else .error (.undefined name)
termination_by args => args.length

/-- Reads the arguments of the command. -/
def Options.parse (args : List String) : Except UsageError Options :=
  match parseFlags {} args with
  | .error e => .error e
  | .ok (f, [source]) => .ok { f with source }
  | .ok _ => .error .fileCount

end Straightline.Command
