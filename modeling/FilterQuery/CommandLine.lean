import FilterQuery.Check
import FilterQuery.Text.Blank

/-!
# CommandLine — arguments, and what the program answers to them

The program has two subcommands: `check` evaluates a query and `explain` prints its canonical form.
Arguments are read from left to right; the first thing wrong with them ends the program with code 2,
and a request for help or for the version ends it with code 0 before anything after it is looked at.
-/

namespace FilterQuery.CommandLine

/-- The name of the program and its version. -/
def versionText : String := "sluice 0.1.0"

/-- How the program is used. -/
def usageText : String :=
  String.intercalate "\n"
    ["Usage: sluice [-v] check [-i JSON] [--syntax-only] QUERY", "       sluice [-v] explain QUERY"]

/-- What an option stands for. -/
inductive Flag where
  | verbose
  | help
  | version
  | syntaxOnly
  | input
  deriving DecidableEq, Inhabited

/-- The places where arguments are read: before the subcommand, or after it. -/
inductive Level where
  | top
  | check
  | explain
  deriving DecidableEq, Inhabited

/-- The options of one letter. -/
def Level.short? : Level → Char → Option Flag
  | _, 'v' => some .verbose
  | _, 'h' => some .help
  | .top, 'V' => some .version
  | .check, 'i' => some .input
  | _, _ => none

/-- The options of a word. -/
def Level.long? : Level → String → Option Flag
  | _, "verbose" => some .verbose
  | _, "help" => some .help
  | .top, "version" => some .version
  | .check, "syntax-only" => some .syntaxOnly
  | .check, "input" => some .input
  | _, _ => none

/-- What arguments end in when they do not name a command to carry out. -/
inductive Stop where
  | usage
  | help
  | version
  deriving DecidableEq, Inhabited

/-- What has been given so far on one level. -/
structure Given where
  verbose : Bool
  syntaxOnly : Bool
  input : Option String
  query : Option String
  deriving DecidableEq, Inhabited

/-- Nothing given. -/
def Given.nothing : Given := ⟨false, false, none, none⟩

/-- Gives an option that takes no value, at most once. -/
def Given.set (g : Given) : Flag → Except Stop Given
  | .verbose => if g.verbose then throw .usage else return { g with verbose := true }
  | .syntaxOnly => if g.syntaxOnly then throw .usage else return { g with syntaxOnly := true }
  | .help => throw .help
  | .version => throw .version
  | .input => throw .usage

/-- Gives the input, at most once. -/
def Given.setInput (g : Given) (value : String) : Except Stop Given :=
  if g.input.isSome then throw .usage else return { g with input := some value }

/-- Gives the query, at most once. -/
def Given.setQuery (g : Given) (query : String) : Except Stop Given :=
  if g.query.isSome then throw .usage else return { g with query := some query }

/-- Gives options of one letter, which may share one dash; an option with a value takes all that
follows, less an equals sign, or else waits for the next argument. -/
def Given.setShorts (level : Level) : Given → List Char → Except Stop (Given × Bool)
  | g, [] => return (g, false)
  | g, c :: cs =>
    match level.short? c with
    | none => throw .usage
    | some .input =>
      match cs with
      | [] => return (g, true)
      | '=' :: value => return (← g.setInput (String.ofList value), false)
      | value => return (← g.setInput (String.ofList value), false)
    | some flag => do
      setShorts level (← g.set flag) cs

/-- Gives an option of a word, perhaps with a value after an equals sign. The input waits for the
next argument if it has no value here. -/
def Given.setLong (level : Level) (g : Given) (word : List Char) : Except Stop (Given × Bool) :=
  let name := word.takeWhile (· ≠ '=')
  match level.long? (String.ofList name), word.drop name.length with
  | none, _ => throw .usage
  | some .input, [] => return (g, true)
  | some .input, _ :: value => return (← g.setInput (String.ofList value), false)
  | some flag, [] => return (← g.set flag, false)
  | some _, _ :: _ => throw .usage

/-- Gives what an argument that starts with a dash stands for. -/
def Given.setOption (level : Level) (g : Given) : List Char → Except Stop (Given × Bool)
  | '-' :: word => g.setLong level word
  | shorts => g.setShorts level shorts

/-- The part of an argument after its dash, if it has one and there is more of it. -/
def optionPart? (arg : String) : Option (List Char) :=
  match arg.toList with
  | '-' :: c :: cs => some (c :: cs)
  | _ => none

/-- Reads the arguments after a subcommand. After two dashes every argument is a query. -/
def readArguments (level : Level) (g : Given) : List String → Except Stop Given
  | [] => return g
  | arg :: args =>
    if arg = "--" then args.foldlM Given.setQuery g
    else
      match optionPart? arg with
      | none => do readArguments level (← g.setQuery arg) args
      | some part => do
        match ← g.setOption level part, args with
        | (g, false), args => readArguments level g args
        | (_, true), [] => throw .usage
        | (g, true), value :: args =>
          match optionPart? value with
          | none => readArguments level (← g.setInput value) args
          | some _ => throw .usage

/-- What the program is asked to do. -/
inductive Command where
  | check (c : Check)
  | explain (query : String)
  deriving DecidableEq, Inhabited

/-- The command of a subcommand and its arguments. -/
def subcommand (level : Level) (args : List String) : Except Stop Command := do
  let g ← readArguments level .nothing args
  match level, g.query with
  | _, none => throw .usage
  | .check, some query => return .check ⟨query, g.input, g.syntaxOnly⟩
  | _, some query => return .explain query

/-- Reads all arguments. -/
def read (g : Given) : List String → Except Stop Command
  | [] => throw .usage
  | "check" :: args => subcommand .check args
  | "explain" :: args => subcommand .explain args
  | "help" :: args =>
    if args = [] ∨ args = ["check"] ∨ args = ["explain"] then throw .help else throw .usage
  | arg :: args =>
    if arg = "--" then throw .usage
    else
      match optionPart? arg with
      | none => throw .usage
      | some part => do read (← g.setOption .top part).1 args

/-- The command that arguments name. -/
def Command.ofArguments (args : List String) : Except Stop Command :=
  read .nothing args

/-- Whether a command takes its context from the standard input. -/
def Command.readsInput : Command → Bool
  | check c => c.input.isNone && !c.syntaxOnly
  | explain _ => false

/-- What the program leaves behind. -/
structure Output where
  code : Nat
  stdout : String
  stderr : String
  deriving DecidableEq, Inhabited

/-- A line on the standard output, and success. -/
def Output.success (line : String) : Output :=
  ⟨0, line ++ "\n", ""⟩

/-- A line on the standard error, and failure. -/
def Output.failure (code : Nat) (line : String) : Output :=
  ⟨code, "", line ++ "\n"⟩

/-- The text that the standard input holds; white space alone is no text. -/
def inputText (bytes : ByteArray) : Except Check.Error (Option String) :=
  match String.fromUTF8? bytes with
  | none => throw .notUtf8
  | some text => return if text.toList.all Text.isBlank then none else some text

/-- Carries a command out. The standard input counts if the command reads it and it is there. -/
def Command.perform (command : Command) (stdin : Option ByteArray) : Except Check.Error String :=
  match command with
  | check c => do
    let input ← match command.readsInput, stdin with
      | true, some bytes => inputText bytes
      | _, _ => pure c.input
    match ← { c with input }.perform with
    | .syntaxValid => return "Syntax is valid"
    | .matched answer => return if answer then "true" else "false"
  | explain query => Check.explain query

/-- The whole program. -/
def run (args : List String) (stdin : Option ByteArray) : Output :=
  match Command.ofArguments args with
  | .error .usage => .failure 2 usageText
  | .error .help => .success usageText
  | .error .version => .success versionText
  | .ok command =>
    match command.perform stdin with
    | .ok line => .success line
    | .error e => .failure 1 e.message

end FilterQuery.CommandLine
