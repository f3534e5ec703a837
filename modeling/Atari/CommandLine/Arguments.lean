import Atari.MachineFile.Fields

/-!
# Arguments

What the words of a command line ask for.

* `Arguments`: a command and how much the log tells; `UsageError`: why words are no command;
* `Options.scan`: words apart as options and operands;
* `Arguments.parse`: the command of the words.

An option has a long name behind two dashes, a letter behind one dash, or both. Letters can share a
dash. A value stands behind an equals sign, behind its letter or in the next word, and then it does
not start with a dash. No option is given twice. Behind a lone `--` there are operands only.
-/

namespace Atari

/-- Why words are no command. -/
inductive UsageError
  | noCommand
  | unknownCommand (word : String)
  | unknownOption (word : String)
  | repeated (option : String)
  | noValue (option : String)
  | unusedValue (option : String)
  | noNumber (option value : String)
  | missing (name : String)
  | unexpected (word : String)
  deriving DecidableEq, Repr

/-- The text that reports the error. -/
def UsageError.message : UsageError → String
  | noCommand => "a command is missing"
  | unknownCommand word => "unknown command '" ++ word ++ "'"
  | unknownOption word => "unknown option '" ++ word ++ "'"
  | repeated option => "option '" ++ option ++ "' is given twice"
  | noValue option => "option '" ++ option ++ "' needs a value"
  | unusedValue option => "option '" ++ option ++ "' takes no value"
  | noNumber option value => "'" ++ value ++ "' is no number for option '" ++ option ++ "'"
  | missing name => "'" ++ name ++ "' is missing"
  | unexpected word => "unexpected word '" ++ word ++ "'"

/-- An option of a command. -/
structure OptionKind where
  name : String
  letter : Option Char := none
  takesValue : Bool := false
  deriving DecidableEq, Repr

/-- The options that words give, and the operands among them. -/
structure Options where
  given : List (String × String) := []
  operands : List String := []
  deriving DecidableEq, Repr

namespace Options

/-- Adds an option in front; the value of one that takes none is empty. -/
def give (name value : String) (o : Options) : Except UsageError Options :=
  if o.given.any (·.1 = name) then .error (.repeated name)
  else .ok { o with given := (name, value) :: o.given }

/-- Whether a word is looked at as options. -/
def isOption (word : String) : Bool := word.startsWith "-" && word != "-"

/-- The options in one word, and the one that takes the next word as its value. -/
abbrev Word := List (String × String) × Option OptionKind

/-- The option in a word behind two dashes. -/
def long (kinds : List OptionKind) (cs : List Char) : Except UsageError Word :=
  let name := String.ofList (cs.takeWhile (· ≠ '='))
  match kinds.find? (·.name = name), cs.dropWhile (· ≠ '=') with
  | none, _ => .error (.unknownOption name)
  | some kind, [] => if kind.takesValue then .ok ([], some kind) else .ok ([(name, "")], none)
  | some kind, _ :: value =>
    if kind.takesValue then .ok ([(name, String.ofList value)], none) else .error (.unusedValue name)

/-- The options in a word behind one dash. -/
def short (kinds : List OptionKind) : List Char → Except UsageError Word
  | [] => .ok ([], none)
  | c :: cs => match kinds.find? (·.letter = some c) with
    | none => .error (.unknownOption (String.singleton c))
    | some kind =>
      if kind.takesValue then
        match cs with
        | [] => .ok ([], some kind)
        | '=' :: value => .ok ([(kind.name, String.ofList value)], none)
        | value => .ok ([(kind.name, String.ofList value)], none)
      else do
        let (given, pending) ← short kinds cs
        return ((kind.name, "") :: given, pending)

/-- The options in a word that is looked at as options. -/
def word (kinds : List OptionKind) (w : String) : Except UsageError Word :=
  match w.toList with
  | '-' :: '-' :: cs => long kinds cs
  | '-' :: cs => short kinds cs
  | _ => .error (.unexpected w)

def giveAll (given : List (String × String)) (o : Options) : Except UsageError Options :=
  given.foldrM (fun (name, value) => give name value) o

/-- Words apart as options and operands. -/
def scan (kinds : List OptionKind) : List String → Except UsageError Options
  | [] => .ok {}
  | w :: ws =>
    if w = "--" then .ok { operands := ws }
    else if !isOption w then
      (scan kinds ws).map fun o => { o with operands := w :: o.operands }
    else match word kinds w, ws with
      | .error e, _ => .error e
      | .ok (given, none), ws => (scan kinds ws).bind (giveAll given)
      | .ok (_, some kind), [] => .error (.noValue kind.name)
      | .ok (given, some kind), value :: ws =>
        if isOption value then .error (.noValue kind.name)
        else (scan kinds ws).bind (giveAll (given ++ [(kind.name, value)]))

def value? (o : Options) (name : String) : Option String := o.given.lookup name

def has (o : Options) (name : String) : Bool := (o.value? name).isSome

/-- The number that is the value of an option. -/
def number? (o : Options) (name : String) : Except UsageError (Option Nat) :=
  match o.value? name with
  | none => .ok none
  | some value =>
    let cs := value.toList
    match Yaml.digits? 10 (if cs.head? = some '+' then cs.drop 1 else cs) with
    | some n => if n ≤ Yaml.maxCount then .ok (some n) else .error (.noNumber name value)
    | none => .error (.noNumber name value)

/-- The only operand, which is a path. -/
def path (o : Options) (name : String) : Except UsageError String :=
  match o.operands with
  | [] => .error (.missing name)
  | [path] => if path = "" then .error (.missing name) else .ok path
  | _ :: word :: _ => .error (.unexpected word)

end Options

/-- What is asked for. -/
inductive Command
  /-- Runs a machine file. -/
  | run (machine : String) (steps : Option Nat) (trace window : Bool)
  /-- Lists the instructions of a file. -/
  | disassemble (file address : String) (start : Option String) (count : Nat)
  /-- Tells the version of the program. -/
  | version
  deriving DecidableEq, Repr

/-- A command and whether the log tells more. -/
structure Arguments where
  verbose : Bool
  command : Command
  deriving DecidableEq, Repr

namespace Arguments

/-- The option that makes the log tell more. -/
def verboseOption : OptionKind := { name := "verbose", letter := some 'v' }

/-- The option that asks for the version. -/
def versionOption : OptionKind := { name := "version", letter := some 'V' }

def runOptions : List OptionKind :=
  [verboseOption, { name := "steps", letter := some 's', takesValue := true },
    { name := "trace", letter := some 't' }, { name := "window", letter := some 'w' }]

/-- The options of listing. -/
def disassembleOptions : List OptionKind :=
  [verboseOption, { name := "address", letter := some 'a', takesValue := true },
    { name := "start", takesValue := true },
    { name := "count", letter := some 'c', takesValue := true }]

/-- The number of lines that are listed if no number is given. -/
def defaultCount : Nat := 20

/-- The command of its name and the words behind it. -/
def ofCommand (name : String) (words : List String) : Except UsageError Arguments :=
  match name with
  | "run" => do
    let o ← Options.scan runOptions words
    let command := .run (← o.path "machine") (← o.number? "steps") (o.has "trace") (o.has "window")
    return ⟨o.has "verbose", command⟩
  | "disassemble" => do
    let o ← Options.scan disassembleOptions words
    let some address := o.value? "address" | throw (.missing "address")
    let count := (← o.number? "count").getD defaultCount
    return ⟨o.has "verbose", .disassemble (← o.path "file") address (o.value? "start") count⟩
  | _ => throw (.unknownCommand name)

/-- The options in front of the name of the command. Nothing is looked at behind the one that asks for
the version. -/
def front : List String → List String
  | [] => []
  | w :: ws =>
    if !Options.isOption w then []
    else if w = "--version" then [w]
    else if w.startsWith "--" then w :: front ws
    else if w.contains 'V' then [String.ofList (w.toList.takeWhile (· ≠ 'V')) ++ "V"]
    else w :: front ws

/-- The command of the words. -/
def parse (words : List String) : Except UsageError Arguments := do
  let options := front words
  if options.contains "--" then throw .noCommand
  let o ← Options.scan [verboseOption, versionOption] options
  if o.has "version" then return ⟨o.has "verbose", .version⟩
  match words.drop options.length with
  | [] => throw .noCommand
  | name :: words =>
    let a ← ofCommand name words
    return { a with verbose := a.verbose || o.has "verbose" }

end Arguments

end Atari
