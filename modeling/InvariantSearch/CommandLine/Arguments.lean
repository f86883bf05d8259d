/-!
# Arguments of a command line

The words of a command line are options with their values, and positional
words.

* `--name value`, `--name=value` and `-x value` give an option a value.
* Some options are flags and take none; some take every word up to the next
  one that starts with a dash.
* `Arguments.ofWords` sorts the words, `Arguments.value` and its companions
  look options up.
-/

namespace InvariantSearch

/-- How many values an option takes. -/
inductive Arity where
  | flag | one | many
  deriving DecidableEq, Repr

/-- An option: its name, the letter for it if there is one, and its arity. -/
structure OptionForm where
  name : String
  letter : Option Char
  arity : Arity
  deriving DecidableEq, Repr

/-- Why a command line is refused. -/
inductive UsageFault where
  | unknownOption (word : String)
  | missingValue (option : String)
  | unexpectedValue (option : String)
  | repeated (option : String)
  | notNumber (value option : String)
  | extraWord
  | noSubcommand
  | unknownSubcommand (word : String)
  | noFile
  /-- A value that is none of those the option knows. -/
  | invalidValue (value option : String)
  /-- A value that is neither a yes nor a no. -/
  | invalidSwitch (value option : String)
  | onlyVerify
  deriving DecidableEq, Repr

def UsageFault.message : UsageFault → String
  | .unknownOption word => "unrecognised option '" ++ word ++ "'"
  | .missingValue option => "the required argument for option '--" ++ option ++ "' is missing"
  | .unexpectedValue option => "option '--" ++ option ++ "' does not take any arguments"
  | .repeated option => "option '--" ++ option ++ "' cannot be specified more than once"
  | .notNumber value option =>
    "the argument ('" ++ value ++ "') for option '--" ++ option ++ "' is invalid"
  | .extraWord => "too many positional options have been specified on the command line"
  | .noSubcommand => "No subcommand given; see --help"
  | .unknownSubcommand word => "Unknown subcommand \"" ++ word ++ "\"; see --help"
  | .noFile => "No program file given; see --help"
  | .invalidValue value option => "Invalid value \"" ++ value ++ "\" for --" ++ option
  | .invalidSwitch value option =>
    "Invalid value \"" ++ value ++ "\" for --" ++ option ++ ", expected true or false"
  | .onlyVerify => "--check-invariant and --check-transition only apply to verify"

/-- Options with their values in the order given, a flag with the empty value,
and the positional words. -/
structure Arguments where
  options : List (String × String)
  positional : List String
  deriving DecidableEq, Repr

namespace Arguments

def empty : Arguments := ⟨[], []⟩

def addValue (a : Arguments) (option value : String) : Arguments :=
  { a with options := a.options ++ [(option, value)] }

def addWord (a : Arguments) (word : String) : Arguments :=
  { a with positional := a.positional ++ [word] }

/-! ## Sorting the words -/

/-- What the next word may be. -/
inductive Expecting where
  | anything
  /-- The value of an option. -/
  | value (option : String)
  /-- Another value of an option, or anything. -/
  | values (option : String)
  deriving DecidableEq, Repr

def looksLikeOption (word : String) : Bool := word.startsWith "-" && word ≠ "-"

/-- The option of a word, and the value that comes with it after an equals
sign. -/
def option? (forms : List OptionForm) (word : String) : Option (OptionForm × Option String) :=
  match word.toList with
  | '-' :: '-' :: rest =>
    let name := String.ofList (rest.takeWhile (· ≠ '='))
    let value := match rest.dropWhile (· ≠ '=') with
      | [] => none
      | _ :: value => some (String.ofList value)
    (forms.find? fun form => form.name == name).map fun form => (form, value)
  | ['-', letter] =>
    (forms.find? fun form => form.letter == some letter).map fun form => (form, none)
  | _ => none

def takeWord (forms : List OptionForm) (a : Arguments) (word : String) :
    Except UsageFault (Arguments × Expecting) :=
  if looksLikeOption word then
    match option? forms word with
    | none => .error (.unknownOption word)
    | some (form, value) =>
      match form.arity, value with
      | .flag, none => .ok (a.addValue form.name "", .anything)
      | .flag, some _ => .error (.unexpectedValue form.name)
      | .one, none => .ok (a, .value form.name)
      | .one, some value => .ok (a.addValue form.name value, .anything)
      | .many, none => .ok (a, .values form.name)
      | .many, some value => .ok (a.addValue form.name value, .values form.name)
  else .ok (a.addWord word, .anything)

def sortWords (forms : List OptionForm) (a : Arguments) :
    Expecting → List String → Except UsageFault Arguments
  | .value option, [] => .error (.missingValue option)
  | _, [] => .ok a
  | .value option, word :: words => sortWords forms (a.addValue option word) .anything words
  | .values option, word :: words =>
    if looksLikeOption word then do
      let (a, expecting) ← takeWord forms a word
      sortWords forms a expecting words
    else sortWords forms (a.addValue option word) (.values option) words
  | .anything, word :: words => do
    let (a, expecting) ← takeWord forms a word
    sortWords forms a expecting words

def ofWords (forms : List OptionForm) (words : List String) : Except UsageFault Arguments :=
  sortWords forms empty .anything words

/-! ## Looking options up -/

def has (a : Arguments) (option : String) : Bool := a.options.any fun given => given.1 == option

def values (a : Arguments) (option : String) : List String :=
  (a.options.filter fun given => given.1 == option).map Prod.snd

/-- The value of an option, or a default. It can be given once only. -/
def value (a : Arguments) (option default : String) : Except UsageFault String :=
  match a.values option with
  | [] => .ok default
  | [value] => .ok value
  | _ => .error (.repeated option)

/-- The number that is the value of an option, or a default. It has to be below
a bound. -/
def number (a : Arguments) (option : String) (default bound : Nat) : Except UsageFault Nat :=
  match a.values option with
  | [] => .ok default
  | [value] =>
    match value.toNat? with
    | some n =>
      if value.toList.all Char.isDigit ∧ n < bound then .ok n
      else .error (.notNumber value option)
    | none => .error (.notNumber value option)
  | _ => .error (.repeated option)

def switch (option value : String) : Except UsageFault Bool :=
  if ["true", "yes", "on", "1"].contains value then .ok true
  else if ["false", "no", "off", "0"].contains value then .ok false
  else .error (.invalidSwitch value option)

def choice {α : Type} (ofWord? : String → Option α) (option value : String) :
    Except UsageFault α :=
  match ofWord? value with
  | some choice => .ok choice
  | none => .error (.invalidValue value option)

end Arguments

end InvariantSearch
