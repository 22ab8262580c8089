/-!
# Reading a command line

A command line names a command and gives it options: two hyphens, a name, and for most of them a
value, as the next argument or after an equals sign.  No option may come twice.  An argument that
begins with a hyphen is a value only for an option that takes negative numbers.

The option for logging may stand before the command as well; after it, it counts more.
-/
namespace TileAtlas

/-- What an option takes. -/
inductive OptionKind where
  | flag
  | text
  /-- A number without a minus sign. -/
  | count (high : Nat)
  | number (low high : Int)
deriving DecidableEq

structure OptionRule where
  name : String
  kind : OptionKind
deriving DecidableEq

inductive OptionValue where
  | present
  | text (s : String)
  | number (n : Int)
deriving DecidableEq

/-- The options that are given. -/
abbrev Options := List (String × OptionValue)

namespace Options

def has (o : Options) (name : String) : Bool := (o.lookup name).isSome

def text? (o : Options) (name : String) : Option String :=
  match o.lookup name with
  | some (.text s) => some s
  | _ => none

def number? (o : Options) (name : String) : Option Int :=
  match o.lookup name with
  | some (.number n) => some n
  | _ => none

end Options

namespace CommandLine

/-- A number in decimal digits. -/
def digits? (cs : List Char) : Option Nat :=
  if cs.isEmpty || !cs.all Char.isDigit then none
  else some (cs.foldl (fun n c => n * 10 + (c.toNat - 48)) 0)

/-- A number in decimal digits, perhaps after a plus sign. -/
def count? : List Char → Option Nat
  | '+' :: cs => digits? cs
  | cs => digits? cs

/-- A number in decimal digits, perhaps after a sign. -/
def number? : List Char → Option Int
  | '-' :: cs => (digits? cs).map fun n => -(n : Int)
  | cs => (count? cs).map fun n => (n : Int)

/-- The value that an argument is for a kind of option. -/
def value? (k : OptionKind) (arg : String) : Option OptionValue :=
  match k with
  | .flag => none
  | .text => some (.text arg)
  | .count high => do
    let n ← count? arg.toList
    if n ≤ high then some (.number n) else none
  | .number low high => do
    let n ← number? arg.toList
    if low ≤ n && n ≤ high then some (.number n) else none

def takesNegative : OptionKind → Bool
  | .number low _ => low < 0
  | _ => false

/-- Whether an argument can be the value before it is read as one. -/
def mayBeValue (k : OptionKind) (arg : String) : Bool :=
  match arg.toList with
  | '-' :: c :: cs => takesNegative k && (c :: cs).all Char.isDigit
  | _ => true

/-- Name and value of an option, the value if it follows an equals sign. -/
def splitOption (arg : List Char) : String × Option String :=
  let name := arg.takeWhile (· ≠ '=')
  match arg.dropWhile (· ≠ '=') with
  | [] => (String.ofList name, none)
  | _ :: value => (String.ofList name, some (String.ofList value))

/-- Whether an argument begins an option; two hyphens alone end all options. -/
def optionOf? (arg : String) : Option (List Char) :=
  match arg.toList with
  | '-' :: '-' :: c :: cs => some (c :: cs)
  | _ => none

/-- Take options from the front of some arguments; also the arguments from the first one on that is
no option. -/
def takeOptions (rules : List OptionRule) : List String → Options → Option (Options × List String)
  | [], o => some (o, [])
  | arg :: args, o =>
    match optionOf? arg with
    | none => some (o, arg :: args)
    | some cs =>
      let (name, given) := splitOption cs
      match rules.find? (·.name = name), given with
      | none, _ => none
      | some rule, some v =>
        if o.has name then none
        else
          match value? rule.kind v with
          | some v => takeOptions rules args ((name, v) :: o)
          | none => none
      | some rule, none =>
        if o.has name then none
        else if rule.kind = .flag then takeOptions rules args ((name, .present) :: o)
        else
          match args with
          | [] => none
          | v :: rest =>
            if mayBeValue rule.kind v then
              match value? rule.kind v with
              | some v => takeOptions rules rest ((name, v) :: o)
              | none => none
            else none

end CommandLine

/-! ## Commands -/

inductive CommandName where
  | apply
  | stats
  | tile
  | rebuild
  | verify
  | dirty
deriving DecidableEq

namespace CommandName

def name : CommandName → String
  | apply => "apply"
  | stats => "stats"
  | tile => "tile"
  | rebuild => "rebuild"
  | verify => "verify"
  | dirty => "dirty"

def all : List CommandName := [apply, stats, tile, rebuild, verify, dirty]

def ofName? (s : String) : Option CommandName := all.find? (·.name = s)

def storeOption : OptionRule := ⟨"store", .text⟩

def logOption : OptionRule := ⟨"log-level", .text⟩

/-- The options of commands that place elements. -/
def indexOptions : List OptionRule :=
  [⟨"tile-level", .number 0 255⟩, ⟨"inline-limit", .count (UInt64.size - 1)⟩, ⟨"legacy-references", .flag⟩]

/-- A column or a row of the grid. -/
def coordinate : OptionKind := .number Int64.minValue.toInt Int64.maxValue.toInt

def options : CommandName → List OptionRule
  | apply => [storeOption, ⟨"changeset", .text⟩, ⟨"strict-modify", .flag⟩] ++ indexOptions
  | stats => [storeOption]
  | tile => [storeOption, ⟨"tile-x", coordinate⟩, ⟨"tile-y", coordinate⟩]
  | rebuild => [storeOption, ⟨"references", .flag⟩, ⟨"tiles", .flag⟩] ++ indexOptions
  | verify => storeOption :: indexOptions
  | dirty => [storeOption, ⟨"clear", .flag⟩]

end CommandName

structure CommandLine where
  command : CommandName
  options : Options
  /-- What to log. -/
  logFilter : Option String
deriving DecidableEq

namespace CommandLine

/-- Two hyphens may end a command line. -/
def isEnd (args : List String) : Bool := args.isEmpty || args == ["--"]

def parse? (args : List String) : Option CommandLine := do
  match ← takeOptions [CommandName.logOption] args [] with
  | (before, name :: rest) =>
    let command ← CommandName.ofName? name
    let (options, rest) ← takeOptions (CommandName.logOption :: command.options) rest []
    if isEnd rest then
      some ⟨command, options, (options.text? "log-level").or (before.text? "log-level")⟩
    else none
  | (_, []) => none

end CommandLine
end TileAtlas
