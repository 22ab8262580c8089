/-!
# Log filters

A filter is a list of directives between commas.  A directive is a level, or the name of what is
logged, then perhaps a span in brackets — its name, and fields in braces — then perhaps an equals
sign and a level.  Blanks may stand around a directive only when it has no equals sign.  Only
whether a filter is well formed is told here.
-/
namespace TileAtlas
namespace LogFilter

def levelNames : List String := ["off", "error", "warn", "info", "debug", "trace"]

/-- A level by name, in letters of either case, or by a number up to five; an empty one counts. -/
def isLevel (cs : List Char) : Bool :=
  let digits := if cs.head? = some '+' then cs.tail else cs
  cs.isEmpty || levelNames.contains (String.ofList (cs.map Char.toLower))
    || (!digits.isEmpty && digits.all Char.isDigit
      && digits.foldl (fun n c => n * 10 + (c.toNat - 48)) 0 ≤ 5)

/-- What may follow a span; `tight` says that no blanks stand around the directive. -/
def afterSpan (tight : Bool) : List Char → Bool
  | [] => true
  | '=' :: level => tight && isLevel level
  | _ => false

/-- The fields of a span, from within one on; none may be empty. -/
def inField (tight started : Bool) : List Char → Bool
  | [] => false
  | '}' :: ']' :: rest => started && afterSpan tight rest
  | c :: rest => c != '}' && inField tight true rest

def inSpan (tight : Bool) : List Char → Bool
  | [] => false
  | ']' :: rest => afterSpan tight rest
  | '{' :: rest => inField tight false rest
  | _ :: rest => inSpan tight rest

/-- The rest of a name, or of a level alone. -/
def inName (tight : Bool) : List Char → Bool
  | [] => true
  | '=' :: level => tight && isLevel level
  | '[' :: rest => inSpan tight rest
  | _ :: rest => inName tight rest

def beginsName (c : Char) : Bool := ['-', ':', '_'].contains c || c.isAlphanum || 128 ≤ c.toNat

def isDirective (directive : String) : Bool :=
  let inner := directive.trimAscii.toString
  let tight := inner == directive
  match inner.toList with
  | [] => false
  | '[' :: rest => inSpan tight rest
  | c :: rest => beginsName c && inName tight rest

/-- Commas without a directive between them mean nothing. -/
def isWellFormed (filter : String) : Bool :=
  ((filter.splitOn ",").filter (· ≠ "")).all isDirective

end LogFilter
end TileAtlas
