import PaintOrder.Command.Basic

/-!
# Command lines

A command line is the name of a command and its file names, with options anywhere between
them:

    dump FILE [-v | --verbose]
    recompile IN OUT [--span-weight N | --span-weight=N]

Two dashes alone end the options.
-/

namespace PaintOrder

/-- The words and the options of a command line. -/
structure Arguments where
  /-- What is no option, in order. -/
  words : List String := []
  verbose : Bool := false
  spanWeight? : Option Nat := none
  deriving DecidableEq, Repr

namespace Arguments

/-- The number that some decimal digits write, if there are any and nothing else. -/
def natural? (digits : List Char) : Option Nat :=
  if digits.isEmpty || !digits.all Char.isDigit then none
  else some (digits.foldl (fun number digit => 10 * number + (digit.toNat - '0'.toNat)) 0)

/-- The span weight that a word writes: a number below `2 ^ 32`, perhaps with a sign. -/
def weight? (word : String) : Option Nat := do
  let number ←
    match word.toList with
    | '+' :: digits => natural? digits
    | '-' :: digits => (natural? digits).filter (· == 0)
    | digits => natural? digits
  if number < 1 <<< 32 then some number else none

/-- What stands behind an option and an equals sign in the same word. -/
def inlineValue? (option word : String) : Option String :=
  let start := option.toList ++ ['=']
  if start.isPrefixOf word.toList then some (String.ofList (word.toList.drop start.length))
  else none

/-- Tells the words of a command line from its options; none if an option is unknown or has
no usable value. -/
def ofList? : List String → Option Arguments
  | [] => some {}
  | word :: rest =>
      if word == "--" then some { words := rest }
      else if word == "-v" || word == "--verbose" then
        (ofList? rest).map fun arguments => { arguments with verbose := true }
      else if word == "--span-weight" then
        match rest with
        | [] => none
        | value :: rest => do
            let weight ← weight? value
            let arguments ← ofList? rest
            return { arguments with spanWeight? := some weight }
      else
        match inlineValue? "--span-weight" word with
        | some value => do
            let weight ← weight? value
            let arguments ← ofList? rest
            return { arguments with spanWeight? := some weight }
        | none =>
            if word.toList.take 1 == ['-'] && word.length > 1 then none
            else (ofList? rest).map fun arguments =>
              { arguments with words := word :: arguments.words }

end Arguments

namespace Command

/-- How to call the program. -/
def usage : String :=
  "usage: dump FILE [-v | --verbose]\n" ++
    "       recompile IN OUT [--span-weight N] [-v | --verbose]\n"

/-- The command that a command line asks for. -/
def ofArguments? (line : List String) : Option Command := do
  let arguments ← Arguments.ofList? line
  match arguments.words, arguments.spanWeight? with
  | ["dump", input], none => some (.dump input arguments.verbose)
  | ["recompile", input, output], spanWeight? =>
      some (.recompile input output (spanWeight?.getD Splitter.defaultSpanWeight))
  | _, _ => none

end Command

end PaintOrder
