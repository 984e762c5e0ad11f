import DeskCalc.Settings
import DeskCalc.Text.Blank

/-!
# Command-line arguments

Arguments are expressions and options in any order. An option starts with a hyphen, may be given
once, and after `--` there are no options any more. A lone hyphen is an expression. The number of
decimal places stands in the same argument, after `=`, or in the next one, which then must not look
like an option: so `-0` is a number only after `=`.

Requests for help and for the version, `--help`, `-h`, `--version` and `-V`, are left out: they are
answered with texts that are made from the declaration of the options and not by the calculator, and
`parse` fails on them as on an option that it does not know. Left out too are the texts about
arguments that are not understood, which go to the standard error.
-/

namespace DeskCalc

/-- An option of the command line. -/
inductive Flag where
  /-- The decimal places of an answer: `--decimales` with a number. -/
  | decimals
  /-- Shows how a value came about: `--demarche`. -/
  | trace
  /-- Shows the class of a failure: `--detail`. -/
  | codes
  /-- Asks for a log, which is not part of the answers: `-v` or `--verbose`. -/
  | verbose
  deriving DecidableEq

/-- What the command line asks for. -/
structure Options where
  /-- The expressions, in order. -/
  expressions : List Text := []
  /-- The number given for the decimal places. -/
  decimals : Option Nat := none
  /-- The options given so far. -/
  given : List Flag := []

namespace Options

/-- The number that an argument gives for the decimal places: ASCII digits with an optional sign, in
the range of 32 bits. -/
def parseDecimals? (t : Text) : Option Nat :=
  let (negative, digits) := match t with
    | '+' :: r => (false, r)
    | '-' :: r => (true, r)
    | r => (false, r)
  let n := Nat.ofDigitChars 10 digits 0
  if digits.isEmpty || !digits.all Char.isDigit then none
  else if negative && n != 0 then none
  else if n < 2 ^ 32 then some n
  else none

/-- Records an option, if it was not given before. -/
def give (o : Options) (flag : Flag) : Option Options :=
  if flag ∈ o.given then none else some { o with given := flag :: o.given }

/-- Records the number of decimal places. -/
def giveDecimals (o : Options) (value : Text) : Option Options := do
  let n ← parseDecimals? value
  let o ← o.give .decimals
  return { o with decimals := some n }

/-- The option that an argument writes, other than the one with a number. -/
def flag? (arg : Text) : Option Flag :=
  if arg = "--demarche".toList then some .trace
  else if arg = "--detail".toList then some .codes
  else if arg = "--verbose".toList ∨ arg = "-v".toList then some .verbose
  else none

/-- The text after `--decimales=` in an argument that starts so. -/
def decimalsValue? (arg : Text) : Option Text :=
  let start := "--decimales=".toList
  if start.isPrefixOf arg then some (arg.drop start.length) else none

/-- Whether an argument is read as an option: it starts with a hyphen and has more than that. -/
def looksLikeOption (arg : Text) : Bool :=
  arg.head? == some '-' && arg != ['-']

/-- Reads the arguments that are left, or fails if they are not as they should be. -/
def parseFrom (o : Options) : List Text → Option Options
  | [] => some o
  | arg :: args =>
    if arg = "--".toList then some { o with expressions := o.expressions ++ args }
    else if arg = "--decimales".toList then
      match args with
      | [] => none
      | value :: args =>
        if looksLikeOption value then none
        else do (← o.giveDecimals value).parseFrom args
    else if looksLikeOption arg then
      match flag? arg, decimalsValue? arg with
      | some flag, _ => do (← o.give flag).parseFrom args
      | none, some value => do (← o.giveDecimals value).parseFrom args
      | none, none => none
    else { o with expressions := o.expressions ++ [arg] }.parseFrom args

/-- The options that arguments ask for. -/
def parse (args : List Text) : Option Options :=
  parseFrom {} args

/-- The settings of the session. -/
def settings (o : Options) : Settings :=
  match o.decimals with
  | some n => Settings.standard.withDecimals n
  | none => Settings.standard

end Options

end DeskCalc
