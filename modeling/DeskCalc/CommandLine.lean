import DeskCalc.CommandLine.Options
import DeskCalc.Session

/-!
# The program on the command line

Given expressions, the program evaluates them in one session and writes one block of text for each.
Without expressions it converses: it writes a prompt, reads a line, answers it, and so on until the
lines end or one of them asks to quit. `run` is all of this as a function from the arguments and
the standard input to the exit code and the standard output, for arguments that ask neither for help
nor for the version. What is logged goes to the standard error and is left out.
-/

namespace DeskCalc

namespace CommandLine

/-- What a block of text shows beside the value or the failure. -/
structure Style where
  /-- The trace of a value. -/
  trace : Bool
  /-- The class of a failure. -/
  codes : Bool

/-- The lines of a trace. -/
def traceLines (t : Trace) : Text :=
  "  canonique : ".toList ++ t.canonical ++ ['\n'] ++
  "  jetons    : ".toList ++ t.tokens ++ ['\n'] ++
  "  rpn       : ".toList ++ t.items ++ ['\n'] ++
  "  arbre     : ".toList ++ t.tree ++ ['\n']

/-- The block of text for one evaluation. -/
def block (style : Style) : Except Refusal Outcome → Text
  | .ok outcome =>
    (if style.trace then traceLines outcome.trace else []) ++
      Decimal.display outcome.value ++ ['\n']
  | .error refusal =>
    Refusal.uniform ++ (if style.codes then [' ', '('] ++ refusal.code ++ [')'] else []) ++ ['\n']

/-- Whether an evaluation failed. -/
def failed : Except Refusal Outcome → Bool
  | .ok _ => false
  | .error _ => true

/-- The results of expressions evaluated one after the other. -/
def evaluateAll (s : Session) : List Text → List (Except Refusal Outcome)
  | [] => []
  | e :: es => (s.evaluate e).1 :: evaluateAll (s.evaluate e).2 es

/-- What a line asks for. -/
inductive Request where
  | nothing
  | quit
  | showAnswer
  | clearAnswer
  /-- To complete what is typed with the last answer and evaluate it. -/
  | complete (buffer : Text)
  | evaluate (expression : Text)

/-- What a trimmed line asks for. -/
def request (line : Text) : Request :=
  if line.isEmpty then .nothing
  else if line = ":quit".toList ∨ line = ":q".toList then .quit
  else if line = ":ans".toList then .showAnswer
  else if line = ":effacer".toList then .clearAnswer
  else if ":ans ".toList.isPrefixOf line then .complete (Text.trim (line.drop 5))
  else .evaluate line

/-- The answer to a line, and the session after it; none if the conversation ends. -/
def respond (style : Style) (s : Session) (line : Text) : Option (Text × Session) :=
  match request (Text.trim line) with
  | .nothing => some ([], s)
  | .quit => none
  | .showAnswer =>
    match s.answer with
    | some v => some (Decimal.display v ++ ['\n'], s)
    | none => some ("aucune\n".toList, s)
  | .clearAnswer => some ([], s.clearAnswer)
  | .complete buffer =>
    let completed := s.insertAnswer buffer
    let (result, s) := s.evaluate completed
    some ([' ', ' '] ++ completed ++ ['\n'] ++ block style result, s)
  | .evaluate expression =>
    let (result, s) := s.evaluate expression
    some (block style result, s)

/-- What the program writes before the first prompt. -/
def banner : Text :=
  ("Calculatrice ANS\n" ++
   ":ans     - dernière réponse\n" ++
   ":ans 2*  - complète la saisie avec la dernière réponse\n" ++
   ":effacer - oublie la dernière réponse\n" ++
   ":quit    - quitter\n\n").toList

/-- What the program writes before it reads a line. -/
def prompt : Text := ['>', ' ']

/-- What the program writes in a conversation of the given lines. -/
def converse (style : Style) (s : Session) : List Text → Text
  | [] => prompt
  | line :: rest =>
    match respond style s line with
    | some (text, s) => prompt ++ text ++ converse style s rest
    | none => prompt

/-- The lines of a text, each ended by a line feed or by the end of the text. -/
def lines : Text → List Text
  | [] => []
  | c :: t =>
    if c = '\n' then [] :: lines t
    else match lines t with
      | [] => [[c]]
      | line :: rest => (c :: line) :: rest

/-- How the blocks of text look under the options. -/
def style (o : Options) : Style :=
  { trace := o.given.contains .trace, codes := o.given.contains .codes }

/-- The exit code and the standard output for the given arguments and standard input. The code is 2
if the arguments are not understood, 1 if an expression among them fails, and else 0. -/
def run (args : List Text) (stdin : Text) : Nat × Text :=
  match Options.parse args with
  | none => (2, [])
  | some o =>
    let session := Session.new o.settings
    if o.expressions.isEmpty then (0, banner ++ converse (style o) session (lines stdin))
    else
      let results := evaluateAll session o.expressions
      (if results.any failed then 1 else 0, (results.map (block (style o))).flatten)

end CommandLine

end DeskCalc
