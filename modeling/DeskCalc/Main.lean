import DeskCalc.CommandLine

/-!
# The executable

The conversation reads each line after its prompt is written, so that it can be held with a person;
all else is `CommandLine.run` on the arguments.
-/

namespace DeskCalc.CommandLine

/-- Writes a text and makes it visible at once. -/
def say (out : IO.FS.Stream) (t : Text) : IO Unit := do
  out.putStr (String.ofList t)
  out.flush

/-- Converses with the standard input until it ends or a line asks to quit. -/
partial def loop (input out : IO.FS.Stream) (style : Style) (s : Session) : IO Unit := do
  say out prompt
  let line ← input.getLine
  if line.isEmpty then return
  match respond style s line.toList with
  | some (text, s) => do
    say out text
    loop input out style s
  | none => return

end DeskCalc.CommandLine

open DeskCalc CommandLine in
def main (args : List String) : IO UInt32 := do
  let out ← IO.getStdout
  match Options.parse (args.map String.toList) with
  | some o =>
    if o.expressions.isEmpty then
      say out banner
      loop (← IO.getStdin) out (style o) (Session.new o.settings)
      return 0
  | none => (← IO.getStderr).putStrLn "arguments invalides"
  let (code, text) := run (args.map String.toList) []
  say out text
  return code.toUInt32
