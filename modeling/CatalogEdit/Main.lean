import CatalogEdit.CommandLine
import CatalogEdit.Json.Printer

/-!
# The program

Arguments and standard input are handed to `Command.run`, and what it answers is printed.
-/

namespace CatalogEdit

def Output.text : Output → Text
  | .nothing => []
  | .usage => usageText
  | .json j => Json.render 0 j ++ utf8 "\n"

def Text.toBytes (t : Text) : ByteArray := ⟨t.toArray⟩

end CatalogEdit

open CatalogEdit in
def main (arguments : List String) : IO UInt32 := do
  let command := Command.ofArguments (arguments.map utf8)
  let stdin ← match command with
    | .planStdin _ => (·.data.toList) <$> (← IO.getStdin).readBinToEnd
    | _ => pure []
  let result := command.run stdin
  (← IO.getStderr).write result.stderr.toBytes
  (← IO.getStdout).write result.output.text.toBytes
  (← IO.getStdout).flush
  return result.exitCode.toUInt32
