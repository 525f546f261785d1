import ImplicitCurves.CommandLine

/-!
# The program

Reads the file that is given as the argument, or what is piped in, and writes the answers and the
messages.
-/

namespace ImplicitCurves

/-- The bytes of a stream up to its end. -/
partial def readToEnd (stream : IO.FS.Stream) (bytes : ByteArray) : IO ByteArray := do
  let chunk ← stream.read 65536
  if chunk.isEmpty then return bytes
  else readToEnd stream (bytes ++ chunk)

/-- What is in a file. -/
def readInput (file : String) : IO InputContents := do
  try
    return .ofBytes (← IO.FS.readBinFile file)
  catch _ => return .missing

end ImplicitCurves

/-- Runs the program on the file or the piped text. -/
def main (arguments : List String) : IO UInt32 := do
  let viewport ← IO.getEnv ImplicitCurves.Invocation.viewportVariable
  let contents ←
    match arguments with
    | file :: _ => ImplicitCurves.readInput file
    | [] => do
      let bytes ← ImplicitCurves.readToEnd (← IO.getStdin) .empty
      pure (ImplicitCurves.InputContents.ofBytes bytes)
  let transcript := (ImplicitCurves.Invocation.mk arguments.head? contents viewport).run
  IO.print (String.ofList transcript.output)
  for line in transcript.errors do
    IO.eprintln line
  return 0
