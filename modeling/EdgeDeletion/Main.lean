/-
The command line of the inspector.
-/
import EdgeDeletion.Inspect.Outcome

/-- Reads a file, or tells why it cannot be read. -/
def EdgeDeletion.Inspect.readText (path : String) : IO (Except String String) := do
  try
    pure (.ok (← IO.FS.readFile path))
  catch e =>
    pure (.error (toString e))

/-- Runs the inspector on the arguments. -/
def main (args : List String) : IO UInt32 := do
  let result ← EdgeDeletion.Inspect.respond EdgeDeletion.Inspect.readText args
  IO.print result.stdout
  IO.eprint result.stderr
  pure result.exitCode
