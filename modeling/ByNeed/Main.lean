/-
The command itself: environment and input in, output and exit status out.
-/
import ByNeed.Cli

/-- all bytes of a stream -/
partial def readAll (input : IO.FS.Stream) (seen : ByteArray) : IO ByteArray := do
  let chunk ← input.read 65536
  if chunk.isEmpty then return seen else readAll input (seen ++ chunk)

/-- the input is read only where the program reads it -/
def inputFor (args : List String) : IO ByteArray := do
  match ByNeed.Cli.parse args with
  | some (.run _ .echo) => readAll (← IO.getStdin) ByteArray.empty
  | _ => return ByteArray.empty

def main (args : List String) : IO UInt32 := do
  let names := [ByNeed.Settings.lineBufferedVar, ByNeed.Settings.capacityVar, ByNeed.Settings.levelVar]
  let vars ← names.mapM fun name => return (name, ← IO.getEnv name)
  let stdin ← inputFor args
  let exit := ByNeed.Cli.run (Nat.pow 2 62) args (fun name => (vars.lookup name).join) stdin.toList
  let stdout ← IO.getStdout
  stdout.write ⟨exit.stdout.toArray⟩
  stdout.flush
  IO.eprint exit.report
  return exit.code.toUInt32
