import TileMind.Project.CommandLine

/-!
# TileMind.Main

The program itself: carries out the plan of a command line on the file system, and prints.
-/

namespace TileMind

/-- Why a file cannot be used, as the system says it. -/
def FileError.ofSystem (e : IO.Error) : FileError :=
  match e with
  | .noFileOrDirectory .. => .missing
  | .inappropriateType .. => .isDirectory
  | e => .other (toString e)

/-- Carries out a plan on the file system. -/
def Disk.perform {α : Type} : Disk α → IO α
  | .done a => pure a
  | .read path next => do
    let result : Except FileError (List UInt8) ←
      try
        let bytes ← IO.FS.readBinFile path
        pure (.ok bytes.toList)
      catch e => pure (.error (.ofSystem e))
    (next result).perform
  | .probe path next => do
    let found ←
      try
        let _ ← IO.FS.Handle.mk path .read
        pure true
      catch _ => pure false
    (next found).perform
  | .write path bytes next => do
    let result : Option FileError ←
      try
        IO.FS.writeBinFile path (ByteArray.mk bytes.toArray)
        pure none
      catch e => pure (some (.ofSystem e))
    (next result).perform

/-- Sixteen random bytes in the form of a universally unique identifier. -/
def freshId : IO String := do
  let digits ← (List.range 32).mapM fun i => do
    if i = 12 then pure "4"
    else if i = 16 then return Text.hexDigits 1 (← IO.rand 8 11)
    else return Text.hexDigits 1 (← IO.rand 0 15)
  let part (start count : Nat) : String := String.join ((digits.drop start).take count)
  return "-".intercalate [part 0 8, part 8 4, part 12 4, part 16 4, part 20 12]

end TileMind

def main (args : List String) : IO UInt32 := do
  let here := (← IO.currentDir).toString
  let id ← TileMind.freshId
  let outcome ← (TileMind.CommandLine.run .standard args here id).perform
  (← IO.getStdout).putStr outcome.stdout
  (← IO.getStderr).putStr outcome.stderr
  return outcome.exit.toUInt32
