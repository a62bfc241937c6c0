import PolishCalc.Console

/-! The command line: `--ast` shows trees as well, and the other argument is a script to run. With no
script there is a prompt. -/
namespace PolishCalc

def readScript (path : String) : IO (Except Console.ReadFailure (List UInt8)) := do
  try
    return .ok (← IO.FS.readBinFile path).toList
  catch
    | .noFileOrDirectory .. => return .error .notFound
    | .inappropriateType _ 21 _ => return .error .isDirectory
    | e => return .error (.other (toString e))

/-- The bytes up to and including the next line feed, in reverse. -/
partial def readLine (stdin : IO.FS.Stream) (line : List UInt8) : IO (List UInt8) := do
  match (← stdin.read 1).toList with
  | [] => return line
  | b :: _ => if b = 10 then return b :: line else readLine stdin (b :: line)

partial def promptLoop (showTree : Bool) : IO UInt32 := do
  let stdout ← IO.getStdout
  stdout.putStr Console.promptMark
  stdout.flush
  let line ← readLine (← IO.getStdin) []
  let now := Console.turn showTree (if line.isEmpty then none else some line.reverse)
  stdout.putStr now.written.stdout
  IO.eprint now.written.stderr
  if now.last then
    return now.written.exitCode.toUInt32
  promptLoop showTree

def usage : String := "Usage: polish [--ast] [SCRIPT]\n"

def runCommand (args : List String) : IO UInt32 := do
  let showTree := args.contains "--ast"
  match args.filter (· != "--ast") with
  | [] => promptLoop showTree
  | [path] =>
    let output := Console.script showTree path (← readScript path)
    IO.print output.stdout
    IO.eprint output.stderr
    return output.exitCode.toUInt32
  | _ =>
    IO.eprint usage
    return 2

end PolishCalc

def main (args : List String) : IO UInt32 := PolishCalc.runCommand args
