import PolishCalc.Program
import PolishCalc.Source.WhiteSpace

/-! The calculator as a program: a script file run once, or a prompt that answers line by line. Both
are functions from the bytes read to everything written. -/
namespace PolishCalc.Console

structure Output where
  stdout : String
  stderr : String
  exitCode : UInt8
deriving DecidableEq

def decode? (bytes : List UInt8) : Option String := String.fromUTF8? bytes.toByteArray

def answer (showTree : Bool) (source : String) (view : View) : Output :=
  let run := interpret source
  match run.result with
  | .ok outcome =>
    let tree := if showTree then toString outcome.tree ++ "\n" else ""
    ⟨tree ++ toString outcome.value ++ "\n", "", run.exitCode⟩
  | .error fault => ⟨"", fault.report source run.lines view ++ "\n", run.exitCode⟩

inductive ReadFailure where
  | notFound
  | isDirectory
  | notText
  | other (reason : String)

def notTextReason : String := "stream did not contain valid UTF-8"

def ReadFailure.reason : ReadFailure → String
  | .notFound => "No such file or directory (os error 2)"
  | .isDirectory => "Is a directory (os error 21)"
  | .notText => notTextReason
  | .other reason => reason

def scriptText (content : Except ReadFailure (List UInt8)) : Except ReadFailure String := do
  match decode? (← content) with
  | some source => return source
  | none => throw .notText

def script (showTree : Bool) (path : String) (content : Except ReadFailure (List UInt8)) :
    Output :=
  match scriptText content with
  | .ok source => answer showTree source (.file path)
  | .error failure =>
    ⟨"", "Failed to read the input file '" ++ path ++ "': " ++ failure.reason ++ "\n", 66⟩

def lines : List UInt8 → List (List UInt8)
  | [] => []
  | b :: bytes =>
    if b = 10 then [b] :: lines bytes
    else match lines bytes with
      | line :: rest => (b :: line) :: rest
      | [] => [[b]]

def trimBreaks (line : List Char) : List Char :=
  (line.reverse.dropWhile fun c => c = '\n' || c = '\r').reverse

def reply (showTree : Bool) (line : String) : Output :=
  let source := trimBreaks line.toList
  if source.all Source.isWhiteSpace then ⟨"", "", 0⟩
  else answer showTree (String.ofList source) .prompt

def promptMark : String := "> "

/-- What is written behind the mark, and whether the session ends with it. -/
structure Turn where
  written : Output
  last : Bool

def turn (showTree : Bool) : Option (List UInt8) → Turn
  -- There is no next line: the input has ended.
  | none => ⟨⟨"\n", "", 0⟩, true⟩
  | some line =>
    match decode? line with
    | some text => ⟨reply showTree text, false⟩
    | none => ⟨⟨"", "Failed to read input: " ++ notTextReason ++ "\n", 1⟩, true⟩

def Output.marked (output : Output) : Output :=
  { output with stdout := promptMark ++ output.stdout }

/-- The exit status of an answer is not that of the session. -/
def Output.before (first rest : Output) : Output :=
  ⟨first.stdout ++ rest.stdout, first.stderr ++ rest.stderr, rest.exitCode⟩

def session (showTree : Bool) : List (List UInt8) → Output
  | [] => (turn showTree none).written.marked
  | line :: rest =>
    let now := turn showTree (some line)
    if now.last then now.written.marked else now.written.marked.before (session showTree rest)

def prompt (showTree : Bool) (input : List UInt8) : Output := session showTree (lines input)

end PolishCalc.Console
