import PolishCalc.Expr.Basic
import PolishCalc.Fault

/-! Reading one expression from a stream of tokens, token by token. The reader keeps the applications
that are still open; each token either changes its state, completes the expression, or is refused.
Only a token that changes the state is taken from the stream, and a parenthesis that would nest too
deep. -/
namespace PolishCalc

/-- An open application: the sign in front of it, its operator, and its operands so far, the latest
first. -/
structure Frame where
  sign : Option (Sign × Token)
  operator : Operator
  token : Token
  operands : List Expr

def Frame.close (f : Frame) : Expr :=
  let e := Expr.apply f.operator f.token f.operands.reverse
  match f.sign with
  | some (sign, token) => .signed sign token e
  | none => e

-- What may come next: an expression or the end of an application, what a sign applies to, or the
-- operator of an application that was just opened behind a sign or none.
inductive Phase where
  | operand
  | signed (sign : Sign) (token : Token)
  | operator (sign : Option (Sign × Token))

structure Reader where
  base : Nat
  frames : List Frame
  phase : Phase

namespace Reader

inductive Step where
  | shift (next : Reader)
  | finish (e : Expr)
  | refuse
  | tooDeep

def start (base : Nat) : Reader := ⟨base, [], .operand⟩

def deliver (r : Reader) (e : Expr) : Step :=
  match r.frames with
  | [] => .finish e
  | f :: fs => .shift ⟨r.base, { f with operands := e :: f.operands } :: fs, .operand⟩

def enter (r : Reader) (sign : Option (Sign × Token)) : Step :=
  if r.base + r.frames.length < maxDepth then .shift { r with phase := .operator sign }
  else .tooDeep

def leave (r : Reader) : Step :=
  match r.frames with
  | f :: fs =>
    match f.operands with
    | _ :: _ :: _ => deliver { r with frames := fs } f.close
    | _ => .refuse
  | [] => .refuse

def step (r : Reader) (t : Token) : Step :=
  match r.phase with
  | .operand =>
    match t.kind with
    | .number =>
      match t.literal with
      | some value => r.deliver (.number value t)
      | none => .refuse
    | .plus => .shift { r with phase := .signed .plus t }
    | .minus => .shift { r with phase := .signed .minus t }
    | .opening => r.enter none
    | .closing => r.leave
    | _ => .refuse
  | .signed sign token =>
    match t.kind with
    | .number =>
      match t.literal with
      | some value => r.deliver (.signed sign token (.number value t))
      | none => .refuse
    | .opening => r.enter (some (sign, token))
    | _ => .refuse
  | .operator sign =>
    match Operator.ofKind? t.kind with
    | some operator => .shift ⟨r.base, ⟨sign, operator, t, []⟩ :: r.frames, .operand⟩
    | none => .refuse

def operandCount (r : Reader) : Nat :=
  match r.frames with
  | f :: _ => f.operands.length
  | [] => 0

def refusal (r : Reader) (t : Token) : Fault.Cause :=
  match r.phase with
  | .operator _ => .expectedOperator
  | .signed _ _ => if t.kind = .number then .expectedExpression else .expectedOperand
  | .operand =>
    if t.kind = .number ∨ r.operandCount = 0 then .expectedExpression
    else if r.operandCount = 1 then
      if t.kind = .closing then .tooFewOperands else .expectedExpression
    else if t.lexeme = "" then .unclosedApplication else .expectedClosing

/-- Runs the reader. The result has the tokens that were not taken; on a stream that is exhausted
the stand-in for the missing token is refused. -/
def run (r : Reader) : List Token → Except Fault Expr × List Token
  | [] => (.error ⟨r.refusal .exhausted, .exhausted⟩, [])
  | t :: ts =>
    match r.step t with
    | .shift next => next.run ts
    | .finish e => (.ok e, ts)
    | .refuse => (.error ⟨r.refusal t, t⟩, t :: ts)
    | .tooDeep => (.error ⟨.tooDeep, t⟩, ts)

end Reader
end PolishCalc
