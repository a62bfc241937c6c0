import PolishCalc.Program

/-! Tokens moved to other places. Reading and evaluating look at the kinds, the texts and the literals
of tokens only, so both commute with any change of places; the place of a token matters to nobody but
the reader of a report. -/
namespace PolishCalc

structure Relocates (f : Token → Token) : Prop where
  kind (t : Token) : (f t).kind = t.kind
  lexeme (t : Token) : (f t).lexeme = t.lexeme
  literal (t : Token) : (f t).literal = t.literal
  exhausted : f .exhausted = .exhausted

namespace Expr

mutual

def relocate (f : Token → Token) : Expr → Expr
  | .number value token => .number value (f token)
  | .apply operator token operands => .apply operator (f token) (relocateAll f operands)
  | .signed sign token operand => .signed sign (f token) (operand.relocate f)

def relocateAll (f : Token → Token) : List Expr → List Expr
  | [] => []
  | e :: es => e.relocate f :: relocateAll f es

end

theorem relocateAll_eq_map (f : Token → Token) (es : List Expr) :
    relocateAll f es = es.map (relocate f) := by
  induction es with
  | nil => rfl
  | cons e es ih => rw [relocateAll, ih, List.map_cons]

mutual

theorem render_relocate (f : Token → Token) : ∀ e : Expr, (e.relocate f).render = e.render
  | .number value _ => by simp only [relocate, render]
  | .apply operator _ operands => by
    simp only [relocate, render, renderOperands_relocateAll f operands]
  | .signed sign _ operand => by simp only [relocate, render, render_relocate f operand]

theorem renderOperands_relocateAll (f : Token → Token) :
    ∀ es : List Expr, renderOperands (relocateAll f es) = renderOperands es
  | [] => rfl
  | e :: es => by
    simp only [relocateAll, renderOperands, render_relocate f e, renderOperands_relocateAll f es]

end

end Expr

def Fault.relocate (f : Token → Token) (fault : Fault) : Fault := ⟨fault.cause, f fault.token⟩

theorem Relocates.message {f : Token → Token} (hf : Relocates f) (fault : Fault) :
    (fault.relocate f).message = fault.message := by
  simp only [Fault.relocate, Fault.message, Token.describe, hf.kind, hf.lexeme]

theorem mapError_bind_eq {α β : Type} {g : Fault → Fault} {x y : Except Fault α}
    {h k : α → Except Fault β} (hx : y = x.mapError g) (hk : ∀ a, k a = (h a).mapError g) :
    y >>= k = (x >>= h).mapError g := by
  subst hx
  cases x with
  | error fault => rfl
  | ok a => exact hk a

section Evaluation

variable (f : Token → Token)

theorem Operator.combine_relocate (operator : Operator) (t : Token) (x y : Number) :
    operator.combine (f t) x y = (operator.combine t x y).mapError (Fault.relocate f) := by
  cases operator with
  | div =>
    simp only [combine]
    by_cases h : y.isZero = true
    · rw [if_pos h, if_pos h]
      rfl
    · rw [if_neg h, if_neg h]
      rfl
  | _ => rfl

theorem Operator.foldlM_relocate (operator : Operator) (t : Token) (xs : List Number) (x : Number) :
    xs.foldlM (operator.combine (f t)) x =
      (xs.foldlM (operator.combine t) x).mapError (Fault.relocate f) := by
  induction xs generalizing x with
  | nil => rfl
  | cons y ys ih =>
    rw [List.foldlM_cons, List.foldlM_cons]
    exact mapError_bind_eq (operator.combine_relocate f t x y) ih

theorem Operator.fold_relocate (operator : Operator) (t : Token) (xs : List Number) :
    operator.fold (f t) xs = (operator.fold t xs).mapError (Fault.relocate f) := by
  cases xs with
  | nil => rfl
  | cons x xs => exact operator.foldlM_relocate f t xs x

namespace Expr

mutual

theorem eval_relocate : ∀ e : Expr, (e.relocate f).eval = e.eval.mapError (Fault.relocate f)
  | .number value _ => by simp only [relocate, eval]; rfl
  | .apply operator token operands => by
    simp only [relocate, eval]
    exact mapError_bind_eq (evalOperands_relocateAll operands) (operator.fold_relocate f token)
  | .signed sign _ operand => by
    simp only [relocate, eval]
    exact mapError_bind_eq (eval_relocate operand) fun _ => rfl

theorem evalOperands_relocateAll : ∀ es : List Expr,
    evalOperands (relocateAll f es) = (evalOperands es).mapError (Fault.relocate f)
  | [] => rfl
  | e :: es => by
    simp only [relocateAll, evalOperands]
    exact mapError_bind_eq (eval_relocate e) fun _ =>
      mapError_bind_eq (evalOperands_relocateAll es) fun _ => rfl

end

end Expr

end Evaluation

def Frame.relocate (f : Token → Token) (frame : Frame) : Frame where
  sign := frame.sign.map (Prod.map id f)
  operator := frame.operator
  token := f frame.token
  operands := frame.operands.map (Expr.relocate f)

def Phase.relocate (f : Token → Token) : Phase → Phase
  | .operand => .operand
  | .signed sign token => .signed sign (f token)
  | .operator sign => .operator (sign.map (Prod.map id f))

def relocateResult (f : Token → Token) : Except Fault Expr → Except Fault Expr
  | .ok e => .ok (e.relocate f)
  | .error fault => .error (fault.relocate f)

theorem Frame.close_relocate (f : Token → Token) (frame : Frame) :
    (frame.relocate f).close = frame.close.relocate f := by
  obtain ⟨sign, operator, token, operands⟩ := frame
  cases sign <;> simp [relocate, close, Expr.relocate, Expr.relocateAll_eq_map]

namespace Reader

def relocate (f : Token → Token) (r : Reader) : Reader :=
  ⟨r.base, r.frames.map (Frame.relocate f), r.phase.relocate f⟩

def Step.relocate (f : Token → Token) : Step → Step
  | .shift next => .shift (next.relocate f)
  | .finish e => .finish (e.relocate f)
  | .refuse => .refuse
  | .tooDeep => .tooDeep

variable {f : Token → Token}

theorem deliver_relocate (r : Reader) (e : Expr) :
    (r.relocate f).deliver (e.relocate f) = (r.deliver e).relocate f := by
  obtain ⟨base, frames, phase⟩ := r
  cases frames <;> rfl

theorem enter_relocate (r : Reader) (sign : Option (Sign × Token)) :
    (r.relocate f).enter (sign.map (Prod.map id f)) = (r.enter sign).relocate f := by
  by_cases hdepth : r.base + r.frames.length < maxDepth
  · simp [enter, relocate, hdepth, Step.relocate, Phase.relocate]
  · simp [enter, relocate, hdepth, Step.relocate]

theorem leave_relocate (r : Reader) : (r.relocate f).leave = r.leave.relocate f := by
  obtain ⟨base, frames, phase⟩ := r
  cases frames with
  | nil => rfl
  | cons frame frames =>
    have hdeliver := deliver_relocate (f := f) ⟨base, frames, phase⟩ frame.close
    rw [← Frame.close_relocate] at hdeliver
    obtain ⟨sign, operator, token, operands⟩ := frame
    match operands with
    | [] => rfl
    | [_] => rfl
    | _ :: _ :: _ => exact hdeliver

theorem step_relocate (hf : Relocates f) (r : Reader) (t : Token) :
    (r.relocate f).step (f t) = (r.step t).relocate f := by
  have hleave := leave_relocate (f := f) r
  have henter := enter_relocate (f := f) r
  have hdeliver := deliver_relocate (f := f) r
  obtain ⟨base, frames, phase⟩ := r
  unfold step
  cases phase with
  | operand =>
    dsimp only [relocate, Phase.relocate]
    rw [hf.kind, hf.literal]
    cases t.kind with
    | number =>
      cases t.literal with
      | some value => exact hdeliver (.number value t)
      | none => rfl
    | opening => exact henter none
    | closing => exact hleave
    | _ => rfl
  | signed sign token =>
    dsimp only [relocate, Phase.relocate]
    rw [hf.kind, hf.literal]
    cases t.kind with
    | number =>
      cases t.literal with
      | some value => exact hdeliver (.signed sign token (.number value t))
      | none => rfl
    | opening => exact henter (some (sign, token))
    | _ => rfl
  | operator sign =>
    dsimp only [relocate, Phase.relocate]
    rw [hf.kind]
    cases Operator.ofKind? t.kind <;> rfl

theorem refusal_relocate (hf : Relocates f) (r : Reader) (t : Token) :
    (r.relocate f).refusal (f t) = r.refusal t := by
  have hcount : (r.relocate f).operandCount = r.operandCount := by
    obtain ⟨base, frames, phase⟩ := r
    cases frames <;> simp [operandCount, relocate, Frame.relocate]
  unfold refusal
  rw [hcount, hf.kind, hf.lexeme]
  obtain ⟨base, frames, phase⟩ := r
  cases phase <;> rfl

theorem run_relocate (hf : Relocates f) (r : Reader) (ts : List Token) :
    (r.relocate f).run (ts.map f) = (relocateResult f (r.run ts).1, (r.run ts).2.map f) := by
  induction ts generalizing r with
  | nil =>
    have hrefusal := refusal_relocate hf r .exhausted
    rw [hf.exhausted] at hrefusal
    simp [run, relocateResult, Fault.relocate, hrefusal, hf.exhausted]
  | cons t ts ih =>
    rw [List.map_cons, run, step_relocate hf, run]
    cases r.step t with
    | shift next => exact ih next
    | finish e => rfl
    | refuse => simp [Step.relocate, relocateResult, Fault.relocate, refusal_relocate hf]
    | tooDeep => rfl

end Reader

theorem readProgram_relocate {f : Token → Token} (hf : Relocates f) (ts : List Token) :
    (readProgram (ts.map f)).1 = relocateResult f (readProgram ts).1 := by
  have hrun : readExpr 0 (ts.map f) = _ := Reader.run_relocate hf (.start 0) ts
  unfold readProgram
  rw [hrun, ← readExpr]
  match readExpr 0 ts with
  | (.error fault, rest) => rfl
  | (.ok e, []) => rfl
  | (.ok e, t :: rest) =>
    have ht : (f t).isFinish = t.isFinish := by simp [Token.isFinish, hf.kind]
    by_cases hfinish : t.isFinish <;> simp [relocateResult, ht, hfinish, Fault.relocate]

def relocateOutcome (f : Token → Token) : Except Fault Outcome → Except Fault Outcome
  | .ok outcome => .ok ⟨outcome.tree.relocate f, outcome.value⟩
  | .error fault => .error (fault.relocate f)

/-- Results that differ in places only: the same value and the same printed tree, or faults of the
same stage, cause and message. -/
def SameResult : Except Fault Outcome → Except Fault Outcome → Prop
  | .ok a, .ok b => a.value = b.value ∧ toString a.tree = toString b.tree
  | .error a, .error b => a.stage = b.stage ∧ a.cause = b.cause ∧ a.message = b.message
  | _, _ => False

section Programs

variable {f : Token → Token}

theorem relocateOutcome_evaluate (ts : List Token) :
    relocateOutcome f (evaluate ts) =
      relocateResult f (parse ts) >>= fun tree => do return ⟨tree, ← tree.eval⟩ := by
  unfold evaluate
  cases parse ts with
  | error fault => rfl
  | ok e =>
    dsimp only [relocateResult, bind, Except.bind]
    rw [e.eval_relocate f]
    cases e.eval <;> rfl

/-- Tokens that a change of places makes equal come to results that it makes equal. -/
theorem Relocates.relocateOutcome_evaluate_eq (hf : Relocates f) {ts us : List Token}
    (h : ts.map f = us.map f) (hts : withFinish ts = ts) (hus : withFinish us = us) :
    relocateOutcome f (evaluate ts) = relocateOutcome f (evaluate us) := by
  have hparse : relocateResult f (parse ts) = relocateResult f (parse us) := by
    rw [parse, parse, hts, hus, ← readProgram_relocate hf, h, readProgram_relocate hf]
  rw [relocateOutcome_evaluate, hparse, relocateOutcome_evaluate]

theorem Relocates.sameResult (hf : Relocates f) {x y : Except Fault Outcome}
    (h : relocateOutcome f x = relocateOutcome f y) : SameResult x y := by
  cases x with
  | error a =>
    cases y with
    | ok b => cases h
    | error b =>
      have hfault : a.relocate f = b.relocate f := Except.error.inj h
      obtain ⟨hcause, -⟩ := Fault.mk.inj hfault
      refine ⟨congrArg Fault.Cause.stage hcause, hcause, ?_⟩
      rw [← hf.message a, hfault, hf.message b]
  | ok a =>
    cases y with
    | error b => cases h
    | ok b =>
      obtain ⟨htree, hvalue⟩ := Outcome.mk.inj (Except.ok.inj h)
      have hrender : a.tree.render = b.tree.render := by
        rw [← a.tree.render_relocate f, htree, b.tree.render_relocate f]
      exact ⟨hvalue, congrArg String.ofList hrender⟩

end Programs

end PolishCalc
