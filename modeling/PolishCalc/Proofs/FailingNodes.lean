import PolishCalc.Expr.Eval

/-! Which failure of evaluation is reported. All operands of an application are evaluated before it
combines any of them, so a tree is evaluated in post-order, and the fault is that of the first node
that fails by itself. -/
namespace PolishCalc

namespace Expr

mutual

def postorder : Expr → List Expr
  | .number value token => [.number value token]
  | .apply operator token operands => postorderAll operands ++ [.apply operator token operands]
  | .signed sign token operand => operand.postorder ++ [.signed sign token operand]

def postorderAll : List Expr → List Expr
  | [] => []
  | e :: es => e.postorder ++ postorderAll es

end

theorem mem_postorderAll {node : Expr} {es : List Expr} :
    node ∈ postorderAll es ↔ ∃ e ∈ es, node ∈ e.postorder := by
  induction es with
  | nil => simp [postorderAll]
  | cons e es ih => simp [postorderAll, ih]

def isZero (e : Expr) : Bool := e.eval.toOption.any Number.isZero

/-- The fault of a node by itself. Only an application whose operands all have values can fail: when
there are none, or when it divides by one of them that is zero. -/
def failure? : Expr → Option Fault
  | .apply operator token operands =>
    if operands.all (·.eval.isOk) then
      if operands.isEmpty then some ⟨.noOperands, token⟩
      else if operator = .div ∧ operands.tail.any isZero then some ⟨.divisionByZero, token⟩
      else none
    else none
  | _ => none

end Expr

def Fault.of? {α : Type} : Except Fault α → Option Fault
  | .error fault => some fault
  | .ok _ => none

theorem Fault.of?_eq_some_iff {α : Type} {x : Except Fault α} {fault : Fault} :
    of? x = some fault ↔ x = .error fault := by
  cases x <;> simp [of?]

/-- Two values fail to combine only in a division, and only by a zero. -/
theorem Operator.combine_eq (operator : Operator) (t : Token) (x y : Number) :
    operator.combine t x y = .error ⟨.divisionByZero, t⟩ ∧ operator = .div ∧ y.isZero = true ∨
    (∃ z, operator.combine t x y = .ok z) ∧ ¬ (operator = .div ∧ y.isZero = true) := by
  cases operator with
  | div => by_cases hy : y.isZero = true <;> simp [combine, hy]
  | _ => simp [combine]

theorem Operator.of?_foldlM (operator : Operator) (t : Token) (xs : List Number) (x : Number) :
    Fault.of? (xs.foldlM (operator.combine t) x) =
      if operator = .div ∧ xs.any Number.isZero then some ⟨.divisionByZero, t⟩ else none := by
  induction xs generalizing x with
  | nil => simp [Fault.of?, pure, Except.pure]
  | cons y ys ih =>
    rw [List.foldlM_cons]
    obtain ⟨hcombine, hdiv, hzero⟩ | ⟨⟨z, hcombine⟩, hfine⟩ := operator.combine_eq t x y
    · rw [hcombine, if_pos (by simp [hdiv, hzero])]
      rfl
    · rw [hcombine]
      have hsame : (operator = .div ∧ (y :: ys).any Number.isZero = true) ↔
          operator = .div ∧ ys.any Number.isZero = true := by grind
      simp only [hsame]
      exact ih z

namespace Expr

theorem map_eval_of_evalOperands {es : List Expr} {values : List Number}
    (h : evalOperands es = .ok values) : es.map eval = values.map .ok := by
  induction es generalizing values with
  | nil =>
    cases h
    rfl
  | cons e es ih =>
    rw [evalOperands] at h
    cases hfirst : e.eval with
    | error fault =>
      rw [hfirst] at h
      cases h
    | ok value =>
      cases hrest : evalOperands es with
      | error fault =>
        rw [hfirst, hrest] at h
        cases h
      | ok rest =>
        rw [hfirst, hrest] at h
        cases h
        simp [hfirst, ih hrest]

theorem any_isZero_eq {es : List Expr} {values : List Number}
    (h : es.map eval = values.map .ok) : es.any isZero = values.any Number.isZero := by
  calc es.any isZero = (es.map eval).any (·.toOption.any Number.isZero) := by
        rw [List.any_map]; rfl
    _ = (values.map Except.ok).any (·.toOption.any Number.isZero) := by rw [h]
    _ = values.any Number.isZero := by rw [List.any_map]; rfl

/-- An application with values for operands fails by itself exactly when folding them does. -/
theorem failure?_apply {es : List Expr} {values : List Number} (h : evalOperands es = .ok values)
    (operator : Operator) (t : Token) :
    (apply operator t es).failure? = Fault.of? (operator.fold t values) := by
  have hmap := map_eval_of_evalOperands h
  have hall : es.all (·.eval.isOk) = true := by
    calc es.all (·.eval.isOk) = (es.map eval).all Except.isOk := by rw [List.all_map]; rfl
      _ = true := by simp [hmap, Except.isOk, Except.toBool]
  match es, values, hmap with
  | [], [], _ => rfl
  | e :: es, x :: xs, hmap =>
    have htail := any_isZero_eq (List.cons.inj hmap).2
    simp only [failure?, hall, if_true, List.isEmpty_cons, Bool.false_eq_true, if_false,
      List.tail_cons, htail]
    exact (operator.of?_foldlM t xs x).symm

mutual

theorem findSome?_postorder : ∀ e : Expr, e.postorder.findSome? failure? = Fault.of? e.eval
  | .number value _ => by simp [postorder, failure?, eval, Fault.of?]
  | .apply operator token operands => by
    rw [postorder, List.findSome?_append, findSome?_postorderAll operands, eval]
    cases h : evalOperands operands with
    | error fault => rfl
    | ok values =>
      rw [List.findSome?_singleton, failure?_apply h operator token]
      rfl
  | .signed sign _ operand => by
    rw [postorder, List.findSome?_append, findSome?_postorder operand, eval]
    cases operand.eval <;> rfl

theorem findSome?_postorderAll : ∀ es : List Expr,
    (postorderAll es).findSome? failure? = Fault.of? (evalOperands es)
  | [] => rfl
  | e :: es => by
    rw [postorderAll, List.findSome?_append, findSome?_postorder e, findSome?_postorderAll es,
      evalOperands]
    cases e.eval with
    | error fault => rfl
    | ok value => cases evalOperands es <;> rfl

end

/-- Evaluation fails exactly when some node of the tree fails by itself, and then with the fault of
the first such node in post-order. -/
theorem first_failing_node_reported (e : Expr) :
    ((∃ fault, e.eval = .error fault) ↔ ∃ node ∈ e.postorder, ∃ fault, node.failure? = some fault) ∧
    ∀ fault, e.eval = .error fault ↔
      ∃ before node after, e.postorder = before ++ node :: after ∧
        node.failure? = some fault ∧ ∀ earlier ∈ before, earlier.failure? = none := by
  have hfirst := e.findSome?_postorder
  constructor
  · simp only [← Fault.of?_eq_some_iff, ← hfirst, ← Option.isSome_iff_exists,
      List.findSome?_isSome_iff]
  · intro fault
    rw [← Fault.of?_eq_some_iff, ← hfirst, List.findSome?_eq_some_iff]

end Expr

end PolishCalc
