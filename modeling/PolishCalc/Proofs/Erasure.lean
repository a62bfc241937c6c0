import PolishCalc.Proofs.Relocation

/-! Trees without their tokens. Neither the text of a tree nor its value depends on the tokens in it,
and of a failed evaluation only the blame does. -/
namespace PolishCalc

namespace Expr

mutual

def erase : Expr → Expr
  | .number value _ => .number value .exhausted
  | .apply operator _ operands => .apply operator .exhausted (eraseAll operands)
  | .signed sign _ operand => .signed sign .exhausted operand.erase

def eraseAll : List Expr → List Expr
  | [] => []
  | e :: es => e.erase :: eraseAll es

end

mutual

theorem erase_eq_relocate : ∀ e : Expr, e.erase = e.relocate fun _ => .exhausted
  | .number value _ => by simp only [erase, relocate]
  | .apply operator _ operands => by simp only [erase, relocate, eraseAll_eq_relocateAll operands]
  | .signed sign _ operand => by simp only [erase, relocate, erase_eq_relocate operand]

theorem eraseAll_eq_relocateAll : ∀ es : List Expr, eraseAll es = relocateAll (fun _ => .exhausted) es
  | [] => rfl
  | e :: es => by simp only [eraseAll, relocateAll, erase_eq_relocate e, eraseAll_eq_relocateAll es]

end

theorem render_erase (e : Expr) : e.erase.render = e.render := by
  rw [erase_eq_relocate, render_relocate]

theorem eval_erase (e : Expr) : e.erase.eval.mapError Fault.cause = e.eval.mapError Fault.cause := by
  rw [erase_eq_relocate, eval_relocate]
  cases e.eval <;> rfl

end Expr

end PolishCalc
