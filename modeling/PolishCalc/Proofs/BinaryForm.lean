import PolishCalc.Proofs.FailingNodes

/-! Applications two operands at a time. An application evaluates all its operands before it combines
any; nested from the left it combines the first two before it looks at the third. The faults may
therefore differ, but not whether there is one, and not the value. -/
namespace PolishCalc

namespace Expr

def pair (operator : Operator) (token : Token) (x y : Expr) : Expr := .apply operator token [x, y]

def nest (operator : Operator) (token : Token) : List Expr → Expr
  | x :: y :: rest => rest.foldl (pair operator token) (pair operator token x y)
  | operands => .apply operator token operands

mutual

def binary : Expr → Expr
  | .number value token => .number value token
  | .apply operator token operands => nest operator token (binaryAll operands)
  | .signed sign token operand => .signed sign token operand.binary

def binaryAll : List Expr → List Expr
  | [] => []
  | e :: es => e.binary :: binaryAll es

end

def value? (e : Expr) : Option Number := e.eval.toOption

def values? (es : List Expr) : Option (List Number) := (evalOperands es).toOption

theorem value?_eq_some_iff {e : Expr} {x : Number} : e.value? = some x ↔ e.eval = .ok x := by
  unfold value?
  cases e.eval <;> simp [Except.toOption]

theorem value?_eq_none_iff {e : Expr} : e.value? = none ↔ ∃ fault, e.eval = .error fault := by
  unfold value?
  cases e.eval <;> simp [Except.toOption]

theorem toOption_bind {α β : Type} (x : Except Fault α) (f : α → Except Fault β) :
    (x >>= f).toOption = x.toOption.bind fun a => (f a).toOption := by
  cases x <;> rfl

theorem value?_apply (operator : Operator) (t : Token) (es : List Expr) :
    (apply operator t es).value? = (values? es).bind fun xs => (operator.fold t xs).toOption := by
  rw [value?, eval, toOption_bind, values?]

theorem values?_nil : values? [] = some [] := rfl

theorem values?_cons (e : Expr) (es : List Expr) :
    values? (e :: es) = e.value?.bind fun x => (values? es).bind fun xs => some (x :: xs) := by
  simp only [values?, evalOperands, toOption_bind, value?]
  rfl

section Values

variable (operator : Operator) (t : Token)

theorem toOption_fold_singleton (x : Number) : (operator.fold t [x]).toOption = some x := rfl

theorem toOption_fold_cons_cons (x y : Number) (xs : List Number) :
    (operator.fold t (x :: y :: xs)).toOption =
      (operator.combine t x y).toOption.bind fun z => (operator.fold t (z :: xs)).toOption := by
  rw [Operator.fold, List.foldlM_cons, toOption_bind]
  rfl

/-- A nest has the value of one application to all its operands. -/
theorem value?_foldl_pair (rest : List Expr) (acc : Expr) :
    (rest.foldl (pair operator t) acc).value? = (apply operator t (acc :: rest)).value? := by
  induction rest generalizing acc with
  | nil =>
    simp only [List.foldl_nil, value?_apply, values?_cons, values?_nil, Option.bind_assoc,
      Option.bind_some, toOption_fold_singleton, Option.bind_fun_some]
  | cons e rest ih =>
    rw [List.foldl_cons, ih, value?_apply, value?_apply, values?_cons, pair, value?_apply]
    simp only [values?_cons, values?_nil, Option.bind_assoc, Option.bind_some,
      toOption_fold_cons_cons, toOption_fold_singleton]
    -- What is left to exchange: the first two values are combined before the rest has values, or after.
    congr 1
    funext x
    congr 1
    funext y
    exact Option.bind_comm _ _

theorem value?_nest (es : List Expr) :
    (nest operator t es).value? = (apply operator t es).value? := by
  match es with
  | [] => rfl
  | [x] => rfl
  | x :: y :: rest =>
    exact value?_foldl_pair operator t (y :: rest) x

end Values

mutual

theorem value?_binary : ∀ e : Expr, e.binary.value? = e.value?
  | .number value _ => by rw [binary]
  | .apply operator token operands => by
    rw [binary, value?_nest, value?_apply, value?_apply, values?_binaryAll operands]
  | .signed sign _ operand => by
    rw [binary, value?, value?, eval, eval, toOption_bind, toOption_bind, ← value?,
      value?_binary operand, ← value?]

theorem values?_binaryAll : ∀ es : List Expr, values? (binaryAll es) = values? es
  | [] => rfl
  | e :: es => by
    rw [binaryAll, values?_cons, values?_cons, value?_binary e, values?_binaryAll es]

end

def AtMostBinary (e : Expr) : Prop :=
  ∀ operator token operands, apply operator token operands ∈ e.postorder → operands.length ≤ 2

theorem AtMostBinary.apply {operator : Operator} {t : Token} {es : List Expr}
    (hlength : es.length ≤ 2) (h : ∀ e ∈ es, e.AtMostBinary) :
    (apply operator t es).AtMostBinary := by
  intro operator' t' operands hmem
  rw [postorder, List.mem_append, List.mem_singleton] at hmem
  cases hmem with
  | inl hbelow =>
    obtain ⟨e, he, hmem⟩ := mem_postorderAll.mp hbelow
    exact h e he operator' t' operands hmem
  | inr hself =>
    cases hself
    exact hlength

theorem AtMostBinary.pair {operator : Operator} {t : Token} {x y : Expr} (hx : x.AtMostBinary)
    (hy : y.AtMostBinary) : (pair operator t x y).AtMostBinary :=
  .apply (Nat.le_refl 2) (by simp [hx, hy])

theorem AtMostBinary.foldl_pair {operator : Operator} {t : Token} {rest : List Expr} {acc : Expr}
    (hacc : acc.AtMostBinary) (hrest : ∀ e ∈ rest, e.AtMostBinary) :
    (rest.foldl (Expr.pair operator t) acc).AtMostBinary := by
  induction rest generalizing acc with
  | nil => exact hacc
  | cons e rest ih =>
    exact ih (hacc.pair (hrest e (by simp))) fun e' he' => hrest e' (List.mem_cons_of_mem e he')

theorem AtMostBinary.nest {operator : Operator} {t : Token} {es : List Expr}
    (h : ∀ e ∈ es, e.AtMostBinary) : (nest operator t es).AtMostBinary := by
  match es with
  | [] => exact .apply (by simp) h
  | [x] => exact .apply (by simp) h
  | x :: y :: rest =>
    exact (h x (by simp)).pair (h y (by simp)) |>.foldl_pair fun e he => h e (by simp [he])

mutual

theorem atMostBinary_binary : ∀ e : Expr, e.binary.AtMostBinary
  | .number value token => by simp [binary, AtMostBinary, postorder]
  | .apply operator token operands => by
    rw [binary]
    exact .nest (atMostBinary_of_mem_binaryAll operands)
  | .signed sign token operand => by
    have h := atMostBinary_binary operand
    simpa [binary, AtMostBinary, postorder] using h

theorem atMostBinary_of_mem_binaryAll : ∀ (es : List Expr), ∀ e ∈ binaryAll es, e.AtMostBinary
  | [], e, he => by simp [binaryAll] at he
  | e :: es, e', he' => by
    rw [binaryAll] at he'
    cases he' with
    | head => exact atMostBinary_binary e
    | tail _ hmem => exact atMostBinary_of_mem_binaryAll es e' hmem

end

/-- Applications mean their nested form: a tree and its binary form have the same value or fail both,
and no application of the binary form has more than two operands. -/
theorem applications_mean_binary_form (e : Expr) :
    (∀ value, e.eval = .ok value ↔ e.binary.eval = .ok value) ∧
    ((∃ fault, e.eval = .error fault) ↔ ∃ fault, e.binary.eval = .error fault) ∧
    e.binary.AtMostBinary := by
  refine ⟨fun value => ?_, ?_, e.atMostBinary_binary⟩
  · rw [← value?_eq_some_iff, ← value?_eq_some_iff, value?_binary]
  · rw [← value?_eq_none_iff, ← value?_eq_none_iff, value?_binary]

-- Where both fail, the faults may differ: the nest divides before it meets the third operand.
example (t u : Token) :
    let zero := number (.finite false .zero) t
    let e := apply .div t [zero, zero, apply .add u []]
    e.eval = .error ⟨.noOperands, u⟩ ∧ e.binary.eval = .error ⟨.divisionByZero, t⟩ := ⟨rfl, rfl⟩

end Expr

end PolishCalc
