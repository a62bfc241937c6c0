import PolishCalc.Proofs.Blame
import PolishCalc.Proofs.PrintedNumbers
import PolishCalc.Proofs.WholeNumbers

/-! Programs over the integers. An expression without quotients whose literals are whole has a value in
exact arithmetic; as long as neither a literal nor an intermediate result of a fold exceeds `2 ^ 53`,
the program comes to exactly that value and prints it. -/
namespace PolishCalc

namespace Operator

/-- The operator on integers. A quotient, which need not be whole, is rounded towards zero. -/
def combineInt : Operator → Int → Int → Int
  | .add => (· + ·)
  | .sub => (· - ·)
  | .mul => (· * ·)
  | .div => Int.tdiv

def foldInt (operator : Operator) : List Int → Int
  | [] => 0
  | n :: ns => ns.foldl operator.combineInt n

def foldSteps (operator : Operator) : List Int → List Int
  | [] => []
  | n :: ns => ns.scanl operator.combineInt n

end Operator

def Sign.actInt : Sign → Int → Int
  | .plus, n => n
  | .minus, n => -n

def Token.toNat (t : Token) : Nat := Nat.ofDigitChars 10 t.lexeme.toList 0

namespace Expr

mutual
def evalInt : Expr → Int
  | .number _ token => token.toNat
  | .apply operator _ operands => operator.foldInt (evalIntOperands operands)
  | .signed sign _ operand => sign.actInt operand.evalInt

def evalIntOperands : List Expr → List Int
  | [] => []
  | e :: es => e.evalInt :: evalIntOperands es
end

mutual
def intSteps : Expr → List Int
  | .number _ token => [(token.toNat : Int)]
  | .apply operator _ operands => intStepsAll operands ++ operator.foldSteps (evalIntOperands operands)
  | .signed _ _ operand => operand.intSteps

def intStepsAll : List Expr → List Int
  | [] => []
  | e :: es => e.intSteps ++ intStepsAll es
end

end Expr

structure Number.Holds (x : Number) (n : Int) : Prop where
  denotes : x.Denotes n
  small : n.natAbs ≤ 2 ^ 53

theorem Sign.holds_act (sign : Sign) {x : Number} {n : Int} (h : x.Holds n) :
    (sign.act x).Holds (sign.actInt n) := by
  cases sign with
  | plus => exact h
  | minus => exact ⟨h.denotes.neg, by simpa [Sign.actInt] using h.small⟩

namespace Operator

variable {operator : Operator} (token : Token)

theorem holds_combine (hop : operator ≠ .div) {x y : Number} {i j : Int} (hx : x.Holds i)
    (hy : y.Holds j) (h : (operator.combineInt i j).natAbs ≤ 2 ^ 53) :
    ∃ z, operator.combine token x y = .ok z ∧ z.Holds (operator.combineInt i j) := by
  cases operator with
  | add => exact ⟨x + y, rfl, hx.denotes.add hy.denotes h, h⟩
  | sub => exact ⟨x - y, rfl, hx.denotes.sub hy.denotes h, h⟩
  | mul => exact ⟨x * y, rfl, hx.denotes.mul hy.denotes h, h⟩
  | div => exact absurd rfl hop

/-- By induction on the operands: each step of the fold stays among the small whole numbers. -/
theorem holds_foldlM (hop : operator ≠ .div) {xs : List Number} {ns : List Int}
    (hxs : List.Forall₂ Number.Holds xs ns) {x : Number} {n : Int} (hx : x.Holds n)
    (hsmall : ∀ p ∈ ns.scanl operator.combineInt n, p.natAbs ≤ 2 ^ 53) :
    ∃ z, xs.foldlM (operator.combine token) x = .ok z ∧ z.Holds (ns.foldl operator.combineInt n) := by
  induction hxs generalizing x n with
  | nil => exact ⟨x, rfl, hx⟩
  | @cons y k ys ks hy hys ih =>
    rw [List.scanl_cons] at hsmall
    have hhead : operator.combineInt n k ∈ ks.scanl operator.combineInt (operator.combineInt n k) := by
      cases ks <;> simp
    obtain ⟨z, hz, hholds⟩ := holds_combine token hop hx hy
      (hsmall _ (List.mem_cons_of_mem _ hhead))
    obtain ⟨w, hw, hfinal⟩ := ih hholds fun p hp => hsmall p (List.mem_cons_of_mem _ hp)
    refine ⟨w, ?_, hfinal⟩
    rw [List.foldlM_cons, hz]
    exact hw

theorem holds_fold (hop : operator ≠ .div) {xs : List Number} {ns : List Int}
    (hxs : List.Forall₂ Number.Holds xs ns) (hpos : 0 < xs.length)
    (hsmall : ∀ p ∈ operator.foldSteps ns, p.natAbs ≤ 2 ^ 53) :
    ∃ z, operator.fold token xs = .ok z ∧ z.Holds (operator.foldInt ns) := by
  cases hxs with
  | nil => exact absurd hpos (Nat.lt_irrefl 0)
  | cons hx hxs => exact holds_foldlM token hop hxs hx hsmall

theorem ne_div_of_ofKind? {kind : Token.Kind} (hkind : kind ≠ .slash)
    (h : ofKind? kind = some operator) : operator ≠ .div := by
  rintro rfl
  cases kind <;> simp_all [ofKind?]

end Operator

namespace Expr

def Faithful (e : Expr) : Prop := ∃ x, e.eval = .ok x ∧ x.Holds e.evalInt

def FaithfulAll (es : List Expr) : Prop :=
  ∃ xs, evalOperands es = .ok xs ∧ List.Forall₂ Number.Holds xs (evalIntOperands es)

theorem Faithful.signed {e : Expr} (h : e.Faithful) (sign : Sign) (token : Token) :
    (signed sign token e).Faithful := by
  obtain ⟨x, hx, hholds⟩ := h
  refine ⟨sign.act x, ?_, ?_⟩
  · rw [eval, hx]
    rfl
  · rw [evalInt]
    exact sign.holds_act hholds

theorem FaithfulAll.nil : FaithfulAll [] := by
  refine ⟨[], ?_, ?_⟩
  · rw [evalOperands]
  · rw [evalIntOperands]
    exact .nil

theorem Faithful.cons {e : Expr} {es : List Expr} (h : e.Faithful) (hes : FaithfulAll es) :
    FaithfulAll (e :: es) := by
  obtain ⟨x, hx, hholds⟩ := h
  obtain ⟨xs, hxs, hall⟩ := hes
  refine ⟨x :: xs, ?_, ?_⟩
  · rw [evalOperands, hx, hxs]
    rfl
  · rw [evalIntOperands]
    exact .cons hholds hall

theorem FaithfulAll.apply {es : List Expr} (h : FaithfulAll es) (hpos : 0 < es.length)
    {operator : Operator} (hop : operator ≠ .div) (token : Token)
    (hsmall : ∀ n ∈ operator.foldSteps (evalIntOperands es), n.natAbs ≤ 2 ^ 53) :
    (apply operator token es).Faithful := by
  obtain ⟨xs, hxs, hall⟩ := h
  rw [← length_of_evalOperands hxs] at hpos
  obtain ⟨z, hz, hholds⟩ := Operator.holds_fold token hop hall hpos hsmall
  refine ⟨z, ?_, ?_⟩
  · rw [eval, hxs]
    exact hz
  · rw [evalInt]
    exact hholds

end Expr

structure Token.Whole (t : Token) : Prop where
  kind : t.kind ≠ .slash
  literal : ∀ value, t.literal = some value → Decimal.read? t.lexeme.toList [] = some value

theorem Token.Whole.faithful_number {t : Token} (h : t.Whole) {value : Number}
    (hvalue : t.literal = some value) (hsmall : t.toNat ≤ 2 ^ 53) :
    (Expr.number value t).Faithful := by
  obtain ⟨m, hround, rfl⟩ := Option.map_eq_some_iff.mp (h.literal value hvalue)
  rw [List.append_nil, List.length_nil, Nat.pow_zero, ← Token.toNat] at hround
  have hexact := Number.denotes_ofUnits (n := t.toNat) hsmall
    fun _ => (decide_eq_false (Int.natCast_nonneg _).not_gt).symm
  rw [Number.ofUnits, Int.natAbs_natCast, hround] at hexact
  refine ⟨.finite false m, ?_, ?_⟩
  · rw [Expr.eval]
  · rw [Expr.evalInt]
    exact ⟨hexact, hsmall⟩

mutual

theorem Derives.faithful {d : Nat} {ts : List Token} {e : Expr} :
    Derives d ts e → (∀ t ∈ ts, t.Whole) → (∀ n ∈ e.intSteps, n.natAbs ≤ 2 ^ 53) → e.Faithful
  | .plain h, hwhole, hsmall => h.faithful hwhole hsmall
  | .signed _ h, hwhole, hsmall => by
    rw [Expr.intSteps] at hsmall
    exact (h.faithful (fun t ht => hwhole t (.tail _ ht)) hsmall).signed _ _

theorem DerivesUnsigned.faithful {d : Nat} {ts : List Token} {e : Expr} :
    DerivesUnsigned d ts e → (∀ t ∈ ts, t.Whole) → (∀ n ∈ e.intSteps, n.natAbs ≤ 2 ^ 53) →
      e.Faithful
  | .number _ hliteral, hwhole, hsmall => by
    rw [Expr.intSteps] at hsmall
    exact (hwhole _ (.head _)).faithful_number hliteral (hsmall _ (.head _))
  | .apply (t := t) _ _ hop hes htwo _, hwhole, hsmall => by
    rw [Expr.intSteps] at hsmall
    have hdiv := Operator.ne_div_of_ofKind? (hwhole t (.tail _ (.head _))).kind hop
    have hall := hes.faithful
      (fun u hu => hwhole u (.tail _ (.tail _ (List.mem_append_left _ hu))))
      fun n hn => hsmall n (List.mem_append_left _ hn)
    exact hall.apply (by omega) hdiv t fun n hn => hsmall n (List.mem_append_right _ hn)

theorem DerivesAll.faithful {d : Nat} {ts : List Token} {es : List Expr} :
    DerivesAll d ts es → (∀ t ∈ ts, t.Whole) →
      (∀ n ∈ Expr.intStepsAll es, n.natAbs ≤ 2 ^ 53) → Expr.FaithfulAll es
  | .nil, _, _ => .nil
  | .cons he hes, hwhole, hsmall => by
    rw [Expr.intStepsAll] at hsmall
    have hhead := he.faithful (fun t ht => hwhole t (List.mem_append_left _ ht))
      fun n hn => hsmall n (List.mem_append_left _ hn)
    exact hhead.cons (hes.faithful (fun t ht => hwhole t (List.mem_append_right _ ht))
      fun n hn => hsmall n (List.mem_append_right _ hn))

end

/-- A number whose text is all digits was read without a fraction. -/
theorem Piece.read?_of_token? {piece : Piece} {p : Position} {t : Token} {value : Number}
    (h : piece.token? p = some t) (hvalue : t.literal = some value)
    (hdigits : t.kind = .number → ∀ c ∈ t.lexeme.toList, c.isDigit = true) :
    Decimal.read? t.lexeme.toList [] = some value := by
  obtain ⟨kind, c, -, rfl⟩ | ⟨whole, fraction, x, rfl, hread, rfl⟩ | ⟨-, rfl⟩ := token?_cases h
  · cases hvalue
  · obtain rfl : x = value := Option.some.inj hvalue
    replace hdigits := hdigits rfl
    rw [token, String.toList_ofList] at hdigits ⊢
    cases fraction with
    | nil => simpa [text] using hread
    | cons d fraction => exact absurd (hdigits '.' (by simp [text])) (by decide)
  · cases hvalue

/-- A program of sums, differences and products over whole literals comes to the integer that exact
arithmetic gives, as long as no literal and no intermediate result of a fold exceeds `2 ^ 53`. It is
printed as that integer; only a zero may carry a sign. -/
theorem integer_program_computes_integer {source : String} {e : Expr}
    (hparse : parse (scan source).tokens = .ok e)
    (hoperators : ∀ t ∈ (scan source).tokens, t.kind ≠ .slash)
    (hliterals : ∀ t ∈ (scan source).tokens, t.kind = .number →
      ∀ c ∈ t.lexeme.toList, c.isDigit = true)
    (hsmall : ∀ n ∈ e.intSteps, n.natAbs ≤ 2 ^ 53) :
    ∃ value, (interpret source).result = .ok ⟨e, value⟩ ∧ value.Denotes e.evalInt ∧
      (toString value = toString e.evalInt ∨ e.evalInt = 0 ∧ toString value = "-0") := by
  have hwhole (t : Token) (ht : t ∈ Piece.tokens .start (pieces source.toList)) : t.Whole := by
    have hmem : t ∈ (scan source).tokens := List.mem_append_left _ ht
    obtain ⟨⟨piece, q⟩, -, htoken⟩ := List.mem_filterMap.mp ht
    exact ⟨hoperators t hmem, fun value hvalue =>
      Piece.read?_of_token? htoken hvalue (hliterals t hmem)⟩
  obtain ⟨value, heval, hholds⟩ :=
    (parse_scanText_eq_ok_iff.mp hparse).faithful hwhole hsmall
  exact ⟨value, interpret_eq_ok_iff.mpr ⟨hparse, heval⟩, hholds.denotes,
    Number.toString_of_denotes hholds.denotes hholds.small⟩

theorem integer_program_computes_negative_integer :
    let source := "(+ 0007 -(* 94906265 94906265) (- 5 8))"
    ∃ outcome, (interpret source).result = .ok outcome ∧
      outcome.value.Denotes (-9007199136250221) ∧
      toString outcome.value = "-9007199136250221" := by
  intro source
  have hexact : (parse (scan source).tokens).toOption.map (fun e => (e.evalInt, e.intSteps)) =
      some (-9007199136250221, [7, 94906265, 94906265, 94906265, 9007199136250225, 5, 8, 5, -3,
        7, -9007199136250218, -9007199136250221]) := by
    decide +kernel
  have hoperators : ∀ t ∈ (scan source).tokens, t.kind ≠ .slash := by decide +kernel
  have hdigits : ∀ t ∈ (scan source).tokens, t.kind = .number →
      t.lexeme.toList.all Char.isDigit = true := by
    decide +kernel
  cases hparse : parse (scan source).tokens with
  | error fault =>
    rw [hparse] at hexact
    cases hexact
  | ok e =>
    rw [hparse] at hexact
    obtain ⟨hvalue, hsteps⟩ := Prod.mk.inj (Option.some.inj hexact)
    obtain ⟨value, hresult, hdenotes, htext⟩ := integer_program_computes_integer hparse hoperators
      (fun t ht hkind => List.all_eq_true.mp (hdigits t ht hkind)) (by rw [hsteps]; decide)
    rw [hvalue] at hdenotes htext
    exact ⟨⟨e, value⟩, hresult, hdenotes, htext.resolve_right fun h => absurd h.1 (by decide)⟩

end PolishCalc
