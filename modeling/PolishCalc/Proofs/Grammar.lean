import PolishCalc.Expr.Parse

/-! The grammar of expressions as a derivation relation between tokens and trees. -/
namespace PolishCalc

mutual

/-- `Derives d ts e`: the tokens `ts` spell the expression `e` inside of `d` applications. -/
inductive Derives : Nat → List Token → Expr → Prop where
  | plain {d : Nat} {ts : List Token} {e : Expr} : DerivesUnsigned d ts e → Derives d ts e
  | signed {d : Nat} {ts : List Token} {e : Expr} {t : Token} {sign : Sign} :
      Sign.ofKind? t.kind = some sign → DerivesUnsigned d ts e →
      Derives d (t :: ts) (.signed sign t e)

inductive DerivesUnsigned : Nat → List Token → Expr → Prop where
  | number {d : Nat} {t : Token} {value : Number} :
      t.kind = .number → t.literal = some value → DerivesUnsigned d [t] (.number value t)
  | apply {d : Nat} {ts : List Token} {es : List Expr} {opening t closing : Token}
      {operator : Operator} :
      d < maxDepth → opening.kind = .opening → Operator.ofKind? t.kind = some operator →
      DerivesAll (d + 1) ts es → 2 ≤ es.length → closing.kind = .closing →
      DerivesUnsigned d (opening :: t :: (ts ++ [closing])) (.apply operator t es)

inductive DerivesAll : Nat → List Token → List Expr → Prop where
  | nil {d : Nat} : DerivesAll d [] []
  | cons {d : Nat} {ts us : List Token} {e : Expr} {es : List Expr} :
      Derives d ts e → DerivesAll d us es → DerivesAll d (ts ++ us) (e :: es)

end

theorem DerivesAll.snoc {d : Nat} {ts us : List Token} {e : Expr} {es : List Expr}
    (h : DerivesAll d ts es) (he : Derives d us e) : DerivesAll d (ts ++ us) (es ++ [e]) := by
  induction es generalizing ts with
  | nil =>
    cases h
    simpa using DerivesAll.cons he .nil
  | cons f es ih =>
    cases h with
    | cons hf hes =>
      rw [List.append_assoc]
      exact .cons hf (ih hes)

mutual

theorem Derives.accepted {d : Nat} {ts : List Token} {e : Expr} :
    Derives d ts e → ∀ t ∈ ts, t.kind ≠ .stray ∧ t.kind ≠ .finish
  | .plain h => h.accepted
  | .signed (t := t) hs h => by
    have ht : t.kind ≠ .stray ∧ t.kind ≠ .finish := by
      cases hk : t.kind <;> simp_all [Sign.ofKind?]
    simpa [ht] using h.accepted

theorem DerivesUnsigned.accepted {d : Nat} {ts : List Token} {e : Expr} :
    DerivesUnsigned d ts e → ∀ t ∈ ts, t.kind ≠ .stray ∧ t.kind ≠ .finish
  | .number hk _ => by simp [hk]
  | .apply (t := t) _ ho hop hes _ hc => by
    have ht : t.kind ≠ .stray ∧ t.kind ≠ .finish := by
      cases hk : t.kind <;> simp_all [Operator.ofKind?]
    have hall := hes.accepted
    intro u hu
    simp only [List.mem_cons, List.mem_append, List.not_mem_nil, or_false] at hu
    rcases hu with rfl | rfl | hu | rfl
    · simp [ho]
    · exact ht
    · exact hall u hu
    · simp [hc]

theorem DerivesAll.accepted {d : Nat} {ts : List Token} {es : List Expr} :
    DerivesAll d ts es → ∀ t ∈ ts, t.kind ≠ .stray ∧ t.kind ≠ .finish
  | .nil => by simp
  | .cons he hes => by
    intro t ht
    cases List.mem_append.mp ht with
    | inl ht => exact he.accepted t ht
    | inr ht => exact hes.accepted t ht

end

theorem Derives.not_isFinish {d : Nat} {ts : List Token} {e : Expr} (h : Derives d ts e) :
    ∀ t ∈ ts, t.isFinish = false := by
  intro t ht
  simp [Token.isFinish, (h.accepted t ht).2]

theorem takeWhile_append_of_finish {ts rest : List Token} (h : ∀ t ∈ ts, t.isFinish = false)
    (hrest : ∀ t ∈ rest.head?, t.isFinish = true) : (ts ++ rest).takeWhile (!·.isFinish) = ts := by
  have hts : ∀ t ∈ ts, (!t.isFinish) = true := by
    intro t ht
    simp [h t ht]
  rw [List.takeWhile_append_of_pos hts]
  cases rest with
  | nil => simp
  | cons t rest => simp [hrest t rfl]

end PolishCalc
