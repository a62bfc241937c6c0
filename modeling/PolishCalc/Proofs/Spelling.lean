import PolishCalc.Proofs.FailingNodes
import PolishCalc.Proofs.RoundTrip

/-! Which trees have a spelling. Any tree can be printed, also one that was never read; its text is a
program exactly when the tree is spellable, and then that of the same tree with signs in place of
negative numbers. Any other text is refused at some token, whatever follows. -/
namespace PolishCalc

namespace Expr

def takesSign : Expr → Bool
  | .number value _ => !value.isNegative
  | .apply _ _ _ => true
  | .signed _ _ _ => false

def isProper : Expr → Bool
  | .number value _ => value.isFinite
  | .apply _ _ operands => decide (2 ≤ operands.length)
  | .signed _ _ operand => operand.takesSign

mutual

def nesting : Expr → Nat
  | .number _ _ => 0
  | .apply _ _ operands => nestingAll operands + 1
  | .signed _ _ operand => operand.nesting

def nestingAll : List Expr → Nat
  | [] => 0
  | e :: es => max e.nesting (nestingAll es)

end

structure Spellable (e : Expr) : Prop where
  proper : ∀ node ∈ e.postorder, node.isProper = true
  shallow : e.nesting ≤ maxDepth

mutual

def spellSigns : Expr → Expr
  | .number value token =>
    if value.isNegative then .signed .minus token (.number (-value) token)
    else .number value token
  | .apply operator token operands => .apply operator token (spellSignsAll operands)
  | .signed sign token operand => .signed sign token operand.spellSigns

def spellSignsAll : List Expr → List Expr
  | [] => []
  | e :: es => e.spellSigns :: spellSignsAll es

end

theorem length_spellSignsAll (es : List Expr) : (spellSignsAll es).length = es.length := by
  induction es with
  | nil => rfl
  | cons e es ih => rw [spellSignsAll, List.length_cons, ih, List.length_cons]

end Expr

namespace Number

theorem isNegative_infinite (s : Bool) : (infinite s).isNegative = s :=
  decide_signBit_le_pattern s (by decide)

theorem isNegative_nan : nan.isNegative = false := decide_signBit_le_pattern false (by decide)

theorem neg_neg (x : Number) : - -x = x := by
  cases x with
  | finite s m => exact congrArg (finite · m) (Bool.not_not s)
  | infinite s => exact congrArg infinite (Bool.not_not s)
  | nan => rfl

theorem isFinite_neg (x : Number) : (-x).isFinite = x.isFinite := by
  cases x <;> rfl

theorem isNegative_neg {x : Number} (h : x.isNegative = true) : (-x).isNegative = false := by
  cases x with
  | finite s m =>
    obtain rfl : s = true := by rwa [isNegative_finite] at h
    exact isNegative_finite false m
  | infinite s =>
    obtain rfl : s = true := by rwa [isNegative_infinite] at h
    exact isNegative_infinite false
  | nan => exact isNegative_nan

/-- A negative number is printed as a minus sign and the opposite number. -/
theorem pieces_of_isNegative {x : Number} (h : x.isNegative = true) :
    x.pieces = .symbol .minus '-' :: (-x).pieces := by
  cases x with
  | finite s m =>
    obtain rfl : s = true := by rwa [isNegative_finite] at h
    rfl
  | infinite s =>
    obtain rfl : s = true := by rwa [isNegative_infinite] at h
    rfl
  | nan => simp [isNegative_nan] at h

end Number

namespace Expr

mutual

theorem pieces_spellSigns : ∀ e : Expr, e.spellSigns.pieces = e.pieces
  | .number value token => by
    rw [spellSigns]
    split
    · rename_i h
      simp only [pieces, Number.pieces_of_isNegative h]
      rfl
    · rfl
  | .apply operator token operands => by
    simp only [spellSigns, pieces, operandPieces_spellSignsAll operands]
  | .signed sign token operand => by simp only [spellSigns, pieces, pieces_spellSigns operand]

theorem operandPieces_spellSignsAll : ∀ es : List Expr,
    operandPieces (spellSignsAll es) = operandPieces es
  | [] => rfl
  | e :: es => by
    simp only [spellSignsAll, operandPieces, pieces_spellSigns e, operandPieces_spellSignsAll es]

end

mutual

theorem eval_spellSigns : ∀ e : Expr, e.spellSigns.eval = e.eval
  | .number value token => by
    rw [spellSigns]
    split
    · simp only [eval]
      exact congrArg Except.ok (Number.neg_neg value)
    · rfl
  | .apply operator token operands => by
    simp only [spellSigns, eval, evalOperands_spellSignsAll operands]
  | .signed sign token operand => by simp only [spellSigns, eval, eval_spellSigns operand]

theorem evalOperands_spellSignsAll : ∀ es : List Expr,
    evalOperands (spellSignsAll es) = evalOperands es
  | [] => rfl
  | e :: es => by
    simp only [spellSignsAll, evalOperands, eval_spellSigns e, evalOperands_spellSignsAll es]

end

end Expr

namespace Reader

def Refuses (r : Reader) (ts : List Token) : Prop :=
  ∀ rest, ∃ fault, (r.run (ts ++ rest)).1 = .error fault

theorem refuses_cons {r : Reader} {t : Token} (h : r.step t = .refuse ∨ r.step t = .tooDeep)
    (ts : List Token) : r.Refuses (t :: ts) := by
  intro rest
  rw [List.cons_append, run]
  cases h with
  | inl h => exact ⟨_, by rw [h]⟩
  | inr h => exact ⟨_, by rw [h]⟩

theorem Refuses.shift {r s : Reader} {t : Token} {ts : List Token} (h : s.Refuses ts)
    (hstep : r.step t = .shift s) : r.Refuses (t :: ts) := by
  intro rest
  rw [List.cons_append, run, hstep]
  exact h rest

theorem Refuses.append {r : Reader} {ts : List Token} (h : r.Refuses ts) (us : List Token) :
    r.Refuses (ts ++ us) := by
  intro rest
  rw [List.append_assoc]
  exact h (us ++ rest)

theorem Refuses.behind_operands {base : Nat} {f : Frame} {fs : List Frame} {ts us : List Token}
    {es : List Expr}
    (h : Refuses ⟨base, { f with operands := es.reverse ++ f.operands } :: fs, .operand⟩ us)
    (hes : DerivesAll (base + fs.length + 1) ts es) :
    Refuses ⟨base, f :: fs, .operand⟩ (ts ++ us) := by
  intro rest
  rw [List.append_assoc, hes.run_append base f fs _ rfl]
  exact h rest

variable {base : Nat} {fs : List Frame} {t : Token}

theorem step_ahead_stray (hk : t.kind = .stray) (sign : Option (Sign × Token)) :
    step ⟨base, fs, .ahead sign⟩ t = .refuse := by
  cases sign <;> simp [step, Phase.ahead, hk]

theorem step_second_sign {s : Sign} (hk : t.kind = s.kind) (sign : Sign × Token) :
    step ⟨base, fs, .ahead (some sign)⟩ t = .refuse := by
  cases s <;> simp [step, Phase.ahead, hk, Sign.kind]

theorem step_opening_tooDeep (hk : t.kind = .opening) (hdepth : ¬ base + fs.length < maxDepth)
    (sign : Option (Sign × Token)) :
    step ⟨base, fs, .ahead sign⟩ t = .tooDeep := by
  cases sign <;> simp [step, Phase.ahead, enter, hk, hdepth]

theorem step_closing_tooFew {f : Frame} (hk : t.kind = .closing)
    (hfew : ¬ 2 ≤ f.operands.length) :
    step ⟨base, f :: fs, .operand⟩ t = .refuse := by
  match hes : f.operands with
  | [] => simp [step, leave, hk, hes]
  | [_] => simp [step, leave, hk, hes]
  | _ :: _ :: _ => simp [hes] at hfew

end Reader

theorem readable_signed_iff {d : Nat} {sign : Sign} {t : Token} {e : Expr} :
    Readable d (.signed sign t e) ↔ ReadableUnsigned d e := by
  constructor
  · intro h
    cases h with
    | plain h => cases h
    | signed h => exact h
  · exact .signed

theorem ReadableUnsigned.behind {d : Nat} {e : Expr} (h : ReadableUnsigned d e)
    (sign : Option (Sign × Token)) : Readable d (e.behind sign) := by
  cases sign with
  | none => exact .plain h
  | some sign => exact .signed h

/-- A number without a sign bit is read with or without a sign in front of it, unless it is printed
as a word. -/
theorem readable_or_refuses_number {value : Number} (h : value.isNegative = false) (t : Token)
    (base : Nat) (fs : List Frame) (sign : Option (Sign × Token)) (p : Position) :
    ReadableUnsigned (base + fs.length) (.number value t) ∨
      Reader.Refuses ⟨base, fs, .ahead sign⟩ (Piece.tokens p value.pieces) := by
  cases value with
  | finite s m =>
    obtain rfl : s = false := by rwa [Number.isNegative_finite] at h
    exact .inl .number
  | infinite s =>
    obtain rfl : s = false := by rwa [Number.isNegative_infinite] at h
    exact .inr (Reader.refuses_cons (.inl (Reader.step_ahead_stray rfl sign)) _)
  | nan => exact .inr (Reader.refuses_cons (.inl (Reader.step_ahead_stray rfl sign)) _)

/-- A sign is taken in front of what takes a sign, and refused behind another one. -/
theorem readable_or_refuses_signed {s : Sign} {e : Expr} {ps : List Piece}
    (h : ∀ (base : Nat) (fs : List Frame) (u : Token) (p : Position),
      ReadableUnsigned (base + fs.length) e ∨
        Reader.Refuses ⟨base, fs, .ahead (some (s, u))⟩ (Piece.tokens p ps))
    (t : Token) (base : Nat) (fs : List Frame) (sign : Option (Sign × Token)) (p : Position) :
    Readable (base + fs.length) ((Expr.signed s t e).behind sign) ∨
      Reader.Refuses ⟨base, fs, .ahead sign⟩
        (Piece.tokens p (.symbol s.kind s.toChar :: ps)) := by
  rw [Piece.tokens_symbol]
  cases sign with
  | some sign => exact .inr (Reader.refuses_cons (.inl (Reader.step_second_sign rfl sign)) _)
  | none =>
    cases h base fs _ (p.advance s.toChar) with
    | inl hreadable => exact .inl (.signed hreadable)
    | inr hrefuses => exact .inr (hrefuses.shift (Reader.step_sign s.ofKind?_kind))

/-- An application is refused where it would nest too deep, inside an operand, or at its closing
parenthesis. -/
theorem readable_or_refuses_apply {operator : Operator} {es : List Expr} {base : Nat}
    {fs : List Frame} {sign : Option (Sign × Token)} {opening u closing : Token} {ts : List Token}
    (ho : opening.kind = .opening) (hop : Operator.ofKind? u.kind = some operator)
    (hc : closing.kind = .closing)
    (h : (ReadableAll (base + fs.length + 1) es ∧
        ∃ es', DerivesAll (base + fs.length + 1) ts es' ∧ es'.length = es.length) ∨
      Reader.Refuses ⟨base, ⟨sign, operator, u, []⟩ :: fs, .operand⟩ ts) (t : Token) :
    Readable (base + fs.length) ((Expr.apply operator t es).behind sign) ∨
      Reader.Refuses ⟨base, fs, .ahead sign⟩ (opening :: u :: (ts ++ [closing])) := by
  by_cases hdepth : base + fs.length < maxDepth
  case neg => exact .inr (Reader.refuses_cons (.inr (Reader.step_opening_tooDeep ho hdepth sign)) _)
  case pos =>
    have hinside (hrefuses : Reader.Refuses ⟨base, ⟨sign, operator, u, []⟩ :: fs, .operand⟩
        (ts ++ [closing])) :
        Reader.Refuses ⟨base, fs, .ahead sign⟩ (opening :: u :: (ts ++ [closing])) :=
      (hrefuses.shift (Reader.step_operator hop sign)).shift (Reader.step_opening ho hdepth sign)
    obtain ⟨hall, es', hderives, hlength⟩ | hrefuses := h
    · by_cases htwo : 2 ≤ es.length
      · exact .inl ((ReadableUnsigned.apply hdepth hall htwo).behind sign)
      · have hfew : ¬ 2 ≤ (es'.reverse ++ []).length := by simpa [hlength] using htwo
        have hclosing : Reader.Refuses
            ⟨base, ⟨sign, operator, u, es'.reverse ++ []⟩ :: fs, .operand⟩ [closing] :=
          Reader.refuses_cons (.inl (Reader.step_closing_tooFew hc hfew)) []
        exact .inr (hinside (hclosing.behind_operands hderives))
    · exact .inr (hinside (hrefuses.append [closing]))

mutual

/-- The text of a tree is read as the tree with its signs spelled out, or refused. -/
theorem readable_or_refuses : ∀ (e : Expr) (base : Nat) (fs : List Frame)
    (sign : Option (Sign × Token)) (p : Position),
    Readable (base + fs.length) (e.spellSigns.behind sign) ∨
      Reader.Refuses ⟨base, fs, .ahead sign⟩ (Piece.tokens p e.pieces)
  | .number value t, base, fs, sign, p => by
    rw [Expr.spellSigns, Expr.pieces]
    split
    · rename_i hnegative
      rw [Number.pieces_of_isNegative hnegative]
      exact readable_or_refuses_signed
        (fun base fs u p => readable_or_refuses_number (Number.isNegative_neg hnegative) t base fs
          (some (.minus, u)) p) t base fs sign p
    · rename_i hnegative
      have hread := readable_or_refuses_number (by simpa using hnegative) t base fs sign p
      exact hread.imp_left fun h => h.behind sign
  | .signed s t e, base, fs, sign, p => by
    rw [Expr.spellSigns, Expr.pieces]
    refine readable_or_refuses_signed (fun base fs u p => ?_) t base fs sign p
    exact (readable_or_refuses e base fs (some (s, u)) p).imp_left readable_signed_iff.mp
  | .apply operator t es, base, fs, sign, p => by
    rw [Expr.spellSigns, Expr.pieces, Piece.tokens_symbol, Piece.tokens_symbol, Piece.tokens_append,
      Piece.tokens_symbol, Piece.tokens_nil]
    refine readable_or_refuses_apply rfl operator.ofKind?_kind rfl ?_ t
    -- Operands that are readable derive as many operands from the tokens.
    refine (readableAll_or_refuses es base _ fs _).imp_left fun hall => ⟨hall, ?_⟩
    obtain ⟨es', hderives, herase⟩ := hall.derives ((p.advance '(').advance operator.toChar)
    rw [Expr.operandPieces_spellSignsAll] at hderives
    exact ⟨es', hderives, by rw [← Expr.length_eraseAll, herase, Expr.length_eraseAll]⟩

theorem readableAll_or_refuses : ∀ (es : List Expr) (base : Nat) (f : Frame) (fs : List Frame)
    (p : Position), ReadableAll (base + fs.length + 1) (Expr.spellSignsAll es) ∨
      Reader.Refuses ⟨base, f :: fs, .operand⟩ (Piece.tokens p (Expr.operandPieces es))
  | [], _, _, _, _ => .inl .nil
  | e :: es, base, f, fs, p => by
    rw [Expr.spellSignsAll, Expr.operandPieces, Piece.tokens_blank, Piece.tokens_append]
    cases readable_or_refuses e base (f :: fs) none (p.advance ' ') with
    | inr hrefuses => exact .inr (hrefuses.append _)
    | inl hreadable =>
      -- The first operand is taken, so that the others stand in front of a frame with one more.
      obtain ⟨e', hderives, -⟩ := Readable.derives hreadable (p.advance ' ')
      rw [Expr.behind, Expr.pieces_spellSigns] at hderives
      have hfirst := DerivesAll.cons hderives .nil
      rw [List.append_nil] at hfirst
      cases readableAll_or_refuses es base { f with operands := [e'].reverse ++ f.operands } fs _ with
      | inl hall => exact .inl (.cons hreadable hall)
      | inr hrefuses => exact .inr (hrefuses.behind_operands hfirst)

end

theorem readableUnsigned_iff {d : Nat} {e : Expr} :
    ReadableUnsigned d e ↔ Readable d e ∧ e.takesSign = true := by
  constructor
  · intro h
    refine ⟨.plain h, ?_⟩
    cases h with
    | number => simp [Expr.takesSign, Number.isNegative_finite]
    | apply => rfl
  · intro h
    cases h.1 with
    | plain hunsigned => exact hunsigned
    | signed => cases h.2

theorem readable_number_iff {d : Nat} {value : Number} {t : Token} :
    Readable d (.number value t) ↔ value.isFinite = true ∧ value.isNegative = false := by
  constructor
  · intro h
    cases h with
    | plain hunsigned =>
      cases hunsigned with
      | number => exact ⟨rfl, Number.isNegative_finite false _⟩
  · intro h
    cases value with
    | finite s m =>
      obtain rfl : s = false := by simpa [Number.isNegative_finite] using h.2
      exact .plain .number
    | _ => simp [Number.isFinite] at h

theorem readable_apply_iff {d : Nat} {operator : Operator} {t : Token} {es : List Expr} :
    Readable d (.apply operator t es) ↔
      d < maxDepth ∧ ReadableAll (d + 1) es ∧ 2 ≤ es.length := by
  constructor
  · intro h
    cases h with
    | plain hunsigned =>
      cases hunsigned with
      | apply hd hall htwo => exact ⟨hd, hall, htwo⟩
  · intro h
    exact .plain (.apply h.1 h.2.1 h.2.2)

theorem readableAll_cons_iff {d : Nat} {e : Expr} {es : List Expr} :
    ReadableAll d (e :: es) ↔ Readable d e ∧ ReadableAll d es := by
  constructor
  · intro h
    cases h with
    | cons he hes => exact ⟨he, hes⟩
  · intro h
    exact .cons h.1 h.2

namespace Expr

theorem takesSign_spellSigns (e : Expr) : e.spellSigns.takesSign = e.takesSign := by
  cases e with
  | number value t => by_cases h : value.isNegative = true <;> simp [spellSigns, takesSign, h]
  | apply operator t es => rw [spellSigns, takesSign, takesSign]
  | signed sign t e => rw [spellSigns, takesSign, takesSign]

theorem readable_spellSigns_number_iff {d : Nat} {value : Number} {t : Token} :
    Readable d (number value t).spellSigns ↔ value.isFinite = true := by
  by_cases h : value.isNegative = true
  · rw [spellSigns, if_pos h, readable_signed_iff, readableUnsigned_iff, readable_number_iff]
    simp [takesSign, Number.isNegative_neg h, Number.isFinite_neg]
  · rw [spellSigns, if_neg h, readable_number_iff]
    simp [h]

mutual

/-- Inside of `d` applications a tree is readable when its nodes are proper and its own applications
do not exceed the greatest depth. -/
theorem readable_spellSigns_iff : ∀ (e : Expr) {d : Nat}, d ≤ maxDepth →
    (Readable d e.spellSigns ↔
      (∀ node ∈ e.postorder, node.isProper = true) ∧ d + e.nesting ≤ maxDepth)
  | .number value t, d, hd => by
    rw [readable_spellSigns_number_iff]
    simp [postorder, isProper, nesting, hd]
  | .apply operator t es, d, hd => by
    rw [spellSigns, readable_apply_iff, length_spellSignsAll, postorder, List.forall_mem_append,
      List.forall_mem_singleton, isProper, decide_eq_true_eq, nesting]
    constructor
    · rintro ⟨hdepth, hall, htwo⟩
      obtain ⟨hproper, hnesting⟩ := (readableAll_spellSignsAll_iff es hdepth).mp hall
      exact ⟨⟨hproper, htwo⟩, by omega⟩
    · rintro ⟨⟨hproper, htwo⟩, hnesting⟩
      have hdepth : d < maxDepth := by omega
      exact ⟨hdepth, (readableAll_spellSignsAll_iff es hdepth).mpr ⟨hproper, by omega⟩, htwo⟩
  | .signed sign t e, d, hd => by
    rw [spellSigns, readable_signed_iff, readableUnsigned_iff, takesSign_spellSigns,
      readable_spellSigns_iff e hd, postorder, List.forall_mem_append, List.forall_mem_singleton,
      isProper, nesting, and_right_comm]

theorem readableAll_spellSignsAll_iff : ∀ (es : List Expr) {d : Nat}, d ≤ maxDepth →
    (ReadableAll d (spellSignsAll es) ↔
      (∀ node ∈ postorderAll es, node.isProper = true) ∧ d + nestingAll es ≤ maxDepth)
  | [], d, hd => by simp [spellSignsAll, postorderAll, nestingAll, hd, ReadableAll.nil]
  | e :: es, d, hd => by
    have hmax : d + max e.nesting (nestingAll es) ≤ maxDepth ↔
        d + e.nesting ≤ maxDepth ∧ d + nestingAll es ≤ maxDepth := by omega
    rw [spellSignsAll, readableAll_cons_iff, readable_spellSigns_iff e hd,
      readableAll_spellSignsAll_iff es hd, postorderAll, List.forall_mem_append, nestingAll, hmax,
      and_and_and_comm]

end

theorem spellable_iff_readable (e : Expr) : e.Spellable ↔ Readable 0 e.spellSigns := by
  rw [readable_spellSigns_iff e (Nat.zero_le _), Nat.zero_add]
  exact ⟨fun h => ⟨h.proper, h.shallow⟩, fun h => ⟨h.1, h.2⟩⟩

end Expr

theorem Derives.readable_spellSigns {e e' : Expr}
    (h : Derives 0 (Piece.tokens .start e.pieces) e') : Readable 0 e.spellSigns := by
  cases readable_or_refuses e 0 [] none .start with
  | inl hreadable => exact hreadable
  | inr hrefuses =>
    obtain ⟨fault, hfault⟩ := hrefuses []
    rw [Phase.ahead, h.run_append 0 [] [] rfl] at hfault
    cases hfault

theorem Readable.derives_pieces {e : Expr} (h : Readable 0 e.spellSigns) :
    ∃ e', Derives 0 (Piece.tokens .start e.pieces) e' ∧ e'.erase = e.spellSigns.erase := by
  rw [← e.pieces_spellSigns]
  exact h.derives .start

/-- The text of a tree is a program exactly when the tree is spellable. The program is then the tree
with its signs spelled out, tokens apart, and evaluates as the tree does. -/
theorem printed_tree_reads_back_iff (e : Expr) :
    ((∃ e', parse (scan (toString e)).tokens = .ok e') ↔ e.Spellable) ∧
    ∀ e', parse (scan (toString e)).tokens = .ok e' →
      e'.erase = e.spellSigns.erase ∧
      e'.eval.mapError Fault.cause = e.eval.mapError Fault.cause := by
  have hparse (e' : Expr) : parse (scan (toString e)).tokens = .ok e' ↔
      Derives 0 (Piece.tokens .start e.pieces) e' := by
    rw [scan_toString, parse_scanText_eq_ok_iff, Expr.pieces_render]
  simp only [hparse, e.spellable_iff_readable]
  refine ⟨⟨fun h => h.elim fun _ => Derives.readable_spellSigns, fun h => ?_⟩, fun e' he' => ?_⟩
  · obtain ⟨e', hderives, -⟩ := h.derives_pieces
    exact ⟨e', hderives⟩
  · obtain ⟨f, hderives, herase⟩ := he'.readable_spellSigns.derives_pieces
    -- Only one tree is read from the text.
    obtain rfl : f = e' := Except.ok.inj (((hparse f).mpr hderives).symm.trans ((hparse e').mpr he'))
    have heval := Expr.eval_eq_of_erase_eq herase
    rw [Expr.eval_spellSigns] at heval
    exact ⟨herase, heval⟩

end PolishCalc
