import PolishCalc.Proofs.EarliestFault
import PolishCalc.Proofs.FailingNodes
import PolishCalc.Proofs.Scanned
import PolishCalc.Proofs.Seams

/-! Which tokens are blamed. The cause of a fault fixes the kinds of the token that it is found at: for
faults of parsing because scanned tokens are well formed, for those of evaluation because every node of
a tree that was read carries the token it came from. -/
namespace PolishCalc

def Fault.Cause.blames : Fault.Cause → List Token.Kind
  | .strayCharacter | .numberOutOfRange | .unclosedComment => [.stray]
  | .expectedExpression => [.closing, .star, .slash, .finish]
  | .expectedOperator => [.opening, .closing, .number, .finish]
  | .expectedOperand => [.closing, .plus, .minus, .star, .slash, .finish]
  | .tooFewOperands => [.closing]
  | .unclosedApplication => [.finish]
  | .expectedClosing => [.star, .slash]
  | .tooDeep => [.opening]
  | .trailingTokens => [.opening, .closing, .plus, .minus, .star, .slash, .number]
  | .divisionByZero => [.slash]
  | .noOperands => []

theorem Piece.fault?_blames {piece : Piece} {p : Position} {fault : Fault}
    (h : piece.fault? p = some fault) : fault.token.kind ∈ fault.cause.blames := by
  have hstray := (fault?_stray h).2
  obtain ⟨_, _, -, hcause⟩ | ⟨_, -, hcause⟩ | ⟨_, -, hcause⟩ := fault?_cases h
  all_goals simp [hstray, hcause, Fault.Cause.blames]

structure Token.Regular (t : Token) : Prop where
  not_stray : t.kind ≠ .stray
  literal : t.kind = .number → t.literal ≠ none
  lexeme : t.lexeme = "" ↔ t.kind = .finish

theorem Token.Kind.ofChar?_cases {c : Char} {kind : Token.Kind} (h : ofChar? c = some kind) :
    kind ≠ .stray ∧ kind ≠ .number ∧ kind ≠ .finish := by
  unfold ofChar? at h
  split at h
  all_goals cases h
  all_goals decide

theorem Piece.lexeme_ne_empty {piece : Piece} {rest : List Char} {p : Position} {t : Token}
    (hfits : piece.Fits rest) (h : piece.token? p = some t) : t.lexeme ≠ "" := by
  intro hempty
  have htext := (longest_of_token? hfits h).1
  rw [hempty] at htext
  exact text_ne_nil_of_fits hfits htext.symm

theorem Piece.regular_of_token? {piece : Piece} {rest : List Char} {p : Position} {t : Token}
    (hfits : piece.Fits rest) (h : piece.token? p = some t) (hfault : piece.fault? p = none) :
    t.Regular := by
  have hlexeme := lexeme_ne_empty hfits h
  obtain ⟨kind, c, rfl, rfl⟩ | ⟨whole, fraction, value, rfl, -, rfl⟩ | ⟨hcause, -⟩ := token?_cases h
  · obtain ⟨hstray, hnumber, hfinish⟩ := Token.Kind.ofChar?_cases hfits.1
    exact ⟨hstray, fun hkind => absurd hkind hnumber,
      fun hempty => absurd hempty hlexeme, fun hkind => absurd hkind hfinish⟩
  · exact ⟨by simp [token], by simp [token], fun hempty => absurd hempty hlexeme, by simp [token]⟩
  · obtain ⟨cause, hcause⟩ := Option.ne_none_iff_exists'.mp hcause
    simp [fault?, hcause, h] at hfault

theorem regular_of_mem {source : String} {t : Token} (hfaults : (scan source).faults = [])
    (h : t ∈ (scan source).tokens) : t.Regular := by
  obtain ⟨ps, piece, rest, hpieces, hfits, ht⟩ | rfl := piece_or_finish_of_mem h
  · refine Piece.regular_of_token? hfits ht ?_
    have hnil : Piece.faults .start (pieces source.toList) = [] := hfaults
    rw [hpieces, Piece.faults_append, Piece.faults_cons] at hnil
    have hhead := (List.append_eq_nil_iff.mp (List.append_eq_nil_iff.mp hnil).2).1
    simpa using hhead
  · exact ⟨by simp [Token.finish], by simp [Token.finish], by simp [Token.finish]⟩

namespace Reader

@[simp] theorem deliver_ne_refuse (r : Reader) (e : Expr) : r.deliver e ≠ .refuse := by
  unfold deliver
  cases r.frames <;> simp

@[simp] theorem deliver_ne_tooDeep (r : Reader) (e : Expr) : r.deliver e ≠ .tooDeep := by
  unfold deliver
  cases r.frames <;> simp

@[simp] theorem enter_ne_refuse (r : Reader) (sign : Option (Sign × Token)) :
    r.enter sign ≠ .refuse := by
  unfold enter
  split <;> simp

theorem leave_eq (r : Reader) :
    r.leave = .refuse ∧ r.operandCount < 2 ∨ ∃ s e, r.leave = deliver s e := by
  unfold leave operandCount
  cases r.frames with
  | nil => exact .inl ⟨rfl, Nat.zero_lt_two⟩
  | cons f fs =>
    match hoperands : f.operands with
    | [] => exact .inl ⟨by simp [hoperands], by simp [hoperands]⟩
    | [_] => exact .inl ⟨by simp [hoperands], by simp [hoperands]⟩
    | _ :: _ :: _ => exact .inr ⟨{ r with frames := fs }, f.close, by simp [hoperands]⟩

/-- A closing parenthesis is refused only where operands are missing. -/
theorem operandCount_of_leave {r : Reader} (h : r.leave = .refuse) : r.operandCount < 2 := by
  obtain ⟨-, hcount⟩ | ⟨s, e, hleave⟩ := r.leave_eq
  · exact hcount
  · simp [hleave] at h

@[simp] theorem leave_ne_tooDeep (r : Reader) : r.leave ≠ .tooDeep := by
  obtain ⟨hleave, -⟩ | ⟨s, e, hleave⟩ := r.leave_eq
  · simp [hleave]
  · simp [hleave]

theorem kind_of_step_tooDeep {r : Reader} {t : Token} (h : r.step t = .tooDeep) :
    t.kind = .opening := by
  obtain ⟨base, frames, phase⟩ := r
  cases phase with
  | operand =>
    cases hk : t.kind with
    | opening => rfl
    | number => cases hvalue : t.literal <;> simp [step, hk, hvalue] at h
    | _ => simp [step, hk] at h
  | signed sign token =>
    cases hk : t.kind with
    | opening => rfl
    | number => cases hvalue : t.literal <;> simp [step, hk, hvalue] at h
    | _ => simp [step, hk] at h
  | operator sign => cases hop : Operator.ofKind? t.kind <;> simp [step, hop] at h

/-- With no operand, with one and with more the same token is refused for different causes. -/
theorem refusal_blames_operand {base : Nat} {frames : List Frame} {t : Token} (ht : t.Regular)
    (h : step ⟨base, frames, .operand⟩ t = .refuse) :
    t.kind ∈ (refusal ⟨base, frames, .operand⟩ t).blames := by
  have hlexeme := ht.lexeme
  have hfew : t.kind = .closing → operandCount ⟨base, frames, .operand⟩ < 2 := by
    intro hk
    refine operandCount_of_leave ?_
    simpa [step, hk] using h
  unfold refusal
  dsimp only
  generalize operandCount ⟨base, frames, .operand⟩ = n at hfew
  cases hk : t.kind with
  | number =>
    obtain ⟨value, hvalue⟩ := Option.ne_none_iff_exists'.mp (ht.literal hk)
    simp [step, hk, hvalue] at h
  | plus => simp [step, hk] at h
  | minus => simp [step, hk] at h
  | opening => simp [step, hk] at h
  | stray => exact absurd hk ht.not_stray
  | closing =>
    have hn : n = 0 ∨ n = 1 := by
      have := hfew hk
      omega
    obtain rfl | rfl := hn
    · simp [Fault.Cause.blames]
    · simp [Fault.Cause.blames]
  | _ =>
    obtain _ | _ | n := n
    · simp [Fault.Cause.blames]
    · simp [Fault.Cause.blames]
    · simp [Fault.Cause.blames, hlexeme, hk]

/-- A token of a source without faults of scanning is refused for a cause that fits its kind. -/
theorem refusal_blames {r : Reader} {t : Token} (ht : t.Regular) (h : r.step t = .refuse) :
    t.kind ∈ (r.refusal t).blames := by
  obtain ⟨base, frames, phase⟩ := r
  cases phase with
  | operand => exact refusal_blames_operand ht h
  | signed sign token =>
    cases hk : t.kind with
    | number =>
      obtain ⟨value, hvalue⟩ := Option.ne_none_iff_exists'.mp (ht.literal hk)
      simp [step, hk, hvalue] at h
    | opening => simp [step, hk] at h
    | stray => exact absurd hk ht.not_stray
    | _ => simp [refusal, hk, Fault.Cause.blames]
  | operator sign =>
    have hop : Operator.ofKind? t.kind = none := by
      cases hop : Operator.ofKind? t.kind with
      | none => rfl
      | some operator => simp [step, hop] at h
    cases hk : t.kind with
    | stray => exact absurd hk ht.not_stray
    | _ => simp_all [refusal, Fault.Cause.blames, Operator.ofKind?]

end Reader

theorem FailsAt.blames {tokens : List Token} {fault : Fault} (h : FailsAt tokens fault)
    (hregular : ∀ t ∈ tokens, t.Regular) :
    fault.token ∈ tokens ∧ fault.token.kind ∈ fault.cause.blames := by
  cases h with
  | @refused ts rest t s hs hstop =>
    have ht : t ∈ ts ++ t :: rest := by simp
    exact ⟨ht, Reader.refusal_blames (hregular t ht) hstop⟩
  | tooDeep hs hstop =>
    exact ⟨by simp, by simp [Reader.kind_of_step_tooDeep hstop, Fault.Cause.blames]⟩
  | @trailing ts rest t e hts hfinish =>
    have ht : t ∈ ts ++ t :: rest := by simp
    refine ⟨ht, ?_⟩
    cases hk : t.kind with
    | stray => exact absurd hk (hregular t ht).not_stray
    | finish => simp [Token.isFinish, hk] at hfinish
    | _ => simp [Fault.Cause.blames]

theorem bind_eq_error {α β : Type} {x : Except Fault α} {f : α → Except Fault β} {fault : Fault}
    (h : x >>= f = .error fault) : x = .error fault ∨ ∃ a, x = .ok a ∧ f a = .error fault := by
  cases x with
  | error fault' =>
    cases h
    exact .inl rfl
  | ok a => exact .inr ⟨a, rfl, h⟩

theorem Operator.foldlM_error {operator : Operator} {t : Token} {xs : List Number} {x : Number}
    {fault : Fault} (h : xs.foldlM (operator.combine t) x = .error fault) :
    operator = .div ∧ fault = ⟨.divisionByZero, t⟩ := by
  have hfault := Fault.of?_eq_some_iff.mpr h
  rw [operator.of?_foldlM t xs x, Option.ite_none_right_eq_some] at hfault
  exact ⟨hfault.1.1, (Option.some.inj hfault.2).symm⟩

theorem Expr.length_of_evalOperands {es : List Expr} {values : List Number}
    (h : evalOperands es = .ok values) : values.length = es.length := by
  have hlength := congrArg List.length (map_eval_of_evalOperands h)
  rw [List.length_map, List.length_map] at hlength
  exact hlength.symm

mutual

/-- Evaluation of a tree that was read fails in a division only, and blames a slash that the tree was
read from. -/
theorem Derives.eval_error {d : Nat} {ts : List Token} {e : Expr} {fault : Fault} :
    Derives d ts e → e.eval = .error fault →
      ∃ t ∈ ts, t.kind = .slash ∧ fault = ⟨.divisionByZero, t⟩
  | .plain h, heval => h.eval_error heval
  | .signed _ h, heval => by
    rw [Expr.eval] at heval
    obtain hoperand | ⟨value, -, hact⟩ := bind_eq_error heval
    · obtain ⟨t, ht, hblame⟩ := h.eval_error hoperand
      exact ⟨t, List.mem_cons_of_mem _ ht, hblame⟩
    · cases hact

theorem DerivesUnsigned.eval_error {d : Nat} {ts : List Token} {e : Expr} {fault : Fault} :
    DerivesUnsigned d ts e → e.eval = .error fault →
      ∃ t ∈ ts, t.kind = .slash ∧ fault = ⟨.divisionByZero, t⟩
  | .number _ _, heval => by
    rw [Expr.eval] at heval
    cases heval
  | .apply (t := t) _ _ hop hes htwo _, heval => by
    rw [Expr.eval] at heval
    obtain hoperands | ⟨values, hvalues, hfold⟩ := bind_eq_error heval
    · obtain ⟨u, hu, hblame⟩ := hes.eval_error hoperands
      exact ⟨u, by simp [hu], hblame⟩
    · -- At least two operands were read, so that the fold has a value to begin with.
      have hlength := Expr.length_of_evalOperands hvalues
      cases values with
      | nil =>
        rw [← hlength] at htwo
        cases htwo
      | cons x xs =>
        obtain ⟨rfl, rfl⟩ := Operator.foldlM_error hfold
        have hslash : t.kind = .slash := by
          cases hk : t.kind <;> simp_all [Operator.ofKind?]
        exact ⟨t, by simp, hslash, rfl⟩

theorem DerivesAll.eval_error {d : Nat} {ts : List Token} {es : List Expr} {fault : Fault} :
    DerivesAll d ts es → Expr.evalOperands es = .error fault →
      ∃ t ∈ ts, t.kind = .slash ∧ fault = ⟨.divisionByZero, t⟩
  | .nil, heval => by cases heval
  | .cons he hes, heval => by
    rw [Expr.evalOperands] at heval
    obtain hfirst | ⟨value, -, hrest⟩ := bind_eq_error heval
    · obtain ⟨t, ht, hblame⟩ := he.eval_error hfirst
      exact ⟨t, List.mem_append_left _ ht, hblame⟩
    · obtain hoperands | ⟨values, -, hpure⟩ := bind_eq_error hrest
      · obtain ⟨t, ht, hblame⟩ := hes.eval_error hoperands
        exact ⟨t, List.mem_append_right _ ht, hblame⟩
      · cases hpure

end

/-- A run fails with a fault of scanning, or at a token of a source that has no such faults. -/
theorem interpret_error {source : String} {fault : Fault}
    (h : (interpret source).result = .error fault) :
    fault ∈ (scan source).faults ∨
      (scan source).faults = [] ∧ fault.token ∈ (scan source).tokens ∧
        fault.token.kind ∈ fault.cause.blames := by
  unfold interpret at h
  dsimp only at h
  cases hfaults : (scan source).faults with
  | cons first rest =>
    rw [hfaults] at h
    obtain rfl : first = fault := Except.error.inj h
    exact .inl List.mem_cons_self
  | nil =>
    rw [hfaults] at h
    refine .inr ⟨rfl, ?_⟩
    obtain hparse | ⟨e, hparse, heval⟩ := bind_eq_error h
    · have hread : (readProgram (scan source).tokens).1 = .error fault := by
        rwa [parse, scan, withFinish_scanText] at hparse
      have hlast : Token.finish (Position.start.after source.toList) ∈ (scan source).tokens := by
        simp [scan, tokens_scanText]
      exact (readProgram_failsAt hlast rfl hread).blames fun t ht => regular_of_mem hfaults ht
    · have hderives := parse_scanText_eq_ok_iff.mp hparse
      obtain heval | ⟨value, -, hpure⟩ := bind_eq_error heval
      · obtain ⟨t, ht, hslash, rfl⟩ := hderives.eval_error heval
        exact ⟨List.mem_append_left _ ht, by simp [hslash, Fault.Cause.blames]⟩
      · cases hpure

/-- A failed run blames a token of its source, and the cause of the fault fixes the kind of that token:
missing operands of an operator are never a cause. -/
theorem cause_fixes_kind_of_blamed_token {source : String} {fault : Fault}
    (h : (interpret source).result = .error fault) :
    fault.token ∈ (scan source).tokens ∧ fault.token.kind ∈ fault.cause.blames := by
  obtain hfault | ⟨-, hblamed⟩ := interpret_error h
  · obtain ⟨⟨piece, p⟩, -, hpiece⟩ := List.mem_filterMap.mp hfault
    exact ⟨List.mem_append_left _ (Piece.mem_tokens_of_mem_faults hfault).1,
      Piece.fault?_blames hpiece⟩
  · exact hblamed

theorem cause_fixes_kind_in_quotient_by_zero :
    let source := "(* 2 (/ 1 -0)) // two"
    ∃ fault, (interpret source).result = .error fault ∧ fault.exitCode = 70 ∧
      fault.token ∈ (scan source).tokens ∧ fault.token.kind ∈ fault.cause.blames := by
  intro source
  have hcode : (interpret source).exitCode = 70 := by decide +kernel
  unfold Run.exitCode at hcode
  cases hresult : (interpret source).result with
  | ok outcome => simp [hresult] at hcode
  | error fault =>
    rw [hresult] at hcode
    exact ⟨fault, rfl, hcode, cause_fixes_kind_of_blamed_token hresult⟩

end PolishCalc
