import PolishCalc.Proofs.ReaderRun

/-! What reading takes from a stream. Only a prefix without a token that ends the input is taken; a
reading that fails leaves the stream in front of the token that it blames, or right behind that token
when it would nest too deep. -/
namespace PolishCalc

/-- Where a fault leaves the stream, `taken` having been taken from it and `rest` not. On a stream that
is exhausted the stand-in for the missing token is blamed. -/
def Fault.LeavesAt (fault : Fault) (taken rest : List Token) : Prop :=
  if fault.cause = .tooDeep then taken.getLast? = some fault.token
  else rest.head? = some fault.token ∨ rest = [] ∧ fault.token = Token.finish ⟨0, 0⟩

structure Takes (tokens taken : List Token) (result : Except Fault Expr × List Token) : Prop where
  split : tokens = taken ++ result.2
  not_isFinish : ∀ t ∈ taken, t.isFinish = false
  leaves : ∀ fault, result.1 = .error fault → fault.LeavesAt taken result.2

namespace Reader

theorem step_isFinish {t : Token} (h : t.isFinish = true) (r : Reader) : r.step t = .refuse := by
  have hk : t.kind = .finish := by simpa [Token.isFinish] using h
  unfold step
  split <;> simp [hk, Operator.ofKind?]

theorem not_isFinish_of_step {r : Reader} {t : Token} (h : r.step t ≠ .refuse) :
    t.isFinish = false := by
  cases hfinish : t.isFinish with
  | false => rfl
  | true => exact absurd (step_isFinish hfinish r) h

theorem refusal_ne_tooDeep (r : Reader) (t : Token) : r.refusal t ≠ .tooDeep := by
  unfold refusal
  cases r.phase with
  | operator sign => simp
  | signed sign token => by_cases hk : t.kind = .number <;> simp [hk]
  | operand => grind

theorem Shifts.not_isFinish {r s : Reader} {ts : List Token} (h : Shifts r ts s) :
    ∀ t ∈ ts, t.isFinish = false := by
  induction h with
  | refl r => simp
  | @step r s u t ts hstep _ ih =>
    have ht : t.isFinish = false := not_isFinish_of_step (r := r) (by simp [hstep])
    simpa [ht] using ih

theorem Shifts.not_isFinish_concat {r s : Reader} {ts : List Token} {t : Token}
    (h : Shifts r ts s) (hstep : s.step t ≠ .refuse) : ∀ u ∈ ts ++ [t], u.isFinish = false := by
  intro u hu
  cases List.mem_append.mp hu with
  | inl hu => exact h.not_isFinish u hu
  | inr hu =>
    obtain rfl : u = t := by simpa using hu
    exact not_isFinish_of_step hstep

/-- However a run ends, it takes no token that ends the input, and at least one when it succeeds. -/
theorem Ends.takes {r : Reader} {ts : List Token} {result : Except Fault Expr × List Token}
    (h : Ends r ts result) :
    ∃ taken, Takes ts taken result ∧ ∀ e, result.1 = .ok e → taken ≠ [] := by
  cases h with
  | @finish us rest t s e hs hstep =>
    have hnot := hs.not_isFinish_concat (t := t) (by simp [hstep])
    exact ⟨us ++ [t], ⟨by simp, hnot, by simp⟩, by simp⟩
  | @refuse us rest t s hs hstep =>
    refine ⟨us, ⟨rfl, hs.not_isFinish, ?_⟩, by simp⟩
    rintro fault ⟨⟩
    simp [Fault.LeavesAt, refusal_ne_tooDeep]
  | @tooDeep us rest t s hs hstep =>
    have hnot := hs.not_isFinish_concat (t := t) (by simp [hstep])
    refine ⟨us ++ [t], ⟨by simp, hnot, ?_⟩, by simp⟩
    rintro fault ⟨⟩
    simp [Fault.LeavesAt]
  | exhausted hs =>
    refine ⟨ts, ⟨by simp, hs.not_isFinish, ?_⟩, by simp⟩
    rintro fault ⟨⟩
    simp [Fault.LeavesAt, refusal_ne_tooDeep, Token.exhausted]

end Reader

theorem readExpr_takes (d : Nat) (tokens : List Token) :
    ∃ taken, Takes tokens taken (readExpr d tokens) ∧
      ∀ e, (readExpr d tokens).1 = .ok e → taken ≠ [] :=
  (Reader.run_ends (Reader.start d) tokens).takes

theorem readProgram_snd (tokens : List Token) :
    (readProgram tokens).2 = (readExpr 0 tokens).2 := by
  unfold readProgram
  match readExpr 0 tokens with
  | (.error fault, rest) => rfl
  | (.ok e, []) => rfl
  | (.ok e, t :: rest) => by_cases ht : t.isFinish <;> simp [ht]

/-- A program fails inside its expression, or at the token behind it. -/
theorem readProgram_eq_error {tokens : List Token} {fault : Fault}
    (h : (readProgram tokens).1 = .error fault) :
    (readExpr 0 tokens).1 = .error fault ∨
      ∃ e t rest, readExpr 0 tokens = (.ok e, t :: rest) ∧ t.isFinish = false ∧
        fault = ⟨.trailingTokens, t⟩ := by
  unfold readProgram at h
  generalize readExpr 0 tokens = result at h ⊢
  obtain ⟨outcome, rest⟩ := result
  cases outcome with
  | error fault' => exact .inl (by simpa using h)
  | ok e =>
    cases rest with
    | nil => cases h
    | cons t rest =>
      cases ht : t.isFinish with
      | true => simp [ht] at h
      | false => exact .inr ⟨e, t, rest, rfl, ht, by simpa [ht] using h.symm⟩

theorem readProgram_takes (tokens : List Token) :
    ∃ taken, Takes tokens taken (readProgram tokens) := by
  obtain ⟨taken, htakes, -⟩ := readExpr_takes 0 tokens
  refine ⟨taken, ?_, htakes.not_isFinish, ?_⟩
  · rw [readProgram_snd]
    exact htakes.split
  · intro fault h
    rw [readProgram_snd]
    obtain h | ⟨e, t, rest, hread, -, rfl⟩ := readProgram_eq_error h
    · exact htakes.leaves fault h
    · simp [Fault.LeavesAt, hread]

/-- Reading an expression inside of any number of applications, or a whole program, takes a prefix of
the stream that has no token that ends the input. An expression takes at least one token, and behind a
program the input ends; after a fault the stream stands at the token that is blamed. -/
theorem reading_takes_up_to_blamed_token (tokens : List Token) :
    (∀ d, ∃ taken, Takes tokens taken (readExpr d tokens) ∧
      ∀ e, (readExpr d tokens).1 = .ok e → taken ≠ []) ∧
    (∃ taken, Takes tokens taken (readProgram tokens)) ∧
    ∀ e, (readProgram tokens).1 = .ok e → ∀ t ∈ (readProgram tokens).2.head?, t.isFinish = true := by
  refine ⟨fun d => readExpr_takes d tokens, readProgram_takes tokens, ?_⟩
  intro e h
  obtain ⟨rest, hread, hrest⟩ := readProgram_eq_ok.mp h
  rw [readProgram_snd, hread]
  exact hrest

end PolishCalc
