import PolishCalc.Proofs.ReaderRun
import PolishCalc.Proofs.Tiling

/-! Scanned tokens as the reader meets them: only the last one ends the input, literals are finite
and carry no sign, and every fault is a stray token among them. A source that parses is therefore
free of faults. -/
namespace PolishCalc

def Number.isNegative (x : Number) : Bool := decide (signBit ≤ x.toBits.toNat)

theorem Number.isNegative_finite (s : Bool) (m : Magnitude) : (finite s m).isNegative = s := by
  have hlimit : Magnitude.bitsLimit < signBit := by decide
  exact decide_signBit_le_pattern s (Nat.lt_trans m.toBits_lt hlimit)

theorem Decimal.read?_finite {whole fraction : List Char} {value : Number}
    (h : read? whole fraction = some value) : ∃ m, value = .finite false m := by
  obtain ⟨m, -, rfl⟩ := Option.map_eq_some_iff.mp h
  exact ⟨m, rfl⟩

namespace Piece

theorem mem_tokens_cons {p : Position} {piece : Piece} {ps : List Piece} {t : Token} :
    t ∈ tokens p (piece :: ps) ↔ piece.token? p = some t ∨ t ∈ tokens (p.after piece.text) ps := by
  rw [tokens_cons, List.mem_append, Option.mem_toList]

theorem token?_literal {piece : Piece} {p : Position} {t : Token} {value : Number}
    (h : piece.token? p = some t) (hvalue : t.literal = some value) :
    ∃ m, value = .finite false m := by
  obtain ⟨kind, c, -, rfl⟩ | ⟨whole, fraction, x, -, hread, rfl⟩ | ⟨-, rfl⟩ := token?_cases h
  · cases hvalue
  · obtain rfl : x = value := Option.some.inj hvalue
    exact Decimal.read?_finite hread
  · cases hvalue

theorem literal_of_mem_tokens {p : Position} {ps : List Piece} {t : Token} {value : Number}
    (h : t ∈ tokens p ps) (hvalue : t.literal = some value) : ∃ m, value = .finite false m := by
  induction ps generalizing p with
  | nil => simp at h
  | cons piece ps ih =>
    cases mem_tokens_cons.mp h with
    | inl h => exact token?_literal h hvalue
    | inr h => exact ih h

theorem fault?_stray {piece : Piece} {p : Position} {fault : Fault}
    (h : piece.fault? p = some fault) :
    piece.token? p = some fault.token ∧ fault.token.kind = .stray := by
  obtain ⟨cause, hcause, h⟩ := Option.bind_eq_some_iff.mp h
  obtain ⟨t, ht, rfl⟩ := Option.map_eq_some_iff.mp h
  refine ⟨ht, ?_⟩
  obtain ⟨kind, c, rfl, -⟩ | ⟨whole, fraction, x, rfl, hread, -⟩ | ⟨-, rfl⟩ := token?_cases ht
  · cases hcause
  · simp [cause?, hread] at hcause
  · rfl

/-- The three pieces that have faults. -/
theorem fault?_cases {piece : Piece} {p : Position} {fault : Fault}
    (h : piece.fault? p = some fault) :
    (∃ whole fraction, piece = number whole fraction ∧ fault.cause = .numberOutOfRange) ∨
    (∃ c, piece = stray c ∧ fault.cause = .strayCharacter) ∨
    ∃ body, piece = unclosed body ∧ fault.cause = .unclosedComment := by
  obtain ⟨cause, hcause, hmap⟩ := Option.bind_eq_some_iff.mp h
  obtain ⟨t, -, rfl⟩ := Option.map_eq_some_iff.mp hmap
  cases piece with
  | number whole fraction =>
    cases hread : Decimal.read? whole fraction with
    | some value => simp [cause?, hread] at hcause
    | none => exact .inl ⟨whole, fraction, rfl, by simpa [cause?, hread] using hcause.symm⟩
  | stray c => exact .inr (.inl ⟨c, rfl, (Option.some.inj hcause).symm⟩)
  | unclosed body => exact .inr (.inr ⟨body, rfl, (Option.some.inj hcause).symm⟩)
  | _ => cases hcause

theorem mem_tokens_of_mem_faults {p : Position} {ps : List Piece} {fault : Fault}
    (h : fault ∈ (place p ps).filterMap fun (piece, p) => piece.fault? p) :
    fault.token ∈ tokens p ps ∧ fault.token.kind = .stray := by
  obtain ⟨⟨piece, q⟩, hmem, hfault⟩ := List.mem_filterMap.mp h
  obtain ⟨ht, hkind⟩ := fault?_stray hfault
  exact ⟨List.mem_filterMap.mpr ⟨(piece, q), hmem, ht⟩, hkind⟩

end Piece

theorem Token.Longest.not_isFinish {t : Token} {rest : List Char} (h : t.Longest rest) :
    t.isFinish = false := by
  cases hk : t.kind <;> simp_all [Token.Longest, Token.isFinish]

theorem Tiles.not_isFinish {text : List Char} {ts : List Token} (h : Tiles text ts) :
    ∀ t ∈ ts, t.isFinish = false := by
  induction h with
  | done _ => simp
  | token _ hlongest _ ih => simpa [hlongest.not_isFinish] using ih

theorem withFinish_scanText (text : List Char) :
    withFinish (scanText text).tokens = (scanText text).tokens := by
  simp [withFinish, tokens_scanText, Token.finish, Token.isFinish]

/-- A text is a program exactly when its tokens spell an expression. -/
theorem parse_scanText_eq_ok_iff {text : List Char} {e : Expr} :
    parse (scanText text).tokens = .ok e ↔ Derives 0 (Piece.tokens .start (pieces text)) e := by
  rw [parse, readProgram_eq_ok_iff_derives, withFinish_scanText, tokens_scanText,
    takeWhile_append_of_finish (tiles_pieces text .start).not_isFinish
      (by simp [Token.finish, Token.isFinish])]

theorem faults_eq_nil_of_derives {text : List Char} {e : Expr}
    (h : Derives 0 (Piece.tokens .start (pieces text)) e) : (scanText text).faults = [] := by
  refine List.eq_nil_iff_forall_not_mem.mpr ?_
  intro fault hfault
  obtain ⟨hmem, hkind⟩ := Piece.mem_tokens_of_mem_faults hfault
  exact (h.accepted fault.token hmem).1 hkind

end PolishCalc
