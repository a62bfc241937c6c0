import PolishCalc.Proofs.Blame

/-! Faults of scanning and stray tokens. Three rules put a stray token among the others and report a
fault for it; the faults of a scan are nevertheless its stray tokens, one by one and in order, and the
text of each tells its cause. -/
namespace PolishCalc

def Token.BeginsWithDigit (t : Token) : Prop := ∃ c ∈ t.lexeme.toList.head?, c.isDigit = true

def Token.BeginsComment (t : Token) : Prop := ['/', '*'] <+: t.lexeme.toList

structure Fault.ToldByText (fault : Fault) : Prop where
  outOfRange : fault.cause = .numberOutOfRange ↔ fault.token.BeginsWithDigit
  unclosed : fault.cause = .unclosedComment ↔ fault.token.BeginsComment
  otherwise : fault.cause = .strayCharacter ↔
    ¬ fault.token.BeginsWithDigit ∧ ¬ fault.token.BeginsComment

structure Scan.Coherent (s : Scan) : Prop where
  stray : s.faults.map Fault.token = s.tokens.filter fun t => t.kind = .stray
  told : ∀ fault ∈ s.faults, fault.ToldByText
  unclosed_last : ∀ before fault after, s.faults = before ++ fault :: after →
    fault.cause = .unclosedComment →
    after = [] ∧ ∃ ts p, s.tokens = ts ++ [fault.token, Token.finish p]
  literal : ∀ t ∈ s.tokens, (t.literal ≠ none ↔ t.kind = .number) ∧
    ∀ value, t.literal = some value → value.isFinite = true ∧ value.isNegative = false
  finish_last : ∃ ts p, s.tokens = ts ++ [Token.finish p] ∧
    ∀ t ∈ ts, t.lexeme ≠ "" ∧ t.kind ≠ .finish
  parses : ∀ e, parse s.tokens = .ok e → s.faults = []

namespace Piece

/-- A piece has a fault exactly when its token is stray. -/
theorem map_token_fault? {piece : Piece} {rest : List Char} (hfits : piece.Fits rest)
    (p : Position) :
    (piece.fault? p).toList.map Fault.token =
      (piece.token? p).toList.filter fun t => t.kind = .stray := by
  cases ht : piece.token? p with
  | none => cases hcause : piece.cause? <;> simp [fault?, ht, hcause]
  | some t =>
    obtain ⟨kind, c, rfl, rfl⟩ | ⟨whole, fraction, value, rfl, hread, rfl⟩ | ⟨hcause, rfl⟩ :=
      token?_cases ht
    · have hkind := (Token.Kind.ofChar?_cases hfits.1).1
      simp [fault?, cause?, token, hkind]
    · simp [fault?, cause?, hread, token]
    · obtain ⟨cause, hcause⟩ := Option.ne_none_iff_exists'.mp hcause
      simp [fault?, hcause, ht, token]

theorem toldByText_of_fault? {piece : Piece} {rest : List Char} {p : Position} {fault : Fault}
    (hfits : piece.Fits rest) (h : piece.fault? p = some fault) : fault.ToldByText := by
  have htext := (longest_of_token? hfits (fault?_stray h).1).1
  obtain ⟨whole, fraction, rfl, hcause⟩ | ⟨c, rfl, hcause⟩ | ⟨body, rfl, hcause⟩ := fault?_cases h
  · obtain ⟨hne, hwhole, -⟩ := hfits
    obtain ⟨c, cs, rfl⟩ := List.exists_cons_of_ne_nil hne
    have hdigit : fault.token.BeginsWithDigit := ⟨c, by simp [htext, text], hwhole c (by simp)⟩
    have hcomment : ¬ fault.token.BeginsComment := by
      intro hbegins
      obtain ⟨rfl, -⟩ : '/' = c ∧ _ := by simpa [Token.BeginsComment, htext, text] using hbegins
      exact absurd (hwhole '/' (by simp)) (by decide)
    exact ⟨by simp [hcause, hdigit], by simp [hcause, hcomment], by simp [hcause, hdigit]⟩
  · have hdigit : ¬ fault.token.BeginsWithDigit := by
      simpa [Token.BeginsWithDigit, htext, text] using hfits.1
    have hcomment : ¬ fault.token.BeginsComment := by simp [Token.BeginsComment, htext, text]
    exact ⟨by simp [hcause, hdigit], by simp [hcause, hcomment], by simp [hcause, hdigit, hcomment]⟩
  · have hdigit : ¬ fault.token.BeginsWithDigit := by
      simp [Token.BeginsWithDigit, htext, text]
    have hcomment : fault.token.BeginsComment := by simp [Token.BeginsComment, htext, text]
    exact ⟨by simp [hcause, hdigit], by simp [hcause, hcomment], by simp [hcause, hcomment]⟩

theorem literal_of_token? {piece : Piece} {rest : List Char} {p : Position} {t : Token}
    (hfits : piece.Fits rest) (h : piece.token? p = some t) :
    t.literal ≠ none ↔ t.kind = .number := by
  obtain ⟨kind, c, rfl, rfl⟩ | ⟨whole, fraction, value, rfl, -, rfl⟩ | ⟨-, rfl⟩ := token?_cases h
  · have hkind := (Token.Kind.ofChar?_cases hfits.1).2.1
    simp [token, hkind]
  · simp [token]
  · simp [token]

end Piece

theorem exists_piece_of_mem_tokens {text : List Char} {p : Position} {t : Token}
    (h : t ∈ Piece.tokens p (pieces text)) :
    ∃ piece rest q, Piece.Fits piece rest ∧ piece.token? q = some t := by
  obtain ⟨⟨piece, q⟩, hplace, ht⟩ := List.mem_filterMap.mp h
  obtain ⟨rest, hfits⟩ := exists_fits_of_mem_pieces (Piece.mem_of_mem_place hplace)
  exact ⟨piece, rest, q, hfits, ht⟩

theorem map_token_faults (text : List Char) (p : Position) :
    (Piece.faults p (pieces text)).map Fault.token =
      (Piece.tokens p (pieces text)).filter fun t => t.kind = .stray := by
  fun_induction pieces text generalizing p with
  | case1 => rfl
  | case2 c cs ih =>
    rw [Piece.faults_cons, Piece.tokens_cons, List.map_append, List.filter_append, ih,
      Piece.map_token_fault? (Piece.fits_cut c cs)]

theorem toldByText_of_mem_faults {text : List Char} {p : Position} {fault : Fault}
    (h : fault ∈ Piece.faults p (pieces text)) : fault.ToldByText := by
  obtain ⟨⟨piece, q⟩, hplace, hfault⟩ := List.mem_filterMap.mp h
  obtain ⟨rest, hfits⟩ := exists_fits_of_mem_pieces (Piece.mem_of_mem_place hplace)
  exact Piece.toldByText_of_fault? hfits hfault

/-- A comment that is never closed leaves nothing to scan behind it. -/
theorem unclosed_last_of_faults {text : List Char} {p : Position} {before after : List Fault}
    {fault : Fault} (h : Piece.faults p (pieces text) = before ++ fault :: after)
    (hcause : fault.cause = .unclosedComment) :
    after = [] ∧ ∃ ts, Piece.tokens p (pieces text) = ts ++ [fault.token] := by
  fun_induction pieces text generalizing p before with
  | case1 => simp [Piece.faults, Piece.place] at h
  | case2 c cs ih =>
    rw [Piece.faults_cons] at h
    rw [Piece.tokens_cons]
    have hlater {before' : List Fault}
        (hrest : Piece.faults (p.after (Piece.cut c cs).1.text) (pieces (Piece.cut c cs).2) =
          before' ++ fault :: after) :
        after = [] ∧ ∃ ts, ((Piece.cut c cs).1.token? p).toList ++
          Piece.tokens (p.after (Piece.cut c cs).1.text) (pieces (Piece.cut c cs).2) =
            ts ++ [fault.token] := by
      obtain ⟨hafter, ts, hts⟩ := ih hrest
      exact ⟨hafter, _, by rw [hts, List.append_assoc]⟩
    cases hfault : (Piece.cut c cs).1.fault? p with
    | none => exact hlater (by simpa [hfault] using h)
    | some first =>
      rw [hfault, Option.toList_some, List.singleton_append] at h
      cases before with
      | cons _ before' => exact hlater (List.cons.inj h).2
      | nil =>
        obtain ⟨rfl, hrest⟩ := List.cons.inj h
        obtain ⟨_, _, _, hother⟩ | ⟨_, _, hother⟩ | ⟨body, hpiece, -⟩ := Piece.fault?_cases hfault
        · simp [hcause] at hother
        · simp [hcause] at hother
        · have hfits := Piece.fits_cut c cs
          rw [hpiece] at hfits
          have htoken := (Piece.fault?_stray hfault).1
          rw [hfits.1, pieces_nil] at hrest ⊢
          exact ⟨hrest.symm, [], by simp [htoken]⟩

/-- Faults and stray tokens of every source correspond exactly, the text of a stray token tells what
is wrong with it, and a source with a fault is no program. -/
theorem scan_coherent (source : String) : (scan source).Coherent where
  stray := by
    have h := map_token_faults source.toList .start
    rw [scan, tokens_scanText, List.filter_append, ← h]
    simp [faults_scanText, Token.finish]
  told fault h := toldByText_of_mem_faults h
  unclosed_last before fault after h hcause := by
    obtain ⟨hafter, ts, hts⟩ := unclosed_last_of_faults h hcause
    exact ⟨hafter, ts, _, by rw [scan, tokens_scanText, hts, List.append_assoc]; rfl⟩
  literal t h := by
    obtain ⟨ps, piece, rest, -, hfits, ht⟩ | rfl := piece_or_finish_of_mem h
    · refine ⟨Piece.literal_of_token? hfits ht, fun value hvalue => ?_⟩
      obtain ⟨m, rfl⟩ := Piece.token?_literal ht hvalue
      exact ⟨rfl, Number.isNegative_finite false m⟩
    · simp [Token.finish]
  finish_last := by
    refine ⟨_, _, tokens_scanText source.toList, fun t ht => ?_⟩
    obtain ⟨piece, rest, q, hfits, ht⟩ := exists_piece_of_mem_tokens ht
    have hfinish := (Piece.longest_of_token? hfits ht).2.not_isFinish
    exact ⟨Piece.lexeme_ne_empty hfits ht, by simpa [Token.isFinish] using hfinish⟩
  parses e h := faults_eq_nil_of_derives (parse_scanText_eq_ok_iff.mp h)

example : (scan "(+ 2. é /* 3)\n").faults.map (fun fault => (fault.cause, fault.token.lexeme)) =
    [(.strayCharacter, "."), (.strayCharacter, "é"), (.unclosedComment, "/* 3)\n")] := by
  decide +kernel

end PolishCalc
