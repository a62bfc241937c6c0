import PolishCalc.Proofs.Reports

/-! The token that ends the input may be left out. What a list of tokens is read as does not depend on
where that token stands, unless it is the one that is blamed; and where it was added behind the tokens
of a source and is blamed, it stands right behind the last of them. -/
namespace PolishCalc

open Source (byteLength byteLength_append)

inductive AlikeUpTo (a b : Token) : Except Fault Expr → Except Fault Expr → Prop where
  | same (result : Except Fault Expr) : AlikeUpTo a b result result
  | blamed (cause : Fault.Cause) : AlikeUpTo a b (.error ⟨cause, a⟩) (.error ⟨cause, b⟩)

namespace Reader

/-- A run over `ts` and the end of the input stops inside of `ts`, wherever the end is, or takes all of
`ts` and refuses the end. -/
theorem run_append_finish (r : Reader) (ts : List Token) :
    (∃ result rest, (∀ fault, result = .error fault → fault.token ∈ ts) ∧ rest <:+ ts ∧
      ∀ p, r.run (ts ++ [Token.finish p]) = (result, rest ++ [Token.finish p])) ∨
    ∃ s, Shifts r ts s ∧ ∀ p, r.run (ts ++ [Token.finish p]) =
      (.error ⟨s.refusal .exhausted, Token.finish p⟩, [Token.finish p]) := by
  induction ts generalizing r with
  | nil =>
    refine .inr ⟨r, .refl r, fun p => ?_⟩
    rw [List.nil_append, run, step_isFinish rfl]
    -- Why the end is refused does not depend on its place.
    rfl
  | cons t ts ih =>
    cases hstep : r.step t with
    | shift next =>
      have hrun (p : Position) :
          r.run (t :: ts ++ [Token.finish p]) = next.run (ts ++ [Token.finish p]) := by
        rw [List.cons_append, run, hstep]
      simp only [hrun]
      obtain ⟨result, rest, hblame, hrest, hsame⟩ | ⟨s, hs, hfinish⟩ := ih next
      · refine .inl ⟨result, rest, fun fault h => ?_, hrest.trans (List.suffix_cons t ts), hsame⟩
        exact List.mem_cons_of_mem t (hblame fault h)
      · exact .inr ⟨s, .step hstep hs, hfinish⟩
    | finish e =>
      refine .inl ⟨.ok e, ts, by simp, List.suffix_cons t ts, fun p => ?_⟩
      rw [List.cons_append, run, hstep]
    | refuse =>
      refine .inl ⟨.error ⟨r.refusal t, t⟩, t :: ts, ?_, List.suffix_refl _, fun p => ?_⟩
      · rintro fault ⟨⟩
        exact List.mem_cons_self
      · rw [List.cons_append, run, hstep]
    | tooDeep =>
      refine .inl ⟨.error ⟨.tooDeep, t⟩, ts, ?_, List.suffix_cons t ts, fun p => ?_⟩
      · rintro fault ⟨⟩
        exact List.mem_cons_self
      · rw [List.cons_append, run, hstep]

end Reader

theorem readProgram_append_finish (ts : List Token) :
    (∃ result, (∀ fault, result = .error fault → fault.token ∈ ts) ∧
      ∀ p, (readProgram (ts ++ [Token.finish p])).1 = result) ∨
    ∃ s cause, Reader.Shifts (.start 0) ts s ∧
      ∀ p, (readProgram (ts ++ [Token.finish p])).1 = .error ⟨cause, Token.finish p⟩ := by
  obtain ⟨result, rest, hblame, hrest, hrun⟩ | ⟨s, hs, hrun⟩ :=
    Reader.run_append_finish (.start 0) ts
  · left
    cases result with
    | error fault =>
      refine ⟨.error fault, hblame, fun p => ?_⟩
      rw [readProgram, readExpr, hrun]
    | ok e =>
      cases rest with
      | nil =>
        refine ⟨.ok e, by simp, fun p => ?_⟩
        rw [readProgram, readExpr, hrun]
        rfl
      | cons t rest =>
        refine ⟨if t.isFinish then .ok e else .error ⟨.trailingTokens, t⟩, ?_, fun p => ?_⟩
        · intro fault hfault
          split at hfault
          · cases hfault
          · cases hfault
            exact hrest.subset List.mem_cons_self
        · rw [readProgram, readExpr, hrun]
          dsimp only [List.cons_append]
          split <;> rfl
  · refine .inr ⟨s, s.refusal .exhausted, hs, fun p => ?_⟩
    rw [readProgram, readExpr, hrun]

def stopBehind (ts : List Token) : Position :=
  match ts.getLast? with
  | some t => t.stop
  | none => .start

theorem withFinish_eq {ts : List Token} (h : ∀ t ∈ ts.getLast?, t.isFinish = false) :
    withFinish ts = ts ++ [Token.finish (stopBehind ts)] := by
  unfold withFinish stopBehind
  cases hlast : ts.getLast? with
  | none => simp [List.getLast?_eq_none_iff.mp hlast]
  | some t => simp [h t hlast]

theorem withFinish_concat (ts : List Token) (p : Position) :
    withFinish (ts ++ [Token.finish p]) = ts ++ [Token.finish p] := by
  simp [withFinish, Token.finish, Token.isFinish]

theorem parse_append_finish {ts : List Token} (h : ∀ t ∈ ts.getLast?, t.isFinish = false)
    (p : Position) :
    AlikeUpTo (Token.finish (stopBehind ts)) (Token.finish p) (parse ts)
      (parse (ts ++ [Token.finish p])) := by
  rw [parse, parse, withFinish_eq h, withFinish_concat]
  obtain ⟨result, -, hsame⟩ | ⟨s, cause, -, hblamed⟩ := readProgram_append_finish ts
  · rw [hsame, hsame]
    exact .same result
  · rw [hblamed, hblamed]
    exact .blamed cause

/-- All tokens that a reader takes are those of an expression that goes on. -/
theorem Reader.Shifts.not_stray {r : Reader} {d : Nat} {ts : List Token}
    (h : Shifts (.start d) ts r) : ∀ t ∈ ts, t.kind ≠ .stray := by
  obtain ⟨hspells, -⟩ := h.spells (start_spells d)
  obtain ⟨more, e, he⟩ := hspells.completes
  intro t ht
  exact (he.accepted t (List.mem_append_left more ht)).1

theorem Position.after_of_not_mem {text : List Char} (h : '\n' ∉ text) (p : Position) :
    p.after text = ⟨p.line, p.column + text.length⟩ := by
  induction text generalizing p with
  | nil => rfl
  | cons c text ih =>
    have hc : c ≠ '\n' := fun hc => h (by simp [hc])
    have htext : '\n' ∉ text := fun hmem => h (List.mem_cons_of_mem c hmem)
    rw [after_cons, ih htext, advance, if_neg hc, List.length_cons, Nat.add_right_comm, Nat.add_assoc]

/-- A token that is not stray has no line break in it, so that it ends on its line. -/
theorem Piece.stop_of_token? {piece : Piece} {rest : List Char} {p : Position} {t : Token}
    (hfits : piece.Fits rest) (ht : piece.token? p = some t) (hk : t.kind ≠ .stray) :
    t.stop = p.after piece.text := by
  have hopen (body : List Char) : piece ≠ unclosed body := by
    rintro rfl
    cases ht
    exact hk rfl
  have hline := lineFeed_not_mem_text hfits (isLayout_of_token? ht) hopen
  rw [Position.after_of_not_mem hline, Token.stop, position_of_token? ht, ← String.length_toList,
    (longest_of_token? hfits ht).1]

def Position.BehindLastToken (p : Position) (source : String) : Prop :=
  (∃ placed, TokenStarts source placed) ∧
  ∀ placed, TokenStarts source placed →
    match placed.dropLast.getLast? with
    | none => p = ⟨1, 1⟩
    | some (t, start) => ∃ before after, source.toList = before ++ after ∧
        byteLength before = start + byteLength t.lexeme.toList ∧ p = .behind before

theorem dropLast_tokens (source : String) :
    (scan source).tokens.dropLast = Piece.tokens .start (pieces source.toList) := by
  rw [scan, tokens_scanText, List.dropLast_concat]

theorem TokenStarts.map_dropLast {source : String} {placed : List (Token × Nat)}
    (h : TokenStarts source placed) :
    placed.dropLast.map Prod.fst = Piece.tokens .start (pieces source.toList) := by
  rw [← dropLast_tokens, ← h.1, List.map_dropLast]

theorem behindLastToken_stopBehind {source : String}
    (h : ∀ t ∈ Piece.tokens .start (pieces source.toList), t.kind ≠ .stray) :
    (stopBehind (Piece.tokens .start (pieces source.toList))).BehindLastToken source := by
  obtain ⟨inner, hinner⟩ := exists_tokenStarts source
  refine ⟨⟨_, hinner⟩, ?_⟩
  intro placed hplaced
  have htokens := hplaced.map_dropLast
  rw [stopBehind, ← htokens, List.getLast?_map]
  cases hlast : placed.dropLast.getLast? with
  | none => rfl
  | some entry =>
    obtain ⟨t, start⟩ := entry
    have hmem := List.mem_of_getLast? hlast
    have ht : t ∈ Piece.tokens .start (pieces source.toList) := by
      rw [← htokens]
      exact List.mem_map_of_mem hmem
    obtain ⟨ps, piece, rest, hpieces, hfits, hpiece, rfl⟩ | ⟨rfl, -⟩ :=
      hplaced.piece_or_finish (List.dropLast_subset placed hmem)
    · refine ⟨ps.flatMap Piece.text ++ piece.text, rest, ?_, ?_, ?_⟩
      · rw [← pieces_append_of_fits hfits] at hpieces
        rw [text_eq_of_pieces_eq hpieces, List.append_assoc]
      · rw [byteLength_append, (Piece.longest_of_token? hfits hpiece).1]
      · simp only [Option.map_some]
        rw [Piece.stop_of_token? hfits hpiece (h t ht), ← Position.after_append, Position.start_after]
    · have hfinish := (tiles_pieces source.toList .start).not_isFinish _ ht
      cases hfinish

/-- The token that ends the input is optional and its place does not matter: a list of tokens without
it is read as with it, or both readings blame that token for the same cause. Where the tokens of a
source are read without it and it is blamed, it stands right behind the last of them. -/
theorem finish_token_optional :
    (∀ ts : List Token, (∀ t ∈ ts.getLast?, t.isFinish = false) → ∀ p,
      ∃ q, withFinish ts = ts ++ [Token.finish q] ∧
        AlikeUpTo (Token.finish q) (Token.finish p) (parse ts) (parse (ts ++ [Token.finish p]))) ∧
    ∀ (source : String) (fault : Fault), parse (scan source).tokens.dropLast = .error fault →
      fault.token.isFinish = true → fault.token.position.BehindLastToken source := by
  constructor
  · intro ts hlast p
    exact ⟨stopBehind ts, withFinish_eq hlast, parse_append_finish hlast p⟩
  · intro source fault hparse hfinish
    rw [dropLast_tokens] at hparse
    have hnot := (tiles_pieces source.toList .start).not_isFinish
    rw [parse, withFinish_eq fun t ht => hnot t (List.mem_of_getLast? ht)] at hparse
    obtain ⟨result, hblame, hsame⟩ | ⟨s, cause, hs, hblamed⟩ :=
      readProgram_append_finish (Piece.tokens .start (pieces source.toList))
    · rw [hsame] at hparse
      simp [hnot _ (hblame fault hparse)] at hfinish
    · rw [hblamed] at hparse
      obtain rfl := Except.error.inj hparse
      exact behindLastToken_stopBehind hs.not_stray

/-- The end of the input is missed behind the last number, on the second line of an application that is
not closed, though the source goes on with a comment. -/
theorem finish_token_optional_in_open_application :
    let source := "(+ 1 // one\n  /* two */ 2 // and more\n"
    let ts := (scan source).tokens.dropLast
    (∀ t ∈ ts.getLast?, t.isFinish = false) ∧
    parse ts = .error ⟨.unclosedApplication, Token.finish ⟨2, 14⟩⟩ ∧
    (∃ q, withFinish ts = ts ++ [Token.finish q] ∧
      AlikeUpTo (Token.finish q) (Token.finish ⟨3, 1⟩) (parse ts)
        (parse (ts ++ [Token.finish ⟨3, 1⟩]))) ∧
    (⟨2, 14⟩ : Position).BehindLastToken source := by
  intro source ts
  have hlast : ∀ t ∈ ts.getLast?, t.isFinish = false := by decide +kernel
  have hparse : parse ts = .error ⟨.unclosedApplication, Token.finish ⟨2, 14⟩⟩ := by
    rw [← Fault.of?_eq_some_iff]
    decide +kernel
  exact ⟨hlast, hparse, finish_token_optional.1 ts hlast ⟨3, 1⟩,
    finish_token_optional.2 source _ hparse rfl⟩

end PolishCalc
