import PolishCalc.Proofs.Tiling

/-! Where tokens stand. The tiling of a source says at which byte each token starts; the line and the
column of the token are those of that byte, counted in the text in front of it. -/
namespace PolishCalc

open Source (byteLength byteLength_append)

def Position.behind (text : List Char) : Position :=
  ⟨1 + text.count '\n', 1 + (text.reverse.takeWhile (· ≠ '\n')).length⟩

theorem Position.start_after_reverse (text : List Char) :
    Position.start.after text.reverse = .behind text.reverse := by
  induction text with
  | nil => rfl
  | cons c text ih =>
    rw [List.reverse_cons, after_append, ih]
    by_cases hc : c = '\n'
    · subst hc
      simp [behind, advance, Nat.add_assoc]
    · simp [behind, advance, hc, Nat.add_comm]

theorem Position.start_after (text : List Char) : Position.start.after text = .behind text := by
  simpa using start_after_reverse text.reverse

namespace Piece

def isLayout : Piece → Bool
  | .blank _ | .lineComment _ | .blockComment _ => true
  | _ => false

theorem token?_eq_none_iff {piece : Piece} {p : Position} :
    piece.token? p = none ↔ piece.isLayout = true := by
  cases piece with
  | number whole fraction =>
    cases hread : Decimal.read? whole fraction with
    | some value => simp [token?_number hread, isLayout]
    | none => simp [token?_outOfRange hread, isLayout]
  | _ => simp [token?, isLayout]

theorem exists_token? {piece : Piece} (h : piece.isLayout = false) (p : Position) :
    ∃ t, piece.token? p = some t := by
  cases ht : piece.token? p with
  | some t => exact ⟨t, rfl⟩
  | none => simp [token?_eq_none_iff.mp ht] at h

theorem isLayout_of_token? {piece : Piece} {p : Position} {t : Token}
    (h : piece.token? p = some t) : piece.isLayout = false := by
  by_cases hlayout : piece.isLayout = true
  · rw [token?_eq_none_iff.mpr hlayout] at h
    cases h
  · simpa using hlayout

theorem position_of_token? {piece : Piece} {p : Position} {t : Token}
    (h : piece.token? p = some t) : t.position = p := by
  obtain ⟨_, _, -, rfl⟩ | ⟨_, _, _, -, -, rfl⟩ | ⟨-, rfl⟩ := token?_cases h
  all_goals rfl

theorem tokens_of_isLayout {ps : List Piece} (h : ∀ piece ∈ ps, piece.isLayout = true)
    (p : Position) : tokens p ps = [] := by
  induction ps generalizing p with
  | nil => rfl
  | cons piece ps ih =>
    have hnone : piece.token? p = none := token?_eq_none_iff.mpr (h piece (by simp))
    rw [tokens_cons, hnone, ih fun q hq => h q (List.mem_cons_of_mem piece hq)]
    rfl

/-- No token begins with a blank. -/
theorem exists_text_eq_cons {piece : Piece} {rest : List Char} (h : piece.Fits rest)
    (htoken : piece.isLayout = false) : ∃ c cs, piece.text = c :: cs ∧ isBlank c = false := by
  cases piece with
  | symbol kind c => exact ⟨c, [], rfl, (not_isDigit_of_ofChar? h.1).2⟩
  | number whole fraction =>
    obtain ⟨c, whole, rfl⟩ := List.exists_cons_of_ne_nil h.1
    refine ⟨c, _, rfl, ?_⟩
    by_cases hblank : isBlank c = true
    · have hdigit := h.2.1 c (by simp)
      simp [(not_isDigit_of_isBlank hblank).1] at hdigit
    · simpa using hblank
  | stray c => exact ⟨c, [], rfl, h.2.1⟩
  | unclosed body => exact ⟨'/', '*' :: body, rfl, rfl⟩
  | _ => cases htoken

theorem fits_of_longestNumeral {numeral rest : List Char} (h : LongestNumeral numeral rest) :
    ∃ whole fraction, (number whole fraction).Fits rest ∧
      (number whole fraction).text = numeral := by
  obtain ⟨hnumeral, hlongest⟩ := h
  have hstop (more tail : List Char) (hmore : more ≠ []) (hrest : rest = more ++ tail) :
      ¬ Numeral (numeral ++ more) := by
    intro hlonger
    have hle := hlongest (numeral ++ more) ⟨tail, by simp [hrest]⟩ hlonger
    have hpos := List.length_pos_iff.mpr hmore
    rw [List.length_append] at hle
    omega
  cases hnumeral with
  | whole hne hw =>
    refine ⟨numeral, [], ⟨hne, hw, by simp, ?_, ?_⟩, by simp [text]⟩
    · intro d hd
      obtain ⟨tail, rfl⟩ := List.head?_eq_some_iff.mp hd
      by_cases hdigit : d.isDigit = true
      · refine absurd (Numeral.whole (by simp) ?_) (hstop [d] tail (by simp) rfl)
        simpa [or_imp, forall_and, hdigit] using hw
      · simpa using hdigit
    · intro _ d tail hrest
      by_cases hdigit : d.isDigit = true
      · exact absurd (Numeral.point hne hw (by simp) (by simpa using hdigit))
          (hstop ['.', d] tail (by simp) hrest)
      · simpa using hdigit
  | @point w f hne hw hf hfdigits =>
    refine ⟨w, f, ⟨hne, hw, hfdigits, ?_, fun hnil => absurd hnil hf⟩, by simp [text, hf]⟩
    intro d hd
    obtain ⟨tail, rfl⟩ := List.head?_eq_some_iff.mp hd
    by_cases hdigit : d.isDigit = true
    · have hlonger : Numeral (w ++ '.' :: (f ++ [d])) :=
        .point hne hw (by simp) (by simpa [or_imp, forall_and, hdigit] using hfdigits)
      exact absurd (by simpa using hlonger) (hstop [d] tail (by simp) rfl)
    · simpa using hdigit

theorem isStray_of_startsNoRule {c : Char} (h : StartsNoRule c) : IsStray c := by
  obtain ⟨hdigit, hc⟩ := h
  simp only [List.mem_cons, List.not_mem_nil, or_false, not_or] at hc
  refine ⟨hdigit, by simp [isBlank, hc], ?_⟩
  unfold Token.Kind.ofChar?
  split
  all_goals simp_all

end Piece

theorem Token.Longest.exists_piece {t : Token} {rest : List Char} (h : t.Longest rest) :
    ∃ piece : Piece, piece.Fits rest ∧ piece.text = t.lexeme.toList ∧ piece.isLayout = false := by
  have hsymbol {c : Char} (hc : c ≠ '/') (htext : t.lexeme.toList = [c])
      {kind : Token.Kind} (hkind : Token.Kind.ofChar? c = some kind) :
      ∃ piece : Piece, piece.Fits rest ∧ piece.text = t.lexeme.toList ∧ piece.isLayout = false :=
    ⟨.symbol kind c, ⟨hkind, fun he => absurd he hc⟩, htext.symm, rfl⟩
  unfold Token.Longest at h
  dsimp only at h
  split at h
  · exact hsymbol (by decide) h rfl
  · exact hsymbol (by decide) h rfl
  · exact hsymbol (by decide) h rfl
  · exact hsymbol (by decide) h rfl
  · exact hsymbol (by decide) h rfl
  · exact ⟨.symbol .slash '/', ⟨rfl, fun _ => h.2⟩, h.1.symm, rfl⟩
  · obtain ⟨whole, fraction, hfits, htext⟩ := Piece.fits_of_longestNumeral h
    exact ⟨_, hfits, htext, rfl⟩
  · obtain h | ⟨body, htext, hopen, rfl⟩ | ⟨c, htext, hc⟩ := h
    · obtain ⟨whole, fraction, hfits, htext⟩ := Piece.fits_of_longestNumeral h
      exact ⟨_, hfits, htext, rfl⟩
    · exact ⟨.unclosed body, ⟨rfl, hopen⟩, htext.symm, rfl⟩
    · exact ⟨.stray c, Piece.isStray_of_startsNoRule hc, htext.symm, rfl⟩
  · exact h.elim

/-- Layout in front of a text is cut into pieces of its own. -/
theorem Layout.exists_pieces {gap rest : List Char} (h : Layout rest gap) :
    ∃ ps, pieces (gap ++ rest) = ps ++ pieces rest ∧ ps.flatMap Piece.text = gap ∧
      ∀ piece ∈ ps, piece.isLayout = true := by
  have hcons {gap : List Char} {piece : Piece} (hfits : piece.Fits (gap ++ rest))
      (hlayout : piece.isLayout = true)
      (ih : ∃ ps, pieces (gap ++ rest) = ps ++ pieces rest ∧ ps.flatMap Piece.text = gap ∧
        ∀ piece ∈ ps, piece.isLayout = true) :
      ∃ ps, pieces (piece.text ++ gap ++ rest) = ps ++ pieces rest ∧
        ps.flatMap Piece.text = piece.text ++ gap ∧ ∀ piece ∈ ps, piece.isLayout = true := by
    obtain ⟨ps, hps, htext, hall⟩ := ih
    refine ⟨piece :: ps, ?_, by simp [htext], by simpa [hlayout] using hall⟩
    rw [List.append_assoc, pieces_append_of_fits hfits, hps, List.cons_append]
  induction h with
  | nil => exact ⟨[], by simp, rfl, by simp⟩
  | @blank c gap hc _ ih =>
    have hfits : (Piece.blank c).Fits (gap ++ rest) := by
      simpa [Piece.Fits, Piece.isBlank, or_assoc] using hc
    exact hcons hfits rfl ih
  | @lineComment body gap hbody hend _ ih =>
    have hfits : (Piece.lineComment body).Fits (gap ++ rest) := by
      refine ⟨fun c hc => by simpa [Piece.inLineComment] using hbody c hc, fun c hc => ?_⟩
      simpa [Piece.inLineComment, Decidable.imp_iff_not_or] using hend c hc
    exact hcons hfits rfl ih
  | @blockComment body gap hopen _ ih =>
    have hfits : (Piece.blockComment body).Fits (gap ++ rest) := hopen
    simpa [Piece.text] using hcons hfits rfl ih

inductive Starts : Nat → List Char → List (Token × Nat) → Prop where
  | done {here : Nat} {gap : List Char} : Layout [] gap → Starts here gap []
  | token {here : Nat} {gap rest : List Char} {t : Token} {placed : List (Token × Nat)} :
      Layout (t.lexeme.toList ++ rest) gap → t.Longest rest →
      Starts (here + byteLength gap + byteLength t.lexeme.toList) rest placed →
      Starts here (gap ++ (t.lexeme.toList ++ rest)) ((t, here + byteLength gap) :: placed)

/-- The tokens of a source, each beside the byte where it starts. The token that ends the input
starts at the end of the source. -/
def TokenStarts (source : String) (placed : List (Token × Nat)) : Prop :=
  placed.map Prod.fst = (scan source).tokens ∧
    ∃ inner last, placed = inner ++ [(last, byteLength source.toList)] ∧
      Starts 0 source.toList inner

theorem Tiles.exists_starts {text : List Char} {ts : List Token} (h : Tiles text ts) (here : Nat) :
    ∃ placed, Starts here text placed ∧ placed.map Prod.fst = ts := by
  induction h generalizing here with
  | done hgap => exact ⟨[], .done hgap, rfl⟩
  | @token gap rest t ts hgap hlongest _ ih =>
    obtain ⟨placed, hplaced, hfst⟩ :=
      ih (here + byteLength gap + byteLength t.lexeme.toList)
    exact ⟨_, .token hgap hlongest hplaced, by simp [hfst]⟩

theorem exists_tokenStarts (source : String) : ∃ inner, TokenStarts source
    (inner ++ [(Token.finish (Position.start.after source.toList), byteLength source.toList)]) := by
  obtain ⟨inner, hinner, hfst⟩ := (tiles_pieces source.toList .start).exists_starts 0
  refine ⟨inner, ?_, inner, _, rfl, hinner⟩
  rw [List.map_append, hfst]
  rfl

/-- A token that starts at byte `start` is that of a piece, with the pieces `ps` in front of it and the
text `rest` behind it. -/
theorem Starts.exists_piece {here : Nat} {text : List Char} {inner : List (Token × Nat)}
    {p : Position} {t : Token} {start : Nat} (h : Starts here text inner)
    (hts : inner.map Prod.fst = Piece.tokens p (pieces text)) (hmem : (t, start) ∈ inner) :
    ∃ ps piece rest, pieces text = ps ++ piece :: pieces rest ∧ Piece.Fits piece rest ∧
      piece.token? (p.after (ps.flatMap Piece.text)) = some t ∧
      start = here + byteLength (ps.flatMap Piece.text) := by
  induction h generalizing p with
  | done _ => simp at hmem
  | @token here gap rest u placed hgap hlongest _ ih =>
    obtain ⟨qs, hqs, hgapText, hlayout⟩ := hgap.exists_pieces
    obtain ⟨piece, hfits, hpiece, htoken⟩ := hlongest.exists_piece
    obtain ⟨v, hv⟩ := Piece.exists_token? htoken (p.after gap)
    rw [← hpiece, pieces_append_of_fits hfits] at hqs
    rw [← hpiece, hqs, Piece.tokens_append, Piece.tokens_of_isLayout hlayout, List.nil_append,
      Piece.tokens_cons, hgapText, hv] at hts
    obtain ⟨rfl, hplaced⟩ := List.cons.inj hts
    rw [← hpiece]
    rcases List.mem_cons.mp hmem with heq | hmem
    · obtain ⟨rfl, rfl⟩ := Prod.mk.inj heq
      exact ⟨qs, piece, rest, hqs, hfits, by rw [hgapText]; exact hv, by rw [hgapText]⟩
    · obtain ⟨ps, piece', rest', hpieces, hfits', ht, rfl⟩ := ih hplaced hmem
      refine ⟨qs ++ piece :: ps, piece', rest', by rw [hqs, hpieces]; simp, hfits', ?_, ?_⟩
      · simpa [hgapText] using ht
      · simp [hgapText, hpiece, byteLength_append, Nat.add_assoc]

/-- A token of a source is that of a piece, or the one that ends the input. -/
theorem TokenStarts.piece_or_finish {source : String} {placed : List (Token × Nat)} {t : Token}
    {start : Nat} (h : TokenStarts source placed) (hmem : (t, start) ∈ placed) :
    (∃ ps piece rest, pieces source.toList = ps ++ piece :: pieces rest ∧ Piece.Fits piece rest ∧
      piece.token? (Position.start.after (ps.flatMap Piece.text)) = some t ∧
      start = byteLength (ps.flatMap Piece.text)) ∨
    t = Token.finish (Position.start.after source.toList) ∧ start = byteLength source.toList := by
  obtain ⟨hfst, inner, last, rfl, hinner⟩ := h
  have hscan : (scan source).tokens = Piece.tokens .start (pieces source.toList) ++
      [Token.finish (Position.start.after source.toList)] := tokens_scanText source.toList
  rw [List.map_append, hscan] at hfst
  obtain ⟨htokens, hlast⟩ := List.append_inj' hfst rfl
  rcases List.mem_append.mp hmem with hmem | hmem
  · have hpiece := hinner.exists_piece htokens hmem
    simp only [Nat.zero_add] at hpiece
    exact .inl hpiece
  · obtain ⟨rfl, rfl⟩ : t = last ∧ start = byteLength source.toList := by simpa using hmem
    exact .inr ⟨by simpa using hlast, rfl⟩

theorem piece_or_finish_of_mem {source : String} {t : Token} (h : t ∈ (scan source).tokens) :
    (∃ ps piece rest, pieces source.toList = ps ++ piece :: pieces rest ∧ Piece.Fits piece rest ∧
      piece.token? (Position.start.after (ps.flatMap Piece.text)) = some t) ∨
    t = Token.finish (Position.start.after source.toList) := by
  obtain ⟨inner, hinner⟩ := exists_tokenStarts source
  rw [← hinner.1] at h
  obtain ⟨⟨t, start⟩, hmem, rfl⟩ := List.mem_map.mp h
  obtain ⟨ps, piece, rest, hpieces, hfits, ht, -⟩ | ⟨ht, -⟩ := hinner.piece_or_finish hmem
  · exact .inl ⟨ps, piece, rest, hpieces, hfits, ht⟩
  · exact .inr ht

/-- Tokens stand where their bytes say: on the line that follows the line feeds in front of them, and
in the column that follows the characters in front of them on that line. Every source has such bytes
for its tokens, whatever layout and stray text is between them. -/
theorem token_places_exact (source : String) :
    (∃ placed, TokenStarts source placed) ∧
    ∀ placed, TokenStarts source placed → ∀ t start, (t, start) ∈ placed →
      ∃ before after, source.toList = before ++ after ∧ byteLength before = start ∧
        t.position.line = 1 + before.count '\n' ∧
        t.position.column = 1 + (before.reverse.takeWhile (· ≠ '\n')).length := by
  obtain ⟨inner, hinner⟩ := exists_tokenStarts source
  refine ⟨⟨_, hinner⟩, ?_⟩
  intro placed h t start hmem
  suffices hplace : ∃ before after, source.toList = before ++ after ∧ byteLength before = start ∧
      t.position = Position.start.after before by
    obtain ⟨before, after, hsource, hstart, hposition⟩ := hplace
    rw [Position.start_after] at hposition
    exact ⟨before, after, hsource, hstart, by rw [hposition]; rfl, by rw [hposition]; rfl⟩
  obtain ⟨ps, piece, rest, hpieces, hfits, ht, rfl⟩ | ⟨rfl, rfl⟩ := h.piece_or_finish hmem
  · rw [← pieces_append_of_fits hfits] at hpieces
    exact ⟨_, _, text_eq_of_pieces_eq hpieces, rfl, Piece.position_of_token? ht⟩
  · exact ⟨source.toList, [], by simp, rfl, rfl⟩

end PolishCalc
