import PolishCalc.Proofs.Pieces

/-! The tokens of a source tile it: between their lexemes stands nothing but layout, and each lexeme
is the longest one that its place allows. -/
namespace PolishCalc

inductive Numeral : List Char → Prop where
  | whole {w : List Char} : w ≠ [] → (∀ c ∈ w, c.isDigit = true) → Numeral w
  | point {w f : List Char} : w ≠ [] → (∀ c ∈ w, c.isDigit = true) → f ≠ [] →
      (∀ c ∈ f, c.isDigit = true) → Numeral (w ++ '.' :: f)

def LongestNumeral (text rest : List Char) : Prop :=
  Numeral text ∧ ∀ longer, longer <+: text ++ rest → Numeral longer → longer.length ≤ text.length

namespace Piece

theorem numeral_of_fits {whole fraction rest : List Char}
    (h : (number whole fraction).Fits rest) : Numeral (number whole fraction).text := by
  obtain ⟨hne, hwhole, hfraction, -, -⟩ := h
  cases fraction with
  | nil => simpa [text] using Numeral.whole hne hwhole
  | cons d fraction => simpa [text] using Numeral.point hne hwhole (by simp) hfraction

theorem length_le_of_digits {w cs rest : List Char} (hw : ∀ c ∈ w, c.isDigit = true)
    (hcs : ∀ c ∈ cs, c.isDigit = true) (hrest : ∀ d ∈ rest.head?, d.isDigit = false)
    (h : w <+: cs ++ rest) : w.length ≤ cs.length := by
  obtain ⟨more, hmore⟩ := h
  have htake := congrArg (List.takeWhile Char.isDigit) hmore
  rw [List.takeWhile_append_of_pos hw, takeWhile_append_of_stop hcs hrest] at htake
  have hlength := congrArg List.length htake
  rw [List.length_append] at hlength
  omega

theorem digits_append_inj {w cs more rest : List Char} (hw : ∀ c ∈ w, c.isDigit = true)
    (hcs : ∀ c ∈ cs, c.isDigit = true) (hmore : ∀ d ∈ more.head?, d.isDigit = false)
    (hrest : ∀ d ∈ rest.head?, d.isDigit = false) (h : w ++ more = cs ++ rest) :
    w = cs ∧ more = rest := by
  have htake := congrArg (List.takeWhile Char.isDigit) h
  rw [takeWhile_append_of_stop hw hmore, takeWhile_append_of_stop hcs hrest] at htake
  subst htake
  exact ⟨rfl, List.append_cancel_left h⟩

theorem not_isDigit_point (cs : List Char) : ∀ d ∈ ('.' :: cs).head?, d.isDigit = false := by
  rintro d ⟨⟩
  rfl

theorem longestNumeral_of_fits {whole fraction rest : List Char}
    (h : (number whole fraction).Fits rest) :
    LongestNumeral (number whole fraction).text rest := by
  refine ⟨numeral_of_fits h, ?_⟩
  obtain ⟨-, hwhole, hfraction, hrest, hpoint⟩ := h
  intro longer hbegins hlonger
  cases fraction with
  | nil =>
    simp only [text, List.isEmpty_nil, if_true, List.append_nil] at hbegins ⊢
    cases hlonger with
    | whole _ hw => exact length_le_of_digits hw hwhole hrest hbegins
    | @point w f _ hw hf hfdigits =>
      obtain ⟨more, hmore⟩ := hbegins
      rw [List.append_assoc, List.cons_append] at hmore
      obtain ⟨-, heq⟩ := digits_append_inj hw hwhole (not_isDigit_point _) hrest hmore
      cases f with
      | nil => exact absurd rfl hf
      | cons d f => simp [hpoint rfl d _ heq.symm] at hfdigits
  | cons d fraction =>
    simp only [text, List.isEmpty_cons, Bool.false_eq_true, if_false, List.append_assoc,
      List.cons_append] at hbegins ⊢
    cases hlonger with
    | whole _ hw =>
      have hle := length_le_of_digits hw hwhole (not_isDigit_point _) hbegins
      rw [List.length_append]
      omega
    | @point w f _ hw hf hfdigits =>
      obtain ⟨more, hmore⟩ := hbegins
      rw [List.append_assoc, List.cons_append] at hmore
      obtain ⟨rfl, heq⟩ :=
        digits_append_inj hw hwhole (not_isDigit_point _) (not_isDigit_point _) hmore
      have hle := length_le_of_digits hfdigits hfraction hrest ⟨more, (List.cons.inj heq).2⟩
      simp only [List.length_append, List.length_cons] at hle ⊢
      omega

end Piece

/-- What may stand in front of `rest` without being a token. A line comment ends where a line or the
whole text does, a block comment at the first `*/` behind its opening. -/
inductive Layout (rest : List Char) : List Char → Prop where
  | nil : Layout rest []
  | blank {c : Char} {gap : List Char} :
      c ∈ [' ', '\t', '\r', '\n'] → Layout rest gap → Layout rest (c :: gap)
  | lineComment {body gap : List Char} :
      (∀ c ∈ body, c ≠ '\n' ∧ c ≠ '\r') → (∀ c ∈ (gap ++ rest).head?, c = '\n' ∨ c = '\r') →
      Layout rest gap → Layout rest ('/' :: '/' :: (body ++ gap))
  | blockComment {body gap : List Char} :
      ¬ ['*', '/'] <:+: body → Layout rest gap →
      Layout rest ('/' :: '*' :: (body ++ '*' :: '/' :: gap))

theorem layout_of_isBlank {blanks : List Char} (h : ∀ c ∈ blanks, Piece.isBlank c = true)
    (rest : List Char) : Layout rest blanks := by
  induction blanks with
  | nil => exact .nil
  | cons c blanks ih =>
    have hblank := h c List.mem_cons_self
    exact .blank (by simpa [Piece.isBlank, or_assoc] using hblank)
      (ih fun d hd => h d (List.mem_cons_of_mem c hd))

def StartsNoRule (c : Char) : Prop :=
  c.isDigit = false ∧ c ∉ ['(', ')', '+', '-', '*', '/', ' ', '\t', '\r', '\n']

def Token.Longest (t : Token) (rest : List Char) : Prop :=
  let text := t.lexeme.toList
  match t.kind with
  | .opening => text = ['(']
  | .closing => text = [')']
  | .plus => text = ['+']
  | .minus => text = ['-']
  | .star => text = ['*']
  | .slash => text = ['/'] ∧ ∀ c ∈ rest.head?, c ≠ '/' ∧ c ≠ '*'
  | .number => LongestNumeral text rest
  | .stray =>
    LongestNumeral text rest ∨
    (∃ body, text = '/' :: '*' :: body ∧ ¬ ['*', '/'] <:+: body ∧ rest = []) ∨
    ∃ c, text = [c] ∧ StartsNoRule c
  | .finish => False

inductive Tiles : List Char → List Token → Prop where
  | done {gap : List Char} : Layout [] gap → Tiles gap []
  | token {gap rest : List Char} {t : Token} {ts : List Token} :
      Layout (t.lexeme.toList ++ rest) gap → t.Longest rest → Tiles rest ts →
      Tiles (gap ++ (t.lexeme.toList ++ rest)) (t :: ts)

theorem Tiles.append {more text : List Char} {ts : List Token} (h : Tiles text ts)
    (hmore : ∀ gap rest, text = gap ++ rest → Layout rest gap → Layout rest (more ++ gap)) :
    Tiles (more ++ text) ts := by
  cases h with
  | done hgap => exact .done (hmore _ [] (by simp) hgap)
  | token hgap hlongest hts =>
    rw [← List.append_assoc]
    exact .token (hmore _ _ rfl hgap) hlongest hts

namespace Piece

theorem longest_of_symbol {kind : Token.Kind} {c : Char} {rest : List Char}
    (h : (symbol kind c).Fits rest) {t : Token} (hkind : t.kind = kind)
    (htext : t.lexeme.toList = [c]) : t.Longest rest := by
  obtain ⟨hofChar, hrest⟩ := h
  unfold Token.Kind.ofChar? at hofChar
  unfold Token.Longest
  rw [hkind]
  split at hofChar
  all_goals cases hofChar
  case h_6 => exact ⟨htext, hrest rfl⟩
  all_goals exact htext

theorem startsNoRule_of_isStray {c : Char} (h : IsStray c) : StartsNoRule c := by
  obtain ⟨hdigit, hblank, hkind⟩ := h
  refine ⟨hdigit, ?_⟩
  intro hc
  simp only [List.mem_cons, List.not_mem_nil, or_false] at hc
  rcases hc with rfl | rfl | rfl | rfl | rfl | rfl | rfl | rfl | rfl | rfl
  all_goals simp_all [Token.Kind.ofChar?, isBlank]

theorem longest_of_token? {piece : Piece} {rest : List Char} {p : Position} {t : Token}
    (h : piece.Fits rest) (ht : piece.token? p = some t) :
    t.lexeme.toList = piece.text ∧ t.Longest rest := by
  obtain ⟨kind, c, rfl, rfl⟩ | ⟨whole, fraction, value, rfl, -, rfl⟩ | ⟨hcause, rfl⟩ :=
    token?_cases ht
  · exact ⟨String.toList_ofList, longest_of_symbol h rfl String.toList_ofList⟩
  · exact ⟨String.toList_ofList,
      by simpa [Token.Longest, Piece.token] using longestNumeral_of_fits h⟩
  · refine ⟨String.toList_ofList, ?_⟩
    cases piece with
    | number whole fraction => exact .inl (by simpa [Piece.token] using longestNumeral_of_fits h)
    | stray c => exact .inr (.inr ⟨c, String.toList_ofList, startsNoRule_of_isStray h⟩)
    | unclosed body => exact .inr (.inl ⟨body, String.toList_ofList, h.2, h.1⟩)
    | _ => exact absurd rfl hcause

theorem layout_of_token?_eq_none {piece : Piece} {gap rest : List Char} {p : Position}
    (h : piece.Fits (gap ++ rest)) (hnone : piece.token? p = none) (hgap : Layout rest gap) :
    Layout rest (piece.text ++ gap) := by
  cases piece with
  | blank c => exact .blank (by simpa [Fits, isBlank, or_assoc] using h) hgap
  | lineComment body =>
    refine .lineComment (fun c hc => ?_) (fun c hc => ?_) hgap
    · simpa [inLineComment] using h.1 c hc
    · have hend := h.2 c hc
      simpa [inLineComment, Decidable.imp_iff_not_or] using hend
  | blockComment body => simpa [text] using Layout.blockComment h hgap
  | number whole fraction =>
    cases hread : Decimal.read? whole fraction with
    | some value => simp [token?_number hread] at hnone
    | none => simp [token?_outOfRange hread] at hnone
  | _ => cases hnone

theorem tiles_append {piece : Piece} {rest : List Char} {ts : List Token} (h : piece.Fits rest)
    (hts : Tiles rest ts) (p : Position) :
    Tiles (piece.text ++ rest) ((piece.token? p).toList ++ ts) := by
  cases ht : piece.token? p with
  | some t =>
    obtain ⟨htext, hlongest⟩ := longest_of_token? h ht
    rw [← htext]
    exact .token .nil hlongest hts
  | none =>
    refine hts.append ?_
    rintro gap rest rfl hgap
    exact layout_of_token?_eq_none h ht hgap

end Piece

theorem tiles_pieces (text : List Char) (p : Position) :
    Tiles text (Piece.tokens p (pieces text)) := by
  fun_induction pieces text generalizing p with
  | case1 => exact .done .nil
  | case2 c cs ih =>
    rw [Piece.tokens_cons]
    have htiles := Piece.tiles_append (Piece.fits_cut c cs) (ih (p.after (Piece.cut c cs).1.text)) p
    rwa [Piece.text_append_cut] at htiles

/-- Scanning loses nothing and cuts the longest tokens: the lexemes of a source, without the token
that ends the input, tile the source. -/
theorem scan_tiles_source (source : String) :
    ∃ ts p, (scan source).tokens = ts ++ [Token.finish p] ∧ Tiles source.toList ts :=
  ⟨_, _, tokens_scanText source.toList, tiles_pieces source.toList .start⟩

end PolishCalc
