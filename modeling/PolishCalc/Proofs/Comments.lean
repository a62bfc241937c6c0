import PolishCalc.Proofs.Seams

/-! What a line comment hides. No token starts inside of layout, so none starts inside of a comment. A
line comment runs up to a carriage return or a line feed, while only a line feed ends a line: a line
that goes on behind a carriage return is hidden up to there only. -/
namespace PolishCalc

open Source (byteLength byteLength_append)

def LineCommentAt (source : String) (p : Nat) (rest : List Char) : Prop :=
  ∃ ps body qs, pieces source.toList = ps ++ Piece.lineComment body :: qs ∧
    source.toList = ps.flatMap Piece.text ++ rest ∧ p = byteLength (ps.flatMap Piece.text)

/-- One of the pieces of a text stands in front of the pieces `ls`, among them, or behind them. -/
theorem Piece.mem_or_of_append_eq {ps ls rest qs more : List Piece} {piece : Piece}
    (h : ps ++ (ls ++ rest) = qs ++ piece :: more) :
    (∃ us, ps = qs ++ piece :: us) ∨ piece ∈ ls ∨ ∃ us, qs = ps ++ (ls ++ us) := by
  obtain ⟨us, rfl, hus⟩ | ⟨us, rfl, hus⟩ := List.append_eq_append_iff.mp h
  · obtain ⟨vs, rfl, -⟩ | ⟨vs, rfl, hvs⟩ := List.append_eq_append_iff.mp hus
    · exact .inr (.inr ⟨vs, rfl⟩)
    · cases vs with
      | nil => exact .inr (.inr ⟨[], by simp⟩)
      | cons first vs => exact .inr (.inl (by simp [(List.cons.inj hvs).1]))
  · cases us with
    | cons first us => exact .inl ⟨us, by rw [(List.cons.inj hus).1]⟩
    | nil =>
      cases ls with
      | nil => exact .inr (.inr ⟨[], by simp⟩)
      | cons first ls => exact .inr (.inl (by simp [(List.cons.inj hus).1]))

theorem Piece.byteLength_pos_of_fits {piece : Piece} {rest : List Char} (h : piece.Fits rest) :
    0 < byteLength piece.text := by
  obtain ⟨c, cs, htext⟩ := List.exists_cons_of_ne_nil (text_ne_nil_of_fits h)
  have hpos := c.utf8Size_pos
  rw [htext, byteLength]
  omega

theorem TokenStarts.behind_layout {source : String} {placed : List (Token × Nat)} {t : Token}
    {start : Nat} {ps : List Piece} {gap rest : List Char} (h : TokenStarts source placed)
    (hmem : (t, start) ∈ placed) (hfinish : t.isFinish = false)
    (hpieces : pieces source.toList = ps ++ pieces (gap ++ rest)) (hgap : Layout rest gap)
    (hstart : byteLength (ps.flatMap Piece.text) ≤ start) :
    byteLength (ps.flatMap Piece.text) + byteLength gap ≤ start := by
  obtain ⟨ls, hls, rfl, hlayout⟩ := hgap.exists_pieces
  obtain ⟨qs, piece, more, hqs, hfits, ht, rfl⟩ | ⟨rfl, -⟩ := h.piece_or_finish hmem
  · rw [hpieces, hls] at hqs
    obtain ⟨us, rfl⟩ | hlayoutPiece | ⟨us, rfl⟩ := Piece.mem_or_of_append_eq hqs
    · have hpos := Piece.byteLength_pos_of_fits hfits
      simp only [List.flatMap_append, List.flatMap_cons, byteLength_append] at hstart
      omega
    · have hnone := hlayout piece hlayoutPiece
      simp [Piece.isLayout_of_token? ht] at hnone
    · simp [byteLength_append]
  · cases hfinish

theorem exists_pieces_of_append {text : List Char} {ps qs : List Piece}
    (h : pieces text = ps ++ qs) : ∃ rest, qs = pieces rest := by
  induction ps generalizing text with
  | nil => exact ⟨text, h.symm⟩
  | cons piece ps ih =>
    cases text with
    | nil => simp [pieces_nil] at h
    | cons c cs =>
      rw [pieces_cons, List.cons_append] at h
      exact ih (List.cons.inj h).2

/-- A line comment in front of the text `rest`, with the pieces `ps` in front of it. -/
theorem LineCommentAt.exists_body {source : String} {p : Nat} {text : List Char}
    (h : LineCommentAt source p text) :
    ∃ ps body rest, pieces source.toList = ps ++ pieces text ∧
      p = byteLength (ps.flatMap Piece.text) ∧ text = '/' :: '/' :: (body ++ rest) ∧
      (Piece.lineComment body).Fits rest := by
  obtain ⟨ps, body, qs, hpieces, htext, hp⟩ := h
  rw [List.append_cons] at hpieces
  obtain ⟨rest, rfl⟩ := exists_pieces_of_append hpieces
  have hfits : (Piece.lineComment body).Fits rest :=
    (fitAll_of_pieces_eq hpieces).fits_getLast _ (by simp)
  have hsource := text_eq_of_pieces_eq hpieces
  rw [List.flatMap_append, List.append_assoc] at hsource
  have hcomment : text = (Piece.lineComment body).text ++ rest := by
    have heq := List.append_cancel_left (htext.symm.trans hsource)
    simpa using heq
  refine ⟨ps, body, rest, ?_, hp, hcomment, hfits⟩
  rw [hpieces, hcomment, pieces_append_of_fits hfits, List.append_assoc, List.singleton_append]

/-- The rest of the line, and what of it stands behind the comment. -/
theorem line_of_fits {body rest : List Char} (h : (Piece.lineComment body).Fits rest) :
    ('/' :: '/' :: (body ++ rest)).takeWhile (· ≠ '\n') =
      '/' :: '/' :: (body ++ rest.takeWhile (· ≠ '\n')) ∧
    ('/' :: '/' :: (body ++ rest.takeWhile (· ≠ '\n'))).dropWhile (· ≠ '\r') =
      rest.takeWhile (· ≠ '\n') := by
  obtain ⟨hbody, hrest⟩ := h
  simp only [Piece.inLineComment, Bool.and_eq_true] at hbody
  have hfeed : ∀ c ∈ body, decide (c ≠ '\n') = true := fun c hc => (hbody c hc).1
  have hreturn : ∀ c ∈ body, decide (c ≠ '\r') = true := fun c hc => (hbody c hc).2
  have hstop : ∀ d ∈ (rest.takeWhile (· ≠ '\n')).head?, decide (d ≠ '\r') = false := by
    intro d hd
    cases rest with
    | nil => simp at hd
    | cons c rest =>
      by_cases hc : c = '\n'
      · simp [hc] at hd
      · obtain rfl : c = d := by simpa [hc] using hd
        simpa [Piece.inLineComment, hc] using hrest c rfl
  constructor
  · simpa using List.takeWhile_append_of_pos hfeed
  · simpa using Piece.dropWhile_append_of_stop hreturn hstop

/-- A line comment hides its line up to the next carriage return or line feed, whatever characters it
contains: no token starts there, but for the one that ends the input. It hides the whole line when
nothing but blanks stands on the line from the first carriage return on. -/
theorem line_comment_hides_line {source : String} {p : Nat} {text : List Char}
    (h : LineCommentAt source p text) {placed : List (Token × Nat)}
    (hplaced : TokenStarts source placed) {t : Token} {start : Nat} (hmem : (t, start) ∈ placed)
    (hfinish : t.isFinish = false) (hstart : p ≤ start) :
    p + byteLength (text.takeWhile fun c => c ≠ '\n' && c ≠ '\r') ≤ start ∧
    ((∀ c ∈ (text.takeWhile (· ≠ '\n')).dropWhile (· ≠ '\r'), c ∈ [' ', '\t', '\r']) →
      p + byteLength (text.takeWhile (· ≠ '\n')) ≤ start) := by
  obtain ⟨ps, body, rest, hpieces, rfl, rfl, hfits⟩ := h.exists_body
  have hbody : ∀ c ∈ body, c ≠ '\n' ∧ c ≠ '\r' := by
    intro c hc
    simpa [Piece.inLineComment] using hfits.1 c hc
  have hbreak : ∀ c ∈ rest.head?, c = '\n' ∨ c = '\r' := by
    intro c hc
    simpa [Piece.inLineComment, Decidable.imp_iff_not_or] using hfits.2 c hc
  obtain ⟨hline, hbehind⟩ := line_of_fits hfits
  constructor
  · have hslashes : ∀ c ∈ '/' :: '/' :: body, Piece.inLineComment c = true := by
      simpa [Piece.inLineComment] using hfits.1
    have hcomment : ('/' :: '/' :: (body ++ rest)).takeWhile (fun c => c ≠ '\n' && c ≠ '\r') =
        '/' :: '/' :: body := Piece.takeWhile_append_of_stop hslashes hfits.2
    have hlayout : Layout rest ('/' :: '/' :: (body ++ [])) := .lineComment hbody hbreak .nil
    rw [List.append_nil] at hlayout
    rw [hcomment]
    exact hplaced.behind_layout hmem hfinish hpieces hlayout hstart
  · intro hblanks
    rw [hline] at hblanks ⊢
    rw [hbehind] at hblanks
    have hsplit : rest = rest.takeWhile (· ≠ '\n') ++ rest.dropWhile (· ≠ '\n') :=
      List.takeWhile_append_dropWhile.symm
    generalize rest.takeWhile (· ≠ '\n') = blanks at hsplit hblanks ⊢
    generalize rest.dropWhile (· ≠ '\n') = more at hsplit
    subst hsplit
    have hlayout : Layout more ('/' :: '/' :: (body ++ blanks)) := by
      refine .lineComment hbody hbreak (layout_of_isBlank (fun c hc => ?_) more)
      have hblank : c = ' ' ∨ c = '\t' ∨ c = '\r' := by simpa using hblanks c hc
      rcases hblank with rfl | rfl | rfl <;> rfl
    refine hplaced.behind_layout hmem hfinish ?_ hlayout hstart
    simpa using hpieces

theorem line_comment_hides_parenthesis :
    let source := "// é (\r\n7"
    LineCommentAt source 0 source.toList ∧
    ∃ placed t start, TokenStarts source placed ∧ (t, start) ∈ placed ∧ t.isFinish = false ∧
      start = 9 ∧
      0 + byteLength (source.toList.takeWhile fun c => c ≠ '\n' && c ≠ '\r') ≤ start ∧
      ((∀ c ∈ (source.toList.takeWhile (· ≠ '\n')).dropWhile (· ≠ '\r'), c ∈ [' ', '\t', '\r']) →
        0 + byteLength (source.toList.takeWhile (· ≠ '\n')) ≤ start) := by
  intro source
  have hcomment : LineCommentAt source 0 source.toList :=
    ⟨[], [' ', 'é', ' ', '('], [.blank '\r', .blank '\n', .number ['7'] []], by decide +kernel, rfl,
      rfl⟩
  have hgap : Layout ['7'] ('/' :: '/' :: ([' ', 'é', ' ', '('] ++ ['\r', '\n'])) :=
    .lineComment (by simp) (by simp) (.blank (by simp) (.blank (by simp) .nil))
  have hnumber : Token.Longest ⟨.number, "7", Decimal.read? ['7'] [], ⟨2, 1⟩⟩ [] :=
    ⟨.whole (by simp) (by simp), fun longer hlonger _ => hlonger.length_le⟩
  have hstarts : Starts 0 "// é (\r\n7".toList
      [(⟨.number, "7", Decimal.read? ['7'] [], ⟨2, 1⟩⟩, 9)] :=
    @Starts.token 0 _ _ _ _ hgap hnumber (.done .nil)
  have hplaced : TokenStarts "// é (\r\n7"
      [(⟨.number, "7", Decimal.read? ['7'] [], ⟨2, 1⟩⟩, 9), (Token.finish ⟨2, 2⟩, 10)] :=
    ⟨by decide +kernel, _, _, rfl, hstarts⟩
  exact ⟨hcomment, _, _, _, hplaced, List.mem_cons_self, rfl, rfl,
    line_comment_hides_line hcomment hplaced List.mem_cons_self rfl (Nat.zero_le _)⟩

/-- The rest of a line need not be hidden: behind a carriage return a number is read, though the line
of the comment has not ended. -/
theorem number_read_on_line_of_comment :
    let source := "//\r1"
    LineCommentAt source 0 source.toList ∧ '\n' ∉ source.toList ∧
    ∃ placed t start, TokenStarts source placed ∧ (t, start) ∈ placed ∧ t.isFinish = false ∧
      0 ≤ start ∧ start < 0 + byteLength (source.toList.takeWhile (· ≠ '\n')) := by
  intro source
  have hcomment : LineCommentAt source 0 source.toList :=
    ⟨[], [], [.blank '\r', .number ['1'] []], by decide +kernel, rfl, rfl⟩
  have hgap : Layout ['1'] ('/' :: '/' :: ([] ++ ['\r'])) :=
    .lineComment (by simp) (by simp) (.blank (by simp) .nil)
  have hnumber : Token.Longest ⟨.number, "1", Decimal.read? ['1'] [], ⟨1, 4⟩⟩ [] :=
    ⟨.whole (by simp) (by simp), fun longer hlonger _ => hlonger.length_le⟩
  have hstarts : Starts 0 "//\r1".toList [(⟨.number, "1", Decimal.read? ['1'] [], ⟨1, 4⟩⟩, 3)] :=
    @Starts.token 0 _ _ _ _ hgap hnumber (.done .nil)
  have hplaced : TokenStarts "//\r1"
      [(⟨.number, "1", Decimal.read? ['1'] [], ⟨1, 4⟩⟩, 3), (Token.finish ⟨1, 5⟩, 4)] :=
    ⟨by decide +kernel, _, _, rfl, hstarts⟩
  exact ⟨hcomment, by decide, _, _, _, hplaced, List.mem_cons_self, rfl, by decide, by decide⟩

end PolishCalc
