import PolishCalc.Proofs.Places
import PolishCalc.Proofs.Relocation

/-! Texts put together. When the last piece of a text fits what is added to it, and that begins with a
blank, the pieces of the two texts stand one behind the other. Scanning therefore goes line by line:
what a line feed separates is scanned apart, and only moves down. -/
namespace PolishCalc

open Source (byteLength byteLength_append)

namespace Piece

def FitAll : List Piece → List Char → Prop
  | [], _ => True
  | piece :: ps, rest => piece.Fits (ps.flatMap text ++ rest) ∧ FitAll ps rest

/-- Only the last piece sees what stands behind all of them, as long as that begins with a blank. -/
theorem fits_append_of_isBlank {piece : Piece} {inner rest more : List Char}
    (h : piece.Fits (inner ++ rest)) (hinner : inner ≠ [])
    (hmore : ∀ c ∈ more.head?, isBlank c = true) : piece.Fits (inner ++ more) := by
  obtain ⟨d, inner, rfl⟩ := List.exists_cons_of_ne_nil hinner
  cases piece with
  | number whole fraction =>
    obtain ⟨hne, hwhole, hfraction, hhead, hpoint⟩ := h
    refine ⟨hne, hwhole, hfraction, hhead, ?_⟩
    intro hnil e tail heq
    cases inner with
    | nil =>
      obtain rfl : more = e :: tail := (List.cons.inj heq).2
      exact (not_isDigit_of_isBlank (hmore e rfl)).1
    | cons e' inner =>
      obtain ⟨rfl, htail⟩ := List.cons.inj heq
      obtain ⟨rfl, -⟩ := List.cons.inj htail
      exact hpoint hnil e' (inner ++ rest) rfl
  | unclosed body => simp [Fits] at h
  | _ => exact h

theorem FitAll.replace {ps : List Piece} {rest more : List Char} (h : FitAll ps rest)
    (hlast : ∀ piece ∈ ps.getLast?, piece.Fits rest → piece.Fits more)
    (hmore : ∀ c ∈ more.head?, isBlank c = true) : FitAll ps more := by
  induction ps with
  | nil => trivial
  | cons piece ps ih =>
    cases ps with
    | nil => exact ⟨hlast piece rfl h.1, trivial⟩
    | cons next ps =>
      refine ⟨fits_append_of_isBlank h.1 ?_ hmore, ih h.2 ?_⟩
      · simp [text_ne_nil_of_fits h.2.1]
      · intro last hmem
        exact hlast last (by rwa [List.getLast?_cons_cons])

theorem FitAll.fits_getLast {ps : List Piece} {rest : List Char} (h : FitAll ps rest) :
    ∀ piece ∈ ps.getLast?, piece.Fits rest := by
  induction ps with
  | nil => simp
  | cons piece ps ih =>
    cases ps with
    | nil =>
      intro last hlast
      obtain rfl : piece = last := by simpa using hlast
      exact h.1
    | cons next ps =>
      rw [List.getLast?_cons_cons]
      exact ih h.2

def isOpen : Piece → Bool
  | .lineComment _ | .unclosed _ => true
  | _ => false

theorem fits_of_isBlank {piece : Piece} {rest more : List Char} (h : piece.Fits rest)
    (hopen : piece.isOpen = false) (hblank : ∃ c ∈ more.head?, isBlank c = true) :
    piece.Fits more := by
  obtain ⟨c, hc, hblank⟩ := hblank
  obtain ⟨more, rfl⟩ := List.head?_eq_some_iff.mp hc
  obtain ⟨hdigit, hslash⟩ := not_isDigit_of_isBlank hblank
  cases piece with
  | symbol kind c' =>
    refine ⟨h.1, fun _ d hd => ?_⟩
    obtain rfl := Option.some.inj hd
    exact ⟨hslash, fun he => by simp [he, isBlank] at hblank⟩
  | number whole fraction =>
    refine ⟨h.1, h.2.1, h.2.2.1, fun d hd => ?_, fun _ d tail heq => ?_⟩
    · obtain rfl := Option.some.inj hd
      exact hdigit
    · obtain ⟨rfl, -⟩ := List.cons.inj heq
      simp [isBlank] at hblank
  | lineComment body => cases hopen
  | unclosed body => cases hopen
  | _ => exact h

theorem isBlank_of_lineBreak {c : Char} (h : inLineComment c = false) : isBlank c = true := by
  have hbreak : c = '\n' ∨ c = '\r' := by
    simpa [inLineComment, Decidable.imp_iff_not_or] using h
  cases hbreak with
  | inl hc => rw [hc]; rfl
  | inr hc => rw [hc]; rfl

/-- At a line break a line comment ends, too. -/
theorem fits_lineBreak {piece : Piece} (h : piece.Fits []) (hopen : ∀ body, piece ≠ unclosed body)
    {c : Char} (hc : inLineComment c = false) (rest : List Char) : piece.Fits (c :: rest) := by
  cases piece with
  | lineComment body => exact ⟨h.1, fun d hd => by obtain rfl := Option.some.inj hd; exact hc⟩
  | unclosed body => exact absurd rfl (hopen body)
  | _ => exact fits_of_isBlank h rfl ⟨c, rfl, isBlank_of_lineBreak hc⟩

/-- No piece looks further ahead than two characters. -/
theorem fits_append {piece : Piece} {rest : List Char} (h : piece.Fits rest)
    (htwo : 2 ≤ rest.length) (more : List Char) : piece.Fits (rest ++ more) := by
  match rest, htwo with
  | c :: d :: rest, _ =>
    cases piece with
    | number whole fraction =>
      obtain ⟨hne, hwhole, hfraction, hhead, hpoint⟩ := h
      refine ⟨hne, hwhole, hfraction, hhead, ?_⟩
      intro hnil e tail heq
      obtain ⟨hc, htail⟩ := List.cons.inj heq
      obtain ⟨hd, -⟩ := List.cons.inj htail
      exact hd ▸ hpoint hnil d rest (by rw [hc])
    | unclosed body => simp [Fits] at h
    | _ => exact h

theorem FitAll.append {ps : List Piece} {rest : List Char} (h : FitAll ps rest)
    (htwo : 2 ≤ rest.length) (more : List Char) : FitAll ps (rest ++ more) := by
  induction ps with
  | nil => trivial
  | cons piece ps ih =>
    refine ⟨?_, ih h.2⟩
    rw [← List.append_assoc]
    exact fits_append h.1 (by rw [List.length_append]; omega) more

end Piece

theorem pieces_flatMap_append {ps : List Piece} {rest : List Char} (h : Piece.FitAll ps rest) :
    pieces (ps.flatMap Piece.text ++ rest) = ps ++ pieces rest := by
  induction ps with
  | nil => rfl
  | cons piece ps ih =>
    rw [List.flatMap_cons, List.append_assoc, pieces_append_of_fits h.1, ih h.2, List.cons_append]

theorem fitAll_of_pieces_eq {text rest : List Char} {ps : List Piece}
    (h : pieces text = ps ++ pieces rest) : Piece.FitAll ps rest := by
  induction ps generalizing text with
  | nil => trivial
  | cons piece ps ih =>
    cases text with
    | nil => simp [pieces_nil] at h
    | cons c cs =>
      rw [pieces_cons, List.cons_append] at h
      obtain ⟨rfl, hrest⟩ := List.cons.inj h
      exact ⟨text_eq_of_pieces_eq hrest ▸ Piece.fits_cut c cs, ih hrest⟩

theorem fitAll_pieces (text : List Char) : Piece.FitAll (pieces text) [] := by
  have h : pieces text = pieces text ++ pieces [] := by simp [pieces_nil]
  exact fitAll_of_pieces_eq h

/-- Only the last piece of a text changes with what is added to the text, if that piece is long enough
to be all that the others look at. -/
theorem pieces_append_of_last {text : List Char} {ps : List Piece} {last : Piece}
    (h : pieces text = ps ++ [last]) (htwo : 2 ≤ last.text.length) (more : List Char) :
    pieces (text ++ more) = ps ++ pieces (last.text ++ more) := by
  have hfit := fitAll_pieces text
  rw [h] at hfit
  have hlast := pieces_append_of_fits (hfit.fits_getLast last (by simp))
  rw [pieces_nil, List.append_nil] at hlast
  rw [← hlast] at h
  have hmore := (fitAll_of_pieces_eq h).append htwo more
  rw [text_eq_of_pieces_eq h, List.append_assoc, pieces_flatMap_append hmore]

def Token.moveTo (p : Position) (t : Token) : Token := { t with position := p }

namespace Piece

theorem token?_moveTo (piece : Piece) (p q : Position) :
    piece.token? q = (piece.token? p).map (Token.moveTo q) := by
  cases piece with
  | number whole fraction =>
    cases hread : Decimal.read? whole fraction with
    | some value => rw [token?_number hread, token?_number hread]; rfl
    | none => rw [token?_outOfRange hread, token?_outOfRange hread]; rfl
  | _ => rfl

theorem fault?_relocate {piece : Piece} {p q : Position} {f : Token → Token}
    (h : piece.token? q = (piece.token? p).map f) :
    piece.fault? q = (piece.fault? p).map (Fault.relocate f) := by
  unfold fault?
  rw [h]
  cases piece.cause? with
  | none => rfl
  | some cause => cases piece.token? p <;> rfl

def faults (p : Position) (ps : List Piece) : List Fault :=
  (place p ps).filterMap fun (piece, p) => piece.fault? p

theorem place_append (p : Position) (ps qs : List Piece) :
    place p (ps ++ qs) = place p ps ++ place (p.after (ps.flatMap text)) qs := by
  induction ps generalizing p with
  | nil => rfl
  | cons piece ps ih =>
    rw [List.cons_append, place, ih, place, List.cons_append, List.flatMap_cons,
      Position.after_append]

theorem mem_of_mem_place {piece : Piece} {p q : Position} {ps : List Piece}
    (h : (piece, q) ∈ place p ps) : piece ∈ ps := by
  induction ps generalizing p with
  | nil => cases h
  | cons next ps ih =>
    rcases List.mem_cons.mp h with heq | h
    · obtain ⟨rfl, -⟩ := Prod.mk.inj heq
      exact List.mem_cons_self
    · exact List.mem_cons_of_mem next (ih h)

theorem faults_cons (p : Position) (piece : Piece) (ps : List Piece) :
    faults p (piece :: ps) = (piece.fault? p).toList ++ faults (p.after piece.text) ps := by
  unfold faults
  cases h : piece.fault? p <;> simp [place, h]

theorem faults_append (p : Position) (ps qs : List Piece) :
    faults p (ps ++ qs) = faults p ps ++ faults (p.after (ps.flatMap text)) qs := by
  rw [faults, place_append, List.filterMap_append]
  rfl

end Piece

theorem faults_scanText (text : List Char) :
    (scanText text).faults = Piece.faults .start (pieces text) := rfl

def Position.down (n : Nat) (p : Position) : Position := ⟨p.line + n, p.column⟩

def Token.down (n : Nat) (t : Token) : Token := t.moveTo (t.position.down n)

def Fault.down (n : Nat) (f : Fault) : Fault := f.relocate (Token.down n)

def Span.shift (n : Nat) (span : Span) : Span := ⟨span.start + n, span.stop + n⟩

theorem Position.after_down (n : Nat) (p : Position) (text : List Char) :
    (p.down n).after text = (p.after text).down n := by
  induction text generalizing p with
  | nil => rfl
  | cons c text ih =>
    have hadvance : (p.down n).advance c = (p.advance c).down n := by
      by_cases hc : c = '\n'
      · simp [advance, down, hc, Nat.add_right_comm]
      · simp [advance, down, hc]
    rw [after_cons, after_cons, hadvance, ih]

theorem Position.after_lineFeed (text : List Char) :
    Position.start.after (text ++ ['\n']) = Position.start.down (text.count '\n' + 1) := by
  have hline : (text ++ ['\n']).count '\n' = text.count '\n' + 1 := by simp
  have hcolumn : ((text ++ ['\n']).reverse.takeWhile (· ≠ '\n')).length = 0 := by simp
  rw [start_after, behind, hline, hcolumn]
  rfl

namespace Piece

theorem token?_down (piece : Piece) (n : Nat) (p : Position) :
    piece.token? (p.down n) = (piece.token? p).map (Token.down n) := by
  rw [piece.token?_moveTo p]
  cases ht : piece.token? p with
  | none => rfl
  | some t => rw [Option.map_some, Option.map_some, Token.down, position_of_token? ht]

theorem tokens_down (n : Nat) (p : Position) (ps : List Piece) :
    tokens (p.down n) ps = (tokens p ps).map (Token.down n) := by
  induction ps generalizing p with
  | nil => rfl
  | cons piece ps ih =>
    rw [tokens_cons, tokens_cons, token?_down, Position.after_down, ih, List.map_append,
      Option.toList_map]

theorem faults_down (n : Nat) (p : Position) (ps : List Piece) :
    faults (p.down n) ps = (faults p ps).map (Fault.down n) := by
  induction ps generalizing p with
  | nil => rfl
  | cons piece ps ih =>
    rw [faults_cons, faults_cons, fault?_relocate (piece.token?_down n p), Position.after_down, ih,
      List.map_append, Option.toList_map]
    rfl

end Piece

namespace LineIndex

theorem spansFrom_shift (n start here : Nat) (text : List Char) :
    spansFrom (start + n) (here + n) text = (spansFrom start here text).map (Span.shift n) := by
  induction text generalizing start here with
  | nil => rfl
  | cons c text ih =>
    by_cases hc : c = '\n'
    · simp only [spansFrom, hc, if_true, List.map_cons, ← ih, Nat.add_right_comm]
      rfl
    · simp only [spansFrom, hc, if_false, ← ih, Nat.add_right_comm]

theorem spansFrom_append (start here : Nat) (a b : List Char) :
    spansFrom start here (a ++ '\n' :: b) =
      spansFrom start here a ++ (spansFrom 0 0 b).map (Span.shift (here + byteLength a + 1)) := by
  induction a generalizing start here with
  | nil => simp [spansFrom, ← spansFrom_shift, byteLength]
  | cons c a ih =>
    by_cases hc : c = '\n'
    · have hsize : '\n'.utf8Size = 1 := rfl
      simp [spansFrom, hc, ih, byteLength, hsize, Nat.add_assoc]
    · simp [spansFrom, hc, ih, byteLength, Nat.add_assoc]

end LineIndex

theorem Piece.mem_faults_of_fault? {piece : Piece} {p : Position} {ps qs : List Piece}
    {fault : Fault} (h : piece.fault? (p.after (ps.flatMap text)) = some fault) :
    fault ∈ faults p (ps ++ piece :: qs) := by
  rw [faults_append, faults_cons, h]
  simp

/-- A line break keeps the pieces of two texts apart, unless a comment is still open. -/
theorem pieces_append_lineBreak {a : List Char} (h : ∀ body, .unclosed body ∉ (pieces a).getLast?)
    {c : Char} (hc : Piece.inLineComment c = false) (b : List Char) :
    pieces (a ++ c :: b) = pieces a ++ pieces (c :: b) := by
  have hfit : Piece.FitAll (pieces a) (c :: b) := by
    refine (fitAll_pieces a).replace ?_ (by simp [Piece.isBlank_of_lineBreak hc])
    intro piece hlast hfits
    refine Piece.fits_lineBreak hfits ?_ hc b
    rintro body rfl
    exact h body hlast
  have happend := pieces_flatMap_append hfit
  rwa [flatMap_text_pieces] at happend

theorem pieces_append_lineFeed {a : List Char}
    (h : ∀ fault ∈ (scanText a).faults, fault.cause ≠ .unclosedComment) (b : List Char) :
    pieces (a ++ '\n' :: b) = pieces a ++ .blank '\n' :: pieces b := by
  have hfits : (Piece.blank '\n').Fits b := rfl
  have hblank : pieces ('\n' :: b) = .blank '\n' :: pieces b := pieces_append_of_fits hfits
  rw [← hblank]
  refine pieces_append_lineBreak ?_ rfl b
  intro body hlast
  obtain ⟨ps, hps⟩ := List.getLast?_eq_some_iff.mp hlast
  have hfault : ∃ fault ∈ (scanText a).faults, fault.cause = .unclosedComment := by
    rw [faults_scanText, hps]
    exact ⟨_, Piece.mem_faults_of_fault? rfl, rfl⟩
  obtain ⟨fault, hmem, hcause⟩ := hfault
  exact h fault hmem hcause

/-- Scanning goes line by line: behind a text that leaves no comment open, a line feed and more text
add the tokens, the faults and the lines of that text, moved down by the lines in front of them. -/
theorem scan_across_line_feed {a b : String}
    (h : ∀ fault ∈ (scan a).faults, fault.cause ≠ .unclosedComment) :
    (scan (a ++ "\n" ++ b)).tokens =
      (scan a).tokens.dropLast ++ (scan b).tokens.map (Token.down (scan a).lines.count) ∧
    (scan (a ++ "\n" ++ b)).faults =
      (scan a).faults ++ (scan b).faults.map (Fault.down (scan a).lines.count) ∧
    (scan (a ++ "\n" ++ b)).lines.spans =
      (scan a).lines.spans ++
        (scan b).lines.spans.map (Span.shift (byteLength a.toList + 1)) := by
  have hscan : scan (a ++ "\n" ++ b) = scanText (a.toList ++ '\n' :: b.toList) := by
    simp [scan]
  have hpieces := pieces_append_lineFeed h b.toList
  have hcount : (scan a).lines.count = a.toList.count '\n' + 1 :=
    LineIndex.length_spansFrom 0 0 a.toList
  -- The line feed leaves neither token nor fault, and behind it the first line begins further down.
  have hplace : (Position.start.after a.toList).after ['\n'] =
      Position.start.down (scan a).lines.count := by
    rw [hcount, ← Position.after_append, Position.after_lineFeed]
  have hfinish : Position.start.after (a.toList ++ '\n' :: b.toList) =
      (Position.start.after b.toList).down (scan a).lines.count := by
    rw [← Position.after_down, ← hplace, Position.after_append]
    rfl
  rw [hscan]
  refine ⟨?_, ?_, ?_⟩
  · rw [tokens_scanText, hpieces, Piece.tokens_append, flatMap_text_pieces, Piece.tokens_cons]
    dsimp only [Piece.text]
    have ha : (scan a).tokens.dropLast = Piece.tokens .start (pieces a.toList) := by
      simp [scan, tokens_scanText]
    have hb : (scan b).tokens = _ := tokens_scanText b.toList
    rw [hplace, Piece.tokens_down, hfinish, ha, hb, List.map_append, List.append_assoc]
    rfl
  · rw [faults_scanText, hpieces, Piece.faults_append, flatMap_text_pieces, Piece.faults_cons]
    dsimp only [Piece.text]
    rw [hplace, Piece.faults_down]
    rfl
  · exact (LineIndex.spansFrom_append 0 0 a.toList b.toList).trans (by rw [Nat.zero_add]; rfl)

theorem scan_across_line_feed_behind_comments :
    let a := "(+ 1. /*\n*/ //é\r"
    let b := "2) /*\n"
    (∀ fault ∈ (scan a).faults, fault.cause ≠ .unclosedComment) ∧
    (scan (a ++ "\n" ++ b)).tokens =
      (scan a).tokens.dropLast ++ (scan b).tokens.map (Token.down (scan a).lines.count) ∧
    (scan (a ++ "\n" ++ b)).faults =
      (scan a).faults ++ (scan b).faults.map (Fault.down (scan a).lines.count) ∧
    (scan (a ++ "\n" ++ b)).lines.spans =
      (scan a).lines.spans ++
        (scan b).lines.spans.map (Span.shift (byteLength a.toList + 1)) := by
  intro a b
  have h : ∀ fault ∈ (scan a).faults, fault.cause ≠ .unclosedComment := by decide +kernel
  exact ⟨h, scan_across_line_feed h⟩

end PolishCalc
