import PolishCalc.Proofs.Scanned
import PolishCalc.Proofs.Seams

/-! Layout put between tokens. Where a token starts or ends the pieces of a source can be parted; layout
that is put there, and that begins with a blank, adds pieces of its own and changes no other, so that
it moves tokens and does nothing else. Behind the whole source a comment may take in some of it. -/
namespace PolishCalc

open Source (byteLength byteLength_append takeBytes?_append)

inductive Spacing : List Char → Prop where
  | nil : Spacing []
  | blank {c : Char} {w : List Char} : c ∈ [' ', '\t', '\r', '\n'] → Spacing w → Spacing (c :: w)
  | blockComment {body w : List Char} :
      ¬ ['*', '/'] <:+: body → Spacing w → Spacing ('/' :: '*' :: (body ++ '*' :: '/' :: w))
  | lineComment {body w : List Char} :
      (∀ c ∈ body, c ≠ '\n' ∧ c ≠ '\r') → Spacing w → Spacing ('/' :: '/' :: (body ++ '\n' :: w))

def TokenStart (source : String) (p : Nat) : Prop :=
  ∃ placed t, TokenStarts source placed ∧ (t, p) ∈ placed ∧ t.isFinish = false

/-- A token ends at the byte `p`, other than the one that ends the input and a comment that is never
closed. -/
def TokenStop (source : String) (p : Nat) : Prop :=
  ∃ placed t start, TokenStarts source placed ∧ (t, start) ∈ placed ∧ t.isFinish = false ∧
    p = start + byteLength t.lexeme.toList ∧
    ∀ fault ∈ (scan source).faults, fault.cause = .unclosedComment → fault.token ≠ t

/-- Behind the whole source the text `w` is no part of a comment that is never closed, and what a line
comment at the end of the source leaves of it is layout by itself. -/
def LayoutBehind (source : String) (w : List Char) : Prop :=
  ∀ piece ∈ (pieces source.toList).getLast?,
    match piece with
    | .unclosed _ => False
    | .lineComment _ => Layout [] (w.dropWhile Piece.inLineComment)
    | _ => True

def Token.content (t : Token) : Token.Kind × String × Option Number := (t.kind, t.lexeme, t.literal)

theorem Spacing.layout {w : List Char} (h : Spacing w) (rest : List Char) : Layout rest w := by
  induction h with
  | nil => exact .nil
  | blank hc _ ih => exact .blank hc ih
  | blockComment hbody _ ih => exact .blockComment hbody ih
  | lineComment hbody _ ih => exact .lineComment hbody (by simp) (.blank (by simp) ih)

/-- The pieces `ps` are those of the text `before`, and the text behind it is cut apart from them; the
last of them does not reach across a blank. -/
structure Seam (before after : List Char) (ps : List Piece) : Prop where
  text_eq : ps.flatMap Piece.text = before
  pieces_eq : pieces (before ++ after) = ps ++ pieces after
  closed : ∀ piece ∈ ps.getLast?, piece.isOpen = false

def SameButLayout (a b : List Char) : Prop :=
  ∃ ps us vs rest, pieces a = ps ++ (us ++ pieces rest) ∧ pieces b = ps ++ (vs ++ pieces rest) ∧
    (∀ piece ∈ us, piece.isLayout = true) ∧ ∀ piece ∈ vs, piece.isLayout = true

theorem Seam.sameButLayout {before after w : List Char} {ps : List Piece} (h : Seam before after ps)
    (hw : Spacing w) (hblank : ∃ c ∈ w.head?, Piece.isBlank c = true) :
    SameButLayout (before ++ (w ++ after)) (before ++ after) := by
  obtain ⟨ws, hws, -, hlayout⟩ := (hw.layout after).exists_pieces
  have hhead : ∃ c ∈ (w ++ after).head?, Piece.isBlank c = true := by
    obtain ⟨c, hc, hblank⟩ := hblank
    exact ⟨c, by simp [List.head?_append, Option.mem_def.mp hc], hblank⟩
  have hfit : Piece.FitAll ps (w ++ after) := by
    refine (fitAll_of_pieces_eq h.pieces_eq).replace ?_ ?_
    · intro piece hlast hfits
      exact Piece.fits_of_isBlank hfits (h.closed piece hlast) hhead
    · intro c hc
      obtain ⟨d, hd, hblank⟩ := hhead
      obtain rfl := Option.some.inj (hd.symm.trans hc)
      exact hblank
  have hpieces := pieces_flatMap_append hfit
  rw [h.text_eq, hws] at hpieces
  exact ⟨ps, ws, [], after, hpieces, h.pieces_eq, hlayout, by simp⟩

/-- A line comment takes in what stands behind it, up to the end of the line. -/
theorem pieces_append_of_lineComment {text body : List Char} {ps : List Piece}
    (h : pieces text = ps ++ [.lineComment body]) (w : List Char) :
    pieces (text ++ w) = ps ++ .lineComment (body ++ w.takeWhile Piece.inLineComment) ::
      pieces (w.dropWhile Piece.inLineComment) := by
  have hfit := fitAll_pieces text
  rw [h] at hfit
  have hbody := (hfit.fits_getLast (.lineComment body) (by simp)).1
  have hlong : (Piece.lineComment (body ++ w.takeWhile Piece.inLineComment)).Fits
      (w.dropWhile Piece.inLineComment) := by
    refine ⟨?_, ?_⟩
    · intro c hc
      rcases List.mem_append.mp hc with hc | hc
      · exact hbody c hc
      · exact List.all_eq_true.mp List.all_takeWhile c hc
    · intro c hc
      have hhead := List.head?_dropWhile_not Piece.inLineComment w
      rw [Option.mem_def.mp hc] at hhead
      simpa using hhead
  rw [pieces_append_of_last h (by simp [Piece.text]), ← pieces_append_of_fits hlong]
  simp [Piece.text]

theorem LayoutBehind.sameButLayout {source : String} {w : List Char} (h : LayoutBehind source w)
    (hw : Spacing w) (hblank : ∃ c ∈ w.head?, Piece.isBlank c = true) :
    SameButLayout (source.toList ++ w) source.toList := by
  have happart (hclosed : ∀ piece ∈ (pieces source.toList).getLast?, piece.isOpen = false) :
      SameButLayout (source.toList ++ w) source.toList := by
    have hseam : Seam source.toList [] (pieces source.toList) :=
      ⟨flatMap_text_pieces _, by simp [pieces_nil], hclosed⟩
    simpa using hseam.sameButLayout hw hblank
  cases hlast : (pieces source.toList).getLast? with
  | none => exact happart (by simp [hlast])
  | some piece =>
    have hpiece := h piece hlast
    obtain ⟨ps, hps⟩ := List.getLast?_eq_some_iff.mp hlast
    cases piece with
    | unclosed body => cases hpiece
    | lineComment body =>
      obtain ⟨ws, hws, -, hlayout⟩ := Layout.exists_pieces hpiece
      rw [List.append_nil, pieces_nil, List.append_nil] at hws
      have hpieces := pieces_append_of_lineComment hps w
      rw [hws] at hpieces
      refine ⟨ps, .lineComment (body ++ w.takeWhile Piece.inLineComment) :: ws,
        [.lineComment body], [], ?_, ?_, ?_, ?_⟩
      · rw [hpieces, pieces_nil, List.append_nil]
      · rw [hps, pieces_nil, List.append_nil]
      · simpa [Piece.isLayout] using hlayout
      · simp [Piece.isLayout]
    | _ => exact happart (by simp [hlast, Piece.isOpen])

theorem append_inj_of_byteLength {a b c d : List Char} (h : a ++ b = c ++ d)
    (hlength : byteLength a = byteLength c) : a = c ∧ b = d := by
  have htake := takeBytes?_append a b
  rw [h, hlength, takeBytes?_append] at htake
  obtain rfl : c = a := Option.some.inj htake
  exact ⟨rfl, List.append_cancel_left h⟩

theorem Seam.of_byteLength {before after rest : List Char} {ps : List Piece}
    (hpieces : pieces (before ++ after) = ps ++ pieces rest)
    (hlength : byteLength before = byteLength (ps.flatMap Piece.text))
    (hclosed : ∀ piece ∈ ps.getLast?, piece.isOpen = false) : Seam before after ps := by
  obtain ⟨hbefore, rfl⟩ := append_inj_of_byteLength (text_eq_of_pieces_eq hpieces) hlength
  exact ⟨hbefore.symm, hpieces, hclosed⟩

theorem Piece.not_isOpen_of_token {piece token : Piece} {rest : List Char}
    (h : piece.Fits (token.text ++ rest)) (htoken : token.Fits rest)
    (hlayout : token.isLayout = false) : piece.isOpen = false := by
  obtain ⟨c, cs, htext, hblank⟩ := exists_text_eq_cons htoken hlayout
  rw [htext] at h
  cases piece with
  | lineComment body =>
    have hstop : inLineComment c = false := h.2 c rfl
    simp_all [inLineComment, isBlank]
  | unclosed body => simp [Fits] at h
  | _ => rfl

theorem TokenStart.exists_seam {before after : String}
    (h : TokenStart (before ++ after) (byteLength before.toList)) :
    ∃ ps, Seam before.toList after.toList ps := by
  obtain ⟨placed, t, hstarts, hmem, hfinish⟩ := h
  obtain ⟨ps, piece, rest, hpieces, hfits, ht, hstart⟩ | ⟨rfl, -⟩ := hstarts.piece_or_finish hmem
  · rw [← pieces_append_of_fits hfits, String.toList_append] at hpieces
    refine ⟨ps, .of_byteLength hpieces hstart ?_⟩
    intro last hlast
    have hlastFits := (fitAll_of_pieces_eq hpieces).fits_getLast last hlast
    exact Piece.not_isOpen_of_token hlastFits hfits (Piece.isLayout_of_token? ht)
  · cases hfinish

theorem TokenStop.exists_seam {before after : String}
    (h : TokenStop (before ++ after) (byteLength before.toList)) :
    ∃ ps, Seam before.toList after.toList ps := by
  obtain ⟨placed, t, start, hstarts, hmem, hfinish, hstop, hopen⟩ := h
  obtain ⟨ps, piece, rest, hpieces, hfits, ht, rfl⟩ | ⟨rfl, -⟩ := hstarts.piece_or_finish hmem
  · have hlexeme := (Piece.longest_of_token? hfits ht).1
    have hsplit : pieces (before.toList ++ after.toList) = (ps ++ [piece]) ++ pieces rest := by
      rw [← String.toList_append, hpieces, List.append_assoc, List.singleton_append]
    refine ⟨ps ++ [piece], .of_byteLength hsplit ?_ ?_⟩
    · simp [hstop, hlexeme, byteLength_append]
    · intro last hlast
      obtain rfl : piece = last := by simpa using hlast
      cases piece with
      | unclosed body =>
        have hfault : (⟨.unclosedComment, t⟩ : Fault) ∈ (scan (before ++ after)).faults := by
          rw [scan, faults_scanText, hpieces]
          exact Piece.mem_faults_of_fault? (by simp [Piece.fault?, Piece.cause?, ht])
        exact absurd rfl (hopen _ hfault rfl)
      | lineComment body => cases ht
      | _ => rfl
  · cases hfinish

def Token.unplaced (t : Token) : Token := t.moveTo ⟨0, 0⟩

theorem relocates_unplaced : Relocates Token.unplaced :=
  ⟨fun _ => rfl, fun _ => rfl, fun _ => rfl, rfl⟩

namespace Piece

theorem token?_unplaced (piece : Piece) (p q : Position) :
    (piece.token? p).map Token.unplaced = (piece.token? q).map Token.unplaced := by
  rw [piece.token?_moveTo q p, Option.map_map]
  rfl

theorem fault?_unplaced (piece : Piece) (p q : Position) :
    (piece.fault? p).map (Fault.relocate Token.unplaced) =
      (piece.fault? q).map (Fault.relocate Token.unplaced) := by
  rw [fault?_relocate (piece.token?_moveTo q p), Option.map_map]
  rfl

theorem tokens_unplaced (p q : Position) (ps : List Piece) :
    (tokens p ps).map Token.unplaced = (tokens q ps).map Token.unplaced := by
  induction ps generalizing p q with
  | nil => rfl
  | cons piece ps ih =>
    rw [tokens_cons, tokens_cons, List.map_append, List.map_append, ← Option.toList_map,
      ← Option.toList_map, piece.token?_unplaced p q, ih _ (q.after piece.text)]

theorem faults_unplaced (p q : Position) (ps : List Piece) :
    (faults p ps).map (Fault.relocate Token.unplaced) =
      (faults q ps).map (Fault.relocate Token.unplaced) := by
  induction ps generalizing p q with
  | nil => rfl
  | cons piece ps ih =>
    rw [faults_cons, faults_cons, List.map_append, List.map_append, ← Option.toList_map,
      ← Option.toList_map, piece.fault?_unplaced p q, ih _ (q.after piece.text)]

theorem faults_of_isLayout {ps : List Piece} (h : ∀ piece ∈ ps, piece.isLayout = true)
    (p : Position) : faults p ps = [] := by
  refine List.eq_nil_iff_forall_not_mem.mpr ?_
  intro fault hfault
  have hmem := (mem_tokens_of_mem_faults hfault).1
  simp [tokens_of_isLayout h] at hmem

end Piece

theorem relocateOutcome_interpret_eq {f : Token → Token} (hf : Relocates f) {a b : String}
    (htokens : (scan a).tokens.map f = (scan b).tokens.map f)
    (hfaults : (scan a).faults.map (Fault.relocate f) = (scan b).faults.map (Fault.relocate f)) :
    relocateOutcome f (interpret a).result = relocateOutcome f (interpret b).result := by
  have heval :=
    hf.relocateOutcome_evaluate_eq htokens (withFinish_scanText _) (withFinish_scanText _)
  unfold interpret
  generalize scan a = x at *
  generalize scan b = y at *
  dsimp only
  cases hx : x.faults with
  | nil =>
    cases hy : y.faults with
    | nil => exact heval
    | cons fault' rest' => simp [hx, hy] at hfaults
  | cons fault rest =>
    cases hy : y.faults with
    | nil => simp [hx, hy] at hfaults
    | cons fault' rest' =>
      rw [hx, hy] at hfaults
      exact congrArg Except.error (List.cons.inj hfaults).1

theorem sameResult_interpret {f : Token → Token} (hf : Relocates f) {a b : String}
    (htokens : (scan a).tokens.map f = (scan b).tokens.map f)
    (hfaults : (scan a).faults.map (Fault.relocate f) = (scan b).faults.map (Fault.relocate f)) :
    SameResult (interpret a).result (interpret b).result :=
  hf.sameResult (relocateOutcome_interpret_eq hf htokens hfaults)

theorem SameButLayout.scanText_unplaced {a b : List Char} (h : SameButLayout a b) :
    (scanText a).tokens.map Token.unplaced = (scanText b).tokens.map Token.unplaced ∧
    (scanText a).faults.map (Fault.relocate Token.unplaced) =
      (scanText b).faults.map (Fault.relocate Token.unplaced) := by
  obtain ⟨ps, us, vs, rest, ha, hb, hus, hvs⟩ := h
  -- The places behind the two layouts differ, and there is nothing else in them.
  generalize hp : (Position.start.after (ps.flatMap Piece.text)).after (us.flatMap Piece.text) = p
  generalize hq : (Position.start.after (ps.flatMap Piece.text)).after (vs.flatMap Piece.text) = q
  constructor
  · rw [tokens_scanText, tokens_scanText, ha, hb, Piece.tokens_append, Piece.tokens_append,
      Piece.tokens_append, Piece.tokens_append, Piece.tokens_of_isLayout hus,
      Piece.tokens_of_isLayout hvs, List.nil_append, List.nil_append, hp, hq]
    simp only [List.map_append, Piece.tokens_unplaced p q]
    rfl
  · rw [faults_scanText, faults_scanText, ha, hb, Piece.faults_append, Piece.faults_append,
      Piece.faults_append, Piece.faults_append, Piece.faults_of_isLayout hus,
      Piece.faults_of_isLayout hvs, List.nil_append, List.nil_append, hp, hq]
    simp only [List.map_append, Piece.faults_unplaced p q]

theorem map_content_eq {ts us : List Token} (h : ts.map Token.unplaced = us.map Token.unplaced) :
    ts.map Token.content = us.map Token.content := by
  have hcontent : Token.content = Token.content ∘ Token.unplaced := rfl
  rw [hcontent, ← List.map_map, h, List.map_map]

/-- Layout is transparent from the text to the result: put where a token starts or ends, it changes
neither what the tokens are nor what the program comes to. It has to begin with a blank. At the end of
the source it may be put as well, unless a comment there would take in a part of it that matters. -/
theorem layout_between_tokens_transparent {before w after : String}
    (hedge : TokenStart (before ++ after) (byteLength before.toList) ∨
      TokenStop (before ++ after) (byteLength before.toList) ∨
      after = "" ∧ LayoutBehind before w.toList)
    (hw : Spacing w.toList) (hblank : ∃ c ∈ w.toList.head?, c ∈ [' ', '\t', '\r', '\n']) :
    (scan (before ++ w ++ after)).tokens.map Token.content =
      (scan (before ++ after)).tokens.map Token.content ∧
    SameResult (interpret (before ++ w ++ after)).result (interpret (before ++ after)).result := by
  have hblank' : ∃ c ∈ w.toList.head?, Piece.isBlank c = true := by
    simpa [Piece.isBlank, or_assoc] using hblank
  have hsame : SameButLayout (before.toList ++ (w.toList ++ after.toList))
      (before.toList ++ after.toList) := by
    rcases hedge with hstart | hstop | ⟨rfl, hbehind⟩
    · obtain ⟨ps, hseam⟩ := hstart.exists_seam
      exact hseam.sameButLayout hw hblank'
    · obtain ⟨ps, hseam⟩ := hstop.exists_seam
      exact hseam.sameButLayout hw hblank'
    · simpa using hbehind.sameButLayout hw hblank'
  obtain ⟨htokens, hfaults⟩ := hsame.scanText_unplaced
  have hspaced : scan (before ++ w ++ after) =
      scanText (before.toList ++ (w.toList ++ after.toList)) := by simp [scan]
  have hplain : scan (before ++ after) = scanText (before.toList ++ after.toList) := by
    simp [scan]
  rw [← hspaced, ← hplain] at htokens hfaults
  exact ⟨map_content_eq htokens, sameResult_interpret relocates_unplaced htokens hfaults⟩

theorem layout_behind_sign_and_comment_transparent :
    TokenStop ("-" ++ "8") (byteLength "-".toList) ∧ Spacing " //*/\n/**/".toList ∧
    (scan ("-" ++ " //*/\n/**/" ++ "8")).tokens.map Token.content =
      (scan ("-" ++ "8")).tokens.map Token.content ∧
    SameResult (interpret ("-" ++ " //*/\n/**/" ++ "8")).result (interpret ("-" ++ "8")).result ∧
    LayoutBehind "1//" "\n".toList ∧ Spacing "\n".toList ∧
    (scan ("1//" ++ "\n" ++ "")).tokens.map Token.content =
      (scan ("1//" ++ "")).tokens.map Token.content ∧
    SameResult (interpret ("1//" ++ "\n" ++ "")).result (interpret ("1//" ++ "")).result := by
  have hw : Spacing " //*/\n/**/".toList := by
    have hline : ∀ c ∈ ['*', '/'], c ≠ '\n' ∧ c ≠ '\r' := by simp
    have hblock : ¬ ['*', '/'] <:+: [] := by simp
    have hspacing : Spacing (' ' :: '/' :: '/' :: (['*', '/'] ++ '\n' :: ['/', '*', '*', '/'])) :=
      .blank (by simp) (.lineComment hline (.blockComment hblock .nil))
    exact hspacing
  have hstop : TokenStop ("-" ++ "8") (byteLength "-".toList) := by
    have hminus : Token.Longest ⟨.minus, "-", none, ⟨1, 1⟩⟩ ['8'] := rfl
    have hnumber : Token.Longest ⟨.number, "8", Decimal.read? ['8'] [], ⟨1, 2⟩⟩ [] := by
      refine ⟨.whole (by simp) (by simp), ?_⟩
      intro longer hlonger _
      exact hlonger.length_le
    have hplaced : TokenStarts ("-" ++ "8") [(⟨.minus, "-", none, ⟨1, 1⟩⟩, 0),
        (⟨.number, "8", Decimal.read? ['8'] [], ⟨1, 2⟩⟩, 1), (Token.finish ⟨1, 3⟩, 2)] :=
      ⟨by decide +kernel, [_, _], _, rfl, .token .nil hminus (.token .nil hnumber (.done .nil))⟩
    exact ⟨_, _, _, hplaced, List.mem_cons_self, rfl, rfl, by decide +kernel⟩
  have hblank : ∃ c ∈ " //*/\n/**/".toList.head?, c ∈ [' ', '\t', '\r', '\n'] :=
    ⟨' ', rfl, by simp⟩
  have hbehind : LayoutBehind "1//" "\n".toList := by
    have hlast : (pieces "1//".toList).getLast? = some (.lineComment []) := by decide +kernel
    intro piece hpiece
    obtain rfl := Option.some.inj (hlast.symm.trans hpiece)
    exact Layout.blank (c := '\n') (by simp) .nil
  have hbreak : Spacing "\n".toList := .blank (c := '\n') (by simp) .nil
  obtain ⟨htokens, hresult⟩ := layout_between_tokens_transparent (.inr (.inl hstop)) hw hblank
  exact ⟨hstop, hw, htokens, hresult, hbehind, hbreak,
    layout_between_tokens_transparent (.inr (.inr ⟨rfl, hbehind⟩)) hbreak ⟨'\n', rfl, by simp⟩⟩

end PolishCalc
