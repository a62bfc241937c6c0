import PolishCalc.Proofs.Blame
import PolishCalc.Proofs.Lines

/-! Reports on failed runs. Whatever stage a fault comes from, it blames a token of the source, and the
message never breaks a line; so the report is three lines, the second of which is the line of the
token, and the third of which points at it. -/
namespace PolishCalc

theorem lineFeed_not_mem_toDigits (n : Nat) : '\n' ∉ Nat.toDigits 10 n := by
  intro hmem
  have hdigit := Nat.isDigit_of_mem_toDigits (by decide) (by decide) hmem
  cases hdigit

theorem Token.lineFeed_not_mem_describe {t : Token} (h : '\n' ∉ t.lexeme.toList) :
    '\n' ∉ t.describe.toList := by
  unfold describe
  by_cases hempty : t.lexeme = ""
  · rw [if_pos hempty]
    cases t.kind <;> decide
  · rw [if_neg hempty]
    simp [h]

/-- Only the text of a token can break a message, and that of an unclosed comment is not in it. -/
theorem Fault.lineFeed_not_mem_message {fault : Fault}
    (h : fault.cause = .unclosedComment ∨ '\n' ∉ fault.token.lexeme.toList) :
    '\n' ∉ fault.message.toList := by
  rcases h with hcause | hlexeme
  · simp [message, hcause]
  · have hdescribe := Token.lineFeed_not_mem_describe hlexeme
    have hdepth := lineFeed_not_mem_toDigits maxDepth
    unfold message
    cases fault.cause <;> simp [hlexeme, hdescribe, hdepth]

theorem Fault.lineFeed_not_mem_header {fault : Fault} {view : View}
    (h : '\n' ∉ fault.message.toList) (hview : ∀ path, view = .file path → '\n' ∉ path.toList) :
    '\n' ∉ (fault.header view).toList := by
  have hline := lineFeed_not_mem_toDigits fault.token.position.line
  have hcolumn := lineFeed_not_mem_toDigits fault.token.position.column
  have hstage : '\n' ∉ fault.stage.label.toList := by cases fault.stage <;> decide
  cases view with
  | prompt => simp [header, h, hcolumn, hstage]
  | file path => simp [header, h, hline, hcolumn, hstage, hview path rfl]

/-- No token but an unclosed comment has a line break in it. -/
theorem Piece.lineFeed_not_mem_text {piece : Piece} {rest : List Char} (h : piece.Fits rest)
    (htoken : piece.isLayout = false) (hopen : ∀ body, piece ≠ unclosed body) :
    '\n' ∉ piece.text := by
  cases piece with
  | symbol kind c =>
    intro hmem
    obtain rfl : '\n' = c := by simpa [text] using hmem
    cases h.1
  | number whole fraction =>
    intro hmem
    rcases List.mem_append.mp hmem with hmem | hmem
    · cases h.2.1 '\n' hmem
    · cases fraction with
      | nil => cases hmem
      | cons d fraction =>
        have hfraction : '\n' ∈ d :: fraction := by simpa using hmem
        cases h.2.2.1 '\n' hfraction
  | stray c =>
    intro hmem
    obtain rfl : '\n' = c := by simpa [text] using hmem
    cases h.2.1
  | unclosed body => exact absurd rfl (hopen body)
  | _ => cases htoken

theorem Piece.lineFeed_of_fault? {piece : Piece} {rest : List Char} {p : Position} {fault : Fault}
    (h : piece.Fits rest) (hfault : piece.fault? p = some fault) :
    fault.cause = .unclosedComment ∨ '\n' ∉ fault.token.lexeme.toList := by
  have ht := (fault?_stray hfault).1
  have hline (hopen : ∀ body, piece ≠ unclosed body) : '\n' ∉ fault.token.lexeme.toList := by
    rw [(longest_of_token? h ht).1]
    exact lineFeed_not_mem_text h (isLayout_of_token? ht) hopen
  obtain ⟨_, _, rfl, -⟩ | ⟨_, rfl, -⟩ | ⟨_, -, hcause⟩ := fault?_cases hfault
  · exact .inr (hline (by simp))
  · exact .inr (hline (by simp))
  · exact .inl hcause

theorem Fault.caret_eq (n : Nat) (quoted : List Char) :
    ∃ indent, caret n quoted = indent ++ ['^'] ∧ indent.length = n ∧
      ∀ i < n, indent[i]? = some (if quoted[i]? = some '\t' then '\t' else ' ') := by
  induction n generalizing quoted with
  | zero => exact ⟨[], rfl, rfl, by simp⟩
  | succ n ih =>
    obtain ⟨indent, hcaret, hlength, hindent⟩ := ih quoted.tail
    refine ⟨(if quoted[0]? = some '\t' then '\t' else ' ') :: indent, ?_, by simp [hlength], ?_⟩
    · cases quoted <;> simp_all [caret]
    · intro i hi
      cases i with
      | zero => rfl
      | succ i => simpa using hindent i (Nat.lt_of_succ_lt_succ hi)

theorem Fault.lineFeed_not_mem_caret (n : Nat) (quoted : List Char) : '\n' ∉ caret n quoted := by
  obtain ⟨indent, hcaret, hlength, hindent⟩ := caret_eq n quoted
  rw [hcaret]
  intro hmem
  rcases List.mem_append.mp hmem with hmem | hmem
  · obtain ⟨i, hi, hget⟩ := List.mem_iff_getElem.mp hmem
    have hsome := hindent i (hlength ▸ hi)
    rw [List.getElem?_eq_getElem hi, hget] at hsome
    split at hsome <;> simp at hsome
  · simp at hmem

theorem lines_interpret (source : String) :
    (interpret source).lines = .ofText source.toList := by
  unfold interpret
  dsimp only
  cases (scan source).faults <;> rfl

structure PointsAt (source : String) (t : Token) (quoted caret : List Char) : Prop where
  line : ∃ n line, t.position.line = n + 1 ∧ (source.toList.splitOn '\n')[n]? = some line ∧
    (line = quoted ++ ['\r'] ∨ line = quoted ∧ line.getLast? ≠ some '\r')
  indent : ∃ indent, caret = indent ++ ['^'] ∧ t.position.column = indent.length + 1 ∧
    ∀ i < indent.length, indent[i]? = some (if quoted[i]? = some '\t' then '\t' else ' ')
  token : t.isFinish = false →
    ∃ c, quoted[t.position.column - 1]? = some c ∧ t.lexeme.toList.head? = some c
  finish : t.isFinish = true →
    t.position.line = (source.toList.splitOn '\n').length ∧ quoted.length ≤ t.position.column - 1

theorem pointsAt_behind {source : String} {before after : List Char} {t : Token}
    (hsource : source.toList = before ++ after) (hposition : t.position = .behind before)
    (htoken : t.isFinish = false → ∃ c cs, after = c :: cs ∧ Piece.isBlank c = false ∧
      t.lexeme.toList.head? = some c)
    (hfinish : t.isFinish = true → after = []) :
    ∃ quoted, (LineIndex.ofText source.toList).line? source.toList t.position.line = some quoted ∧
      PointsAt source t quoted (Fault.caret (t.position.column - 1) quoted) := by
  have hline := LineIndex.line?_behind before after
  rw [← hsource, ← hposition] at hline
  have hcolumn : t.position.column = (lastLine before).length + 1 := by
    rw [hposition, lastLine, List.length_reverse]
    exact Nat.add_comm 1 _
  have hnumber : t.position.line = before.count '\n' + 1 := by
    rw [hposition]
    exact Nat.add_comm 1 _
  refine ⟨_, hline, ?_, ?_, ?_, ?_⟩
  · refine ⟨_, _, hnumber, ?_, LineIndex.dropReturn_eq _⟩
    rw [hsource, getElem?_splitOn]
  · obtain ⟨indent, hcaret, hlength, hindent⟩ := Fault.caret_eq (t.position.column - 1)
      (LineIndex.dropReturn (lastLine before ++ after.takeWhile (· ≠ '\n')))
    exact ⟨indent, hcaret, by omega, fun i hi => hindent i (hlength ▸ hi)⟩
  · intro ht
    obtain ⟨c, cs, rfl, hblank, hhead⟩ := htoken ht
    have hc : c ≠ '\n' ∧ c ≠ '\r' := by
      constructor <;> rintro rfl <;> cases hblank
    have htake : (c :: cs).takeWhile (· ≠ '\n') = c :: cs.takeWhile (· ≠ '\n') := by simp [hc.1]
    refine ⟨c, ?_, hhead⟩
    rw [hcolumn, Nat.add_sub_cancel, htake, LineIndex.getElem?_dropReturn hc.2]
  · intro ht
    obtain rfl := hfinish ht
    constructor
    · rw [hnumber, hsource, List.append_nil, length_splitOn]
    · rw [hcolumn, Nat.add_sub_cancel]
      simpa using LineIndex.length_dropReturn_le (lastLine before)

/-- Every token of a source can be pointed at. -/
theorem pointsAt_of_mem {source : String} {t : Token} (h : t ∈ (scan source).tokens) :
    ∃ quoted, (LineIndex.ofText source.toList).line? source.toList t.position.line = some quoted ∧
      PointsAt source t quoted (Fault.caret (t.position.column - 1) quoted) := by
  obtain ⟨ps, piece, rest, hpieces, hfits, ht⟩ | rfl := piece_or_finish_of_mem h
  · have hlexeme := (Piece.longest_of_token? hfits ht).1
    obtain ⟨c, cs, htext, hblank⟩ :=
      Piece.exists_text_eq_cons hfits (Piece.isLayout_of_token? ht)
    rw [← pieces_append_of_fits hfits, htext] at hpieces
    have hposition : t.position = .behind (ps.flatMap Piece.text) := by
      rw [Piece.position_of_token? ht, Position.start_after]
    refine pointsAt_behind (text_eq_of_pieces_eq hpieces) hposition ?_ ?_
    · exact fun _ => ⟨c, cs ++ rest, rfl, hblank, by rw [hlexeme, htext]; rfl⟩
    · intro hfinish
      simp [(Piece.longest_of_token? hfits ht).2.not_isFinish] at hfinish
  · have hposition := Position.start_after source.toList
    refine pointsAt_behind (List.append_nil _).symm hposition ?_ fun _ => rfl
    intro hfinish
    cases hfinish

/-- The words of a failed run have no line break in them, and it blames a token of the source. -/
theorem interpret_blame {source : String} {fault : Fault}
    (h : (interpret source).result = .error fault) :
    fault.token ∈ (scan source).tokens ∧ '\n' ∉ fault.message.toList := by
  obtain hfault | ⟨hfaults, hmem, -⟩ := interpret_error h
  · obtain ⟨⟨piece, p⟩, hplace, hpiece⟩ := List.mem_filterMap.mp hfault
    obtain ⟨rest, hfits⟩ := exists_fits_of_mem_pieces (Piece.mem_of_mem_place hplace)
    exact ⟨List.mem_append_left _ (Piece.mem_tokens_of_mem_faults hfault).1,
      Fault.lineFeed_not_mem_message (Piece.lineFeed_of_fault? hfits hpiece)⟩
  · refine ⟨hmem, Fault.lineFeed_not_mem_message (.inr ?_)⟩
    obtain ⟨ps, piece, rest, hpieces, hfits, ht⟩ | heq := piece_or_finish_of_mem hmem
    · rw [(Piece.longest_of_token? hfits ht).1]
      refine Piece.lineFeed_not_mem_text hfits (Piece.isLayout_of_token? ht) ?_
      rintro body rfl
      have hnil : Piece.faults .start (pieces source.toList) = [] := hfaults
      rw [hpieces, Piece.faults_append, Piece.faults_cons] at hnil
      simp [Piece.fault?, Piece.cause?, ht] at hnil
    · simp [heq, Token.finish]

/-- The report on a failed run is a header, the line of the token that is blamed, and a caret below
the token. -/
theorem report_points_at_fault {source : String} {fault : Fault} {view : View}
    (h : (interpret source).result = .error fault)
    (hview : ∀ path, view = .file path → '\n' ∉ path.toList) :
    ∃ report quoted caret, (interpret source).report? source view = some report ∧
      report.toList.splitOn '\n' = [(fault.header view).toList, quoted, caret] ∧
      PointsAt source fault.token quoted caret := by
  obtain ⟨hmem, hmessage⟩ := interpret_blame h
  obtain ⟨quoted, hline, hpoints⟩ := pointsAt_of_mem hmem
  have hreport : (interpret source).report? source view = some (fault.header view ++ "\n" ++
      String.ofList quoted ++ "\n" ++
        String.ofList (Fault.caret (fault.token.position.column - 1) quoted)) := by
    rw [Run.report?, h]
    dsimp only
    rw [Fault.report, lines_interpret, hline]
  refine ⟨_, _, _, hreport, ?_, hpoints⟩
  have htext : (fault.header view ++ "\n" ++ String.ofList quoted ++ "\n" ++
      String.ofList (Fault.caret (fault.token.position.column - 1) quoted)).toList =
      (fault.header view).toList ++ '\n' ::
        (quoted ++ '\n' :: Fault.caret (fault.token.position.column - 1) quoted) := by simp
  rw [htext,
    List.splitOn_append_cons_self_of_not_mem (Fault.lineFeed_not_mem_header hmessage hview),
    List.splitOn_append_cons_self_of_not_mem (LineIndex.lineFeed_not_mem_line? hline),
    List.splitOn_eq_singleton (Fault.lineFeed_not_mem_caret _ _)]

theorem report_points_at_second_line :
    let source := "(+ 1\r\n\t(/ 2 0))\r\n"
    ∃ fault quoted caret, (interpret source).result = .error fault ∧
      (interpret source).report? source (.file "sum") =
        some "sum:2:3: RuntimeError: cannot divide by 0\n\t(/ 2 0))\n\t ^" ∧
      "sum:2:3: RuntimeError: cannot divide by 0\n\t(/ 2 0))\n\t ^".toList.splitOn '\n' =
        [(fault.header (.file "sum")).toList, quoted, caret] ∧
      PointsAt source fault.token quoted caret := by
  intro source
  have hreport : (interpret source).report? source (.file "sum") =
      some "sum:2:3: RuntimeError: cannot divide by 0\n\t(/ 2 0))\n\t ^" := by decide +kernel
  cases hresult : (interpret source).result with
  | ok outcome =>
    rw [Run.report?, hresult] at hreport
    cases hreport
  | error fault =>
    have hview : ∀ path, View.file "sum" = .file path → '\n' ∉ path.toList := by
      rintro path ⟨⟩
      decide
    obtain ⟨report, quoted, caret, heq, hlines, hpoints⟩ := report_points_at_fault hresult hview
    obtain rfl := Option.some.inj (hreport.symm.trans heq)
    exact ⟨fault, quoted, caret, rfl, hreport, hlines, hpoints⟩

end PolishCalc
