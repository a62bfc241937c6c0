import PolishCalc.Proofs.Sessions
import PolishCalc.Proofs.Transparency

/-! Scripts and the prompt. The prompt takes the line breaks off a line and a script keeps them, but at
the end of a source they only move the end of the input: a line comes to the same in a script and at the
prompt. -/
namespace PolishCalc

theorem not_close_append {body more : List Char} (h : ¬ ['*', '/'] <:+: body) (hmore : '/' ∉ more) :
    ¬ ['*', '/'] <:+: body ++ more := by
  induction body with
  | nil =>
    intro hclose
    exact hmore (hclose.subset (by simp))
  | cons c body ih =>
    rw [List.infix_cons_iff, not_or] at h
    rw [List.cons_append, List.infix_cons_iff, not_or]
    refine ⟨?_, ih h.2⟩
    rintro ⟨tail, htail⟩
    obtain ⟨hc, hrest⟩ := List.cons.inj htail
    cases body with
    | nil => exact hmore (by rw [List.nil_append] at hrest; rw [← hrest]; simp)
    | cons d body =>
      obtain ⟨hd, -⟩ := List.cons.inj hrest
      exact h.1 ⟨body, by rw [← hc, ← hd]; rfl⟩

theorem pieces_unclosed {body : List Char} (h : ¬ ['*', '/'] <:+: body) :
    pieces (Piece.unclosed body).text = [.unclosed body] := by
  have hfits : (Piece.unclosed body).Fits [] := ⟨rfl, h⟩
  have hpieces := pieces_append_of_fits hfits
  rwa [List.append_nil, pieces_nil] at hpieces

/-- What is added behind an open comment becomes part of it. -/
theorem pieces_append_unclosed {text body more : List Char} {ps : List Piece}
    (h : pieces text = ps ++ [.unclosed body]) (hmore : '/' ∉ more) :
    pieces (text ++ more) = ps ++ [.unclosed (body ++ more)] := by
  have hfit := fitAll_pieces text
  rw [h] at hfit
  have hopen : ¬ ['*', '/'] <:+: body := (hfit.fits_getLast (.unclosed body) (by simp)).2
  rw [pieces_append_of_last h (by simp [Piece.text])]
  exact congrArg (ps ++ ·) (pieces_unclosed (not_close_append hopen hmore))

/-- Line breaks behind a text are layout, or part of the comment that the text leaves open. -/
theorem pieces_append_breaks (text : List Char) {breaks : List Char}
    (h : ∀ c ∈ breaks, Piece.inLineComment c = false) :
    (∃ layout, pieces (text ++ breaks) = pieces text ++ layout ∧
      ∀ piece ∈ layout, piece.isLayout = true) ∨
    ∃ ps body, pieces text = ps ++ [.unclosed body] ∧
      pieces (text ++ breaks) = ps ++ [.unclosed (body ++ breaks)] := by
  by_cases hopen : ∃ body, .unclosed body ∈ (pieces text).getLast?
  · obtain ⟨body, hlast⟩ := hopen
    obtain ⟨ps, hps⟩ := List.getLast?_eq_some_iff.mp hlast
    -- The comment may end in a star: it stays open because no slash comes behind.
    have hslash : '/' ∉ breaks := by
      intro hmem
      cases h '/' hmem
    exact .inr ⟨ps, body, hps, pieces_append_unclosed hps hslash⟩
  · refine .inl ⟨pieces breaks, ?_, ?_⟩
    · cases breaks with
      | nil => simp [pieces_nil]
      | cons c breaks => exact pieces_append_lineBreak (not_exists.mp hopen) (h c (by simp)) breaks
    · have hlayout : Layout [] breaks :=
        layout_of_isBlank (fun c hc => Piece.isBlank_of_lineBreak (h c hc)) []
      obtain ⟨ps, hps, -, hall⟩ := hlayout.exists_pieces
      rw [List.append_nil, pieces_nil, List.append_nil] at hps
      rwa [hps]

structure Fault.Alike (a b : Fault) : Prop where
  stage : a.stage = b.stage
  message : a.message = b.message
  isFinish : a.token.isFinish = b.token.isFinish
  position : a.token.isFinish = false → a.token.position = b.token.position

theorem Fault.Alike.refl (a : Fault) : a.Alike a := ⟨rfl, rfl, rfl, fun _ => rfl⟩

inductive AlikeResults : Except Fault Outcome → Except Fault Outcome → Prop
  | ok {a b : Outcome} (value : a.value = b.value) (tree : toString a.tree = toString b.tree) :
    AlikeResults (.ok a) (.ok b)
  | error {a b : Fault} (faults : a.Alike b) : AlikeResults (.error a) (.error b)

def Token.settle (t : Token) : Token := if t.isFinish then t.moveTo ⟨0, 0⟩ else t

theorem relocates_settle : Relocates Token.settle where
  kind t := by unfold Token.settle; split <;> rfl
  lexeme t := by unfold Token.settle; split <;> rfl
  literal t := by unfold Token.settle; split <;> rfl
  exhausted := rfl

theorem Fault.Alike.of_settle {a b : Fault} (h : SameResult (.error a) (.error b))
    (hsettle : a.token.settle = b.token.settle) : a.Alike b := by
  have hfinish : a.token.isFinish = b.token.isFinish := by
    rw [Token.isFinish, ← relocates_settle.kind, hsettle, relocates_settle.kind, Token.isFinish]
  refine ⟨h.1, h.2.2, hfinish, ?_⟩
  intro ha
  have hb : b.token.isFinish = false := hfinish ▸ ha
  rw [Token.settle, Token.settle, ha, hb] at hsettle
  exact congrArg Token.position hsettle

theorem alikeResults_of_settle {x y : Except Fault Outcome}
    (h : relocateOutcome Token.settle x = relocateOutcome Token.settle y) : AlikeResults x y := by
  have hsame := relocates_settle.sameResult h
  cases x with
  | ok a =>
    cases y with
    | ok b => exact .ok hsame.1 hsame.2
    | error b => cases hsame
  | error a =>
    cases y with
    | ok b => cases hsame
    | error b => exact .error (.of_settle hsame (congrArg Fault.token (Except.error.inj h)))

/-- The two scans find the same faults in `ps`. If there are none, the open comment is the first fault of
both, and its message does not quote it. -/
theorem Piece.faults_unclosed_alike (p : Position) (ps : List Piece) (body more : List Char) :
    ∃ a b as bs, faults p (ps ++ [.unclosed body]) = a :: as ∧
      faults p (ps ++ [.unclosed more]) = b :: bs ∧ a.Alike b := by
  rw [faults_append, faults_append]
  cases faults p ps with
  | nil => exact ⟨_, _, _, _, rfl, rfl, ⟨rfl, rfl, rfl, fun _ => rfl⟩⟩
  | cons fault rest => exact ⟨fault, fault, _, _, rfl, rfl, .refl fault⟩

/-- Line breaks at the end of a source change nothing but the place of the end of the input. -/
theorem interpret_append_breaks {source whole : String} {breaks : List Char}
    (hwhole : whole.toList = source.toList ++ breaks)
    (h : ∀ c ∈ breaks, Piece.inLineComment c = false) :
    AlikeResults (interpret whole).result (interpret source).result := by
  obtain ⟨layout, hpieces, hlayout⟩ | ⟨ps, body, hsource, hpieces⟩ :=
    pieces_append_breaks source.toList h
  · refine alikeResults_of_settle (relocateOutcome_interpret_eq relocates_settle ?_ ?_)
    · rw [scan, scan, hwhole, tokens_scanText, tokens_scanText, hpieces, Piece.tokens_append,
        Piece.tokens_of_isLayout hlayout, List.append_nil, List.map_append, List.map_append]
      rfl
    · rw [scan, scan, hwhole, faults_scanText, faults_scanText, hpieces, Piece.faults_append,
        Piece.faults_of_isLayout hlayout, List.append_nil]
  · -- The open comments differ in their text, so that no relocation takes one to the other.
    obtain ⟨a, b, as, bs, ha, hb, halike⟩ :=
      Piece.faults_unclosed_alike .start ps (body ++ breaks) body
    rw [← hpieces, ← hwhole] at ha
    rw [← hsource] at hb
    rw [interpret_of_faults ha, interpret_of_faults hb]
    exact .error halike

theorem Fault.exitCode_ne_zero (fault : Fault) : fault.exitCode ≠ 0 := by
  rw [Fault.exitCode]
  cases fault.stage <;> decide

namespace Console

theorem encode_append (a b : String) : encode (a ++ b) = encode a ++ encode b := by
  rw [encode_eq_flatMap, encode_eq_flatMap, encode_eq_flatMap, String.toList_append,
    List.flatMap_append]

theorem lines_encode_line {line : String} (h : '\n' ∉ line.toList) :
    lines (encode (line ++ "\n")) = [encode (line ++ "\n")] := by
  have hbytes := lineFeed_not_mem_encode h
  rw [encode_append]
  generalize encode line = bytes at hbytes
  change lines (bytes ++ [10]) = [bytes ++ [10]]
  by_cases hnil : bytes = []
  · rw [hnil]; rfl
  · rw [lines_append_of_not_mem hnil hbytes]; rfl

theorem exists_trimBreaks_append (text : List Char) :
    ∃ breaks, text = trimBreaks text ++ breaks ∧ ∀ c ∈ breaks, c = '\r' ∨ c = '\n' := by
  refine ⟨(text.reverse.takeWhile fun c => c = '\n' || c = '\r').reverse, ?_, ?_⟩
  · rw [trimBreaks, ← List.reverse_append, List.takeWhile_append_dropWhile, List.reverse_reverse]
  · intro c hc
    have hbreak := List.all_eq_true.mp List.all_takeWhile c (List.mem_reverse.mp hc)
    simpa [or_comm] using hbreak

theorem trimBreaks_append_lineFeed (text : List Char) :
    trimBreaks (text ++ ['\n']) = trimBreaks text := by
  simp [trimBreaks]

theorem not_all_isWhiteSpace_trimBreaks {text : List Char}
    (h : ∃ c ∈ text, Source.isWhiteSpace c = false) :
    ¬ (trimBreaks text).all Source.isWhiteSpace = true := by
  obtain ⟨c, hc, hvisible⟩ := h
  obtain ⟨breaks, htext, hbreaks⟩ := exists_trimBreaks_append text
  intro hall
  rw [htext, List.mem_append] at hc
  have hwhite : Source.isWhiteSpace c = true := by
    obtain hmem | hmem := hc
    · exact List.all_eq_true.mp hall c hmem
    · obtain rfl | rfl := hbreaks c hmem <;> rfl
  rw [hvisible] at hwhite
  cases hwhite

section Answers

variable (showTree : Bool) {source : String} (view : View)

theorem answer_of_ok {outcome : Outcome} (h : (interpret source).result = .ok outcome) :
    answer showTree source view =
      ⟨(if showTree then toString outcome.tree ++ "\n" else "") ++ toString outcome.value ++ "\n",
        "", 0⟩ := by
  simp [answer, Run.exitCode, h]

theorem answer_of_error {fault : Fault} (h : (interpret source).result = .error fault) :
    answer showTree source view =
      ⟨"", fault.report source (interpret source).lines view ++ "\n", fault.exitCode⟩ := by
  simp [answer, Run.exitCode, h]

end Answers

theorem script_encode (showTree : Bool) (path source : String) :
    script showTree path (.ok (encode source)) = answer showTree source (.file path) := by
  have hdecode : decode? (encode source) = some source := decode?_eq_some_iff.mpr rfl
  have htext : scriptText (.ok (encode source)) = .ok source := by
    simp [scriptText, hdecode, bind, Except.bind, pure, Except.pure]
  rw [script, htext]

section Line

variable {line source : String} (hsource : source.toList = trimBreaks line.toList)

include hsource

theorem prompt_encode_line (showTree : Bool) (hline : '\n' ∉ line.toList)
    (hvisible : ∃ c ∈ line.toList, Source.isWhiteSpace c = false) :
    prompt showTree (encode (line ++ "\n")) =
      (answer showTree source .prompt).marked.before (session showTree []) := by
  have hdecode : decode? (encode (line ++ "\n")) = some (line ++ "\n") :=
    decode?_eq_some_iff.mpr rfl
  have htrim : source.toList = trimBreaks (line ++ "\n").toList := by
    rw [hsource, String.toList_append]
    exact (trimBreaks_append_lineFeed line.toList).symm
  rw [prompt, lines_encode_line hline, session_cons showTree hdecode, reply_eq showTree htrim,
    hsource, if_neg (not_all_isWhiteSpace_trimBreaks hvisible)]

theorem interpret_line_append {breaks : String} (h : ∀ c ∈ breaks.toList, c = '\r' ∨ c = '\n') :
    AlikeResults (interpret (line ++ breaks)).result (interpret source).result := by
  obtain ⟨returns, hreturns, hreturn⟩ := exists_trimBreaks_append line.toList
  have hwhole : (line ++ breaks).toList = source.toList ++ (returns ++ breaks.toList) := by
    rw [hsource, ← List.append_assoc, ← hreturns, String.toList_append]
  refine interpret_append_breaks hwhole ?_
  intro c hc
  obtain rfl | rfl := (List.mem_append.mp hc).elim (hreturn c) (h c) <;> rfl

end Line

/-- A script that is one line, with any line breaks behind it, and the prompt on that line. Either both
write the value, or both write a report, and the reports say the same of the same column; only the end of
the input may stand at another place. -/
theorem script_agrees_with_prompt (showTree : Bool) (path : String) {line breaks : String}
    (hline : '\n' ∉ line.toList)
    (hvisible : ∃ c ∈ line.toList, Source.isWhiteSpace c = false)
    (hbreaks : ∀ c ∈ breaks.toList, c = '\r' ∨ c = '\n') :
    let whole := line ++ breaks
    let file := script showTree path (.ok (encode whole))
    let session := prompt showTree (encode (line ++ "\n"))
    (file.exitCode = 0 ↔ session.stderr = "") ∧
    (file.exitCode = 0 → session.stdout = "> " ++ file.stdout ++ "> \n") ∧
    (file.exitCode ≠ 0 → ∃ (source : String) (a b : Fault),
      source.toList = trimBreaks line.toList ∧
      (interpret whole).result = .error a ∧ (interpret source).result = .error b ∧
      file.stderr = a.report whole (interpret whole).lines (.file path) ++ "\n" ∧
      session.stderr = b.report source (interpret source).lines .prompt ++ "\n" ∧
      a.stage = b.stage ∧ a.message = b.message ∧ a.token.isFinish = b.token.isFinish ∧
      (a.token.isFinish = false → a.token.position.column = b.token.position.column)) := by
  intro whole file session
  let source := String.ofList (trimBreaks line.toList)
  have hsource : source.toList = trimBreaks line.toList := String.toList_ofList
  have hfile : file = answer showTree whole (.file path) := script_encode showTree path whole
  have hsession :
      session = (answer showTree source .prompt).marked.before (Console.session showTree []) :=
    prompt_encode_line hsource showTree hline hvisible
  have halike : AlikeResults (interpret whole).result (interpret source).result :=
    interpret_line_append hsource hbreaks
  rw [hfile, hsession]
  generalize ha : (interpret whole).result = x at halike
  generalize hb : (interpret source).result = y at halike
  cases halike with
  | ok value tree =>
    rw [answer_of_ok showTree _ ha, answer_of_ok showTree _ hb, value, tree]
    exact ⟨⟨fun _ => rfl, fun _ => rfl⟩, fun _ => rfl, fun h => absurd rfl h⟩
  | @error a b faults =>
    have hcode := a.exitCode_ne_zero
    rw [answer_of_error showTree _ ha, answer_of_error showTree _ hb]
    refine ⟨⟨fun h => absurd h hcode, fun h => ?_⟩, fun h => absurd h hcode, fun _ => ?_⟩
    · simp [Output.before, Output.marked, Console.session, turn] at h
    · refine ⟨source, a, b, hsource, rfl, hb, rfl, ?_, faults.stage, faults.message,
        faults.isFinish, fun hfinish => congrArg Position.column (faults.position hfinish)⟩
      simp [Output.before, Output.marked, Console.session, turn]

theorem script_agrees_with_prompt_on_comments :
    let closed := "(+ 1 2) //*\r"
    let opened := "(+ 1 /* 2) *\r"
    let breaks := "\n\r\n"
    ('\n' ∉ closed.toList ∧ '\n' ∉ opened.toList ∧
      (∃ c ∈ closed.toList, Source.isWhiteSpace c = false) ∧
      (∃ c ∈ opened.toList, Source.isWhiteSpace c = false) ∧
      ∀ c ∈ breaks.toList, c = '\r' ∨ c = '\n') ∧
    ((script true "sum" (.ok (encode (closed ++ breaks)))).exitCode = 0 ∧
      (prompt true (encode (closed ++ "\n"))).stderr = "" ∧
      (prompt true (encode (closed ++ "\n"))).stdout =
        "> " ++ (script true "sum" (.ok (encode (closed ++ breaks)))).stdout ++ "> \n") ∧
    (script true "sum" (.ok (encode (opened ++ breaks)))).exitCode = 65 ∧
      ∃ (source : String) (a b : Fault), source.toList = trimBreaks opened.toList ∧
        (interpret (opened ++ breaks)).result = .error a ∧ (interpret source).result = .error b ∧
        (script true "sum" (.ok (encode (opened ++ breaks)))).stderr =
          a.report (opened ++ breaks) (interpret (opened ++ breaks)).lines (.file "sum") ++ "\n" ∧
        (prompt true (encode (opened ++ "\n"))).stderr =
          b.report source (interpret source).lines .prompt ++ "\n" ∧
        a.stage = b.stage ∧ a.message = b.message ∧ a.token.isFinish = b.token.isFinish ∧
        (a.token.isFinish = false → a.token.position.column = b.token.position.column) := by
  intro closed opened breaks
  have hclosed : '\n' ∉ closed.toList := by decide +kernel
  have hopened : '\n' ∉ opened.toList := by decide +kernel
  have hvisible : ∃ c ∈ closed.toList, Source.isWhiteSpace c = false :=
    ⟨'(', by decide +kernel, by decide⟩
  have hseen : ∃ c ∈ opened.toList, Source.isWhiteSpace c = false :=
    ⟨'(', by decide +kernel, by decide⟩
  have hbreaks : ∀ c ∈ breaks.toList, c = '\r' ∨ c = '\n' := by
    have hall : breaks.toList.all (fun c => c = '\r' || c = '\n') = true := by decide +kernel
    simpa using hall
  have hzero : (script true "sum" (.ok (encode (closed ++ breaks)))).exitCode = 0 := by
    decide +kernel
  have hcode : (script true "sum" (.ok (encode (opened ++ breaks)))).exitCode = 65 := by
    decide +kernel
  obtain ⟨hquiet, hout, -⟩ := script_agrees_with_prompt true "sum" hclosed hvisible hbreaks
  obtain ⟨-, -, hfaults⟩ := script_agrees_with_prompt true "sum" hopened hseen hbreaks
  exact ⟨⟨hclosed, hopened, hvisible, hseen, hbreaks⟩, ⟨hzero, hquiet.mp hzero, hout hzero⟩, hcode,
    hfaults (by rw [hcode]; decide)⟩

end Console
end PolishCalc
