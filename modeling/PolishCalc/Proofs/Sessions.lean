import PolishCalc.Console

/-! Sessions at the prompt. The lines of an input are answered one by one, and no answer depends on the
lines around it: what is written for an input is what is written for its lines, in order, up to the
first line that is no text. -/
namespace PolishCalc

theorem interpret_of_faults {source : String} {fault : Fault} {rest : List Fault}
    (h : (scan source).faults = fault :: rest) :
    interpret source = ⟨.error fault, (scan source).lines⟩ := by
  simp [interpret, h]

namespace Console

def encode (text : String) : List UInt8 := text.toUTF8.data.toList

theorem encode_eq_flatMap (text : String) :
    encode text = text.toList.flatMap String.utf8EncodeChar := by
  rw [encode, String.toUTF8_eq_toByteArray, ← String.utf8Encode_toList, List.utf8Encode,
    List.data_toByteArray]

theorem toByteArray_eq_iff {bytes : List UInt8} {text : String} :
    bytes.toByteArray = text.toByteArray ↔ bytes = encode text := by
  rw [encode, String.toUTF8_eq_toByteArray]
  constructor
  · intro h
    rw [← h, List.data_toByteArray]
  · intro h
    exact ByteArray.ext (by rw [h, List.data_toByteArray])

theorem decode?_eq_some_iff {bytes : List UInt8} {text : String} :
    decode? bytes = some text ↔ bytes = encode text := by
  rw [← toByteArray_eq_iff, decode?, String.fromUTF8?]
  constructor
  · intro h
    split at h
    · rw [← Option.some.inj h]
      rfl
    · cases h
  · intro h
    have hvalid : bytes.toByteArray.IsValidUTF8 := h ▸ text.isValidUTF8
    rw [dif_pos hvalid]
    exact congrArg some (String.toByteArray_inj.mp h)

theorem decode?_ne_none_iff {bytes : List UInt8} :
    decode? bytes ≠ none ↔ ∃ text : List Char, bytes = text.flatMap String.utf8EncodeChar := by
  constructor
  · intro h
    obtain ⟨text, htext⟩ := Option.ne_none_iff_exists'.mp h
    exact ⟨text.toList, by rw [decode?_eq_some_iff.mp htext, encode_eq_flatMap]⟩
  · rintro ⟨text, rfl⟩
    have hdecode := decode?_eq_some_iff.mpr (encode_eq_flatMap (String.ofList text)).symm
    rw [String.toList_ofList] at hdecode
    simp [hdecode]

/-- The byte of a line feed stands for nothing else, nor is it part of another character. -/
theorem eq_lineFeed_of_mem_utf8EncodeChar {c : Char} (h : 10 ∈ String.utf8EncodeChar c) :
    c = '\n' := by
  have hbyte (n : Nat) : (10 : UInt8) = UInt8.ofNat n ↔ n % 256 = 10 := by
    rw [← UInt8.toNat_inj, UInt8.toNat_ofNat', eq_comm]
    rfl
  have hval : c.val.toNat = 10 := by
    rw [String.utf8EncodeChar] at h
    generalize c.val.toNat = v at h
    split at h
    · simp only [List.mem_singleton, hbyte] at h
      omega
    split at h
    · simp only [List.mem_cons, List.not_mem_nil, or_false, hbyte] at h
      omega
    split at h
    · simp only [List.mem_cons, List.not_mem_nil, or_false, hbyte] at h
      omega
    · simp only [List.mem_cons, List.not_mem_nil, or_false, hbyte] at h
      omega
  exact Char.ext (UInt32.toNat_inj.mp hval)

theorem lineFeed_not_mem_encode {text : String} (h : '\n' ∉ text.toList) : 10 ∉ encode text := by
  rw [encode_eq_flatMap]
  intro hmem
  obtain ⟨c, hc, hbyte⟩ := List.mem_flatMap.mp hmem
  exact h (eq_lineFeed_of_mem_utf8EncodeChar hbyte ▸ hc)

theorem lines_lineFeed (bytes : List UInt8) : lines (10 :: bytes) = [10] :: lines bytes := rfl

/-- Any other byte goes on to the first line behind it. -/
theorem lines_cons {b : UInt8} (h : b ≠ 10) (bytes : List UInt8) :
    lines (b :: bytes) = (b :: (lines bytes).headD []) :: (lines bytes).tail := by
  rw [lines, if_neg h]
  cases lines bytes <;> rfl

theorem lines_append_of_not_mem {head : List UInt8} (hne : head ≠ []) (h : 10 ∉ head)
    (rest : List UInt8) :
    lines (head ++ rest) = (head ++ (lines rest).headD []) :: (lines rest).tail := by
  induction head with
  | nil => exact absurd rfl hne
  | cons b head ih =>
    rw [List.mem_cons, not_or] at h
    rw [List.cons_append, lines_cons (Ne.symm h.1)]
    cases head with
    | nil => rfl
    | cons c head => rw [ih (by simp) h.2]; rfl

theorem lines_ne_nil {bytes : List UInt8} (h : bytes ≠ []) : lines bytes ≠ [] := by
  cases bytes with
  | nil => exact absurd rfl h
  | cons b bytes =>
    by_cases hb : b = 10
    · simp [hb, lines_lineFeed]
    · simp [lines_cons hb]

theorem lines_append_lineFeed (a b : List UInt8) :
    lines (a ++ 10 :: b) = lines (a ++ [10]) ++ lines b := by
  induction a with
  | nil => rfl
  | cons c a ih =>
    rw [List.cons_append, List.cons_append]
    by_cases hc : c = 10
    · rw [hc, lines_lineFeed, lines_lineFeed, ih, List.cons_append]
    · rw [lines_cons hc, lines_cons hc, ih]
      have hne := lines_ne_nil (List.concat_ne_nil 10 a)
      obtain ⟨line, rest, hline⟩ := List.exists_cons_of_ne_nil hne
      rw [hline]
      rfl

/-- Behind a line feed a line begins. -/
theorem lines_append {a : List UInt8} (h : a = [] ∨ a.getLast? = some 10) (b : List UInt8) :
    lines (a ++ b) = lines a ++ lines b := by
  cases h with
  | inl hnil => rw [hnil]; rfl
  | inr hlast =>
    obtain ⟨front, rfl⟩ := List.getLast?_eq_some_iff.mp hlast
    rw [List.append_assoc, List.singleton_append, lines_append_lineFeed]

/-- The lines of a text are texts. -/
theorem decode?_lines {input : List UInt8} (h : decode? input ≠ none) :
    ∀ line ∈ lines input, decode? line ≠ none := by
  obtain ⟨text, rfl⟩ := decode?_ne_none_iff.mp h
  simp only [decode?_ne_none_iff]
  clear h
  induction text with
  | nil => simp [lines]
  | cons c text ih =>
    rw [List.flatMap_cons]
    by_cases hc : c = '\n'
    · have hbytes : String.utf8EncodeChar c = [10] := by rw [hc]; rfl
      rw [hbytes, List.singleton_append, lines_lineFeed]
      intro line hline
      cases hline with
      | head => exact ⟨[c], by simp [hbytes]⟩
      | tail _ hline => exact ih line hline
    · rw [lines_append_of_not_mem String.utf8EncodeChar_ne_nil
        (fun hmem => hc (eq_lineFeed_of_mem_utf8EncodeChar hmem))]
      intro line hline
      cases hlines : lines (text.flatMap String.utf8EncodeChar) with
      | nil =>
        rw [hlines] at hline
        exact ⟨[c], by simpa using hline⟩
      | cons first rest =>
        rw [hlines] at hline ih
        cases hline with
        | head =>
          obtain ⟨more, hmore⟩ := ih first List.mem_cons_self
          exact ⟨c :: more, by simp [hmore]⟩
        | tail _ hline => exact ih line (List.mem_cons_of_mem first hline)

section Turns

variable (showTree : Bool)

theorem session_cons {line : List UInt8} {text : String} (h : decode? line = some text)
    (rest : List (List UInt8)) :
    session showTree (line :: rest) =
      (reply showTree text).marked.before (session showTree rest) := by
  simp [session, turn, h]

theorem session_cons_of_undecodable {line : List UInt8} (h : decode? line = none)
    (rest : List (List UInt8)) :
    session showTree (line :: rest) = (turn showTree (some line)).written.marked := by
  simp [session, turn, h]

theorem reply_eq {text source : String} (h : source.toList = trimBreaks text.toList) :
    reply showTree text =
      if source.toList.all Source.isWhiteSpace then ⟨"", "", 0⟩
      else answer showTree source .prompt := by
  rw [reply, ← h, String.ofList_toList]

/-- What is written for lines that are all texts does not depend on what follows them. -/
theorem exists_session_append {before : List (List UInt8)}
    (h : ∀ line ∈ before, decode? line ≠ none) :
    ∃ out, (session showTree before).stdout = out ++ (session showTree []).stdout ∧
      ∀ rest, session showTree (before ++ rest) =
        ⟨out ++ (session showTree rest).stdout,
          (session showTree before).stderr ++ (session showTree rest).stderr,
          (session showTree rest).exitCode⟩ := by
  induction before with
  | nil => exact ⟨"", by simp, fun rest => by simp [session, turn, Output.marked]⟩
  | cons line before ih =>
    obtain ⟨text, htext⟩ := Option.ne_none_iff_exists'.mp (h line List.mem_cons_self)
    obtain ⟨out, hout, hrest⟩ := ih fun next hnext => h next (List.mem_cons_of_mem line hnext)
    refine ⟨promptMark ++ (reply showTree text).stdout ++ out, ?_, fun rest => ?_⟩
    · rw [session_cons showTree htext]
      simp only [Output.before, Output.marked, hout, String.append_assoc]
    · rw [List.cons_append, session_cons showTree htext, session_cons showTree htext, hrest rest]
      simp only [Output.before, Output.marked, String.append_assoc]

/-- A line that is no text ends the session. -/
theorem session_append_of_undecodable {before : List (List UInt8)}
    (h : ∃ line ∈ before, decode? line = none) (rest : List (List UInt8)) :
    session showTree (before ++ rest) = session showTree before ∧
      (session showTree before).exitCode = 1 := by
  induction before with
  | nil => simp at h
  | cons line before ih =>
    rw [List.cons_append]
    cases hdecode : decode? line with
    | none =>
      rw [session_cons_of_undecodable showTree hdecode,
        session_cons_of_undecodable showTree hdecode]
      exact ⟨rfl, by simp [turn, hdecode, Output.marked]⟩
    | some text =>
      have hrest : ∃ line ∈ before, decode? line = none := by simpa [hdecode] using h
      obtain ⟨hsession, hcode⟩ := ih hrest
      rw [session_cons showTree hdecode, session_cons showTree hdecode, hsession]
      exact ⟨rfl, hcode⟩

theorem exitCode_session {input : List (List UInt8)} (h : ∀ line ∈ input, decode? line ≠ none) :
    (session showTree input).exitCode = 0 := by
  obtain ⟨out, -, hsession⟩ := exists_session_append showTree h
  rw [← List.append_nil input, hsession]
  rfl

end Turns

/-- The prompt takes an input line by line. Lines in front of an input add what is written for them,
and keep neither the answers to it nor its exit code from being what they are; a line that is no text
ends the session. -/
theorem prompt_takes_lines_one_by_one (showTree : Bool) {a b : List UInt8}
    (ha : a = [] ∨ a.getLast? = some 10) :
    ((∀ line ∈ lines a, decode? line ≠ none) →
      (∃ out, (prompt showTree a).stdout = out ++ "> \n" ∧
        (prompt showTree (a ++ b)).stdout = out ++ (prompt showTree b).stdout) ∧
      (prompt showTree (a ++ b)).stderr =
        (prompt showTree a).stderr ++ (prompt showTree b).stderr ∧
      (prompt showTree (a ++ b)).exitCode = (prompt showTree b).exitCode ∧
      (decode? b ≠ none → (prompt showTree b).exitCode = 0)) ∧
    ((∃ line ∈ lines a, decode? line = none) →
      prompt showTree (a ++ b) = prompt showTree a ∧ (prompt showTree a).exitCode = 1) := by
  unfold prompt
  rw [lines_append ha]
  constructor
  · intro htext
    obtain ⟨out, hout, hsession⟩ := exists_session_append showTree htext
    rw [hsession]
    refine ⟨⟨out, hout, rfl⟩, rfl, rfl, ?_⟩
    intro hb
    exact exitCode_session showTree (decode?_lines hb)
  · intro hundecodable
    exact session_append_of_undecodable showTree hundecodable (lines b)

theorem prompt_takes_lines_one_by_one_with_faults :
    let failing := encode "(/ 1 0)\n \t\r\n(+ 1\n"
    let broken := encode "1\n" ++ [0xFF, 10]
    let last := encode "-7"
    ((∀ line ∈ lines failing, decode? line ≠ none) ∧ decode? last ≠ none ∧
      (∃ out, (prompt true failing).stdout = out ++ "> \n" ∧
        (prompt true (failing ++ last)).stdout = out ++ (prompt true last).stdout) ∧
      (prompt true (failing ++ last)).stderr =
        (prompt true failing).stderr ++ (prompt true last).stderr ∧
      (prompt true (failing ++ last)).exitCode = (prompt true last).exitCode ∧
      (prompt true last).exitCode = 0) ∧
    (∃ line ∈ lines broken, decode? line = none) ∧
      prompt true (broken ++ last) = prompt true broken ∧ (prompt true broken).exitCode = 1 := by
  intro failing broken last
  have hfailing : failing = [] ∨ failing.getLast? = some 10 := .inr rfl
  have hbroken : broken = [] ∨ broken.getLast? = some 10 := .inr rfl
  have htexts : ∀ line ∈ lines failing, decode? line ≠ none := by decide +kernel
  have hlast : decode? last ≠ none := by decide +kernel
  have hundecodable : ∃ line ∈ lines broken, decode? line = none := by decide +kernel
  obtain ⟨hout, herr, hcode, hzero⟩ := (prompt_takes_lines_one_by_one true hfailing).1 htexts
  exact ⟨⟨htexts, hlast, hout, herr, hcode, hzero hlast⟩, hundecodable,
    (prompt_takes_lines_one_by_one true hbroken).2 hundecodable⟩

/-- What a line that scanning finds fault with is answered: nothing if it has white space only, and
else the report on the first fault. -/
theorem stderr_reply_of_faults (showTree : Bool) {text source : String} {fault : Fault}
    {rest : List Fault} (hsource : source.toList = trimBreaks text.toList)
    (hfaults : (scan source).faults = fault :: rest) :
    (reply showTree text).stderr =
      if source.toList.all Source.isWhiteSpace then ""
      else fault.report source (scan source).lines .prompt ++ "\n" := by
  rw [reply_eq showTree hsource]
  by_cases hwhite : source.toList.all Source.isWhiteSpace = true
  · rw [if_pos hwhite, if_pos hwhite]
  · rw [if_neg hwhite, if_neg hwhite, answer, interpret_of_faults hfaults]

/-- For each line in which scanning finds a fault the prompt writes the report on the first one, unless
the line has white space only. -/
theorem first_fault_of_line_reported (showTree : Bool) {input line : List UInt8}
    {before after : List (List UInt8)} {text source : String} {fault : Fault} {rest : List Fault}
    (hinput : ∀ line ∈ lines input, decode? line ≠ none)
    (hline : lines input = before ++ line :: after) (htext : decode? line = some text)
    (hsource : source.toList = trimBreaks text.toList)
    (hfaults : (scan source).faults = fault :: rest) :
    (prompt showTree input).stderr =
      (session showTree before).stderr ++
        (if source.toList.all Source.isWhiteSpace then ""
          else fault.report source (scan source).lines .prompt ++ "\n") ++
        (session showTree after).stderr := by
  rw [hline] at hinput
  have hbefore : ∀ line ∈ before, decode? line ≠ none := fun line hmem =>
    hinput line (List.mem_append_left _ hmem)
  obtain ⟨out, -, hsession⟩ := exists_session_append showTree hbefore
  rw [prompt, hline, hsession, session_cons showTree htext,
    ← stderr_reply_of_faults showTree hsource hfaults, String.append_assoc]
  rfl

theorem first_fault_of_line_reported_between_others :
    let input := encode "1\n$ #\r\n(/ 1 0)"
    let before := [encode "1\n"]
    let after := [encode "(/ 1 0)"]
    let fault : Fault := ⟨.strayCharacter, ⟨.stray, "$", none, ⟨1, 1⟩⟩⟩
    (∀ line ∈ lines input, decode? line ≠ none) ∧
    lines input = before ++ encode "$ #\r\n" :: after ∧
    (scan "$ #").faults.head? = some fault ∧
    (prompt false input).stderr =
      (session false before).stderr ++
        (if "$ #".toList.all Source.isWhiteSpace then ""
          else fault.report "$ #" (scan "$ #").lines .prompt ++ "\n") ++
        (session false after).stderr := by
  intro input before after fault
  have hinput : ∀ line ∈ lines input, decode? line ≠ none := by decide +kernel
  have hline : lines input = before ++ encode "$ #\r\n" :: after := by decide +kernel
  have htext : decode? (encode "$ #\r\n") = some "$ #\r\n" := decode?_eq_some_iff.mpr rfl
  have hsource : "$ #".toList = trimBreaks "$ #\r\n".toList := by decide +kernel
  have hfaults : (scan "$ #").faults =
      [fault, ⟨.strayCharacter, ⟨.stray, "#", none, ⟨1, 3⟩⟩⟩] := by decide +kernel
  exact ⟨hinput, hline, by rw [hfaults]; rfl,
    first_fault_of_line_reported false hinput hline htext hsource hfaults⟩

/-- A no-break space is white space, and no blank of the language: scanning finds fault with it, and so
does a script that consists of it, but at the prompt nothing is written. -/
theorem no_break_space_not_reported :
    let input := encode "\u00a0\n"
    let fault : Fault := ⟨.strayCharacter, ⟨.stray, "\u00a0", none, ⟨1, 1⟩⟩⟩
    (∀ line ∈ lines input, decode? line ≠ none) ∧ lines input = [input] ∧
    decode? input = some "\u00a0\n" ∧ "\u00a0".toList = trimBreaks "\u00a0\n".toList ∧
    (scan "\u00a0").faults = [fault] ∧
    (script false "calc" (.ok input)).exitCode = 65 ∧
    fault.report "\u00a0" (scan "\u00a0").lines .prompt ≠ "" ∧
    (prompt false input).stderr = "" := by
  intro input fault
  exact ⟨by decide +kernel, by decide +kernel, decode?_eq_some_iff.mpr rfl, by decide +kernel,
    by decide +kernel, by decide +kernel, by decide +kernel, by decide +kernel⟩

end Console
end PolishCalc
