import PolishCalc.Proofs.Places

/-! The lines of a text. The line index cuts a text where it is split at its line feeds, and the place
behind any beginning of a text lies on the line that continues there. -/
namespace PolishCalc

open Source (byteLength byteLength_append slice? slice?_append)

theorem length_splitOn (text : List Char) :
    (text.splitOn '\n').length = text.count '\n' + 1 := by
  induction text with
  | nil => rfl
  | cons c text ih =>
    rw [List.splitOn_cons_eq_if_modifyHead]
    by_cases hc : c = '\n'
    · simp [hc, ih]
    · simp [hc, ih]

theorem head?_splitOn (text : List Char) :
    (text.splitOn '\n')[0]? = some (text.takeWhile (· ≠ '\n')) := by
  induction text with
  | nil => rfl
  | cons c text ih =>
    rw [List.splitOn_cons_eq_if_modifyHead]
    by_cases hc : c = '\n'
    · simp [hc]
    · obtain ⟨line, lines, hlines⟩ := List.exists_cons_of_ne_nil (List.splitOn_ne_nil '\n' text)
      rw [hlines] at ih ⊢
      simpa [hc] using ih

theorem lineFeed_not_mem_of_mem_splitOn {text line : List Char} (h : line ∈ text.splitOn '\n') :
    '\n' ∉ line := by
  induction text generalizing line with
  | nil =>
    obtain rfl : line = [] := by simpa using h
    simp
  | cons c text ih =>
    rw [List.splitOn_cons_eq_if_modifyHead] at h
    by_cases hc : c = '\n'
    · obtain rfl | h : line = [] ∨ line ∈ text.splitOn '\n' := by simpa [hc] using h
      · simp
      · exact ih h
    · obtain ⟨first, lines, hlines⟩ := List.exists_cons_of_ne_nil (List.splitOn_ne_nil '\n' text)
      rw [hlines] at h ih
      obtain rfl | h : line = c :: first ∨ line ∈ lines := by simpa [hc] using h
      · simp [Ne.symm hc, ih List.mem_cons_self]
      · exact ih (List.mem_cons_of_mem first h)

def lastLine (text : List Char) : List Char := (text.reverse.takeWhile (· ≠ '\n')).reverse

theorem lineFeed_not_mem_lastLine (text : List Char) : '\n' ∉ lastLine text := by
  intro hmem
  have hall := List.all_eq_true.mp (List.all_takeWhile (p := (· ≠ '\n')) (l := text.reverse))
  simpa using hall '\n' (List.mem_reverse.mp hmem)

theorem eq_lastLine_or (text : List Char) :
    text = lastLine text ∨ ∃ head, text = head ++ '\n' :: lastLine text := by
  have hsplit : text = (text.reverse.dropWhile (· ≠ '\n')).reverse ++ lastLine text := by
    rw [lastLine, ← List.reverse_append, List.takeWhile_append_dropWhile, List.reverse_reverse]
  have hhead := List.head?_dropWhile_not (· ≠ '\n') text.reverse
  cases hdrop : text.reverse.dropWhile (· ≠ '\n') with
  | nil =>
    rw [hdrop] at hsplit
    exact .inl hsplit
  | cons c head =>
    rw [hdrop] at hsplit hhead
    obtain rfl : c = '\n' := by simpa using hhead
    exact .inr ⟨head.reverse, by simpa using hsplit⟩

/-- The line on which a text continues behind `before`. -/
theorem getElem?_splitOn (before after : List Char) :
    ((before ++ after).splitOn '\n')[before.count '\n']? =
      some (lastLine before ++ after.takeWhile (· ≠ '\n')) := by
  have hlast := lineFeed_not_mem_lastLine before
  have hfirst : ((lastLine before ++ after).splitOn '\n')[0]? =
      some (lastLine before ++ after.takeWhile (· ≠ '\n')) := by
    rw [head?_splitOn, List.takeWhile_append_of_pos]
    intro c hc
    simpa using ne_of_mem_of_not_mem hc hlast
  rcases eq_lastLine_or before with hbefore | ⟨head, hbefore⟩
  · have hcount : before.count '\n' = 0 := by
      rw [hbefore]
      exact List.count_eq_zero.mpr hlast
    rw [hcount, ← hfirst, ← hbefore]
  · have hcount : before.count '\n' = (head.splitOn '\n').length := by
      rw [hbefore, length_splitOn]
      simp [List.count_eq_zero.mpr hlast]
    have hlines : (before ++ after).splitOn '\n' =
        head.splitOn '\n' ++ (lastLine before ++ after).splitOn '\n' := by
      rw [← List.splitOn_append_cons_self, ← List.cons_append, ← List.append_assoc, ← hbefore]
    rw [hcount, hlines, List.getElem?_append_right (Nat.le_refl _), Nat.sub_self, hfirst]

namespace LineIndex

/-- The spans of a text behind `before`, its first line having begun with `line`. -/
theorem map_slice?_spansFrom (before line rest : List Char) (hline : '\n' ∉ line) :
    (spansFrom (byteLength before) (byteLength (before ++ line)) rest).map
        (fun span => slice? (before ++ line ++ rest) span.start span.stop) =
      ((line ++ rest).splitOn '\n').map some := by
  induction rest generalizing before line with
  | nil =>
    have hslice := slice?_append before line []
    simp only [List.append_nil] at hslice ⊢
    simp [spansFrom, hslice, List.splitOn_eq_singleton hline]
  | cons c rest ih =>
    by_cases hc : c = '\n'
    · subst hc
      have hslice := slice?_append before line ('\n' :: rest)
      have hsize : byteLength (before ++ line ++ ['\n']) = byteLength (before ++ line) + 1 := by
        rw [byteLength_append _ ['\n']]
        rfl
      have hrest := ih (before ++ line ++ ['\n']) [] (by simp)
      rw [List.append_nil, hsize] at hrest
      rw [List.splitOn_append_cons_self_of_not_mem hline]
      simp only [spansFrom, if_true, List.map_cons, hslice]
      simpa using hrest
    · have hsize : byteLength (before ++ (line ++ [c])) =
          byteLength (before ++ line) + c.utf8Size := by
        rw [← List.append_assoc, byteLength_append _ [c]]
        rfl
      have hrest := ih before (line ++ [c]) (by simp [hline, Ne.symm hc])
      rw [hsize] at hrest
      simp only [spansFrom, hc, if_false]
      simpa using hrest

theorem line?_ofText (text : List Char) (n : Nat) :
    (ofText text).line? text (n + 1) = (text.splitOn '\n')[n]?.map dropReturn := by
  have hslices := congrArg (fun lines => lines[n]?) (map_slice?_spansFrom [] [] text (by simp))
  simp only [List.getElem?_map, List.nil_append, byteLength] at hslices
  unfold line? ofText
  dsimp only
  cases hspan : (spansFrom 0 0 text)[n]? with
  | none =>
    have hline : (text.splitOn '\n')[n]? = none := by simpa [hspan] using hslices.symm
    rw [hline]
    rfl
  | some span =>
    rw [hspan] at hslices
    obtain ⟨line, hline, hslice⟩ := Option.map_eq_some_iff.mp hslices.symm
    rw [hline, hslice]
    rfl

/-- A line is what is shown of it, or that and a carriage return. -/
theorem dropReturn_eq (line : List Char) :
    line = dropReturn line ++ ['\r'] ∨ line = dropReturn line ∧ line.getLast? ≠ some '\r' := by
  unfold dropReturn
  by_cases h : line.getLast? = some '\r'
  · rw [if_pos h]
    obtain ⟨ys, rfl⟩ := List.getLast?_eq_some_iff.mp h
    exact .inl (by simp)
  · rw [if_neg h]
    exact .inr ⟨rfl, h⟩

theorem length_dropReturn_le (line : List Char) : (dropReturn line).length ≤ line.length := by
  rcases dropReturn_eq line with heq | ⟨heq, -⟩
  · have hlength := congrArg List.length heq
    rw [List.length_append] at hlength
    omega
  · exact Nat.le_of_eq (congrArg List.length heq).symm

theorem getElem?_dropReturn {line rest : List Char} {c : Char} (hc : c ≠ '\r') :
    (dropReturn (line ++ c :: rest))[line.length]? = some c := by
  have hget : (line ++ c :: rest)[line.length]? = some c := by simp
  rcases dropReturn_eq (line ++ c :: rest) with heq | ⟨heq, -⟩
  · generalize dropReturn (line ++ c :: rest) = quoted at *
    rw [heq, List.getElem?_append] at hget
    by_cases hlt : line.length < quoted.length
    · rwa [if_pos hlt] at hget
    · rw [if_neg hlt] at hget
      have hmem := List.mem_of_getElem? hget
      exact absurd (List.mem_singleton.mp hmem) hc
  · rwa [heq] at hget

theorem lineFeed_not_mem_line? {text line : List Char} {n : Nat}
    (h : (ofText text).line? text n = some line) : '\n' ∉ line := by
  cases n with
  | zero => cases h
  | succ n =>
    rw [line?_ofText] at h
    obtain ⟨whole, hwhole, rfl⟩ := Option.map_eq_some_iff.mp h
    have hline := lineFeed_not_mem_of_mem_splitOn (List.mem_of_getElem? hwhole)
    rcases dropReturn_eq whole with heq | ⟨heq, -⟩
    · intro hmem
      rw [heq] at hline
      exact hline (List.mem_append_left _ hmem)
    · rwa [← heq]

/-- The line of the place behind `before`, as it is shown. -/
theorem line?_behind (before after : List Char) :
    (ofText (before ++ after)).line? (before ++ after) (Position.behind before).line =
      some (dropReturn (lastLine before ++ after.takeWhile (· ≠ '\n'))) := by
  have hline : (Position.behind before).line = before.count '\n' + 1 := Nat.add_comm 1 _
  rw [hline, line?_ofText, getElem?_splitOn]
  rfl

end LineIndex

end PolishCalc
