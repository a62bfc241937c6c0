import PolishCalc.Proofs.Lines
import PolishCalc.Proofs.Sessions

/-! The line index as a split of the source. Its spans lie in the bytes of the source one behind the
other with a single line feed between two of them, the texts of the spans are the lines of the source,
and a line that is looked up is the text of its span. -/
namespace PolishCalc

open Console (encode encode_eq_flatMap eq_lineFeed_of_mem_utf8EncodeChar)
open Source (dropBytes? takeBytes? slice?)

def Span.bytes (span : Span) (bytes : List UInt8) : List UInt8 :=
  (bytes.drop span.start).take (span.stop - span.start)

structure CutsLines (bytes : List UInt8) (start : Nat) (spans : List Span) : Prop where
  first : spans.head?.map Span.start = some start
  ordered : ∀ span ∈ spans, span.start ≤ span.stop
  next : ∀ i a b, spans[i]? = some a → spans[i + 1]? = some b →
    b.start = a.stop + 1 ∧ bytes[a.stop]? = some 10
  last : spans.getLast?.map Span.stop = some bytes.length
  inside : ∀ span ∈ spans, 10 ∉ span.bytes bytes

theorem drop_of_dropBytes? {n : Nat} {text rest : List Char} (h : dropBytes? n text = some rest) :
    (text.flatMap String.utf8EncodeChar).drop n = rest.flatMap String.utf8EncodeChar := by
  fun_induction dropBytes? n text with
  | case1 text =>
    cases h
    rfl
  | case2 => cases h
  | case3 n c text hle ih =>
    have hlength : (String.utf8EncodeChar c).length ≤ n + 1 := by
      rwa [String.length_utf8EncodeChar]
    rw [List.flatMap_cons, List.drop_append, List.drop_of_length_le hlength, List.nil_append,
      String.length_utf8EncodeChar, ih h]
  | case4 => cases h

theorem take_of_takeBytes? {n : Nat} {text line : List Char} (h : takeBytes? n text = some line) :
    (text.flatMap String.utf8EncodeChar).take n = line.flatMap String.utf8EncodeChar := by
  fun_induction takeBytes? n text generalizing line with
  | case1 text =>
    cases h
    rfl
  | case2 => cases h
  | case3 n c text hle ih =>
    obtain ⟨more, hmore, rfl⟩ := Option.map_eq_some_iff.mp h
    have hlength : (String.utf8EncodeChar c).length ≤ n + 1 := by
      rwa [String.length_utf8EncodeChar]
    rw [List.flatMap_cons, List.flatMap_cons, List.take_append, List.take_of_length_le hlength,
      String.length_utf8EncodeChar, ih hmore]
  | case4 => cases h

theorem bytes_of_slice? {text line : List Char} {span : Span}
    (h : slice? text span.start span.stop = some line) :
    span.bytes (text.flatMap String.utf8EncodeChar) = line.flatMap String.utf8EncodeChar := by
  unfold slice? at h
  split at h
  · obtain ⟨rest, hdrop, htake⟩ := Option.bind_eq_some_iff.mp h
    rw [Span.bytes, drop_of_dropBytes? hdrop, take_of_takeBytes? htake]
  · cases h

namespace CutsLines
variable {pre line rest : List UInt8} {spans : List Span}

theorem single (h : 10 ∉ line) :
    CutsLines (pre ++ line) pre.length [⟨pre.length, (pre ++ line).length⟩] where
  first := rfl
  ordered := by simp
  next := by simp
  last := rfl
  inside := by simpa [Span.bytes] using h

theorem cons (h : 10 ∉ line)
    (hspans : CutsLines (pre ++ line ++ 10 :: rest) ((pre ++ line).length + 1) spans) :
    CutsLines (pre ++ line ++ 10 :: rest) pre.length
      (⟨pre.length, (pre ++ line).length⟩ :: spans) where
  first := rfl
  ordered := by simpa using hspans.ordered
  next := by
    intro i a b ha hb
    cases i with
    | zero =>
      obtain rfl := Option.some.inj ha
      have hfirst := hspans.first
      rw [List.head?_eq_getElem?, show spans[0]? = some b from hb] at hfirst
      exact ⟨Option.some.inj hfirst, by simp⟩
    | succ i => exact hspans.next i a b ha hb
  last := by
    have hlast := hspans.last
    cases spans with
    | nil => cases hlast
    | cons span spans => rwa [List.getLast?_cons_cons]
  inside := by
    intro span hmem
    cases hmem with
    | head => simpa [Span.bytes, List.append_assoc] using h
    | tail _ hmem => exact hspans.inside span hmem

end CutsLines

/-- The spans of the text `rest`, `pre` and then the beginning `line` of a line standing in front of
it. -/
theorem cutsLines_spansFrom (pre line : List UInt8) (rest : List Char) (h : 10 ∉ line) :
    CutsLines (pre ++ line ++ rest.flatMap String.utf8EncodeChar) pre.length
      (LineIndex.spansFrom pre.length (pre ++ line).length rest) := by
  induction rest generalizing pre line with
  | nil => simpa [LineIndex.spansFrom] using CutsLines.single h
  | cons c rest ih =>
    rw [List.flatMap_cons, LineIndex.spansFrom]
    by_cases hc : c = '\n'
    · have hbytes : String.utf8EncodeChar c = [10] := by rw [hc]; rfl
      have hrest := ih (pre ++ line ++ [10]) [] (by simp)
      rw [if_pos hc, hbytes]
      refine .cons h ?_
      simpa [Nat.add_assoc] using hrest
    · have hbytes : 10 ∉ String.utf8EncodeChar c :=
        fun hmem => hc (eq_lineFeed_of_mem_utf8EncodeChar hmem)
      have hrest := ih pre (line ++ String.utf8EncodeChar c) (by simp [h, hbytes])
      rw [if_neg hc]
      simpa [Nat.add_assoc] using hrest

theorem cutsLines_lines (source : String) :
    CutsLines (encode source) 0 (scan source).lines.spans := by
  rw [encode_eq_flatMap]
  exact cutsLines_spansFrom [] [] source.toList (by simp)

/-- The texts of the spans are the lines of the source. -/
theorem map_bytes_spans (source : String) :
    (scan source).lines.spans.map (·.bytes (encode source)) =
      (source.toList.splitOn '\n').map fun line => encode (String.ofList line) := by
  have hslices : (scan source).lines.spans.map
        (fun span => slice? source.toList span.start span.stop) =
      (source.toList.splitOn '\n').map some :=
    LineIndex.map_slice?_spansFrom [] [] source.toList (by simp)
  simp only [encode_eq_flatMap, String.toList_ofList]
  refine List.ext_getElem? fun i => ?_
  have hslice := congrArg (fun slices => slices[i]?) hslices
  simp only [List.getElem?_map] at hslice ⊢
  cases hspan : (scan source).lines.spans[i]? with
  | none =>
    rw [hspan] at hslice
    have hget : (source.toList.splitOn '\n')[i]? = none := Option.map_eq_none_iff.mp hslice.symm
    rw [hget]
    rfl
  | some span =>
    rw [hspan] at hslice
    obtain ⟨line, hget, hline⟩ := Option.map_eq_some_iff.mp hslice.symm
    rw [hget, Option.map_some, Option.map_some, bytes_of_slice? hline.symm]

/-- The line index of a source is its split at line feeds: the spans lie in its bytes one behind the
other with a line feed between them, joined by line feeds their texts are the source again, and the
lines that can be looked up are these texts, each without a carriage return that may end it. -/
theorem line_index_splits_source (source : String) :
    (scan source).lines.count = source.toList.count '\n' + 1 ∧
    CutsLines (encode source) 0 (scan source).lines.spans ∧
    (∀ n, ((scan source).lines.line? source.toList n).isSome ↔
      1 ≤ n ∧ n ≤ (scan source).lines.count) ∧
    ∃ lines : List (List Char),
      lines.map (fun line => encode (String.ofList line)) =
        (scan source).lines.spans.map (·.bytes (encode source)) ∧
      ['\n'].intercalate lines = source.toList ∧
      ∀ n line, lines[n]? = some line →
        ∃ shown, (scan source).lines.line? source.toList (n + 1) = some shown ∧
          (line = shown ++ ['\r'] ∨ line = shown ∧ line.getLast? ≠ some '\r') := by
  have hcount : (scan source).lines.count = source.toList.count '\n' + 1 :=
    LineIndex.length_spansFrom 0 0 source.toList
  have hline (n : Nat) : (scan source).lines.line? source.toList (n + 1) =
      (source.toList.splitOn '\n')[n]?.map LineIndex.dropReturn :=
    LineIndex.line?_ofText source.toList n
  refine ⟨hcount, cutsLines_lines source, ?_, source.toList.splitOn '\n',
    (map_bytes_spans source).symm, List.intercalate_splitOn '\n', ?_⟩
  · intro n
    cases n with
    | zero => simp [LineIndex.line?]
    | succ n =>
      rw [hline, hcount, ← length_splitOn, Option.isSome_map, Option.isSome_iff_ne_none, Ne,
        List.getElem?_eq_none_iff]
      omega
  · intro n line hget
    exact ⟨_, by rw [hline, hget]; rfl, LineIndex.dropReturn_eq line⟩

-- Bytes are counted, not characters, and a line feed in a comment ends a line like any other.
example : (scan "é\r\n/*\n").lines.spans = [⟨0, 3⟩, ⟨4, 6⟩, ⟨7, 7⟩] := by decide +kernel

end PolishCalc
