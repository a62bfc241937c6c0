import PolishCalc.Token

/-! Source text cut into pieces: tokens, layout, and text that no rule accepts. Each piece is the
longest one that its rule allows, and the pieces together are the whole text. -/
namespace PolishCalc

/-- A piece of source text. The bodies of comments are without the marks around them. -/
inductive Piece where
  | symbol (kind : Token.Kind) (c : Char)
  | number (whole fraction : List Char)
  | blank (c : Char)
  | lineComment (body : List Char)
  | blockComment (body : List Char)
  | stray (c : Char)
  | unclosed (body : List Char)
deriving DecidableEq

namespace Piece

def text : Piece → List Char
  | .symbol _ c => [c]
  | .number whole fraction => whole ++ if fraction.isEmpty then [] else '.' :: fraction
  | .blank c => [c]
  | .lineComment body => '/' :: '/' :: body
  | .blockComment body => '/' :: '*' :: (body ++ ['*', '/'])
  | .stray c => [c]
  | .unclosed body => '/' :: '*' :: body

def isBlank (c : Char) : Bool := c = ' ' || c = '\t' || c = '\r' || c = '\n'

def inLineComment (c : Char) : Bool := c ≠ '\n' && c ≠ '\r'

/-- Splits a text at its first `*/`, which neither part keeps. -/
def splitClose? : List Char → Option (List Char × List Char)
  | '*' :: '/' :: rest => some ([], rest)
  | c :: cs => (splitClose? cs).map fun (body, rest) => (c :: body, rest)
  | [] => none

def cutNumber (c : Char) (cs : List Char) : Piece × List Char :=
  let whole := c :: cs.takeWhile Char.isDigit
  match cs.dropWhile Char.isDigit with
  | '.' :: d :: rest =>
    if d.isDigit then
      (.number whole (d :: rest.takeWhile Char.isDigit), rest.dropWhile Char.isDigit)
    else (.number whole [], '.' :: d :: rest)
  | rest => (.number whole [], rest)

def single (c : Char) : Piece :=
  if isBlank c then .blank c
  else match Token.Kind.ofChar? c with
    | some kind => .symbol kind c
    | none => .stray c

def cut (c : Char) (cs : List Char) : Piece × List Char :=
  if c.isDigit then cutNumber c cs
  else match c, cs with
    | '/', '/' :: rest =>
      (.lineComment (rest.takeWhile inLineComment), rest.dropWhile inLineComment)
    | '/', '*' :: rest =>
      match splitClose? rest with
      | some (body, rest) => (.blockComment body, rest)
      | none => (.unclosed rest, [])
    | _, _ => (single c, cs)

theorem splitClose?_eq {cs body rest : List Char} (h : splitClose? cs = some (body, rest)) :
    cs = body ++ '*' :: '/' :: rest := by
  fun_induction splitClose? cs generalizing body rest with
  | case1 => simp_all
  | case2 c cs _ ih =>
    obtain ⟨⟨b, r⟩, hb, he⟩ := Option.map_eq_some_iff.1 h
    simp only [Prod.mk.injEq] at he
    obtain ⟨rfl, rfl⟩ := he
    simp [ih hb]
  | case3 => simp at h

theorem text_single (c : Char) : (single c).text = [c] := by
  unfold single
  split
  · rfl
  · split <;> rfl

theorem text_append_cutNumber (c : Char) (cs : List Char) :
    (cutNumber c cs).1.text ++ (cutNumber c cs).2 = c :: cs := by
  unfold cutNumber
  have h : cs.takeWhile Char.isDigit ++ cs.dropWhile Char.isDigit = cs :=
    List.takeWhile_append_dropWhile
  dsimp only
  split
  · rename_i d rest heq
    rw [heq] at h
    split <;> simpa [text] using h
  · simp [text, h]

/-- Cutting loses nothing. -/
theorem text_append_cut (c : Char) (cs : List Char) :
    (cut c cs).1.text ++ (cut c cs).2 = c :: cs := by
  unfold cut
  split
  · exact text_append_cutNumber c cs
  split
  · simp [text]
  · split
    · rename_i h
      simp [text, splitClose?_eq h]
    · simp [text]
  · simp [text_single]

theorem text_ne_nil_of_cut (c : Char) (cs : List Char) : (cut c cs).1.text ≠ [] := by
  unfold cut
  split
  · unfold cutNumber
    dsimp only
    split
    · split <;> simp [text]
    · simp [text]
  split
  · simp [text]
  · split <;> simp [text]
  · simp [text_single]

theorem length_cut_lt (c : Char) (cs : List Char) : (cut c cs).2.length < (c :: cs).length := by
  have h := congrArg List.length (text_append_cut c cs)
  have hpos := List.length_pos_iff.2 (text_ne_nil_of_cut c cs)
  rw [List.length_append] at h
  omega

end Piece

def pieces : List Char → List Piece
  | [] => []
  | c :: cs => (Piece.cut c cs).1 :: pieces (Piece.cut c cs).2
termination_by text => text.length
decreasing_by exact Piece.length_cut_lt c cs

theorem pieces_nil : pieces [] = [] := by rw [pieces]

theorem pieces_cons (c : Char) (cs : List Char) :
    pieces (c :: cs) = (Piece.cut c cs).1 :: pieces (Piece.cut c cs).2 := by rw [pieces]

/-- The pieces together are the whole text. -/
theorem flatMap_text_pieces (text : List Char) : (pieces text).flatMap Piece.text = text := by
  fun_induction pieces text with
  | case1 => rfl
  | case2 c cs ih => rw [List.flatMap_cons, ih, Piece.text_append_cut]

end PolishCalc
