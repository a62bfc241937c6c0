import PolishCalc.Source.Slice

/-! The lines of a text as byte spans. A line ends before its line feed, and the last one at the end
of the text, so a text has one line more than line feeds. -/
namespace PolishCalc

/-- The bytes from `start` up to, not including, `stop`. -/
structure Span where
  start : Nat
  stop : Nat
deriving DecidableEq

structure LineIndex where
  spans : List Span
deriving DecidableEq

namespace LineIndex

/-- The spans of a text that stands at byte `here`, its first line having begun at byte `start`. -/
def spansFrom (start here : Nat) : List Char → List Span
  | [] => [⟨start, here⟩]
  | c :: text =>
    if c = '\n' then ⟨start, here⟩ :: spansFrom (here + 1) (here + 1) text
    else spansFrom start (here + c.utf8Size) text

theorem length_spansFrom (start here : Nat) (text : List Char) :
    (spansFrom start here text).length = text.count '\n' + 1 := by
  induction text generalizing start here with
  | nil => rfl
  | cons c text ih => by_cases h : c = '\n' <;> simp [spansFrom, h, ih]

def ofText (text : List Char) : LineIndex := ⟨spansFrom 0 0 text⟩

def count (index : LineIndex) : Nat := index.spans.length

def dropReturn (line : List Char) : List Char :=
  if line.getLast? = some '\r' then line.dropLast else line

/-- Line `n` of `text`, counted from one and cut where the index says. There is none when the index
has no such line, or when its span does not fit the text. -/
def line? (index : LineIndex) (text : List Char) (n : Nat) : Option (List Char) :=
  match n with
  | 0 => none
  | n + 1 =>
    index.spans[n]?.bind fun span => (Source.slice? text span.start span.stop).map dropReturn

end LineIndex
end PolishCalc
