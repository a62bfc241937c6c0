/-! Texts measured and cut by the bytes of their UTF-8 form. A cut inside a character or past the end
of the text has no result. -/
namespace PolishCalc.Source

def byteLength : List Char → Nat
  | [] => 0
  | c :: text => c.utf8Size + byteLength text

theorem byteLength_append (a b : List Char) :
    byteLength (a ++ b) = byteLength a + byteLength b := by
  induction a with
  | nil => simp [byteLength]
  | cons c a ih => simp [byteLength, ih, Nat.add_assoc]

def dropBytes? : Nat → List Char → Option (List Char)
  | 0, text => some text
  | _ + 1, [] => none
  | n + 1, c :: text => if c.utf8Size ≤ n + 1 then dropBytes? (n + 1 - c.utf8Size) text else none

def takeBytes? : Nat → List Char → Option (List Char)
  | 0, _ => some []
  | _ + 1, [] => none
  | n + 1, c :: text =>
    if c.utf8Size ≤ n + 1 then (takeBytes? (n + 1 - c.utf8Size) text).map (c :: ·) else none

def slice? (text : List Char) (start stop : Nat) : Option (List Char) :=
  if start ≤ stop then (dropBytes? start text).bind (takeBytes? (stop - start)) else none

theorem dropBytes?_append (a b : List Char) : dropBytes? (byteLength a) (a ++ b) = some b := by
  induction a with
  | nil => simp [byteLength, dropBytes?]
  | cons c a ih =>
    obtain ⟨n, hn⟩ := Nat.exists_eq_add_of_lt c.utf8Size_pos
    have hsum : byteLength (c :: a) = n + byteLength a + 1 := by
      rw [byteLength, hn]
      omega
    rw [hsum, List.cons_append, dropBytes?, if_pos (by omega)]
    have hrest : n + byteLength a + 1 - c.utf8Size = byteLength a := by omega
    rw [hrest, ih]

theorem takeBytes?_append (a b : List Char) : takeBytes? (byteLength a) (a ++ b) = some a := by
  induction a with
  | nil => simp [byteLength, takeBytes?]
  | cons c a ih =>
    obtain ⟨n, hn⟩ := Nat.exists_eq_add_of_lt c.utf8Size_pos
    have hsum : byteLength (c :: a) = n + byteLength a + 1 := by
      rw [byteLength, hn]
      omega
    rw [hsum, List.cons_append, takeBytes?, if_pos (by omega)]
    have hrest : n + byteLength a + 1 - c.utf8Size = byteLength a := by omega
    rw [hrest, ih, Option.map_some]

/-- A slice whose ends lie between characters is the text between them. -/
theorem slice?_append (a b c : List Char) :
    slice? (a ++ b ++ c) (byteLength a) (byteLength (a ++ b)) = some b := by
  have hsum := byteLength_append a b
  have hle : byteLength a ≤ byteLength (a ++ b) := by omega
  have hlen : byteLength (a ++ b) - byteLength a = byteLength b := by omega
  rw [slice?, if_pos hle, hlen, List.append_assoc, dropBytes?_append, Option.bind_some,
    takeBytes?_append]

end PolishCalc.Source
