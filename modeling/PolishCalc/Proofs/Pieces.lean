import PolishCalc.Source.Scan

/-! How pieces fit what stands behind them. The pieces of a text are those that fit, one behind the
other: the first piece of a text always fits the rest, and a text that begins with a piece that fits
is cut behind it. -/
namespace PolishCalc

namespace Piece

def IsStray (c : Char) : Prop :=
  c.isDigit = false ∧ isBlank c = false ∧ Token.Kind.ofChar? c = none

instance (c : Char) : Decidable (IsStray c) :=
  inferInstanceAs (Decidable (c.isDigit = false ∧ isBlank c = false ∧ Token.Kind.ofChar? c = none))

def Fits : Piece → List Char → Prop
  | .symbol kind c, rest =>
    Token.Kind.ofChar? c = some kind ∧ (c = '/' → ∀ d ∈ rest.head?, d ≠ '/' ∧ d ≠ '*')
  | .number whole fraction, rest =>
    whole ≠ [] ∧ (∀ c ∈ whole, c.isDigit = true) ∧ (∀ c ∈ fraction, c.isDigit = true) ∧
      (∀ d ∈ rest.head?, d.isDigit = false) ∧
      (fraction = [] → ∀ d more, rest = '.' :: d :: more → d.isDigit = false)
  | .blank c, _ => isBlank c = true
  | .lineComment body, rest =>
    (∀ c ∈ body, inLineComment c = true) ∧ ∀ d ∈ rest.head?, inLineComment d = false
  | .blockComment body, _ => ¬ ['*', '/'] <:+: body
  | .stray c, _ => IsStray c
  | .unclosed body, rest => rest = [] ∧ ¬ ['*', '/'] <:+: body

theorem splitClose?_eq_none_iff {cs : List Char} :
    splitClose? cs = none ↔ ¬ ['*', '/'] <:+: cs := by
  fun_induction splitClose? cs with
  | case1 rest => simp [List.infix_cons_iff]
  | case2 c cs hne ih =>
    have hbegins : ¬ ['*', '/'] <+: c :: cs := by
      rintro ⟨rest, hrest⟩
      obtain ⟨rfl, rfl⟩ := List.cons.inj hrest
      exact hne _ rfl rfl
    rw [List.infix_cons_iff, Option.map_eq_none_iff, ih]
    simp [hbegins]
  | case3 => simp

theorem not_close_of_splitClose? {cs body rest : List Char}
    (h : splitClose? cs = some (body, rest)) : ¬ ['*', '/'] <:+: body := by
  fun_induction splitClose? cs generalizing body rest with
  | case1 => simp_all
  | case2 c cs hne ih =>
    obtain ⟨⟨b, r⟩, hb, he⟩ := Option.map_eq_some_iff.1 h
    simp only [Prod.mk.injEq] at he
    obtain ⟨rfl, rfl⟩ := he
    rw [List.infix_cons_iff]
    rintro (⟨more, hmore⟩ | hinside)
    · obtain ⟨rfl, hb'⟩ := List.cons.inj hmore
      have hcs := splitClose?_eq hb
      rw [← hb'] at hcs
      exact hne _ rfl hcs
    · exact ih hb hinside
  | case3 => simp at h

theorem splitClose?_append {body : List Char} (h : ¬ ['*', '/'] <:+: body) (rest : List Char) :
    splitClose? (body ++ '*' :: '/' :: rest) = some (body, rest) := by
  induction body with
  | nil => rfl
  | cons c body ih =>
    rw [List.infix_cons_iff, not_or] at h
    rw [List.cons_append, splitClose?, ih h.2]
    · rfl
    · rintro more rfl heq
      cases body with
      | nil => simp at heq
      | cons d body =>
        obtain ⟨rfl, -⟩ := List.cons.inj heq
        exact h.1 ⟨body, rfl⟩

theorem not_of_mem_head?_dropWhile {p : Char → Bool} {cs : List Char} {d : Char}
    (h : d ∈ (cs.dropWhile p).head?) : p d = false := by
  have hhead := List.head?_dropWhile_not p cs
  rw [Option.mem_def.mp h] at hhead
  exact hhead

theorem takeWhile_append_of_stop {p : Char → Bool} {cs rest : List Char}
    (h : ∀ c ∈ cs, p c = true) (hrest : ∀ d ∈ rest.head?, p d = false) :
    (cs ++ rest).takeWhile p = cs := by
  rw [List.takeWhile_append_of_pos h]
  cases rest with
  | nil => simp
  | cons d rest => simp [hrest d rfl]

theorem dropWhile_append_of_stop {p : Char → Bool} {cs rest : List Char}
    (h : ∀ c ∈ cs, p c = true) (hrest : ∀ d ∈ rest.head?, p d = false) :
    (cs ++ rest).dropWhile p = rest := by
  rw [List.dropWhile_append_of_pos h]
  cases rest with
  | nil => rfl
  | cons d rest => simp [hrest d rfl]

theorem fits_cutNumber {c : Char} (hc : c.isDigit = true) (cs : List Char) :
    (cutNumber c cs).1.Fits (cutNumber c cs).2 := by
  have hwhole : ∀ d ∈ c :: cs.takeWhile Char.isDigit, d.isDigit = true := by
    intro d hd
    rcases List.mem_cons.mp hd with rfl | hd
    · exact hc
    · exact List.all_eq_true.mp List.all_takeWhile d hd
  unfold cutNumber
  dsimp only
  split
  · rename_i d rest heq
    split
    · rename_i hd
      refine ⟨by simp, hwhole, ?_, fun d hd => not_of_mem_head?_dropWhile hd, by simp⟩
      intro d' hd'
      rcases List.mem_cons.mp hd' with rfl | hd'
      · exact hd
      · exact List.all_eq_true.mp List.all_takeWhile d' hd'
    · rename_i hd
      refine ⟨by simp, hwhole, by simp, ?_, ?_⟩
      · rintro d' ⟨⟩
        rfl
      · rintro - d' more heq'
        obtain ⟨rfl, -⟩ : d = d' ∧ rest = more := by simpa using heq'
        simpa using hd
  · rename_i hne
    refine ⟨by simp, hwhole, by simp, fun d hd => not_of_mem_head?_dropWhile hd, ?_⟩
    rintro - d more heq
    exact absurd heq (hne d more)

theorem fits_single {c : Char} {cs : List Char} (hc : c.isDigit = false)
    (hcs : c = '/' → ∀ d ∈ cs.head?, d ≠ '/' ∧ d ≠ '*') : (single c).Fits cs := by
  unfold single
  split
  · rename_i hblank
    exact hblank
  · rename_i hblank
    split
    · rename_i kind hkind
      exact ⟨hkind, hcs⟩
    · rename_i hkind
      exact ⟨hc, by simpa using hblank, hkind⟩

theorem fits_cut (c : Char) (cs : List Char) : (cut c cs).1.Fits (cut c cs).2 := by
  unfold cut
  split
  · rename_i hc
    exact fits_cutNumber hc cs
  rename_i hc
  split
  · exact ⟨fun d hd => List.all_eq_true.mp List.all_takeWhile d hd,
      fun d hd => not_of_mem_head?_dropWhile hd⟩
  · split
    · rename_i body rest h
      exact not_close_of_splitClose? h
    · rename_i h
      exact ⟨rfl, splitClose?_eq_none_iff.mp h⟩
  · rename_i hline hblock
    refine fits_single (by simpa using hc) ?_
    rintro rfl d hd
    obtain ⟨more, rfl⟩ := List.head?_eq_some_iff.mp hd
    constructor
    · rintro rfl
      exact hline more rfl rfl
    · rintro rfl
      exact hblock more rfl rfl

theorem not_isDigit_of_ofChar? {c : Char} {kind : Token.Kind}
    (h : Token.Kind.ofChar? c = some kind) : c.isDigit = false ∧ isBlank c = false := by
  unfold Token.Kind.ofChar? at h
  split at h
  all_goals first | exact ⟨rfl, rfl⟩ | simp at h

theorem not_isDigit_of_isBlank {c : Char} (h : isBlank c = true) :
    c.isDigit = false ∧ c ≠ '/' := by
  simp only [isBlank, Bool.or_eq_true, decide_eq_true_eq] at h
  rcases h with ((rfl | rfl) | rfl) | rfl <;> decide

theorem cut_eq_single {c : Char} {cs : List Char} (hc : c.isDigit = false)
    (hcs : c = '/' → ∀ d ∈ cs.head?, d ≠ '/' ∧ d ≠ '*') : cut c cs = (single c, cs) := by
  unfold cut
  rw [if_neg (by simp [hc])]
  split
  · exact absurd rfl (hcs rfl _ rfl).1
  · exact absurd rfl (hcs rfl _ rfl).2
  · rfl

theorem cutNumber_append {c : Char} {cs fraction rest : List Char}
    (h : (number (c :: cs) fraction).Fits rest) :
    cutNumber c (cs ++ ((if fraction.isEmpty then [] else '.' :: fraction) ++ rest)) =
      (number (c :: cs) fraction, rest) := by
  obtain ⟨-, hwhole, hfraction, hrest, hpoint⟩ := h
  have hcs : ∀ d ∈ cs, d.isDigit = true := fun d hd => hwhole d (List.mem_cons_of_mem c hd)
  unfold cutNumber
  cases fraction with
  | nil =>
    simp only [List.isEmpty_nil, if_true, List.nil_append]
    rw [takeWhile_append_of_stop hcs hrest, dropWhile_append_of_stop hcs hrest]
    split
    · rename_i d more
      simp [hpoint rfl d more rfl]
    · rfl
  | cons d fraction =>
    have hd : d.isDigit = true := hfraction d (by simp)
    have hfraction' : ∀ d' ∈ fraction, d'.isDigit = true :=
      fun d' hd' => hfraction d' (List.mem_cons_of_mem d hd')
    have hstop : ∀ d' ∈ ('.' :: d :: fraction ++ rest).head?, d'.isDigit = false := by
      rintro d' ⟨⟩
      rfl
    simp only [List.isEmpty_cons, Bool.false_eq_true, if_false]
    rw [takeWhile_append_of_stop hcs hstop, dropWhile_append_of_stop hcs hstop]
    simp only [List.cons_append, hd, if_true]
    rw [takeWhile_append_of_stop hfraction' hrest, dropWhile_append_of_stop hfraction' hrest]

/-- A text that begins with a piece that fits is cut behind that piece. -/
theorem cut_append_of_fits {piece : Piece} {c : Char} {cs rest : List Char} (h : piece.Fits rest)
    (htext : piece.text = c :: cs) : cut c (cs ++ rest) = (piece, rest) := by
  cases piece with
  | symbol kind c' =>
    obtain ⟨rfl, rfl⟩ : c' = c ∧ [] = cs := by simpa [text] using htext
    obtain ⟨hc, hblank⟩ := not_isDigit_of_ofChar? h.1
    rw [List.nil_append, cut_eq_single hc h.2, single, if_neg (by simp [hblank]), h.1]
  | number whole fraction =>
    cases whole with
    | nil => exact absurd rfl h.1
    | cons c' whole =>
      obtain ⟨rfl, rfl⟩ :
          c' = c ∧ whole ++ (if fraction.isEmpty then [] else '.' :: fraction) = cs :=
        List.cons.inj htext
      unfold cut
      rw [if_pos (h.2.1 c' (by simp)), List.append_assoc, cutNumber_append h]
  | blank c' =>
    obtain ⟨rfl, rfl⟩ : c' = c ∧ [] = cs := by simpa [text] using htext
    obtain ⟨hc, hne⟩ := not_isDigit_of_isBlank h
    rw [List.nil_append, cut_eq_single hc (fun he => absurd he hne), single,
      if_pos (show isBlank c' = true from h)]
  | lineComment body =>
    obtain ⟨rfl, rfl⟩ : '/' = c ∧ '/' :: body = cs := by simpa [text] using htext
    have hcut : cut '/' ('/' :: (body ++ rest)) =
        (.lineComment ((body ++ rest).takeWhile inLineComment),
          (body ++ rest).dropWhile inLineComment) := rfl
    rw [List.cons_append, hcut, takeWhile_append_of_stop h.1 h.2, dropWhile_append_of_stop h.1 h.2]
  | blockComment body =>
    obtain ⟨rfl, rfl⟩ : '/' = c ∧ '*' :: (body ++ ['*', '/']) = cs := by simpa [text] using htext
    have hclose := splitClose?_append h rest
    simp [cut, hclose]
  | stray c' =>
    obtain ⟨rfl, rfl⟩ : c' = c ∧ [] = cs := by simpa [text] using htext
    obtain ⟨hc, hblank, hkind⟩ := h
    have hne : c' ≠ '/' := by
      rintro rfl
      simp [Token.Kind.ofChar?] at hkind
    rw [List.nil_append, cut_eq_single hc (fun he => absurd he hne), single,
      if_neg (by simp [hblank]), hkind]
  | unclosed body =>
    obtain ⟨rfl, rfl⟩ : '/' = c ∧ '*' :: body = cs := by simpa [text] using htext
    obtain ⟨rfl, hclose⟩ := h
    simp [cut, splitClose?_eq_none_iff.mpr hclose]

theorem text_ne_nil_of_fits {piece : Piece} {rest : List Char} (h : piece.Fits rest) :
    piece.text ≠ [] := by
  cases piece with
  | number whole fraction =>
    intro hnil
    exact h.1 (List.append_eq_nil_iff.mp hnil).1
  | _ => simp [text]

end Piece

theorem pieces_append_of_fits {piece : Piece} {rest : List Char} (h : piece.Fits rest) :
    pieces (piece.text ++ rest) = piece :: pieces rest := by
  obtain ⟨c, cs, htext⟩ := List.exists_cons_of_ne_nil (Piece.text_ne_nil_of_fits h)
  rw [htext, List.cons_append, pieces_cons, Piece.cut_append_of_fits h htext]

theorem exists_fits_of_mem_pieces {text : List Char} {piece : Piece} (h : piece ∈ pieces text) :
    ∃ rest, piece.Fits rest := by
  fun_induction pieces text with
  | case1 => simp at h
  | case2 c cs ih =>
    rcases List.mem_cons.mp h with rfl | h
    · exact ⟨_, Piece.fits_cut c cs⟩
    · exact ih h

theorem text_eq_of_pieces_eq {text rest : List Char} {ps : List Piece}
    (h : pieces text = ps ++ pieces rest) : text = ps.flatMap Piece.text ++ rest := by
  rw [← flatMap_text_pieces text, h, List.flatMap_append, flatMap_text_pieces]

namespace Piece

theorem token?_number {whole fraction : List Char} {value : Number}
    (h : Decimal.read? whole fraction = some value) (p : Position) :
    (number whole fraction).token? p =
      some ((number whole fraction).token .number (some value) p) := by
  unfold token?
  simp only [h]

theorem token?_outOfRange {whole fraction : List Char} (h : Decimal.read? whole fraction = none)
    (p : Position) :
    (number whole fraction).token? p = some ((number whole fraction).token .stray none p) := by
  unfold token?
  simp only [h]

/-- The token of a piece is a symbol, a number that was read, or the stray token of a fault. -/
theorem token?_cases {piece : Piece} {p : Position} {t : Token} (h : piece.token? p = some t) :
    (∃ kind c, piece = symbol kind c ∧ t = piece.token kind none p) ∨
    (∃ whole fraction value, piece = number whole fraction ∧
      Decimal.read? whole fraction = some value ∧ t = piece.token .number (some value) p) ∨
    piece.cause? ≠ none ∧ t = piece.token .stray none p := by
  cases piece with
  | symbol kind c => exact .inl ⟨kind, c, rfl, (Option.some.inj h).symm⟩
  | number whole fraction =>
    cases hread : Decimal.read? whole fraction with
    | some value =>
      rw [token?_number hread] at h
      exact .inr (.inl ⟨whole, fraction, value, rfl, hread, (Option.some.inj h).symm⟩)
    | none =>
      rw [token?_outOfRange hread] at h
      exact .inr (.inr ⟨by simp [cause?, hread], (Option.some.inj h).symm⟩)
  | stray c => exact .inr (.inr ⟨by simp [cause?], (Option.some.inj h).symm⟩)
  | unclosed body => exact .inr (.inr ⟨by simp [cause?], (Option.some.inj h).symm⟩)
  | _ => cases h

def tokens (p : Position) (ps : List Piece) : List Token :=
  (place p ps).filterMap fun (piece, p) => piece.token? p

@[simp] theorem tokens_nil (p : Position) : tokens p [] = [] := rfl

theorem tokens_cons (p : Position) (piece : Piece) (ps : List Piece) :
    tokens p (piece :: ps) = (piece.token? p).toList ++ tokens (p.after piece.text) ps := by
  unfold tokens
  cases h : piece.token? p <;> simp [place, h]

theorem tokens_append (p : Position) (ps qs : List Piece) :
    tokens p (ps ++ qs) = tokens p ps ++ tokens (p.after (ps.flatMap text)) qs := by
  induction ps generalizing p with
  | nil => rfl
  | cons piece ps ih =>
    rw [List.cons_append, tokens_cons, tokens_cons, ih, List.append_assoc, List.flatMap_cons,
      Position.after_append]

end Piece

theorem tokens_scanText (text : List Char) :
    (scanText text).tokens =
      Piece.tokens .start (pieces text) ++ [Token.finish (Position.start.after text)] := rfl

end PolishCalc
