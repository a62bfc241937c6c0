import PolishCalc.Proofs.Consumption

/-! Where a fault of parsing is found. Every state that the reader can reach has a completion, so the
tokens that were taken can always be continued to a program; the token that is refused rules out all
continuations. -/
namespace PolishCalc

def Viable (ts : List Token) : Prop := ∃ more e, parse (ts ++ more) = .ok e

theorem exists_withFinish_eq_append (tokens : List Token) :
    ∃ more, withFinish tokens = tokens ++ more := by
  unfold withFinish
  split
  · split
    · exact ⟨[], by simp⟩
    · exact ⟨_, rfl⟩
  · rename_i h
    rw [List.getLast?_eq_none_iff.mp h]
    exact ⟨_, rfl⟩

theorem exists_withFinish_eq_concat (tokens : List Token) :
    ∃ ts t, withFinish tokens = ts ++ [t] ∧ t.isFinish = true := by
  unfold withFinish
  split
  · rename_i t h
    split
    · rename_i ht
      obtain ⟨ts, rfl⟩ := List.getLast?_eq_some_iff.mp h
      exact ⟨ts, t, rfl, ht⟩
    · exact ⟨tokens, _, rfl, rfl⟩
  · exact ⟨[], _, rfl, rfl⟩

theorem takeWhile_withFinish {ts : List Token} (h : ∀ t ∈ ts, t.isFinish = false) :
    (withFinish ts).takeWhile (!·.isFinish) = ts := by
  unfold withFinish
  split
  · rename_i t hlast
    rw [h t (List.mem_of_getLast? hlast), if_neg Bool.false_ne_true]
    exact takeWhile_append_of_finish h (by simp [Token.finish, Token.isFinish])
  · rename_i hlast
    rw [List.getLast?_eq_none_iff.mp hlast]
    rfl

theorem Derives.parse_eq_ok {ts : List Token} {e : Expr} (h : Derives 0 ts e) :
    parse ts = .ok e := by
  rw [parse, readProgram_eq_ok_iff_derives, takeWhile_withFinish h.not_isFinish]
  exact h

def Token.fillNumber : Token := ⟨.number, "0", some (.finite false .zero), .start⟩

def Token.fillOperator : Token := ⟨.plus, "+", none, .start⟩

def Token.fillClosing : Token := ⟨.closing, ")", none, .start⟩

theorem derives_fillNumber (d : Nat) :
    Derives d [.fillNumber] (.number (.finite false .zero) .fillNumber) := .plain (.number rfl rfl)

/-- Two numbers more are operands enough for an application to be closed. -/
theorem DerivesAll.completes {d : Nat} {ts : List Token} {es : List Expr} {opening t : Token}
    {operator : Operator} (h : DerivesAll (d + 1) ts es) (hd : d < maxDepth)
    (ho : opening.kind = .opening) (hop : Operator.ofKind? t.kind = some operator) :
    ∃ more e, DerivesUnsigned d (opening :: t :: (ts ++ more)) e := by
  have hmore := (h.snoc (derives_fillNumber _)).snoc (derives_fillNumber _)
  have hclosed : DerivesUnsigned d (opening :: t :: (_ ++ [.fillClosing])) _ :=
    .apply hd ho hop hmore (by simp) rfl
  exact ⟨[.fillNumber, .fillNumber, .fillClosing], _, by simpa using hclosed⟩

theorem SpellsFrames.completes {base : Nat} {ts us : List Token} {fs : List Frame} {e : Expr}
    (h : SpellsFrames base ts fs) (he : Derives (base + fs.length) us e) :
    ∃ more e', Derives base (ts ++ (us ++ more)) e' := by
  induction h generalizing us e with
  | nil => exact ⟨[], e, by simpa using he⟩
  | @cons ts ws vs fs f opening hfs hsign hopening hdepth hop hall ih =>
    obtain ⟨more, g, hg⟩ := (hall.snoc he).completes hdepth hopening hop
    obtain ⟨more', e', h'⟩ := ih (hsign.derives hg)
    exact ⟨more ++ more', e', by simpa using h'⟩

/-- Any tokens that spell a state of the reader begin an expression. -/
theorem Spells.completes {ts : List Token} {r : Reader} (h : Spells ts r) :
    ∃ more e, Derives r.base (ts ++ more) e := by
  cases h with
  | operand hfs =>
    obtain ⟨more, e, he⟩ := hfs.completes (derives_fillNumber _)
    exact ⟨_, e, he⟩
  | @signed base ts fs t sign hfs hsign =>
    have hnumber : Derives (base + fs.length) [t, .fillNumber] _ := .signed hsign (.number rfl rfl)
    obtain ⟨more, e, he⟩ := hfs.completes hnumber
    exact ⟨.fillNumber :: more, e, by simpa using he⟩
  | @operator base ts us fs opening sign hfs hsign hopening hdepth =>
    have hplus : Operator.ofKind? Token.fillOperator.kind = some .add := rfl
    obtain ⟨more, g, hg⟩ := DerivesAll.nil.completes hdepth hopening hplus
    obtain ⟨more', e, he⟩ := hfs.completes (hsign.derives hg)
    exact ⟨.fillOperator :: (more ++ more'), e, by simpa using he⟩

theorem Derives.viable {ts : List Token} {e : Expr} (h : Derives 0 ts e) : Viable ts :=
  ⟨[], e, by simpa using h.parse_eq_ok⟩

theorem not_viable {ts : List Token}
    (h : ∀ more e, (readProgram (ts ++ more)).1 ≠ .ok e) : ¬ Viable ts := by
  rintro ⟨more, e, hok⟩
  obtain ⟨more', heq⟩ := exists_withFinish_eq_append (ts ++ more)
  rw [parse, heq, List.append_assoc] at hok
  exact h _ e hok

namespace Reader

theorem Shifts.viable {ts : List Token} {s : Reader} (h : Shifts (start 0) ts s) : Viable ts := by
  obtain ⟨hspells, hbase⟩ := h.spells (start_spells 0)
  obtain ⟨more, e, he⟩ := hspells.completes
  rw [hbase] at he
  exact ⟨more, e, he.parse_eq_ok⟩

theorem Shifts.not_viable {ts : List Token} {s : Reader} {t : Token} (h : Shifts (start 0) ts s)
    (hstop : s.step t = .refuse ∨ s.step t = .tooDeep) : ¬ Viable (ts ++ [t]) := by
  apply PolishCalc.not_viable
  intro more e hok
  obtain ⟨rest, hread, -⟩ := readProgram_eq_ok.mp hok
  rw [List.append_assoc, readExpr, h.run_append, List.singleton_append, run] at hread
  cases hstop with
  | inl hrefuse => simp [hrefuse] at hread
  | inr hdeep => simp [hdeep] at hread

end Reader

theorem Derives.not_viable {ts : List Token} {e : Expr} {t : Token} (h : Derives 0 ts e)
    (ht : t.isFinish = false) : ¬ Viable (ts ++ [t]) := by
  apply PolishCalc.not_viable
  intro more e' hok
  obtain ⟨rest, hread, hrest⟩ := readProgram_eq_ok.mp hok
  rw [List.append_assoc, h.readExpr_append] at hread
  obtain ⟨-, rfl⟩ := Prod.mk.inj hread
  simp [ht] at hrest

inductive FailsAt : List Token → Fault → Prop where
  | refused {ts rest : List Token} {t : Token} {s : Reader} :
      Reader.Shifts (.start 0) ts s → s.step t = .refuse →
      FailsAt (ts ++ t :: rest) ⟨s.refusal t, t⟩
  | tooDeep {ts rest : List Token} {t : Token} {s : Reader} :
      Reader.Shifts (.start 0) ts s → s.step t = .tooDeep → FailsAt (ts ++ t :: rest) ⟨.tooDeep, t⟩
  | trailing {ts rest : List Token} {t : Token} {e : Expr} :
      Derives 0 ts e → t.isFinish = false → FailsAt (ts ++ t :: rest) ⟨.trailingTokens, t⟩

theorem readProgram_failsAt {tokens : List Token} {fault : Fault} {last : Token}
    (hlast : last ∈ tokens) (hfinish : last.isFinish = true)
    (h : (readProgram tokens).1 = .error fault) : FailsAt tokens fault := by
  obtain h | ⟨e, t, rest, hread, ht, rfl⟩ := readProgram_eq_error h
  · have hends := Reader.run_ends (Reader.start 0) tokens
    rw [← readExpr] at hends
    generalize readExpr 0 tokens = result at h hends
    cases hends with
    | finish hs hstop => cases h
    | refuse hs hstop =>
      obtain rfl := Except.error.inj h
      exact .refused hs hstop
    | tooDeep hs hstop =>
      obtain rfl := Except.error.inj h
      exact .tooDeep hs hstop
    | exhausted hs => simp [hs.not_isFinish last hlast] at hfinish
  · obtain ⟨ts, rfl, hts⟩ := derives_of_readExpr hread
    exact .trailing hts ht

theorem readProgram_error {tokens : List Token} {fault : Fault} {last : Token}
    (hlast : last ∈ tokens) (hfinish : last.isFinish = true)
    (h : (readProgram tokens).1 = .error fault) :
    ∃ ts rest, tokens = ts ++ fault.token :: rest ∧ Viable ts ∧ ¬ Viable (ts ++ [fault.token]) := by
  cases readProgram_failsAt hlast hfinish h with
  | refused hs hstop => exact ⟨_, _, rfl, hs.viable, hs.not_viable (.inl hstop)⟩
  | tooDeep hs hstop => exact ⟨_, _, rfl, hs.viable, hs.not_viable (.inr hstop)⟩
  | trailing hts ht => exact ⟨_, _, rfl, hts.viable, hts.not_viable ht⟩

theorem readProgram_snd_ne_nil {tokens : List Token} {last : Token} (hlast : last ∈ tokens)
    (hfinish : last.isFinish = true) : (readProgram tokens).2 ≠ [] := by
  intro hnil
  obtain ⟨taken, htakes⟩ := readProgram_takes tokens
  have hsplit := htakes.split
  rw [hnil, List.append_nil] at hsplit
  simp [htakes.not_isFinish last (hsplit ▸ hlast)] at hfinish

/-- A fault of parsing names the first token that no program can have at its place: what stands in
front of the token begins a program, and with the token it begins none. The token is one of the
input; the stream is never exhausted. -/
theorem fault_at_first_unviable_token {tokens : List Token} {fault : Fault}
    (h : parse tokens = .error fault) :
    (∃ i, (withFinish tokens)[i]? = some fault.token ∧ Viable ((withFinish tokens).take i) ∧
      ¬ Viable ((withFinish tokens).take (i + 1))) ∧
    (readProgram (withFinish tokens)).2 ≠ [] := by
  obtain ⟨ts, last, heq, hfinish⟩ := exists_withFinish_eq_concat tokens
  have hlast : last ∈ withFinish tokens := by simp [heq]
  refine ⟨?_, readProgram_snd_ne_nil hlast hfinish⟩
  obtain ⟨us, rest, hus, hviable, hnot⟩ := readProgram_error hlast hfinish h
  have htake : (us ++ fault.token :: rest).take (us.length + 1) = us ++ [fault.token] := by
    rw [List.take_length_add_append]
    rfl
  rw [hus]
  exact ⟨us.length, by simp, by simpa using hviable, by rwa [htake]⟩

theorem fault_at_closing_behind_one_operand :
    let closing : Token := ⟨.closing, ")", none, ⟨1, 5⟩⟩
    let tokens : List Token := [⟨.opening, "(", none, ⟨1, 1⟩⟩, ⟨.plus, "+", none, ⟨1, 2⟩⟩,
      ⟨.number, "0", some (.finite false .zero), ⟨1, 4⟩⟩, closing]
    parse tokens = .error ⟨.tooFewOperands, closing⟩ ∧
    (∃ i, (withFinish tokens)[i]? = some closing ∧ Viable ((withFinish tokens).take i) ∧
      ¬ Viable ((withFinish tokens).take (i + 1))) ∧
    (readProgram (withFinish tokens)).2 ≠ [] := by
  intro closing tokens
  have h : parse tokens = .error ⟨.tooFewOperands, closing⟩ := rfl
  exact ⟨h, fault_at_first_unviable_token h⟩

end PolishCalc
