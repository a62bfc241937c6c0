import PolishCalc.Proofs.Grammar

/-! Runs of the reader against the grammar. A run shifts tokens and then stops in one of four ways;
the shifted tokens spell the stack, and what derives an expression is read as that expression. -/
namespace PolishCalc

namespace Reader

inductive Shifts : Reader → List Token → Reader → Prop where
  | refl (r : Reader) : Shifts r [] r
  | step {r s u : Reader} {t : Token} {ts : List Token} :
      r.step t = .shift s → Shifts s ts u → Shifts r (t :: ts) u

theorem Shifts.run_append {r s : Reader} {ts : List Token} (h : Shifts r ts s)
    (rest : List Token) : r.run (ts ++ rest) = s.run rest := by
  induction h with
  | refl r => rfl
  | step hstep _ ih => rw [List.cons_append, run, hstep]; exact ih

inductive Ends (r : Reader) : List Token → Except Fault Expr × List Token → Prop where
  | finish {us rest : List Token} {t : Token} {s : Reader} {e : Expr} :
      Shifts r us s → s.step t = .finish e → Ends r (us ++ t :: rest) (.ok e, rest)
  | refuse {us rest : List Token} {t : Token} {s : Reader} :
      Shifts r us s → s.step t = .refuse →
      Ends r (us ++ t :: rest) (.error ⟨s.refusal t, t⟩, t :: rest)
  | tooDeep {us rest : List Token} {t : Token} {s : Reader} :
      Shifts r us s → s.step t = .tooDeep → Ends r (us ++ t :: rest) (.error ⟨.tooDeep, t⟩, rest)
  | exhausted {us : List Token} {s : Reader} :
      Shifts r us s → Ends r us (.error ⟨s.refusal .exhausted, .exhausted⟩, [])

theorem Ends.cons {r s : Reader} {t : Token} {ts : List Token}
    {result : Except Fault Expr × List Token} (hstep : r.step t = .shift s)
    (h : Ends s ts result) : Ends r (t :: ts) result := by
  cases h with
  | finish hs hf => exact .finish (.step hstep hs) hf
  | refuse hs hf => exact .refuse (.step hstep hs) hf
  | tooDeep hs hf => exact .tooDeep (.step hstep hs) hf
  | exhausted hs => exact .exhausted (.step hstep hs)

theorem run_ends (r : Reader) (ts : List Token) : Ends r ts (r.run ts) := by
  induction ts generalizing r with
  | nil => exact .exhausted (.refl r)
  | cons t ts ih =>
    rw [run]
    cases hstep : r.step t with
    | shift s => exact (ih s).cons hstep
    | finish e => exact .finish (.refl r) hstep
    | refuse => exact .refuse (.refl r) hstep
    | tooDeep => exact .tooDeep (.refl r) hstep

end Reader

inductive SpellsSign : List Token → Option (Sign × Token) → Prop where
  | none : SpellsSign [] none
  | some {t : Token} {sign : Sign} :
      Sign.ofKind? t.kind = some sign → SpellsSign [t] (some (sign, t))

/-- The open applications, innermost first, as the tokens that they came from. -/
inductive SpellsFrames (base : Nat) : List Token → List Frame → Prop where
  | nil : SpellsFrames base [] []
  | cons {ts us vs : List Token} {fs : List Frame} {f : Frame} {opening : Token} :
      SpellsFrames base ts fs → SpellsSign us f.sign → opening.kind = .opening →
      base + fs.length < maxDepth → Operator.ofKind? f.token.kind = some f.operator →
      DerivesAll (base + fs.length + 1) vs f.operands.reverse →
      SpellsFrames base (ts ++ (us ++ opening :: f.token :: vs)) (f :: fs)

inductive Spells : List Token → Reader → Prop where
  | operand {base : Nat} {ts : List Token} {fs : List Frame} :
      SpellsFrames base ts fs → Spells ts ⟨base, fs, .operand⟩
  | signed {base : Nat} {ts : List Token} {fs : List Frame} {t : Token} {sign : Sign} :
      SpellsFrames base ts fs → Sign.ofKind? t.kind = some sign →
      Spells (ts ++ [t]) ⟨base, fs, .signed sign t⟩
  | operator {base : Nat} {ts us : List Token} {fs : List Frame} {opening : Token}
      {sign : Option (Sign × Token)} :
      SpellsFrames base ts fs → SpellsSign us sign → opening.kind = .opening →
      base + fs.length < maxDepth → Spells (ts ++ (us ++ [opening])) ⟨base, fs, .operator sign⟩

def Expr.behind (sign : Option (Sign × Token)) (e : Expr) : Expr :=
  match sign with
  | some (sign, token) => .signed sign token e
  | none => e

theorem Frame.close_eq (f : Frame) :
    f.close = (Expr.apply f.operator f.token f.operands.reverse).behind f.sign := rfl

theorem SpellsSign.derives {d : Nat} {us ts : List Token} {sign : Option (Sign × Token)} {e : Expr}
    (hs : SpellsSign us sign) (h : DerivesUnsigned d ts e) :
    Derives d (us ++ ts) (e.behind sign) := by
  cases hs with
  | none => exact .plain h
  | some hk => exact .signed hk h

namespace Reader

def Step.Sound (base : Nat) (ts : List Token) : Step → Prop
  | .shift s => Spells ts s ∧ s.base = base
  | .finish e => Derives base ts e
  | _ => True

theorem deliver_sound {base : Nat} {ts us : List Token} {fs : List Frame} {e : Expr} (phase : Phase)
    (h : SpellsFrames base ts fs) (he : Derives (base + fs.length) us e) :
    (deliver ⟨base, fs, phase⟩ e).Sound base (ts ++ us) := by
  cases h with
  | nil => exact he
  | @cons ts ws vs fs f opening hfs hsign hopening hdepth hop hall =>
    have hmore := hall.snoc he
    rw [← List.reverse_cons] at hmore
    refine ⟨.operand ?_, rfl⟩
    simpa using SpellsFrames.cons (f := { f with operands := e :: f.operands })
      hfs hsign hopening hdepth hop hmore

theorem enter_sound {base : Nat} {ts us : List Token} {fs : List Frame} {phase : Phase} {t : Token}
    {sign : Option (Sign × Token)} (h : SpellsFrames base ts fs) (hsign : SpellsSign us sign)
    (ht : t.kind = .opening) :
    (enter ⟨base, fs, phase⟩ sign).Sound base (ts ++ (us ++ [t])) := by
  unfold enter
  split
  · rename_i hdepth
    exact ⟨.operator h hsign ht hdepth, rfl⟩
  · trivial

theorem leave_sound {base : Nat} {ts : List Token} {fs : List Frame} {phase : Phase} {t : Token}
    (h : SpellsFrames base ts fs) (ht : t.kind = .closing) :
    (leave ⟨base, fs, phase⟩).Sound base (ts ++ [t]) := by
  cases h with
  | nil => trivial
  | @cons ts us vs fs f opening hfs hsign hopening hdepth hop hall =>
    unfold leave
    dsimp only
    split
    · rename_i e e' es hes
      have htwo : 2 ≤ f.operands.reverse.length := by simp [hes]
      have he := hsign.derives (.apply hdepth hopening hop hall htwo ht)
      rw [← Frame.close_eq] at he
      simpa using deliver_sound phase hfs he
    · trivial

/-- One step keeps the tokens spelling the state, and finishes only with what they derive. -/
theorem step_sound {ts : List Token} {r : Reader} (h : Spells ts r) (t : Token) :
    (r.step t).Sound r.base (ts ++ [t]) := by
  -- One case for each phase; a kind that the phase has no use for is refused, and nothing is to show.
  cases h with
  | @operand base ts fs hfs =>
    unfold step
    dsimp only
    split
    · rename_i hk
      split
      · rename_i value hv
        exact deliver_sound _ hfs (.plain (.number hk hv))
      · trivial
    · rename_i hk
      exact ⟨.signed hfs (by rw [hk]; rfl), rfl⟩
    · rename_i hk
      exact ⟨.signed hfs (by rw [hk]; rfl), rfl⟩
    · rename_i hk
      exact enter_sound hfs .none hk
    · rename_i hk
      exact leave_sound hfs hk
    · trivial
  | @signed base ts fs token sign hfs hsign =>
    rw [List.append_assoc]
    unfold step
    dsimp only
    split
    · rename_i hk
      split
      · rename_i value hv
        exact deliver_sound _ hfs (.signed hsign (.number hk hv))
      · trivial
    · rename_i hk
      exact enter_sound hfs (.some hsign) hk
    · trivial
  | @operator base ts us fs opening sign hfs hsign hopening hdepth =>
    unfold step
    dsimp only
    split
    · rename_i operator hop
      have hnew :=
        SpellsFrames.cons (f := ⟨sign, operator, t, []⟩) hfs hsign hopening hdepth hop .nil
      refine ⟨.operand ?_, rfl⟩
      simpa using hnew
    · trivial

theorem Shifts.spells {r s : Reader} {ts us : List Token} (hs : Shifts r us s) (h : Spells ts r) :
    Spells (ts ++ us) s ∧ s.base = r.base := by
  induction hs generalizing ts with
  | refl r => simpa using h
  | @step r s u t us hstep _ ih =>
    have hsound := step_sound h t
    rw [hstep] at hsound
    obtain ⟨hspells, hbase⟩ := hsound
    obtain ⟨hlast, hlastBase⟩ := ih hspells
    exact ⟨by simpa using hlast, hlastBase.trans hbase⟩

theorem start_spells (base : Nat) : Spells [] (start base) := .operand .nil

end Reader

/-- What is read as an expression is derived from the tokens that were taken. -/
theorem derives_of_readExpr {d : Nat} {tokens rest : List Token} {e : Expr}
    (h : readExpr d tokens = (.ok e, rest)) : ∃ ts, tokens = ts ++ rest ∧ Derives d ts e := by
  have hends := Reader.run_ends (Reader.start d) tokens
  rw [← readExpr, h] at hends
  cases hends with
  | @finish us _ t s _ hs hfinish =>
    obtain ⟨hspells, hbase⟩ := hs.spells (Reader.start_spells d)
    have hsound := Reader.step_sound hspells t
    rw [hfinish, hbase] at hsound
    exact ⟨us ++ [t], by simp, hsound⟩

def Phase.ahead : Option (Sign × Token) → Phase
  | none => .operand
  | some (sign, token) => .signed sign token

namespace Reader

def resume (base : Nat) (fs : List Frame) (e : Expr) (rest : List Token) :
    Except Fault Expr × List Token :=
  match fs with
  | [] => (.ok e, rest)
  | f :: fs => run ⟨base, { f with operands := e :: f.operands } :: fs, .operand⟩ rest

theorem run_cons_of_deliver {r s : Reader} {t : Token} {e : Expr} (h : r.step t = s.deliver e)
    (rest : List Token) : r.run (t :: rest) = resume s.base s.frames e rest := by
  rw [run, h]
  unfold deliver resume
  cases s.frames <;> rfl

theorem step_number {base : Nat} {fs : List Frame} {t : Token} {value : Number}
    (hk : t.kind = .number) (hv : t.literal = some value) (sign : Option (Sign × Token)) :
    step ⟨base, fs, .ahead sign⟩ t =
      deliver ⟨base, fs, .ahead sign⟩ ((Expr.number value t).behind sign) := by
  cases sign <;> simp [step, Phase.ahead, Expr.behind, hk, hv]

theorem step_opening {base : Nat} {fs : List Frame} {t : Token} (hk : t.kind = .opening)
    (hdepth : base + fs.length < maxDepth) (sign : Option (Sign × Token)) :
    step ⟨base, fs, .ahead sign⟩ t = .shift ⟨base, fs, .operator sign⟩ := by
  cases sign <;> simp [step, Phase.ahead, enter, hk, hdepth]

theorem step_operator {base : Nat} {fs : List Frame} {t : Token} {operator : Operator}
    (hk : Operator.ofKind? t.kind = some operator) (sign : Option (Sign × Token)) :
    step ⟨base, fs, .operator sign⟩ t = .shift ⟨base, ⟨sign, operator, t, []⟩ :: fs, .operand⟩ := by
  simp [step, hk]

theorem step_sign {base : Nat} {fs : List Frame} {t : Token} {sign : Sign}
    (hk : Sign.ofKind? t.kind = some sign) :
    step ⟨base, fs, .operand⟩ t = .shift ⟨base, fs, .ahead (some (sign, t))⟩ := by
  cases h : t.kind <;> simp_all [step, Phase.ahead, Sign.ofKind?]

theorem step_closing {base : Nat} {f : Frame} {fs : List Frame} {t : Token}
    (hk : t.kind = .closing) (htwo : 2 ≤ f.operands.length) :
    step ⟨base, f :: fs, .operand⟩ t = deliver ⟨base, fs, .operand⟩ f.close := by
  match hes : f.operands, htwo with
  | _ :: _ :: _, _ => simp [step, leave, hk, hes]

end Reader

mutual

theorem Derives.run_append {d : Nat} {ts : List Token} {e : Expr} :
    Derives d ts e → ∀ (base : Nat) (fs : List Frame) (rest : List Token), base + fs.length = d →
      Reader.run ⟨base, fs, .operand⟩ (ts ++ rest) = Reader.resume base fs e rest
  | .plain h => fun base fs rest hd => h.run_append base fs none rest hd
  | @Derives.signed _ _ _ t sign hs h => by
    intro base fs rest hd
    rw [List.cons_append, Reader.run, Reader.step_sign hs]
    exact h.run_append base fs (some (sign, t)) rest hd

theorem DerivesUnsigned.run_append {d : Nat} {ts : List Token} {e : Expr} :
    DerivesUnsigned d ts e → ∀ (base : Nat) (fs : List Frame) (sign : Option (Sign × Token))
      (rest : List Token), base + fs.length = d →
      Reader.run ⟨base, fs, .ahead sign⟩ (ts ++ rest) =
        Reader.resume base fs (e.behind sign) rest
  | .number hk hv => fun base fs sign rest _ =>
    Reader.run_cons_of_deliver (Reader.step_number hk hv sign) rest
  | @DerivesUnsigned.apply _ _ es _ t _ operator hdepth ho hop hes htwo hc => by
    intro base fs sign rest hd
    subst hd
    have hlength : 2 ≤ (es.reverse ++ []).length := by simpa using htwo
    rw [List.cons_append, List.cons_append, List.append_assoc, Reader.run,
      Reader.step_opening ho hdepth]
    dsimp only
    rw [Reader.run, Reader.step_operator hop]
    dsimp only
    rw [hes.run_append base ⟨sign, operator, t, []⟩ fs _ rfl, List.singleton_append,
      Reader.run_cons_of_deliver (Reader.step_closing hc hlength)]
    simp [Frame.close_eq]

theorem DerivesAll.run_append {d : Nat} {ts : List Token} {es : List Expr} :
    DerivesAll d ts es → ∀ (base : Nat) (f : Frame) (fs : List Frame) (rest : List Token),
      base + fs.length + 1 = d →
      Reader.run ⟨base, f :: fs, .operand⟩ (ts ++ rest) =
        Reader.run ⟨base, { f with operands := es.reverse ++ f.operands } :: fs, .operand⟩ rest
  | .nil => fun _ _ _ _ _ => rfl
  | .cons (e := e) he hes => by
    intro base f fs rest hd
    rw [List.append_assoc, he.run_append base (f :: fs) _ hd, Reader.resume,
      hes.run_append base { f with operands := e :: f.operands } fs rest hd]
    simp

end

theorem Derives.readExpr_append {d : Nat} {ts : List Token} {e : Expr} (h : Derives d ts e)
    (rest : List Token) : readExpr d (ts ++ rest) = (.ok e, rest) := h.run_append d [] rest rfl

theorem readExpr_append_eq_iff {d : Nat} {ts rest : List Token} {e : Expr} :
    readExpr d (ts ++ rest) = (.ok e, rest) ↔ Derives d ts e := by
  constructor
  · intro h
    obtain ⟨us, hus, hderives⟩ := derives_of_readExpr h
    rwa [List.append_cancel_right hus]
  · intro h
    exact h.readExpr_append rest

theorem readProgram_eq_ok {tokens : List Token} {e : Expr} :
    (readProgram tokens).1 = .ok e ↔
      ∃ rest, readExpr 0 tokens = (.ok e, rest) ∧ ∀ t ∈ rest.head?, t.isFinish = true := by
  unfold readProgram
  match readExpr 0 tokens with
  | (.error fault, rest) => simp
  | (.ok f, []) => simp [and_assoc]
  | (.ok f, t :: rest) => by_cases ht : t.isFinish <;> simp [ht, and_assoc]

/-- A stream is read as a program exactly when an expression derives from what stands in front of
the first token that ends the input. -/
theorem readProgram_eq_ok_iff_derives {tokens : List Token} {e : Expr} :
    (readProgram tokens).1 = .ok e ↔ Derives 0 (tokens.takeWhile (!·.isFinish)) e := by
  rw [readProgram_eq_ok]
  constructor
  · rintro ⟨rest, hread, hrest⟩
    obtain ⟨ts, rfl, h⟩ := derives_of_readExpr hread
    rwa [takeWhile_append_of_finish h.not_isFinish hrest]
  · intro h
    refine ⟨tokens.dropWhile (!·.isFinish), ?_, ?_⟩
    · simpa using h.readExpr_append (tokens.dropWhile (!·.isFinish))
    · intro t ht
      have hhead := List.head?_dropWhile_not (!·.isFinish) tokens
      rw [Option.mem_def.mp ht] at hhead
      simpa using hhead

/-- The reader accepts exactly the grammar: inside of any number of applications, with any tokens
behind the expression, and for whole programs. -/
theorem reader_accepts_grammar :
    (∀ (d : Nat) (ts rest : List Token) (e : Expr),
      readExpr d (ts ++ rest) = (.ok e, rest) ↔ Derives d ts e) ∧
    ∀ (tokens : List Token) (e : Expr),
      parse tokens = .ok e ↔ Derives 0 ((withFinish tokens).takeWhile (!·.isFinish)) e :=
  ⟨fun _ _ _ _ => readExpr_append_eq_iff, fun _ _ => readProgram_eq_ok_iff_derives⟩

end PolishCalc
