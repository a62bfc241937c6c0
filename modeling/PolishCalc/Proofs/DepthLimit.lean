import PolishCalc.Proofs.Blame

/-! The limit on depth. The depth of a reader is the balance of the parentheses that it has taken, so
that the limit is met exactly at the opening parenthesis where the balance reaches it. Inside of more
applications a reading does nothing but meet the limit earlier. -/
namespace PolishCalc

def openBehind (d : Int) (taken : List Token) : Int :=
  d + taken.countP (·.kind = .opening) - taken.countP (·.kind = .closing)

section Balance
variable (d : Int) {t : Token}

theorem openBehind_nil : openBehind d [] = d := by simp [openBehind]

theorem openBehind_cons (t : Token) (ts : List Token) :
    openBehind d (t :: ts) = openBehind (openBehind d [t]) ts := by
  simp only [openBehind, List.countP_cons, List.countP_nil]
  omega

theorem openBehind_opening (hk : t.kind = .opening) : openBehind d [t] = d + 1 := by
  simp [openBehind, hk]

theorem openBehind_closing (hk : t.kind = .closing) : openBehind d [t] = d - 1 := by
  simp [openBehind, hk]

theorem openBehind_other (hopening : t.kind ≠ .opening) (hclosing : t.kind ≠ .closing) :
    openBehind d [t] = d := by
  simp [openBehind, hopening, hclosing]

end Balance

def Shallow (d : Nat) (taken : List Token) : Prop :=
  ∀ before t after, taken = before ++ t :: after → t.kind = .opening → openBehind d before < 256

theorem Shallow.concat {d : Nat} {ts : List Token} {t : Token} (h : Shallow d ts)
    (ht : t.kind ≠ .opening) : Shallow d (ts ++ [t]) := by
  intro before u after heq hu
  rcases List.eq_nil_or_concat after with rfl | ⟨after, v, rfl⟩
  · obtain ⟨-, rfl⟩ : ts = before ∧ t = u := by simpa using List.append_inj' heq rfl
    exact absurd hu ht
  · rw [List.concat_eq_append, ← List.cons_append, ← List.append_assoc] at heq
    exact h before u after (List.append_inj' heq rfl).1 hu

namespace Reader

/-- How many applications are open. One has been opened when its operator is still to come. -/
def depth (r : Reader) : Nat :=
  match r.phase with
  | .operator _ => r.base + r.frames.length + 1
  | _ => r.base + r.frames.length

structure Shifted (r : Reader) (t : Token) (s : Reader) : Prop where
  base : s.base = r.base
  depth : (s.depth : Int) = openBehind r.depth [t]
  shallow : t.kind = .opening → r.depth < maxDepth

section Step
variable {base : Nat} {fs : List Frame} {phase : Phase} {s : Reader} {t : Token}

theorem Shifted.of_other (hbase : s.base = base) (hdepth : s.depth = Reader.depth ⟨base, fs, phase⟩)
    (hopening : t.kind ≠ .opening) (hclosing : t.kind ≠ .closing) :
    Shifted ⟨base, fs, phase⟩ t s where
  base := hbase
  depth := by rw [openBehind_other _ hopening hclosing, hdepth]
  shallow hk := absurd hk hopening

theorem shift_of_deliver {e : Expr} (h : deliver ⟨base, fs, phase⟩ e = .shift s) :
    s.base = base ∧ s.depth = base + fs.length := by
  cases fs with
  | nil => cases h
  | cons f fs =>
    cases h
    exact ⟨rfl, rfl⟩

theorem shifted_of_enter {sign : Option (Sign × Token)}
    (hphase : depth ⟨base, fs, phase⟩ = base + fs.length) (hk : t.kind = .opening)
    (h : enter ⟨base, fs, phase⟩ sign = .shift s) : Shifted ⟨base, fs, phase⟩ t s := by
  unfold enter at h
  split at h
  · rename_i hshallow
    cases h
    refine ⟨rfl, ?_, fun _ => by rwa [hphase]⟩
    rw [openBehind_opening _ hk, hphase]
    rfl
  · cases h

theorem shifted_of_leave (hk : t.kind = .closing) (h : leave ⟨base, fs, .operand⟩ = .shift s) :
    Shifted ⟨base, fs, .operand⟩ t s := by
  cases fs with
  | nil => cases h
  | cons f fs =>
    match hoperands : f.operands with
    | [] => simp [leave, hoperands] at h
    | [_] => simp [leave, hoperands] at h
    | _ :: _ :: _ =>
      have hdeliver : deliver ⟨base, fs, .operand⟩ f.close = .shift s := by
        simpa [leave, hoperands] using h
      obtain ⟨hbase, hdepth⟩ := shift_of_deliver hdeliver
      refine ⟨hbase, ?_, by simp [hk]⟩
      rw [openBehind_closing _ hk, hdepth]
      dsimp only [depth, List.length_cons]
      omega

theorem shifted_of_step {r : Reader} (h : r.step t = .shift s) : Shifted r t s := by
  obtain ⟨base, fs, phase⟩ := r
  cases phase with
  | operand =>
    cases hk : t.kind with
    | number =>
      cases hvalue : t.literal with
      | none => simp [step, hk, hvalue] at h
      | some value =>
        obtain ⟨hbase, hdepth⟩ := shift_of_deliver (by simpa [step, hk, hvalue] using h)
        exact .of_other hbase hdepth (by simp [hk]) (by simp [hk])
    | plus =>
      cases (by simpa [step, hk] using h : _ = s)
      exact .of_other rfl rfl (by simp [hk]) (by simp [hk])
    | minus =>
      cases (by simpa [step, hk] using h : _ = s)
      exact .of_other rfl rfl (by simp [hk]) (by simp [hk])
    | opening => exact shifted_of_enter rfl hk (by simpa [step, hk] using h)
    | closing => exact shifted_of_leave hk (by simpa [step, hk] using h)
    | _ => simp [step, hk] at h
  | signed sign token =>
    cases hk : t.kind with
    | number =>
      cases hvalue : t.literal with
      | none => simp [step, hk, hvalue] at h
      | some value =>
        obtain ⟨hbase, hdepth⟩ := shift_of_deliver (by simpa [step, hk, hvalue] using h)
        exact .of_other hbase hdepth (by simp [hk]) (by simp [hk])
    | opening => exact shifted_of_enter rfl hk (by simpa [step, hk] using h)
    | _ => simp [step, hk] at h
  | operator sign =>
    cases hop : Operator.ofKind? t.kind with
    | none => simp [step, hop] at h
    | some operator =>
      cases (by simpa [step, hop] using h : _ = s)
      refine .of_other rfl rfl ?_ ?_ <;> intro hk <;> simp [hk, Operator.ofKind?] at hop

/-- The limit is met only with all its applications open. -/
theorem depth_of_step_tooDeep {r : Reader} (h : r.step t = .tooDeep) : maxDepth ≤ r.depth := by
  have hk := kind_of_step_tooDeep h
  have henter {sign : Option (Sign × Token)} (h : r.enter sign = .tooDeep) :
      maxDepth ≤ r.base + r.frames.length := by
    unfold enter at h
    split at h
    · cases h
    · omega
  obtain ⟨base, fs, phase⟩ := r
  cases phase with
  | operand => exact henter (by simpa [step, hk] using h)
  | signed sign token => exact henter (by simpa [step, hk] using h)
  | operator sign => simp [step, hk, Operator.ofKind?] at h

theorem not_opening_of_step_finish {r : Reader} {e : Expr} (h : r.step t = .finish e) :
    t.kind ≠ .opening := by
  intro hk
  have henter (sign : Option (Sign × Token)) : r.enter sign ≠ .finish e := by
    unfold enter
    split <;> simp
  obtain ⟨base, fs, phase⟩ := r
  cases phase with
  | operand => exact henter none (by simpa [step, hk] using h)
  | signed sign token => exact henter (some (sign, token)) (by simpa [step, hk] using h)
  | operator sign => simp [step, hk, Operator.ofKind?] at h

end Step

theorem Shifts.depth_eq {r s : Reader} {ts : List Token} (h : Shifts r ts s) :
    (s.depth : Int) = openBehind r.depth ts := by
  induction h with
  | refl r => rw [openBehind_nil]
  | step hstep _ ih => rw [ih, (shifted_of_step hstep).depth, ← openBehind_cons]

theorem Shifts.shallow {r s : Reader} {ts : List Token} (h : Shifts r ts s) :
    Shallow r.depth ts := by
  induction h with
  | refl r =>
    intro before t after heq
    simp at heq
  | @step r s u t ts hstep _ ih =>
    obtain ⟨-, hdepth, hshallow⟩ := shifted_of_step hstep
    intro before v after heq hv
    cases before with
    | nil =>
      obtain ⟨rfl, rfl⟩ := List.cons.inj heq
      rw [openBehind_nil]
      exact Int.ofNat_lt.mpr (hshallow hv)
    | cons w before =>
      obtain ⟨rfl, rfl⟩ := List.cons.inj heq
      rw [openBehind_cons, ← hdepth]
      exact ih before v after rfl hv

/-- A run that meets the limit does so at the first parenthesis that is opened with too many open. -/
theorem Ends.opening_of_tooDeep {r : Reader} {ts : List Token} {t : Token}
    {result : Except Fault Expr × List Token} (h : Ends r ts result)
    (ht : result.1 = .error ⟨.tooDeep, t⟩) :
    ∃ taken, ts = taken ++ t :: result.2 ∧ t.kind = .opening ∧
      256 ≤ openBehind r.depth taken ∧ Shallow r.depth taken := by
  cases h with
  | finish hs hstep => cases ht
  | refuse hs hstep =>
    exact absurd (congrArg Fault.cause (Except.error.inj ht)) (refusal_ne_tooDeep _ _)
  | @tooDeep us rest u s hs hstep =>
    cases ht
    refine ⟨us, rfl, kind_of_step_tooDeep hstep, ?_, hs.shallow⟩
    rw [← hs.depth_eq]
    exact Int.ofNat_le.mpr (depth_of_step_tooDeep hstep)
  | exhausted hs =>
    exact absurd (congrArg Fault.cause (Except.error.inj ht)) (refusal_ne_tooDeep _ _)

/-- Any other run opens no parenthesis beyond the limit. -/
theorem Ends.shallow_of_not_tooDeep {r : Reader} {ts : List Token}
    {result : Except Fault Expr × List Token} (h : Ends r ts result)
    (hlimit : ∀ t, result.1 ≠ .error ⟨.tooDeep, t⟩) :
    ∃ taken, ts = taken ++ result.2 ∧ Shallow r.depth taken := by
  cases h with
  | @finish us rest t s e hs hstep =>
    exact ⟨us ++ [t], by simp, hs.shallow.concat (not_opening_of_step_finish hstep)⟩
  | refuse hs hstep => exact ⟨_, rfl, hs.shallow⟩
  | @tooDeep us rest t s hs hstep => exact absurd rfl (hlimit t)
  | exhausted hs => exact ⟨ts, by simp, hs.shallow⟩

def rebase (base : Nat) (r : Reader) : Reader := { r with base := base }

def Step.rebase (base : Nat) : Step → Step
  | .shift next => .shift (next.rebase base)
  | step => step

section Rebase
variable {b : Nat} (r : Reader)

theorem deliver_rebase (e : Expr) : (r.rebase b).deliver e = (r.deliver e).rebase b := by
  obtain ⟨base, fs, phase⟩ := r
  cases fs <;> rfl

theorem leave_rebase : (r.rebase b).leave = r.leave.rebase b := by
  obtain ⟨base, fs, phase⟩ := r
  cases fs with
  | nil => rfl
  | cons f fs =>
    obtain ⟨sign, operator, token, operands⟩ := f
    match operands with
    | [] => rfl
    | [_] => rfl
    | _ :: _ :: _ => exact deliver_rebase ⟨base, fs, phase⟩ _

theorem enter_rebase (hb : b ≤ r.base) (sign : Option (Sign × Token)) :
    r.enter sign = .tooDeep ∨ (r.rebase b).enter sign = (r.enter sign).rebase b := by
  by_cases hdepth : r.base + r.frames.length < maxDepth
  · have hdepth' : b + r.frames.length < maxDepth := by omega
    right
    simp [enter, rebase, hdepth, hdepth', Step.rebase]
  · left
    simp [enter, hdepth]

theorem step_rebase (hb : b ≤ r.base) (t : Token) :
    r.step t = .tooDeep ∨ (r.rebase b).step t = (r.step t).rebase b := by
  have hleave := leave_rebase (b := b) r
  have henter := enter_rebase r hb
  have hdeliver := deliver_rebase (b := b) r
  obtain ⟨base, fs, phase⟩ := r
  unfold step
  cases phase with
  | operand =>
    dsimp only [rebase]
    cases t.kind with
    | number =>
      cases t.literal with
      | some value => exact .inr (hdeliver (.number value t))
      | none => exact .inr rfl
    | opening => exact henter none
    | closing => exact .inr hleave
    | _ => exact .inr rfl
  | signed sign token =>
    dsimp only [rebase]
    cases t.kind with
    | number =>
      cases t.literal with
      | some value => exact .inr (hdeliver (.signed sign token (.number value t)))
      | none => exact .inr rfl
    | opening => exact henter (some (sign, token))
    | _ => exact .inr rfl
  | operator sign =>
    dsimp only [rebase]
    right
    cases Operator.ofKind? t.kind <;> rfl

theorem run_rebase (hb : b ≤ r.base) (ts : List Token) :
    (∃ t, (r.run ts).1 = .error ⟨.tooDeep, t⟩) ∨ (r.rebase b).run ts = r.run ts := by
  induction ts generalizing r with
  | nil => exact .inr rfl
  | cons t ts ih =>
    rw [run, run]
    obtain hdeep | hstep := step_rebase r hb t
    · rw [hdeep]
      exact .inl ⟨t, rfl⟩
    · rw [hstep]
      cases hr : r.step t with
      | shift next =>
        have hbase := (shifted_of_step hr).base
        exact ih next (by omega)
      | finish e => exact .inr rfl
      | refuse => exact .inr rfl
      | tooDeep => exact .inl ⟨t, rfl⟩

end Rebase

end Reader

/-- Reading inside of `d` applications meets the limit, or comes to the same as inside of fewer. It
meets the limit only at an opening parenthesis with 256 applications open in front of it, those taken
before it having been in front of fewer; and whatever it has come to without meeting the limit, no
parenthesis was opened beyond it. -/
theorem depth_limit_only_cuts (tokens : List Token) {d d' : Nat} (hd : d' ≤ d) :
    ((∃ t, (readExpr d tokens).1 = .error ⟨.tooDeep, t⟩) ∨
      readExpr d' tokens = readExpr d tokens) ∧
    (∀ t, (readExpr d tokens).1 = .error ⟨.tooDeep, t⟩ →
      ∃ taken, tokens = taken ++ t :: (readExpr d tokens).2 ∧ t.kind = .opening ∧
        256 ≤ openBehind d taken ∧ Shallow d taken) ∧
    ((∀ t, (readExpr d tokens).1 ≠ .error ⟨.tooDeep, t⟩) →
      ∃ taken, tokens = taken ++ (readExpr d tokens).2 ∧ Shallow d taken) := by
  have hends := Reader.run_ends (Reader.start d) tokens
  rw [← readExpr] at hends
  refine ⟨Reader.run_rebase (Reader.start d) hd tokens, ?_, ?_⟩
  · intro t ht
    exact hends.opening_of_tooDeep ht
  · intro hlimit
    exact hends.shallow_of_not_tooDeep hlimit

/-- Inside of 254 applications the limit is met at the fourth parenthesis of `(+ (- 0 0) (* 0 (/ 0 0)))`,
two applications being open in front of it. -/
theorem depth_limit_cuts_behind_closed_application :
    let opening (column : Nat) : Token := ⟨.opening, "(", none, ⟨1, column⟩⟩
    let closing (column : Nat) : Token := ⟨.closing, ")", none, ⟨1, column⟩⟩
    let zero (column : Nat) : Token := ⟨.number, "0", some (.finite false .zero), ⟨1, column⟩⟩
    let tokens : List Token := [opening 1, ⟨.plus, "+", none, ⟨1, 2⟩⟩, opening 4,
      ⟨.minus, "-", none, ⟨1, 5⟩⟩, zero 7, zero 9, closing 10, opening 12, ⟨.star, "*", none, ⟨1, 13⟩⟩,
      zero 15, opening 17, ⟨.slash, "/", none, ⟨1, 18⟩⟩, zero 20, zero 22, closing 23, closing 24,
      closing 25]
    (readExpr 254 tokens).1 = .error ⟨.tooDeep, opening 17⟩ ∧
    (∃ taken, tokens = taken ++ opening 17 :: (readExpr 254 tokens).2 ∧
      256 ≤ openBehind 254 taken ∧ Shallow 254 taken) ∧
    readExpr 0 tokens = readExpr 253 tokens := by
  intro opening closing zero tokens
  have hdeep : (readExpr 254 tokens).1 = .error ⟨.tooDeep, opening 17⟩ := rfl
  obtain ⟨-, hcut, -⟩ := depth_limit_only_cuts tokens (Nat.zero_le 254)
  obtain ⟨taken, hsplit, -, hopen, hshallow⟩ := hcut _ hdeep
  refine ⟨hdeep, ⟨taken, hsplit, hopen, hshallow⟩, ?_⟩
  obtain ⟨⟨t, ht⟩ | hsame, -, -⟩ := depth_limit_only_cuts tokens (Nat.zero_le 253)
  · cases ht
  · exact hsame

end PolishCalc
