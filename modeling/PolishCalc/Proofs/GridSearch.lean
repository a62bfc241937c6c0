import PolishCalc.Proofs.RoundingInterval

/-! What the search for the shortest decimal finds: a decimal on the coarsest grid that holds one
which reads back, and of those on that grid the closest. Since the decimals that read back have no gap,
a grid that holds one of them holds one next to the value itself. -/
namespace PolishCalc.Decimal

open Magnitude (RoundsTo)

variable {m : Magnitude} {a b d w grid : Nat}

def ofGrains (d : Nat) : ℚ := d / grainsPerOne

theorem grainsPerOne_pos_rat : (0 : ℚ) < grainsPerOne := by
  rw [grainsPerOne_eq]
  exact Nat.cast_pos.mpr (Nat.mul_pos unitsPerOne_pos grainsPerUnit_pos)

theorem ofGrains_le_iff : ofGrains a ≤ ofGrains b ↔ a ≤ b := by
  rw [ofGrains, ofGrains, div_le_div_iff_of_pos_right grainsPerOne_pos_rat, Nat.cast_le]

theorem ofGrains_mono (h : a ≤ b) : ofGrains a ≤ ofGrains b := ofGrains_le_iff.mpr h

theorem ofGrains_grains (m : Magnitude) : ofGrains (grains m) = m.toRat := by
  have hne : (grainsPerUnit : ℚ) ≠ 0 := Nat.cast_ne_zero.mpr grainsPerUnit_pos.ne'
  rw [ofGrains, Magnitude.toRat_eq, grains, grainsPerOne_eq, Nat.cast_mul, Nat.cast_mul,
    mul_comm (Magnitude.unitsPerOne : ℚ), mul_div_mul_left _ _ hne]

theorem cast_grainsPerOne : (grainsPerOne : ℚ) = 10 ^ 1074 := by
  unfold grainsPerOne
  generalize 1074 = n
  push_cast
  rfl

theorem ofGrains_mul_pow (c j : Nat) : ofGrains (c * 10 ^ j) = c * 10 ^ ((j : ℤ) - 1074) := by
  rw [ofGrains, cast_grainsPerOne, zpow_sub₀ (by norm_num), zpow_natCast, zpow_ofNat, Nat.cast_mul,
    Nat.cast_pow, Nat.cast_ofNat, mul_div_assoc]

theorem roundsTo_ofGrains_iff : RoundsTo (ofGrains d) false m ↔ nearest? d = some m := by
  refine Magnitude.roundsTo_iff_round? grainsPerUnit_pos ?_
  have hne := Magnitude.unitsPerOne_pos_rat.ne'
  rw [ofGrains, grainsPerOne_eq, Nat.cast_mul, mul_div_assoc', mul_div_mul_left _ _ hne]

theorem nearest?_between (ha : nearest? a = some m) (hb : nearest? b = some m) (had : a ≤ d)
    (hdb : d ≤ b) : nearest? d = some m := by
  rw [← roundsTo_ofGrains_iff] at ha hb ⊢
  exact ha.between hb (ofGrains_mono had) (ofGrains_mono hdb)

structure BestOn (m : Magnitude) (grid d : Nat) : Prop where
  dvd : grid ∣ d
  reads : nearest? d = some m
  closest : ∀ w, grid ∣ w → nearest? w = some m →
    |ofGrains d - m.toRat| ≤ |ofGrains w - m.toRat|

/-- Towards the value the distance only shrinks. -/
theorem abs_ofGrains_sub_le (h : w ≤ d ∧ d ≤ grains m ∨ grains m ≤ d ∧ d ≤ w) :
    |ofGrains d - m.toRat| ≤ |ofGrains w - m.toRat| := by
  rw [← ofGrains_grains]
  rcases h with ⟨hwd, hd⟩ | ⟨hd, hdw⟩
  · have hwd' := ofGrains_mono hwd
    have hd' := ofGrains_mono hd
    rw [abs_of_nonpos (by linarith), abs_of_nonpos (by linarith)]
    linarith
  · have hdw' := ofGrains_mono hdw
    have hd' := ofGrains_mono hd
    rw [abs_of_nonneg (by linarith), abs_of_nonneg (by linarith)]
    linarith

/-- A grid that holds a decimal which reads back holds one next to the value, on the same side. -/
theorem side_of_reads (hgrid : 0 < grid) (hdvd : grid ∣ w) (hw : nearest? w = some m) :
    (w ≤ grains m / grid * grid ∧ nearest? (grains m / grid * grid) = some m) ∨
      (grains m / grid * grid + grid ≤ w ∧ nearest? (grains m / grid * grid + grid) = some m) := by
  have hexact := nearest?_grains m
  have hbelow := Nat.div_mul_le_self (grains m) grid
  have habove : grains m < grains m / grid * grid + grid := Nat.lt_div_mul_add hgrid
  obtain ⟨c, rfl⟩ := hdvd
  rw [Nat.mul_comm grid c] at hw ⊢
  rcases Nat.lt_or_ge (grains m / grid) c with hlt | hge
  · have hle : grains m / grid * grid + grid ≤ c * grid := by
      rw [← Nat.succ_mul]
      exact Nat.mul_le_mul_right grid hlt
    exact .inr ⟨hle, nearest?_between hexact hw habove.le hle⟩
  · have hle : c * grid ≤ grains m / grid * grid := Nat.mul_le_mul_right grid hge
    exact .inl ⟨hle, nearest?_between hw hexact hle hbelow⟩

/-- Only the two neighbours of the value have to be compared with. -/
theorem BestOn.of_neighbours (hgrid : 0 < grid) (hdvd : grid ∣ d) (hreads : nearest? d = some m)
    (hbelow : nearest? (grains m / grid * grid) = some m →
      |ofGrains d - m.toRat| ≤ |ofGrains (grains m / grid * grid) - m.toRat|)
    (habove : nearest? (grains m / grid * grid + grid) = some m →
      |ofGrains d - m.toRat| ≤ |ofGrains (grains m / grid * grid + grid) - m.toRat|) :
    BestOn m grid d := by
  refine ⟨hdvd, hreads, fun w hw hread => ?_⟩
  rcases side_of_reads hgrid hw hread with ⟨hle, hside⟩ | ⟨hle, hside⟩
  · have hlow := Nat.div_mul_le_self (grains m) grid
    exact (hbelow hside).trans (abs_ofGrains_sub_le (.inl ⟨hle, hlow⟩))
  · have hhigh : grains m ≤ grains m / grid * grid + grid := (Nat.lt_div_mul_add hgrid).le
    exact (habove hside).trans (abs_ofGrains_sub_le (.inr ⟨hhigh, hle⟩))

/-- Which of two decimals on either side of the value is the closer one. -/
theorem abs_ofGrains_sub_le_iff (ha : a ≤ grains m) (hb : grains m ≤ b) :
    |ofGrains b - m.toRat| ≤ |ofGrains a - m.toRat| ↔ a + b ≤ 2 * grains m := by
  have ha' := ofGrains_mono ha
  have hb' := ofGrains_mono hb
  rw [← ofGrains_grains, abs_of_nonneg (by linarith), abs_of_nonpos (by linarith), neg_sub,
    sub_le_sub_iff, ← two_mul, ← @Nat.cast_le ℚ, add_comm]
  simp only [ofGrains]
  rw [← add_div, mul_div_assoc', div_le_div_iff_of_pos_right grainsPerOne_pos_rat]
  push_cast
  rfl

theorem bestOn_of_neighbour? (hgrid : 0 < grid) (h : neighbour? m grid = some d) :
    BestOn m grid d := by
  have hcompare := abs_ofGrains_sub_le_iff (Nat.div_mul_le_self (grains m) grid)
    (Nat.lt_div_mul_add hgrid).le
  have hbelow : grid ∣ grains m / grid * grid := Nat.dvd_mul_left _ _
  have habove : grid ∣ grains m / grid * grid + grid := Nat.dvd_add_self_right.mpr hbelow
  have hreads := nearest?_of_neighbour? h
  unfold neighbour? at h
  dsimp only at h
  split at h
  · split at h
    · rename_i hboth
      obtain rfl := Option.some.inj h
      exact .of_neighbours hgrid habove hreads (fun _ => hcompare.mpr hboth.2) fun _ => le_rfl
    · rename_i hnot
      obtain rfl := Option.some.inj h
      refine .of_neighbours hgrid hbelow hreads (fun _ => le_rfl) fun hside => ?_
      exact le_of_not_ge fun hle => hnot ⟨hside, hcompare.mp hle⟩
  · rename_i hnot
    split at h
    · obtain rfl := Option.some.inj h
      exact .of_neighbours hgrid habove hreads (fun hside => absurd hside hnot) fun _ => le_rfl
    · cases h

theorem nearest?_ne_of_neighbour?_eq_none (hgrid : 0 < grid) (h : neighbour? m grid = none)
    (hdvd : grid ∣ w) : nearest? w ≠ some m := by
  intro hw
  unfold neighbour? at h
  rcases side_of_reads hgrid hdvd hw with ⟨-, hside⟩ | ⟨-, hside⟩
  · simp only [hside, if_true] at h
    split at h <;> cases h
  · simp only [hside] at h
    split at h
    · split at h <;> cases h
    · cases h

def NoneAbove (m : Magnitude) (j : Nat) : Prop :=
  ∀ i w, j < i → 10 ^ i ∣ w → nearest? w ≠ some m

/-- The search goes on to the next finer grid only when a grid holds nothing. -/
theorem exists_bestOn_shortestFrom {j : Nat} (h : NoneAbove m j) :
    ∃ i, BestOn m (10 ^ i) (shortestFrom m j) ∧ NoneAbove m i := by
  induction j with
  | zero =>
    rw [shortestFrom]
    refine ⟨0, ⟨one_dvd _, nearest?_grains m, fun w _ _ => ?_⟩, h⟩
    rw [ofGrains_grains, sub_self, abs_zero]
    exact abs_nonneg _
  | succ j ih =>
    have hgrid : 0 < 10 ^ (j + 1) := Nat.pow_pos (by decide)
    rw [shortestFrom]
    split
    · rename_i d hfound
      exact ⟨j + 1, bestOn_of_neighbour? hgrid hfound, h⟩
    · rename_i hnone
      refine ih fun i w hji hdvd => ?_
      rcases Nat.eq_or_lt_of_le (Nat.succ_le_of_lt hji) with rfl | hlt
      · exact nearest?_ne_of_neighbour?_eq_none hgrid hnone hdvd
      · exact h i w hlt hdvd

/-- Nothing reads back from beyond twice the value. -/
theorem le_of_nearest? (hm : m.isZero = false) (hw : nearest? w = some m) : w ≤ 2 * grains m := by
  have hround := roundsTo_ofGrains_iff.mpr hw
  have hhalf := (abs_le.mp (hround.abs_sub_le (hround.pos hm).le)).1
  have hbit := Magnitude.lastBit_le_toRat hm
  have hpos := Magnitude.toRat_pos hm
  have htwice : ofGrains (2 * grains m) = 2 * m.toRat := by
    rw [← ofGrains_grains, ofGrains, ofGrains, Nat.cast_mul, Nat.cast_ofNat, mul_div_assoc]
  rw [← ofGrains_le_iff, htwice]
  linarith

theorem noneAbove_exponentAbove (hm : m.isZero = false) :
    NoneAbove m (exponentAbove (grains m)) := by
  intro i w hi hdvd hw
  have hpos : 0 < w := by
    have hround := (roundsTo_ofGrains_iff.mpr hw).pos hm
    refine Nat.pos_of_ne_zero ?_
    rintro rfl
    simp [ofGrains] at hround
  have hlow : 10 ^ exponentAbove (grains m) * 10 ≤ w :=
    calc 10 ^ exponentAbove (grains m) * 10
        = 10 ^ (exponentAbove (grains m) + 1) := by rw [Nat.pow_succ]
      _ ≤ 10 ^ i := Nat.pow_le_pow_right (by decide) hi
      _ ≤ w := Nat.le_of_dvd hpos hdvd
  have hstart := lt_pow_exponentAbove (grains m)
  have hhigh := le_of_nearest? hm hw
  omega

structure Coarsest (m : Magnitude) (p : ℤ) (q : ℚ) : Prop where
  roundsTo : RoundsTo q false m
  exists_eq : ∃ c : Nat, q = c * 10 ^ p
  place_le : ∀ (c : Nat) (e : ℤ), RoundsTo (c * 10 ^ e) false m → e ≤ p
  closest : ∀ c : Nat, RoundsTo (c * 10 ^ p) false m → |q - m.toRat| ≤ |c * 10 ^ p - m.toRat|

theorem exists_coarsest_shortest (hm : m.isZero = false) :
    ∃ p, Coarsest m p (ofGrains (shortest m)) := by
  obtain ⟨j, hbest, hnone⟩ := exists_bestOn_shortestFrom (noneAbove_exponentAbove hm)
  refine ⟨(j : ℤ) - 1074, ?_, ?_, ?_, ?_⟩
  · exact roundsTo_ofGrains_iff.mpr hbest.reads
  · obtain ⟨c, hc⟩ := hbest.dvd
    exact ⟨c, by rw [shortest, hc, Nat.mul_comm, ofGrains_mul_pow]⟩
  · intro c e hround
    by_contra hlt
    -- The place is coarser than a grain, so the decimal is on one of the grids.
    obtain ⟨i, hi⟩ : ∃ i : Nat, e = (i : ℤ) - 1074 := ⟨(e + 1074).toNat, by omega⟩
    rw [hi, ← ofGrains_mul_pow, roundsTo_ofGrains_iff] at hround
    exact hnone i _ (by omega) (Nat.dvd_mul_left _ _) hround
  · intro c hround
    rw [← ofGrains_mul_pow] at hround ⊢
    exact hbest.closest _ (Nat.dvd_mul_left _ _) (roundsTo_ofGrains_iff.mp hround)

end PolishCalc.Decimal
