import PolishCalc.Number.Magnitude

/-! Binary64 numbers: signed magnitudes with both zeros, two infinities, and one value that is not a
number. Equality of numbers is equality bit for bit, all patterns of `nan` counted as one. -/
namespace PolishCalc

open scoped CorePow

inductive Number where
  | finite (negative : Bool) (magnitude : Magnitude)
  | infinite (negative : Bool)
  | nan
deriving DecidableEq

namespace Number

def isFinite : Number → Bool
  | .finite _ _ => true
  | _ => false

def isZero : Number → Bool
  | .finite _ m => m.isZero
  | _ => false

def neg : Number → Number
  | .finite s m => .finite (!s) m
  | .infinite s => .infinite (!s)
  | .nan => .nan

instance : Neg Number := ⟨neg⟩

def ofUnits (negative : Bool) (num den : Nat) : Number :=
  match Magnitude.round? num den with
  | some m => .finite negative m
  | none => .infinite negative

def signBit : Nat := 2 ^ (63 : Nat)

def ofBits (bits : UInt64) : Number :=
  let negative := decide (signBit ≤ bits.toNat)
  let body := bits.toNat % signBit
  match Magnitude.ofBits? body with
  | some m => .finite negative m
  | none => if body = Magnitude.bitsLimit then .infinite negative else .nan

def pattern (negative : Bool) (body : Nat) : UInt64 :=
  UInt64.ofNat ((if negative then signBit else 0) + body)

/-- The bit pattern; `nan` has the quiet one with no payload. -/
def toBits : Number → UInt64
  | .finite s m => pattern s m.toBits
  | .infinite s => pattern s Magnitude.bitsLimit
  | .nan => pattern false (Magnitude.bitsLimit + Magnitude.lead / 2)

theorem toNat_pattern (negative : Bool) {body : Nat} (h : body < signBit) :
    (pattern negative body).toNat = (if negative then signBit else 0) + body := by
  have hsign : signBit = 9223372036854775808 := rfl
  rw [pattern, UInt64.toNat_ofNat', Nat.mod_eq_of_lt]
  cases negative <;> simp <;> omega

theorem decide_signBit_le_pattern (negative : Bool) {body : Nat} (h : body < signBit) :
    decide (signBit ≤ (pattern negative body).toNat) = negative := by
  rw [toNat_pattern negative h]
  cases negative <;> simp [h]

theorem ofBits_pattern (negative : Bool) {body : Nat} (h : body < signBit) :
    ofBits (pattern negative body) =
      match Magnitude.ofBits? body with
      | some m => .finite negative m
      | none => if body = Magnitude.bitsLimit then .infinite negative else .nan := by
  have hbody : (pattern negative body).toNat % signBit = body := by
    rw [toNat_pattern negative h]
    cases negative <;> simp [Nat.mod_eq_of_lt h]
  simp only [ofBits, decide_signBit_le_pattern negative h, hbody]

/-- Bit patterns tell all numbers apart. -/
theorem ofBits_toBits (x : Number) : ofBits x.toBits = x := by
  have hlimit : Magnitude.bitsLimit + Magnitude.lead / 2 < signBit := by decide
  cases x with
  | finite s m =>
    have hm := m.toBits_lt
    rw [toBits, ofBits_pattern s (by omega), Magnitude.ofBits?_toBits]
  | infinite s =>
    rw [toBits, ofBits_pattern s (by omega), Magnitude.ofBits?_eq_none (Nat.le_refl _)]
    simp
  | nan =>
    have hlead : 0 < Magnitude.lead / 2 := by decide
    rw [toBits, ofBits_pattern false hlimit, Magnitude.ofBits?_eq_none (Nat.le_add_right _ _)]
    simp [Nat.ne_of_gt hlead]

end Number
end PolishCalc
