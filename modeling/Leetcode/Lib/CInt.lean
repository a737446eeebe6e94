import Mathlib.Algebra.Group.Int.Defs
import Mathlib.Algebra.Group.Nat.Defs
import Mathlib.Data.Int.Notation
import Mathlib.Order.Defs.LinearOrder

/-!
# Fixed-width integers

`int` is `Int32` and `long` is `Int64`.  Every `int`, converted to `long`, lies between the two
extreme values of that type.  `addInt` is the addition of two `int`s, which is undefined where
the sum is no `int`.

Where an `int` is modelled by an integer, `intResult` is the result of an arithmetic operation,
with the same range, and `intOfSize` is what a `size_t` is converted to; `longResult` is for
`long`.  `charValue` is what a
`char` is converted to.
-/

namespace CLib

instance instLinearOrderInt32 : LinearOrder Int32 where
  le_refl := Int32.le_refl
  le_trans _ _ _ := Int32.le_trans
  le_antisymm _ _ := Int32.le_antisymm
  le_total := Int32.le_total
  lt_iff_le_not_ge a b := by
    rw [Int32.not_le]
    exact ⟨fun h => ⟨Int32.le_of_lt h, h⟩, And.right⟩
  toDecidableLE := inferInstance
  toDecidableEq := inferInstance
  toDecidableLT := inferInstance

theorem minValue_lt_toInt64 (a : Int32) : Int64.minValue < a.toInt64 := by
  have hle := a.le_toInt
  rw [Int64.lt_iff_toInt_lt, Int32.toInt_toInt64, Int64.toInt_minValue]
  omega

theorem toInt64_lt_maxValue (a : Int32) : a.toInt64 < Int64.maxValue := by
  have hlt := a.toInt_lt
  rw [Int64.lt_iff_toInt_lt, Int32.toInt_toInt64, Int64.toInt_maxValue]
  omega

/-- The values of an `int`. -/
def FitsInt (n : ℤ) : Prop := -2 ^ 31 ≤ n ∧ n < 2 ^ 31

instance (n : ℤ) : Decidable (FitsInt n) := inferInstanceAs (Decidable (_ ∧ _))

def intResult (n : ℤ) : Option ℤ := if FitsInt n then some n else none

/-- The conversion of a `size_t` to `int`, modulo `2 ^ 32`. -/
def intOfSize (n : ℕ) : ℤ := (Int32.ofNat n).toInt

theorem intOfSize_fits (n : ℕ) : FitsInt (intOfSize n) :=
  ⟨Int32.le_toInt _, Int32.toInt_lt _⟩

theorem intOfSize_eq {n : ℕ} (h : n < 2 ^ 31) : intOfSize n = n := Int32.toInt_ofNat_of_lt h

theorem intOfSize_le (n : ℕ) : intOfSize n ≤ n := by
  rw [intOfSize, Int32.toInt_ofNat', Int.bmod_def]
  have hmod : (n : ℤ) % Int32.size ≤ n := by
    rw [← Int.natCast_emod]
    exact Int.ofNat_le.2 (Nat.mod_le n Int32.size)
  split
  · omega
  · omega

theorem intResult_ok {n : ℤ} (h : FitsInt n) : intResult n = some n := if_pos h

theorem eq_of_intResult {n m : ℤ} (h : intResult n = some m) : m = n := by
  rw [intResult] at h
  split at h
  · exact (Option.some.inj h).symm
  · exact absurd h.symm (Option.some_ne_none m)

/-- The result of an operation on `long`s, or on `long long`s. -/
def longResult (n : ℤ) : Option ℤ := if -2 ^ 63 ≤ n ∧ n < 2 ^ 63 then some n else none

theorem longResult_ok {n : ℤ} (hlow : -2 ^ 63 ≤ n) (hhigh : n < 2 ^ 63) :
    longResult n = some n :=
  if_pos ⟨hlow, hhigh⟩

/-! ## `char` -/

/-- The value of a `char`, which is signed. -/
def charValue (c : UInt8) : ℤ := c.toInt8.toInt

theorem charValue_injective : Function.Injective charValue := by
  intro a b h
  exact congrArg Int8.toUInt8 (Int8.toInt_inj.1 h)

theorem charValue_eq (c : UInt8) :
    charValue c = if c.toNat < 128 then (c.toNat : ℤ) else c.toNat - 256 := by
  have hvalue := BitVec.toInt_eq_toNat_cond c.toBitVec
  have hnat : c.toBitVec.toNat = c.toNat := rfl
  have hint : charValue c = c.toBitVec.toInt := rfl
  rw [hint, hvalue, hnat]
  split <;> split <;> omega

/-! ## Addition -/

/-- `a + b`. -/
def addInt (a b : Int32) : Option Int32 :=
  if FitsInt (a.toInt + b.toInt) then some (a + b) else none

variable {a b : Int32}

theorem addInt_ok (h : FitsInt (a.toInt + b.toInt)) : addInt a b = some (a + b) := if_pos h

theorem addInt_overflow (h : 2 ^ 31 ≤ a.toInt + b.toInt) : addInt a b = none :=
  if_neg fun hfits => Int.not_lt.2 h hfits.2

theorem toInt_add (h : FitsInt (a.toInt + b.toInt)) : (a + b).toInt = a.toInt + b.toInt := by
  obtain ⟨hlow, hhigh⟩ := h
  rw [Int32.toInt_add]
  exact Int.bmod_eq_of_le (by omega) (by omega)

end CLib
