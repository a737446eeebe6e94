import Leetcode.Lib.CString

/-!
# The `%d` conversion of `sscanf`

`scanInt` reads a decimal number from the start of a string, as `sscanf(s, "%d", &n)` does:
white space, an optional sign, then digits.  It is `none` where nothing is stored.  A number
that does not fit the variable has no meaning in C.

`scanInt_decimal` — it reads back what `sprintf` prints.
-/

namespace CLib

/-- `isspace` in the C locale. -/
def isspace (b : UInt8) : Bool := b = 32 ∨ 9 ≤ b ∧ b ≤ 13

def isdigit (b : UInt8) : Bool := 48 ≤ b ∧ b ≤ 57

/-- The number that digits stand for. -/
def digitsValue (digits : Bytes) : ℕ :=
  digits.foldl (fun n d => 10 * n + (d.toNat - 48)) 0

/-- The digits at the start of a string, if there are any. -/
def scanDigits (s : Bytes) : Option ℕ :=
  match s.takeWhile isdigit with
  | [] => none
  | d :: digits => some (digitsValue (d :: digits))

/-- `sscanf(s, "%d", &n)`: the value stored in `n`. -/
def scanInt (s : Bytes) : Option ℤ :=
  match s.dropWhile isspace with
  | 45 :: rest => (scanDigits rest).map fun n => -(n : ℤ)
  | 43 :: rest => (scanDigits rest).map fun n => (n : ℤ)
  | rest => (scanDigits rest).map fun n => (n : ℤ)

/-! ## Reading what was printed -/

theorem isdigit_toUInt8 {c : Char} (h : c.isDigit = true) :
    isdigit c.toUInt8 = true ∧ c.toUInt8.toNat = c.toNat := by
  simp only [Char.isDigit, Bool.and_eq_true, decide_eq_true_eq, ge_iff_le,
    UInt32.le_iff_toNat_le] at h
  change 48 ≤ c.toNat ∧ c.toNat ≤ 57 at h
  have hbyte : c.toUInt8.toNat = c.toNat := by
    simp only [Char.toUInt8, UInt32.toNat_toUInt8]
    change c.toNat % 2 ^ 8 = c.toNat
    omega
  refine ⟨?_, hbyte⟩
  simp only [isdigit, decide_eq_true_eq, UInt8.le_iff_toNat_le, hbyte]
  exact h

theorem foldl_digits {cs : List Char} (h : ∀ c ∈ cs, c.isDigit = true) (n : ℕ) :
    (cs.map Char.toUInt8).foldl (fun n d => 10 * n + (d.toNat - 48)) n =
      Nat.ofDigitChars 10 cs n := by
  induction cs generalizing n with
  | nil => rfl
  | cons c cs ih =>
      have hc := (isdigit_toUInt8 (h c List.mem_cons_self)).2
      rw [List.map_cons, List.foldl_cons, hc, ih fun d hd => h d (List.mem_cons_of_mem _ hd),
        Nat.ofDigitChars_cons]
      rfl

theorem scanDigits_toDigits (n : ℕ) :
    scanDigits ((Nat.toDigits 10 n).map Char.toUInt8) = some n := by
  have hdigits : ∀ c ∈ Nat.toDigits 10 n, c.isDigit = true := fun c hc =>
    Nat.isDigit_of_mem_toDigits (by omega) (by omega) hc
  have hall : ∀ b ∈ (Nat.toDigits 10 n).map Char.toUInt8, isdigit b = true := by
    intro b hb
    obtain ⟨c, hc, rfl⟩ := List.mem_map.1 hb
    exact (isdigit_toUInt8 (hdigits c hc)).1
  have hvalue : digitsValue ((Nat.toDigits 10 n).map Char.toUInt8) = n := by
    rw [digitsValue, foldl_digits hdigits, Nat.ofDigitChars_ten_toDigits]
  unfold scanDigits
  rw [List.takeWhile_eq_self_iff.2 hall]
  split
  · next hnil => exact absurd (List.map_eq_nil_iff.1 hnil) Nat.toDigits_ne_nil
  · next d digits heq => rw [← heq, hvalue]

/-- `sscanf` reads back what `sprintf` has printed. -/
theorem scanInt_decimal (n : ℤ) : scanInt (decimal n) = some n := by
  have hdigit : ∀ m : ℕ, ∃ d digits, (Nat.toDigits 10 m).map Char.toUInt8 = d :: digits ∧
      isdigit d = true := by
    intro m
    cases hm : Nat.toDigits 10 m with
    | nil => exact absurd hm Nat.toDigits_ne_nil
    | cons c cs =>
        have hc : c ∈ Nat.toDigits 10 m := by simp [hm]
        exact ⟨c.toUInt8, cs.map Char.toUInt8, rfl,
          (isdigit_toUInt8 (Nat.isDigit_of_mem_toDigits (by omega) (by omega) hc)).1⟩
  cases n with
  | ofNat m =>
      obtain ⟨d, digits, heq, hd⟩ := hdigit m
      have hvalue := scanDigits_toDigits m
      rw [heq] at hvalue
      have hspace : isspace d = false := by
        simp only [isdigit, decide_eq_true_eq, UInt8.le_iff_toNat_le] at hd
        simp only [isspace, decide_eq_false_iff_not, UInt8.le_iff_toNat_le, ← UInt8.toNat_inj]
        change 48 ≤ d.toNat ∧ d.toNat ≤ 57 at hd
        change ¬(d.toNat = 32 ∨ 9 ≤ d.toNat ∧ d.toNat ≤ 13)
        omega
      unfold scanInt
      rw [decimal, heq, List.dropWhile_cons_of_neg (by rw [hspace]; exact Bool.false_ne_true)]
      -- A digit is not a sign.
      split
      · next hsign =>
          cases hsign
          cases hd
      · next hsign =>
          cases hsign
          cases hd
      · rw [hvalue]
        rfl
  | negSucc m =>
      have hvalue := scanDigits_toDigits (m + 1)
      unfold scanInt
      rw [decimal, List.dropWhile_cons_of_neg (by decide)]
      simp only [hvalue]
      rfl

end CLib
