import Leetcode.Brackets.Model
import Leetcode.Lib.Brackets

/-!
# `isValid` accepts the balanced strings

The entries of `stack` up to `top`, the last one first, are the open brackets, so the loop does
what `Closes` says (`scan_ok`).  Every bracket raises `top` by one at most, so it stays below the
length of the string.
-/

namespace Leetcode
namespace Brackets

open CLib

/-- The closing bracket of an opening one. -/
def closing (c : UInt8) : Option UInt8 :=
  if c = '('.toUInt8 then some ')'.toUInt8
  else if c = '{'.toUInt8 then some '}'.toUInt8
  else if c = '['.toUInt8 then some ']'.toUInt8
  else none

/-- The six brackets. -/
def brackets : Bytes := ascii "(){}[]"

theorem closing_iff {o c : UInt8} :
    closing o = some c ↔
      o = '('.toUInt8 ∧ c = ')'.toUInt8 ∨ o = '{'.toUInt8 ∧ c = '}'.toUInt8 ∨
        o = '['.toUInt8 ∧ c = ']'.toUInt8 := by
  unfold closing
  split_ifs with h₁ h₂ h₃
  · subst h₁
    simp +decide [eq_comm]
  · subst h₂
    simp +decide [eq_comm]
  · subst h₃
    simp +decide [eq_comm]
  · simp [h₁, h₂, h₃]

theorem closing_disjoint (o c : UInt8) (h : closing o = some c) : closing c = none := by
  rcases closing_iff.1 h with ⟨-, rfl⟩ | ⟨-, rfl⟩ | ⟨-, rfl⟩ <;> rfl

abbrev Opens (c : UInt8) : Prop := c = '('.toUInt8 ∨ c = '{'.toUInt8 ∨ c = '['.toUInt8

abbrev Shuts (c : UInt8) : Prop := c = ')'.toUInt8 ∨ c = '}'.toUInt8 ∨ c = ']'.toUInt8

/-- A bracket opens or closes. -/
theorem bracket_cases {c : UInt8} (h : c ∈ brackets) :
    Opens c ∧ (closing c).isSome = true ∨ Shuts c ∧ ¬Opens c ∧ closing c = none := by
  have hall : (brackets.all fun c => decide (Opens c ∧ (closing c).isSome = true ∨
      Shuts c ∧ ¬Opens c ∧ closing c = none)) = true := by decide
  exact of_decide_eq_true (List.all_eq_true.1 hall c h)

/-- The loop stays inside the array, and accepts what closes the brackets on the stack. -/
def ScanOk (s : Bytes) (i : ℤ) (stack : Bytes) (top : ℤ) : Prop :=
  ∃ valid, scan s i stack top = some valid ∧
    (valid = true ↔ Closes closing (stacked stack top) s)

variable {s stack : Bytes} {i top : ℤ} {c x : UInt8}

/-- The test compares with the bracket that was opened last. -/
theorem mismatch_eq (hne : top ≠ -1) (hload : load stack top = some x) (hc : Shuts c) :
    mismatch stack top c = some (decide (closing x ≠ some c)) := by
  rw [mismatch, if_neg hne]
  simp only [differs, hload, ne_eq, closing_iff]
  rcases hc with rfl | rfl | rfl
  · by_cases hx : x = '('.toUInt8 <;> simp +decide [hx]
  · by_cases hx : x = '{'.toUInt8 <;> simp +decide [hx]
  · by_cases hx : x = '['.toUInt8 <;> simp +decide [hx]

theorem scan_end (htop : -1 ≤ top) (hlen : top + 1 ≤ stack.length) : ScanOk [] i stack top := by
  refine ⟨decide (top = -1), rfl, ?_⟩
  rw [decide_eq_true_iff, closes_end]
  by_cases hne : top = -1
  · subst hne
    exact iff_of_true rfl stacked_empty
  · obtain ⟨x, -, hstacked⟩ := stacked_top htop hne hlen
    rw [hstacked]
    exact iff_of_false hne (List.cons_ne_nil _ _)

/-- An opening bracket is pushed. -/
theorem scan_opening (hc : Opens c) (hclosing : (closing c).isSome = true) (htop : -1 ≤ top)
    (hlt : top + 1 < stack.length) (hfit : FitsInt (top + 1)) (hnext : FitsInt (i + 1))
    (h : ScanOk s (i + 1) (stack.set (top + 1).toNat c) (top + 1)) :
    ScanOk (c :: s) i stack top := by
  obtain ⟨hstore, hstacked⟩ := stacked_push htop hlt c
  obtain ⟨valid, hscan, hvalid⟩ := h
  refine ⟨valid, ?_, ?_⟩
  · rw [scan, if_pos hc, intResult_ok hfit, Option.bind_some, hstore, Option.bind_some,
      intResult_ok hnext, Option.bind_some, hscan]
  · rw [hvalid, hstacked, closes_open closing_disjoint hclosing]

/-- A closing bracket ends the loop, or the bracket on the top goes. -/
theorem scan_closing (hc : Shuts c) (hnot : ¬Opens c) (hclosing : closing c = none)
    (htop : -1 ≤ top) (hlen : top + 1 ≤ stack.length) (hfit : FitsInt (top - 1))
    (hnext : FitsInt (i + 1)) (h : top ≠ -1 → ScanOk s (i + 1) stack (top - 1)) :
    ScanOk (c :: s) i stack top := by
  by_cases hne : top = -1
  · -- Nothing is open.
    subst hne
    refine ⟨false, ?_, iff_of_false Bool.false_ne_true ?_⟩
    · rw [scan, if_neg hnot]
      rfl
    · rw [stacked_empty]
      exact closes_none hclosing
  · obtain ⟨x, hload, hstacked⟩ := stacked_top htop hne hlen
    have htest := mismatch_eq hne hload hc
    by_cases hfits : closing x = some c
    · obtain ⟨valid, hscan, hvalid⟩ := h hne
      refine ⟨valid, ?_, ?_⟩
      · rw [scan, if_neg hnot, htest, Option.bind_some, decide_eq_false (not_not.2 hfits),
          if_neg Bool.false_ne_true, intResult_ok hfit, Option.bind_some, intResult_ok hnext,
          Option.bind_some, hscan]
      · rw [hvalid, hstacked, closes_close hclosing, and_iff_right hfits]
    · refine ⟨false, ?_, iff_of_false Bool.false_ne_true ?_⟩
      · rw [scan, if_neg hnot, htest, Option.bind_some, decide_eq_true hfits, if_pos rfl]
      · rw [hstacked, closes_close hclosing]
        exact fun hcloses => hfits hcloses.1

theorem scan_ok (hs : ∀ b ∈ s, b ∈ brackets) (htop : -1 ≤ top) (hi : 0 ≤ i)
    (hroom : top + 1 + s.length ≤ stack.length) (hend : i + s.length < 2 ^ 31)
    (hlen : stack.length < 2 ^ 31) : ScanOk s i stack top := by
  induction s generalizing i stack top with
  | nil =>
      rw [List.length_nil, Int.natCast_zero, Int.add_zero] at hroom
      exact scan_end htop hroom
  | cons c s ih =>
      have hrest : ∀ b ∈ s, b ∈ brackets := fun b hb => hs b (List.mem_cons_of_mem _ hb)
      rw [List.length_cons] at hroom hend
      have hnext : FitsInt (i + 1) := ⟨by omega, by omega⟩
      rcases bracket_cases (hs c List.mem_cons_self) with
        ⟨hc, hclosing⟩ | ⟨hc, hnot, hclosing⟩
      · have hset : (stack.set (top + 1).toNat c).length = stack.length := List.length_set
        exact scan_opening hc hclosing htop (by omega) ⟨by omega, by omega⟩ hnext
          (ih hrest (by omega) (by omega) (by omega) (by omega) (by omega))
      · exact scan_closing hc hnot hclosing htop (by omega) ⟨by omega, by omega⟩ hnext fun hne =>
          ih hrest (by omega) (by omega) (by omega) (by omega) hlen

/-- On a string of brackets whose positions are `int`s, `isValid` stays inside of `stack`, and
tells whether the string is balanced. -/
theorem isValid_exact (junk : ℕ → UInt8) {s : Bytes} (hs : ∀ b ∈ s, b ∈ brackets)
    (hlen : s.length < 2 ^ 31) :
    ∃ valid, isValid junk s = some valid ∧ (valid = true ↔ Balanced closing s) := by
  have hstack : ((List.range s.length).map junk).length = s.length := by simp
  obtain ⟨valid, hscan, hvalid⟩ :=
    scan_ok hs le_rfl le_rfl (by rw [hstack]; omega) (by omega) (hstack.trans_lt hlen)
  rw [stacked_empty] at hvalid
  exact ⟨valid, hscan, hvalid⟩

/-- Two pairs that cross. -/
theorem isValid_exact_crossing :
    ∃ valid, isValid (fun _ => 0) (ascii "{([)]}") = some valid ∧
      (valid = true ↔ Balanced closing (ascii "{([)]}")) := by
  have hall : ((ascii "{([)]}").all fun b => decide (b ∈ brackets)) = true := by decide
  exact isValid_exact (fun _ => 0) (fun b hb => of_decide_eq_true (List.all_eq_true.1 hall b hb))
    (by decide)

example : isValid (fun _ => 0) (ascii "{[]()}") = some true := by decide

end Brackets
end Leetcode
