import Mathlib.Data.List.TakeWhile

/-!
# Words

`words p l` lists the maximal runs of elements of `l` that satisfy `p`: the non-empty
pieces between the other elements.  A list may be cut in front of a separator without
cutting a word (`words_append`), and one pass that remembers whether it is in a word
counts the words (`starts_false`).
-/

namespace CLib

variable {α : Type*}

/-- The maximal runs of elements that satisfy `p`. -/
def words (p : α → Bool) (l : List α) : List (List α) :=
  (l.splitOnP fun x => !p x).filter fun w => !w.isEmpty

variable {p : α → Bool} {x : α} {l l₁ l₂ : List α}

@[simp] theorem words_nil : words p [] = [] := rfl

theorem words_append_cons (hx : p x = false) :
    words p (l₁ ++ x :: l₂) = words p l₁ ++ words p l₂ := by
  unfold words
  rw [List.splitOnP_append_cons l₁ l₂ (by rw [hx]; rfl), List.filter_append]

theorem words_cons_of_not (hx : p x = false) : words p (x :: l) = words p l := by
  have happend : words p ([] ++ x :: l) = words p [] ++ words p l := words_append_cons hx
  exact happend

/-- A list may be cut where the second part does not go on with a word. -/
theorem words_append (h : ∀ y, l₂.head? = some y → p y = false) :
    words p (l₁ ++ l₂) = words p l₁ ++ words p l₂ := by
  cases l₂ with
  | nil => rw [List.append_nil, words_nil, List.append_nil]
  | cons y l₂ =>
      have hy := h y rfl
      rw [words_append_cons hy, words_cons_of_not hy]

theorem words_of_all (hne : l ≠ []) (h : ∀ y ∈ l, p y = true) : words p l = [l] := by
  unfold words
  rw [List.splitOnP_eq_singleton fun y hy => by rw [h y hy]; rfl]
  simp [hne]

theorem head?_dropWhile_not {y : α} (hy : (l.dropWhile p).head? = some y) : p y = false := by
  have hnot := List.head?_dropWhile_not p l
  rw [hy] at hnot
  exact Bool.eq_false_iff.2 (by simpa using hnot)

theorem words_takeWhile (hx : p x = true) :
    words p (x :: l.takeWhile p) = [x :: l.takeWhile p] := by
  refine words_of_all (List.cons_ne_nil _ _) fun y hy => ?_
  rcases List.mem_cons.1 hy with rfl | hmem
  · exact hx
  · exact List.mem_takeWhile_imp hmem

/-- The first word of a list that begins with one. -/
theorem words_cons_of (hx : p x = true) :
    words p (x :: l) = (x :: l.takeWhile p) :: words p (l.dropWhile p) := by
  calc words p (x :: l)
      = words p ((x :: l.takeWhile p) ++ l.dropWhile p) := by
        rw [List.cons_append, List.takeWhile_append_dropWhile]
    _ = words p (x :: l.takeWhile p) ++ words p (l.dropWhile p) :=
        words_append fun y hy => head?_dropWhile_not hy
    _ = (x :: l.takeWhile p) :: words p (l.dropWhile p) := by
        rw [words_takeWhile hx, List.singleton_append]

/-! ## Counting in one pass -/

/-- How many elements begin a word, where the first one does not if `inWord`. -/
def starts (p : α → Bool) : Bool → List α → ℕ
  | _, [] => 0
  | inWord, x :: l => if p x then (!inWord).toNat + starts p true l else starts p false l

/-- In a word the pass first goes to its end. -/
theorem starts_eq (inWord : Bool) (l : List α) :
    starts p inWord l = (words p (if inWord then l.dropWhile p else l)).length := by
  induction l generalizing inWord with
  | nil => cases inWord <;> rfl
  | cons x l ih =>
      rw [starts]
      cases hx : p x with
      | true =>
          rw [if_pos rfl, ih true, if_pos rfl]
          cases inWord with
          | true =>
              rw [if_pos rfl, List.dropWhile_cons_of_pos hx]
              exact Nat.zero_add _
          | false =>
              rw [if_neg Bool.false_ne_true, words_cons_of hx, List.length_cons]
              exact Nat.add_comm 1 _
      | false =>
          rw [if_neg Bool.false_ne_true, ih false, if_neg Bool.false_ne_true]
          cases inWord with
          | true =>
              rw [if_pos rfl, List.dropWhile_cons_of_neg (by rw [hx]; nofun),
                words_cons_of_not hx]
          | false => rw [if_neg Bool.false_ne_true, words_cons_of_not hx]

/-- The pass from the beginning counts the words. -/
theorem starts_false (l : List α) : starts p false l = (words p l).length :=
  starts_eq false l

theorem starts_le_length (inWord : Bool) (l : List α) : starts p inWord l ≤ l.length := by
  induction l generalizing inWord with
  | nil => exact Nat.le_refl 0
  | cons x l ih =>
      have hnot := (!inWord).toNat_le
      have htrue := ih true
      have hfalse := ih false
      rw [starts, List.length_cons]
      split <;> omega

theorem length_words_le (l : List α) : (words p l).length ≤ l.length :=
  (starts_false l).symm.trans_le (starts_le_length false l)

end CLib
