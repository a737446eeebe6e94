import Mathlib.Data.List.TakeWhile
import Leetcode.Lib.Pairs
import Leetcode.RangeSum.Model

/-!
# The loops of `mergeCount`

The array is `pre ++ (L ++ (R ++ post))` with the two sorted halves `L` and `R`.  A pointer into
the right half stands behind a part of `R` whose elements meet a bound that depends on the element
`x` of the left half; as `L` is sorted, they meet it for the later ones too.

* `advance_sorted`, `drain_sorted` — where a pointer stops.
* `Merged` — the invariant of the loop over `L`.
* `merge_ok` — the pairs across the halves are counted, and the halves merged.
-/

namespace Leetcode
namespace RangeSum

open CLib

/-- The sum between the prefix sums `x` and `y` is in the range. -/
def inRange (lower upper x y : ℤ) : Bool := lower ≤ y - x && y - x ≤ upper

/-! ## Pointers -/

/-- Along a sorted list, the elements that meet a downward closed test come first. -/
theorem length_takeWhile {q : ℤ → Bool} (hdown : ∀ x y, x ≤ y → q y = true → q x = true)
    {l : List ℤ} (hl : l.Pairwise (· ≤ ·)) : (l.takeWhile q).length = l.countP q := by
  induction l with
  | nil => rfl
  | cons y l ih =>
      obtain ⟨hy, hl⟩ := List.pairwise_cons.1 hl
      by_cases hq : q y = true
      · rw [List.takeWhile_cons_of_pos hq, List.length_cons, ih hl, List.countP_cons_of_pos hq]
      · have hnone : l.countP q = 0 := by
          refine List.countP_eq_zero.2 fun z hz hqz => ?_
          exact hq (hdown y z (hy z hz) hqz)
        rw [List.takeWhile_cons_of_neg hq, List.length_nil, List.countP_cons_of_neg hq, hnone]

theorem prefix_split {l m : List ℤ} (h : l <+: m) :
    m.take l.length = l ∧ l ++ m.drop l.length = m := by
  obtain ⟨rest, rfl⟩ := h
  simp

theorem getElem?_middle (a : List ℤ) (y : ℤ) (b : List ℤ) : (a ++ y :: b)[a.length]? = some y := by
  simp

theorem advance_ok (a back post : List ℤ) {test : ℤ → Option Bool} {q : ℤ → Bool}
    (htest : ∀ y ∈ back, test y = some (q y)) :
    advance (a ++ (back ++ post)) test back.length a.length =
      some (a.length + (back.takeWhile q).length) := by
  induction back generalizing a with
  | nil => rfl
  | cons y back ih =>
      obtain ⟨hy, hback⟩ := List.forall_mem_cons.1 htest
      have hnext := ih (a ++ [y]) hback
      rw [List.append_assoc, List.singleton_append, List.length_append, List.length_singleton]
        at hnext
      rw [List.cons_append, List.length_cons, advance, getElem?_middle, Option.bind_some, hy,
        Option.bind_some]
      by_cases hq : q y = true
      · rw [if_pos hq, hnext, List.takeWhile_cons_of_pos hq, List.length_cons]
        congr 1
        omega
      · rw [if_neg hq, List.takeWhile_cons_of_neg hq]
        rfl

theorem drain_ok (a back post : List ℤ) (q : ℤ → Bool) {size : ℕ} (cache : List ℤ)
    (hsize : cache.length + (back.takeWhile q).length ≤ size) :
    drain (a ++ (back ++ post)) q size back.length a.length cache =
      some (a.length + (back.takeWhile q).length, cache ++ back.takeWhile q) := by
  induction back generalizing a cache with
  | nil => simp [drain]
  | cons y back ih =>
      rw [List.cons_append, List.length_cons, drain, getElem?_middle, Option.bind_some]
      by_cases hq : q y = true
      · rw [List.takeWhile_cons_of_pos hq, List.length_cons] at hsize ⊢
        have hnext := ih (a ++ [y]) (cache ++ [y]) (by
          rw [List.length_append, List.length_singleton]
          omega)
        rw [List.append_assoc, List.singleton_append, List.length_append, List.length_singleton]
          at hnext
        rw [if_pos hq, push, if_pos (by omega), Option.bind_some, hnext, List.append_assoc,
          List.singleton_append]
        congr 2
        omega
      · rw [if_neg hq, List.takeWhile_cons_of_neg hq, List.append_nil]
        rfl

section Right

variable {R : List ℤ} {q : ℤ → Bool} {n : ℕ}

/-- A pointer that has passed `n` elements of a sorted `R` goes on to the last one that meets the
test. -/
theorem countP_eq_drop (hdown : ∀ x y, x ≤ y → q y = true → q x = true)
    (hR : R.Pairwise (· ≤ ·)) (hdone : ∀ y ∈ R.take n, q y = true) (hn : n ≤ R.length) :
    R.countP q = n + ((R.drop n).takeWhile q).length := by
  have hsplit : R.countP q = (R.take n).countP q + (R.drop n).countP q := by
    rw [← List.countP_append, List.take_append_drop]
  rw [hsplit, List.countP_eq_length.2 hdone, List.length_take, min_eq_left hn,
    length_takeWhile hdown (hR.drop)]

theorem take_countP (hdown : ∀ x y, x ≤ y → q y = true → q x = true)
    (hR : R.Pairwise (· ≤ ·)) : ∀ y ∈ R.take (R.countP q), q y = true := by
  rw [← length_takeWhile hdown hR, (prefix_split (List.takeWhile_prefix q)).1]
  exact fun y hy => List.mem_takeWhile_imp hy

theorem drop_countP (hdown : ∀ x y, x ≤ y → q y = true → q x = true)
    (hR : R.Pairwise (· ≤ ·)) : ∀ y ∈ R.drop (R.countP q), ¬q y = true := by
  have hfront := List.countP_eq_length.2 (take_countP hdown hR)
  have hsplit : R.countP q = (R.take (R.countP q)).countP q + (R.drop (R.countP q)).countP q := by
    rw [← List.countP_append, List.take_append_drop]
  rw [hfront, List.length_take, min_eq_left List.countP_le_length] at hsplit
  exact List.countP_eq_zero.1 (by omega)

theorem advance_sorted (a post : List ℤ) {test : ℤ → Option Bool}
    (htest : ∀ y ∈ R, test y = some (q y))
    (hdown : ∀ x y, x ≤ y → q y = true → q x = true) (hR : R.Pairwise (· ≤ ·))
    (hdone : ∀ y ∈ R.take n, q y = true) (hn : n ≤ R.length) :
    advance (a ++ (R ++ post)) test (a.length + R.length - (a.length + n)) (a.length + n) =
      some (a.length + R.countP q) := by
  have hback := advance_ok (a ++ R.take n) (R.drop n) post
    fun y hy => htest y (List.mem_of_mem_drop hy)
  have harray : a ++ R.take n ++ (R.drop n ++ post) = a ++ (R ++ post) := by
    rw [List.append_assoc, ← List.append_assoc (R.take n), List.take_append_drop]
  rw [harray, List.length_append, List.length_take, min_eq_left hn, List.length_drop] at hback
  have hrest : a.length + R.length - (a.length + n) = R.length - n := by omega
  rw [hrest, hback, countP_eq_drop hdown hR hdone hn, Nat.add_assoc]

theorem drain_sorted (a post : List ℤ) {size : ℕ} {cache : List ℤ}
    (hdown : ∀ x y, x ≤ y → q y = true → q x = true) (hR : R.Pairwise (· ≤ ·))
    (hdone : ∀ y ∈ R.take n, q y = true) (hn : n ≤ R.length)
    (hsize : cache.length + (R.length - n) ≤ size) :
    ∃ moved, drain (a ++ (R ++ post)) q size (a.length + R.length - (a.length + n)) (a.length + n)
        cache = some (a.length + R.countP q, cache ++ moved) ∧
      R.take (R.countP q) = R.take n ++ moved ∧ R.drop n = moved ++ R.drop (R.countP q) := by
  have hcount := countP_eq_drop hdown hR hdone hn
  have hmoved : ((R.drop n).takeWhile q).length ≤ R.length - n := by
    rw [← List.length_drop]
    exact (List.takeWhile_prefix q).length_le
  have hback := drain_ok (a ++ R.take n) (R.drop n) post q cache (hsize.trans' (by omega))
  have harray : a ++ R.take n ++ (R.drop n ++ post) = a ++ (R ++ post) := by
    rw [List.append_assoc, ← List.append_assoc (R.take n), List.take_append_drop]
  rw [harray, List.length_append, List.length_take, min_eq_left hn, List.length_drop] at hback
  have hrest : a.length + R.length - (a.length + n) = R.length - n := by omega
  obtain ⟨htake, hdrop⟩ := prefix_split (List.takeWhile_prefix q (l := R.drop n))
  refine ⟨(R.drop n).takeWhile q, ?_, ?_, ?_⟩
  · rw [hrest, hback, hcount, Nat.add_assoc]
  · rw [hcount, List.take_add, htake]
  · rw [hcount, ← List.drop_drop]
    exact hdrop.symm

end Right

/-! ## The loop over the left half -/

/-- A test on an element `x` of the left half and one of the right half: it holds for a part of
the sorted right half, and for no smaller part when `x` grows. -/
structure Bound (P : ℤ → ℤ → Bool) : Prop where
  down : ∀ x y y', y ≤ y' → P x y' = true → P x y = true
  up : ∀ x x' y, x ≤ x' → P x y = true → P x' y = true

/-- A test of the difference of the two that small differences pass. -/
theorem bound_sub {P : ℤ → ℤ → Bool} {q : ℤ → Prop} (hP : ∀ x y, P x y = true ↔ q (y - x))
    (hq : ∀ d d', d ≤ d' → q d' → q d) : Bound P where
  down x y y' hy h := (hP x y).2 (hq _ _ (by omega) ((hP x y').1 h))
  up x x' y hx h := (hP x' y).2 (hq _ _ (by omega) ((hP x y).1 h))

theorem bound_lt (lower : ℤ) : Bound fun x y => y - x < lower :=
  bound_sub (fun _ _ => decide_eq_true_iff) fun _ _ hd h => hd.trans_lt h

theorem bound_le (upper : ℤ) : Bound fun x y => y - x ≤ upper :=
  bound_sub (fun _ _ => decide_eq_true_iff) fun _ _ hd h => hd.trans h

theorem bound_smaller : Bound fun x y => y < x := by
  have hdiff : ∀ x y : ℤ, decide (y < x) = true ↔ y - x < 0 := by
    intro x y
    rw [decide_eq_true_iff]
    omega
  exact bound_sub hdiff fun _ _ hd h => hd.trans_lt h

/-- The pointer `p` has passed elements of `R` only that meet the test for all of `rest`. -/
def Behind (P : ℤ → ℤ → Bool) (mid : ℕ) (R rest : List ℤ) (p : ℕ) : Prop :=
  ∃ n ≤ R.length, p = mid + n ∧ ∀ y ∈ R.take n, ∀ x ∈ rest, P x y = true

theorem behind_start (P : ℤ → ℤ → Bool) (mid : ℕ) (R rest : List ℤ) : Behind P mid R rest mid :=
  ⟨0, Nat.zero_le _, rfl, by simp⟩

section Loop

variable {P : ℤ → ℤ → Bool} {a R rest : List ℤ} {x : ℤ} {p : ℕ}

/-- For the next element too, when the pointer has moved up to the last one for `x`. -/
theorem behind_next (hP : Bound P) (hR : R.Pairwise (· ≤ ·)) (hrest : ∀ x' ∈ rest, x ≤ x')
    (mid : ℕ) : Behind P mid R rest (mid + R.countP (P x)) := by
  refine ⟨R.countP (P x), List.countP_le_length, rfl, fun y hy x' hx' => ?_⟩
  exact hP.up x x' y (hrest x' hx') (take_countP (hP.down x) hR y hy)

theorem Behind.advance (post : List ℤ) {test : ℤ → Option Bool}
    (h : Behind P a.length R (x :: rest) p) (hP : Bound P) (hR : R.Pairwise (· ≤ ·))
    (htest : ∀ y ∈ R, test y = some (P x y)) :
    advance (a ++ (R ++ post)) test (a.length + R.length - p) p =
      some (a.length + R.countP (P x)) := by
  obtain ⟨n, hn, rfl, hdone⟩ := h
  exact advance_sorted a post htest (hP.down x) hR (fun y hy => hdone y hy x List.mem_cons_self) hn

/-- The part of the cache: it holds `done` and the part of `R` before `t`, in order, and nothing
that is left is smaller. -/
structure Cached (mid : ℕ) (R done rest : List ℤ) (t : ℕ) (cache : List ℤ) : Prop where
  sorted : cache.Pairwise (· ≤ ·)
  contents : ∃ n ≤ R.length, t = mid + n ∧ (∀ y ∈ R.take n, ∀ x ∈ rest, y < x) ∧
    cache.Perm (done ++ R.take n) ∧ ∀ c ∈ cache, ∀ x ∈ rest ++ R.drop n, c ≤ x

/-- The state of the loop when it has gone through `done` and has `rest` left. -/
structure Merged (lower upper : ℤ) (mid : ℕ) (R done rest : List ℤ) (s : Merging) : Prop where
  k : Behind (fun x y => y - x < lower) mid R rest s.k
  j : Behind (fun x y => y - x ≤ upper) mid R rest s.j
  cached : Cached mid R done rest s.t s.cache
  count : s.count = cross (inRange lower upper) done R

/-- The cache gets the next part of `R`, whose elements are smaller than `x`, and then `x`. -/
theorem cached_extend (mid : ℕ) {done cache moved : List ℤ} {n m : ℕ}
    (hsorted : cache.Pairwise (· ≤ ·)) (hperm : cache.Perm (done ++ R.take n))
    (hle : ∀ c ∈ cache, ∀ z ∈ x :: rest ++ R.drop n, c ≤ z) (hR : R.Pairwise (· ≤ ·))
    (hrest : ∀ x' ∈ rest, x ≤ x') (hm : m ≤ R.length) (htake : R.take m = R.take n ++ moved)
    (hdrop : R.drop n = moved ++ R.drop m) (hbefore : ∀ y ∈ R.take m, y < x)
    (hafter : ∀ y ∈ R.drop m, x ≤ y) :
    Cached mid R (done ++ [x]) rest (mid + m) (cache ++ moved ++ [x]) := by
  have hmoved : ∀ y ∈ moved, y < x := by
    intro y hy
    refine hbefore y ?_
    rw [htake]
    exact List.mem_append_right _ hy
  -- Everything in the cache is at most `x`, and what is left is at least `x`.
  have hfront : ∀ c ∈ cache ++ moved, c ≤ x := by
    intro c hc
    rcases List.mem_append.1 hc with hc | hc
    · exact hle c hc x (by simp)
    · exact (hmoved c hc).le
  have hback : ∀ z ∈ rest ++ R.drop m, x ≤ z := by
    intro z hz
    rcases List.mem_append.1 hz with hz | hz
    · exact hrest z hz
    · exact hafter z hz
  have hmsorted : moved.Pairwise (· ≤ ·) := by
    have hdropped := hR.drop (i := n)
    rw [hdrop] at hdropped
    exact (List.pairwise_append.1 hdropped).1
  have hjoin : (cache ++ moved).Pairwise (· ≤ ·) := by
    refine List.pairwise_append.2 ⟨hsorted, hmsorted, fun c hc y hy => hle c hc y ?_⟩
    rw [hdrop]
    simp [hy]
  refine ⟨?_, m, hm, rfl, ?_, ?_, ?_⟩
  · refine List.pairwise_append.2 ⟨hjoin, List.pairwise_singleton _ _, fun c hc y hy => ?_⟩
    rw [List.mem_singleton.1 hy]
    exact hfront c hc
  · intro y hy x' hx'
    exact (hbefore y hy).trans_le (hrest x' hx')
  · refine List.perm_iff_count.2 fun c => ?_
    have hc := hperm.count_eq c
    simp only [htake, List.count_append] at hc ⊢
    omega
  · intro c hc z hz
    rcases List.mem_append.1 hc with hc | hc
    · exact (hfront c hc).trans (hback z hz)
    · rw [List.mem_singleton.1 hc]
      exact hback z hz

/-- The elements of `R` that are smaller than `x` go to the cache, and then `x`. -/
theorem Cached.next (post : List ℤ) {size : ℕ} {done cache : List ℤ} {t : ℕ}
    (h : Cached a.length R done (x :: rest) t cache) (hR : R.Pairwise (· ≤ ·))
    (hrest : ∀ x' ∈ rest, x ≤ x') (hsize : done.length + 1 + R.length ≤ size) :
    ∃ t' cache', drain (a ++ (R ++ post)) (· < x) size (a.length + R.length - t) t cache =
        some (t', cache') ∧ push size cache' x = some (cache' ++ [x]) ∧
      Cached a.length R (done ++ [x]) rest t' (cache' ++ [x]) := by
  obtain ⟨hsorted, n, hn, rfl, hbefore, hperm, hle⟩ := h
  have hlen := hperm.length_eq
  rw [List.length_append, List.length_take, min_eq_left hn] at hlen
  have hdown : ∀ y y' : ℤ, y ≤ y' → decide (y' < x) = true → decide (y < x) = true :=
    bound_smaller.down x
  have hroom : cache.length + (R.length - n) ≤ size := by omega
  obtain ⟨moved, hdrain, htake, hdrop⟩ := drain_sorted a post hdown hR
    (fun y hy => decide_eq_true (hbefore y hy x List.mem_cons_self)) hn hroom
  have hcount : R.countP (· < x) ≤ R.length := List.countP_le_length
  have hmoved : n + moved.length = R.countP (· < x) := by
    have hlen := congrArg List.length htake
    rw [List.length_append, List.length_take, List.length_take, min_eq_left hn,
      min_eq_left hcount] at hlen
    exact hlen.symm
  have hsmaller : ∀ y ∈ R.take (R.countP (· < x)), y < x := fun y hy =>
    of_decide_eq_true (take_countP hdown hR y hy)
  have hafter : ∀ y ∈ R.drop (R.countP (· < x)), x ≤ y := fun y hy =>
    not_lt.1 fun hlt => drop_countP hdown hR y hy (decide_eq_true hlt)
  refine ⟨_, _, hdrain, if_pos ?_,
    cached_extend a.length hsorted hperm hle hR hrest hcount htake hdrop hsmaller hafter⟩
  rw [List.length_append]
  omega

/-- What is left of `R` at the end goes behind the cache. -/
theorem Cached.finish (post : List ℤ) {size : ℕ} {L cache : List ℤ} {t : ℕ}
    (h : Cached a.length R L [] t cache) (hR : R.Pairwise (· ≤ ·))
    (hsize : L.length + R.length ≤ size) :
    ∃ M, drain (a ++ (R ++ post)) (fun _ => true) size (a.length + R.length - t) t cache =
        some (a.length + R.length, M) ∧ M.Perm (L ++ R) ∧ M.Pairwise (· ≤ ·) := by
  obtain ⟨hsorted, n, hn, rfl, -, hperm, hle⟩ := h
  have hlen := hperm.length_eq
  rw [List.length_append, List.length_take, min_eq_left hn] at hlen
  have hroom : cache.length + (R.length - n) ≤ size := by omega
  have hall : ∀ x y : ℤ, x ≤ y → true = true → true = true := fun _ _ _ h => h
  obtain ⟨moved, hdrain, htake, hdrop⟩ := drain_sorted a post hall hR (fun _ _ => rfl) hn hroom
  have htrue : R.countP (fun _ => true) = R.length := List.countP_eq_length.2 fun _ _ => rfl
  rw [htrue] at hdrain htake hdrop
  rw [List.drop_length, List.append_nil] at hdrop
  rw [List.take_length] at htake
  refine ⟨cache ++ moved, hdrain, ?_, ?_⟩
  · rw [htake, ← List.append_assoc]
    exact hperm.append_right moved
  · have hmoved : moved.Pairwise (· ≤ ·) := hdrop ▸ hR.drop
    refine List.pairwise_append.2 ⟨hsorted, hmoved, fun c hc y hy => hle c hc y ?_⟩
    rwa [hdrop]

/-- `j - k` elements of `R` are in range for `x`. -/
theorem countP_inRange {lower upper : ℤ} (hbounds : lower ≤ upper) (R : List ℤ) (x : ℤ) :
    ((R.countP fun y => decide (y - x ≤ upper) : ℕ) : ℤ) -
        (R.countP fun y => decide (y - x < lower) : ℕ) = R.countP (inRange lower upper x) := by
  have hrange : inRange lower upper x =
      fun y => decide (y - x ≤ upper) && !decide (y - x < lower) := by
    funext y
    rw [inRange, ← decide_not, Bool.and_comm]
    simp only [not_lt]
  have hsub := countP_sub (p := fun y => decide (y - x ≤ upper))
    (q := fun y => decide (y - x < lower)) (fun y hy => by
      rw [decide_eq_true_eq] at hy ⊢
      omega) R
  rw [hrange]
  omega

theorem mergeRound_ok {lower upper : ℤ} {size i : ℕ} {post done : List ℤ} {s : Merging}
    (hbounds : lower ≤ upper) (hfit : ∀ y ∈ R, longResult (y - x) = some (y - x))
    (h : Merged lower upper a.length R done (x :: rest) s)
    (hx : (a ++ (R ++ post))[i]? = some x) (hR : R.Pairwise (· ≤ ·))
    (hrest : ∀ x' ∈ rest, x ≤ x') (hsize : done.length + 1 + R.length ≤ size) :
    ∃ s', mergeRound (a ++ (R ++ post)) (a.length + R.length) lower upper size s i = some s' ∧
      Merged lower upper a.length R (done ++ [x]) rest s' := by
  obtain ⟨hk, hj, hcached, hcount⟩ := h
  have hklong : ∀ y ∈ R, (longResult (y - x)).map (fun d => decide (d < lower)) =
      some (decide (y - x < lower)) := by
    intro y hy
    rw [hfit y hy, Option.map_some]
  have hjlong : ∀ y ∈ R, (longResult (y - x)).map (fun d => decide (d ≤ upper)) =
      some (decide (y - x ≤ upper)) := by
    intro y hy
    rw [hfit y hy, Option.map_some]
  have hkmove := hk.advance post (bound_lt lower) hR hklong
  have hjmove := hj.advance post (bound_le upper) hR hjlong
  obtain ⟨t', cache', hdrain, hpush, hcached'⟩ := hcached.next post hR hrest hsize
  let j' := a.length + R.countP fun y => decide (y - x ≤ upper)
  let k' := a.length + R.countP fun y => decide (y - x < lower)
  refine ⟨⟨j', k', t', cache' ++ [x], s.count + ((j' : ℤ) - k')⟩, ?_,
    behind_next (bound_lt lower) hR hrest _, behind_next (bound_le upper) hR hrest _, hcached', ?_⟩
  · simp only [mergeRound]
    rw [hx, Option.bind_some, hkmove, Option.bind_some, hjmove, Option.bind_some, hdrain,
      Option.bind_some, hpush, Option.map_some]
  · have hpairs := countP_inRange hbounds R x
    have hcross : ((cross (inRange lower upper) (done ++ [x]) R : ℕ) : ℤ) =
        cross (inRange lower upper) done R + R.countP (inRange lower upper x) := by
      rw [cross_append_left, cross_cons, cross_nil, Nat.add_zero, Int.natCast_add]
    have hj' : (j' : ℤ) = a.length + R.countP fun y => decide (y - x ≤ upper) :=
      Int.natCast_add _ _
    have hk' : (k' : ℤ) = a.length + R.countP fun y => decide (y - x < lower) :=
      Int.natCast_add _ _
    change s.count + ((j' : ℤ) - k') = _
    rw [hcross, hcount, ← hpairs]
    omega

end Loop

theorem mergeLoop_ok {lower upper : ℤ} (hbounds : lower ≤ upper) (pre post : List ℤ) {R : List ℤ}
    {size : ℕ} (done rest : List ℤ) {s : Merging}
    (hfit : ∀ x ∈ rest, ∀ y ∈ R, longResult (y - x) = some (y - x)) (hR : R.Pairwise (· ≤ ·))
    (hrest : rest.Pairwise (· ≤ ·)) (hsize : done.length + rest.length + R.length ≤ size)
    (h : Merged lower upper (pre ++ (done ++ rest)).length R done rest s) :
    ∃ s', (List.range' (pre.length + done.length) rest.length).foldlM
        (mergeRound (pre ++ (done ++ rest) ++ (R ++ post))
          ((pre ++ (done ++ rest)).length + R.length) lower upper size) s = some s' ∧
      Merged lower upper (pre ++ (done ++ rest)).length R (done ++ rest) [] s' := by
  induction rest generalizing done s with
  | nil =>
      refine ⟨s, rfl, ?_⟩
      rw [List.append_nil] at h ⊢
      exact h
  | cons x rest ih =>
      obtain ⟨hfitx, hfit⟩ := List.forall_mem_cons.1 hfit
      obtain ⟨hx, hrest⟩ := List.pairwise_cons.1 hrest
      rw [List.length_cons] at hsize
      have hread : (pre ++ (done ++ x :: rest) ++ (R ++ post))[pre.length + done.length]? =
          some x := by
        have hsplit : pre ++ (done ++ x :: rest) ++ (R ++ post) =
            pre ++ done ++ x :: (rest ++ (R ++ post)) := by simp
        rw [hsplit, ← List.length_append]
        exact getElem?_middle _ _ _
      have hroom : done.length + 1 + R.length ≤ size := by omega
      obtain ⟨s₁, hround, h₁⟩ := mergeRound_ok hbounds hfitx h hread hR hx hroom
      have harray : done ++ [x] ++ rest = done ++ x :: rest := by simp
      have hlen : (done ++ [x]).length = done.length + 1 := by simp
      have hih := ih (done ++ [x]) (s := s₁) hfit hrest (by omega)
      rw [harray, hlen, ← Nat.add_assoc] at hih
      obtain ⟨s', hloop, h'⟩ := hih h₁
      refine ⟨s', ?_, h'⟩
      rw [List.length_cons, List.range'_succ, List.foldlM_cons, hround]
      exact hloop

/-! ## Copying back -/

theorem copyBack_ok (cache a post : List ℤ) {old : List ℤ} (hlen : old.length = cache.length) :
    copyBack cache a.length (a ++ (old ++ post)) = some (a ++ (cache ++ post)) := by
  induction cache generalizing a old with
  | nil =>
      obtain rfl := List.length_eq_zero_iff.1 hlen
      rfl
  | cons c cache ih =>
      obtain ⟨y, old, rfl⟩ := List.exists_cons_of_length_eq_add_one hlen
      have hnext := ih (a ++ [c]) (Nat.succ.inj hlen)
      rw [List.length_append, List.length_singleton] at hnext
      have hset : (a ++ (y :: old ++ post)).set a.length c = a ++ [c] ++ (old ++ post) := by simp
      rw [copyBack, if_pos (by simp), hset, hnext]
      simp

/-- The merge counts the pairs across the halves, and leaves the two halves merged. -/
theorem merge_ok {lower upper : ℤ} (hbounds : lower ≤ upper) (pre L R post : List ℤ)
    (hfit : ∀ x ∈ L, ∀ y ∈ R, longResult (y - x) = some (y - x)) (hL : L.Pairwise (· ≤ ·))
    (hR : R.Pairwise (· ≤ ·)) :
    ∃ M : List ℤ, merge (pre ++ (L ++ (R ++ post))) pre.length (pre.length + L.length)
        (pre.length + L.length + R.length) lower upper =
          some ((cross (inRange lower upper) L R : ℤ), pre ++ (M ++ post)) ∧
      M.Perm (L ++ R) ∧ M.Pairwise (· ≤ ·) := by
  have hmid : (pre ++ L).length = pre.length + L.length := List.length_append
  have hsize : pre.length + L.length + R.length - pre.length = L.length + R.length := by omega
  have hstart : Merged lower upper (pre ++ L).length R [] L
      ⟨pre.length + L.length, pre.length + L.length, pre.length + L.length, [], 0⟩ := by
    rw [hmid]
    exact ⟨behind_start _ _ _ _, behind_start _ _ _ _,
      ⟨.nil, 0, Nat.zero_le _, rfl, by simp, by simp, by simp⟩, rfl⟩
  have hroom : ([] : List ℤ).length + L.length + R.length ≤ L.length + R.length := by simp
  obtain ⟨s, hloop, -, -, hcached, hcount⟩ :=
    mergeLoop_ok hbounds pre post [] L hfit hR hL hroom hstart
  rw [List.nil_append, hmid, List.length_nil, Nat.add_zero, List.append_assoc] at hloop
  rw [List.nil_append] at hcached hcount
  obtain ⟨M, hdrain, hM, hsorted⟩ := hcached.finish post hR le_rfl
  rw [hmid, List.append_assoc] at hdrain
  have hcopy := copyBack_ok M pre post hM.length_eq.symm
  rw [List.append_assoc] at hcopy
  refine ⟨M, ?_, hM, hsorted⟩
  have hleft : pre.length + L.length - pre.length = L.length := Nat.add_sub_cancel_left ..
  rw [merge, hsize, hleft, hloop, Option.bind_some, hdrain, Option.bind_some, hcopy,
    Option.map_some, hcount]

end RangeSum
end Leetcode
