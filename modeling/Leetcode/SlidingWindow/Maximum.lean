import Leetcode.SlidingWindow.Model
import Leetcode.Lib.MonoQueue
import Mathlib.Data.List.GetD
import Mathlib.Order.Bounds.Basic

/-!
# What `maxSlidingWindow` returns

`dq` is the queue of a sliding maximum, from `head` up to `tail`.  `Loop` is what holds of the
variables for a given window, and `Inv` says for every place in the loop which window it is.

* `inv_step` — a step is possible, keeps the invariant and comes closer to the end.
* `maxSlidingWindow_exact` — the result, and what holds throughout the loop.
-/

namespace Leetcode
namespace SlidingWindow

open CLib

/-- The value at an index. -/
def val (nums : List ℤ) (j : ℤ) : ℤ := nums.getD j.toNat 0

/-- The queue. -/
def queue (v : Vars) : List ℤ := segment v.dq v.head v.tail

/-- `m` is the maximum of the window from `j` on. -/
def IsMaximum (nums : List ℤ) (k : ℤ) (j : ℕ) (m : ℤ) : Prop :=
  IsGreatest {x | x ∈ (nums.drop j).take k.toNat} m

/-- The queue is that of the window from `lo` up to `hi`, and the results up to `i` are there. -/
structure Loop (nums : List ℤ) (k lo hi : ℤ) (P : ℤ → Prop) (v : Vars) : Prop where
  i_nonneg : 0 ≤ v.i
  head_nonneg : 0 ≤ v.head
  head_le : v.head ≤ v.tail
  tail_le : v.tail ≤ hi
  hi_le : hi ≤ nums.length
  dq_length : v.dq.length = nums.length
  result_length : (v.result.length : ℤ) = nums.length - k + 1
  kept : Kept (val nums) lo hi (queue v)
  covered : Covered (val nums) lo hi (queue v) P
  done : ∀ j : ℕ, j + k ≤ v.i → ∃ m, v.result[j]? = some m ∧ IsMaximum nums k j m

/-- The state at every place. -/
def Inv (nums : List ℤ) (k : ℤ) (s : State) : Prop :=
  match s.place with
  | .test => Loop nums k (max 0 (s.i - k)) s.i (fun _ => False) s.toVars
  | .expire =>
      Loop nums k (max 0 (s.i - k)) s.i (fun _ => False) s.toVars ∧ s.i < nums.length
  | .drop =>
      Loop nums k (max 0 (s.i - k + 1)) s.i (fun j => val nums j ≤ val nums s.i) s.toVars ∧
        s.i < nums.length
  | .push =>
      Loop nums k (max 0 (s.i - k + 1)) s.i (fun j => val nums j ≤ val nums s.i) s.toVars ∧
        s.i < nums.length ∧ ∀ j ∈ queue s.toVars, val nums s.i < val nums j
  | .emit => Loop nums k (max 0 (s.i - k + 1)) (s.i + 1) (fun _ => False) s.toVars
  | .finished =>
      Loop nums k (max 0 (s.i - k)) s.i (fun _ => False) s.toVars ∧ s.i = nums.length

section Steps

variable {nums : List ℤ} {k lo hi : ℤ} {P : ℤ → Prop} {v : Vars}

theorem load_val {j : ℤ} (h : 0 ≤ j) (hlt : j < nums.length) :
    load nums j = some (val nums j) := load_getD h hlt 0

/-- The front of the queue, when there is one. -/
theorem Loop.front (h : Loop nums k lo hi P v) (hlt : v.head < v.tail) :
    ∃ d, load v.dq v.head = some d ∧
      queue v = d :: queue { v with head := v.head + 1 } := by
  have hlen : v.tail ≤ v.dq.length := by rw [h.dq_length]; exact h.tail_le.trans h.hi_le
  exact segment_eq_cons h.head_nonneg hlt hlen

/-- The back of the queue, when there is one. -/
theorem Loop.back (h : Loop nums k lo hi P v) (hlt : v.head < v.tail) :
    ∃ d, load v.dq (v.tail - 1) = some d ∧
      queue v = queue { v with tail := v.tail - 1 } ++ [d] := by
  have hlen : v.tail ≤ v.dq.length := by rw [h.dq_length]; exact h.tail_le.trans h.hi_le
  exact segment_eq_concat h.head_nonneg hlt hlen

theorem Loop.empty (h : Loop nums k lo hi P v) (hle : ¬v.head < v.tail) : queue v = [] := by
  have heq : v.tail = v.head := le_antisymm (not_lt.1 hle) h.head_le
  rw [queue, heq, segment_self]

/-- The front goes when it is not in the window that ends at `i`. -/
theorem expire_ok (h : Loop nums k (max 0 (v.i - k)) v.i (fun _ => False) v) :
    ∃ goes, frontGoes k v = some goes ∧
      Loop nums k (max 0 (v.i - k + 1)) v.i (fun j => val nums j ≤ val nums v.i)
        { v with head := if goes then v.head + 1 else v.head } := by
  have hmono : max 0 (v.i - k) ≤ max 0 (v.i - k + 1) := by omega
  by_cases hlt : v.head < v.tail
  · obtain ⟨d, hload, hqueue⟩ := h.front hlt
    have hkept := h.kept
    have hcovered := h.covered
    rw [hqueue] at hkept hcovered
    have hd := (hkept.inside d List.mem_cons_self).1
    refine ⟨decide (d ≤ v.i - k), by rw [frontGoes, if_pos hlt, hload, Option.map_some], ?_⟩
    by_cases hold : d ≤ v.i - k
    · rw [decide_eq_true hold, if_pos rfl]
      exact { h with
        head_nonneg := Int.le_add_one h.head_nonneg
        head_le := hlt
        kept := hkept.expire (by omega)
        covered := (hcovered.expire (by omega) hmono).mono le_rfl fun j hj => hj.elim }
    · have hfirst : ∀ a ∈ (queue v).head?, max 0 (v.i - k + 1) ≤ a := by
        intro a ha
        rw [hqueue] at ha
        obtain rfl := Option.some.inj ha
        omega
      rw [decide_eq_false hold, if_neg Bool.false_ne_true]
      exact { h with
        kept := h.kept.stay hfirst
        covered := h.covered.mono hmono fun j hj => hj.elim }
  · refine ⟨false, by rw [frontGoes, if_neg hlt], ?_⟩
    rw [if_neg Bool.false_ne_true]
    exact { h with
      kept := h.kept.stay (by rw [h.empty hlt]; simp)
      covered := h.covered.mono hmono fun j hj => hj.elim }

/-- The back goes as long as its value is not greater than the new one. -/
theorem drop_ok (h : Loop nums k lo v.i (fun j => val nums j ≤ val nums v.i) v)
    (hi : v.i < nums.length) (hlo : 0 ≤ lo) :
    (backGoes nums v = some true ∧ v.head < v.tail ∧
      Loop nums k lo v.i (fun j => val nums j ≤ val nums v.i) { v with tail := v.tail - 1 }) ∨
    (backGoes nums v = some false ∧ ∀ j ∈ queue v, val nums v.i < val nums j) := by
  by_cases hlt : v.head < v.tail
  · obtain ⟨d, hload, hqueue⟩ := h.back hlt
    have hkept := h.kept
    have hcovered := h.covered
    rw [hqueue] at hkept hcovered
    obtain ⟨hd, hdi⟩ := hkept.inside d (List.mem_append_right _ (List.mem_singleton_self d))
    have hgoes : backGoes nums v = some (decide (val nums d ≤ val nums v.i)) := by
      rw [backGoes, if_pos hlt, hload, Option.bind_some, load_val (hlo.trans hd) (hdi.trans hi),
        Option.bind_some, load_val h.i_nonneg hi, Option.map_some]
    by_cases hle : val nums d ≤ val nums v.i
    · refine Or.inl ⟨by rw [hgoes, decide_eq_true hle], hlt, ?_⟩
      exact { h with
        head_le := Int.le_sub_one_of_lt hlt
        tail_le := (Int.sub_le_self _ Int.one_nonneg).trans h.tail_le
        kept := hkept.drop
        covered := hcovered.drop hle }
    · refine Or.inr ⟨by rw [hgoes, decide_eq_false hle], ?_⟩
      rw [hqueue]
      exact hkept.greater (not_le.1 hle)
  · refine Or.inr ⟨by rw [backGoes, if_neg hlt], ?_⟩
    rw [h.empty hlt]
    simp

theorem push_ok (h : Loop nums k lo v.i (fun j => val nums j ≤ val nums v.i) v)
    (hi : v.i < nums.length) (hlo : lo ≤ v.i)
    (hgreater : ∀ j ∈ queue v, val nums v.i < val nums j) :
    ∃ dq, store v.dq v.tail v.i = some dq ∧
      Loop nums k lo (v.i + 1) (fun _ => False) { v with dq, tail := v.tail + 1 } := by
  have htail : v.tail < v.dq.length := by
    have htail := h.tail_le
    rw [h.dq_length]
    omega
  have hqueue : queue { v with dq := v.dq.set v.tail.toNat v.i, tail := v.tail + 1 } =
      queue v ++ [v.i] := segment_store h.head_nonneg h.head_le htail v.i
  refine ⟨_, store_ok (h.head_nonneg.trans h.head_le) htail v.i, ?_⟩
  exact { h with
    head_le := h.head_le.trans (Int.le_add_one le_rfl)
    tail_le := Int.add_le_add_right h.tail_le 1
    hi_le := hi
    dq_length := by rw [List.length_set, h.dq_length]
    kept := by
      rw [hqueue]
      exact h.kept.push hlo hgreater
    covered := by
      rw [hqueue]
      exact h.covered.push }

/-- The value at the front is the maximum of the window that ends at `i`. -/
theorem Loop.maximum (h : Loop nums k (max 0 (v.i - k + 1)) (v.i + 1) (fun _ => False) v)
    (hk : 1 ≤ k) {j : ℕ} (hj : v.i - k + 1 = j) :
    ∃ d, load v.dq v.head = some d ∧ load nums d = some (val nums d) ∧
      IsMaximum nums k j (val nums d) := by
  have hi := h.hi_le
  have hlt : v.head < v.tail := by
    by_contra hle
    rcases h.covered v.i (by omega) (by omega) with hfalse | ⟨j', hmem, -⟩
    · exact hfalse
    · rw [h.empty hle] at hmem
      cases hmem
  obtain ⟨d, hload, hqueue⟩ := h.front hlt
  have hkept := h.kept
  have hcovered := h.covered
  rw [hqueue] at hkept hcovered
  obtain ⟨hd, hdi⟩ := hkept.inside d List.mem_cons_self
  refine ⟨d, hload, load_val (by omega) (by omega), ?_, ?_⟩
  · show val nums d ∈ (nums.drop j).take k.toNat
    rw [List.mem_take_iff_getElem]
    refine ⟨d.toNat - j, ?_, ?_⟩
    · rw [List.length_drop]
      omega
    · have hin : d.toNat < nums.length := by omega
      have hsum : j + (d.toNat - j) = d.toNat := by omega
      simp only [List.getElem_drop, hsum]
      rw [val, List.getD_eq_getElem _ _ hin]
  · intro x hx
    obtain ⟨p, hp, rfl⟩ := List.mem_take_iff_getElem.1 hx
    rw [List.length_drop] at hp
    have hmax := hcovered.head_max hkept (j := ((j + p : ℕ) : ℤ)) (by omega) (by omega)
    rw [val, Int.toNat_natCast, List.getD_eq_getElem _ _ (by omega)] at hmax
    rw [List.getElem_drop]
    exact hmax

/-- The maximum is stored, when the window is a whole one, and `i` goes up. -/
theorem emit_ok (h : Loop nums k (max 0 (v.i - k + 1)) (v.i + 1) (fun _ => False) v)
    (hk : 1 ≤ k) (hge : v.i ≥ k - 1) :
    ∃ d m result, load v.dq v.head = some d ∧ load nums d = some m ∧
      store v.result (v.i - k + 1) m = some result ∧
      Loop nums k (max 0 (v.i - k + 1)) (v.i + 1) (fun _ => False)
        { v with result, i := v.i + 1 } := by
  obtain ⟨j, hj⟩ := Int.eq_ofNat_of_zero_le (show 0 ≤ v.i - k + 1 by omega)
  obtain ⟨d, hload, hval, hmax⟩ := h.maximum hk hj
  have hin : v.i - k + 1 < v.result.length := by
    have hi := h.hi_le
    rw [h.result_length]
    omega
  refine ⟨d, _, _, hload, hval, store_ok (by omega) hin _, ?_⟩
  exact { h with
    i_nonneg := Int.le_add_one h.i_nonneg
    result_length := by rw [List.length_set, h.result_length]
    done := by
      intro j' hj'
      have hj' : (j' : ℤ) + k ≤ v.i + 1 := hj'
      rw [hj, Int.toNat_natCast]
      rcases eq_or_ne j' j with rfl | hne
      · exact ⟨_, List.getElem?_set_self (by omega), hmax⟩
      · rw [List.getElem?_set_ne hne.symm]
        exact h.done j' (by omega) }

/-- No window ends at `i`, and `i` goes up. -/
theorem skip_ok (h : Loop nums k lo hi P v) (hlt : ¬v.i ≥ k - 1) :
    Loop nums k lo hi P { v with i := v.i + 1 } :=
  { h with
    i_nonneg := Int.le_add_one h.i_nonneg
    done := by
      intro j hj
      have hj : (j : ℤ) + k ≤ v.i + 1 := hj
      omega }

end Steps

/-! ## The machine -/

variable {nums : List ℤ} {k : ℤ}

/-- What is left to do in a round. -/
def Place.rest : Place → ℕ
  | .test => 5
  | .expire => 4
  | .drop => 3
  | .push => 2
  | .emit => 0
  | .finished => 0

/-- A bound for the number of steps that are left. -/
def stepsLeft (nums : List ℤ) (s : State) : ℕ :=
  6 * (nums.length - s.i).toNat + (s.tail - s.head).toNat + s.place.rest

theorem inv_init (junk : ℕ → ℕ → ℤ) (hk : 1 ≤ k) (hle : k ≤ nums.length) :
    Inv nums k (start junk nums k) := by
  have hqueue : queue (start junk nums k).toVars = [] := segment_self _ 0
  show Loop nums k (max 0 (0 - k)) 0 (fun _ => False) (start junk nums k).toVars
  constructor
  · exact le_rfl
  · exact le_rfl
  · exact le_rfl
  · exact le_rfl
  · exact Int.natCast_nonneg _
  · simp [start]
  · simp only [start, List.length_map, List.length_range]
    omega
  · rw [hqueue]
    exact ⟨by simp, List.Pairwise.nil, List.Pairwise.nil⟩
  · intro j hj hlt
    omega
  · intro j hj
    have hj : (j : ℤ) + k ≤ 0 := hj
    omega

/-- A step is possible, keeps the invariant and comes closer to the end. -/
theorem inv_step (hk : 1 ≤ k) {s : State} (h : Inv nums k s) :
    s.place = .finished ∨
      ∃ s', step nums k s = some s' ∧ Inv nums k s' ∧ stepsLeft nums s' < stepsLeft nums s := by
  obtain ⟨v, place⟩ := s
  cases place with
  | test =>
      refine Or.inr ⟨_, rfl, ?_⟩
      have hloop : Loop nums k (max 0 (v.i - k)) v.i (fun _ => False) v := h
      by_cases hlt : v.i < nums.length
      · simp only [if_pos hlt]
        exact ⟨⟨hloop, hlt⟩, Nat.lt_succ_self _⟩
      · simp only [if_neg hlt]
        refine ⟨⟨hloop, le_antisymm hloop.hi_le (not_lt.1 hlt)⟩, ?_⟩
        simp only [stepsLeft, Place.rest]
        omega
  | expire =>
      obtain ⟨hloop, hi⟩ : Loop nums k (max 0 (v.i - k)) v.i (fun _ => False) v ∧ _ := h
      obtain ⟨goes, hgoes, hnext⟩ := expire_ok hloop
      refine Or.inr ⟨⟨{ v with head := if goes then v.head + 1 else v.head }, .drop⟩, ?_,
        ⟨hnext, hi⟩, ?_⟩
      · simp only [step, hgoes, Option.map_some]
      · simp only [stepsLeft, Place.rest]
        split <;> omega
  | drop =>
      obtain ⟨hloop, hi⟩ : Loop nums k (max 0 (v.i - k + 1)) v.i _ v ∧ _ := h
      rcases drop_ok hloop hi (le_max_left _ _) with ⟨hgoes, hlt, hnext⟩ | ⟨hgoes, hgreater⟩
      · refine Or.inr ⟨⟨{ v with tail := v.tail - 1 }, .drop⟩, ?_, ⟨hnext, hi⟩, ?_⟩
        · simp only [step, hgoes, Option.map_some, if_true]
        · simp only [stepsLeft, Place.rest]
          omega
      · refine Or.inr ⟨⟨v, .push⟩, ?_, ⟨hloop, hi, hgreater⟩, ?_⟩
        · simp only [step, hgoes, Option.map_some, if_neg Bool.false_ne_true]
        · simp only [stepsLeft, Place.rest]
          omega
  | push =>
      obtain ⟨hloop, hi, hgreater⟩ : Loop nums k (max 0 (v.i - k + 1)) v.i _ v ∧ _ ∧ _ := h
      have hlo : max 0 (v.i - k + 1) ≤ v.i := by
        have hnonneg := hloop.i_nonneg
        omega
      obtain ⟨dq, hstore, hnext⟩ := push_ok hloop hi hlo hgreater
      refine Or.inr ⟨⟨{ v with dq, tail := v.tail + 1 }, .emit⟩, ?_, hnext, ?_⟩
      · simp only [step, hstore, Option.map_some]
      · have hle := hloop.head_le
        simp only [stepsLeft, Place.rest]
        omega
  | emit =>
      have hloop : Loop nums k (max 0 (v.i - k + 1)) (v.i + 1) (fun _ => False) v := h
      have hwindow : v.i + 1 - k = v.i - k + 1 := by omega
      have hi := hloop.hi_le
      by_cases hge : v.i ≥ k - 1
      · obtain ⟨d, m, result, hload, hval, hstore, hnext⟩ := emit_ok hloop hk hge
        refine Or.inr ⟨⟨{ v with result, i := v.i + 1 }, .test⟩, ?_, ?_, ?_⟩
        · simp only [step, if_pos hge, hload, hval, hstore, Option.bind_some, Option.map_some]
        · rw [← hwindow] at hnext
          exact hnext
        · simp only [stepsLeft, Place.rest]
          omega
      · have hnext := skip_ok hloop hge
        refine Or.inr ⟨⟨{ v with i := v.i + 1 }, .test⟩, ?_, ?_, ?_⟩
        · simp only [step, if_neg hge]
        · rw [← hwindow] at hnext
          exact hnext
        · simp only [stepsLeft, Place.rest]
          omega
  | finished => exact Or.inl rfl

/-- The last index of the window that the queue belongs to. -/
def lastIndex (s : State) : ℤ :=
  match s.place with
  | .drop | .push | .emit => s.i
  | _ => s.i - 1

/-- What is true throughout the loop. -/
structure InLoop (nums : List ℤ) (k : ℤ) (s : State) : Prop where
  head_nonneg : 0 ≤ s.head
  head_le : s.head ≤ s.tail
  tail_le : s.tail ≤ nums.length
  increasing : (queue s.toVars).Pairwise (· < ·)
  window : ∀ j ∈ queue s.toVars, 0 ≤ j ∧ lastIndex s - k < j ∧ j ≤ lastIndex s
  decreasing : (queue s.toVars).Pairwise fun i j => val nums j < val nums i

theorem Loop.inLoop {lo hi : ℤ} {P : ℤ → Prop} {s : State} (h : Loop nums k lo hi P s.toVars)
    (hlo : max 0 (lastIndex s - k + 1) ≤ lo) (hhi : hi ≤ lastIndex s + 1) :
    InLoop nums k s where
  head_nonneg := h.head_nonneg
  head_le := h.head_le
  tail_le := h.tail_le.trans h.hi_le
  increasing := h.kept.increasing
  window := by
    intro j hj
    have hj' := h.kept.inside j hj
    omega
  decreasing := h.kept.decreasing

theorem inv_inLoop {s : State} (h : Inv nums k s) : InLoop nums k s := by
  obtain ⟨v, place⟩ := s
  have hlast : max 0 (v.i - 1 - k + 1) ≤ max 0 (v.i - k) := by omega
  cases place with
  | test => exact Loop.inLoop h hlast (Int.sub_add_cancel _ _).ge
  | expire => exact Loop.inLoop h.1 hlast (Int.sub_add_cancel _ _).ge
  | drop => exact Loop.inLoop h.1 le_rfl (Int.le_add_one le_rfl)
  | push => exact Loop.inLoop h.1 le_rfl (Int.le_add_one le_rfl)
  | emit => exact Loop.inLoop h le_rfl le_rfl
  | finished => exact Loop.inLoop h.1 hlast (Int.sub_add_cancel _ _).ge

/-- `maxSlidingWindow` returns the maxima of all windows.  After any number of steps no index has
left an array, and the queue is as it should be. -/
theorem maxSlidingWindow_exact (junk : ℕ → ℕ → ℤ) (nums : List ℤ) {k : ℤ} (hk : 1 ≤ k)
    (hle : k ≤ nums.length) :
    (∃ result, maxSlidingWindow junk nums k = some (some result, nums.length - k + 1) ∧
      (result.length : ℤ) = nums.length - k + 1 ∧
      ∀ j : ℕ, j + k ≤ nums.length →
        ∃ m, result[j]? = some m ∧ IsGreatest {x | x ∈ (nums.drop j).take k.toNat} m) ∧
    ∀ n, ∃ s, steps (step nums k) n (start junk nums k) = some s ∧ InLoop nums k s := by
  have hinit := inv_init junk hk hle
  have hfew : stepsLeft nums (start junk nums k) < 6 * nums.length + 6 := by
    simp only [stepsLeft, start, Place.rest]
    omega
  have hstay : ∀ s : State, s.place = .finished → step nums k s = some s := by
    intro s hs
    rw [step, hs]
  constructor
  · obtain ⟨s, hsteps, hinv, hs⟩ := steps_halt hstay (fun s => inv_step hk) _ hinit hfew
    rw [Inv, hs] at hinv
    obtain ⟨hloop, hi⟩ := hinv
    refine ⟨s.result, ?_, hloop.result_length, fun j hj => hloop.done j (hi ▸ hj)⟩
    rw [maxSlidingWindow, if_neg (by omega), hsteps, Option.bind_some, if_pos hs]
  · intro n
    have hnext : ∀ s, Inv nums k s → ∃ s', step nums k s = some s' ∧ Inv nums k s' := by
      intro s h
      rcases inv_step hk h with hs | ⟨s', hstep, h', -⟩
      · exact ⟨s, hstay s hs, h⟩
      · exact ⟨s', hstep, h'⟩
    obtain ⟨s, hsteps, hinv⟩ := steps_ok hnext n hinit
    exact ⟨s, hsteps, inv_inLoop hinv⟩

theorem maxSlidingWindow_exact_ties :
    (∃ result, maxSlidingWindow (fun _ _ => 7) [5, 5, 3, 5, 1] 2 = some (some result, 4) ∧
      (result.length : ℤ) = 4 ∧
      ∀ j : ℕ, (j : ℤ) + 2 ≤ 5 →
        ∃ m, result[j]? = some m ∧ IsGreatest {x | x ∈ ([5, 5, 3, 5, 1].drop j).take 2} m) ∧
    ∀ n, ∃ s, steps (step [5, 5, 3, 5, 1] 2) n (start (fun _ _ => 7) [5, 5, 3, 5, 1] 2) = some s ∧
      InLoop [5, 5, 3, 5, 1] 2 s :=
  maxSlidingWindow_exact (fun _ _ => 7) [5, 5, 3, 5, 1] (by decide) (by decide)

end SlidingWindow
end Leetcode
