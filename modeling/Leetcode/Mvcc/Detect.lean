import Mathlib.Data.Fintype.Card
import Leetcode.Lib.Cycle

/-!
# `detect_cycle_util` and `detect_deadlock`

The depth-first search of the wait-for graph, with `MAX_TX` as a parameter `N`.
The arrays `visited` and `stack` are global in the source; here they are passed
along.  A recursive call enters an unvisited vertex, so a recursion depth of `N`
is enough: the search always returns.

* `MarksOk` — a visited vertex that has left the stack starts no infinite path.
* `detectCycleUtil_ok` — one call: it finds a cycle, or leaves the stack as it
  was and its vertex finished.
* `detectDeadlock_spec`, `detectDeadlock_exact` — the search returns, and finds a
  cycle exactly when there is one.
-/

namespace Leetcode
namespace Mvcc

open Relation

variable {N : ℕ}

/-- The arrays `visited` and `stack`. -/
structure Marks (N : ℕ) where
  visited : Fin N → Bool
  stack : Fin N → Bool

/-- Both arrays after `memset`. -/
def Marks.clear : Marks N := ⟨fun _ => false, fun _ => false⟩

/-- `visited[v] = 1; stack[v] = 1`. -/
def Marks.enter (m : Marks N) (v : Fin N) : Marks N :=
  ⟨Function.update m.visited v true, Function.update m.stack v true⟩

/-- `stack[v] = 0`. -/
def Marks.leave (m : Marks N) (v : Fin N) : Marks N :=
  { m with stack := Function.update m.stack v false }

/-- The values of a loop variable that runs from 0 to `n`. -/
def vertices (N n : ℕ) : List (Fin N) :=
  (List.finRange N).filter fun u => u.val < n

/-- The loop of `detect_cycle_util`, over the remaining `u`: `row` is `wait_for[v]`
and `visit` the recursive call. -/
def scan (row : Fin N → Bool) (visit : Fin N → Marks N → Option (Bool × Marks N)) :
    List (Fin N) → Marks N → Option (Bool × Marks N)
  | [], m => some (false, m)
  | u :: us, m =>
      if row u then
        if m.visited u then
          if m.stack u then some (true, m) else scan row visit us m
        else
          (visit u m).bind fun (found, m') =>
            if found then some (true, m')
            else if m'.stack u then some (true, m') else scan row visit us m'
      else scan row visit us m

/-- `detect_cycle_util(v, n)`, `none` when the recursion gets deeper than `depth`. -/
def detectCycleUtil (waitFor : Fin N → Fin N → Bool) (n : ℕ) :
    ℕ → Fin N → Marks N → Option (Bool × Marks N)
  | 0, _, _ => none
  | depth + 1, v, m =>
      (scan (waitFor v) (detectCycleUtil waitFor n depth) (vertices N n) (m.enter v)).map
        fun (found, m') => if found then (true, m') else (false, m'.leave v)

/-- The loop of `detect_deadlock`. -/
def detectLoop (visit : Fin N → Marks N → Option (Bool × Marks N)) :
    List (Fin N) → Marks N → Option Bool
  | [], _ => some false
  | i :: is, m =>
      if m.visited i then detectLoop visit is m
      else (visit i m).bind fun (found, m') =>
        if found then some true else detectLoop visit is m'

/-- `detect_deadlock(n)`. -/
def detectDeadlock (waitFor : Fin N → Fin N → Bool) (n : ℕ) : Option Bool :=
  detectLoop (detectCycleUtil waitFor n N) (vertices N n) Marks.clear

/-! ## The marks -/

theorem mem_vertices {n : ℕ} {u : Fin N} : u ∈ vertices N n ↔ u.val < n := by
  simp [vertices]

@[simp] theorem Marks.visited_enter (m : Marks N) (v u : Fin N) :
    (m.enter v).visited u = true ↔ u = v ∨ m.visited u = true := by
  by_cases h : u = v
  · simp [Marks.enter, h]
  · simp [Marks.enter, h]

@[simp] theorem Marks.stack_enter (m : Marks N) (v u : Fin N) :
    (m.enter v).stack u = true ↔ u = v ∨ m.stack u = true := by
  by_cases h : u = v
  · simp [Marks.enter, h]
  · simp [Marks.enter, h]

/-- How many vertices are unvisited. -/
def Marks.unvisited (m : Marks N) : ℕ :=
  (Finset.univ.filter fun u => m.visited u = false).card

theorem Marks.unvisited_le (m : Marks N) : m.unvisited ≤ N := by
  unfold Marks.unvisited
  exact (Finset.card_le_univ _).trans_eq (Fintype.card_fin N)

/-- Visiting more leaves less. -/
theorem Marks.unvisited_mono {m m' : Marks N}
    (h : ∀ u, m.visited u = true → m'.visited u = true) : m'.unvisited ≤ m.unvisited := by
  apply Finset.card_le_card
  intro u hu
  simp only [Finset.mem_filter, Finset.mem_univ, true_and] at hu ⊢
  apply Bool.eq_false_iff.2
  intro hvis
  rw [h u hvis] at hu
  cases hu

theorem Marks.unvisited_enter_lt {m : Marks N} {v : Fin N} (hv : m.visited v = false) :
    (m.enter v).unvisited < m.unvisited := by
  apply Finset.card_lt_card
  rw [Finset.ssubset_iff_of_subset]
  · refine ⟨v, by simpa using hv, ?_⟩
    simp
  · intro u hu
    simp only [Finset.mem_filter, Finset.mem_univ, true_and] at hu ⊢
    have hnot : ¬(m.enter v).visited u = true := by rw [hu]; simp
    rw [Marks.visited_enter, not_or] at hnot
    exact Bool.eq_false_iff.2 hnot.2

/-! ## The search -/

variable {waitFor : Fin N → Fin N → Bool} {n : ℕ}

/-- The edges of the graph on the vertices `0 .. n - 1`. -/
def Edge (waitFor : Fin N → Fin N → Bool) (n : ℕ) (v u : Fin N) : Prop :=
  waitFor v u = true ∧ u.val < n

/-- The stack is visited, and a visited vertex that has left the stack starts no
infinite path. -/
structure MarksOk (waitFor : Fin N → Fin N → Bool) (n : ℕ) (m : Marks N) : Prop where
  stack_visited : ∀ u, m.stack u = true → m.visited u = true
  finished : ∀ u, m.visited u = true → m.stack u = false →
    Acc (Function.swap (Edge waitFor n)) u

theorem marksOk_clear : MarksOk waitFor n Marks.clear := by
  constructor
  · intro u hu
    cases hu
  · intro u hu
    cases hu

/-- A call has returned: it has found a cycle, or kept the stack, visited what was
visited and achieved `goal`. -/
def Returns (waitFor : Fin N → Fin N → Bool) (n : ℕ) (m : Marks N) (goal : Marks N → Prop)
    (result : Option (Bool × Marks N)) : Prop :=
  ∃ found m', result = some (found, m') ∧
    (found = true → ∃ v, TransGen (Edge waitFor n) v v) ∧
    (found = false → m'.stack = m.stack ∧ (∀ u, m.visited u = true → m'.visited u = true) ∧
      MarksOk waitFor n m' ∧ goal m')

theorem Returns.found {m m' : Marks N} {goal : Marks N → Prop}
    (h : ∃ v, TransGen (Edge waitFor n) v v) :
    Returns waitFor n m goal (some (true, m')) :=
  ⟨true, m', rfl, fun _ => h, nofun⟩

/-- What `scan` needs of the recursive call. -/
def Visits (waitFor : Fin N → Fin N → Bool) (n depth : ℕ)
    (visit : Fin N → Marks N → Option (Bool × Marks N)) : Prop :=
  ∀ u m, MarksOk waitFor n m → m.visited u = false →
    (∀ w, m.stack w = true → ReflTransGen (Edge waitFor n) w u) → m.unvisited ≤ depth →
      Returns waitFor n m (fun m' => m'.visited u = true) (visit u m)

/-- Every successor of `v` in the list is finished. -/
def SuccessorsDone (waitFor : Fin N → Fin N → Bool) (n : ℕ) (v : Fin N)
    (us : List (Fin N)) : Prop :=
  ∀ u ∈ us, waitFor v u = true → Acc (Function.swap (Edge waitFor n)) u

/-- The rest of a loop after its first vertex has been dealt with. -/
theorem Returns.cons {m m₁ : Marks N} {v u : Fin N} {us : List (Fin N)}
    {result : Option (Bool × Marks N)} (hkeep : m₁.stack = m.stack)
    (hgrow : ∀ w, m.visited w = true → m₁.visited w = true)
    (hu : waitFor v u = true → Acc (Function.swap (Edge waitFor n)) u)
    (h : Returns waitFor n m₁ (fun _ => SuccessorsDone waitFor n v us) result) :
    Returns waitFor n m (fun _ => SuccessorsDone waitFor n v (u :: us)) result := by
  obtain ⟨found, m', hresult, hf, hnf⟩ := h
  refine ⟨found, m', hresult, hf, fun hfalse => ?_⟩
  obtain ⟨hkeep', hgrow', hok, hdone⟩ := hnf hfalse
  refine ⟨hkeep'.trans hkeep, fun w hw => hgrow' w (hgrow w hw), hok, fun w hw hrow => ?_⟩
  rcases List.mem_cons.1 hw with rfl | hw
  · exact hu hrow
  · exact hdone w hw hrow

/-- The loop of one vertex: everything on the stack reaches the vertex, and after
the loop all its successors in the list are finished. -/
theorem scan_ok {depth : ℕ} {visit : Fin N → Marks N → Option (Bool × Marks N)} {v : Fin N}
    (hvisit : Visits waitFor n depth visit) (us : List (Fin N)) (hus : ∀ u ∈ us, u.val < n)
    (m : Marks N) (hm : MarksOk waitFor n m)
    (hstack : ∀ w, m.stack w = true → ReflTransGen (Edge waitFor n) w v)
    (hdepth : m.unvisited ≤ depth) :
    Returns waitFor n m (fun _ => SuccessorsDone waitFor n v us)
      (scan (waitFor v) visit us m) := by
  induction us generalizing m with
  | nil => exact ⟨false, m, rfl, nofun, fun _ => ⟨rfl, fun _ h => h, hm, nofun⟩⟩
  | cons u us ih =>
      have hrest : ∀ u ∈ us, u.val < n := fun w hw => hus w (List.mem_cons_of_mem _ hw)
      unfold scan
      by_cases hrow : waitFor v u = true
      · have hedge : Edge waitFor n v u := ⟨hrow, hus u List.mem_cons_self⟩
        rw [if_pos hrow]
        by_cases hvis : m.visited u = true
        · rw [if_pos hvis]
          by_cases hon : m.stack u = true
          · -- The edge closes a walk from `u` along the stack.
            rw [if_pos hon]
            exact .found ⟨u, TransGen.tail' (hstack u hon) hedge⟩
          -- Visited and off the stack: all paths from `u` end.
          · rw [if_neg hon]
            have hacc := hm.finished u hvis (Bool.eq_false_iff.2 hon)
            exact .cons rfl (fun _ h => h) (fun _ => hacc) (ih hrest m hm hstack hdepth)
        -- Not visited: the recursive call, with everything on the stack still above `u`.
        · rw [if_neg hvis]
          obtain ⟨found, m₁, hcall, hf, hnf⟩ := hvisit u m hm (Bool.eq_false_iff.2 hvis)
            (fun w hw => (hstack w hw).tail hedge) hdepth
          rw [hcall, Option.bind_some]
          cases found with
          | true => exact .found (hf rfl)
          | false =>
              obtain ⟨hkeep, hgrow, hok, hvis₁⟩ := hnf rfl
              -- The call has taken `u` off the stack again.
              have hoff : m₁.stack u = false := by
                rw [hkeep]
                apply Bool.eq_false_iff.2
                intro hon
                exact hvis (hm.stack_visited u hon)
              have hacc := hok.finished u hvis₁ hoff
              simp only [Bool.false_eq_true, if_false, hoff]
              apply Returns.cons hkeep hgrow (fun _ => hacc)
              apply ih hrest m₁ hok
              · rw [hkeep]
                exact hstack
              · exact (Marks.unvisited_mono hgrow).trans hdepth
      · rw [if_neg hrow]
        exact .cons rfl (fun _ h => h) (fun h => absurd h hrow) (ih hrest m hm hstack hdepth)

theorem marksOk_enter {m : Marks N} {v : Fin N} (hm : MarksOk waitFor n m) :
    MarksOk waitFor n (m.enter v) := by
  constructor
  · intro u hu
    rw [Marks.stack_enter] at hu
    rw [Marks.visited_enter]
    exact hu.imp_right (hm.stack_visited u)
  · intro u hu hoff
    have hoff' : ¬(m.enter v).stack u = true := by rw [hoff]; simp
    rw [Marks.stack_enter, not_or] at hoff'
    rw [Marks.visited_enter] at hu
    exact hm.finished u (hu.resolve_left hoff'.1) (Bool.eq_false_iff.2 hoff'.2)

/-- A call on an unvisited vertex that everything on the stack reaches. -/
theorem detectCycleUtil_ok (depth : ℕ) :
    Visits waitFor n depth (detectCycleUtil waitFor n depth) := by
  induction depth with
  | zero =>
      intro v m _ hv _ hdepth
      -- The depth bounds the unvisited vertices, and `v` is one of them.
      have hlt := Marks.unvisited_enter_lt hv
      omega
  | succ depth ih =>
      intro v m hm hv hstack hdepth
      have hlt := Marks.unvisited_enter_lt hv
      have hreach : ∀ w, (m.enter v).stack w = true → ReflTransGen (Edge waitFor n) w v := by
        intro w hw
        rw [Marks.stack_enter] at hw
        rcases hw with rfl | hw
        · exact .refl
        · exact hstack w hw
      obtain ⟨found, m', hscan, hf, hnf⟩ := scan_ok ih (vertices N n)
        (fun u hu => mem_vertices.1 hu) (m.enter v) (marksOk_enter hm) hreach (by omega)
      unfold detectCycleUtil
      rw [hscan, Option.map_some]
      cases found with
      | true => exact .found (hf rfl)
      | false =>
          obtain ⟨hkeep, hgrow, hok, hgoal⟩ := hnf rfl
          have hoff : m.stack v = false := by
            apply Bool.eq_false_iff.2
            intro hon
            rw [hm.stack_visited v hon] at hv
            cases hv
          -- All successors are finished, so `v` is.
          have hacc : Acc (Function.swap (Edge waitFor n)) v := by
            constructor
            intro u hu
            exact hgoal u (mem_vertices.2 hu.2) hu.1
          refine ⟨false, m'.leave v, rfl, nofun, fun _ => ⟨?_, ?_, ?_, ?_⟩⟩
          · ext1 u
            by_cases hu : u = v
            · subst hu
              simp [Marks.leave, hoff]
            · simp [Marks.leave, hkeep, Marks.enter, hu]
          · intro u hu
            exact hgrow u ((Marks.visited_enter m v u).2 (Or.inr hu))
          · constructor
            · intro u hu
              by_cases huv : u = v
              · subst huv
                exact hgrow u ((Marks.visited_enter m u u).2 (Or.inl rfl))
              · apply hok.stack_visited u
                simpa [Marks.leave, huv] using hu
            · intro u hu hoff
              by_cases huv : u = v
              · subst huv
                exact hacc
              · apply hok.finished u hu
                simpa [Marks.leave, huv] using hoff
          · exact hgrow v ((Marks.visited_enter m v v).2 (Or.inl rfl))

/-- The outer loop, started with an empty stack. -/
theorem detectLoop_ok (is : List (Fin N)) (m : Marks N) (hm : MarksOk waitFor n m)
    (hempty : ∀ u, m.stack u = false) :
    ∃ found, detectLoop (detectCycleUtil waitFor n N) is m = some found ∧
      (found = true → ∃ v, TransGen (Edge waitFor n) v v) ∧
      (found = false → ∀ i ∈ is, Acc (Function.swap (Edge waitFor n)) i) := by
  induction is generalizing m with
  | nil => exact ⟨false, rfl, nofun, fun _ => nofun⟩
  | cons i is ih =>
      unfold detectLoop
      by_cases hvis : m.visited i = true
      · rw [if_pos hvis]
        obtain ⟨found, hloop, hf, hnf⟩ := ih m hm hempty
        refine ⟨found, hloop, hf, fun hfalse => ?_⟩
        exact List.forall_mem_cons.2 ⟨hm.finished i hvis (hempty i), hnf hfalse⟩
      · rw [if_neg hvis]
        obtain ⟨found, m', hcall, hf, hnf⟩ := detectCycleUtil_ok N i m hm
          (Bool.eq_false_iff.2 hvis) (fun w hw => by rw [hempty w] at hw; cases hw)
          m.unvisited_le
        rw [hcall, Option.bind_some]
        cases found with
        | true => exact ⟨true, rfl, hf, nofun⟩
        | false =>
            obtain ⟨hkeep, -, hok, hvis'⟩ := hnf rfl
            have hempty' : ∀ u, m'.stack u = false := by rw [hkeep]; exact hempty
            obtain ⟨found, hloop, hf', hnf'⟩ := ih m' hok hempty'
            refine ⟨found, hloop, hf', fun hfalse => ?_⟩
            exact List.forall_mem_cons.2 ⟨hok.finished i hvis' (hempty' i), hnf' hfalse⟩

/-- The search returns, and finds a cycle exactly when there is one. -/
theorem detectDeadlock_spec (waitFor : Fin N → Fin N → Bool) (n : ℕ) :
    ∃ found, detectDeadlock waitFor n = some found ∧
      (found = true ↔ ∃ v, TransGen (Edge waitFor n) v v) := by
  have hclear : MarksOk waitFor n Marks.clear := marksOk_clear
  obtain ⟨found, hloop, hf, hnf⟩ := detectLoop_ok (vertices N n) Marks.clear hclear fun _ => rfl
  refine ⟨found, hloop, hf, ?_⟩
  rintro ⟨v, hv⟩
  cases found with
  | true => rfl
  | false =>
      -- A vertex of a cycle is the end of an edge, so the loop has started there.
      obtain ⟨w, -, hwv⟩ := TransGen.tail'_iff.1 hv
      exact absurd hv (CLib.not_transGen_of_acc (hnf rfl v (mem_vertices.2 hwv.2)))

/-- The same edges on the first `n` vertices alone. -/
def WaitsFor (waitFor : Fin N → Fin N → Bool) (h : n ≤ N) (v u : Fin n) : Prop :=
  waitFor (Fin.castLE h v) (Fin.castLE h u) = true

/-- A walk from one of the first `n` vertices does not leave them. -/
theorem transGen_waitsFor (h : n ≤ N) {v u : Fin N} (hwalk : TransGen (Edge waitFor n) v u)
    (hv : v.val < n) :
    ∃ hu : u.val < n, TransGen (WaitsFor waitFor h) ⟨v, hv⟩ ⟨u, hu⟩ := by
  induction hwalk with
  | single hedge => exact ⟨hedge.2, .single hedge.1⟩
  | tail _ hedge ih =>
      obtain ⟨hmid, hwalk⟩ := ih
      exact ⟨hedge.2, hwalk.tail hedge.1⟩

/-- `detect_deadlock(n)` returns, and says whether the graph on the first `n` vertices has a
cycle. -/
theorem detectDeadlock_exact (h : n ≤ N) (waitFor : Fin N → Fin N → Bool) :
    ∃ found, detectDeadlock waitFor n = some found ∧
      (found = true ↔ ∃ c : Cycle (Fin n), c ≠ Cycle.nil ∧ c.Nodup ∧
        c.Chain fun v u => waitFor (Fin.castLE h v) (Fin.castLE h u) = true) := by
  obtain ⟨found, hdetect, hfound⟩ := detectDeadlock_spec waitFor n
  refine ⟨found, hdetect, hfound.trans ⟨?_, ?_⟩⟩
  · rintro ⟨v, hwalk⟩
    -- A vertex of a closed walk is the end of an edge.
    obtain ⟨w, -, hlast⟩ := TransGen.tail'_iff.1 hwalk
    obtain ⟨hv, hwalk⟩ := transGen_waitsFor h hwalk hlast.2
    exact CLib.exists_cycle_of_transGen hwalk
  · rintro ⟨c, hne, -, hchain⟩
    obtain ⟨v, -, hwalk⟩ := CLib.exists_transGen_of_cycle hne hchain
    have hedge : ∀ v u : Fin n, WaitsFor waitFor h v u →
        Edge waitFor n (Fin.castLE h v) (Fin.castLE h u) := fun v u huv => ⟨huv, u.isLt⟩
    exact ⟨Fin.castLE h v, hwalk.lift (Fin.castLE h) hedge⟩

/-- A self-loop and an edge that leads out of the graph. -/
theorem detectDeadlock_exact_self_loop :
    ∃ found, detectDeadlock (fun v u : Fin 3 => decide (v = 1 ∧ u ≠ 0)) 2 = some found ∧
      (found = true ↔ ∃ c : Cycle (Fin 2), c ≠ Cycle.nil ∧ c.Nodup ∧
        c.Chain fun v u => decide (Fin.castLE (by decide : 2 ≤ 3) v = 1 ∧
          Fin.castLE (by decide : 2 ≤ 3) u ≠ 0) = true) :=
  detectDeadlock_exact (by decide) fun v u : Fin 3 => decide (v = 1 ∧ u ≠ 0)

end Mvcc
end Leetcode
