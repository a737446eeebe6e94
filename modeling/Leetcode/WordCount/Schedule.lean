import Mathlib.Algebra.BigOperators.Ring.Finset
import Leetcode.Lib.Mutex
import Leetcode.Lib.Tally
import Leetcode.WordCount.Parallel
import Leetcode.WordCount.Threads

/-!
# Every schedule of the threads

`main buffer order` adds the counts one after the other.  `Placed` says where the threads can be
and `Adds` that `word_count` has the counts of the threads in `order`, which are those behind
their store: nobody stores between the load and the store of the holder of the mutex.  So a
schedule ends with `main buffer order` for some order (`threads_refine`).  No thread waits for the
mutex for ever and every step takes one of the steps that are left (`State.left`), so a schedule
can be continued to the end unless a count overflows.
-/

namespace Leetcode
namespace WordCount

open CLib

variable {buffer : Bytes} {s s' : State} {t u : Fin MAX_THREADS} {pc : Pc}
  {order : List (Fin MAX_THREADS)}

/-! ## Where the threads are -/

/-- What the thread `t` adds to `word_count`. -/
def threadCount (buffer : Bytes) (t : Fin MAX_THREADS) : Option Int :=
  countWords buffer (start buffer t) (stop buffer t)

/-- Between `pthread_mutex_lock` and `pthread_mutex_unlock`. -/
def Pc.inside : Pc → Bool
  | .load _ | .store _ _ | .unlock => true
  | .unborn | .loop _ _ | .lock _ | .done => false

/-- The rest of the loop gives the count of the thread, and behind the loop the thread has it. -/
def Pc.Counts (buffer : Bytes) (t : Fin MAX_THREADS) : Pc → Prop
  | .loop i acc =>
      ((List.range' i (stop buffer t - i)).foldlM (countRound buffer) acc).map Prod.fst =
        threadCount buffer t
  | .lock count | .load count | .store count _ => threadCount buffer t = some count
  | .unborn | .unlock | .done => True

theorem counts_round {i : ℕ} {acc next : Int × Bool} (h : (Pc.loop i acc).Counts buffer t)
    (hi : i < stop buffer t) (hround : countRound buffer acc i = some next) :
    (Pc.loop (i + 1) next).Counts buffer t := by
  have hlength : stop buffer t - i = stop buffer t - (i + 1) + 1 := by omega
  rw [Pc.Counts, hlength, List.range'_succ, List.foldlM_cons, hround] at h
  exact h

theorem counts_leave {i : ℕ} {acc : Int × Bool} (h : (Pc.loop i acc).Counts buffer t)
    (hi : stop buffer t ≤ i) : (Pc.lock acc.1).Counts buffer t := by
  rw [Pc.Counts, Nat.sub_eq_zero_of_le hi] at h
  exact h.symm

/-- A round is possible when the count of the thread is defined. -/
theorem round_isSome {i : ℕ} {acc : Int × Bool} (h : (Pc.loop i acc).Counts buffer t)
    (hi : i < stop buffer t) (hcount : (threadCount buffer t).isSome) :
    (countRound buffer acc i).isSome := by
  have hlength : stop buffer t - i = stop buffer t - (i + 1) + 1 := by omega
  rw [Pc.Counts, hlength, List.range'_succ, List.foldlM_cons] at h
  cases hround : countRound buffer acc i with
  | some next => rfl
  | none =>
      rw [← h, hround] at hcount
      cases hcount

structure Placed (buffer : Bytes) (s : State) : Prop where
  counts : ∀ t, (s.threads t).Counts buffer t
  guarded : Guarded s.threads Pc.inside s.mutex
  unborn : ∀ t : Fin MAX_THREADS, s.threads t = .unborn ↔ s.created ≤ t
  done : ∀ t : Fin MAX_THREADS, t < s.joined → s.threads t = .done
  created_le : s.created ≤ MAX_THREADS
  joined_le : s.joined ≤ s.created

theorem placed_start (buffer : Bytes) : Placed buffer .start where
  counts _ := trivial
  guarded := guarded_of_nobody fun _ => rfl
  unborn _ := ⟨fun _ => Nat.zero_le _, fun _ => rfl⟩
  done _ ht := absurd ht (Nat.not_lt_zero _)
  created_le := Nat.zero_le _
  joined_le := Nat.le_refl _

/-- A thread that exists and has not returned goes on. -/
theorem Placed.put (h : Placed buffer s) (hthreads : s'.threads = Function.update s.threads t pc)
    (hcreated : s'.created = s.created) (hjoined : s'.joined = s.joined)
    (hborn : s.threads t ≠ .unborn) (hrunning : s.threads t ≠ .done) (hpc : pc ≠ .unborn)
    (hcounts : pc.Counts buffer t)
    (hguarded : Guarded (Function.update s.threads t pc) Pc.inside s'.mutex) :
    Placed buffer s' where
  counts u := by
    rw [hthreads]
    by_cases hut : u = t
    · subst hut
      rw [Function.update_self]
      exact hcounts
    · rw [Function.update_of_ne hut]
      exact h.counts u
  guarded := by
    rw [hthreads]
    exact hguarded
  unborn u := by
    rw [hthreads, hcreated]
    by_cases hut : u = t
    · subst hut
      rw [Function.update_self, ← h.unborn u]
      exact ⟨fun hu => absurd hu hpc, fun hu => absurd hu hborn⟩
    · rw [Function.update_of_ne hut]
      exact h.unborn u
  done u hu := by
    rw [hjoined] at hu
    have hdone := h.done u hu
    have hut : u ≠ t := by
      rintro rfl
      exact hrunning hdone
    rw [hthreads, Function.update_of_ne hut]
    exact hdone
  created_le := hcreated ▸ h.created_le
  joined_le := by
    rw [hcreated, hjoined]
    exact h.joined_le

theorem placed_create (h : Placed buffer s) (hlt : s.created < MAX_THREADS) :
    Placed buffer
      { s.put ⟨s.created, hlt⟩ (.loop (start buffer s.created) (0, false)) with
        created := s.created + 1 } where
  counts u := by
    show (Function.update s.threads _ _ u).Counts buffer u
    by_cases hnew : u = ⟨s.created, hlt⟩
    · subst hnew
      rw [Function.update_self]
      rfl
    · rw [Function.update_of_ne hnew]
      exact h.counts u
  guarded := by
    refine h.guarded.stay ?_
    rw [(h.unborn ⟨s.created, hlt⟩).2 (Nat.le_refl _)]
    rfl
  unborn u := by
    show Function.update s.threads _ _ u = .unborn ↔ s.created + 1 ≤ u
    by_cases hnew : u = ⟨s.created, hlt⟩
    · subst hnew
      rw [Function.update_self]
      exact ⟨nofun, fun hle => absurd hle (Nat.not_succ_le_self _)⟩
    · have hne : (u : ℕ) ≠ s.created := fun heq => hnew (Fin.ext heq)
      rw [Function.update_of_ne hnew, h.unborn u]
      omega
  done u hu := by
    have hdone := h.done u hu
    have hnew : u ≠ ⟨s.created, hlt⟩ := by
      rintro rfl
      exact Nat.not_lt_of_le h.joined_le hu
    exact (Function.update_of_ne hnew ..).trans hdone
  created_le := hlt
  joined_le := Nat.le_succ_of_le h.joined_le

theorem placed_step (h : Placed buffer s) (hstep : Step buffer s s') : Placed buffer s' := by
  cases hstep with
  | create hlt => exact placed_create h hlt
  | join hcreated hlt hdone =>
      refine ⟨h.counts, h.guarded, h.unborn, fun t ht => ?_, h.created_le, ?_⟩
      · rcases Nat.lt_succ_iff_lt_or_eq.1 ht with hbefore | hlast
        · exact h.done t hbefore
        · obtain rfl : t = ⟨s.joined, hlt⟩ := Fin.ext hlast
          exact hdone
      · rw [hcreated]
        exact hlt
  | @round t i acc next hpc hi hround =>
      have hcounts := h.counts t
      rw [hpc] at hcounts
      exact h.put rfl rfl rfl (by simp [hpc]) (by simp [hpc]) nofun
        (counts_round hcounts hi hround) (h.guarded.stay (by rw [hpc]; rfl))
  | @leave t i acc hpc hi =>
      have hcounts := h.counts t
      rw [hpc] at hcounts
      exact h.put rfl rfl rfl (by simp [hpc]) (by simp [hpc]) nofun
        (counts_leave hcounts hi) (h.guarded.stay (by rw [hpc]; rfl))
  | @lock t count hpc hfree =>
      have hcounts := h.counts t
      have hguarded := h.guarded
      rw [hpc] at hcounts
      rw [hfree] at hguarded
      exact h.put rfl rfl rfl (by simp [hpc]) (by simp [hpc]) nofun hcounts
        (hguarded.lock t rfl)
  | @load t count hpc =>
      have hcounts := h.counts t
      rw [hpc] at hcounts
      exact h.put rfl rfl rfl (by simp [hpc]) (by simp [hpc]) nofun hcounts
        (h.guarded.stay (by rw [hpc]; rfl))
  | store hpc =>
      exact h.put rfl rfl rfl (by simp [hpc]) (by simp [hpc]) nofun trivial
        (h.guarded.stay (by rw [hpc]; rfl))
  | unlock hpc =>
      exact h.put rfl rfl rfl (by simp [hpc]) (by simp [hpc]) nofun trivial
        (h.guarded.unlock (by rw [hpc]; rfl) rfl)

/-! ## What has been added -/

/-- The thread is behind its store. -/
def Pc.added : Pc → Bool
  | .unlock | .done => true
  | .unborn | .loop _ _ | .lock _ | .load _ | .store _ _ => false

/-- The threads of `order` have added their counts, and nothing has changed since a load. -/
structure Adds (buffer : Bytes) (order : List (Fin MAX_THREADS)) (s : State) : Prop where
  value : main buffer order = some s.wordCount
  nodup : order.Nodup
  mem : ∀ t, t ∈ order ↔ (s.threads t).added = true
  loaded : ∀ t count v, s.threads t = .store count v → v = s.wordCount

theorem adds_start (buffer : Bytes) : Adds buffer [] .start where
  value := rfl
  nodup := List.nodup_nil
  mem _ := ⟨nofun, nofun⟩
  loaded _ _ _ ht := by cases ht

/-- A step that adds nothing. -/
theorem Adds.aside (h : Adds buffer order s)
    (hthreads : s'.threads = Function.update s.threads t pc)
    (hwordCount : s'.wordCount = s.wordCount) (hadded : pc.added = (s.threads t).added)
    (hloaded : ∀ count v, pc = .store count v → v = s.wordCount) : Adds buffer order s' where
  value := h.value.trans (congrArg some hwordCount.symm)
  nodup := h.nodup
  mem u := by
    rw [hthreads]
    by_cases hut : u = t
    · subst hut
      rw [Function.update_self, hadded]
      exact h.mem u
    · rw [Function.update_of_ne hut]
      exact h.mem u
  loaded u count v hu := by
    rw [hthreads] at hu
    rw [hwordCount]
    by_cases hut : u = t
    · subst hut
      rw [Function.update_self] at hu
      exact hloaded count v hu
    · rw [Function.update_of_ne hut] at hu
      exact h.loaded u count v hu

theorem main_concat (buffer : Bytes) (order : List (Fin MAX_THREADS)) (t : Fin MAX_THREADS) :
    main buffer (order ++ [t]) =
      (main buffer order).bind fun wordCount =>
        (threadCount buffer t).map (wordCount + ·) := by
  rw [main, List.foldlM_append]
  refine congrArg _ (funext fun wordCount => ?_)
  rw [List.foldlM_cons]
  exact bind_pure _

/-- The holder of the mutex stores. -/
theorem Adds.store (h : Adds buffer order s) (hplaced : Placed buffer s) {count loaded : Int}
    (hpc : s.threads t = .store count loaded) :
    Adds buffer (order ++ [t]) { s.put t .unlock with wordCount := loaded + count } where
  value := by
    have hcount := hplaced.counts t
    rw [hpc] at hcount
    rw [main_concat, h.value, h.loaded t count loaded hpc]
    exact congrArg (Option.map _) hcount
  nodup := by
    refine List.nodup_append.2 ⟨h.nodup, List.nodup_singleton t, fun u hu v hv huv => ?_⟩
    have hadded := (h.mem u).1 hu
    rw [huv, List.mem_singleton.1 hv, hpc] at hadded
    cases hadded
  mem u := by
    show u ∈ order ++ [t] ↔ (Function.update s.threads t .unlock u).added = true
    rw [List.mem_append, List.mem_singleton]
    by_cases hut : u = t
    · subst hut
      rw [Function.update_self]
      exact ⟨fun _ => rfl, fun _ => .inr rfl⟩
    · rw [Function.update_of_ne hut, ← h.mem u]
      exact ⟨fun hu => hu.resolve_right hut, .inl⟩
  loaded u count' v hu := by
    replace hu : Function.update s.threads t .unlock u = .store count' v := hu
    by_cases hut : u = t
    · subst hut
      rw [Function.update_self] at hu
      cases hu
    · rw [Function.update_of_ne hut] at hu
      exact absurd (hplaced.guarded.alone (by rw [hpc]; rfl) (by rw [hu]; rfl)) hut

theorem adds_step (h : Adds buffer order s) (hplaced : Placed buffer s)
    (hstep : Step buffer s s') : ∃ order', Adds buffer order' s' := by
  cases hstep with
  | create hlt =>
      refine ⟨order, h.aside (t := ⟨s.created, hlt⟩) rfl rfl ?_ nofun⟩
      rw [(hplaced.unborn ⟨s.created, hlt⟩).2 (Nat.le_refl _)]
      rfl
  | join hcreated hlt hdone => exact ⟨order, h.value, h.nodup, h.mem, h.loaded⟩
  | round hpc hi hround => exact ⟨order, h.aside rfl rfl (by rw [hpc]; rfl) nofun⟩
  | leave hpc hi => exact ⟨order, h.aside rfl rfl (by rw [hpc]; rfl) nofun⟩
  | lock hpc hfree => exact ⟨order, h.aside rfl rfl (by rw [hpc]; rfl) nofun⟩
  | load hpc =>
      exact ⟨order, h.aside rfl rfl (by rw [hpc]; rfl) fun count v hv => (Pc.store.inj hv).2.symm⟩
  | store hpc => exact ⟨order ++ [_], h.store hplaced hpc⟩
  | unlock hpc => exact ⟨order, h.aside rfl rfl (by rw [hpc]; rfl) nofun⟩

/-- When all threads are joined, all have added their counts. -/
theorem Adds.perm (h : Adds buffer order s) (hplaced : Placed buffer s)
    (hjoined : s.joined = MAX_THREADS) : order.Perm (List.finRange MAX_THREADS) := by
  refine (List.perm_ext_iff_of_nodup h.nodup (List.nodup_finRange _)).2 fun t => ?_
  have hdone := hplaced.done t (by rw [hjoined]; exact t.isLt)
  exact ⟨fun _ => List.mem_finRange t, fun _ => (h.mem t).2 (by rw [hdone]; rfl)⟩

/-! ## How many steps are left -/

/-- The steps that a thread has left, its creation among them. -/
def Pc.left (buffer : Bytes) (t : Fin MAX_THREADS) : Pc → ℕ
  | .unborn => stop buffer t - start buffer t + 6
  | .loop i _ => stop buffer t - i + 5
  | .lock _ => 4
  | .load _ => 3
  | .store _ _ => 2
  | .unlock => 1
  | .done => 0

def State.left (buffer : Bytes) (s : State) : ℕ :=
  ∑ t, (s.threads t).left buffer t + (MAX_THREADS - s.joined)

/-- The steps of a whole run. -/
def runSteps (buffer : Bytes) : ℕ :=
  ∑ t : Fin MAX_THREADS, (stop buffer t - start buffer t + 6) + MAX_THREADS

/-- A thread that goes on uses one step. -/
theorem left_put (hleft : pc.left buffer t + 1 = (s.threads t).left buffer t)
    (hthreads : s'.threads = Function.update s.threads t pc) (hjoined : s'.joined = s.joined) :
    s'.left buffer + 1 = s.left buffer := by
  have hsum := sum_update_add s.threads (Pc.left buffer) t pc
  rw [State.left, State.left, hthreads, hjoined]
  omega

theorem left_step (h : Placed buffer s) (hstep : Step buffer s s') :
    s'.left buffer + 1 = s.left buffer := by
  cases hstep with
  | create hlt =>
      refine left_put (t := ⟨s.created, hlt⟩) ?_ rfl rfl
      rw [(h.unborn ⟨s.created, hlt⟩).2 (Nat.le_refl _)]
      rfl
  | join hcreated hlt hdone =>
      show ∑ t, (s.threads t).left buffer t + (MAX_THREADS - (s.joined + 1)) + 1 = _
      rw [State.left]
      omega
  | round hpc hi hround =>
      refine left_put ?_ rfl rfl
      simp only [hpc, Pc.left]
      omega
  | leave hpc hi =>
      refine left_put ?_ rfl rfl
      rw [hpc, Pc.left, Pc.left, Nat.sub_eq_zero_of_le hi]
  | lock hpc hfree => exact left_put (by rw [hpc]; rfl) rfl rfl
  | load hpc => exact left_put (by rw [hpc]; rfl) rfl rfl
  | store hpc => exact left_put (by rw [hpc]; rfl) rfl rfl
  | unlock hpc => exact left_put (by rw [hpc]; rfl) rfl rfl

/-! ## Somebody can go on -/

/-- A thread that is there and has not returned can go on, unless it waits for the mutex. -/
theorem thread_goes_on (h : Placed buffer s) (hcount : (threadCount buffer t).isSome)
    (hborn : s.threads t ≠ .unborn) (hdone : s.threads t ≠ .done)
    (hfree : s.mutex = none ∨ s.mutex = some t) : (threadStep buffer s t).isSome := by
  have hcounts := h.counts t
  cases hpc : s.threads t with
  | unborn => exact absurd hpc hborn
  | done => exact absurd hpc hdone
  | loop i acc =>
      rw [hpc] at hcounts
      by_cases hi : i < stop buffer t
      · simp [threadStep, hpc, hi, round_isSome hcounts hi hcount]
      · simp [threadStep, hpc, hi]
  | lock count =>
      have hnone : s.mutex = none := by
        refine hfree.resolve_right fun howner => ?_
        have hinside := (h.guarded t).2 howner
        rw [hpc] at hinside
        cases hinside
      simp [threadStep, hpc, hnone]
  | load | store | unlock => simp [threadStep, hpc]

/-- As long as a thread is not joined, somebody can go on. -/
theorem somebody_goes_on (h : Placed buffer s) (hcount : ∀ t, (threadCount buffer t).isSome)
    (hjoined : s.joined ≠ MAX_THREADS) : ∃ e, (step buffer s e).isSome := by
  have hlt : s.joined < MAX_THREADS :=
    Nat.lt_of_le_of_ne (Nat.le_trans h.joined_le h.created_le) hjoined
  by_cases hcreated : s.created < MAX_THREADS
  · refine ⟨.create, ?_⟩
    rw [step, dif_pos hcreated]
    rfl
  · have hall : s.created = MAX_THREADS :=
      Nat.le_antisymm h.created_le (Nat.le_of_not_lt hcreated)
    by_cases hdone : s.threads ⟨s.joined, hlt⟩ = .done
    · refine ⟨.join, ?_⟩
      rw [step, dif_pos ⟨hall, hlt⟩, if_pos hdone]
      rfl
    · cases howner : s.mutex with
      | none =>
          refine ⟨.run ⟨s.joined, hlt⟩, thread_goes_on h (hcount _) ?_ hdone (.inl howner)⟩
          rw [Ne, h.unborn, hall]
          exact Nat.not_le_of_lt hlt
      | some u =>
          have hinside := (h.guarded u).2 howner
          refine ⟨.run u, thread_goes_on h (hcount u) ?_ ?_ (.inr howner)⟩
          · intro hpc
            rw [hpc] at hinside
            cases hinside
          · intro hpc
            rw [hpc] at hinside
            cases hinside

/-! ## Whole runs -/

/-- What holds in every state of a run. -/
def Running (buffer : Bytes) (s : State) : Prop :=
  Placed buffer s ∧ ∃ order, Adds buffer order s

theorem running_step (h : Running buffer s) {e : Event} (hstep : step buffer s e = some s') :
    Running buffer s' := by
  obtain ⟨hplaced, order, hadds⟩ := h
  have hrule := Step.of_step hstep
  exact ⟨placed_step hplaced hrule, adds_step hadds hplaced hrule⟩

theorem running_start (buffer : Bytes) : Running buffer .start :=
  ⟨placed_start buffer, [], adds_start buffer⟩

theorem run_left {schedule : List Event}
    (h : Run (step buffer) (fun _ _ => True) s schedule s') (hs : Running buffer s) :
    s'.left buffer + schedule.length = s.left buffer := by
  induction h with
  | nil s => rfl
  | cons _ hstep _ ih =>
      have hfirst := left_step hs.1 (.of_step hstep)
      have hrest := ih (running_step hs hstep)
      rw [List.length_cons]
      omega

/-- No count has overflowed when all threads are joined. -/
theorem Running.counted (h : Running buffer s) (hjoined : s.joined = MAX_THREADS)
    (t : Fin MAX_THREADS) : (threadCount buffer t).isSome := by
  obtain ⟨hplaced, order, hadds⟩ := h
  have hmem : t ∈ order := (hadds.perm hplaced hjoined).mem_iff.2 (List.mem_finRange t)
  rw [Option.isSome_iff_ne_none]
  intro hnone
  have hmain : main buffer order = none := addCounts_none hmem hnone 0
  rw [hadds.value] at hmain
  cases hmain

/-- When `main` has joined its threads, `word_count` is what they add one after the other in some
order, whatever the schedule is.  No schedule is longer than `runSteps`, and one can be continued
until the threads are joined exactly when no thread's `count` overflows. -/
theorem threads_refine {schedule : List Event}
    (h : Run (step buffer) (fun _ _ => True) .start schedule s) :
    (s.joined = MAX_THREADS → ∃ order, order.Perm (List.finRange MAX_THREADS) ∧
      main buffer order = some s.wordCount) ∧
    schedule.length ≤ runSteps buffer ∧
    ((∃ more s', Run (step buffer) (fun _ _ => True) s more s' ∧ s'.joined = MAX_THREADS) ↔
      ∀ t : Fin MAX_THREADS, (countWords buffer (start buffer t) (stop buffer t)).isSome) := by
  have hinvariant {s s' : State} {schedule : List Event} (hs : Running buffer s)
      (hrun : Run (step buffer) (fun _ _ => True) s schedule s') : Running buffer s' :=
    hrun.invariant hs fun _ _ _ hs _ hstep => running_step hs hstep
  have hs := hinvariant (running_start buffer) h
  refine ⟨fun hjoined => ?_, ?_, ?_, fun hcount => ?_⟩
  · obtain ⟨hplaced, order, hadds⟩ := hs
    exact ⟨order, hadds.perm hplaced hjoined, hadds.value⟩
  · have hlength := run_left h (running_start buffer)
    exact (Nat.le_add_left _ _).trans (Nat.le_of_eq hlength)
  · rintro ⟨more, s', hmore, hjoined⟩
    exact (hinvariant hs hmore).counted hjoined
  · refine Run.exists_end (I := Running buffer) (State.left buffer) (fun s hs hjoined => ?_) hs
    obtain ⟨e, he⟩ := somebody_goes_on hs.1 hcount hjoined
    obtain ⟨s', hstep⟩ := Option.isSome_iff_exists.1 he
    have hleft := left_step hs.1 (.of_step hstep)
    exact ⟨e, s', trivial, hstep, running_step hs hstep, by omega⟩

/-- Two threads count the word of `a` before the others are created. -/
theorem threads_refine_letter :
    ∃ s, Run (step [97]) (fun _ _ => True) .start
        [.create, .create, .run 1, .run 0, .run 1, .run 0, .run 1] s ∧
      ∃ more s', Run (step [97]) (fun _ _ => True) s more s' ∧ s'.joined = MAX_THREADS := by
  have hrun := Run.of_exec (t := Option.get _ (by decide)) (Option.some_get
    (x := exec (step [97]) (fun _ _ => True) .start
      [.create, .create, .run 1, .run 0, .run 1, .run 0, .run 1]) (by decide)).symm
  exact ⟨_, hrun, (threads_refine hrun).2.2.2 (by decide)⟩

end WordCount
end Leetcode
