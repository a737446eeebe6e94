import Leetcode.BoundedQueue.Lock

/-!
# First in, first out

`QueueOk` is the law of the queue: the popped items and then the stored ones are the
pushed ones.  `queue_fifo` is the law in every reachable state.
-/

namespace Leetcode
namespace BoundedQueue

open CLib

variable {T : Type*} {P : Program T} {s s' : State T}

/-! ## The queue -/

/-- The items stored from `head` on. -/
def State.stored (s : State T) : List Int :=
  ring s.buffer QUEUE_SIZE s.head s.count.toNat

/-- The popped items and then the stored ones are the pushed ones. -/
structure QueueOk (s : State T) : Prop where
  head_lt : s.head < QUEUE_SIZE
  count_nonneg : 0 ≤ s.count
  count_le : s.count ≤ QUEUE_SIZE
  tail_eq : s.tail = (s.head + s.count.toNat) % QUEUE_SIZE
  fifo : s.popped.map Prod.snd ++ s.stored = s.pushed.map Prod.snd

theorem queueOk_init (P : Program T) : QueueOk (State.init P) where
  head_lt := (by decide : 0 < QUEUE_SIZE)
  count_nonneg := le_rfl
  count_le := (by decide : (0 : Int) ≤ QUEUE_SIZE)
  tail_eq := rfl
  fifo := rfl

theorem QueueOk.store (h : QueueOk s) (hroom : s.count < QUEUE_SIZE) (t : T) (item : Int) :
    QueueOk (s.store t item) := by
  have hnonneg := h.count_nonneg
  have hsucc : (s.count + 1).toNat = s.count.toNat + 1 := by omega
  refine ⟨h.head_lt, ?_, ?_, ?_, ?_⟩
  · show 0 ≤ s.count + 1
    omega
  · show s.count + 1 ≤ QUEUE_SIZE
    omega
  · show (s.tail + 1) % QUEUE_SIZE = (s.head + (s.count + 1).toNat) % QUEUE_SIZE
    rw [h.tail_eq, hsucc, Nat.mod_add_mod, Nat.add_assoc]
  · show s.popped.map Prod.snd ++
        ring (Function.update s.buffer s.tail item) QUEUE_SIZE s.head (s.count + 1).toNat =
      (s.pushed ++ [(t, item)]).map Prod.snd
    have hcount : s.count.toNat < QUEUE_SIZE := by omega
    rw [h.tail_eq, hsucc, ring_push hcount, ← List.append_assoc, List.map_append, ← h.fifo]
    rfl

theorem QueueOk.take (h : QueueOk s) (hsome : s.count ≠ 0) (t : T) : QueueOk (s.take t) := by
  have hnonneg := h.count_nonneg
  have hcount := h.count_le
  obtain ⟨n, hn⟩ : ∃ n : ℕ, s.count = n + 1 := ⟨(s.count - 1).toNat, by omega⟩
  have htoNat : s.count.toNat = n + 1 := by omega
  have hpred : (s.count - 1).toNat = n := by omega
  refine ⟨Nat.mod_lt _ (by decide), ?_, ?_, ?_, ?_⟩
  · show 0 ≤ s.count - 1
    omega
  · show s.count - 1 ≤ QUEUE_SIZE
    omega
  · show s.tail = ((s.head + 1) % QUEUE_SIZE + (s.count - 1).toNat) % QUEUE_SIZE
    rw [h.tail_eq, htoNat, hpred, Nat.mod_add_mod, Nat.add_assoc, Nat.add_comm 1]
  · show (s.popped ++ [(t, s.buffer s.head)]).map Prod.snd ++
        ring s.buffer QUEUE_SIZE ((s.head + 1) % QUEUE_SIZE) (s.count - 1).toNat =
      s.pushed.map Prod.snd
    have hfifo := h.fifo
    rw [State.stored, htoNat, ring_pop h.head_lt] at hfifo
    rw [hpred, ← hfifo, List.map_append, List.append_assoc]
    rfl

/-! ## The law in every reachable state -/

variable [DecidableEq T]

/-- The items that `t` pushed, among these pushes. -/
def itemsOf (t : T) (pushes : List (T × Int)) : List Int :=
  (pushes.filter fun push => push.1 = t).map Prod.snd

theorem itemsOf_append (t : T) (pushes rest : List (T × Int)) :
    itemsOf t (pushes ++ rest) = itemsOf t pushes ++ itemsOf t rest := by
  simp [itemsOf]

/-- The invariant of the process: the lock, the queue, and what every producer has still
to push. -/
structure Inv (P : Program T) (s : State T) : Prop where
  lock : LockOk P s
  queue : QueueOk s
  rest : ∀ t, itemsOf t s.pushed ++ s.items t = P.items t

theorem inv_init (P : Program T) : Inv P (State.init P) :=
  ⟨lockOk_init P, queueOk_init P, fun _ => rfl⟩

/-- Behind its loop a producer finds room. -/
theorem Inv.push_room {t : T} (h : Inv P s) (hholds : s.holds t .update)
    (hrole : P.role t = .producer) : s.count < QUEUE_SIZE := by
  have hroom := h.lock.room t (holds_iff.1 hholds).2
  have hne : s.count ≠ QUEUE_SIZE := by simpa [State.blocked, hrole] using hroom
  exact lt_of_le_of_ne h.queue.count_le hne

/-- Behind its loop a consumer finds an item. -/
theorem Inv.pop_room {t : T} (h : Inv P s) (hholds : s.holds t .update)
    (hrole : P.role t = .consumer) : s.count ≠ 0 := by
  have hroom := h.lock.room t (holds_iff.1 hholds).2
  simpa [State.blocked, hrole] using hroom

theorem Inv.step (h : Inv P s) (hstep : Step P s s') : Inv P s' := by
  have hlock := h.lock.step hstep
  have hqueue := h.queue
  cases hstep with
  | @push t item rest hholds hrole hitems =>
      have hstored := hqueue.store (h.push_room hholds hrole) t item
      refine ⟨hlock, ⟨hstored.1, hstored.2, hstored.3, hstored.4, hstored.5⟩, fun u => ?_⟩
      show itemsOf u (s.pushed ++ [(t, item)]) ++ Function.update s.items t rest u = P.items u
      rw [itemsOf_append, ← h.rest u]
      by_cases hut : t = u
      · subst hut
        simp [itemsOf, hitems]
      · simp [itemsOf, hut, Ne.symm hut]
  | @pop t hholds hrole =>
      have htaken := hqueue.take (h.pop_room hholds hrole) t
      exact ⟨hlock, ⟨htaken.1, htaken.2, htaken.3, htaken.4, htaken.5⟩, h.rest⟩
  | create | join | ret | lock | sleep | pass | signal | unlock | wakeup =>
      exact ⟨hlock, ⟨hqueue.1, hqueue.2, hqueue.3, hqueue.4, hqueue.5⟩, h.rest⟩

variable [Fintype T]

theorem inv_run {events : List (Event T)}
    (h : Run (step P) (fun _ _ => True) (State.init P) events s) : Inv P s :=
  h.invariant (inv_init P) fun _ _ _ hinv _ hstep => hinv.step (.of_step hstep)

/-- In every reachable state the queue has at most `QUEUE_SIZE` items and its indices
agree, and the popped items and then the stored ones are the pushed ones.  So the popped
items are those of the first pushes, and of the items of each producer the first ones
have been pushed, and the first ones of these popped. -/
theorem queue_fifo (P : Program T) {events : List (Event T)} {s : State T}
    (h : Run (step P) (fun _ _ => True) (State.init P) events s) :
    (0 ≤ s.count ∧ s.count ≤ QUEUE_SIZE) ∧
      (s.tail : Int) = (s.head + s.count) % QUEUE_SIZE ∧
      s.stored.length = s.count ∧
      s.popped.map Prod.snd ++ s.stored = s.pushed.map Prod.snd ∧
      s.popped.map Prod.snd = (s.pushed.take s.popped.length).map Prod.snd ∧
      ∀ t, itemsOf t s.pushed <+: P.items t ∧
        itemsOf t (s.pushed.take s.popped.length) <+: itemsOf t s.pushed := by
  obtain ⟨-, hqueue, hrest⟩ := inv_run h
  have hcount : (s.count.toNat : Int) = s.count := Int.toNat_of_nonneg hqueue.count_nonneg
  refine ⟨⟨hqueue.count_nonneg, hqueue.count_le⟩, ?_, ?_, hqueue.fifo, ?_, fun t => ⟨?_, ?_⟩⟩
  · rw [hqueue.tail_eq, Int.natCast_mod, Int.natCast_add, hcount]
  · rw [State.stored, length_ring, hcount]
  · rw [List.map_take, ← hqueue.fifo, List.take_left' (List.length_map ..)]
  · exact ⟨s.items t, hrest t⟩
  · refine ⟨itemsOf t (s.pushed.drop s.popped.length), ?_⟩
    rw [← itemsOf_append, List.take_append_drop]

/-- One producer with two items and one consumer. -/
def pair : Program Bool where
  role := fun t => if t then .producer else .consumer
  items := fun t => if t then [7, 8] else []
  threads := [true, false]

/-- The consumer waits for the first item and pops it, and the second one is pushed. -/
def pairEvents : List (Event Bool) :=
  [.create, .create, .lock false, .test false, .lock true, .test true, .update true,
    .signal true fun _ => true, .unlock true, .lock false, .test false, .update false,
    .signal false fun _ => true, .unlock false, .lock true, .test true, .update true]

theorem queue_fifo_pair :
    ∃ s, Run (step pair) (fun _ _ => True) (State.init pair) pairEvents s ∧
      s.popped = [(false, 7)] ∧ s.stored = [8] ∧
      s.popped.map Prod.snd ++ s.stored = s.pushed.map Prod.snd := by
  have hrun := Run.of_exec (t := Option.get _ (by decide)) (Option.some_get
    (x := exec (step pair) (fun _ _ => True) (State.init pair) pairEvents) (by decide)).symm
  exact ⟨_, hrun, by decide, by decide, (queue_fifo pair hrun).2.2.2.1⟩

end BoundedQueue
end Leetcode
