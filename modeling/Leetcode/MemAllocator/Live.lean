import Leetcode.Lib.Trace
import Leetcode.MemAllocator.FirstFit

/-!
# The live blocks

A `Heap` is an allocator with the blocks that its calls have handed out and not freed,
which the code does not know.

* `owner` — the id that a cell should hold.
* `Exact` — the blocks are apart, and every cell holds its owner.
* `allocate_exact`, `free_exact` — the calls keep that.
* `allocator_exact` — every run of calls does.
-/

namespace Leetcode
namespace MemAllocator

open CLib

/-! ## Blocks -/

/-- The cells from `start` on that were given to an id. -/
structure Block where
  start : ℤ
  size : ℤ
  id : ℤ
  deriving DecidableEq, Repr

def Block.covers (b : Block) (j : ℤ) : Bool := b.start ≤ j ∧ j < b.start + b.size

/-- No cell is in both blocks. -/
def Block.Apart (a b : Block) : Prop := ∀ j, ¬(a.covers j = true ∧ b.covers j = true)

/-- The id of the block that covers the cell, or 0. -/
def owner (live : List Block) (j : ℤ) : ℤ :=
  match live.find? fun b => b.covers j with
  | some b => b.id
  | none => 0

/-- The sum of the sizes of the blocks with the id. -/
def total (live : List Block) (mID : ℤ) : ℤ :=
  ((live.filter fun b => b.id = mID).map Block.size).sum

structure Heap where
  obj : Allocator
  live : List Block

def Heap.create (n : ℕ) : Heap := ⟨allocatorCreate n, []⟩

/-- A call, with what it returns; -1 says that no block was handed out. -/
def Heap.step (s : Heap) : Call → Heap × ℤ
  | .allocate size mID =>
      let r := allocatorAllocate s.obj size mID
      (⟨r.2, if r.1 = -1 then s.live else ⟨r.1, size, mID⟩ :: s.live⟩, r.1)
  | .freeMemory mID =>
      let r := allocatorFreeMemory s.obj mID
      (⟨r.2, s.live.filter fun b => b.id ≠ mID⟩, r.1)

/-- The state that calls lead to. -/
def Heap.after (n : ℕ) (calls : List Call) : Heap := outcome Heap.step (Heap.create n) calls

/-- The blocks lie inside the array and apart from each other, and every cell holds the
id of the block that covers it. -/
structure Exact (n : ℕ) (s : Heap) : Prop where
  size_eq : s.obj.size = n
  inside : ∀ b ∈ s.live, 0 ≤ b.start ∧ b.start + b.size ≤ n
  valid : ∀ b ∈ s.live, 1 ≤ b.size ∧ 1 ≤ b.id
  apart : s.live.Pairwise Block.Apart
  memory : ∀ j, s.obj.memory j = owner s.live j

variable {n : ℕ} {s : Heap} {b : Block} {live : List Block} {j mID : ℤ}

theorem covers_iff : b.covers j = true ↔ b.start ≤ j ∧ j < b.start + b.size := by
  simp [Block.covers]

theorem owner_cons (b : Block) (live : List Block) (j : ℤ) :
    owner (b :: live) j = if b.covers j then b.id else owner live j := by
  unfold owner
  rw [List.find?_cons]
  cases b.covers j <;> rfl

theorem owner_eq_zero (h : ∀ b ∈ live, b.covers j = false) : owner live j = 0 := by
  have hnone : live.find? (fun b => b.covers j) = none := by
    simpa using h
  rw [owner, hnone]

/-- A cell that is in no block with a positive id is free. -/
theorem owner_pos (hvalid : ∀ b ∈ live, 1 ≤ b.id) (hb : b ∈ live) (hcover : b.covers j = true) :
    1 ≤ owner live j := by
  unfold owner
  cases hfind : live.find? fun b => b.covers j with
  | none =>
      have hnot := List.find?_eq_none.1 hfind b hb
      exact absurd hcover hnot
  | some a => exact hvalid a (List.mem_of_find?_eq_some hfind)

theorem exact_init (n : ℕ) : Exact n (Heap.create n) where
  size_eq := rfl
  inside _ hb := by cases hb
  valid _ hb := by cases hb
  apart := List.Pairwise.nil
  memory _ := rfl

/-! ## Allocation -/

theorem allocate_exact (h : Exact n s) {size : ℤ} (hsize : 1 ≤ size) (hid : 1 ≤ mID) :
    Exact n (s.step (.allocate size mID)).1 := by
  rcases allocate_cases s.obj hsize mID with ⟨start, hleast, heq⟩ | ⟨-, heq⟩
  · obtain ⟨hstart, hend, hzero⟩ := hleast.1
    rw [h.size_eq] at hend
    have hne : start ≠ -1 := by omega
    simp only [Heap.step, heq, hne, if_false]
    refine ⟨h.size_eq, ?_, ?_, ?_, fun j => ?_⟩
    · intro b hb
      rcases List.mem_cons.1 hb with rfl | hb
      · exact ⟨hstart, hend⟩
      · exact h.inside b hb
    · intro b hb
      rcases List.mem_cons.1 hb with rfl | hb
      · exact ⟨hsize, hid⟩
      · exact h.valid b hb
    · -- A cell of an older block is not free.
      refine List.pairwise_cons.2 ⟨fun b hb j hj => ?_, h.apart⟩
      obtain ⟨hnew, hold⟩ := hj
      rw [covers_iff] at hnew
      have hfree := hzero j hnew.1 hnew.2
      have hused := owner_pos (fun b hb => (h.valid b hb).2) hb hold
      rw [h.memory j] at hfree
      omega
    · rw [owner_cons]
      simp only [covers_iff]
      rw [fill_apply, h.memory j]
      refine if_congr ?_ rfl rfl
      omega
  · simp only [Heap.step, heq, if_true]
    exact h

/-! ## Freeing -/

/-- The cells of an id are those of its blocks. -/
theorem hits_owner {rounds : ℕ} (hinside : ∀ b ∈ live, 0 ≤ b.start ∧ b.start + b.size ≤ rounds)
    (hvalid : ∀ b ∈ live, 1 ≤ b.size ∧ 1 ≤ b.id) (hapart : live.Pairwise Block.Apart)
    (hid : 1 ≤ mID) : hits (fun j => owner live j = mID) rounds 0 = total live mID := by
  induction live with
  | nil =>
      have hnone : ∀ j, decide (owner [] j = mID) = false := by
        intro j
        rw [owner_eq_zero (by simp)]
        simp only [decide_eq_false_iff_not]
        omega
      rw [hits_congr fun j _ => hnone j, hits_false]
      rfl
  | cons b live ih =>
      obtain ⟨hb, hlive⟩ := List.pairwise_cons.1 hapart
      have hrest := ih (fun a ha => hinside a (List.mem_cons_of_mem _ ha))
        (fun a ha => hvalid a (List.mem_cons_of_mem _ ha)) hlive
      -- The cells of the new block belong to no other one.
      have hfree : ∀ j, b.covers j = true → owner live j = 0 := by
        intro j hj
        refine owner_eq_zero fun a ha => ?_
        exact Bool.eq_false_iff.2 fun hcover => hb a ha j ⟨hj, hcover⟩
      by_cases hbid : b.id = mID
      · have hsplit : ∀ j, decide (owner (b :: live) j = mID) =
            (decide (b.start ≤ j ∧ j < b.start + b.size) || decide (owner live j = mID)) := by
          intro j
          rw [owner_cons]
          by_cases hcover : b.covers j = true
          · rw [if_pos hcover]
            simp [hbid, covers_iff.1 hcover]
          · rw [if_neg hcover]
            simp [mt covers_iff.2 hcover]
        have hnever : ∀ j, decide (b.start ≤ j ∧ j < b.start + b.size) = true →
            decide (owner live j = mID) = false := by
          intro j hj
          rw [hfree j hj]
          simp only [decide_eq_false_iff_not]
          omega
        obtain ⟨hstart, hend⟩ := hinside b List.mem_cons_self
        have hsize := (hvalid b List.mem_cons_self).1
        rw [hits_congr fun j _ => hsplit j, hits_or hnever, hits_interval, hrest, total, total,
          List.filter_cons_of_pos (by simpa using hbid), List.map_cons, List.sum_cons]
        omega
      · have hsame : ∀ j, decide (owner (b :: live) j = mID) = decide (owner live j = mID) := by
          intro j
          rw [owner_cons]
          by_cases hcover : b.covers j = true
          · have hzero : (0 : ℤ) ≠ mID := by omega
            rw [if_pos hcover, hfree j hcover]
            simp [hbid, hzero]
          · rw [if_neg hcover]
        rw [hits_congr fun j _ => hsame j, hrest, total, total,
          List.filter_cons_of_neg (by simpa using hbid)]

/-- A freed id owns nothing, and the others keep their cells. -/
theorem owner_filter (hvalid : ∀ b ∈ live, 1 ≤ b.id) (hapart : live.Pairwise Block.Apart) (j : ℤ) :
    owner (live.filter fun b => b.id ≠ mID) j =
      if owner live j = mID then 0 else owner live j := by
  induction live with
  | nil =>
      rw [List.filter_nil, owner_eq_zero (by simp)]
      split <;> rfl
  | cons b live ih =>
      obtain ⟨hb, hlive⟩ := List.pairwise_cons.1 hapart
      have hrest := ih (fun a ha => hvalid a (List.mem_cons_of_mem _ ha)) hlive
      by_cases hcover : b.covers j = true
      · by_cases hbid : b.id = mID
        · have hfree : owner (live.filter fun b => b.id ≠ mID) j = 0 := by
            refine owner_eq_zero fun a ha => Bool.eq_false_iff.2 fun ha' => ?_
            exact hb a (List.mem_filter.1 ha).1 j ⟨hcover, ha'⟩
          rw [List.filter_cons_of_neg (by simpa using hbid), hfree, owner_cons, if_pos hcover,
            if_pos hbid]
        · rw [List.filter_cons_of_pos (by simpa using hbid), owner_cons, owner_cons,
            if_pos hcover, if_pos hcover, if_neg hbid]
      · rw [owner_cons b live, if_neg hcover, ← hrest]
        by_cases hbid : b.id = mID
        · rw [List.filter_cons_of_neg (by simpa using hbid)]
        · rw [List.filter_cons_of_pos (by simpa using hbid), owner_cons, if_neg hcover]

/-- `allocatorFreeMemory` returns the size of what it frees, and frees just that. -/
theorem free_eq (h : Exact n s) (hid : 1 ≤ mID) :
    allocatorFreeMemory s.obj mID =
      (total s.live mID,
        { s.obj with memory := owner (s.live.filter fun b => b.id ≠ mID) }) := by
  have hrounds : s.obj.size.toNat = n := by
    rw [h.size_eq, Int.toNat_natCast]
  have hmemory : s.obj.memory = owner s.live := funext h.memory
  have hafter : (fun j => if 0 ≤ j ∧ j < 0 + (n : ℤ) ∧ owner s.live j = mID then 0
      else owner s.live j) = owner (s.live.filter fun b => b.id ≠ mID) := by
    funext j
    rw [owner_filter (fun b hb => (h.valid b hb).2) h.apart]
    refine if_congr ⟨fun hall => hall.2.2, fun hj => ?_⟩ rfl rfl
    -- A cell with an owner is one of the array.
    by_contra hout
    have hzero : owner s.live j = 0 := by
      refine owner_eq_zero fun b hb => Bool.eq_false_iff.2 fun hcover => ?_
      have hinside := h.inside b hb
      rw [covers_iff] at hcover
      omega
    omega
  unfold allocatorFreeMemory
  rw [freeLoop_eq, hrounds, hmemory, zero_add, hits_owner h.inside h.valid h.apart hid, hafter]

theorem free_exact (h : Exact n s) (hid : 1 ≤ mID) :
    Exact n (s.step (.freeMemory mID)).1 := by
  simp only [Heap.step, free_eq h hid]
  refine ⟨h.size_eq, fun b hb => h.inside b (List.mem_filter.1 hb).1,
    fun b hb => h.valid b (List.mem_filter.1 hb).1, ?_, fun j => rfl⟩
  exact h.apart.sublist List.filter_sublist

/-! ## Runs -/

theorem step_exact (h : Exact n s) {call : Call} (hcall : call.Valid) :
    Exact n (s.step call).1 := by
  cases call with
  | allocate size mID => exact allocate_exact h hcall.1 hcall.2
  | freeMemory mID => exact free_exact h hcall

theorem run_exact (h : Exact n s) {calls : List Call} (hcalls : ∀ call ∈ calls, call.Valid) :
    Exact n (outcome Heap.step s calls) := by
  induction calls generalizing s with
  | nil => exact h
  | cons call calls ih =>
      exact ih (step_exact h (hcalls call List.mem_cons_self)) fun c hc =>
        hcalls c (List.mem_cons_of_mem _ hc)

/-- After any calls, the live blocks lie inside the array and apart from each other and
every cell holds the id of its block; and freeing an id returns the sizes of its live
blocks and clears the cells of these blocks only. -/
theorem allocator_exact (n : ℕ) (calls : List Call) (hcalls : ∀ call ∈ calls, call.Valid) :
    Exact n (Heap.after n calls) ∧
      ∀ mID, 1 ≤ mID →
        allocatorFreeMemory (Heap.after n calls).obj mID =
          (total (Heap.after n calls).live mID,
            { (Heap.after n calls).obj with
              memory := owner ((Heap.after n calls).live.filter fun b => b.id ≠ mID) }) := by
  have hexact := run_exact (exact_init n) hcalls
  exact ⟨hexact, fun mID hid => free_eq hexact hid⟩

/-- An id owns two blocks, and the space of a freed one is used again. -/
theorem allocator_exact_reused :
    let s := Heap.after 6
      [.allocate 2 1, .allocate 2 2, .allocate 1 1, .freeMemory 2, .allocate 1 3]
    Exact 6 s ∧ s.live = [⟨2, 1, 3⟩, ⟨4, 1, 1⟩, ⟨0, 2, 1⟩] ∧
      (allocatorFreeMemory s.obj 1).1 = 3 := by
  obtain ⟨hexact, hfree⟩ := allocator_exact 6
    [.allocate 2 1, .allocate 2 2, .allocate 1 1, .freeMemory 2, .allocate 1 3] (by decide)
  refine ⟨hexact, by decide, ?_⟩
  rw [hfree 1 le_rfl]
  decide

end MemAllocator
end Leetcode
