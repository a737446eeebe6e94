import Mathlib.Algebra.BigOperators.Group.Finset.Basic
import Leetcode.HashMap.Memory
import Leetcode.HashMap.Ownership

/-!
# Behind the last join

When all threads have returned, `main` has the map for itself.  The buckets are those that the
calls made one after the other would leave, so that the calls of one thread find a map as they
know it, and `map_destroy` gives back what the threads have left in the map.
-/

namespace Leetcode
namespace HashMap

open CLib

variable {T V : Type*}

/-- The map for the calls of one thread: `bound` is a bound on the nodes. -/
def System.joined (s : System T V) (bound : Ref) : ConcurrentHashMap V :=
  { s.map with fresh := bound }

variable {m m' : ConcurrentHashMap V} {chains chains' : ℕ → List Ref} {b : Bindings V}
  {nbuckets : ℕ}

/-! ## Maps with the same pairs -/

theorem mem_pairs {nodes : List Ref} {key : CStr} {v : Option V} :
    (key, v) ∈ pairs m nodes ↔ ∃ a ∈ nodes, m.key a = key ∧ m.value a = v := by
  simp [pairs]

theorem Rep.of_pairs (h : Rep m chains) (hpairs : ∀ i, pairs m' (chains' i) = pairs m (chains i))
    (hsize : m'.nbuckets = m.nbuckets) (hchain : ∀ i, Chain m'.next (m'.head i) (chains' i))
    (hfresh : ∀ i, ∀ a ∈ chains' i, a < m'.fresh) (hunlocked : ∀ i, m'.lock i = false) :
    Rep m' chains' where
  chain := hchain
  index_eq i a ha := by
    have hmem : (m'.key a, m'.value a) ∈ pairs m (chains i) := by
      rw [← hpairs]
      exact List.mem_map_of_mem ha
    obtain ⟨a', ha', hkey, -⟩ := mem_pairs.1 hmem
    rw [← h.index_eq i a' ha', hkey, index, index, hsize]
  keys i := by
    have hkeys := congrArg (List.map Prod.fst) (hpairs i)
    simp only [pairs, List.map_map] at hkeys
    have hnodup := h.keys i
    rw [← show ((chains' i).map m'.key) = (chains i).map m.key from hkeys] at hnodup
    exact hnodup
  fresh := hfresh
  unlocked := hunlocked
  nbuckets_pos := hsize ▸ h.nbuckets_pos

theorem Shows.of_pairs (h : Shows m chains b)
    (hpairs : ∀ i, pairs m' (chains' i) = pairs m (chains i))
    (hsize : m'.nbuckets = m.nbuckets) : Shows m' chains' b := by
  intro key v
  have hindex : index m' key = index m key := by rw [index, index, hsize]
  rw [h key v, ← mem_pairs, ← mem_pairs, hindex, hpairs]

theorem run_nbuckets {calls : List (Call V)} {os : List (Option V)} (h : Rep m chains)
    (htrace : Trace step m calls os m') : m'.nbuckets = m.nbuckets := by
  induction htrace generalizing chains with
  | nil m => rfl
  | @cons m m₁ m' call calls o os hstep _ ih =>
      obtain ⟨m₂, chains₂, hstep₂, -, h₂, hsame⟩ := step_pairs h call
      cases hstep.symm.trans hstep₂
      exact (ih h₂).trans hsame

/-- The calls made one after the other, as lists of pairs and as bindings. -/
theorem run_bindings (hn : 0 < nbuckets) (calls : List (Call V)) :
    ∃ m chains, Rep m chains ∧ m.nbuckets = nbuckets ∧
      Shows m chains (outcome Bindings.step (fun _ => none) calls) ∧
      contents m chains = outcome (Buckets.step nbuckets) (fun _ => []) calls ∧
      answers (Buckets.step nbuckets) (fun _ => []) calls =
        answers Bindings.step (fun _ => none) calls := by
  obtain ⟨m, htrace, chains, h, hs⟩ := run_ok hn calls
  obtain ⟨m', chains', htrace', hcontents, h'⟩ := run_pairs hn calls
  obtain ⟨hanswers, rfl⟩ := htrace.unique htrace'
  have hsame : chains = chains' := funext fun i => chain_unique (h.chain i) (h'.chain i)
  subst hsame
  exact ⟨m, chains, h, run_nbuckets (rep_init hn) htrace, hs, hcontents, hanswers.symm⟩

/-! ## All threads have returned -/

section Joined

variable [DecidableEq T] {prog : T → List (Call V)} {s : System T V} {bound : Ref}
  {history : List (Event T (Call V) (Option V))} {order : List (Op T (Call V) × Option V)}

/-- The map that `main` has then is as the calls in the order of `order` leave it. -/
theorem Explained.joined (h : Explained prog nbuckets s history order) (hn : 0 < nbuckets)
    (hcomplete : s.Complete prog) (hbound : ∀ a, s.allocated a = true → a < bound) :
    ∃ chains, Rep (s.joined bound) chains ∧
      Shows (s.joined bound) chains
        (outcome Bindings.step (fun _ => none) (order.map fun entry => entry.1.call)) := by
  obtain ⟨hsize, -, chains, hguarded⟩ := h
  obtain ⟨m, chains', hm, hsize', hs, hcontents, -⟩ :=
    run_bindings hn (order.map fun entry => entry.1.call)
  have hrest : ∀ i, s.map.lock i = false ∧ pairs (s.joined bound) (chains i) =
      pairs m (chains' i) := by
    intro i
    have hnone : ∀ t, (s.place t).bucket ≠ some i := by
      intro t ht
      rw [(hcomplete t).2] at ht
      cases ht
    obtain ⟨hlock, hpairs⟩ := hguarded.unheld i hnone
    rw [← hcontents] at hpairs
    exact ⟨hlock, hpairs⟩
  have hsame : (s.joined bound).nbuckets = m.nbuckets := hsize.trans hsize'.symm
  exact ⟨chains, hm.of_pairs (fun i => (hrest i).2) hsame hguarded.chain
    (fun i a ha => hbound a (hguarded.live i a ha)) fun i => (hrest i).1,
    hs.of_pairs (fun i => (hrest i).2) hsame⟩

/-- The calls return what they return one after the other. -/
theorem Explained.answers (h : Explained prog nbuckets s history order) (hn : 0 < nbuckets) :
    order.map Prod.snd =
      CLib.answers Bindings.step (fun _ => none) (order.map fun entry => entry.1.call) := by
  obtain ⟨-, -, -, -, -, -, hanswers⟩ := run_bindings hn (order.map fun entry => entry.1.call)
  rw [h.linear.results, hanswers]

/-- In every schedule of any threads the calls and `map_destroy` together give back every value
that the calls get, once: the call that overwrites or removes it returns it, or it is left in the
map, and `free_val` is called with just the values that are left. -/
theorem threads_conserve_values [Fintype T] (prog : T → List (Call V)) (hn : 0 < nbuckets)
    (hvalues : ∀ t, ∀ call ∈ prog t, call.NonNull) {choices : List (Turn T)}
    {seen : List (Option (Event T (Call V) (Option V)))}
    (hrun : Trace (turn prog) (System.init nbuckets) choices seen s) (hcomplete : s.Complete prog)
    (hbound : ∀ a, s.allocated a = true → a < bound) :
    ∃ (order : List (Op T (Call V) × Option V)) (left : List (CStr × Option V)),
      Linearizes prog seen.reduceOption order ∧
      mapDestroy (s.joined bound) true = some (left.map Prod.snd) ∧
      ∑ t, (((prog t).flatMap handedIn : List _) : Multiset (CStr × Option V)) =
        ((order.flatMap fun entry => givenBack (entry.1.call, entry.2) : List _) : Multiset _) +
          (left : Multiset _) := by
  obtain ⟨order, hexplained⟩ := run_explained hrun (explained_init prog nbuckets)
  rw [List.nil_append] at hexplained
  have hlinear : Linearizes prog seen.reduceOption order :=
    hexplained.linear.linearizes
      (fun t => by rw [Function.comp_apply, (hcomplete t).2]; rfl) fun t => (hcomplete t).1
  have hcalls : ∀ call ∈ order.map fun entry => entry.1.call, call.NonNull := by
    intro call hcall
    obtain ⟨entry, hentry, rfl⟩ := List.mem_map.1 hcall
    have hop := (hexplained.linear.mem_order.1 (List.mem_map_of_mem hentry)).2
    exact hvalues _ _ (List.mem_of_getElem? hop)
  obtain ⟨chains, hrep, hshows⟩ := hexplained.joined hn hcomplete hbound
  obtain ⟨entries, hentries, hbalance⟩ := balance_run lists_init (fun key => nofun) hcalls
  refine ⟨order, nodeEntries (s.joined bound) chains, hlinear, mapDestroy_ok hrep, ?_⟩
  have hleft := hentries.perm (lists_nodeEntries hrep hshows)
  have hback : order.flatMap (fun entry => givenBack (entry.1.call, entry.2)) =
      ((order.map fun entry => entry.1.call).zip (order.map Prod.snd)).flatMap givenBack := by
    rw [List.zip_map', List.flatMap_map]
  rw [List.append_nil, ← hexplained.answers hn, ← hback] at hbalance
  rw [hlinear.sum_threads, Multiset.coe_add, Multiset.coe_eq_coe]
  exact hbalance.trans (hleft.append_left _)

/-- The value that one thread puts in and the other may take out. -/
theorem threads_conserve_values_race :
    ∃ (choices : List (Turn (Fin 2)))
      (seen : List (Option (Event (Fin 2) (Call ℕ) (Option ℕ)))) (s : System (Fin 2) ℕ)
      (bound : Ref) (order : List (Op (Fin 2) (Call ℕ) × Option ℕ))
      (left : List (CStr × Option ℕ)),
      Trace (turn raceCalls) (System.init 1) choices seen s ∧
      Linearizes raceCalls seen.reduceOption order ∧
      mapDestroy (s.joined bound) true = some (left.map Prod.snd) ∧
      ∑ t, (((raceCalls t).flatMap handedIn : List _) : Multiset (CStr × Option ℕ)) =
        ((order.flatMap fun entry => givenBack (entry.1.call, entry.2) : List _) : Multiset _) +
          (left : Multiset _) := by
  have hstart : Trace (turn raceCalls) (System.init 1) [] [] (System.init 1) := .nil _
  obtain ⟨choices, seen, s, hrun, hcomplete⟩ := exists_complete Nat.one_pos hstart
  obtain ⟨bound, hbound⟩ := (run_bounded hrun (bounded_init raceCalls 1)).allocated
  have hvalues : ∀ t, ∀ call ∈ raceCalls t, call.NonNull := by
    intro t call hcall
    unfold raceCalls at hcall
    split at hcall
    · rw [List.mem_singleton.1 hcall]
      exact Option.some_ne_none 7
    · rw [List.mem_singleton.1 hcall]
      exact trivial
  obtain ⟨order, left, h⟩ := threads_conserve_values raceCalls Nat.one_pos hvalues hrun hcomplete
    fun a ha => Nat.lt_of_not_le fun hle => Bool.false_ne_true ((hbound a hle).symm.trans ha)
  exact ⟨choices, seen, s, bound, order, left, hrun, h⟩

end Joined

end HashMap
end Leetcode
