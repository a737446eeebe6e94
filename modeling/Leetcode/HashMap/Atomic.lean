import Mathlib.Data.List.ReduceOption
import Leetcode.HashMap.Steps

/-!
# The calls of several threads are atomic

In every schedule the calls count as made in the order in which they release their locks.
That order explains what the threads see, and the calls made one after the other in that order
leave the same pairs in the buckets.
-/

namespace Leetcode
namespace HashMap

open CLib

variable {T V : Type*} [DecidableEq T] {prog : T → List (Call V)} {nbuckets : ℕ}
  {s s' : System T V} {chains : ℕ → List Ref} {b : Buckets V} {t : T} {call : Call V} {p : Place V}
  {history : List (Event T (Call V) (Option V))} {order : List (Op T (Call V) × Option V)}

/-- The calls that have released their locks explain what has been seen, and their pairs are
in the buckets. -/
structure Explained (prog : T → List (Call V)) (nbuckets : ℕ) (s : System T V)
    (history : List (Event T (Call V) (Option V))) (order : List (Op T (Call V) × Option V)) :
    Prop where
  size : s.map.nbuckets = nbuckets
  linear : Linear prog (Buckets.step nbuckets) (fun _ => []) s.next (Place.phase ∘ s.place)
    history order
  guarded : ∃ chains, Guarded prog s chains
    (outcome (Buckets.step nbuckets) (fun _ => []) (order.map fun entry => entry.1.call))

/-! ## Between the calls -/

/-- A thread that has no bucket and takes none. -/
theorem Guarded.between (h : Guarded prog s chains b) {next : T → ℕ}
    (hfrom : (s.place t).bucket = none) (hto : p.bucket = none)
    (hnext : ∀ u, u ≠ t → next u = s.next u)
    (hcurrent : p ≠ .idle → ∃ call, (prog t)[next t]? = some call)
    (htarget : ∀ i call, p.target = some i → (prog t)[next t]? = some call →
      index s.map call.key = i) :
    Guarded prog ({ s with next := next }.goto t p) chains b := by
  have hbucket : ∀ u, (Function.update s.place t p u).bucket = (s.place u).bucket := by
    intro u
    by_cases hut : u = t
    · rw [hut, Function.update_self, hto, hfrom]
    · rw [Function.update_of_ne hut]
  have hown : ∀ u, (Function.update s.place t p u).own = (s.place u).own := by
    intro u
    by_cases hut : u = t
    · rw [hut, Function.update_self, Place.own_of_bucket hto, Place.own_of_bucket hfrom]
    · rw [Function.update_of_ne hut]
  refine ⟨⟨h.chain, h.disjoint, h.live, fun u a hu => h.own_live u a (hown u ▸ hu),
    fun u a i hu => h.own_apart u a i (hown u ▸ hu),
    fun u v a hu hv => h.own_inj u v a (hown u ▸ hu) (hown v ▸ hv)⟩,
    fun u v i hu hv => h.excl u v i (hbucket u ▸ hu) (hbucket v ▸ hv),
    fun u i hu => h.locked u i (hbucket u ▸ hu),
    fun i hi => h.unheld i fun u hu => hi u ((hbucket u).trans hu), fun u hu => ?_,
    fun u i d hu hd => ?_, fun u i d hu hd => ?_⟩
  · by_cases hut : u = t
    · simp only [System.goto, hut, Function.update_self] at hu ⊢
      exact hcurrent hu
    · simp only [System.goto, Function.update_of_ne hut, hnext u hut] at hu ⊢
      exact h.current u hu
  · by_cases hut : u = t
    · simp only [System.goto, hut, Function.update_self] at hu hd
      exact htarget i d hu hd
    · simp only [System.goto, Function.update_of_ne hut, hnext u hut] at hu hd
      exact h.target u i d hu hd
  · have hut : u ≠ t := by
      rintro rfl
      simp only [System.goto, Function.update_self, hto] at hu
      cases hu
    simp only [System.goto, Function.update_of_ne hut, hnext u hut] at hu hd ⊢
    exact h.knows u i d hu hd

theorem Place.phase_running (hidle : p ≠ .idle) (hret : ∀ result, p ≠ .ret result) :
    p.phase = .running := by
  cases p with
  | idle => exact absurd rfl hidle
  | ret result => exact absurd rfl (hret result)
  | _ => rfl

/-! ## Runs -/

theorem explained_init (prog : T → List (Call V)) (nbuckets : ℕ) :
    Explained prog nbuckets (System.init nbuckets) [] [] where
  size := rfl
  linear := linear_init prog _ _
  guarded := ⟨fun _ => [], ⟨fun _ => rfl, nofun, nofun, nofun, nofun, nofun⟩, nofun, nofun,
    fun _ _ => ⟨rfl, rfl⟩, fun _ h => absurd rfl h, nofun, nofun⟩

theorem turn_ok (h : Explained prog nbuckets s history order) {choice : Turn T}
    {seen : Option (Event T (Call V) (Option V))} (hturn : turn prog s choice = some (s', seen)) :
    ∃ order', Explained prog nbuckets s' (history ++ seen.toList) order' := by
  obtain ⟨rfl, hlinear, chains, hguarded⟩ := h
  unfold turn at hturn
  obtain ⟨call, hc, hturn⟩ := Option.bind_eq_some_iff.1 hturn
  split at hturn
  · next hidle =>
      obtain ⟨i, hi, heq⟩ := Option.map_eq_some_iff.1 hturn
      cases heq
      have hindex : index s.map call.key = i := by
        unfold bucketOf at hi
        split at hi
        · cases hi
        · exact Option.some.inj hi
      refine ⟨order, rfl, ?_, chains, ?_⟩
      · show Linear prog _ _ s.next (Place.phase ∘ Function.update s.place _ _) _ _
        rw [Function.comp_update]
        exact hlinear.call (by simp [hidle, Place.phase]) hc
      · refine hguarded.between (by rw [hidle]; rfl) rfl (fun _ _ => rfl) (fun _ => ⟨call, hc⟩) ?_
        intro j d hj hd
        obtain rfl : call = d := Option.some.inj (hc.symm.trans hd)
        exact hindex.trans (Option.some.inj hj)
  · next result hret =>
      cases hturn
      refine ⟨order, rfl, ?_, chains, ?_⟩
      · show Linear prog _ _ (Function.update s.next _ _)
          (Place.phase ∘ Function.update s.place _ _) _ _
        rw [Function.comp_update]
        exact hlinear.ret (by simp [hret, Place.phase]) hc
      · refine hguarded.between (by rw [hret]; rfl) rfl
          (fun u hu => Function.update_of_ne hu _ _) (fun hne => absurd rfl hne) ?_
        intro j d hj
        cases hj
  · next hidle hret =>
      obtain ⟨s'', hinside, heq⟩ := Option.map_eq_some_iff.1 hturn
      cases heq
      have hrunning : (Place.phase ∘ s.place) choice.thread = .running :=
        Place.phase_running hidle hret
      obtain ⟨hnext, hsize, hadvance⟩ := inside_ok hguarded hc hinside
      rw [Option.toList_none, List.append_nil]
      cases hadvance with
      | silent p chains' hplace hphase h' =>
          refine ⟨order, hsize, ?_, chains', h'⟩
          rw [hnext, hplace, Function.comp_update, hphase, ← hrunning, Function.update_eq_self]
          exact hlinear
      | settle result chains' hplace h' hresult =>
          refine ⟨order ++ [(⟨choice.thread, s.next choice.thread, call⟩, result)], hsize, ?_,
            chains', ?_⟩
          · rw [hnext, hplace, Function.comp_update]
            exact hlinear.settle hrunning hc hresult
          · rw [List.map_append, List.map_singleton, outcome_concat]
            exact h'

theorem run_explained {choices : List (Turn T)}
    {seen : List (Option (Event T (Call V) (Option V)))}
    (hrun : Trace (turn prog) s choices seen s') (h : Explained prog nbuckets s history order) :
    ∃ order', Explained prog nbuckets s' (history ++ seen.reduceOption) order' := by
  induction hrun generalizing history order with
  | nil s =>
      rw [List.reduceOption_nil, List.append_nil]
      exact ⟨order, h⟩
  | @cons s s₁ s' choice choices e seen hturn _ ih =>
      obtain ⟨order₁, h₁⟩ := turn_ok h hturn
      obtain ⟨order', h'⟩ := ih h₁
      refine ⟨order', ?_⟩
      have hseen : (e :: seen).reduceOption = e.toList ++ seen.reduceOption := by
        cases e with
        | none => rw [List.reduceOption_cons_of_none, Option.toList_none, List.nil_append]
        | some e => rw [List.reduceOption_cons_of_some, Option.toList_some, List.singleton_append]
      rw [hseen, ← List.append_assoc]
      exact h'

/-- Whatever the schedule is, there is an order of the calls that keeps the order of each
thread and of calls that do not overlap, and the calls made one after the other in this order
return the same values and leave the same pairs in the buckets. -/
theorem calls_atomic (prog : T → List (Call V)) (nbuckets : ℕ) (hn : 0 < nbuckets)
    (choices : List (Turn T)) (seen : List (Option (Event T (Call V) (Option V))))
    (s : System T V) (hrun : Trace (turn prog) (System.init nbuckets) choices seen s)
    (hcomplete : s.Complete prog) :
    ∃ order m, Linearizes prog seen.reduceOption order ∧
      Trace step (mapCreate nbuckets) (order.map fun entry => entry.1.call)
        (order.map Prod.snd) m ∧
      ∀ i, s.map.lock i = false ∧ ∃ l, BucketIs s.map i l ∧ BucketIs m i l := by
  obtain ⟨order, -, hlinear, chains, hguarded⟩ :=
    run_explained hrun (explained_init prog nbuckets)
  obtain ⟨m, chains', htrace, hcontents, hrep⟩ :=
    run_pairs hn (order.map fun entry => entry.1.call)
  rw [List.nil_append] at hlinear
  refine ⟨order, m, hlinear.linearizes (fun t => ?_) fun t => (hcomplete t).1, ?_, fun i => ?_⟩
  · rw [Function.comp_apply, (hcomplete t).2]
    rfl
  · rw [hlinear.results]
    exact htrace
  · have hnone : ∀ t, (s.place t).bucket ≠ some i := by
      intro t
      rw [(hcomplete t).2]
      exact nofun
    obtain ⟨hlock, hpairs⟩ := hguarded.unheld i hnone
    refine ⟨hlock, _, ⟨chains i, hguarded.chain i, rfl⟩, chains' i, hrep.chain i, ?_⟩
    rw [hpairs, ← hcontents]
    rfl

/-- A thread that puts in a value and one that takes it out. -/
def raceCalls (t : Fin 2) : List (Call ℕ) :=
  if t = 0 then [.insert ⟨[97], by decide⟩ (some 7)] else [.remove ⟨[97], by decide⟩]

/-- The second thread has called before the first one has the lock, and waits for it. -/
def raceChoices : List (Turn (Fin 2)) :=
  [0, 1, 0, 0, 0, 0, 0, 0, 0, 1, 1, 0, 1, 1, 1, 1, 1, 1].map fun t => ⟨t, 3⟩

def race : Option (List (Option (Event (Fin 2) (Call ℕ) (Option ℕ))) × System (Fin 2) ℕ) :=
  execTrace (turn raceCalls) (System.init 1) raceChoices

theorem calls_atomic_race :
    ∃ seen s, Trace (turn raceCalls) (System.init 1) raceChoices seen s ∧
      ∃ order m, Linearizes raceCalls seen.reduceOption order ∧
        Trace step (mapCreate 1) (order.map fun entry => entry.1.call)
          (order.map Prod.snd) m ∧
        ∀ i, s.map.lock i = false ∧ ∃ l, BucketIs s.map i l ∧ BucketIs m i l := by
  have hrun : Trace (turn raceCalls) (System.init 1) raceChoices (race.get (by decide)).1
      (race.get (by decide)).2 := Trace.of_exec (Option.some_get (show race.isSome by decide)).symm
  have hcomplete : (race.get (by decide)).2.Complete raceCalls := by
    unfold System.Complete
    decide
  exact ⟨_, _, hrun, calls_atomic raceCalls 1 Nat.one_pos _ _ _ hrun hcomplete⟩

end HashMap
end Leetcode
