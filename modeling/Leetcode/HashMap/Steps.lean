import Leetcode.HashMap.Guarded

/-!
# The steps of the calls keep the buckets guarded

One lemma for each place of the code.  Up to the release of the lock the lists of pairs stay
as they are; the release is the moment at which the call counts as made.
-/

namespace Leetcode
namespace HashMap

open CLib

variable {T V : Type*} {prog : T → List (Call V)} {s : System T V}
  {chains : ℕ → List Ref} {b : Buckets V} {t : T} {i : ℕ} {a cur n : Ref} {prev : Option Ref}
  {call : Call V} {p : Place V}

/-! ## What a thread knows -/

theorem Guarded.knows_at (h : Guarded prog s chains b) (hc : (prog t)[s.next t]? = some call)
    (hp : s.place t = p) (hbucket : p.bucket = some i) :
    Knows s.map (chains i) (b i) call p := by
  subst hp
  exact h.knows t i call hbucket hc

/-- At the end of the loop no node has the key. -/
theorem loop_end (h : Guarded prog s chains b) (hc : (prog t)[s.next t]? = some call)
    (hp : s.place t = .loop i none prev) :
    pairs s.map (chains i) = b i ∧ ∀ a ∈ chains i, s.map.key a ≠ call.key := by
  obtain ⟨hold, front, back, hnodes, hcur, -, hfront⟩ := h.knows_at hc hp rfl
  obtain rfl : back = [] := List.head?_eq_none_iff.1 hcur.symm
  rw [List.append_nil] at hnodes
  rw [hnodes] at hold ⊢
  exact ⟨hold, hfront⟩

theorem deref_eq_some {s' s'' : System T V} (h : s.deref a s'' = some s') :
    s.allocated a = true ∧ s'' = s' := by
  unfold System.deref at h
  split at h
  · next ha => exact ⟨ha, Option.some.inj h⟩
  · cases h

variable [DecidableEq T]

/-! ## A thread that keeps its bucket -/

theorem Guarded.hold (h : Guarded prog s chains b) (hc : (prog t)[s.next t]? = some call)
    {m : ConcurrentHashMap V} {allocated : Ref → Bool} {l : List Ref} {p₀ : Place V}
    (hp : s.place t = p₀) (hfrom : p₀.bucket = some i) (hto : p.bucket = some i)
    (hframe : Frame s chains i t m allocated) (hlock : m.lock = s.map.lock)
    (hchain : Chain m.next (m.head i) l)
    (hl : ∀ a ∈ l, Mine s chains i t a ∧ allocated a = true)
    (hown : ∀ a, p.own = some a → Mine s chains i t a ∧ allocated a = true ∧ a ∉ l)
    (hknows : Knows m l (b i) call p) :
    Guarded prog ({ s with map := m, allocated := allocated }.goto t p)
      (Function.update chains i l) b := by
  subst hp
  have hstep := h.step (e := b i) hc (Place.target_of_bucket hfrom)
    (fun j hj => Option.some.inj (hj.symm.trans (Place.target_of_bucket hto)))
    (fun u hut hu => hut (h.excl u t i hu hfrom)) hframe hchain hl hown
    (fun _ => ⟨hlock ▸ h.locked t i hfrom, hknows⟩)
    (fun hnone => absurd (hto.symm.trans hnone) nofun)
  rw [Function.update_eq_self] at hstep
  exact hstep

/-- The bucket has the same nodes as before. -/
theorem Guarded.keep (h : Guarded prog s chains b) (hc : (prog t)[s.next t]? = some call)
    {m : ConcurrentHashMap V} {allocated : Ref → Bool} {p₀ : Place V}
    (hp : s.place t = p₀) (hfrom : p₀.bucket = some i) (hto : p.bucket = some i)
    (hframe : Frame s chains i t m allocated) (hlock : m.lock = s.map.lock)
    (hchain : Chain m.next (m.head i) (chains i)) (hlive : ∀ a ∈ chains i, allocated a = true)
    (hown : ∀ a, p.own = some a → Mine s chains i t a ∧ allocated a = true ∧ a ∉ chains i)
    (hknows : Knows m (chains i) (b i) call p) :
    Guarded prog ({ s with map := m, allocated := allocated }.goto t p) chains b := by
  have hhold := h.hold hc hp hfrom hto hframe hlock hchain
    (fun a ha => ⟨Or.inl ha, hlive a ha⟩) hown hknows
  rw [Function.update_eq_self] at hhold
  exact hhold

/-- The map stays as it is. -/
theorem Guarded.move (h : Guarded prog s chains b) (hc : (prog t)[s.next t]? = some call)
    {p₀ : Place V} (hp : s.place t = p₀) (hfrom : p₀.bucket = some i) (hto : p.bucket = some i)
    (hown : ∀ a, p.own = some a → p₀.own = some a)
    (hknows : Knows s.map (chains i) (b i) call p) : Guarded prog (s.goto t p) chains b := by
  subst hp
  exact h.keep hc rfl hfrom hto (Frame.refl s chains i t) rfl (h.chain i) (h.live i)
    (fun a ha => ⟨Or.inr (Or.inl (hown a ha)), h.own_live t a (hown a ha),
      h.own_apart t a i (hown a ha)⟩) hknows

/-! ## Taking the lock and searching -/

theorem lock_ok (h : Guarded prog s chains b) (hc : (prog t)[s.next t]? = some call)
    (hp : s.place t = .lock i) {m : ConcurrentHashMap V}
    (hlock : pthreadMutexLock s.map i = some m) :
    Guarded prog ({ s with map := m }.goto t (.head i)) chains b := by
  unfold pthreadMutexLock at hlock
  split at hlock
  · cases hlock
  · next hfree =>
      obtain rfl := Option.some.inj hlock
      have hnone : ∀ u, (s.place u).bucket ≠ some i := fun u hu => hfree (h.locked u i hu)
      have htarget : (s.place t).target = some i := by rw [hp]; rfl
      have hstep := h.step (e := b i) (p := .head i)
        (m := { s.map with lock := Function.update s.map.lock i true }) hc htarget
        (fun j hj => (Option.some.inj hj).symm) (fun u _ => hnone u)
        { Frame.refl s chains i t with lock := fun j hj => Function.update_of_ne hj _ _ }
        (h.chain i) (fun a ha => ⟨Or.inl ha, h.live i a ha⟩) nofun
        (fun _ => ⟨Function.update_self .., (h.unheld i hnone).2⟩) nofun
      rw [Function.update_eq_self, Function.update_eq_self] at hstep
      exact hstep

theorem head_ok (h : Guarded prog s chains b) (hc : (prog t)[s.next t]? = some call)
    (hp : s.place t = .head i) :
    Guarded prog (s.goto t (.loop i (s.map.head i) none)) chains b := by
  have hold : pairs s.map (chains i) = b i := h.knows_at hc hp rfl
  refine h.move hc hp rfl rfl nofun ⟨hold, [], chains i, rfl, ?_, rfl, nofun⟩
  exact chain_head (h.chain i)

theorem loop_visit (h : Guarded prog s chains b) (hc : (prog t)[s.next t]? = some call)
    (hp : s.place t = .loop i (some cur) prev) :
    Guarded prog (s.goto t (if hasKey s.map call.key cur then .hit i cur prev
      else .loop i (s.map.next cur) (some cur))) chains b := by
  obtain ⟨hold, front, back, hnodes, hcur, hprev, hfront⟩ := h.knows_at hc hp rfl
  obtain ⟨rest, rfl⟩ := List.head?_eq_some_iff.1 hcur.symm
  have hchain := h.chain i
  rw [hnodes] at hchain
  by_cases hkey : s.map.key cur = call.key
  · rw [if_pos (hasKey_iff.2 hkey)]
    exact h.move hc hp rfl rfl nofun
      ⟨hold, front, rest, hnodes, hprev, hfront, hkey⟩
  · rw [hasKey_eq_false hkey, if_neg Bool.false_ne_true]
    refine h.move hc hp rfl rfl nofun
      ⟨hold, front ++ [cur], rest, ?_, chain_link hchain, ?_, ?_⟩
    · rw [hnodes, List.append_assoc, List.singleton_append]
    · rw [List.getLast?_concat]
    · intro a ha
      rcases List.mem_append.1 ha with ha | ha
      · exact hfront a ha
      · rw [List.mem_singleton.1 ha]
        exact hkey

theorem loop_miss (h : Guarded prog s chains b) (hc : (prog t)[s.next t]? = some call)
    (hp : s.place t = .loop i none prev) (hcall : ∀ key value, call ≠ .insert key value) :
    Guarded prog (s.goto t (.unlock i none)) chains b := by
  obtain ⟨hold, hnew⟩ := loop_end h hc hp
  refine h.move hc hp rfl rfl nofun ?_
  show bucketStep (b i) call = (pairs s.map (chains i), none)
  rw [← hold]
  cases call with
  | insert key value => exact absurd rfl (hcall key value)
  | get key => exact bucketStep_get_miss (pairs_ne hnew)
  | remove key => exact bucketStep_remove_miss (pairs_ne hnew)

/-! ## `map_insert` -/

variable {key : CStr} {value old : Option V}

theorem loop_create (h : Guarded prog s chains b)
    (hc : (prog t)[s.next t]? = some (.insert key value))
    (hp : s.place t = .loop i none prev) : Guarded prog (s.goto t (.create i)) chains b := by
  obtain ⟨hold, hnew⟩ := loop_end h hc hp
  exact h.move hc hp rfl rfl nofun ⟨⟨key, value, rfl⟩, hold, hnew⟩

theorem hit_insert (h : Guarded prog s chains b)
    (hc : (prog t)[s.next t]? = some (.insert key value)) (hp : s.place t = .hit i cur prev) :
    Guarded prog (s.goto t (.store i cur (s.map.value cur))) chains b := by
  obtain ⟨hold, hfound⟩ := h.knows_at hc hp rfl
  exact h.move hc hp rfl rfl nofun ⟨⟨key, value, rfl⟩, hold, ⟨prev, hfound⟩, rfl⟩

theorem store_ok (h : Guarded prog s chains b)
    (hc : (prog t)[s.next t]? = some (.insert key value)) (hp : s.place t = .store i cur old) :
    Guarded prog ({ s with
      map := { s.map with value := Function.update s.map.value cur value } }.goto t
        (.unlock i old)) chains b := by
  obtain ⟨-, hold, ⟨prev, front, back, hnodes, -, hfront, hkey⟩, hout⟩ := h.knows_at hc hp rfl
  have hnodup := chain_nodup (h.chain i)
  have hcur : cur ∈ chains i := by simp [hnodes]
  have hother : ∀ a, ¬ Mine s chains i t a → Function.update s.map.value cur value a =
      s.map.value a := by
    intro a ha
    refine Function.update_of_ne ?_ _ _
    rintro rfl
    exact ha (Or.inl hcur)
  refine h.keep hc hp rfl rfl { Frame.refl s chains i t with value := hother } rfl
    (h.chain i) (h.live i) nofun ?_
  show bucketStep (b i) _ = (pairs _ (chains i), old)
  rw [hnodes] at hnodup
  rw [← hold, hnodes, pairs_setValue hnodup, hout, pairs_append, pairs_cons, hkey]
  exact bucketStep_insert_hit (pairs_ne hfront) value

theorem create_ok (h : Guarded prog s chains b)
    (hc : (prog t)[s.next t]? = some (.insert key value)) (hp : s.place t = .create i)
    (hn : s.allocated n = false) :
    Guarded prog ({ s with
      map := { s.map with
        key := Function.update s.map.key n key
        value := Function.update s.map.value n value }
      allocated := Function.update s.allocated n true }.goto t (.link i n)) chains b := by
  obtain ⟨-, hold, hnew⟩ := h.knows_at hc hp rfl
  have hne : ∀ a, s.allocated a = true → a ≠ n := by
    rintro a ha rfl
    rw [hn] at ha
    cases ha
  have hmine : ∀ a, ¬ Mine s chains i t a → a ≠ n := by
    rintro a ha rfl
    exact ha (Or.inr (Or.inr hn))
  have hkey : ∀ a ∈ chains i, Function.update s.map.key n key a = s.map.key a := fun a ha =>
    Function.update_of_ne (hne a (h.live i a ha)) _ _
  have hvalue : ∀ a ∈ chains i, Function.update s.map.value n value a = s.map.value a :=
    fun a ha => Function.update_of_ne (hne a (h.live i a ha)) _ _
  refine h.keep hc hp rfl rfl
    { Frame.refl s chains i t with
      key := fun a ha => Function.update_of_ne (hmine a ha) _ _
      value := fun a ha => Function.update_of_ne (hmine a ha) _ _
      allocated := fun a ha => Function.update_of_ne (hmine a ha) _ _ }
    rfl (h.chain i) (fun a ha => ?_) (fun a ha => ?_)
    ⟨(pairs_congr fun a ha => ⟨hkey a ha, hvalue a ha⟩).trans hold, fun a ha => ?_, ?_⟩
  · rw [Function.update_of_ne (hne a (h.live i a ha))]
    exact h.live i a ha
  · obtain rfl : n = a := Option.some.inj ha
    exact ⟨Or.inr (Or.inr hn), Function.update_self .., fun hmem => hne n (h.live i n hmem) rfl⟩
  · show Function.update s.map.key n key a ≠ key
    rw [hkey a ha]
    exact hnew a ha
  · show _ = Call.insert (Function.update s.map.key n key n)
      (Function.update s.map.value n value n)
    rw [Function.update_self, Function.update_self]

theorem link_ok (h : Guarded prog s chains b) (hc : (prog t)[s.next t]? = some call)
    (hp : s.place t = .link i n) :
    Guarded prog ({ s with
      map := { s.map with next := Function.update s.map.next n (s.map.head i) } }.goto t
        (.publish i n)) chains b := by
  obtain ⟨hold, hnew, hcall⟩ := h.knows_at hc hp rfl
  have hown : (s.place t).own = some n := by rw [hp]; rfl
  have hmine : ∀ a, ¬ Mine s chains i t a → a ≠ n := by
    rintro a ha rfl
    exact ha (Or.inr (Or.inl hown))
  refine h.keep hc hp rfl rfl
    { Frame.refl s chains i t with
      next := fun a ha => Function.update_of_ne (hmine a ha) _ _ }
    rfl ((h.chain i).update (h.own_apart t n i hown) _) (h.live i) (fun a ha => ?_)
    ⟨hold, hnew, hcall, Function.update_self ..⟩
  obtain rfl : n = a := Option.some.inj ha
  exact ⟨Or.inr (Or.inl hown), h.own_live t n hown, h.own_apart t n i hown⟩

theorem publish_ok (h : Guarded prog s chains b) (hc : (prog t)[s.next t]? = some call)
    (hp : s.place t = .publish i n) :
    Guarded prog ({ s with
      map := { s.map with head := Function.update s.map.head i (some n) } }.goto t
        (.unlock i none)) (Function.update chains i (n :: chains i)) b := by
  obtain ⟨hold, hnew, hcall, hnext⟩ := h.knows_at hc hp rfl
  have hown : (s.place t).own = some n := by rw [hp]; rfl
  refine h.hold hc hp rfl rfl
    { Frame.refl s chains i t with head := fun j hj => Function.update_of_ne hj _ _ }
    rfl ⟨Function.update_self .., ?_⟩ (fun a ha => ?_) nofun ?_
  · rw [hnext]
    exact h.chain i
  · rcases List.mem_cons.1 ha with rfl | ha
    · exact ⟨Or.inr (Or.inl hown), h.own_live t a hown⟩
    · exact ⟨Or.inl ha, h.live i a ha⟩
  · subst hcall
    show bucketStep (b i) _ = ((s.map.key n, s.map.value n) :: pairs s.map (chains i), none)
    rw [← hold]
    exact bucketStep_insert_miss (pairs_ne hnew) _

/-! ## `map_get` and `map_remove` -/

theorem hit_get (h : Guarded prog s chains b) (hc : (prog t)[s.next t]? = some (.get key))
    (hp : s.place t = .hit i cur prev) :
    Guarded prog (s.goto t (.unlock i (s.map.value cur))) chains b := by
  obtain ⟨hold, front, back, hnodes, -, hfront, rfl⟩ := h.knows_at hc hp rfl
  refine h.move hc hp rfl rfl nofun ?_
  show bucketStep (b i) _ = (pairs s.map (chains i), s.map.value cur)
  rw [← hold, hnodes, pairs_append, pairs_cons]
  exact bucketStep_get_hit (pairs_ne hfront)

/-- The link in front of the node is written. -/
theorem hit_remove (h : Guarded prog s chains b) (hc : (prog t)[s.next t]? = some (.remove key))
    (hp : s.place t = .hit i cur prev) :
    ∃ chains', Guarded prog ({ s with map := unlinked s.map i prev cur }.goto t (.take i cur))
      chains' b := by
  obtain ⟨hold, front, back, hnodes, rfl, hfront, rfl⟩ := h.knows_at hc hp rfl
  have hchain := h.chain i
  rw [hnodes] at hchain
  have hcur : cur ∈ chains i := by simp [hnodes]
  have hrest : ∀ a ∈ front ++ back, a ∈ chains i ∧ a ≠ cur := by
    intro a ha
    rw [hnodes]
    exact (mem_without (chain_nodup hchain)).1 ha
  have hnext : ∀ a, ¬ Mine s chains i t a →
      (unlinked s.map i front.getLast? cur).next a = s.map.next a := by
    intro a ha
    refine relink_other _ _ _ fun hlast => ha (Or.inl ?_)
    rw [hnodes]
    exact List.mem_append_left _ (List.mem_of_getLast? hlast)
  refine ⟨_, h.hold hc hp rfl rfl
    { Frame.refl s chains i t with
      next := hnext
      head := fun j hj => Function.update_of_ne hj _ _ }
    rfl (l := front ++ back) ?_ (fun a ha => ?_) (fun a ha => ?_) ⟨⟨_, rfl⟩, ?_⟩⟩
  · show Chain (relink s.map.next (s.map.head i) front.getLast? (s.map.next cur)).1
      (Function.update s.map.head i _ i) (front ++ back)
    rw [Function.update_self]
    refine chain_splice hchain (chain_behind_node hchain) fun b hb hbl => ?_
    exact chain_disjoint hchain b hb (List.mem_cons_of_mem _ hbl)
  · exact ⟨Or.inl (hrest a ha).1, h.live i a (hrest a ha).1⟩
  · obtain rfl : cur = a := Option.some.inj ha
    exact ⟨Or.inl hcur, h.live i cur hcur, fun hmem => (hrest cur hmem).2 rfl⟩
  · show bucketStep (b i) _ = (pairs s.map (front ++ back), s.map.value cur)
    rw [← hold, hnodes, pairs_append, pairs_append, pairs_cons]
    exact bucketStep_remove_hit (pairs_ne hfront)

theorem take_ok (h : Guarded prog s chains b) (hc : (prog t)[s.next t]? = some call)
    (hp : s.place t = .take i cur) :
    Guarded prog (s.goto t (.free i cur (s.map.value cur))) chains b := by
  have hknows := h.knows_at hc hp rfl
  exact h.move hc hp rfl rfl (fun _ ha => ha) hknows

theorem free_ok (h : Guarded prog s chains b) (hc : (prog t)[s.next t]? = some call)
    (hp : s.place t = .free i cur old) :
    Guarded prog ({ s with
      allocated := Function.update s.allocated cur false }.goto t (.unlock i old)) chains b := by
  have hown : (s.place t).own = some cur := by rw [hp]; rfl
  have hne : ∀ a, a = cur → Mine s chains i t a := by
    rintro a rfl
    exact Or.inr (Or.inl hown)
  refine h.keep hc hp rfl rfl
    { Frame.refl s chains i t with
      allocated := fun a ha => Function.update_of_ne (fun heq => ha (hne a heq)) _ _ }
    rfl (h.chain i) (fun a ha => ?_) nofun (h.knows_at hc hp rfl).2
  have hother : a ≠ cur := by
    rintro rfl
    exact h.own_apart t a i hown ha
  rw [Function.update_of_ne hother]
  exact h.live i a ha

/-! ## Releasing the lock -/

/-- From now on the list of pairs of the bucket is the one behind the call. -/
theorem unlock_ok (h : Guarded prog s chains b) (hc : (prog t)[s.next t]? = some call)
    (hp : s.place t = .unlock i old) :
    Guarded prog ({ s with map := pthreadMutexUnlock s.map i }.goto t (.ret old)) chains
        (Buckets.step s.map.nbuckets b call).1 ∧
      (Buckets.step s.map.nbuckets b call).2 = old := by
  have hbucket : (s.place t).bucket = some i := by rw [hp]; rfl
  have hindex : (hashStr call.key).toNat % s.map.nbuckets = i :=
    h.target t i call (Place.target_of_bucket hbucket) hc
  have hknows : bucketStep (b i) call = (pairs s.map (chains i), old) := h.knows_at hc hp rfl
  have hstep := h.step (p := .ret old) (m := pthreadMutexUnlock s.map i)
    (e := (bucketStep (b i) call).1) hc (Place.target_of_bucket hbucket) nofun
    (fun u hut hu => hut (h.excl u t i hu hbucket))
    { Frame.refl s chains i t with lock := fun j hj => Function.update_of_ne hj _ _ }
    (h.chain i) (fun a ha => ⟨Or.inl ha, h.live i a ha⟩) nofun nofun
    (fun _ => ⟨Function.update_self .., (congrArg Prod.fst hknows).symm⟩)
  rw [Function.update_eq_self] at hstep
  unfold Buckets.step
  rw [hindex]
  exact ⟨hstep, congrArg Prod.snd hknows⟩

/-! ## Any step -/

/-- What a step inside a call does: the thread goes on, or it releases the lock and the call
has been made. -/
inductive Advance (prog : T → List (Call V)) (s : System T V) (b : Buckets V) (t : T)
    (call : Call V) (s' : System T V) : Prop
  | silent (p : Place V) (chains : ℕ → List Ref) (hplace : s'.place = Function.update s.place t p)
      (hphase : p.phase = .running) (h : Guarded prog s' chains b)
  | settle (result : Option V) (chains : ℕ → List Ref)
      (hplace : s'.place = Function.update s.place t (.ret result))
      (h : Guarded prog s' chains (Buckets.step s.map.nbuckets b call).1)
      (hresult : (Buckets.step s.map.nbuckets b call).2 = result)

theorem inside_ok (h : Guarded prog s chains b) {addr : Ref} {s' : System T V}
    (hc : (prog t)[s.next t]? = some call) (hstep : inside s t addr call = some s') :
    s'.next = s.next ∧ s'.map.nbuckets = s.map.nbuckets ∧ Advance prog s b t call s' := by
  revert hstep hc
  fun_cases inside s t addr call with
  | case1 call m i hp =>
      intro hc hstep
      obtain ⟨m, hlock, rfl⟩ := Option.map_eq_some_iff.1 hstep
      have hsize : m.nbuckets = s.map.nbuckets := by
        unfold pthreadMutexLock at hlock
        split at hlock
        · cases hlock
        · cases hlock
          rfl
      exact ⟨rfl, hsize, .silent _ _ rfl rfl (lock_ok h hc hp hlock)⟩
  | case2 call m i hp =>
      intro hc hstep
      cases hstep
      exact ⟨rfl, rfl, .silent _ _ rfl rfl (head_ok h hc hp)⟩
  | case3 i prev key value hp =>
      intro hc hstep
      cases hstep
      exact ⟨rfl, rfl, .silent _ _ rfl rfl (loop_create h hc hp)⟩
  | case4 call i prev hp hcall =>
      intro hc hstep
      cases hstep
      exact ⟨rfl, rfl, .silent _ _ rfl rfl (loop_miss h hc hp hcall)⟩
  | case5 call m i cur prev hp =>
      intro hc hstep
      obtain ⟨-, rfl⟩ := deref_eq_some hstep
      refine ⟨rfl, rfl, .silent _ _ rfl ?_ (loop_visit h hc hp)⟩
      split <;> rfl
  | case6 m i cur prev key value hp =>
      intro hc hstep
      obtain ⟨-, rfl⟩ := deref_eq_some hstep
      exact ⟨rfl, rfl, .silent _ _ rfl rfl (hit_insert h hc hp)⟩
  | case7 m i cur old key value hp m' =>
      intro hc hstep
      obtain ⟨-, rfl⟩ := deref_eq_some hstep
      exact ⟨rfl, rfl, .silent _ _ rfl rfl (store_ok h hc hp)⟩
  | case8 => exact fun _ hstep => nomatch hstep
  | case9 m i key value hp m' hfree =>
      intro hc hstep
      cases hstep
      exact ⟨rfl, rfl, .silent _ _ rfl rfl (create_ok h hc hp (Bool.eq_false_iff.2 hfree))⟩
  | case10 m i n key value hp m' =>
      intro hc hstep
      obtain ⟨-, rfl⟩ := deref_eq_some hstep
      exact ⟨rfl, rfl, .silent _ _ rfl rfl (link_ok h hc hp)⟩
  | case11 m i n key value hp m' =>
      intro hc hstep
      cases hstep
      exact ⟨rfl, rfl, .silent _ _ rfl rfl (publish_ok h hc hp)⟩
  | case12 m i cur prev key hp =>
      intro hc hstep
      obtain ⟨-, rfl⟩ := deref_eq_some hstep
      exact ⟨rfl, rfl, .silent _ _ rfl rfl (hit_get h hc hp)⟩
  | case13 m i cur p key hp m' hlive =>
      intro hc hstep
      obtain ⟨-, rfl⟩ := deref_eq_some hstep
      obtain ⟨chains', h'⟩ := hit_remove h hc hp
      rw [unlinked_eq] at h'
      exact ⟨rfl, rfl, .silent _ _ rfl rfl h'⟩
  | case14 => exact fun _ hstep => nomatch hstep
  | case15 m i cur key hp m' =>
      intro hc hstep
      obtain ⟨-, rfl⟩ := deref_eq_some hstep
      obtain ⟨chains', h'⟩ := hit_remove h hc hp
      rw [unlinked_eq] at h'
      exact ⟨rfl, rfl, .silent _ _ rfl rfl h'⟩
  | case16 m i cur key hp =>
      intro hc hstep
      obtain ⟨-, rfl⟩ := deref_eq_some hstep
      exact ⟨rfl, rfl, .silent _ _ rfl rfl (take_ok h hc hp)⟩
  | case17 i cur val key hp =>
      intro hc hstep
      obtain ⟨-, rfl⟩ := deref_eq_some hstep
      exact ⟨rfl, rfl, .silent _ _ rfl rfl (free_ok h hc hp)⟩
  | case18 call m i result hp =>
      intro hc hstep
      cases hstep
      obtain ⟨h', hresult⟩ := unlock_ok h hc hp
      exact ⟨rfl, rfl, .settle _ _ rfl h' hresult⟩
  | case19 => exact fun _ hstep => nomatch hstep

end HashMap
end Leetcode
