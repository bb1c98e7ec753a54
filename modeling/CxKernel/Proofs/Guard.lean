import CxKernel.Proofs.Deadlock
import CxKernel.Spec.Guard
import Mathlib.Algebra.BigOperators.Fin
import Mathlib.Algebra.Order.Group.Multiset

/-! Guards. Code that locks through guards alone gives up only what it holds, so the mutexes keep
their promise to it. -/

namespace CxKernel.Mutex

open LinkedList Runs

variable {C T M : Type} [DecidableEq M]

/-- The mutexes held after a call. -/
def heldStep (held : Multiset M) : LockCall M → Option (Multiset M)
  | .lock m => some (m ::ₘ held)
  | .unlock m => if m ∈ held then some (held.erase m) else none

/-! What a block does. -/

def Policy.held (impl : Policy M) : Multiset M := Multiset.ofList impl.lock_.toList

def scopeHeld {n : ℕ} (scope : Fin n → Policy M) : Multiset M := ∑ i, (scope i).held

variable {n : ℕ} {held held' : Multiset M} {m : M}

theorem mem_of_heldStep (h : heldStep held (.unlock m) = some held') : m ∈ held := by
  by_contra hnot
  simp [heldStep, hnot] at h

omit [DecidableEq M] in
theorem Policy.held_unlock (impl : Policy M) : impl.unlock.2.held = 0 := by
  obtain ⟨_ | m⟩ := impl <;> rfl

theorem Policy.run_unlock (impl : Policy M) :
    run heldStep (impl.held + held) impl.unlock.1 = some held := by
  obtain ⟨_ | m⟩ := impl
  · simp [Policy.held, Policy.unlock, run]
  · simp [Policy.held, Policy.unlock, run, heldStep]

omit [DecidableEq M] in
theorem scopeHeld_cons (impl : Policy M) (scope : Fin n → Policy M) :
    scopeHeld (Fin.cons impl scope : Fin (n + 1) → Policy M) = impl.held + scopeHeld scope := by
  simp only [scopeHeld, Fin.sum_univ_succ, Fin.cons_zero, Fin.cons_succ]

omit [DecidableEq M] in
theorem scopeHeld_succ (scope : Fin (n + 1) → Policy M) :
    scopeHeld scope = (scope 0).held + scopeHeld (Fin.tail scope) := Fin.sum_univ_succ _

omit [DecidableEq M] in
/-- An unlocked guard holds nothing. -/
theorem scopeHeld_unlock (scope : Fin n → Policy M) (i : Fin n) :
    scopeHeld scope = (scope i).held + scopeHeld (Function.update scope i (scope i).unlock.2) := by
  have hmem := Finset.mem_univ i
  rw [scopeHeld, scopeHeld, ← Finset.add_sum_erase _ _ hmem,
    ← Finset.add_sum_erase _ (fun j => (Function.update scope i (scope i).unlock.2 j).held) hmem,
    Function.update_self, Policy.held_unlock, zero_add]
  congr 1
  refine Finset.sum_congr rfl fun j hj => ?_
  rw [Function.update_of_ne (Finset.ne_of_mem_erase hj)]

/-- A block unlocks what its own guards hold, and only what is held. -/
theorem Block.run_held (b : Block M n) (scope : Fin n → Policy M) (held : Multiset M) :
    run heldStep (scopeHeld scope + held) (b.exec scope).1 =
      some (scopeHeld (b.exec scope).2 + held) := by
  induction b generalizing held with
  | close => rfl
  | guard m rest ih =>
    have hrest := ih (Fin.cons ⟨some m⟩ scope) held
    rw [scopeHeld_cons, scopeHeld_succ (rest.exec _).2, add_assoc] at hrest
    refine run_append.mpr ⟨_, run_cons.mpr ⟨_, rfl, ?_⟩, (Policy.run_unlock _)⟩
    rw [add_assoc] at hrest
    exact hrest
  | chain m i rest ih =>
    have hrest := ih (Fin.cons ⟨some m⟩ (Function.update scope i (scope i).unlock.2)) held
    rw [scopeHeld_cons, scopeHeld_succ (rest.exec _).2, add_assoc, add_assoc] at hrest
    rw [scopeHeld_unlock scope i, add_assoc]
    refine run_append.mpr ⟨_, run_append.mpr ⟨_, Policy.run_unlock _,
      run_cons.mpr ⟨_, rfl, hrest⟩⟩, Policy.run_unlock _⟩
  | release i rest ih =>
    rw [scopeHeld_unlock scope i, add_assoc]
    exact run_append.mpr ⟨_, Policy.run_unlock _, ih _ held⟩
  | block inner rest ih ih' => exact run_append.mpr ⟨_, ih scope held, ih' _ held⟩

/-- A function that is called with nothing held returns with nothing held. -/
theorem Block.run_calls (b : Block M 0) : run heldStep 0 b.calls = some 0 := b.run_held Fin.elim0 0

/-! What the threads of a system do. -/

/-- The call of a mutex that an action is. -/
def Act.calls : Act M → List (LockCall M)
  | .lock m => [.lock m]
  | .unlock m => [.unlock m]
  | _ => []

variable [DecidableEq C] [DecidableEq T]

def Sys.callsBy (s : Sys C T M) (t : T) (a : C × Act M) : List (LockCall M) :=
  if s.curthread a.1 = t then a.2.calls else []

/-- The calls of `t` over a run, in order. -/
def callsOf (t : T) : Sys C T M → List (C × Act M) → List (LockCall M)
  | _, [] => []
  | s, a :: acts => s.callsBy t a ++
    match s.step a with
    | some s' => callsOf t s' acts
    | none => []

/-- `held` are the mutexes that `t` holds or waits for. -/
def Tracks (s : Sys C T M) (t : T) (held : Multiset M) : Prop :=
  ∀ m, held.count m = (s.holders m).count t + (s.ctx t).wanted.count m

variable {s s' : Sys C T M} {t u : T} {c : C} {a : C × Act M} {acts : List (C × Act M)}

omit [DecidableEq C] in
theorem Tracks.congr (h : Tracks s t held)
    (hholders : ∀ m, (s'.holders m).count t = (s.holders m).count t)
    (hwanted : (s'.ctx t).wanted = (s.ctx t).wanted) : Tracks s' t held := fun m => by
  rw [h m, hholders, hwanted]

theorem callsOf_cons (hs : s.step a = some s') :
    callsOf t s (a :: acts) = s.callsBy t a ++ callsOf t s' acts := by
  rw [callsOf, hs]

theorem count_push {f : M → List T} {m' : M} :
    (Function.update f m (f m ++ [u]) m').count t =
      (f m').count t + if m' = m ∧ u = t then 1 else 0 := by
  by_cases hm : m' = m
  · subst hm
    rw [Function.update_self, List.count_append, List.count_singleton]
    simp
  · rw [Function.update_of_ne hm, if_neg fun h => hm h.1, Nat.add_zero]

theorem count_erase {f : M → List T} {m' : M} :
    (Function.update f m ((f m).erase u) m').count t =
      (f m').count t - if m' = m ∧ u = t then 1 else 0 := by
  by_cases hm : m' = m
  · subst hm
    rw [Function.update_self, List.count_erase]
    simp
  · rw [Function.update_of_ne hm, if_neg fun h => hm h.1, Nat.sub_zero]

omit [DecidableEq C] in
/-- A step of another thread. -/
theorem Tracks.other {a : Act M} (h : Tracks s t held) (heffect : Effect s u s' a) (ht : u ≠ t) :
    Tracks s' t held := by
  refine h.congr (fun m' => ?_) (by rw [heffect.others (Ne.symm ht)])
  cases heffect with
  | take _ hholders | wake _ hholders =>
    rw [hholders, count_push, if_neg fun he => ht he.2, Nat.add_zero]
  | unlock _ hholders => rw [hholders, count_erase, if_neg fun he => ht he.2, Nat.sub_zero]
  | block _ hholders | quiet _ hholders => rw [hholders]

omit [DecidableEq C] in
/-- A step of the thread itself. -/
theorem Tracks.self {a : Act M} (h : Tracks s t held) (heffect : Effect s t s' a)
    (hcalls : run heldStep held a.calls = some held') : Tracks s' t held' := by
  cases heffect with
  | @take m _ hholders hctx =>
    obtain rfl : m ::ₘ held = held' := Option.some.inj hcalls
    intro m'
    rw [Multiset.count_cons, h m', hholders, hctx, count_push]
    simp only [and_true]
    omega
  | @block m hrun hholders hctx =>
    obtain rfl : m ::ₘ held = held' := Option.some.inj hcalls
    intro m'
    rw [Multiset.count_cons, h m', hholders, hctx, hrun, Function.update_self]
    simp [Ctx.wanted, List.count_singleton', eq_comm]
  | @wake m hwait hholders hctx =>
    obtain rfl : held = held' := Option.some.inj hcalls
    intro m'
    rw [h m', hholders, hctx, hwait, count_push, Function.update_self]
    simp [Ctx.wanted, List.count_singleton', eq_comm]
  | @unlock m hrun hholders hctx =>
    have hmem : m ∈ held := by
      obtain ⟨held₁, hstep, -⟩ := run_cons.mp hcalls
      exact mem_of_heldStep hstep
    obtain rfl : held.erase m = held' := by
      simpa [Act.calls, run, heldStep, hmem] using hcalls
    intro m'
    have hm' := h m'
    rw [hrun] at hm'
    rw [hholders, hctx, count_erase, Function.update_self]
    by_cases hmm : m' = m
    · subst hmm
      rw [Multiset.count_erase_self, hm']
      simp [Ctx.wanted]
    · rw [Multiset.count_erase_of_ne hmm, hm']
      simp [hmm, Ctx.wanted]
  | quiet ha hholders hctx hwanted =>
    have hnone : a.calls = [] := by
      rcases ha with rfl | rfl | rfl <;> rfl
    rw [hnone] at hcalls
    obtain rfl : held = held' := Option.some.inj hcalls
    exact h.congr (fun m => by rw [hholders]) (by rw [hctx, Function.update_self, hwanted])

theorem Tracks.step (h : Tracks s t held) (hs : s.step a = some s')
    (hcalls : run heldStep held (s.callsBy t a) = some held') : Tracks s' t held' := by
  obtain ⟨-, heffect⟩ := step_effect hs
  by_cases ht : s.curthread a.1 = t
  · subst ht
    rw [Sys.callsBy, if_pos rfl] at hcalls
    exact h.self heffect hcalls
  · rw [Sys.callsBy, if_neg ht] at hcalls
    obtain rfl := Option.some.inj hcalls
    exact h.other heffect ht

omit [DecidableEq C] in
theorem Tracks.mem_of_holder (h : Tracks s t held) (ht : t ∈ s.holders m) : m ∈ held := by
  have hpos := List.count_pos_iff.mpr ht
  have hm := h m
  exact Multiset.count_pos.mp (by omega)

omit [DecidableEq C] in
/-- A thread that is not in `lock` holds what it has locked. -/
theorem Tracks.holder_of_mem (h : Tracks s t held) (hctx : s.ctx t = .run) (hm : m ∈ held) :
    t ∈ s.holders m := by
  have hpos := Multiset.count_pos.mpr hm
  rw [h m, hctx] at hpos
  exact List.count_pos_iff.mp (by simpa [Ctx.wanted] using hpos)

theorem Tracks.holderUnlocks (h : Tracks s (s.curthread a.1) held) (hs : s.step a = some s')
    (hcalls : run heldStep held (s.callsBy (s.curthread a.1) a) = some held') :
    HolderUnlocks s a := by
  obtain ⟨c, a⟩ := a
  cases a with
  | unlock m =>
    rw [Sys.callsBy, if_pos rfl] at hcalls
    obtain ⟨held₁, hstep, -⟩ := run_cons.mp hcalls
    exact h.holder_of_mem (unlock_owner hs).1 (mem_of_heldStep hstep)
  | _ => trivial

/-- `lock` is called on a mutex above all those held. -/
def CallsUp (rank : M → ℕ) (held : Multiset M) : LockCall M → Prop
  | .lock m => ∀ m' ∈ held, rank m' < rank m
  | .unlock _ => True

variable {rank : M → ℕ}

omit [DecidableEq C] in
theorem Tracks.locksUp (h : Tracks s (s.curthread a.1) held)
    (hup : AlongRun heldStep (CallsUp rank) held (s.callsBy (s.curthread a.1) a)) :
    LocksUp rank s a := by
  obtain ⟨c, a⟩ := a
  cases a with
  | lock m =>
    rw [Sys.callsBy, if_pos rfl] at hup
    exact fun m' hm' => hup.1 m' (h.mem_of_holder hm')
  | _ => trivial

/-- Where the calls of each thread can be made one after the other, each `unlock` is by the
holder. -/
theorem Tracks.run {P : Multiset M → LockCall M → Prop} {R : Sys C T M → C × Act M → Prop}
    (hR : ∀ s a held, Tracks s (s.curthread a.1) held →
      AlongRun heldStep P held (s.callsBy (s.curthread a.1) a) → R s a)
    {held : T → Multiset M} (h : ∀ t, Tracks s t (held t))
    (hP : ∀ t, AlongRun heldStep P (held t) (callsOf t s acts))
    (hcalls : ∀ t, ∃ held', Runs.run heldStep (held t) (callsOf t s acts) = some held')
    (hrun : Runs.run Sys.step s acts = some s') :
    AlongRun Sys.step HolderUnlocks s acts ∧ AlongRun Sys.step R s acts ∧
      ∀ t, ∃ held', Runs.run heldStep (held t) (callsOf t s acts) = some held' ∧
        Tracks s' t held' := by
  induction acts generalizing s held with
  | nil =>
    obtain rfl := Option.some.inj hrun
    exact ⟨trivial, trivial, fun t => ⟨held t, rfl, h t⟩⟩
  | cons a acts ih =>
    obtain ⟨s₁, hstep, hrun₁⟩ := run_cons.mp hrun
    simp only [callsOf_cons hstep, run_append] at hP hcalls ⊢
    choose held' held₁ hfirst hrest using hcalls
    have h₁ : ∀ t, Tracks s₁ t (held₁ t) := fun t => (h t).step hstep (hfirst t)
    obtain ⟨hunl, hR₁, hends⟩ := ih h₁ (fun t => (hP t).of_append (hfirst t))
      (fun t => ⟨held' t, hrest t⟩) hrun₁
    have hunlocks := (h (s.curthread a.1)).holderUnlocks hstep (hfirst _)
    have hRa := hR s a _ (h (s.curthread a.1)) (hP _).of_append_left
    refine ⟨hunl.cons hunlocks hstep, hR₁.cons hRa hstep, fun t => ?_⟩
    · obtain ⟨heldₙ, hheldₙ, htracks⟩ := hends t
      exact ⟨heldₙ, ⟨held₁ t, hfirst t, hheldₙ⟩, htracks⟩

/-! Threads that lock through guards. -/

/-- What each thread has called so far is what its block calls first. -/
def Follows (prog : T → Block M 0) (s : Sys C T M) (acts : List (C × Act M)) : Prop :=
  ∀ t, callsOf t s acts <+: (prog t).calls

variable {prog : T → Block M 0}

omit [DecidableEq C] in
theorem Start.tracks (h : Start s) (t : T) : Tracks s t 0 := fun m => by
  rw [(h.unused m).1, h.run t]
  rfl

theorem Follows.run (hprog : Follows prog s acts) (h : Start s)
    {P : Multiset M → LockCall M → Prop} {R : Sys C T M → C × Act M → Prop}
    (hR : ∀ s a held, Tracks s (s.curthread a.1) held →
      AlongRun heldStep P held (s.callsBy (s.curthread a.1) a) → R s a)
    (hP : ∀ t, AlongRun heldStep P 0 (prog t).calls)
    (hrun : Runs.run Sys.step s acts = some s') :
    AlongRun Sys.step HolderUnlocks s acts ∧ AlongRun Sys.step R s acts ∧
      ∀ t, ∃ held, Runs.run heldStep 0 (callsOf t s acts) = some held ∧ Tracks s' t held := by
  let start : T → Multiset M := fun _ => 0
  have hstart : ∀ t, Tracks s t (start t) := h.tracks
  refine Tracks.run hR hstart (fun t => ?_) (fun t => ?_) hrun
  · obtain ⟨rest, hrest⟩ := hprog t
    have hPt := hP t
    rw [← hrest] at hPt
    exact hPt.of_append_left
  · obtain ⟨rest, hrest⟩ := hprog t
    have hcalls := (prog t).run_calls
    rw [← hrest] at hcalls
    obtain ⟨held, hheld, -⟩ := run_append.mp hcalls
    exact ⟨held, hheld⟩

omit [DecidableEq C] in
theorem Consistent.exists_unlock {m : M} (h : Consistent s) (hctx : s.ctx (s.curthread c) = .run)
    (hm : s.curthread c ∈ s.holders m) : ∃ s', s.unlock c m = some s' := by
  obtain ⟨σ, k, h⟩ := h
  have hk := h.holder_held hm
  have htok := h.token m
  rw [hk] at htok
  have hmine : s.doIHold c m = true := decide_eq_true htok.2.1
  exact ⟨_, by rw [Sys.unlock, hctx]; exact if_pos hmine⟩

/-- What guards make of a run from `s` to `s'`: the mutexes keep their promise, the assertion of
`unlock` holds where a guard is the next to unlock, and a thread that is through holds nothing. -/
structure Guarded (prog : T → Block M 0) (s : Sys C T M) (acts : List (C × Act M))
    (s' : Sys C T M) : Prop where
  promised : Promised s'
  unlock : ∀ c m, s'.ctx (s'.curthread c) = .run →
    callsOf (s'.curthread c) s acts ++ [.unlock m] <+: (prog (s'.curthread c)).calls →
    ∃ s₂, s'.unlock c m = some s₂
  through : ∀ t, callsOf t s acts = (prog t).calls → ∀ m, t ∉ s'.holders m

/-- On one CPU, threads that lock through guards alone. -/
theorem guarded_threads [Subsingleton C] (h : Start s) (hprog : Follows prog s acts)
    (hrun : run Sys.step s acts = some s') : Guarded prog s acts s' := by
  have hnone : ∀ t, AlongRun heldStep (fun _ _ => True) 0 (prog t).calls :=
    fun t => .of_forall_mem (R := fun _ => True) fun _ _ => trivial
  obtain ⟨hunl, -, htracks⟩ :=
    hprog.run h (R := fun _ _ => True) (fun _ _ _ _ _ => trivial) hnone hrun
  have hcons := preserves_one_cpu.after_run h.consistent hunl hrun
  refine ⟨hcons.promised, fun c m hctx hnext => ?_, fun t hdone m hm => ?_⟩
  · obtain ⟨held, hheld, ht⟩ := htracks (s'.curthread c)
    obtain ⟨rest, hrest⟩ := hnext
    have hcalls := (prog (s'.curthread c)).run_calls
    rw [← hrest, List.append_assoc] at hcalls
    obtain ⟨held₁, hheld₁, hcalls⟩ := run_append.mp hcalls
    obtain rfl := Option.some.inj (hheld.symm.trans hheld₁)
    obtain ⟨held₂, hstep, -⟩ := run_cons.mp hcalls
    exact hcons.exists_unlock hctx (ht.holder_of_mem hctx (mem_of_heldStep hstep))
  · obtain ⟨held, hheld, ht⟩ := htracks t
    rw [hdone, (prog t).run_calls] at hheld
    obtain rfl := Option.some.inj hheld
    exact Multiset.notMem_zero m (ht.mem_of_holder hm)

/-- `true` is through, `false` has the mutex still to unlock. -/
theorem follows_oneCpu : Follows (fun _ => .guard () .close) oneCpu (handOff ++ takeOver) := by
  intro t
  cases t with
  | true => exact ⟨[], rfl⟩
  | false => exact ⟨[.unlock ()], rfl⟩

theorem guarded_threads_oneCpu : ∃ s', run Sys.step oneCpu (handOff ++ takeOver) = some s' ∧
    Guarded (fun _ => .guard () .close) oneCpu (handOff ++ takeOver) s' := by
  obtain ⟨s', hrun⟩ := exists_run_handOff_takeOver
  exact ⟨s', hrun, guarded_threads start_oneCpu follows_oneCpu hrun⟩

/-! The slab allocator. -/

/-- The order in which `core/slab.cc` takes its mutexes. -/
def slabRank {K S : Type} : SlabMutex K S → ℕ
  | .cacheListLock => 0
  | .cache _ => 1
  | .slab _ => 2

def Block.Up (rank : M → ℕ) (b : Block M 0) : Prop := AlongRun heldStep (CallsUp rank) 0 b.calls

theorem Block.up_close : Block.Up rank .close := trivial

theorem Block.up_guard (m : M) : Block.Up rank (.guard m .close) :=
  .cons (fun _ hm => absurd hm (Multiset.notMem_zero _)) rfl ⟨trivial, fun _ _ => trivial⟩

theorem Block.up_guard_guard {m m' : M} (hm : rank m < rank m') :
    Block.Up rank (.guard m (.guard m' .close)) := by
  refine .cons (fun _ hm => absurd hm (Multiset.notMem_zero _)) rfl (.cons (fun x hx => ?_) rfl
    ⟨trivial, fun _ _ => ⟨trivial, fun _ _ => trivial⟩⟩)
  obtain rfl : x = m := by simpa using hx
  exact hm

theorem Block.Up.block {inner rest : Block M 0} (h : Block.Up rank inner)
    (h' : Block.Up rank rest) : Block.Up rank (.block inner rest) := by
  have hcalls : (Block.block inner rest).calls = inner.calls ++ rest.calls := by
    have hscope : (inner.exec Fin.elim0).2 = Fin.elim0 := Subsingleton.elim _ _
    simp only [Block.calls, Block.exec, hscope]
  rw [Block.Up, hcalls]
  exact AlongRun.append h inner.run_calls h'

section Slab

variable {K S : Type} [DecidableEq K] [DecidableEq S]

theorem up_cacheAlloc (cache : K) (node : Option S) :
    Block.Up slabRank (cacheAlloc cache node : Block (SlabMutex K S) 0) := by
  cases node with
  | none => exact Block.up_guard _
  | some x => exact Block.up_guard_guard Nat.one_lt_two

theorem up_cacheFree (parent : K) (slab : S) :
    Block.Up slabRank (cacheFree parent slab : Block (SlabMutex K S) 0) :=
  Block.up_guard_guard Nat.one_lt_two

theorem up_cacheCreate (slabcacheCache : K) (node : Option S) (made : Bool) :
    Block.Up slabRank (cacheCreate slabcacheCache node made : Block (SlabMutex K S) 0) := by
  refine (up_cacheAlloc slabcacheCache node).block ?_
  cases made with
  | false => exact Block.up_close
  | true => exact (Block.up_guard _).block Block.up_close

theorem KmemCall.up_block (slabcacheCache : K) (call : KmemCall K S) :
    Block.Up slabRank (call.block slabcacheCache : Block (SlabMutex K S) 0) := by
  cases call with
  | alloc create cache node =>
    refine (Block.up_guard _).block ?_
    have halloc := (up_cacheAlloc cache node).block Block.up_close
    cases create with
    | none => exact halloc
    | some found => exact (up_cacheCreate slabcacheCache found.1 found.2).block halloc
  | free parent slab => exact (up_cacheFree parent slab).block Block.up_close

theorem up_kmemThread (slabcacheCache : K) (calls : List (KmemCall K S)) :
    Block.Up slabRank (kmemThread slabcacheCache calls) := by
  induction calls with
  | nil => exact Block.up_close
  | cons call calls ih => exact (call.up_block slabcacheCache).block ih

/-- On one CPU, threads that do nothing with mutexes but allocate and free: the mutexes keep their
promise, and whoever waits for one or yields finds a thread to switch to. -/
theorem kmem_threads [Subsingleton C] [Finite T] {s s' : Sys C T (SlabMutex K S)}
    {acts : List (C × Act (SlabMutex K S))} (h : Start s) (slabcacheCache : K)
    (calls : T → List (KmemCall K S))
    (hprog : Follows (fun t => kmemThread slabcacheCache (calls t)) s acts)
    (hrun : run Sys.step s acts = some s') :
    Promised s' ∧
      ∀ c resume, Resumes s' (s'.curthread c) resume → ∃ s₂, s'.switch c = some s₂ := by
  obtain ⟨hunl, hup, -⟩ := hprog.run h (R := LocksUp slabRank)
    (fun _ _ _ htracks hcalls => htracks.locksUp hcalls)
    (fun t => up_kmemThread slabcacheCache (calls t)) hrun
  obtain ⟨hsound, hascending⟩ :=
    preserves_ascending.after_run ⟨h.sound, h.ascending⟩ (hunl.and hup) hrun
  exact ⟨hsound.consistent.promised, fun c resume hres => hsound.exists_switch hascending hres⟩

/-- One CPU, two threads, one cache and one slab. -/
def oneCache : Sys Unit Bool (SlabMutex Unit Unit) := boot (fun _ => true) fun _ => some false

theorem start_oneCache : Start oneCache :=
  start_boot (fun _ _ _ => rfl) (fun _ _ _ _ _ => rfl) fun _ _ => by decide

/-- `true` is in `cache_free`, and `false` wants to be. -/
def bothFree : List (Unit × Act (SlabMutex Unit Unit)) :=
  [((), .lock (.cache ())), ((), .lock (.slab ())), ((), .yield), ((), .switch),
    ((), .lock (.cache ()))]

theorem exists_run_bothFree : ∃ s', run Sys.step oneCache bothFree = some s' ∧
    s'.ctx (s'.curthread ()) = .blocking (.cache ()) := ⟨_, rfl, rfl⟩

theorem follows_bothFree :
    Follows (fun _ => kmemThread () [KmemCall.free () ()]) oneCache bothFree := by
  intro t
  cases t with
  | true => exact ⟨[.unlock (.slab ()), .unlock (.cache ())], rfl⟩
  | false => exact ⟨[.lock (.slab ()), .unlock (.slab ()), .unlock (.cache ())], rfl⟩

theorem kmem_threads_bothFree : ∃ s', run Sys.step oneCache bothFree = some s' ∧
    ∃ s₂, s'.switch () = some s₂ := by
  obtain ⟨s', hrun, hctx⟩ := exists_run_bothFree
  have hsafe := kmem_threads start_oneCache () _ follows_bothFree hrun
  exact ⟨s', hrun, hsafe.2 () _ (Or.inl ⟨_, hctx, rfl⟩)⟩

end Slab

end CxKernel.Mutex
