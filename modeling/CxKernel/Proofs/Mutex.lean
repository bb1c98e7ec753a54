import CxKernel.Proofs.ListPool
import CxKernel.Spec.Mutex

/-! The mutex under every interleaving. `unlock` hands the mutex to the first waiter by
moving it to a run queue; until that thread runs, the mutex is locked, has no holder, and
still names its last owner. A token for each mutex says where in this it stands. -/

namespace CxKernel.Mutex

open LinkedList Runs

variable {C T M : Type}

/-- Who has the mutex. -/
inductive Token (T : Type) where
  | free
  | held (t : T)
  /-- `t` is in `unlock`. -/
  | releasing (t : T)
  /-- Handed to `t`, which has yet to run. -/
  | passed (t : T)

def Token.pending : Token T → List T
  | .passed t => [t]
  | _ => []

/-- `t` is in `lock`, after it was put on the wait queue. -/
def Sys.Waits (s : Sys C T M) (m : M) (t : T) : Prop := s.ctx t = .blocking m ∨ s.ctx t = .waiting m

/-- What the queues and the tokens say of a thread. -/
def ThreadOk (s : Sys C T M) (σ : Queue C M → List T) (k : M → Token T) (t : T) : Prop :=
  match s.ctx t with
  | .run => ∀ c, s.curthread c = t → ¬ OnSome σ t
  | .blocking m => (∃ c, s.curthread c = t ∧ t ∉ σ (.threadQueue c)) ∧
      (t ∈ σ (.waitQueue m) ∨ k m = .passed t)
  | .waiting m => (∀ c, s.curthread c = t → ¬ OnSome σ t) ∧
      (t ∈ σ (.waitQueue m) ∨ k m = .passed t)
  | .unlocking m => (∃ c, s.curthread c = t) ∧ k m = .releasing t ∧ ¬ OnSome σ t
  | .yielding => ∃ c, s.curthread c = t ∧ t ∈ σ (.threadQueue c)

/-- What the fields of a mutex are when its token is `k`. -/
def TokenOk (s : Sys C T M) (σ : Queue C M → List T) (m : M) : Token T → Prop
  | .free => s.mutexState m = .free ∧ s.owner m = none ∧ s.holders m = [] ∧ σ (.waitQueue m) = []
  | .held t => s.mutexState m = .locked ∧ s.owner m = some t ∧ s.holders m = [t]
  | .releasing t => s.mutexState m = .locked ∧ s.owner m = some t ∧ s.holders m = [] ∧
      s.ctx t = .unlocking m
  | .passed t => s.mutexState m = .locked ∧ (∃ r, r ≠ t ∧ s.owner m = some r) ∧ s.holders m = [] ∧
      s.Waits m t ∧ s.threadState t = .ready

structure Inv (s : Sys C T M) (σ : Queue C M → List T) (k : M → Token T) : Prop where
  rep : Represents s.queues σ
  inj : Function.Injective s.curthread
  thread : ∀ t, ThreadOk s σ k t
  wait : ∀ m, ∀ t ∈ σ (.waitQueue m), s.Waits m t ∧ s.threadState t = .blocked
  token : ∀ m, TokenOk s σ m (k m)
  order : ∀ m, s.called m = s.acquired m ++ (k m).pending ++ σ (.waitQueue m)

/-! Threads and mutexes a step does not touch. -/

variable {s s' : Sys C T M} {σ σ' : Queue C M → List T} {k k' : M → Token T} {t u : T} {m m' : M}
  {c : C}

theorem ThreadOk.congr (h : ThreadOk s σ k u) (hctx : s'.ctx u = s.ctx u)
    (hcur : ∀ c, s'.curthread c = u ↔ s.curthread c = u) (hmem : ∀ q, u ∈ σ' q ↔ u ∈ σ q)
    (hpass : ∀ m, k m = .passed u → k' m = .passed u)
    (hrel : ∀ m, k m = .releasing u → k' m = .releasing u) : ThreadOk s' σ' k' u := by
  have hsome : OnSome σ' u ↔ OnSome σ u := exists_congr hmem
  unfold ThreadOk at h ⊢
  rw [hctx]
  cases hu : s.ctx u with
  | run =>
    simp only [hu, hcur, hsome] at h ⊢
    exact h
  | blocking m =>
    simp only [hu, hcur, hmem] at h ⊢
    exact ⟨h.1, h.2.imp_right (hpass m)⟩
  | waiting m =>
    simp only [hu, hcur, hsome, hmem] at h ⊢
    exact ⟨h.1, h.2.imp_right (hpass m)⟩
  | unlocking m =>
    simp only [hu, hcur, hsome] at h ⊢
    exact ⟨h.1, hrel m h.2.1, h.2.2⟩
  | yielding =>
    simp only [hu, hcur, hmem] at h ⊢
    exact h

/-- A thread that waits for `m` and is passed it, and goes to the run queue of the CPU `c`. -/
theorem ThreadOk.pass (h : ThreadOk s σ k u) (hwaits : s.Waits m u) (hon : OnSome σ u)
    (hc : s.curthread c ≠ u) (hctx : s'.ctx u = s.ctx u) (hcur : s'.curthread = s.curthread)
    (hk : k' m = .passed u)
    (hq : ∀ c', c' ≠ c → σ' (.threadQueue c') = σ (.threadQueue c')) : ThreadOk s' σ' k' u := by
  rcases hwaits with hb | hw
  · simp only [ThreadOk, hctx, hcur, hb] at h ⊢
    obtain ⟨⟨c', hc', hnot⟩, -⟩ := h
    have hne : c' ≠ c := by
      intro heq
      exact hc (heq ▸ hc')
    refine ⟨⟨c', hc', ?_⟩, Or.inr hk⟩
    rw [hq c' hne]
    exact hnot
  · simp only [ThreadOk, hctx, hcur, hw] at h ⊢
    exact ⟨fun c' hc' => absurd hon (h.1 c' hc'), Or.inr hk⟩

/-- A mutex keeps its token if its own fields, its queue and the threads in its code stay. -/
theorem TokenOk.congr {k : Token T} (h : TokenOk s σ m k)
    (hstate : s'.mutexState m = s.mutexState m) (howner : s'.owner m = s.owner m)
    (hholders : s'.holders m = s.holders m)
    (hqueue : s.mutexState m = .free → σ' (.waitQueue m) = σ (.waitQueue m))
    (hunl : ∀ t, s.ctx t = .unlocking m → s'.ctx t = .unlocking m)
    (hwait : ∀ t, s.Waits m t → s.threadState t = .ready →
      s'.Waits m t ∧ s'.threadState t = .ready) : TokenOk s' σ' m k := by
  cases k with
  | free =>
    exact ⟨hstate.trans h.1, howner.trans h.2.1, hholders.trans h.2.2.1,
      (hqueue h.1).trans h.2.2.2⟩
  | held t => exact ⟨hstate.trans h.1, howner.trans h.2.1, hholders.trans h.2.2⟩
  | releasing t =>
    exact ⟨hstate.trans h.1, howner.trans h.2.1, hholders.trans h.2.2.1, hunl t h.2.2.2⟩
  | passed t =>
    obtain ⟨hlocked, ⟨r, hr, hown⟩, hnone, hw, hready⟩ := h
    exact ⟨hstate.trans hlocked, ⟨r, hr, howner.trans hown⟩, hholders.trans hnone,
      hwait t hw hready⟩

/-- A step of a thread that is not in the code of this mutex. -/
theorem TokenOk.congr_off {k : Token T} (h : TokenOk s σ m k)
    (hstate : s'.mutexState m = s.mutexState m) (howner : s'.owner m = s.owner m)
    (hholders : s'.holders m = s.holders m)
    (hqueue : s.mutexState m = .free → σ' (.waitQueue m) = σ (.waitQueue m))
    (hunl : s.ctx t ≠ .unlocking m) (hwait : ¬ s.Waits m t)
    (hothers : ∀ u, u ≠ t → s'.ctx u = s.ctx u ∧ s'.threadState u = s.threadState u) :
    TokenOk s' σ' m k := by
  refine h.congr hstate howner hholders hqueue (fun u hu => ?_) fun u hu hr => ?_
  · have hut : u ≠ t := by
      rintro rfl
      exact hunl hu
    exact (hothers u hut).1.trans hu
  · have hut : u ≠ t := by
      rintro rfl
      exact hwait hu
    obtain ⟨hctx, hstate⟩ := hothers u hut
    exact ⟨by simpa only [Sys.Waits, hctx] using hu, hstate.trans hr⟩

/-- The wait queues after a step of a thread that is on none. -/
theorem Inv.wait_off (h : Inv s σ k) (hoff : ¬ OnSome σ t)
    (hothers : ∀ u, u ≠ t → s'.ctx u = s.ctx u ∧ s'.threadState u = s.threadState u)
    (hu : u ∈ σ (.waitQueue m)) : s'.Waits m u ∧ s'.threadState u = .blocked := by
  have hut : u ≠ t := by
    rintro rfl
    exact hoff ⟨_, hu⟩
  obtain ⟨hctx, hstate⟩ := hothers u hut
  obtain ⟨hw, hblocked⟩ := h.wait m u hu
  exact ⟨by simpa only [Sys.Waits, hctx] using hw, hstate.trans hblocked⟩

theorem not_waits_of_run (hctx : s.ctx t = .run) : ¬ s.Waits m t := by
  simp [Sys.Waits, hctx]

/-! What the invariant says of the thread that runs on a CPU. -/

theorem Inv.run_off (h : Inv s σ k) (hctx : s.ctx (s.curthread c) = .run) :
    ¬ OnSome σ (s.curthread c) := by
  have ht := h.thread (s.curthread c)
  simp only [ThreadOk, hctx] at ht
  exact ht c rfl

theorem Inv.blocking_queues (h : Inv s σ k) (hctx : s.ctx (s.curthread c) = .blocking m) :
    s.curthread c ∉ σ (.threadQueue c) ∧
      (s.curthread c ∈ σ (.waitQueue m) ∨ k m = .passed (s.curthread c)) := by
  have ht := h.thread (s.curthread c)
  simp only [ThreadOk, hctx] at ht
  obtain ⟨⟨c', hc', hnot⟩, hor⟩ := ht
  rw [h.inj hc'] at hnot
  exact ⟨hnot, hor⟩

theorem Inv.waiting_passed (h : Inv s σ k) (hctx : s.ctx (s.curthread c) = .waiting m) :
    k m = .passed (s.curthread c) ∧ ¬ OnSome σ (s.curthread c) := by
  have ht := h.thread (s.curthread c)
  simp only [ThreadOk, hctx] at ht
  have hoff := ht.1 c rfl
  exact ⟨ht.2.resolve_left fun hmem => hoff ⟨_, hmem⟩, hoff⟩

theorem Inv.unlocking_releasing (h : Inv s σ k) (hctx : s.ctx t = .unlocking m) :
    k m = .releasing t ∧ ¬ OnSome σ t := by
  have ht := h.thread t
  simp only [ThreadOk, hctx] at ht
  exact ht.2

theorem Inv.free_iff (h : Inv s σ k) : s.mutexState m = .free ↔ k m = .free := by
  have hk := h.token m
  cases hm : k m <;> simp only [hm, TokenOk] at hk <;> simp [hk.1]

theorem Inv.free_queue (h : Inv s σ k) (hfree : s.mutexState m = .free) :
    σ (.waitQueue m) = [] := by
  have hk := h.token m
  rw [h.free_iff.mp hfree] at hk
  exact hk.2.2.2

theorem Inv.passed_owner (h : Inv s σ k) (hk : k m = .passed t) : s.owner m ≠ some t := by
  have hm := h.token m
  rw [hk] at hm
  obtain ⟨r, hr, howner⟩ := hm.2.1
  rw [howner]
  exact fun he => hr (Option.some.inj he)

/-- The owner of a mutex, when it runs, holds it or has just handed it on. -/
theorem Inv.owner_token (h : Inv s σ k) (hctx : s.ctx t = .run) (howner : s.owner m = some t) :
    k m = .held t ∨ ∃ u, k m = .passed u := by
  have hk := h.token m
  cases hm : k m with
  | free =>
    simp only [hm, TokenOk] at hk
    rw [hk.2.1] at howner
    cases howner
  | held u =>
    simp only [hm, TokenOk] at hk
    obtain rfl : u = t := Option.some.inj (hk.2.1.symm.trans howner)
    exact Or.inl rfl
  | releasing u =>
    simp only [hm, TokenOk] at hk
    obtain rfl : u = t := Option.some.inj (hk.2.1.symm.trans howner)
    rw [hctx] at hk
    cases hk.2.2.2
  | passed u => exact Or.inr ⟨u, rfl⟩

theorem Inv.holder_held (h : Inv s σ k) (hmem : t ∈ s.holders m) : k m = .held t := by
  have hk := h.token m
  cases hm : k m with
  | held u =>
    simp only [hm, TokenOk] at hk
    rw [hk.2.2] at hmem
    rw [List.mem_singleton.mp hmem]
  | _ =>
    simp only [hm, TokenOk] at hk
    rw [hk.2.2.1] at hmem
    cases hmem

theorem Inv.holders_le (h : Inv s σ k) : (s.holders m).length ≤ 1 := by
  have hk := h.token m
  cases hm : k m with
  | held u =>
    simp only [hm, TokenOk] at hk
    rw [hk.2.2]
    exact Nat.le_refl _
  | _ =>
    simp only [hm, TokenOk] at hk
    rw [hk.2.2.1]
    exact Nat.zero_le _

theorem Inv.queued_thread (h : Inv s σ k) (hmem : u ∈ σ (.threadQueue c)) :
    (∀ m, s.ctx u ≠ .unlocking m) ∧ (s.ctx u = .yielding → s.curthread c = u) ∧
      (∀ m, s.ctx u = .waiting m → k m = .passed u) := by
  have hu := h.thread u
  refine ⟨fun m hctx => ?_, fun hctx => ?_, fun m hctx => ?_⟩
  · exact (h.unlocking_releasing hctx).2 ⟨_, hmem⟩
  · simp only [ThreadOk, hctx] at hu
    obtain ⟨c', hc', hmem'⟩ := hu
    obtain rfl := Queue.threadQueue.inj (h.rep.disjoint _ _ u hmem hmem')
    exact hc'
  · simp only [ThreadOk, hctx] at hu
    refine hu.2.resolve_left fun hw => ?_
    cases h.rep.disjoint _ _ u hmem hw

/-- A queued thread runs on no CPU, unless it is in the window of `lock` or about to
switch away itself. -/
theorem Inv.queued_off (h : Inv s σ k) (hmem : u ∈ σ (.threadQueue c))
    (hwin : ∀ m, s.ctx u ≠ .blocking m) (hne : s.curthread c ≠ u) (c' : C) :
    s.curthread c' ≠ u := by
  rintro rfl
  have hq := h.queued_thread hmem
  have hu := h.thread (s.curthread c')
  cases hctx : s.ctx (s.curthread c') with
  | run => exact h.run_off hctx ⟨_, hmem⟩
  | blocking m => exact hwin m hctx
  | waiting m => exact (h.waiting_passed hctx).2 ⟨_, hmem⟩
  | unlocking m => exact hq.1 m hctx
  | yielding => exact hne (hq.2.1 hctx)

/-! One step at a time. -/

section Push

variable [DecidableEq C] [DecidableEq M] {q q' : Queue C M}

theorem mem_push (hu : u ≠ t) : u ∈ Function.update σ q (σ q ++ [t]) q' ↔ u ∈ σ q' := by
  by_cases hq : q' = q
  · rw [hq, Function.update_self]
    simp [hu]
  · rw [Function.update_of_ne hq]

theorem mem_pop {rest : List T} (hq : σ q = t :: rest) (hu : u ≠ t) (r : Queue C M) :
    u ∈ Function.update σ q rest r ↔ u ∈ σ r := by
  by_cases hr : r = q
  · rw [hr, Function.update_self, hq]
    simp [hu]
  · rw [Function.update_of_ne hr]

theorem mem_popPush {rest : List T} (hq : σ q = t :: rest) (hu : u ≠ t)
    (r : Queue C M) :
    u ∈ Function.update (Function.update σ q rest) q' (σ q' ++ [t]) r ↔ u ∈ σ r := by
  by_cases hr' : r = q'
  · rw [hr', Function.update_self]
    simp [hu]
  · rw [Function.update_of_ne hr']
    exact mem_pop hq hu r

end Push

theorem update_keep [DecidableEq M] {x y : Token T} (hne : k m ≠ y) {m' : M} (hk : k m' = y) :
    Function.update k m x m' = y := by
  rw [Function.update_of_ne (by rintro rfl; exact hne hk)]
  exact hk

/-- Nobody is handed the mutex by a change of its token. -/
theorem Inv.order_token [DecidableEq M] (h : Inv s σ k) {x : Token T}
    (hx : x.pending = (k m).pending) (m' : M) : s.called m' =
      s.acquired m' ++ (Function.update k m x m').pending ++ σ (.waitQueue m') := by
  by_cases hm : m' = m
  · subst hm
    rw [Function.update_self, hx]
    exact h.order m'
  · rw [Function.update_of_ne hm]
    exact h.order m'

variable [DecidableEq C] [DecidableEq T] [DecidableEq M]

theorem Inv.lock_free (h : Inv s σ k) (hctx : s.ctx (s.curthread c) = .run)
    (hfree : s.mutexState m = .free) (hs : s.lock c m = some s') :
    Inv s' σ (Function.update k m (.held (s.curthread c))) := by
  have hk := h.free_iff.mp hfree
  have hempty := h.free_queue hfree
  simp only [Sys.lock, hctx, hfree] at hs
  obtain rfl := Option.some.inj hs
  refine ⟨h.rep, h.inj, fun u => ?_, h.wait, fun m' => ?_, fun m' => ?_⟩
  · exact (h.thread u).congr rfl (fun _ => Iff.rfl) (fun _ => Iff.rfl)
      (fun _ => update_keep (by simp [hk])) fun _ => update_keep (by simp [hk])
  · by_cases hm : m' = m
    · subst hm
      have htok := h.token m'
      rw [hk] at htok
      simp [TokenOk, htok.2.2.1]
    · rw [Function.update_of_ne hm]
      exact (h.token m').congr (Function.update_of_ne hm _ _) (Function.update_of_ne hm _ _)
        (Function.update_of_ne hm _ _) (fun _ => rfl) (fun _ => id) fun _ hw hr => ⟨hw, hr⟩
  · by_cases hm : m' = m
    · subst hm
      have ho := h.order m'
      rw [hk, hempty] at ho
      simp [Token.pending, hempty, ho]
    · simp only [Function.update_of_ne hm]
      exact h.order m'

theorem Inv.lock_locked (h : Inv s σ k) (hctx : s.ctx (s.curthread c) = .run)
    (hlocked : s.mutexState m = .locked) (hs : s.lock c m = some s') :
    Inv s' (Function.update σ (.waitQueue m) (σ (.waitQueue m) ++ [s.curthread c])) k := by
  have hoff := h.run_off hctx
  obtain ⟨queues, hpush, hrep⟩ := h.rep.pushBack (.waitQueue m) fun q hq => hoff ⟨q, hq⟩
  simp only [Sys.lock, hctx, hlocked, hpush] at hs
  obtain rfl := Option.some.inj hs
  refine ⟨hrep, h.inj, fun u => ?_, fun m' u hu => ?_, fun m' => ?_, fun m' => ?_⟩
  · by_cases hut : u = s.curthread c
    · subst hut
      simp only [ThreadOk, Function.update_self]
      refine ⟨⟨c, rfl, ?_⟩, Or.inl ?_⟩
      · rw [Function.update_of_ne (by simp)]
        exact fun hq => hoff ⟨_, hq⟩
      · exact List.mem_append_right _ List.mem_cons_self
    · exact (h.thread u).congr (Function.update_of_ne hut _ _) (fun _ => Iff.rfl)
        (fun _ => mem_push hut) (fun _ => id) fun _ => id
  · by_cases hut : u = s.curthread c
    · subst hut
      have hm : m' = m := by
        by_contra hne
        rw [Function.update_of_ne (by simpa using hne)] at hu
        exact hoff ⟨_, hu⟩
      subst hm
      simp [Sys.Waits]
    · simp only [Sys.Waits, Function.update_of_ne hut]
      exact h.wait m' u ((mem_push hut).mp hu)
  · refine (h.token m').congr_off rfl rfl rfl (fun hfree => ?_) (by simp [hctx])
      (not_waits_of_run hctx) fun u hut => ⟨Function.update_of_ne hut _ _,
        Function.update_of_ne hut _ _⟩
    have hm : m' ≠ m := by
      rintro rfl
      simp [hlocked] at hfree
    exact Function.update_of_ne (by simpa using hm) _ _
  · have ho := h.order m'
    by_cases hm : m' = m
    · subst hm
      simp only [Function.update_self, ho, List.append_assoc]
    · simpa only [Function.update_of_ne hm,
        Function.update_of_ne (show Queue.waitQueue m' ≠ Queue.waitQueue (C := C) m by simpa using hm)]
        using ho

omit [DecidableEq C] in
theorem Inv.wake (h : Inv s σ k) (hctx : s.ctx (s.curthread c) = .waiting m)
    (hs : s.wake c = some s') : Inv s' σ (Function.update k m (.held (s.curthread c))) := by
  obtain ⟨hk, hoff⟩ := h.waiting_passed hctx
  have hnot : s.doIHold c m = false := by simpa [Sys.doIHold] using h.passed_owner hk
  simp only [Sys.wake, hctx, hnot] at hs
  obtain rfl := Option.some.inj hs
  have htok := h.token m
  rw [hk] at htok
  obtain ⟨hlocked, -, hnone, -, -⟩ := htok
  refine ⟨h.rep, h.inj, fun u => ?_, fun m' u hu => ?_, fun m' => ?_, fun m' => ?_⟩
  · by_cases hut : u = s.curthread c
    · subst hut
      simp only [ThreadOk, Function.update_self]
      exact fun _ _ => hoff
    · exact (h.thread u).congr (Function.update_of_ne hut _ _) (fun _ => Iff.rfl)
        (fun _ => Iff.rfl) (fun _ => update_keep (by simpa [hk] using Ne.symm hut))
        fun _ => update_keep (by simp [hk])
  · exact h.wait_off hoff (fun u hut => ⟨Function.update_of_ne hut _ _, rfl⟩) hu
  · by_cases hm : m' = m
    · subst hm
      simp [TokenOk, hlocked, hnone]
    · rw [Function.update_of_ne hm]
      exact (h.token m').congr_off rfl (Function.update_of_ne hm _ _)
        (Function.update_of_ne hm _ _) (fun _ => rfl) (by simp [hctx])
        (by simpa [Sys.Waits, hctx] using Ne.symm hm)
        fun u hut => ⟨Function.update_of_ne hut _ _, rfl⟩
  · have ho := h.order m'
    by_cases hm : m' = m
    · subst hm
      simpa [Token.pending, hk] using ho
    · simpa only [Function.update_of_ne hm] using ho

omit [DecidableEq C] in
theorem Inv.unlock (h : Inv s σ k) (hctx : s.ctx (s.curthread c) = .run)
    (hk : k m = .held (s.curthread c)) (hs : s.unlock c m = some s') :
    Inv s' σ (Function.update k m (.releasing (s.curthread c))) := by
  have hoff := h.run_off hctx
  have htok := h.token m
  rw [hk] at htok
  obtain ⟨hlocked, howner, hholders⟩ := htok
  have hold : s.doIHold c m = true := by simp [Sys.doIHold, howner]
  simp only [Sys.unlock, hctx, hold, if_true] at hs
  obtain rfl := Option.some.inj hs
  refine ⟨h.rep, h.inj, fun u => ?_, fun m' u hu => ?_, fun m' => ?_, fun m' => ?_⟩
  · by_cases hut : u = s.curthread c
    · subst hut
      simp only [ThreadOk, Function.update_self (f := s.ctx)]
      exact ⟨⟨c, rfl⟩, Function.update_self _ _ _, hoff⟩
    · exact (h.thread u).congr (Function.update_of_ne hut _ _) (fun _ => Iff.rfl)
        (fun _ => Iff.rfl) (fun _ => update_keep (by simp [hk]))
        fun _ => update_keep (by simp [hk])
  · exact h.wait_off hoff (fun u hut => ⟨Function.update_of_ne hut _ _, rfl⟩) hu
  · by_cases hm : m' = m
    · subst hm
      simp [TokenOk, hlocked, howner, hholders]
    · rw [Function.update_of_ne hm]
      exact (h.token m').congr_off rfl rfl (Function.update_of_ne hm _ _) (fun _ => rfl)
        (by simp [hctx]) (not_waits_of_run hctx)
        fun u hut => ⟨Function.update_of_ne hut _ _, rfl⟩
  · exact h.order_token (by rw [hk]; rfl) m'

theorem Inv.yield (h : Inv s σ k) (hctx : s.ctx (s.curthread c) = .run)
    (hs : s.yield c = some s') :
    Inv s' (Function.update σ (.threadQueue c) (σ (.threadQueue c) ++ [s.curthread c])) k := by
  have hoff := h.run_off hctx
  obtain ⟨queues, hpush, hrep⟩ := h.rep.pushBack (.threadQueue c) fun q hq => hoff ⟨q, hq⟩
  simp only [Sys.yield, hctx, hpush] at hs
  obtain rfl := Option.some.inj hs
  have hwait : ∀ m, Function.update σ (.threadQueue c) (σ (.threadQueue c) ++ [s.curthread c])
      (.waitQueue m) = σ (.waitQueue m) := fun m => Function.update_of_ne (by simp) _ _
  have hothers : ∀ u, u ≠ s.curthread c → Function.update s.ctx (s.curthread c) .yielding u =
      s.ctx u ∧ Function.update s.threadState (s.curthread c) .ready u = s.threadState u :=
    fun u hut => ⟨Function.update_of_ne hut _ _, Function.update_of_ne hut _ _⟩
  refine ⟨hrep, h.inj, fun u => ?_, fun m' u hu => ?_, fun m' => ?_, fun m' => ?_⟩
  · by_cases hut : u = s.curthread c
    · subst hut
      simp only [ThreadOk, Function.update_self]
      exact ⟨c, rfl, by simp⟩
    · exact (h.thread u).congr (Function.update_of_ne hut _ _) (fun _ => Iff.rfl)
        (fun _ => mem_push hut) (fun _ => id) fun _ => id
  · rw [hwait] at hu
    exact h.wait_off hoff hothers hu
  · exact (h.token m').congr_off rfl rfl rfl (fun _ => hwait m') (by simp [hctx])
      (not_waits_of_run hctx) hothers
  · rw [hwait]
    exact h.order m'

theorem Inv.release_empty (h : Inv s σ k) (hctx : s.ctx (s.curthread c) = .unlocking m)
    (hempty : empty (s.queues.lists (.waitQueue m)) = true) (hs : s.release c = some s') :
    Inv s' σ (Function.update k m .free) := by
  obtain ⟨hk, hoff⟩ := h.unlocking_releasing hctx
  have hnil := (h.rep.lists (.waitQueue m)).empty_iff.mp hempty
  simp only [Sys.release, hctx, hempty, if_true] at hs
  obtain rfl := Option.some.inj hs
  have htok := h.token m
  rw [hk] at htok
  obtain ⟨-, -, hnone, -⟩ := htok
  refine ⟨h.rep, h.inj, fun u => ?_, fun m' u hu => ?_, fun m' => ?_, fun m' => ?_⟩
  · by_cases hut : u = s.curthread c
    · subst hut
      simp only [ThreadOk, Function.update_self]
      exact fun _ _ => hoff
    · exact (h.thread u).congr (Function.update_of_ne hut _ _) (fun _ => Iff.rfl)
        (fun _ => Iff.rfl) (fun _ => update_keep (by simp [hk]))
        fun _ => update_keep (by simpa [hk] using Ne.symm hut)
  · exact h.wait_off hoff (fun u hut => ⟨Function.update_of_ne hut _ _, rfl⟩) hu
  · by_cases hm : m' = m
    · subst hm
      simp [TokenOk, hnone, hnil]
    · rw [Function.update_of_ne hm]
      exact (h.token m').congr_off (Function.update_of_ne hm _ _) (Function.update_of_ne hm _ _)
        rfl (fun _ => rfl) (by simpa [hctx] using Ne.symm hm) (by simp [Sys.Waits, hctx])
        fun u hut => ⟨Function.update_of_ne hut _ _, rfl⟩
  · exact h.order_token (by rw [hk]; rfl) m'

/-- The first waiter is handed the mutex and put on this CPU's thread queue. -/
theorem Inv.release_pass (h : Inv s σ k) (hctx : s.ctx (s.curthread c) = .unlocking m)
    {n : T} {rest : List T} (hwq : σ (.waitQueue m) = n :: rest) (hs : s.release c = some s') :
    Inv s' (Function.update (Function.update σ (.waitQueue m) rest) (.threadQueue c)
      (σ (.threadQueue c) ++ [n])) (Function.update k m (.passed n)) := by
  obtain ⟨hk, hoff⟩ := h.unlocking_releasing hctx
  have hne : ¬ empty (s.queues.lists (.waitQueue m)) = true := by
    rw [(h.rep.lists (.waitQueue m)).empty_iff, hwq]
    exact List.cons_ne_nil _ _
  have hqq : (Queue.waitQueue m : Queue C M) ≠ .threadQueue c := by simp
  obtain ⟨p₁, p₂, hpop, hpush, hrep⟩ := h.rep.popPush hqq hwq
  simp only [Sys.release, hctx, if_neg hne, hpop, Option.bind_some, bind, hpush] at hs
  obtain rfl := Option.some.inj hs
  have hnmem : n ∈ σ (.waitQueue m) := hwq ▸ List.mem_cons_self
  obtain ⟨hnwait, hnblocked⟩ := h.wait m n hnmem
  have hnt : n ≠ s.curthread c := by
    rintro rfl
    exact hoff ⟨_, hnmem⟩
  have hmem : ∀ u, u ≠ n → ∀ q, u ∈ Function.update (Function.update σ (.waitQueue m) rest)
      (.threadQueue c) (σ (.threadQueue c) ++ [n]) q ↔ u ∈ σ q :=
    fun u hu q => mem_popPush hwq hu q
  have htok := h.token m
  rw [hk] at htok
  obtain ⟨hlocked, howner, hnone, -⟩ := htok
  refine ⟨hrep, h.inj, fun u => ?_, fun m' u hu => ?_, fun m' => ?_, fun m' => ?_⟩
  · by_cases hun : u = n
    · rw [hun]
      refine (h.thread n).pass hnwait ⟨_, hnmem⟩ (Ne.symm hnt) (Function.update_of_ne hnt _ _) rfl
        (Function.update_self _ _ _) fun c' hc' => ?_
      rw [Function.update_of_ne (by simpa using hc'), Function.update_of_ne (by simp)]
    · by_cases hut : u = s.curthread c
      · subst hut
        simp only [ThreadOk, Function.update_self]
        rintro - - ⟨q, hq⟩
        exact hoff ⟨q, (hmem _ hun q).mp hq⟩
      · exact (h.thread u).congr (Function.update_of_ne hut _ _) (fun _ => Iff.rfl)
          (hmem u hun) (fun _ => update_keep (by simp [hk]))
          fun _ => update_keep (by simpa [hk] using Ne.symm hut)
  · have hun : u ≠ n := by
      rintro rfl
      have he := hrep.disjoint _ (.threadQueue c) u hu (by simp)
      cases he
    have hold := (hmem u hun _).mp hu
    have hut : u ≠ s.curthread c := by
      rintro rfl
      exact hoff ⟨_, hold⟩
    simp only [Sys.Waits, Function.update_of_ne hut, Function.update_of_ne hun]
    exact h.wait m' u hold
  · by_cases hm : m' = m
    · subst hm
      simp only [Function.update_self, TokenOk, Sys.Waits, Function.update_of_ne hnt]
      exact ⟨hlocked, ⟨_, Ne.symm hnt, howner⟩, hnone, hnwait, trivial⟩
    · rw [Function.update_of_ne hm]
      refine (h.token m').congr rfl rfl rfl (fun _ => ?_) (fun u hu => ?_) fun u hu hr => ?_
      · rw [Function.update_of_ne (by simp), Function.update_of_ne (by simpa using hm)]
      · have hut : u ≠ s.curthread c := by
          rintro rfl
          rw [hctx] at hu
          exact hm (Ctx.unlocking.inj hu).symm
        exact (Function.update_of_ne hut _ _).trans hu
      · have hut : u ≠ s.curthread c := by
          rintro rfl
          simp [Sys.Waits, hctx] at hu
        have hun : u ≠ n := by
          rintro rfl
          rw [hnblocked] at hr
          cases hr
        simp only [Sys.Waits, Function.update_of_ne hut, Function.update_of_ne hun]
        exact ⟨hu, hr⟩
  · have ho := h.order m'
    rw [Function.update_of_ne (show Queue.waitQueue m' ≠ Queue.threadQueue c by simp)]
    by_cases hm : m' = m
    · subst hm
      rw [hk, hwq] at ho
      simpa [Token.pending] using ho
    · rw [Function.update_of_ne hm, Function.update_of_ne (by simpa using hm)]
      exact ho

/-- The context a thread has when it is switched to again. -/
def Resumes (s : Sys C T M) (t : T) (resume : Ctx M) : Prop :=
  (∃ m, s.ctx t = .blocking m ∧ resume = .waiting m) ∨ (s.ctx t = .yielding ∧ resume = .run)

omit [DecidableEq C] [DecidableEq T] [DecidableEq M] in
theorem Resumes.not_unlocking {t : T} {resume : Ctx M} (h : Resumes s t resume) (m : M) :
    s.ctx t ≠ .unlocking m := by
  rcases h with ⟨m', hm', -⟩ | ⟨hy, -⟩
  · simp [hm']
  · simp [hy]

omit [DecidableEq C] [DecidableEq M] in
/-- A thread in `lock` stays there. -/
theorem Resumes.waits {t u : T} {resume : Ctx M} (h : Resumes s t resume) (hu : s.Waits m u) :
    Function.update s.ctx t resume u = .blocking m ∨
      Function.update s.ctx t resume u = .waiting m := by
  by_cases hut : u = t
  · subst hut
    rw [Function.update_self]
    rcases h with ⟨m', hm', hresume⟩ | ⟨hy, -⟩
    · simp only [Sys.Waits, hm', Ctx.blocking.injEq, reduceCtorEq, or_false] at hu
      exact Or.inr (hu ▸ hresume)
    · simp [Sys.Waits, hy] at hu
  · rw [Function.update_of_ne hut]
    exact hu

omit [DecidableEq M] in
/-- The thread switched to runs on no other CPU. -/
theorem Inv.switch_inj (h : Inv s σ k) {n : T} (hn : n ∈ σ (.threadQueue c))
    (hwin : ∀ m, s.ctx n ≠ .blocking m) : (Function.update s.curthread c n).Injective := by
  have hnelse : ∀ c', c' ≠ c → s.curthread c' ≠ n := by
    intro c' hc'
    by_cases hcn : s.curthread c = n
    · rw [← hcn]
      exact h.inj.ne hc'
    · exact h.queued_off hn hwin hcn c'
  intro c₁ c₂ he
  by_cases h₁ : c₁ = c <;> by_cases h₂ : c₂ = c
  · rw [h₁, h₂]
  · subst h₁
    simp only [Function.update_self, Function.update_of_ne h₂] at he
    exact absurd he.symm (hnelse c₂ h₂)
  · subst h₂
    simp only [Function.update_self, Function.update_of_ne h₁] at he
    exact absurd he (hnelse c₁ h₁)
  · simp only [Function.update_of_ne h₁, Function.update_of_ne h₂] at he
    exact h.inj he

theorem Inv.scheduleNextThread (h : Inv s σ k) {resume : Ctx M}
    (hres : Resumes s (s.curthread c) resume) {n : T} {rest : List T}
    (hq : σ (.threadQueue c) = n :: rest) (hwin : ∀ m, s.ctx n ≠ .blocking m)
    (hs : s.scheduleNextThread c resume = some s') :
    Inv s' (Function.update σ (.threadQueue c) rest) k := by
  obtain ⟨queues, hpop, hrep, hnew⟩ := h.rep.popFront_cons hq
  simp only [Sys.scheduleNextThread, hpop, Option.bind_some, bind] at hs
  obtain rfl := Option.some.inj hs
  have hnmem : n ∈ σ (.threadQueue c) := hq ▸ List.mem_cons_self
  have hnoff : ¬ OnSome (Function.update σ (.threadQueue c) rest) n := fun ⟨q, hq⟩ => hnew q hq
  have hwq : ∀ m, Function.update σ (.threadQueue c) rest (.waitQueue m) = σ (.waitQueue m) :=
    fun m => Function.update_of_ne (by simp) _ _
  refine ⟨hrep, h.switch_inj hnmem hwin, fun u => ?_, fun m u hu => ?_, fun m => ?_, fun m => ?_⟩
  · by_cases hun : u = n
    · subst hun
      by_cases hold : u = s.curthread c
      · -- the only thread of the queue is the one that yields
        rcases hres with ⟨m, hm, -⟩ | ⟨-, rfl⟩
        · exact absurd (hold ▸ hm) (hwin m)
        · simp only [ThreadOk, hold, Function.update_self]
          exact fun _ _ => hold ▸ hnoff
      · have hqu := h.queued_thread hnmem
        simp only [ThreadOk, Function.update_of_ne hold]
        cases hctx : s.ctx u with
        | run => exact fun _ _ => hnoff
        | blocking m => exact absurd hctx (hwin m)
        | waiting m => exact ⟨fun _ _ => hnoff, Or.inr (hqu.2.2 m hctx)⟩
        | unlocking m => exact absurd hctx (hqu.1 m)
        | yielding => exact absurd (hqu.2.1 hctx).symm hold
    · have hmem := mem_pop hq hun
      by_cases hut : u = s.curthread c
      · have hoff : ∀ c', Function.update s.curthread c n c' ≠ u := by
          intro c'
          by_cases hc' : c' = c
          · rw [hc', Function.update_self]
            exact Ne.symm hun
          · rw [Function.update_of_ne hc', hut]
            exact h.inj.ne hc'
        rcases hres with ⟨m, hm, rfl⟩ | ⟨-, rfl⟩
        · simp only [ThreadOk, hut, Function.update_self, hwq]
          exact ⟨fun c' hc' => absurd (hc'.trans hut.symm) (hoff c'), (h.blocking_queues hm).2⟩
        · simp only [ThreadOk, hut, Function.update_self]
          exact fun c' hc' => absurd (hc'.trans hut.symm) (hoff c')
      · refine (h.thread u).congr (Function.update_of_ne hut _ _) (fun c' => ?_) hmem
          (fun _ => id) fun _ => id
        by_cases hc' : c' = c
        · subst hc'
          simp [Ne.symm hun, Ne.symm hut]
        · simp only [Function.update_of_ne hc']
  · rw [hwq] at hu
    obtain ⟨hw, hblocked⟩ := h.wait m u hu
    exact ⟨hres.waits hw, hblocked⟩
  · refine (h.token m).congr rfl rfl rfl (fun _ => hwq m) (fun u hu => ?_)
      fun u hu hr => ⟨hres.waits hu, hr⟩
    have hut : u ≠ s.curthread c := by
      rintro rfl
      exact hres.not_unlocking m hu
    exact (Function.update_of_ne hut _ _).trans hu
  · rw [hwq]
    exact h.order m

/-! The conditions on a step, and what all steps together keep. -/

/-- A mutex is unlocked by the thread that holds it. -/
def HolderUnlocks (s : Sys C T M) : C × Act M → Prop
  | (c, .unlock m) => s.curthread c ∈ s.holders m
  | _ => True

/-- A switch never goes to a thread that is still on its way out of another CPU. -/
def SwitchSafe (s : Sys C T M) : C × Act M → Prop
  | (c, .switch) => ∀ t, first (s.queues.lists (.threadQueue c)) = some t →
      ∀ m, s.ctx t ≠ .blocking m
  | _ => True

/-- Some thread was made ready by `unlock`, and has yet to return from `lock`. -/
def Sys.HandedOff (s : Sys C T M) (m : M) : Prop := ∃ t, s.Waits m t ∧ s.threadState t = .ready

/-- A mutex is not unlocked while it is handed on. -/
def NoStaleUnlock (s : Sys C T M) : C × Act M → Prop
  | (_, .unlock m) => ¬ s.HandedOff m
  | _ => True

def Consistent (s : Sys C T M) : Prop := ∃ σ k, Inv s σ k

theorem lock_run (hs : s.lock c m = some s') : s.ctx (s.curthread c) = .run := by
  unfold Sys.lock at hs
  cases hctx : s.ctx (s.curthread c) <;> simp [hctx] at hs ⊢

omit [DecidableEq C] in
theorem wake_waiting (hs : s.wake c = some s') : ∃ m, s.ctx (s.curthread c) = .waiting m := by
  unfold Sys.wake at hs
  cases hctx : s.ctx (s.curthread c) <;> simp [hctx] at hs ⊢

omit [DecidableEq C] in
theorem unlock_owner (hs : s.unlock c m = some s') :
    s.ctx (s.curthread c) = .run ∧ s.owner m = some (s.curthread c) := by
  unfold Sys.unlock at hs
  cases hctx : s.ctx (s.curthread c) <;> simp [hctx, Sys.doIHold] at hs ⊢
  exact hs.1

theorem release_unlocking (hs : s.release c = some s') :
    ∃ m, s.ctx (s.curthread c) = .unlocking m := by
  unfold Sys.release at hs
  cases hctx : s.ctx (s.curthread c) <;> simp [hctx] at hs ⊢

theorem yield_run (hs : s.yield c = some s') : s.ctx (s.curthread c) = .run := by
  unfold Sys.yield at hs
  cases hctx : s.ctx (s.curthread c) <;> simp [hctx] at hs ⊢

theorem switch_resumes (hs : s.switch c = some s') :
    ∃ resume, Resumes s (s.curthread c) resume ∧ s.scheduleNextThread c resume = some s' := by
  unfold Sys.switch at hs
  cases hctx : s.ctx (s.curthread c) with
  | blocking m => exact ⟨_, Or.inl ⟨m, hctx, rfl⟩, by simpa [hctx] using hs⟩
  | yielding => exact ⟨_, Or.inr ⟨hctx, rfl⟩, by simpa [hctx] using hs⟩
  | _ => simp [hctx] at hs

/-- A switch goes to the head of the thread queue. -/
theorem Inv.switch_head (h : Inv s σ k) {resume : Ctx M}
    (hs : s.scheduleNextThread c resume = some s') :
    ∃ n rest, σ (.threadQueue c) = n :: rest ∧
      first (s.queues.lists (.threadQueue c)) = some n ∧
      s'.curthread = Function.update s.curthread c n := by
  obtain ⟨queues, hpop, -⟩ := h.rep.popFront (.threadQueue c)
  have hfirst := (h.rep.lists (.threadQueue c)).first_eq
  cases hq : σ (.threadQueue c) with
  | nil => simp [Sys.scheduleNextThread, hpop, hq] at hs
  | cons n rest =>
    simp only [Sys.scheduleNextThread, hpop, hq, List.head?_cons, Option.bind_some, bind] at hs
    obtain rfl := Option.some.inj hs
    exact ⟨n, rest, rfl, by rw [hfirst, hq, List.head?_cons], rfl⟩

theorem Inv.step (h : Inv s σ k) {a : C × Act M} (hunl : HolderUnlocks s a)
    (hsafe : SwitchSafe s a) (hs : s.step a = some s') : Consistent s' := by
  obtain ⟨c, a⟩ := a
  cases a with
  | lock m =>
    have hctx := lock_run hs
    cases hm : s.mutexState m with
    | free => exact ⟨_, _, h.lock_free hctx hm hs⟩
    | locked => exact ⟨_, _, h.lock_locked hctx hm hs⟩
  | switch =>
    obtain ⟨resume, hres, hsched⟩ := switch_resumes hs
    obtain ⟨n, rest, hq, hfirst, -⟩ := h.switch_head hsched
    exact ⟨_, _, h.scheduleNextThread hres hq (hsafe n hfirst) hsched⟩
  | wake =>
    obtain ⟨m, hctx⟩ := wake_waiting hs
    exact ⟨_, _, h.wake hctx hs⟩
  | unlock m => exact ⟨_, _, h.unlock (unlock_owner hs).1 (h.holder_held hunl) hs⟩
  | release =>
    obtain ⟨m, hctx⟩ := release_unlocking hs
    cases hq : σ (.waitQueue m) with
    | nil => exact ⟨_, _, h.release_empty hctx ((h.rep.lists _).empty_iff.mpr hq) hs⟩
    | cons n rest => exact ⟨_, _, h.release_pass hctx hq hs⟩
  | yield => exact ⟨_, _, h.yield (yield_run hs) hs⟩

theorem preserves_consistent : Preserves (Sys.step (C := C) (T := T) (M := M)) Consistent
    fun s a => HolderUnlocks s a ∧ SwitchSafe s a := by
  rintro s a s' ⟨σ, k, h⟩ ⟨hunl, hsafe⟩ hs
  exact h.step hunl hsafe hs

/-- The next step of the thread that runs on a CPU. `unlock` asserts that its caller owns
the mutex, a switch that a thread is ready. -/
def Sys.Enabled (s : Sys C T M) : C × Act M → Prop
  | (c, .lock _) => s.ctx (s.curthread c) = .run
  | (c, .switch) => (∃ resume, Resumes s (s.curthread c) resume) ∧
      empty (s.queues.lists (.threadQueue c)) = false
  | (c, .wake) => ∃ m, s.ctx (s.curthread c) = .waiting m
  | (c, .unlock m) => s.ctx (s.curthread c) = .run ∧ s.doIHold c m = true
  | (c, .release) => ∃ m, s.ctx (s.curthread c) = .unlocking m
  | (c, .yield) => s.ctx (s.curthread c) = .run

theorem Inv.exists_switch (h : Inv s σ k) {resume : Ctx M}
    (hres : Resumes s (s.curthread c) resume)
    (hready : empty (s.queues.lists (.threadQueue c)) = false) : ∃ s', s.switch c = some s' := by
  have hsched : ∃ s', s.scheduleNextThread c resume = some s' := by
    cases hq : σ (.threadQueue c) with
    | nil =>
      rw [(h.rep.lists _).empty_iff.mpr hq] at hready
      cases hready
    | cons n rest =>
      obtain ⟨queues, hpop, -⟩ := h.rep.popFront_cons hq
      exact ⟨_, by simp [Sys.scheduleNextThread, hpop]; rfl⟩
  obtain ⟨s', hs⟩ := hsched
  refine ⟨s', ?_⟩
  rcases hres with ⟨m, hm, rfl⟩ | ⟨hy, rfl⟩
  · simp only [Sys.switch, hm, hs]
  · simp only [Sys.switch, hy, hs]

/-- In a consistent state no list operation fails and the assertion after a wake-up holds. -/
theorem Consistent.step_of_enabled (h : Consistent s) {a : C × Act M} (ha : s.Enabled a) :
    ∃ s', s.step a = some s' := by
  obtain ⟨σ, k, h⟩ := h
  obtain ⟨c, a⟩ := a
  cases a with
  | lock m =>
    simp only [Sys.Enabled] at ha
    obtain ⟨queues, hpush, -⟩ :=
      h.rep.pushBack (.waitQueue m) fun q hq => h.run_off ha ⟨q, hq⟩
    cases hm : s.mutexState m with
    | free => exact ⟨_, by simp only [Sys.step, Sys.lock, ha, hm]; rfl⟩
    | locked => exact ⟨_, by simp only [Sys.step, Sys.lock, ha, hm, hpush]; rfl⟩
  | switch =>
    obtain ⟨⟨resume, hres⟩, hready⟩ := ha
    exact h.exists_switch hres hready
  | wake =>
    obtain ⟨m, hctx⟩ := ha
    have hnot : s.doIHold c m = false := by
      simpa [Sys.doIHold] using h.passed_owner (h.waiting_passed hctx).1
    exact ⟨_, by simp only [Sys.step, Sys.wake, hctx, hnot]; rfl⟩
  | unlock m => exact ⟨_, by simp only [Sys.step, Sys.unlock, ha.1, ha.2]; rfl⟩
  | release =>
    obtain ⟨m, hctx⟩ := ha
    by_cases hempty : empty (s.queues.lists (.waitQueue m)) = true
    · exact ⟨_, by simp only [Sys.step, Sys.release, hctx, if_pos hempty]; rfl⟩
    · cases hq : σ (.waitQueue m) with
      | nil => exact absurd ((h.rep.lists _).empty_iff.mpr hq) hempty
      | cons n rest =>
        obtain ⟨p₁, p₂, hpop, hpush, -⟩ := h.rep.popPush (j := .threadQueue c) (by simp) hq
        exact ⟨_, by simp [Sys.step, Sys.release, hctx, hempty, hpop, hpush]; rfl⟩
  | yield =>
    simp only [Sys.Enabled] at ha
    obtain ⟨queues, hpush, -⟩ :=
      h.rep.pushBack (.threadQueue c) fun q hq => h.run_off ha ⟨q, hq⟩
    exact ⟨_, by simp only [Sys.step, Sys.yield, ha, hpush]; rfl⟩

end CxKernel.Mutex
