import CxKernel.Proofs.MutexRuns
import Mathlib.Data.Fintype.EquivFin
import Mathlib.Logic.Relation

/-! When `schedule_next_thread` finds no thread. On one CPU its assertion fails only if threads wait
for each other in a circle, and so never if the mutexes are taken in an order. -/

namespace CxKernel.Mutex

open LinkedList Runs Relation

variable {C T M : Type}

/-- Where everything in `W` has a successor there, something is before itself. -/
theorem exists_circle [Finite T] {r : T → T → Prop} {W : T → Prop} {t : T} (ht : W t)
    (hnext : ∀ t, W t → ∃ u, r t u ∧ W u) : ∃ u, TransGen r u u := by
  by_contra hnone
  have hirrefl : ∀ u : { u // W u }, ¬ TransGen r u u := fun u hu => hnone ⟨u, hu⟩
  let after : { u // W u } → { u // W u } → Prop := fun u v => TransGen r v u
  have : IsTrans { u // W u } after := ⟨fun _ _ _ h h' => h'.trans h⟩
  have : Std.Irrefl after := ⟨hirrefl⟩
  have hwf : WellFounded after := Finite.wellFounded_of_trans_of_irrefl after
  obtain ⟨u, -, hmin⟩ := hwf.has_min Set.univ ⟨⟨t, ht⟩, trivial⟩
  obtain ⟨v, huv, hv⟩ := hnext u u.2
  exact hmin ⟨v, hv⟩ trivial (.single huv)

/-! Nobody gets lost: who holds a mutex runs or is on a queue, and who has been handed one is
ready. -/

/-- The thread runs or is on a queue. -/
def Live (s : Sys C T M) (σ : Queue C M → List T) (t : T) : Prop :=
  (∃ c, s.curthread c = t) ∨ OnSome σ t

structure Placed (s : Sys C T M) (σ : Queue C M → List T) (k : M → Token T) : Prop where
  held : ∀ m t, k m = .held t → Live s σ t
  passed : ∀ m t, k m = .passed t →
    (∃ c, t ∈ σ (.threadQueue c)) ∨ (s.ctx t = .waiting m ∧ ∃ c, s.curthread c = t)

variable {s s' : Sys C T M} {σ σ' : Queue C M → List T} {k k' : M → Token T} {t u : T} {m m' : M}
  {c : C}

/-- Such a state, with every thread still there. -/
structure Keeps (s : Sys C T M) (σ : Queue C M → List T) (s' : Sys C T M)
    (σ' : Queue C M → List T) (k' : M → Token T) : Prop where
  placed : Placed s' σ' k'
  live : ∀ t, Live s σ t → Live s' σ' t

/-- A step of a thread that goes on running. -/
theorem Placed.frame (h : Placed s σ k) (hcur : s'.curthread = s.curthread)
    (hctx : ∀ u, u ≠ s.curthread c → s'.ctx u = s.ctx u) (hon : ∀ t, OnSome σ t → OnSome σ' t)
    (hready : ∀ c t, t ∈ σ (.threadQueue c) → ∃ c', t ∈ σ' (.threadQueue c'))
    (hheld : ∀ m t, k' m = .held t → k m = .held t ∨ t = s.curthread c)
    (hpassed : ∀ m t, k' m = .passed t → (∃ c, t ∈ σ' (.threadQueue c)) ∨
      (k m = .passed t ∧ s.ctx (s.curthread c) ≠ .waiting m)) : Keeps s σ s' σ' k' := by
  have hlive : ∀ t, Live s σ t → Live s' σ' t := fun t ht => by
    rw [Live, hcur]
    exact ht.imp_right (hon t)
  refine ⟨⟨fun m t hk => hlive t ?_, fun m t hk => ?_⟩, hlive⟩
  · rcases hheld m t hk with hk | rfl
    · exact h.held m t hk
    · exact Or.inl ⟨c, rfl⟩
  · rcases hpassed m t hk with hq | ⟨hk, hne⟩
    · exact Or.inl hq
    · rcases h.passed m t hk with ⟨c', hq⟩ | ⟨hw, hc⟩
      · exact Or.inl (hready c' t hq)
      · have ht : t ≠ s.curthread c := by
          rintro rfl
          exact hne hw
        rw [hcur, hctx t ht]
        exact Or.inr ⟨hw, hc⟩

variable [DecidableEq C] [DecidableEq T] [DecidableEq M]

/-- The mutex that a thread has called `lock` on, while it waits for it. -/
def Ctx.wanted : Ctx M → List M
  | .blocking m => [m]
  | .waiting m => [m]
  | _ => []

omit [DecidableEq C] [DecidableEq T] [DecidableEq M] in
theorem waits_iff : s.Waits m t ↔ m ∈ (s.ctx t).wanted := by
  cases hctx : s.ctx t <;> simp [Sys.Waits, Ctx.wanted, hctx, eq_comm]

/-- What a step of `t` does to who holds which mutex and who waits for which. -/
inductive Effect (s : Sys C T M) (t : T) (s' : Sys C T M) : Act M → Prop where
  | take {m : M} (hctx : s.ctx t = .run)
      (holders : s'.holders = Function.update s.holders m (s.holders m ++ [t]))
      (ctx : s'.ctx = s.ctx) : Effect s t s' (.lock m)
  | block {m : M} (hctx : s.ctx t = .run) (holders : s'.holders = s.holders)
      (ctx : s'.ctx = Function.update s.ctx t (.blocking m)) : Effect s t s' (.lock m)
  | wake {m : M} (hctx : s.ctx t = .waiting m)
      (holders : s'.holders = Function.update s.holders m (s.holders m ++ [t]))
      (ctx : s'.ctx = Function.update s.ctx t .run) : Effect s t s' .wake
  | unlock {m : M} (hctx : s.ctx t = .run)
      (holders : s'.holders = Function.update s.holders m ((s.holders m).erase t))
      (ctx : s'.ctx = Function.update s.ctx t (.unlocking m)) : Effect s t s' (.unlock m)
  | quiet {a : Act M} {x : Ctx M} (ha : a = .switch ∨ a = .release ∨ a = .yield)
      (holders : s'.holders = s.holders) (ctx : s'.ctx = Function.update s.ctx t x)
      (hwanted : x.wanted = (s.ctx t).wanted) : Effect s t s' a

theorem step_effect {a : Act M} (hs : s.step (c, a) = some s') :
    (a ≠ .switch → s'.curthread = s.curthread) ∧ Effect s (s.curthread c) s' a := by
  cases a with
  | lock m =>
    have hctx := lock_run hs
    simp only [Sys.step, Sys.lock, hctx] at hs
    split at hs
    · cases hs
      exact ⟨fun _ => rfl, .take hctx rfl rfl⟩
    · simp only [Option.bind_eq_bind, Option.bind_eq_some_iff] at hs
      obtain ⟨queues, -, hs⟩ := hs
      cases hs
      exact ⟨fun _ => rfl, .block hctx rfl rfl⟩
  | switch =>
    obtain ⟨resume, hres, hsched⟩ := switch_resumes hs
    simp only [Sys.scheduleNextThread, Option.bind_eq_bind, Option.bind_eq_some_iff] at hsched
    obtain ⟨⟨n, queues⟩, -, t, -, hs⟩ := hsched
    cases hs
    refine ⟨fun hne => absurd rfl hne, .quiet (by simp) rfl rfl ?_⟩
    rcases hres with ⟨m, hctx, rfl⟩ | ⟨hctx, rfl⟩ <;> rw [hctx] <;> rfl
  | wake =>
    obtain ⟨m, hctx⟩ := wake_waiting hs
    simp only [Sys.step, Sys.wake, hctx] at hs
    split at hs
    · cases hs
    · cases hs
      exact ⟨fun _ => rfl, .wake hctx rfl rfl⟩
  | unlock m =>
    have hctx := (unlock_owner hs).1
    simp only [Sys.step, Sys.unlock, hctx] at hs
    split at hs
    · cases hs
      exact ⟨fun _ => rfl, .unlock hctx rfl rfl⟩
    · cases hs
  | release =>
    obtain ⟨m, hctx⟩ := release_unlocking hs
    have hwanted : (Ctx.run : Ctx M).wanted = (s.ctx (s.curthread c)).wanted := by
      rw [hctx]
      rfl
    simp only [Sys.step, Sys.release, hctx] at hs
    split at hs
    · cases hs
      exact ⟨fun _ => rfl, .quiet (by simp) rfl rfl hwanted⟩
    · simp only [Option.bind_eq_bind, Option.bind_eq_some_iff] at hs
      obtain ⟨⟨n, queues⟩, -, t, -, queues', -, hs⟩ := hs
      cases hs
      exact ⟨fun _ => rfl, .quiet (by simp) rfl rfl hwanted⟩
  | yield =>
    have hctx := yield_run hs
    have hwanted : (Ctx.yielding : Ctx M).wanted = (s.ctx (s.curthread c)).wanted := by
      rw [hctx]
      rfl
    simp only [Sys.step, Sys.yield, hctx, Option.bind_eq_bind, Option.bind_eq_some_iff] at hs
    obtain ⟨queues, -, hs⟩ := hs
    cases hs
    exact ⟨fun _ => rfl, .quiet (by simp) rfl rfl hwanted⟩

omit [DecidableEq C] in
theorem Effect.others {a : Act M} (h : Effect s t s' a) (hu : u ≠ t) : s'.ctx u = s.ctx u := by
  cases h with
  | take _ _ hctx => rw [hctx]
  | block _ _ hctx | wake _ _ hctx | unlock _ _ hctx | quiet _ _ hctx =>
    rw [hctx, Function.update_of_ne hu]

/-- What a step of the thread that runs on `c` does to threads and holders. -/
structure StepFrame (s : Sys C T M) (c : C) (a : Act M) (s' : Sys C T M) : Prop where
  others : ∀ u, u ≠ s.curthread c → s'.ctx u = s.ctx u
  stays : a ≠ .switch → s'.curthread = s.curthread
  holders : ∀ u m, u ∈ s'.holders m → u ∈ s.holders m ∨ u = s.curthread c ∧ s'.ctx u = .run
  waits : ∀ m, s'.Waits m (s.curthread c) → s.Waits m (s.curthread c) ∨ a = .lock m

omit [DecidableEq C] [DecidableEq T] in
theorem mem_holders_push (hu : u ∈ Function.update s.holders m (s.holders m ++ [t]) m') :
    u ∈ s.holders m' ∨ u = t := by
  by_cases hm : m' = m
  · rw [hm, Function.update_self, List.mem_append, List.mem_singleton] at hu
    rw [hm]
    exact hu
  · rw [Function.update_of_ne hm] at hu
    exact Or.inl hu

theorem stepFrame {a : Act M} (hs : s.step (c, a) = some s') : StepFrame s c a s' := by
  obtain ⟨hstays, heffect⟩ := step_effect hs
  refine ⟨fun _ => heffect.others, hstays, fun u m' hu => ?_, fun m' hw => ?_⟩
  · cases heffect with
    | take hrun hholders hctx =>
      rw [hholders] at hu
      exact (mem_holders_push hu).imp_right fun he => ⟨he, by rw [hctx, he, hrun]⟩
    | wake _ hholders hctx =>
      rw [hholders] at hu
      exact (mem_holders_push hu).imp_right fun he => ⟨he, by rw [hctx, he, Function.update_self]⟩
    | @unlock m _ hholders =>
      rw [hholders] at hu
      by_cases hm : m' = m
      · rw [hm, Function.update_self] at hu
        exact Or.inl (hm ▸ List.mem_of_mem_erase hu)
      · rw [Function.update_of_ne hm] at hu
        exact Or.inl hu
    | block _ hholders | quiet _ hholders =>
      rw [hholders] at hu
      exact Or.inl hu
  · rw [waits_iff] at hw ⊢
    cases heffect with
    | take _ _ hctx =>
      rw [hctx] at hw
      exact Or.inl hw
    | block _ _ hctx =>
      rw [hctx, Function.update_self, Ctx.wanted, List.mem_singleton] at hw
      exact Or.inr (hw ▸ rfl)
    | wake _ _ hctx | unlock _ _ hctx =>
      rw [hctx, Function.update_self] at hw
      cases hw
    | quiet _ _ hctx hwanted =>
      rw [hctx, Function.update_self, hwanted] at hw
      exact Or.inl hw

omit [DecidableEq T] in
theorem mem_push_of_mem {q r : Queue C M} (h : t ∈ σ r) :
    t ∈ Function.update σ q (σ q ++ [u]) r := by
  by_cases hr : r = q
  · rw [hr, Function.update_self]
    exact List.mem_append_left _ (hr ▸ h)
  · rw [Function.update_of_ne hr]
    exact h

/-- A switch goes to the first thread that is ready, and leaves the old one on a queue. -/
theorem Placed.switch (h : Placed s σ k) (hinv : Inv s σ k) {resume : Ctx M}
    (hres : Resumes s (s.curthread c) resume) {n : T} {rest : List T}
    (hq : σ (.threadQueue c) = n :: rest) (hwin : ∀ m, s.ctx n ≠ .blocking m)
    (hcur : s'.curthread = Function.update s.curthread c n)
    (hctx : ∀ u, u ≠ s.curthread c → s'.ctx u = s.ctx u) :
    Keeps s σ s' (Function.update σ (.threadQueue c) rest) k := by
  have hnow : s'.curthread c = n := by rw [hcur, Function.update_self]
  have hmem : ∀ t, t ≠ n → ∀ q, t ∈ Function.update σ (.threadQueue c) rest q ↔ t ∈ σ q :=
    fun t ht => mem_pop hq ht
  have hnot : ∀ m, s.ctx (s.curthread c) ≠ .waiting m := by
    intro m hm
    rcases hres with ⟨m', hb, -⟩ | ⟨hy, -⟩
    · simp [hb] at hm
    · simp [hy] at hm
  -- the thread that ran is ready, or waits
  have hold : OnSome σ (s.curthread c) := by
    rcases hres with ⟨m, hb, -⟩ | ⟨hy, -⟩
    · rcases (hinv.blocking_queues hb).2 with hw | hp
      · exact ⟨_, hw⟩
      · rcases h.passed m _ hp with ⟨c', hc'⟩ | ⟨hw, -⟩
        · exact ⟨_, hc'⟩
        · exact absurd hw (hnot m)
    · have ht := hinv.thread (s.curthread c)
      simp only [ThreadOk, hy] at ht
      obtain ⟨c', -, hc'⟩ := ht
      exact ⟨_, hc'⟩
  have hkeep : ∀ t, OnSome σ t → Live s' (Function.update σ (.threadQueue c) rest) t := by
    rintro t ⟨q, hq⟩
    by_cases ht : t = n
    · exact Or.inl ⟨c, ht ▸ hnow⟩
    · exact Or.inr ⟨q, (hmem t ht q).mpr hq⟩
  have hcpu : ∀ c', c' ≠ c → s'.curthread c' = s.curthread c' := fun c' hc' => by
    rw [hcur, Function.update_of_ne hc']
  have hlive : ∀ t, Live s σ t → Live s' (Function.update σ (.threadQueue c) rest) t := by
    rintro t (⟨c', hc'⟩ | hon)
    · by_cases hcc : c' = c
      · exact hkeep t (by rw [← hc', hcc]; exact hold)
      · exact Or.inl ⟨c', (hcpu c' hcc).trans hc'⟩
    · exact hkeep t hon
  refine ⟨⟨fun m t hk => hlive t (h.held m t hk), fun m t hk => ?_⟩, hlive⟩
  · rcases h.passed m t hk with ⟨c', hc'⟩ | ⟨hw, c', hc'⟩
    · by_cases ht : t = n
      · subst ht
        have hwaits : s.Waits m t := by
          have htok := hinv.token m
          rw [hk] at htok
          exact htok.2.2.2.1
        have hw := hwaits.resolve_left (hwin m)
        have hne : t ≠ s.curthread c := fun he => hnot m (he ▸ hw)
        exact Or.inr ⟨(hctx t hne).trans hw, c, hnow⟩
      · exact Or.inl ⟨c', (hmem t ht _).mpr hc'⟩
    · have hne : t ≠ s.curthread c := fun he => hnot m (he ▸ hw)
      have hcc : c' ≠ c := fun he => hne (by rw [← hc', he])
      exact Or.inr ⟨(hctx t hne).trans hw, c', (hcpu c' hcc).trans hc'⟩

/-- The state is consistent and no thread is lost. -/
def Sound (s : Sys C T M) : Prop := ∃ σ k, Inv s σ k ∧ Placed s σ k

omit [DecidableEq C] [DecidableEq T] [DecidableEq M] in
theorem Sound.consistent (h : Sound s) : Consistent s := by
  obtain ⟨σ, k, hinv, -⟩ := h
  exact ⟨σ, k, hinv⟩

omit [DecidableEq C] [DecidableEq T] in
theorem of_update {x y : Token T} (hx : x ≠ y) (hk : Function.update k m x m' = y) :
    m' ≠ m ∧ k m' = y := by
  by_cases hm : m' = m
  · rw [hm, Function.update_self] at hk
    exact absurd hk hx
  · rw [Function.update_of_ne hm] at hk
    exact ⟨hm, hk⟩

omit [DecidableEq C] [DecidableEq T] in
theorem of_update_held (hk : Function.update k m (.held u) m' = .held t) :
    k m' = .held t ∨ t = u := by
  by_cases hut : u = t
  · exact Or.inr hut.symm
  · exact Or.inl (of_update (by simpa using hut) hk).2

theorem Placed.step (h : Placed s σ k) (hinv : Inv s σ k) {a : C × Act M}
    (hunl : HolderUnlocks s a) (hsafe : SwitchSafe s a) (hs : s.step a = some s') :
    ∃ σ' k', Inv s' σ' k' ∧ Keeps s σ s' σ' k' := by
  obtain ⟨c, a⟩ := a
  have hframe := stepFrame hs
  have hctx := hframe.others
  have hcur := hframe.stays
  cases a with
  | lock m =>
    have hrun := lock_run hs
    have hne : ∀ m, s.ctx (s.curthread c) ≠ .waiting m := by simp [hrun]
    have hcur := hcur (by simp)
    cases hm : s.mutexState m with
    | free =>
      exact ⟨_, _, hinv.lock_free hrun hm hs, h.frame hcur hctx (fun _ => id) (fun c _ h => ⟨c, h⟩)
        (fun _ _ => of_update_held) fun m' _ hk => Or.inr ⟨(of_update (by simp) hk).2, hne m'⟩⟩
    | locked =>
      exact ⟨_, _, hinv.lock_locked hrun hm hs, h.frame hcur hctx
        (fun _ ⟨q, h⟩ => ⟨q, mem_push_of_mem h⟩) (fun c' _ h => ⟨c', mem_push_of_mem h⟩)
        (fun _ _ => Or.inl) fun m _ hk => Or.inr ⟨hk, hne m⟩⟩
  | switch =>
    obtain ⟨resume, hres, hsched⟩ := switch_resumes hs
    obtain ⟨n, rest, hq, hfirst, hcur⟩ := hinv.switch_head hsched
    have hwin := hsafe n hfirst
    exact ⟨_, _, hinv.scheduleNextThread hres hq hwin hsched,
      h.switch hinv hres hq hwin hcur hctx⟩
  | wake =>
    obtain ⟨m, hwait⟩ := wake_waiting hs
    refine ⟨_, _, hinv.wake hwait hs, h.frame (hcur (by simp)) hctx (fun _ => id)
      (fun c _ h => ⟨c, h⟩) (fun _ _ => of_update_held) fun m' t hk => Or.inr ?_⟩
    obtain ⟨hm, hk⟩ := of_update (by simp) hk
    exact ⟨hk, by simpa [hwait] using hm.symm⟩
  | unlock m =>
    have hrun := (unlock_owner hs).1
    exact ⟨_, _, hinv.unlock hrun (hinv.holder_held hunl) hs, h.frame (hcur (by simp)) hctx
      (fun _ => id) (fun c _ h => ⟨c, h⟩) (fun _ _ hk => Or.inl (of_update (by simp) hk).2)
      fun _ _ hk => Or.inr ⟨(of_update (by simp) hk).2, by simp [hrun]⟩⟩
  | release =>
    obtain ⟨m, hunlocking⟩ := release_unlocking hs
    have hne : ∀ m', s.ctx (s.curthread c) ≠ .waiting m' := by simp [hunlocking]
    have hcur := hcur (by simp)
    cases hq : σ (.waitQueue m) with
    | nil =>
      exact ⟨_, _, hinv.release_empty hunlocking ((hinv.rep.lists _).empty_iff.mpr hq) hs,
        h.frame hcur hctx (fun _ => id) (fun c _ h => ⟨c, h⟩)
        (fun _ _ hk => Or.inl (of_update (by simp) hk).2)
        fun m' _ hk => Or.inr ⟨(of_update (by simp) hk).2, hne m'⟩⟩
    | cons n rest =>
      let σ' := Function.update (Function.update σ (.waitQueue m) rest) (.threadQueue c)
        (σ (.threadQueue c) ++ [n])
      have hnow : n ∈ σ' (.threadQueue c) := by
        simp [σ']
      have hmem : ∀ t, t ≠ n → ∀ q, t ∈ σ' q ↔ t ∈ σ q := fun t ht => mem_popPush hq ht
      refine ⟨σ', _, hinv.release_pass hunlocking hq hs, h.frame hcur hctx ?_ ?_ ?_ ?_⟩
      · rintro t ⟨q, ht⟩
        by_cases htn : t = n
        · exact ⟨_, htn ▸ hnow⟩
        · exact ⟨q, (hmem t htn q).mpr ht⟩
      · intro c' t ht
        by_cases htn : t = n
        · exact ⟨c, htn ▸ hnow⟩
        · exact ⟨c', (hmem t htn _).mpr ht⟩
      · exact fun _ _ hk => Or.inl (of_update (by simp) hk).2
      · intro m' t hk
        by_cases htn : t = n
        · exact Or.inl ⟨c, htn ▸ hnow⟩
        · exact Or.inr ⟨(of_update (by simpa using Ne.symm htn) hk).2, hne m'⟩
  | yield =>
    have hrun := yield_run hs
    exact ⟨_, _, hinv.yield hrun hs, h.frame (hcur (by simp)) hctx
      (fun _ ⟨q, h⟩ => ⟨q, mem_push_of_mem h⟩) (fun c' _ h => ⟨c', mem_push_of_mem h⟩)
      (fun _ _ => Or.inl) fun _ _ hk => Or.inr ⟨hk, by simp [hrun]⟩⟩

theorem preserves_sound : Preserves (Sys.step (C := C) (T := T) (M := M)) Sound
    fun s a => HolderUnlocks s a ∧ SwitchSafe s a := by
  rintro s a s' ⟨σ, k, hinv, h⟩ ⟨hunl, hsafe⟩ hs
  obtain ⟨σ', k', hinv', hkeeps⟩ := h.step hinv hunl hsafe hs
  exact ⟨σ', k', hinv', hkeeps.placed⟩

omit [DecidableEq C] [DecidableEq T] [DecidableEq M] in
theorem Start.sound (h : Start s) : Sound s := by
  obtain ⟨σ, k, hinv⟩ := h.consistent
  have hfree : ∀ m, k m = .free := fun m => hinv.free_iff.mp (h.free m).1
  exact ⟨σ, k, hinv, fun m t hk => by simp [hfree] at hk, fun m t hk => by simp [hfree] at hk⟩

theorem preserves_sound_one_cpu [Subsingleton C] :
    Preserves (Sys.step (C := C) (T := T) (M := M)) Sound HolderUnlocks :=
  fun s a s' h hunl hs => preserves_sound s a s' h ⟨hunl, h.consistent.switchSafe a⟩ hs

/-! Circles. -/

/-- `t` waits for a mutex that `u` holds. -/
def Sys.WaitsFor (s : Sys C T M) (t u : T) : Prop := ∃ m, s.Waits m t ∧ u ∈ s.holders m

/-- No CPU has a thread to switch to, and the one it runs is in `lock`. -/
structure Stuck (s : Sys C T M) : Prop where
  blocking : ∀ c, ∃ m, s.ctx (s.curthread c) = .blocking m
  empty : ∀ c, empty (s.queues.lists (.threadQueue c)) = true

omit [DecidableEq C] [DecidableEq T] [DecidableEq M] in
theorem Sound.circle [Finite T] (h : Sound s) (hstuck : Stuck s) (c : C) :
    ∃ t, TransGen s.WaitsFor t t := by
  obtain ⟨σ, k, hinv, hplaced⟩ := h
  have hnone : ∀ c, σ (.threadQueue c) = [] := fun c =>
    (hinv.rep.lists _).empty_iff.mp (hstuck.empty c)
  have hnotWaiting : ∀ c m, s.ctx (s.curthread c) ≠ .waiting m := by
    intro c m hw
    obtain ⟨m', hb⟩ := hstuck.blocking c
    rw [hb] at hw
    cases hw
  have hpassed : ∀ m t, k m ≠ .passed t := by
    intro m t hk
    rcases hplaced.passed m t hk with ⟨c, hq⟩ | ⟨hw, c, rfl⟩
    · rw [hnone] at hq
      cases hq
    · exact hnotWaiting c m hw
  -- so the threads that run wait too
  have hcur : ∀ c, ∃ m, s.curthread c ∈ σ (.waitQueue m) := by
    intro c
    obtain ⟨m, hb⟩ := hstuck.blocking c
    exact ⟨m, (hinv.blocking_queues hb).2.resolve_right (hpassed m _)⟩
  have hnext : ∀ t, (∃ m, t ∈ σ (.waitQueue m)) →
      ∃ u, s.WaitsFor t u ∧ ∃ m, u ∈ σ (.waitQueue m) := by
    rintro t ⟨m, ht⟩
    have htok := hinv.token m
    cases hk : k m with
    | free =>
      rw [hk] at htok
      rw [htok.2.2.2] at ht
      cases ht
    | held u =>
      rw [hk] at htok
      refine ⟨u, ⟨m, (hinv.wait m t ht).1, htok.2.2 ▸ List.mem_cons_self⟩, ?_⟩
      rcases hplaced.held m u hk with ⟨c, rfl⟩ | ⟨q, hq⟩
      · exact hcur c
      · cases q with
        | threadQueue c =>
          rw [hnone] at hq
          cases hq
        | waitQueue m' => exact ⟨m', hq⟩
    | releasing r =>
      rw [hk] at htok
      have hr := hinv.thread r
      simp only [ThreadOk, htok.2.2.2] at hr
      obtain ⟨⟨c, rfl⟩, -⟩ := hr
      obtain ⟨m', hb⟩ := hstuck.blocking c
      rw [htok.2.2.2] at hb
      cases hb
    | passed p => exact absurd hk (hpassed m p)
  exact exists_circle (W := fun t => ∃ m, t ∈ σ (.waitQueue m)) (hcur c) hnext

/-- On one CPU a switch that finds no thread is one in `lock`, and everything is stuck. -/
theorem Sound.stuck [Subsingleton C] (h : Sound s) {resume : Ctx M}
    (hres : Resumes s (s.curthread c) resume) (hfail : s.switch c = none) : Stuck s := by
  obtain ⟨σ, k, hinv, -⟩ := h
  have hempty : empty (s.queues.lists (.threadQueue c)) = true := by
    by_contra hready
    obtain ⟨s', hs⟩ := hinv.exists_switch hres (Bool.eq_false_of_not_eq_true hready)
    rw [hfail] at hs
    cases hs
  refine ⟨fun c' => ?_, fun c' => Subsingleton.elim c c' ▸ hempty⟩
  rw [Subsingleton.elim c' c]
  rcases hres with ⟨m, hb, -⟩ | ⟨hy, -⟩
  · exact ⟨m, hb⟩
  · have ht := hinv.thread (s.curthread c)
    simp only [ThreadOk, hy] at ht
    obtain ⟨c', -, hq⟩ := ht
    rw [Subsingleton.elim c' c, (hinv.rep.lists _).empty_iff.mp hempty] at hq
    cases hq

variable {acts : List (C × Act M)}

/-- If `schedule_next_thread` finds no thread, some threads wait for each other in a circle. -/
theorem no_thread_circle [Subsingleton C] [Finite T] (h : Start s)
    (hunl : AlongRun Sys.step HolderUnlocks s acts) (hrun : run Sys.step s acts = some s')
    {resume : Ctx M} (hres : Resumes s' (s'.curthread c) resume) (hfail : s'.switch c = none) :
    ∃ t, TransGen s'.WaitsFor t t :=
  have hsound := preserves_sound_one_cpu.after_run h.sound hunl hrun
  hsound.circle (hsound.stuck hres hfail) c

/-- One CPU, two threads and two mutexes. -/
def twoMutexes : Sys Unit Bool Bool := boot (fun _ => true) fun _ => some false

theorem start_twoMutexes : Start twoMutexes :=
  start_boot (fun _ _ _ => rfl) (fun _ _ _ _ _ => rfl) fun _ _ => by decide

/-- Each thread takes one mutex and then wants the other. -/
def crossed : List (Unit × Act Bool) :=
  [((), .lock false), ((), .yield), ((), .switch), ((), .lock true), ((), .lock false),
    ((), .switch), ((), .lock true)]

theorem exists_run_crossed : ∃ s', run Sys.step twoMutexes crossed = some s' ∧
    s'.ctx (s'.curthread ()) = .blocking true ∧ s'.switch () = none := ⟨_, rfl, rfl, rfl⟩

theorem no_thread_circle_crossed : ∃ s', run Sys.step twoMutexes crossed = some s' ∧
    s'.switch () = none ∧ ∃ t, TransGen s'.WaitsFor t t := by
  obtain ⟨s', hrun, hblocking, hfail⟩ := exists_run_crossed
  have hunl : AlongRun Sys.step HolderUnlocks twoMutexes crossed :=
    .cons trivial rfl (.cons trivial rfl (.cons trivial rfl (.cons trivial rfl (.cons trivial rfl
      (.cons trivial rfl (.cons trivial rfl trivial))))))
  exact ⟨s', hrun, hfail, no_thread_circle start_twoMutexes hunl hrun
    (Or.inl ⟨_, hblocking, rfl⟩) hfail⟩

/-! Mutexes taken in an order. -/

/-- A thread calls `lock` on a mutex above all those it holds. -/
def LocksUp (rank : M → ℕ) (s : Sys C T M) : C × Act M → Prop
  | (c, .lock m) => ∀ m', s.curthread c ∈ s.holders m' → rank m' < rank m
  | _ => True

def Ascending (rank : M → ℕ) (s : Sys C T M) : Prop :=
  ∀ t m m', s.Waits m t → t ∈ s.holders m' → rank m' < rank m

variable {rank : M → ℕ}

theorem Ascending.step (h : Ascending rank s) {a : C × Act M} (hup : LocksUp rank s a)
    (hs : s.step a = some s') : Ascending rank s' := by
  obtain ⟨c, a⟩ := a
  have hframe := stepFrame hs
  intro t m m' hwaits hholds
  have hheld : t ∈ s.holders m' := by
    refine (hframe.holders t m' hholds).resolve_right fun ⟨_, hrun⟩ => ?_
    exact not_waits_of_run hrun hwaits
  by_cases ht : t = s.curthread c
  · subst ht
    rcases hframe.waits m hwaits with hw | rfl
    · exact h _ m m' hw hheld
    · exact hup m' hheld
  · have hw : s.Waits m t := by simpa only [Sys.Waits, hframe.others t ht] using hwaits
    exact h t m m' hw hheld

omit [DecidableEq C] [DecidableEq T] [DecidableEq M] in
theorem Sys.Waits.unique (h : s.Waits m t) (h' : s.Waits m' t) : m = m' := by
  rcases h with h | h <;> rcases h' with h' | h' <;> rw [h] at h' <;> cases h' <;> rfl

omit [DecidableEq C] [DecidableEq T] [DecidableEq M] in
/-- Along a chain of waits the mutexes go up. -/
theorem Ascending.rank_lt (h : Ascending rank s) (hchain : TransGen s.WaitsFor t u)
    (ht : s.Waits m t) (hu : s.Waits m' u) : rank m < rank m' := by
  induction hchain generalizing m' with
  | single hwait =>
    obtain ⟨m₁, ht₁, hholds⟩ := hwait
    exact ht.unique ht₁ ▸ h _ m' m₁ hu hholds
  | tail _ hwait ih =>
    obtain ⟨m₁, hb, hholds⟩ := hwait
    exact (ih hb).trans (h _ m' m₁ hu hholds)

omit [DecidableEq C] [DecidableEq T] [DecidableEq M] in
theorem Ascending.no_circle (h : Ascending rank s) (t : T) : ¬ TransGen s.WaitsFor t t := by
  intro hcircle
  obtain ⟨u, ⟨m, hw, -⟩, -⟩ := TransGen.head'_iff.mp hcircle
  exact Nat.lt_irrefl _ (h.rank_lt hcircle hw hw)

omit [DecidableEq C] [DecidableEq T] [DecidableEq M] in
theorem Start.ascending (h : Start s) : Ascending rank s := by
  intro t m m' _ hholds
  rw [(h.unused m').1] at hholds
  cases hholds

theorem preserves_ascending [Subsingleton C] : Preserves (Sys.step (C := C) (T := T) (M := M))
    (fun s => Sound s ∧ Ascending rank s) fun s a => HolderUnlocks s a ∧ LocksUp rank s a :=
  fun s a s' hs hP hstep =>
    ⟨preserves_sound_one_cpu s a s' hs.1 hP.1 hstep, hs.2.step hP.2 hstep⟩

theorem Sound.exists_switch [Subsingleton C] [Finite T] (h : Sound s) (hup : Ascending rank s)
    {resume : Ctx M} (hres : Resumes s (s.curthread c) resume) : ∃ s', s.switch c = some s' := by
  by_contra hfail
  have hnone : s.switch c = none := Option.eq_none_iff_forall_ne_some.mpr fun s' hs' =>
    hfail ⟨s', hs'⟩
  obtain ⟨t, hcircle⟩ := h.circle (h.stuck hres hnone) c
  exact hup.no_circle t hcircle

/-- With the mutexes taken in an order there is always a thread to switch to. -/
theorem ordered_always_thread [Subsingleton C] [Finite T] (h : Start s)
    (hunl : AlongRun Sys.step HolderUnlocks s acts)
    (hup : AlongRun Sys.step (LocksUp rank) s acts) :
    EveryState Sys.step (fun s => ∀ c resume, Resumes s (s.curthread c) resume →
      ∃ s', s.switch c = some s') s acts :=
  preserves_ascending.everyState (fun _ hs _ _ hres => hs.1.exists_switch hs.2 hres)
    ⟨h.sound, h.ascending⟩ (hunl.and hup)

/-- The other thread waits for the first mutex while its holder takes the second. -/
theorem ordered_always_thread_nested :
    EveryState Sys.step (fun s => ∀ c resume, Resumes s (s.curthread c) resume →
      ∃ s', s.switch c = some s') twoMutexes
      [((), .lock false), ((), .yield), ((), .switch), ((), .lock false), ((), .switch),
        ((), .lock true), ((), .unlock true), ((), .release), ((), .unlock false),
        ((), .release)] := by
  have hup : AlongRun Sys.step (LocksUp Bool.toNat) twoMutexes
      [((), .lock false), ((), .yield), ((), .switch), ((), .lock false), ((), .switch),
        ((), .lock true), ((), .unlock true), ((), .release), ((), .unlock false),
        ((), .release)] := by
    refine .cons ?_ rfl (.cons trivial rfl (.cons trivial rfl (.cons ?_ rfl (.cons trivial rfl
      (.cons ?_ rfl (.cons trivial rfl (.cons trivial rfl (.cons trivial rfl (.cons trivial rfl
        trivial)))))))))
    · exact fun _ hm => nomatch hm
    · exact fun m' hm => by cases m' <;> revert hm <;> decide
    · exact fun m' hm => by cases m' <;> revert hm <;> decide
  refine ordered_always_thread start_twoMutexes ?_ hup
  exact .cons trivial rfl (.cons trivial rfl (.cons trivial rfl (.cons trivial rfl
    (.cons trivial rfl (.cons trivial rfl (.cons List.mem_cons_self rfl (.cons trivial rfl
      (.cons List.mem_cons_self rfl (.cons trivial rfl trivial)))))))))

end CxKernel.Mutex
