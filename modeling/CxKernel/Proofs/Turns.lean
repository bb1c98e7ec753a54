import CxKernel.Lib.Turns
import CxKernel.Proofs.Deadlock

/-! What becomes of a thread on a queue. The thread queues and the wait queues are first come first
served, and no thread gets lost between them. -/

namespace CxKernel.Mutex

open LinkedList Runs

variable {C T M : Type} [DecidableEq T]

/-- The threads on a queue. -/
def Sys.queue (s : Sys C T M) (q : Queue C M) : List T :=
  (visit s.queues.links (s.queues.lists q)).getD []

variable {s s' : Sys C T M} {σ σ' : Queue C M → List T} {k : M → Token T} {t : T} {c : C} {m : M}

theorem queue_eq (h : Represents s.queues σ) (q : Queue C M) : s.queue q = σ q := by
  rw [Sys.queue, (h.lists q).visit_eq, Option.getD_some]

/-- `t` runs, or is on a queue. -/
def Sys.Live (s : Sys C T M) (t : T) : Prop := (∃ c, s.curthread c = t) ∨ ∃ q, t ∈ s.queue q

theorem live_iff (h : Represents s.queues σ) : s.Live t ↔ Live s σ t := by
  simp only [Sys.Live, Live, OnSome, queue_eq h]

variable [DecidableEq C] [DecidableEq M] {acts : List (C × Act M)}

/-- A switch takes from the thread queue of its CPU, `unlock` from the wait queue of its mutex. -/
def takesFrom : Queue C M → Sys C T M → C × Act M → Bool
  | .threadQueue c, _, (c', .switch) => c' = c
  | .waitQueue m, s, (c, .release) =>
    match s.ctx (s.curthread c) with
    | .unlocking m' => m' = m
    | _ => false
  | _, _, _ => false

/-- The queues after a step: the head of one is gone, or they have become longer. -/
structure QueueStep (s : Sys C T M) (σ : Queue C M → List T) (a : C × Act M) (s' : Sys C T M)
    (σ' : Queue C M → List T) : Prop where
  rep : Represents s'.queues σ'
  head : ∀ q, takesFrom q s a = true → σ' q = (σ q).tail
  tail : ∀ q, takesFrom q s a = false → σ q <+: σ' q

omit [DecidableEq T] in
theorem prefix_push {u : T} {q : Queue C M} (r : Queue C M) :
    σ r <+: Function.update σ q (σ q ++ [u]) r := by
  by_cases hr : r = q
  · rw [hr, Function.update_self]
    exact List.prefix_append _ _
  · rw [Function.update_of_ne hr]

omit [DecidableEq T] in
/-- A step that takes from no queue. -/
theorem QueueStep.of_grows {a : C × Act M} (hrep : Represents s'.queues σ')
    (hnone : ∀ q, takesFrom q s a = false) (hgrows : ∀ q, σ q <+: σ' q) :
    QueueStep s σ a s' σ' where
  rep := hrep
  head := fun q htakes => absurd htakes (by simp [hnone])
  tail := fun q _ => hgrows q

theorem Inv.queueStep (h : Inv s σ k) {a : C × Act M} (hunl : HolderUnlocks s a)
    (hsafe : SwitchSafe s a) (hs : s.step a = some s') : ∃ σ', QueueStep s σ a s' σ' := by
  obtain ⟨c, a⟩ := a
  cases a with
  | lock m =>
    have hctx := lock_run hs
    have hnone : ∀ q, takesFrom q s (c, .lock m) = false := fun q => by cases q <;> rfl
    cases hm : s.mutexState m with
    | free =>
      exact ⟨σ, .of_grows (h.lock_free hctx hm hs).rep hnone fun q => List.prefix_refl _⟩
    | locked =>
      exact ⟨_, .of_grows (h.lock_locked hctx hm hs).rep hnone prefix_push⟩
  | switch =>
    obtain ⟨resume, hres, hsched⟩ := switch_resumes hs
    obtain ⟨n, rest, hq, hfirst, -⟩ := h.switch_head hsched
    refine ⟨_, (h.scheduleNextThread hres hq (hsafe n hfirst) hsched).rep, fun q htakes => ?_,
      fun q htakes => ?_⟩
    · cases q with
      | threadQueue c' =>
        obtain rfl : c = c' := by simpa [takesFrom] using htakes
        rw [Function.update_self, hq, List.tail_cons]
      | waitQueue m => cases htakes
    · cases q with
      | threadQueue c' =>
        have hne : ¬ c = c' := by simpa [takesFrom] using htakes
        rw [Function.update_of_ne (by simpa using Ne.symm hne)]
      | waitQueue m => rw [Function.update_of_ne (by simp)]
  | wake =>
    obtain ⟨m, hctx⟩ := wake_waiting hs
    have hnone : ∀ q, takesFrom q s (c, .wake) = false := fun q => by cases q <;> rfl
    exact ⟨σ, .of_grows (h.wake hctx hs).rep hnone fun q => List.prefix_refl _⟩
  | unlock m =>
    have hnone : ∀ q, takesFrom q s (c, .unlock m) = false := fun q => by cases q <;> rfl
    exact ⟨σ, .of_grows (h.unlock (unlock_owner hs).1 (h.holder_held hunl) hs).rep hnone
      fun q => List.prefix_refl _⟩
  | release =>
    obtain ⟨m, hctx⟩ := release_unlocking hs
    have htakesFrom : ∀ m', takesFrom (.waitQueue m') s (c, .release) = decide (m = m') := by
      intro m'
      simp only [takesFrom, hctx]
    cases hq : σ (.waitQueue m) with
    | nil =>
      refine ⟨σ, (h.release_empty hctx ((h.rep.lists _).empty_iff.mpr hq) hs).rep,
        fun q htakes => ?_, fun q _ => List.prefix_refl _⟩
      cases q with
      | threadQueue c' => cases htakes
      | waitQueue m' =>
        obtain rfl : m = m' := by simpa [htakesFrom] using htakes
        rw [hq, List.tail_nil]
    | cons n rest =>
      refine ⟨_, (h.release_pass hctx hq hs).rep, fun q htakes => ?_, fun q htakes => ?_⟩
      · cases q with
        | threadQueue c' => cases htakes
        | waitQueue m' =>
          obtain rfl : m = m' := by simpa [htakesFrom] using htakes
          rw [Function.update_of_ne (by simp), Function.update_self, hq, List.tail_cons]
      · cases q with
        | threadQueue c' =>
          by_cases hc : c' = c
          · rw [hc, Function.update_self]
            exact List.prefix_append _ _
          · rw [Function.update_of_ne (by simpa using hc), Function.update_of_ne (by simp)]
        | waitQueue m' =>
          have hne : ¬ m = m' := by simpa [htakesFrom] using htakes
          rw [Function.update_of_ne (by simp), Function.update_of_ne (by simpa using Ne.symm hne)]
  | yield =>
    have hnone : ∀ q, takesFrom q s (c, .yield) = false := fun q => by cases q <;> rfl
    exact ⟨_, .of_grows (h.yield (yield_run hs) hs).rep hnone prefix_push⟩

theorem fifo (q : Queue C M) : Fifo (Sys.step (C := C) (T := T) (M := M)) Consistent
    (fun s a => HolderUnlocks s a ∧ SwitchSafe s a) (fun s => s.queue q) (takesFrom q) := by
  have hstep : ∀ (s : Sys C T M) a s', Consistent s → HolderUnlocks s a ∧ SwitchSafe s a →
      s.step a = some s' → (takesFrom q s a = true → s'.queue q = (s.queue q).tail) ∧
        (takesFrom q s a = false → s.queue q <+: s'.queue q) := by
    rintro s a s' ⟨σ, k, h⟩ ⟨hunl, hsafe⟩ hs
    obtain ⟨σ', hq⟩ := h.queueStep hunl hsafe hs
    rw [queue_eq h.rep, queue_eq hq.rep]
    exact ⟨hq.head q, hq.tail q⟩
  exact ⟨fun s a s' hI hP hs => (hstep s a s' hI hP hs).1,
    fun s a s' hI hP hs => (hstep s a s' hI hP hs).2⟩

theorem preserves_live (t : T) : Preserves (Sys.step (C := C) (T := T) (M := M))
    (fun s => Sound s ∧ s.Live t) fun s a => HolderUnlocks s a ∧ SwitchSafe s a := by
  rintro s a s' ⟨⟨σ, k, hinv, hplaced⟩, hlive⟩ ⟨hunl, hsafe⟩ hs
  obtain ⟨σ', k', hinv', hkeeps⟩ := hplaced.step hinv hunl hsafe hs
  refine ⟨⟨σ', k', hinv', hkeeps.placed⟩, ?_⟩
  rw [live_iff hinv'.rep]
  exact hkeeps.live t ((live_iff hinv.rep).mp hlive)

/-- The step that takes `t` from a thread queue makes it run. -/
theorem Consistent.switch_to (h : Consistent s) {a : C × Act M}
    (htakes : takesFrom (.threadQueue c) s a = true)
    (hhead : (s.queue (.threadQueue c)).head? = some t) (hs : s.step a = some s') :
    a = (c, .switch) ∧ s'.curthread c = t := by
  obtain ⟨σ, k, h⟩ := h
  obtain ⟨c', a⟩ := a
  cases a with
  | switch =>
    obtain rfl : c = c' := by simpa [takesFrom, eq_comm] using htakes
    obtain ⟨resume, -, hsched⟩ := switch_resumes hs
    obtain ⟨n, rest, hq, -, hcur⟩ := h.switch_head hsched
    rw [queue_eq h.rep, hq, List.head?_cons, Option.some_inj] at hhead
    rw [hcur, Function.update_self, hhead]
    exact ⟨rfl, rfl⟩
  | _ => cases htakes

/-- The step that takes `t` from a wait queue makes it ready. -/
theorem Consistent.hand_to (h : Consistent s) {a : C × Act M}
    (htakes : takesFrom (.waitQueue m) s a = true)
    (hhead : (s.queue (.waitQueue m)).head? = some t) (hs : s.step a = some s') :
    ∃ c, a = (c, .release) ∧ t ∈ s'.queue (.threadQueue c) := by
  obtain ⟨σ, k, h⟩ := h
  obtain ⟨c, a⟩ := a
  cases a with
  | release =>
    obtain ⟨m', hctx⟩ := release_unlocking hs
    obtain rfl : m' = m := by simpa [takesFrom, hctx] using htakes
    cases hq : σ (.waitQueue m') with
    | nil =>
      rw [queue_eq h.rep, hq] at hhead
      cases hhead
    | cons n rest =>
      rw [queue_eq h.rep, hq, List.head?_cons, Option.some_inj] at hhead
      refine ⟨c, rfl, ?_⟩
      rw [queue_eq (h.release_pass hctx hq hs).rep, Function.update_self, hhead]
      exact List.mem_append_right _ List.mem_cons_self
  | _ => cases htakes

/-- What a run `acts` from `s` to `s'` does with the threads. -/
structure InTurn (s : Sys C T M) (acts : List (C × Act M)) (s' : Sys C T M) : Prop where
  live : ∀ t, s.Live t → s'.Live t
  ready : ∀ c pre t post, s.queue (.threadQueue c) = pre ++ t :: post →
    pre.length < taken Sys.step (takesFrom (.threadQueue c)) s acts →
    ∃ before after s₂, acts = before ++ (c, .switch) :: after ∧
      taken Sys.step (takesFrom (.threadQueue c)) s before = pre.length ∧
      run Sys.step s (before ++ [(c, .switch)]) = some s₂ ∧ s₂.curthread c = t
  waiter : ∀ m pre t post, s.queue (.waitQueue m) = pre ++ t :: post →
    pre.length < taken Sys.step (takesFrom (.waitQueue m)) s acts →
    ∃ before c after s₂, acts = before ++ (c, .release) :: after ∧
      taken Sys.step (takesFrom (.waitQueue m)) s before = pre.length ∧
      run Sys.step s (before ++ [(c, .release)]) = some s₂ ∧ t ∈ s₂.queue (.threadQueue c)

theorem Sound.inTurn (h : Sound s)
    (hP : AlongRun Sys.step (fun s a => HolderUnlocks s a ∧ SwitchSafe s a) s acts)
    (hrun : run Sys.step s acts = some s') : InTurn s acts s' := by
  have hlast : ∀ {before : List (C × Act M)} {a : C × Act M} {s₁ s₂ : Sys C T M},
      run Sys.step s before = some s₁ → s₁.step a = some s₂ →
      run Sys.step s (before ++ [a]) = some s₂ := by
    intro before a s₁ s₂ hbefore ha
    exact run_append.mpr ⟨s₁, hbefore, run_cons.mpr ⟨s₂, ha, rfl⟩⟩
  refine ⟨fun t ht => ?_, fun c pre t post hq hmany => ?_, fun m pre t post hq hmany => ?_⟩
  · exact ((preserves_live t).after_run ⟨h, ht⟩ hP hrun).2
  · obtain ⟨before, a, after, s₁, s₂, hacts, hbefore, ha, hcons, -, htakes, hhead, hcount⟩ :=
      (fifo (.threadQueue c)).turn preserves_consistent h.consistent hP hrun hq hmany
    obtain ⟨rfl, hcur⟩ := hcons.switch_to htakes hhead ha
    exact ⟨before, after, s₂, hacts, hcount, hlast hbefore ha, hcur⟩
  · obtain ⟨before, a, after, s₁, s₂, hacts, hbefore, ha, hcons, -, htakes, hhead, hcount⟩ :=
      (fifo (.waitQueue m)).turn preserves_consistent h.consistent hP hrun hq hmany
    obtain ⟨c, rfl, hready⟩ := hcons.hand_to htakes hhead ha
    exact ⟨before, c, after, s₂, hacts, hcount, hlast hbefore ha, hready⟩

end CxKernel.Mutex
