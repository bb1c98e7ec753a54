import CxKernel.Proofs.Mutex

/-! Whole runs of the mutex. On one CPU it is exclusive and first come first served. The
check in `unlock` trusts a stale owner while the mutex is handed on, and on several CPUs a
thread can be switched to before it has left its own CPU. -/

namespace CxKernel.Mutex

open LinkedList Runs

variable {C T M : Type}

/-- Fresh mutexes, and threads that run or wait for a CPU. -/
structure Start (s : Sys C T M) : Prop where
  queues : ∃ σ, Represents s.queues σ ∧ (∀ m, σ (.waitQueue m) = []) ∧
    ∀ c, ¬ OnSome σ (s.curthread c)
  inj : Function.Injective s.curthread
  run : ∀ t, s.ctx t = .run
  free : ∀ m, s.mutexState m = .free ∧ s.owner m = none
  unused : ∀ m, s.holders m = [] ∧ s.called m = [] ∧ s.acquired m = []

/-- At most one thread is between the return of `lock` and the call of `unlock`. -/
def Exclusive (s : Sys C T M) : Prop := ∀ m, (s.holders m).length ≤ 1

variable {s s' : Sys C T M}

theorem Start.consistent (h : Start s) : Consistent s := by
  obtain ⟨σ, hrep, hwait, hoff⟩ := h.queues
  refine ⟨σ, fun _ => .free, hrep, h.inj, fun t => ?_, fun m t ht => ?_, fun m => ?_, fun m => ?_⟩
  · simp only [ThreadOk, h.run t]
    rintro c rfl
    exact hoff c
  · rw [hwait] at ht
    cases ht
  · exact ⟨(h.free m).1, (h.free m).2, (h.unused m).1, hwait m⟩
  · obtain ⟨-, hcalled, hacquired⟩ := h.unused m
    simp [hcalled, hacquired, hwait, Token.pending]

theorem Consistent.exclusive (h : Consistent s) : Exclusive s := by
  obtain ⟨σ, k, h⟩ := h
  exact fun m => h.holders_le

theorem Consistent.injective (h : Consistent s) : Function.Injective s.curthread := by
  obtain ⟨σ, k, h⟩ := h
  exact h.inj

variable [DecidableEq C] [DecidableEq T] [DecidableEq M] {acts : List (C × Act M)}

/-! Some runs to try. -/

/-- Each CPU runs a thread, and may have another one ready. -/
def boot (curthread : C → T) (ready : C → Option T) : Sys C T M where
  curthread
  ctx _ := .run
  threadState _ := .ready
  queues := Pool.lone fun
    | .threadQueue c => ready c
    | .waitQueue _ => none
  mutexState _ := .free
  owner _ := none
  holders _ := []
  called _ := []
  acquired _ := []

omit [DecidableEq C] [DecidableEq T] [DecidableEq M] in
theorem start_boot {curthread : C → T} {ready : C → Option T}
    (hinj : Function.Injective curthread)
    (hready : ∀ c c' t, ready c = some t → ready c' = some t → c = c')
    (hapart : ∀ c c', ready c ≠ some (curthread c')) :
    Start (boot curthread ready : Sys C T M) := by
  refine ⟨⟨_, represents_lone ?_, fun _ => rfl, ?_⟩, hinj, fun _ => rfl, fun _ => ⟨rfl, rfl⟩,
    fun _ => ⟨rfl, rfl, rfl⟩⟩
  · intro q q' t hq hq'
    cases q with
    | waitQueue m => cases hq
    | threadQueue c =>
      cases q' with
      | waitQueue m => cases hq'
      | threadQueue c' => rw [hready c c' t hq hq']
  · rintro c ⟨q, hq⟩
    cases q with
    | waitQueue m => cases hq
    | threadQueue c' => exact hapart c' c (Option.mem_toList.mp hq)

/-- `true` runs, `false` is ready. -/
def oneCpu : Sys Unit Bool Unit := boot (fun _ => true) fun _ => some false

theorem start_oneCpu : Start oneCpu :=
  start_boot (fun _ _ _ => rfl) (fun _ _ _ _ _ => rfl) fun _ _ => by decide

/-- `true` locks the mutex, `false` waits for it and is handed it. -/
def handOff : List (Unit × Act Unit) :=
  [((), .lock ()), ((), .yield), ((), .switch), ((), .lock ()), ((), .switch), ((), .unlock ()),
    ((), .release)]

/-- `false` gets to run. -/
def takeOver : List (Unit × Act Unit) := [((), .yield), ((), .switch), ((), .wake)]

theorem holderUnlocks_handOff_takeOver :
    AlongRun Sys.step HolderUnlocks oneCpu (handOff ++ takeOver) :=
  .cons trivial rfl (.cons trivial rfl (.cons trivial rfl (.cons trivial rfl (.cons trivial rfl
    (.cons List.mem_cons_self rfl (.cons trivial rfl (.cons trivial rfl (.cons trivial rfl
      (.cons trivial rfl trivial)))))))))

/-- Each CPU runs the thread of its name, and no other is ready. -/
def twoCpus : Sys Bool Bool Unit := boot id fun _ => none

theorem start_twoCpus : Start twoCpus :=
  start_boot Function.injective_id (fun _ _ _ h => nomatch h) fun _ _ h => nomatch h

/-! One CPU. -/

/-- What the mutexes promise of a state. -/
structure Promised (s : Sys C T M) : Prop where
  exclusive : Exclusive s
  fifo : ∀ m, s.acquired m <+: s.called m
  free_empty : ∀ m, s.mutexState m = .free → empty (s.queues.lists (.waitQueue m)) = true
  one_queue : ∃ σ, Represents s.queues σ
  woken : ∀ c m, s.ctx (s.curthread c) = .waiting m → s.doIHold c m = false

omit [DecidableEq C] [DecidableEq M] in
theorem Consistent.promised (h : Consistent s) : Promised s := by
  have hexcl := h.exclusive
  obtain ⟨σ, k, h⟩ := h
  refine ⟨hexcl, fun m => ?_, fun m hfree => ?_, ⟨σ, h.rep⟩, fun c m hctx => ?_⟩
  · rw [h.order m, List.append_assoc]
    exact List.prefix_append _ _
  · exact (h.rep.lists _).empty_iff.mpr (h.free_queue hfree)
  · have hk := (h.waiting_passed hctx).1
    simpa [Sys.doIHold] using h.passed_owner hk

omit [DecidableEq C] [DecidableEq T] [DecidableEq M] in
/-- The thread in the window of `lock` is the one that runs. -/
theorem Consistent.switchSafe [Subsingleton C] (h : Consistent s) (a : C × Act M) :
    SwitchSafe s a := by
  obtain ⟨σ, k, h⟩ := h
  obtain ⟨c, a⟩ := a
  cases a with
  | switch =>
    intro t hfirst m hctx
    rw [(h.rep.lists _).first_eq] at hfirst
    have ht := h.thread t
    simp only [ThreadOk, hctx] at ht
    obtain ⟨⟨c', -, hnot⟩, -⟩ := ht
    rw [Subsingleton.elim c' c] at hnot
    exact hnot (List.mem_of_mem_head? hfirst)
  | _ => trivial

theorem preserves_one_cpu [Subsingleton C] :
    Preserves (Sys.step (C := C) (T := T) (M := M)) Consistent HolderUnlocks :=
  fun s a s' h hunl hs => preserves_consistent s a s' h ⟨hunl, h.switchSafe a⟩ hs

/-- On one CPU, with each mutex unlocked by its holder, every state is as promised. -/
theorem one_cpu_promised [Subsingleton C] (h : Start s)
    (hunl : AlongRun Sys.step HolderUnlocks s acts) : EveryState Sys.step Promised s acts :=
  preserves_one_cpu.everyState (fun _ hs => hs.promised) h.consistent hunl

theorem one_cpu_promised_handOff :
    EveryState Sys.step Promised oneCpu (handOff ++ takeOver) :=
  one_cpu_promised start_oneCpu holderUnlocks_handOff_takeOver

/-! The check in `unlock`. -/

omit [DecidableEq C] in
/-- A thread that gets past the check, with no hand-off pending, is the holder. -/
theorem Consistent.holder_of_owner (h : Consistent s) {c : C} {m : M}
    (hs : s.unlock c m = some s') (hstale : ¬ s.HandedOff m) : s.curthread c ∈ s.holders m := by
  obtain ⟨σ, k, h⟩ := h
  obtain ⟨hctx, howner⟩ := unlock_owner hs
  have htok := h.token m
  rcases h.owner_token hctx howner with hk | ⟨u, hk⟩
  · rw [hk] at htok
    rw [htok.2.2]
    exact List.mem_cons_self
  · rw [hk] at htok
    exact absurd ⟨u, htok.2.2.2⟩ hstale

omit [DecidableEq C] [DecidableEq T] [DecidableEq M] in
/-- While a mutex is handed on nobody holds it. -/
theorem Consistent.not_handedOff (h : Consistent s) {t : T} {m : M} (hmem : t ∈ s.holders m) :
    ¬ s.HandedOff m := by
  obtain ⟨σ, k, h⟩ := h
  rintro ⟨u, hwaits, hready⟩
  have hk := h.holder_held hmem
  have hu := h.thread u
  have hqueued : u ∈ σ (.waitQueue m) := by
    rcases hwaits with hctx | hctx
    · simp only [ThreadOk, hctx, hk, reduceCtorEq, or_false] at hu
      exact hu.2
    · simp only [ThreadOk, hctx, hk, reduceCtorEq, or_false] at hu
      exact hu.2
  rw [(h.wait m u hqueued).2] at hready
  cases hready

theorem preserves_no_stale : Preserves (Sys.step (C := C) (T := T) (M := M)) Consistent
    fun s a => SwitchSafe s a ∧ NoStaleUnlock s a := by
  rintro s ⟨c, a⟩ s' h ⟨hsafe, hstale⟩ hs
  refine preserves_consistent s _ s' h ⟨?_, hsafe⟩ hs
  cases a with
  | unlock m => exact h.holder_of_owner hs hstale
  | _ => trivial

theorem unlock_by_holder_iff (h : Start s) (hrun : run Sys.step s acts = some s')
    (hsafe : AlongRun Sys.step SwitchSafe s acts) :
    AlongRun Sys.step HolderUnlocks s acts ∧ EveryState Sys.step Exclusive s acts ↔
      AlongRun Sys.step NoStaleUnlock s acts := by
  refine ⟨fun hgood => ?_, fun hstale => ⟨?_, ?_⟩⟩
  · refine preserves_consistent.alongRun (fun s a s' hs hP _ => ?_) h.consistent
      (hgood.1.and hsafe) hrun
    obtain ⟨c, a⟩ := a
    cases a with
    | unlock m => exact hs.not_handedOff hP.1
    | _ => trivial
  · refine preserves_no_stale.alongRun (fun s a s' hs hP hstep => ?_) h.consistent
      (hsafe.and hstale) hrun
    obtain ⟨c, a⟩ := a
    cases a with
    | unlock m => exact hs.holder_of_owner hstep hP.2
    | _ => trivial
  · exact preserves_no_stale.everyState (fun _ hs => hs.exclusive) h.consistent
      (hsafe.and hstale)

theorem exists_run_handOff_takeOver :
    ∃ s', run Sys.step oneCpu (handOff ++ takeOver) = some s' := ⟨_, rfl⟩

theorem unlock_by_holder_iff_handOff :
    AlongRun Sys.step NoStaleUnlock oneCpu (handOff ++ takeOver) := by
  obtain ⟨s', hrun⟩ := exists_run_handOff_takeOver
  have hunl := holderUnlocks_handOff_takeOver
  have hsafe : AlongRun Sys.step SwitchSafe oneCpu (handOff ++ takeOver) :=
    preserves_one_cpu.alongRun (fun _ a _ hs _ _ => hs.switchSafe a) start_oneCpu.consistent hunl
      hrun
  exact (unlock_by_holder_iff start_oneCpu hrun hsafe).mp
    ⟨hunl, preserves_one_cpu.everyState (fun _ hs => hs.exclusive) start_oneCpu.consistent hunl⟩

/-- The last owner unlocks again before the thread it handed the mutex to has run, takes
the free mutex, and then both hold it. -/
theorem stale_unlock_two_holders :
    Start oneCpu ∧ ∃ s',
      run Sys.step oneCpu (handOff ++ [((), .unlock ()), ((), .release), ((), .lock ())] ++
        takeOver) = some s' ∧ s'.holders () = [true, false] ∧
      ¬ AlongRun Sys.step HolderUnlocks oneCpu
        (handOff ++ [((), .unlock ()), ((), .release), ((), .lock ())] ++ takeOver) := by
  have hrun : ∃ s', run Sys.step oneCpu (handOff ++ [((), .unlock ()), ((), .release),
      ((), .lock ())] ++ takeOver) = some s' ∧ s'.holders () = [true, false] := ⟨_, rfl, rfl⟩
  obtain ⟨s', hrun, hholders⟩ := hrun
  refine ⟨start_oneCpu, s', hrun, hholders, fun hunl => ?_⟩
  have hone := (preserves_one_cpu.after_run start_oneCpu.consistent hunl hrun).exclusive ()
  rw [hholders] at hone
  exact absurd hone (by decide)

/-! Several CPUs. -/

theorem Consistent.switchSafe_of_injective (h : Consistent s) {a : C × Act M}
    (hs : s.step a = some s') (hinj : Function.Injective s'.curthread) : SwitchSafe s a := by
  obtain ⟨σ, k, h⟩ := h
  obtain ⟨c, a⟩ := a
  cases a with
  | switch =>
    intro t hfirst m hctx
    obtain ⟨resume, -, hsched⟩ := switch_resumes hs
    obtain ⟨n, rest, hq, hfirst', hcur⟩ := h.switch_head hsched
    obtain rfl : n = t := Option.some.inj (hfirst'.symm.trans hfirst)
    have ht := h.thread n
    simp only [ThreadOk, hctx] at ht
    obtain ⟨⟨c', hc', hnot⟩, -⟩ := ht
    -- the thread runs on another CPU, and now on this one too
    have hcc : c' ≠ c := by
      rintro rfl
      exact hnot (hq ▸ List.mem_cons_self)
    have hboth : s'.curthread c' = s'.curthread c := by
      rw [hcur, Function.update_self, Function.update_of_ne hcc, hc']
    exact hcc (hinj hboth)
  | _ => trivial

theorem one_cpu_each_iff (h : Start s) (hrun : run Sys.step s acts = some s')
    (hunl : AlongRun Sys.step HolderUnlocks s acts) :
    EveryState Sys.step (fun s => Function.Injective s.curthread) s acts ↔
      AlongRun Sys.step SwitchSafe s acts := by
  refine ⟨fun hinj => ?_, fun hsafe => ?_⟩
  · exact preserves_consistent.alongRun_of_everyState
      (fun _ _ _ hs _ hstep hinj => hs.switchSafe_of_injective hstep hinj) h.consistent hunl hrun
      hinj
  · exact preserves_consistent.everyState (fun _ hs => hs.injective) h.consistent
      (hunl.and hsafe)

/-- Each CPU yields to the one thread it has, and one thread locks and unlocks. -/
def turns : List (Bool × Act Unit) :=
  [(false, .lock ()), (false, .yield), (true, .yield), (false, .switch), (true, .switch),
    (false, .unlock ()), (false, .release)]

theorem exists_run_turns : ∃ s', run Sys.step twoCpus turns = some s' := ⟨_, rfl⟩

theorem one_cpu_each_iff_turns :
    EveryState Sys.step (fun s => Function.Injective s.curthread) twoCpus turns := by
  obtain ⟨s', hrun⟩ := exists_run_turns
  have hunl : AlongRun Sys.step HolderUnlocks twoCpus turns :=
    .cons trivial rfl (.cons trivial rfl (.cons trivial rfl (.cons trivial rfl (.cons trivial rfl
      (.cons List.mem_cons_self rfl (.cons trivial rfl trivial))))))
  refine (one_cpu_each_iff start_twoCpus hrun hunl).mpr ?_
  refine .cons trivial rfl (.cons trivial rfl (.cons trivial rfl (.cons ?_ rfl (.cons ?_ rfl
    (.cons trivial rfl (.cons trivial rfl trivial))))))
  · intro t ht m
    obtain rfl := Option.some.inj ht
    exact (by simp : (Ctx.yielding : Ctx Unit) ≠ .blocking m)
  · intro t ht m
    obtain rfl := Option.some.inj ht
    exact (by simp : (Ctx.yielding : Ctx Unit) ≠ .blocking m)

/-- The waiter is still in `lock` on its own CPU when the other one switches to it. -/
theorem thread_on_two_cpus :
    Start twoCpus ∧ ∃ s',
      AlongRun Sys.step HolderUnlocks twoCpus [(false, .lock ()), (true, .lock ()),
        (false, .unlock ()), (false, .release), (false, .yield), (false, .switch)] ∧
      run Sys.step twoCpus [(false, .lock ()), (true, .lock ()), (false, .unlock ()),
        (false, .release), (false, .yield), (false, .switch)] = some s' ∧
      s'.curthread false = s'.curthread true := by
  refine ⟨start_twoCpus, _, ?_, rfl, rfl⟩
  exact .cons trivial rfl (.cons trivial rfl (.cons List.mem_cons_self rfl (.cons trivial rfl
    (.cons trivial rfl (.cons trivial rfl trivial)))))

end CxKernel.Mutex
