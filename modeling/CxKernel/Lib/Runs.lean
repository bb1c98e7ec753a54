import Mathlib.Logic.Basic
import Mathlib.Data.Nat.Notation
import Mathlib.Data.Option.Basic

/-! Runs of a system that refuses some steps. What each step keeps under a condition, a
run keeps whose steps all meet that condition. -/

namespace CxKernel.Runs

variable {S A : Type} (step : S → A → Option S)

/-- The state after a run, if no step of it is refused. -/
def run : S → List A → Option S
  | s, [] => some s
  | s, a :: acts => do
    let s ← step s a
    run s acts

/-- Each step of a run meets `P`, in the state it is taken in. -/
def AlongRun (P : S → A → Prop) : S → List A → Prop
  | _, [] => True
  | s, a :: acts => P s a ∧ ∀ s', step s a = some s' → AlongRun P s' acts

/-- Each state of a run meets `Q`, from the first to the last. -/
def EveryState (Q : S → Prop) : S → List A → Prop
  | s, [] => Q s
  | s, a :: acts => Q s ∧ ∀ s', step s a = some s' → EveryState Q s' acts

/-- A step that meets `P` keeps `I`. -/
def Preserves (I : S → Prop) (P : S → A → Prop) : Prop :=
  ∀ s a s', I s → P s a → step s a = some s' → I s'

variable {step} {I Q : S → Prop} {P R : S → A → Prop} {s s' : S} {a : A} {acts : List A}

theorem run_cons :
    run step s (a :: acts) = some s' ↔ ∃ s₁, step s a = some s₁ ∧ run step s₁ acts = some s' :=
  Option.bind_eq_some_iff

theorem run_append {acts' : List A} : run step s (acts ++ acts') = some s' ↔
    ∃ s₁, run step s acts = some s₁ ∧ run step s₁ acts' = some s' := by
  induction acts generalizing s with
  | nil => exact ⟨fun h => ⟨s, rfl, h⟩, fun ⟨_, h, h'⟩ => Option.some.inj h ▸ h'⟩
  | cons a acts ih =>
    simp only [List.cons_append, run_cons, ih]
    refine ⟨?_, ?_⟩
    · rintro ⟨s₁, hstep, s₂, hrun, hrun'⟩
      exact ⟨s₂, ⟨s₁, hstep, hrun⟩, hrun'⟩
    · rintro ⟨s₂, ⟨s₁, hstep, hrun⟩, hrun'⟩
      exact ⟨s₁, hstep, s₂, hrun, hrun'⟩

theorem run_map {B : Type} (g : B → A) (acts : List B) :
    run step s (acts.map g) = run (fun s b => step s (g b)) s acts := by
  induction acts generalizing s with
  | nil => rfl
  | cons b acts ih =>
    rw [List.map_cons, run, run]
    exact congrArg _ (funext fun s₁ => ih)

theorem run_eq_foldlM : run step s acts = acts.foldlM step s := by
  induction acts generalizing s with
  | nil => rfl
  | cons a acts ih =>
    rw [run, List.foldlM_cons]
    exact congrArg _ (funext fun s₁ => ih)

theorem AlongRun.cons (hP : P s a) (hstep : step s a = some s') (h : AlongRun step P s' acts) :
    AlongRun step P s (a :: acts) := by
  refine ⟨hP, fun s₁ hstep₁ => ?_⟩
  obtain rfl : s' = s₁ := Option.some.inj (hstep.symm.trans hstep₁)
  exact h

theorem alongRun_cons (hstep : step s a = some s') :
    AlongRun step P s (a :: acts) ↔ P s a ∧ AlongRun step P s' acts := by
  refine ⟨fun h => ⟨h.1, h.2 s' hstep⟩, ?_⟩
  rintro ⟨hP, h⟩
  exact h.cons hP hstep

/-- A condition on the actions alone. -/
theorem AlongRun.of_forall_mem {R : A → Prop} (h : ∀ a ∈ acts, R a) :
    AlongRun step (fun _ a => R a) s acts := by
  induction acts generalizing s with
  | nil => trivial
  | cons a acts ih =>
    obtain ⟨ha, hrest⟩ := List.forall_mem_cons.mp h
    exact ⟨ha, fun _ _ => ih hrest⟩

/-- What holds along a run holds along its end. -/
theorem AlongRun.of_append {acts' : List A} (h : AlongRun step P s (acts ++ acts'))
    (hrun : run step s acts = some s') : AlongRun step P s' acts' := by
  induction acts generalizing s with
  | nil =>
    obtain rfl := Option.some.inj hrun
    exact h
  | cons a acts ih =>
    obtain ⟨s₁, hstep, hrun₁⟩ := run_cons.mp hrun
    exact ih (h.2 s₁ hstep) hrun₁

theorem AlongRun.of_append_left {acts' : List A} (h : AlongRun step P s (acts ++ acts')) :
    AlongRun step P s acts := by
  induction acts generalizing s with
  | nil => trivial
  | cons a acts ih => exact ⟨h.1, fun s₁ hstep => ih (h.2 s₁ hstep)⟩

theorem AlongRun.append {acts' : List A} (h : AlongRun step P s acts)
    (hrun : run step s acts = some s') (h' : AlongRun step P s' acts') :
    AlongRun step P s (acts ++ acts') := by
  induction acts generalizing s with
  | nil =>
    obtain rfl := Option.some.inj hrun
    exact h'
  | cons a acts ih =>
    obtain ⟨s₁, hstep, hrun₁⟩ := run_cons.mp hrun
    exact (ih (h.2 s₁ hstep) hrun₁).cons h.1 hstep

theorem Preserves.after_run (h : Preserves step I P) (hs : I s) (hP : AlongRun step P s acts)
    (hrun : run step s acts = some s') : I s' := by
  induction acts generalizing s with
  | nil =>
    obtain rfl := Option.some.inj hrun
    exact hs
  | cons a acts ih =>
    obtain ⟨s₁, hstep, hrun₁⟩ := run_cons.mp hrun
    exact ih (h s a s₁ hs hP.1 hstep) (hP.2 s₁ hstep) hrun₁

theorem Preserves.everyState (h : Preserves step I P) (hQ : ∀ s, I s → Q s) (hs : I s)
    (hP : AlongRun step P s acts) : EveryState step Q s acts := by
  induction acts generalizing s with
  | nil => exact hQ s hs
  | cons a acts ih =>
    refine ⟨hQ s hs, fun s₁ hstep => ?_⟩
    exact ih (h s a s₁ hs hP.1 hstep) (hP.2 s₁ hstep)

/-- No step is refused if none is that meets `P`. -/
theorem Preserves.exists_run (h : Preserves step I P)
    (htotal : ∀ s a, I s → P s a → ∃ s', step s a = some s') (hs : I s)
    (hP : AlongRun step P s acts) : ∃ s', run step s acts = some s' := by
  induction acts generalizing s with
  | nil => exact ⟨s, rfl⟩
  | cons a acts ih =>
    obtain ⟨s₁, hstep⟩ := htotal s a hs hP.1
    obtain ⟨s', hrun⟩ := ih (h s a s₁ hs hP.1 hstep) (hP.2 s₁ hstep)
    exact ⟨s', run_cons.mpr ⟨s₁, hstep, hrun⟩⟩

/-- A run goes through where its steps use up at most `c` each of what there is. -/
theorem exists_run_of_budget {B : S → ℕ → Prop} {R : A → Prop} {c k : ℕ}
    (hstep : ∀ s a k, B s (k + c) → R a → ∃ s', step s a = some s' ∧ B s' k)
    (hR : ∀ a ∈ acts, R a) (hB : B s (k + c * acts.length)) :
    ∃ s', run step s acts = some s' ∧ B s' k := by
  induction acts generalizing s with
  | nil => exact ⟨s, rfl, hB⟩
  | cons a acts ih =>
    obtain ⟨ha, hrest⟩ := List.forall_mem_cons.mp hR
    rw [List.length_cons, Nat.mul_succ, ← Nat.add_assoc] at hB
    obtain ⟨s₁, hstep₁, hB₁⟩ := hstep s a _ hB ha
    obtain ⟨s', hrun, hB'⟩ := ih hrest hB₁
    exact ⟨s', run_cons.mpr ⟨s₁, hstep₁, hrun⟩, hB'⟩

theorem EveryState.of_forall (hQ : ∀ s, Q s) : EveryState step Q s acts := by
  induction acts generalizing s with
  | nil => exact hQ s
  | cons a acts ih => exact ⟨hQ s, fun _ _ => ih⟩

theorem EveryState.head (hQ : EveryState step Q s acts) : Q s := by
  cases acts with
  | nil => exact hQ
  | cons a acts => exact hQ.1

/-- Under an invariant that every step keeps, one property of the states gives another. -/
theorem EveryState.imp {Q' : S → Prop} (h : Preserves step I fun _ _ => True)
    (himp : ∀ s, I s → Q s → Q' s) (hs : I s) (hQ : EveryState step Q s acts) :
    EveryState step Q' s acts := by
  induction acts generalizing s with
  | nil => exact himp s hs hQ
  | cons a acts ih =>
    refine ⟨himp s hs hQ.1, fun s₁ hstep => ?_⟩
    exact ih (h s a s₁ hs trivial hstep) (hQ.2 s₁ hstep)

/-- Every step of a run through `Q` leads into `Q`. -/
theorem EveryState.next (hQ : EveryState step Q s acts) :
    AlongRun step (fun s a => ∀ s', step s a = some s' → Q s') s acts := by
  induction acts generalizing s with
  | nil => trivial
  | cons a acts ih => exact ⟨fun s₁ hstep => (hQ.2 s₁ hstep).head, fun s₁ hstep => ih (hQ.2 s₁ hstep)⟩

/-- Under the invariant one condition gives another, also for a step that is refused. -/
theorem Preserves.alongRun_of_inv (h : Preserves step I P) (hR : ∀ s a, I s → P s a → R s a)
    (hs : I s) (hP : AlongRun step P s acts) : AlongRun step R s acts := by
  induction acts generalizing s with
  | nil => trivial
  | cons a acts ih =>
    refine ⟨hR s a hs hP.1, fun s₁ hstep => ?_⟩
    exact ih (h s a s₁ hs hP.1 hstep) (hP.2 s₁ hstep)

/-- Under the invariant one condition gives another. -/
theorem Preserves.alongRun (h : Preserves step I P)
    (hR : ∀ s a s', I s → P s a → step s a = some s' → R s a) (hs : I s)
    (hP : AlongRun step P s acts) (hrun : run step s acts = some s') :
    AlongRun step R s acts := by
  induction acts generalizing s with
  | nil => trivial
  | cons a acts ih =>
    obtain ⟨s₁, hstep, hrun₁⟩ := run_cons.mp hrun
    have hs₁ := h s a s₁ hs hP.1 hstep
    exact (ih hs₁ (hP.2 s₁ hstep) hrun₁).cons (hR s a s₁ hs hP.1 hstep) hstep

theorem AlongRun.and (hP : AlongRun step P s acts) (hR : AlongRun step R s acts) :
    AlongRun step (fun s a => P s a ∧ R s a) s acts := by
  induction acts generalizing s with
  | nil => trivial
  | cons a acts ih =>
    exact ⟨⟨hP.1, hR.1⟩, fun s₁ hstep => ih (hP.2 s₁ hstep) (hR.2 s₁ hstep)⟩

/-- Where each step that breaks `P` leads to a state outside `Q`, a run through `Q` alone
meets `P`. -/
theorem Preserves.alongRun_of_everyState (h : Preserves step I fun s a => R s a ∧ P s a)
    (hP : ∀ s a s', I s → R s a → step s a = some s' → Q s' → P s a) (hs : I s)
    (hR : AlongRun step R s acts) (hrun : run step s acts = some s')
    (hQ : EveryState step Q s acts) : AlongRun step P s acts := by
  induction acts generalizing s with
  | nil => trivial
  | cons a acts ih =>
    obtain ⟨s₁, hstep, hrun₁⟩ := run_cons.mp hrun
    have hQ₁ := hQ.2 s₁ hstep
    have hPa := hP s a s₁ hs hR.1 hstep hQ₁.head
    have hs₁ := h s a s₁ hs ⟨hR.1, hPa⟩ hstep
    exact (ih hs₁ (hR.2 s₁ hstep) hrun₁ hQ₁).cons hPa hstep

end CxKernel.Runs
