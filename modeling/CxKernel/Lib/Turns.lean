import CxKernel.Lib.Runs

/-! Runs of a system with a queue that is added to at its end and taken from at its head. What is in
the queue is taken in its turn, neither earlier nor later. -/

namespace CxKernel.Runs

variable {S A T : Type} {step : S → A → Option S}

/-- How many steps of a run take from the queue. -/
def taken (step : S → A → Option S) (takes : S → A → Bool) : S → List A → ℕ
  | _, [] => 0
  | s, a :: acts =>
    (takes s a).toNat + match step s a with
      | none => 0
      | some s' => taken step takes s' acts

variable {takes : S → A → Bool} {queue : S → List T} {I : S → Prop} {P : S → A → Prop} {s s' : S}
  {a : A} {acts : List A} {t : T} {pre post : List T}

theorem taken_cons (hstep : step s a = some s') :
    taken step takes s (a :: acts) = (takes s a).toNat + taken step takes s' acts := by
  rw [taken, hstep]

/-- Under `I` a step that meets `P` takes the head of the queue, or adds at its end. -/
structure Fifo (step : S → A → Option S) (I : S → Prop) (P : S → A → Prop) (queue : S → List T)
    (takes : S → A → Bool) : Prop where
  head : ∀ s a s', I s → P s a → step s a = some s' → takes s a = true → queue s' = (queue s).tail
  tail : ∀ s a s', I s → P s a → step s a = some s' → takes s a = false →
    queue s <+: queue s'

/-- The step that takes `t` is the one after as many as were ahead of it. -/
theorem Fifo.turn (h : Fifo step I P queue takes) (hpres : Preserves step I P) (hs : I s)
    (hP : AlongRun step P s acts) (hrun : run step s acts = some s')
    (hq : queue s = pre ++ t :: post) (hmany : pre.length < taken step takes s acts) :
    ∃ before a after s₁ s₂, acts = before ++ a :: after ∧ run step s before = some s₁ ∧
      step s₁ a = some s₂ ∧ I s₁ ∧ P s₁ a ∧ takes s₁ a = true ∧ (queue s₁).head? = some t ∧
      taken step takes s before = pre.length := by
  induction acts generalizing s pre post with
  | nil => exact absurd hmany (Nat.not_lt_zero _)
  | cons a acts ih =>
    obtain ⟨s₁, hstep, hrun₁⟩ := run_cons.mp hrun
    obtain ⟨hPa, hrest⟩ := (alongRun_cons hstep).mp hP
    have hs₁ := hpres s a s₁ hs hPa hstep
    rw [taken_cons hstep] at hmany
    -- what comes after this step, put behind it
    have hlater : ∀ pre' post', queue s₁ = pre' ++ t :: post' →
        pre'.length < taken step takes s₁ acts → pre.length = (takes s a).toNat + pre'.length →
        ∃ before b after s₂ s₃, a :: acts = before ++ b :: after ∧ run step s before = some s₂ ∧
          step s₂ b = some s₃ ∧ I s₂ ∧ P s₂ b ∧ takes s₂ b = true ∧
          (queue s₂).head? = some t ∧ taken step takes s before = pre.length := by
      intro pre' post' hq' hmany' hlen
      obtain ⟨before, b, after, s₂, s₃, rfl, hbefore, hb, hI, hPb, htakes, hhead, hcount⟩ :=
        ih hs₁ hrest hrun₁ hq' hmany'
      refine ⟨a :: before, b, after, s₂, s₃, rfl, run_cons.mpr ⟨s₁, hstep, hbefore⟩, hb, hI, hPb,
        htakes, hhead, ?_⟩
      rw [taken_cons hstep, hcount, hlen]
    cases htakes : takes s a
    · rw [htakes, Bool.toNat_false, Nat.zero_add] at hmany
      obtain ⟨new, hnew⟩ := h.tail s a s₁ hs hPa hstep htakes
      refine hlater pre (post ++ new) ?_ hmany ?_
      · rw [← hnew, hq, List.append_assoc, List.cons_append]
      · rw [htakes, Bool.toNat_false, Nat.zero_add]
    · have hq' := h.head s a s₁ hs hPa hstep htakes
      cases pre with
      | nil =>
        refine ⟨[], a, acts, s, s₁, rfl, rfl, hstep, hs, hPa, htakes, ?_, rfl⟩
        rw [hq]
        rfl
      | cons x pre =>
        rw [htakes, Bool.toNat_true, List.length_cons] at hmany
        refine hlater pre post ?_ (by omega) ?_
        · rw [hq', hq]
          rfl
        · rw [htakes, Bool.toNat_true, List.length_cons, Nat.add_comm]

end CxKernel.Runs
