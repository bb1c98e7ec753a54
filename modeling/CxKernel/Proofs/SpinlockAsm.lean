import CxKernel.Lib.Runs
import CxKernel.Spec.SpinlockAsm

/-! What `spin_lock` locks. Its operand is the value of a lock that is zero, so every call
sets the same bit, at address 0; no lock's own word is ever other than zero, and the bit at
address 0 is never cleared. -/

namespace CxKernel.SpinlockAsm

open ByteMem Runs

variable {C L : Type} {addr : L → BitVec 64}

/-- The call under way, from its first `bts` on. -/
def Phase.call? : Phase L → Option (Call L)
  | .idle => none
  | .entry _ => none
  | .bts call => some call
  | .jnc call _ => some call
  | .pause call => some call
  | .testl call => some call
  | .jne call _ => some call
  | .btsAgain call => some call
  | .jc call _ => some call
  | .done call => some call

/-- All locks are zero, and so are the operands made from them. -/
structure Zeroed (addr : L → BitVec 64) (s : System C L) : Prop where
  words : ∀ lock, ∀ k < 4, s.mem (addr lock + .ofNat 64 k) = 0
  regs : ∀ c call, (s.phase c).call? = some call → call.reg = 0

/-- Locks are aligned objects, and none is at address 0. -/
def Sited (addr : L → BitVec 64) : Prop := ∀ lock, addr lock ≠ 0 ∧ (addr lock).toNat % 4 = 0

theorem Zeroed.word {s : System C L} (hz : Zeroed addr s) (lock : L) :
    load 32 s.mem (addr lock) = 0 :=
  load_eq_zero fun k hk => hz.words lock k (by omega)

variable [DecidableEq C] [DecidableEq L] {s s' : System C L} {c : C} {a : Act C L}

/-- What an instruction does: it loads the operand, locks the word at it, only moves on in
the call, or ends it. -/
inductive Executes (addr : L → BitVec 64) (s : System C L) (c : C) : System C L → Prop
  | load (lock : L) : Executes addr s c
      (s.goto c (.bts ⟨lock, (load 32 s.mem (addr lock)).setWidth 64, []⟩))
  | lock (call : Call L) (phase : Phase L) (hcall : (s.phase c).call? = some call)
      (hphase : phase.call? = some (s.lockBts call).2.1) :
      Executes addr s c ((s.lockBts call).2.2.goto c phase)
  | move (call : Call L) (phase : Phase L) (hcall : (s.phase c).call? = some call)
      (hphase : phase.call? = some call) : Executes addr s c (s.goto c phase)
  | finish (call : Call L) (hcall : (s.phase c).call? = some call) :
      Executes addr s c (s.finish c call)

omit [DecidableEq L] in
theorem executes_of_exec (h : exec addr s c = some s') : Executes addr s c s' := by
  unfold SpinlockAsm.exec at h
  have hjump : ∀ (call : Call L) (cf : Bool), (s.phase c).call? = some call →
      Executes addr s c (if cf then s.goto c (.pause call) else s.finish c call) := by
    intro call cf hcall
    split_ifs
    · exact .move call _ hcall rfl
    · exact .finish call hcall
  cases hphase : s.phase c with
  | idle => simp [hphase] at h
  | done call => simp [hphase] at h
  | entry lock =>
    simp only [hphase, Option.some.injEq] at h
    exact h ▸ .load lock
  | bts call =>
    simp only [hphase, Option.some.injEq] at h
    exact h ▸ .lock call _ (by rw [hphase]; rfl) rfl
  | btsAgain call =>
    simp only [hphase, Option.some.injEq] at h
    exact h ▸ .lock call _ (by rw [hphase]; rfl) rfl
  | jnc call cf =>
    simp only [hphase, Option.some.injEq] at h
    exact h ▸ hjump call cf (by rw [hphase]; rfl)
  | jc call cf =>
    simp only [hphase, Option.some.injEq] at h
    exact h ▸ hjump call cf (by rw [hphase]; rfl)
  | pause call =>
    simp only [hphase, Option.some.injEq] at h
    exact h ▸ .move call _ (by rw [hphase]; rfl) rfl
  | testl call =>
    simp only [hphase, Option.some.injEq] at h
    exact h ▸ .move call _ (by rw [hphase]; rfl) rfl
  | jne call zf =>
    simp only [hphase, Option.some.injEq] at h
    refine h ▸ .move call _ (by rw [hphase]; rfl) ?_
    split_ifs <;> rfl

/-! The ends of a call, and the unlock. -/

theorem call_eq {lock : L} (h : step addr s (.call c lock) = some s') :
    s' = s.goto c (.entry lock) := by
  cases hphase : s.phase c <;> simp only [step, hphase] at h
  · exact (Option.some.inj h).symm
  all_goals cases h

theorem ret_eq (h : step addr s (.ret c) = some s') : s' = s.goto c .idle := by
  cases hphase : s.phase c <;> simp only [step, hphase] at h
  case done => exact (Option.some.inj h).symm
  all_goals cases h

theorem unlock_eq {lock : L} (h : step addr s (.unlock c lock) = some s') :
    (c, lock) ∈ s.holds ∧ s' =
      { s with
        mem := store s.mem (addr lock) (0 : BitVec 32)
        holds := s.holds.erase (c, lock)
        released := lock :: s.released } := by
  cases hphase : s.phase c <;> simp only [step, hphase] at h
  · split_ifs at h with hheld
    exact ⟨hheld, (Option.some.inj h).symm⟩
  all_goals cases h

omit [DecidableEq L] in
theorem Zeroed.goto (hz : Zeroed addr s) {phase : Phase L}
    (hphase : ∀ call, phase.call? = some call → call.reg = 0) : Zeroed addr (s.goto c phase) := by
  refine ⟨hz.words, fun d call hd => ?_⟩
  by_cases hdc : d = c
  · subst hdc
    have hself : (s.goto d phase).phase d = phase := Function.update_self _ _ _
    rw [hself] at hd
    exact hphase call hd
  · have hother : (s.goto c phase).phase d = s.phase d := Function.update_of_ne hdc _ _
    rw [hother] at hd
    exact hz.regs d call hd

omit [DecidableEq L] in
theorem Zeroed.goto_of_call (hz : Zeroed addr s) {phase : Phase L} {call : Call L}
    (hcall : (s.phase c).call? = some call) (hphase : phase.call? = some call) :
    Zeroed addr (s.goto c phase) := by
  refine hz.goto fun call' hcall' => ?_
  obtain rfl := Option.some.inj (hphase.symm.trans hcall')
  exact hz.regs c call hcall

omit [DecidableEq C] [DecidableEq L] in
/-- The dword at address 0 is no part of a lock. -/
theorem Zeroed.lockBts (hsite : Sited addr) (hz : Zeroed addr s) {call : Call L}
    (hcall : call.reg = 0) : Zeroed addr (s.lockBts call).2.2 := by
  refine ⟨fun lock k hk => ?_, hz.regs⟩
  obtain ⟨hnull, halign⟩ := hsite lock
  change store s.mem call.reg _ (addr lock + .ofNat 64 k) = 0
  rw [hcall, store_of_not]
  · exact hz.words lock k hk
  · bv_omega

omit [DecidableEq L] in
theorem Zeroed.finish (hz : Zeroed addr s) {call : Call L}
    (hcall : (s.phase c).call? = some call) : Zeroed addr (s.finish c call) := by
  have hgoto : Zeroed addr (s.goto c (.done call)) := hz.goto_of_call hcall rfl
  exact ⟨hgoto.words, hgoto.regs⟩

omit [DecidableEq L] in
theorem Zeroed.exec (hsite : Sited addr) (hz : Zeroed addr s) (h : exec addr s c = some s') :
    Zeroed addr s' := by
  cases executes_of_exec h with
  | load lock =>
    refine hz.goto fun call hcall => ?_
    obtain rfl := Option.some.inj hcall
    dsimp only
    rw [hz.word lock]
    rfl
  | lock call phase hcall hphase =>
    have hreg := hz.regs c call hcall
    refine (hz.lockBts hsite hreg).goto fun call' hcall' => ?_
    obtain rfl := Option.some.inj (hphase.symm.trans hcall')
    exact hreg
  | move call phase hcall hphase => exact hz.goto_of_call hcall hphase
  | finish call hcall => exact hz.finish hcall

theorem Zeroed.step (hsite : Sited addr) (hz : Zeroed addr s) (h : step addr s a = some s') :
    Zeroed addr s' := by
  cases a with
  | exec c => exact hz.exec hsite h
  | call c lock =>
    rw [call_eq h]
    exact hz.goto fun _ hcall => nomatch hcall
  | ret c =>
    rw [ret_eq h]
    exact hz.goto fun _ hcall => nomatch hcall
  | unlock c lock =>
    rw [(unlock_eq h).2]
    exact ⟨fun l k hk => store_zero (hz.words l k hk), hz.regs⟩

/-! What a spinlock is for. -/

/-- A call that is through has set the bit of its lock and written nothing else, a lock has
one holder, and a lock that was released and is free is taken by a call that runs alone. -/
structure Excludes (addr : L → BitVec 64) (s : System C L) : Prop where
  taken : ∀ c call, s.phase c = .done call →
    (load 32 s.mem (addr call.lock)).getLsbD 0 = true ∧ addr call.lock ∈ call.wrote ∧
      ∀ a ∈ call.wrote, a = addr call.lock
  alone : ∀ lock c d, (c, lock) ∈ s.holds → (d, lock) ∈ s.holds → c = d
  again : ∀ lock ∈ s.released, (∀ c, (c, lock) ∉ s.holds) → ∀ c, s.phase c = .idle →
    ∃ n s', run (step addr) s (.call c lock :: List.replicate n (.exec c)) = some s' ∧
      (c, lock) ∈ s'.holds

/-- No call of `spin_lock` is at its end. -/
def NoneDone (s : System C L) : Prop := ∀ c call, s.phase c ≠ .done call

/-- All locks as they are made, and no CPU in a call. -/
structure Start (addr : L → BitVec 64) (s : System C L) : Prop where
  words : ∀ lock, ∀ k < 4, s.mem (addr lock + .ofNat 64 k) = 0
  phase : ∀ c, s.phase c = .idle
  holds : s.holds = []
  released : s.released = []

omit [DecidableEq C] [DecidableEq L] in
theorem Start.zeroed (hs : Start addr s) : Zeroed addr s := by
  refine ⟨hs.words, fun c call hcall => ?_⟩
  rw [hs.phase] at hcall
  cases hcall

/-- The bit of the lock is clear at the end of its call. -/
theorem Zeroed.noneDone (hz : Zeroed addr s) (h : Excludes addr s) : NoneDone s := by
  intro c call hdone
  have hbit := (h.taken c call hdone).1
  rw [hz.word] at hbit
  cases hbit

/-- Nothing is held, and nothing was released. -/
def Untaken (s : System C L) : Prop := s.holds = [] ∧ s.released = []

theorem excludes_of_untaken (hu : Untaken s) (h : NoneDone s) : Excludes addr s := by
  refine ⟨fun c call hdone => absurd hdone (h c call), fun lock c d hc => ?_, fun lock hl => ?_⟩
  · rw [hu.1] at hc
    exact absurd hc List.not_mem_nil
  · rw [hu.2] at hl
    exact absurd hl List.not_mem_nil

omit [DecidableEq L] in
/-- An instruction takes no lock, or it ends a call. -/
theorem exec_untaken (hu : Untaken s) (h : exec addr s c = some s') :
    Untaken s' ∨ ∃ call, s'.phase c = .done call := by
  cases executes_of_exec h with
  | load lock => exact Or.inl hu
  | lock call phase hcall hphase => exact Or.inl hu
  | move call phase hcall hphase => exact Or.inl hu
  | finish call hcall => exact Or.inr ⟨call, Function.update_self _ _ _⟩

theorem Untaken.step (hu : Untaken s) (h : step addr s a = some s') (hnone : NoneDone s') :
    Untaken s' := by
  cases a with
  | exec c =>
    rcases exec_untaken hu h with hu' | ⟨call, hdone⟩
    · exact hu'
    · exact absurd hdone (hnone c call)
  | call c lock => exact call_eq h ▸ hu
  | ret c => exact ret_eq h ▸ hu
  | unlock c lock =>
    have hheld := (unlock_eq h).1
    rw [hu.1] at hheld
    exact absurd hheld List.not_mem_nil

/-- The locks exclude in a run exactly as long as no call gets through. -/
theorem spinlocks_exclude_iff (hsite : Sited addr) (hs : Start addr s) (acts : List (Act C L)) :
    EveryState (step addr) (Excludes addr) s acts ↔ EveryState (step addr) NoneDone s acts := by
  have hzeroed : Preserves (step addr) (Zeroed addr (C := C)) fun _ _ => True :=
    fun _ _ _ hz _ h => hz.step hsite h
  have huntaken : Preserves (step addr) (fun s : System C L => Untaken s ∧ NoneDone s)
      fun s a => ∀ s', step addr s a = some s' → NoneDone s' :=
    fun _ _ s' hu hP h => ⟨hu.1.step h (hP s' h), hP s' h⟩
  refine ⟨fun h => h.imp hzeroed (fun s hz => hz.noneDone) hs.zeroed, fun h => ?_⟩
  exact huntaken.everyState (fun s hu => excludes_of_untaken hu.1 hu.2)
    ⟨⟨hs.holds, hs.released⟩, h.head⟩ h.next

/-! One CPU and one lock. -/

def oneLock : System Unit Unit := ⟨fun _ => 0, fun _ => .idle, [], []⟩

def lockSite (_ : Unit) : BitVec 64 := 0x1000

def lockOnce : List (Act Unit Unit) := [.call () (), .exec (), .exec (), .exec ()]

theorem sited_lockSite : Sited lockSite := fun () => ⟨by decide, by decide⟩

theorem start_oneLock : Start lockSite oneLock := ⟨fun _ _ _ => rfl, fun _ => rfl, rfl, rfl⟩

theorem spinlocks_exclude_iff_one :
    EveryState (step lockSite) (Excludes lockSite) oneLock lockOnce ↔
      EveryState (step lockSite) NoneDone oneLock lockOnce :=
  spinlocks_exclude_iff sited_lockSite start_oneLock lockOnce

/-- The call is through, its lock is untouched, and the bit it set is at address 0. -/
theorem spin_lock_sets_address_zero : ∃ s, run (step lockSite) oneLock lockOnce = some s ∧
    s.phase () = .done ⟨(), 0, [0]⟩ ∧ load 32 s.mem 0x1000 = 0 ∧ load 32 s.mem 0 = 1 ∧
    ¬ EveryState (step lockSite) (Excludes lockSite) oneLock lockOnce := by
  refine ⟨_, rfl, rfl, rfl, rfl, fun h => ?_⟩
  have hlast := (((h.2 _ rfl).2 _ rfl).2 _ rfl).2 _ rfl
  obtain ⟨hbit, -⟩ := hlast.taken () ⟨(), 0, [0]⟩ rfl
  exact absurd hbit (by decide)

end CxKernel.SpinlockAsm
