import CxKernel.Lib.Runs
import CxKernel.Spec.Spinlock
import Mathlib.Data.List.Basic

/-! Interrupts under a spinlock. `unlock` restores the flags before it gives the lock back,
so where these have interrupts on, the CPU holds the lock with interrupts on for a moment.
In all other places they are off. -/

namespace CxKernel.Spinlock

open Runs

variable {C L : Type} [DecidableEq C] [DecidableEq L] {s s' : System C L}
variable {c d : C} {a : Act C L}

/-- What each step does. -/
inductive Moves (s : System C L) : Act C L → System C L → Prop
  | save (c : C) (lock : L) (hphase : (s.cpu c).phase = .idle) :
    Moves s (.save c lock)
      (s.set c { s.cpu c with phase := .saved lock ((s.cpu c).flags.setWidth 32) })
  | disable (c : C) (lock : L) (st : BitVec 32) (hphase : (s.cpu c).phase = .saved lock st) :
    Moves s (.disable c)
      (s.set c { s.cpu c with flags := cli (s.cpu c).flags, phase := .disabled lock st })
  | acquire (c : C) (lock : L) (st : BitVec 32) (hphase : (s.cpu c).phase = .disabled lock st)
    (hfree : s.owner lock = none) :
    Moves s (.acquire c)
      { s.set c { s.cpu c with phase := .idle, held := (lock, st) :: (s.cpu c).held } with
        owner := Function.update s.owner lock (some c) }
  | restore (c : C) (lock : L) (st : BitVec 32) (held : List (L × BitVec 32))
    (hphase : (s.cpu c).phase = .idle) (hheld : (s.cpu c).held = (lock, st) :: held) :
    Moves s (.restore c)
      (s.set c { s.cpu c with flags := popfImage (st.setWidth 64), phase := .restored })
  | release (c : C) (lock : L) (st : BitVec 32) (held : List (L × BitVec 32))
    (hphase : (s.cpu c).phase = .restored) (hheld : (s.cpu c).held = (lock, st) :: held) :
    Moves s (.release c)
      { s.set c { s.cpu c with phase := .idle, held := held } with
        owner := Function.update s.owner lock none }

theorem moves_of_step (h : step s a = some s') : Moves s a s' := by
  cases a with
  | save c lock =>
    cases hphase : (s.cpu c).phase <;> simp only [step, hphase] at h
    · obtain rfl := Option.some.inj h
      exact .save c lock hphase
    all_goals cases h
  | disable c =>
    cases hphase : (s.cpu c).phase with
    | saved lock st =>
      simp only [step, hphase] at h
      obtain rfl := Option.some.inj h
      exact .disable c lock st hphase
    | _ => simp [step, hphase] at h
  | acquire c =>
    cases hphase : (s.cpu c).phase with
    | disabled lock st =>
      cases hfree : s.owner lock with
      | none =>
        simp only [step, hphase, hfree] at h
        obtain rfl := Option.some.inj h
        exact .acquire c lock st hphase hfree
      | some d => simp [step, hphase, hfree] at h
    | _ => simp [step, hphase] at h
  | restore c =>
    cases hphase : (s.cpu c).phase with
    | idle =>
      rcases hheld : (s.cpu c).held with _ | ⟨⟨lock, st⟩, held⟩
      · simp [step, hphase, hheld] at h
      · simp only [step, hphase, hheld] at h
        obtain rfl := Option.some.inj h
        simpa only [hheld] using Moves.restore c lock st held hphase hheld
    | _ => simp [step, hphase] at h
  | release c =>
    cases hphase : (s.cpu c).phase with
    | restored =>
      rcases hheld : (s.cpu c).held with _ | ⟨⟨lock, st⟩, held⟩
      · simp [step, hphase, hheld] at h
      · simp only [step, hphase, hheld] at h
        obtain rfl := Option.some.inj h
        exact .release c lock st held hphase hheld
    | _ => simp [step, hphase] at h

/-! Who holds what. -/

/-- The owner of a lock is the CPU that has still to unlock it. -/
structure Books (s : System C L) : Prop where
  owned : ∀ c x, x ∈ (s.cpu c).held → s.owner x.1 = some c
  listed : ∀ c lock, s.owner lock = some c → ∃ st, (lock, st) ∈ (s.cpu c).held
  once : ∀ c, ((s.cpu c).held.map Prod.fst).Nodup

/-- Interrupts are off from `cli` to the last unlock. -/
def Off (s : System C L) : Prop := ∀ c,
  ((s.cpu c).held ≠ [] ∨ ∃ lock st, (s.cpu c).phase = .disabled lock st) →
    interruptFlag (s.cpu c).flags = false

/-- A CPU that owns a lock has interrupts off. -/
def HeldOff (s : System C L) : Prop :=
  ∀ c lock, s.owner lock = some c → interruptFlag (s.cpu c).flags = false

/-- The flags that an `unlock` restores have interrupts off. -/
def RestoresOff (s : System C L) : Act C L → Prop
  | .restore c => (s.cpu c).phase = .idle → ∀ lock st held, (s.cpu c).held = (lock, st) :: held →
    interruptFlag (st.setWidth 64) = false
  | _ => True

omit [DecidableEq L] in
@[simp] theorem set_self (s : System C L) (c : C) (cpu : Cpu L) : (s.set c cpu).cpu c = cpu :=
  Function.update_self _ _ _

omit [DecidableEq L] in
theorem set_of_ne (s : System C L) (cpu : Cpu L) (h : d ≠ c) : (s.set c cpu).cpu d = s.cpu d :=
  Function.update_of_ne h _ _

omit [DecidableEq L] in
/-- Steps that take and give back nothing. -/
theorem Books.set (hb : Books s) {cpu : Cpu L} (hheld : cpu.held = (s.cpu c).held) :
    Books (s.set c cpu) := by
  have hsame : ∀ d, ((s.set c cpu).cpu d).held = (s.cpu d).held := by
    intro d
    by_cases hdc : d = c
    · subst hdc
      rw [set_self, hheld]
    · rw [set_of_ne s cpu hdc]
  refine ⟨fun d x hx => ?_, fun d lock hd => ?_, fun d => ?_⟩
  · rw [hsame] at hx
    exact hb.owned d x hx
  · rw [hsame]
    exact hb.listed d lock hd
  · rw [hsame]
    exact hb.once d

theorem Books.acquire (hb : Books s) {lock : L} {st : BitVec 32} {cpu : Cpu L}
    (hfree : s.owner lock = none) (hheld : cpu.held = (lock, st) :: (s.cpu c).held) :
    Books { s.set c cpu with owner := Function.update s.owner lock (some c) } := by
  have hother : ∀ d x, x ∈ (s.cpu d).held → x.1 ≠ lock := by
    rintro d x hx rfl
    rw [hb.owned d x hx] at hfree
    cases hfree
  refine ⟨fun d x hx => ?_, fun d l hl => ?_, fun d => ?_⟩
  · dsimp only at hx ⊢
    by_cases hdc : d = c
    · subst hdc
      rw [set_self, hheld] at hx
      rcases List.mem_cons.mp hx with rfl | hx
      · exact Function.update_self _ _ _
      · rw [Function.update_of_ne (hother d x hx)]
        exact hb.owned d x hx
    · rw [set_of_ne s cpu hdc] at hx
      rw [Function.update_of_ne (hother d x hx)]
      exact hb.owned d x hx
  · dsimp only at hl ⊢
    by_cases hll : l = lock
    · subst hll
      rw [Function.update_self] at hl
      obtain rfl := Option.some.inj hl
      exact ⟨st, by rw [set_self, hheld]; exact List.mem_cons_self⟩
    · rw [Function.update_of_ne hll] at hl
      obtain ⟨st', hst⟩ := hb.listed d l hl
      refine ⟨st', ?_⟩
      by_cases hdc : d = c
      · subst hdc
        rw [set_self, hheld]
        exact List.mem_cons_of_mem _ hst
      · rwa [set_of_ne s cpu hdc]
  · dsimp only
    by_cases hdc : d = c
    · subst hdc
      rw [set_self, hheld, List.map_cons, List.nodup_cons]
      refine ⟨fun hm => ?_, hb.once d⟩
      obtain ⟨x, hx, heq⟩ := List.mem_map.mp hm
      exact hother d x hx heq
    · rw [set_of_ne s cpu hdc]
      exact hb.once d

theorem Books.release (hb : Books s) {lock : L} {st : BitVec 32} {cpu : Cpu L}
    (hheld : (s.cpu c).held = (lock, st) :: cpu.held) :
    Books { s.set c cpu with owner := Function.update s.owner lock none } := by
  have howner : s.owner lock = some c :=
    hb.owned c (lock, st) (hheld ▸ List.mem_cons_self)
  have hnd := hb.once c
  rw [hheld, List.map_cons, List.nodup_cons] at hnd
  refine ⟨fun d x hx => ?_, fun d l hl => ?_, fun d => ?_⟩
  · dsimp only at hx ⊢
    by_cases hdc : d = c
    · subst hdc
      rw [set_self] at hx
      have hne : x.1 ≠ lock := by
        rintro rfl
        exact hnd.1 (List.mem_map.mpr ⟨x, hx, rfl⟩)
      rw [Function.update_of_ne hne]
      exact hb.owned d x (hheld ▸ List.mem_cons_of_mem _ hx)
    · rw [set_of_ne s cpu hdc] at hx
      have hx' := hb.owned d x hx
      have hne : x.1 ≠ lock := by
        rintro rfl
        exact hdc (Option.some.inj (hx'.symm.trans howner))
      rw [Function.update_of_ne hne]
      exact hx'
  · dsimp only at hl ⊢
    by_cases hll : l = lock
    · rw [hll, Function.update_self] at hl
      cases hl
    · rw [Function.update_of_ne hll] at hl
      obtain ⟨st', hst⟩ := hb.listed d l hl
      refine ⟨st', ?_⟩
      by_cases hdc : d = c
      · subst hdc
        rw [hheld] at hst
        rw [set_self]
        refine (List.mem_cons.mp hst).resolve_left fun heq => hll ?_
        exact congrArg Prod.fst heq
      · rwa [set_of_ne s cpu hdc]
  · dsimp only
    by_cases hdc : d = c
    · subst hdc
      rw [set_self]
      exact hnd.2
    · rw [set_of_ne s cpu hdc]
      exact hb.once d

theorem Books.step (hb : Books s) (h : step s a = some s') : Books s' := by
  cases moves_of_step h with
  | save c lock hphase => exact hb.set rfl
  | disable c lock st hphase => exact hb.set rfl
  | acquire c lock st hphase hfree => exact hb.acquire hfree rfl
  | restore c lock st held hphase hheld => exact hb.set rfl
  | release c lock st held hphase hheld => exact hb.release hheld

/-! Interrupts. -/

omit [DecidableEq L] in
/-- A step on one CPU leaves the others as they are. -/
theorem Off.set (ho : Off s) {cpu : Cpu L} {owner : L → Option C}
    (hcpu : (cpu.held ≠ [] ∨ ∃ lock st, cpu.phase = .disabled lock st) →
      interruptFlag cpu.flags = false) : Off { s.set c cpu with owner := owner } := by
  intro d hd
  dsimp only at hd ⊢
  by_cases hdc : d = c
  · subst hdc
    rw [set_self] at hd ⊢
    exact hcpu hd
  · rw [set_of_ne s cpu hdc] at hd ⊢
    exact ho d hd

theorem Off.step (ho : Off s) (hP : RestoresOff s a) (h : step s a = some s') : Off s' := by
  cases moves_of_step h with
  | save c lock hphase =>
    refine ho.set fun hd => ho c (hd.imp_right ?_)
    rintro ⟨l, st, heq⟩
    cases heq
  | disable c lock st hphase => exact ho.set fun _ => interruptFlag_cli _
  | acquire c lock st hphase hfree => exact ho.set fun _ => ho c (Or.inr ⟨lock, st, hphase⟩)
  | restore c lock st held hphase hheld =>
    refine ho.set fun _ => ?_
    rw [interruptFlag_popfImage]
    exact hP hphase lock st held hheld
  | release c lock st held hphase hheld =>
    refine ho.set fun _ => ho c (Or.inl ?_)
    rw [hheld]
    exact List.cons_ne_nil _ _

omit [DecidableEq C] [DecidableEq L] in
theorem heldOff (hb : Books s) (ho : Off s) : HeldOff s := by
  intro c lock hc
  obtain ⟨st, hst⟩ := hb.listed c lock hc
  exact ho c (Or.inl (List.ne_nil_of_mem hst))

/-- A CPU still owns the lock when the flags are restored. -/
theorem restoresOff_of_heldOff (hb : Books s) (h : step s a = some s') (hoff : HeldOff s') :
    RestoresOff s a := by
  cases moves_of_step h with
  | restore c lock st held hphase hheld =>
    intro _ l st' held' hheld'
    obtain ⟨hx, -⟩ := List.cons.inj (hheld.symm.trans hheld')
    obtain ⟨rfl, rfl⟩ := Prod.mk.inj hx
    have hc := hoff c lock (hb.owned c (lock, st) (hheld ▸ List.mem_cons_self))
    rw [set_self, interruptFlag_popfImage] at hc
    exact hc
  | _ => trivial

/-- No CPU is in a lock, with interrupts on or off. -/
structure Start (s : System C L) : Prop where
  phase : ∀ c, (s.cpu c).phase = .idle
  held : ∀ c, (s.cpu c).held = []
  owner : ∀ lock, s.owner lock = none

omit [DecidableEq C] [DecidableEq L] in
theorem Start.books (hs : Start s) : Books s := by
  refine ⟨fun c x hx => ?_, fun c lock hc => ?_, fun c => ?_⟩
  · rw [hs.held] at hx
    exact absurd hx List.not_mem_nil
  · rw [hs.owner] at hc
    cases hc
  · rw [hs.held]
    exact List.nodup_nil

omit [DecidableEq C] [DecidableEq L] in
theorem Start.off (hs : Start s) : Off s := by
  intro c hc
  rw [hs.held, hs.phase] at hc
  rcases hc with hne | ⟨lock, st, heq⟩
  · exact absurd rfl hne
  · cases heq

theorem preserves_off : Preserves (step (C := C) (L := L)) (fun s => Books s ∧ Off s)
    fun s a => True ∧ RestoresOff s a :=
  fun _ _ _ hs hP h => ⟨hs.1.step h, hs.2.step hP.2 h⟩

/-- A held lock keeps interrupts off in a run exactly if no `unlock` restores flags with
interrupts on. -/
theorem held_lock_keeps_interrupts_off_iff (hs : Start s) {acts : List (Act C L)}
    (hrun : run step s acts = some s') :
    EveryState step HeldOff s acts ↔ AlongRun step RestoresOff s acts := by
  refine ⟨fun hoff => ?_, fun hP => ?_⟩
  · exact preserves_off.alongRun_of_everyState
      (fun s a s' hs _ h hoff => restoresOff_of_heldOff hs.1 h hoff) ⟨hs.books, hs.off⟩
      (AlongRun.of_forall_mem fun _ _ => trivial) hrun hoff
  · exact preserves_off.everyState (fun s hs => heldOff hs.1 hs.2) ⟨hs.books, hs.off⟩
      ((AlongRun.of_forall_mem fun _ _ => trivial).and hP)

/-! One CPU takes one lock and gives it back. -/

def oneCpu (flags : BitVec 64) : System Unit Unit := ⟨fun _ => ⟨flags, .idle, []⟩, fun _ => none⟩

theorem start_oneCpu (flags : BitVec 64) : Start (oneCpu flags) :=
  ⟨fun _ => rfl, fun _ => rfl, fun _ => rfl⟩

def lockUnlock : List (Act Unit Unit) :=
  [.save () (), .disable (), .acquire (), .restore (), .release ()]

theorem held_lock_keeps_interrupts_off_iff_one :
    EveryState step HeldOff (oneCpu 2) lockUnlock ↔ AlongRun step RestoresOff (oneCpu 2) lockUnlock :=
  held_lock_keeps_interrupts_off_iff (start_oneCpu 2) rfl

/-- Taken with interrupts on, the lock is held with interrupts on after the restore. -/
theorem restored_while_held : ∃ s, run step (oneCpu 0x202) (lockUnlock.take 4) = some s ∧
    s.owner () = some () ∧ interruptFlag (s.cpu ()).flags = true ∧
    ¬ EveryState step HeldOff (oneCpu 0x202) lockUnlock := by
  refine ⟨_, rfl, rfl, rfl, fun hoff => ?_⟩
  have hlast := (((hoff.2 _ rfl).2 _ rfl).2 _ rfl).2 _ rfl
  exact absurd (hlast.1 () () rfl) (by decide)

end CxKernel.Spinlock
