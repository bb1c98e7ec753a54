import CxKernel.Spec.Interrupt
import Mathlib.Tactic.SplitIfs

/-! Interrupts. The registers come back, the frame is right for all vectors but three, and `iret`
takes both halves of the instruction pointer for two registers. -/

namespace CxKernel.Interrupt

open ByteMem

variable {m : Bytes} {a top error : BitVec 64} {v : BitVec 8} {p : Interrupted} {h : Handler}
  {allowed : Context → Bool} {c : Context}

/-- The frame for an interrupt. -/
def frameOf (v : BitVec 8) (error : BitVec 64) (p : Interrupted) : IntFrame where
  regs := p.regs
  vector := v.setWidth 64
  errCode := if pushesError v then error else 0
  rip := p.context.rip
  cs := p.context.cs.setWidth 64
  flags := p.context.flags
  userSp := p.context.rsp
  userSs := p.context.ss.setWidth 64

/-- `isr_handler` gets the frame for the interrupt. -/
def FrameExact (m : Bytes) (top : BitVec 64) (v : BitVec 8) (error : BitVec 64) (p : Interrupted) :
    Prop :=
  readFrame (enter m top v error p).1 (enter m top v error p).2 = frameOf v error p

/-- What comes back once the handler has returned. -/
def resumed (allowed : Context → Bool) (h : Handler) (m : Bytes) (top : BitVec 64) (v : BitVec 8)
    (error : BitVec 64) (p : Interrupted) : Regs × Option Context :=
  let (m, rsp) := enter m top v error p
  exit allowed (h.run rsp m) rsp

/-- The handler gets the right frame, and the program goes on as it was. -/
def Transparent (allowed : Context → Bool) (h : Handler) (m : Bytes) (top : BitVec 64)
    (v : BitVec 8) (error : BitVec 64) (p : Interrupted) : Prop :=
  FrameExact m top v error p ∧ resumed allowed h m top v error p = (p.regs, some p.context)

/-- The words on the stack, from its lower end up. -/
def pushed (v : BitVec 8) (error : BitVec 64) (p : Interrupted) : List (BitVec 64) :=
  (cpuPushes v error p.context ++ isrPushes v ++ stubPushes p.regs).reverse

theorem pushed_eq : pushed v error p = (stubPushes p.regs).reverse ++ ((isrPushes v).reverse ++
    ((if pushesError v then [error] else []) ++ [p.context.rip, p.context.cs.setWidth 64,
      p.context.flags, p.context.rsp, p.context.ss.setWidth 64])) := by
  rw [pushed, cpuPushes, List.reverse_append, List.reverse_append, List.reverse_append]
  congr 3
  split_ifs <;> rfl

theorem length_pushed_le (v : BitVec 8) (error : BitVec 64) (p : Interrupted) :
    (pushed v error p).length ≤ 23 := by
  have hisr : (isrPushes v).length ≤ 2 := by
    unfold isrPushes
    split_ifs
    · exact Nat.le_succ 1
    · exact Nat.le_refl 2
  have herror : (if pushesError v then [error] else []).length ≤ 1 := by
    split_ifs
    · exact Nat.le_refl 1
    · exact Nat.zero_le 1
  rw [pushed_eq, List.length_append, List.length_append, List.length_append, List.length_reverse,
    List.length_reverse]
  change 15 + (_ + (_ + 5)) ≤ 23
  omega

theorem load_pushed (m : Bytes) (top : BitVec 64) {k : ℕ} (hk : k < (pushed v error p).length) :
    load 64 (enter m top v error p).1 ((enter m top v error p).2 + .ofNat 64 (8 * k)) =
      (pushed v error p)[k] := by
  have hle := length_pushed_le v error p
  unfold pushed at hk hle ⊢
  unfold enter
  generalize cpuPushes v error p.context ++ isrPushes v ++ stubPushes p.regs = ws at hk hle ⊢
  rw [List.length_reverse] at hk hle
  have haddr : (pushAll m top ws).2 + .ofNat 64 (8 * k) =
      top - .ofNat 64 (8 * (ws.length - 1 - k + 1)) := by
    rw [pushAll_sp]
    bv_omega
  rw [haddr, load_pushAll (by omega) (by omega), List.getElem_reverse]

/-- The words behind the registers. -/
theorem load_behind {ws : List (BitVec 64)} (hws : (isrPushes v).reverse ++
    ((if pushesError v then [error] else []) ++ [p.context.rip, p.context.cs.setWidth 64,
      p.context.flags, p.context.rsp, p.context.ss.setWidth 64]) = ws) {k : ℕ} (hk : k < ws.length) :
    load 64 (enter m top v error p).1 ((enter m top v error p).2 + .ofNat 64 (8 * (k + 15))) =
      ws[k] := by
  subst hws
  have hlen : k + 15 < (pushed v error p).length := by
    rw [pushed_eq, List.length_append, Nat.add_comm]
    exact Nat.add_lt_add_left hk 15
  rw [load_pushed m top hlen]
  simp only [pushed_eq]
  exact (List.getElem_append_right' (stubPushes p.regs).reverse hk).symm

/-- The registers are where the frame has them. -/
theorem readRegs_enter : readRegs (enter m top v error p).1 (enter m top v error p).2 = p.regs := by
  have hreg : ∀ k (hk : k < (stubPushes p.regs).reverse.length),
      load 64 (enter m top v error p).1 ((enter m top v error p).2 + .ofNat 64 (8 * k)) =
        (stubPushes p.regs).reverse[k] := by
    intro k hk
    have hlen : k < (pushed v error p).length := by
      rw [pushed_eq, List.length_append]
      exact Nat.lt_add_right _ hk
    rw [load_pushed m top hlen]
    simp only [pushed_eq]
    exact List.getElem_append_left hk
  have hlen : (stubPushes p.regs).reverse.length = 15 := rfl
  have hfirst := hreg 0 (by omega)
  rw [BitVec.add_zero] at hfirst
  apply Regs.ext
  · exact hfirst
  · exact hreg 1 (by omega)
  · exact hreg 2 (by omega)
  · exact hreg 3 (by omega)
  · exact hreg 4 (by omega)
  · exact hreg 5 (by omega)
  · exact hreg 6 (by omega)
  · exact hreg 7 (by omega)
  · exact hreg 8 (by omega)
  · exact hreg 9 (by omega)
  · exact hreg 10 (by omega)
  · exact hreg 11 (by omega)
  · exact hreg 12 (by omega)
  · exact hreg 13 (by omega)
  · exact hreg 14 (by omega)

/-! The frame. -/

section Frame

variable {w₀ w₁ w₂ w₃ w₄ w₅ w₆ : BitVec 64} {ws : List (BitVec 64)}

/-- The words behind the registers, as fields of the frame. -/
theorem readFrame_eq (hws : (isrPushes v).reverse ++
    ((if pushesError v then [error] else []) ++ [p.context.rip, p.context.cs.setWidth 64,
      p.context.flags, p.context.rsp, p.context.ss.setWidth 64]) =
        w₀ :: w₁ :: w₂ :: w₃ :: w₄ :: w₅ :: w₆ :: ws) :
    readFrame (enter m top v error p).1 (enter m top v error p).2 =
      ⟨p.regs, w₀, w₁, w₂, w₃, w₄, w₅, w₆⟩ := by
  have hlen : 7 ≤ (w₀ :: w₁ :: w₂ :: w₃ :: w₄ :: w₅ :: w₆ :: ws).length := Nat.le_add_left 7 _
  apply IntFrame.ext
  · exact readRegs_enter
  · exact load_behind hws (k := 0) (by omega)
  · exact load_behind hws (k := 1) (by omega)
  · exact load_behind hws (k := 2) (by omega)
  · exact load_behind hws (k := 3) (by omega)
  · exact load_behind hws (k := 4) (by omega)
  · exact load_behind hws (k := 5) (by omega)
  · exact load_behind hws (k := 6) (by omega)

end Frame

/-- The instruction pointer is not the code segment's null selector. -/
theorem code_ne_zero (p : Interrupted) : p.context.cs.setWidth 64 ≠ 0 := by
  intro hzero
  have hcode := p.code
  have hcs : p.context.cs = 0 := by
    apply BitVec.eq_of_toNat_eq
    have hnat := congrArg BitVec.toNat hzero
    rw [BitVec.toNat_setWidth_of_le (by decide)] at hnat
    exact hnat
  rw [hcs] at hcode
  exact absurd hcode (by decide)

/-- `isrN` knows the exceptions with an error code, but for three of them. -/
theorem isrPushes_eq (h20 : v ≠ 20) (h21 : v ≠ 21) (h30 : v ≠ 30) : isrPushes v =
    if pushesError v then [v.setWidth 64] else [0, v.setWidth 64] := by
  revert v
  decide

/-- For 20, 21 and 30 the frame is off by a word, and for the others it is right. -/
theorem frame_exact_iff : FrameExact m top v error p ↔ v ≠ 20 ∧ v ≠ 21 ∧ v ≠ 30 := by
  have hcs := code_ne_zero p
  unfold FrameExact
  by_cases hshort : v = 20 ∨ v = 30
  · -- the instruction pointer is in the place of the error code, and the code segment in its own
    refine iff_of_false (fun hframe => hcs ?_) fun hne => hshort.elim hne.1 hne.2.2
    have hws : (isrPushes v).reverse ++ ((if pushesError v then [error] else []) ++
        [p.context.rip, p.context.cs.setWidth 64, p.context.flags, p.context.rsp,
          p.context.ss.setWidth 64]) = [v.setWidth 64, p.context.rip, p.context.cs.setWidth 64,
        p.context.flags, p.context.rsp, p.context.ss.setWidth 64] := by
      rcases hshort with rfl | rfl <;> rfl
    have hnoerror : pushesError v = false := by rcases hshort with rfl | rfl <;> rfl
    have hzero : p.context.rip = 0 := by
      have herror := congrArg IntFrame.errCode hframe
      rw [frameOf, hnoerror] at herror
      exact (load_behind (m := m) hws (k := 1) (by simp)).symm.trans herror
    have hrip : p.context.cs.setWidth 64 = p.context.rip :=
      (load_behind (m := m) hws (k := 2) (by simp)).symm.trans
        (congrArg IntFrame.rip hframe)
    rw [hrip, hzero]
  · rw [not_or] at hshort
    by_cases hlong : v = 21
    · -- the error code is in the place of the instruction pointer
      refine iff_of_false (fun hframe => hcs ?_) fun hne => hne.2.1 hlong
      subst hlong
      rw [readFrame_eq rfl, frameOf, IntFrame.mk.injEq] at hframe
      obtain ⟨-, -, herror, hrip, hcode, -⟩ := hframe
      rw [← hcode, ← hrip, ← show (0 : BitVec 64) = error from herror]
    · refine iff_of_true ?_ ⟨hshort.1, hlong, hshort.2⟩
      by_cases herror : pushesError v = true
      · have hws := isrPushes_eq hshort.1 hlong hshort.2
        rw [if_pos herror] at hws
        rw [readFrame_eq (by rw [hws, if_pos herror]; rfl), frameOf, if_pos herror]
      · have hws := isrPushes_eq hshort.1 hlong hshort.2
        rw [if_neg herror] at hws
        rw [readFrame_eq (by rw [hws, if_neg herror]; rfl), frameOf, if_neg herror]

/-! The way back. -/

theorem popRegs_eq : popRegs m a = ⟨a + 120, readRegs m a⟩ := by
  simp only [popRegs, pop, readRegs, BitVec.add_assoc]
  rfl

/-- The handler keeps the words of the frame. -/
theorem load_run {w k : ℕ} (hk : 8 * k + w ≤ 8 * 176) :
    load w (h.run a m) (a + .ofNat 64 k) = load w m (a + .ofNat 64 k) := by
  refine load_congr fun j hj => ?_
  rw [BitVec.add_assoc, ← BitVec.ofNat_add]
  exact h.keeps a m (k + j) (by omega)

theorem readRegs_run : readRegs (h.run a m) a = readRegs m a := by
  have hfirst := load_run (h := h) (m := m) (a := a) (w := 64) (k := 0) (by decide)
  rw [BitVec.add_zero] at hfirst
  apply Regs.ext
  · exact hfirst
  · exact load_run (k := 8) (by decide)
  · exact load_run (k := 16) (by decide)
  · exact load_run (k := 24) (by decide)
  · exact load_run (k := 32) (by decide)
  · exact load_run (k := 40) (by decide)
  · exact load_run (k := 48) (by decide)
  · exact load_run (k := 56) (by decide)
  · exact load_run (k := 64) (by decide)
  · exact load_run (k := 72) (by decide)
  · exact load_run (k := 80) (by decide)
  · exact load_run (k := 88) (by decide)
  · exact load_run (k := 96) (by decide)
  · exact load_run (k := 104) (by decide)
  · exact load_run (k := 112) (by decide)

/-- The general registers come back, for every vector. -/
theorem resumed_regs : (resumed allowed h m top v error p).1 = p.regs := by
  dsimp only [resumed, exit]
  rw [popRegs_eq, readRegs_run, readRegs_enter]

theorem resumed_context : (resumed allowed h m top v error p).2 =
    iret allowed (h.run (enter m top v error p).2 (enter m top v error p).1)
      ((enter m top v error p).2 + 136) := by
  dsimp only [resumed, exit]
  rw [popRegs_eq, BitVec.add_assoc]
  rfl

/-- Only an instruction pointer of 32 bits is ever resumed. -/
theorem rip_lt_of_iret (hc : iret allowed m a = some c) : c.rip.toNat < 2 ^ 32 := by
  unfold iret at hc
  dsimp only at hc
  split_ifs at hc
  rw [← Option.some.inj hc, BitVec.toNat_setWidth_of_le (by decide)]
  exact (load 32 m a).isLt

/-- The selector is taken from the upper half of the instruction pointer. -/
theorem iret_eq_none (hrip : (load 64 m a).toNat < 2 ^ 32) : iret allowed m a = none := by
  have hhigh : load 32 m (a + 4) = 0 := by
    rw [show a + 4 = a + .ofNat 64 4 from rfl, load_add (w := 64) (by decide)]
    apply BitVec.eq_of_toNat_eq
    rw [BitVec.extractLsb'_toNat, Nat.shiftRight_eq_div_pow, Nat.div_eq_of_lt hrip]
    rfl
  unfold iret
  rw [if_pos]
  left
  dsimp only
  rw [hhigh]
  rfl

/-- No interrupt is transparent: `iret` faults on the null selector if the upper half of the
instruction pointer is zero, and drops that half if it is not. -/
theorem not_transparent (allowed : Context → Bool) (h : Handler) (m : Bytes) (top : BitVec 64)
    (v : BitVec 8) (error : BitVec 64) (p : Interrupted) :
    ¬ Transparent allowed h m top v error p := by
  rintro ⟨hframe, hresumed⟩
  have hiret := congrArg Prod.snd hresumed
  rw [resumed_context] at hiret
  have hrip : load 64 (h.run (enter m top v error p).2 (enter m top v error p).1)
      ((enter m top v error p).2 + 136) = p.context.rip :=
    (load_run (k := 136) (by decide)).trans (congrArg IntFrame.rip hframe)
  have hlt := rip_lt_of_iret hiret
  rw [iret_eq_none (by rwa [hrip])] at hiret
  cases hiret

/-- The kernel at 0xFFFFFFFF80100000. -/
def kernelContext : Interrupted where
  regs := ⟨0, 0, 0, 0, 0, 0, 0, 0, 0, 0, 0, 0, 0, 0, 0⟩
  context := ⟨0xFFFFFFFF80100000, 8, 0x202, 0xFFFFFFFF80200000, 0x10⟩
  code := rfl

def idle : Handler := ⟨fun _ m => m, fun _ _ _ _ => rfl⟩

/-- A timer interrupt of the kernel, on its own stack. -/
theorem kernel_not_resumed :
    ¬ Transparent (fun _ => true) idle (fun _ => 0) 0xFFFFFFFF80200000 32 0 kernelContext := by
  rintro ⟨-, hresumed⟩
  have hiret := congrArg Prod.snd hresumed
  rw [resumed_context] at hiret
  exact absurd (rip_lt_of_iret hiret) (by decide)

end CxKernel.Interrupt
