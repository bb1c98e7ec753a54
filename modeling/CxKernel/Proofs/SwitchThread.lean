import CxKernel.Lib.Runs
import CxKernel.Spec.SwitchThread

/-! What a thread finds after a context switch. The old stack pointer goes through
`backend.sp` but the new one is the address of that field, so the registers are popped off
the thread object and whatever lies behind it. -/

namespace CxKernel.SwitchThread

open ByteMem Runs

variable {T : Type} {sp : T → BitVec 64} {s : Machine T} {oldthread newthread : T}

/-- The words on the stack of a thread that is switched out, as they are pushed. -/
def slots (r : Regs) : List (BitVec 64) := [r.flags.val, r.rbx, r.rbp, r.r12, r.r13, r.r14, r.r15]

theorem switchOut_mem : (s.switchOut sp oldthread newthread).mem =
    store (pushAll s.mem s.regs.rsp (slots s.regs)).1 (sp oldthread) (s.regs.rsp - 56) := by
  have htop : (pushAll s.mem s.regs.rsp (slots s.regs)).2 = s.regs.rsp - 56 := pushAll_sp
  rw [← htop]
  rfl

theorem switchIn_rsp : (s.switchIn sp newthread).regs.rsp = sp newthread + 56 := by
  simp only [Machine.switchIn, Machine.pop, Machine.popf, BitVec.add_assoc]
  rfl

/-- The registers are read from `backend.sp` upwards. -/
theorem switchIn_regs : (s.switchIn sp newthread).regs =
    { rsp := sp newthread + 56
      rbx := load 64 s.mem (sp newthread + 40)
      rbp := load 64 s.mem (sp newthread + 32)
      r12 := load 64 s.mem (sp newthread + 24)
      r13 := load 64 s.mem (sp newthread + 16)
      r14 := load 64 s.mem (sp newthread + 8)
      r15 := load 64 s.mem (sp newthread)
      flags := ⟨popfImage (load 64 s.mem (sp newthread + 48)), popfImage_idem _⟩ } := by
  simp only [Machine.switchIn, Machine.pop, Machine.popf, BitVec.add_assoc]
  rfl

/-- `thread` was switched out like this. -/
def Saved.WrittenBy (sp : T → BitVec 64) (thread : T) (sv : Saved) : Prop :=
  ∃ m, sv.mem = store (pushAll m sv.regs.rsp (slots sv.regs)).1 (sp thread) (sv.regs.rsp - 56)

/-- The stack and `backend.sp` are as the switch left them. -/
structure Untouched (sp : T → BitVec 64) (thread : T) (sv : Saved) (mem : Bytes) : Prop where
  stack : ∀ k < 56, mem (sv.regs.rsp - 56 + .ofNat 64 k) = sv.mem (sv.regs.rsp - 56 + .ofNat 64 k)
  top : ∀ k < 8, mem (sp thread + .ofNat 64 k) = sv.mem (sp thread + .ofNat 64 k)

section Resume

variable {thread : T} {sv : Saved} {mem : Bytes} (hw : sv.WrittenBy sp thread)
  (hu : Untouched sp thread sv mem)

include hw hu

/-- `backend.sp` has the old stack pointer. -/
theorem load_top : load 64 mem (sp thread) = sv.regs.rsp - 56 := by
  obtain ⟨m, hm⟩ := hw
  have hkeep : load 64 mem (sp thread) = load 64 sv.mem (sp thread) :=
    load_congr fun k hk => hu.top k (by omega)
  rw [hkeep, hm, load_store (by decide)]

/-- Where `backend.sp` is the lowest slot, the slots above it have what was pushed. -/
theorem load_slot (hsp : sp thread = sv.regs.rsp - 56) {i : ℕ} (hi : i < 6) :
    load 64 mem (sp thread + .ofNat 64 (8 * (6 - i))) =
      (slots sv.regs).get ⟨i, Nat.lt_succ_of_lt hi⟩ := by
  obtain ⟨m, hm⟩ := hw
  have haddr : sp thread + .ofNat 64 (8 * (6 - i)) = sv.regs.rsp - .ofNat 64 (8 * (i + 1)) := by
    rw [hsp]
    bv_omega
  have hkeep : load 64 mem (sp thread + .ofNat 64 (8 * (6 - i))) =
      load 64 (pushAll m sv.regs.rsp (slots sv.regs)).1 (sp thread + .ofNat 64 (8 * (6 - i))) := by
    refine load_congr fun k hk => ?_
    have hin : sp thread + .ofNat 64 (8 * (6 - i)) + .ofNat 64 k =
        sv.regs.rsp - 56 + .ofNat 64 (8 * (6 - i) + k) := by
      rw [hsp]
      bv_omega
    rw [hin, hu.stack _ (by omega), hm, store_of_not]
    rw [hsp]
    bv_omega
  rw [hkeep, haddr]
  exact load_pushAll (by simp [slots]) (Nat.lt_succ_of_lt hi)

/-- The thread finds its registers exactly if `backend.sp` is the slot of r15, and r15 was
its address. -/
theorem switchIn_regs_iff (hmem : s.mem = mem) : (s.switchIn sp thread).regs = sv.regs ↔
    sp thread = sv.regs.rsp - 56 ∧ sv.regs.r15 = sp thread := by
  rw [switchIn_regs, hmem, load_top hw hu]
  refine ⟨fun heq => ?_, ?_⟩
  · have hrsp : sp thread + 56 = sv.regs.rsp := congrArg Regs.rsp heq
    have hr15 : sv.regs.rsp - 56 = sv.regs.r15 := congrArg Regs.r15 heq
    have hsp : sp thread = sv.regs.rsp - 56 := by
      rw [← hrsp, BitVec.add_sub_cancel]
    exact ⟨hsp, by rw [← hr15, hsp]⟩
  · rintro ⟨hsp, hr15⟩
    have hrsp : sp thread + 56 = sv.regs.rsp := by
      rw [hsp, BitVec.sub_add_cancel]
    have hslot : ∀ i (hi : i < 6), load 64 mem (sp thread + .ofNat 64 (8 * (6 - i))) =
        (slots sv.regs).get ⟨i, Nat.lt_succ_of_lt hi⟩ := fun i hi => load_slot hw hu hsp hi
    have hflags : popfImage (load 64 mem (sp thread + 48)) = sv.regs.flags.val := by
      rw [show load 64 mem (sp thread + 48) = _ from hslot 0 (by decide)]
      exact sv.regs.flags.property
    refine Regs.ext hrsp (hslot 1 (by decide)) (hslot 2 (by decide)) (hslot 3 (by decide))
      (hslot 4 (by decide)) (hslot 5 (by decide)) ?_ (Subtype.ext hflags)
    rw [hr15, hsp]

end Resume

/-! Runs. -/

/-- A thread that was switched out, and whose stack and `backend.sp` are untouched, finds
its registers when it is switched to, and is the current one. -/
def RoundTrips (sp : T → BitVec 64) (s : System T) : Act T → Prop
  | .switch oldthread newthread => ∀ sv, s.saved newthread = some sv → oldthread ≠ newthread →
    Untouched sp newthread sv (s.toMachine.switchOut sp oldthread newthread).mem →
    (switchThread sp oldthread newthread s.toMachine).regs = sv.regs ∧
      (switchThread sp oldthread newthread s.toMachine).curthread = newthread
  | .work _ _ => True

/-- The `backend.sp` of such a thread is the lowest slot of its stack, and r15 had its
address. -/
def InSlot (sp : T → BitVec 64) (s : System T) : Act T → Prop
  | .switch oldthread newthread => ∀ sv, s.saved newthread = some sv → oldthread ≠ newthread →
    Untouched sp newthread sv (s.toMachine.switchOut sp oldthread newthread).mem →
    sp newthread = sv.regs.rsp - 56 ∧ sv.regs.r15 = sp newthread
  | .work _ _ => True

def Written (sp : T → BitVec 64) (s : System T) : Prop :=
  ∀ thread sv, s.saved thread = some sv → sv.WrittenBy sp thread

theorem roundTrips_iff {s : System T} (hs : Written sp s) (a : Act T) :
    RoundTrips sp s a ↔ InSlot sp s a := by
  cases a with
  | switch oldthread newthread =>
    refine forall_congr' fun sv => forall_congr' fun hsv => forall_congr' fun _ =>
      forall_congr' fun hu => ?_
    rw [← switchIn_regs_iff (hs newthread sv hsv) hu rfl]
    exact and_iff_left rfl
  | work regs mem => exact Iff.rfl

variable [DecidableEq T]

theorem preserves_written (sp : T → BitVec 64) (P : System T → Act T → Prop) :
    Preserves (step sp) (Written sp) P := by
  intro s a s' hs _ hstep thread sv hsv
  cases a with
  | switch oldthread newthread =>
    obtain rfl := Option.some.inj hstep
    dsimp only at hsv
    by_cases hnew : thread = newthread
    · rw [hnew, Function.update_self] at hsv
      cases hsv
    rw [Function.update_of_ne hnew] at hsv
    by_cases hold : thread = oldthread
    · rw [hold, Function.update_self] at hsv
      obtain rfl := Option.some.inj hsv
      exact ⟨s.mem, hold ▸ switchOut_mem⟩
    · rw [Function.update_of_ne hold] at hsv
      exact hs thread sv hsv
  | work regs mem =>
    obtain rfl := Option.some.inj hstep
    exact hs thread sv hsv

/-- Context switches round-trip in a run exactly if every thread that is switched to has its
`backend.sp` in its own lowest slot. -/
theorem switches_round_trip_iff {s : System T} (hs : ∀ thread, s.saved thread = none)
    (acts : List (Act T)) :
    AlongRun (step sp) (RoundTrips sp) s acts ↔ AlongRun (step sp) (InSlot sp) s acts := by
  have hwritten : Written sp s := by
    intro thread sv hsv
    rw [hs] at hsv
    cases hsv
  refine ⟨fun h => ?_, fun h => ?_⟩
  · exact (preserves_written sp _).alongRun_of_inv (fun s a hs => (roundTrips_iff hs a).mp)
      hwritten h
  · exact (preserves_written sp _).alongRun_of_inv (fun s a hs => (roundTrips_iff hs a).mpr)
      hwritten h

/-! Two threads, switched from the first to the second and back. -/

def quiet (rsp : BitVec 64) : Regs :=
  { rsp := rsp, rbx := 0, rbp := 0, r12 := 0, r13 := 0, r14 := 0, r15 := 0
    flags := ⟨2, by decide⟩ }

def twoThreads : System Bool where
  regs := quiet 0x8000
  mem := fun _ => 0
  curthread := false
  saved := fun _ => none

def spOf (thread : Bool) : BitVec 64 := if thread then 0x1008 else 0x1000

def switchedOut : Bytes := (twoThreads.switchOut spOf false true).mem

def thereAndBack : List (Act Bool) :=
  [.switch false true, .work (quiet 0x9000) switchedOut, .switch true false]

theorem switches_round_trip_iff_two :
    AlongRun (step spOf) (RoundTrips spOf) twoThreads thereAndBack ↔
      AlongRun (step spOf) (InSlot spOf) twoThreads thereAndBack :=
  switches_round_trip_iff (fun _ => rfl) thereAndBack

theorem untouched_back : Untouched spOf false ⟨quiet 0x8000, switchedOut⟩
    (Machine.switchOut spOf true false ⟨quiet 0x9000, switchedOut, true⟩).mem := by
  have hframe : ∀ a : BitVec 64, 8 ≤ (a - 0x1008).toNat → 56 < (0x9000 - a).toNat →
      (Machine.switchOut spOf true false ⟨quiet 0x9000, switchedOut, true⟩).mem a =
        switchedOut a := by
    intro a hsp hstack
    have hsp' : ¬ 8 * (a - spOf true).toNat < 64 := by
      change ¬ 8 * (a - 0x1008).toNat < 64
      omega
    rw [switchOut_mem, store_of_not _ hsp']
    exact pushAll_frame (by decide) (Or.inr hstack)
  refine ⟨fun k hk => hframe _ ?_ ?_, fun k hk => hframe _ ?_ ?_⟩
  · change 8 ≤ (0x8000#64 - 56 + .ofNat 64 k - 0x1008).toNat
    bv_omega
  · change 56 < (0x9000#64 - (0x8000#64 - 56 + .ofNat 64 k)).toNat
    bv_omega
  · change 8 ≤ (0x1000#64 + .ofNat 64 k - 0x1008).toNat
    bv_omega
  · change 56 < (0x9000#64 - (0x1000#64 + .ofNat 64 k)).toNat
    bv_omega

/-- Back in the first thread the stack pointer is 56 bytes past its `backend.sp`. -/
theorem switch_lands_in_thread :
    (switchThread spOf true false ⟨quiet 0x9000, switchedOut, true⟩).regs.rsp = 0x1038 ∧
      ¬ AlongRun (step spOf) (RoundTrips spOf) twoThreads thereAndBack := by
  have hrsp : (switchThread spOf true false ⟨quiet 0x9000, switchedOut, true⟩).regs.rsp = 0x1038 :=
    switchIn_rsp
  refine ⟨hrsp, fun hrun => ?_⟩
  obtain ⟨hback, -⟩ := (hrun.2 _ rfl).2 _ rfl
  obtain ⟨hregs, -⟩ := hback ⟨quiet 0x8000, switchedOut⟩ rfl (by decide) untouched_back
  have hsame : (0x1038 : BitVec 64) = 0x8000 := hrsp.symm.trans (congrArg Regs.rsp hregs)
  exact absurd hsame (by decide)

end CxKernel.SwitchThread
