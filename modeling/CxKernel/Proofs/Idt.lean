import CxKernel.Lib.Runs
import CxKernel.Proofs.Interrupt
import CxKernel.Spec.Idt

/-! The way of an interrupt, over any run of installs, removals, interrupts and other stores. The
invariant is that both tables are as they should be; it needs nothing of the handlers but that they
leave the tables alone. -/

namespace CxKernel.Interrupt

open ByteMem Runs

/-- What the linker does: the objects and the labels lie apart. -/
structure Image.Linked (im : Image) : Prop where
  idt_handlers : Apart im.idt 4096 im.irqHandlers 2048
  stubs_idt : Apart im.isrStubTable 2048 im.idt 4096
  stubs_handlers : Apart im.isrStubTable 2048 im.irqHandlers 2048
  isr_injective : Function.Injective im.isr

variable {im : Image} {m m' : Bytes} {v : BitVec 8}

/-- The table `isr_stub_table` of `entry.asm`. -/
def Image.HasStubs (im : Image) (m : Bytes) : Prop :=
  IsArray 64 m im.isrStubTable 256 fun i => im.isr (.ofNat 8 i)

/-- Each gate leads to its `isrN`, and the handlers are those of `t`. -/
structure Image.Ready (im : Image) (m : Bytes) (t : BitVec 8 → BitVec 64) (k : ℕ) : Prop where
  gates : IsArray 128 m im.idt k fun i => idtEntry (im.isr (.ofNat 8 i)) interruptGate
  handlers : IsArray 64 m im.irqHandlers k fun i => t (.ofNat 8 i)

variable {t : BitVec 8 → BitVec 64} {k : ℕ}

/-! `init_idt` -/

theorem Image.HasStubs.initGate (hl : im.Linked) (h : im.HasStubs m) {i : ℕ} (hi : i < 256) :
    im.HasStubs (im.initGate m i) := by
  have hgate : Apart (im.gate i) 16 im.isrStubTable 2048 := hl.stubs_idt.symm.mono (by omega)
  have hslot : Apart (im.slot i) 8 im.isrStubTable 2048 := hl.stubs_handlers.symm.mono (by omega)
  exact IsArray.store_apart (n := 8) rfl (IsArray.store_apart (n := 8) rfl h hgate) hslot

/-- What an iteration adds. -/
theorem Image.Ready.initGate (hl : im.Linked) (hs : im.HasStubs m) (h : im.Ready m (fun _ => 0) k)
    (hk : k < 256) : im.Ready (im.initGate m k) (fun _ => 0) (k + 1) := by
  have hstub : load 64 m (im.isrStubTable + .ofNat 64 (8 * k)) = im.isr (.ofNat 8 k) := hs k hk
  have hgate : Apart (im.gate k) 16 im.irqHandlers (8 * k) := by
    intro i hi j hj
    exact hl.idt_handlers.mono (i := 16 * k) (by omega) i hi j (by omega)
  have hslot : Apart (im.slot k) 8 im.idt (16 * (k + 1)) := by
    intro i hi j hj
    exact hl.idt_handlers.symm.mono (i := 8 * k) (by omega) i hi j (by omega)
  have hgates := h.gates.snoc (n := 16) rfl (by omega)
  have hhandlers := (h.handlers.store_apart (n := 8) rfl (v := idtEntry (im.isr (.ofNat 8 k))
    interruptGate) hgate).snoc (n := 8) rfl (by omega)
  rw [Image.initGate, hstub]
  exact ⟨hgates.store_apart (n := 16) rfl hslot, hhandlers⟩

theorem ready_initIdt (hl : im.Linked) (hs : im.HasStubs m) :
    im.Ready (im.initIdt m) (fun _ => 0) 256 := by
  have hloop : ∀ k ≤ 256, im.HasStubs ((List.range k).foldl im.initGate m) ∧
      im.Ready ((List.range k).foldl im.initGate m) (fun _ => 0) k := by
    intro k hk
    induction k with
    | zero => exact ⟨hs, fun i hi => absurd hi i.not_lt_zero, fun i hi => absurd hi i.not_lt_zero⟩
    | succ k ih =>
      obtain ⟨hstubs, hready⟩ := ih (Nat.le_of_lt hk)
      rw [List.range_succ, List.foldl_append]
      exact ⟨hstubs.initGate hl hk, hready.initGate hl hstubs hk⟩
  exact (hloop 256 (Nat.le_refl 256)).2

/-! A gate. -/

/-- `(a >> start) & mask`, cut to a field as wide as the mask. -/
theorem setWidth_and_ushiftRight (a : BitVec 64) {mask : BitVec 64} (start : ℕ) {len : ℕ}
    (hmask : mask.setWidth len = BitVec.allOnes len) :
    ((a >>> start) &&& mask).setWidth len = a.extractLsb' start len := by
  rw [BitVec.setWidth_and, hmask, BitVec.and_allOnes]
  apply BitVec.eq_of_getLsbD_eq
  intro i hi
  rw [BitVec.getLsbD_setWidth, BitVec.getLsbD_ushiftRight, BitVec.getLsbD_extractLsb']

/-- The parts of the address are put together again. -/
theorem idtEntry_offset (a : BitVec 64) (type : BitVec 8) :
    (idtEntry a type).extractLsb' 64 32 ++ (idtEntry a type).extractLsb' 48 16 ++
      (idtEntry a type).extractLsb' 0 16 = a := by
  have hlow : (a &&& 0xFFFF).setWidth 16 = a.extractLsb' 0 16 := setWidth_and_ushiftRight a 0 rfl
  have hmid : (a >>> 16 &&& 0xFFFF).setWidth 16 = a.extractLsb' 16 16 :=
    setWidth_and_ushiftRight a 16 rfl
  have hhigh : (a >>> 32 &&& 0xFFFFFFFF).setWidth 32 = a.extractLsb' 32 32 :=
    setWidth_and_ushiftRight a 32 rfl
  simp (disch := decide) only [idtEntry, BitVec.extractLsb'_append_eq_of_le,
    BitVec.extractLsb'_append_eq_of_add_le, BitVec.extractLsb'_eq_self, hlow, hmid, hhigh]
  apply BitVec.eq_of_getLsbD_eq
  intro i hi
  rw [BitVec.getLsbD_append, BitVec.getLsbD_append]
  simp only [BitVec.getLsbD_extractLsb']
  split_ifs with hlow hmid
  · simp [hlow]
  · simp [hmid, show 16 + (i - 16) = i by omega]
  · simp [show 32 + (i - 16 - 16) = i by omega, show i - 16 - 16 < 32 by omega]

/-- The fields beside the address. -/
theorem idtEntry_fields (a : BitVec 64) :
    (idtEntry a interruptGate).extractLsb' 47 1 = 1 ∧
      (idtEntry a interruptGate).extractLsb' 44 1 = 0 ∧
      (idtEntry a interruptGate).extractLsb' 40 4 = 0b1110 ∧
      (idtEntry a interruptGate).extractLsb' 16 16 = 8 ∧
      (idtEntry a interruptGate).extractLsb' 32 3 = 0 := by
  simp (disch := decide) only [idtEntry, BitVec.extractLsb'_append_eq_of_le,
    BitVec.extractLsb'_append_eq_of_add_le]
  decide

theorem Image.Ready.fetchGate_eq (h : im.Ready m t 256) (v : BitVec 8) :
    im.fetchGate m v = some ⟨8, im.isr v, 0, true⟩ := by
  obtain ⟨hpresent, hsystem, htype, hselector, hist⟩ := idtEntry_fields (im.isr v)
  have hdesc : load 128 m (im.gate v.toNat) = idtEntry (im.isr v) interruptGate := by
    have hgate := h.gates v.toNat v.isLt
    dsimp only at hgate
    rwa [BitVec.ofNat_toNat, BitVec.setWidth_eq] at hgate
  have hlimit : ¬ Image.idtLimit.toNat < 16 * v.toNat + 15 := by
    have hv := v.isLt
    have hval : Image.idtLimit.toNat = 4095 := rfl
    omega
  rw [Image.fetchGate, if_neg hlimit]
  dsimp only
  rw [hdesc, hpresent, hsystem, htype, hselector, hist, idtEntry_offset]
  rfl

/-- `isrAt` undoes `isr`. -/
theorem Image.Linked.isrAt_isr (hl : im.Linked) (v : BitVec 8) : im.isrAt (im.isr v) = some v := by
  have hmem : v ∈ (List.range 256).map (.ofNat 8) := by
    refine List.mem_map.mpr ⟨v.toNat, List.mem_range.mpr v.isLt, ?_⟩
    rw [BitVec.ofNat_toNat, BitVec.setWidth_eq]
  cases hfind : im.isrAt (im.isr v) with
  | none => exact absurd (decide_eq_true rfl) (List.find?_eq_none.mp hfind v hmem)
  | some n =>
    rw [Image.isrAt] at hfind
    have hn := List.find?_some hfind
    rw [hl.isr_injective (of_decide_eq_true hn)]

/-! An interrupt. -/

/-- The stack of an interrupt, with the return address, is apart from the tables. -/
def Image.StackApart (im : Image) (top : BitVec 64) : Prop :=
  Apart (top - 192) 192 im.idt 4096 ∧ Apart (top - 192) 192 im.irqHandlers 2048

variable {top error ret : BitVec 64} {p : Interrupted}

theorem Image.Ready.deliver_eq (hl : im.Linked) (h : im.Ready m t 256) :
    im.deliver m top v error p ret = some
      (store (enter m top v error p).1 ((enter m top v error p).2 - 8) ret,
        (enter m top v error p).2) := by
  rw [Image.deliver, h.fetchGate_eq v, Option.bind_eq_bind, Option.bind_some, hl.isrAt_isr v]
  rfl

/-- An interrupt writes to its stack only. -/
theorem enter_of_apart {b : BitVec 64} {n : ℕ} (h : Apart (top - 192) 192 b n) :
    ∀ i < n, store (enter m top v error p).1 ((enter m top v error p).2 - 8) ret (b + .ofNat 64 i) =
      m (b + .ofNat 64 i) := by
  have hlen : 8 * (cpuPushes v error p.context ++ isrPushes v ++ stubPushes p.regs).length ≤ 184 := by
    have hle := length_pushed_le v error p
    rw [pushed, List.length_reverse] at hle
    omega
  rw [enter, pushAll_sp]
  generalize cpuPushes v error p.context ++ isrPushes v ++ stubPushes p.regs = ws at hlen ⊢
  have hret : Apart (top - .ofNat 64 (8 * ws.length) - 8) 8 b n := by
    have haddr : top - .ofNat 64 (8 * ws.length) - 8 =
        top - 192 + .ofNat 64 (192 - 8 * ws.length - 8) := by
      bv_omega
    rw [haddr]
    exact h.mono (by omega)
  have hpush : Apart (top - .ofNat 64 (8 * ws.length)) (8 * ws.length) b n := by
    have haddr : top - .ofNat 64 (8 * ws.length) = top - 192 + .ofNat 64 (192 - 8 * ws.length) := by
      bv_omega
    rw [haddr]
    exact h.mono (by omega)
  intro i hi
  rw [store_of_apart hret i hi, pushAll_of_apart (by omega) hpush i hi]

/-- The return address is below the frame. -/
def pushReturn (ret : BitVec 64) : Handler where
  run a m := store m (a - 8) ret
  keeps a m i hi := store_of_not ret (by bv_omega)

theorem readFrame_run {h : Handler} {a : BitVec 64} :
    readFrame (h.run a m) a = readFrame m a := by
  apply IntFrame.ext
  · exact readRegs_run
  · exact load_run (k := 120) (by decide)
  · exact load_run (k := 128) (by decide)
  · exact load_run (k := 136) (by decide)
  · exact load_run (k := 144) (by decide)
  · exact load_run (k := 152) (by decide)
  · exact load_run (k := 160) (by decide)
  · exact load_run (k := 168) (by decide)

/-- The vector is where the frame has it, also in the three frames that are off. -/
theorem vector_enter : (readFrame (enter m top v error p).1 (enter m top v error p).2).vector =
    v.setWidth 64 := by
  have hhead : ∃ ws, (isrPushes v).reverse = v.setWidth 64 :: ws := by
    rw [isrPushes]
    split_ifs
    · exact ⟨[], rfl⟩
    · exact ⟨[0], rfl⟩
  obtain ⟨ws, hws⟩ := hhead
  refine load_behind (k := 0) (by rw [hws, List.cons_append]) ?_
  exact Nat.succ_pos _

theorem Image.Ready.interrupted (h : im.Ready m t 256) (htop : im.StackApart top) :
    im.Ready (store (enter m top v error p).1 ((enter m top v error p).2 - 8) ret) t 256 :=
  ⟨h.gates.congr (n := 16) rfl (enter_of_apart htop.1),
    h.handlers.congr (n := 8) rfl (enter_of_apart htop.2)⟩

theorem Image.Ready.load_slot (h : im.Ready m t 256) (v : BitVec 8) :
    load 64 m (im.slot v.toNat) = t v := by
  have hslot := h.handlers v.toNat v.isLt
  dsimp only at hslot
  rwa [BitVec.ofNat_toNat, BitVec.setWidth_eq] at hslot

/-- What `isr_handler` is to do. -/
def routed (t : BitVec 8 → BitVec 64) (v : BitVec 8) (r : IntFrame) (arg : BitVec 64) : Action :=
  if t v ≠ 0 then .call (t v) arg
  else if v < 32 then .exceptionHandler r arg
  else .unhandled (v.setWidth 64)

theorem Image.Ready.isrHandler_eq {a : BitVec 64} (h : im.Ready m t 256)
    (hv : (readFrame m a).vector = v.setWidth 64) :
    im.isrHandler m a = some (routed t v (readFrame m a) a) := by
  have hnat : (v.setWidth 64).toNat = v.toNat := BitVec.toNat_setWidth_of_le (by decide)
  have hlt := v.isLt
  rw [Image.isrHandler]
  dsimp only
  rw [hv, hnat, if_neg (by omega), h.load_slot v, routed]
  have hiff : v.setWidth 64 < (32 : BitVec 64) ↔ v < 32 := by
    rw [BitVec.lt_def, BitVec.lt_def, hnat]
    rfl
  simp only [hiff]

/-! Runs. -/

/-- The event leaves the tables alone, but for the two functions for it. -/
def Event.KeepsOff (im : Image) : Event → Prop
  | .install _ _ => True
  | .remove _ => True
  | .interrupt top _ _ _ _ => im.StackApart top
  | .write a _ => Apart a 1 im.idt 4096 ∧ Apart a 1 im.irqHandlers 2048

/-- The handlers, as a function from vectors. -/
def Event.record (t : BitVec 8 → BitVec 64) : Event → BitVec 8 → BitVec 64
  | .install vector fn => Function.update t vector fn
  | .remove vector => Function.update t vector 0
  | .interrupt _ _ _ _ _ => t
  | .write _ _ => t

/-- The handler last installed for each vector and not removed since. -/
def installed (evs : List Event) : BitVec 8 → BitVec 64 := evs.foldl Event.record fun _ => 0

theorem Image.Ready.store_slot (hl : im.Linked) (h : im.Ready m t 256) (v : BitVec 8)
    (fn : BitVec 64) : im.Ready (store m (im.slot v.toNat) fn) (Function.update t v fn) 256 := by
  have hlt := v.isLt
  refine ⟨h.gates.store_apart (n := 16) rfl (hl.idt_handlers.symm.mono (by omega)), ?_⟩
  have hset := h.handlers.store (n := 8) rfl (by omega) hlt fn
  intro i hi
  refine (hset i hi).trans ?_
  have hiff : BitVec.ofNat 8 i = v ↔ i = v.toNat := by
    rw [← BitVec.toNat_inj, BitVec.toNat_ofNat, Nat.mod_eq_of_lt hi]
  simp only [Function.update_apply, hiff]

theorem Image.Ready.step (hl : im.Linked) (h : im.Ready m t 256) {e : Event}
    (he : e.KeepsOff im) : ∃ m', im.step m e = some m' ∧ im.Ready m' (e.record t) 256 := by
  cases e with
  | install v fn => exact ⟨_, rfl, h.store_slot hl v fn⟩
  | remove v => exact ⟨_, rfl, h.store_slot hl v 0⟩
  | interrupt top v error p ret =>
    exact ⟨_, by rw [Image.step, h.deliver_eq hl]; rfl, h.interrupted he⟩
  | write a b =>
    exact ⟨_, rfl, h.gates.store_apart (n := 16) rfl he.1, h.handlers.store_apart (n := 8) rfl he.2⟩

theorem Image.Ready.run (hl : im.Linked) {evs : List Event} (h : im.Ready m t 256)
    (hevs : ∀ e ∈ evs, e.KeepsOff im) :
    ∃ m', run im.step m evs = some m' ∧ im.Ready m' (evs.foldl Event.record t) 256 := by
  induction evs generalizing m t with
  | nil => exact ⟨m, rfl, h⟩
  | cons e evs ih =>
    obtain ⟨he, hrest⟩ := List.forall_mem_cons.mp hevs
    obtain ⟨m₁, hstep, h₁⟩ := h.step hl he
    obtain ⟨m', hrun, h'⟩ := ih h₁ hrest
    exact ⟨m', run_cons.mpr ⟨m₁, hstep, hrun⟩, h'⟩

/-- `isr_handler` does what it should with the frame at `arg`. -/
structure Routes (im : Image) (m : Bytes) (arg : BitVec 64) (t : BitVec 8 → BitVec 64)
    (v : BitVec 8) (error : BitVec 64) (p : Interrupted) : Prop where
  handler : im.isrHandler m arg = some (routed t v (readFrame m arg) arg)
  vector : (readFrame m arg).vector = v.setWidth 64
  frame : v ≠ 20 → v ≠ 21 → v ≠ 30 → readFrame m arg = frameOf v error p

/-- After `init_idt` and any run, `irq_get_handler` returns what was last installed, each gate
leads to its own `isrN` with interrupts off, and each interrupt to the handler for it. -/
theorem interrupts_routed (hl : im.Linked) (hs : im.HasStubs m) {evs : List Event}
    (hevs : ∀ e ∈ evs, e.KeepsOff im) : ∃ m', run im.step (im.initIdt m) evs = some m' ∧
      (∀ v, im.irqGetHandler m' v = installed evs v) ∧
      (∀ v, im.fetchGate m' v = some ⟨8, im.isr v, 0, true⟩) ∧
      ∀ top v error p ret, im.StackApart top → ∃ m₁ arg,
        im.deliver m' top v error p ret = some (m₁, arg) ∧
          Routes im m₁ arg (installed evs) v error p := by
  obtain ⟨m', hrun, hready⟩ := (ready_initIdt hl hs).run hl hevs
  refine ⟨m', hrun, hready.load_slot, hready.fetchGate_eq, ?_⟩
  intro top v error p ret htop
  have hframe : readFrame (store (enter m' top v error p).1 ((enter m' top v error p).2 - 8) ret)
      (enter m' top v error p).2 = readFrame (enter m' top v error p).1
        (enter m' top v error p).2 := readFrame_run (h := pushReturn ret)
  have hvector : (readFrame (store (enter m' top v error p).1 ((enter m' top v error p).2 - 8) ret)
      (enter m' top v error p).2).vector = v.setWidth 64 := by
    rw [hframe, vector_enter]
  refine ⟨_, _, hready.deliver_eq hl, ?_, hvector, ?_⟩
  · exact (hready.interrupted htop).isrHandler_eq hvector
  · intro h20 h21 h30
    exact hframe.trans (frame_exact_iff.mpr ⟨h20, h21, h30⟩)

/-- The tables one behind the other, and 16 bytes for each `isrN`. -/
def smallImage : Image := ⟨0, 4096, 6144, fun n => 8192 + 16 * n.setWidth 64⟩

def stubBytes : Bytes := fun a =>
  (smallImage.isr (.ofNat 8 ((a - 6144).toNat / 8))).extractLsb' (8 * ((a - 6144).toNat % 8)) 8

theorem linked_smallImage : smallImage.Linked where
  idt_handlers i hi j hj := by simp only [smallImage]; bv_omega
  stubs_idt i hi j hj := by simp only [smallImage]; bv_omega
  stubs_handlers i hi j hj := by simp only [smallImage]; bv_omega
  isr_injective n n' h := by
    simp only [smallImage] at h
    bv_omega

theorem hasStubs_stubBytes : smallImage.HasStubs stubBytes := by
  unfold Image.HasStubs IsArray
  decide +kernel

theorem interrupts_routed_timer : ∃ m', run smallImage.step (smallImage.initIdt stubBytes)
    [.interrupt 0x20000 3 0 kernelContext 0x9100, .install 32 0x9000] = some m' ∧
      ∃ m₁ arg, smallImage.deliver m' 0x20000 32 0 kernelContext 0x9100 = some (m₁, arg) ∧
        smallImage.isrHandler m₁ arg = some (.call 0x9000 arg) := by
  have htop : smallImage.StackApart 0x20000 := by
    constructor <;> intro i hi j hj <;> simp only [smallImage] <;> bv_omega
  have hevs : ∀ e ∈ [Event.interrupt 0x20000 3 0 kernelContext 0x9100, Event.install 32 0x9000],
      e.KeepsOff smallImage :=
    List.forall_mem_cons.mpr ⟨htop, List.forall_mem_cons.mpr ⟨trivial, List.forall_mem_nil _⟩⟩
  obtain ⟨m', hrun, -, -, hroutes⟩ :=
    interrupts_routed linked_smallImage hasStubs_stubBytes hevs
  obtain ⟨m₁, arg, hdeliver, hroute⟩ := hroutes 0x20000 32 0 kernelContext 0x9100 htop
  exact ⟨m', hrun, m₁, arg, hdeliver, hroute.handler⟩

end CxKernel.Interrupt
