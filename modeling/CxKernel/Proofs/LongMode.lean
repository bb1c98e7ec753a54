import CxKernel.Proofs.KernelSpace
import CxKernel.Proofs.Placement
import CxKernel.Spec.LongMode

/-! The way into the kernel: paging is turned on under the code that does it, and the kernel is
entered on its own stack in the address space `main` has built. -/

namespace CxKernel.LongMode

open ByteMem WordBytes Paging

/-- Memory by its bytes. -/
def bytesOf (mem : PhysMem) : Bytes := fun a => byteAt 8 mem a.toNat

/-- The first 2 MiB are where they are. -/
def Low (c : Cpu) : Prop := ∀ a : BitVec 64, a.toNat < 0x200000 → c.phys a = some a.toNat

section Exec

variable {c c' : Cpu} {code : ℕ → BitVec 64} {a : BitVec 64} {i n w : ℕ}

theorem Low.byte (h : Low c) (ha : a.toNat < 0x200000) : c.byte a = some (bytesOf c.mem a) := by
  rw [Cpu.byte, h a ha]
  rfl

theorem Low.loadBytes (h : Low c) (ha : a.toNat + n ≤ 0x200000) :
    Cpu.loadBytes w c a n = some (ByteMem.loadBytes w (bytesOf c.mem) a n) := by
  induction n with
  | zero => rfl
  | succ n ih =>
    have hbyte : (a + .ofNat 64 n).toNat < 0x200000 := by
      rw [BitVec.toNat_add, BitVec.toNat_ofNat]
      omega
    rw [Cpu.loadBytes, ih (by omega), h.byte hbyte]
    rfl

theorem Low.load (h : Low c) (ha : a.toNat + (w + 7) / 8 ≤ 0x200000) :
    c.load w a = some (ByteMem.load w (bytesOf c.mem) a) := h.loadBytes ha

/-- An instruction the processor finds. -/
theorem execFrom_cons {d : Cpu} {instr : Instr} {rest : List Instr} (hlow : Low c)
    (hcode : (code i).toNat < 0x200000) (hexec : exec c instr = some d) :
    execFrom code i (instr :: rest) c = execFrom code (i + 1) rest d := by
  rw [execFrom, if_pos (hlow _ hcode), hexec]
  rfl

theorem Cpu.code64_args (rax rdi rsp : BitVec 64) :
    Cpu.code64 { c with rax, rdi, rsp } = c.code64 := rfl

theorem Cpu.code64_call (rsp rip : BitVec 64) (mem : PhysMem) :
    Cpu.code64 { c with rsp, rip, mem } = c.code64 := rfl

/-- Before paging. -/
structure Off (c : Cpu) : Prop where
  paging : c.paging = false
  long : c.longActive = false

theorem Off.low (h : Off c) : Low c := fun a _ => by
  rw [Cpu.phys, h.long, h.paging]
  rfl

end Exec

section Enter

variable {c : Cpu} {code : ℕ → BitVec 64} {pml4 : BitVec 32} (rest : List Instr)

/-- `cr3` gets the root table. -/
theorem exec_root (h : Off c) (hcode : ∀ i, (code i).toNat < 0x200000)
    (harg : c.load 32 (c.arg 4) = some pml4) :
    execFrom code 0 (.movEaxMem 4 :: .movCr3Eax :: rest) c =
      execFrom code 2 rest { c with rax := pml4.setWidth 64, cr3 := pml4.setWidth 64 } := by
  have hload : exec c (.movEaxMem 4) = some { c with rax := pml4.setWidth 64 } := by
    rw [exec, harg]
    rfl
  have hroot : (pml4.setWidth 64).setWidth 32 = pml4 := by simp
  have h₁ : Off { c with rax := pml4.setWidth 64 } := ⟨h.paging, h.long⟩
  rw [execFrom_cons h.low (hcode 0) hload, execFrom_cons h₁.low (hcode 1) rfl, hroot]

/-- What the switch to long mode leaves alone. -/
structure Kept (c c' : Cpu) : Prop where
  mem : c'.mem = c.mem
  rsp : c'.rsp = c.rsp
  cr3 : c'.cr3 = c.cr3
  cs : c'.cs = c.cs

theorem Kept.trans {c c₁ c' : Cpu} (h : Kept c c₁) (h' : Kept c₁ c') : Kept c c' :=
  ⟨h'.mem.trans h.mem, h'.rsp.trans h.rsp, h'.cr3.trans h.cr3, h'.cs.trans h.cs⟩

/-- `CR4.PAE` -/
theorem exec_pae (h : Off c) (hcode : ∀ i, (code i).toNat < 0x200000) :
    ∃ c', execFrom code 2 (.movEaxCr4 :: .orEax 0x20 :: .movCr4Eax :: rest) c =
        execFrom code 5 rest c' ∧
      Off c' ∧ Kept c c' ∧ c'.cr4.getLsbD 5 = true := by
  let c₁ : Cpu := { c with rax := (c.cr4.setWidth 32).setWidth 64 }
  let c₂ : Cpu := { c₁ with rax := (c₁.rax.setWidth 32 ||| 0x20).setWidth 64 }
  let c₃ : Cpu := { c₂ with cr4 := (c₂.rax.setWidth 32).setWidth 64 }
  have off₁ : Off c₁ := ⟨h.paging, h.long⟩
  have off₂ : Off c₂ := ⟨h.paging, h.long⟩
  have hout : exec c₂ .movCr4Eax = some c₃ := by
    rw [exec, off₂.long]
    rfl
  refine ⟨c₃, ?_, ⟨h.paging, h.long⟩, ⟨rfl, rfl, rfl, rfl⟩, ?_⟩
  · rw [execFrom_cons (d := c₁) h.low (hcode 2) rfl,
      execFrom_cons (d := c₂) off₁.low (hcode 3) rfl, execFrom_cons off₂.low (hcode 4) hout]
  · simp [c₃, c₂]

theorem getLsbD_low {hi lo : BitVec 32} {i : ℕ} (h : i < 32) :
    (hi ++ lo).getLsbD i = lo.getLsbD i := by
  rw [BitVec.getLsbD_append, if_pos h]

/-- `IA32_EFER.LME` -/
theorem exec_lme (h : Off c) (hcode : ∀ i, (code i).toNat < 0x200000) :
    ∃ c', execFrom code 5 (.movEcx 0xC0000080 :: .rdmsr :: .orEax 0x100 :: .wrmsr :: rest) c =
        execFrom code 9 rest c' ∧
      Off c' ∧ Kept c c' ∧ c'.cr4 = c.cr4 ∧ c'.efer.getLsbD 8 = true := by
  let c₁ : Cpu := { c with rcx := ia32Efer }
  let c₂ : Cpu := { c₁ with rax := (c₁.efer.setWidth 32).setWidth 64, rdx := c₁.efer >>> 32 }
  let c₃ : Cpu := { c₂ with rax := (c₂.rax.setWidth 32 ||| 0x100).setWidth 64 }
  let c₄ : Cpu := { c₃ with efer := c₃.rdx.setWidth 32 ++ c₃.rax.setWidth 32 }
  have off₁ : Off c₁ := ⟨h.paging, h.long⟩
  have off₂ : Off c₂ := ⟨h.paging, h.long⟩
  have off₃ : Off c₃ := ⟨h.paging, h.long⟩
  have hin : exec c₁ .rdmsr = some c₂ := by
    rw [exec, if_neg (not_not.mpr rfl)]
  have hout : exec c₃ .wrmsr = some c₄ := by
    rw [exec, off₃.paging]
    rfl
  have hlong := h.long
  rw [Cpu.longActive] at hlong
  refine ⟨c₄, ?_, ⟨h.paging, ?_⟩, ⟨rfl, rfl, rfl, rfl⟩, rfl, ?_⟩
  · rw [execFrom_cons (d := c₁) h.low (hcode 5) rfl, execFrom_cons off₁.low (hcode 6) hin,
      execFrom_cons (d := c₃) off₂.low (hcode 7) rfl, execFrom_cons off₃.low (hcode 8) hout]
  · exact (getLsbD_low (by decide)).trans (by simpa [c₃, c₂, c₁] using hlong)
  · exact (getLsbD_low (by decide)).trans (by simp [c₃])

/-- `CR0.PE` and `CR0.PG` -/
theorem exec_pg (h : Off c) (hcode : ∀ i, (code i).toNat < 0x200000)
    (hcs : c.cs.desc.getLsbD 53 = false) (hpae : c.cr4.getLsbD 5 = true)
    (hlme : c.efer.getLsbD 8 = true) :
    ∃ c', execFrom code 9 (.movEaxCr0 :: .orEax 0x80000001 :: .movCr0Eax :: rest) c =
        execFrom code 12 rest c' ∧
      c'.longActive = true ∧ Kept c c' := by
  let c₁ : Cpu := { c with rax := (c.cr0.setWidth 32).setWidth 64 }
  let c₂ : Cpu := { c₁ with rax := (c₁.rax.setWidth 32 ||| 0x80000001).setWidth 64 }
  let c₃ : Cpu := { c₂ with cr0 := (c₂.rax.setWidth 32).setWidth 64, efer := c.efer ||| 0x400 }
  have off₁ : Off c₁ := ⟨h.paging, h.long⟩
  have off₂ : Off c₂ := ⟨h.paging, h.long⟩
  have hpg : c₃.cr0.getLsbD 31 = true ∧ c₃.cr0.getLsbD 0 = true := by simp [c₃, c₂]
  have hout : exec c₂ .movCr0Eax = some c₃ := by
    rw [exec, if_neg, if_neg]
    · simpa [c₂, c₁, hpae, hlme] using hcs
    · simpa [c₂] using off₂.paging
  refine ⟨c₃, ?_, ?_, ⟨rfl, rfl, rfl, rfl⟩⟩
  · rw [execFrom_cons (d := c₁) h.low (hcode 9) rfl,
      execFrom_cons (d := c₂) off₁.low (hcode 10) rfl, execFrom_cons off₂.low (hcode 11) hout]
  · simp [Cpu.longActive, c₃]

end Enter

/-! The descriptors and the arguments. -/

/-- What `enter_longmode` finds in memory: its arguments above the return address, `gdt_ptr`, and
`gdt`. -/
structure Called (m : Bytes) (esp pml4 gdtPtr gdtBase : BitVec 32) (entry state stack : BitVec 64) :
    Prop where
  fits : esp.toNat + 36 ≤ 0x200000
  argPml4 : load 32 m ((esp + 4).setWidth 64) = pml4
  argGdtPtr : load 32 m ((esp + 8).setWidth 64) = gdtPtr
  argEntry : load 64 m ((esp + 12).setWidth 64) = entry
  argState : load 64 m ((esp + 20).setWidth 64) = state
  argStack : load 64 m ((esp + 28).setWidth 64) = stack
  ptrFits : gdtPtr.toNat + 10 ≤ 0x200000
  limit : load 16 m (gdtPtr.setWidth 64) = .ofNat 16 (8 * gdt.length - 1)
  base : load 32 m (gdtPtr.setWidth 64 + 2) = gdtBase
  gdtFits : gdtBase.toNat + 8 * gdt.length ≤ 0x200000
  entries : ∀ i : Fin gdt.length, load 64 m (gdtBase.setWidth 64 + .ofNat 64 (8 * i)) = gdt[i]

theorem Cpu.descriptor_eq {c : Cpu} {selector : BitVec 16} {desc : BitVec 64}
    (hnull : selector &&& 0xFFF8 ≠ 0)
    (hlimit : (selector &&& 0xFFF8).toNat + 7 ≤ c.gdtLimit.toNat)
    (hload : c.load 64 (c.gdtBase + (selector &&& 0xFFF8).setWidth 64) = some desc)
    (hbits : desc.getLsbD 47 ∧ desc.getLsbD 44) : c.descriptor selector = some desc := by
  have hin : ¬ (selector &&& 0xFFF8 = 0 ∨ c.gdtLimit.toNat < (selector &&& 0xFFF8).toNat + 7) :=
    fun h => h.elim hnull fun hlt => absurd hlimit (Nat.not_le.mpr hlt)
  rw [Cpu.descriptor, if_neg hin, hload, Option.bind_eq_bind, Option.bind_some, if_pos hbits]
  rfl

section Enter

variable {c : Cpu} {code : ℕ → BitVec 64} {esp pml4 gdtPtr gdtBase : BitVec 32}
  {entry state stack next : BitVec 64} (rest : List Instr) {w : ℕ}

/-- The arguments lie below 2 MiB. -/
theorem Called.arg (hc : Called (bytesOf c.mem) esp pml4 gdtPtr gdtBase entry state stack)
    (hlow : Low c) (hesp : c.rsp.setWidth 32 = esp) {k : BitVec 32}
    (hfit : k.toNat + (w + 7) / 8 ≤ 36) :
    c.load w (c.arg k) = some (load w (bytesOf c.mem) ((esp + k).setWidth 64)) := by
  have hfits := hc.fits
  rw [Cpu.arg, hesp]
  refine hlow.load ?_
  rw [BitVec.toNat_setWidth, BitVec.toNat_add]
  omega

/-- `lgdt` has loaded the table. -/
structure GdtLoaded (c : Cpu) (gdtBase : BitVec 32) : Prop where
  limit : c.gdtLimit = .ofNat 16 (8 * gdt.length - 1)
  base : c.gdtBase = gdtBase.setWidth 64

theorem Called.loadEntry (hc : Called (bytesOf c.mem) esp pml4 gdtPtr gdtBase entry state stack)
    (hlow : Low c) (hgdt : GdtLoaded c gdtBase) (i : Fin gdt.length) :
    c.load 64 (c.gdtBase + .ofNat 64 (8 * i)) = some gdt[i] := by
  have hfits := hc.gdtFits
  have hi := i.isLt
  rw [hgdt.base, hlow.load, hc.entries i]
  rw [BitVec.toNat_add, BitVec.toNat_ofNat, BitVec.toNat_setWidth]
  omega

theorem Called.codeDesc (hc : Called (bytesOf c.mem) esp pml4 gdtPtr gdtBase entry state stack)
    (hlow : Low c) (hgdt : GdtLoaded c gdtBase) :
    c.descriptor 0x08 = some (gdtEntry 0 0 codeExecuteRead) :=
  Cpu.descriptor_eq (by decide) (by rw [hgdt.limit]; decide) (hc.loadEntry hlow hgdt ⟨1, by decide⟩)
    (by decide)

theorem Called.dataDesc (hc : Called (bytesOf c.mem) esp pml4 gdtPtr gdtBase entry state stack)
    (hlow : Low c) (hgdt : GdtLoaded c gdtBase) :
    c.descriptor 0x10 = some (gdtEntry 0 0 dataReadWrite) :=
  Cpu.descriptor_eq (by decide) (by rw [hgdt.limit]; decide) (hc.loadEntry hlow hgdt ⟨2, by decide⟩)
    (by decide)

/-- What happens in long mode before the stack is changed. -/
structure Stays (c c' : Cpu) : Prop where
  mem : c'.mem = c.mem
  rsp : c'.rsp = c.rsp
  cr3 : c'.cr3 = c.cr3
  efer : c'.efer = c.efer

theorem Stays.trans {c c₁ c' : Cpu} (h : Stays c c₁) (h' : Stays c₁ c') : Stays c c' :=
  ⟨h'.mem.trans h.mem, h'.rsp.trans h.rsp, h'.cr3.trans h.cr3, h'.efer.trans h.efer⟩

theorem Stays.long {c' : Cpu} (h : Stays c c') (hlong : c.longActive = true) :
    c'.longActive = true := by rw [Cpu.longActive, h.efer, ← Cpu.longActive, hlong]

theorem Stays.phys {c' : Cpu} (h : Stays c c') (hlong : c.longActive = true) (a : BitVec 64) :
    c'.phys a = c.phys a := by
  rw [Cpu.phys, Cpu.phys, if_pos (h.long hlong), if_pos hlong, h.mem, h.cr3]

theorem Stays.low {c' : Cpu} (h : Stays c c') (hlong : c.longActive = true) (hlow : Low c) :
    Low c' := fun a ha => (h.phys hlong a).trans (hlow a ha)

/-- The table is loaded, and the code after the jump is for 64 bits. -/
theorem exec_jump (hc : Called (bytesOf c.mem) esp pml4 gdtPtr gdtBase entry state stack) (hlow : Low c)
    (hesp : c.rsp.setWidth 32 = esp) (hcode : ∀ i, (code i).toNat < 0x200000) :
    ∃ c', execFrom code 12 (.movEaxMem 8 :: .lgdtEax :: .jmpFar 0x08 :: rest) c =
        execFrom code 15 rest c' ∧
      Stays c c' ∧ GdtLoaded c' gdtBase ∧ c'.cs.desc = gdtEntry 0 0 codeExecuteRead := by
  let c₁ : Cpu := { c with rax := gdtPtr.setWidth 64 }
  let c₂ : Cpu :=
    { c₁ with gdtLimit := .ofNat 16 (8 * gdt.length - 1), gdtBase := gdtBase.setWidth 64 }
  let c₃ : Cpu := { c₂ with cs := ⟨0x08, gdtEntry 0 0 codeExecuteRead⟩ }
  have hfits := hc.ptrFits
  have hptr : (gdtPtr.setWidth 64).toNat = gdtPtr.toNat := by
    rw [BitVec.toNat_setWidth]
    omega
  have low₁ : Low c₁ := hlow
  have low₂ : Low c₂ := hlow
  have harg : exec c (.movEaxMem 8) = some c₁ := by
    rw [exec, hc.arg hlow hesp (by decide), hc.argGdtPtr]
    rfl
  have hlgdt : exec c₁ .lgdtEax = some c₂ := by
    rw [exec, low₁.load, low₁.load]
    · exact congrArg some (by rw [hc.limit, hc.base])
    · have htwo : (2 : BitVec 64).toNat = 2 := rfl
      rw [BitVec.toNat_add, hptr, htwo]
      omega
    · rw [hptr]
      omega
  have hc₂ : Called (bytesOf c₂.mem) esp pml4 gdtPtr gdtBase entry state stack := hc
  have hjmp : exec c₂ (.jmpFar 0x08) = some c₃ := by
    rw [exec, hc₂.codeDesc low₂ ⟨rfl, rfl⟩]
    rfl
  refine ⟨c₃, ?_, ⟨rfl, rfl, rfl, rfl⟩, ⟨rfl, rfl⟩, rfl⟩
  rw [execFrom_cons hlow (hcode 12) harg, execFrom_cons low₁ (hcode 13) hlgdt,
    execFrom_cons low₂ (hcode 14) hjmp]

theorem exec_movSeg {r : SegReg} {selector : BitVec 16} {desc : BitVec 64}
    (hax : c.rax.setWidth 16 = selector) (hdesc : c.descriptor selector = some desc)
    (hbits : ¬ (desc.getLsbD 43 = true ∨ ¬ desc.getLsbD 41 = true)) :
    exec c (.movSeg r) = some { c with data := Function.update c.data r ⟨selector, desc⟩ } := by
  subst hax
  simp only [exec, hdesc, Option.bind_eq_bind, Option.bind_some]
  exact if_neg hbits

/-- `mov ax` -/
theorem setWidth_movAx (a : BitVec 64) (n : BitVec 16) :
    (a &&& ~~~0xFFFF ||| n.setWidth 64).setWidth 16 = n := by
  apply BitVec.eq_of_getLsbD_eq
  intro i hi
  have hones : ∀ k < 16, (~~~(0xFFFF : BitVec 64)).getLsbD k = false := by decide
  rw [BitVec.getLsbD_setWidth, BitVec.getLsbD_or, BitVec.getLsbD_and, hones i hi,
    BitVec.getLsbD_setWidth]
  simp [hi]
  omega

/-- The data segment registers, one after the other. -/
theorem exec_movSegs (rs : List SegReg) {i : ℕ}
    (hc : Called (bytesOf c.mem) esp pml4 gdtPtr gdtBase entry state stack) (hlow : Low c)
    (hcode : ∀ i, (code i).toNat < 0x200000) (hgdt : GdtLoaded c gdtBase)
    (hax : c.rax.setWidth 16 = 0x10) :
    ∃ c', execFrom code i (rs.map .movSeg ++ rest) c = execFrom code (i + rs.length) rest c' ∧
      Stays c c' ∧ c'.cs = c.cs ∧
      ∀ r, r ∈ rs ∨ c.data r = ⟨0x10, gdtEntry 0 0 dataReadWrite⟩ →
        c'.data r = ⟨0x10, gdtEntry 0 0 dataReadWrite⟩ := by
  induction rs generalizing c i with
  | nil => exact ⟨c, rfl, ⟨rfl, rfl, rfl, rfl⟩, rfl, fun r hr => hr.resolve_left List.not_mem_nil⟩
  | cons r rs ih =>
    let c₁ : Cpu :=
      { c with data := Function.update c.data r ⟨0x10, gdtEntry 0 0 dataReadWrite⟩ }
    have hseg : exec c (.movSeg r) = some c₁ :=
      exec_movSeg hax (hc.dataDesc hlow hgdt) (by decide)
    obtain ⟨c', hrun, hstays, hcs, hdata⟩ :=
      ih (c := c₁) (i := i + 1) hc hlow ⟨hgdt.limit, hgdt.base⟩ hax
    refine ⟨c', ?_, (⟨rfl, rfl, rfl, rfl⟩ : Stays c c₁).trans hstays, hcs, fun r' hr' => hdata r' ?_⟩
    · rw [List.map_cons, List.cons_append, execFrom_cons hlow (hcode i) hseg, hrun,
        List.length_cons, Nat.add_assoc, Nat.add_comm 1]
    · by_cases heq : r' = r
      · exact Or.inr (heq ▸ Function.update_self _ _ _)
      · refine hr'.imp (fun hmem => ?_) fun hval => ?_
        · exact (List.mem_cons.mp hmem).resolve_left heq
        · exact (Function.update_of_ne heq _ _).trans hval

/-- The arguments of the kernel, and its stack. -/
theorem exec_args (hc : Called (bytesOf c.mem) esp pml4 gdtPtr gdtBase entry state stack) (hlow : Low c)
    (hesp : c.rsp.setWidth 32 = esp) (hcode : ∀ i, (code i).toNat < 0x200000)
    (h64 : c.code64 = true) :
    execFrom code 21 (.movRdiMem 20 :: .movRaxMem 12 :: .movRspMem 28 :: rest) c =
      execFrom code 24 rest { c with rdi := state, rax := entry, rsp := stack } := by
  let c₁ : Cpu := { c with rdi := state }
  let c₂ : Cpu := { c₁ with rax := entry }
  let c₃ : Cpu := { c₂ with rsp := stack }
  have low₁ : Low c₁ := hlow
  have low₂ : Low c₂ := hlow
  have h₁ : exec c (.movRdiMem 20) = some c₁ := by
    rw [exec, if_neg (not_not.mpr h64), hc.arg hlow hesp (by decide), hc.argState]
    rfl
  have h₂ : exec c₁ (.movRaxMem 12) = some c₂ := by
    have hc₁ : Called (bytesOf c₁.mem) esp pml4 gdtPtr gdtBase entry state stack := hc
    have hmode : c₁.code64 = true := h64
    rw [exec, if_neg (not_not.mpr hmode), hc₁.arg low₁ hesp (by decide), hc.argEntry]
    rfl
  have h₃ : exec c₂ (.movRspMem 28) = some c₃ := by
    have hc₂ : Called (bytesOf c₂.mem) esp pml4 gdtPtr gdtBase entry state stack := hc
    have hmode : c₂.code64 = true := h64
    rw [exec, if_neg (not_not.mpr hmode), hc₂.arg low₂ hesp (by decide), hc.argStack]
    rfl
  rw [execFrom_cons hlow (hcode 21) h₁, execFrom_cons low₁ (hcode 22) h₂,
    execFrom_cons low₂ (hcode 23) h₃]

end Enter

/-! The call. -/

/-- What a store to page `n` leaves as it is. -/
theorem setByte_of_page_ne {mem : PhysMem} {p n a : ℕ} {b : BitVec 8} (hp : p / 4096 = n)
    (ha : a / 4096 ≠ n) : setByte 8 mem p b a = mem a := by
  refine setByte_of_ne b fun heq => ha ?_
  omega

/-- A word is pushed to page `n` where that page is no part of how addresses are translated. -/
theorem Cpu.push_eq {c : Cpu} {n p : ℕ} {v : BitVec 64} (hpage : ∀ k < 8, (p + k) / 4096 = n)
    (hphys : ∀ mem : PhysMem, (∀ a, a / 4096 ≠ n → mem a = c.mem a) →
      ∀ k < 8, Cpu.phys { c with rsp := c.rsp - 8, mem } (c.rsp - 8 + .ofNat 64 k) = some (p + k)) :
    ∃ mem, c.push v = some { c with rsp := c.rsp - 8, mem } ∧
      (∀ a, a / 4096 ≠ n → mem a = c.mem a) ∧
      ∀ k < 8, byteAt 8 mem (p + k) = v.extractLsb' (8 * k) 8 := by
  have hrun : ∀ m ≤ 8, ∃ mem, (List.range m).foldlM
      (fun c' k => c'.storeByte (c.rsp - 8 + .ofNat 64 k) (v.extractLsb' (8 * k) 8))
      { c with rsp := c.rsp - 8 } = some { c with rsp := c.rsp - 8, mem } ∧
      (∀ a, a / 4096 ≠ n → mem a = c.mem a) ∧
      ∀ k < m, byteAt 8 mem (p + k) = v.extractLsb' (8 * k) 8 := by
    intro m hm
    induction m with
    | zero => exact ⟨c.mem, rfl, fun _ _ => rfl, fun k hk => absurd hk (Nat.not_lt_zero k)⟩
    | succ m ih =>
      obtain ⟨mem, hmem, hkeep, hbytes⟩ := ih (by omega)
      refine ⟨setByte 8 mem (p + m) (v.extractLsb' (8 * m) 8), ?_, fun a ha => ?_, fun k hk => ?_⟩
      · rw [List.range_succ, List.foldlM_append, hmem]
        simp only [Option.bind_eq_bind, Option.bind_some, List.foldlM_cons, List.foldlM_nil,
          Cpu.storeByte, hphys mem hkeep m hm]
        rfl
      · rw [setByte_of_page_ne (hpage m hm) ha, hkeep a ha]
      · rw [byteAt_setByte (by decide) (by decide)]
        by_cases hkm : k = m
        · rw [hkm, if_pos rfl]
        · rw [if_neg (by omega), hbytes k (by omega)]
  exact hrun 8 le_rfl

/-! What `main` writes to besides tables and segments: the loader's own image, with its stack
and its globals, and the database. -/

section Own

open Loader

/-- A page that starts in the loader's image. -/
def InImage (img : Image) (q : ℕ) : Prop :=
  img.loaderBegin.toNat ≤ q * pageSize ∧ q * pageSize < img.loaderEnd.toNat

/-- A page of the database. -/
def InDatabase (s : Globals) (q : ℕ) : Prop :=
  ∃ i < s.pfndbSzPgs.toNat, q = (dbFrame s.pfndbArr i).toNat

def Own (img : Image) (s : Globals) (q : ℕ) : Prop := InImage img q ∨ InDatabase s q

variable {img : Image} {module : ModuleTag} {mmap : MmapTag} {mem : PhysMem} {place : BitVec 64}
  {s₀ : Globals} {q : ℕ}

/-- A page that starts in a range is reserved, unless its first byte is the last of the range. -/
theorem isPageReserved_of_start {reserved : List Range} {r : Range} {first last : BitVec 32}
    (hr : r ∈ reserved) (hfirst : r.beginAddr.toNat = first.toNat)
    (hlast : r.endAddr.toNat = last.toNat - 1)
    (hin : first.toNat ≤ q * pageSize ∧ q * pageSize < last.toNat)
    (hend : (last.toNat - 1) % pageSize ≠ 0) : isPageReserved reserved (.ofNat 64 q) = true := by
  have hlt := last.isLt
  have hprobe : (BitVec.ofNat 64 q).toNat * pageSize % 2 ^ 32 = q * pageSize := by
    rw [BitVec.toNat_ofNat]
    rw [pageSize] at *
    omega
  refine isPageReserved_iff.mpr ⟨r, hr, Or.inl ?_⟩
  rw [hprobe, Range.Before, hfirst, hlast]
  rw [pageSize] at *
  omega

theorem InImage.isPageReserved (hq : InImage img q) (hend : (img.loaderEnd.toNat - 1) % pageSize ≠ 0)
    (third other : Range) :
    Loader.isPageReserved (reservedMemory img third other) (.ofNat 64 q) = true := by
  have hlt := hq.2
  have hpos : 0 < img.loaderEnd.toNat := by omega
  refine isPageReserved_of_start (r := ⟨img.loaderBegin.setWidth 64, img.loaderEnd.setWidth 64 - 1⟩)
    (by simp [reservedMemory]) ?_ ?_ hq hend
  · exact BitVec.toNat_setWidth_of_le (by decide)
  · have hwide : (img.loaderEnd.setWidth 64).toNat = img.loaderEnd.toNat :=
      BitVec.toNat_setWidth_of_le (by decide)
    rw [Words.toNat_sub_one (by omega), hwide]

theorem InImage.not_onFree (hq : InImage img q) (hend : (img.loaderEnd.toNat - 1) % pageSize ≠ 0)
    (hb : Booted img module.range mmap mem place s₀) : ¬ OnFree s₀ q := by
  intro hfree
  obtain ⟨-, hres⟩ := mem_freelist_iff.mp ((onFree_iff hb.pool q).mp hfree)
  rw [rangesInForce, pfndbReserved, hq.isPageReserved hend] at hres
  exact absurd hres (by decide)

/-- The file is clear of the database. -/
theorem InDatabase.not_inModule (hq : InDatabase s₀ q) (hm : Machine img module mmap place)
    (hboot : bootstrapPmm img module.range mmap mem = some s₀)
    (hroom : ∃ p, FreePages (reservedMemory img (mmapRange mmap) module.range)
      (pfndbPages mmap.entries).toNat p) : ¬ InModule module q := by
  intro hmod
  have hpos := hmod.2
  obtain ⟨i, hi, rfl⟩ := hq
  obtain ⟨place', hplace, hb⟩ := bootstrapPmm_booted hboot
  obtain rfl := Option.some.inj (hm.placed.found.symm.trans hplace)
  have hlow := hm.placed.low
  have haligned := earlyPmmAllocCts_aligned hm.placed.found
  rw [bootstrapPmm_pages hboot] at hi
  have hclear := pfndb_place_clear hm.placed.found hroom i hi
  have hpage : (dbFrame s₀.pfndbArr i).toNat = place.toNat / pageSize + i := by
    rw [toNat_pfndbPages (by omega)] at hi
    rw [dbFrame, BitVec.toNat_ofNat, hb.arr, BitVec.toNat_setWidth]
    rw [pageSize] at *
    omega
  have hone : (module.modEnd - 1).toNat = module.modEnd.toNat - 1 :=
    Words.toNat_sub_one (by omega)
  rw [hpage] at hmod
  rw [isPageReserved_of_start (r := module.range) (by simp [reservedMemory])
    (BitVec.toNat_setWidth_of_le (by decide))
    ((BitVec.toNat_setWidth_of_le (by decide)).trans hone) hmod hm.fileEnd] at hclear
  exact absurd hclear (by decide)

end Own

/-! The way into the kernel as a whole. -/

section Enter

open Loader

/-- The processor when `main` calls `enter_longmode`: memory is as `main` has built it, but for
what is its own. -/
structure AtCall (img : Image) (s₀ s : Globals) (c : Cpu) (code : ℕ → BitVec 64) : Prop where
  off : Off c
  cs : c.cs.desc.getLsbD 53 = false
  mem : ∀ a, ¬ Own img s₀ (a / pageSize) → c.mem a = s.mem a
  code : ∀ i, (code i).toNat < 0x200000

/-- At the first instruction of the kernel. -/
structure Entered (phdrs : List Phdr) (s' s : Globals) (entry state next : BitVec 64) (c : Cpu) :
    Prop where
  rip : c.rip = entry
  rdi : c.rdi = state
  rsp : c.rsp = kernelStackBase - 8
  code64 : c.code64 = true
  data : ∀ r, c.data r = ⟨0x10, gdtEntry 0 0 dataReadWrite⟩
  space : ∀ v, Mappable v → translatePage c.mem (frame c.cr3) v = translated s v
  segments : ∀ v, OnSegment phdrs v → ∃ b, readVirt s' v = some b ∧ c.byte v = some b
  ret : ∀ k < 8, c.byte (c.rsp + .ofNat 64 k) = some (next.extractLsb' (8 * k) 8)

variable {img : Image} {module : ModuleTag} {mmap : MmapTag} {mem : PhysMem} {phdrs : List Phdr}
  {place : BitVec 64} {s₀ s₁ s' s : Globals} {m : PageMap} {n : ℕ} {c : Cpu} {v : BitVec 64}

/-- Long mode in the address space built, with the kernel's stack on page `n`: memory is as it was
built, but for that page and for the loader's own. -/
structure InSpace (img : Image) (s₀ s : Globals) (n : ℕ) (c : Cpu) : Prop where
  long : c.longActive = true
  root : frame c.cr3 = rootTable s
  mem : ∀ a, ¬ Own img s₀ (a / pageSize) → a / pageSize ≠ n → c.mem a = s.mem a

theorem entryAddr_div (w : BitVec 40) (j : BitVec 9) : entryAddr w j / pageSize = w.toNat := by
  have hj := j.isLt
  rw [entryAddr, pageSize]
  omega

section InSpace

variable (h : Built module phdrs s₀ s' s m n) (hown : ∀ q, Own img s₀ q → ¬ OnFree s₀ q)
  (hc : InSpace img s₀ s n c)

include h hown hc

/-- Tables are in none of these pages. -/
theorem InSpace.translate (hv : Mappable v) :
    translatePage c.mem (frame c.cr3) v = translated s v := by
  have htables : SameTables s { s with mem := c.mem } := by
    refine ⟨rfl, fun q w j hq => hc.mem _ (fun ho => ?_) fun heq => ?_⟩
    · exact h.noTable _ (hown _ ho) q w hq (entryAddr_div w j).symm
    · exact h.stack.1.2.noTable q w hq ((entryAddr_div w j).symm.trans heq)
  rw [hc.root]
  exact htables.translated hv

theorem InSpace.phys (hv : Mappable v) :
    c.phys v = (translated s v).map fun f => f.toNat * 4096 + v.toNat % 4096 := by
  rw [Cpu.phys, if_pos hc.long, if_pos hv.1, translateAddr, hc.translate h hown hv]

theorem InSpace.low : Low c := fun a ha => by
  rw [hc.phys h hown (mappable_of_low (ha.trans (by decide)))]
  exact h.low ha

/-- The bytes of a segment are in none of these pages either. -/
theorem InSpace.byte (he : LegalElf module phdrs) (hfile : ∀ q, Own img s₀ q → ¬ InModule module q)
    (hv : OnSegment phdrs v) : c.byte v = readVirt s v := by
  obtain ⟨f, -, hf, hpage⟩ := h.onSegment he hv
  obtain ⟨hbase, hlimit⟩ := hv.bounds he
  have haway : ¬ Own img s₀ f.toNat := fun ho =>
    hpage.origin.elim (fun hin => hfile _ ho (he.inModule hin)) (hown _ ho)
  have hstack : f.toNat ≠ n := fun heq => hpage.guarded.taken (heq ▸ h.stack.1.1)
  have hsame : ∀ a, a / pageSize = f.toNat → c.mem a = s.mem a := fun a ha =>
    hc.mem a (ha ▸ haway) (ha ▸ hstack)
  rw [Cpu.byte, hc.phys h hown (mappable_of_kernel hbase hlimit), hf, readVirt_eq hf,
    Option.map_some, Option.map_some]
  refine congrArg some (byteAt_congr hsame ?_)
  rw [pageSize]
  omega

end InSpace

/-- The stack pointer of the kernel points to the page mapped for it. -/
theorem stack_page {k : ℕ} (hk : k < 8) :
    (kernelStackBase - 8 + .ofNat 64 k) >>> 12 = kernelStackLimit >>> 12 ∧
      (kernelStackBase - 8 + .ofNat 64 k).toNat % 4096 = 0xFF0 + k := by
  revert k
  decide

theorem InSpace.store (hc : InSpace img s₀ s n c) (rsp : BitVec 64) {mem : PhysMem}
    (hmem : ∀ a, a / 4096 ≠ n → mem a = c.mem a) : InSpace img s₀ s n { c with rsp, mem } :=
  ⟨hc.long, hc.root, fun a ha hn => (hmem a hn).trans (hc.mem a ha hn)⟩

/-- The return address is pushed to the stack's page. -/
theorem InSpace.push (h : Built module phdrs s₀ s' s m n) (hown : ∀ q, Own img s₀ q → ¬ OnFree s₀ q)
    (hc : InSpace img s₀ s n c) (hstack : ¬ OnSegment phdrs kernelStackLimit)
    (hrsp : c.rsp = kernelStackBase) (next : BitVec 64) :
    ∃ mem, c.push next = some { c with rsp := kernelStackBase - 8, mem } ∧
      InSpace img s₀ s n { c with rsp := kernelStackBase - 8, mem } ∧
      ∀ k < 8, Cpu.byte { c with rsp := kernelStackBase - 8, mem }
        (kernelStackBase - 8 + .ofNat 64 k) = some (next.extractLsb' (8 * k) 8) := by
  have hn := h.stack.2
  have hphys : ∀ mem : PhysMem, (∀ a, a / 4096 ≠ n → mem a = c.mem a) → ∀ k < 8,
      Cpu.phys { c with rsp := kernelStackBase - 8, mem } (kernelStackBase - 8 + .ofNat 64 k) =
        some (n * 4096 + 0xFF0 + k) := by
    intro mem hmem k hk
    obtain ⟨hpage, hoffset⟩ := stack_page hk
    have hsegment : ¬ OnSegment phdrs (kernelStackBase - 8 + .ofNat 64 k) := by
      rintro ⟨j, hj, heq⟩
      exact hstack ⟨j, hj, hpage.symm.trans heq⟩
    rw [(hc.store _ hmem).phys h hown (mappable_of_stack hpage), h.onStack hpage hsegment,
      Option.map_some, hoffset, BitVec.toNat_ofNat, Nat.mod_eq_of_lt (hn.trans (by decide))]
    exact congrArg some (Nat.add_assoc _ _ _).symm
  rw [← hrsp] at hphys
  obtain ⟨mem, hpush, hkeep, hbytes⟩ := Cpu.push_eq (v := next) (by omega) hphys
  rw [hrsp] at hpush hphys
  refine ⟨mem, hpush, hc.store _ hkeep, fun k hk => ?_⟩
  rw [Cpu.byte, hphys mem hkeep k hk, Option.map_some, hbytes k hk]

theorem InSpace.regs (hc : InSpace img s₀ s n c) (rax rdi rsp : BitVec 64) :
    InSpace img s₀ s n { c with rax, rdi, rsp } := ⟨hc.long, hc.root, hc.mem⟩

theorem InSpace.rip (hc : InSpace img s₀ s n c) (rip : BitVec 64) :
    InSpace img s₀ s n { c with rip } := ⟨hc.long, hc.root, hc.mem⟩

theorem InSpace.stays {c' : Cpu} (hc : InSpace img s₀ s n c) (hstays : Stays c c') :
    InSpace img s₀ s n c' where
  long := hstays.long hc.long
  root := hstays.cr3 ▸ hc.root
  mem := hstays.mem ▸ hc.mem

/-- The last instruction. -/
theorem InSpace.call (h : Built module phdrs s₀ s' s m n) (hown : ∀ q, Own img s₀ q → ¬ OnFree s₀ q)
    (hc : InSpace img s₀ s n c) (hstack : ¬ OnSegment phdrs kernelStackLimit)
    (hrsp : c.rsp = kernelStackBase) (h64 : c.code64 = true) (next : BitVec 64) :
    ∃ c', exec c (.callRax next) = some c' ∧ InSpace img s₀ s n c' ∧ c'.rip = c.rax ∧
      c'.rdi = c.rdi ∧ c'.rsp = kernelStackBase - 8 ∧ c'.code64 = true ∧ c'.data = c.data ∧
      ∀ k < 8, c'.byte (c'.rsp + .ofNat 64 k) = some (next.extractLsb' (8 * k) 8) := by
  obtain ⟨mem, hpush, hspace, hret⟩ := hc.push h hown hstack hrsp next
  refine ⟨{ c with rsp := kernelStackBase - 8, mem, rip := c.rax }, ?_, hspace.rip _, rfl, rfl, rfl,
    (Cpu.code64_call _ _ _).trans h64, rfl, hret⟩
  rw [exec, if_neg (not_not.mpr h64), hpush]
  rfl

end Enter

/-! The kernel of one page once more. -/

/-- A part of a word. -/
theorem load_bytesOf {mem : PhysMem} {a k w : ℕ} (ha : a + 8 < 2 ^ 64) (haligned : a % 8 = 0)
    (hfit : 8 * k + w ≤ 64) :
    load w (bytesOf mem) (.ofNat 64 (a + k)) = (mem a).extractLsb' (8 * k) w := by
  apply BitVec.eq_of_getLsbD_eq
  intro i hi
  have haddr : (BitVec.ofNat 64 (a + k) + .ofNat 64 (i / 8)).toNat = a + (k + i / 8) := by
    rw [← BitVec.ofNat_add, BitVec.toNat_ofNat]
    omega
  have hword : (a + (k + i / 8)) / 8 * 8 = a := by omega
  have hbyte : (a + (k + i / 8)) % 8 = k + i / 8 := by omega
  have hbit : 8 * (k + i / 8) + i % 8 = 8 * k + i := by omega
  rw [getLsbD_load hi, bytesOf, haddr, byteAt, hword, hbyte, BitVec.getLsbD_extractLsb',
    BitVec.getLsbD_extractLsb', hbit, decide_eq_true (Nat.mod_lt i (by decide)), decide_eq_true hi]

theorem extract_low (hi lo : BitVec 32) : (hi ++ lo).extractLsb' 0 32 = lo := by
  apply BitVec.eq_of_getLsbD_eq
  intro i h
  rw [BitVec.getLsbD_extractLsb', decide_eq_true h, Bool.true_and, Nat.zero_add, getLsbD_low h]

theorem extract_high (hi lo : BitVec 32) : (hi ++ lo).extractLsb' 32 32 = hi := by
  apply BitVec.eq_of_getLsbD_eq
  intro i h
  rw [BitVec.getLsbD_extractLsb', decide_eq_true h, Bool.true_and, BitVec.getLsbD_append,
    if_neg (by omega), Nat.add_sub_cancel_left]

section Tiny

open Loader

/-- The loader's image: the frame of the call, `gdt_ptr`, and `gdt`. -/
def tinyImage (pml4 : BitVec 32) (a : ℕ) : BitVec 64 :=
  if a = 0x100010 then 0x100038#32 ++ pml4
  else if a = 0x100018 then 0xFFFF800000000000
  else if a = 0x100020 then 0x100100
  else if a = 0x100028 then kernelStackBase
  else if a = 0x100038 then 0x100040#48 ++ 23#16
  else if a = 0x100048 then gdtEntry 0 0 codeExecuteRead
  else if a = 0x100050 then gdtEntry 0 0 dataReadWrite
  else 0

def tinyCpu (s : Globals) : Cpu where
  rax := 0
  rcx := 0
  rdx := 0
  rdi := 0
  rsp := 0x10000C
  rip := 0
  cr0 := 1
  cr3 := 0
  cr4 := 0
  efer := 0
  gdtLimit := 0
  gdtBase := 0
  cs := ⟨0x10, 0⟩
  data _ := ⟨0x18, 0⟩
  mem a := if a / pageSize = 0x100 then tinyImage s.pml4 a else s.mem a

theorem tiny_load (s : Globals) {a k w : ℕ} {v : BitVec w} (hpage : a / pageSize = 0x100)
    (haligned : a % 8 = 0) (hfit : 8 * k + w ≤ 64)
    (hv : (tinyImage s.pml4 a).extractLsb' (8 * k) w = v) :
    load w (bytesOf (tinyCpu s).mem) (.ofNat 64 (a + k)) = v := by
  rw [pageSize] at hpage
  rw [load_bytesOf (by omega) haligned hfit, ← hv]
  exact congrArg _ (if_pos hpage)

theorem tiny_called (s : Globals) : Called (bytesOf (tinyCpu s).mem) 0x10000C s.pml4 0x100038
    0x100040 0xFFFF800000000000 0x100100 kernelStackBase where
  fits := by decide
  argPml4 := tiny_load s (a := 0x100010) (k := 0) rfl rfl (by decide) (extract_low _ _)
  argGdtPtr := tiny_load s (a := 0x100010) (k := 4) rfl rfl (by decide) (extract_high _ _)
  argEntry := tiny_load s (a := 0x100018) (k := 0) rfl rfl (by decide) (by simp [tinyImage])
  argState := tiny_load s (a := 0x100020) (k := 0) rfl rfl (by decide) (by simp [tinyImage])
  argStack := tiny_load s (a := 0x100028) (k := 0) rfl rfl (by decide) (by simp [tinyImage])
  ptrFits := by decide
  limit := tiny_load s (a := 0x100038) (k := 0) rfl rfl (by decide) (by simp [tinyImage, gdt])
  base := tiny_load s (a := 0x100038) (k := 2) rfl rfl (by decide) (by simp [tinyImage])
  gdtFits := by decide
  entries
    | ⟨0, _⟩ => tiny_load s (a := 0x100040) (k := 0) rfl rfl (by decide) (by simp [tinyImage, gdt])
    | ⟨1, _⟩ => tiny_load s (a := 0x100048) (k := 0) rfl rfl (by decide) (by simp [tinyImage, gdt])
    | ⟨2, _⟩ => tiny_load s (a := 0x100050) (k := 0) rfl rfl (by decide) (by simp [tinyImage, gdt])

def tinyCode (i : ℕ) : BitVec 64 := .ofNat 64 (0x101000 + i % 0x1000)

theorem tiny_atCall (s₀ s : Globals) : AtCall pcImage s₀ s (tinyCpu s) tinyCode where
  off := ⟨by simp [tinyCpu, Cpu.paging], by simp [tinyCpu, Cpu.longActive]⟩
  cs := by simp [tinyCpu]
  mem a ha := by
    refine if_neg fun hpage => ha (Or.inl ?_)
    rw [hpage]
    exact ⟨by decide, by decide⟩
  code i := by
    rw [tinyCode, BitVec.toNat_ofNat]
    omega

end Tiny

end CxKernel.LongMode
