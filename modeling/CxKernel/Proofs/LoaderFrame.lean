import CxKernel.Lib.Runs
import CxKernel.Proofs.LoaderPaging

/-! What the loader's steps leave alone. Mapping a page writes to tables and to pages it
takes off the free list, and only adds to the translations; so a page that is neither
keeps its contents. -/

namespace CxKernel.Loader

open Paging

/-- Page `q` is none of the tables in use. -/
def NoTable (s : Globals) (q : ℕ) : Prop :=
  ∀ p t, LeadsTo s.mem (rootTable s) p t → t.toNat ≠ q

/-- The words of page `q` are the same. -/
def SamePage (s s' : Globals) (q : ℕ) : Prop := ∀ a, a / pageSize = q → s'.mem a = s.mem a

structure Grows (s s' : Globals) : Prop where
  shrinks : ∀ n, OnFree s' n → OnFree s n
  keeps : ∀ q, NoTable s q → ¬ HandsOut s s' q → NoTable s' q ∧ SamePage s s' q
  mapped : ∀ v f, Mappable v → translated s v = some f → translated s' v = some f

theorem Grows.refl (s : Globals) : Grows s s where
  shrinks _ hn := hn
  keeps _ hq _ := ⟨hq, fun _ _ => rfl⟩
  mapped _ _ _ hf := hf

theorem Grows.trans {s s₁ s' : Globals} (h : Grows s s₁) (h' : Grows s₁ s') : Grows s s' where
  shrinks n hn := h.shrinks n (h'.shrinks n hn)
  keeps q hq hout := by
    obtain ⟨hq₁, hsame⟩ := h.keeps q hq fun hn => hout (hn.widen (fun _ hk => hk) h'.shrinks)
    obtain ⟨hq', hsame'⟩ := h'.keeps q hq₁ fun hn => hout (hn.widen h.shrinks fun _ hk => hk)
    exact ⟨hq', fun a ha => (hsame' a ha).trans (hsame a ha)⟩
  mapped v f hv hf := h'.mapped v f hv (h.mapped v f hv hf)

instance : Trans Grows Grows Grows := ⟨Grows.trans⟩

theorem zero_of_page_ne {mem : PhysMem} {n a : ℕ} (h : a / pageSize ≠ n) :
    mem.zero (n * pageSize) pageSize a = mem a := by
  rw [PhysMem.zero, if_neg]
  simp only [pageSize] at h ⊢
  omega

theorem write_of_page_ne {mem : PhysMem} {t : BitVec 40} {i : BitVec 9} {e : BitVec 64} {a : ℕ}
    (h : t.toNat ≠ a / pageSize) : mem.write (entryAddr t i) e a = mem a := by
  have hi := i.isLt
  refine Function.update_of_ne (fun ha => h ?_) _ _
  rw [ha, entryAddr]
  simp only [pageSize]
  omega

theorem Level.grows {s s' : Globals} {p : List (BitVec 9)} {t : BitVec 40} {i : BitVec 9}
    {flags : BitVec 64} (h : Level s s' p t i flags) (hf : FlagsOk flags) : Grows s s' := by
  rcases ensureTable_cases h.inv.lists h.call with ⟨-, rfl⟩ | ⟨habs, n, htake, hpml4, hmem⟩
  · exact Grows.refl _
  · have hn := h.low n htake.handsOut
    have hnew := newTable_of_takes h.inv htake hn h.leads h.inner h.dom habs hf hmem
    have hroot : rootTable s' = rootTable s := by rw [rootTable, hpml4, rootTable]
    refine ⟨h.shrinks, fun q hq hout => ?_, fun v f hv hvf => ?_⟩
    · have hqn : n ≠ q := fun he => hout (he ▸ htake.handsOut)
      refine ⟨fun r w hr => ?_, fun a ha => ?_⟩
      · rw [hroot, hnew.leadsTo_iff h.inv.tree] at hr
        rcases hr with hr | ⟨-, rfl⟩
        · exact hq r w hr
        · rw [toNat_frame_entryOf hn hf]
          exact hqn
      · rw [hmem, toNat_pagePtr hn, write_of_page_ne (ha ▸ hq p t h.leads)]
        exact zero_of_page_ne (ha ▸ hqn.symm)
    · rw [(h.ensured hf).translated hv]
      exact hvf

theorem Mapped.mapped {s s' : Globals} {phys virt : BitVec 64} (h : Mapped s s' phys virt)
    {v : BitVec 64} {f : BitVec 40} (hv : Mappable v) (hf : translated s v = some f) :
    translated s' v = some f := by
  by_cases hpage : v >>> 12 = virt >>> 12
  · rw [translated_congr s hpage] at hf
    rw [translated_congr s' hpage, h.self, hf, Option.some_or]
  · rw [h.other v hv hpage]
    exact hf

theorem grows_lastWrite {s : Globals} {phys virt flags : BitVec 64} {p : List (BitVec 9)}
    {t : BitVec 40} {i : BitVec 9} (hi : Inv s) (hp : LeadsTo s.mem (rootTable s) p t)
    (hlast : p.length = 3)
    (hmap : Mapped s (lastWrite s t i (entryOf phys flags)) phys virt) :
    Grows s (lastWrite s t i (entryOf phys flags)) := by
  refine ⟨fun n => onFree_lastWrite.mp, fun q hq _ => ?_, fun v f => hmap.mapped⟩
  unfold lastWrite
  split
  · exact ⟨hq, fun _ _ => rfl⟩
  · have hnew : NewPage s.mem _ _ p t i (entryOf phys flags) := newPage_of_absent hp hlast
    refine ⟨fun r w hr => hq r w ((hnew.leadsTo_iff hi.tree r w).mp hr), fun a ha => ?_⟩
    exact write_of_page_ne (ha ▸ hq p t hp)

theorem Inv.mapPage_grows {s s' : Globals} {phys virt flags : BitVec 64} (hi : Inv s)
    (hl : LegalCall phys virt flags) (h : Loader.mapPage s phys virt flags = some s')
    (hlow : ∀ n, HandsOut s s' n → n < 2 ^ 20) : Grows s s' := by
  obtain ⟨s₁, s₂, s₃, t₂, t₃, t₄, hc⟩ := hi.mapPage_levels hl h hlow
  have hmap := hc.inv.lastLevel hc.leads rfl hl.virt_mappable hl.flags_ok hc.last
  rw [hc.last] at hmap ⊢
  calc Grows s s₁ := hc.first.grows hl.flags_ok
    Grows s₁ s₂ := hc.second.grows hl.flags_ok
    Grows s₂ s₃ := hc.third.grows hl.flags_ok
    Grows s₃ _ := grows_lastWrite hc.inv hc.leads rfl hmap

theorem TakesData.grows {s s' : Globals} {page : BitVec 64} {n : ℕ} (h : TakesData s s' page n) :
    Grows s s' := by
  refine ⟨fun k hk => ((h.takes.left k).mp hk).1, fun q hq hout => ⟨fun r w hr => ?_, ?_⟩, ?_⟩
  · exact hq r w ((h.tables.leadsTo_iff r w).mp hr)
  · intro a ha
    have hqn : q ≠ n := fun he => hout (he ▸ h.takes.handsOut)
    rw [h.mem_eq, toNat_pagePtr h.low]
    exact zero_of_page_ne (ha ▸ hqn)
  · intro v f hv hf
    rw [h.tables.translated hv]
    exact hf

theorem TakesData.noTable {s s' : Globals} {page : BitVec 64} {n : ℕ} (h : TakesData s s' page n)
    (hi : Inv s) : NoTable s' n := by
  intro q w hq hwn
  refine hi.ne_of_onFree h.takes.free h.low ((h.tables.leadsTo_iff q w).mp hq) ?_
  rw [← hwn, BitVec.ofNat_toNat, BitVec.setWidth_eq]

/-- Writing to a page that is no table. -/
theorem sameTables_of_noTable {s : Globals} {n : ℕ} {mem : PhysMem} (hn : NoTable s n)
    (hmem : ∀ a, a / pageSize ≠ n → mem a = s.mem a) : SameTables s { s with mem } := by
  refine ⟨rfl, fun q w j hq => hmem _ ?_⟩
  have hj := j.isLt
  have hwn := hn q w hq
  simp only [entryAddr, pageSize]
  omega

/-- A page that was just taken may be written to. -/
theorem Grows.overwrite {s s' : Globals} {n : ℕ} {mem : PhysMem} (h : Grows s s')
    (hout : HandsOut s s' n) (hn : NoTable s' n)
    (hmem : ∀ a, a / pageSize ≠ n → mem a = s'.mem a) : Grows s { s' with mem } := by
  have htables := sameTables_of_noTable hn hmem
  refine ⟨h.shrinks, fun q hq hkept => ⟨fun r w hr => ?_, fun a ha => ?_⟩, fun v f hv hf => ?_⟩
  · exact (h.keeps q hq hkept).1 r w ((htables.leadsTo_iff r w).mp hr)
  · have hqn : q ≠ n := fun he => hkept (he ▸ hout)
    exact (hmem a (ha ▸ hqn)).trans ((h.keeps q hq hkept).2 a ha)
  · rw [htables.translated hv]
    exact h.mapped v f hv hf

/-! Runs of such steps. -/

/-- The lists stay well formed, and no page becomes free. -/
def Shrinks (s s' : Globals) : Prop := WellFormed s' ∧ ∀ n, OnFree s' n → OnFree s n

section Shrinks

open Runs

variable {A : Type} {step : Globals → A → Option Globals} {s s' : Globals} {acts : List A}
  (hstep : ∀ s a s', WellFormed s → step s a = some s' → Shrinks s s')

include hstep

theorem shrinks_run (hs : WellFormed s) (hrun : run step s acts = some s') : Shrinks s s' := by
  induction acts generalizing s with
  | nil =>
    obtain rfl := Option.some.inj hrun
    exact ⟨hs, fun _ hn => hn⟩
  | cons a acts ih =>
    obtain ⟨s₁, h₁, hrun₁⟩ := run_cons.mp hrun
    obtain ⟨hs₁, hfree⟩ := hstep s a s₁ hs h₁
    obtain ⟨hs', hfree'⟩ := ih hs₁ hrun₁
    exact ⟨hs', fun n hn => hfree n (hfree' n hn)⟩

/-- What holds of all pages a run hands out holds of those each step hands out. -/
theorem handsOut_alongRun {Q : ℕ → Prop} (hs : WellFormed s) (hrun : run step s acts = some s')
    (hQ : ∀ n, HandsOut s s' n → Q n) :
    AlongRun step (fun t a => ∀ t', step t a = some t' → ∀ n, HandsOut t t' n → Q n) s acts := by
  induction acts generalizing s with
  | nil => trivial
  | cons a acts ih =>
    obtain ⟨s₁, h₁, hrun₁⟩ := run_cons.mp hrun
    obtain ⟨hs₁, hfree⟩ := hstep s a s₁ hs h₁
    obtain ⟨-, hfree'⟩ := shrinks_run hstep hs₁ hrun₁
    rw [alongRun_cons h₁]
    refine ⟨fun t h n hn => ?_, ih hs₁ hrun₁ fun n hn => hQ n (hn.widen hfree fun _ hk => hk)⟩
    obtain rfl := Option.some.inj (h₁.symm.trans h)
    exact hQ n (hn.widen (fun _ hk => hk) hfree')

end Shrinks

end CxKernel.Loader
