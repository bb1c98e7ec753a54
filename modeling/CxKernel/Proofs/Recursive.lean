import CxKernel.Proofs.Paging
import CxKernel.Spec.Mmu

/-! The recursive mapping. With the last entry of the PML4 naming the PML4, an address
that starts with that index is walked one level less, so it ends in a table. Which one
depends on the order of the indices that are left. -/

namespace CxKernel.Mmu

open Paging RadixWalk

/-- The tables below the PML4 that the walk of `v` goes through. -/
structure Through (mem : PhysMem) (root : BitVec 40) (v : BitVec 64) (t₁ t₂ t₃ : BitVec 40) :
    Prop where
  pml4e : Names mem root (v.extractLsb' 39 9) t₁
  pdpte : Names mem t₁ (v.extractLsb' 30 9) t₂
  pde : Names mem t₂ (v.extractLsb' 21 9) t₃

/-- The four pointers of `map_single_page` lead to the entries that the walk of `virt`
itself uses. -/
structure PointersHit (mem : PhysMem) (root : BitVec 40) (virt : BitVec 64)
    (t₁ t₂ t₃ : BitVec 40) : Prop where
  pml4e : translateAddr mem root (pml4ePtr virt) = some (entryAddr root (virt.extractLsb' 39 9))
  pdpte : translateAddr mem root (pdptePtr virt) = some (entryAddr t₁ (virt.extractLsb' 30 9))
  pde : translateAddr mem root (pdePtr virt) = some (entryAddr t₂ (virt.extractLsb' 21 9))
  pte : translateAddr mem root (ptePtr virt) = some (entryAddr t₃ (virt.extractLsb' 12 9))

/-- Where a pointer built from four indices leads. -/
theorem translateAddr_entryPtr (mem : PhysMem) (root : BitVec 40) (a b c d : BitVec 16) (shift : ℕ)
    (v : BitVec 64) :
    translateAddr mem root (entryPtr (virtFromIndex a b c d) (tableIndex shift v)) =
      (hwWalk mem root [a.setWidth 9, b.setWidth 9, c.setWidth 9, d.setWidth 9]).map
        fun f => entryAddr f (v.extractLsb' shift 9) := by
  have hlt := (v.extractLsb' shift 9).isLt
  have ho : (8 * (tableIndex shift v).setWidth 64 : BitVec 64).toNat =
      8 * (v.extractLsb' shift 9).toNat := by
    have h8 : (8 : BitVec 64).toNat = 8 := rfl
    rw [BitVec.toNat_mul, BitVec.toNat_setWidth, toNat_tableIndex, h8]
    omega
  obtain ⟨hpath, hoff⟩ := path_virtFromIndex_add a b c d
    (o := 8 * (tableIndex shift v).setWidth 64) (by rw [ho]; omega)
  rw [translateAddr, translatePage, entryPtr, hpath, hoff, ho]
  rfl

theorem map_entryAddr_iff {o : Option (BitVec 40)} {t : BitVec 40} {i : BitVec 9} :
    (o.map fun f => entryAddr f i) = some (entryAddr t i) ↔ o = some t := by
  cases o <;> simp [entryAddr_inj]

section Pointers

variable {mem : PhysMem} {root t₁ t₂ t₃ : BitVec 40} {virt : BitVec 64}

theorem Through.hwWalk_one (h : Through mem root virt t₁ t₂ t₃) :
    hwWalk mem root [virt.extractLsb' 39 9] = some t₁ := h.pml4e.hwWalk []

theorem Through.hwWalk_two (h : Through mem root virt t₁ t₂ t₃) :
    hwWalk mem root [virt.extractLsb' 39 9, virt.extractLsb' 30 9] = some t₂ := by
  rw [h.pml4e.hwWalk, h.pdpte.hwWalk]
  rfl

theorem Through.hwWalk_three (h : Through mem root virt t₁ t₂ t₃) :
    hwWalk mem root [virt.extractLsb' 39 9, virt.extractLsb' 30 9, virt.extractLsb' 21 9] =
      some t₃ := by
  rw [h.pml4e.hwWalk, h.pdpte.hwWalk, h.pde.hwWalk]
  rfl

/-- The tables `map_single_page` edits, found with the indices in its order, are the
right ones. -/
def OrderIrrelevant (mem : PhysMem) (root : BitVec 40) (virt : BitVec 64) : Prop :=
  hwWalk mem root [virt.extractLsb' 30 9, virt.extractLsb' 39 9] =
    hwWalk mem root [virt.extractLsb' 39 9, virt.extractLsb' 30 9] ∧
  hwWalk mem root [virt.extractLsb' 21 9, virt.extractLsb' 30 9, virt.extractLsb' 39 9] =
    hwWalk mem root [virt.extractLsb' 39 9, virt.extractLsb' 30 9, virt.extractLsb' 21 9]

/-- The pointers to the PML4 and the PDPT entry are right. The other two take their
indices in the wrong order. -/
theorem recursive_pointers_iff (hself : SelfMap mem root) (h : Through mem root virt t₁ t₂ t₃) :
    PointersHit mem root virt t₁ t₂ t₃ ↔ OrderIrrelevant mem root virt := by
  have h511 : (511 : BitVec 16).setWidth 9 = (511 : BitVec 9) := by decide
  have hpml4e : translateAddr mem root (pml4ePtr virt) =
      some (entryAddr root (virt.extractLsb' 39 9)) := by
    rw [pml4ePtr, pml4eIndex, translateAddr_entryPtr, h511, hself.hwWalk, hself.hwWalk, hself.hwWalk,
      hself.hwWalk]
    rfl
  have hpdpte : translateAddr mem root (pdptePtr virt) =
      some (entryAddr t₁ (virt.extractLsb' 30 9)) := by
    rw [pdptePtr, pdpteIndex, pml4eIndex, translateAddr_entryPtr, h511, setWidth_tableIndex,
      hself.hwWalk, hself.hwWalk, hself.hwWalk, h.hwWalk_one]
    rfl
  have hpde : translateAddr mem root (pdePtr virt) = some (entryAddr t₂ (virt.extractLsb' 21 9)) ↔
      hwWalk mem root [virt.extractLsb' 30 9, virt.extractLsb' 39 9] = some t₂ := by
    rw [pdePtr, pdeIndex, pdpteIndex, pml4eIndex, translateAddr_entryPtr, h511, setWidth_tableIndex,
      setWidth_tableIndex, hself.hwWalk, hself.hwWalk, map_entryAddr_iff]
  have hpte : translateAddr mem root (ptePtr virt) = some (entryAddr t₃ (virt.extractLsb' 12 9)) ↔
      hwWalk mem root [virt.extractLsb' 21 9, virt.extractLsb' 30 9, virt.extractLsb' 39 9] =
        some t₃ := by
    rw [ptePtr, pteIndex, pdeIndex, pdpteIndex, pml4eIndex, translateAddr_entryPtr, h511,
      setWidth_tableIndex, setWidth_tableIndex, setWidth_tableIndex, hself.hwWalk,
      map_entryAddr_iff]
  rw [OrderIrrelevant, h.hwWalk_two, h.hwWalk_three, ← hpde, ← hpte]
  exact ⟨fun hhit => ⟨hhit.pde, hhit.pte⟩, fun hhit => ⟨hpml4e, hpdpte, hhit.1, hhit.2⟩⟩

/-- A page for the PML4 and one for each level below, in which entry `i` of the PML4,
entry `j` of the PDPT and entry `k` of the PD name the next. -/
def chain (i j k : BitVec 9) : PhysMem := fun a =>
  if a = entryAddr 1 511 then 0x1003
  else if a = entryAddr 1 i then 0x2003
  else if a = entryAddr 2 j then 0x3003
  else if a = entryAddr 3 k then 0x4003
  else 0

theorem recursive_pointers_iff_equal_indices :
    PointersHit (chain 1 1 1) 1 (virtFromIndex 1 1 1 7) 2 3 4 :=
  (recursive_pointers_iff (by decide) ⟨by decide, by decide, by decide⟩).mpr
    ⟨by decide, by decide⟩

/-- The first page of the kernel's half: the page directory is not found. -/
theorem recursive_pointers_miss :
    SelfMap (chain 256 0 0) 1 ∧ Mappable 0xFFFF800000000000 ∧
      Through (chain 256 0 0) 1 0xFFFF800000000000 2 3 4 ∧
      ¬ PointersHit (chain 256 0 0) 1 0xFFFF800000000000 2 3 4 := by
  refine ⟨by decide, ⟨by decide, by decide⟩, ⟨by decide, by decide, by decide⟩, fun h => ?_⟩
  have hfault : translateAddr (chain 256 0 0) 1 (pdePtr 0xFFFF800000000000) = none := by decide
  rw [h.pde] at hfault
  cases hfault

/-- No entry above the last level is a large page. -/
def NoLarge (mem : PhysMem) (root : BitVec 40) : Prop :=
  ∀ p t i, LeadsTo mem root p t → p.length < 3 → NotSelf (p ++ [i]) →
    present (entries mem t i) = true → large (entries mem t i) = false

/-- A walk that ends above the last level ends in a table. -/
theorem leadsTo_of_hwWalk (hsmall : NoLarge mem root) {p r : List (BitVec 9)} {t u : BitVec 40}
    (hp : LeadsTo mem root p t) (hlen : p.length + r.length ≤ 3) (hd : NotSelf (p ++ r))
    (h : hwWalk mem t r = some u) : LeadsTo mem root (p ++ r) u := by
  induction r generalizing p t with
  | nil =>
    rw [Paging.hwWalk, Option.some_inj] at h
    rw [List.append_nil, ← h]
    exact hp
  | cons i r ih =>
    rw [List.length_cons] at hlen
    rw [List.append_cons] at hd ⊢
    have hd' : NotSelf (p ++ [i]) := notSelf_of_append _ r hd
    cases hpres : present (entries mem t i)
    · simp only [entries] at hpres
      simp [Paging.hwWalk, hpres] at h
    · have hl := hsmall p t i hp (by omega) hd' hpres
      have hnext := hp.next (by omega) hd' hpres hl
      rw [Names.hwWalk ⟨hpres, hl, rfl⟩] at h
      exact ih hnext (by rw [List.length_append, List.length_singleton]; omega) hd h

/-- In a hierarchy that is a tree, the order is irrelevant only to equal indices. -/
theorem orderIrrelevant_iff (htree : TableTree mem root) (hsmall : NoLarge mem root)
    (hself : SelfMap mem root) (hv : Mappable virt) (h : Through mem root virt t₁ t₂ t₃) :
    OrderIrrelevant mem root virt ↔
      virt.extractLsb' 39 9 = virt.extractLsb' 30 9 ∧
      virt.extractLsb' 30 9 = virt.extractLsb' 21 9 := by
  have hd : ∀ is, NotSelf (virt.extractLsb' 39 9 :: is) := fun is => notSelf_of_mappable hv
  have l₁ := h.pml4e.leadsTo (LeadsTo.root mem root) (by simp) (hd [])
  have l₂ := h.pdpte.leadsTo l₁ (by simp) (hd _)
  have l₃ := h.pde.leadsTo l₂ (by simp) (hd _)
  rw [OrderIrrelevant, h.hwWalk_two, h.hwWalk_three]
  refine ⟨?_, ?_⟩
  · rintro ⟨htwo, hthree⟩
    have hij : virt.extractLsb' 39 9 = virt.extractLsb' 30 9 := by
      by_cases hj : virt.extractLsb' 30 9 = 511
      · rw [hj, hself.hwWalk, h.hwWalk_one, Option.some_inj] at htwo
        exact absurd (htree _ _ _ (htwo ▸ l₁) l₂) (by simp)
      · have hd' : NotSelf [virt.extractLsb' 30 9, virt.extractLsb' 39 9] := by
          simpa [NotSelf] using hj
        have hl := leadsTo_of_hwWalk hsmall (LeadsTo.root mem root) (by simp) hd' htwo
        have he := htree _ _ _ l₂ hl
        simp at he
        exact he.1
    refine ⟨hij, ?_⟩
    by_cases hk : virt.extractLsb' 21 9 = 511
    · rw [hk, hself.hwWalk, htwo, Option.some_inj] at hthree
      exact absurd (htree _ _ _ (hthree ▸ l₂) l₃) (by simp)
    · have hd' : NotSelf [virt.extractLsb' 21 9, virt.extractLsb' 30 9, virt.extractLsb' 39 9] := by
        simpa [NotSelf] using hk
      have hl := leadsTo_of_hwWalk hsmall (LeadsTo.root mem root) (by simp) hd' hthree
      have he := htree _ _ _ l₃ hl
      simp at he
      exact hij.symm.trans he.1
  · rintro ⟨hij, hjk⟩
    rw [← hjk, ← hij]
    have htwo := h.hwWalk_two
    have hthree := h.hwWalk_three
    rw [← hjk, ← hij] at hthree
    rw [← hij] at htwo
    exact ⟨htwo, hthree⟩

end Pointers

end CxKernel.Mmu
