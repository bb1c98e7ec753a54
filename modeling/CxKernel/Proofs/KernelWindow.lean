import CxKernel.Proofs.KernelImage

/-! Where the load loop maps pages. The assertions on a header leave room for the kernel's
stack page, and for a sum that wraps. -/

namespace CxKernel.Loader

open Paging Runs

/-! The rounds of the inner loops. -/

/-- The offsets of the first `n` rounds. -/
def rounds (n : ℕ) : List (BitVec 64) := (List.range n).map fun j => .ofNat 64 (j * pageSize)

theorem rounds_succ (n : ℕ) : rounds (n + 1) = rounds n ++ [.ofNat 64 (n * pageSize)] := by
  rw [rounds, List.range_succ, List.map_append]
  rfl

section Rounds

variable {body : Globals → BitVec 64 → Option Globals} {bound : BitVec 64} {s s' t : Globals} {n : ℕ}

/-- The loop goes on after rounds that went through. -/
theorem forPages_eq_of_rounds (hbound : ∀ i ∈ rounds n, i < bound)
    (hrun : run body s (rounds n) = some t) :
    forPages body bound 0 s = forPages body bound (.ofNat 64 (n * pageSize)) t := by
  induction n generalizing t with
  | zero =>
    obtain rfl := Option.some.inj hrun
    rfl
  | succ n ih =>
    rw [rounds_succ] at hbound hrun
    obtain ⟨s₁, hrun₁, hlast⟩ := run_append.mp hrun
    obtain ⟨t', hbody, hnil⟩ := run_cons.mp hlast
    obtain rfl := Option.some.inj hnil
    have hlt := hbound _ (List.mem_append_right _ List.mem_cons_self)
    rw [ih (fun i hi => hbound i (List.mem_append_left _ hi)) hrun₁, forPages, if_pos hlt,
      hbody, Nat.succ_mul, BitVec.ofNat_add]
    rfl

/-- A loop that ends has gone through every round. -/
theorem exists_rounds (hend : forPages body bound 0 s = some s')
    (hbound : ∀ i ∈ rounds n, i < bound) : ∃ t, run body s (rounds n) = some t := by
  induction n with
  | zero => exact ⟨s, rfl⟩
  | succ n ih =>
    rw [rounds_succ] at hbound ⊢
    obtain ⟨t, hrun⟩ := ih fun i hi => hbound i (List.mem_append_left _ hi)
    have hlt := hbound _ (List.mem_append_right _ List.mem_cons_self)
    rw [forPages_eq_of_rounds (fun i hi => hbound i (List.mem_append_left _ hi)) hrun, forPages,
      if_pos hlt] at hend
    obtain ⟨t', hbody, -⟩ := Option.bind_eq_some_iff.mp hend
    exact ⟨t', run_append.mpr ⟨t, hrun, run_cons.mpr ⟨t', hbody, rfl⟩⟩⟩

end Rounds

/-! A segment. -/

/-- It is empty, or its size in memory wraps to zero when it is rounded up. -/
def MapsNothing (ph : Phdr) : Prop :=
  ph.pMemsz = 0 ∨ ph.pFilesz ≠ ph.pMemsz ∧ 2 ^ 64 - pageSize < ph.pMemsz.toNat

theorem lt_segmentBound_iff {ph : Phdr} {i : BitVec 64} (hi : i.toNat % pageSize = 0) :
    i < segmentBound ph ↔ ¬ MapsNothing ph ∧ i.toNat < ph.pMemsz.toNat := by
  have hzero : ph.pMemsz = 0 ↔ ph.pMemsz.toNat = 0 := BitVec.toNat_eq (y := 0)
  unfold MapsNothing segmentBound
  unfold pageSize at *
  rw [hzero]
  by_cases hsame : ph.pFilesz = ph.pMemsz
  · have hsame' := not_not.mpr hsame
    rw [if_neg hsame', ne_eq, eq_false hsame', false_and, or_false, BitVec.lt_def]
    omega
  · rw [if_pos hsame, ne_eq, eq_true hsame, true_and, BitVec.lt_def]
    by_cases hwrap : 2 ^ 64 ≤ ph.pMemsz.toNat + (2 ^ 12 - 1)
    · have hup : (pageAlignUp ph.pMemsz).toNat = 0 :=
        Words.roundUp_eq_zero (a := .ofNat 64 pageSize) (k := 12) rfl hwrap
      omega
    · have hup : ph.pMemsz.toNat ≤ (pageAlignUp ph.pMemsz).toNat ∧
          (pageAlignUp ph.pMemsz).toNat < ph.pMemsz.toNat + 2 ^ 12 ∧
          2 ^ 12 ∣ (pageAlignUp ph.pMemsz).toNat :=
        Words.toNat_roundUp (a := .ofNat 64 pageSize) (k := 12) rfl (Nat.lt_of_not_le hwrap)
      omega

section Segment

variable {image : BitVec 32} {ph : Phdr} {s s' : Globals} {j : Job}

theorem aligned_of_mapPage {phys virt flags : BitVec 64} (h : mapPage s phys virt flags = some s') :
    virt.toNat % pageSize = 0 := by
  unfold mapPage at h
  split_ifs at h with hphys hvirt
  exact pageAligned_iff.mp (not_not.mp hvirt)

/-- A round that goes through maps a page. -/
theorem aligned_of_loadPage (h : loadPage image s j = some s') :
    (jobVirt j).toNat % pageSize = 0 := by
  by_cases hsize : j.1.pFilesz = j.1.pMemsz
  · rw [loadPage, if_neg (not_not.mpr hsize)] at h
    exact aligned_of_mapPage h
  · obtain ⟨page, s₁, s₂, mem, -, hmap, -⟩ := loadPage_copies hsize h
    exact aligned_of_mapPage hmap

end Segment

/-! The loop. -/

/-- The loop maps a page at `w`: after the segments in front, in a round that goes through. -/
def LoadMaps (image : BitVec 32) (phdrs : List Phdr) (s : Globals) (w : BitVec 64) : Prop :=
  ∃ pre ph post s₁ t n, phdrs = pre ++ ph :: post ∧ loadElf image pre s = some s₁ ∧
    ph.pType = ptLoad ∧ Asserts ph ∧ (∀ i ∈ rounds (n + 1), i < segmentBound ph) ∧
    run (fun s i => loadPage image s (ph, i)) s₁ (rounds (n + 1)) = some t ∧
    w = ph.pVaddr + .ofNat 64 (n * pageSize)

/-- The page lies between `kernel_base` and `kernel_stack_limit`. -/
def InWindow (w : BitVec 64) : Prop :=
  kernelBase.toNat ≤ w.toNat ∧ w.toNat + pageSize ≤ kernelStackLimit.toNat

/-- What else is mapped lies elsewhere. -/
structure Apart (w : BitVec 64) : Prop where
  identity : 0x200000 ≤ w.toNat
  stack : w.toNat / pageSize ≠ kernelStackLimit.toNat / pageSize
  pfndb : w.toNat + pageSize ≤ Handoff.kernelPfndbBase.toNat
  selfMap : pml4eIndex w ≠ 511

theorem toNat_kernelStackLimit : kernelStackLimit.toNat = 0xFFFF807FFFFFF000 := by decide

theorem InWindow.apart {w : BitVec 64} (h : InWindow w) : Apart w := by
  have hpfndb : Handoff.kernelPfndbBase.toNat = 0xFFFF810000000000 := by decide
  obtain ⟨hbase, hlimit⟩ := h
  have hmappable : Mappable w := by
    refine mappable_of_kernel hbase ?_
    rw [toNat_kernelStackLimit] at hlimit
    rw [toNat_kernelLimit]
    omega
  rw [toNat_kernelBase] at hbase
  rw [toNat_kernelStackLimit] at hlimit
  unfold pageSize at hlimit
  refine ⟨by omega, ?_, ?_, hmappable.2⟩
  · rw [toNat_kernelStackLimit, pageSize]
    omega
  · rw [hpfndb, pageSize]
    omega

/-- The segment maps nothing, or ends below the stack page. -/
def StaysBelow (ph : Phdr) : Prop :=
  MapsNothing ph ∨ ph.pVaddr.toNat + ph.pMemsz.toNat ≤ kernelStackLimit.toNat

section Loop

variable {image : BitVec 32} {phdrs : List Phdr} {s s' : Globals} {w : BitVec 64}

theorem toNat_round {n : ℕ} : (BitVec.ofNat 64 (n * pageSize)).toNat % pageSize = 0 := by
  rw [BitVec.toNat_ofNat, pageSize]
  omega

theorem LoadMaps.aligned (h : LoadMaps image phdrs s w) : w.toNat % pageSize = 0 := by
  obtain ⟨pre, ph, post, s₁, t, n, -, -, -, -, -, hrun, rfl⟩ := h
  rw [rounds_succ] at hrun
  obtain ⟨s₂, -, hlast⟩ := run_append.mp hrun
  obtain ⟨t', hpage, -⟩ := run_cons.mp hlast
  exact aligned_of_loadPage hpage

/-- In any run, whether it gets to its end or not. -/
theorem inWindow_of_staysBelow (hbelow : ∀ ph ∈ loads phdrs, StaysBelow ph)
    (h : LoadMaps image phdrs s w) : InWindow w := by
  have halign := h.aligned
  obtain ⟨pre, ph, post, s₁, t, n, rfl, -, hload, ha, hbound, -, rfl⟩ := h
  have hph : ph ∈ loads (pre ++ ph :: post) :=
    List.mem_filter.mpr ⟨List.mem_append_right _ List.mem_cons_self, decide_eq_true hload⟩
  rw [rounds_succ] at hbound
  obtain ⟨hmaps, hinside⟩ := (lt_segmentBound_iff toNat_round).mp
    (hbound _ (List.mem_append_right _ List.mem_cons_self))
  have hend := (hbelow ph hph).resolve_left hmaps
  have hbase := BitVec.le_def.mp ha.base
  generalize BitVec.ofNat 64 (n * pageSize) = i at *
  have hsum : (ph.pVaddr + i).toNat = ph.pVaddr.toNat + i.toNat := by
    rw [BitVec.toNat_add, Nat.mod_eq_of_lt]
    have hlimit := kernelStackLimit.isLt
    omega
  rw [hsum] at halign
  rw [toNat_kernelStackLimit] at hend
  rw [InWindow, hsum, toNat_kernelStackLimit]
  unfold pageSize at *
  omega

/-- The run of a segment on the way. -/
theorem exists_loadSegment {pre post : List Phdr} {ph : Phdr}
    (h : loadElf image (pre ++ ph :: post) s = some s') :
    ∃ s₁ s₂, loadElf image pre s = some s₁ ∧ loadSegment image s₁ ph = some s₂ := by
  rw [loadElf, List.foldlM_append] at h
  obtain ⟨s₁, hpre, hrest⟩ := Option.bind_eq_some_iff.mp h
  obtain ⟨s₂, hsegment, -⟩ := loadElf_cons.mp hrest
  exact ⟨s₁, s₂, hpre, hsegment⟩

/-- A run that gets to its end maps every page of its segments. -/
theorem loadMaps_of_loadElf (h : loadElf image phdrs s = some s') {ph : Phdr}
    (hph : ph ∈ loads phdrs) (hmaps : ¬ MapsNothing ph) {n : ℕ}
    (hn : n * pageSize < ph.pMemsz.toNat) :
    LoadMaps image phdrs s (ph.pVaddr + .ofNat 64 (n * pageSize)) := by
  obtain ⟨hmem, hload⟩ := List.mem_filter.mp hph
  obtain ⟨pre, post, rfl⟩ := List.append_of_mem hmem
  obtain ⟨s₁, s₂, hpre, hsegment⟩ := exists_loadSegment h
  have hload := of_decide_eq_true hload
  have ha := loadSegment_asserts hload hsegment
  rw [loadSegment_eq_forPages hload ha] at hsegment
  have hbound : ∀ i ∈ rounds (n + 1), i < segmentBound ph := by
    intro i hi
    obtain ⟨j, hj, rfl⟩ := List.mem_map.mp hi
    refine (lt_segmentBound_iff toNat_round).mpr ⟨hmaps, ?_⟩
    have hlt := List.mem_range.mp hj
    rw [BitVec.toNat_ofNat]
    refine (Nat.mod_le _ _).trans_lt (lt_of_le_of_lt ?_ hn)
    exact Nat.mul_le_mul_right _ (Nat.le_of_lt_succ hlt)
  obtain ⟨t, hrun⟩ := exists_rounds hsegment hbound
  exact ⟨pre, ph, post, s₁, t, n, rfl, hpre, hload, ha, hbound, hrun, rfl⟩

/-- Such a run stays in the window only with segments that stay below the stack page. -/
theorem staysBelow_of_inWindow (h : loadElf image phdrs s = some s')
    (hwindow : ∀ w, LoadMaps image phdrs s w → InWindow w) :
    ∀ ph ∈ loads phdrs, StaysBelow ph := by
  intro ph hph
  by_contra hnot
  obtain ⟨hmaps, hend⟩ := not_or.mp hnot
  have hsize : ph.pMemsz.toNat ≠ 0 := fun hzero => hmaps (Or.inl (BitVec.eq_of_toNat_eq hzero))
  have hv : ph.pVaddr.toNat % pageSize = 0 := by
    have hfirst := loadMaps_of_loadElf h hph hmaps (n := 0) (by omega)
    rw [Nat.zero_mul, BitVec.add_zero] at hfirst
    exact hfirst.aligned
  -- the stack page, or the first page if that lies further up
  have hvlt := ph.pVaddr.isLt
  rw [toNat_kernelStackLimit] at hend
  let n := (0xFFFF807FFFFFF000 - ph.pVaddr.toNat) / pageSize
  have hn : n * pageSize = 0xFFFF807FFFFFF000 - ph.pVaddr.toNat := by
    simp only [n]
    unfold pageSize at *
    omega
  have hlast := loadMaps_of_loadElf h hph hmaps (n := n) (by omega)
  have hbeyond := (hwindow _ hlast).2
  rw [hn, BitVec.toNat_add, BitVec.toNat_ofNat, toNat_kernelStackLimit] at hbeyond
  unfold pageSize at hbeyond
  omega

/-- The segments stay in the window if they end below the stack page; in a run that gets to
its end, only then. -/
theorem segments_in_window_iff (image : BitVec 32) (phdrs : List Phdr) (s : Globals) :
    ((∀ ph ∈ loads phdrs, StaysBelow ph) →
      ∀ w, LoadMaps image phdrs s w → InWindow w ∧ Apart w) ∧
    ∀ s', loadElf image phdrs s = some s' →
      ((∀ w, LoadMaps image phdrs s w → InWindow w) ↔ ∀ ph ∈ loads phdrs, StaysBelow ph) := by
  have hstays : (∀ ph ∈ loads phdrs, StaysBelow ph) → ∀ w, LoadMaps image phdrs s w → InWindow w :=
    fun hbelow w hw => inWindow_of_staysBelow hbelow hw
  refine ⟨fun hbelow w hw => ?_, fun s' h => ⟨staysBelow_of_inWindow h, hstays⟩⟩
  have hin := hstays hbelow w hw
  exact ⟨hin, hin.apart⟩

end Loop

/-! A segment of one byte on the stack page. -/

def stackPhdr : Phdr where
  pType := ptLoad
  pOffset := 0x1000
  pVaddr := kernelStackLimit
  pFilesz := 1
  pMemsz := 1
  pAlign := 0x1000

theorem stack_legal : LegalElf tinyModule [stackPhdr] := by
  have hloads : loads [stackPhdr] = [stackPhdr] := rfl
  refine ⟨?_, ?_, ?_, ?_, ?_, ?_⟩ <;> rw [hloads]
  · decide
  · decide
  · decide
  · decide
  · decide
  · exact List.pairwise_singleton _ _

theorem segments_in_window_iff_tiny :
    ∃ s₀ s s', MainRun pcImage tinyModule flatMmap (fun _ => 0) [tinyPhdr] s₀ s s' ∧
      ∀ w, LoadMaps tinyModule.modStart [tinyPhdr] s w → InWindow w := by
  obtain ⟨s₀, s, s', hm⟩ := exists_tinyRun fun _ => 0
  refine ⟨s₀, s, s', hm, ((segments_in_window_iff tinyModule.modStart [tinyPhdr] s).2 s'
    hm.load).mpr fun ph hph => ?_⟩
  obtain rfl := List.mem_singleton.mp hph
  exact Or.inr (by decide)

/-- It passes the assertions, and is mapped over the kernel's stack. -/
theorem stack_page_mapped :
    ∃ s₀ s s', MainRun pcImage tinyModule flatMmap (fun _ => 0) [stackPhdr] s₀ s s' ∧
      LoadMaps tinyModule.modStart [stackPhdr] s kernelStackLimit ∧
      ¬ InWindow kernelStackLimit := by
  have hasserts : ∀ ph ∈ loads [stackPhdr], Asserts ph := by
    intro ph hload
    obtain rfl := List.mem_singleton.mp hload
    exact ⟨by decide, by decide, by decide⟩
  obtain ⟨s₀, s, s', hm⟩ := exists_pcRun (fun _ => 0) stack_legal hasserts rfl
  refine ⟨s₀, s, s', hm, ?_, ?_⟩
  · have hmaps : ¬ MapsNothing stackPhdr := by
      rintro (hzero | ⟨hne, -⟩)
      · exact absurd hzero (by decide)
      · exact hne rfl
    have hph : stackPhdr ∈ loads [stackPhdr] := List.mem_cons_self
    exact loadMaps_of_loadElf hm.load hph hmaps (n := 0) (by decide)
  · exact fun hin => absurd hin.2 (by decide)

end CxKernel.Loader
