import CxKernel.Lib.Runs
import CxKernel.Lib.Words
import CxKernel.Proofs.LoadElf
import Mathlib.Data.Set.Card

/-! The load loop as a run over the pages of the segments, and how much a run may load:
every page it copies takes a page of its own. -/

namespace CxKernel.Loader

open LinkedList Paging Runs

/-! The inner loops. -/

/-- The values `i` takes while it goes through so many bytes. -/
def pageOffsets (bytes : ℕ) : List (BitVec 64) :=
  (List.range ((bytes + 4095) / 4096)).map fun n => .ofNat 64 (n * pageSize)

/-- Adding a page to `i` does not wrap before `bound` is reached. -/
def Fits64 (bound : BitVec 64) : Prop := bound.toNat + pageSize ≤ 2 ^ 64

theorem forPages_from {body : Globals → BitVec 64 → Option Globals} {bound : BitVec 64}
    (hfit : Fits64 bound) (m n : ℕ) (s : Globals) (hn : n + m = (bound.toNat + 4095) / 4096) :
    forPages body bound (.ofNat 64 (n * pageSize)) s =
      run body s ((List.range' n m).map fun k => .ofNat 64 (k * pageSize)) := by
  have hnat : (BitVec.ofNat 64 (n * pageSize)).toNat = n * pageSize := by
    rw [BitVec.toNat_ofNat]
    simp only [Fits64, pageSize] at *
    omega
  induction m generalizing n s with
  | zero =>
    have hend : ¬ BitVec.ofNat 64 (n * pageSize) < bound := by
      rw [BitVec.lt_def, hnat]
      simp only [pageSize]
      omega
    rw [forPages, if_neg hend]
    rfl
  | succ m ih =>
    have hgo : BitVec.ofNat 64 (n * pageSize) < bound := by
      rw [BitVec.lt_def, hnat]
      simp only [pageSize]
      omega
    have hnext : BitVec.ofNat 64 (n * pageSize) + .ofNat 64 pageSize =
        .ofNat 64 ((n + 1) * pageSize) := by
      rw [← BitVec.ofNat_add, Nat.add_mul, Nat.one_mul]
    rw [forPages, if_pos hgo, List.range'_succ, List.map_cons, run, hnext]
    refine congrArg _ (funext fun s₁ => ih (n + 1) s₁ (by omega) ?_)
    rw [BitVec.toNat_ofNat]
    simp only [Fits64, pageSize] at *
    omega

theorem forPages_eq_run {body : Globals → BitVec 64 → Option Globals} {bound : BitVec 64}
    (hfit : Fits64 bound) (s : Globals) :
    forPages body bound 0 s = run body s (pageOffsets bound.toNat) := by
  have h : forPages body bound (.ofNat 64 (0 * pageSize)) s = _ :=
    forPages_from hfit _ 0 s (Nat.zero_add _)
  rw [← List.range_eq_range'] at h
  exact h

theorem pageOffsets_alignUp {bound : BitVec 64} (hfit : Fits64 bound) :
    Fits64 (pageAlignUp bound) ∧ pageOffsets (pageAlignUp bound).toNat =
      pageOffsets bound.toNat := by
  have hlt : bound.toNat + (2 ^ 12 - 1) < 2 ^ 64 := by
    simp only [Fits64, pageSize] at hfit
    omega
  have hup : bound.toNat ≤ (pageAlignUp bound).toNat ∧
      (pageAlignUp bound).toNat < bound.toNat + 2 ^ 12 ∧ 2 ^ 12 ∣ (pageAlignUp bound).toNat :=
    Words.toNat_roundUp (a := .ofNat 64 pageSize) (k := 12) rfl hlt
  obtain ⟨c, hc⟩ := hup.2.2
  refine ⟨?_, ?_⟩
  · simp only [Fits64, pageSize] at hfit ⊢
    omega
  · unfold pageOffsets
    congr 2
    omega

/-! The outer loop. -/

/-- The pages of the segments, in the order in which the loop goes through them. -/
def jobs (phdrs : List Phdr) : List Job :=
  (loads phdrs).flatMap fun ph => (pageOffsets ph.pMemsz.toNat).map fun i => (ph, i)

/-- What the loop asserts of a header. -/
structure Asserts (ph : Phdr) : Prop where
  align : ph.pAlign = .ofNat 64 pageSize
  base : ph.pVaddr ≥ kernelBase
  limit : ph.pVaddr + ph.pMemsz < kernelLimit

theorem loadSegment_asserts {image : BitVec 32} {s s' : Globals} {ph : Phdr}
    (hload : ph.pType = ptLoad) (h : loadSegment image s ph = some s') : Asserts ph := by
  unfold loadSegment at h
  rw [if_neg (not_not.mpr hload)] at h
  split_ifs at h with halign hbase hlimit
  all_goals exact ⟨not_not.mp halign, hbase, hlimit⟩

/-- The bound of the inner loop of a segment. -/
def segmentBound (ph : Phdr) : BitVec 64 :=
  if ph.pFilesz ≠ ph.pMemsz then pageAlignUp ph.pMemsz else ph.pMemsz

theorem loadSegment_eq_forPages {image : BitVec 32} {ph : Phdr} (hload : ph.pType = ptLoad)
    (ha : Asserts ph) (s : Globals) :
    loadSegment image s ph =
      forPages (fun s i => loadPage image s (ph, i)) (segmentBound ph) 0 s := by
  unfold loadSegment
  rw [if_neg (not_not.mpr hload), if_neg (not_not.mpr ha.align), if_neg (not_not.mpr ha.base),
    if_neg (not_not.mpr ha.limit)]
  by_cases hsize : ph.pFilesz = ph.pMemsz
  · simp only [loadPage, segmentBound, ne_eq, hsize, not_true_eq_false, if_false, jobVirt]
  · simp only [loadPage, segmentBound, ne_eq, hsize, not_false_eq_true, if_true]

/-- Rounding the bound up adds no page. -/
theorem pageOffsets_segmentBound {ph : Phdr} (hfit : Fits64 ph.pMemsz) :
    Fits64 (segmentBound ph) ∧
      pageOffsets (segmentBound ph).toNat = pageOffsets ph.pMemsz.toNat := by
  unfold segmentBound
  split_ifs with hsize
  · exact pageOffsets_alignUp hfit
  · exact ⟨hfit, rfl⟩

theorem loadSegment_eq_run {image : BitVec 32} {ph : Phdr} (hload : ph.pType = ptLoad)
    (ha : Asserts ph) (hfit : Fits64 ph.pMemsz) (s : Globals) :
    loadSegment image s ph =
      run (loadPage image) s ((pageOffsets ph.pMemsz.toNat).map fun i => (ph, i)) := by
  obtain ⟨hfit', hoffsets⟩ := pageOffsets_segmentBound hfit
  rw [loadSegment_eq_forPages hload ha, forPages_eq_run hfit', hoffsets, run_map]

theorem jobs_cons_load {ph : Phdr} (hload : ph.pType = ptLoad) (phdrs : List Phdr) :
    jobs (ph :: phdrs) =
      ((pageOffsets ph.pMemsz.toNat).map fun i => (ph, i)) ++ jobs phdrs := by
  simp [jobs, loads, hload]

theorem jobs_cons_other {ph : Phdr} (hload : ph.pType ≠ ptLoad) (phdrs : List Phdr) :
    jobs (ph :: phdrs) = jobs phdrs := by
  simp [jobs, loads, hload]

theorem loadElf_cons {image : BitVec 32} {s s' : Globals} {ph : Phdr} {phdrs : List Phdr} :
    loadElf image (ph :: phdrs) s = some s' ↔
      ∃ s₁, loadSegment image s ph = some s₁ ∧ loadElf image phdrs s₁ = some s' := by
  rw [loadElf, List.foldlM_cons]
  exact Option.bind_eq_some_iff

/-- The loop is a run over the pages, once every header passes its assertions. -/
theorem loadElf_iff_run {image : BitVec 32} {phdrs : List Phdr} {s s' : Globals}
    (hfit : ∀ ph ∈ loads phdrs, Fits64 ph.pMemsz) :
    loadElf image phdrs s = some s' ↔
      (∀ ph ∈ loads phdrs, Asserts ph) ∧ run (loadPage image) s (jobs phdrs) = some s' := by
  induction phdrs generalizing s with
  | nil => simp [loadElf, jobs, loads, run]
  | cons ph phdrs ih =>
    by_cases hload : ph.pType = ptLoad
    · have hloads : loads (ph :: phdrs) = ph :: loads phdrs := by simp [loads, hload]
      rw [hloads] at hfit ⊢
      obtain ⟨hph, hrest⟩ := List.forall_mem_cons.mp hfit
      rw [loadElf_cons, List.forall_mem_cons, jobs_cons_load hload, run_append]
      refine ⟨?_, ?_⟩
      · rintro ⟨s₁, hseg, helf⟩
        have ha := loadSegment_asserts hload hseg
        obtain ⟨hasserts, hrun⟩ := (ih hrest).mp helf
        exact ⟨⟨ha, hasserts⟩, s₁, by rw [← loadSegment_eq_run hload ha hph, hseg], hrun⟩
      · rintro ⟨⟨ha, hasserts⟩, s₁, hrun, hrun'⟩
        exact ⟨s₁, by rw [loadSegment_eq_run hload ha hph, hrun], (ih hrest).mpr ⟨hasserts, hrun'⟩⟩
    · have hloads : loads (ph :: phdrs) = loads phdrs := by simp [loads, hload]
      have hskip : loadSegment image s ph = some s := by rw [loadSegment, if_pos hload]
      rw [hloads] at hfit ⊢
      rw [loadElf_cons, jobs_cons_other hload, ← ih hfit]
      simp [hskip]

/-! The pages of the segments. -/

theorem mem_jobs {phdrs : List Phdr} {j : Job} (h : j ∈ jobs phdrs) : PageJob phdrs j := by
  simp only [jobs, pageOffsets, List.mem_flatMap, List.mem_map, List.mem_range,
    exists_exists_and_eq_and] at h
  obtain ⟨ph, hload, n, hn, rfl⟩ := h
  have hlt := ph.pMemsz.isLt
  have hnat : (BitVec.ofNat 64 (n * pageSize)).toNat = n * pageSize := by
    rw [BitVec.toNat_ofNat, pageSize]
    omega
  refine ⟨hload, ?_, ?_⟩
  · rw [hnat, Nat.mul_mod_left]
  · change (BitVec.ofNat 64 (n * pageSize)).toNat < ph.pMemsz.toNat
    rw [hnat, pageSize]
    omega

theorem toNat_pageOffset {k : ℕ} (hk : k < 2 ^ 64) :
    (BitVec.ofNat 64 (k / pageSize * pageSize)).toNat = k / pageSize * pageSize := by
  rw [BitVec.toNat_ofNat, pageSize]
  omega

/-- Every byte of a segment is on one of them. -/
theorem jobs_cover {phdrs : List Phdr} {ph : Phdr} (hload : ph ∈ loads phdrs) {k : ℕ}
    (hk : k < ph.pMemsz.toNat) : (ph, .ofNat 64 (k / pageSize * pageSize)) ∈ jobs phdrs := by
  simp only [jobs, pageOffsets, List.mem_flatMap, List.mem_map, List.mem_range,
    exists_exists_and_eq_and]
  refine ⟨ph, hload, k / pageSize, ?_, rfl⟩
  rw [pageSize]
  omega

theorem pairwise_pageOffsets {ph : Phdr} :
    ((pageOffsets ph.pMemsz.toNat).map fun i => (ph, i)).Pairwise
      fun j j' => j.1 = ph ∧ j'.1 = ph ∧ j.2.toNat / pageSize ≠ j'.2.toNat / pageSize := by
  have hlt := ph.pMemsz.isLt
  rw [List.pairwise_map, pageOffsets, List.pairwise_map]
  refine List.nodup_range.imp_of_mem fun {n m} hn hm hne => ⟨rfl, rfl, ?_⟩
  rw [List.mem_range] at hn hm
  rw [BitVec.toNat_ofNat, BitVec.toNat_ofNat]
  rw [pageSize]
  omega

theorem page_eq_iff {v w : BitVec 64} :
    v >>> 12 = w >>> 12 ↔ v.toNat / pageSize = w.toNat / pageSize := by
  rw [← BitVec.toNat_inj, BitVec.toNat_ushiftRight, BitVec.toNat_ushiftRight,
    Nat.shiftRight_eq_div_pow, Nat.shiftRight_eq_div_pow]
  rfl

theorem LegalElf.jobs_apart {module : ModuleTag} {phdrs : List Phdr}
    (he : LegalElf module phdrs) :
    (jobs phdrs).Pairwise fun j j' => jobVirt j >>> 12 ≠ jobVirt j' >>> 12 := by
  have hpages : (jobs phdrs).Pairwise fun j j' =>
      (j.1.pVaddr.toNat + j.2.toNat) / pageSize ≠ (j'.1.pVaddr.toNat + j'.2.toNat) / pageSize := by
    refine List.pairwise_flatMap.mpr ⟨fun ph hload => ?_, ?_⟩
    · refine pairwise_pageOffsets.imp ?_
      rintro ⟨_, i⟩ ⟨_, i'⟩ ⟨rfl, rfl, hne⟩
      have hv := he.vaddr _ hload
      dsimp only at hv hne ⊢
      rw [pageSize] at *
      omega
    · refine he.disjoint.imp_of_mem fun {ph ph'} hload hload' hdis j hj j' hj' => ?_
      have hin := mem_jobs (List.mem_flatMap.mpr ⟨ph, hload, hj⟩)
      have hin' := mem_jobs (List.mem_flatMap.mpr ⟨ph', hload', hj'⟩)
      obtain ⟨i, -, rfl⟩ := List.mem_map.mp hj
      obtain ⟨i', -, rfl⟩ := List.mem_map.mp hj'
      exact hdis _ hin.inside _ hin'.inside
  refine hpages.imp_of_mem fun {j j'} hj hj' hne hpage => hne ?_
  rw [page_eq_iff, he.toNat_jobVirt (mem_jobs hj), he.toNat_jobVirt (mem_jobs hj')] at hpage
  exact hpage

/-! How much fits. -/

/-- A page of a segment whose sizes differ is copied. -/
def isCopied (j : Job) : Bool := j.1.pFilesz ≠ j.1.pMemsz

theorem shrinks_loadPage {image : BitVec 32} {s s' : Globals} {j : Job} (hs : WellFormed s)
    (h : loadPage image s j = some s') :
    Shrinks s s' ∧ (isCopied j = true → ∃ n, HandsOut s s' n) := by
  by_cases hsize : j.1.pFilesz = j.1.pMemsz
  · rw [loadPage, if_neg (not_not.mpr hsize)] at h
    exact ⟨mapPage_wellFormed hs h, fun hcopied => by simp [isCopied, hsize] at hcopied⟩
  · obtain ⟨page, s₁, s₂, mem, halloc, hmap, rfl, -⟩ := loadPage_copies hsize h
    obtain ⟨n, htake, -⟩ := pmmAllocPage_takes hs halloc
    obtain ⟨hw, hfree⟩ := mapPage_wellFormed htake.lists hmap
    have hshrinks : ∀ k, OnFree s₂ k → OnFree s k := fun k hk =>
      ((htake.left k).mp (hfree k hk)).1
    have hout : HandsOut s s₂ n := ⟨htake.free, fun hk => htake.handsOut.2 (hfree n hk)⟩
    exact ⟨⟨hw, hshrinks⟩, fun _ => ⟨n, hout⟩⟩

theorem shrinks_loadPages {image : BitVec 32} {s s' : Globals} {js : List Job}
    (hs : WellFormed s) (hrun : run (loadPage image) s js = some s') : Shrinks s s' :=
  shrinks_run (fun _ _ _ hs h => (shrinks_loadPage hs h).1) hs hrun

theorem finite_onFree {s : Globals} (hs : WellFormed s) : {n | OnFree s n}.Finite := by
  obtain ⟨σ, hσ⟩ := hs
  exact (List.finite_toSet (σ .freelist)).subset fun n hn => (onFree_iff hσ n).mp hn

/-- A run takes at least as many pages as it copies. -/
theorem copied_le_handsOut {image : BitVec 32} {s s' : Globals} {js : List Job}
    (hs : WellFormed s) (hrun : run (loadPage image) s js = some s') :
    js.countP isCopied ≤ {n | HandsOut s s' n}.ncard := by
  induction js generalizing s with
  | nil => exact Nat.zero_le _
  | cons j js ih =>
    obtain ⟨s₁, hstep, hrun₁⟩ := run_cons.mp hrun
    obtain ⟨⟨hs₁, hshrinks⟩, htakes⟩ := shrinks_loadPage hs hstep
    obtain ⟨-, hshrinks'⟩ := shrinks_loadPages hs₁ hrun₁
    have hfin : {n | HandsOut s s' n}.Finite := (finite_onFree hs).subset fun n hn => hn.1
    have hsub : {n | HandsOut s₁ s' n} ⊆ {n | HandsOut s s' n} := fun n hn =>
      hn.widen hshrinks fun _ hk => hk
    rw [List.countP_cons]
    split
    · next hcopied =>
      obtain ⟨n, hn⟩ := htakes hcopied
      have hnew : n ∉ {n | HandsOut s₁ s' n} := fun hn' => hn.2 hn'.1
      have hins : insert n {n | HandsOut s₁ s' n} ⊆ {n | HandsOut s s' n} :=
        Set.insert_subset (hn.widen (fun _ hk => hk) hshrinks') hsub
      calc js.countP isCopied + 1 ≤ {n | HandsOut s₁ s' n}.ncard + 1 :=
            Nat.add_le_add_right (ih hs₁ hrun₁) 1
        _ = (insert n {n | HandsOut s₁ s' n}).ncard :=
            (Set.ncard_insert_of_notMem hnew (hfin.subset hsub)).symm
        _ ≤ {n | HandsOut s s' n}.ncard := Set.ncard_le_ncard hins hfin
    · exact (ih hs₁ hrun₁).trans (Set.ncard_le_ncard hsub hfin)

/-- Below 4 GiB there is a page for the first table, and fewer than `2 ^ 20` others. -/
theorem memsz_lt_of_low {image : BitVec 32} {s s' : Globals} {phdrs : List Phdr} (hi : Inv s)
    (hrun : run (loadPage image) s (jobs phdrs) = some s')
    (hlow : ∀ n, HandsOut s s' n → n < 2 ^ 20) {ph : Phdr} (hload : ph ∈ loads phdrs)
    (hsize : ph.pFilesz ≠ ph.pMemsz) : ph.pMemsz.toNat < 2 ^ 32 := by
  let pages := (pageOffsets ph.pMemsz.toNat).map fun i => (ph, i)
  have hroot := LeadsTo.root s.mem (rootTable s)
  have hsub : {n | HandsOut s s' n} ⊆ ((Finset.range (2 ^ 20)).erase (rootTable s).toNat : Set ℕ) := by
    intro n hn
    rw [Finset.coe_erase, Finset.coe_range]
    exact ⟨hlow n hn, fun he => hi.taken _ _ hroot (he ▸ hn.1)⟩
  have hcard : {n | HandsOut s s' n}.ncard ≤ 2 ^ 20 - 1 := by
    refine (Set.ncard_le_ncard hsub (Finset.finite_toSet _)).trans ?_
    rw [Set.ncard_coe_finset, Finset.card_erase_of_mem (Finset.mem_range.mpr (hi.low _ _ hroot)),
      Finset.card_range]
  have hcount : pages.countP isCopied = (ph.pMemsz.toNat + 4095) / 4096 := by
    rw [List.countP_eq_length.mpr, List.length_map, pageOffsets, List.length_map,
      List.length_range]
    intro j hj
    obtain ⟨i, -, rfl⟩ := List.mem_map.mp hj
    simpa [isCopied] using hsize
  have hpages : pages.Sublist (jobs phdrs) := by
    rw [jobs, List.flatMap_def]
    exact List.sublist_flatten_of_mem (List.mem_map.mpr ⟨ph, hload, rfl⟩)
  have hle := (hpages.countP_le (p := isCopied)).trans (copied_le_handsOut hi.lists hrun)
  omega

theorem LegalElf.fits {module : ModuleTag} {phdrs : List Phdr} (he : LegalElf module phdrs) :
    ∀ ph ∈ loads phdrs, Fits64 ph.pMemsz := by
  intro ph hload
  rcases Nat.eq_zero_or_pos ph.pMemsz.toNat with hzero | hpos
  · rw [Fits64, hzero]
    decide
  · obtain ⟨hbase, hlimit⟩ := he.inKernel ph hload (ph.pMemsz.toNat - 1) (by omega)
    have hstart := (he.inKernel ph hload 0 hpos).1
    rw [toNat_kernelLimit] at hlimit
    rw [toNat_kernelBase] at hstart
    rw [Fits64, pageSize]
    omega

/-! The identity map. -/

theorem legalCall_identity {i : ℕ} (hi : i < 512) :
    LegalCall (.ofNat 64 (i * pageSize)) (.ofNat 64 (i * pageSize)) loadFlags := by
  have hnat : (BitVec.ofNat 64 (i * pageSize)).toNat = i * 4096 := by
    rw [BitVec.toNat_ofNat, pageSize]
    omega
  refine ⟨?_, ?_, ?_, mappable_of_low ?_, loadFlags_ok⟩
  · omega
  · rw [hnat]
    exact Nat.mul_mod_left i 4096
  · rw [hnat]
    exact Nat.mul_mod_left i 4096
  · omega

/-- One round of the identity map. -/
def identityPage (s : Globals) (i : ℕ) : Option Globals :=
  mapPage s (.ofNat 64 (i * pageSize)) (.ofNat 64 (i * pageSize)) loadFlags

theorem identityMap_eq_run (s : Globals) :
    identityMap s = run identityPage s (List.range 512) := by
  have hcount : 0x200000 / pageSize = 512 := rfl
  rw [run_eq_foldlM, identityMap, hcount]
  rfl

/-- What the identity map keeps up: addresses above it are left alone. -/
structure IdentityMapped (s t : Globals) : Prop where
  inv : Inv t
  grows : Grows s t
  above : ∀ v, Mappable v → 0x200000 ≤ v.toNat → translated t v = translated s v

theorem preserves_identityMapped (s : Globals) :
    Preserves identityPage (IdentityMapped s) fun t i => i < 512 ∧
      ∀ t', identityPage t i = some t' → ∀ n, HandsOut t t' n → n < 2 ^ 20 := by
  intro t i t' ht hi hstep
  have hl := legalCall_identity hi.1
  have hlow := hi.2 t' hstep
  have hmap := ht.inv.mapPage hl hstep hlow
  refine ⟨hmap.inv, ht.grows.trans (ht.inv.mapPage_grows hl hstep hlow), fun v hv hhigh => ?_⟩
  rw [hmap.other v hv, ht.above v hv hhigh]
  intro hpage
  have hn := page_eq_iff.mp hpage
  rw [BitVec.toNat_ofNat, pageSize] at hn
  omega

theorem shrinks_identityPage (s : Globals) (i : ℕ) (s' : Globals) (hs : WellFormed s)
    (h : identityPage s i = some s') : Shrinks s s' := mapPage_wellFormed hs h

theorem shrinks_identityMap {s s' : Globals} (hs : WellFormed s) (h : identityMap s = some s') :
    Shrinks s s' := by
  rw [identityMap_eq_run] at h
  exact shrinks_run shrinks_identityPage hs h

theorem run_identityPage {s s' : Globals} {n : ℕ} (hi : Inv s)
    (h : run identityPage s (List.range n) = some s') (hn : n ≤ 512)
    (hlow : ∀ n, HandsOut s s' n → n < 2 ^ 20) : IdentityMapped s s' := by
  have hrange : AlongRun identityPage (fun _ i => i < 512) s (List.range n) :=
    AlongRun.of_forall_mem fun _ hi => (List.mem_range.mp hi).trans_le hn
  have hout := handsOut_alongRun shrinks_identityPage hi.lists h hlow
  exact (preserves_identityMapped s).after_run ⟨hi, Grows.refl s, fun _ _ _ => rfl⟩
    (hrange.and hout) h

theorem identityMap_mapped {s s' : Globals} (hi : Inv s) (h : identityMap s = some s')
    (hlow : ∀ n, HandsOut s s' n → n < 2 ^ 20) : IdentityMapped s s' := by
  rw [identityMap_eq_run] at h
  exact run_identityPage hi h (Nat.le_refl 512) hlow

/-! The loops go through where memory suffices. -/

/-- So many pages are free, and none beyond 4 GiB. -/
structure Room (s : Globals) (k : ℕ) : Prop where
  free : HasFree s k
  low : ∀ n, OnFree s n → n < 2 ^ 20

theorem Room.wellFormed {s : Globals} {k : ℕ} (h : Room s k) : WellFormed s := by
  obtain ⟨σ, hσ, -⟩ := h.free
  exact ⟨σ, hσ⟩

theorem Room.setMem {s : Globals} {k : ℕ} (h : Room s k) (mem : PhysMem) :
    Room { s with mem } k := ⟨h.free, h.low⟩

theorem Room.mapPage {s : Globals} {phys virt flags : BitVec 64} {k : ℕ} (h : Room s (k + 3))
    (hl : LegalCall phys virt flags) : ∃ s', mapPage s phys virt flags = some s' ∧ Room s' k := by
  obtain ⟨s', hmap, hfree⟩ := h.free.mapPage hl
  have hshrinks := (mapPage_wellFormed h.wellFormed hmap).2
  exact ⟨s', hmap, hfree, fun n hn => h.low n (hshrinks n hn)⟩

theorem Room.pmmAllocPage {s : Globals} {k : ℕ} (h : Room s (k + 1)) :
    ∃ n s', n < 2 ^ 20 ∧ pmmAllocPage s = some (pageAddr n, s') ∧ Room s' k := by
  obtain ⟨page, s', halloc, hfree⟩ := h.free.pmmAllocPage
  obtain ⟨n, htake, rfl, -⟩ := pmmAllocPage_takes h.wellFormed halloc
  exact ⟨n, s', h.low n htake.free, halloc, hfree, fun m hm => h.low m ((htake.left m).mp hm).1⟩

theorem Room.loadPage {module : ModuleTag} {phdrs : List Phdr} (he : LegalElf module phdrs)
    {s : Globals} {j : Job} {k : ℕ} (h : Room s (k + 4)) (hj : PageJob phdrs j) :
    ∃ s', loadPage module.modStart s j = some s' ∧ Room s' k := by
  by_cases hsize : j.1.pFilesz = j.1.pMemsz
  · obtain ⟨s', hmap, hroom⟩ := Room.mapPage (k := k + 1) h (he.legalCall_inPlace hj hsize)
    refine ⟨s', ?_, hroom.free.mono k.le_succ, hroom.low⟩
    rw [Loader.loadPage, if_neg (not_not.mpr hsize), hmap]
  · obtain ⟨n, s₁, hn, halloc, hroom₁⟩ := Room.pmmAllocPage (k := k + 3) h
    obtain ⟨s₂, hmap, hroom⟩ := hroom₁.mapPage (he.legalCall_page hj hn)
    rw [jobVirt] at hmap
    rw [Loader.loadPage, if_pos hsize, copyPage, halloc, Option.bind_eq_bind, Option.bind_some]
    dsimp only
    rw [hmap, Option.bind_eq_bind, Option.bind_some]
    split
    · exact ⟨_, rfl, hroom.setMem _⟩
    · exact ⟨s₂, rfl, hroom⟩

theorem Room.loadElf {module : ModuleTag} {phdrs : List Phdr} (he : LegalElf module phdrs)
    {s : Globals} {k : ℕ} (hasserts : ∀ ph ∈ loads phdrs, Asserts ph)
    (h : Room s (k + 4 * (jobs phdrs).length)) :
    ∃ s', loadElf module.modStart phdrs s = some s' ∧ Room s' k := by
  have hpages : ∀ j ∈ jobs phdrs, PageJob phdrs j := fun _ => mem_jobs
  obtain ⟨s', hrun, hroom⟩ := exists_run_of_budget (B := Room) (R := PageJob phdrs)
    (fun _ _ _ hroom hj => Room.loadPage he hroom hj) hpages h
  exact ⟨s', (loadElf_iff_run he.fits).mpr ⟨hasserts, hrun⟩, hroom⟩

theorem Room.identityMap {s : Globals} {n k : ℕ} (hn : n ≤ 512) (h : Room s (k + 3 * n)) :
    ∃ s', run identityPage s (List.range n) = some s' ∧ Room s' k := by
  have hlen : Room s (k + 3 * (List.range n).length) := by rwa [List.length_range]
  refine exists_run_of_budget (B := Room) (R := fun i => i < 512) (fun _ _ _ hroom hi => ?_) ?_ hlen
  · exact hroom.mapPage (legalCall_identity hi)
  · exact fun _ hi => (List.mem_range.mp hi).trans_le hn

theorem Room.startPaging {s : Globals} {k : ℕ} (h : Room s (k + 3 * 512 + 1)) :
    ∃ s', startPaging s = some s' ∧ Room s' k := by
  obtain ⟨ret, s₁, hset, hfree⟩ := h.free.setupPaging
  have hshrinks := (setupPaging_wellFormed h.wellFormed hset).2
  obtain ⟨s', hrun, hroom⟩ := Room.identityMap (Nat.le_refl 512)
    ⟨hfree, fun n hn => h.low n (hshrinks n hn)⟩
  rw [← identityMap_eq_run] at hrun
  exact ⟨s', Option.bind_eq_some_iff.mpr ⟨(ret, s₁), hset, hrun⟩, hroom⟩

end CxKernel.Loader
