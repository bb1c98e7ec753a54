import CxKernel.Proofs.KernelSpace
import CxKernel.Spec.Main

/-! The load loop while it reads the program headers: the pages `bootstrap_pmm` has not put on the
free list are never written, and as long as the headers are on such pages the loop loads what
they say beforehand. -/

namespace CxKernel.Loader

open LinkedList Paging Strings ElfFile Runs

/-! One page. -/

/-- A round that copies writes to the page it has taken only. -/
theorem loadPage_frame {image : BitVec 32} {s s' : Globals} {j : Job}
    (hsize : j.1.pFilesz ≠ j.1.pMemsz) (h : loadPage image s j = some s') :
    ∃ page s₁ s₂ mem, pmmAllocPage s = some (page, s₁) ∧
      mapPage s₁ page (jobVirt j) loadFlags = some s₂ ∧ s' = { s₂ with mem } ∧
      ∀ n < 2 ^ 20, page = pageAddr n → ∀ a, a / pageSize ≠ n → mem a = s₂.mem a := by
  rw [loadPage, if_pos hsize] at h
  obtain ⟨⟨page, s₁⟩, halloc, h⟩ := Option.bind_eq_some_iff.mp h
  obtain ⟨s₂, hmap, h⟩ := Option.bind_eq_some_iff.mp h
  split at h
  · refine ⟨page, s₁, s₂, _, halloc, hmap, (Option.some.inj h).symm, fun n hn hpage a ha => ?_⟩
    rw [hpage]
    exact memcpy_of_page_ne hn ha
  · exact ⟨page, s₁, s₂, s₂.mem, halloc, hmap, (Option.some.inj h).symm, fun _ _ _ _ _ => rfl⟩

section Kept

variable {module : ModuleTag} {phdrs : List Phdr} {mem : PhysMem} {s₀ s s' : Globals} {j : Job}

/-- What every page of the loop keeps, mapped before or not. -/
theorem Inv.loadPage_grows (he : LegalElf module phdrs) (hj : PageJob phdrs j) (hi : Inv s)
    (hlow : FreeLow s) (h : loadPage module.modStart s j = some s') : Inv s' ∧ Grows s s' := by
  by_cases hsize : j.1.pFilesz = j.1.pMemsz
  · have hl := he.legalCall_inPlace hj hsize
    rw [loadPage, if_neg (not_not.mpr hsize)] at h
    exact ⟨(hi.mapPage hl h hlow.handsOut).inv, hi.mapPage_grows hl h hlow.handsOut⟩
  · obtain ⟨page, s₁, s₂, mem, halloc, hmap, rfl, hmem⟩ := loadPage_frame hsize h
    obtain ⟨n, htake⟩ := hi.takesData halloc hlow.handsOut
    obtain rfl := htake.page_eq
    replace hmem := hmem n htake.low rfl
    have hl := he.legalCall_page hj htake.low
    have hlow₁ : ∀ n, HandsOut s₁ s₂ n → n < 2 ^ 20 := (hlow.grows htake.grows).handsOut
    have hgrows := htake.inv.mapPage_grows hl hmap hlow₁
    have hinv := (htake.inv.mapPage hl hmap hlow₁).inv
    have htable : NoTable s₂ n :=
      (hgrows.keeps n (htake.noTable hi) fun hk => htake.takes.handsOut.2 hk.1).1
    have hout : HandsOut s s₂ n :=
      ⟨htake.takes.free, fun hf => htake.takes.handsOut.2 (hgrows.shrinks n hf)⟩
    exact ⟨(sameTables_of_noTable htable hmem).inv hinv hinv.lists fun _ hk => hk,
      (htake.grows.trans hgrows).overwrite hout htable hmem⟩

/-- On the way from `s₀`: the pages that were not free are no tables, and are as they were. -/
structure Kept (s₀ : Globals) (mem : PhysMem) (s : Globals) : Prop where
  inv : Inv s
  shrinks : ∀ n, OnFree s n → OnFree s₀ n
  kept : ∀ q, ¬ OnFree s₀ q → NoTable s q ∧ ∀ a, a / pageSize = q → s.mem a = mem a

theorem Kept.grows (h : Kept s₀ mem s) (hi : Inv s') (hgrows : Grows s s') : Kept s₀ mem s' := by
  refine ⟨hi, fun n hn => h.shrinks n (hgrows.shrinks n hn), fun q hq => ?_⟩
  obtain ⟨htable, hsame⟩ := h.kept q hq
  obtain ⟨htable', hsame'⟩ := hgrows.keeps q htable fun hout => hq (h.shrinks q hout.1)
  exact ⟨htable', fun a ha => (hsame' a ha).trans (hsame a ha)⟩

theorem Kept.freeLow (h : Kept s₀ mem s) (hlow : FreeLow s₀) : FreeLow s :=
  fun n hn => hlow n (h.shrinks n hn)

theorem preserves_kept (he : LegalElf module phdrs) (hlow : FreeLow s₀) :
    Preserves (loadPage module.modStart) (Kept s₀ mem) fun _ j => PageJob phdrs j := by
  intro s j s' hs hj hstep
  obtain ⟨hinv, hgrows⟩ := hs.inv.loadPage_grows he hj (hs.freeLow hlow) hstep
  exact hs.grows hinv hgrows

/-! Reading what is kept. -/

/-- So many bytes from `p` on are on pages that were not free. -/
def Spared (s₀ : Globals) (p : BitVec 32) (len : ℕ) : Prop :=
  ∀ i < len, ¬ OnFree s₀ ((p + .ofNat 32 i).toNat / pageSize)

theorem Kept.bytes_eq (h : Kept s₀ mem s) {p : BitVec 32} {len i : ℕ} (hp : Spared s₀ p len)
    (hi : i < len) : bytes s.mem (p + .ofNat 32 i) = bytes mem (p + .ofNat 32 i) :=
  byteAt_congr (h.kept _ (hp i hi)).2 rfl

theorem Kept.field_eq (h : Kept s₀ mem s) {p : BitVec 32} {len off k : ℕ} (hp : Spared s₀ p len)
    (hk : off + k ≤ len) : field k (bytes s.mem) p off = field k (bytes mem) p off := by
  unfold field
  refine congrArg (fun l => BitVec.ofNat _ (Nat.ofDigits 256 l)) (List.map_congr_left ?_)
  intro i hi
  rw [List.mem_range] at hi
  exact congrArg BitVec.toNat (h.bytes_eq hp (by omega))

theorem readPhdr_pMemsz (mem : Mem 4) (p : BitVec 32) :
    (readPhdr mem p).pMemsz = pMemsz mem p := rfl

theorem Kept.readPhdr_eq (h : Kept s₀ mem s) {p : BitVec 32} (hp : Spared s₀ p sizeofPhdr) :
    readPhdr (bytes s.mem) p = readPhdr (bytes mem) p := by
  unfold readPhdr pType pOffset pVaddr pFilesz pMemsz pAlign
  rw [h.field_eq hp (by decide), h.field_eq hp (by decide), h.field_eq hp (by decide),
    h.field_eq hp (by decide), h.field_eq hp (by decide), h.field_eq hp (by decide)]

end Kept

/-! The inner loops. -/

/-- Where the bound is always found to be `b`, the loop is the one with that bound. -/
theorem forPagesBelow_eq {K : Globals → Prop} {body : Globals → BitVec 64 → Option Globals}
    {bound : Globals → BitVec 64} {b : BitVec 64} (hbound : ∀ s, K s → bound s = b)
    (hbody : ∀ s i s', K s → i.toNat % pageSize = 0 → i < b → body s i = some s' → K s')
    (hfit : Fits64 b) {s : Globals} (hs : K s) :
    forPagesBelow body bound 0 s = forPages body b 0 s := by
  have hloop : ∀ m n s, n + m = (b.toNat + 4095) / 4096 → K s →
      forPagesBelow body bound (.ofNat 64 (n * pageSize)) s =
        forPages body b (.ofNat 64 (n * pageSize)) s := by
    intro m
    induction m with
    | zero =>
      intro n s hn hs
      have hend : ¬ BitVec.ofNat 64 (n * pageSize) < b := by
        rw [BitVec.lt_def, BitVec.toNat_ofNat]
        simp only [Fits64, pageSize] at *
        omega
      rw [forPagesBelow, forPages, hbound s hs, if_neg hend, if_neg hend]
    | succ m ih =>
      intro n s hn hs
      have hnat : (BitVec.ofNat 64 (n * pageSize)).toNat = n * pageSize := by
        rw [BitVec.toNat_ofNat]
        simp only [Fits64, pageSize] at *
        omega
      have hgo : BitVec.ofNat 64 (n * pageSize) < b := by
        rw [BitVec.lt_def, hnat]
        simp only [pageSize]
        omega
      have hnext : BitVec.ofNat 64 (n * pageSize) + .ofNat 64 pageSize =
          .ofNat 64 ((n + 1) * pageSize) := by
        rw [← BitVec.ofNat_add, Nat.add_mul, Nat.one_mul]
      rw [forPagesBelow, forPages, hbound s hs, if_pos hgo, if_pos hgo, hnext]
      cases hstep : body s (.ofNat 64 (n * pageSize)) with
      | none => rfl
      | some s₁ =>
        refine ih (n + 1) s₁ (by omega) (hbody s _ s₁ hs ?_ hgo hstep)
        rw [hnat, Nat.mul_mod_left]
  exact hloop _ 0 s (Nat.zero_add _) hs

theorem lt_of_lt_alignUp {i bound : BitVec 64} (hfit : Fits64 bound)
    (hi : i.toNat % pageSize = 0) (h : i < pageAlignUp bound) : i.toNat < bound.toNat := by
  have hlt : bound.toNat + (2 ^ 12 - 1) < 2 ^ 64 := by
    simp only [Fits64, pageSize] at hfit
    omega
  have hup : bound.toNat ≤ (pageAlignUp bound).toNat ∧
      (pageAlignUp bound).toNat < bound.toNat + 2 ^ 12 ∧ 2 ^ 12 ∣ (pageAlignUp bound).toNat :=
    Words.toNat_roundUp (a := .ofNat 64 pageSize) (k := 12) rfl hlt
  obtain ⟨c, hc⟩ := hup.2.2
  rw [BitVec.lt_def] at h
  rw [pageSize] at *
  omega

/-! The outer loop. -/

section Headers

variable {module : ModuleTag} {phdrs : List Phdr} {mem : PhysMem} {s₀ s s' : Globals}
  {p : BitVec 32} (he : LegalElf module phdrs) (hlow : FreeLow s₀)

include he hlow

theorem Kept.loadSegment {ph : Phdr} (hph : ph ∈ phdrs) (h : Kept s₀ mem s)
    (hstep : loadSegment module.modStart s ph = some s') : Kept s₀ mem s' := by
  by_cases hload : ph.pType = ptLoad
  · have hmem : ph ∈ loads phdrs := List.mem_filter.mpr ⟨hph, by simpa using hload⟩
    have ha := loadSegment_asserts hload hstep
    rw [loadSegment_eq_run hload ha (he.fits ph hmem)] at hstep
    refine (preserves_kept he hlow).after_run h (.of_forall_mem fun j hj => ?_) hstep
    obtain ⟨i, hi, rfl⟩ := List.mem_map.mp hj
    exact mem_jobs (List.mem_flatMap.mpr ⟨ph, hmem, List.mem_map_of_mem hi⟩)
  · rw [Loader.loadSegment, if_pos hload] at hstep
    exact Option.some.inj hstep ▸ h

theorem Kept.loadElf {phs : List Phdr} (hphs : ∀ ph ∈ phs, ph ∈ phdrs) (h : Kept s₀ mem s)
    (hstep : loadElf module.modStart phs s = some s') : Kept s₀ mem s' := by
  induction phs generalizing s with
  | nil => exact Option.some.inj hstep ▸ h
  | cons ph phs ih =>
    obtain ⟨hph, hphs⟩ := List.forall_mem_cons.mp hphs
    obtain ⟨s₁, hseg, hrest⟩ := loadElf_cons.mp hstep
    exact ih hphs (h.loadSegment he hlow hph hseg) hrest

/-- A header that is kept is one that was read beforehand. -/
theorem Kept.loadHeader_eq (hp : Spared s₀ p sizeofPhdr)
    (hph : readPhdr (bytes mem) p ∈ phdrs) (h : Kept s₀ mem s) :
    loadHeader module.modStart s p = Loader.loadSegment module.modStart s (readPhdr (bytes mem) p) := by
  have hread : ∀ t, Kept s₀ mem t → readPhdr (bytes t.mem) p = readPhdr (bytes mem) p :=
    fun t ht => ht.readPhdr_eq hp
  have hbound : ∀ t, Kept s₀ mem t → pMemsz (bytes t.mem) p = (readPhdr (bytes mem) p).pMemsz :=
    fun t ht => by rw [← readPhdr_pMemsz, hread t ht]
  unfold loadHeader Loader.loadSegment
  dsimp only
  rw [hread s h]
  generalize readPhdr (bytes mem) p = ph at hph hbound
  have hjob : ¬ ph.pType ≠ ptLoad → ∀ t i t', Kept s₀ mem t → i.toNat % pageSize = 0 →
      i.toNat < ph.pMemsz.toNat → loadPage module.modStart t (ph, i) = some t' → Kept s₀ mem t' := by
    intro hload t i t' ht hi hlt hstep
    have hmem : ph ∈ loads phdrs := List.mem_filter.mpr ⟨hph, by simpa using hload⟩
    exact preserves_kept he hlow t (ph, i) t' ht ⟨hmem, hi, hlt⟩ hstep
  have hfit : ¬ ph.pType ≠ ptLoad → Fits64 ph.pMemsz := fun hload =>
    he.fits ph (List.mem_filter.mpr ⟨hph, by simpa using hload⟩)
  split_ifs with hload halign hbase hlimit hsize
  · rfl
  · rfl
  · have hround : ∀ t, Kept s₀ mem t → pageAlignUp (pMemsz (bytes t.mem) p) =
        pageAlignUp ph.pMemsz := fun t ht => congrArg pageAlignUp (hbound t ht)
    refine forPagesBelow_eq (K := Kept s₀ mem) hround ?_ (pageOffsets_alignUp (hfit hload)).1 h
    intro t i t' ht hi hlt hbody
    refine hjob hload t i t' ht hi (lt_of_lt_alignUp (hfit hload) hi hlt) ?_
    rw [loadPage, if_pos hsize, hbody]
  · refine forPagesBelow_eq (K := Kept s₀ mem) hbound ?_ (hfit hload) h
    intro t i t' ht hi hlt hbody
    refine hjob hload t i t' ht hi (BitVec.lt_def.mp hlt) ?_
    rw [loadPage, if_neg hsize]
    exact hbody
  · rfl
  · rfl

theorem Kept.loadHeaders_eq {ps : List (BitVec 32)} (hp : ∀ p ∈ ps, Spared s₀ p sizeofPhdr)
    (hph : ∀ p ∈ ps, readPhdr (bytes mem) p ∈ phdrs) (h : Kept s₀ mem s) :
    ps.foldlM (loadHeader module.modStart) s =
      Loader.loadElf module.modStart (ps.map (readPhdr (bytes mem))) s := by
  induction ps generalizing s with
  | nil => rfl
  | cons p ps ih =>
    obtain ⟨hp₀, hp⟩ := List.forall_mem_cons.mp hp
    obtain ⟨hph₀, hph⟩ := List.forall_mem_cons.mp hph
    rw [Loader.loadElf, List.map_cons, List.foldlM_cons, List.foldlM_cons, h.loadHeader_eq he hlow hp₀ hph₀]
    cases hstep : Loader.loadSegment module.modStart s (readPhdr (bytes mem) p) with
    | none => rfl
    | some s₁ => exact ih hp hph (h.loadSegment he hlow hph₀ hstep)

end Headers

end CxKernel.Loader
