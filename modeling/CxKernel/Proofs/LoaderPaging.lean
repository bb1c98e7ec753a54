import CxKernel.Proofs.Bootstrap
import CxKernel.Proofs.Paging

/-! The loader's page tables. Every table is a page taken off the free list and
cleared, so the tables form a tree and a new one holds no stale entry. -/

namespace CxKernel.Loader

open LinkedList Paging RadixWalk

/-! The page allocator. -/

/-- Page `n` is on the free list. -/
def OnFree (s : Globals) (n : ℕ) : Prop :=
  ∃ free, visit s.pool.links (s.pool.lists .freelist) = some free ∧ n ∈ free

/-- Both page lists are well formed and share no page. -/
def WellFormed (s : Globals) : Prop := ∃ σ, Represents s.pool σ

/-- Page `n` is handed out between two states. -/
def HandsOut (s s' : Globals) (n : ℕ) : Prop := OnFree s n ∧ ¬ OnFree s' n

theorem onFree_iff {s : Globals} {σ : PfnList → List ℕ} (h : Represents s.pool σ) (n : ℕ) :
    OnFree s n ↔ n ∈ σ .freelist := by
  simp [OnFree, (h.lists .freelist).visit_eq]

/-- What taking page `i` does to the lists. -/
structure Takes (s s' : Globals) (i : ℕ) : Prop where
  free : OnFree s i
  lists : WellFormed s'
  left : ∀ n, OnFree s' n ↔ OnFree s n ∧ n ≠ i

theorem Takes.handsOut {s s' : Globals} {i : ℕ} (h : Takes s s' i) : HandsOut s s' i :=
  ⟨h.free, fun h' => ((h.left i).mp h').2 rfl⟩

theorem toNat_pageAddr {i : ℕ} (hi : i < 2 ^ 20) : (pageAddr i).toNat = i * 4096 := by
  simp only [pageAddr, pageSize, BitVec.toNat_mul, BitVec.toNat_ofNat]
  omega

theorem toNat_pagePtr {i : ℕ} (hi : i < 2 ^ 20) :
    ((pageAddr i).setWidth 32).toNat = i * pageSize := by
  rw [BitVec.toNat_setWidth, toNat_pageAddr hi, pageSize]
  omega

/-- The pointer to a page that is used as a table. -/
theorem toNat_tablePage {i : ℕ} (hi : i < 2 ^ 20) :
    ((pageAddr i).setWidth 32).toNat = (BitVec.ofNat 40 i).toNat * 4096 := by
  rw [toNat_pagePtr hi, BitVec.toNat_ofNat, pageSize]
  omega

theorem frame_pageAddr {i : ℕ} (hi : i < 2 ^ 20) : frame (pageAddr i) = .ofNat 40 i := by
  apply BitVec.eq_of_toNat_eq
  rw [toNat_frame, toNat_pageAddr hi, BitVec.toNat_ofNat]
  omega

theorem pmmAllocPage_eq {s : Globals} {p₁ p₂ : Pool PfnList ℕ} {i : ℕ}
    (hpop : s.pool.popFront .freelist = some (some i, p₁))
    (hpush : p₁.pushBack .rsrvlist i = some p₂) :
    pmmAllocPage s = some (pageAddr i, { s with
      pool := p₂, mem := s.mem.zero ((pageAddr i).setWidth 32).toNat pageSize }) := by
  simp only [pmmAllocPage, hpop, hpush, Option.bind_eq_bind, Option.bind_some]
  rfl

theorem pmmAllocPage_nil {s : Globals} {σ : PfnList → List ℕ} (h : Represents s.pool σ)
    (hfree : σ .freelist = []) : pmmAllocPage s = none := by
  obtain ⟨p₁, hpop, -⟩ := h.popFront .freelist
  simp [pmmAllocPage, hpop, hfree]

/-- The allocator moves the first free page to the reserved list and clears it. -/
theorem pmmAllocPage_cons {s : Globals} {σ : PfnList → List ℕ} (h : Represents s.pool σ) {i : ℕ}
    {rest : List ℕ} (hfree : σ .freelist = i :: rest) :
    ∃ pool, pmmAllocPage s = some (pageAddr i, { s with
        pool, mem := s.mem.zero ((pageAddr i).setWidth 32).toNat pageSize }) ∧
      Represents pool (Function.update (Function.update σ .freelist rest) .rsrvlist
        (σ .rsrvlist ++ [i])) := by
  obtain ⟨p₁, p₂, hpop, hpush, hrep⟩ := h.popPush (j := .rsrvlist) (by decide) hfree
  exact ⟨p₂, pmmAllocPage_eq hpop hpush, hrep⟩

theorem pmmAllocPage_takes {s s' : Globals} {page : BitVec 64} (hs : WellFormed s)
    (h : pmmAllocPage s = some (page, s')) :
    ∃ i, Takes s s' i ∧ page = pageAddr i ∧ s'.pml4 = s.pml4 ∧
      s'.mem = s.mem.zero (page.setWidth 32).toNat pageSize := by
  obtain ⟨σ, hσ⟩ := hs
  cases hfree : σ .freelist with
  | nil =>
    rw [pmmAllocPage_nil hσ hfree] at h
    cases h
  | cons i rest =>
    obtain ⟨pool, halloc, hrep⟩ := pmmAllocPage_cons hσ hfree
    rw [halloc, Option.some_inj, Prod.mk.injEq] at h
    obtain ⟨rfl, rfl⟩ := h
    refine ⟨i, ⟨(onFree_iff hσ i).mpr (by simp [hfree]), ⟨_, hrep⟩, fun n => ?_⟩, rfl, rfl, rfl⟩
    have hnd : (i :: rest).Nodup := hfree ▸ (hσ.lists .freelist).ring.1
    rw [onFree_iff hrep, onFree_iff hσ, hfree, Function.update_of_ne (by decide),
      Function.update_self, List.mem_cons]
    refine ⟨?_, ?_⟩
    · intro hn
      exact ⟨Or.inr hn, fun he => (List.nodup_cons.mp hnd).1 (he ▸ hn)⟩
    · rintro ⟨rfl | hn, hne⟩
      · exact absurd rfl hne
      · exact hn

theorem pmmAllocPage_wellFormed {s s' : Globals} {page : BitVec 64} (hs : WellFormed s)
    (h : pmmAllocPage s = some (page, s')) : WellFormed s' ∧ ∀ n, OnFree s' n → OnFree s n := by
  obtain ⟨i, htake, -⟩ := pmmAllocPage_takes hs h
  exact ⟨htake.lists, fun n hn => ((htake.left n).mp hn).1⟩

/-- At least `k` pages are free. -/
def HasFree (s : Globals) (k : ℕ) : Prop :=
  ∃ σ, Represents s.pool σ ∧ k ≤ (σ .freelist).length

theorem HasFree.mono {s : Globals} {k l : ℕ} (h : HasFree s k) (hlk : l ≤ k) : HasFree s l := by
  obtain ⟨σ, hσ, hk⟩ := h
  exact ⟨σ, hσ, hlk.trans hk⟩

theorem HasFree.pmmAllocPage {s : Globals} {k : ℕ} (h : HasFree s (k + 1)) :
    ∃ page s', pmmAllocPage s = some (page, s') ∧ HasFree s' k := by
  obtain ⟨σ, hσ, hk⟩ := h
  cases hfree : σ .freelist with
  | nil => simp [hfree] at hk
  | cons i rest =>
    obtain ⟨pool, halloc, hrep⟩ := pmmAllocPage_cons hσ hfree
    refine ⟨_, _, halloc, _, hrep, ?_⟩
    rw [hfree, List.length_cons] at hk
    rw [Function.update_of_ne (by decide), Function.update_self]
    omega

/-! One level of `map_page`. -/

/-- What `ensureTable` does: nothing, or it fills the entry with a fresh page. -/
theorem ensureTable_cases {s s' : Globals} {addr : ℕ} {flags : BitVec 64} (hs : WellFormed s)
    (h : ensureTable s addr flags = some s') :
    (present (s.mem addr) = true ∧ s' = s) ∨
    (present (s.mem addr) = false ∧ ∃ i, Takes s s' i ∧ s'.pml4 = s.pml4 ∧
      s'.mem = (s.mem.zero ((pageAddr i).setWidth 32).toNat pageSize).write addr
        (entryOf (pageAddr i) flags)) := by
  cases hpres : present (s.mem addr)
  · simp only [ensureTable, hpres, Bool.false_eq_true, if_false] at h
    obtain ⟨⟨page, s₁⟩, halloc, h⟩ := Option.bind_eq_some_iff.mp h
    obtain ⟨i, htake, rfl, hpml4, hmem⟩ := pmmAllocPage_takes hs halloc
    cases h
    exact Or.inr ⟨rfl, i, ⟨htake.free, htake.lists, htake.left⟩, hpml4, by rw [hmem]; rfl⟩
  · simp only [ensureTable, hpres, if_true, Option.some_inj] at h
    exact Or.inl ⟨rfl, h.symm⟩

theorem ensureTable_wellFormed {s s' : Globals} {addr : ℕ} {flags : BitVec 64}
    (hs : WellFormed s) (h : ensureTable s addr flags = some s') :
    WellFormed s' ∧ ∀ n, OnFree s' n → OnFree s n := by
  rcases ensureTable_cases hs h with ⟨-, rfl⟩ | ⟨-, i, htake, -, -⟩
  · exact ⟨hs, fun _ hn => hn⟩
  · exact ⟨htake.lists, fun n hn => ((htake.left n).mp hn).1⟩

theorem HasFree.ensureTable {s : Globals} {k : ℕ} (h : HasFree s (k + 1)) (addr : ℕ)
    (flags : BitVec 64) : ∃ s', ensureTable s addr flags = some s' ∧ HasFree s' k := by
  cases hpres : present (s.mem addr)
  · obtain ⟨page, s₁, halloc, hfree⟩ := h.pmmAllocPage
    exact ⟨{ s₁ with mem := s₁.mem.write addr (entryOf page flags) },
      by simp [Loader.ensureTable, hpres, halloc, entryOf], hfree⟩
  · exact ⟨s, by simp [Loader.ensureTable, hpres], h.mono (Nat.le_succ k)⟩

/-! The invariant. -/

/-- The page of the first table. -/
def rootTable (s : Globals) : BitVec 40 := frame (s.pml4.setWidth 64)

structure Inv (s : Globals) : Prop where
  lists : WellFormed s
  aligned : s.pml4.toNat = (rootTable s).toNat * 4096
  tree : TableTree s.mem (rootTable s)
  low : ∀ p t, LeadsTo s.mem (rootTable s) p t → t.toNat < 2 ^ 20
  taken : ∀ p t, LeadsTo s.mem (rootTable s) p t → ¬ OnFree s t.toNat
  upper : ∀ p t i, LeadsTo s.mem (rootTable s) p t → p.length < 3 → NotSelf (p ++ [i]) →
    present (entries s.mem t i) = true →
    large (entries s.mem t i) = false ∧ (entries s.mem t i).getLsbD 11 = false

/-- A free page is no table. -/
theorem Inv.ne_of_onFree {s : Globals} (hi : Inv s) {n : ℕ} (hfree : OnFree s n) (hn : n < 2 ^ 20)
    {q : List (BitVec 9)} {w : BitVec 40} (hq : LeadsTo s.mem (rootTable s) q w) :
    w ≠ .ofNat 40 n := by
  rintro rfl
  refine hi.taken q _ hq ?_
  rw [BitVec.toNat_ofNat, Nat.mod_eq_of_lt (by omega)]
  exact hfree

/-- Bit 7 and the bits from 11 to 51 are clear. -/
def FlagsOk (flags : BitVec 64) : Prop := large flags = false ∧ flags.extractLsb' 11 41 = 0

instance (flags : BitVec 64) : Decidable (FlagsOk flags) := inferInstanceAs (Decidable (_ ∧ _))

theorem FlagsOk.frame {flags : BitVec 64} (h : FlagsOk flags) : frame flags = 0 := by
  apply BitVec.eq_of_getLsbD_eq
  intro k hk
  have hbit := congrArg (BitVec.getLsbD · (k + 1)) h.2
  simpa [Paging.frame, BitVec.getLsbD_extractLsb', hk, show k + 1 < 41 by omega,
    show 11 + (k + 1) = 12 + k by omega] using hbit

theorem FlagsOk.bit {flags : BitVec 64} (h : FlagsOk flags) : flags.getLsbD 11 = false := by
  have hbit := congrArg (BitVec.getLsbD · 0) h.2
  simpa [BitVec.getLsbD_extractLsb'] using hbit

/-- A table pointer drops the flags, but keeps bit 11. -/
theorem tablePtr_eq {e : BitVec 64} (h11 : e.getLsbD 11 = false) :
    tablePtr e = (frame e).setWidth 32 <<< 12 := by
  have hmask : ∀ k < 32, (0xFFFFF800 : BitVec 64).getLsbD k = decide (11 ≤ k) := by decide
  apply BitVec.eq_of_getLsbD_eq
  intro k hk
  rw [tablePtr, BitVec.getLsbD_setWidth, BitVec.getLsbD_and, hmask k hk, BitVec.getLsbD_shiftLeft,
    BitVec.getLsbD_setWidth, frame, BitVec.getLsbD_extractLsb']
  rcases Nat.lt_trichotomy k 11 with h | rfl | h
  · simp [show ¬ 11 ≤ k by omega, show k < 12 by omega]
  · simpa using h11
  · simp [show 11 ≤ k by omega, show ¬ k < 12 by omega, show k - 12 < 32 by omega,
      show k - 12 < 40 by omega, show 12 + (k - 12) = k by omega, hk]

theorem toNat_tablePtr {e : BitVec 64} (hlow : (frame e).toNat < 2 ^ 20)
    (h11 : e.getLsbD 11 = false) : (tablePtr e).toNat = (frame e).toNat * 4096 := by
  rw [tablePtr_eq h11, BitVec.toNat_shiftLeft, BitVec.toNat_setWidth, Nat.shiftLeft_eq]
  omega

/-- What one level leaves behind: the table below entry `i` of the table at `p`, and
every translation as it was. -/
structure Ensured (s s' : Globals) (p : List (BitVec 9)) (t : BitVec 40) (i : BitVec 9) :
    Prop where
  inv : Inv s'
  pml4 : s'.pml4 = s.pml4
  table : ∃ u, LeadsTo s'.mem (rootTable s') (p ++ [i]) u ∧
    (tablePtr (s'.mem (entryAddr t i))).toNat = u.toNat * 4096
  lookup : ∀ q, NotSelf q → q.length = 4 → lookup pageFormat (entries s'.mem) (rootTable s') q =
    lookup pageFormat (entries s.mem) (rootTable s) q

section ensureTable

variable {s s' : Globals} {p : List (BitVec 9)} {t : BitVec 40} {i : BitVec 9} {flags : BitVec 64}

theorem Inv.tablePtr (hi : Inv s) (hp : LeadsTo s.mem (rootTable s) p t) (hlen : p.length < 3)
    (hd : NotSelf (p ++ [i])) (hpres : present (entries s.mem t i) = true) :
    ∃ u, LeadsTo s.mem (rootTable s) (p ++ [i]) u ∧
      (Loader.tablePtr (s.mem (entryAddr t i))).toNat = u.toNat * 4096 := by
  obtain ⟨hl, h11⟩ := hi.upper p t i hp hlen hd hpres
  have hnext := hp.next hlen hd hpres hl
  exact ⟨_, hnext, toNat_tablePtr (hi.low _ _ hnext) h11⟩

theorem newTable_of_takes (hi : Inv s) {n : ℕ} (htake : Takes s s' n) (hn : n < 2 ^ 20)
    (hp : LeadsTo s.mem (rootTable s) p t) (hlen : p.length < 3) (hd : NotSelf (p ++ [i]))
    (habs : present (entries s.mem t i) = false) (hf : FlagsOk flags)
    (hmem : s'.mem = (s.mem.zero ((pageAddr n).setWidth 32).toNat pageSize).write (entryAddr t i)
      (entryOf (pageAddr n) flags)) :
    NewTable s.mem s'.mem (rootTable s) p t i (entryOf (pageAddr n) flags) := by
  have hframe : frame (entryOf (pageAddr n) flags) = .ofNat 40 n := by
    rw [frame_entryOf hf.frame, frame_pageAddr hn]
  have hfresh : ∀ q, ¬ LeadsTo s.mem (rootTable s) q (.ofNat 40 n) := fun q hq =>
    hi.ne_of_onFree htake.free hn hq rfl
  have hread : ∀ w j, entries s'.mem w j = if w = t ∧ j = i then entryOf (pageAddr n) flags
      else if w = .ofNat 40 n then 0 else entries s.mem w j := by
    intro w j
    rw [hmem, entries_write, toNat_tablePage hn]
    congr 1
    exact entries_zero _ _ _ _
  have hsmall : large (pageAddr n) = false :=
    bit_of_aligned (by rw [toNat_pageAddr hn]; omega) (by decide)
  exact
    { leads := hp
      inner := hlen
      dom := hd
      absent := habs
      here := present_entryOf _ _
      small := large_entryOf hsmall hf.1
      fresh := by rw [hframe]; exact hfresh
      entry := by rw [hread, if_pos ⟨rfl, rfl⟩]
      others := fun w j hw hne => by rw [hread, if_neg hne, if_neg (hframe ▸ hw)]
      empty := fun j => by
        have hne : ¬ (BitVec.ofNat 40 n = t ∧ j = i) := fun he => hfresh p (he.1 ▸ hp)
        rw [hframe, hread, if_neg hne, if_pos rfl]
        rfl }

theorem toNat_frame_entryOf {n : ℕ} (hn : n < 2 ^ 20) (hf : FlagsOk flags) :
    (frame (entryOf (pageAddr n) flags)).toNat = n := by
  rw [frame_entryOf hf.frame, frame_pageAddr hn, BitVec.toNat_ofNat, Nat.mod_eq_of_lt (by omega)]

theorem bit_entryOf_pageAddr {n : ℕ} (hn : n < 2 ^ 20) (hf : FlagsOk flags) :
    (entryOf (pageAddr n) flags).getLsbD 11 = false := by
  have hpage : (pageAddr n).getLsbD 11 = false :=
    bit_of_aligned (by rw [toNat_pageAddr hn]; omega) (by decide)
  have hone : (1 : BitVec 64).getLsbD 11 = false := by decide
  rw [entryOf, BitVec.getLsbD_or, BitVec.getLsbD_or, hpage, hone, hf.bit]
  rfl

/-- Linking a fresh page keeps the invariant. -/
theorem Inv.newTable (hi : Inv s) {n : ℕ} (htake : Takes s s' n) (hn : n < 2 ^ 20)
    (hf : FlagsOk flags) (hpml4 : s'.pml4 = s.pml4)
    (hnew : NewTable s.mem s'.mem (rootTable s) p t i (entryOf (pageAddr n) flags)) : Inv s' := by
  have hroot : rootTable s' = rootTable s := by rw [rootTable, hpml4, rootTable]
  have hframe := toNat_frame_entryOf hn hf
  have hleads := hnew.leadsTo_iff hi.tree
  refine ⟨?_, ?_, ?_, ?_, ?_, ?_⟩
  · exact htake.lists
  · rw [hroot, hpml4]
    exact hi.aligned
  · rw [hroot]
    exact hnew.tableTree hi.tree
  · intro q w hq
    rw [hroot, hleads] at hq
    rcases hq with hq | ⟨-, rfl⟩
    · exact hi.low q w hq
    · rw [hframe]
      exact hn
  · intro q w hq hfree
    rw [hroot, hleads] at hq
    rw [htake.left] at hfree
    rcases hq with hq | ⟨-, rfl⟩
    · exact hi.taken q w hq hfree.1
    · exact hfree.2 hframe
  · intro q w j hq hlen hd hpres
    rw [hroot, hleads] at hq
    rcases hq with hq | ⟨-, rfl⟩
    · by_cases hat : w = t ∧ j = i
      · obtain ⟨rfl, rfl⟩ := hat
        rw [hnew.entry]
        exact ⟨hnew.small, bit_entryOf_pageAddr hn hf⟩
      · have hw : w ≠ frame (entryOf (pageAddr n) flags) := fun he => hnew.fresh q (he ▸ hq)
        rw [hnew.others w j hw hat] at hpres ⊢
        exact hi.upper q w j hq hlen hd hpres
    · rw [hnew.empty j] at hpres
      exact absurd hpres (by decide)

theorem Inv.ensureTable (hi : Inv s) (hp : LeadsTo s.mem (rootTable s) p t) (hlen : p.length < 3)
    (hd : NotSelf (p ++ [i])) (hf : FlagsOk flags)
    (h : ensureTable s (entryAddr t i) flags = some s')
    (hlow : ∀ n, HandsOut s s' n → n < 2 ^ 20) : Ensured s s' p t i := by
  rcases ensureTable_cases hi.lists h with ⟨hpres, rfl⟩ | ⟨habs, n, htake, hpml4, hmem⟩
  · exact ⟨hi, rfl, hi.tablePtr hp hlen hd hpres, fun _ _ _ => rfl⟩
  · have hn := hlow n htake.handsOut
    have hnew := newTable_of_takes hi htake hn hp hlen hd habs hf hmem
    have hroot : rootTable s' = rootTable s := by rw [rootTable, hpml4, rootTable]
    have hi' := hi.newTable htake hn hf hpml4 hnew
    have hp' : LeadsTo s'.mem (rootTable s') p t := by
      rw [hroot, hnew.leadsTo_iff hi.tree]
      exact Or.inl hp
    have hpres : present (entries s'.mem t i) = true := by
      rw [hnew.entry]
      exact hnew.here
    refine ⟨hi', hpml4, hi'.tablePtr hp' hlen hd hpres, fun q hq hq4 => ?_⟩
    rw [hroot]
    exact hnew.lookup_eq hi.tree hq hq4

end ensureTable

/-! A whole call. -/

/-- The frame the hardware finds for an address. -/
def translated (s : Globals) (v : BitVec 64) : Option (BitVec 40) :=
  translatePage s.mem (rootTable s) v

theorem translated_eq_lookup (s : Globals) (v : BitVec 64) :
    translated s v = lookup pageFormat (entries s.mem) (rootTable s) (path v) :=
  translatePage_eq_lookup _ _ v

theorem translated_congr (s : Globals) {v w : BitVec 64} (h : v >>> 12 = w >>> 12) :
    translated s v = translated s w := by
  rw [translated_eq_lookup, translated_eq_lookup, path_eq_of_page_eq h]

theorem Ensured.translated {s s' : Globals} {p : List (BitVec 9)} {t : BitVec 40} {i : BitVec 9}
    (h : Ensured s s' p t i) {v : BitVec 64} (hv : Mappable v) :
    translated s' v = translated s v := by
  rw [translated_eq_lookup, translated_eq_lookup]
  exact h.lookup _ (notSelf_of_mappable hv) rfl

structure LegalCall (phys virt flags : BitVec 64) : Prop where
  phys_lt : phys.toNat < 2 ^ 52
  phys_aligned : phys.toNat % pageSize = 0
  virt_aligned : virt.toNat % pageSize = 0
  virt_mappable : Mappable virt
  flags_ok : FlagsOk flags

theorem LegalCall.frame_mul {phys virt flags : BitVec 64} (h : LegalCall phys virt flags) :
    (frame phys).toNat * pageSize = phys.toNat := by
  have hphys := h.phys_aligned
  have hlt := h.phys_lt
  rw [toNat_frame]
  simp only [pageSize] at hphys ⊢
  omega

/-- The three levels, and what the last one is left with. -/
theorem mapPage_steps {s s' : Globals} {phys virt flags : BitVec 64}
    (h : mapPage s phys virt flags = some s') :
    ∃ s₁ s₂ s₃, let pml4e := s.pml4.toNat + 8 * (pml4eIndex virt).toNat
      let pdpte := (tablePtr (s₁.mem pml4e)).toNat + 8 * (pdpteIndex virt).toNat
      let pde := (tablePtr (s₂.mem pdpte)).toNat + 8 * (pdeIndex virt).toNat
      let pte := (tablePtr (s₃.mem pde)).toNat + 8 * (pteIndex virt).toNat
      ensureTable s pml4e flags = some s₁ ∧ ensureTable s₁ pdpte flags = some s₂ ∧
      ensureTable s₂ pde flags = some s₃ ∧
      s' = if present (s₃.mem pte) then s₃
        else { s₃ with mem := s₃.mem.write pte (entryOf phys flags) } := by
  unfold mapPage at h
  split at h
  · cases h
  split at h
  · cases h
  obtain ⟨s₁, h₁, h⟩ := Option.bind_eq_some_iff.mp h
  obtain ⟨s₂, h₂, h⟩ := Option.bind_eq_some_iff.mp h
  obtain ⟨s₃, h₃, h⟩ := Option.bind_eq_some_iff.mp h
  refine ⟨s₁, s₂, s₃, h₁, h₂, h₃, ?_⟩
  dsimp only at h ⊢
  split at h <;> rename_i hpres
  · rw [if_pos hpres]
    exact (Option.some_inj.mp h).symm
  · rw [if_neg hpres]
    exact (Option.some_inj.mp h).symm

theorem mapPage_wellFormed {s s' : Globals} {phys virt flags : BitVec 64} (hs : WellFormed s)
    (h : mapPage s phys virt flags = some s') :
    WellFormed s' ∧ ∀ n, OnFree s' n → OnFree s n := by
  obtain ⟨s₁, s₂, s₃, h₁, h₂, h₃, hlast⟩ := mapPage_steps h
  obtain ⟨hw₁, hm₁⟩ := ensureTable_wellFormed hs h₁
  obtain ⟨hw₂, hm₂⟩ := ensureTable_wellFormed hw₁ h₂
  obtain ⟨hw₃, hm₃⟩ := ensureTable_wellFormed hw₂ h₃
  have hfree : ∀ n, OnFree s₃ n → OnFree s n := fun n hn => hm₁ n (hm₂ n (hm₃ n hn))
  rw [hlast]
  split <;> exact ⟨hw₃, hfree⟩

theorem HandsOut.widen {s s' r r' : Globals} {n : ℕ} (h : HandsOut s s' n)
    (hr : ∀ k, OnFree s k → OnFree r k) (hr' : ∀ k, OnFree r' k → OnFree s' k) :
    HandsOut r r' n := ⟨hr n h.1, fun hn => h.2 (hr' n hn)⟩

/-- An entry address, from the pointer to a table and the index of a level. -/
theorem entryAddr_eq {ptr : ℕ} {t : BitVec 40} (h : ptr = t.toNat * 4096) (shift : ℕ)
    (v : BitVec 64) :
    ptr + 8 * (tableIndex shift v).toNat = entryAddr t (v.extractLsb' shift 9) := by
  rw [h, toNat_tableIndex, entryAddr]

theorem Inv.setPage {s : Globals} {p : List (BitVec 9)} {t : BitVec 40} {i : BitVec 9}
    {e : BitVec 64} {mem' : PhysMem} (hi : Inv s)
    (hnew : NewPage s.mem mem' (rootTable s) p t i e) : Inv { s with mem := mem' } := by
  have hleads := hnew.leadsTo_iff hi.tree
  refine ⟨?_, ?_, ?_, ?_, ?_, ?_⟩
  · exact hi.lists
  · exact hi.aligned
  · exact hnew.tableTree hi.tree
  · intro q w hq
    exact hi.low q w ((hleads q w).mp hq)
  · intro q w hq
    exact hi.taken q w ((hleads q w).mp hq)
  · intro q w j hq hlen hd hpres
    have hq' := (hleads q w).mp hq
    have hat : ¬ (w = t ∧ j = i) := by
      rintro ⟨rfl, -⟩
      rw [hi.tree q p w hq' hnew.leads, hnew.last] at hlen
      exact Nat.lt_irrefl 3 hlen
    change present (entries mem' w j) = true at hpres
    change large (entries mem' w j) = false ∧ (entries mem' w j).getLsbD 11 = false
    rw [hnew.others w j hat] at hpres ⊢
    exact hi.upper q w j hq' hlen hd hpres

/-- The call maps its page if it was not mapped, and no other page. -/
structure Mapped (s s' : Globals) (phys virt : BitVec 64) : Prop where
  inv : Inv s'
  self : translated s' virt = (translated s virt).or (some (frame phys))
  other : ∀ v, Mappable v → v >>> 12 ≠ virt >>> 12 → translated s' v = translated s v

theorem newPage_of_absent {s : Globals} {phys flags : BitVec 64} {p : List (BitVec 9)}
    {t : BitVec 40} {i : BitVec 9} (hp : LeadsTo s.mem (rootTable s) p t) (hlast : p.length = 3) :
    NewPage s.mem (s.mem.write (entryAddr t i) (entryOf phys flags)) (rootTable s) p t i
      (entryOf phys flags) :=
  ⟨hp, hlast, present_entryOf _ _, by rw [entries_write, if_pos ⟨rfl, rfl⟩],
    fun w j hne => by rw [entries_write, if_neg hne]⟩

theorem Inv.lastLevel {s s' : Globals} {phys virt flags : BitVec 64} {p : List (BitVec 9)}
    {t : BitVec 40} {i : BitVec 9} (hi : Inv s) (hp : LeadsTo s.mem (rootTable s) p t)
    (hpath : path virt = p ++ [i]) (hv : Mappable virt) (hf : FlagsOk flags)
    (hs' : s' = if present (s.mem (entryAddr t i)) then s
      else { s with mem := s.mem.write (entryAddr t i) (entryOf phys flags) }) :
    Mapped s s' phys virt := by
  have hlast : p.length = 3 := by
    have hlen := congrArg List.length hpath
    rw [length_path, List.length_append, List.length_singleton] at hlen
    omega
  cases hpres : present (entries s.mem t i)
  · rw [if_neg (by simpa [entries] using hpres)] at hs'
    have hnew : NewPage s.mem s'.mem (rootTable s) p t i (entryOf phys flags) := by
      rw [hs']
      exact newPage_of_absent hp hlast
    have hroot : rootTable s' = rootTable s := by rw [hs']; rfl
    have hnone : translated s virt = none := by
      rw [translated, translatePage_eq_lookup, hpath]
      exact lookup_absent hp (by rw [hlast]; rfl) hpres
    refine ⟨?_, ?_, fun v hv' hne => ?_⟩
    · have hi' := hi.setPage hnew
      rw [hs'] at hi' ⊢
      exact hi'
    · rw [hnone, Option.none_or, translated, translatePage_eq_lookup, hpath, hroot,
        hnew.lookup_self hi.tree, frame_entryOf hf.frame]
    · rw [translated, translated, translatePage_eq_lookup, translatePage_eq_lookup, hroot]
      refine hnew.lookup_eq hi.tree (notSelf_of_mappable hv') rfl fun he => hne ?_
      exact page_eq_of_path_eq hv'.1 hv.1 (he.trans hpath.symm)
  · rw [if_pos (by simpa [entries] using hpres)] at hs'
    have hsome : translated s virt = some (frame (entries s.mem t i)) := by
      rw [translated, translatePage_eq_lookup, hpath]
      exact lookup_leaf hp hlast hpres
    subst hs'
    exact ⟨hi, by rw [hsome, Option.some_or], fun _ _ _ => rfl⟩

/-- One of the three upper levels of a call. -/
structure Level (s s' : Globals) (p : List (BitVec 9)) (t : BitVec 40) (i : BitVec 9)
    (flags : BitVec 64) : Prop where
  inv : Inv s
  leads : LeadsTo s.mem (rootTable s) p t
  inner : p.length < 3
  dom : NotSelf (p ++ [i])
  call : ensureTable s (entryAddr t i) flags = some s'
  shrinks : ∀ n, OnFree s' n → OnFree s n
  low : ∀ n, HandsOut s s' n → n < 2 ^ 20

theorem Level.ensured {s s' : Globals} {p : List (BitVec 9)} {t : BitVec 40} {i : BitVec 9}
    {flags : BitVec 64} (h : Level s s' p t i flags) (hf : FlagsOk flags) : Ensured s s' p t i :=
  h.inv.ensureTable h.leads h.inner h.dom hf h.call h.low

/-- What the last level does with its entry. -/
def lastWrite (s : Globals) (t : BitVec 40) (i : BitVec 9) (e : BitVec 64) : Globals :=
  if present (s.mem (entryAddr t i)) then s else { s with mem := s.mem.write (entryAddr t i) e }

/-- A call, level by level. -/
structure Levels (s s' : Globals) (phys virt flags : BitVec 64) (s₁ s₂ s₃ : Globals)
    (t₂ t₃ t₄ : BitVec 40) : Prop where
  first : Level s s₁ [] (rootTable s) (virt.extractLsb' 39 9) flags
  second : Level s₁ s₂ [virt.extractLsb' 39 9] t₂ (virt.extractLsb' 30 9) flags
  third : Level s₂ s₃ [virt.extractLsb' 39 9, virt.extractLsb' 30 9] t₃ (virt.extractLsb' 21 9)
    flags
  inv : Inv s₃
  leads : LeadsTo s₃.mem (rootTable s₃)
    [virt.extractLsb' 39 9, virt.extractLsb' 30 9, virt.extractLsb' 21 9] t₄
  last : s' = lastWrite s₃ t₄ (virt.extractLsb' 12 9) (entryOf phys flags)

theorem onFree_lastWrite {s : Globals} {t : BitVec 40} {i : BitVec 9} {e : BitVec 64} {n : ℕ} :
    OnFree (lastWrite s t i e) n ↔ OnFree s n := by
  unfold lastWrite
  split <;> exact Iff.rfl

theorem Inv.mapPage_levels {s s' : Globals} {phys virt flags : BitVec 64} (hi : Inv s)
    (hl : LegalCall phys virt flags) (h : mapPage s phys virt flags = some s')
    (hlow : ∀ n, HandsOut s s' n → n < 2 ^ 20) :
    ∃ s₁ s₂ s₃ t₂ t₃ t₄, Levels s s' phys virt flags s₁ s₂ s₃ t₂ t₃ t₄ := by
  obtain ⟨s₁, s₂, s₃, h₁, h₂, h₃, hlast⟩ := mapPage_steps h
  obtain ⟨hw₁, hm₁⟩ := ensureTable_wellFormed hi.lists h₁
  obtain ⟨hw₂, hm₂⟩ := ensureTable_wellFormed hw₁ h₂
  obtain ⟨hw₃, hm₃⟩ := ensureTable_wellFormed hw₂ h₃
  have hm' : ∀ n, OnFree s' n → OnFree s₃ n := by
    rw [hlast]
    split <;> exact fun _ hn => hn
  have hd : ∀ is, NotSelf (virt.extractLsb' 39 9 :: is) := fun is =>
    notSelf_of_mappable hl.virt_mappable
  rw [pml4eIndex, entryAddr_eq hi.aligned] at h₁ h₂ h₃ hlast
  have l₁ : Level s s₁ [] (rootTable s) (virt.extractLsb' 39 9) flags :=
    ⟨hi, LeadsTo.root _ _, by simp, hd [], h₁, hm₁,
      fun n hn => hlow n (hn.widen (fun _ hk => hk) fun k hk => hm₂ k (hm₃ k (hm' k hk)))⟩
  have e₁ := l₁.ensured hl.flags_ok
  obtain ⟨t₂, ht₂, hp₂⟩ := e₁.table
  rw [pdpteIndex, entryAddr_eq hp₂] at h₂ h₃ hlast
  have l₂ : Level s₁ s₂ [virt.extractLsb' 39 9] t₂ (virt.extractLsb' 30 9) flags :=
    ⟨e₁.inv, ht₂, by simp, hd _, h₂, hm₂,
      fun n hn => hlow n (hn.widen hm₁ fun k hk => hm₃ k (hm' k hk))⟩
  have e₂ := l₂.ensured hl.flags_ok
  obtain ⟨t₃, ht₃, hp₃⟩ := e₂.table
  rw [pdeIndex, entryAddr_eq hp₃] at h₃ hlast
  have l₃ : Level s₂ s₃ [virt.extractLsb' 39 9, virt.extractLsb' 30 9] t₃
      (virt.extractLsb' 21 9) flags :=
    ⟨e₂.inv, ht₃, by simp, hd _, h₃, hm₃,
      fun n hn => hlow n (hn.widen (fun k hk => hm₁ k (hm₂ k hk)) fun k hk => hm' k hk)⟩
  have e₃ := l₃.ensured hl.flags_ok
  obtain ⟨t₄, ht₄, hp₄⟩ := e₃.table
  rw [pteIndex, entryAddr_eq hp₄] at hlast
  exact ⟨s₁, s₂, s₃, t₂, t₃, t₄, l₁, l₂, l₃, e₃.inv, ht₄, hlast⟩

theorem Inv.mapPage {s s' : Globals} {phys virt flags : BitVec 64} (hi : Inv s)
    (hl : LegalCall phys virt flags) (h : mapPage s phys virt flags = some s')
    (hlow : ∀ n, HandsOut s s' n → n < 2 ^ 20) : Mapped s s' phys virt := by
  obtain ⟨s₁, s₂, s₃, t₂, t₃, t₄, hc⟩ := hi.mapPage_levels hl h hlow
  have hsame : ∀ v, Mappable v → translated s₃ v = translated s v := by
    intro v hv
    rw [(hc.third.ensured hl.flags_ok).translated hv, (hc.second.ensured hl.flags_ok).translated hv,
      (hc.first.ensured hl.flags_ok).translated hv]
  have hmap := hc.inv.lastLevel hc.leads rfl hl.virt_mappable hl.flags_ok hc.last
  refine ⟨hmap.inv, ?_, fun v hv hne => ?_⟩
  · rw [hmap.self, hsame virt hl.virt_mappable]
  · rw [hmap.other v hv hne, hsame v hv]

/-- The call fails only for want of a free page, and takes three at most. -/
theorem HasFree.mapPage {s : Globals} {phys virt flags : BitVec 64} {k : ℕ}
    (h : HasFree s (k + 3)) (hl : LegalCall phys virt flags) :
    ∃ s', mapPage s phys virt flags = some s' ∧ HasFree s' k := by
  unfold Loader.mapPage
  rw [if_neg (not_not.mpr (pageAligned_iff.mpr hl.phys_aligned)),
    if_neg (not_not.mpr (pageAligned_iff.mpr hl.virt_aligned))]
  let pml4e := s.pml4.toNat + 8 * (pml4eIndex virt).toNat
  obtain ⟨s₁, h₁, hf₁⟩ := h.ensureTable pml4e flags
  let pdpte := (tablePtr (s₁.mem pml4e)).toNat + 8 * (pdpteIndex virt).toNat
  obtain ⟨s₂, h₂, hf₂⟩ := hf₁.ensureTable pdpte flags
  let pde := (tablePtr (s₂.mem pdpte)).toNat + 8 * (pdeIndex virt).toNat
  obtain ⟨s₃, h₃, hf₃⟩ := hf₂.ensureTable pde flags
  simp only [pml4e, pdpte, pde] at h₁ h₂ h₃
  simp only [h₁, h₂, h₃, Option.bind_eq_bind, Option.bind_some]
  split <;> exact ⟨_, rfl, hf₃⟩

/-! Runs. -/

/-- The tables in use are the same and read the same. -/
structure SameTables (s s' : Globals) : Prop where
  pml4 : s'.pml4 = s.pml4
  read : ∀ q w j, LeadsTo s.mem (rootTable s) q w → entries s'.mem w j = entries s.mem w j

section SameTables

variable {s s' : Globals}

theorem SameTables.root (h : SameTables s s') : rootTable s' = rootTable s := by
  rw [rootTable, h.pml4, rootTable]

theorem SameTables.leadsTo_iff (h : SameTables s s') (q : List (BitVec 9)) (w : BitVec 40) :
    LeadsTo s'.mem (rootTable s') q w ↔ LeadsTo s.mem (rootTable s) q w := by
  rw [h.root]
  exact leads_congr notSelf_of_append h.read q w

theorem SameTables.translated (h : SameTables s s') {v : BitVec 64} (hv : Mappable v) :
    translated s' v = translated s v := by
  rw [translated_eq_lookup, translated_eq_lookup, h.root]
  refine lookup_congr fun p i r u he hu => h.read p u i ⟨?_, ?_, hu⟩
  · have hlen := congrArg List.length he
    rw [length_path, List.length_append, List.length_cons] at hlen
    omega
  · exact notSelf_of_append p (i :: r) (he ▸ notSelf_of_mappable hv)

theorem SameTables.inv (h : SameTables s s') (hi : Inv s) (hlists : WellFormed s')
    (hfree : ∀ n, OnFree s' n → OnFree s n) : Inv s' := by
  refine ⟨?_, ?_, ?_, ?_, ?_, ?_⟩
  · exact hlists
  · rw [h.root, h.pml4]
    exact hi.aligned
  · intro q q' w hq hq'
    exact hi.tree q q' w ((h.leadsTo_iff q w).mp hq) ((h.leadsTo_iff q' w).mp hq')
  · intro q w hq
    exact hi.low q w ((h.leadsTo_iff q w).mp hq)
  · intro q w hq hn
    exact hi.taken q w ((h.leadsTo_iff q w).mp hq) (hfree _ hn)
  · intro q w j hq hlen hd hpres
    have hq' := (h.leadsTo_iff q w).mp hq
    rw [h.read q w j hq'] at hpres ⊢
    exact hi.upper q w j hq' hlen hd hpres

end SameTables

/-- What taking a page for data does. -/
structure TakesData (s s' : Globals) (page : BitVec 64) (n : ℕ) : Prop where
  takes : Takes s s' n
  low : n < 2 ^ 20
  page_eq : page = pageAddr n
  mem_eq : s'.mem = s.mem.zero ((pageAddr n).setWidth 32).toNat pageSize
  tables : SameTables s s'
  inv : Inv s'

theorem Inv.takesData {s s' : Globals} {page : BitVec 64} (hi : Inv s)
    (h : pmmAllocPage s = some (page, s')) (hlow : ∀ n, HandsOut s s' n → n < 2 ^ 20) :
    ∃ n, TakesData s s' page n := by
  obtain ⟨n, htake, rfl, hpml4, hmem⟩ := pmmAllocPage_takes hi.lists h
  have hn := hlow n htake.handsOut
  have htables : SameTables s s' := by
    refine ⟨hpml4, fun q w j hq => ?_⟩
    rw [hmem, toNat_tablePage hn]
    exact (entries_zero _ _ _ _).trans (if_neg (hi.ne_of_onFree htake.free hn hq))
  exact ⟨n, htake, hn, rfl, hmem, htables,
    htables.inv hi htake.lists fun k hk => ((htake.left k).mp hk).1⟩

/-- A page taken for data is no table. -/
theorem Inv.pmmAllocPage {s s' : Globals} {page : BitVec 64} (hi : Inv s)
    (h : pmmAllocPage s = some (page, s')) (hlow : ∀ n, HandsOut s s' n → n < 2 ^ 20) : Inv s' := by
  obtain ⟨n, htake⟩ := hi.takesData h hlow
  exact htake.inv

/-- Where the first table maps nothing it is the only table. -/
theorem leadsTo_root_only {mem : PhysMem} {root t : BitVec 40} {p : List (BitVec 9)}
    (h : ∀ j, j ≠ 511 → present (entries mem root j) = false) (hp : LeadsTo mem root p t) :
    p = [] ∧ t = root := by
  cases p with
  | nil => exact ⟨rfl, (Option.some_inj.mp hp.2.2).symm⟩
  | cons j p =>
    have hj : j ≠ 511 := fun he => hp.2.1 (by rw [he]; rfl)
    have hnone := hp.2.2
    rw [tableAt, next_of_not_present (h j hj)] at hnone
    cases hnone

theorem inv_of_empty {s : Globals} (hs : WellFormed s)
    (haligned : s.pml4.toNat = (rootTable s).toNat * 4096) (hlow : (rootTable s).toNat < 2 ^ 20)
    (htaken : ¬ OnFree s (rootTable s).toNat)
    (hempty : ∀ j, j ≠ 511 → present (entries s.mem (rootTable s) j) = false) : Inv s := by
  refine ⟨?_, ?_, ?_, ?_, ?_, ?_⟩
  · exact hs
  · exact haligned
  · intro p q t hp hq
    rw [(leadsTo_root_only hempty hp).1, (leadsTo_root_only hempty hq).1]
  · intro p t hp
    rw [(leadsTo_root_only hempty hp).2]
    exact hlow
  · intro p t hp
    rw [(leadsTo_root_only hempty hp).2]
    exact htaken
  · intro p t i hp hlen hd hpres
    obtain ⟨rfl, rfl⟩ := leadsTo_root_only hempty hp
    have hi : i ≠ 511 := fun he => hd (by rw [he]; rfl)
    rw [hempty i hi] at hpres
    exact absurd hpres (by decide)

/-- What `setup_paging` leaves: one table, in page `n`, that maps nothing. -/
structure PagingSet (s s' : Globals) (n : ℕ) : Prop where
  takes : Takes s s' n
  low : n < 2 ^ 20
  root : rootTable s' = .ofNat 40 n
  aligned : s'.pml4.toNat = (rootTable s').toNat * 4096
  empty : ∀ j, j ≠ 511 → present (entries s'.mem (rootTable s') j) = false
  kept : ∀ a, a / pageSize ≠ n → s'.mem a = s.mem a

theorem setupPaging_set {s s' : Globals} {ret : BitVec 64} (hs : WellFormed s)
    (h : setupPaging s = some (ret, s')) (hlow : ∀ n, HandsOut s s' n → n < 2 ^ 20) :
    ∃ n, PagingSet s s' n := by
  obtain ⟨⟨page, s₁⟩, halloc, h⟩ := Option.bind_eq_some_iff.mp h
  obtain ⟨n, htake, rfl, -, hmem⟩ := pmmAllocPage_takes hs halloc
  obtain ⟨-, rfl⟩ := Prod.mk.inj (Option.some_inj.mp h)
  have hn : n < 2 ^ 20 := hlow n htake.handsOut
  have hptr := toNat_tablePage hn
  have hroot : frame (((pageAddr n).setWidth 32).setWidth 64) = .ofNat 40 n := by
    apply BitVec.eq_of_toNat_eq
    rw [toNat_frame, BitVec.toNat_setWidth, hptr, BitVec.toNat_ofNat]
    omega
  have haddr : ((pageAddr n).setWidth 32).toNat + 8 * 511 = entryAddr (.ofNat 40 n) 511 := by
    rw [hptr]
    rfl
  refine ⟨n, ⟨htake.free, htake.lists, htake.left⟩, hn, hroot, ?_, fun j hj => ?_, fun a ha => ?_⟩
  · exact hptr.trans (by rw [rootTable, hroot])
  · simp only [rootTable, hroot]
    rw [haddr, entries_write, if_neg (fun he => hj he.2), hptr]
    exact congrArg present (entries_zero _ _ _ _ |>.trans (if_pos rfl))
  · have hpage := toNat_pagePtr hn
    have hout : ¬ (n * pageSize ≤ a ∧ a < n * pageSize + pageSize) := by
      rw [pageSize] at *
      omega
    have hword : a ≠ ((pageAddr n).setWidth 32).toNat + 8 * 511 := by
      rw [hpage]
      rw [pageSize] at *
      omega
    dsimp only
    rw [PhysMem.write, Function.update_of_ne hword, hmem, hpage]
    simp only [PhysMem.zero, if_neg hout]

section PagingSet

variable {s s' : Globals} {n : ℕ}

theorem PagingSet.toNat_root (h : PagingSet s s' n) : (rootTable s').toNat = n := by
  have hn := h.low
  rw [h.root, BitVec.toNat_ofNat, Nat.mod_eq_of_lt (by omega)]

theorem PagingSet.inv (h : PagingSet s s' n) : Inv s' := by
  refine inv_of_empty h.takes.lists h.aligned ?_ ?_ h.empty
  · rw [h.toNat_root]
    exact h.low
  · rw [h.toNat_root]
    exact h.takes.handsOut.2

theorem PagingSet.table_eq (h : PagingSet s s' n) {p : List (BitVec 9)} {t : BitVec 40}
    (hp : LeadsTo s'.mem (rootTable s') p t) : t.toNat = n := by
  rw [(leadsTo_root_only h.empty hp).2, h.toNat_root]

theorem PagingSet.translated (h : PagingSet s s' n) {v : BitVec 64} (hv : Mappable v) :
    translated s' v = none := by
  have hself : v.extractLsb' 39 9 ≠ 511 := by
    simpa [NotSelf, path] using notSelf_of_mappable hv
  rw [translated_eq_lookup]
  exact lookup_absent (LeadsTo.root _ _) rfl (h.empty _ hself)

end PagingSet

theorem setupPaging_inv {s s' : Globals} {ret : BitVec 64} (hs : WellFormed s)
    (h : setupPaging s = some (ret, s')) (hlow : ∀ n, HandsOut s s' n → n < 2 ^ 20) : Inv s' := by
  obtain ⟨n, hset⟩ := setupPaging_set hs h hlow
  exact hset.inv

theorem HasFree.setupPaging {s : Globals} {k : ℕ} (h : HasFree s (k + 1)) :
    ∃ ret s', setupPaging s = some (ret, s') ∧ HasFree s' k := by
  obtain ⟨page, s₁, halloc, hfree⟩ := h.pmmAllocPage
  let pml4 : BitVec 32 := page.setWidth 32
  refine ⟨pml4.setWidth 64, { s₁ with
    mem := (s₁.mem.zero pml4.toNat pageSize).write (pml4.toNat + 8 * 511)
      (pml4.setWidth 64 ||| selfFlags)
    pml4 }, ?_, hfree⟩
  simp only [Loader.setupPaging, halloc, Option.bind_eq_bind, Option.bind_some]
  rfl

theorem setupPaging_wellFormed {s s' : Globals} {ret : BitVec 64} (hs : WellFormed s)
    (h : setupPaging s = some (ret, s')) : WellFormed s' ∧ ∀ n, OnFree s' n → OnFree s n := by
  obtain ⟨⟨page, s₁⟩, halloc, h⟩ := Option.bind_eq_some_iff.mp h
  obtain ⟨hw, hfree⟩ := pmmAllocPage_wellFormed hs halloc
  obtain ⟨-, rfl⟩ := Prod.mk.inj (Option.some_inj.mp h)
  exact ⟨hw, hfree⟩

/-- The states the loader gets to by mapping pages and taking pages for data, once
paging is set up. Tables must be addressable in 32 bits. -/
inductive Reach : Globals → Prop
  | setupPaging {s s' : Globals} {ret : BitVec 64} : WellFormed s →
      setupPaging s = some (ret, s') → (∀ n, HandsOut s s' n → n < 2 ^ 20) → Reach s'
  | mapPage {s s' : Globals} {phys virt flags : BitVec 64} : Reach s → LegalCall phys virt flags →
      mapPage s phys virt flags = some s' → (∀ n, HandsOut s s' n → n < 2 ^ 20) → Reach s'
  | pmmAllocPage {s s' : Globals} {page : BitVec 64} : Reach s →
      pmmAllocPage s = some (page, s') → (∀ n, HandsOut s s' n → n < 2 ^ 20) → Reach s'

theorem Reach.inv {s : Globals} (h : Reach s) : Inv s := by
  induction h with
  | setupPaging hs hset hlow => exact setupPaging_inv hs hset hlow
  | mapPage _ hl hmap hlow ih => exact (ih.mapPage hl hmap hlow).inv
  | pmmAllocPage _ halloc hlow ih => exact ih.pmmAllocPage halloc hlow

/-- The translations are a finite map: a call adds its page if it was not mapped, and
changes no other page. -/
theorem mapPage_refines_map {s s' : Globals} {phys virt flags : BitVec 64} (hs : Reach s)
    (hl : LegalCall phys virt flags) (h : mapPage s phys virt flags = some s')
    (hlow : ∀ n, HandsOut s s' n → n < 2 ^ 20) :
    (frame phys).toNat * pageSize = phys.toNat ∧
    translated s' virt = (translated s virt).or (some (frame phys)) ∧
    ∀ v, Mappable v → v >>> 12 ≠ virt >>> 12 → translated s' v = translated s v := by
  have hmap := hs.inv.mapPage hl h hlow
  exact ⟨hl.frame_mul, hmap.self, hmap.other⟩

/-- Eight pages, all free. -/
theorem exists_eight_free : ∃ s : Globals, HasFree s 8 ∧ ∀ n, OnFree s n → n < 8 := by
  obtain ⟨pool, -, hrep⟩ := foldlM_classifyPage [] (represents_new ⟨fun _ => none, fun _ => none⟩) 8
  let s : Globals := ⟨pool, 0, 0, 0, 0, fun _ => 0, 0⟩
  refine ⟨s, ⟨_, hrep, by decide⟩, fun n hn => ?_⟩
  exact ((onFree_iff (s := s) hrep n).mp hn |> mem_freelist_iff.mp).1

/-- The first page of the kernel, mapped into an empty hierarchy. -/
theorem mapPage_refines_map_kernel :
    ∃ s s', Reach s ∧ mapPage s 0x200000 0xFFFF800000000000 2 = some s' ∧
      translated s' 0xFFFF800000000000 =
        (translated s 0xFFFF800000000000).or (some (frame 0x200000)) := by
  obtain ⟨s₀, hfree, hlow⟩ := exists_eight_free
  obtain ⟨ret, s, hset, hfree'⟩ := hfree.setupPaging
  have hwf : WellFormed s₀ := hfree.elim fun σ h => ⟨σ, h.1⟩
  have hs : Reach s := .setupPaging hwf hset fun n hn => (hlow n hn.1).trans (by decide)
  have hl : LegalCall 0x200000 0xFFFF800000000000 2 := by
    refine ⟨by decide, by decide, by decide, ⟨by decide, by decide⟩, by decide⟩
  obtain ⟨s', hmap, -⟩ := hfree'.mapPage hl
  have hlow' : ∀ n, OnFree s n → n < 8 := fun n hn =>
    hlow n ((setupPaging_wellFormed hwf hset).2 n hn)
  exact ⟨s, s', hs, hmap,
    (mapPage_refines_map hs hl hmap fun n hn => (hlow' n hn.1).trans (by decide)).2.1⟩

end CxKernel.Loader
