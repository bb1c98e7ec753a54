import CxKernel.Proofs.Paging
import CxKernel.Proofs.Pmm
import CxKernel.Spec.Mmu

/-! `map_single_page`, level by level. A level is there, or it takes a page off the
free list and links it as it is. Where the free pages hold no present entry the tables
stay a tree and no other translation changes. -/

namespace CxKernel.Mmu

open LinkedList Paging Pmm RadixWalk

/-- The page a descriptor stands for. -/
def pageFrame (s : Kernel) (page : BitVec 64) : BitVec 40 := frame (paddr s.pfndbArr page)

/-- No large page lies on the walk of `v`. -/
def SmallWalk (mem : PhysMem) (root : BitVec 40) (v : BitVec 64) : Prop :=
  ∀ p i r t, path v = p ++ i :: r → r ≠ [] → LeadsTo mem root p t →
    present (entries mem t i) = true → large (entries mem t i) = false

/-! Tables and the pages they are made from. `pf` is the page of a descriptor. -/

/-- The tables form a tree, and the free pages are pages apart that are no tables. -/
structure Stock (pf : BitVec 64 → BitVec 40) (root : BitVec 40) (mem : PhysMem)
    (free : List (BitVec 64)) : Prop where
  tree : TableTree mem root
  unused : ∀ a ∈ free, ∀ p, ¬ LeadsTo mem root p (pf a)
  distinct : (free.map pf).Nodup

/-- The free pages hold no present entry. -/
def Clean (pf : BitVec 64 → BitVec 40) (mem : PhysMem) (free : List (BitVec 64)) : Prop :=
  ∀ a ∈ free, ∀ j, present (entries mem (pf a) j) = false

theorem clean_nil (pf : BitVec 64 → BitVec 40) (mem : PhysMem) : Clean pf mem [] :=
  fun _ ha => absurd ha List.not_mem_nil

/-- A present entry of a table above the last level names the page. -/
def LinkedTable (pf : BitVec 64 → BitVec 40) (root : BitVec 40) (mem : PhysMem)
    (a : BitVec 64) : Prop :=
  ∃ p t i, LeadsTo mem root p t ∧ p.length < 3 ∧ NotSelf (p ++ [i]) ∧
    present (entries mem t i) = true ∧ frame (entries mem t i) = pf a

/-- What adding the tables `new` does, all else as it was. -/
structure Grows (pf : BitVec 64 → BitVec 40) (root : BitVec 40) (mem : PhysMem)
    (free : List (BitVec 64)) (mem' : PhysMem) (free' new : List (BitVec 64)) : Prop where
  stock : Stock pf root mem' free'
  clean : Clean pf mem' free'
  free : free = new ++ free'
  leads : ∀ p t, LeadsTo mem root p t → LeadsTo mem' root p t
  linked : ∀ a ∈ new, LinkedTable pf root mem' a
  keeps : ∀ a, LinkedTable pf root mem a → LinkedTable pf root mem' a
  small : ∀ v, SmallWalk mem root v → SmallWalk mem' root v

/-- Every walk that does not start at the self-reference ends as it did. -/
def SameWalks (root : BitVec 40) (mem mem' : PhysMem) : Prop :=
  ∀ q, NotSelf q → q.length = 4 →
    lookup pageFormat (entries mem') root q = lookup pageFormat (entries mem) root q

section Grows

variable {pf : BitVec 64 → BitVec 40} {root : BitVec 40} {mem mem' mem'' : PhysMem}
  {free free' free'' new new' : List (BitVec 64)}

theorem Grows.refl (hs : Stock pf root mem free) (hc : Clean pf mem free) :
    Grows pf root mem free mem free [] :=
  ⟨hs, hc, rfl, fun _ _ h => h, fun _ ha => absurd ha List.not_mem_nil, fun _ h => h,
    fun _ h => h⟩

theorem Grows.trans (h : Grows pf root mem free mem' free' new)
    (h' : Grows pf root mem' free' mem'' free'' new') :
    Grows pf root mem free mem'' free'' (new ++ new') where
  stock := h'.stock
  clean := h'.clean
  free := by rw [h.free, h'.free, List.append_assoc]
  leads p t hp := h'.leads p t (h.leads p t hp)
  linked a ha := (List.mem_append.mp ha).elim (fun hn => h'.keeps a (h.linked a hn)) (h'.linked a)
  keeps a ha := h'.keeps a (h.keeps a ha)
  small v hv := h'.small v (h.small v hv)

variable {p : List (BitVec 9)} {t : BitVec 40} {i : BitVec 9} {e : BitVec 64}

/-- The first free page becomes a table. -/
theorem Grows.newTable {a : BitVec 64} {rest : List (BitVec 64)}
    (hs : Stock pf root mem (a :: rest)) (hc : Clean pf mem (a :: rest)) (he : frame e = pf a)
    (h : NewTable mem mem' root p t i e) : Grows pf root mem (a :: rest) mem' rest [a] := by
  have hleads := h.leadsTo_iff hs.tree
  have hdistinct := hs.distinct
  rw [List.map_cons, List.nodup_cons] at hdistinct
  have hother : ∀ b ∈ rest, pf b ≠ pf a := fun b hb heq =>
    hdistinct.1 (heq ▸ List.mem_map_of_mem hb)
  have hkeep : ∀ q w j, LeadsTo mem root q w → present (entries mem w j) = true →
      entries mem' w j = entries mem w j := by
    intro q w j hq hpres
    refine h.others w j (fun hw => h.fresh q (hw ▸ hq)) ?_
    rintro ⟨rfl, rfl⟩
    rw [h.absent] at hpres
    cases hpres
  refine ⟨?_, ?_, ?_, ?_, ?_, ?_, ?_⟩
  · refine ⟨?_, ?_, ?_⟩
    · exact h.tableTree hs.tree
    · intro b hb q hq
      rcases (hleads q _).mp hq with hq | ⟨-, hw⟩
      · exact hs.unused b (List.mem_cons_of_mem a hb) q hq
      · exact hother b hb (hw.trans he)
    · exact hdistinct.2
  · intro b hb j
    have hne : pf b ≠ frame e := fun hw => hother b hb (hw.trans he)
    have hat : ¬ (pf b = t ∧ j = i) := fun hw =>
      hs.unused b (List.mem_cons_of_mem a hb) p (hw.1 ▸ h.leads)
    rw [h.others _ j hne hat]
    exact hc b (List.mem_cons_of_mem a hb) j
  · rfl
  · intro q w hq
    exact (hleads q w).mpr (Or.inl hq)
  · intro b hb
    rw [List.mem_singleton.mp hb]
    refine ⟨p, t, i, (hleads p t).mpr (Or.inl h.leads), h.inner, h.dom, ?_, ?_⟩
    · rw [h.entry]
      exact h.here
    · rw [h.entry, he]
  · rintro b ⟨q, w, j, hq, hlen, hd, hpres, hb⟩
    refine ⟨q, w, j, (hleads q w).mpr (Or.inl hq), hlen, hd, ?_, ?_⟩
    · rw [hkeep q w j hq hpres]
      exact hpres
    · rw [hkeep q w j hq hpres]
      exact hb
  · intro v hv q j r w hpath hr hq hpres
    rcases (hleads q w).mp hq with hq | ⟨-, rfl⟩
    · by_cases hat : w = t ∧ j = i
      · obtain ⟨rfl, rfl⟩ := hat
        rw [h.entry]
        exact h.small
      · have hw : w ≠ frame e := fun hw => h.fresh q (hw ▸ hq)
        rw [h.others w j hw hat] at hpres ⊢
        exact hv q j r w hpath hr hq hpres
    · rw [h.empty j] at hpres
      cases hpres

/-- Writing an entry of the last level changes no table. -/
theorem Grows.newPage (hg : Grows pf root mem free mem' free' new)
    (h : NewPage mem' mem'' root p t i e) : Grows pf root mem free mem'' free' new := by
  have htree := hg.stock.tree
  have hleads := h.leadsTo_iff htree
  have hkeep : ∀ q w j, LeadsTo mem' root q w → q.length < 3 →
      entries mem'' w j = entries mem' w j := by
    intro q w j hq hlen
    refine h.others w j ?_
    rintro ⟨rfl, -⟩
    rw [htree q p w hq h.leads, h.last] at hlen
    exact Nat.lt_irrefl 3 hlen
  refine ⟨?_, ?_, ?_, ?_, ?_, ?_, ?_⟩
  · exact ⟨h.tableTree htree, fun a ha q hq => hg.stock.unused a ha q ((hleads q _).mp hq),
      hg.stock.distinct⟩
  · intro a ha j
    rw [h.others _ j fun hw => hg.stock.unused a ha p (by rw [hw.1]; exact h.leads)]
    exact hg.clean a ha j
  · exact hg.free
  · intro q w hq
    exact (hleads q w).mpr (hg.leads q w hq)
  · intro a ha
    obtain ⟨q, w, j, hq, hlen, hd, hpres, hb⟩ := hg.linked a ha
    rw [← hkeep q w j hq hlen] at hpres hb
    exact ⟨q, w, j, (hleads q w).mpr hq, hlen, hd, hpres, hb⟩
  · intro a ha
    obtain ⟨q, w, j, hq, hlen, hd, hpres, hb⟩ := hg.keeps a ha
    rw [← hkeep q w j hq hlen] at hpres hb
    exact ⟨q, w, j, (hleads q w).mpr hq, hlen, hd, hpres, hb⟩
  · intro v hv q j r w hpath hr hq hpres
    have hq' := (hleads q w).mp hq
    have hlen := congrArg List.length hpath
    rw [length_path, List.length_append, List.length_cons] at hlen
    have hr' : 0 < r.length := List.length_pos_of_ne_nil hr
    rw [hkeep q w j hq' (by omega)] at hpres ⊢
    exact hg.small v hv q j r w hpath hr hq' hpres

end Grows

/-- Flags that leave the address and the page size bit alone. -/
def FlagsClear (flags : BitVec 64) : Prop := large flags = false ∧ frame flags = 0

instance (flags : BitVec 64) : Decidable (FlagsClear flags) := inferInstanceAs (Decidable (_ ∧ _))

theorem paddr_aligned (arr page : BitVec 64) : (paddr arr page).toNat % 4096 = 0 := by
  have hsize : (BitVec.ofNat 64 pageSize).toNat = 4096 := rfl
  rw [paddr, BitVec.toNat_mul, hsize]
  omega

theorem large_paddr (arr page : BitVec 64) : large (paddr arr page) = false :=
  bit_of_aligned (paddr_aligned arr page) (by decide)

/-! One level. -/

section ensureTable

variable {s : Kernel} {σ : PageList → List (BitVec 64)} {addr : ℕ} {flags : BitVec 64}

theorem ensureTable_present (h : present (s.mem addr) = true) :
    ensureTable s addr flags = some (.ok (), s) := by
  rw [ensureTable, if_pos h]

theorem ensureTable_empty (hσ : Represents s.lists σ) (hfree : σ .freelist = [])
    (h : present (s.mem addr) = false) :
    ∃ lists, ensureTable s addr flags = some (.error .outOfMemory, { s with lists }) ∧
      Represents lists σ := by
  obtain ⟨lists, halloc, hrep⟩ := allocPhysPageSingle_empty hσ hfree
  exact ⟨lists, by simp [ensureTable, h, halloc], hrep⟩

theorem ensureTable_taken (hσ : Represents s.lists σ) {a : BitVec 64} {rest : List (BitVec 64)}
    (hfree : σ .freelist = a :: rest) (h : present (s.mem addr) = false) :
    ∃ lists, ensureTable s addr flags = some (.ok (), { s with
        lists, mem := s.mem.write addr (entryOf (paddr s.pfndbArr a) flags) }) ∧
      Represents lists (Function.update (Function.update σ .freelist rest) .ptPages
        (σ .ptPages ++ [a])) := by
  obtain ⟨lists₁, lists₂, halloc, hpush, hrep⟩ := allocPhysPageSingle_push hσ hfree
  exact ⟨lists₂, by simp [ensureTable, h, halloc, hpush, entryOf], hrep⟩

end ensureTable

/-! The levels above the last one. -/

/-- Down to the table the indices lead to, adding tables where there are none. -/
def descend (flags : BitVec 64) :
    Kernel → BitVec 40 → List (BitVec 9) → Option (Except E (BitVec 40) × Kernel)
  | s, t, [] => some (.ok t, s)
  | s, t, i :: is => do
    match ← ensureTable s (entryAddr t i) flags with
    | (.error e, s) => return (.error e, s)
    | (.ok _, s) => descend flags s (frame (s.mem (entryAddr t i))) is

/-- The first three indices of an address. -/
def upper (v : BitVec 64) : List (BitVec 9) :=
  [v.extractLsb' 39 9, v.extractLsb' 30 9, v.extractLsb' 21 9]

/-- The index into the table they lead to. -/
def lastIndex (v : BitVec 64) : BitVec 9 := v.extractLsb' 12 9

theorem path_eq (v : BitVec 64) : path v = upper v ++ [lastIndex v] := rfl

/-- The function descends, and then writes the entry of the last level. -/
theorem mapSinglePage_eq {s : Kernel} {phys virt flags : BitVec 64}
    (hphys : phys.toNat % pageSize = 0) (hvirt : virt.toNat % pageSize = 0) :
    mapSinglePage s phys virt flags = do
      match ← descend flags s s.pml4 (upper virt) with
      | (.error e, s) => return (.error e, s)
      | (.ok t, s) => return (.ok (), { s with
          mem := s.mem.write (entryAddr t (lastIndex virt)) (entryOf phys flags) }) := by
  unfold mapSinglePage
  rw [if_neg (not_not.mpr (pageAligned_iff.mpr hphys)),
    if_neg (not_not.mpr (pageAligned_iff.mpr hvirt))]
  simp only [upper, lastIndex, descend, below, pml4eIndex, pdpteIndex, pdeIndex, pteIndex,
    setWidth_tableIndex]
  rcases ensureTable s _ flags with _ | ⟨_ | _, s₁⟩
  · rfl
  · rfl
  simp only [Option.bind_eq_bind, Option.bind_some]
  rcases ensureTable s₁ _ flags with _ | ⟨_ | _, s₂⟩
  · rfl
  · rfl
  simp only [Option.bind_some]
  rcases ensureTable s₂ _ flags with _ | ⟨_ | _, s₃⟩ <;> rfl

section Descend

variable {s : Kernel} {σ : PageList → List (BitVec 64)} {flags : BitVec 64}
  {p : List (BitVec 9)} {t u : BitVec 40}

/-- Tables that are there are passed through. -/
theorem descend_append {r is : List (BitVec 9)} (hp : LeadsTo s.mem s.pml4 p t)
    (hu : LeadsTo s.mem s.pml4 (p ++ r) u) :
    descend flags s t (r ++ is) = descend flags s u is := by
  induction r generalizing p t with
  | nil =>
    rw [List.append_nil] at hu
    rw [hp.unique hu, List.nil_append]
  | cons i r ih =>
    obtain ⟨hpres, -, hnext⟩ := hp.split hu
    rw [List.append_cons] at hu
    rw [List.cons_append, descend, ensureTable_present hpres]
    exact ih hnext hu

theorem descend_eq {r : List (BitVec 9)} (hp : LeadsTo s.mem s.pml4 p t)
    (hu : LeadsTo s.mem s.pml4 (p ++ r) u) : descend flags s t r = some (.ok u, s) := by
  have h : descend flags s t (r ++ []) = descend flags s u [] := descend_append hp hu
  rwa [List.append_nil] at h

/-- Where a table is missing there is a first entry that is absent. -/
theorem exists_absent {mem : PhysMem} {root : BitVec 40} {v : BitVec 64} {is last : List (BitVec 9)}
    (hv : path v = p ++ is ++ last) (hlast : last ≠ []) (hself : NotSelf (path v))
    (hsmall : SmallWalk mem root v) (hp : LeadsTo mem root p t)
    (hno : ∀ u, ¬ LeadsTo mem root (p ++ is) u) :
    ∃ r i r' w, is = r ++ i :: r' ∧ LeadsTo mem root (p ++ r) w ∧
      present (entries mem w i) = false := by
  induction is generalizing p t with
  | nil => exact absurd (by rwa [List.append_nil]) (hno t)
  | cons i is ih =>
    cases hpres : present (entries mem t i)
    · exact ⟨[], i, is, t, rfl, by rwa [List.append_nil], hpres⟩
    · have hv' : path v = p ++ i :: (is ++ last) := by rw [hv, List.append_assoc, List.cons_append]
      have hlen := congrArg List.length hv'
      simp only [length_path, List.length_append, List.length_cons] at hlen
      have hlast' : 0 < last.length := List.length_pos_of_ne_nil hlast
      have hl := hsmall p i _ t hv' (by simp [hlast]) hp hpres
      have hd : NotSelf (p ++ [i]) := by
        apply notSelf_of_append _ (is ++ last)
        rw [← List.append_cons, ← hv']
        exact hself
      have hnext := hp.next (by omega) hd hpres hl
      have hno' : ∀ u, ¬ LeadsTo mem root (p ++ [i] ++ is) u := by
        intro u
        rw [← List.append_cons]
        exact hno u
      obtain ⟨r, j, r', w, hr, hw, habs⟩ := ih (by rw [hv, List.append_cons p]) hnext hno'
      refine ⟨i :: r, j, r', w, by rw [hr, List.cons_append], ?_, habs⟩
      rw [List.append_cons]
      exact hw

/-- The lists and the memory after pages were made tables: the descriptors `new` went
from the free list to the list of page tables. -/
structure Moved (s : Kernel) (σ : PageList → List (BitVec 64)) (lists : Lists) (mem : PhysMem)
    (σ' : PageList → List (BitVec 64)) (new : List (BitVec 64)) : Prop where
  lists : Represents lists σ'
  grows : Grows (pageFrame s) s.pml4 s.mem (σ .freelist) mem (σ' .freelist) new
  ptPages : σ' .ptPages = σ .ptPages ++ new
  pages : σ' .pages = σ .pages

theorem Moved.taken {a : BitVec 64} {rest : List (BitVec 64)} {lists : Lists} {mem : PhysMem}
    (hfree : σ .freelist = a :: rest)
    (hσ : Represents lists (Function.update (Function.update σ .freelist rest) .ptPages
      (σ .ptPages ++ [a])))
    (hgrows : Grows (pageFrame s) s.pml4 s.mem (a :: rest) mem rest [a]) :
    Moved s σ lists mem (Function.update (Function.update σ .freelist rest) .ptPages
      (σ .ptPages ++ [a])) [a] where
  lists := hσ
  grows := by simpa [hfree] using hgrows
  ptPages := by simp
  pages := by simp

theorem Moved.trans {lists lists' : Lists} {mem mem' : PhysMem}
    {σ₁ σ' : PageList → List (BitVec 64)} {new new' : List (BitVec 64)}
    (h : Moved s σ lists mem σ₁ new) (h' : Moved { s with lists, mem } σ₁ lists' mem' σ' new') :
    Moved s σ lists' mem' σ' (new ++ new') where
  lists := h'.lists
  grows := h.grows.trans h'.grows
  ptPages := by rw [h'.ptPages, h.ptPages, List.append_assoc]
  pages := h'.pages.trans h.pages

theorem newTable_write {a : BitVec 64} {rest : List (BitVec 64)} {i : BitVec 9}
    (hs : Stock (pageFrame s) s.pml4 s.mem (a :: rest)) (hc : Clean (pageFrame s) s.mem (a :: rest))
    (hf : FlagsClear flags) (hp : LeadsTo s.mem s.pml4 p t) (hlen : p.length < 3)
    (hd : NotSelf (p ++ [i])) (habs : present (entries s.mem t i) = false) :
    NewTable s.mem (s.mem.write (entryAddr t i) (entryOf (paddr s.pfndbArr a) flags)) s.pml4 p t i
      (entryOf (paddr s.pfndbArr a) flags) := by
  have hframe : frame (entryOf (paddr s.pfndbArr a) flags) = pageFrame s a := frame_entryOf hf.2
  have hmem : a ∈ a :: rest := List.mem_cons_self
  have hat : ∀ j, ¬ (pageFrame s a = t ∧ j = i) := fun j hw =>
    hs.unused a hmem p (by rw [hw.1]; exact hp)
  exact
    { leads := hp
      inner := hlen
      dom := hd
      absent := habs
      here := present_entryOf _ _
      small := large_entryOf (large_paddr _ _) hf.1
      fresh := by rw [hframe]; exact hs.unused a hmem
      entry := by rw [entries_write, if_pos ⟨rfl, rfl⟩]
      others := fun w j _ hne => by rw [entries_write, if_neg hne]
      empty := fun j => by
        rw [hframe, entries_write, if_neg (hat j)]
        exact hc a hmem j }

/-- Over clean pages a descent adds tables and changes no walk. It ends in the table the
indices lead to, or with no page left. -/
theorem descend_spec (hσ : Represents s.lists σ)
    (hs : Stock (pageFrame s) s.pml4 s.mem (σ .freelist))
    (hc : Clean (pageFrame s) s.mem (σ .freelist)) (hf : FlagsClear flags) {v : BitVec 64}
    {is last : List (BitVec 9)} (hv : path v = p ++ is ++ last) (hlast : last ≠ [])
    (hself : NotSelf (path v)) (hsmall : SmallWalk s.mem s.pml4 v)
    (hp : LeadsTo s.mem s.pml4 p t) :
    ∃ lists mem σ' new, Moved s σ lists mem σ' new ∧ SameWalks s.pml4 s.mem mem ∧
      (new = [] → mem = s.mem) ∧
      ((∃ u, descend flags s t is = some (.ok u, { s with lists, mem }) ∧
          LeadsTo mem s.pml4 (p ++ is) u) ∨
        (descend flags s t is = some (.error .outOfMemory, { s with lists, mem }) ∧
          σ' .freelist = [])) := by
  induction is generalizing s σ p t with
  | nil =>
    refine ⟨s.lists, s.mem, σ, [], ⟨hσ, Grows.refl hs hc, by simp, rfl⟩, fun _ _ _ => rfl,
      fun _ => rfl, Or.inl ⟨t, rfl, ?_⟩⟩
    rw [List.append_nil]
    exact hp
  | cons i is ih =>
    have hv' : path v = p ++ i :: (is ++ last) := by rw [hv, List.append_assoc, List.cons_append]
    have hv'' : path v = p ++ [i] ++ is ++ last := by rw [hv, List.append_cons p]
    have hlen := congrArg List.length hv'
    simp only [length_path, List.length_append, List.length_cons] at hlen
    have hlast' : 0 < last.length := List.length_pos_of_ne_nil hlast
    have hd : NotSelf (p ++ [i]) := by
      apply notSelf_of_append _ (is ++ last)
      rw [← List.append_cons, ← hv']
      exact hself
    rw [List.append_cons p]
    cases hpres : present (entries s.mem t i)
    · cases hfree : σ .freelist with
      | nil =>
        have htake : ∃ lists, ensureTable s (entryAddr t i) flags =
            some (.error .outOfMemory, { s with lists }) ∧ Represents lists σ :=
          ensureTable_empty hσ hfree hpres
        obtain ⟨lists, hrun, hrep⟩ := htake
        refine ⟨lists, s.mem, σ, [], ⟨hrep, Grows.refl hs hc, by simp, rfl⟩, fun _ _ _ => rfl,
          fun _ => rfl, Or.inr ⟨?_, hfree⟩⟩
        rw [descend, hrun]
        rfl
      | cons a rest =>
        have htake : ∃ lists, ensureTable s (entryAddr t i) flags = some (.ok (), { s with
              lists, mem := s.mem.write (entryAddr t i) (entryOf (paddr s.pfndbArr a) flags) }) ∧
            Represents lists (Function.update (Function.update σ .freelist rest) .ptPages
              (σ .ptPages ++ [a])) := ensureTable_taken hσ hfree hpres
        obtain ⟨lists₁, hrun, hrep⟩ := htake
        rw [hfree] at hs hc
        have hnew := newTable_write hs hc hf hp (by omega) hd hpres
        have hmoved₁ := Moved.taken hfree hrep (Grows.newTable hs hc (frame_entryOf hf.2) hnew)
        have hnext := (hnew.leadsTo_iff hs.tree _ _).mpr (Or.inr ⟨rfl, rfl⟩)
        let s₁ : Kernel := { s with
          lists := lists₁
          mem := s.mem.write (entryAddr t i) (entryOf (paddr s.pfndbArr a) flags) }
        obtain ⟨lists, mem, σ', new, hmoved, hwalks, -, hend⟩ :=
          ih (s := s₁) hrep hmoved₁.grows.stock hmoved₁.grows.clean hv''
            (hmoved₁.grows.small v hsmall) hnext
        have hdown : descend flags s t (i :: is) =
            descend flags s₁ (frame (entries s₁.mem t i)) is := by
          rw [descend, hrun]
          rfl
        rw [hdown, hnew.entry]
        refine ⟨lists, mem, σ', [a] ++ new, hmoved₁.trans hmoved, ?_, ?_, hend⟩
        · intro q hq hlen'
          rw [hwalks q hq hlen']
          exact hnew.lookup_eq hs.tree hq hlen'
        · intro hnil
          cases hnil
    · have hl := hsmall p i _ t hv' (by simp [hlast]) hp hpres
      have hnext := hp.next (by omega) hd hpres hl
      rw [descend, ensureTable_present hpres]
      exact ih hσ hs hc hv'' hsmall hnext

end Descend

end CxKernel.Mmu
