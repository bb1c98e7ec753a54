import CxKernel.Proofs.MapSinglePage

/-! `map_pages` when it fails. It fails only when the free list is empty; what it took from
there goes back while the tables still name it, and the pages mapped before stay mapped. -/

namespace CxKernel.Mmu

open LinkedList Paging Pmm RadixWalk

/-! The addresses of a batch. -/

/-- The pages of the list, each with the address it is mapped at. -/
def batch (virt : BitVec 64) : List (BitVec 64) → List (BitVec 64 × BitVec 64)
  | [] => []
  | page :: pages => (virt, page) :: batch (virt + .ofNat 64 pageSize) pages

theorem head_mem_batch (virt page : BitVec 64) (pages : List (BitVec 64)) :
    (virt, page) ∈ batch virt (page :: pages) := List.mem_cons_self

theorem tail_mem_batch {virt : BitVec 64} {pages : List (BitVec 64)} {x : BitVec 64 × BitVec 64}
    (page : BitVec 64) (h : x ∈ batch (virt + .ofNat 64 pageSize) pages) :
    x ∈ batch virt (page :: pages) := List.mem_cons_of_mem _ h

theorem mem_batch_cons {virt page : BitVec 64} {pages : List (BitVec 64)}
    {x : BitVec 64 × BitVec 64} : x ∈ batch virt (page :: pages) ↔
      x = (virt, page) ∨ x ∈ batch (virt + .ofNat 64 pageSize) pages := List.mem_cons

/-- The four indices of an address as one number. -/
def pageNumber (v : BitVec 64) : ℕ := v.toNat / 4096 % 2 ^ 36

theorem pageNumber_eq_of_path_eq {v w : BitVec 64} (h : path v = path w) :
    pageNumber v = pageNumber w := by
  have hat : ∀ s, v.extractLsb' s 9 = w.extractLsb' s 9 →
      v.toNat / 2 ^ s % 512 = w.toNat / 2 ^ s % 512 := by
    intro s he
    have hn := congrArg BitVec.toNat he
    rw [BitVec.extractLsb'_toNat, BitVec.extractLsb'_toNat, Nat.shiftRight_eq_div_pow,
      Nat.shiftRight_eq_div_pow] at hn
    exact hn
  simp only [path, List.cons.injEq, and_true] at h
  have h39 := hat 39 h.1
  have h30 := hat 30 h.2.1
  have h21 := hat 21 h.2.2.1
  have h12 := hat 12 h.2.2.2
  unfold pageNumber
  omega

theorem pageNumber_lt {v : BitVec 64} (h : NotSelf (path v)) : pageNumber v < 511 * 2 ^ 27 := by
  have hne : v.extractLsb' 39 9 ≠ 511 := fun he => h (by rw [path, he]; rfl)
  have hn : v.toNat / 2 ^ 39 % 512 ≠ 511 := by
    intro he
    apply hne
    apply BitVec.eq_of_toNat_eq
    rw [BitVec.extractLsb'_toNat, Nat.shiftRight_eq_div_pow]
    exact he
  unfold pageNumber
  omega

theorem pageNumber_next {v : BitVec 64} (h : NotSelf (path v)) :
    pageNumber (v + .ofNat 64 pageSize) = pageNumber v + 1 := by
  have hlt := pageNumber_lt h
  have hv := v.isLt
  have hsize : (BitVec.ofNat 64 pageSize).toNat = 4096 := rfl
  unfold pageNumber at hlt ⊢
  rw [BitVec.toNat_add, hsize]
  omega

/-- The addresses of a batch go up as long as they stay out of the last slot. -/
theorem pageNumber_lt_batch {v : BitVec 64} {pages : List (BitVec 64)} (hv : NotSelf (path v))
    (h : ∀ x ∈ batch (v + .ofNat 64 pageSize) pages, NotSelf (path x.1)) :
    ∀ x ∈ batch (v + .ofNat 64 pageSize) pages, pageNumber v < pageNumber x.1 := by
  induction pages generalizing v with
  | nil => exact fun x hx => absurd hx List.not_mem_nil
  | cons page pages ih =>
    have hlt : pageNumber v < pageNumber (v + .ofNat 64 pageSize) := by
      rw [pageNumber_next hv]
      exact Nat.lt_succ_self _
    have hhead := h _ (head_mem_batch _ page pages)
    have htail := ih hhead fun x hx => h x (tail_mem_batch page hx)
    intro x hx
    rcases mem_batch_cons.mp hx with rfl | hx
    · exact hlt
    · exact hlt.trans (htail x hx)

theorem nodup_batch {v : BitVec 64} {pages : List (BitVec 64)}
    (h : ∀ x ∈ batch v pages, NotSelf (path x.1)) :
    ((batch v pages).map fun x => path x.1).Nodup := by
  induction pages generalizing v with
  | nil => exact List.nodup_nil
  | cons page pages ih =>
    have htail : ∀ x ∈ batch (v + .ofNat 64 pageSize) pages, NotSelf (path x.1) :=
      fun x hx => h x (tail_mem_batch page hx)
    have hlt := pageNumber_lt_batch (h _ (head_mem_batch v page pages)) htail
    rw [batch, List.map_cons, List.nodup_cons]
    refine ⟨fun hmem => ?_, ih htail⟩
    obtain ⟨x, hx, he⟩ := List.mem_map.mp hmem
    have := hlt x hx
    rw [pageNumber_eq_of_path_eq he] at this
    exact Nat.lt_irrefl _ this

/-! The entries a run overwrites while no page is free. -/

/-- `mem'` is `mem` with the pages of `xs` written over the entries of their addresses. -/
inductive Overwritten (pf : BitVec 64 → BitVec 40) (root : BitVec 40) :
    PhysMem → List (BitVec 64 × BitVec 64) → PhysMem → Prop
  | nil (mem : PhysMem) : Overwritten pf root mem [] mem
  | cons {mem mem₁ mem' : PhysMem} {t : BitVec 40} {e : BitVec 64} {x : BitVec 64 × BitVec 64}
      {xs : List (BitVec 64 × BitVec 64)}
      (page : NewPage mem mem₁ root (upper x.1) t (lastIndex x.1) e) (names : frame e = pf x.2)
      (rest : Overwritten pf root mem₁ xs mem') : Overwritten pf root mem (x :: xs) mem'

section Overwritten

variable {pf : BitVec 64 → BitVec 40} {root : BitVec 40} {mem mem' : PhysMem}
  {xs : List (BitVec 64 × BitVec 64)}

theorem Overwritten.translatePage_of_notMem (h : Overwritten pf root mem xs mem')
    (htree : TableTree mem root) {v : BitVec 64} (hv : NotSelf (path v))
    (hnot : path v ∉ xs.map fun x => path x.1) :
    translatePage mem' root v = translatePage mem root v := by
  induction h with
  | nil => rfl
  | cons page names rest ih =>
    rw [List.map_cons, List.mem_cons, not_or] at hnot
    rw [ih (page.tableTree htree) hnot.2, translatePage_eq_lookup, translatePage_eq_lookup,
      page.lookup_eq htree hv (length_path v) hnot.1]

/-- Each address ends up at its page. -/
theorem Overwritten.translatePage_of_mem (h : Overwritten pf root mem xs mem')
    (htree : TableTree mem root) (hnodup : (xs.map fun x => path x.1).Nodup)
    (hself : ∀ x ∈ xs, NotSelf (path x.1)) :
    ∀ x ∈ xs, translatePage mem' root x.1 = some (pf x.2) := by
  induction h with
  | nil => exact fun x hx => absurd hx List.not_mem_nil
  | @cons mem mem₁ mem' t e x xs page names rest ih =>
    rw [List.map_cons, List.nodup_cons] at hnodup
    intro y hy
    rcases List.mem_cons.mp hy with rfl | hy
    · have hhere := page.lookup_self htree
      rw [rest.translatePage_of_notMem (page.tableTree htree) (hself y hy) hnodup.1,
        translatePage_eq_lookup, path_eq, hhere, names]
    · exact ih (page.tableTree htree) hnodup.2
        (fun z hz => hself z (List.mem_cons_of_mem _ hz)) y hy

/-- Where each address was at its page already, no walk changes. -/
theorem Overwritten.idle (h : Overwritten pf root mem xs mem') (htree : TableTree mem root)
    (hself : SelfMap mem root) (hidle : ∀ x ∈ xs, translatePage mem root x.1 = some (pf x.2))
    (v : BitVec 64) : translatePage mem' root v = translatePage mem root v := by
  induction h with
  | nil => rfl
  | @cons mem mem₁ mem' t e x xs page names rest ih =>
    have hx := hidle x List.mem_cons_self
    rw [translatePage_eq_lookup, path_eq, ← names] at hx
    have hsame : ∀ w, translatePage mem₁ root w = translatePage mem root w := by
      intro w
      rw [translatePage_eq_lookup, translatePage_eq_lookup,
        page.lookup_idle htree hself hx (length_path w)]
    rw [← hsame v]
    refine ih (page.tableTree htree) (page.selfMap htree hself) fun y hy => ?_
    rw [hsame]
    exact hidle y (List.mem_cons_of_mem _ hy)

end Overwritten

/-! One turn of the loop, with the pages `pre` behind it. -/

section Loop

variable {s s₁ s' : Kernel} {σ : PageList → List (BitVec 64)} {pre rest : List (BitVec 64)}
  {page virt flags : BitVec 64} {e : E}

theorem mapPagesFrom_nil : mapPagesFrom (position pre []) flags s (position pre []) virt =
    some (.ok (), s) := by
  rw [mapPagesFrom, if_pos rfl]

theorem mapPagesFrom_cons (hσ : Represents s.lists σ) (hpages : σ .pages = pre ++ page :: rest) :
    mapPagesFrom (position (σ .pages) []) flags s (position pre (page :: rest)) virt = (do
      match ← mapSinglePage s (paddr s.pfndbArr page) virt flags with
      | (.error e, s) =>
        let lists ← freePhysPages .ptPages s.lists
        return (.error e, { s with lists })
      | (.ok _, s) =>
        let it ← (position pre (page :: rest)).incr s.lists.links
        mapPagesFrom (position (σ .pages) []) flags s it (virt + .ofNat 64 pageSize)) := by
  have hlist := hσ.lists .pages
  have hend := hlist.position_end
  rw [hpages] at hlist hend ⊢
  obtain ⟨hne, hpage, -⟩ := hlist.position_step
  rw [mapPagesFrom, hend, if_neg hne, hpage]
  rfl

theorem mapPagesFrom_ok (hσ : Represents s.lists σ) (hpages : σ .pages = pre ++ page :: rest)
    (hmap : mapSinglePage s (paddr s.pfndbArr page) virt flags = some (.ok (), s₁))
    {σ₁ : PageList → List (BitVec 64)} (hσ₁ : Represents s₁.lists σ₁)
    (hsame : σ₁ .pages = σ .pages) :
    mapPagesFrom (position (σ .pages) []) flags s (position pre (page :: rest)) virt =
      mapPagesFrom (position (σ₁ .pages) []) flags s₁ (position (pre ++ [page]) rest)
        (virt + .ofNat 64 pageSize) := by
  have hlist := hσ₁.lists .pages
  rw [hsame, hpages] at hlist
  obtain ⟨-, -, hincr⟩ := hlist.position_step
  rw [mapPagesFrom_cons hσ hpages, hmap, hsame]
  simp only [Option.bind_eq_bind, Option.bind_some, hincr]

theorem mapPagesFrom_error (hσ : Represents s.lists σ) (hpages : σ .pages = pre ++ page :: rest)
    (hmap : mapSinglePage s (paddr s.pfndbArr page) virt flags = some (.error e, s₁))
    {σ₁ : PageList → List (BitVec 64)} (hσ₁ : Represents s₁.lists σ₁) :
    ∃ lists, mapPagesFrom (position (σ .pages) []) flags s (position pre (page :: rest)) virt =
        some (.error e, { s₁ with lists }) ∧
      Represents lists (Function.update (Function.update σ₁ .ptPages []) .freelist
        (σ₁ .freelist ++ σ₁ .ptPages)) := by
  obtain ⟨lists, hfree, hrep⟩ := freePhysPages_eq (l := .ptPages) (by decide) hσ₁
  refine ⟨lists, ?_, hrep⟩
  rw [mapPagesFrom_cons hσ hpages, hmap]
  simp only [Option.bind_eq_bind, Option.bind_some, hfree]
  rfl

theorem mapSinglePage_misaligned {phys : BitVec 64} (hvirt : virt.toNat % pageSize ≠ 0) :
    mapSinglePage s phys virt flags = none := by
  have hne : virt % .ofNat 64 pageSize ≠ 0 := fun h => hvirt (pageAligned_iff.mp h)
  unfold mapSinglePage
  by_cases hphys : phys % .ofNat 64 pageSize = 0
  · rw [if_neg (not_not.mpr hphys), if_pos hne]
  · rw [if_pos hphys]

/-- A run that gets past a page has it at an aligned address. -/
theorem aligned_of_mapPagesFrom (hσ : Represents s.lists σ) (hpages : σ .pages = pre ++ page :: rest)
    {r : Except E Unit × Kernel}
    (hrun : mapPagesFrom (position (σ .pages) []) flags s (position pre (page :: rest)) virt =
      some r) : virt.toNat % pageSize = 0 := by
  by_contra hvirt
  rw [mapPagesFrom_cons hσ hpages, mapSinglePage_misaligned hvirt] at hrun
  cases hrun

/-- Over clean pages a run that fails used up the free list, and put back what it took. -/
theorem mapPagesFrom_grows (hσ : Represents s.lists σ)
    (hs : Stock (pageFrame s) s.pml4 s.mem (σ .freelist))
    (hc : Clean (pageFrame s) s.mem (σ .freelist)) (hf : FlagsClear flags)
    (hpages : σ .pages = pre ++ rest)
    (hbatch : ∀ x ∈ batch virt rest, NotSelf (path x.1) ∧ SmallWalk s.mem s.pml4 x.1)
    (hrun : mapPagesFrom (position (σ .pages) []) flags s (position pre rest) virt =
      some (.error e, s')) :
    ∃ lists mem σ' new, s' = { s with lists, mem } ∧
      Grows (pageFrame s) s.pml4 s.mem (σ .freelist) mem [] new ∧ Represents lists σ' ∧
      σ' .freelist = σ .ptPages ++ new := by
  induction rest generalizing s σ pre virt with
  | nil =>
    rw [hpages, List.append_nil, mapPagesFrom_nil] at hrun
    cases hrun
  | cons page rest ih =>
    have hvirt := aligned_of_mapPagesFrom hσ hpages hrun
    obtain ⟨hself, hsmall⟩ := hbatch _ (head_mem_batch virt page rest)
    obtain ⟨lists, mem, σ₁, new, hmoved, hend⟩ :=
      mapSinglePage_spec hσ hs hc (paddr_aligned _ page) hvirt hself hf hsmall
    have hgrows := hmoved.grows
    rcases hend with ⟨hmap, -⟩ | ⟨hmap, hempty, -⟩
    · rw [mapPagesFrom_ok hσ hpages hmap hmoved.lists hmoved.pages] at hrun
      obtain ⟨lists', mem', σ', new', hs', hgrows', hrep, hfree⟩ :=
        ih (s := { s with lists, mem }) hmoved.lists hgrows.stock hgrows.clean
          (by rw [hmoved.pages, hpages, List.append_assoc, List.singleton_append])
          (fun x hx => (hbatch x (tail_mem_batch page hx)).imp_right (hgrows.small x.1)) hrun
      refine ⟨lists', mem', σ', new ++ new', hs', hgrows.trans hgrows', hrep, ?_⟩
      rw [hfree, hmoved.ptPages, List.append_assoc]
    · obtain ⟨lists', hstop, hrep⟩ := mapPagesFrom_error hσ hpages hmap hmoved.lists
      rw [hstop] at hrun
      cases hrun
      rw [hempty] at hgrows
      refine ⟨lists', mem, _, new, rfl, hgrows, hrep, ?_⟩
      rw [Function.update_self, hempty, hmoved.ptPages, List.nil_append]

end Loop

/-! Runs without a free page. -/

/-- The table that holds the last entry of `v` is there. -/
def hasTables (mem : PhysMem) (root : BitVec 40) (v : BitVec 64) : Bool :=
  (tableAt pageFormat (entries mem) 4 root (upper v)).isSome

theorem hasTables_iff {mem : PhysMem} {root : BitVec 40} {v : BitVec 64} (hv : NotSelf (path v)) :
    hasTables mem root v = true ↔ ∃ t, LeadsTo mem root (upper v) t := by
  rw [hasTables, Option.isSome_iff_exists]
  rw [path_eq] at hv
  have hupper : NotSelf (upper v) := notSelf_of_append _ _ hv
  refine ⟨?_, ?_⟩
  · rintro ⟨t, ht⟩
    exact ⟨t, (by decide : 3 < 4), hupper, ht⟩
  · rintro ⟨t, ht⟩
    exact ⟨t, ht.2.2⟩

section Stuck

variable {s s' : Kernel} {σ : PageList → List (BitVec 64)} {pre rest : List (BitVec 64)}
  {virt flags : BitVec 64} {e : E}

/-- Such a run overwrites the pages up to the first whose tables are missing. -/
theorem mapPagesFrom_overwrites (hσ : Represents s.lists σ)
    (hs : Stock (pageFrame s) s.pml4 s.mem (σ .freelist)) (hfree : σ .freelist = [])
    (hf : FlagsClear flags) (hpages : σ .pages = pre ++ rest)
    (hbatch : ∀ x ∈ batch virt rest, NotSelf (path x.1) ∧ SmallWalk s.mem s.pml4 x.1)
    {has : BitVec 64 → Bool} (hhas : ∀ x ∈ batch virt rest, has x.1 = hasTables s.mem s.pml4 x.1)
    (hrun : mapPagesFrom (position (σ .pages) []) flags s (position pre rest) virt =
      some (.error e, s')) :
    Overwritten (pageFrame s) s.pml4 s.mem ((batch virt rest).takeWhile fun x => has x.1) s'.mem := by
  induction rest generalizing s pre virt with
  | nil =>
    rw [hpages, List.append_nil, mapPagesFrom_nil] at hrun
    cases hrun
  | cons page rest ih =>
    have hvirt := aligned_of_mapPagesFrom hσ hpages hrun
    have hphys := paddr_aligned s.pfndbArr page
    have hhere : has virt = hasTables s.mem s.pml4 virt := hhas _ (head_mem_batch virt page rest)
    obtain ⟨hself, hsmall⟩ := hbatch _ (head_mem_batch virt page rest)
    rw [batch, List.takeWhile_cons]
    by_cases htab : ∃ t, LeadsTo s.mem s.pml4 (upper virt) t
    · obtain ⟨t, ht⟩ := htab
      rw [if_pos (hhere.trans ((hasTables_iff hself).mpr ⟨t, ht⟩))]
      let s₁ : Kernel := { s with
        mem := s.mem.write (entryAddr t (lastIndex virt)) (entryOf (paddr s.pfndbArr page) flags) }
      have hmap : mapSinglePage s (paddr s.pfndbArr page) virt flags = some (.ok (), s₁) :=
        mapSinglePage_present hphys hvirt ht
      have hpage : NewPage s.mem s₁.mem s.pml4 (upper virt) t (lastIndex virt)
          (entryOf (paddr s.pfndbArr page) flags) := newPage_write ht
      have hclean : Clean (pageFrame s) s.mem (σ .freelist) := hfree ▸ clean_nil _ _
      have hgrows := (Grows.refl hs hclean).newPage hpage
      have hpages₁ : σ .pages = (pre ++ [page]) ++ rest := by
        rw [hpages, List.append_assoc, List.singleton_append]
      rw [mapPagesFrom_ok hσ hpages hmap hσ rfl] at hrun
      refine .cons hpage (frame_entryOf hf.2)
        (ih (s := s₁) hσ hgrows.stock hpages₁ ?_ ?_ hrun)
      · intro x hx
        exact (hbatch x (tail_mem_batch page hx)).imp_right (hgrows.small x.1)
      · intro x hx
        have hx' := tail_mem_batch page hx
        have hself' := (hbatch x hx').1
        rw [hhas x hx', Bool.eq_iff_iff, hasTables_iff hself', hasTables_iff hself']
        exact exists_congr fun w => (hpage.leadsTo_iff hs.tree _ w).symm
    · have hnot : ¬ has virt = true := by
        rw [hhere, hasTables_iff hself]
        exact htab
      rw [if_neg hnot]
      obtain ⟨lists, σ', hmap, hrep⟩ := mapSinglePage_stuck hσ hs hfree hphys hvirt hself hf hsmall
        (not_exists.mp htab)
      obtain ⟨lists', hstop, -⟩ := mapPagesFrom_error hσ hpages hmap hrep
      rw [hstop] at hrun
      cases hrun
      exact .nil s.mem

end Stuck

/-! What a failed call leaves behind. -/

/-- The descriptor is on the free list. -/
def OnFree (s : Kernel) (a : BitVec 64) : Prop :=
  ∃ free, visit s.lists.links (s.lists.lists .freelist) = some free ∧ a ∈ free

theorem onFree_iff {s : Kernel} {σ : PageList → List (BitVec 64)} (h : Represents s.lists σ)
    (a : BitVec 64) : OnFree s a ↔ a ∈ σ .freelist := by
  simp [OnFree, (h.lists .freelist).visit_eq]

/-- A present entry of a table that can be reached names the page. -/
def Referenced (s : Kernel) (f : BitVec 40) : Prop :=
  ∃ p t i, LeadsTo s.mem s.pml4 p t ∧ present (entries s.mem t i) = true ∧
    frame (entries s.mem t i) = f

/-- No free page is referenced, and every address translates as before. -/
structure Intact (s s' : Kernel) : Prop where
  freed : ∀ a, OnFree s' a → ¬ Referenced s' (pageFrame s' a)
  walks : ∀ v, translatePage s'.mem s'.pml4 v = translatePage s.mem s.pml4 v

/-- No page was free, and what was mapped before the failure was mapped there already. -/
def NothingDone (s : Kernel) (virt : BitVec 64) (free pages : List (BitVec 64)) : Prop :=
  free = [] ∧ ∀ x ∈ (batch virt pages).takeWhile fun x => hasTables s.mem s.pml4 x.1,
    translatePage s.mem s.pml4 x.1 = some (pageFrame s x.2)

section Failed

variable {s s' : Kernel} {σ : PageList → List (BitVec 64)} {virt flags : BitVec 64} {e : E}

/-- The state in which the loop starts. -/
def start (s : Kernel) : Kernel :=
  { s with lists := s.lists.set .ptPages (s.lists.links, .new) }

theorem represents_start (hσ : Represents s.lists σ) :
    Represents (start s).lists (Function.update σ .ptPages []) :=
  hσ.reset .ptPages

theorem start_freelist (σ : PageList → List (BitVec 64)) :
    Function.update σ .ptPages [] .freelist = σ .freelist :=
  Function.update_of_ne (by decide) _ _

theorem start_pages (σ : PageList → List (BitVec 64)) :
    Function.update σ .ptPages [] .pages = σ .pages :=
  Function.update_of_ne (by decide) _ _

theorem mapPages_eq (hσ : Represents s.lists σ) :
    mapPages s virt flags =
      mapPagesFrom (position (σ .pages) []) flags (start s) (position [] (σ .pages)) virt := by
  have hlist := (represents_start hσ).lists .pages
  rw [start_pages] at hlist
  rw [hlist.position_end, ← hlist.beginIt_eq]
  rfl

section

variable (hσ : Represents s.lists σ) (hs : Stock (pageFrame s) s.pml4 s.mem (σ .freelist))
  (hf : FlagsClear flags)
  (hbatch : ∀ x ∈ batch virt (σ .pages), NotSelf (path x.1) ∧ SmallWalk s.mem s.pml4 x.1)
  (hrun : mapPages s virt flags = some (.error e, s'))

include hσ hs hf hbatch hrun

/-- Every page that was free has become a table, and is free again. -/
theorem mapPages_grows (hc : Clean (pageFrame s) s.mem (σ .freelist)) :
    ∃ lists mem σ', s' = { s with lists, mem } ∧
      Grows (pageFrame s) s.pml4 s.mem (σ .freelist) mem [] (σ .freelist) ∧
      Represents lists σ' ∧ σ' .freelist = σ .freelist := by
  have hσ₀ := represents_start hσ
  have hfree₀ := start_freelist σ
  have hpages₀ := start_pages σ
  rw [mapPages_eq hσ, ← hpages₀] at hrun
  rw [← hfree₀] at hs hc
  rw [← hpages₀] at hbatch
  obtain ⟨lists, mem, σ', new, hs', hgrows, hrep, hnew⟩ := mapPagesFrom_grows
    (s := start s) hσ₀ hs hc hf (List.nil_append _).symm hbatch hrun
  have hall := hgrows.free
  rw [hfree₀, List.append_nil] at hall
  rw [hfree₀, ← hall] at hgrows
  rw [Function.update_self, List.nil_append, ← hall] at hnew
  exact ⟨lists, mem, σ', hs', hgrows, hrep, hnew⟩

theorem mapPages_overwrites (hfree : σ .freelist = []) :
    Overwritten (pageFrame s) s.pml4 s.mem
      ((batch virt (σ .pages)).takeWhile fun x => hasTables s.mem s.pml4 x.1) s'.mem := by
  have hσ₀ := represents_start hσ
  have hfree₀ := start_freelist σ
  have hpages₀ := start_pages σ
  rw [mapPages_eq hσ, ← hpages₀] at hrun
  rw [← hfree₀] at hs hfree
  rw [← hpages₀] at hbatch ⊢
  exact mapPagesFrom_overwrites (s := start s) hσ₀ hs hfree hf (List.nil_append _).symm
    hbatch (fun _ _ => rfl) hrun

/-- So a page that was free is both free and a table. -/
theorem not_intact_of_free (hc : Clean (pageFrame s) s.mem (σ .freelist)) {a : BitVec 64}
    (ha : a ∈ σ .freelist) : ¬ Intact s s' := by
  obtain ⟨lists, mem, σ', hs', hgrows, hrep, hfree⟩ := mapPages_grows hσ hs hf hbatch hrun hc
  obtain ⟨p, t, i, hp, -, -, hpres, hframe⟩ := hgrows.linked a ha
  subst hs'
  intro hintact
  refine hintact.freed a ?_ ⟨p, t, i, hp, hpres, hframe⟩
  rw [onFree_iff (s := { s with lists, mem }) hrep, hfree]
  exact ha

end

/-- A call that fails leaves paging intact where it did nothing; and only there, as long as
no free page holds a stale entry. -/
theorem map_pages_error_intact_iff (hσ : Represents s.lists σ)
    (hs : Stock (pageFrame s) s.pml4 s.mem (σ .freelist)) (hself : SelfMap s.mem s.pml4)
    (hf : FlagsClear flags)
    (hbatch : ∀ x ∈ batch virt (σ .pages), NotSelf (path x.1) ∧ SmallWalk s.mem s.pml4 x.1)
    (hrun : mapPages s virt flags = some (.error e, s')) :
    (NothingDone s virt (σ .freelist) (σ .pages) → Intact s s') ∧
      (Clean (pageFrame s) s.mem (σ .freelist) → Intact s s' →
        NothingDone s virt (σ .freelist) (σ .pages)) := by
  refine ⟨?_, ?_⟩
  · rintro ⟨hfree, hidle⟩
    have hc : Clean (pageFrame s) s.mem (σ .freelist) := hfree ▸ clean_nil _ _
    have hover := mapPages_overwrites hσ hs hf hbatch hrun hfree
    obtain ⟨lists, mem, σ', rfl, -, hrep, hfree'⟩ := mapPages_grows hσ hs hf hbatch hrun hc
    refine ⟨?_, ?_⟩
    · intro a ha
      rw [onFree_iff (s := { s with lists, mem }) hrep, hfree', hfree] at ha
      exact absurd ha List.not_mem_nil
    · exact hover.idle hs.tree hself hidle
  · intro hc hintact
    have hfree : σ .freelist = [] := by
      rw [List.eq_nil_iff_forall_not_mem]
      exact fun a ha => not_intact_of_free hσ hs hf hbatch hrun hc ha hintact
    refine ⟨hfree, fun x hx => ?_⟩
    have hover := mapPages_overwrites hσ hs hf hbatch hrun hfree
    have hsub := (batch virt (σ .pages)).takeWhile_sublist fun x => hasTables s.mem s.pml4 x.1
    have hself' : ∀ y ∈ batch virt (σ .pages), NotSelf (path y.1) := fun y hy => (hbatch y hy).1
    have hnodup : (((batch virt (σ .pages)).takeWhile fun y => hasTables s.mem s.pml4 y.1).map
        fun y => path y.1).Nodup := (hsub.map _).nodup (nodup_batch hself')
    have hroot : s'.pml4 = s.pml4 := by
      obtain ⟨lists, mem, σ', rfl, -⟩ := mapPages_grows hσ hs hf hbatch hrun hc
      rfl
    rw [← hintact.walks x.1, hroot]
    exact hover.translatePage_of_mem hs.tree hnodup (fun y hy => hself' y (hsub.subset hy)) x hx

end Failed

/-! One page to map. -/

theorem mapPages_ok_of_single {s s₁ : Kernel} {σ σ₁ : PageList → List (BitVec 64)}
    {virt flags page : BitVec 64} (hσ : Represents s.lists σ) (hpages : σ .pages = [page])
    (hmap : mapSinglePage (start s) (paddr s.pfndbArr page) virt flags = some (.ok (), s₁))
    (hσ₁ : Represents s₁.lists σ₁) (hsame : σ₁ .pages = σ .pages) :
    mapPages s virt flags = some (.ok (), s₁) := by
  have hpages₀ : Function.update σ .ptPages [] .pages = [] ++ page :: [] := by
    rw [start_pages]
    exact hpages
  have hsame₀ : σ₁ .pages = Function.update σ .ptPages [] .pages := by
    rw [start_pages]
    exact hsame
  have hrun := mapPagesFrom_ok (represents_start hσ) hpages₀ hmap hσ₁ hsame₀
  rw [hsame, start_pages, hpages] at hrun
  rw [mapPages_eq hσ, hpages, hrun]
  exact mapPagesFrom_nil

theorem mapPages_error_of_single {s s₁ : Kernel} {σ σ₁ : PageList → List (BitVec 64)}
    {virt flags page : BitVec 64} {e : E} (hσ : Represents s.lists σ) (hpages : σ .pages = [page])
    (hmap : mapSinglePage (start s) (paddr s.pfndbArr page) virt flags = some (.error e, s₁))
    (hσ₁ : Represents s₁.lists σ₁) : ∃ s', mapPages s virt flags = some (.error e, s') := by
  have hpages₀ : Function.update σ .ptPages [] .pages = [] ++ page :: [] := by
    rw [start_pages]
    exact hpages
  obtain ⟨lists, hrun, -⟩ := mapPagesFrom_error (represents_start hσ) hpages₀ hmap hσ₁
  rw [hpages₀, List.nil_append] at hrun
  rw [mapPages_eq hσ, hpages]
  exact ⟨_, hrun⟩

/-! An address without tables. -/

theorem noTables_chain (t : BitVec 40) : ¬ LeadsTo (chain 1 1 1) 1 (upper 0x40000000) t := by
  intro ht
  have hleads := leadsTo_chain ht
  revert hleads
  simp [upper]

theorem single_batch_ok (page : BitVec 64) : ∀ x ∈ batch 0x40000000 [page],
    NotSelf (path x.1) ∧ SmallWalk (chain 1 1 1) 1 x.1 := by
  intro x hx
  rw [batch, batch, List.mem_singleton] at hx
  rw [hx]
  exact ⟨by simp [NotSelf, path], smallWalk_chain 1 1 1 _⟩

/-- With no page free nothing is done. -/
theorem map_pages_error_intact_iff_empty :
    let s := lowKernel (singles none (some 192)) (chain 1 1 1)
    ∃ s', mapPages s 0x40000000 3 = some (.error .outOfMemory, s') ∧ Intact s s' := by
  intro s
  have hσ : Represents s.lists (singleSeqs none (some 192)) := represents_singles (by simp)
  have hs : Stock (pageFrame s) s.pml4 s.mem [] :=
    ⟨tableTree_chain 1 1 1, fun a ha => absurd ha List.not_mem_nil, List.nodup_nil⟩
  obtain ⟨hself, hsmall⟩ := single_batch_ok 192 _ (head_mem_batch _ _ _)
  have hf : FlagsClear 3 := by decide
  obtain ⟨lists, σ', hmap, hσ'⟩ := mapSinglePage_stuck (s := start s) (represents_start hσ) hs rfl
    (paddr_aligned s.pfndbArr 192) (by decide) hself hf hsmall noTables_chain
  obtain ⟨s', hrun⟩ := mapPages_error_of_single hσ rfl hmap hσ'
  have hnone : (batch 0x40000000 [192]).takeWhile (fun x => hasTables s.mem s.pml4 x.1) = [] := by
    decide
  exact ⟨s', hrun, (map_pages_error_intact_iff hσ hs (by decide) hf (single_batch_ok 192)
    hrun).1 ⟨rfl, fun x hx => absurd (hnone ▸ hx) List.not_mem_nil⟩⟩

/-- With one page free, it becomes a table and stays one when it is freed. -/
theorem freed_page_is_table :
    let s := lowKernel (singles (some 160) (some 192)) (chain 1 1 1)
    SelfMap s.mem s.pml4 ∧ Represents s.lists (singleSeqs (some 160) (some 192)) ∧
      Stock (pageFrame s) s.pml4 s.mem [160] ∧ Clean (pageFrame s) s.mem [160] ∧
      ∃ s', mapPages s 0x40000000 3 = some (.error .outOfMemory, s') ∧ ¬ Intact s s' := by
  intro s
  have hσ : Represents s.lists (singleSeqs (some 160) (some 192)) := represents_singles (by simp)
  have hs : Stock (pageFrame s) s.pml4 s.mem [160] := stock_lowKernel _ 1 1 1
  have hc : Clean (pageFrame s) s.mem [160] := by
    intro a ha j
    rw [List.mem_singleton.mp ha, pageFrame_lowKernel]
    by_contra hpres
    have hentry := (entry_chain (Bool.eq_true_of_not_eq_false hpres)).2
    simp at hentry
  obtain ⟨hself, hsmall⟩ := single_batch_ok 192 _ (head_mem_batch _ _ _)
  have hf : FlagsClear 3 := by decide
  obtain ⟨lists, mem, σ', new, hmoved, hend⟩ := mapSinglePage_spec (s := start s)
    (represents_start hσ) hs hc (paddr_aligned s.pfndbArr 192) (by decide) hself hf hsmall
  have hfails : (mapSinglePage (start s) (paddr s.pfndbArr 192) 0x40000000 3).map
      (fun r => r.1.isOk) = some false := by decide
  refine ⟨by decide, hσ, hs, hc, ?_⟩
  rcases hend with ⟨hmap, -⟩ | ⟨hmap, -⟩
  · rw [show (start s).pfndbArr = s.pfndbArr from rfl] at hmap
    rw [hmap] at hfails
    cases hfails
  · obtain ⟨s', hrun⟩ := mapPages_error_of_single hσ rfl hmap hmoved.lists
    exact ⟨s', hrun, not_intact_of_free hσ hs hf (single_batch_ok 192) hrun hc
      List.mem_cons_self⟩

end CxKernel.Mmu
