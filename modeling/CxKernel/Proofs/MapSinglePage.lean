import CxKernel.Proofs.Mmu
import CxKernel.Proofs.Recursive

/-! What one call of `map_single_page` does to the translations of the other addresses. It
leaves them alone where it needs no new table, or where the pages it takes hold no present
entry. Nothing clears a page before it becomes a table, and what is left in it from
before is read as entries. -/

namespace CxKernel.Mmu

open LinkedList Paging Pmm RadixWalk

structure MapArgs (phys virt flags : BitVec 64) : Prop where
  physAligned : phys.toNat % pageSize = 0
  physWidth : phys.toNat < 2 ^ 52
  virtAligned : virt.toNat % pageSize = 0
  mappable : Mappable virt
  flagsClear : FlagsClear flags

/-- `virt` translates to `phys`, and every address on another page as before. -/
structure MapsOnly (mem mem' : PhysMem) (root : BitVec 40) (phys virt : BitVec 64) : Prop where
  here : translateAddr mem' root virt = some phys.toNat
  others : ∀ v, Mappable v → v >>> 12 ≠ virt >>> 12 →
    translateAddr mem' root v = translateAddr mem root v

section

variable {s : Kernel} {σ : PageList → List (BitVec 64)} {phys virt flags : BitVec 64} {t : BitVec 40}

theorem newPage_write (ht : LeadsTo s.mem s.pml4 (upper virt) t) :
    NewPage s.mem (s.mem.write (entryAddr t (lastIndex virt)) (entryOf phys flags)) s.pml4
      (upper virt) t (lastIndex virt) (entryOf phys flags) where
  leads := ht
  last := rfl
  here := present_entryOf _ _
  entry := by rw [entries_write, if_pos ⟨rfl, rfl⟩]
  others w j hne := by rw [entries_write, if_neg hne]

/-- With the tables there, the call writes one entry. -/
theorem mapSinglePage_present (hphys : phys.toNat % pageSize = 0)
    (hvirt : virt.toNat % pageSize = 0) (ht : LeadsTo s.mem s.pml4 (upper virt) t) :
    mapSinglePage s phys virt flags = some (.ok (), { s with
      mem := s.mem.write (entryAddr t (lastIndex virt)) (entryOf phys flags) }) := by
  have hdown : descend flags s s.pml4 (upper virt) = some (.ok t, s) :=
    descend_eq (LeadsTo.root _ _) ht
  rw [mapSinglePage_eq hphys hvirt, hdown]
  rfl

/-- Over clean pages the call adds tables that no walk sees, and then writes one entry. Or
it runs out of pages. -/
theorem mapSinglePage_spec (hσ : Represents s.lists σ)
    (hs : Stock (pageFrame s) s.pml4 s.mem (σ .freelist))
    (hc : Clean (pageFrame s) s.mem (σ .freelist)) (hphys : phys.toNat % pageSize = 0)
    (hvirt : virt.toNat % pageSize = 0) (hself : NotSelf (path virt)) (hf : FlagsClear flags)
    (hsmall : SmallWalk s.mem s.pml4 virt) :
    ∃ lists mem σ' new, Moved s σ lists mem σ' new ∧
      ((mapSinglePage s phys virt flags = some (.ok (), { s with lists, mem }) ∧
          ∃ mem₁ t, SameWalks s.pml4 s.mem mem₁ ∧ (new = [] → mem₁ = s.mem) ∧
            TableTree mem₁ s.pml4 ∧
            NewPage mem₁ mem s.pml4 (upper virt) t (lastIndex virt) (entryOf phys flags)) ∨
        (mapSinglePage s phys virt flags = some (.error .outOfMemory, { s with lists, mem }) ∧
          σ' .freelist = [] ∧ (new = [] → mem = s.mem))) := by
  have hpath : path virt = [] ++ upper virt ++ [lastIndex virt] := rfl
  obtain ⟨lists, mem, σ', new, hmoved, hwalks, hsame, hend⟩ :=
    descend_spec hσ hs hc hf hpath (List.cons_ne_nil _ _) hself hsmall (LeadsTo.root s.mem s.pml4)
  rw [mapSinglePage_eq hphys hvirt]
  rcases hend with ⟨t, hdown, ht⟩ | ⟨hdown, hempty⟩
  · let s₁ : Kernel := { s with lists, mem }
    have hpage : NewPage mem _ s.pml4 (upper virt) t (lastIndex virt) (entryOf phys flags) :=
      newPage_write (s := s₁) ht
    refine ⟨lists, _, σ', new, ⟨hmoved.lists, hmoved.grows.newPage hpage, hmoved.ptPages,
      hmoved.pages⟩, Or.inl ⟨?_, mem, t, hwalks, hsame, hmoved.grows.stock.tree, hpage⟩⟩
    rw [hdown]
    rfl
  · refine ⟨lists, mem, σ', new, hmoved, Or.inr ⟨?_, hempty, hsame⟩⟩
    rw [hdown]
    rfl

/-- Without a free page the call stops at the first missing table. -/
theorem mapSinglePage_stuck (hσ : Represents s.lists σ)
    (hs : Stock (pageFrame s) s.pml4 s.mem (σ .freelist)) (hfree : σ .freelist = [])
    (hphys : phys.toNat % pageSize = 0) (hvirt : virt.toNat % pageSize = 0)
    (hself : NotSelf (path virt)) (hf : FlagsClear flags) (hsmall : SmallWalk s.mem s.pml4 virt)
    (hno : ∀ t, ¬ LeadsTo s.mem s.pml4 (upper virt) t) :
    ∃ lists σ', mapSinglePage s phys virt flags = some (.error .outOfMemory, { s with lists }) ∧
      Represents lists σ' := by
  have hc : Clean (pageFrame s) s.mem (σ .freelist) := hfree ▸ clean_nil _ _
  obtain ⟨lists, mem, σ', new, hmoved, hend⟩ :=
    mapSinglePage_spec hσ hs hc hphys hvirt hself hf hsmall
  have hnew : new = [] := by
    have hall := hmoved.grows.free
    rw [hfree] at hall
    exact (List.append_eq_nil_iff.mp hall.symm).1
  rcases hend with ⟨-, mem₁, t, -, hsame, -, hpage⟩ | ⟨hrun, -, hsame⟩
  · exact absurd (hsame hnew ▸ hpage.leads) (hno t)
  · refine ⟨lists, σ', ?_, hmoved.lists⟩
    rw [hrun, hsame hnew]

theorem mapsOnly_of_newPage {mem mem₁ mem' : PhysMem} {root : BitVec 40}
    (ha : MapArgs phys virt flags) (hwalks : SameWalks root mem mem₁) (htree : TableTree mem₁ root)
    (h : NewPage mem₁ mem' root (upper virt) t (lastIndex virt) (entryOf phys flags)) :
    MapsOnly mem mem' root phys virt := by
  refine ⟨?_, ?_⟩
  · have hphys : phys.toNat % 4096 = 0 := ha.physAligned
    have hvirt : virt.toNat % 4096 = 0 := ha.virtAligned
    have hlt := ha.physWidth
    rw [translateAddr, translatePage_eq_lookup, path_eq, h.lookup_self htree,
      frame_entryOf ha.flagsClear.2, Option.map_some, toNat_frame]
    congr 1
    omega
  · intro v hv hne
    have hpath : path v ≠ upper virt ++ [lastIndex virt] := fun he =>
      hne (page_eq_of_path_eq hv.1 ha.mappable.1 he)
    have hself := notSelf_of_mappable hv
    rw [translateAddr, translateAddr, translatePage_eq_lookup, translatePage_eq_lookup,
      h.lookup_eq htree hself (length_path v) hpath, hwalks _ hself (length_path v)]

/-- With clean pages a call that succeeds changes one translation. -/
theorem mapsOnly_of_clean (hσ : Represents s.lists σ)
    (hs : Stock (pageFrame s) s.pml4 s.mem (σ .freelist))
    (hc : Clean (pageFrame s) s.mem (σ .freelist)) (hsmall : SmallWalk s.mem s.pml4 virt)
    (ha : MapArgs phys virt flags) {s' : Kernel}
    (hrun : mapSinglePage s phys virt flags = some (.ok (), s')) :
    MapsOnly s.mem s'.mem s.pml4 phys virt := by
  obtain ⟨lists, mem, σ', new, -, hend⟩ := mapSinglePage_spec hσ hs hc ha.physAligned
    ha.virtAligned (notSelf_of_mappable ha.mappable) ha.flagsClear hsmall
  rcases hend with ⟨hrun', mem₁, t, hwalks, -, htree, hpage⟩ | ⟨hrun', -⟩
  · rw [hrun'] at hrun
    cases hrun
    exact mapsOnly_of_newPage ha hwalks htree hpage
  · rw [hrun'] at hrun
    cases hrun

/-! Other contents of the free pages. -/

/-- The memories agree but for the pages of `free`. -/
def AgreeOff (pf : BitVec 64 → BitVec 40) (free : List (BitVec 64)) (mem mem' : PhysMem) : Prop :=
  ∀ w j, (∀ a ∈ free, w ≠ pf a) → entries mem' w j = entries mem w j

variable {pf : BitVec 64 → BitVec 40} {root : BitVec 40} {mem mem' : PhysMem}
  {free : List (BitVec 64)}

theorem AgreeOff.read (h : AgreeOff pf free mem mem') (hs : Stock pf root mem free)
    {q : List (BitVec 9)} {w : BitVec 40} (hq : LeadsTo mem root q w) (j : BitVec 9) :
    entries mem' w j = entries mem w j :=
  h w j fun a ha hw => hs.unused a ha q (hw ▸ hq)

theorem AgreeOff.leadsTo_iff (h : AgreeOff pf free mem mem') (hs : Stock pf root mem free)
    (q : List (BitVec 9)) (w : BitVec 40) : LeadsTo mem' root q w ↔ LeadsTo mem root q w :=
  leads_congr notSelf_of_append (fun _ _ j hq => h.read hs hq j) q w

theorem AgreeOff.stock (h : AgreeOff pf free mem mem') (hs : Stock pf root mem free) :
    Stock pf root mem' free where
  tree p q w hp hq := hs.tree p q w ((h.leadsTo_iff hs p w).mp hp) ((h.leadsTo_iff hs q w).mp hq)
  unused a ha p hp := hs.unused a ha p ((h.leadsTo_iff hs p _).mp hp)
  distinct := hs.distinct

theorem AgreeOff.small (h : AgreeOff pf free mem mem') (hs : Stock pf root mem free)
    (hsmall : SmallWalk mem root virt) : SmallWalk mem' root virt := by
  intro p i r w hpath hr hp hpres
  have hp' := (h.leadsTo_iff hs p w).mp hp
  rw [h.read hs hp'] at hpres ⊢
  exact hsmall p i r w hpath hr hp' hpres

end

/-! A free page whose entries all name the page itself. -/

def selfEntry (u : BitVec 40) : BitVec 64 := (u.setWidth 64 <<< 12) ||| 1

theorem present_selfEntry (u : BitVec 40) : present (selfEntry u) = true := by
  simp [selfEntry, present]

theorem toNat_selfEntry (u : BitVec 40) : (u.setWidth 64 <<< 12).toNat = u.toNat * 4096 := by
  have hu := u.isLt
  rw [BitVec.toNat_shiftLeft, BitVec.toNat_setWidth, Nat.shiftLeft_eq]
  omega

theorem large_selfEntry (u : BitVec 40) : large (selfEntry u) = false := by
  have h1 : large 1 = false := by decide
  rw [selfEntry, large_or, h1, Bool.or_false]
  exact bit_of_aligned (by rw [toNat_selfEntry]; omega) (by decide)

theorem frame_selfEntry (u : BitVec 40) : frame (selfEntry u) = u := by
  have h1 : frame 1 = 0 := by decide
  have hu := u.isLt
  have h : frame (u.setWidth 64 <<< 12) = u := by
    apply BitVec.eq_of_toNat_eq
    rw [toNat_frame, toNat_selfEntry]
    omega
  rw [selfEntry, frame_or, h1, h]
  simp

def fill (mem : PhysMem) (u : BitVec 40) : PhysMem := fun a =>
  if a / 4096 = u.toNat then selfEntry u else mem a

theorem entries_fill (mem : PhysMem) (u w : BitVec 40) (j : BitVec 9) :
    entries (fill mem u) w j = if w = u then selfEntry u else entries mem w j := by
  have hj := j.isLt
  have hin : entryAddr w j / 4096 = u.toNat ↔ w = u := by
    rw [entryAddr, ← BitVec.toNat_inj]
    omega
  simp only [entries, fill, hin]

/-- The table `u` names itself in every entry but perhaps `i`. -/
def Loops (mem : PhysMem) (u : BitVec 40) (i : BitVec 9) : Prop :=
  ∀ j, j ≠ i → entries mem u j = selfEntry u

theorem Loops.lookup {mem : PhysMem} {u : BitVec 40} {i x : BitVec 9} (h : Loops mem u i)
    (hx : x ≠ i) (n : ℕ) :
    lookup pageFormat (entries mem) u (List.replicate (n + 1) x) = some u := by
  induction n with
  | zero =>
    rw [List.replicate_one, RadixWalk.lookup, h x hx, List.length_nil, next_zero]
    simp [pageFormat, present_selfEntry, frame_selfEntry]
  | succ n ih =>
    rw [List.replicate_succ, RadixWalk.lookup, h x hx, List.length_replicate,
      next_of_present (present_selfEntry u) (large_selfEntry u) (Nat.succ_ne_zero n),
      frame_selfEntry]
    exact ih

/-- A descent in such a table stays there. -/
theorem descend_loop {s : Kernel} {flags : BitVec 64} {u : BitVec 40}
    (h : ∀ j, entries s.mem u j = selfEntry u) (is : List (BitVec 9)) :
    descend flags s u is = some (.ok u, s) := by
  induction is with
  | nil => rfl
  | cons i is ih =>
    have hentry : s.mem (entryAddr u i) = selfEntry u := h i
    have hpres : present (s.mem (entryAddr u i)) = true := by
      rw [hentry]
      exact present_selfEntry u
    rw [descend, ensureTable_present hpres]
    simp only [Option.bind_eq_bind, Option.bind_some, hentry, frame_selfEntry]
    exact ih

/-- An entry that was absent and now names a looping table lets a walk end there. -/
theorem lookup_loop {mem mem' : PhysMem} {root w u : BitVec 40} {r : List (BitVec 9)}
    {i l x : BitVec 9} {n : ℕ} (htree : TableTree mem root) (hr : LeadsTo mem root r w)
    (hlen : r.length + (n + 1) = 3) (habs : present (entries mem w i) = false)
    (hbut : AgreeBut pageFormat (entries mem) (entries mem') 4 root NotSelf w i)
    (hpres : present (entries mem' w i) = true) (hlarge : large (entries mem' w i) = false)
    (hframe : frame (entries mem' w i) = u) (hloop : Loops mem' u l) (hx : x ≠ l) :
    lookup pageFormat (entries mem) root (r ++ i :: List.replicate (n + 1) x) = none ∧
      lookup pageFormat (entries mem') root (r ++ i :: List.replicate (n + 1) x) = some u := by
  have hlen' : r.length + ((List.replicate (n + 1) x).length + 1) = 4 := by
    rw [List.length_replicate]
    omega
  refine ⟨?_, ?_⟩
  · exact lookup_absent hr hlen' habs
  · rw [hbut.lookup_through htree notSelf_of_append hr hlen', RadixWalk.lookup,
      List.length_replicate, next_of_present hpres hlarge (Nat.succ_ne_zero n), hframe]
    exact hloop.lookup hx n

section

variable {s : Kernel} {σ : PageList → List (BitVec 64)} {phys virt flags : BitVec 64}
  {a : BitVec 64} {rest : List (BitVec 64)}

/-- The descent takes the looping page for the first missing table and needs no other. -/
theorem descend_taken (hσ : Represents s.lists σ) (hfree : σ .freelist = a :: rest)
    (hloop : ∀ j, entries s.mem (pageFrame s a) j = selfEntry (pageFrame s a))
    (hfresh : ∀ p, ¬ LeadsTo s.mem s.pml4 p (pageFrame s a)) (hf : FlagsClear flags)
    {r : List (BitVec 9)} {i : BitVec 9} {w : BitVec 40} (hr : LeadsTo s.mem s.pml4 r w)
    (habs : present (entries s.mem w i) = false) (r' : List (BitVec 9)) :
    ∃ lists, descend flags s s.pml4 (r ++ i :: r') = some (.ok (pageFrame s a), { s with
      lists, mem := s.mem.write (entryAddr w i) (entryOf (paddr s.pfndbArr a) flags) }) := by
  have htake : ∃ lists, ensureTable s (entryAddr w i) flags = some (.ok (), { s with
        lists, mem := s.mem.write (entryAddr w i) (entryOf (paddr s.pfndbArr a) flags) }) ∧
      Represents lists _ := ensureTable_taken hσ hfree habs
  obtain ⟨lists, hrun, -⟩ := htake
  let mem₁ := s.mem.write (entryAddr w i) (entryOf (paddr s.pfndbArr a) flags)
  have hentry : mem₁ (entryAddr w i) = entryOf (paddr s.pfndbArr a) flags :=
    Function.update_self ..
  have hloop₁ : ∀ j, entries mem₁ (pageFrame s a) j = selfEntry (pageFrame s a) := by
    intro j
    rw [entries_write, if_neg fun hw => hfresh r (by rw [hw.1]; exact hr)]
    exact hloop j
  have hdown : descend flags s s.pml4 (r ++ i :: r') = descend flags s w (i :: r') :=
    descend_append (LeadsTo.root s.mem s.pml4) (by rwa [List.nil_append])
  refine ⟨lists, ?_⟩
  have hnext : descend flags s w (i :: r') =
      descend flags { s with lists, mem := mem₁ } (frame (mem₁ (entryAddr w i))) r' := by
    rw [descend, hrun]
    rfl
  rw [hdown, hnext, hentry, frame_entryOf hf.2]
  exact descend_loop hloop₁ r'

/-- A missing table made from a looping page breaks another translation. -/
theorem not_mapsOnly_of_loop (hσ : Represents s.lists σ)
    (hs : Stock (pageFrame s) s.pml4 s.mem (σ .freelist)) (hfree : σ .freelist = a :: rest)
    (hloop : ∀ j, entries s.mem (pageFrame s a) j = selfEntry (pageFrame s a))
    (hsmall : SmallWalk s.mem s.pml4 virt) (ha : MapArgs phys virt flags)
    (hno : ∀ t, ¬ LeadsTo s.mem s.pml4 (upper virt) t) :
    ∃ s', mapSinglePage s phys virt flags = some (.ok (), s') ∧
      ¬ MapsOnly s.mem s'.mem s.pml4 phys virt := by
  have hself := notSelf_of_mappable ha.mappable
  have hfresh := hs.unused a (by rw [hfree]; exact List.mem_cons_self)
  have hall : path virt = [] ++ upper virt ++ [lastIndex virt] := rfl
  obtain ⟨r, i, r', w, hupper, hr, habs⟩ :=
    exists_absent hall (List.cons_ne_nil _ _) hself hsmall (LeadsTo.root s.mem s.pml4) hno
  rw [List.nil_append] at hr
  have hpath : path virt = (r ++ [i]) ++ (r' ++ [lastIndex virt]) := by
    rw [path_eq, hupper]
    simp
  have hlen : r.length + (r'.length + 1) = 3 := by
    have := congrArg List.length hupper
    simpa [upper] using this.symm
  have hne : ∀ j, ¬ (pageFrame s a = w ∧ j = i) := fun j hw =>
    hfresh r (by rw [hw.1]; exact hr)
  obtain ⟨lists, hdown⟩ := descend_taken hσ hfree hloop hfresh ha.flagsClear hr habs r'
  let mem₁ := s.mem.write (entryAddr w i) (entryOf (paddr s.pfndbArr a) flags)
  let mem₂ := mem₁.write (entryAddr (pageFrame s a) (lastIndex virt)) (entryOf phys flags)
  have hrun : mapSinglePage s phys virt flags = some (.ok (), { s with lists, mem := mem₂ }) := by
    rw [mapSinglePage_eq ha.physAligned ha.virtAligned, hupper, hdown]
    rfl
  refine ⟨_, hrun, fun honly => ?_⟩
  -- both writes are seen only through the entry that was absent
  have hbut : AgreeBut pageFormat (entries s.mem) (entries mem₂) 4 s.pml4 NotSelf w i := by
    intro q v j hq hv
    have hvu : ¬ (v = pageFrame s a ∧ j = lastIndex virt) := fun h => hfresh q (h.1 ▸ hq)
    rw [entries_write, if_neg hvu, entries_write, if_neg hv]
  have hentry : entries mem₂ w i = entryOf (paddr s.pfndbArr a) flags := by
    have hwu : ¬ (w = pageFrame s a ∧ i = lastIndex virt) := fun h => hfresh r (h.1 ▸ hr)
    rw [entries_write, if_neg hwu, entries_write, if_pos ⟨rfl, rfl⟩]
  have hloop₂ : Loops mem₂ (pageFrame s a) (lastIndex virt) := by
    intro j hj
    rw [entries_write, if_neg fun h => hj h.2, entries_write, if_neg (hne j)]
    exact hloop j
  have hx : lastIndex virt + 1 ≠ lastIndex virt := by
    intro h
    have := congrArg BitVec.toNat h
    have hlt := (lastIndex virt).isLt
    simp at this
    omega
  obtain ⟨hbefore, hafter⟩ := lookup_loop (x := lastIndex virt + 1) hs.tree hr hlen habs hbut
    (by rw [hentry]; exact present_entryOf _ _)
    (by rw [hentry]; exact large_entryOf (large_paddr _ _) ha.flagsClear.1)
    (by rw [hentry]; exact frame_entryOf ha.flagsClear.2) hloop₂ hx
  have hq : NotSelf (r ++ i :: List.replicate (r'.length + 1) (lastIndex virt + 1)) := by
    rw [hpath] at hself
    rw [List.append_cons]
    exact notSelf_append (by simp) (notSelf_of_append _ _ hself) _
  obtain ⟨v, hv, hvpath⟩ := exists_mappable hq (by simp; omega)
  have hother : v >>> 12 ≠ virt >>> 12 := by
    intro hpage
    have he := path_eq_of_page_eq hpage
    rw [hvpath, hpath, List.append_cons, List.append_cancel_left_eq] at he
    have hlast : lastIndex virt ∈ r' ++ [lastIndex virt] := by simp
    rw [← he] at hlast
    exact hx (List.eq_of_mem_replicate hlast).symm
  have hsame := honly.others v hv hother
  rw [translateAddr, translateAddr, translatePage_eq_lookup, translatePage_eq_lookup, hvpath] at hsame
  rw [hbefore, hafter] at hsame
  cases hsame

/-- Whatever the free pages hold, a call that succeeds changes one translation. -/
def Isolated (s : Kernel) (free : List (BitVec 64)) (phys virt flags : BitVec 64) : Prop :=
  ∀ mem, AgreeOff (pageFrame s) free s.mem mem → ∀ s',
    mapSinglePage { s with mem } phys virt flags = some (.ok (), s') →
      MapsOnly mem s'.mem s.pml4 phys virt

/-- So it is where the tables are there already, and where the call is bound to fail. -/
theorem map_single_page_isolated_iff (hσ : Represents s.lists σ)
    (hs : Stock (pageFrame s) s.pml4 s.mem (σ .freelist)) (hsmall : SmallWalk s.mem s.pml4 virt)
    (ha : MapArgs phys virt flags) :
    Isolated s (σ .freelist) phys virt flags ↔
      (∃ t, LeadsTo s.mem s.pml4 (upper virt) t) ∨ σ .freelist = [] := by
  refine ⟨?_, ?_⟩
  · intro hiso
    by_contra hcond
    rw [not_or, not_exists] at hcond
    obtain ⟨a, rest, hfree⟩ := List.exists_cons_of_ne_nil hcond.2
    have ha' : a ∈ σ .freelist := by
      rw [hfree]
      exact List.mem_cons_self
    have hoff : AgreeOff (pageFrame s) (σ .freelist) s.mem (fill s.mem (pageFrame s a)) := by
      intro w j hw
      rw [entries_fill, if_neg (hw a ha')]
    obtain ⟨s', hrun, hnot⟩ := not_mapsOnly_of_loop
      (s := { s with mem := fill s.mem (pageFrame s a) }) hσ (hoff.stock hs) hfree
      (fun j => by rw [entries_fill]; exact if_pos rfl) (hoff.small hs hsmall) ha
      fun t ht => hcond.1 t ((hoff.leadsTo_iff hs _ t).mp ht)
    exact hnot (hiso _ hoff s' hrun)
  · intro hcond mem hoff s' hrun
    rcases hcond with ⟨t, ht⟩ | hfree
    · have ht' := (hoff.leadsTo_iff hs _ t).mpr ht
      rw [mapSinglePage_present (s := { s with mem }) ha.physAligned ha.virtAligned ht'] at hrun
      cases hrun
      exact mapsOnly_of_newPage ha (fun _ _ _ => rfl) (hoff.stock hs).tree
        (newPage_write (s := { s with mem }) ht')
    · have hclean : Clean (pageFrame s) mem (σ .freelist) := hfree ▸ clean_nil _ _
      exact mapsOnly_of_clean (s := { s with mem }) hσ (hoff.stock hs) hclean (hoff.small hs hsmall)
        ha hrun

end

/-! A kernel with one page left, and a hierarchy with one path. -/

theorem entry_chain {i j k x : BitVec 9} {t : BitVec 40}
    (h : present (entries (chain i j k) t x) = true) :
    large (entries (chain i j k) t x) = false ∧
      (t = 1 ∧ x = 511 ∨ t = 1 ∧ x = i ∧ frame (entries (chain i j k) t x) = 2 ∨
        t = 2 ∧ x = j ∧ frame (entries (chain i j k) t x) = 3 ∨
        t = 3 ∧ x = k ∧ frame (entries (chain i j k) t x) = 4) := by
  simp only [entries, chain, entryAddr_inj] at h ⊢
  split_ifs at h ⊢ with h1 h2 h3 h4
  · exact ⟨by decide, Or.inl h1⟩
  · exact ⟨by decide, Or.inr (Or.inl ⟨h2.1, h2.2, by decide⟩)⟩
  · exact ⟨by decide, Or.inr (Or.inr (Or.inl ⟨h3.1, h3.2, by decide⟩))⟩
  · exact ⟨by decide, Or.inr (Or.inr (Or.inr ⟨h4.1, h4.2, by decide⟩))⟩
  · exact absurd h (by decide)

theorem leadsTo_chain {i j k : BitVec 9} {p : List (BitVec 9)} {t : BitVec 40}
    (h : LeadsTo (chain i j k) 1 p t) :
    p = [] ∧ t = 1 ∨ p = [i] ∧ t = 2 ∨ p = [i, j] ∧ t = 3 ∨ p = [i, j, k] ∧ t = 4 := by
  induction p using List.reverseRecOn generalizing t with
  | nil => exact Or.inl ⟨rfl, h.unique (LeadsTo.root _ _)⟩
  | append_singleton p x ih =>
    have hself := h.2.1
    obtain ⟨u, hu, hpres, hframe⟩ := h.of_concat
    have hentry := (entry_chain hpres).2
    rw [hframe] at hentry
    rcases ih hu with ⟨rfl, rfl⟩ | ⟨rfl, rfl⟩ | ⟨rfl, rfl⟩ | ⟨rfl, rfl⟩
    · have hx : ¬ x = 511#9 := by simpa [NotSelf] using hself
      have hstep : x = i ∧ t = 2 := by simpa [hx] using hentry
      rw [hstep.1, hstep.2]
      simp
    · have hstep : x = j ∧ t = 3 := by simpa using hentry
      rw [hstep.1, hstep.2]
      simp
    · have hstep : x = k ∧ t = 4 := by simpa using hentry
      rw [hstep.1, hstep.2]
      simp
    · simp at hentry

theorem tableTree_chain (i j k : BitVec 9) : TableTree (chain i j k) 1 := by
  intro p q t hp hq
  have hp' := leadsTo_chain hp
  have hq' := leadsTo_chain hq
  rcases hp' with ⟨rfl, rfl⟩ | ⟨rfl, rfl⟩ | ⟨rfl, rfl⟩ | ⟨rfl, rfl⟩ <;>
    simpa [eq_comm] using hq'

theorem smallWalk_chain (i j k : BitVec 9) (v : BitVec 64) : SmallWalk (chain i j k) 1 v :=
  fun _ _ _ _ _ _ _ hpres => (entry_chain hpres).1

/-- Lists of one node each, or none. -/
def singles (free pages : Option (BitVec 64)) : Lists where
  links := ⟨some, some⟩
  lists
    | .freelist => ⟨free⟩
    | .ptPages => .new
    | .pages => ⟨pages⟩
    | .caller _ => .new

def singleSeqs (free pages : Option (BitVec 64)) : PageList → List (BitVec 64)
  | .freelist => free.toList
  | .ptPages => []
  | .pages => pages.toList
  | .caller _ => []

theorem represents_singles {free pages : Option (BitVec 64)}
    (h : ∀ a, free = some a → pages ≠ some a) :
    Represents (singles free pages) (singleSeqs free pages) := by
  have hlist : ∀ o : Option (BitVec 64), IsList (⟨some, some⟩ : LinkRing.Links (BitVec 64)) ⟨o⟩ o.toList := by
    intro o
    cases o with
    | none => exact isList_new _
    | some d => exact ⟨rfl, (LinkRing.Links.isRing_singleton _ d).mpr ⟨rfl, rfl⟩⟩
  refine ⟨?_, ?_⟩
  · intro l
    cases l with
    | freelist => exact hlist free
    | ptPages => exact isList_new _
    | pages => exact hlist pages
    | caller n => exact isList_new _
  · intro l l' a hl hl'
    cases l <;> cases l' <;>
      simp only [singleSeqs, Option.mem_toList, List.not_mem_nil] at hl hl'
    · rfl
    · exact absurd hl' (h a hl)
    · exact absurd hl (h a hl')
    · rfl

/-- A kernel with its PML4 in page 1 and its page database at address 0. -/
def lowKernel (lists : Lists) (mem : PhysMem) : Kernel where
  lists
  pfndbArr := 0
  mem
  pml4 := 1

theorem pageFrame_lowKernel (lists : Lists) (mem : PhysMem) :
    pageFrame (lowKernel lists mem) 160 = 5 :=
  show frame (paddr 0 160) = 5 by decide

/-- Page 5 is no table of the chain. -/
theorem stock_lowKernel (lists : Lists) (i j k : BitVec 9) :
    Stock (pageFrame (lowKernel lists (chain i j k))) 1 (chain i j k) [160] := by
  refine ⟨?_, ?_, ?_⟩
  · exact tableTree_chain i j k
  · intro a ha p hp
    rw [List.mem_singleton.mp ha, pageFrame_lowKernel] at hp
    have hleads := leadsTo_chain hp
    simp at hleads
  · exact List.nodup_singleton _

theorem leadsTo_neighbour : LeadsTo (chain 1 1 1) 1 (upper (virtFromIndex 1 1 1 8)) 4 := by
  refine ⟨by decide, ?_, by decide⟩
  simp [NotSelf, upper]
  decide

/-- Another page under tables that are there. -/
theorem map_single_page_isolated_iff_neighbour :
    Isolated (lowKernel (singles (some 160) none) (chain 1 1 1)) [160] 0x7000
      (virtFromIndex 1 1 1 8) 3 := by
  have hargs : MapArgs 0x7000 (virtFromIndex 1 1 1 8) 3 :=
    ⟨by decide, by decide, by decide, ⟨by decide, by decide⟩, by decide⟩
  have hσ : Represents (singles (some 160) none) (singleSeqs (some 160) none) :=
    represents_singles (by simp)
  exact (map_single_page_isolated_iff (s := lowKernel _ (chain 1 1 1)) hσ
    (stock_lowKernel _ 1 1 1) (smallWalk_chain 1 1 1 _) hargs).mpr (Or.inl ⟨4, leadsTo_neighbour⟩)

/-- A page of another gigabyte, when the free page holds what it held as a table. -/
theorem recycled_page_shows :
    let s := lowKernel (singles (some 160) none) (fill (chain 1 1 1) 5)
    Represents s.lists (singleSeqs (some 160) none) ∧ Stock (pageFrame s) s.pml4 s.mem [160] ∧
      SmallWalk s.mem s.pml4 0x40000000 ∧ MapArgs 0x7000 0x40000000 3 ∧
      ∃ s', mapSinglePage s 0x7000 0x40000000 3 = some (.ok (), s') ∧
        ¬ MapsOnly s.mem s'.mem s.pml4 0x7000 0x40000000 := by
  have hσ : Represents (singles (some 160) none) (singleSeqs (some 160) none) :=
    represents_singles (by simp)
  have hchain := stock_lowKernel (singles (some 160) none) 1 1 1
  have hoff : AgreeOff (pageFrame (lowKernel (singles (some 160) none) (chain 1 1 1))) [160]
      (chain 1 1 1) (fill (chain 1 1 1) 5) := by
    intro w j hw
    have hne := hw 160 (List.mem_singleton.mpr rfl)
    rw [pageFrame_lowKernel] at hne
    rw [entries_fill, if_neg hne]
  have hsmall := hoff.small hchain (smallWalk_chain 1 1 1 0x40000000)
  have hargs : MapArgs 0x7000 0x40000000 3 :=
    ⟨by decide, by decide, by decide, ⟨by decide, by decide⟩, by decide⟩
  refine ⟨hσ, hoff.stock hchain, hsmall, hargs, ?_⟩
  refine not_mapsOnly_of_loop hσ (hoff.stock hchain) rfl (fun j => ?_) hsmall hargs fun t ht => ?_
  · rw [pageFrame_lowKernel]
    exact (entries_fill (chain 1 1 1) 5 5 j).trans (if_pos rfl)
  · have hleads := leadsTo_chain ((hoff.leadsTo_iff hchain _ t).mp ht)
    revert hleads
    simp [upper]

end CxKernel.Mmu
