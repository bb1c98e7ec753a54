import CxKernel.Proofs.MapPages

/-! The address space of the running kernel over any run of `map_pages`, with anything between the
calls that leaves the tables and the free pages alone and frees no page. -/

namespace CxKernel.Mmu

open LinkedList Paging Pmm RadixWalk

variable {s s₁ s' : Kernel} {σ : PageList → List (BitVec 64)} {phys virt flags v : BitVec 64}
  {f t : BitVec 40} {p : List (BitVec 9)}

/-! Which pages a descent makes tables, and what it keeps. -/

/-- `mem'` is `mem` with the pages `fs` made tables, in this order. -/
inductive Grafted (root : BitVec 40) : PhysMem → List (BitVec 40) → PhysMem → Prop
  | nil (mem : PhysMem) : Grafted root mem [] mem
  | cons {mem mem₁ mem' : PhysMem} {p : List (BitVec 9)} {t : BitVec 40} {i : BitVec 9}
      {e : BitVec 64} {fs : List (BitVec 40)} (table : NewTable mem mem₁ root p t i e)
      (rest : Grafted root mem₁ fs mem') : Grafted root mem (frame e :: fs) mem'

section Grafted

variable {root : BitVec 40} {mem mem' : PhysMem} {fs : List (BitVec 40)}

/-- No other page becomes a table. -/
theorem Grafted.noTable (h : Grafted root mem fs mem') (htree : TableTree mem root)
    (hnot : f ∉ fs) (hno : ∀ p, ¬ LeadsTo mem root p f) : ∀ p, ¬ LeadsTo mem' root p f := by
  induction h with
  | nil => exact hno
  | cons table rest ih =>
    rw [List.mem_cons, not_or] at hnot
    refine ih (table.tableTree htree) hnot.2 fun p hp => ?_
    rcases (table.leadsTo_iff htree p f).mp hp with hp | ⟨-, hf⟩
    · exact hno p hp
    · exact hnot.1 hf

theorem Grafted.selfMap (h : Grafted root mem fs mem') (htree : TableTree mem root)
    (hself : SelfMap mem root) : SelfMap mem' root := by
  induction h with
  | nil => exact hself
  | @cons mem mem₁ mem' p t i e fs table rest ih =>
    refine ih (table.tableTree htree) ?_
    have hroot := LeadsTo.root mem root
    have hne : root ≠ frame e := fun he => table.fresh [] (he ▸ hroot)
    have hsame : entries mem₁ root 511 = entries mem root 511 := by
      refine table.others root 511 hne ?_
      rintro ⟨rfl, rfl⟩
      have hp := htree [] p root hroot table.leads
      exact table.dom (by rw [← hp]; rfl)
    rw [SelfMap, Names, hsame]
    exact hself

end Grafted

/-- The induction of `descend_spec`, for what the pages taken become. -/
theorem descend_grafted (hσ : Represents s.lists σ)
    (hs : Stock (pageFrame s) s.pml4 s.mem (σ .freelist))
    (hc : Clean (pageFrame s) s.mem (σ .freelist)) (hf : FlagsClear flags)
    {is last : List (BitVec 9)} (hv : path v = p ++ is ++ last) (hlast : last ≠ [])
    (hself : NotSelf (path v)) (hsmall : SmallWalk s.mem s.pml4 v) (hp : LeadsTo s.mem s.pml4 p t)
    {r : Except E (BitVec 40)} (hrun : descend flags s t is = some (r, s')) :
    ∃ fs, Grafted s.pml4 s.mem fs s'.mem ∧ fs ⊆ (σ .freelist).map (pageFrame s) := by
  induction is generalizing s σ p t with
  | nil =>
    obtain ⟨-, rfl⟩ := Prod.mk.inj (Option.some.inj hrun)
    exact ⟨[], .nil s.mem, List.nil_subset _⟩
  | cons i is ih =>
    have hv' : path v = p ++ i :: (is ++ last) := by rw [hv, List.append_assoc, List.cons_append]
    have hv'' : path v = p ++ [i] ++ is ++ last := by rw [hv, List.append_cons p]
    have hlen := congrArg List.length hv'
    simp only [length_path, List.length_append, List.length_cons] at hlen
    have hlast' : 0 < last.length := List.length_pos_of_ne_nil hlast
    have hd : NotSelf (p ++ [i]) := by
      apply notSelf_of_append _ (is ++ last)
      rw [← List.append_cons, ← hv']
      exact hself
    cases hpres : present (entries s.mem t i)
    · cases hlist : σ .freelist with
      | nil =>
        have htake : ∃ lists, ensureTable s (entryAddr t i) flags =
            some (.error .outOfMemory, { s with lists }) ∧ Represents lists σ :=
          ensureTable_empty hσ hlist hpres
        obtain ⟨lists, hensure, -⟩ := htake
        rw [descend, hensure] at hrun
        obtain ⟨-, rfl⟩ := Prod.mk.inj (Option.some.inj hrun)
        exact ⟨[], .nil s.mem, List.nil_subset _⟩
      | cons a rest =>
        have htake : ∃ lists, ensureTable s (entryAddr t i) flags = some (.ok (), { s with
              lists, mem := s.mem.write (entryAddr t i) (entryOf (paddr s.pfndbArr a) flags) }) ∧
            Represents lists (Function.update (Function.update σ .freelist rest) .ptPages
              (σ .ptPages ++ [a])) := ensureTable_taken hσ hlist hpres
        obtain ⟨lists₁, hensure, hrep⟩ := htake
        rw [hlist] at hs hc
        have hnew := newTable_write hs hc hf hp (by omega) hd hpres
        have hframe : frame (entryOf (paddr s.pfndbArr a) flags) = pageFrame s a :=
          frame_entryOf hf.2
        have hmoved := Moved.taken hlist hrep (Grows.newTable hs hc hframe hnew)
        have hnext := (hnew.leadsTo_iff hs.tree _ _).mpr (Or.inr ⟨rfl, rfl⟩)
        let s₁ : Kernel := { s with
          lists := lists₁
          mem := s.mem.write (entryAddr t i) (entryOf (paddr s.pfndbArr a) flags) }
        have hdown : descend flags s t (i :: is) =
            descend flags s₁ (frame (entries s₁.mem t i)) is := by
          rw [descend, hensure]
          rfl
        rw [hdown, hnew.entry] at hrun
        obtain ⟨fs, hfs, hsub⟩ := ih (s := s₁) hrep hmoved.grows.stock hmoved.grows.clean hv''
          (hmoved.grows.small v hsmall) hnext hrun
        refine ⟨_, .cons hnew hfs, ?_⟩
        have hrest : fs ⊆ rest.map (pageFrame s₁) := by simpa using hsub
        rw [hframe, List.map_cons]
        exact List.cons_subset_cons _ hrest
    · have hl := hsmall p i _ t hv' (by simp [hlast]) hp hpres
      have hnext := hp.next (by omega) hd hpres hl
      rw [descend, ensureTable_present hpres] at hrun
      exact ih hσ hs hc hv'' hsmall hnext hrun

/-! What a step of the run keeps, and what it maps. -/

/-- The tables form a tree that reaches itself in its last slot and has no large pages, and the
free pages are clean and no tables. -/
structure Paged (s : Kernel) (σ : PageList → List (BitVec 64)) : Prop where
  lists : Represents s.lists σ
  stock : Stock (pageFrame s) s.pml4 s.mem (σ .freelist)
  clean : Clean (pageFrame s) s.mem (σ .freelist)
  self : SelfMap s.mem s.pml4
  small : ∀ v, SmallWalk s.mem s.pml4 v

/-- The page is no table and not free: what a caller may use. -/
structure Spare (s : Kernel) (f : BitVec 40) : Prop where
  noTable : ∀ p, ¬ LeadsTo s.mem s.pml4 p f
  notFree : ∀ a, OnFree s a → pageFrame s a ≠ f

/-- The page that was last mapped at the page of `v`. -/
def latest (xs : List (BitVec 64 × BitVec 40)) (v : BitVec 64) : Option (BitVec 40) :=
  (xs.reverse.find? fun (w, _) => decide (w >>> 12 = v >>> 12)).map Prod.snd

theorem latest_append (xs ys : List (BitVec 64 × BitVec 40)) (v : BitVec 64) :
    latest (xs ++ ys) v = (latest ys v).or (latest xs v) := by
  rw [latest, List.reverse_append, List.find?_append, Option.map_or]
  rfl

theorem mem_of_latest {xs : List (BitVec 64 × BitVec 40)} (h : latest xs v = some f) :
    ∃ x ∈ xs, x.2 = f := by
  obtain ⟨x, hx, hf⟩ := Option.map_eq_some_iff.mp h
  exact ⟨x, List.mem_reverse.mp (List.mem_of_find?_eq_some hx), hf⟩

/-- `s'` is `s` with the pages of `xs` mapped, and no page that was spare is a table or free. -/
structure Maps (s : Kernel) (xs : List (BitVec 64 × BitVec 40)) (s' : Kernel) : Prop where
  pml4 : s'.pml4 = s.pml4
  pfndbArr : s'.pfndbArr = s.pfndbArr
  walks : ∀ v, Mappable v →
    translatePage s'.mem s'.pml4 v = (latest xs v).or (translatePage s.mem s.pml4 v)
  spare : ∀ f, Spare s f → Spare s' f

theorem Maps.refl (s : Kernel) : Maps s [] s :=
  ⟨rfl, rfl, fun _ _ => rfl, fun _ h => h⟩

theorem Maps.trans {xs ys : List (BitVec 64 × BitVec 40)} (h : Maps s xs s₁) (h' : Maps s₁ ys s') :
    Maps s (xs ++ ys) s' where
  pml4 := h'.pml4.trans h.pml4
  pfndbArr := h'.pfndbArr.trans h.pfndbArr
  walks v hv := by rw [h'.walks v hv, h.walks v hv, latest_append, Option.or_assoc]
  spare f hf := h'.spare f (h.spare f hf)

/-! `map_single_page`. -/

theorem Paged.mapSinglePage (h : Paged s σ) (hphys : phys.toNat % pageSize = 0)
    (hvirt : virt.toNat % pageSize = 0) (hv : Mappable virt) (hf : FlagsClear flags)
    (hrun : mapSinglePage s phys virt flags = some (.ok (), s')) :
    ∃ σ', Paged s' σ' ∧ Maps s [(virt, frame phys)] s' ∧ σ' .pages = σ .pages := by
  have hself := notSelf_of_mappable hv
  have hpath : path virt = [] ++ upper virt ++ [lastIndex virt] := rfl
  have hroot := LeadsTo.root s.mem s.pml4
  have hlast := List.cons_ne_nil (lastIndex virt) []
  obtain ⟨lists, mem, σ', new, hmoved, hwalks, -, hend⟩ :=
    descend_spec h.lists h.stock h.clean hf hpath hlast hself (h.small virt) hroot
  rw [mapSinglePage_eq hphys hvirt] at hrun
  rcases hend with ⟨t, hdown, ht⟩ | ⟨hdown, -⟩
  · let s₁ : Kernel := { s with lists, mem }
    let mem' := mem.write (entryAddr t (lastIndex virt)) (entryOf phys flags)
    have hpage : NewPage mem mem' s.pml4 (upper virt) t (lastIndex virt) (entryOf phys flags) :=
      newPage_write (s := s₁) ht
    have htree := hmoved.grows.stock.tree
    have hgrows := hmoved.grows.newPage hpage
    obtain ⟨fs, hfs, hsub⟩ := descend_grafted h.lists h.stock h.clean hf hpath hlast hself
      (h.small virt) hroot hdown
    rw [hdown] at hrun
    obtain ⟨-, rfl⟩ := Prod.mk.inj (Option.some.inj hrun)
    refine ⟨σ', ⟨hmoved.lists, hgrows.stock, hgrows.clean, ?_, ?_⟩, ⟨rfl, rfl, ?_, ?_⟩,
      hmoved.pages⟩
    · exact hpage.selfMap htree (hfs.selfMap h.stock.tree h.self)
    · exact fun v => hgrows.small v (h.small v)
    · intro v hv'
      rw [translatePage_eq_lookup, translatePage_eq_lookup]
      by_cases hsame : virt >>> 12 = v >>> 12
      · have hlatest : latest [(virt, frame phys)] v = some (frame phys) := by simp [latest, hsame]
        rw [hlatest, ← path_eq_of_page_eq hsame, path_eq]
        exact (hpage.lookup_self htree).trans (congrArg some (frame_entryOf hf.2))
      · have hlatest : latest [(virt, frame phys)] v = none := by simp [latest, hsame]
        have hne : path v ≠ upper virt ++ [lastIndex virt] := fun he =>
          hsame (page_eq_of_path_eq hv.1 hv'.1 he.symm)
        have hv'' := notSelf_of_mappable hv'
        rw [hlatest, Option.none_or, ← hwalks _ hv'' (length_path v)]
        exact hpage.lookup_eq htree hv'' (length_path v) hne
    · intro f hspare
      have hfree : ∀ a ∈ σ .freelist, pageFrame s a ≠ f := fun a ha =>
        hspare.notFree a ((onFree_iff h.lists a).mpr ha)
      have hnot : f ∉ fs := fun hf => by
        obtain ⟨a, ha, hfa⟩ := List.mem_map.mp (hsub hf)
        exact hfree a ha hfa
      refine ⟨fun p hp => ?_, fun a ha => ?_⟩
      · exact hfs.noTable h.stock.tree hnot hspare.noTable p ((hpage.leadsTo_iff htree p f).mp hp)
      · have ha' := (onFree_iff (s := { s₁ with mem := mem' }) hmoved.lists a).mp ha
        refine hfree a ?_
        rw [hmoved.grows.free]
        exact List.mem_append_right new ha'
  · rw [hdown] at hrun
    cases hrun

/-! `map_pages`. -/

/-- The pages of the list `pages`, each with the address it is mapped at. -/
def placed (s : Kernel) (virt : BitVec 64) (pages : List (BitVec 64)) :
    List (BitVec 64 × BitVec 40) :=
  (batch virt pages).map fun (v, page) => (v, pageFrame s page)

theorem mem_of_mem_batch {pages : List (BitVec 64)} {x : BitVec 64 × BitVec 64}
    (h : x ∈ batch virt pages) : x.2 ∈ pages := by
  induction pages generalizing virt with
  | nil => exact absurd h List.not_mem_nil
  | cons page pages ih =>
    rcases mem_batch_cons.mp h with rfl | h
    · exact List.mem_cons_self
    · exact List.mem_cons_of_mem page (ih h)

theorem placed_cons (s : Kernel) (virt page : BitVec 64) (pages : List (BitVec 64)) :
    placed s virt (page :: pages) =
      [(virt, pageFrame s page)] ++ placed s (virt + .ofNat 64 pageSize) pages := rfl

theorem Paged.mapPagesFrom (h : Paged s σ) {pre rest : List (BitVec 64)}
    (hpages : σ .pages = pre ++ rest) (hbatch : ∀ x ∈ batch virt rest, Mappable x.1)
    (hf : FlagsClear flags)
    (hrun : mapPagesFrom (position (σ .pages) []) flags s (position pre rest) virt =
      some (.ok (), s')) :
    ∃ σ', Paged s' σ' ∧ Maps s (placed s virt rest) s' := by
  induction rest generalizing s σ pre virt with
  | nil =>
    rw [hpages, List.append_nil, mapPagesFrom_nil] at hrun
    obtain ⟨-, rfl⟩ := Prod.mk.inj (Option.some.inj hrun)
    exact ⟨σ, h, Maps.refl s⟩
  | cons page rest ih =>
    have hvirt := aligned_of_mapPagesFrom h.lists hpages hrun
    have hphys := paddr_aligned s.pfndbArr page
    have hv := hbatch _ (head_mem_batch virt page rest)
    obtain ⟨lists, mem, σ₁, new, hmoved, hend⟩ := mapSinglePage_spec h.lists h.stock h.clean
      hphys hvirt (notSelf_of_mappable hv) hf (h.small virt)
    rcases hend with ⟨hmap, -⟩ | ⟨hmap, -⟩
    · obtain ⟨σ₂, hpaged, hmaps, hsame⟩ := h.mapSinglePage hphys hvirt hv hf hmap
      rw [mapPagesFrom_ok h.lists hpages hmap hpaged.lists hsame] at hrun
      have hpages₂ : σ₂ .pages = (pre ++ [page]) ++ rest := by
        rw [hsame, hpages, List.append_assoc, List.singleton_append]
      obtain ⟨σ', hpaged', hmaps'⟩ :=
        ih hpaged hpages₂ (fun x hx => hbatch x (tail_mem_batch page hx)) hrun
      exact ⟨σ', hpaged', placed_cons s virt page rest ▸ hmaps.trans hmaps'⟩
    · obtain ⟨lists', hstop, -⟩ := mapPagesFrom_error h.lists hpages hmap hmoved.lists
      rw [hstop] at hrun
      cases hrun

theorem Paged.mapPages (h : Paged s σ) (hbatch : ∀ x ∈ batch virt (σ .pages), Mappable x.1)
    (hf : FlagsClear flags) (hrun : mapPages s virt flags = some (.ok (), s')) :
    ∃ σ', Paged s' σ' ∧ Maps s (placed s virt (σ .pages)) s' := by
  have hrep := represents_start h.lists
  have hfree := start_freelist σ
  have hstart : Paged (start s) (Function.update σ .ptPages []) :=
    ⟨hrep, hfree ▸ h.stock, hfree ▸ h.clean, h.self, h.small⟩
  rw [mapPages_eq h.lists, ← start_pages σ] at hrun
  rw [← start_pages σ] at hbatch ⊢
  obtain ⟨σ', hpaged, hmaps⟩ := hstart.mapPagesFrom (List.nil_append _).symm hbatch hf hrun
  refine ⟨σ', hpaged, hmaps.pml4, hmaps.pfndbArr, hmaps.walks, fun f hspare => ?_⟩
  refine hmaps.spare f ⟨hspare.noTable, fun a ha => hspare.notFree a ?_⟩
  rw [onFree_iff hrep, hfree] at ha
  exact (onFree_iff h.lists a).mpr ha

/-! Runs. -/

/-- What happens between two calls: no table and no page that stays free is written, and no page
is freed. -/
structure Between (s s' : Kernel) : Prop where
  lists : ∃ σ, Represents s'.lists σ
  pml4 : s'.pml4 = s.pml4
  pfndbArr : s'.pfndbArr = s.pfndbArr
  free : ∀ a, OnFree s' a → OnFree s a
  tables : ∀ p t j, LeadsTo s.mem s.pml4 p t → entries s'.mem t j = entries s.mem t j
  spared : ∀ a j, OnFree s' a →
    entries s'.mem (pageFrame s a) j = entries s.mem (pageFrame s a) j

theorem Between.walks (hb : Between s s') (hv : Mappable v) :
    translatePage s'.mem s'.pml4 v = translatePage s.mem s.pml4 v := by
  have hself := notSelf_of_mappable hv
  rw [hb.pml4, translatePage_eq_lookup, translatePage_eq_lookup]
  refine lookup_congr fun p i r t hpath ht => hb.tables p t i ?_
  have hlen := congrArg List.length hpath
  rw [length_path, List.length_append, List.length_cons] at hlen
  exact ⟨by omega, notSelf_of_append p (i :: r) (hpath ▸ hself), length_path v ▸ ht⟩

theorem Paged.between (h : Paged s σ) (hb : Between s s') :
    ∃ σ', Paged s' σ' ∧ Maps s [] s' := by
  obtain ⟨σ', hσ'⟩ := hb.lists
  have hpf : pageFrame s' = pageFrame s := by
    funext a
    rw [pageFrame, pageFrame, hb.pfndbArr]
  have hleads : ∀ q w, LeadsTo s'.mem s.pml4 q w ↔ LeadsTo s.mem s.pml4 q w :=
    leads_congr notSelf_of_append fun q w j hq => hb.tables q w j hq
  have hsub : σ' .freelist ⊆ σ .freelist := fun a ha =>
    (onFree_iff h.lists a).mp (hb.free a ((onFree_iff hσ' a).mpr ha))
  have hstock : Stock (pageFrame s) s.pml4 s'.mem (σ' .freelist) := by
    refine ⟨?_, ?_, ?_⟩
    · exact fun p q w hp hq => h.stock.tree p q w ((hleads p w).mp hp) ((hleads q w).mp hq)
    · exact fun a ha p hp => h.stock.unused a (hsub ha) p ((hleads p _).mp hp)
    · refine (hσ'.lists .freelist).ring.1.map_on fun a ha b hb he => ?_
      exact List.inj_on_of_nodup_map h.stock.distinct (hsub ha) (hsub hb) he
  have hclean : Clean (pageFrame s) s'.mem (σ' .freelist) := by
    intro a ha j
    rw [hb.spared a j ((onFree_iff hσ' a).mpr ha)]
    exact h.clean a (hsub ha) j
  have hself : SelfMap s'.mem s.pml4 := by
    rw [SelfMap, Names, hb.tables [] s.pml4 511 (LeadsTo.root s.mem s.pml4)]
    exact h.self
  have hsmall : ∀ v, SmallWalk s'.mem s.pml4 v := by
    intro v p i r w hpath hr hp hpres
    have hp' := (hleads p w).mp hp
    rw [hb.tables p w i hp'] at hpres ⊢
    exact h.small v p i r w hpath hr hp' hpres
  have hpml4 := hb.pml4
  refine ⟨σ', ⟨hσ', ?_, ?_, ?_, ?_⟩, ⟨hpml4, hb.pfndbArr, ?_, ?_⟩⟩
  · rw [hpf, hpml4]
    exact hstock
  · rw [hpf]
    exact hclean
  · rw [hpml4]
    exact hself
  · rw [hpml4]
    exact hsmall
  · exact fun v hv => hb.walks hv
  · refine fun f hspare => ⟨fun p hp => ?_, fun a ha => ?_⟩
    · rw [hpml4] at hp
      exact hspare.noTable p ((hleads p f).mp hp)
    · rw [hpf]
      exact hspare.notFree a (hb.free a ha)

/-- A run of calls that succeed, with what happens between them. `xs` are the pages mapped, in
order. -/
inductive MapRun (s : Kernel) : List (BitVec 64 × BitVec 40) → Kernel → Prop
  | start : MapRun s [] s
  | between {xs : List (BitVec 64 × BitVec 40)} {s₁ s' : Kernel} (run : MapRun s xs s₁)
      (step : Between s₁ s') : MapRun s xs s'
  | mapPages {xs : List (BitVec 64 × BitVec 40)} {s₁ s' : Kernel}
      {σ : PageList → List (BitVec 64)} {virt flags : BitVec 64} (run : MapRun s xs s₁)
      (lists : Represents s₁.lists σ) (mappable : ∀ x ∈ batch virt (σ .pages), Mappable x.1)
      (spare : ∀ page ∈ σ .pages, Spare s₁ (pageFrame s₁ page)) (clear : FlagsClear flags)
      (call : mapPages s₁ virt flags = some (.ok (), s')) :
      MapRun s (xs ++ placed s₁ virt (σ .pages)) s'

theorem MapRun.maps {xs : List (BitVec 64 × BitVec 40)} (h : Paged s σ) (hrun : MapRun s xs s') :
    (∃ σ', Paged s' σ') ∧ Maps s xs s' ∧ ∀ x ∈ xs, Spare s' x.2 := by
  induction hrun with
  | start => exact ⟨⟨σ, h⟩, Maps.refl s, fun x hx => absurd hx List.not_mem_nil⟩
  | @between xs s₁ s' run step ih =>
    obtain ⟨⟨σ₁, hpaged⟩, hmaps, hspare⟩ := ih
    obtain ⟨σ', hpaged', hstep⟩ := hpaged.between step
    have hall := hmaps.trans hstep
    rw [List.append_nil] at hall
    exact ⟨⟨σ', hpaged'⟩, hall, fun x hx => hstep.spare x.2 (hspare x hx)⟩
  | @mapPages xs s₁ s' σ₁ virt flags run lists mappable spare clear call ih =>
    obtain ⟨⟨σ₂, hpaged⟩, hmaps, hspare⟩ := ih
    rw [lists.unique hpaged.lists] at mappable spare ⊢
    obtain ⟨σ', hpaged', hstep⟩ := hpaged.mapPages mappable clear call
    refine ⟨⟨σ', hpaged'⟩, hmaps.trans hstep, fun x hx => hstep.spare x.2 ?_⟩
    rcases List.mem_append.mp hx with hx | hx
    · exact hspare x hx
    · obtain ⟨y, hy, rfl⟩ := List.mem_map.mp hx
      exact spare y.2 (mem_of_mem_batch hy)

/-- No page that is mapped is a table or free. -/
def Apart (s : Kernel) : Prop :=
  ∀ v f, Mappable v → translatePage s.mem s.pml4 v = some f → Spare s f

theorem paged_lowKernel :
    Paged (lowKernel (singles (some 160) (some 192)) (chain 1 1 1))
      (singleSeqs (some 160) (some 192)) where
  lists := represents_singles (by simp)
  stock := stock_lowKernel _ 1 1 1
  clean a ha j := by
    rw [List.mem_singleton.mp ha, pageFrame_lowKernel]
    by_contra hpres
    have hentry := (entry_chain (Bool.eq_true_of_not_eq_false hpres)).2
    simp at hentry
  self := by decide
  small := smallWalk_chain 1 1 1

theorem spare_lowKernel :
    Spare (lowKernel (singles (some 160) (some 192)) (chain 1 1 1)) 6 := by
  refine ⟨fun p hp => ?_, fun a ha => ?_⟩
  · have hleads := leadsTo_chain hp
    simp at hleads
  · rw [List.mem_singleton.mp ((onFree_iff paged_lowKernel.lists a).mp ha), pageFrame_lowKernel]
    decide

end CxKernel.Mmu
