import CxKernel.Proofs.Pmm

/-! Where the kernel's pages are, over a run of calls to its page allocator. Every call
moves pages between the lists and the callers' hands; only `alloc_phys_pages` on a list
that still has pages drops some. -/

namespace CxKernel.Pmm

open LinkedList

/-- A page is in a list, or in some caller's hand. -/
inductive Place where
  | on (l : PageList)
  | held

def Callers.At (s : Callers) (page : BitVec 64) : Place → Prop
  | .on l => ∃ xs, visit s.lists.links (s.lists.lists l) = some xs ∧ page ∈ xs
  | .held => page ∈ s.held

/-- The lists are well formed and share no page, and each of `pages` is in one place. -/
structure Conserved (pages : List (BitVec 64)) (s : Callers) : Prop where
  lists : ∃ σ, Represents s.lists σ
  held : s.held.Nodup
  place : ∀ page ∈ pages, ∃! place, s.At page place

/-- `alloc_phys_pages` is only called on an empty list. -/
def AllocsEmpty (s : Callers) : Call → Prop
  | .allocPages _ l => empty (s.lists.lists l) = true
  | _ => True

/-- Before the first call every page is on the free list. -/
structure Start (pages : List (BitVec 64)) (s : Callers) : Prop where
  lists : Represents s.lists (Function.update (fun _ => []) .freelist pages)
  held : s.held = []

/-- The pages are conserved before the first call and after each one. -/
def ConservedAlong (pages : List (BitVec 64)) : Callers → List Call → Prop
  | s, [] => Conserved pages s
  | s, c :: cs => Conserved pages s ∧ ∃ s', s.step c = some s' ∧ ConservedAlong pages s' cs

variable {σ : PageList → List (BitVec 64)} {page : BitVec 64}

/-! The invariant: the lists and the held pages share nothing and are all there is. -/

variable {pages : List (BitVec 64)} {s : Callers}

structure Accounts (pages : List (BitVec 64)) (s : Callers) (σ : PageList → List (BitVec 64)) :
    Prop where
  lists : Represents s.lists σ
  held : s.held.Nodup
  apart : ∀ page ∈ s.held, ¬ OnSome σ page
  all : ∀ page, page ∈ pages ↔ page ∈ s.held ∨ OnSome σ page

theorem Start.accounts (h : Start pages s) :
    Accounts pages s (Function.update (fun _ => []) .freelist pages) := by
  refine ⟨h.lists, ?_, ?_, fun page => ?_⟩
  · rw [h.held]
    exact List.nodup_nil
  · rw [h.held]
    exact fun _ hp => absurd hp List.not_mem_nil
  · rw [h.held, onSome_update]
    simp

theorem Accounts.at_on_iff (h : Accounts pages s σ) {l : PageList} :
    s.At page (.on l) ↔ page ∈ σ l := by
  simp [Callers.At, (h.lists.lists l).visit_eq]

theorem Accounts.conserved (h : Accounts pages s σ) : Conserved pages s := by
  refine ⟨⟨σ, h.lists⟩, h.held, fun page hp => ?_⟩
  rcases (h.all page).mp hp with hheld | ⟨l, hl⟩
  · refine ⟨.held, hheld, ?_⟩
    rintro (l | _) hat
    · exact absurd ⟨l, h.at_on_iff.mp hat⟩ (h.apart page hheld)
    · rfl
  · refine ⟨.on l, h.at_on_iff.mpr hl, ?_⟩
    rintro (l' | _) hat
    · rw [h.lists.disjoint l' l page (h.at_on_iff.mp hat) hl]
    · exact absurd ⟨l, hl⟩ (h.apart page hat)

/-! One call. -/

theorem Accounts.allocSingle (h : Accounts pages s σ) :
    ∃ s' σ', s.step .allocSingle = some s' ∧ Accounts pages s' σ' := by
  cases hfree : σ .freelist with
  | nil =>
    obtain ⟨lists', halloc, hrep⟩ := allocPhysPageSingle_empty h.lists hfree
    exact ⟨{ s with lists := lists' }, σ, by simp [Callers.step, halloc],
      ⟨hrep, h.held, h.apart, h.all⟩⟩
  | cons x rest =>
    obtain ⟨lists', halloc, hrep⟩ := allocPhysPageSingle_taken h.lists hfree
    have hsplit : ∀ page, OnSome σ page ↔
        page = x ∨ OnSome (Function.update σ .freelist rest) page := fun page => by
      rw [onSome_split .freelist, hfree, List.mem_cons, onSome_update, or_assoc]
    have hx : ¬ OnSome (Function.update σ .freelist rest) x := by
      obtain ⟨-, -, -, hnew⟩ := h.lists.popFront_cons hfree
      exact fun ⟨l, hl⟩ => hnew l hl
    refine ⟨⟨lists', x :: s.held⟩, _, by simp [Callers.step, halloc], hrep, ?_, ?_, ?_⟩
    · exact List.nodup_cons.mpr ⟨fun hm => h.apart x hm ((hsplit x).mpr (Or.inl rfl)), h.held⟩
    · intro page hp
      rcases List.mem_cons.mp hp with rfl | hp
      · exact hx
      · exact fun ho => h.apart page hp ((hsplit page).mpr (Or.inr ho))
    · intro page
      rw [h.all, hsplit, List.mem_cons]
      tauto

theorem Accounts.freeSingle (h : Accounts pages s σ) (hp : page ∈ s.held) :
    ∃ s' σ', s.step (.freeSingle page) = some s' ∧ Accounts pages s' σ' := by
  have hnew : ∀ l, page ∉ σ l := fun l hl => h.apart page hp ⟨l, hl⟩
  obtain ⟨lists', hpush, hrep⟩ := h.lists.pushBack .freelist hnew
  have hsplit : ∀ q, OnSome (Function.update σ .freelist (σ .freelist ++ [page])) q ↔
      q = page ∨ OnSome σ q := fun q => by
    rw [onSome_update, onSome_split .freelist, List.mem_append, List.mem_singleton]
    tauto
  refine ⟨⟨lists', s.held.erase page⟩, _, by simp [Callers.step, freePhysPageSingle, hpush],
    hrep, h.held.erase page, ?_, ?_⟩
  · intro q hq
    obtain ⟨hne, hq⟩ := (h.held.mem_erase_iff).mp hq
    rw [hsplit]
    intro hor
    rcases hor with rfl | ho
    · exact hne rfl
    · exact h.apart q hq ho
  · intro q
    rw [h.all, hsplit, h.held.mem_erase_iff]
    by_cases hq : q = page
    · simp [hq, hp]
    · simp [hq]

/-- Pages that only change lists stay accounted for. -/
theorem Accounts.moved (h : Accounts pages s σ) {lists' : Lists}
    {σ' : PageList → List (BitVec 64)} (hrep : Represents lists' σ')
    (hmove : ∀ page, OnSome σ' page ↔ OnSome σ page) :
    Accounts pages { s with lists := lists' } σ' :=
  ⟨hrep, h.held, fun page hp => (hmove page).not.mpr (h.apart page hp),
    fun page => by rw [hmove]; exact h.all page⟩

theorem Accounts.freePages (h : Accounts pages s σ) {l : PageList} (hl : l ≠ .freelist) :
    ∃ s' σ', s.step (.freePages l) = some s' ∧ Accounts pages s' σ' := by
  obtain ⟨lists', hfree, hrep⟩ := freePhysPages_eq hl h.lists
  refine ⟨_, _, by simp only [Callers.step, hfree, Option.bind_eq_bind, Option.bind_some]; rfl,
    h.moved hrep fun page => ?_⟩
  rw [onSome_update₂ hl, onSome_split₂ hl, List.mem_append]
  simp only [List.not_mem_nil, false_or]
  tauto

/-- After `alloc_phys_pages`, a page is on some list if it was on one other than the
list to fill. -/
theorem onSome_allocSeqs {l : PageList} (hl : l ≠ .freelist) (count : ℕ) :
    OnSome (allocSeqs count l σ) page ↔ ∃ j, j ≠ l ∧ page ∈ σ j := by
  unfold allocSeqs
  split_ifs with hn
  · have htake : page ∈ σ .freelist ↔
        page ∈ (σ .freelist).take count ∨ page ∈ (σ .freelist).drop count := by
      rw [← List.mem_append, List.take_append_drop]
    rw [onSome_update₂ hl.symm, List.mem_reverse, ← or_assoc, or_comm (a := page ∈ List.drop _ _),
      ← htake]
    refine ⟨?_, ?_⟩
    · intro hor
      rcases hor with hf | ⟨j, -, hjl, hj⟩
      · exact ⟨.freelist, hl.symm, hf⟩
      · exact ⟨j, hjl, hj⟩
    · rintro ⟨j, hjl, hj⟩
      by_cases hjf : j = .freelist
      · exact Or.inl (hjf ▸ hj)
      · exact Or.inr ⟨j, hjf, hjl, hj⟩
  · rw [onSome_update]
    simp

theorem step_allocPages (h : Accounts pages s σ) {l : PageList} (hl : l ≠ .freelist)
    (count : BitVec 32) :
    ∃ lists', s.step (.allocPages count l) = some { s with lists := lists' } ∧
      Represents lists' (allocSeqs count.toNat l σ) := by
  obtain ⟨ec, lists', halloc, hrep⟩ := allocPhysPages_eq hl h.lists count
  exact ⟨lists', by simp [Callers.step, halloc], hrep⟩

theorem Accounts.allocPages (h : Accounts pages s σ) {l : PageList} (hl : l ≠ .freelist)
    (count : BitVec 32) (hempty : empty (s.lists.lists l) = true) :
    ∃ s' σ', s.step (.allocPages count l) = some s' ∧ Accounts pages s' σ' := by
  obtain ⟨lists', hstep, hrep⟩ := step_allocPages h hl count
  refine ⟨_, _, hstep, h.moved hrep fun page => ?_⟩
  rw [onSome_allocSeqs hl, onSome_split l, (h.lists.lists l).empty_iff.mp hempty]
  simp

/-- Whatever the list still had is nowhere to be found. -/
theorem Accounts.lost (h : Accounts pages s σ) {l : PageList} (hl : l ≠ .freelist)
    (count : BitVec 32) (hne : ¬ empty (s.lists.lists l) = true) :
    ∃ s', s.step (.allocPages count l) = some s' ∧ ¬ Conserved pages s' := by
  obtain ⟨lists', hstep, hrep⟩ := step_allocPages h hl count
  refine ⟨_, hstep, fun hc => ?_⟩
  rw [(h.lists.lists l).empty_iff] at hne
  obtain ⟨page, hpage⟩ := List.exists_mem_of_ne_nil _ hne
  have hon : OnSome σ page := ⟨l, hpage⟩
  obtain ⟨place, hat, -⟩ := hc.place page ((h.all page).mpr (Or.inr hon))
  rcases place with l' | _
  · obtain ⟨xs, hvisit, hxs⟩ := hat
    rw [(hrep.lists l').visit_eq, Option.some_inj] at hvisit
    obtain ⟨j, hjl, hj⟩ := (onSome_allocSeqs hl count.toNat).mp ⟨l', hvisit ▸ hxs⟩
    exact hjl (h.lists.disjoint j l page hj hpage)
  · exact h.apart page hat hon

/-- Any other call keeps the account. -/
theorem Accounts.step (h : Accounts pages s σ) {c : Call} (hc : s.Legal c)
    (hempty : AllocsEmpty s c) : ∃ s' σ', s.step c = some s' ∧ Accounts pages s' σ' := by
  cases c with
  | allocSingle => exact h.allocSingle
  | allocPages count l => exact h.allocPages hc count hempty
  | freePages l => exact h.freePages hc
  | freeSingle page => exact h.freeSingle hc

/-! A run of calls. -/

theorem Accounts.conservedAlong (h : Accounts pages s σ) {calls : List Call}
    (hlegal : s.AlongRun Callers.Legal calls) (hempty : s.AlongRun AllocsEmpty calls) :
    ConservedAlong pages s calls := by
  induction calls generalizing s σ with
  | nil => exact h.conserved
  | cons c cs ih =>
    obtain ⟨s', σ', hstep, h'⟩ := h.step hlegal.1 hempty.1
    exact ⟨h.conserved, s', hstep, ih h' (hlegal.2 s' hstep) (hempty.2 s' hstep)⟩

theorem ConservedAlong.head {calls : List Call} (h : ConservedAlong pages s calls) :
    Conserved pages s := by
  cases calls with
  | nil => exact h
  | cons c cs => exact h.1

theorem Accounts.allocsEmpty (h : Accounts pages s σ) {calls : List Call}
    (hlegal : s.AlongRun Callers.Legal calls) (hcons : ConservedAlong pages s calls) :
    s.AlongRun AllocsEmpty calls := by
  induction calls generalizing s σ with
  | nil => trivial
  | cons c cs ih =>
    obtain ⟨-, s', hstep, hcons'⟩ := hcons
    have hempty : AllocsEmpty s c := by
      cases c with
      | allocPages count l =>
        by_contra hne
        obtain ⟨s₁, hstep₁, hlost⟩ := h.lost hlegal.1 count hne
        obtain rfl : s' = s₁ := Option.some.inj (hstep.symm.trans hstep₁)
        exact hlost hcons'.head
      | _ => trivial
    obtain ⟨s₁, σ₁, hstep₁, h₁⟩ := h.step hlegal.1 hempty
    obtain rfl : s' = s₁ := Option.some.inj (hstep.symm.trans hstep₁)
    refine ⟨hempty, fun s₂ hstep₂ => ?_⟩
    obtain rfl : s' = s₂ := Option.some.inj (hstep.symm.trans hstep₂)
    exact ih h₁ (hlegal.2 s' hstep) hcons'

/-- A run keeps every page in exactly one place exactly when it fills empty lists only. -/
theorem pages_conserved_iff (h : Start pages s) {calls : List Call}
    (hlegal : s.AlongRun Callers.Legal calls) :
    ConservedAlong pages s calls ↔ s.AlongRun AllocsEmpty calls :=
  ⟨h.accounts.allocsEmpty hlegal, h.accounts.conservedAlong hlegal⟩

/-- One free page, and nobody holds any. -/
def onePage : Callers where
  lists := Pool.lone (Function.update (fun _ => none) .freelist (some 16))
  held := []

theorem start_onePage : Start [16] onePage := by
  have hlone : Represents onePage.lists fun l =>
      (Function.update (fun _ => none) PageList.freelist (some (16 : BitVec 64)) l).toList := by
    refine represents_lone fun l l' a hl hl' => ?_
    simp only [Function.update_apply] at hl hl'
    split_ifs at hl hl' with h h'
    rw [h, h']
  refine ⟨?_, rfl⟩
  convert hlone using 1
  funext l
  by_cases hl : l = .freelist <;> simp [hl]

/-- A list filled once, and a page asked for when none is left. -/
theorem pages_conserved_iff_once :
    ConservedAlong [16] onePage [.allocPages 1 (.caller 0), .allocSingle] := by
  have hlegal : onePage.AlongRun Callers.Legal [.allocPages 1 (.caller 0), .allocSingle] :=
    ⟨PageList.noConfusion, fun _ _ => ⟨trivial, fun _ _ => trivial⟩⟩
  exact (pages_conserved_iff start_onePage hlegal).mpr
    ⟨rfl, fun _ _ => ⟨trivial, fun _ _ => trivial⟩⟩

/-- Filling the same list twice loses the page it got first. -/
theorem refilled_list_loses :
    Start [16] onePage ∧
    onePage.AlongRun Callers.Legal [.allocPages 1 (.caller 0), .allocPages 1 (.caller 0)] ∧
    ¬ ConservedAlong [16] onePage [.allocPages 1 (.caller 0), .allocPages 1 (.caller 0)] := by
  have hlegal : onePage.AlongRun Callers.Legal
      [.allocPages 1 (.caller 0), .allocPages 1 (.caller 0)] :=
    ⟨PageList.noConfusion, fun _ _ => ⟨PageList.noConfusion, fun _ _ => trivial⟩⟩
  refine ⟨start_onePage, hlegal, fun hcons => ?_⟩
  have hempty := start_onePage.accounts.allocsEmpty hlegal hcons
  have hfilled : ∃ s', onePage.step (.allocPages 1 (.caller 0)) = some s' ∧
      empty (s'.lists.lists (.caller 0)) = false := ⟨_, rfl, rfl⟩
  obtain ⟨s', hstep, hne⟩ := hfilled
  have hagain : empty (s'.lists.lists (.caller 0)) = true := (hempty.2 s' hstep).1
  rw [hne] at hagain
  exact Bool.false_ne_true hagain

end CxKernel.Pmm
