import CxKernel.Proofs.ListPool
import CxKernel.Spec.Pmm

/-! The kernel's page allocator, as moves between the sequences its lists represent. -/

namespace CxKernel.Pmm

open LinkedList

variable {lists : Lists} {σ : PageList → List (BitVec 64)}

theorem allocPhysPageSingle_empty (h : Represents lists σ) (hfree : σ .freelist = []) :
    ∃ lists', allocPhysPageSingle lists = some (.error .outOfMemory, lists') ∧
      Represents lists' σ := by
  obtain ⟨lists', hpop, hrep⟩ := h.popFront .freelist
  rw [hfree, List.head?_nil] at hpop
  rw [hfree, List.tail_nil, ← hfree, Function.update_eq_self] at hrep
  exact ⟨lists', by simp [allocPhysPageSingle, hpop], hrep⟩

theorem allocPhysPageSingle_taken (h : Represents lists σ) {page : BitVec 64}
    {rest : List (BitVec 64)} (hfree : σ .freelist = page :: rest) :
    ∃ lists', allocPhysPageSingle lists = some (.ok page, lists') ∧
      Represents lists' (Function.update σ .freelist rest) := by
  obtain ⟨lists', hpop, hrep, -⟩ := h.popFront_cons hfree
  exact ⟨lists', by simp [allocPhysPageSingle, hpop], hrep⟩

/-- The page allocated and put on the list of page tables. -/
theorem allocPhysPageSingle_push (h : Represents lists σ) {page : BitVec 64}
    {rest : List (BitVec 64)} (hfree : σ .freelist = page :: rest) :
    ∃ lists₁ lists₂, allocPhysPageSingle lists = some (.ok page, lists₁) ∧
      lists₁.pushBack .ptPages page = some lists₂ ∧
      Represents lists₂ (Function.update (Function.update σ .freelist rest) .ptPages
        (σ .ptPages ++ [page])) := by
  obtain ⟨lists₁, lists₂, hpop, hpush, hrep⟩ := h.popPush (j := .ptPages) (by decide) hfree
  exact ⟨lists₁, lists₂, by simp [allocPhysPageSingle, hpop], hpush, hrep⟩

theorem not_empty (h : Represents lists σ) {l : PageList} {x : BitVec 64}
    {xs : List (BitVec 64)} (hxs : σ l = x :: xs) : ¬ empty (lists.lists l) = true := by
  rw [(h.lists l).empty_iff, hxs]
  exact List.cons_ne_nil x xs

/-- A page moved before two lists are replaced makes no difference. -/
theorem update_moved {j l : PageList} (hjl : j ≠ l) (xs ys xs' ys' : List (BitVec 64)) :
    Function.update (Function.update (Function.update (Function.update σ j xs) l ys) j xs') l ys' =
      Function.update (Function.update σ j xs') l ys' := by
  rw [Function.update_comm hjl.symm, Function.update_idem, Function.update_idem]

/-- Freeing a list puts its pages behind the free ones, in order. -/
theorem freePhysPages_eq {l : PageList} (hl : l ≠ .freelist) (h : Represents lists σ) :
    ∃ lists', freePhysPages l lists = some lists' ∧
      Represents lists' (Function.update (Function.update σ l []) .freelist
        (σ .freelist ++ σ l)) := by
  generalize hxs : σ l = xs
  induction xs generalizing lists σ with
  | nil =>
    have hempty : empty (lists.lists l) = true := (h.lists l).empty_iff.mpr hxs
    refine ⟨lists, by rw [freePhysPages, if_pos hempty], ?_⟩
    rw [List.append_nil, ← hxs, Function.update_eq_self, Function.update_eq_self]
    exact h
  | cons x xs ih =>
    have hempty := not_empty h hxs
    obtain ⟨lists₁, lists₂, hpop, hpush, hrep⟩ := h.popPush hl hxs
    obtain ⟨lists', hfree, hrep'⟩ := ih hrep (by rw [Function.update_of_ne hl, Function.update_self])
    refine ⟨lists', ?_, ?_⟩
    · rw [freePhysPages, if_neg hempty, hpop]
      simp only [Option.bind_eq_bind, Option.bind_some, hpush, hfree]
    · rwa [Function.update_self, List.append_assoc, List.singleton_append, update_moved hl] at hrep'

/-- The roll-back puts a list's pages in front of the free ones, the first one deepest. -/
theorem putBack_eq {l : PageList} (hl : l ≠ .freelist) (h : Represents lists σ) :
    ∃ lists', putBack l lists = some lists' ∧
      Represents lists' (Function.update (Function.update σ l []) .freelist
        ((σ l).reverse ++ σ .freelist)) := by
  generalize hxs : σ l = xs
  induction xs generalizing lists σ with
  | nil =>
    have hempty : empty (lists.lists l) = true := (h.lists l).empty_iff.mpr hxs
    refine ⟨lists, by rw [putBack, if_pos hempty], ?_⟩
    rw [List.reverse_nil, List.nil_append, ← hxs, Function.update_eq_self, Function.update_eq_self]
    exact h
  | cons x xs ih =>
    have hempty := not_empty h hxs
    obtain ⟨lists₁, lists₂, hpop, hpush, hrep⟩ := h.popPushFront hl hxs
    obtain ⟨lists', hfree, hrep'⟩ := ih hrep (by rw [Function.update_of_ne hl, Function.update_self])
    refine ⟨lists', ?_, ?_⟩
    · rw [putBack, if_neg hempty, hpop]
      simp only [Option.bind_eq_bind, Option.bind_some, hpush, hfree]
    · rwa [Function.update_self, update_moved hl, List.append_cons, ← List.reverse_cons] at hrep'

/-- One round of the loop moves a page. -/
theorem takePages_step {l : PageList} (hl : l ≠ .freelist) (h : Represents lists σ)
    {x : BitVec 64} {rest : List (BitVec 64)} (hfree : σ .freelist = x :: rest) (n : ℕ) :
    ∃ lists₁, takePages l (n + 1) lists = takePages l n lists₁ ∧
      Represents lists₁ (Function.update (Function.update σ .freelist rest) l (x :: σ l)) ∧
      Function.update (Function.update σ .freelist rest) l (x :: σ l) .freelist = rest := by
  obtain ⟨lists₁, lists₂, hpop, hpush, hrep⟩ := h.popPushFront hl.symm hfree
  refine ⟨lists₂, by simp [takePages, hpop, hpush], hrep, ?_⟩
  rw [Function.update_of_ne hl.symm, Function.update_self]

/-- Enough pages: the loop moves them over one by one, which reverses them. -/
theorem takePages_ok {l : PageList} (hl : l ≠ .freelist) (h : Represents lists σ) {n : ℕ}
    (hn : n ≤ (σ .freelist).length) :
    ∃ lists', takePages l n lists = some (.ok (), lists') ∧
      Represents lists' (Function.update (Function.update σ .freelist ((σ .freelist).drop n)) l
        (((σ .freelist).take n).reverse ++ σ l)) := by
  induction n generalizing lists σ with
  | zero =>
    refine ⟨lists, rfl, ?_⟩
    simpa only [List.drop_zero, Function.update_eq_self, List.take_zero, List.reverse_nil,
      List.nil_append] using h
  | succ n ih =>
    cases hfree : σ .freelist with
    | nil => simp [hfree] at hn
    | cons x rest =>
      obtain ⟨lists₁, hstep, hrep, hrest⟩ := takePages_step hl h hfree n
      obtain ⟨lists', htake, hrep'⟩ := ih hrep (by simpa [hrest, hfree] using hn)
      refine ⟨lists', hstep.trans htake, ?_⟩
      rw [hrest, Function.update_self, update_moved hl.symm] at hrep'
      rwa [List.drop_succ_cons, List.take_succ_cons, List.reverse_cons, ← List.append_cons]

/-- Too few pages: those taken are put back in their old order, below them what the
list had. -/
theorem takePages_error {l : PageList} (hl : l ≠ .freelist) (h : Represents lists σ) {n : ℕ}
    (hn : (σ .freelist).length < n) :
    ∃ lists', takePages l n lists = some (.error .outOfMemory, lists') ∧
      Represents lists' (Function.update (Function.update σ l []) .freelist
        ((σ l).reverse ++ σ .freelist)) := by
  induction n generalizing lists σ with
  | zero => exact absurd hn (Nat.not_lt_zero _)
  | succ n ih =>
    cases hfree : σ .freelist with
    | nil =>
      obtain ⟨lists₁, hpop, hrep⟩ := h.popFront .freelist
      rw [hfree, List.head?_nil] at hpop
      rw [hfree, List.tail_nil, ← hfree, Function.update_eq_self] at hrep
      obtain ⟨lists', hback, hrep'⟩ := putBack_eq hl hrep
      rw [hfree] at hrep'
      exact ⟨lists', by simp [takePages, hpop, hback], hrep'⟩
    | cons x rest =>
      obtain ⟨lists₁, hstep, hrep, hrest⟩ := takePages_step hl h hfree n
      obtain ⟨lists', htake, hrep'⟩ := ih hrep (by simpa [hrest, hfree] using hn)
      refine ⟨lists', hstep.trans htake, ?_⟩
      rw [hrest, Function.update_self, Function.update_idem, Function.update_comm hl.symm,
        Function.update_idem, List.reverse_cons, ← List.append_cons] at hrep'
      exact hrep'

/-- What the lists hold after `alloc_phys_pages`. -/
def allocSeqs (count : ℕ) (l : PageList) (σ : PageList → List (BitVec 64)) :
    PageList → List (BitVec 64) :=
  if count ≤ (σ .freelist).length then
    Function.update (Function.update σ .freelist ((σ .freelist).drop count)) l
      ((σ .freelist).take count).reverse
  else Function.update σ l []

/-- Enough pages: the list has the first ones, the last of them in front. -/
theorem allocPhysPages_ok {l : PageList} (hl : l ≠ .freelist) (h : Represents lists σ)
    {count : BitVec 32} (hn : count.toNat ≤ (σ .freelist).length) :
    ∃ lists', allocPhysPages count l lists = some (.ok (), lists') ∧
      Represents lists' (Function.update (Function.update σ .freelist
        ((σ .freelist).drop count.toNat)) l ((σ .freelist).take count.toNat).reverse) := by
  have hfree : Function.update σ l [] .freelist = σ .freelist := Function.update_of_ne hl.symm _ _
  obtain ⟨lists', htake, hrep⟩ := takePages_ok hl (h.reset l) (hfree ▸ hn)
  refine ⟨lists', htake, ?_⟩
  rwa [Function.update_self, List.append_nil, hfree, Function.update_comm hl,
    Function.update_idem] at hrep

/-- Too few pages: all go back. -/
theorem allocPhysPages_error {l : PageList} (hl : l ≠ .freelist) (h : Represents lists σ)
    {count : BitVec 32} (hn : (σ .freelist).length < count.toNat) :
    ∃ lists', allocPhysPages count l lists = some (.error .outOfMemory, lists') ∧
      Represents lists' (Function.update σ l []) := by
  have hfree : Function.update σ l [] .freelist = σ .freelist := Function.update_of_ne hl.symm _ _
  obtain ⟨lists', htake, hrep⟩ := takePages_error hl (h.reset l) (hfree ▸ hn)
  refine ⟨lists', htake, ?_⟩
  rwa [Function.update_idem, Function.update_self, List.reverse_nil, List.nil_append,
    Function.update_eq_self] at hrep

theorem allocPhysPages_eq {l : PageList} (hl : l ≠ .freelist) (h : Represents lists σ)
    (count : BitVec 32) :
    ∃ ec lists', allocPhysPages count l lists = some (ec, lists') ∧
      Represents lists' (allocSeqs count.toNat l σ) := by
  unfold allocSeqs
  split_ifs with hn
  · obtain ⟨lists', htake, hrep⟩ := allocPhysPages_ok hl h hn
    exact ⟨.ok (), lists', htake, hrep⟩
  · obtain ⟨lists', htake, hrep⟩ := allocPhysPages_error hl h (Nat.lt_of_not_le hn)
    exact ⟨.error .outOfMemory, lists', htake, hrep⟩

/-- `alloc_phys_pages` takes all it is asked for, in order, or leaves everything as it was. -/
theorem alloc_phys_pages_exact {l : PageList} (hl : l ≠ .freelist) (h : Represents lists σ)
    (hempty : σ l = []) (count : BitVec 32) :
    (count.toNat ≤ (σ .freelist).length →
      ∃ lists', allocPhysPages count l lists = some (.ok (), lists') ∧
        visit lists'.links (lists'.lists l) = some ((σ .freelist).take count.toNat).reverse ∧
        visit lists'.links (lists'.lists .freelist) = some ((σ .freelist).drop count.toNat)) ∧
    ((σ .freelist).length < count.toNat →
      ∃ lists', allocPhysPages count l lists = some (.error .outOfMemory, lists') ∧
        visit lists'.links (lists'.lists l) = some [] ∧
        visit lists'.links (lists'.lists .freelist) = some (σ .freelist)) := by
  refine ⟨fun hn => ?_, fun hn => ?_⟩
  · obtain ⟨lists', halloc, hrep⟩ := allocPhysPages_ok hl h hn
    refine ⟨lists', halloc, ?_, ?_⟩
    · rw [(hrep.lists l).visit_eq, Function.update_self]
    · rw [(hrep.lists .freelist).visit_eq, Function.update_of_ne hl.symm, Function.update_self]
  · obtain ⟨lists', halloc, hrep⟩ := allocPhysPages_error hl h hn
    rw [← hempty, Function.update_eq_self] at hrep
    refine ⟨lists', halloc, ?_, (hrep.lists .freelist).visit_eq⟩
    rw [(hrep.lists l).visit_eq, hempty]

/-- One free page. -/
def oneFree : Lists := Pool.lone fun l => if l = .freelist then some 16 else none

theorem represents_oneFree :
    Represents oneFree fun l => (if l = .freelist then some 16 else none).toList := by
  refine represents_lone fun i j a hi hj => ?_
  split_ifs at hi hj with hif hjf
  rw [hif, hjf]

theorem alloc_phys_pages_exact_two :
    ∃ lists', allocPhysPages 2 .pages oneFree = some (.error .outOfMemory, lists') ∧
      visit lists'.links (lists'.lists .pages) = some [] ∧
      visit lists'.links (lists'.lists .freelist) = some [16] :=
  (alloc_phys_pages_exact (by decide) represents_oneFree rfl 2).2 (by decide)

end CxKernel.Pmm
