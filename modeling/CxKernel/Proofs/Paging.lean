import CxKernel.Lib.RadixWalk
import CxKernel.Proofs.VirtAddr

/-! Page tables as a radix hierarchy: the processor's walk is a lookup, and what a
write to one entry does to it. -/

namespace CxKernel.Paging

open RadixWalk

/-! Entries. -/

theorem frame_or (a b : BitVec 64) : frame (a ||| b) = frame a ||| frame b := by
  simp [frame, BitVec.extractLsb'_or]

theorem large_or (a b : BitVec 64) : large (a ||| b) = (large a || large b) := by
  simp [large]

/-- What the source stores: an address, the present bit, and flags. -/
def entryOf (addr flags : BitVec 64) : BitVec 64 := addr ||| 1 ||| flags

theorem present_entryOf (addr flags : BitVec 64) : present (entryOf addr flags) = true := by
  simp [entryOf, present]

theorem frame_entryOf {addr flags : BitVec 64} (hf : frame flags = 0) :
    frame (entryOf addr flags) = frame addr := by
  have h1 : frame 1 = 0 := by decide
  rw [entryOf, frame_or, frame_or, hf, h1]
  simp

theorem large_entryOf {addr flags : BitVec 64} (ha : large addr = false)
    (hf : large flags = false) : large (entryOf addr flags) = false := by
  have h1 : large 1 = false := by decide
  rw [entryOf, large_or, large_or, ha, hf, h1]
  rfl

theorem bit_of_aligned {x : BitVec 64} (h : x.toNat % 4096 = 0) {k : ℕ} (hk : k < 12) :
    x.getLsbD k = false := by
  have hx : x.toNat = 2 ^ 12 * (x.toNat / 4096) := by omega
  rw [BitVec.getLsbD, hx, Nat.testBit_two_pow_mul, decide_eq_false (by omega), Bool.false_and]

theorem toNat_frame (e : BitVec 64) : (frame e).toNat = e.toNat / 4096 % 2 ^ 40 := by
  rw [frame, BitVec.extractLsb'_toNat, Nat.shiftRight_eq_div_pow]

/-! Addresses of entries. -/

theorem entryAddr_inj {t t' : BitVec 40} {i i' : BitVec 9} :
    entryAddr t i = entryAddr t' i' ↔ t = t' ∧ i = i' := by
  refine ⟨?_, ?_⟩
  · intro h
    have hi := i.isLt
    have hi' := i'.isLt
    simp only [entryAddr] at h
    exact ⟨BitVec.eq_of_toNat_eq (by omega), BitVec.eq_of_toNat_eq (by omega)⟩
  · rintro ⟨rfl, rfl⟩
    rfl

/-- The tables of a memory. -/
def entries (mem : PhysMem) (t : BitVec 40) (i : BitVec 9) : BitVec 64 := mem (entryAddr t i)

theorem entries_write (mem : PhysMem) (t u : BitVec 40) (i j : BitVec 9) (e : BitVec 64) :
    entries (mem.write (entryAddr t i) e) u j =
      if u = t ∧ j = i then e else entries mem u j := by
  simp only [entries, PhysMem.write, Function.update_apply, entryAddr_inj]

theorem entries_zero (mem : PhysMem) (t u : BitVec 40) (j : BitVec 9) :
    entries (mem.zero (t.toNat * 4096) 4096) u j = if u = t then 0 else entries mem u j := by
  have hj := j.isLt
  have hin : (t.toNat * 4096 ≤ entryAddr u j ∧ entryAddr u j < t.toNat * 4096 + 4096) ↔ u = t := by
    rw [entryAddr, ← BitVec.toNat_inj]
    omega
  simp only [entries, PhysMem.zero, hin]

/-! The walk. -/

/-- How the processor reads an entry. -/
def pageFormat : Format (BitVec 40) (BitVec 9) (BitVec 64) (BitVec 40) where
  next n e := if present e ∧ n ≠ 0 ∧ large e = false then some (frame e) else none
  stop e is :=
    if present e then if is = [] then some (frame e) else largeFrame (frame e) is else none

theorem hwWalk_eq_lookup (mem : PhysMem) (t : BitVec 40) (i : BitVec 9) (is : List (BitVec 9)) :
    hwWalk mem t (i :: is) = lookup pageFormat (entries mem) t (i :: is) := by
  induction is generalizing t i with
  | nil => simp [hwWalk, lookup, pageFormat, entries]
  | cons j is ih =>
    rw [hwWalk, lookup, show mem (entryAddr t i) = entries mem t i from rfl]
    cases hp : present (entries mem t i)
    · simp [pageFormat, hp]
    · cases hl : large (entries mem t i)
      · simp [pageFormat, hp, hl, ih]
      · simp [pageFormat, hp, hl]

theorem next_zero (e : BitVec 64) : pageFormat.next 0 e = none := by
  simp [pageFormat]

theorem next_of_not_present {e : BitVec 64} (h : present e = false) (n : ℕ) :
    pageFormat.next n e = none := by
  simp [pageFormat, h]

theorem next_of_present {e : BitVec 64} {n : ℕ} (hp : present e = true) (hl : large e = false)
    (hn : n ≠ 0) : pageFormat.next n e = some (frame e) := by
  simp [pageFormat, hp, hl, hn]

/-- Paths that do not start at the entry by which the first table names itself. -/
def NotSelf (p : List (BitVec 9)) : Prop := p.head? ≠ some 511

theorem notSelf_of_append (p r : List (BitVec 9)) (h : NotSelf (p ++ r)) : NotSelf p := by
  cases p with
  | nil => simp [NotSelf]
  | cons i p => exact h

theorem notSelf_of_mappable {v : BitVec 64} (hv : Mappable v) : NotSelf (path v) := by
  intro h
  refine hv.2 (BitVec.eq_of_toNat_eq ?_)
  simp only [path, List.head?_cons, Option.some_inj] at h
  rw [pml4eIndex, toNat_tableIndex, h]
  rfl

theorem notSelf_append {p : List (BitVec 9)} (hp : p ≠ []) (h : NotSelf p) (r : List (BitVec 9)) :
    NotSelf (p ++ r) := by
  cases p with
  | nil => exact absurd rfl hp
  | cons i p => exact h

/-- Every such path of four indices is the path of an address. -/
theorem exists_mappable {q : List (BitVec 9)} (hq : NotSelf q) (hlen : q.length = 4) :
    ∃ v, Mappable v ∧ path v = q := by
  match q, hlen with
  | [i, j, k, l], _ =>
    have hi : i ≠ 511 := by simpa [NotSelf] using hq
    exact ⟨_, mappable_virtFromIndex hi⟩

/-- The tables form a tree, the entry by which the first names itself left aside. -/
def TableTree (mem : PhysMem) (root : BitVec 40) : Prop :=
  IsTree pageFormat (entries mem) 4 root NotSelf

/-- The path `p` leads to the table `t`. -/
def LeadsTo (mem : PhysMem) (root : BitVec 40) (p : List (BitVec 9)) (t : BitVec 40) : Prop :=
  Leads pageFormat (entries mem) 4 root NotSelf p t

theorem translatePage_eq_lookup (mem : PhysMem) (root : BitVec 40) (v : BitVec 64) :
    translatePage mem root v = lookup pageFormat (entries mem) root (path v) :=
  hwWalk_eq_lookup mem root _ _

theorem length_path (v : BitVec 64) : (path v).length = 4 := rfl

theorem LeadsTo.root (mem : PhysMem) (root : BitVec 40) : LeadsTo mem root [] root :=
  ⟨by simp, by simp [NotSelf], rfl⟩

theorem lookup_through {mem : PhysMem} {root t : BitVec 40} {p r : List (BitVec 9)} {i : BitVec 9}
    (hp : LeadsTo mem root p t) (hlen : p.length + (r.length + 1) = 4) :
    lookup pageFormat (entries mem) root (p ++ i :: r) =
      lookup pageFormat (entries mem) t (i :: r) := by
  apply lookup_append
  rw [List.length_cons, hlen]
  exact hp.2.2

theorem lookup_absent {mem : PhysMem} {root t : BitVec 40} {p r : List (BitVec 9)} {i : BitVec 9}
    (hp : LeadsTo mem root p t) (hlen : p.length + (r.length + 1) = 4)
    (h : present (entries mem t i) = false) :
    lookup pageFormat (entries mem) root (p ++ i :: r) = none := by
  rw [lookup_through hp hlen, lookup, next_of_not_present h]
  simp [pageFormat, h]

theorem lookup_leaf {mem : PhysMem} {root t : BitVec 40} {p : List (BitVec 9)} {i : BitVec 9}
    (hp : LeadsTo mem root p t) (hlen : p.length = 3) (h : present (entries mem t i) = true) :
    lookup pageFormat (entries mem) root (p ++ [i]) = some (frame (entries mem t i)) := by
  rw [lookup_through hp (by rw [hlen]; rfl), lookup, List.length_nil, next_zero]
  simp [pageFormat, h]

/-- A present entry above the last level, not a large page, leads on. -/
theorem LeadsTo.next {mem : PhysMem} {root t : BitVec 40} {p : List (BitVec 9)} {i : BitVec 9}
    (hp : LeadsTo mem root p t) (hlen : p.length < 3) (hd : NotSelf (p ++ [i]))
    (h : present (entries mem t i) = true) (hl : large (entries mem t i) = false) :
    LeadsTo mem root (p ++ [i]) (frame (entries mem t i)) := by
  refine ⟨by rw [List.length_append, List.length_singleton]; omega, hd, ?_⟩
  rw [tableAt_concat hp.2.2, next_of_present h hl (by omega)]

theorem next_eq_some {n : ℕ} {e : BitVec 64} {u : BitVec 40} (h : pageFormat.next n e = some u) :
    present e = true ∧ large e = false ∧ u = frame e := by
  simp only [pageFormat] at h
  split at h
  · rename_i hc
    exact ⟨hc.1, hc.2.2, (Option.some_inj.mp h).symm⟩
  · cases h

/-- On the way to a table every entry is present and names the next table. -/
theorem LeadsTo.split {mem : PhysMem} {root t u : BitVec 40} {p r : List (BitVec 9)} {i : BitVec 9}
    (hp : LeadsTo mem root p t) (h : LeadsTo mem root (p ++ i :: r) u) :
    present (entries mem t i) = true ∧ large (entries mem t i) = false ∧
      LeadsTo mem root (p ++ [i]) (frame (entries mem t i)) := by
  obtain ⟨hlen, hd, hu⟩ := h
  rw [List.append_cons] at hlen hd hu
  rw [tableAt_append, tableAt_concat hp.2.2, Option.bind_eq_some_iff] at hu
  obtain ⟨w, hw, -⟩ := hu
  obtain ⟨hpres, hl, rfl⟩ := next_eq_some hw
  refine ⟨hpres, hl, ?_, notSelf_of_append _ r hd, ?_⟩
  · rw [List.length_append] at hlen
    exact Nat.lt_of_le_of_lt (Nat.le_add_right _ _) hlen
  · rw [tableAt_concat hp.2.2, hw]

/-- The last step of the way to a table. -/
theorem LeadsTo.of_concat {mem : PhysMem} {root u : BitVec 40} {p : List (BitVec 9)} {i : BitVec 9}
    (h : LeadsTo mem root (p ++ [i]) u) :
    ∃ t, LeadsTo mem root p t ∧ present (entries mem t i) = true ∧
      frame (entries mem t i) = u := by
  obtain ⟨hlen, hd, hu⟩ := h
  rw [List.length_append, List.length_singleton] at hlen
  have hw := hu
  rw [tableAt_append, Option.bind_eq_some_iff] at hw
  obtain ⟨t, ht, -⟩ := hw
  rw [tableAt_concat ht] at hu
  obtain ⟨hpres, -, hframe⟩ := next_eq_some hu
  exact ⟨t, ⟨by omega, notSelf_of_append p [i] hd, ht⟩, hpres, hframe.symm⟩

theorem LeadsTo.unique {mem : PhysMem} {root t u : BitVec 40} {p : List (BitVec 9)}
    (h : LeadsTo mem root p t) (h' : LeadsTo mem root p u) : t = u :=
  Option.some_inj.mp (h.2.2.symm.trans h'.2.2)

/-! The self-reference, and walks through it. -/

/-- Entry `i` of table `t` names the table `u`. -/
def Names (mem : PhysMem) (t : BitVec 40) (i : BitVec 9) (u : BitVec 40) : Prop :=
  present (entries mem t i) = true ∧ large (entries mem t i) = false ∧
    frame (entries mem t i) = u

instance (mem : PhysMem) (t : BitVec 40) (i : BitVec 9) (u : BitVec 40) :
    Decidable (Names mem t i u) := inferInstanceAs (Decidable (_ ∧ _))

theorem Names.hwWalk {mem : PhysMem} {t u : BitVec 40} {i : BitVec 9} (h : Names mem t i u)
    (is : List (BitVec 9)) : hwWalk mem t (i :: is) = hwWalk mem u is := by
  obtain ⟨hp, hl, hf⟩ := h
  simp only [entries] at hp hl hf
  simp [Paging.hwWalk, hp, hl, hf]

/-- `PML4[511]` names the PML4. -/
def SelfMap (mem : PhysMem) (root : BitVec 40) : Prop := Names mem root 511 root

instance (mem : PhysMem) (root : BitVec 40) : Decidable (SelfMap mem root) :=
  inferInstanceAs (Decidable (Names _ _ _ _))

theorem Names.leadsTo {mem : PhysMem} {root t u : BitVec 40} {p : List (BitVec 9)} {i : BitVec 9}
    (h : Names mem t i u) (hp : LeadsTo mem root p t) (hlen : p.length < 3)
    (hd : NotSelf (p ++ [i])) : LeadsTo mem root (p ++ [i]) u := by
  rw [← h.2.2]
  exact hp.next hlen hd h.1 h.2.1

theorem tableAt_mono {mem : PhysMem} {n m : ℕ} {t u : BitVec 40} {p : List (BitVec 9)}
    (h : tableAt pageFormat (entries mem) n t p = some u) (hlen : p.length < n) (hnm : n ≤ m) :
    tableAt pageFormat (entries mem) m t p = some u := by
  induction p generalizing n m t with
  | nil => exact h
  | cons i p ih =>
    rw [List.length_cons] at hlen
    rw [tableAt, Option.bind_eq_some_iff] at h ⊢
    obtain ⟨w, hw, hu⟩ := h
    obtain ⟨hpres, hlarge, rfl⟩ := next_eq_some hw
    exact ⟨_, next_of_present hpres hlarge (by omega), ih hu (by omega) (by omega)⟩

/-- Every table is found along a path that does not start there, and no longer. -/
theorem SelfMap.leadsTo {mem : PhysMem} {root u : BitVec 40} (hself : SelfMap mem root) {n : ℕ}
    {p : List (BitVec 9)} (h : tableAt pageFormat (entries mem) n root p = some u)
    (hlen : p.length < n) (hn : n ≤ 4) : ∃ q, q.length ≤ p.length ∧ LeadsTo mem root q u := by
  induction p generalizing n with
  | nil =>
    rw [tableAt, Option.some_inj] at h
    exact ⟨[], Nat.le_refl _, h ▸ LeadsTo.root mem root⟩
  | cons i p ih =>
    rw [List.length_cons] at hlen ⊢
    by_cases hi : i = 511
    · rw [hi, tableAt, next_of_present hself.1 hself.2.1 (by omega), hself.2.2,
        Option.bind_some] at h
      obtain ⟨q, hq, hlead⟩ := ih h (by omega) (by omega)
      exact ⟨q, by omega, hlead⟩
    · refine ⟨i :: p, Nat.le_refl _, ?_, by simpa [NotSelf] using hi, ?_⟩
      · rw [List.length_cons]
        omega
      · exact tableAt_mono h (by rw [List.length_cons]; omega) hn

/-! A new table: entry `i` of the table `t` at `p` was absent and becomes `e`, which
names a page that is no table yet and holds no present entry. -/

structure NewTable (mem mem' : PhysMem) (root : BitVec 40) (p : List (BitVec 9)) (t : BitVec 40)
    (i : BitVec 9) (e : BitVec 64) : Prop where
  leads : LeadsTo mem root p t
  inner : p.length < 3
  dom : NotSelf (p ++ [i])
  absent : present (entries mem t i) = false
  here : present e = true
  small : large e = false
  fresh : ∀ q, ¬ LeadsTo mem root q (frame e)
  entry : entries mem' t i = e
  others : ∀ w j, w ≠ frame e → ¬ (w = t ∧ j = i) → entries mem' w j = entries mem w j
  empty : ∀ j, present (entries mem' (frame e) j) = false

section NewTable

variable {mem mem' : PhysMem} {root t : BitVec 40} {p : List (BitVec 9)} {i : BitVec 9}
  {e : BitVec 64}

theorem NewTable.grafts (h : NewTable mem mem' root p t i e) :
    Grafts pageFormat (entries mem) (entries mem') 4 root NotSelf p t i (frame e) where
  agree q w j hq hne := h.others w j (fun he => h.fresh q (he ▸ hq)) hne
  leads := h.leads
  inner := by have := h.inner; omega
  dom := h.dom
  before := next_of_not_present h.absent _
  after := by
    have hlen := h.inner
    rw [h.entry, next_of_present h.here h.small (by omega)]
  fresh := h.fresh
  empty m j := next_of_not_present (h.empty j) m

theorem NewTable.tableTree (h : NewTable mem mem' root p t i e) (htree : TableTree mem root) :
    TableTree mem' root :=
  h.grafts.isTree htree notSelf_of_append

theorem NewTable.leadsTo_iff (h : NewTable mem mem' root p t i e) (htree : TableTree mem root)
    (q : List (BitVec 9)) (w : BitVec 40) :
    LeadsTo mem' root q w ↔ LeadsTo mem root q w ∨ q = p ++ [i] ∧ w = frame e :=
  h.grafts.leads_iff htree notSelf_of_append q w

/-- No walk sees the new table. -/
theorem NewTable.lookup_eq (h : NewTable mem mem' root p t i e) (htree : TableTree mem root)
    {q : List (BitVec 9)} (hq : NotSelf q) (hlen : q.length = 4) :
    lookup pageFormat (entries mem') root q = lookup pageFormat (entries mem) root q := by
  by_cases hpre : p ++ [i] <+: q
  · obtain ⟨r, rfl⟩ := hpre
    have hinner := h.inner
    have hnew := (h.leadsTo_iff htree _ _).mpr (Or.inr ⟨rfl, rfl⟩)
    cases r with
    | nil =>
      simp at hlen
      omega
    | cons j r =>
      have hlen' : p.length + ((j :: r).length + 1) = 4 := by simpa using hlen
      have hnewlen : (p ++ [i]).length + (r.length + 1) = 4 := by
        simp at hlen' ⊢
        omega
      rw [lookup_absent hnew hnewlen (h.empty j), List.append_assoc, List.singleton_append,
        lookup_absent h.leads hlen' h.absent]
  · exact h.grafts.agree.lookup_eq htree notSelf_of_append h.leads hq hlen hpre

end NewTable

/-! A page mapped: only entry `i` of the last-level table `t` at `p` changes. -/

structure NewPage (mem mem' : PhysMem) (root : BitVec 40) (p : List (BitVec 9)) (t : BitVec 40)
    (i : BitVec 9) (e : BitVec 64) : Prop where
  leads : LeadsTo mem root p t
  last : p.length = 3
  here : present e = true
  entry : entries mem' t i = e
  others : ∀ w j, ¬ (w = t ∧ j = i) → entries mem' w j = entries mem w j

section NewPage

variable {mem mem' : PhysMem} {root t : BitVec 40} {p : List (BitVec 9)} {i : BitVec 9}
  {e : BitVec 64}

theorem NewPage.agreeBut (h : NewPage mem mem' root p t i e) :
    AgreeBut pageFormat (entries mem) (entries mem') 4 root NotSelf t i :=
  fun _ w j _ hne => h.others w j hne

theorem NewPage.leadsTo_iff (h : NewPage mem mem' root p t i e) (htree : TableTree mem root)
    (q : List (BitVec 9)) (w : BitVec 40) : LeadsTo mem' root q w ↔ LeadsTo mem root q w :=
  h.agreeBut.leads_last htree notSelf_of_append h.leads (by rw [h.last]) q w

theorem NewPage.tableTree (h : NewPage mem mem' root p t i e) (htree : TableTree mem root) :
    TableTree mem' root := by
  intro q q' w hq hq'
  exact htree q q' w ((h.leadsTo_iff htree q w).mp hq) ((h.leadsTo_iff htree q' w).mp hq')

theorem NewPage.lookup_self (h : NewPage mem mem' root p t i e) (htree : TableTree mem root) :
    lookup pageFormat (entries mem') root (p ++ [i]) = some (frame e) := by
  have hp := (h.leadsTo_iff htree p t).mpr h.leads
  rw [lookup_leaf hp h.last (by rw [h.entry]; exact h.here), h.entry]

theorem NewPage.lookup_eq (h : NewPage mem mem' root p t i e) (htree : TableTree mem root)
    {q : List (BitVec 9)} (hq : NotSelf q) (hlen : q.length = 4) (hne : q ≠ p ++ [i]) :
    lookup pageFormat (entries mem') root q = lookup pageFormat (entries mem) root q := by
  refine h.agreeBut.lookup_eq htree notSelf_of_append h.leads hq hlen fun hpre => hne ?_
  exact (hpre.eq_of_length (by simp [h.last, hlen])).symm

theorem NewPage.lookup_slot (h : NewPage mem mem' root p t i e) (htree : TableTree mem root)
    (hself : SelfMap mem root) {q : List (BitVec 9)} (hq : ¬ NotSelf q) (hlen : q.length = 4) :
    lookup pageFormat (entries mem') root q = lookup pageFormat (entries mem) root q := by
  -- such a walk reads tables above the last level only
  refine lookup_congr fun r j r' u he hu => h.others u j fun hat => ?_
  have hlen' := congrArg List.length he
  rw [hlen, List.length_append, List.length_cons] at hlen'
  have hshort : ∃ r₁, r₁.length ≤ 2 ∧ LeadsTo mem root r₁ u := by
    cases r with
    | nil =>
      rw [tableAt, Option.some_inj] at hu
      exact ⟨[], by simp, hu ▸ LeadsTo.root mem root⟩
    | cons k r =>
      rw [List.length_cons] at hlen'
      have hk : k = 511 := by
        rw [he, List.cons_append] at hq
        simpa [NotSelf] using hq
      rw [hlen, hk, tableAt, next_of_present hself.1 hself.2.1 (by omega), hself.2.2,
        Option.bind_some] at hu
      obtain ⟨r₁, hr₁, hlead⟩ := hself.leadsTo hu (by omega) (by omega)
      exact ⟨r₁, by omega, hlead⟩
  obtain ⟨r₁, hr₁, hlead⟩ := hshort
  have hp := htree r₁ p t (hat.1 ▸ hlead) h.leads
  rw [hp, h.last] at hr₁
  omega

theorem NewPage.selfMap (h : NewPage mem mem' root p t i e) (htree : TableTree mem root)
    (hself : SelfMap mem root) : SelfMap mem' root := by
  have hsame : entries mem' root 511 = entries mem root 511 := by
    refine h.others root 511 fun hat => ?_
    have hp := htree [] p t (hat.1 ▸ LeadsTo.root mem root) h.leads
    have hlast := h.last
    rw [← hp] at hlast
    cases hlast
  rw [SelfMap, Names, hsame]
  exact hself

/-- Mapping a page where it is mapped already changes no walk at all. -/
theorem NewPage.lookup_idle (h : NewPage mem mem' root p t i e) (htree : TableTree mem root)
    (hself : SelfMap mem root)
    (hidle : lookup pageFormat (entries mem) root (p ++ [i]) = some (frame e))
    {q : List (BitVec 9)} (hlen : q.length = 4) :
    lookup pageFormat (entries mem') root q = lookup pageFormat (entries mem) root q := by
  by_cases hq : NotSelf q
  · by_cases hqp : q = p ++ [i]
    · rw [hqp, h.lookup_self htree, hidle]
    · exact h.lookup_eq htree hq hlen hqp
  · exact h.lookup_slot htree hself hq hlen

end NewPage

end CxKernel.Paging
