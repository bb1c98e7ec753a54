import Mathlib.Data.List.Cycle

/-! Circular doubly linked rings over an arbitrary type of nodes. A store of
`next`/`prev` links represents a list of nodes when every two neighbours of its
cycle point at each other. The rules say what linking a node in, unlinking one,
and writing elsewhere do to the represented list. -/

namespace LinkRing

universe u

/-- One `next` and one `prev` link for each node, either possibly null. -/
structure Links (ν : Type u) where
  next : ν → Option ν
  prev : ν → Option ν

namespace Links

variable {ν : Type u}

/-- `b` follows `a`, and both links agree on it. -/
def Linked (s : Links ν) (a b : ν) : Prop := s.next a = some b ∧ s.prev b = some a

/-- The links represent the cycle of `xs`, which repeats no node. -/
def IsRing (s : Links ν) (xs : List ν) : Prop := xs.Nodup ∧ Cycle.Chain s.Linked (xs : Cycle ν)

theorem isRing_nil (s : Links ν) : s.IsRing [] := ⟨List.nodup_nil, by simp⟩

theorem isRing_cons (s : Links ν) (x : ν) (t : List ν) :
    s.IsRing (x :: t) ↔ (x :: t).Nodup ∧ List.IsChain s.Linked (x :: (t ++ [x])) := by
  rw [IsRing, Cycle.chain_coe_cons]

theorem isRing_singleton (s : Links ν) (x : ν) :
    s.IsRing [x] ↔ s.next x = some x ∧ s.prev x = some x := by
  simp [isRing_cons, Linked]

/-- Where a ring starts is a choice: only the cycle counts. -/
theorem isRing_rotate (s : Links ν) (xs ys : List ν) :
    s.IsRing (xs ++ ys) ↔ s.IsRing (ys ++ xs) := by
  have hcycle : ((xs ++ ys : List ν) : Cycle ν) = ((ys ++ xs : List ν) : Cycle ν) :=
    Cycle.coe_eq_coe.mpr List.isRotated_append
  rw [IsRing, IsRing, hcycle, List.nodup_append_comm]

/-- A chain survives writes to the `next` of its last node and the `prev` of
its first: neither of these two links lies inside it. -/
theorem isChain_of_agree {s s' : Links ν} {xs : List ν} (h : List.IsChain s.Linked xs)
    (hnext : ∀ a ∈ xs.dropLast, s'.next a = s.next a)
    (hprev : ∀ b ∈ xs.tail, s'.prev b = s.prev b) : List.IsChain s'.Linked xs := by
  rw [List.isChain_iff_getElem] at h ⊢
  intro i hi
  have ha : xs[i] ∈ xs.dropLast := by
    have hlt : i < xs.dropLast.length := by rw [List.length_dropLast]; omega
    rw [← List.getElem_dropLast hlt]
    exact List.getElem_mem hlt
  have hb : xs[i + 1] ∈ xs.tail := by
    have hlt : i < xs.tail.length := by rw [List.length_tail]; omega
    rw [← List.getElem_tail hlt]
    exact List.getElem_mem hlt
  obtain ⟨hn, hp⟩ := h i hi
  exact ⟨(hnext _ ha).trans hn, (hprev _ hb).trans hp⟩

/-- Writes to nodes outside a ring leave it alone. -/
theorem IsRing.of_agree {s s' : Links ν} {xs : List ν} (h : s.IsRing xs)
    (hnext : ∀ a ∈ xs, s'.next a = s.next a) (hprev : ∀ a ∈ xs, s'.prev a = s.prev a) :
    s'.IsRing xs := by
  cases xs with
  | nil => exact isRing_nil s'
  | cons x t =>
    rw [isRing_cons] at h ⊢
    refine ⟨h.1, isChain_of_agree h.2 ?_ ?_⟩
    · intro a ha
      rw [← List.cons_append, List.dropLast_concat] at ha
      exact hnext a ha
    · intro b hb
      simp only [List.tail_cons, List.mem_append, List.mem_singleton] at hb
      exact hprev b (by rcases hb with hb | rfl <;> simp_all)

/-- The same sequence laid out in other links: a ring again, where neighbours are
linked there too. -/
theorem IsRing.relabel {μ α : Type*} {s : Links ν} {s' : Links μ} {f : α → ν} {g : α → μ}
    {xs : List α} (h : s.IsRing (xs.map f)) (hg : ∀ a ∈ xs, ∀ b ∈ xs, g a = g b → a = b)
    (hlink : ∀ a ∈ xs, ∀ b ∈ xs, s.Linked (f a) (f b) → s'.Linked (g a) (g b)) :
    s'.IsRing (xs.map g) := by
  refine ⟨(List.Nodup.of_map f h.1).map_on fun a ha b hb => hg a ha b hb, ?_⟩
  have hc := h.2
  rw [← Cycle.map_coe, Cycle.chain_map] at hc ⊢
  cases xs with
  | nil => exact Cycle.Chain.nil _
  | cons x t =>
    rw [Cycle.chain_coe_cons] at hc ⊢
    have hmem : ∀ a ∈ x :: (t ++ [x]), a ∈ x :: t := fun a ha => by simp at ha ⊢; tauto
    exact hc.imp_of_mem_imp fun a b ha hb => hlink a (hmem a ha) b (hmem b hb)

theorem IsRing.getLast_linked {s : Links ν} {x : ν} {t : List ν} (h : s.IsRing (x :: t)) :
    s.Linked ((x :: t).getLast (List.cons_ne_nil x t)) x := by
  have hc := ((isRing_cons s x t).mp h).2
  rw [← List.cons_append, ← List.dropLast_append_getLast (List.cons_ne_nil x t),
    List.append_assoc, List.isChain_append] at hc
  simpa using hc.2.1

theorem IsRing.cons_linked {s : Links ν} {x y : ν} {t : List ν} (h : s.IsRing (x :: y :: t)) :
    s.Linked x y := by
  have hc := ((isRing_cons s x (y :: t)).mp h).2
  rw [List.cons_append, List.isChain_cons_cons] at hc
  exact hc.1

/-- Inside a ring `next` is the following node, and the first one after the last. -/
theorem IsRing.next_eq {s : Links ν} {x y : ν} {t pre ys : List ν} (h : s.IsRing (x :: t))
    (he : x :: t = pre ++ y :: ys) : s.next y = (ys ++ [x]).head? := by
  have hc := ((isRing_cons s x t).mp h).2
  rw [← List.cons_append, he, List.append_assoc, List.isChain_append] at hc
  cases ys with
  | nil => exact (List.isChain_cons_cons.mp hc.2.1).1.1
  | cons z ys => exact (List.isChain_cons_cons.mp hc.2.1).1.1

/-- The last node of a ring is the one before its first. -/
theorem IsRing.exists_last {s : Links ν} {x p : ν} {t : List ν} (h : s.IsRing (x :: t))
    (hp : s.prev x = some p) : ∃ m, x :: t = m ++ [p] ∧ p ∉ m := by
  have hne := List.cons_ne_nil x t
  have hlast : (x :: t).getLast hne = p :=
    Option.some.inj (h.getLast_linked.2.symm.trans hp)
  have hsplit := (List.dropLast_append_getLast hne).symm
  rw [hlast] at hsplit
  refine ⟨_, hsplit, fun hm => ?_⟩
  have hd := h.1
  rw [hsplit, List.nodup_append] at hd
  exact hd.2.2 p hm p (List.mem_singleton_self p) rfl

/-- Each node of a ring has a successor in it that points back. -/
theorem IsRing.exists_next {s : Links ν} {xs : List ν} (h : s.IsRing xs) {x : ν} (hx : x ∈ xs) :
    ∃ y ∈ xs, s.Linked x y := by
  obtain ⟨l, r, rfl⟩ := List.append_of_mem hx
  have hr := (isRing_rotate s l (x :: r)).mp h
  cases hlr : r ++ l with
  | nil =>
    rw [List.cons_append, hlr, isRing_singleton] at hr
    exact ⟨x, hx, hr⟩
  | cons y t =>
    rw [List.cons_append, hlr] at hr
    have hy : y ∈ r ++ l := by simp [hlr]
    exact ⟨y, by simp only [List.mem_append, List.mem_cons] at hy ⊢; tauto, hr.cons_linked⟩

/-- Each node of a ring has a predecessor in it that points forward. -/
theorem IsRing.exists_prev {s : Links ν} {xs : List ν} (h : s.IsRing xs) {x : ν} (hx : x ∈ xs) :
    ∃ y ∈ xs, s.Linked y x := by
  obtain ⟨l, r, rfl⟩ := List.append_of_mem hx
  have hr := (isRing_rotate s l (x :: r)).mp h
  rw [List.cons_append] at hr
  refine ⟨_, ?_, hr.getLast_linked⟩
  have hm := List.getLast_mem (List.cons_ne_nil x (r ++ l))
  simp only [List.mem_append, List.mem_cons] at hm ⊢
  tauto

section Writes

variable [DecidableEq ν]

def setNext (s : Links ν) (a : ν) (p : Option ν) : Links ν :=
  { s with next := Function.update s.next a p }

def setPrev (s : Links ν) (a : ν) (p : Option ν) : Links ν :=
  { s with prev := Function.update s.prev a p }

@[simp] theorem setNext_prev (s : Links ν) (a : ν) (p : Option ν) :
    (s.setNext a p).prev = s.prev := rfl

@[simp] theorem setPrev_next (s : Links ν) (a : ν) (p : Option ν) :
    (s.setPrev a p).next = s.next := rfl

@[simp] theorem setNext_next (s : Links ν) (a b : ν) (p : Option ν) :
    (s.setNext a p).next b = if b = a then p else s.next b := by
  simp [setNext, Function.update_apply]

@[simp] theorem setPrev_prev (s : Links ν) (a b : ν) (p : Option ν) :
    (s.setPrev a p).prev b = if b = a then p else s.prev b := by
  simp [setPrev, Function.update_apply]

/-- Put `n` between the neighbours `p` and `x`. -/
def link (s : Links ν) (p n x : ν) : Links ν :=
  (((s.setNext p (some n)).setPrev n (some p)).setNext n (some x)).setPrev x (some n)

/-- Make `p` and `q` neighbours. -/
def unlink (s : Links ν) (p q : ν) : Links ν := (s.setNext p (some q)).setPrev q (some p)

theorem link_next (s : Links ν) (p n x a : ν) :
    (s.link p n x).next a = if a = n then some x else if a = p then some n else s.next a := by
  simp [link]

theorem link_prev (s : Links ν) (p n x a : ν) :
    (s.link p n x).prev a = if a = x then some n else if a = n then some p else s.prev a := by
  simp [link]

theorem unlink_next (s : Links ν) (p q a : ν) :
    (s.unlink p q).next a = if a = p then some q else s.next a := by
  simp [unlink]

theorem unlink_prev (s : Links ν) (p q a : ν) :
    (s.unlink p q).prev a = if a = q then some p else s.prev a := by
  simp [unlink]

/-- Linking a fresh node in before the first one makes it the last of the ring. -/
theorem IsRing.link {s : Links ν} {p x n : ν} {t : List ν} (h : s.IsRing (x :: t))
    (hn : n ∉ x :: t) (hp : s.prev x = some p) : (s.link p n x).IsRing (x :: (t ++ [n])) := by
  obtain ⟨hnd, hc⟩ := (isRing_cons s x t).mp h
  obtain ⟨m, hm, hpm⟩ := h.exists_last hp
  have hpn : p ≠ n := fun heq => hn (by simp [hm, heq])
  have hxn : x ≠ n := fun heq => hn (by simp [heq])
  -- the old chain up to `p`, then the two new links
  have hold : List.IsChain (s.link p n x).Linked (x :: t) := by
    rw [← List.cons_append, List.isChain_append] at hc
    refine isChain_of_agree hc.1 (fun a ha => ?_) (fun b hb => ?_)
    · rw [hm, List.dropLast_concat] at ha
      have han : a ≠ n := fun heq => hn (by rw [hm]; simp [← heq, ha])
      have hap : a ≠ p := fun heq => hpm (heq ▸ ha)
      simp [link_next, han, hap]
    · have hbn : b ≠ n := fun heq => hn (heq ▸ List.mem_of_mem_tail hb)
      have hbx : b ≠ x := fun heq => (List.nodup_cons.mp hnd).1 (heq ▸ hb)
      simp [link_prev, hbn, hbx]
  have hpn' : (s.link p n x).Linked p n := by simp [Linked, link_next, link_prev, hpn, hxn.symm]
  have hnx' : (s.link p n x).Linked n x := by simp [Linked, link_next, link_prev]
  rw [isRing_cons]
  refine ⟨?_, ?_⟩
  · rw [← List.cons_append, List.nodup_append]
    refine ⟨hnd, List.nodup_singleton n, fun a ha b hb heq => hn ?_⟩
    rw [List.mem_singleton] at hb
    exact hb ▸ heq ▸ ha
  · rw [hm] at hold
    rw [List.append_assoc, ← List.cons_append, hm, List.append_assoc, List.isChain_append]
    rw [List.isChain_append] at hold
    refine ⟨hold.1, ?_, hold.2.2⟩
    simpa using ⟨hpn', hnx'⟩

/-- Unlinking the first of several nodes leaves the ring of the others. -/
theorem IsRing.unlink {s : Links ν} {p x q : ν} {t : List ν} (h : s.IsRing (x :: q :: t))
    (hp : s.prev x = some p) : (s.unlink p q).IsRing (q :: t) := by
  obtain ⟨hnd, hc⟩ := (isRing_cons s x (q :: t)).mp h
  obtain ⟨m, hm, hpm⟩ := h.exists_last hp
  -- `p` also ends the remaining list, which is not empty
  obtain ⟨m', rfl, hm'⟩ : ∃ m', m = x :: m' ∧ q :: t = m' ++ [p] := by
    cases m with
    | nil => simp at hm
    | cons y m' => exact ⟨m', by simp_all⟩
  have hnd' := (List.nodup_cons.mp hnd).2
  have hold : List.IsChain (s.unlink p q).Linked (q :: t) := by
    rw [List.cons_append, List.isChain_cons_cons, ← List.cons_append, List.isChain_append] at hc
    refine isChain_of_agree hc.2.1 (fun a ha => ?_) (fun b hb => ?_)
    · rw [hm', List.dropLast_concat] at ha
      have hap : a ≠ p := fun heq => hpm (by simp [← heq, ha])
      simp [unlink_next, hap]
    · have hbq : b ≠ q := fun heq => (List.nodup_cons.mp hnd').1 (heq ▸ hb)
      simp [unlink_prev, hbq]
  have hpq' : (s.unlink p q).Linked p q := by simp [Linked, unlink_next, unlink_prev]
  rw [isRing_cons]
  refine ⟨hnd', ?_⟩
  rw [hm', List.isChain_append] at hold
  rw [← List.cons_append, hm', List.append_assoc, List.isChain_append]
  refine ⟨hold.1, ?_, hold.2.2⟩
  simpa using hpq'

end Writes

end Links

end LinkRing
