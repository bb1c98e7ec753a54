import CxKernel.Spec.LinkedList

/-! The intrusive list refines a sequence. `IsList` relates a list object and the
node links to the sequence of its nodes; each operation has one rule saying which
sequence it leaves and which nodes it may have written. -/

namespace CxKernel.LinkedList

open LinkRing

variable {T : Type}

/-- The list object represents the nodes `xs`, in order from the root. -/
structure IsList (s : Links T) (l : IntrusiveList T) (xs : List T) : Prop where
  root : l.root = xs.head?
  ring : s.IsRing xs

/-- Only nodes of `D` were written. -/
def WritesOnly (D : List T) (s s' : Links T) : Prop :=
  ∀ a ∉ D, s'.next a = s.next a ∧ s'.prev a = s.prev a

theorem IsList.frame {D xs : List T} {s s' : Links T} {l : IntrusiveList T}
    (h : IsList s l xs) (hw : WritesOnly D s s') (hd : ∀ a ∈ xs, a ∉ D) : IsList s' l xs :=
  ⟨h.root, h.ring.of_agree (fun a ha => (hw a (hd a ha)).1) (fun a ha => (hw a (hd a ha)).2)⟩

theorem isList_new (s : Links T) : IsList s IntrusiveList.new [] := ⟨rfl, s.isRing_nil⟩

theorem IsList.empty_iff {s : Links T} {l : IntrusiveList T} {xs : List T} (h : IsList s l xs) :
    empty l = true ↔ xs = [] := by
  rw [empty, h.root, Option.isNone_iff_eq_none, List.head?_eq_none_iff]

theorem IsList.first_eq {s : Links T} {l : IntrusiveList T} {xs : List T} (h : IsList s l xs) :
    first l = xs.head? := h.root

theorem IsList.last_eq {s : Links T} {l : IntrusiveList T} {xs : List T} (h : IsList s l xs) :
    last s l = xs.getLast? := by
  unfold last
  rw [h.root]
  cases xs with
  | nil => rfl
  | cons x t =>
    rw [List.head?_cons, List.getLast?_eq_some_getLast (List.cons_ne_nil x t)]
    exact h.ring.getLast_linked.2

theorem IsList.links_of_mem {s : Links T} {l : IntrusiveList T} {xs : List T} {x : T}
    (h : IsList s l xs) (hx : x ∈ xs) : ∃ p q, s.prev x = some p ∧ s.next x = some q := by
  obtain ⟨p, -, -, hp⟩ := h.ring.exists_prev hx
  obtain ⟨q, -, hq, -⟩ := h.ring.exists_next hx
  exact ⟨p, q, hp, hq⟩

variable [DecidableEq T]

/-! Iteration. Past the first node the iterator carries the flag, so it meets the
end exactly when it is back at the root. -/

/-- The iterator with `pre` behind it and `rest` ahead. -/
def position (pre rest : List T) : Iterator T := ⟨(rest ++ pre).head?, !pre.isEmpty⟩

omit [DecidableEq T] in
theorem IsList.beginIt_eq {s : Links T} {l : IntrusiveList T} {xs : List T} (h : IsList s l xs) :
    beginIt l = position [] xs := by
  simp [beginIt, position, h.root]

omit [DecidableEq T] in
theorem IsList.position_end {s : Links T} {l : IntrusiveList T} {xs : List T}
    (h : IsList s l xs) : position xs [] = endIt l := by
  cases xs <;> simp [endIt, position, h.root]

omit [DecidableEq T] in
theorem IsList.position_step {s : Links T} {l : IntrusiveList T} {pre ys : List T} {y : T}
    (h : IsList s l (pre ++ y :: ys)) :
    position pre (y :: ys) ≠ endIt l ∧ (position pre (y :: ys)).list = some y ∧
      (position pre (y :: ys)).incr s = some (position (pre ++ [y]) ys) := by
  have hring := h.ring
  cases pre with
  | nil =>
    have hnext := hring.next_eq (List.nil_append (y :: ys)).symm
    refine ⟨by simp [position, endIt, h.root], rfl, ?_⟩
    simp [position, Iterator.incr, hnext]
  | cons x pre =>
    have hne : y ≠ x := by
      intro he
      have hnd := hring.1
      rw [List.nodup_append] at hnd
      exact hnd.2.2 x List.mem_cons_self y List.mem_cons_self he.symm
    have hnext := hring.next_eq (show x :: (pre ++ y :: ys) = (x :: pre) ++ y :: ys from rfl)
    refine ⟨by simp [position, endIt, h.root, hne], rfl, ?_⟩
    cases ys <;> simp [position, Iterator.incr, hnext]

theorem IsList.visitFrom_position {s : Links T} {l : IntrusiveList T} {pre ys : List T}
    (h : IsList s l (pre ++ ys)) : visitFrom s l (position pre ys) = some ys := by
  induction ys generalizing pre with
  | nil =>
    rw [List.append_nil] at h
    rw [visitFrom, if_pos h.position_end]
  | cons y ys ih =>
    obtain ⟨hne, hlist, hincr⟩ := h.position_step
    have h' : IsList s l ((pre ++ [y]) ++ ys) := by simpa using h
    have hrest := ih h'
    rw [visitFrom, if_neg hne, hlist, hincr]
    simp only [Option.bind_eq_bind, Option.bind_some, hrest, Option.pure_def]

/-- A range-for terminates and sees exactly the represented nodes. -/
theorem IsList.visit_eq {s : Links T} {l : IntrusiveList T} {xs : List T} (h : IsList s l xs) :
    visit s l = some xs := by
  have h' : IsList s l ([] ++ xs) := h
  rw [visit, h.beginIt_eq]
  exact h'.visitFrom_position

/-- `size` walks exactly as a range-for does. -/
theorem sizeFrom_of_visitFrom {s : Links T} {l : IntrusiveList T} :
    ∀ (xs : List T) (it : Iterator T) (n : ℕ), visitFrom s l it = some xs →
      sizeFrom s l it n = some (n + xs.length) := by
  intro xs
  induction xs with
  | nil =>
    intro it n hv
    rw [visitFrom] at hv
    rw [sizeFrom]
    split_ifs at hv ⊢ with he
    · rfl
    · simp [Option.bind_eq_some_iff] at hv
  | cons x xs ih =>
    intro it n hv
    rw [visitFrom] at hv
    rw [sizeFrom]
    split_ifs at hv ⊢ with he
    · simp at hv
    · simp only [bind, Option.bind_eq_some_iff, pure, Option.some.injEq, List.cons.injEq] at hv
      obtain ⟨a, -, it', hit, rest, hrest, -, rfl⟩ := hv
      rw [hit]
      change sizeFrom s l it' (n + 1) = _
      rw [ih it' (n + 1) hrest, List.length_cons, Nat.add_assoc, Nat.add_comm 1]

theorem IsList.size_eq {s : Links T} {l : IntrusiveList T} {xs : List T} (h : IsList s l xs) :
    size s l = some xs.length := by
  have hs := sizeFrom_of_visitFrom xs (beginIt l) 0 h.visit_eq
  rwa [Nat.zero_add] at hs

/-! One rule for each operation. -/

theorem insertBeforeUnsafe_eq {s : Links T} {p x n : T} (hne : x ≠ n) (hp : s.prev x = some p) :
    insertBeforeUnsafe s (some x) (some n) = some (s.link p n x) := by
  simp [insertBeforeUnsafe, hne, hp, Links.link]

theorem writesOnly_link {s : Links T} {p n x : T} {D : List T} (hp : p ∈ D) (hn : n ∈ D)
    (hx : x ∈ D) : WritesOnly D s (s.link p n x) := by
  intro a ha
  have hap : a ≠ p := fun h => ha (h ▸ hp)
  have han : a ≠ n := fun h => ha (h ▸ hn)
  have hax : a ≠ x := fun h => ha (h ▸ hx)
  simp [Links.link_next, Links.link_prev, hap, han, hax]

/-- Inserting a fresh node before the element `x`, wherever it is in the list. -/
theorem IsList.insertBeforeUnsafe {s : Links T} {l : IntrusiveList T} {x n : T}
    (pre ys : List T) (h : IsList s l (pre ++ x :: ys)) (hn : n ∉ pre ++ x :: ys) :
    ∃ s', LinkedList.insertBeforeUnsafe s (some x) (some n) = some s' ∧
      s'.IsRing (pre ++ n :: x :: ys) ∧ WritesOnly (pre ++ n :: x :: ys) s s' := by
  have hx : x ∈ pre ++ x :: ys := by simp
  obtain ⟨p, hpm, -, hp⟩ := h.ring.exists_prev hx
  have hne : x ≠ n := fun heq => hn (heq ▸ hx)
  have hrot : s.IsRing (x :: (ys ++ pre)) := (s.isRing_rotate pre (x :: ys)).mp h.ring
  have hn' : n ∉ x :: (ys ++ pre) := fun hm => hn (by simp at hm ⊢; tauto)
  have hlink := hrot.link hn' hp
  refine ⟨s.link p n x, insertBeforeUnsafe_eq hne hp, ?_, ?_⟩
  · have he : x :: (ys ++ pre ++ [n]) = (x :: ys) ++ (pre ++ [n]) := by simp
    rw [he, Links.isRing_rotate, List.append_assoc] at hlink
    exact hlink
  · exact writesOnly_link (by simp at hpm ⊢; tauto) (by simp) (by simp)

theorem isList_singleton (s : Links T) (n : T) :
    IsList ((s.setPrev n (some n)).setNext n (some n)) ⟨some n⟩ [n] :=
  ⟨rfl, by simp [Links.isRing_singleton]⟩

theorem writesOnly_singleton (s : Links T) (n : T) :
    WritesOnly [n] s ((s.setPrev n (some n)).setNext n (some n)) := by
  intro a ha
  rw [List.mem_singleton] at ha
  simp [ha]

theorem IsList.pushFront {s : Links T} {l : IntrusiveList T} {xs : List T} {n : T}
    (h : IsList s l xs) (hn : n ∉ xs) :
    ∃ s' l', LinkedList.pushFront s l n = some (s', l') ∧ IsList s' l' (n :: xs) ∧
      WritesOnly (n :: xs) s s' := by
  cases xs with
  | nil =>
    have hroot : l.root = none := h.root
    exact ⟨_, _, by simp only [LinkedList.pushFront, pushFrontUnsafe, hroot],
      isList_singleton s n, writesOnly_singleton s n⟩
  | cons x t =>
    have hroot : l.root = some x := h.root
    obtain ⟨s', hs, hring, hw⟩ := IsList.insertBeforeUnsafe [] t h hn
    refine ⟨s', ⟨some n⟩, ?_, ⟨rfl, hring⟩, hw⟩
    simp only [LinkedList.pushFront, pushFrontUnsafe, hroot, hs, Option.bind_eq_bind,
      Option.bind_some, Option.pure_def]

theorem IsList.pushBack {s : Links T} {l : IntrusiveList T} {xs : List T} {n : T}
    (h : IsList s l xs) (hn : n ∉ xs) :
    ∃ s' l', LinkedList.pushBack s l n = some (s', l') ∧ IsList s' l' (xs ++ [n]) ∧
      WritesOnly (n :: xs) s s' := by
  cases xs with
  | nil =>
    have hroot : l.root = none := h.root
    exact ⟨_, _, by simp only [LinkedList.pushBack, pushBackUnsafe, hroot],
      isList_singleton s n, writesOnly_singleton s n⟩
  | cons x t =>
    have hroot : l.root = some x := h.root
    obtain ⟨s', hs, hring, hw⟩ := IsList.insertBeforeUnsafe [] t h hn
    refine ⟨s', l, ?_, ⟨hroot, (s'.isRing_rotate [n] (x :: t)).mp hring⟩, hw⟩
    simp only [LinkedList.pushBack, pushBackUnsafe, hroot, hs, Option.bind_eq_bind,
      Option.bind_some, Option.pure_def]

theorem IsList.insertBefore {s : Links T} {l : IntrusiveList T} {x n : T} (pre ys : List T)
    (h : IsList s l (pre ++ x :: ys)) (hn : n ∉ pre ++ x :: ys) :
    ∃ s' l', LinkedList.insertBefore s l (some x) (some n) = some (s', l') ∧
      IsList s' l' (pre ++ n :: x :: ys) ∧ WritesOnly (pre ++ n :: x :: ys) s s' := by
  obtain ⟨s', hs, hring, hw⟩ := IsList.insertBeforeUnsafe pre ys h hn
  refine ⟨s', if some x = l.root then ⟨some n⟩ else l, ?_, ⟨?_, hring⟩, hw⟩
  · simp only [LinkedList.insertBefore, hs, Option.bind_eq_bind, Option.bind_some, Option.pure_def]
  · have hroot := h.root
    cases pre with
    | nil => simp [hroot]
    | cons y pre =>
      have hyx : x ≠ y := by
        rintro rfl
        exact (List.nodup_cons.mp h.ring.1).1 (by simp)
      simp [hroot, hyx]

theorem removeUnsafe_eq {s : Links T} {l : IntrusiveList T} {p x q : T} (hp : s.prev x = some p)
    (hq : s.next x = some q) :
    removeUnsafe s l (some x) = some (((s.unlink p q).setPrev x none).setNext x none,
      if l.root = some x then ⟨some q⟩ else l) := by
  simp [removeUnsafe, hp, hq, Links.unlink]

/-- Taking any element out of a list of two or more leaves the ring of the others. -/
theorem IsList.unlink {s : Links T} {l : IntrusiveList T} {x p q : T} (pre ys : List T)
    (h : IsList s l (pre ++ x :: ys)) (hne : pre ++ ys ≠ []) (hp : s.prev x = some p)
    (hq : s.next x = some q) :
    let s' := ((s.unlink p q).setPrev x none).setNext x none
    s'.IsRing (pre ++ ys) ∧ WritesOnly (pre ++ x :: ys) s s' := by
  have hrot : s.IsRing (x :: (ys ++ pre)) := (s.isRing_rotate pre (x :: ys)).mp h.ring
  have hpm : p ∈ pre ++ x :: ys := by
    obtain ⟨p', hm, -, hp'⟩ := h.ring.exists_prev (List.mem_append_right pre List.mem_cons_self)
    exact Option.some.inj (hp.symm.trans hp') ▸ hm
  have hqm : q ∈ pre ++ x :: ys := by
    obtain ⟨q', hm, hq', -⟩ := h.ring.exists_next (List.mem_append_right pre List.mem_cons_self)
    exact Option.some.inj (hq.symm.trans hq') ▸ hm
  have hx : x ∉ pre ++ ys := by
    have hnd := (List.nodup_middle.mp h.ring.1)
    exact (List.nodup_cons.mp hnd).1
  refine ⟨?_, fun a ha => ?_⟩
  · have hring : (s.unlink p q).IsRing (ys ++ pre) := by
      cases hyp : ys ++ pre with
      | nil => simp_all
      | cons z t =>
        rw [hyp] at hrot
        have hzq : z = q := Option.some.inj (hrot.cons_linked.1.symm.trans hq)
        subst hzq
        exact hrot.unlink hp
    refine ((Links.isRing_rotate _ ys pre).mp hring).of_agree (fun a ha => ?_) (fun a ha => ?_)
    · have hax : a ≠ x := fun heq => hx (heq ▸ ha)
      simp [hax]
    · have hax : a ≠ x := fun heq => hx (heq ▸ ha)
      simp [hax]
  · have hax : a ≠ x := fun heq => ha (heq ▸ by simp)
    have hap : a ≠ p := fun heq => ha (heq ▸ hpm)
    have haq : a ≠ q := fun heq => ha (heq ▸ hqm)
    simp [Links.unlink_next, Links.unlink_prev, hax, hap, haq]

theorem IsList.remove {s : Links T} {l : IntrusiveList T} {x : T} (pre ys : List T)
    (h : IsList s l (pre ++ x :: ys)) (hne : pre ++ ys ≠ []) :
    ∃ s' l', LinkedList.remove s l (some x) = some (some x, s', l') ∧
      IsList s' l' (pre ++ ys) ∧ WritesOnly (pre ++ x :: ys) s s' := by
  obtain ⟨p, q, hp, hq⟩ := h.links_of_mem (List.mem_append_right pre List.mem_cons_self)
  obtain ⟨hring, hw⟩ := h.unlink pre ys hne hp hq
  refine ⟨_, if l.root = some x then ⟨some q⟩ else l, ?_, ⟨?_, hring⟩, hw⟩
  · simp only [LinkedList.remove, removeUnsafe_eq hp hq, Option.bind_eq_bind, Option.bind_some,
      Option.pure_def]
  · have hroot := h.root
    cases pre with
    | nil =>
      cases ys with
      | nil => exact absurd rfl hne
      | cons y ys =>
        have hqy : y = q := Option.some.inj (h.ring.cons_linked.1.symm.trans hq)
        simp_all
    | cons y pre =>
      have hyx : y ≠ x := by
        rintro rfl
        exact (List.nodup_cons.mp h.ring.1).1 (by simp)
      simp_all

/-- The sole node is unlinked from itself and remains the root. -/
theorem remove_singleton {s : Links T} {l : IntrusiveList T} {x : T} (h : IsList s l [x]) :
    ∃ s', LinkedList.remove s l (some x) = some (some x, s', ⟨some x⟩) ∧ WritesOnly [x] s s' := by
  obtain ⟨hn, hp⟩ := (s.isRing_singleton x).mp h.ring
  have hroot : l.root = some x := h.root
  refine ⟨((s.unlink x x).setPrev x none).setNext x none, ?_, fun a ha => ?_⟩
  · simp [LinkedList.remove, removeUnsafe_eq hp hn, hroot]
  · rw [List.mem_singleton] at ha
    simp [Links.unlink_next, Links.unlink_prev, ha]

theorem IsList.popFront {s : Links T} {l : IntrusiveList T} {xs : List T} (h : IsList s l xs) :
    ∃ s' l', LinkedList.popFront s l = some (xs.head?, s', l') ∧ IsList s' l' xs.tail ∧
      WritesOnly xs s s' := by
  have hroot := h.root
  cases xs with
  | nil =>
    refine ⟨s, l, ?_, h, fun _ _ => ⟨rfl, rfl⟩⟩
    simp [LinkedList.popFront, popFrontUnsafe, hroot]
  | cons x t =>
    cases t with
    | nil =>
      have hn := ((s.isRing_singleton x).mp h.ring).1
      refine ⟨s, ⟨none⟩, ?_, ⟨rfl, s.isRing_nil⟩, fun _ _ => ⟨rfl, rfl⟩⟩
      simp [LinkedList.popFront, popFrontUnsafe, hroot, hn]
    | cons y t =>
      obtain ⟨p, q, hp, hq⟩ := h.links_of_mem List.mem_cons_self
      obtain ⟨hring, hw⟩ := h.unlink [] (y :: t) (by simp) hp hq
      have hqy : q = y := Option.some.inj (hq.symm.trans h.ring.cons_linked.1)
      have hyx : y ≠ x := fun heq => (List.nodup_cons.mp h.ring.1).1 (heq ▸ List.mem_cons_self)
      subst hqy
      refine ⟨_, ⟨some q⟩, ?_, ⟨rfl, hring⟩, hw⟩
      simp [LinkedList.popFront, popFrontUnsafe, hroot, hq, hyx, removeUnsafe_eq hp hq]

theorem IsList.popBack {s : Links T} {l : IntrusiveList T} {xs : List T} (h : IsList s l xs)
    (hne : xs ≠ []) :
    ∃ s' l', LinkedList.popBack s l = some (xs.getLast?, s', l') ∧ IsList s' l' xs.dropLast ∧
      WritesOnly xs s s' := by
  obtain ⟨pre, z, rfl⟩ := (List.eq_nil_or_concat' xs).resolve_left hne
  rw [List.getLast?_concat, List.dropLast_concat]
  have hroot := h.root
  cases pre with
  | nil =>
    have hp := ((s.isRing_singleton z).mp h.ring).2
    refine ⟨s, ⟨none⟩, ?_, ⟨rfl, s.isRing_nil⟩, fun _ _ => ⟨rfl, rfl⟩⟩
    simp [LinkedList.popBack, popBackUnsafe, hroot, hp]
  | cons x pre =>
    have hlast : s.prev x = some z := by simpa using h.ring.getLast_linked.2
    have hxz : x ≠ z := by
      rintro rfl
      exact (List.nodup_cons.mp h.ring.1).1 (by simp)
    obtain ⟨p, q, hp, hq⟩ := h.links_of_mem (List.mem_append_right (x :: pre) List.mem_cons_self)
    obtain ⟨hring, hw⟩ := h.unlink (x :: pre) [] (by simp) hp hq
    rw [List.append_nil] at hring
    refine ⟨_, l, ?_, ⟨hroot, hring⟩, hw⟩
    simp [LinkedList.popBack, popBackUnsafe, hroot, hlast, hxz, hxz.symm, removeUnsafe_eq hp hq]

/-- An empty list has no node whose `prev` could be read. -/
theorem popBack_nil {s : Links T} {l : IntrusiveList T} (h : IsList s l []) :
    LinkedList.popBack s l = none := by
  have hroot : l.root = none := h.root
  simp [LinkedList.popBack, popBackUnsafe, hroot]

/-! Taking a node out of a list, in the three ways the class offers. -/

inductive Removal (T : Type) where
  | remove (node : T)
  | popFront
  | popBack

def Removal.run (s : Links T) (l : IntrusiveList T) :
    Removal T → Option (Option T × Links T × IntrusiveList T)
  | .remove node => LinkedList.remove s l (some node)
  | .popFront => LinkedList.popFront s l
  | .popBack => LinkedList.popBack s l

/-- The pointer to hand back, and the nodes to leave. -/
def Removal.result (xs : List T) : Removal T → Option T × List T
  | .remove node => (some node, xs.erase node)
  | .popFront => (xs.head?, xs.tail)
  | .popBack => (xs.getLast?, xs.dropLast)

/-- Only a node of the list is removed from it. -/
def Removal.Applies (xs : List T) : Removal T → Prop
  | .remove node => node ∈ xs
  | _ => True

/-- The call returns the right pointer and a well-formed list of the right nodes,
which says it is empty exactly when it is. -/
def Removal.Clean (s : Links T) (l : IntrusiveList T) (xs : List T) (r : Removal T) : Prop :=
  ∃ s' l', r.run s l = some ((r.result xs).1, s', l') ∧ IsList s' l' (r.result xs).2 ∧
    (empty l' = true ↔ (r.result xs).2 = [])

/-- Where each way is sound: `remove` forgets the sole node, and `popBack` reads
through the root of an empty list. -/
def Removal.Safe (xs : List T) : Removal T → Prop
  | .remove _ => 2 ≤ xs.length
  | .popFront => True
  | .popBack => xs ≠ []

theorem erase_middle {x : T} {pre ys : List T} (hnd : (pre ++ x :: ys).Nodup) :
    (pre ++ x :: ys).erase x = pre ++ ys := by
  have hx : x ∉ pre := by
    have hd := (List.nodup_cons.mp (List.nodup_middle.mp hnd)).1
    exact fun hm => hd (List.mem_append_left _ hm)
  rw [List.erase_append_right _ hx, List.erase_cons_head]

theorem not_clean_remove_singleton {s : Links T} {l : IntrusiveList T} {x : T}
    (h : IsList s l [x]) : ¬ (Removal.remove x).Clean s l [x] := by
  rintro ⟨s', l', hs, hl, -⟩
  obtain ⟨s₁, hs₁, -⟩ := remove_singleton h
  rw [Removal.run, hs₁] at hs
  simp only [Option.some.injEq, Prod.mk.injEq] at hs
  obtain ⟨-, -, rfl⟩ := hs
  have hroot := hl.root
  simp [Removal.result] at hroot

theorem not_clean_popBack_nil {s : Links T} {l : IntrusiveList T} (h : IsList s l []) :
    ¬ (Removal.popBack : Removal T).Clean s l [] := by
  rintro ⟨s', l', hs, -⟩
  rw [Removal.run, popBack_nil h] at hs
  cases hs

/-- On every well-formed list, taking a node out is clean exactly where it is safe. -/
theorem removal_clean_iff {s : Links T} {l : IntrusiveList T} {xs : List T} (h : IsList s l xs)
    (r : Removal T) (hr : r.Applies xs) : r.Clean s l xs ↔ r.Safe xs := by
  cases r with
  | remove x =>
    obtain ⟨pre, ys, rfl⟩ := List.append_of_mem hr
    refine ⟨?_, ?_⟩
    · intro hc
      by_contra hlen
      have hnil : pre = [] ∧ ys = [] := by
        simp only [Removal.Safe, List.length_append, List.length_cons] at hlen
        exact ⟨List.length_eq_zero_iff.mp (by omega), List.length_eq_zero_iff.mp (by omega)⟩
      obtain ⟨rfl, rfl⟩ := hnil
      exact not_clean_remove_singleton h hc
    · intro hlen
      have hne : pre ++ ys ≠ [] := by
        intro hnil
        obtain ⟨rfl, rfl⟩ := List.append_eq_nil_iff.mp hnil
        simp [Removal.Safe] at hlen
      obtain ⟨s', l', hs, hl, -⟩ := h.remove pre ys hne
      rw [← erase_middle h.ring.1] at hl
      exact ⟨s', l', hs, hl, hl.empty_iff⟩
  | popFront =>
    obtain ⟨s', l', hs, hl, -⟩ := h.popFront
    exact ⟨fun _ => trivial, fun _ => ⟨s', l', hs, hl, hl.empty_iff⟩⟩
  | popBack =>
    refine ⟨?_, ?_⟩
    · rintro hc rfl
      exact not_clean_popBack_nil h hc
    · intro hne
      obtain ⟨s', l', hs, hl, -⟩ := h.popBack hne
      exact ⟨s', l', hs, hl, hl.empty_iff⟩

/-- The links of the one-element list of node 0. -/
def soleLinks : Links ℕ := ⟨fun _ => some 0, fun _ => some 0⟩

theorem isList_sole : IsList soleLinks ⟨some 0⟩ [0] :=
  ⟨rfl, (soleLinks.isRing_singleton 0).mpr ⟨rfl, rfl⟩⟩

/-- `remove` of a middle node, at a list of three. -/
theorem removal_clean_iff_three :
    let s : Links ℕ := ⟨fun a => some ((a + 1) % 3), fun a => some ((a + 2) % 3)⟩
    (Removal.remove 1).Clean s ⟨some 0⟩ [0, 1, 2] ↔ (Removal.remove 1).Safe [0, 1, 2] :=
  removal_clean_iff ⟨rfl, by simp [Links.isRing_cons, Links.Linked]⟩ (.remove 1)
    (show 1 ∈ [0, 1, 2] by decide)

/-- Removing the sole node leaves a root that dangles, and the back of an empty
list cannot be popped. -/
theorem removal_dangles :
    (IsList soleLinks ⟨some 0⟩ [0] ∧ ¬ (Removal.remove 0).Clean soleLinks ⟨some 0⟩ [0]) ∧
      (IsList soleLinks ⟨none⟩ [] ∧ ¬ Removal.popBack.Clean soleLinks ⟨none⟩ []) :=
  ⟨⟨isList_sole, not_clean_remove_singleton isList_sole⟩,
    isList_new _, not_clean_popBack_nil (isList_new _)⟩

end CxKernel.LinkedList
