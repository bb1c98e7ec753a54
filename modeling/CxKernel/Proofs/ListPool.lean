import CxKernel.Proofs.LinkedList
import CxKernel.Spec.Sequences

/-! Many lists over one pool of nodes. The abstract side is one sequence for each
list; every call of a client simulates the matching change of the sequences, so a
whole run does. -/

namespace CxKernel.LinkedList

open LinkRing

variable {ι T : Type} [DecidableEq ι] [DecidableEq T]

omit [DecidableEq ι] in
theorem insertSeq_append {x n : T} {pre ys : List T} (hx : x ∉ pre) :
    insertSeq x n (pre ++ x :: ys) = pre ++ n :: x :: ys := by
  induction pre with
  | nil => simp [insertSeq]
  | cons a pre ih =>
    rw [List.mem_cons, not_or] at hx
    simp [insertSeq, Ne.symm hx.1, ih hx.2]

omit [DecidableEq ι] in
theorem insertSeq_perm {x n : T} {xs : List T} (hx : x ∈ xs) :
    (insertSeq x n xs).Perm (n :: xs) := by
  obtain ⟨pre, ys, he, hpre⟩ := List.eq_append_cons_of_mem hx
  rw [he, insertSeq_append hpre]
  exact List.perm_middle

omit [DecidableEq ι] in
theorem mem_insertSeq {x n y : T} {xs : List T} (hy : y ∈ insertSeq x n xs) :
    y = n ∨ y ∈ xs := by
  induction xs with
  | nil => exact absurd hy List.not_mem_nil
  | cons a xs ih =>
    rw [insertSeq] at hy
    split_ifs at hy
    · exact List.mem_cons.mp hy
    · rcases List.mem_cons.mp hy with rfl | hy
      · exact Or.inr List.mem_cons_self
      · exact (ih hy).imp_right (List.mem_cons_of_mem _)

/-! The pool represents the sequences. -/

structure Represents (p : Pool ι T) (σ : ι → List T) : Prop where
  lists : ∀ i, IsList p.links (p.lists i) (σ i)
  disjoint : ∀ i j a, a ∈ σ i → a ∈ σ j → i = j

/-- Freshly constructed lists, over nodes with any links. -/
def Pool.new (links : Links T) : Pool ι T := ⟨links, fun _ => .new⟩

omit [DecidableEq ι] [DecidableEq T] in
theorem represents_new (links : Links T) :
    Represents (Pool.new links : Pool ι T) (fun _ => []) :=
  ⟨fun _ => isList_new links, fun _ _ _ ha => absurd ha List.not_mem_nil⟩

/-- Lists of one node each, or none, each node linked to itself. -/
def Pool.lone (f : ι → Option T) : Pool ι T := ⟨⟨some, some⟩, fun i => ⟨f i⟩⟩

omit [DecidableEq ι] [DecidableEq T] in
theorem represents_lone {f : ι → Option T} (hf : ∀ i j a, f i = some a → f j = some a → i = j) :
    Represents (Pool.lone f) fun i => (f i).toList := by
  refine ⟨fun i => ?_, fun i j a hi hj => hf i j a ?_ ?_⟩
  · unfold Pool.lone
    cases hfi : f i with
    | none => exact ⟨hfi, Links.isRing_nil _⟩
    | some a => exact ⟨hfi, (Links.isRing_singleton _ a).mpr ⟨rfl, rfl⟩⟩
  · exact Option.mem_toList.mp hi
  · exact Option.mem_toList.mp hj

omit [DecidableEq T] in
/-- A call that writes only nodes no other list holds changes one sequence. -/
theorem Represents.set {p : Pool ι T} {σ : ι → List T} (h : Represents p σ) {i : ι}
    {s : Links T} {l : IntrusiveList T} {D ys : List T} (hl : IsList s l ys)
    (hw : WritesOnly D p.links s) (hsub : ∀ a ∈ ys, a ∈ D)
    (hD : ∀ j ≠ i, ∀ a ∈ σ j, a ∉ D) : Represents (p.set i (s, l)) (Function.update σ i ys) := by
  refine ⟨fun j => ?_, fun j k a hj hk => ?_⟩
  · by_cases hji : j = i
    · subst hji
      simpa [Pool.set] using hl
    · simpa [Pool.set, hji] using (h.lists j).frame hw (hD j hji)
  · by_cases hji : j = i <;> by_cases hki : k = i
    · rw [hji, hki]
    · subst hji
      rw [Function.update_self] at hj
      rw [Function.update_of_ne hki] at hk
      exact absurd (hsub a hj) (hD k hki a hk)
    · subst hki
      rw [Function.update_of_ne hji] at hj
      rw [Function.update_self] at hk
      exact absurd (hsub a hk) (hD j hji a hj)
    · rw [Function.update_of_ne hji] at hj
      rw [Function.update_of_ne hki] at hk
      exact h.disjoint j k a hj hk

omit [DecidableEq ι] [DecidableEq T] in
theorem Represents.other {p : Pool ι T} {σ : ι → List T} (h : Represents p σ) (i : ι) :
    ∀ j ≠ i, ∀ a ∈ σ j, a ∉ σ i :=
  fun j hji a haj hai => hji (h.disjoint j i a haj hai)

omit [DecidableEq ι] [DecidableEq T] in
theorem Represents.other_fresh {p : Pool ι T} {σ : ι → List T} (h : Represents p σ) (i : ι) {n : T}
    (hn : ∀ j, n ∉ σ j) : ∀ j ≠ i, ∀ a ∈ σ j, a ∉ n :: σ i := by
  intro j hji a haj ha
  rcases List.mem_cons.mp ha with rfl | hai
  · exact hn j haj
  · exact h.other i j hji a haj hai

theorem Represents.pushFront {p : Pool ι T} {σ : ι → List T} (h : Represents p σ) (i : ι) {n : T}
    (hn : ∀ j, n ∉ σ j) :
    ∃ p', p.pushFront i n = some p' ∧ Represents p' (Function.update σ i (n :: σ i)) := by
  obtain ⟨s, l, hs, hl, hw⟩ := (h.lists i).pushFront (hn i)
  exact ⟨p.set i (s, l), by simp [Pool.pushFront, hs],
    h.set hl hw (fun _ ha => ha) (h.other_fresh i hn)⟩

theorem Represents.pushBack {p : Pool ι T} {σ : ι → List T} (h : Represents p σ) (i : ι) {n : T}
    (hn : ∀ j, n ∉ σ j) :
    ∃ p', p.pushBack i n = some p' ∧ Represents p' (Function.update σ i (σ i ++ [n])) := by
  obtain ⟨s, l, hs, hl, hw⟩ := (h.lists i).pushBack (hn i)
  exact ⟨p.set i (s, l), by simp [Pool.pushBack, hs],
    h.set hl hw (fun a ha => by simp at ha ⊢; tauto) (h.other_fresh i hn)⟩

/-- One list alone, with the node in no matter which others. -/
theorem Pool.pushBack_isList {p : Pool ι T} {i : ι} {xs : List T} {n : T}
    (h : IsList p.links (p.lists i) xs) (hn : n ∉ xs) :
    ∃ p', p.pushBack i n = some p' ∧ IsList p'.links (p'.lists i) (xs ++ [n]) ∧
      ∀ j ≠ i, p'.lists j = p.lists j := by
  obtain ⟨s, l, hs, hl, -⟩ := h.pushBack hn
  refine ⟨p.set i (s, l), by simp [Pool.pushBack, hs], by simpa [Pool.set] using hl, ?_⟩
  intro j hji
  simp [Pool.set, hji]

theorem Represents.insertBefore {p : Pool ι T} {σ : ι → List T} (h : Represents p σ) (i : ι)
    {x n : T} (hx : x ∈ σ i) (hn : ∀ j, n ∉ σ j) :
    ∃ p', p.insertBefore i x n = some p' ∧
      Represents p' (Function.update σ i (insertSeq x n (σ i))) := by
  obtain ⟨pre, ys, he, hpre⟩ := List.eq_append_cons_of_mem hx
  have hl := h.lists i
  have hni := hn i
  have hother := h.other_fresh i hn
  rw [he] at hl hni hother
  obtain ⟨s, l, hs, hl', hw⟩ := hl.insertBefore pre ys hni
  refine ⟨p.set i (s, l), by simp [Pool.insertBefore, hs], ?_⟩
  rw [he, insertSeq_append hpre]
  exact h.set hl' hw (fun _ ha => ha) fun j hji a haj ha =>
    hother j hji a haj (by simp at ha ⊢; tauto)

theorem Represents.popFront {p : Pool ι T} {σ : ι → List T} (h : Represents p σ) (i : ι) :
    ∃ p', p.popFront i = some ((σ i).head?, p') ∧
      Represents p' (Function.update σ i (σ i).tail) := by
  obtain ⟨s, l, hs, hl, hw⟩ := (h.lists i).popFront
  exact ⟨p.set i (s, l), by simp [Pool.popFront, hs],
    h.set hl hw (fun _ ha => List.mem_of_mem_tail ha) (h.other i)⟩

theorem Represents.popBack {p : Pool ι T} {σ : ι → List T} (h : Represents p σ) (i : ι)
    (hne : σ i ≠ []) :
    ∃ p', p.popBack i = some ((σ i).getLast?, p') ∧
      Represents p' (Function.update σ i (σ i).dropLast) := by
  obtain ⟨s, l, hs, hl, hw⟩ := (h.lists i).popBack hne
  exact ⟨p.set i (s, l), by simp [Pool.popBack, hs],
    h.set hl hw (fun _ ha => List.dropLast_subset _ ha) (h.other i)⟩

/-- The first node, once popped, is on no list. -/
theorem Represents.popFront_cons {p : Pool ι T} {σ : ι → List T} (h : Represents p σ) {i : ι}
    {n : T} {rest : List T} (hi : σ i = n :: rest) :
    ∃ p', p.popFront i = some (some n, p') ∧ Represents p' (Function.update σ i rest) ∧
      ∀ k, n ∉ Function.update σ i rest k := by
  obtain ⟨p', hpop, hrep⟩ := h.popFront i
  rw [hi, List.head?_cons] at hpop
  rw [hi, List.tail_cons] at hrep
  have hnd : (n :: rest).Nodup := hi ▸ (h.lists i).ring.1
  refine ⟨p', hpop, hrep, fun k hk => ?_⟩
  by_cases hki : k = i
  · rw [hki, Function.update_self] at hk
    exact (List.nodup_cons.mp hnd).1 hk
  · rw [Function.update_of_ne hki] at hk
    exact hki (h.disjoint k i n hk (hi ▸ List.mem_cons_self))

omit [DecidableEq ι] [DecidableEq T] in
theorem Represents.ne_nil {p : Pool ι T} {σ : ι → List T} (h : Represents p σ) {i : ι}
    (hne : empty (p.lists i) = false) : σ i ≠ [] := by
  intro hnil
  rw [(h.lists i).empty_iff.mpr hnil] at hne
  cases hne

/-- A pop takes one node off. -/
theorem Represents.popFront_some {p : Pool ι T} {σ : ι → List T} (h : Represents p σ) {i : ι}
    (hne : empty (p.lists i) = false) :
    ∃ n ys p', p.popFront i = some (some n, p') ∧ Represents p' (Function.update σ i ys) ∧
      (σ i).Perm (n :: ys) := by
  obtain ⟨n, rest, hi⟩ := List.exists_cons_of_ne_nil (h.ne_nil hne)
  obtain ⟨p', hpop, hrep, -⟩ := h.popFront_cons hi
  exact ⟨n, rest, p', hpop, hrep, hi ▸ List.Perm.refl _⟩

theorem Represents.popBack_some {p : Pool ι T} {σ : ι → List T} (h : Represents p σ) {i : ι}
    (hne : empty (p.lists i) = false) :
    ∃ n ys p', p.popBack i = some (some n, p') ∧ Represents p' (Function.update σ i ys) ∧
      (σ i).Perm (n :: ys) := by
  have hnil := h.ne_nil hne
  obtain ⟨p', hpop, hrep⟩ := h.popBack i hnil
  rw [List.getLast?_eq_some_getLast hnil] at hpop
  refine ⟨_, _, p', hpop, hrep, ?_⟩
  nth_rewrite 1 [← List.dropLast_append_getLast hnil]
  exact List.perm_append_singleton _ _

/-- The first node of one list goes to the end of another. -/
theorem Represents.popPush {p : Pool ι T} {σ : ι → List T} (h : Represents p σ) {i j : ι}
    (hij : i ≠ j) {n : T} {rest : List T} (hi : σ i = n :: rest) :
    ∃ p₁ p₂, p.popFront i = some (some n, p₁) ∧ p₁.pushBack j n = some p₂ ∧
      Represents p₂ (Function.update (Function.update σ i rest) j (σ j ++ [n])) := by
  obtain ⟨p₁, hpop, hrep₁, hnew⟩ := h.popFront_cons hi
  obtain ⟨p₂, hpush, hrep₂⟩ := hrep₁.pushBack j hnew
  rw [Function.update_of_ne (Ne.symm hij)] at hrep₂
  exact ⟨p₁, p₂, hpop, hpush, hrep₂⟩

/-- The first node of one list goes to the front of another. -/
theorem Represents.popPushFront {p : Pool ι T} {σ : ι → List T} (h : Represents p σ) {i j : ι}
    (hij : i ≠ j) {n : T} {rest : List T} (hi : σ i = n :: rest) :
    ∃ p₁ p₂, p.popFront i = some (some n, p₁) ∧ p₁.pushFront j n = some p₂ ∧
      Represents p₂ (Function.update (Function.update σ i rest) j (n :: σ j)) := by
  obtain ⟨p₁, hpop, hrep₁, hnew⟩ := h.popFront_cons hi
  obtain ⟨p₂, hpush, hrep₂⟩ := hrep₁.pushFront j hnew
  rw [Function.update_of_ne (Ne.symm hij)] at hrep₂
  exact ⟨p₁, p₂, hpop, hpush, hrep₂⟩

/-- Any node of a list of two or more can be taken out. -/
theorem Represents.remove {p : Pool ι T} {σ : ι → List T} (h : Represents p σ) (i : ι) {x : T}
    (hx : x ∈ σ i) (hlen : 2 ≤ (σ i).length) :
    ∃ p', p.remove i x = some p' ∧ Represents p' (Function.update σ i ((σ i).erase x)) := by
  obtain ⟨pre, ys, he⟩ := List.append_of_mem hx
  have hl := h.lists i
  have hother := h.other i
  rw [he] at hl hlen hother ⊢
  have hne : pre ++ ys ≠ [] := by
    intro hnil
    obtain ⟨rfl, rfl⟩ := List.append_eq_nil_iff.mp hnil
    simp at hlen
  obtain ⟨s, l, hs, hl', hw⟩ := hl.remove pre ys hne
  refine ⟨p.set i (s, l), by simp [Pool.remove, hs], ?_⟩
  rw [erase_middle hl.ring.1]
  exact h.set hl' hw (fun a ha => by simp at ha ⊢; tauto) hother

/-- The sole node of a list stays its root when it is taken out; the other lists do not
notice. -/
theorem Represents.remove_sole {p : Pool ι T} {σ : ι → List T} (h : Represents p σ) {i : ι}
    {x : T} (hx : σ i = [x]) :
    ∃ p', p.remove i x = some p' ∧ p'.lists i = ⟨some x⟩ ∧
      ∀ j ≠ i, IsList p'.links (p'.lists j) (σ j) := by
  have hl := h.lists i
  rw [hx] at hl
  obtain ⟨s, hs, hw⟩ := remove_singleton hl
  refine ⟨p.set i (s, ⟨some x⟩), by simp [Pool.remove, hs], by simp [Pool.set], fun j hji => ?_⟩
  have hj := (h.lists j).frame hw (hx ▸ h.other i j hji)
  simpa [Pool.set, hji] using hj

/-- A node that was taken out has no links, and cannot be taken out again. -/
theorem Pool.remove_unlinks {p p' : Pool ι T} {i : ι} {x : T} (h : p.remove i x = some p') :
    p'.links.prev x = none ∧ ∀ j ≠ i, p'.lists j = p.lists j := by
  simp only [Pool.remove, LinkedList.remove, removeUnsafe, Option.bind_eq_bind,
    Option.bind_eq_some_iff, Option.pure_def, Option.some.injEq] at h
  obtain ⟨-, ⟨-, ⟨a, -, b, -, rfl⟩, rfl⟩, rfl⟩ := h
  exact ⟨by simp [Pool.set], fun j hji => by simp [Pool.set, hji]⟩

theorem Pool.remove_eq_none {p : Pool ι T} {x : T} (hx : p.links.prev x = none) (i : ι) :
    p.remove i x = none := by
  simp [Pool.remove, LinkedList.remove, removeUnsafe, hx]

/-- A node out of a list of two or more goes to the end of another list. -/
theorem Represents.removePush {p : Pool ι T} {σ : ι → List T} (h : Represents p σ) {i j : ι}
    (hij : i ≠ j) {x : T} (hx : x ∈ σ i) (hlen : 2 ≤ (σ i).length) :
    ∃ p₁ p₂, p.remove i x = some p₁ ∧ p₁.pushBack j x = some p₂ ∧
      Represents p₂ (Function.update (Function.update σ i ((σ i).erase x)) j (σ j ++ [x])) := by
  obtain ⟨p₁, hremove, hrep₁⟩ := h.remove i hx hlen
  have hnew : ∀ k, x ∉ Function.update σ i ((σ i).erase x) k := by
    intro k hk
    by_cases hki : k = i
    · rw [hki, Function.update_self] at hk
      exact (h.lists i).ring.1.not_mem_erase hk
    · rw [Function.update_of_ne hki] at hk
      exact hki (h.disjoint k i x hk hx)
  obtain ⟨p₂, hpush, hrep₂⟩ := hrep₁.pushBack j hnew
  rw [Function.update_of_ne (Ne.symm hij)] at hrep₂
  exact ⟨p₁, p₂, hremove, hpush, hrep₂⟩

/-- A sole node goes to the end of another list and stays the root of its own. -/
theorem Represents.removePush_sole {p : Pool ι T} {σ : ι → List T} (h : Represents p σ) {i j : ι}
    (hij : i ≠ j) {x : T} (hx : x ∈ σ i) (hlen : ¬ 2 ≤ (σ i).length) :
    ∃ p₁ p₂, p.remove i x = some p₁ ∧ p₁.pushBack j x = some p₂ ∧
      IsList p₂.links (p₂.lists j) (σ j ++ [x]) ∧ p₂.lists i = ⟨some x⟩ := by
  have hsole : σ i = [x] := by
    cases hσ : σ i with
    | nil => simp [hσ] at hx
    | cons y t => cases t <;> simp_all
  obtain ⟨p₁, hremove, hroot, hothers⟩ := h.remove_sole hsole
  have hnew : x ∉ σ j := fun hj => hij (h.disjoint i j x hx hj)
  obtain ⟨p₂, hpush, hl, hsame⟩ := Pool.pushBack_isList (hothers j (Ne.symm hij)) hnew
  exact ⟨p₁, p₂, hremove, hpush, hl, (hsame i hij).trans hroot⟩

omit [DecidableEq T] in
/-- A list object made anew forgets the nodes it had, and leaves them linked. -/
theorem Represents.reset {p : Pool ι T} {σ : ι → List T} (h : Represents p σ) (i : ι) :
    Represents (p.set i (p.links, .new)) (Function.update σ i []) :=
  h.set (D := []) (isList_new _) (fun _ _ => ⟨rfl, rfl⟩) (fun _ ha => ha)
    fun _ _ _ _ => List.not_mem_nil

omit [DecidableEq ι] in
/-- A pool represents one family of sequences at most. -/
theorem Represents.unique {p : Pool ι T} {σ σ' : ι → List T} (h : Represents p σ)
    (h' : Represents p σ') : σ = σ' := by
  funext i
  exact Option.some.inj ((h.lists i).visit_eq.symm.trans (h'.lists i).visit_eq)

/-! Membership in some sequence, after one or two of them change. -/

section OnSome

variable {σ : ι → List T} {x : T}

def OnSome (σ : ι → List T) (x : T) : Prop := ∃ l, x ∈ σ l

omit [DecidableEq T] in
theorem onSome_update {i : ι} {xs : List T} :
    OnSome (Function.update σ i xs) x ↔ x ∈ xs ∨ ∃ j, j ≠ i ∧ x ∈ σ j := by
  unfold OnSome
  refine ⟨?_, ?_⟩
  · rintro ⟨j, hj⟩
    by_cases hji : j = i
    · rw [hji, Function.update_self] at hj
      exact Or.inl hj
    · rw [Function.update_of_ne hji] at hj
      exact Or.inr ⟨j, hji, hj⟩
  · intro hor
    rcases hor with hxs | ⟨j, hji, hj⟩
    · exact ⟨i, by rwa [Function.update_self]⟩
    · exact ⟨j, by rwa [Function.update_of_ne hji]⟩

omit [DecidableEq T] in
theorem onSome_split (i : ι) :
    OnSome σ x ↔ x ∈ σ i ∨ ∃ j, j ≠ i ∧ x ∈ σ j := by
  rw [← onSome_update, Function.update_eq_self]

omit [DecidableEq T] in
theorem onSome_update₂ {i k : ι} (hik : i ≠ k) {xs ys : List T} :
    OnSome (Function.update (Function.update σ i xs) k ys) x ↔
      x ∈ xs ∨ x ∈ ys ∨ ∃ j, j ≠ i ∧ j ≠ k ∧ x ∈ σ j := by
  rw [onSome_update]
  refine ⟨?_, ?_⟩
  · intro hor
    rcases hor with hy | ⟨j, hjk, hj⟩
    · exact Or.inr (Or.inl hy)
    · by_cases hji : j = i
      · rw [hji, Function.update_self] at hj
        exact Or.inl hj
      · rw [Function.update_of_ne hji] at hj
        exact Or.inr (Or.inr ⟨j, hji, hjk, hj⟩)
  · intro hor
    rcases hor with hx | hy | ⟨j, hji, hjk, hj⟩
    · exact Or.inr ⟨i, hik, by rwa [Function.update_self]⟩
    · exact Or.inl hy
    · exact Or.inr ⟨j, hjk, by rwa [Function.update_of_ne hji]⟩

omit [DecidableEq T] in
theorem onSome_split₂ {i k : ι} (hik : i ≠ k) :
    OnSome σ x ↔ x ∈ σ i ∨ x ∈ σ k ∨ ∃ j, j ≠ i ∧ j ≠ k ∧ x ∈ σ j := by
  rw [← onSome_update₂ hik, Function.update_eq_self, Function.update_eq_self]

end OnSome

/-- One legal call does to the pool what it does to the sequences. -/
theorem Represents.step {p : Pool ι T} {σ : ι → List T} (h : Represents p σ) {op : Op ι T}
    (hop : Legal σ op) :
    ∃ p', p.step op = some ((seqStep σ op).1, p') ∧ Represents p' (seqStep σ op).2 := by
  cases op with
  | pushFront i n =>
    obtain ⟨p', hp, h'⟩ := h.pushFront i hop
    exact ⟨p', by simp [Pool.step, seqStep, hp], h'⟩
  | pushBack i n =>
    obtain ⟨p', hp, h'⟩ := h.pushBack i hop
    exact ⟨p', by simp [Pool.step, seqStep, hp], h'⟩
  | insertBefore i x n =>
    obtain ⟨p', hp, h'⟩ := h.insertBefore i hop.1 hop.2
    exact ⟨p', by simp [Pool.step, seqStep, hp], h'⟩
  | popFront i => exact h.popFront i
  | popBack i => exact h.popBack i hop

theorem Represents.run {p : Pool ι T} {σ : ι → List T} (h : Represents p σ) {ops : List (Op ι T)}
    (hops : LegalRun σ ops) :
    ∃ p', p.run ops = some ((seqRun σ ops).1, p') ∧ Represents p' (seqRun σ ops).2 := by
  induction ops generalizing p σ with
  | nil => exact ⟨p, rfl, h⟩
  | cons op ops ih =>
    obtain ⟨p₁, hp₁, h₁⟩ := h.step hops.1
    obtain ⟨p₂, hp₂, h₂⟩ := ih h₁ hops.2
    exact ⟨p₂, by simp [Pool.run, seqRun, hp₁, hp₂], h₂⟩

/-- Everything a client can see of the lists is what the sequences say. -/
structure Observes (p : Pool ι T) (σ : ι → List T) : Prop where
  ring : ∀ i, p.links.IsRing (σ i)
  next : ∀ i, ∀ x ∈ σ i, ∃ y ∈ σ i, p.links.next x = some y ∧ p.links.prev y = some x
  prev : ∀ i, ∀ x ∈ σ i, ∃ y ∈ σ i, p.links.prev x = some y ∧ p.links.next y = some x
  visit : ∀ i, visit p.links (p.lists i) = some (σ i)
  size : ∀ i, size p.links (p.lists i) = some (σ i).length
  first : ∀ i, first (p.lists i) = (σ i).head?
  last : ∀ i, last p.links (p.lists i) = (σ i).getLast?
  empty : ∀ i, empty (p.lists i) = true ↔ σ i = []
  disjoint : ∀ i j a, a ∈ σ i → a ∈ σ j → i = j

omit [DecidableEq ι] in
theorem Represents.observes {p : Pool ι T} {σ : ι → List T} (h : Represents p σ) :
    Observes p σ where
  ring i := (h.lists i).ring
  next i x hx := (h.lists i).ring.exists_next hx
  prev i x hx := by
    obtain ⟨y, hy, hn, hp⟩ := (h.lists i).ring.exists_prev hx
    exact ⟨y, hy, hp, hn⟩
  visit i := (h.lists i).visit_eq
  size i := (h.lists i).size_eq
  first i := (h.lists i).first_eq
  last i := (h.lists i).last_eq
  empty i := (h.lists i).empty_iff
  disjoint := h.disjoint

/-- Every legal run goes through without a null dereference, returns what the
sequences return, and leaves lists that show exactly those sequences. -/
theorem run_refines_sequences (links : Links T) (ops : List (Op ι T))
    (hops : LegalRun (fun _ => []) ops) :
    ∃ p, (Pool.new links).run ops = some ((seqRun (fun _ => []) ops).1, p) ∧
      Observes p (seqRun (fun _ => []) ops).2 := by
  obtain ⟨p, hp, h⟩ := (represents_new links).run hops
  exact ⟨p, hp, h.observes⟩

/-- Two lists trading nodes, one of them emptied from both ends. -/
theorem run_refines_sequences_trade :
    let ops : List (Op Bool ℕ) := [.pushBack true 1, .pushFront true 2, .insertBefore true 1 3,
      .popFront true, .pushBack false 2, .popBack true, .popBack true, .popFront true]
    ∃ p, (Pool.new ⟨fun _ => none, fun _ => none⟩).run ops =
        some ((seqRun (fun _ => []) ops).1, p) ∧ Observes p (seqRun (fun _ => []) ops).2 :=
  run_refines_sequences _ _ (by simp [LegalRun, Legal, seqStep, insertSeq, Function.update_apply])

end CxKernel.LinkedList
