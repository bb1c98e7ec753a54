import CxKernel.Lib.Forest
import CxKernel.Proofs.RefCount
import CxKernel.Spec.Destroy
import Mathlib.Order.CompletePartialOrder

/-! What `destroy` does to the regions below the one it is called on. The induction is on
the tree, whose shape is fixed; the lists in memory agree with it on what is still to come.
Each subtree taken off adds its part to the record, and the parts are disjoint. -/

namespace CxKernel.Vm

open LinkedList RefPtr Relation Forest

variable {R : Type}

/-- The relation of a region to its children. -/
def Kid (σ : R → List R) (x y : R) : Prop := y ∈ σ x

/-- What lies below `x`, and the same with `x`. -/
def below (σ : R → List R) (x : R) : Set R := {y | TransGen (Kid σ) x y}

def subtree (σ : R → List R) (x : R) : Set R := {y | ReflTransGen (Kid σ) x y}

/-! The record of a subtree. -/

def deleted (events : List (RegionEvent R)) : List R :=
  events.filterMap fun e => match e with
    | .detach _ => none
    | .delete x => some x

theorem mem_deleted {events : List (RegionEvent R)} {x : R} :
    x ∈ deleted events ↔ .delete x ∈ events := by
  rw [deleted, List.mem_filterMap]
  refine ⟨?_, fun hx => ⟨_, hx, rfl⟩⟩
  rintro ⟨e, he, hx⟩
  cases e with
  | detach y => cases hx
  | delete y =>
    obtain rfl := Option.some.inj hx
    exact he

/-- Each region of `A` is detached once; those that satisfy `last` are deleted once, and
not before their children are detached. -/
structure Orderly (σ : R → List R) (A : Set R) (last : R → Prop)
    (events : List (RegionEvent R)) : Prop where
  once : events.Nodup
  detached : ∀ y, .detach y ∈ events ↔ y ∈ A
  deleted : ∀ y, .delete y ∈ events ↔ y ∈ A ∧ last y
  after : ∀ y, .delete y ∈ events → ∀ c ∈ σ y, [.detach c, .delete y].Sublist events

variable {σ τ τ' : R → List R} {A B : Set R} {last last' : R → Prop}
variable {events events' : List (RegionEvent R)}

theorem Orderly.nil : Orderly σ ∅ last [] :=
  ⟨List.nodup_nil, fun _ => by simp, fun _ => by simp, fun _ h => absurd h List.not_mem_nil⟩

theorem Orderly.congr (h : Orderly σ A last events) (hlast : ∀ y ∈ A, (last y ↔ last' y)) :
    Orderly σ A last' events := by
  refine ⟨h.once, h.detached, fun y => ?_, h.after⟩
  rw [h.deleted]
  exact and_congr_right (hlast y)

theorem Orderly.append (h : Orderly σ A last events) (h' : Orderly σ B last events')
    (hdisj : Disjoint A B) : Orderly σ (A ∪ B) last (events ++ events') := by
  have hnot : ∀ y, y ∈ A → y ∉ B := fun y ha hb => Set.disjoint_left.mp hdisj ha hb
  refine ⟨List.nodup_append.mpr ⟨h.once, h'.once, ?_⟩, fun y => ?_, fun y => ?_, ?_⟩
  · rintro e he _ he' rfl
    cases e with
    | detach y => exact hnot y ((h.detached y).mp he) ((h'.detached y).mp he')
    | delete y => exact hnot y ((h.deleted y).mp he).1 ((h'.deleted y).mp he').1
  · rw [List.mem_append, h.detached, h'.detached, Set.mem_union]
  · rw [List.mem_append, h.deleted, h'.deleted, Set.mem_union, or_and_right]
  · intro y hy c hc
    rcases List.mem_append.mp hy with hy | hy
    · exact (h.after y hy c hc).trans (List.sublist_append_left _ _)
    · exact (h'.after y hy c hc).trans (List.sublist_append_right _ _)

/-- What is recorded of `c` at its end, with no children left. -/
def Tail (last : R → Prop) (c : R) (events : List (RegionEvent R)) : Prop :=
  (last c ∧ events = [.delete c]) ∨ (¬ last c ∧ events = [])

theorem Tail.mem_delete {c y : R} (h : Tail last c events) :
    .delete y ∈ events ↔ y = c ∧ last c := by
  rcases h with ⟨hlast, rfl⟩ | ⟨hlast, rfl⟩ <;> simp [hlast]

theorem Tail.not_mem_detach {c y : R} (h : Tail last c events) : .detach y ∉ events := by
  rcases h with ⟨-, rfl⟩ | ⟨-, rfl⟩ <;> simp

theorem Tail.nodup {c : R} (h : Tail last c events) : events.Nodup := by
  rcases h with ⟨-, rfl⟩ | ⟨-, rfl⟩ <;> simp

theorem mem_subtree {c y : R} : y ∈ subtree σ c ↔ y = c ∨ y ∈ below σ c :=
  reflTransGen_iff_eq_or_transGen

/-- A region goes: it is detached, then all that is below it goes, then it is deleted if its
last reference was the list's. -/
theorem Orderly.subtree {c : R} (h : Orderly σ (below σ c) last events) (hc : c ∉ below σ c)
    (htail : Tail last c events') :
    Orderly σ (subtree σ c) last (.detach c :: (events ++ events')) := by
  have hself : .delete c ∉ events := fun hd => hc ((h.deleted c).mp hd).1
  refine ⟨?_, fun y => ?_, fun y => ?_, fun y hy d hd => ?_⟩
  · refine List.nodup_cons.mpr ⟨?_, List.nodup_append.mpr ⟨h.once, htail.nodup, ?_⟩⟩
    · rw [List.mem_append, h.detached]
      exact not_or.mpr ⟨hc, htail.not_mem_detach⟩
    · rintro e he _ he' rfl
      cases e with
      | detach y => exact htail.not_mem_detach he'
      | delete y => exact hself ((htail.mem_delete.mp he').1 ▸ he)
  · rw [List.mem_cons, List.mem_append, h.detached, mem_subtree, RegionEvent.detach.injEq,
      or_iff_left htail.not_mem_detach]
  · rw [List.mem_cons, List.mem_append, h.deleted, mem_subtree, htail.mem_delete,
      or_iff_right (by simp)]
    refine ⟨?_, ?_⟩
    · intro hor
      rcases hor with ⟨hy, hlast⟩ | ⟨rfl, hlast⟩
      · exact ⟨Or.inr hy, hlast⟩
      · exact ⟨Or.inl rfl, hlast⟩
    · intro hand
      rcases hand with ⟨rfl | hy, hlast⟩
      · exact Or.inr ⟨rfl, hlast⟩
      · exact Or.inl ⟨hy, hlast⟩
  · rcases List.mem_append.mp ((List.mem_cons.mp hy).resolve_left nofun) with hold | hnew
    · exact ((h.after y hold d hd).trans (List.sublist_append_left _ _)).cons _
    · obtain ⟨rfl, -⟩ := htail.mem_delete.mp hnew
      have hdet := List.singleton_sublist.mpr ((h.detached d).mpr (TransGen.single hd))
      exact (hdet.append (List.singleton_sublist.mpr hnew)).cons _

/-! The state around it. -/

variable {H : Type} {s s₁ s₂ : RegionMem H R}

/-- From `s` to `s'` the regions of `A` lose their parent and one reference each, and no
other is touched. -/
structure Released (σ : R → List R) (A : Set R) (s s' : RegionMem H R) : Prop where
  handles : s'.handles = s.handles
  parent : ∀ y ∈ A, s'.parent y = none
  parent_frame : ∀ y ∉ A, s'.parent y = s.parent y
  count : ∀ y ∈ A, s'.refCount y = s.refCount y - 1
  count_frame : ∀ y ∉ A, s'.refCount y = s.refCount y
  record : ∃ events, s'.events = s.events ++ events ∧
    s'.destroyed = s.destroyed ++ deleted events ∧
    Orderly σ A (fun y => s.refCount y = 1) events

theorem Released.refl (σ : R → List R) (s : RegionMem H R) : Released σ ∅ s s :=
  ⟨rfl, fun _ h => absurd h (Set.notMem_empty _), fun _ _ => rfl,
    fun _ h => absurd h (Set.notMem_empty _), fun _ _ => rfl, [], by simp, by simp [deleted],
    .nil⟩

theorem Released.trans (h : Released σ A s s₁) (h' : Released σ B s₁ s₂)
    (hdisj : Disjoint A B) : Released σ (A ∪ B) s s₂ := by
  have hnot : ∀ y, y ∈ A → y ∉ B := fun y ha hb => Set.disjoint_left.mp hdisj ha hb
  have hnot' : ∀ y, y ∈ B → y ∉ A := fun y hb ha => hnot y ha hb
  refine ⟨h'.handles.trans h.handles, ?_, ?_, ?_, ?_, ?_⟩
  · intro y hy
    by_cases hb : y ∈ B
    · exact h'.parent y hb
    · rw [h'.parent_frame y hb]
      exact h.parent y (hy.resolve_right hb)
  · intro y hy
    rw [Set.mem_union, not_or] at hy
    rw [h'.parent_frame y hy.2, h.parent_frame y hy.1]
  · intro y hy
    rcases hy with ha | hb
    · rw [h'.count_frame y (hnot y ha), h.count y ha]
    · rw [h'.count y hb, h.count_frame y (hnot' y hb)]
  · intro y hy
    rw [Set.mem_union, not_or] at hy
    rw [h'.count_frame y hy.2, h.count_frame y hy.1]
  · obtain ⟨ev, hev, hdel, hord⟩ := h.record
    obtain ⟨ev', hev', hdel', hord'⟩ := h'.record
    refine ⟨ev ++ ev', ?_, ?_, hord.append (hord'.congr fun y hb => ?_) hdisj⟩
    · rw [hev', hev, List.append_assoc]
    · rw [hdel', hdel, List.append_assoc, deleted, deleted, deleted, List.filterMap_append]
    · rw [h.count_frame y (hnot' y hb)]

/-- The lists of `A` are emptied, and the others stay. -/
structure Emptied (A : Set R) (τ τ' : R → List R) : Prop where
  inside : ∀ y ∈ A, τ' y = []
  outside : ∀ y ∉ A, τ' y = τ y

/-! The steps of the loop. -/

variable [DecidableEq R] {x c : R} {cs : List R}

/-- A reference to a region without children is dropped. -/
def RegionMem.dropped (s : RegionMem H R) (x : R) : RegionMem H R :=
  let s' := { s with toMem := (s.toMem.release x).2 }
  if s.refCount x = 1 then s'.free x else s'

theorem drop_eq (hempty : empty (s.lists.lists x) = true) : s.drop x = some (s.dropped x) := by
  have hclear : RegionMem.clear { s with toMem := (s.toMem.release x).2 } x =
      some { s with toMem := (s.toMem.release x).2 } := by
    rw [RegionMem.clear]
    exact if_pos hempty
  have hlast : (s.toMem.release x).1 = true ↔ s.refCount x = 1 := beq_iff_eq
  rw [RegionMem.drop, RegionMem.dropped]
  simp only [hlast]
  split_ifs
  · rw [RegionMem.delete, hclear]
    rfl
  · rfl

theorem popChild_eq (hrep : Represents s.lists τ) (hx : τ x = c :: cs) :
    ∃ lists, s.popChild x = some (c, { s with lists := lists }) ∧
      Represents lists (Function.update τ x cs) ∧ ∀ y, c ∉ Function.update τ x cs y := by
  obtain ⟨lists, hpop, hrep', hoff⟩ := hrep.popFront_cons hx
  refine ⟨lists, ?_, hrep', hoff⟩
  have hcount := release_addRef ({ s.toMem with lists := lists } : Mem H R R) c
  simp only [RegionMem.popChild, Mem.popFront, Mem.pop, Mem.unlink, hpop, Option.bind_eq_bind,
    Option.bind_some, Option.pure_def, hcount]

theorem represents_dropped (hrep : Represents s.lists τ) (hoff : ∀ y, x ∉ τ y) :
    Represents (s.dropped x).lists τ := by
  rw [RegionMem.dropped]
  dsimp only
  split_ifs
  · refine ⟨fun y => (hrep.lists y).frame (D := [x]) (fun a ha => ?_) (fun a ha hax => ?_),
      hrep.disjoint⟩
    · rw [List.mem_singleton] at ha
      simp [RegionMem.free, Mem.delete, Mem.release, ha]
    · rw [List.mem_singleton] at hax
      exact hoff y (hax ▸ ha)
  · exact hrep

theorem dropped_frame (s : RegionMem H R) (x : R) :
    (s.dropped x).handles = s.handles ∧ (s.dropped x).parent = s.parent ∧
      (s.dropped x).lists.lists = s.lists.lists ∧
      (s.dropped x).refCount = Function.update s.refCount x (s.refCount x - 1) := by
  rw [RegionMem.dropped]
  dsimp only
  split_ifs <;> exact ⟨rfl, rfl, rfl, rfl⟩

theorem dropped_record (s : RegionMem H R) (x : R) : ∃ tail,
    (s.dropped x).events = s.events ++ tail ∧
      (s.dropped x).destroyed = s.destroyed ++ deleted tail ∧
      Tail (fun y => s.refCount y = 1) x tail := by
  rw [RegionMem.dropped]
  dsimp only
  split_ifs with hlast
  · exact ⟨[.delete x], rfl, rfl, Or.inl ⟨hlast, rfl⟩⟩
  · exact ⟨[], (List.append_nil _).symm, (List.append_nil _).symm, Or.inr ⟨hlast, rfl⟩⟩

/-- A child is off its list and detached, what is below it is gone, and the reference of the
loop is dropped. -/
theorem Released.subtree {lists : Pool R R} (hc : c ∉ below σ c)
    (h : Released σ (below σ c) ({ s with lists := lists }.detach c) s₁) :
    Released σ (subtree σ c) s (s₁.dropped c) := by
  obtain ⟨hhandles, hparent, -, hcount⟩ := dropped_frame s₁ c
  have hlast : s₁.refCount c = s.refCount c := h.count_frame c hc
  refine ⟨hhandles.trans h.handles, ?_, ?_, ?_, ?_, ?_⟩
  · intro y hy
    rw [hparent]
    rcases mem_subtree.mp hy with rfl | hy
    · rw [h.parent_frame y hc]
      exact Function.update_self _ _ _
    · exact h.parent y hy
  · intro y hy
    rw [mem_subtree, not_or] at hy
    rw [hparent, h.parent_frame y hy.2]
    exact Function.update_of_ne hy.1 _ _
  · intro y hy
    rw [hcount]
    rcases mem_subtree.mp hy with rfl | hy
    · rw [Function.update_self, hlast]
    · have hne : y ≠ c := fun heq => hc (heq ▸ hy)
      rw [Function.update_of_ne hne]
      exact h.count y hy
  · intro y hy
    rw [mem_subtree, not_or] at hy
    rw [hcount, Function.update_of_ne hy.1]
    exact h.count_frame y hy.2
  · obtain ⟨ev, hev, hdel, hord⟩ := h.record
    obtain ⟨tail, hev', hdel', htail⟩ := dropped_record s₁ c
    have htail' : Tail (fun y => s.refCount y = 1) c tail := by
      rw [Tail, hlast] at htail
      exact htail
    refine ⟨_, ?_, ?_, hord.subtree hc htail'⟩
    · rw [hev', hev]
      simp only [RegionMem.detach, List.append_assoc, List.cons_append, List.nil_append]
    · rw [hdel', hdel]
      simp only [RegionMem.detach, deleted, List.filterMap_cons, List.filterMap_append,
        List.append_assoc]

/-- The loop over the children of `x` takes apart all that is below it. -/
def Empties (H : Type) (σ : R → List R) (x : R) : Prop :=
  ∀ (s : RegionMem H R) (τ : R → List R), Represents s.lists τ →
    (∀ y ∈ subtree σ x, τ y = σ y) → ∃ s' τ',
      s.destroyChildren x (.ok ()) = some (.ok (), s') ∧ Released σ (below σ x) s s' ∧
        Represents s'.lists τ' ∧ Emptied (subtree σ x) τ τ'

/-- One round of the loop. -/
theorem destroyChildren_cons (hc : Empties H σ c) (hcc : c ∉ below σ c) (hxc : x ∉ subtree σ c)
    (hrep : Represents s.lists τ) (hx : τ x = c :: cs) (hτ : ∀ y ∈ subtree σ c, τ y = σ y) :
    ∃ s' τ', s.destroyChildren x (.ok ()) = s'.destroyChildren x (.ok ()) ∧
      Released σ (subtree σ c) s s' ∧ Represents s'.lists τ' ∧
      Emptied (subtree σ c) (Function.update τ x cs) τ' := by
  obtain ⟨lists, hpop, hrep₁, hoff⟩ := popChild_eq hrep hx
  have hagree : ∀ y ∈ subtree σ c, Function.update τ x cs y = σ y := by
    intro y hy
    have hne : y ≠ x := fun heq => hxc (heq ▸ hy)
    rw [Function.update_of_ne hne]
    exact hτ y hy
  obtain ⟨s₂, τ₂, hloop, hrel, hrep₂, hemp⟩ := hc ({ s with lists := lists }.detach c) _ hrep₁ hagree
  have hparent : s₂.parent c = none := by
    rw [hrel.parent_frame c hcc]
    exact Function.update_self _ _ _
  have hdestroy : ({ s with lists := lists }.detach c).destroy c = some (.ok (), s₂) := by
    rw [RegionMem.destroy, hloop]
    simp [hparent]
  have hdrop : s₂.drop c = some (s₂.dropped c) :=
    drop_eq ((hrep₂.lists c).empty_iff.mpr (hemp.inside c ReflTransGen.refl))
  have hempty : empty (s.lists.lists x) ≠ true := by
    rw [Ne, (hrep.lists x).empty_iff, hx]
    exact List.cons_ne_nil c cs
  refine ⟨s₂.dropped c, τ₂, ?_, hrel.subtree hcc, represents_dropped hrep₂ fun y hy => ?_, hemp⟩
  · rw [RegionMem.destroyChildren, if_neg hempty, hpop]
    simp only [Option.bind_eq_bind, Option.bind_some]
    rw [hdestroy]
    simp only [Option.bind_some, hdrop]
    rfl
  · by_cases hyc : y ∈ subtree σ c
    · rw [hemp.inside y hyc] at hy
      exact absurd hy List.not_mem_nil
    · rw [hemp.outside y hyc] at hy
      exact hoff y hy

variable (huniq : Relator.LeftUnique (Kid σ))

include huniq

/-- The loop, from the children still ahead. -/
theorem destroyChildren_loop (hfin : Acc (Function.swap (Kid σ)) x)
    (hkids : ∀ c ∈ cs, c ∈ σ x ∧ Empties H σ c) (hrep : Represents s.lists τ) (hx : τ x = cs)
    (hτ : ∀ c ∈ cs, ∀ y ∈ subtree σ c, τ y = σ y) : ∃ s' τ',
      s.destroyChildren x (.ok ()) = some (.ok (), s') ∧
        Released σ {y | ∃ c ∈ cs, y ∈ subtree σ c} s s' ∧ Represents s'.lists τ' ∧
        Emptied (insert x {y | ∃ c ∈ cs, y ∈ subtree σ c}) τ τ' := by
  induction cs generalizing s τ with
  | nil =>
    refine ⟨s, τ, ?_, ?_, hrep, ⟨fun y hy => ?_, fun _ _ => rfl⟩⟩
    · rw [RegionMem.destroyChildren, if_pos ((hrep.lists x).empty_iff.mpr hx)]
    · simpa using Released.refl σ s
    · have hyx : y = x := by simpa using hy
      rw [hyx, hx]
  | cons c cs ih =>
    obtain ⟨hc, hempties⟩ := hkids c List.mem_cons_self
    have hcfin : Acc (Function.swap (Kid σ)) c := hfin.inv hc
    have hxc : x ∉ subtree σ c := not_reach_parent hfin hc
    have hnd : (c :: cs).Nodup := hx ▸ (hrep.lists x).ring.1
    obtain ⟨s₁, τ₁, hround, hrel₁, hrep₁, hemp₁⟩ := destroyChildren_cons hempties
      (not_below_self hcfin) hxc hrep hx (hτ c List.mem_cons_self)
    have hapart : ∀ d ∈ cs, ∀ y ∈ subtree σ d, y ∉ subtree σ c := by
      intro d hd y hyd hyc
      have hdc := sibling_eq huniq hfin (hkids d (List.mem_cons_of_mem _ hd)).1 hc hyd hyc
      exact (List.nodup_cons.mp hnd).1 (hdc ▸ hd)
    have hx₁ : τ₁ x = cs := by
      rw [hemp₁.outside x hxc, Function.update_self]
    have hτ₁ : ∀ d ∈ cs, ∀ y ∈ subtree σ d, τ₁ y = σ y := by
      intro d hd y hy
      have hne : y ≠ x := by
        rintro rfl
        exact not_reach_parent hfin (hkids d (List.mem_cons_of_mem _ hd)).1 hy
      rw [hemp₁.outside y (hapart d hd y hy), Function.update_of_ne hne]
      exact hτ d (List.mem_cons_of_mem _ hd) y hy
    obtain ⟨s₂, τ₂, hloop, hrel₂, hrep₂, hemp₂⟩ :=
      ih (fun d hd => hkids d (List.mem_cons_of_mem _ hd)) hrep₁ hx₁ hτ₁
    have hsplit : {y | ∃ d ∈ c :: cs, y ∈ subtree σ d} =
        subtree σ c ∪ {y | ∃ d ∈ cs, y ∈ subtree σ d} := by
      ext y
      simp
    have hdisj : Disjoint (subtree σ c) {y | ∃ d ∈ cs, y ∈ subtree σ d} := by
      rw [Set.disjoint_right]
      rintro y ⟨d, hd, hy⟩
      exact hapart d hd y hy
    refine ⟨s₂, τ₂, hround.trans hloop, hsplit ▸ hrel₁.trans hrel₂ hdisj, hrep₂, ?_⟩
    rw [hsplit]
    refine ⟨fun y hy => ?_, fun y hy => ?_⟩
    · by_cases hin : y ∈ insert x {y | ∃ d ∈ cs, y ∈ subtree σ d}
      · exact hemp₂.inside y hin
      · have hyc : y ∈ subtree σ c := by
          simp only [Set.mem_insert_iff, Set.mem_union, not_or] at hy hin
          exact (hy.resolve_left hin.1).resolve_right hin.2
        rw [hemp₂.outside y hin]
        exact hemp₁.inside y hyc
    · simp only [Set.mem_insert_iff, Set.mem_union, not_or] at hy
      rw [hemp₂.outside y (by simpa [not_or] using ⟨hy.1, by simpa using hy.2.2⟩),
        hemp₁.outside y hy.2.1, Function.update_of_ne hy.1]

/-- By induction on the tree. -/
theorem empties (H : Type) (hfin : Acc (Function.swap (Kid σ)) x) : Empties H σ x := by
  induction hfin with
  | intro x hx ih =>
    intro s τ hrep hτ
    have hfin : Acc (Function.swap (Kid σ)) x := ⟨x, hx⟩
    have hbelow : below σ x = {y | ∃ c ∈ σ x, y ∈ subtree σ c} := by
      ext y
      exact below_iff
    have hself : subtree σ x = insert x (below σ x) := by
      ext y
      exact mem_subtree
    rw [hself, hbelow]
    refine destroyChildren_loop huniq hfin (fun c hc => ⟨hc, ih c hc⟩) hrep (hτ x .refl) ?_
    intro c hc y hy
    exact hτ y (ReflTransGen.head hc hy)

end CxKernel.Vm
