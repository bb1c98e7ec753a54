import CxKernel.Lib.FiberCount
import CxKernel.Proofs.ListPool
import CxKernel.Spec.RefPtr

/-! What each step on a reference count does to the books. An object's references are its
variables, the list that has it, and the temporaries of the operation under way; a step
moves a reference from one of these to another, or makes or drops one. -/

namespace CxKernel.RefPtr

open LinkedList FiberCount

variable {H L T : Type}

/-- The references a variable holds. -/
def held (v : Option (Option T)) : List T := v.join.toList

/-- Adopted, and not deleted since. -/
def Mem.Live (s : Mem H L T) (x : T) : Prop := x ∈ s.adopted ∧ x ∉ s.destroyed

open Classical in
/-- One if some list has `x`. -/
noncomputable def listed (σ : L → List T) (x : T) : ℕ := if OnSome σ x then 1 else 0

theorem listed_of_onSome {σ : L → List T} {x : T} (hx : OnSome σ x) : listed σ x = 1 := if_pos hx

theorem listed_of_not {σ : L → List T} {x : T} (hx : ¬ OnSome σ x) : listed σ x = 0 := if_neg hx

theorem listed_congr {σ σ' : L → List T} {x : T} (h : OnSome σ x ↔ OnSome σ' x) :
    listed σ x = listed σ' x := by
  by_cases hx : OnSome σ x
  · rw [listed_of_onSome hx, listed_of_onSome (h.mp hx)]
  · rw [listed_of_not hx, listed_of_not fun hx' => hx (h.mpr hx')]

/-- The lists are `σ`, the temporaries `tmp`, and `n` counts the references. -/
structure Counted [DecidableEq T] (s : Mem H L T) (σ : L → List T) (n : T → ℕ) (tmp : List T) :
    Prop where
  rep : Represents s.lists σ
  fin : ∀ x, {h | s.handles h = some (some x)}.Finite
  refs : ∀ x, fiberCount s.handles (some (some x)) + listed σ x + tmp.count x = n x
  count : ∀ x, s.Live x → s.refCount x = BitVec.ofNat 32 (n x)
  live : ∀ x, 0 < n x → s.Live x
  once : s.destroyed.Nodup
  adopted : ∀ x ∈ s.destroyed, x ∈ s.adopted

variable [DecidableEq H] [DecidableEq L] [DecidableEq T]
variable {s : Mem H L T} {σ σ' : L → List T} {n : T → ℕ} {tmp : List T} {x y : T} {h g : H}

omit [DecidableEq H] [DecidableEq L] in
theorem count_held (v : Option (Option T)) (x : T) :
    (held v).count x = if v = some (some x) then 1 else 0 := by
  rcases v with _ | _ | y
  · rfl
  · rfl
  · simp [held, List.count_singleton]

/-! Making and dropping references. -/

omit [DecidableEq H] [DecidableEq L] in
theorem Counted.addRef (hc : Counted s σ n tmp) (hx : s.Live x) :
    Counted (s.addRef x) σ (Function.update n x (n x + 1)) (x :: tmp) := by
  refine ⟨hc.rep, hc.fin, fun y => ?_, fun y hy => ?_, fun y hn => ?_, hc.once, hc.adopted⟩
  · have hr := hc.refs y
    by_cases hyx : y = x
    · subst hyx
      simp only [Mem.addRef, List.count_cons_self, Function.update_self]
      omega
    · rw [Function.update_of_ne hyx, List.count_cons_of_ne (Ne.symm hyx)]
      exact hr
  · by_cases hyx : y = x
    · subst hyx
      simp only [Mem.addRef, Function.update_self, hc.count y hx, BitVec.ofNat_add]
      rfl
    · simp only [Mem.addRef, Function.update_of_ne hyx]
      exact hc.count y hy
  · by_cases hyx : y = x
    · subst hyx
      exact hx
    · rw [Function.update_of_ne hyx] at hn
      exact hc.live y hn

omit [DecidableEq H] [DecidableEq L] in
theorem Counted.tmp_pos (hc : Counted s σ n (x :: tmp)) : 0 < n x := by
  have hr := hc.refs x
  rw [List.count_cons_self] at hr
  omega

omit [DecidableEq H] [DecidableEq L] in
theorem Counted.release (hc : Counted s σ n (x :: tmp)) :
    Counted (s.release x).2 σ (Function.update n x (n x - 1)) tmp := by
  have hpos := hc.tmp_pos
  refine ⟨hc.rep, hc.fin, fun y => ?_, fun y hy => ?_, fun y hn => ?_, hc.once, hc.adopted⟩
  · have hr := hc.refs y
    by_cases hyx : y = x
    · subst hyx
      rw [List.count_cons_self] at hr
      simp only [Mem.release, Function.update_self]
      omega
    · rw [List.count_cons_of_ne (Ne.symm hyx)] at hr
      rw [Function.update_of_ne hyx]
      exact hr
  · by_cases hyx : y = x
    · subst hyx
      simp only [Mem.release, Function.update_self, hc.count y (hc.live y hpos)]
      exact BitVec.ofNat_sub_ofNat_of_le _ _ (by decide) hpos
    · simp only [Mem.release, Function.update_of_ne hyx]
      exact hc.count y hy
  · by_cases hyx : y = x
    · subst hyx
      exact hc.live y hpos
    · rw [Function.update_of_ne hyx] at hn
      exact hc.live y hn

omit [DecidableEq H] [DecidableEq L] in
/-- `release` finds the last reference if there are fewer than 2^32. -/
theorem Counted.release_last (hc : Counted s σ n (x :: tmp)) (hlt : n x < 2 ^ 32) :
    (s.release x).1 = true ↔ n x = 1 := by
  have hcount := hc.count x (hc.live x hc.tmp_pos)
  have hone : (1 : BitVec 32) = BitVec.ofNat 32 1 := rfl
  simp only [Mem.release, hcount, beq_iff_eq, hone]
  rw [← BitVec.toNat_inj, BitVec.toNat_ofNat, BitVec.toNat_ofNat, Nat.mod_eq_of_lt hlt]

omit [DecidableEq H] [DecidableEq L] in
theorem Counted.delete (hc : Counted s σ n tmp) (hx : s.Live x) (hn : n x = 0) :
    Counted (s.delete x) σ n tmp := by
  refine ⟨hc.rep, hc.fin, hc.refs, fun y hy => ?_, fun y hy => ?_, ?_, fun y hy => ?_⟩
  · exact hc.count y ⟨hy.1, fun hd => hy.2 (List.mem_append_left _ hd)⟩
  · obtain ⟨hadopted, hnot⟩ := hc.live y hy
    refine ⟨hadopted, fun hd => ?_⟩
    rcases List.mem_append.mp hd with hd | hd
    · exact hnot hd
    · rw [List.mem_singleton.mp hd, hn] at hy
      exact Nat.lt_irrefl 0 hy
  · exact List.nodup_append.mpr ⟨hc.once, List.nodup_singleton x, fun y hy z hz hyz => by
      rw [List.mem_singleton.mp hz] at hyz
      exact hx.2 (hyz ▸ hy)⟩
  · rcases List.mem_append.mp hy with hd | hd
    · exact hc.adopted y hd
    · rw [List.mem_singleton.mp hd]
      exact hx.1

omit [DecidableEq H] [DecidableEq L] in
theorem Counted.adopt (hc : Counted s σ n tmp) (hx : x ∉ s.adopted) :
    Counted (s.adopt x) σ (Function.update n x 1) (x :: tmp) := by
  have hzero : n x = 0 := Nat.eq_zero_of_not_pos fun hpos => hx (hc.live x hpos).1
  refine ⟨hc.rep, hc.fin, fun y => ?_, fun y hy => ?_, fun y hn => ?_, hc.once, fun y hy => ?_⟩
  · have hr := hc.refs y
    by_cases hyx : y = x
    · subst hyx
      simp only [Mem.adopt, List.count_cons_self, Function.update_self]
      omega
    · rw [Function.update_of_ne hyx, List.count_cons_of_ne (Ne.symm hyx)]
      exact hr
  · by_cases hyx : y = x
    · subst hyx
      simp only [Mem.adopt, Function.update_self]
      rfl
    · simp only [Mem.adopt, Function.update_of_ne hyx]
      have hadopted : y ∈ s.adopted := by simpa [Mem.adopt, hyx] using hy.1
      exact hc.count y ⟨hadopted, hy.2⟩
  · by_cases hyx : y = x
    · subst hyx
      exact ⟨List.mem_append_right _ List.mem_cons_self, fun hd => hx (hc.adopted y hd)⟩
    · rw [Function.update_of_ne hyx] at hn
      obtain ⟨hadopted, hnot⟩ := hc.live y hn
      exact ⟨List.mem_append_left _ hadopted, hnot⟩
  · exact List.mem_append_left _ (hc.adopted y hy)

/-! Moving references. -/

omit [DecidableEq L] in
/-- A variable gives up the references it held for those of its new value. -/
theorem Counted.set (h : H) (v : Option (Option T)) (hc : Counted s σ n (held v)) :
    Counted (s.set h v) σ n (held (s.handles h)) := by
  refine ⟨hc.rep, fun x => finite_fiber_update (hc.fin x), fun x => ?_, hc.count, hc.live,
    hc.once, hc.adopted⟩
  have hr := hc.refs x
  have hu := fiberCount_update (h := h) (w := v) (hc.fin x)
  simp only [count_held] at hr ⊢
  simp only [Mem.set]
  omega

/-! Two variables at once. -/

omit [DecidableEq L] [DecidableEq T] in
theorem set_comm (s : Mem H L T) (hne : h ≠ g) (v w : Option (Option T)) :
    (s.set h v).set g w = (s.set g w).set h v := by
  simp only [Mem.set, Function.update_comm hne]

omit [DecidableEq L] [DecidableEq T] in
theorem set_set (s : Mem H L T) (h : H) (v w : Option (Option T)) :
    (s.set h v).set h w = s.set h w := by
  simp only [Mem.set, Function.update_idem]

omit [DecidableEq L] in
theorem Counted.moveConstruct (hc : Counted s σ n []) (hh : s.handles h = none)
    (hg : s.handles g ≠ none) :
    ∃ ptr, s.moveConstruct h g = some ((s.set g (some none)).set h (some ptr)) ∧
      Counted ((s.set g (some none)).set h (some ptr)) σ n [] := by
  obtain ⟨ptr, hptr⟩ := Option.ne_none_iff_exists'.mp hg
  have hne : h ≠ g := by
    rintro rfl
    exact hg hh
  refine ⟨ptr, ?_, ?_⟩
  · simp [Mem.moveConstruct, hptr, set_comm s hne]
  · have htake := Counted.set g (some none) hc
    rw [hptr] at htake
    have hput := Counted.set h (some ptr) htake
    have hold : (s.set g (some none)).handles h = none :=
      (Function.update_of_ne hne _ _).trans hh
    rwa [hold] at hput

omit [DecidableEq L] in
/-- Through a variable that is null for a moment; with itself nothing moves. -/
theorem Counted.swap (hc : Counted s σ n []) (hh : s.handles h ≠ none)
    (hg : s.handles g ≠ none) :
    ∃ tmp ptr, s.swap h g = some ((s.set h (some ptr)).set g (some tmp)) ∧
      Counted ((s.set h (some ptr)).set g (some tmp)) σ n [] := by
  obtain ⟨tmp, htmp⟩ := Option.ne_none_iff_exists'.mp hh
  obtain ⟨ptr, hptr⟩ := Option.ne_none_iff_exists'.mp hg
  refine ⟨tmp, ptr, by simp [Mem.swap, htmp, hptr], ?_⟩
  have hnull := Counted.set h (some none) hc
  rw [htmp] at hnull
  have hput := Counted.set g (some tmp) hnull
  by_cases hhg : h = g
  · subst hhg
    have hold : (s.set h (some none)).handles h = some none := Function.update_self _ _ _
    rw [set_set, hold] at hput
    rwa [set_set]
  · have hold : (s.set h (some none)).handles g = some ptr :=
      (Function.update_of_ne (Ne.symm hhg) _ _).trans hptr
    rw [hold] at hput
    have hback := Counted.set h (some ptr) hput
    have hempty : ((s.set h (some none)).set g (some tmp)).handles h = some none :=
      (Function.update_of_ne hhg _ _).trans (Function.update_self _ _ _)
    rwa [hempty, set_comm _ (Ne.symm hhg), set_set] at hback

/-! Lists. -/

omit [DecidableEq T] in
theorem listed_update_of_iff {l : L} {ys : List T} {y : T} (h : y ∈ ys ↔ y ∈ σ l) :
    listed (Function.update σ l ys) y = listed σ y := by
  apply listed_congr
  rw [onSome_update, onSome_split l, h]

theorem listed_add {l : L} {ys : List T} (hperm : ys.Perm (x :: σ l)) (hnot : ¬ OnSome σ x)
    (y : T) : listed (Function.update σ l ys) y = listed σ y + (if y = x then 1 else 0) := by
  by_cases hyx : y = x
  · subst hyx
    have hon : OnSome (Function.update σ l ys) y :=
      onSome_update.mpr (Or.inl (hperm.mem_iff.mpr List.mem_cons_self))
    rw [listed_of_onSome hon, listed_of_not hnot, if_pos rfl]
  · rw [if_neg hyx, Nat.add_zero]
    apply listed_update_of_iff
    rw [hperm.mem_iff, List.mem_cons, or_iff_right hyx]

theorem listed_sub {p : Pool L T} (h : Represents p σ) {l : L} {ys : List T}
    (hperm : (σ l).Perm (x :: ys)) (y : T) :
    listed (Function.update σ l ys) y + (if y = x then 1 else 0) = listed σ y := by
  have hx : x ∈ σ l := hperm.mem_iff.mpr List.mem_cons_self
  have hnd := hperm.nodup_iff.mp (h.lists l).ring.1
  by_cases hyx : y = x
  · subst hyx
    have hoff : ¬ OnSome (Function.update σ l ys) y := by
      rw [onSome_update]
      intro hor
      rcases hor with hys | ⟨j, hj, hmem⟩
      · exact (List.nodup_cons.mp hnd).1 hys
      · exact hj (h.disjoint j l y hmem hx)
    rw [listed_of_not hoff, listed_of_onSome ⟨l, hx⟩, if_pos rfl]
  · rw [if_neg hyx, Nat.add_zero]
    apply listed_update_of_iff
    rw [hperm.mem_iff, List.mem_cons, or_iff_right hyx]

omit [DecidableEq H] in
/-- An object goes onto a list, which takes over a temporary's reference. -/
theorem Counted.link (hc : Counted s σ n (x :: tmp)) {lists : Pool L T} {l : L} {ys : List T}
    (hrep : Represents lists (Function.update σ l ys)) (hperm : ys.Perm (x :: σ l))
    (hnot : ¬ OnSome σ x) : Counted { s with lists } (Function.update σ l ys) n tmp := by
  refine ⟨hrep, hc.fin, fun y => ?_, hc.count, hc.live, hc.once, hc.adopted⟩
  have hr := hc.refs y
  rw [List.count_cons] at hr
  rw [listed_add hperm hnot]
  simp only [beq_iff_eq, eq_comm (a := x)] at hr
  simp only
  omega

omit [DecidableEq H] in
/-- An object goes off a list, whose reference becomes a temporary's. -/
theorem Counted.unlink (hc : Counted s σ n tmp) {lists : Pool L T} {l : L} {ys : List T}
    (hrep : Represents lists (Function.update σ l ys)) (hperm : (σ l).Perm (x :: ys)) :
    Counted { s with lists } (Function.update σ l ys) n (x :: tmp) := by
  refine ⟨hrep, hc.fin, fun y => ?_, hc.count, hc.live, hc.once, hc.adopted⟩
  have hr := hc.refs y
  have hl := listed_sub hc.rep hperm y
  rw [List.count_cons]
  simp only [beq_iff_eq, eq_comm (a := x)]
  omega

/-! What a client can see of this. -/

/-- The number of variables and lists that refer to `x`. -/
noncomputable def references (s : Mem H L T) (x : T) : ℕ :=
  fiberCount s.handles (some (some x)) +
    {l | ∃ xs, visit s.lists.links (s.lists.lists l) = some xs ∧ x ∈ xs}.ncard

def NotListed (s : Mem H L T) (x : T) : Prop :=
  ∀ l xs, visit s.lists.links (s.lists.lists l) = some xs → x ∉ xs

omit [DecidableEq H] [DecidableEq L] in
theorem references_eq_listed (hrep : Represents s.lists σ) (x : T) :
    references s x = fiberCount s.handles (some (some x)) + listed σ x := by
  have hset : {l | ∃ xs, visit s.lists.links (s.lists.lists l) = some xs ∧ x ∈ xs} =
      {l | x ∈ σ l} := by
    ext l
    simp [(hrep.lists l).visit_eq]
  unfold references
  rw [hset]
  by_cases hx : OnSome σ x
  · obtain ⟨l, hl⟩ := hx
    have hone : {l | x ∈ σ l} = {l} := by
      ext l'
      exact ⟨fun hl' => hrep.disjoint l' l x hl' hl, fun hl' => hl' ▸ hl⟩
    rw [hone, Set.ncard_singleton, listed_of_onSome ⟨l, hl⟩]
  · have hnone : {l | x ∈ σ l} = ∅ := by
      ext l
      exact ⟨fun hl => hx ⟨l, hl⟩, fun hl => hl.elim⟩
    rw [hnone, Set.ncard_empty, listed_of_not hx]

omit [DecidableEq H] [DecidableEq L] in
/-- Between operations the references are the variables and the lists. -/
theorem Counted.references_eq (hc : Counted s σ n []) (x : T) : references s x = n x := by
  rw [references_eq_listed hc.rep, ← hc.refs x, List.count_nil, Nat.add_zero]

omit [DecidableEq H] [DecidableEq L] in
theorem references_le_card [Fintype H] [Fintype L] (s : Mem H L T) (x : T) :
    references s x ≤ Fintype.card H + Fintype.card L := by
  refine Nat.add_le_add ?_ ?_
  · exact (Set.ncard_le_card _).trans_eq Nat.card_eq_fintype_card
  · exact (Set.ncard_le_card _).trans_eq Nat.card_eq_fintype_card

omit [DecidableEq H] [DecidableEq L] in
theorem NotListed.not_onSome (hx : NotListed s x) (hrep : Represents s.lists σ) :
    ¬ OnSome σ x :=
  fun ⟨l, hl⟩ => hx l _ (hrep.lists l).visit_eq hl

/-- No variable, no adopted object, and all lists empty. -/
structure Start (s : Mem H L T) : Prop where
  handles : ∀ h, s.handles h = none
  lists : Represents s.lists fun _ => []
  adopted : s.adopted = []
  destroyed : s.destroyed = []

omit [DecidableEq H] [DecidableEq L] in
theorem Start.counted (h : Start s) : Counted s (fun _ => []) (fun _ => 0) [] := by
  have hoff : ∀ x, ¬ OnSome (fun _ : L => ([] : List T)) x := fun x ⟨l, hl⟩ => List.not_mem_nil hl
  have hfiber : ∀ x, {g | s.handles g = some (some x)} = ∅ := by
    intro x
    ext g
    simp [h.handles g]
  refine ⟨h.lists, fun x => ?_, fun x => ?_, fun x hx => ?_,
    fun x hx => absurd hx (Nat.lt_irrefl 0), ?_, fun x hx => ?_⟩
  · rw [hfiber]
    exact Set.finite_empty
  · rw [listed_of_not (hoff x), fiberCount, hfiber, Set.ncard_empty]
    rfl
  · have hx' := hx.1
    rw [h.adopted] at hx'
    cases hx'
  · rw [h.destroyed]
    exact List.nodup_nil
  · rw [h.destroyed] at hx
    cases hx

end CxKernel.RefPtr
