import CxKernel.Proofs.RefPtr
import CxKernel.Spec.RefThreads

/-! Reference counts under every interleaving. A pop releases the list's reference before
it counts the one of its result; the object survives that unless another thread drops the
last variable in between. -/

namespace CxKernel.RefPtr

open LinkedList FiberCount Runs

variable {Θ V L T : Type} [DecidableEq Θ] [DecidableEq V] [DecidableEq L] [DecidableEq T]

/-- What the use of variables and lists demands: a variable is made once, a fresh object is
adopted, an object is inserted while in no list, and removed from a list that has it. -/
def Proper (s : Sys Θ V L T) : Θ × Act V L T → Prop
  | (θ, .adoptRef v x) => s.mem.handles (θ, v) = none ∧ x ∉ s.mem.adopted
  | (θ, .copy v other) => s.mem.handles (θ, v) = none ∧ s.mem.handles (θ, other) ≠ none
  | (θ, .move v other) => s.mem.handles (θ, v) = none ∧ s.mem.handles (θ, other) ≠ none
  | (θ, .swap v other) => s.mem.handles (θ, v) ≠ none ∧ s.mem.handles (θ, other) ≠ none
  | (θ, .drop v) => s.mem.handles (θ, v) ≠ none
  | (θ, .pushFront _ node) => ∃ x, s.mem.handles (θ, node) = some (some x) ∧ NotListed s.mem x
  | (θ, .pushBack _ node) => ∃ x, s.mem.handles (θ, node) = some (some x) ∧ NotListed s.mem x
  | (θ, .insertBefore l inspt node) =>
      (∃ x, s.mem.handles (θ, node) = some (some x) ∧ NotListed s.mem x) ∧
        ∃ xs, visit s.mem.lists.links (s.mem.lists.lists l) = some xs ∧ inspt ∈ xs
  | (θ, .popFront l v) => empty (s.mem.lists.lists l) = false ∧ s.mem.handles (θ, v) = none
  | (θ, .popBack l v) => empty (s.mem.lists.lists l) = false ∧ s.mem.handles (θ, v) = none
  | (θ, .remove l node) => ∃ x xs, s.mem.handles (θ, node) = some (some x) ∧
      visit s.mem.lists.links (s.mem.lists.lists l) = some xs ∧ x ∈ xs
  | (θ, .first _ v) => s.mem.handles (θ, v) = none
  | (θ, .last _ v) => s.mem.handles (θ, v) = none
  | _ => True

/-- The last reference to an object is not dropped while a pop of it is under way, of fewer
than 2^32 of them; and a node is not removed from a list that has no other. -/
def Avoids (s : Sys Θ V L T) : Θ × Act V L T → Prop
  | (θ, .drop v) => ∀ x, s.mem.handles (θ, v) = some (some x) →
      references s.mem x < 2 ^ 32 ∧
        (s.mem.refCount x = 1 → ∀ θ' v', s.pc θ' ≠ .popping x v')
  | (_, .remove l _) => ∃ xs, visit s.mem.lists.links (s.mem.lists.lists l) = some xs ∧
      2 ≤ xs.length
  | _ => True

/-- No step accesses the count of a deleted object, or deletes it again. -/
def NoUse (s : Sys Θ V L T) (a : Θ × Act V L T) : Prop := ∀ x, s.uses a = some x → x ∉ s.mem.destroyed

/-- Each object is deleted once at most, and no variable refers to a deleted one. -/
structure NoDangling (s : Sys Θ V L T) : Prop where
  once : s.mem.destroyed.Nodup
  handles : ∀ h x, s.mem.handles h = some (some x) → x ∉ s.mem.destroyed

/-- The counts are right, and no thread is about to delete an object that is in use. -/
structure ThreadInv (s : Sys Θ V L T) (σ : L → List T) (n : T → ℕ) : Prop where
  counted : Counted s.mem σ n []
  popping : ∀ θ x v, s.pc θ = .popping x v → s.mem.Live x ∧ s.mem.handles (θ, v) = none
  deleting : ∀ θ x, s.pc θ = .deleting x → s.mem.Live x ∧ n x = 0 ∧
    ∀ θ', θ' ≠ θ → s.pc θ' ≠ .deleting x ∧ ∀ v, s.pc θ' ≠ .popping x v

variable {s s' : Sys Θ V L T} {σ σ' : L → List T} {n n' : T → ℕ} {θ : Θ} {v w : V} {x : T} {l : L}
  {mem : Mem (Θ × V) L T}

omit [DecidableEq Θ] [DecidableEq V] [DecidableEq L] in
/-- A step of an idle thread that takes no object's last reference. -/
theorem ThreadInv.access (h : ThreadInv s σ n) (hidle : s.pc θ = .idle)
    (hc : Counted mem σ' n' []) (hlive : ∀ y, s.mem.Live y → mem.Live y)
    (hzero : ∀ y, s.mem.Live y → n y = 0 → n' y = 0)
    (hother : ∀ θ', θ' ≠ θ → ∀ v, mem.handles (θ', v) = s.mem.handles (θ', v)) :
    ThreadInv { s with mem } σ' n' := by
  refine ⟨hc, fun θ' y v hpc => ?_, fun θ' y hpc => ?_⟩
  · obtain ⟨hy, hv⟩ := h.popping θ' y v hpc
    have hne : θ' ≠ θ := by
      rintro rfl
      rw [hidle] at hpc
      cases hpc
    exact ⟨hlive y hy, (hother θ' hne v).trans hv⟩
  · obtain ⟨hy, hn, huniq⟩ := h.deleting θ' y hpc
    exact ⟨hlive y hy, hzero y hy hn, huniq⟩

omit [DecidableEq L] [DecidableEq T] in
theorem set_other (m : Mem (Θ × V) L T) {θ' : Θ} (hne : θ' ≠ θ) (u : Option (Option T)) (v' : V) :
    (m.set (θ, v) u).handles (θ', v') = m.handles (θ', v') :=
  Function.update_of_ne (fun he => hne (congrArg Prod.fst he)) _ _

omit [DecidableEq Θ] [DecidableEq V] [DecidableEq L] in
theorem ThreadInv.handle_pos (h : ThreadInv s σ n) {g : Θ × V}
    (hg : s.mem.handles g = some (some x)) : 0 < n x := by
  have hr := h.counted.refs x
  have hpos := fiberCount_pos (h.counted.fin x) hg
  omega

omit [DecidableEq Θ] [DecidableEq V] [DecidableEq L] in
theorem ThreadInv.listed_pos (h : ThreadInv s σ n) (hx : OnSome σ x) : 0 < n x := by
  have hr := h.counted.refs x
  rw [listed_of_onSome hx] at hr
  omega

omit [DecidableEq Θ] [DecidableEq V] [DecidableEq L] in
theorem ThreadInv.first_pos (h : ThreadInv s σ n)
    (hx : LinkedList.first (s.mem.lists.lists l) = some x) : 0 < n x := by
  rw [(h.counted.rep.lists l).first_eq] at hx
  exact h.listed_pos ⟨l, List.mem_of_mem_head? hx⟩

omit [DecidableEq Θ] [DecidableEq V] [DecidableEq L] in
theorem ThreadInv.last_pos (h : ThreadInv s σ n)
    (hx : LinkedList.last s.mem.lists.links (s.mem.lists.lists l) = some x) : 0 < n x := by
  rw [(h.counted.rep.lists l).last_eq] at hx
  exact h.listed_pos ⟨l, List.mem_of_getLast? hx⟩

omit [DecidableEq L] in
theorem ThreadInv.construct (h : ThreadInv s σ n) (hidle : s.pc θ = .idle)
    (hv : s.mem.handles (θ, v) = none) (ptr : Option T) (hpos : ∀ x, ptr = some x → 0 < n x) :
    ∃ n', ThreadInv { s with mem := s.mem.construct (θ, v) ptr } σ n' := by
  cases ptr with
  | none =>
    have hc := Counted.set (θ, v) (some none) h.counted
    rw [hv] at hc
    exact ⟨n, h.access hidle hc (fun _ hy => hy) (fun _ _ hn => hn)
      fun θ' hne v' => set_other _ hne _ v'⟩
  | some x =>
    have hx := hpos x rfl
    have hc := Counted.set (θ, v) (some (some x)) (h.counted.addRef (h.counted.live x hx))
    have hold : (s.mem.addRef x).handles (θ, v) = none := hv
    rw [hold] at hc
    refine ⟨_, h.access hidle hc (fun _ hy => hy) (fun y _ hn => ?_)
      fun θ' hne v' => set_other _ hne _ v'⟩
    have hyx : y ≠ x := by
      rintro rfl
      omega
    rw [Function.update_of_ne hyx]
    exact hn

omit [DecidableEq L] in
theorem ThreadInv.adoptRef (h : ThreadInv s σ n) (hidle : s.pc θ = .idle)
    (hv : s.mem.handles (θ, v) = none) (hx : x ∉ s.mem.adopted) :
    ∃ n', ThreadInv { s with mem := s.mem.adoptRef (θ, v) x } σ n' := by
  have hc := Counted.set (θ, v) (some (some x)) (h.counted.adopt hx)
  have hold : (s.mem.adopt x).handles (θ, v) = none := hv
  rw [hold] at hc
  refine ⟨_, h.access hidle hc (fun y hy => ⟨List.mem_append_left _ hy.1, hy.2⟩) (fun y hy hn => ?_)
    fun θ' hne v' => set_other _ hne _ v'⟩
  have hyx : y ≠ x := by
    rintro rfl
    exact hx hy.1
  rw [Function.update_of_ne hyx]
  exact hn

omit [DecidableEq Θ] [DecidableEq V] in
/-- An insertion counts the list's reference and links the node. -/
theorem ThreadInv.link (h : ThreadInv s σ n) (hidle : s.pc θ = .idle)
    (hv : s.mem.handles (θ, v) = some (some x)) (hoff : ¬ OnSome σ x)
    {link : Pool L T → T → Option (Pool L T)} {ys : List T} (hperm : ys.Perm (x :: σ l))
    (hlink : ∃ lists, link s.mem.lists x = some lists ∧
      Represents lists (Function.update σ l ys)) :
    ∃ mem n', s.mem.link link (some x) = some mem ∧
      ThreadInv { s with mem } (Function.update σ l ys) n' := by
  obtain ⟨lists, hlink, hrep⟩ := hlink
  have hpos := h.handle_pos hv
  have hc := (h.counted.addRef (h.counted.live x hpos)).link hrep hperm hoff
  have hsame : (s.mem.addRef x).lists = s.mem.lists := rfl
  refine ⟨{ s.mem.addRef x with lists }, _, by simp [Mem.link, hsame, hlink],
    h.access hidle hc (fun _ hy => hy) (fun y _ hn => ?_) fun _ _ _ => rfl⟩
  have hyx : y ≠ x := by
    rintro rfl
    omega
  rw [Function.update_of_ne hyx]
  exact hn

/-- What `c` says, in the place of a thread's `pc`, while the others stay. -/
structure PcOk (s : Sys Θ V L T) (mem : Mem (Θ × V) L T) (n' : T → ℕ) (θ : Θ) (c : Pc V T) :
    Prop where
  popping : ∀ x v, c = .popping x v → mem.Live x ∧ mem.handles (θ, v) = none
  deleting : ∀ x, c = .deleting x → mem.Live x ∧ n' x = 0 ∧
    ∀ θ', θ' ≠ θ → s.pc θ' ≠ .deleting x ∧ ∀ v, s.pc θ' ≠ .popping x v
  other : ∀ θ' x, θ' ≠ θ → s.pc θ' = .deleting x → c ≠ .deleting x ∧ ∀ v, c ≠ .popping x v

omit [DecidableEq V] [DecidableEq L] in
theorem ThreadInv.advance (h : ThreadInv s σ n) {c : Pc V T} (hc : Counted mem σ' n' [])
    (hok : PcOk s mem n' θ c)
    (hlive : ∀ θ' y, θ' ≠ θ → (s.pc θ' = .deleting y ∨ ∃ v, s.pc θ' = .popping y v) → mem.Live y)
    (hzero : ∀ θ' y, θ' ≠ θ → s.pc θ' = .deleting y → n' y = 0)
    (hother : ∀ θ', θ' ≠ θ → ∀ v, mem.handles (θ', v) = s.mem.handles (θ', v)) :
    ThreadInv { s with mem, pc := Function.update s.pc θ c } σ' n' := by
  refine ⟨hc, fun θ' y v' hpc => ?_, fun θ' y hpc => ?_⟩
  · by_cases hθ : θ' = θ
    · subst hθ
      simp only [Function.update_self] at hpc
      exact hok.popping y v' hpc
    · simp only [Function.update_of_ne hθ] at hpc
      exact ⟨hlive θ' y hθ (Or.inr ⟨v', hpc⟩),
        (hother θ' hθ v').trans (h.popping θ' y v' hpc).2⟩
  · by_cases hθ : θ' = θ
    · subst hθ
      simp only [Function.update_self] at hpc
      obtain ⟨hy, hn, huniq⟩ := hok.deleting y hpc
      refine ⟨hy, hn, fun θ'' hne => ?_⟩
      simp only [Function.update_of_ne hne]
      exact huniq θ'' hne
    · simp only [Function.update_of_ne hθ] at hpc
      refine ⟨hlive θ' y hθ (Or.inl hpc), hzero θ' y hθ hpc, fun θ'' hne => ?_⟩
      by_cases hθ' : θ'' = θ
      · subst hθ'
        simp only [Function.update_self]
        exact hok.other θ' y hθ hpc
      · simp only [Function.update_of_ne hθ']
        exact (h.deleting θ' y hpc).2.2 θ'' hne

omit [DecidableEq Θ] [DecidableEq V] [DecidableEq L] in
theorem ThreadInv.pc_live (h : ThreadInv s σ n) {y : T}
    (hpc : s.pc θ = .deleting y ∨ ∃ v, s.pc θ = .popping y v) : s.mem.Live y := by
  rcases hpc with hpc | ⟨v, hpc⟩
  · exact (h.deleting θ y hpc).1
  · exact (h.popping θ y v hpc).1

omit [DecidableEq V] in
/-- A pop takes the list's reference away, but not the object. -/
theorem ThreadInv.unlink (h : ThreadInv s σ n) (hv : s.mem.handles (θ, v) = none)
    {unlink : Pool L T → Option (Option T × Pool L T)} {ys : List T}
    (hperm : (σ l).Perm (x :: ys))
    (hunlink : ∃ lists, unlink s.mem.lists = some (some x, lists) ∧
      Represents lists (Function.update σ l ys)) :
    ∃ mem n', s.mem.unlink unlink = some (x, mem) ∧
      ThreadInv { s with mem, pc := Function.update s.pc θ (.popping x v) }
        (Function.update σ l ys) n' := by
  obtain ⟨lists, hunlink, hrep⟩ := hunlink
  have hpos : 0 < n x := h.listed_pos ⟨l, hperm.mem_iff.mpr List.mem_cons_self⟩
  have hc := (h.counted.unlink hrep hperm).release
  have hne : ∀ θ' y, s.pc θ' = .deleting y → y ≠ x := by
    rintro θ' y hpc rfl
    have hn := (h.deleting θ' y hpc).2.1
    omega
  refine ⟨({ s.mem with lists }.release x).2, _, by simp [Mem.unlink, hunlink],
    h.advance hc ⟨fun y v' he => ?_, fun y he => (by cases he), fun θ' y _ hpc => ?_⟩
      (fun θ' y _ hpc => h.pc_live hpc) (fun θ' y _ hpc => ?_) fun _ _ _ => rfl⟩
  · obtain ⟨rfl, rfl⟩ := Pc.popping.inj he
    exact ⟨h.counted.live x hpos, hv⟩
  · exact ⟨by simp, fun v' he => hne θ' y hpc (Pc.popping.inj he).1.symm⟩
  · rw [Function.update_of_ne (hne θ' y hpc)]
    exact (h.deleting θ' y hpc).2.1

omit [DecidableEq L] in
theorem ThreadInv.popReturn (h : ThreadInv s σ n) (hpc : s.pc θ = .popping x v) :
    ∃ n', ThreadInv { s with
      mem := s.mem.construct (θ, v) (some x)
      pc := Function.update s.pc θ .idle } σ n' := by
  obtain ⟨hx, hv⟩ := h.popping θ x v hpc
  have hc := Counted.set (θ, v) (some (some x)) (h.counted.addRef hx)
  have hold : (s.mem.addRef x).handles (θ, v) = none := hv
  rw [hold] at hc
  refine ⟨_, h.advance hc ⟨fun y v' he => (by cases he), fun y he => (by cases he),
    fun θ' y _ _ => ⟨by simp, by simp⟩⟩ (fun θ' y _ hpc => h.pc_live hpc)
    (fun θ' y hθ hpc' => ?_) fun θ' hne v' => set_other _ hne _ v'⟩
  obtain ⟨-, hn, huniq⟩ := h.deleting θ' y hpc'
  have hyx : y ≠ x := by
    rintro rfl
    exact (huniq θ (Ne.symm hθ)).2 v hpc
  rwa [Function.update_of_ne hyx]

omit [DecidableEq V] [DecidableEq L] in
theorem ThreadInv.delete (h : ThreadInv s σ n) (hpc : s.pc θ = .deleting x) :
    ThreadInv { s with
      mem := s.mem.delete x
      pc := Function.update s.pc θ .idle } σ n := by
  obtain ⟨hx, hn, huniq⟩ := h.deleting θ x hpc
  refine h.advance (h.counted.delete hx hn) ⟨fun y v' he => (by cases he),
    fun y he => (by cases he), fun θ' y _ _ => ⟨by simp, by simp⟩⟩ (fun θ' y hθ hpc' => ?_)
    (fun θ' y _ hpc' => (h.deleting θ' y hpc').2.1) fun _ _ _ => rfl
  obtain ⟨hadopted, hnot⟩ := h.pc_live hpc'
  refine ⟨hadopted, fun hd => ?_⟩
  rcases List.mem_append.mp hd with hd | hd
  · exact hnot hd
  · obtain rfl := List.mem_singleton.mp hd
    obtain ⟨hdel, hpop⟩ := huniq θ' hθ
    rcases hpc' with hpc' | ⟨v', hpc'⟩
    · exact hdel hpc'
    · exact hpop v' hpc'

omit [DecidableEq L] in
theorem drop_some (hidle : s.pc θ = .idle) (hptr : s.mem.handles (θ, v) = some (some x)) :
    s.drop θ v = some { s with
      mem := ((s.mem.set (θ, v) none).release x).2
      pc := if ((s.mem.set (θ, v) none).release x).1 = true then
        Function.update s.pc θ (.deleting x) else s.pc } := by
  simp only [Sys.drop, hidle, hptr, Option.bind_some, bind]
  rfl

omit [DecidableEq L] in
/-- Dropping a variable, with no pop of its object under way if it is the last one. -/
theorem ThreadInv.drop (h : ThreadInv s σ n) (hidle : s.pc θ = .idle)
    (hv : s.mem.handles (θ, v) ≠ none)
    (havoid : ∀ x, s.mem.handles (θ, v) = some (some x) → references s.mem x < 2 ^ 32 ∧
      (s.mem.refCount x = 1 → ∀ θ' v', s.pc θ' ≠ .popping x v')) :
    ∃ s' n', s.drop θ v = some s' ∧ ThreadInv s' σ n' := by
  obtain ⟨ptr, hptr⟩ := Option.ne_none_iff_exists'.mp hv
  have hset := Counted.set (θ, v) none h.counted
  rw [hptr] at hset
  cases ptr with
  | none =>
    refine ⟨{ s with mem := s.mem.set (θ, v) none }, n, by simp [Sys.drop, hidle, hptr], ?_⟩
    exact h.access hidle hset (fun _ hy => hy) (fun _ _ hn => hn)
      fun θ' hne v' => set_other _ hne _ v'
  | some x =>
    obtain ⟨hlt, hpops⟩ := havoid x hptr
    rw [h.counted.references_eq] at hlt
    have hpos := h.handle_pos hptr
    have hxlive := h.counted.live x hpos
    have hrel := hset.release
    have hlast := hset.release_last hlt
    have hone : (s.mem.refCount x = 1) ↔ n x = 1 := by
      rw [← hlast]
      simp [Mem.release, Mem.set]
    have hzero : ∀ θ' y, s.pc θ' = .deleting y → Function.update n x (n x - 1) y = 0 := by
      intro θ' y hpc
      have hn := (h.deleting θ' y hpc).2.1
      have hyx : y ≠ x := by
        rintro rfl
        omega
      rwa [Function.update_of_ne hyx]
    have hothers : ∀ θ', θ' ≠ θ → ∀ v', ((s.mem.set (θ, v) none).release x).2.handles (θ', v') =
        s.mem.handles (θ', v') := fun θ' hne v' => set_other _ hne _ v'
    by_cases hn : n x = 1
    · refine ⟨_, _, by rw [drop_some hidle hptr, if_pos (hlast.mpr hn)],
        h.advance hrel ⟨fun y v' he => (by cases he), fun y he => ?_, fun θ' y hθ hpc => ?_⟩
          (fun θ' y _ hpc => h.pc_live hpc) (fun θ' y _ hpc => hzero θ' y hpc) hothers⟩
      · obtain rfl := Pc.deleting.inj he
        refine ⟨hxlive, by simp [hn], fun θ' _ => ⟨fun hpc => ?_, fun v' => hpops (hone.mpr hn) θ' v'⟩⟩
        have hzero := (h.deleting θ' x hpc).2.1
        omega
      · have hn' := (h.deleting θ' y hpc).2.1
        refine ⟨fun he => ?_, by simp⟩
        obtain rfl := Pc.deleting.inj he
        omega
    · refine ⟨_, Function.update n x (n x - 1),
        by rw [drop_some hidle hptr, if_neg (mt hlast.mp hn)],
        h.access hidle hrel (fun _ hy => hy) (fun y _ hy => ?_) hothers⟩
      have hyx : y ≠ x := by
        rintro rfl
        omega
      rwa [Function.update_of_ne hyx]

omit [DecidableEq Θ] [DecidableEq V] in
/-- The parameter still refers to what is taken off the list. -/
theorem ThreadInv.remove (h : ThreadInv s σ n) (hidle : s.pc θ = .idle) (hx : x ∈ σ l)
    (hlen : 2 ≤ (σ l).length) :
    ∃ mem σ' n', s.mem.remove l (some x) = some mem ∧ ThreadInv { s with mem } σ' n' := by
  obtain ⟨lists, hremove, hrep⟩ := h.counted.rep.remove l hx hlen
  have hpos := h.listed_pos ⟨l, hx⟩
  have hc := (h.counted.unlink hrep (List.perm_cons_erase hx)).release
  refine ⟨({ s.mem with lists }.release x).2, _, _, by simp [Mem.remove, hremove],
    h.access hidle hc (fun _ hy => hy) (fun y _ hn => ?_) fun _ _ _ => rfl⟩
  have hyx : y ≠ x := by
    rintro rfl
    omega
  rwa [Function.update_of_ne hyx]

/-! Runs. -/

/-- The invariant of a run. -/
def Tended (s : Sys Θ V L T) : Prop := ∃ σ n, ThreadInv s σ n

omit [DecidableEq Θ] [DecidableEq V] [DecidableEq L] [DecidableEq T] in
theorem access_idle {f : Mem (Θ × V) L T → Option (Mem (Θ × V) L T)}
    (hs : s.access θ f = some s') :
    s.pc θ = .idle ∧ ∃ mem, f s.mem = some mem ∧ s' = { s with mem } := by
  unfold Sys.access at hs
  cases hpc : s.pc θ with
  | idle =>
    simp only [hpc] at hs
    obtain ⟨mem, hmem, hs⟩ := Option.bind_eq_some_iff.mp hs
    exact ⟨rfl, mem, hmem, (Option.some.inj hs).symm⟩
  | _ => simp [hpc] at hs

omit [DecidableEq Θ] [DecidableEq V] [DecidableEq L] in
theorem tended_of_access {f : Mem (Θ × V) L T → Option (Mem (Θ × V) L T)}
    (hs : s.access θ f = some s')
    (hf : s.pc θ = .idle → ∃ mem σ' n', f s.mem = some mem ∧ ThreadInv { s with mem } σ' n') :
    Tended s' := by
  obtain ⟨hidle, mem, hmem, rfl⟩ := access_idle hs
  obtain ⟨mem', σ', n', hmem', h'⟩ := hf hidle
  obtain rfl : mem = mem' := Option.some.inj (hmem.symm.trans hmem')
  exact ⟨σ', n', h'⟩

omit [DecidableEq V] [DecidableEq L] in
theorem tended_of_listAccess {f : Mem (Θ × V) L T → Option (Mem (Θ × V) L T)}
    (hs : s.listAccess θ l f = some s')
    (hf : s.pc θ = .idle → ∃ mem σ' n', f s.mem = some mem ∧ ThreadInv { s with mem } σ' n') :
    Tended s' := by
  unfold Sys.listAccess at hs
  split_ifs at hs
  exact tended_of_access hs hf

omit [DecidableEq V] [DecidableEq L] in
theorem pop_idle {unlink : Pool L T → Option (Option T × Pool L T)}
    (hs : s.pop θ l v unlink = some s') :
    ∃ x mem, s.mem.unlink unlink = some (x, mem) ∧
      s' = { s with mem, pc := Function.update s.pc θ (.popping x v) } := by
  unfold Sys.pop at hs
  cases hpc : s.pc θ with
  | idle =>
    simp only [hpc] at hs
    split_ifs at hs
    obtain ⟨⟨x, mem⟩, hmem, hs⟩ := Option.bind_eq_some_iff.mp hs
    exact ⟨x, mem, hmem, (Option.some.inj hs).symm⟩
  | _ => simp [hpc] at hs

omit [DecidableEq V] in
theorem ThreadInv.insert (h : ThreadInv s σ n)
    (hnode : ∃ x, s.mem.handles (θ, v) = some (some x) ∧ NotListed s.mem x)
    (link : Pool L T → T → Option (Pool L T)) (ys : T → List T)
    (hperm : ∀ x, (ys x).Perm (x :: σ l))
    (hlink : ∀ x, ¬ OnSome σ x → ∃ lists, link s.mem.lists x = some lists ∧
      Represents lists (Function.update σ l (ys x)))
    (hs : s.insert θ l v link = some s') : Tended s' := by
  obtain ⟨x, hx, hnot⟩ := hnode
  have hoff := hnot.not_onSome h.counted.rep
  refine tended_of_listAccess hs fun hidle => ?_
  obtain ⟨mem, n', hmem, h'⟩ := h.link hidle hx hoff (hperm x) (hlink x hoff)
  exact ⟨mem, _, n', by simp [hx, hmem], h'⟩

omit [DecidableEq V] in
theorem ThreadInv.pop (h : ThreadInv s σ n) (hv : s.mem.handles (θ, v) = none)
    (unlink : Pool L T → Option (Option T × Pool L T)) {ys : List T}
    (hperm : (σ l).Perm (x :: ys))
    (hunlink : ∃ lists, unlink s.mem.lists = some (some x, lists) ∧
      Represents lists (Function.update σ l ys))
    (hs : s.pop θ l v unlink = some s') : Tended s' := by
  obtain ⟨y, mem, hmem, rfl⟩ := pop_idle hs
  obtain ⟨mem', n', hmem', h'⟩ := h.unlink (θ := θ) hv hperm hunlink
  obtain ⟨rfl, rfl⟩ := Prod.mk.inj (Option.some.inj (hmem.symm.trans hmem'))
  exact ⟨_, n', h'⟩

omit [DecidableEq L] in
theorem drop_idle (hs : s.drop θ v = some s') : s.pc θ = .idle := by
  unfold Sys.drop at hs
  cases hpc : s.pc θ <;> simp [hpc] at hs ⊢

omit [DecidableEq V] [DecidableEq L] [DecidableEq T] in
theorem delete_deleting (hs : s.delete θ = some s') : ∃ x, s.pc θ = .deleting x ∧
    s' = { s with mem := s.mem.delete x, pc := Function.update s.pc θ .idle } := by
  unfold Sys.delete at hs
  cases hpc : s.pc θ with
  | deleting x =>
    simp only [hpc] at hs
    exact ⟨x, rfl, (Option.some.inj hs).symm⟩
  | _ => simp [hpc] at hs

omit [DecidableEq L] in
theorem popReturn_popping (hs : s.popReturn θ = some s') : ∃ x v, s.pc θ = .popping x v ∧
    s' = { s with
      mem := s.mem.construct (θ, v) (some x)
      pc := Function.update s.pc θ .idle } := by
  unfold Sys.popReturn at hs
  cases hpc : s.pc θ with
  | popping x v =>
    simp only [hpc] at hs
    exact ⟨x, v, rfl, (Option.some.inj hs).symm⟩
  | _ => simp [hpc] at hs

omit [DecidableEq V] [DecidableEq T] in
/-- Taking a lock or giving it back leaves the rest. -/
theorem acquire_unlock (hs : s.acquire θ l = some s' ∨ s.unlock θ l = some s') :
    s'.mem = s.mem ∧ s'.pc = s.pc := by
  rcases hs with hs | hs
  · unfold Sys.acquire at hs
    split at hs
    · obtain rfl := Option.some.inj hs
      exact ⟨rfl, rfl⟩
    · cases hs
  · unfold Sys.unlock at hs
    split at hs
    · split_ifs at hs
      obtain rfl := Option.some.inj hs
      exact ⟨rfl, rfl⟩
    · cases hs

omit [DecidableEq Θ] [DecidableEq V] [DecidableEq L] in
theorem ThreadInv.congr (h : ThreadInv s σ n) (hmem : s'.mem = s.mem) (hpc : s'.pc = s.pc) :
    ThreadInv s' σ n := by
  refine ⟨?_, ?_, ?_⟩
  · rw [hmem]
    exact h.counted
  · rw [hmem, hpc]
    exact h.popping
  · rw [hmem, hpc]
    exact h.deleting

theorem ThreadInv.step (h : ThreadInv s σ n) {a : Θ × Act V L T} (hproper : Proper s a)
    (havoid : Avoids s a) (hs : s.step a = some s') : Tended s' := by
  obtain ⟨θ, a⟩ := a
  cases a with
  | adoptRef v x =>
    simp only [Sys.step] at hs
    refine tended_of_access hs fun hidle => ?_
    obtain ⟨n', h'⟩ := h.adoptRef hidle hproper.1 hproper.2
    exact ⟨_, σ, n', rfl, h'⟩
  | copy v w =>
    simp only [Sys.step] at hs
    refine tended_of_access hs fun hidle => ?_
    obtain ⟨ptr, hptr⟩ := Option.ne_none_iff_exists'.mp hproper.2
    obtain ⟨n', h'⟩ := h.construct hidle hproper.1 ptr fun x hx => h.handle_pos (hx ▸ hptr)
    exact ⟨_, σ, n', by simp [Mem.copyConstruct, hptr], h'⟩
  | move v w =>
    simp only [Sys.step] at hs
    refine tended_of_access hs fun hidle => ?_
    obtain ⟨ptr, hmem, hc⟩ := h.counted.moveConstruct hproper.1 hproper.2
    exact ⟨_, σ, n, hmem, h.access hidle hc (fun _ hy => hy) (fun _ _ hn => hn)
      fun θ' hne v' => (set_other _ hne _ v').trans (set_other _ hne _ v')⟩
  | swap v w =>
    simp only [Sys.step] at hs
    refine tended_of_access hs fun hidle => ?_
    obtain ⟨tmp, ptr, hmem, hc⟩ := h.counted.swap hproper.1 hproper.2
    exact ⟨_, σ, n, hmem, h.access hidle hc (fun _ hy => hy) (fun _ _ hn => hn)
      fun θ' hne v' => (set_other _ hne _ v').trans (set_other _ hne _ v')⟩
  | drop v =>
    obtain ⟨s₁, n', hs₁, h'⟩ := h.drop (drop_idle hs) hproper havoid
    obtain rfl : s' = s₁ := Option.some.inj (hs.symm.trans hs₁)
    exact ⟨σ, n', h'⟩
  | delete =>
    obtain ⟨x, hpc, rfl⟩ := delete_deleting hs
    exact ⟨σ, n, h.delete hpc⟩
  | acquire l =>
    obtain ⟨hmem, hpc⟩ := acquire_unlock (Or.inl hs)
    exact ⟨σ, n, h.congr hmem hpc⟩
  | unlock l =>
    obtain ⟨hmem, hpc⟩ := acquire_unlock (Or.inr hs)
    exact ⟨σ, n, h.congr hmem hpc⟩
  | pushFront l node =>
    exact h.insert hproper (fun p x => p.pushFront l x) (fun x => x :: σ l)
      (fun _ => List.Perm.refl _)
      (fun x hoff => h.counted.rep.pushFront l fun j hj => hoff ⟨j, hj⟩) hs
  | pushBack l node =>
    exact h.insert hproper (fun p x => p.pushBack l x) (fun x => σ l ++ [x])
      (fun x => List.perm_append_singleton x _)
      (fun x hoff => h.counted.rep.pushBack l fun j hj => hoff ⟨j, hj⟩) hs
  | insertBefore l inspt node =>
    obtain ⟨hnode, xs, hxs, hmem⟩ := hproper
    obtain rfl := Option.some.inj ((h.counted.rep.lists l).visit_eq.symm.trans hxs)
    exact h.insert hnode (fun p x => p.insertBefore l inspt x)
      (fun x => insertSeq inspt x (σ l)) (fun _ => insertSeq_perm hmem)
      (fun x hoff => h.counted.rep.insertBefore l hmem fun j hj => hoff ⟨j, hj⟩) hs
  | popFront l v =>
    obtain ⟨x, ys, p, hpop, hrep, hperm⟩ := h.counted.rep.popFront_some hproper.1
    exact h.pop hproper.2 (·.popFront l) hperm ⟨p, hpop, hrep⟩ hs
  | popBack l v =>
    obtain ⟨x, ys, p, hpop, hrep, hperm⟩ := h.counted.rep.popBack_some hproper.1
    exact h.pop hproper.2 (·.popBack l) hperm ⟨p, hpop, hrep⟩ hs
  | popReturn =>
    obtain ⟨x, v, hpc, rfl⟩ := popReturn_popping hs
    obtain ⟨n', h'⟩ := h.popReturn hpc
    exact ⟨σ, n', h'⟩
  | remove l node =>
    obtain ⟨x, xs, hx, hxs, hmem⟩ := hproper
    obtain rfl := Option.some.inj ((h.counted.rep.lists l).visit_eq.symm.trans hxs)
    obtain ⟨ys, hys, hlen⟩ := havoid
    obtain rfl := Option.some.inj ((h.counted.rep.lists l).visit_eq.symm.trans hys)
    refine tended_of_listAccess hs fun hidle => ?_
    obtain ⟨mem, σ', n', hmem', h'⟩ := h.remove hidle hmem hlen
    exact ⟨mem, σ', n', by simp [hx, hmem'], h'⟩
  | first l v =>
    refine tended_of_listAccess hs fun hidle => ?_
    obtain ⟨n', h'⟩ := h.construct hidle hproper _ fun x => h.first_pos
    exact ⟨_, σ, n', rfl, h'⟩
  | last l v =>
    refine tended_of_listAccess hs fun hidle => ?_
    obtain ⟨n', h'⟩ := h.construct hidle hproper _ fun x => h.last_pos
    exact ⟨_, σ, n', rfl, h'⟩

theorem preserves_tended : Preserves (Sys.step (Θ := Θ) (V := V) (L := L) (T := T)) Tended
    fun s a => Proper s a ∧ Avoids s a := by
  rintro s a s' ⟨σ, n, h⟩ ⟨hproper, havoid⟩ hs
  exact h.step hproper havoid hs

omit [DecidableEq Θ] [DecidableEq V] [DecidableEq L] in
theorem Tended.noUse (h : Tended s) {a : Θ × Act V L T} (hproper : Proper s a) : NoUse s a := by
  obtain ⟨σ, n, h⟩ := h
  obtain ⟨θ, a⟩ := a
  intro x hx
  have hhandle : ∀ v, (s.mem.handles (θ, v)).join = some x → x ∉ s.mem.destroyed := by
    intro v hv
    have hmem : s.mem.handles (θ, v) = some (some x) := Option.join_eq_some_iff.mp hv
    exact (h.counted.live x (h.handle_pos hmem)).2
  cases a with
  | adoptRef v y =>
    obtain rfl := Option.some.inj hx
    exact fun hd => hproper.2 (h.counted.adopted y hd)
  | copy v w => exact hhandle w hx
  | drop v => exact hhandle v hx
  | pushFront l node => exact hhandle node hx
  | pushBack l node => exact hhandle node hx
  | insertBefore l inspt node => exact hhandle node hx
  | remove l node => exact hhandle node hx
  | delete =>
    cases hpc : s.pc θ with
    | deleting y =>
      simp only [Sys.uses, hpc] at hx
      obtain rfl := Option.some.inj hx
      exact (h.deleting θ y hpc).1.2
    | _ => simp [Sys.uses, hpc] at hx
  | popReturn =>
    cases hpc : s.pc θ with
    | popping y v =>
      simp only [Sys.uses, hpc] at hx
      obtain rfl := Option.some.inj hx
      exact (h.popping θ y v hpc).1.2
    | _ => simp [Sys.uses, hpc] at hx
  | popFront l v => exact (h.counted.live x (h.first_pos hx)).2
  | popBack l v => exact (h.counted.live x (h.last_pos hx)).2
  | first l v => exact (h.counted.live x (h.first_pos hx)).2
  | last l v => exact (h.counted.live x (h.last_pos hx)).2
  | _ => cases hx

omit [DecidableEq Θ] [DecidableEq V] [DecidableEq L] in
theorem Tended.noDangling (h : Tended s) : NoDangling s := by
  obtain ⟨σ, n, h⟩ := h
  exact ⟨h.counted.once, fun g x hg => (h.counted.live x (h.handle_pos hg)).2⟩

/-- No variable yet, and no thread in the middle of an operation. -/
structure SysStart (s : Sys Θ V L T) : Prop where
  mem : Start s.mem
  pc : ∀ θ, s.pc θ = .idle

omit [DecidableEq Θ] [DecidableEq V] [DecidableEq L] in
theorem SysStart.tended (h : SysStart s) : Tended s := by
  refine ⟨_, _, h.mem.counted, fun θ x v hpc => ?_, fun θ x hpc => ?_⟩
  · rw [h.pc θ] at hpc
    cases hpc
  · rw [h.pc θ] at hpc
    cases hpc

/-- In a run that keeps to the conditions nothing deleted is used. -/
theorem no_use_after_free (h : SysStart s) {acts : List (Θ × Act V L T)}
    (hproper : AlongRun Sys.step Proper s acts) (havoid : AlongRun Sys.step Avoids s acts) :
    AlongRun Sys.step NoUse s acts ∧ EveryState Sys.step NoDangling s acts :=
  ⟨preserves_tended.alongRun_of_inv (fun _ _ hs hP => hs.noUse hP.1) h.tended
      (hproper.and havoid),
    preserves_tended.everyState (fun _ hs => hs.noDangling) h.tended (hproper.and havoid)⟩

/-- Two threads of two variables each, and one list. -/
def twoThreads : Sys Bool Bool Unit ℕ where
  mem :=
    { refCount := fun _ => 0
      handles := fun _ => none
      lists := Pool.new ⟨fun _ => none, fun _ => none⟩
      adopted := []
      destroyed := [] }
  lock _ := none
  pc _ := .idle

theorem sysStart_twoThreads : SysStart twoThreads :=
  ⟨⟨fun _ => rfl, represents_new _, rfl, rfl⟩, fun _ => rfl⟩

/-- `true` puts an object on the list, `false` takes a variable from there, and `true`
begins to pop it: the only counted reference is now the one of `false`. -/
def popBegun : List (Bool × Act Bool Unit ℕ) :=
  [(true, .adoptRef true 7), (true, .acquire ()), (true, .pushBack () true), (true, .drop true),
    (true, .unlock ()), (false, .acquire ()), (false, .first () true), (false, .unlock ()),
    (true, .acquire ()), (true, .popFront () true)]

def popEnded : List (Bool × Act Bool Unit ℕ) :=
  [(true, .popReturn), (true, .unlock ()), (false, .drop true), (true, .drop true),
    (true, .delete)]

theorem notListed_twoThreads : NotListed (twoThreads.mem.adoptRef (true, true) 7) 7 := by
  intro l xs hxs
  have hnil := (sysStart_twoThreads.mem.lists.lists l).visit_eq
  obtain rfl := Option.some.inj (hnil.symm.trans hxs)
  exact List.not_mem_nil

theorem proper_popBegun_popEnded : AlongRun Sys.step Proper twoThreads (popBegun ++ popEnded) :=
  .cons ⟨rfl, List.not_mem_nil⟩ rfl (.cons trivial rfl (.cons ⟨7, rfl, notListed_twoThreads⟩ rfl
    (.cons (Option.some_ne_none _) rfl (.cons trivial rfl (.cons trivial rfl (.cons rfl rfl
      (.cons trivial rfl (.cons trivial rfl (.cons ⟨rfl, rfl⟩ rfl (.cons trivial rfl
        (.cons trivial rfl (.cons (Option.some_ne_none _) rfl (.cons (Option.some_ne_none _) rfl
          (.cons trivial rfl trivial))))))))))))))

theorem avoids_drop {s : Sys Bool Bool Unit ℕ} (hidle : ∀ θ, s.pc θ = .idle) (θ v : Bool) :
    Avoids s (θ, .drop v) := by
  intro x _
  refine ⟨(references_le_card s.mem x).trans_lt (by decide), fun _ θ' v' hpc => ?_⟩
  rw [hidle θ'] at hpc
  cases hpc

/-- The pop is over before `false` drops its variable. -/
theorem no_use_after_free_popEnded :
    AlongRun Sys.step NoUse twoThreads (popBegun ++ popEnded) ∧
      EveryState Sys.step NoDangling twoThreads (popBegun ++ popEnded) := by
  have hafter : ∀ θ, Function.update (Function.update (fun _ => Pc.idle) true
      (.popping 7 true)) true (.idle : Pc Bool ℕ) θ = .idle := by
    intro θ
    cases θ <;> rfl
  have havoid : AlongRun Sys.step Avoids twoThreads (popBegun ++ popEnded) :=
    .cons trivial rfl (.cons trivial rfl (.cons trivial rfl
      (.cons (avoids_drop (fun _ => rfl) true true) rfl (.cons trivial rfl (.cons trivial rfl
        (.cons trivial rfl (.cons trivial rfl (.cons trivial rfl (.cons trivial rfl
          (.cons trivial rfl (.cons trivial rfl (.cons (avoids_drop hafter false true) rfl
            (.cons (avoids_drop hafter true true) rfl (.cons trivial rfl trivial))))))))))))))
  exact no_use_after_free sysStart_twoThreads proper_popBegun_popEnded havoid

/-- If `false` drops its variable first, the pop returns a variable for a deleted object. -/
theorem pop_returns_deleted :
    SysStart twoThreads ∧
      AlongRun Sys.step Proper twoThreads
        (popBegun ++ [(false, .drop true), (false, .delete), (true, .popReturn)]) ∧
      ∃ s', run Sys.step twoThreads
          (popBegun ++ [(false, .drop true), (false, .delete), (true, .popReturn)]) = some s' ∧
        s'.mem.handles (true, true) = some (some 7) ∧ 7 ∈ s'.mem.destroyed := by
  refine ⟨sysStart_twoThreads, ?_, _, rfl, rfl, List.mem_cons_self⟩
  exact .cons ⟨rfl, List.not_mem_nil⟩ rfl (.cons trivial rfl
    (.cons ⟨7, rfl, notListed_twoThreads⟩ rfl (.cons (Option.some_ne_none _) rfl
      (.cons trivial rfl (.cons trivial rfl (.cons rfl rfl (.cons trivial rfl
        (.cons trivial rfl (.cons ⟨rfl, rfl⟩ rfl (.cons (Option.some_ne_none _) rfl
          (.cons trivial rfl (.cons trivial rfl trivial))))))))))))

end CxKernel.RefPtr
