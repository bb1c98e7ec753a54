import CxKernel.Lib.Runs
import CxKernel.Proofs.RefPtr

/-! The reference counts of one thread. Between its operations the count of every live
object is the number of variables and lists that refer to it, and an object is deleted by
the operation that takes this number to zero. -/

namespace CxKernel.RefPtr

open LinkedList FiberCount Runs

variable {H L T : Type} [DecidableEq H] [DecidableEq L] [DecidableEq T]

/-- Every live object is referred to, and no object more than `b` times. -/
def Balanced (s : Mem H L T) (σ : L → List T) (tmp : List T) (b : ℕ) : Prop :=
  ∃ n, Counted s σ n tmp ∧ (∀ x, s.Live x → 0 < n x) ∧ ∀ x, n x ≤ b

variable {s s' : Mem H L T} {σ : L → List T} {tmp : List T} {b : ℕ} {x : T} {h g : H} {l : L}
  {ptr : Option T}

/-! What has a reference is live. -/

omit [DecidableEq H] [DecidableEq L] in
theorem Balanced.live_tmp (hb : Balanced s σ tmp b) (hx : x ∈ tmp) : s.Live x := by
  obtain ⟨n, hc, -⟩ := hb
  have hr := hc.refs x
  have hpos := List.count_pos_iff.mpr hx
  exact hc.live x (by omega)

omit [DecidableEq H] [DecidableEq L] in
theorem Balanced.live_handle (hb : Balanced s σ tmp b) (hh : s.handles h = some (some x)) :
    s.Live x := by
  obtain ⟨n, hc, -⟩ := hb
  have hr := hc.refs x
  have hpos := fiberCount_pos (hc.fin x) hh
  exact hc.live x (by omega)

omit [DecidableEq H] [DecidableEq L] in
theorem Balanced.live_listed (hb : Balanced s σ tmp b) (hx : OnSome σ x) : s.Live x := by
  obtain ⟨n, hc, -⟩ := hb
  have hr := hc.refs x
  rw [listed_of_onSome hx] at hr
  exact hc.live x (by omega)

/-! The rules for the steps. -/

omit [DecidableEq H] [DecidableEq L] in
theorem destroy_some (s : Mem H L T) (x : T) : s.destroy (some x) =
    if (s.release x).1 = true then (s.release x).2.delete x else (s.release x).2 := rfl

omit [DecidableEq H] [DecidableEq L] in
theorem Balanced.addRef (hb : Balanced s σ tmp b) (hx : s.Live x) :
    Balanced (s.addRef x) σ (x :: tmp) (b + 1) := by
  obtain ⟨n, hc, hkept, hle⟩ := hb
  refine ⟨_, hc.addRef hx, fun y hy => ?_, fun y => ?_⟩
  · by_cases hyx : y = x
    · subst hyx
      simp
    · rw [Function.update_of_ne hyx]
      exact hkept y hy
  · have hley := hle y
    by_cases hyx : y = x
    · subst hyx
      simp [hley]
    · rw [Function.update_of_ne hyx]
      omega

omit [DecidableEq H] [DecidableEq L] in
theorem Balanced.ref (hb : Balanced s σ [] b) (hlive : ∀ x, ptr = some x → s.Live x) :
    Balanced (s.ref ptr) σ (held (some ptr)) (b + 1) := by
  cases ptr with
  | none =>
    obtain ⟨n, hc, hkept, hle⟩ := hb
    exact ⟨n, hc, hkept, fun x => Nat.le_succ_of_le (hle x)⟩
  | some x => exact hb.addRef (hlive x rfl)

omit [DecidableEq H] [DecidableEq L] in
theorem Balanced.adopt (hb : Balanced s σ tmp b) (hx : x ∉ s.adopted) :
    Balanced (s.adopt x) σ (x :: tmp) (b + 1) := by
  obtain ⟨n, hc, hkept, hle⟩ := hb
  refine ⟨_, hc.adopt hx, fun y hy => ?_, fun y => ?_⟩
  · by_cases hyx : y = x
    · subst hyx
      simp
    · rw [Function.update_of_ne hyx]
      have hadopted : y ∈ s.adopted := by simpa [Mem.adopt, hyx] using hy.1
      exact hkept y ⟨hadopted, hy.2⟩
  · have hley := hle y
    by_cases hyx : y = x
    · subst hyx
      simp
    · rw [Function.update_of_ne hyx]
      omega

omit [DecidableEq H] [DecidableEq L] in
/-- A temporary goes away, and with the last reference the object. -/
theorem Balanced.destroy_ptr (hb : Balanced s σ (x :: tmp) b) (hlt : b < 2 ^ 32) :
    Balanced (s.destroy (some x)) σ tmp b := by
  obtain ⟨n, hc, hkept, hle⟩ := hb
  have hrel := hc.release
  have hbound : ∀ y, Function.update n x (n x - 1) y ≤ b := by
    intro y
    have hley := hle y
    by_cases hyx : y = x
    · subst hyx
      simp only [Function.update_self]
      omega
    · rw [Function.update_of_ne hyx]
      exact hley
  have hothers : ∀ y, y ≠ x → s.Live y → 0 < Function.update n x (n x - 1) y := by
    intro y hyx hy
    rw [Function.update_of_ne hyx]
    exact hkept y hy
  have hlast := hc.release_last (Nat.lt_of_le_of_lt (hle x) hlt)
  have hxlive : s.Live x := hc.live x hc.tmp_pos
  rw [destroy_some]
  by_cases hone : n x = 1
  · rw [if_pos (hlast.mpr hone)]
    refine ⟨_, hrel.delete hxlive (by simp [hone]), fun y hy => ?_, hbound⟩
    have hyx : y ≠ x := by
      rintro rfl
      exact hy.2 (List.mem_append_right _ List.mem_cons_self)
    exact hothers y hyx ⟨hy.1, fun hd => hy.2 (List.mem_append_left _ hd)⟩
  · rw [if_neg (mt hlast.mp hone)]
    refine ⟨_, hrel, fun y hy => ?_, hbound⟩
    by_cases hyx : y = x
    · subst hyx
      have hpos := hkept y hxlive
      simp only [Function.update_self]
      omega
    · exact hothers y hyx hy

omit [DecidableEq H] [DecidableEq L] in
theorem Balanced.destroy (hb : Balanced s σ (held (some ptr)) b) (hlt : b < 2 ^ 32) :
    Balanced (s.destroy ptr) σ [] b := by
  cases ptr with
  | none => exact hb
  | some x => exact hb.destroy_ptr hlt

omit [DecidableEq L] in
theorem Balanced.set (h : H) (v : Option (Option T)) (hb : Balanced s σ (held v) b) :
    Balanced (s.set h v) σ (held (s.handles h)) b := by
  obtain ⟨n, hc, hkept, hle⟩ := hb
  exact ⟨n, hc.set h v, hkept, hle⟩

omit [DecidableEq H] in
theorem Balanced.link (hb : Balanced s σ (x :: tmp) b) {lists : Pool L T} {ys : List T}
    (hrep : Represents lists (Function.update σ l ys)) (hperm : ys.Perm (x :: σ l))
    (hnot : ¬ OnSome σ x) : Balanced { s with lists } (Function.update σ l ys) tmp b := by
  obtain ⟨n, hc, hkept, hle⟩ := hb
  exact ⟨n, hc.link hrep hperm hnot, hkept, hle⟩

omit [DecidableEq H] in
theorem Balanced.unlink (hb : Balanced s σ tmp b) {lists : Pool L T} {ys : List T}
    (hrep : Represents lists (Function.update σ l ys)) (hperm : (σ l).Perm (x :: ys)) :
    Balanced { s with lists } (Function.update σ l ys) (x :: tmp) b := by
  obtain ⟨n, hc, hkept, hle⟩ := hb
  exact ⟨n, hc.unlink hrep hperm, hkept, hle⟩

/-! What the steps leave alone. -/

omit [DecidableEq H] [DecidableEq L] in
@[simp]
theorem ref_handles (s : Mem H L T) (ptr : Option T) : (s.ref ptr).handles = s.handles := by
  cases ptr <;> rfl

omit [DecidableEq H] [DecidableEq L] in
@[simp]
theorem ref_lists (s : Mem H L T) (ptr : Option T) : (s.ref ptr).lists = s.lists := by
  cases ptr <;> rfl

omit [DecidableEq H] [DecidableEq L] in
@[simp]
theorem destroy_handles (s : Mem H L T) (ptr : Option T) :
    (s.destroy ptr).handles = s.handles := by
  cases ptr with
  | none => rfl
  | some x =>
    rw [destroy_some]
    split_ifs <;> rfl

omit [DecidableEq H] [DecidableEq L] in
@[simp]
theorem destroy_lists (s : Mem H L T) (ptr : Option T) : (s.destroy ptr).lists = s.lists := by
  cases ptr with
  | none => rfl
  | some x =>
    rw [destroy_some]
    split_ifs <;> rfl

omit [DecidableEq L] in
theorem destroy_set (s : Mem H L T) (ptr : Option T) (h : H) (v : Option (Option T)) :
    (s.destroy ptr).set h v = (s.set h v).destroy ptr := by
  cases ptr with
  | none => rfl
  | some x =>
    have hlast : ((s.set h v).release x).1 = (s.release x).1 := rfl
    rw [destroy_some, destroy_some, hlast]
    split_ifs <;> rfl

omit [DecidableEq H] [DecidableEq L] in
/-- A pop drops the list's reference and counts the one of its result. -/
theorem release_addRef (s : Mem H L T) (x : T) : (s.release x).2.addRef x = s := by
  have hsub : s.refCount x - 1 + 1 = s.refCount x := BitVec.sub_add_cancel _ _
  simp only [Mem.release, Mem.addRef, Function.update_self, Function.update_idem, hsub,
    Function.update_eq_self]

/-! `RefPtr`. Each operation starts and ends without temporaries. -/

omit [DecidableEq L] in
theorem Balanced.construct (hb : Balanced s σ [] b) (hh : s.handles h = none)
    (hlive : ∀ x, ptr = some x → s.Live x) : Balanced (s.construct h ptr) σ [] (b + 1) := by
  have hset := Balanced.set h (some ptr) (hb.ref hlive)
  rwa [ref_handles, hh] at hset

omit [DecidableEq L] in
theorem Balanced.adoptRef (hb : Balanced s σ [] b) (hh : s.handles h = none)
    (hx : x ∉ s.adopted) : Balanced (s.adoptRef h x) σ [] (b + 1) := by
  have hset := Balanced.set h (some (some x)) (hb.adopt hx)
  have hold : (s.adopt x).handles h = none := hh
  rwa [hold] at hset

omit [DecidableEq L] in
theorem Balanced.copyConstruct (hb : Balanced s σ [] b) (hh : s.handles h = none)
    (hg : s.handles g ≠ none) :
    ∃ s', s.copyConstruct h g = some s' ∧ Balanced s' σ [] (b + 1) := by
  obtain ⟨ptr, hptr⟩ := Option.ne_none_iff_exists'.mp hg
  refine ⟨s.construct h ptr, by simp [Mem.copyConstruct, hptr], hb.construct hh ?_⟩
  rintro x rfl
  exact hb.live_handle hptr

omit [DecidableEq L] in
theorem Balanced.moveConstruct (hb : Balanced s σ [] b) (hh : s.handles h = none)
    (hg : s.handles g ≠ none) :
    ∃ s', s.moveConstruct h g = some s' ∧ Balanced s' σ [] b := by
  obtain ⟨n, hc, hkept, hle⟩ := hb
  obtain ⟨ptr, hs, hc'⟩ := hc.moveConstruct hh hg
  exact ⟨_, hs, n, hc', hkept, hle⟩

omit [DecidableEq L] in
theorem Balanced.copyAssign (hb : Balanced s σ [] b) (hlt : b + 1 < 2 ^ 32)
    (hh : s.handles h ≠ none) (hg : s.handles g ≠ none) :
    ∃ s', s.copyAssign h g = some s' ∧ Balanced s' σ [] (b + 1) := by
  obtain ⟨ptr, hptr⟩ := Option.ne_none_iff_exists'.mp hg
  obtain ⟨old, hold⟩ := Option.ne_none_iff_exists'.mp hh
  refine ⟨((s.ref ptr).set h (some ptr)).destroy old, ?_, ?_⟩
  · simp [Mem.copyAssign, hptr, hold]
  · have href : Balanced (s.ref ptr) σ (held (some ptr)) (b + 1) := by
      refine hb.ref ?_
      rintro x rfl
      exact hb.live_handle hptr
    have hset := href.set h (some ptr)
    rw [ref_handles, hold] at hset
    exact hset.destroy hlt

omit [DecidableEq L] in
/-- Also for `h = g`, where the temporary alone keeps the object. -/
theorem Balanced.moveAssign (hb : Balanced s σ [] b) (hlt : b < 2 ^ 32)
    (hh : s.handles h ≠ none) (hg : s.handles g ≠ none) :
    ∃ s', s.moveAssign h g = some s' ∧ Balanced s' σ [] b := by
  obtain ⟨ptr, hptr⟩ := Option.ne_none_iff_exists'.mp hg
  have htmp : (s.set g (some none)).handles h ≠ none := by
    by_cases hhg : h = g
    · simp [Mem.set, hhg]
    · simpa [Mem.set, Function.update_of_ne hhg] using hh
  obtain ⟨tmp, htmp⟩ := Option.ne_none_iff_exists'.mp htmp
  refine ⟨((s.set g (some none)).set h (some ptr)).destroy tmp, ?_, ?_⟩
  · simp [Mem.moveAssign, hptr, htmp]
  · have htake := Balanced.set g (some none) hb
    rw [hptr] at htake
    have hput := Balanced.set h (some ptr) htake
    rw [htmp] at hput
    exact hput.destroy hlt

omit [DecidableEq L] in
theorem Balanced.swap (hb : Balanced s σ [] b) (hh : s.handles h ≠ none)
    (hg : s.handles g ≠ none) : ∃ s', s.swap h g = some s' ∧ Balanced s' σ [] b := by
  obtain ⟨n, hc, hkept, hle⟩ := hb
  obtain ⟨tmp, ptr, hs, hc'⟩ := hc.swap hh hg
  exact ⟨_, hs, n, hc', hkept, hle⟩

omit [DecidableEq L] in
theorem Balanced.destruct (hb : Balanced s σ [] b) (hlt : b < 2 ^ 32)
    (hh : s.handles h ≠ none) : ∃ s', s.destruct h = some s' ∧ Balanced s' σ [] b := by
  obtain ⟨ptr, hptr⟩ := Option.ne_none_iff_exists'.mp hh
  refine ⟨(s.set h none).destroy ptr, by simp [Mem.destruct, hptr, destroy_set], ?_⟩
  have htake := Balanced.set h none hb
  rw [hptr] at htake
  exact htake.destroy hlt

/-! `IntrusiveList<RefPtr<T>>`. -/

/-- A raw pointer is made into a `RefPtr` only if its object is live. -/
def ArgOk (s : Mem H L T) : Arg H T → Prop
  | .raw ptr => ∀ x, ptr = some x → s.Live x
  | _ => True

omit [DecidableEq L] in
theorem Balanced.pass (hb : Balanced s σ [] b) {arg : Arg H T} (harg : ArgOk s arg)
    (hptr : s.argPtr arg = some ptr) :
    ∃ s', s.pass arg = some (ptr, s') ∧ Balanced s' σ (held (some ptr)) (b + 1) ∧
      s'.lists = s.lists := by
  cases arg with
  | copy h =>
    simp only [Mem.argPtr] at hptr
    refine ⟨s.ref ptr, by simp [Mem.pass, hptr], hb.ref ?_, ref_lists s ptr⟩
    rintro x rfl
    exact hb.live_handle hptr
  | move h =>
    simp only [Mem.argPtr] at hptr
    refine ⟨s.set h (some none), by simp [Mem.pass, hptr], ?_, rfl⟩
    have htake := Balanced.set h (some none) hb
    rw [hptr] at htake
    obtain ⟨n, hc, hkept, hle⟩ := htake
    exact ⟨n, hc, hkept, fun x => Nat.le_succ_of_le (hle x)⟩
  | raw ptr' =>
    obtain rfl : ptr' = ptr := Option.some.inj hptr
    exact ⟨s.ref ptr', rfl, hb.ref harg, ref_lists s ptr'⟩

theorem Balanced.insert (hb : Balanced s σ [] b) (hlt : b + 2 < 2 ^ 32) {arg : Arg H T}
    (harg : ArgOk s arg) (hptr : s.argPtr arg = some (some x)) (hnot : ¬ OnSome σ x)
    {link : Pool L T → T → Option (Pool L T)} {ys : List T} (hperm : ys.Perm (x :: σ l))
    (hlink : ∃ lists, link s.lists x = some lists ∧ Represents lists (Function.update σ l ys)) :
    ∃ s', s.insert link arg = some s' ∧ Balanced s' (Function.update σ l ys) [] (b + 2) := by
  obtain ⟨s₁, hpass, hb₁, hlists⟩ := hb.pass harg hptr
  obtain ⟨lists, hlink, hrep⟩ := hlink
  have hb₂ := hb₁.addRef (hb₁.live_tmp List.mem_cons_self)
  refine ⟨{ s₁.addRef x with lists }.destroy (some x), ?_, ?_⟩
  · have hsame : (s₁.addRef x).lists = s.lists := hlists
    simp [Mem.insert, Mem.link, hpass, hsame, hlink]
  · exact Balanced.destroy_ptr (hb₂.link hrep hperm hnot) hlt

omit [DecidableEq H] in
theorem Balanced.pop (hb : Balanced s σ [] b)
    (unlink : Pool L T → Option (Option T × Pool L T)) {ys : List T}
    (hperm : (σ l).Perm (x :: ys))
    (hunlink : ∃ lists, unlink s.lists = some (some x, lists) ∧
      Represents lists (Function.update σ l ys)) :
    ∃ s', s.pop unlink = some (x, s') ∧ Balanced s' (Function.update σ l ys) [x] b ∧
      s'.handles = s.handles := by
  obtain ⟨lists, hunlink, hrep⟩ := hunlink
  refine ⟨{ s with lists }, ?_, hb.unlink hrep hperm, rfl⟩
  simp [Mem.pop, Mem.unlink, hunlink, release_addRef]

omit [DecidableEq L] in
/-- The result of a pop makes a new variable. -/
theorem Balanced.keep (hb : Balanced s σ [x] b) (hh : s.handles h = none) :
    Balanced (s.set h (some (some x))) σ [] b := by
  have hset := Balanced.set h (some (some x)) hb
  rwa [hh] at hset

omit [DecidableEq H] [DecidableEq L] in
theorem Balanced.rep (hb : Balanced s σ tmp b) : Represents s.lists σ := by
  obtain ⟨n, hc, -⟩ := hb
  exact hc.rep

omit [DecidableEq H] in
/-- The destructor of a list, by induction on the objects it still has. -/
theorem Balanced.clear (hb : Balanced s σ [] b) (hlt : b < 2 ^ 32) (xs : List T)
    (hl : σ l = xs) : ∃ s', s.clear l = some s' ∧ Balanced s' (Function.update σ l []) [] b := by
  induction xs generalizing s σ with
  | nil =>
    have hempty := (hb.rep.lists l).empty_iff.mpr hl
    refine ⟨s, by rw [Mem.clear, if_pos hempty], ?_⟩
    rw [Function.update_eq_self_iff.mpr hl.symm]
    exact hb
  | cons x xs ih =>
    have hne : ¬ empty (s.lists.lists l) = true := by
      rw [(hb.rep.lists l).empty_iff, hl]
      exact List.cons_ne_nil _ _
    obtain ⟨p, hpop, hrep, -⟩ := hb.rep.popFront_cons hl
    obtain ⟨s₁, hpop, hb₁, -⟩ := hb.pop (·.popFront l) (hl ▸ List.Perm.refl _) ⟨p, hpop, hrep⟩
    have hb₂ : Balanced (s₁.destroy (some x)) (Function.update σ l xs) [] b :=
      Balanced.destroy_ptr hb₁ hlt
    obtain ⟨s', hclear, hb'⟩ := ih hb₂ (Function.update_self _ _ _)
    refine ⟨s', ?_, ?_⟩
    · rw [Mem.clear, if_neg hne]
      simp [Mem.popFront, hpop, hclear]
    · rwa [Function.update_idem] at hb'

/-! The claims of a client. -/

/-- The parameter of an insertion refers to an object that is in no list. -/
def Inserts (s : Mem H L T) (arg : Arg H T) : Prop :=
  ArgOk s arg ∧ ∃ x, s.argPtr arg = some (some x) ∧ NotListed s x

/-- Variables are used within their lifetime, a raw pointer refers to a live object, a
fresh object is adopted, an object is inserted while in no list, and a list that is popped
is not empty. -/
def Legal (s : Mem H L T) : Op H L T → Prop
  | .adoptRef h x => s.handles h = none ∧ x ∉ s.adopted
  | .construct h ptr => s.handles h = none ∧ ∀ x, ptr = some x → s.Live x
  | .copyConstruct h g => s.handles h = none ∧ s.handles g ≠ none
  | .moveConstruct h g => s.handles h = none ∧ s.handles g ≠ none
  | .copyAssign h g => s.handles h ≠ none ∧ s.handles g ≠ none
  | .moveAssign h g => s.handles h ≠ none ∧ s.handles g ≠ none
  | .swap h g => s.handles h ≠ none ∧ s.handles g ≠ none
  | .destruct h => s.handles h ≠ none
  | .pushFront _ node => Inserts s node
  | .pushBack _ node => Inserts s node
  | .insertBefore l inspt node => Inserts s node ∧
      ∃ xs, visit s.lists.links (s.lists.lists l) = some xs ∧ inspt ∈ xs
  | .popFront l h => empty (s.lists.lists l) = false ∧ s.handles h = none
  | .popBack l h => empty (s.lists.lists l) = false ∧ s.handles h = none
  | .first _ h => s.handles h = none
  | .last _ h => s.handles h = none
  | .clear _ => True

/-- The counts of the live objects are right, and the deleted objects are those without
references, each deleted once. -/
structure Exact (s : Mem H L T) : Prop where
  count : ∀ x, s.Live x → (s.refCount x).toInt = references s x
  destroyed_iff : ∀ x, x ∈ s.destroyed ↔ x ∈ s.adopted ∧ references s x = 0
  once : s.destroyed.Nodup
  fresh : ∀ x, x ∉ s.adopted → references s x = 0

/-- Fewer than 2^31 references to each object exist. -/
def Few (s : Mem H L T) : Prop := ∀ x, references s x < 2 ^ 31

omit [DecidableEq H] [DecidableEq L] in
theorem Balanced.few (hb : Balanced s σ [] b) (hfew : Few s) :
    Balanced s σ [] (2 ^ 31 - 1) := by
  obtain ⟨n, hc, hkept, -⟩ := hb
  refine ⟨n, hc, hkept, fun x => ?_⟩
  have hf := hfew x
  rw [hc.references_eq] at hf
  omega

omit [DecidableEq H] [DecidableEq L] in
theorem Balanced.exact (hb : Balanced s σ [] b) (hlt : b < 2 ^ 31) : Exact s := by
  obtain ⟨n, hc, hkept, hle⟩ := hb
  have hrefs := hc.references_eq
  refine ⟨fun x hx => ?_, fun x => ?_, hc.once, fun x hx => ?_⟩
  · rw [hc.count x hx, hrefs]
    have hn : (BitVec.ofNat 32 (n x)).toNat = n x := by
      rw [BitVec.toNat_ofNat]
      exact Nat.mod_eq_of_lt (by have := hle x; omega)
    rw [BitVec.toInt_eq_toNat_of_lt (by have := hle x; omega), hn]
  · rw [hrefs]
    refine ⟨fun hd => ⟨hc.adopted x hd, ?_⟩, fun ⟨hadopted, hzero⟩ => ?_⟩
    · exact Nat.eq_zero_of_not_pos fun hpos => (hc.live x hpos).2 hd
    · by_contra hnot
      have hpos := hkept x ⟨hadopted, hnot⟩
      omega
  · rw [hrefs]
    exact Nat.eq_zero_of_not_pos fun hpos => hx (hc.live x hpos).1

omit [DecidableEq H] [DecidableEq L] in
theorem Start.balanced (h : Start s) : Balanced s (fun _ => []) [] 0 := by
  refine ⟨_, h.counted, fun x hx => ?_, fun _ => le_rfl⟩
  have hx' := hx.1
  rw [h.adopted] at hx'
  cases hx'

theorem Balanced.inserts (hb : Balanced s σ [] b) (hlt : b < 2 ^ 31) {arg : Arg H T}
    (harg : Inserts s arg) (link : Pool L T → T → Option (Pool L T)) (ys : T → List T)
    (hperm : ∀ x, (ys x).Perm (x :: σ l))
    (hlink : ∀ x, ¬ OnSome σ x → ∃ lists, link s.lists x = some lists ∧
      Represents lists (Function.update σ l (ys x))) :
    ∃ s' σ', s.insert link arg = some s' ∧ Balanced s' σ' [] (b + 2) := by
  obtain ⟨hok, x, hptr, hnot⟩ := harg
  have hoff := hnot.not_onSome hb.rep
  obtain ⟨s', hs, hb'⟩ := hb.insert (by omega) hok hptr hoff (hperm x) (hlink x hoff)
  exact ⟨s', _, hs, hb'⟩

omit [DecidableEq H] [DecidableEq L] in
theorem Balanced.mono (hb : Balanced s σ tmp b) {b' : ℕ} (hle : b ≤ b') :
    Balanced s σ tmp b' := by
  obtain ⟨n, hc, hkept, hn⟩ := hb
  exact ⟨n, hc, hkept, fun x => (hn x).trans hle⟩

theorem Balanced.step (hb : Balanced s σ [] b) (hlt : b < 2 ^ 31) {op : Op H L T}
    (hop : Legal s op) : ∃ s' σ', s.step op = some s' ∧ Balanced s' σ' [] (b + 2) := by
  have hlt' : b + 1 < 2 ^ 32 := by omega
  cases op with
  | adoptRef h x => exact ⟨_, σ, rfl, (hb.adoptRef hop.1 hop.2).mono (by omega)⟩
  | construct h ptr => exact ⟨_, σ, rfl, (hb.construct hop.1 hop.2).mono (by omega)⟩
  | copyConstruct h g =>
    obtain ⟨s', hs, hb'⟩ := hb.copyConstruct hop.1 hop.2
    exact ⟨s', σ, hs, hb'.mono (by omega)⟩
  | moveConstruct h g =>
    obtain ⟨s', hs, hb'⟩ := hb.moveConstruct hop.1 hop.2
    exact ⟨s', σ, hs, hb'.mono (by omega)⟩
  | copyAssign h g =>
    obtain ⟨s', hs, hb'⟩ := hb.copyAssign hlt' hop.1 hop.2
    exact ⟨s', σ, hs, hb'.mono (by omega)⟩
  | moveAssign h g =>
    obtain ⟨s', hs, hb'⟩ := hb.moveAssign (by omega) hop.1 hop.2
    exact ⟨s', σ, hs, hb'.mono (by omega)⟩
  | swap h g =>
    obtain ⟨s', hs, hb'⟩ := hb.swap hop.1 hop.2
    exact ⟨s', σ, hs, hb'.mono (by omega)⟩
  | destruct h =>
    obtain ⟨s', hs, hb'⟩ := hb.destruct (by omega) hop
    exact ⟨s', σ, hs, hb'.mono (by omega)⟩
  | pushFront l node =>
    exact hb.inserts hlt hop (fun p x => p.pushFront l x) (fun x => x :: σ l)
      (fun _ => List.Perm.refl _) fun x hoff => hb.rep.pushFront l fun j hj => hoff ⟨j, hj⟩
  | pushBack l node =>
    exact hb.inserts hlt hop (fun p x => p.pushBack l x) (fun x => σ l ++ [x])
      (fun x => List.perm_append_singleton x _) fun x hoff => hb.rep.pushBack l fun j hj => hoff ⟨j, hj⟩
  | insertBefore l inspt node =>
    obtain ⟨hins, xs, hxs, hmem⟩ := hop
    obtain rfl := Option.some.inj ((hb.rep.lists l).visit_eq.symm.trans hxs)
    exact hb.inserts hlt hins (fun p x => p.insertBefore l inspt x)
      (fun x => insertSeq inspt x (σ l)) (fun _ => insertSeq_perm hmem) fun x hoff => hb.rep.insertBefore l hmem fun j hj => hoff ⟨j, hj⟩
  | popFront l h =>
    obtain ⟨hne, hh⟩ := hop
    obtain ⟨x, ys, p, hpop, hrep, hperm⟩ := hb.rep.popFront_some hne
    obtain ⟨s₁, hs₁, hb₁, hhandles⟩ := hb.pop (·.popFront l) hperm ⟨p, hpop, hrep⟩
    have hkeep := hb₁.keep (h := h) (by rw [hhandles, hh])
    exact ⟨s₁.set h (some (some x)), _, by simp [Mem.step, Mem.popFront, hs₁],
      hkeep.mono (by omega)⟩
  | popBack l h =>
    obtain ⟨hne, hh⟩ := hop
    obtain ⟨x, ys, p, hpop, hrep, hperm⟩ := hb.rep.popBack_some hne
    obtain ⟨s₁, hs₁, hb₁, hhandles⟩ := hb.pop (·.popBack l) hperm ⟨p, hpop, hrep⟩
    have hkeep := hb₁.keep (h := h) (by rw [hhandles, hh])
    exact ⟨s₁.set h (some (some x)), _, by simp [Mem.step, Mem.popBack, hs₁],
      hkeep.mono (by omega)⟩
  | first l h =>
    refine ⟨_, σ, rfl, (hb.construct hop fun x hx => ?_).mono (by omega)⟩
    rw [(hb.rep.lists l).first_eq] at hx
    exact hb.live_listed ⟨l, List.mem_of_mem_head? hx⟩
  | last l h =>
    refine ⟨_, σ, rfl, (hb.construct hop fun x hx => ?_).mono (by omega)⟩
    rw [(hb.rep.lists l).last_eq] at hx
    exact hb.live_listed ⟨l, List.mem_of_getLast? hx⟩
  | clear l =>
    obtain ⟨s', hs, hb'⟩ := hb.clear (by omega) (σ l) rfl
    exact ⟨s', _, hs, hb'.mono (by omega)⟩

/-- The invariant of a run. -/
def Sound (s : Mem H L T) : Prop := ∃ σ, Balanced s σ [] (2 ^ 31 - 1)

theorem preserves_sound : Preserves (Mem.step (H := H) (L := L) (T := T)) Sound
    fun s op => Legal s op ∧ ∀ s', s.step op = some s' → Few s' := by
  rintro s op s' ⟨σ, hb⟩ ⟨hop, hfew⟩ hs
  obtain ⟨s₁, σ', hs₁, hb'⟩ := hb.step (by decide) hop
  obtain rfl : s' = s₁ := Option.some.inj (hs.symm.trans hs₁)
  exact ⟨σ', hb'.few (hfew s' hs)⟩

/-- No legal operation fails, and between operations the counts are exact. -/
theorem ref_counts_exact (h : Start s) {ops : List (Op H L T)}
    (hlegal : AlongRun Mem.step Legal s ops) (hfew : EveryState Mem.step Few s ops) :
    (∃ s', run Mem.step s ops = some s') ∧ EveryState Mem.step Exact s ops := by
  have hsound : Sound s := ⟨_, h.balanced.mono (by decide)⟩
  have hP := hlegal.and hfew.next
  refine ⟨preserves_sound.exists_run (fun s op hs hP => ?_) hsound hP,
    preserves_sound.everyState (fun s hs => ?_) hsound hP⟩
  · obtain ⟨σ, hb⟩ := hs
    obtain ⟨s', -, hs', -⟩ := hb.step (by decide) hP.1
    exact ⟨s', hs'⟩
  · obtain ⟨σ, hb⟩ := hs
    exact hb.exact (by decide)

def blank : Mem Bool Unit ℕ where
  refCount _ := 0
  handles _ := none
  lists := Pool.new ⟨fun _ => none, fun _ => none⟩
  adopted := []
  destroyed := []

theorem start_blank : Start blank := ⟨fun _ => rfl, represents_new _, rfl, rfl⟩

/-- An object outlives its first variable on a list, and the last one destroys it. -/
def lifeCycle : List (Op Bool Unit ℕ) :=
  [.adoptRef true 7, .pushBack () (.copy true), .destruct true, .popFront () false,
    .moveConstruct true false, .destruct true]

theorem legal_lifeCycle : AlongRun Mem.step Legal blank lifeCycle := by
  have hnot : NotListed (blank.adoptRef true 7) 7 := by
    intro l xs hxs
    have hnil := (start_blank.lists.lists l).visit_eq
    obtain rfl := Option.some.inj (hnil.symm.trans hxs)
    exact List.not_mem_nil
  exact .cons ⟨rfl, List.not_mem_nil⟩ rfl (.cons ⟨trivial, 7, rfl, hnot⟩ rfl
    (.cons (Option.some_ne_none _) rfl (.cons ⟨rfl, rfl⟩ rfl
      (.cons ⟨rfl, Option.some_ne_none _⟩ rfl (.cons (Option.some_ne_none _) rfl trivial)))))

theorem ref_counts_exact_lifeCycle :
    (∃ s', run Mem.step blank lifeCycle = some s') ∧ EveryState Mem.step Exact blank lifeCycle :=
  ref_counts_exact start_blank legal_lifeCycle (.of_forall fun s x =>
    (references_le_card s x).trans_lt (by decide))

example : (run Mem.step blank lifeCycle).map (fun s => s.destroyed) = some [7] := rfl

end CxKernel.RefPtr
