import CxKernel.Lib.Words
import CxKernel.Proofs.Bootstrap
import CxKernel.Spec.Handoff

/-! What the kernel finds in the page database it is handed. The lists survive the
shift of their pointers; the address it computes for a page does not, since the base
of the array is not shifted with them. -/

namespace CxKernel.Handoff

open LinkRing LinkedList Paging Loader

/-! Descriptors and their addresses. -/

section View

variable {w : ℕ} {base : BitVec w} {total : ℕ}

theorem toNat_descAddr {i : ℕ} (h : base.toNat + i * sizeofPage < 2 ^ w) :
    (descAddr base i).toNat = base.toNat + i * sizeofPage := by
  have hi : i * sizeofPage < 2 ^ w := Nat.lt_of_le_of_lt (Nat.le_add_left _ _) h
  rw [descAddr, BitVec.toNat_add, BitVec.toNat_ofNat, Nat.mod_eq_of_lt hi, Nat.mod_eq_of_lt h]

/-- The array lies below the end of the address space. -/
def Fits (base : BitVec w) (total : ℕ) : Prop := base.toNat + total * sizeofPage ≤ 2 ^ w

theorem Fits.toNat {i : ℕ} (h : Fits base total) (hi : i < total) :
    (descAddr base i).toNat = base.toNat + i * sizeofPage := by
  apply toNat_descAddr
  simp only [Fits, sizeofPage] at h ⊢
  omega

theorem Fits.inj {i j : ℕ} (h : Fits base total) (hi : i < total) (hj : j < total)
    (he : descAddr base i = descAddr base j) : i = j := by
  have hn := congrArg BitVec.toNat he
  rw [h.toNat hi, h.toNat hj, sizeofPage] at hn
  omega

theorem Fits.descIndex {i : ℕ} (h : Fits base total) (hi : i < total) :
    descIndex base total (descAddr base i) = some i := by
  have hlt : i * sizeofPage < 2 ^ w := by
    simp only [Fits, sizeofPage] at h ⊢
    omega
  have hidx : (descAddr base i - base).toNat / sizeofPage = i := by
    rw [descAddr, BitVec.add_comm, BitVec.add_sub_cancel, BitVec.toNat_ofNat,
      Nat.mod_eq_of_lt hlt]
    exact Nat.mul_div_cancel i (by decide)
  simp only [Handoff.descIndex, hidx, hi, and_self, if_true]

variable {db : PfnDb} {heads : Heads}

theorem view_next {i : ℕ} (h : Fits base total) (hi : i < total) :
    (view base total db heads).links.next (descAddr base i) = ptr w (db.virt0 i) := by
  simp only [view, h.descIndex hi, Option.bind_some]

theorem view_prev {i : ℕ} (h : Fits base total) (hi : i < total) :
    (view base total db heads).links.prev (descAddr base i) = ptr w (db.virt1 i) := by
  simp only [view, h.descIndex hi, Option.bind_some]

end View

/-! Shifting. -/

/-- One more element of an array updated. -/
theorem update_below {α : Type} (f g : ℕ → α) (n : ℕ) :
    Function.update (fun i => if i < n then g i else f i) n (g n) =
      fun i => if i < n + 1 then g i else f i := by
  funext i
  rw [Function.update_apply]
  by_cases hin : i = n
  · subst hin
    simp
  · simp [hin, show i < n + 1 ↔ i < n by omega]

theorem foldl_shift (db : PfnDb) (offset : BitVec 64) (n : ℕ) :
    (List.range n).foldl (fun db i => db.shift offset i) db =
      ⟨fun i => if i < n then shiftWord offset (db.virt0 i) else db.virt0 i,
        fun i => if i < n then shiftWord offset (db.virt1 i) else db.virt1 i⟩ := by
  induction n with
  | zero => simp
  | succ n ih =>
    rw [List.range_succ, List.foldl_append, ih]
    simp only [List.foldl_cons, List.foldl_nil, PfnDb.shift, Nat.lt_irrefl, if_false]
    rw [update_below db.virt0 (fun i => shiftWord offset (db.virt0 i)),
      update_below db.virt1 (fun i => shiftWord offset (db.virt1 i))]

/-- A word the loader left: no high half. -/
def LowWord (word : BitVec 64) : Prop := word.toNat < 2 ^ 32

/-- A page database as the loader leaves it: `σ` says which descriptors are on which
list, in order. -/
structure ValidDb (arr : BitVec 32) (total : ℕ) (db : PfnDb) (heads : Heads)
    (σ : PfnList → List ℕ) : Prop where
  placed : arr ≠ 0
  fits : Fits arr total
  partition : (σ .freelist ++ σ .rsrvlist).Perm (List.range total)
  low : (∀ i < total, LowWord (db.virt0 i) ∧ LowWord (db.virt1 i)) ∧ ∀ l, LowWord (heads l)
  lists : ∀ l, IsList (view arr total db heads).links ((view arr total db heads).lists l)
    ((σ l).map (descAddr arr))

section ValidDb

variable {arr : BitVec 32} {total : ℕ} {db : PfnDb} {heads : Heads} {σ : PfnList → List ℕ}

theorem ValidDb.lt (h : ValidDb arr total db heads σ) {l : PfnList} {i : ℕ} (hi : i ∈ σ l) :
    i < total := by
  rw [← List.mem_range, ← h.partition.mem_iff, List.mem_append]
  cases l with
  | freelist => exact Or.inl hi
  | rsrvlist => exact Or.inr hi

theorem toNat_kernelPfndbBase : kernelPfndbBase.toNat = 0xFFFF810000000000 := by decide

theorem fits_kernel (h : Fits arr total) : Fits kernelPfndbBase total := by
  simp only [Fits, toNat_kernelPfndbBase] at h ⊢
  omega

/-- A pointer to a descriptor of the loader's becomes the pointer to the same one of
the kernel's. -/
theorem ptr_shiftWord (harr : arr ≠ 0) (hfits : Fits arr total) {word : BitVec 64}
    (hlow : LowWord word) {i : ℕ} (hi : i < total) (h : ptr 32 word = some (descAddr arr i)) :
    ptr 64 (shiftWord (kernelPfndbBase - arr.setWidth 64) word) =
      some (descAddr kernelPfndbBase i) := by
  have hbase := toNat_kernelPfndbBase
  have hk := (fits_kernel hfits).toNat hi
  have ha := hfits.toNat hi
  have harr' : arr.toNat ≠ 0 := fun he => harr (BitVec.eq_of_toNat_eq he)
  simp only [LowWord, Fits, sizeofPage] at hlow hfits hk ha
  have hword : word.toNat = arr.toNat + i * 32 := by
    simp only [ptr] at h
    split at h
    · cases h
    · have hw := congrArg BitVec.toNat (Option.some_inj.mp h)
      rw [ha, BitVec.toNat_setWidth] at hw
      omega
  have hne : word ≠ 0 := fun he => by simp [he] at hword; omega
  have hsum : word + (kernelPfndbBase - arr.setWidth 64) = descAddr kernelPfndbBase i := by
    apply BitVec.eq_of_toNat_eq
    rw [BitVec.toNat_add, BitVec.toNat_sub, BitVec.toNat_setWidth, hk, hword, hbase]
    omega
  have hne' : descAddr kernelPfndbBase i ≠ 0 := fun he => by
    rw [he] at hk
    simp at hk
    omega
  rw [shiftWord, if_pos hne, hsum, ptr, BitVec.setWidth_eq, if_neg hne']

theorem ptr_shiftWord_none {offset word : BitVec 64} (hlow : LowWord word)
    (h : ptr 32 word = none) : ptr 64 (shiftWord offset word) = none := by
  have hzero : word = 0 := by
    simp only [ptr] at h
    split at h
    · rename_i hw
      have hn := congrArg BitVec.toNat hw
      simp only [LowWord] at hlow
      apply BitVec.eq_of_toNat_eq
      rw [BitVec.toNat_setWidth] at hn
      simp at hn ⊢
      omega
    · cases h
  subst hzero
  rfl

/-- What the kernel is handed. -/
def handedPool (arr : BitVec 32) (pages : BitVec 64) (db : PfnDb) (heads : Heads) :
    Pool PfnList (BitVec 64) :=
  kernelPool (handoff arr pages db heads).1 (handoff arr pages db heads).2

variable {pages : BitVec 64}

theorem handedPool_next (hfits : Fits arr pages.toNat) {i : ℕ} (hi : i < pages.toNat) :
    (handedPool arr pages db heads).links.next (descAddr kernelPfndbBase i) =
      ptr 64 (shiftWord (kernelPfndbBase - arr.setWidth 64) (db.virt0 i)) := by
  rw [handedPool, kernelPool, handoff]
  dsimp only
  rw [view_next (fits_kernel hfits) hi, foldl_shift]
  simp only [if_pos hi]

theorem handedPool_prev (hfits : Fits arr pages.toNat) {i : ℕ} (hi : i < pages.toNat) :
    (handedPool arr pages db heads).links.prev (descAddr kernelPfndbBase i) =
      ptr 64 (shiftWord (kernelPfndbBase - arr.setWidth 64) (db.virt1 i)) := by
  rw [handedPool, kernelPool, handoff]
  dsimp only
  rw [view_prev (fits_kernel hfits) hi, foldl_shift]
  simp only [if_pos hi]

theorem handedPool_root (l : PfnList) : ((handedPool arr pages db heads).lists l).root =
    ptr 64 (shiftWord (kernelPfndbBase - arr.setWidth 64) (heads l)) := by
  cases l <;> rfl

/-- Each list is in the kernel what it was in the loader. -/
theorem ValidDb.isList_handed (h : ValidDb arr pages.toNat db heads σ) (l : PfnList) :
    IsList (handedPool arr pages db heads).links ((handedPool arr pages db heads).lists l)
      ((σ l).map (descAddr kernelPfndbBase)) := by
  have hlist := h.lists l
  refine ⟨?_, ?_⟩
  · have hroot := hlist.root
    rw [handedPool_root]
    rw [view] at hroot
    cases hσ : σ l with
    | nil =>
      rw [hσ] at hroot
      exact ptr_shiftWord_none (h.low.2 l) hroot
    | cons i rest =>
      rw [hσ] at hroot
      exact ptr_shiftWord h.placed h.fits (h.low.2 l) (h.lt (hσ ▸ List.mem_cons_self)) hroot
  · refine hlist.ring.relabel (fun a ha b hb => (fits_kernel h.fits).inj (h.lt ha) (h.lt hb)) ?_
    rintro i hi j hj ⟨hnext, hprev⟩
    have hi' := h.lt hi
    have hj' := h.lt hj
    rw [view_next h.fits hi'] at hnext
    rw [view_prev h.fits hj'] at hprev
    refine ⟨?_, ?_⟩
    · rw [handedPool_next h.fits hi']
      exact ptr_shiftWord h.placed h.fits (h.low.1 i hi').1 hj' hnext
    · rw [handedPool_prev h.fits hj']
      exact ptr_shiftWord h.placed h.fits (h.low.1 j hj').2 hi' hprev

theorem ValidDb.disjoint (h : ValidDb arr total db heads σ) {l l' : PfnList} {i : ℕ}
    (hi : i ∈ σ l) (hi' : i ∈ σ l') : l = l' := by
  have hnd := h.partition.nodup_iff.mpr List.nodup_range
  have hd := (List.nodup_append.mp hnd).2.2
  cases l <;> cases l'
  · rfl
  · exact absurd rfl (hd i hi i hi')
  · exact absurd rfl (hd i hi' i hi)
  · rfl

theorem ValidDb.represents_handed (h : ValidDb arr pages.toNat db heads σ) :
    Represents (handedPool arr pages db heads) fun l => (σ l).map (descAddr kernelPfndbBase) := by
  refine ⟨h.isList_handed, fun l l' a ha ha' => ?_⟩
  obtain ⟨i, hi, rfl⟩ := List.mem_map.mp ha
  obtain ⟨j, hj, he⟩ := List.mem_map.mp ha'
  have hij := (fits_kernel h.fits).inj (h.lt hj) (h.lt hi) he
  exact h.disjoint hi (hij ▸ hj)

theorem ValidDb.length (h : ValidDb arr total db heads σ) :
    (σ .freelist).length + (σ .rsrvlist).length = total := by
  rw [← List.length_append, h.partition.length_eq, List.length_range]

theorem ValidDb.kernelEntryCheck (h : ValidDb arr pages.toNat db heads σ) :
    kernelEntryCheck (handoff arr pages db heads).1 (handoff arr pages db heads).2 =
      some true := by
  have hsize := h.represents_handed.observes.size
  have hfree := hsize .freelist
  have hrsrv := hsize .rsrvlist
  rw [handedPool] at hfree hrsrv
  have hsum : BitVec.ofNat 64 (σ .freelist).length + BitVec.ofNat 64 (σ .rsrvlist).length =
      pages := by
    rw [← BitVec.ofNat_add, h.length, BitVec.ofNat_toNat, BitVec.setWidth_eq]
  simp only [Handoff.kernelEntryCheck, hfree, hrsrv, List.length_map, Option.bind_eq_bind,
    Option.bind_some]
  simp [handoff, hsum]

end ValidDb

/-- The kernel sees the same descriptors on the same lists in the same order, and its
count of them comes out. -/
theorem handoff_preserves_lists {arr : BitVec 32} {pages : BitVec 64} {db : PfnDb} {heads : Heads}
    {σ : PfnList → List ℕ} (h : ValidDb arr pages.toNat db heads σ) :
    Observes (handedPool arr pages db heads)
      (fun l => (σ l).map (descAddr kernelPfndbBase)) ∧
    kernelEntryCheck (handoff arr pages db heads).1 (handoff arr pages db heads).2 = some true :=
  ⟨h.represents_handed.observes, h.kernelEntryCheck⟩

/-! The databases the loader builds. -/

/-- A link of the loader's, with descriptors named by index, as the word in memory. -/
def encode (arr : BitVec 32) : Option ℕ → BitVec 64
  | none => 0
  | some i => (descAddr arr i).setWidth 64

def layoutDb (arr : BitVec 32) (pool : Pool PfnList ℕ) : PfnDb :=
  ⟨fun i => encode arr (pool.links.next i), fun i => encode arr (pool.links.prev i)⟩

def layoutHeads (arr : BitVec 32) (pool : Pool PfnList ℕ) : Heads :=
  fun l => encode arr (pool.lists l).root

theorem ptr_encode_none (arr : BitVec 32) : ptr 32 (encode arr none) = none := rfl

theorem ptr_encode {arr : BitVec 32} {total i : ℕ} (harr : arr ≠ 0) (hfits : Fits arr total)
    (hi : i < total) : ptr 32 (encode arr (some i)) = some (descAddr arr i) := by
  have hback : (encode arr (some i)).setWidth 32 = descAddr arr i := by simp [encode]
  have hne : descAddr arr i ≠ 0 := fun he => by
    have hn := hfits.toNat hi
    have harr' : arr.toNat ≠ 0 := fun he => harr (BitVec.eq_of_toNat_eq he)
    rw [he] at hn
    simp at hn
    omega
  rw [ptr, hback, if_neg hne]

theorem lowWord_encode (arr : BitVec 32) (o : Option ℕ) : LowWord (encode arr o) := by
  cases o with
  | none => simp [LowWord, encode]
  | some i =>
    have hlt := (descAddr arr i).isLt
    simp only [LowWord, encode, BitVec.toNat_setWidth]
    omega

/-- Storing a pointer over a word without a high half sets the whole word. -/
theorem storePtr_eq {word : BitVec 64} (hlow : LowWord word) (p : BitVec 32) :
    storePtr word p = p.setWidth 64 := by
  have hmask : ∀ k < 64, (0xFFFFFFFF00000000 : BitVec 64).getLsbD k = decide (32 ≤ k) := by decide
  apply BitVec.eq_of_getLsbD_eq
  intro k hk
  rw [storePtr, BitVec.getLsbD_or, BitVec.getLsbD_and, hmask k hk]
  by_cases h32 : 32 ≤ k
  · have hbit : word.getLsbD k = false :=
      Nat.testBit_lt_two_pow (Nat.lt_of_lt_of_le hlow (Nat.pow_le_pow_right (by decide) h32))
    rw [hbit]
    rfl
  · simp [h32]

/-- So the loader's own writes keep the words as `layoutDb` has them. -/
theorem storePtr_encode (arr : BitVec 32) (o : Option ℕ) (i : ℕ) :
    storePtr (encode arr o) (descAddr arr i) = encode arr (some i) :=
  storePtr_eq (lowWord_encode arr o) _

/-- The lists of the loader, laid out in memory. -/
theorem validDb_layout {arr : BitVec 32} {total : ℕ} {pool : Pool PfnList ℕ}
    {σ : PfnList → List ℕ} (h : Represents pool σ) (harr : arr ≠ 0) (hfits : Fits arr total)
    (hpart : (σ .freelist ++ σ .rsrvlist).Perm (List.range total)) :
    ValidDb arr total (layoutDb arr pool) (layoutHeads arr pool) σ := by
  have hlt : ∀ l, ∀ i ∈ σ l, i < total := by
    intro l i hi
    rw [← List.mem_range, ← hpart.mem_iff, List.mem_append]
    cases l with
    | freelist => exact Or.inl hi
    | rsrvlist => exact Or.inr hi
  refine ⟨harr, hfits, hpart, ⟨fun i _ => ⟨lowWord_encode _ _, lowWord_encode _ _⟩,
    fun l => lowWord_encode _ _⟩, fun l => ⟨?_, ?_⟩⟩
  · have hroot := (h.lists l).root
    unfold view
    dsimp only [layoutHeads]
    rw [hroot]
    cases hσ : σ l with
    | nil => exact ptr_encode_none arr
    | cons i rest => exact ptr_encode harr hfits (hlt l i (hσ ▸ List.mem_cons_self))
  · have hring : pool.links.IsRing ((σ l).map id) := by
      rw [List.map_id]
      exact (h.lists l).ring
    refine hring.relabel (fun a ha b hb => hfits.inj (hlt l a ha) (hlt l b hb)) ?_
    rintro i hi j hj ⟨hnext, hprev⟩
    have hi' := hlt l i hi
    have hj' := hlt l j hj
    rw [id_eq, id_eq] at hnext hprev
    refine ⟨?_, ?_⟩
    · rw [view_next hfits hi']
      simp only [layoutDb, hnext]
      exact ptr_encode harr hfits hj'
    · rw [view_prev hfits hj']
      simp only [layoutDb, hprev]
      exact ptr_encode harr hfits hi'

/-- What `bootstrap_pmm` leaves is such a database. -/
theorem booted_validDb {img : Image} {res : Range} {mmap : MmapTag} {mem : PhysMem}
    {place : BitVec 64} {s : Globals} (h : Booted img res mmap mem place s) (harr : s.pfndbArr ≠ 0)
    (hfits : Fits s.pfndbArr s.totalPhysPgs.toNat) :
    ValidDb s.pfndbArr s.totalPhysPgs.toNat (layoutDb s.pfndbArr s.pool)
      (layoutHeads s.pfndbArr s.pool) (sorted (rangesInForce img res mmap place)
        (List.range (totalPages mmap.entries).toNat)) := by
  refine validDb_layout h.pool harr hfits ?_
  rw [h.pages]
  exact sorted_partition _ _

/-- The database of a machine with 8 MiB, at `0x9000`. -/
theorem exists_validDb : ∃ db heads σ, ValidDb 0x9000 (0x800 : BitVec 64).toNat db heads σ := by
  have hplace : pfndbPlace pcImage pcModule flatMmap = some 0x9000 := by decide +kernel
  have hpages : totalPages flatMmap.entries = 0x800 := by decide +kernel
  obtain ⟨s, hs⟩ := exists_bootstrapPmm (fun _ => 0) hplace (by rw [hpages]; decide)
  obtain ⟨place, hplace', hb⟩ := bootstrapPmm_booted hs
  obtain rfl : 0x9000 = place := Option.some_inj.mp (hplace.symm.trans hplace')
  have harr : s.pfndbArr = 0x9000 := hb.arr
  have htotal : s.totalPhysPgs = 0x800 := hb.pages.trans hpages
  have hv := booted_validDb hb (by rw [harr]; decide) (by rw [harr, htotal, Fits]; decide)
  rw [harr, htotal] at hv
  exact ⟨_, _, _, hv⟩

theorem handoff_preserves_lists_booted :
    ∃ db heads σ, ValidDb 0x9000 (0x800 : BitVec 64).toNat db heads σ ∧
      Observes (handedPool 0x9000 0x800 db heads)
        (fun l => (σ l).map (descAddr kernelPfndbBase)) ∧
      kernelEntryCheck (handoff 0x9000 0x800 db heads).1 (handoff 0x9000 0x800 db heads).2 =
        some true := by
  obtain ⟨db, heads, σ, h⟩ := exists_validDb
  exact ⟨db, heads, σ, h, handoff_preserves_lists h⟩

/-! The addresses of the pages. -/

/-- The kernel divides the distance to the unshifted base, which lies far above. -/
theorem paddr_ne {arr : BitVec 32} {total i : ℕ} {st : LoaderState} (hfits : Fits arr total)
    (hi : i < total) (hst : st.pfndbArr = arr.setWidth 64) :
    paddr st (descAddr kernelPfndbBase i) ≠ pageAddr i := by
  have hk := (fits_kernel hfits).toNat hi
  have harr := arr.isLt
  have hsize : (BitVec.ofNat 64 sizeofPage).toNat = 32 := rfl
  rw [toNat_kernelPfndbBase] at hk
  simp only [Fits, sizeofPage] at hfits hk
  have hx : (descAddr kernelPfndbBase i - st.pfndbArr).toNat =
      2 ^ 64 - (0x7F0000000000 - i * 32 + arr.toNat) := by
    rw [hst, BitVec.toNat_sub, hk, BitVec.toNat_setWidth]
    omega
  have hq := Words.toNat_sdiv_of_neg (y := .ofNat 64 sizeofPage) hx (by omega)
    (by rw [hsize]; decide) (by rw [hsize]; omega)
  intro he
  have hn := congrArg BitVec.toNat he
  rw [paddr, Pmm.paddr, BitVec.toNat_mul, hq, hsize] at hn
  simp only [pageAddr, pageSize, BitVec.toNat_mul, BitVec.toNat_ofNat] at hn
  omega

/-- For every page a walk over either list meets, the kernel computes the address the
loader gives to the index of its descriptor. -/
def AddressesAgree (st : LoaderState) (db : PfnDb) : Prop :=
  ∀ l nodes, visit (kernelPool st db).links ((kernelPool st db).lists l) = some nodes →
    ∀ i < st.totalPhysPgs.toNat, descAddr kernelPfndbBase i ∈ nodes →
      paddr st (descAddr kernelPfndbBase i) = pageAddr i

theorem ValidDb.not_addressesAgree {arr : BitVec 32} {pages : BitVec 64} {db : PfnDb}
    {heads : Heads} {σ : PfnList → List ℕ} (h : ValidDb arr pages.toNat db heads σ)
    (hpages : pages ≠ 0) :
    ¬ AddressesAgree (handoff arr pages db heads).1 (handoff arr pages db heads).2 := by
  intro hagree
  have hpos : 0 < pages.toNat :=
    Nat.pos_of_ne_zero fun he => hpages (BitVec.eq_of_toNat_eq he)
  have hmem : 0 ∈ σ .freelist ++ σ .rsrvlist :=
    h.partition.mem_iff.mpr (List.mem_range.mpr hpos)
  have hon : ∃ l, 0 ∈ σ l :=
    (List.mem_append.mp hmem).elim (fun hl => ⟨_, hl⟩) fun hl => ⟨_, hl⟩
  obtain ⟨l, hl⟩ := hon
  have hvisit := h.represents_handed.observes.visit l
  exact paddr_ne h.fits hpos rfl
    (hagree l _ hvisit 0 hpos (List.mem_map_of_mem hl))

/-- The addresses agree only where there is no page to disagree on. -/
theorem addresses_agree_iff {arr : BitVec 32} {pages : BitVec 64} {db : PfnDb} {heads : Heads}
    {σ : PfnList → List ℕ} (h : ValidDb arr pages.toNat db heads σ) :
    AddressesAgree (handoff arr pages db heads).1 (handoff arr pages db heads).2 ↔ pages = 0 := by
  refine ⟨?_, ?_⟩
  · intro hagree
    by_contra hpages
    exact h.not_addressesAgree hpages hagree
  · rintro rfl l nodes - i hi
    exact absurd hi (Nat.not_lt_zero i)

theorem addresses_agree_iff_booted :
    ∃ db heads σ, ValidDb 0x9000 (0x800 : BitVec 64).toNat db heads σ ∧
      (AddressesAgree (handoff 0x9000 0x800 db heads).1 (handoff 0x9000 0x800 db heads).2 ↔
        (0x800 : BitVec 64) = 0) := by
  obtain ⟨db, heads, σ, h⟩ := exists_validDb
  exact ⟨db, heads, σ, h, addresses_agree_iff h⟩

/-- The machine with 8 MiB: every page the kernel finds has a wrong address. -/
theorem addresses_disagree : ∃ db heads σ, ValidDb 0x9000 (0x800 : BitVec 64).toNat db heads σ ∧
    ¬ AddressesAgree (handoff 0x9000 0x800 db heads).1 (handoff 0x9000 0x800 db heads).2 := by
  obtain ⟨db, heads, σ, h⟩ := exists_validDb
  exact ⟨db, heads, σ, h, h.not_addressesAgree (by decide)⟩

end CxKernel.Handoff
