import CxKernel.Proofs.SlabLayout

/-! The chain `slab_create` threads through the objects of a slab. The pointer that made it
goes into the header as it is after the loop, behind the last object. -/

namespace CxKernel.Slab

variable {c c' : Cache} {page : BitVec 64}

/-! A slab without objects, for any order. -/

theorem alignment_eq (order : BitVec 16) : alignment order = .ofNat 32 (2 ^ order.toNat) := by
  rw [← Nat.one_shiftLeft]
  rfl

theorem toNat_alignment {order : BitVec 16} (h : order.toNat < 32) :
    (alignment order).toNat = 2 ^ order.toNat := by
  have hlt : 2 ^ order.toNat < 2 ^ 32 := Nat.pow_lt_pow_right (by decide) h
  rw [alignment_eq, BitVec.toNat_ofNat, Nat.mod_eq_of_lt hlt]

theorem order_lt_of_alignUp {v : BitVec 32} {order : BitVec 16} (h : alignUp v order ≠ 0) :
    order.toNat < 32 := by
  by_contra hge
  have hzero : alignment order = 0 := by
    apply BitVec.eq_of_toNat_eq
    rw [alignment_eq, BitVec.toNat_ofNat]
    exact Nat.mod_eq_zero_of_dvd (Nat.pow_dvd_pow 2 (Nat.le_of_not_lt hge))
  refine h ?_
  rw [alignUp, hzero]
  exact BitVec.and_zero

theorem dvd_alignUp {order : BitVec 16} (h : order.toNat < 32) (v : BitVec 32) :
    2 ^ order.toNat ∣ (alignUp v order).toNat := by
  rw [alignUp, Words.toNat_and_not_sub_one (toNat_alignment h)]
  exact Nat.dvd_sub_mod _

/-- The header takes a page at most, up to the order of a page; from there on, as much as the
alignment. -/
theorem toNat_header {order : BitVec 16} (h : order.toNat < 32) :
    if order.toNat ≤ 12 then (alignUp sizeofSlab order).toNat ≤ 4096
    else (alignUp sizeofSlab order).toNat = 2 ^ order.toNat := by
  have hall : ∀ k < 32, if k ≤ 12 then (alignUp sizeofSlab (.ofNat 16 k)).toNat ≤ 4096
      else (alignUp sizeofSlab (.ofNat 16 k)).toNat = 2 ^ k := by decide
  have horder := hall order.toNat h
  rwa [BitVec.ofNat_toNat, BitVec.setWidth_eq] at horder

section Empty

variable (h : Sized c) (hn : c.slabNobjects = 0)

include h hn

/-- Where no object fits, an object is larger than what the header leaves of the page. -/
theorem Sized.space_lt : (BitVec.ofNat 32 pageSize - alignUp sizeofSlab c.order).toNat <
    (alignUp c.slabObjsize c.order).toNat := by
  obtain ⟨hsize, hcount⟩ := h.eq
  rw [hn] at hcount
  have hdiv := congrArg BitVec.toNat hcount
  rw [BitVec.toNat_udiv] at hdiv
  refine Nat.lt_of_div_eq_zero (Nat.pos_of_ne_zero fun hzero => ?_) hdiv.symm
  exact hsize (BitVec.eq_of_toNat_eq hzero)

/-- The header then fits the page: with a larger order the space it leaves is negative, and
wraps to all but the alignment. -/
theorem Sized.order_le : c.order.toNat ≤ 12 := by
  by_contra hlarge
  have horder := order_lt_of_alignUp h.eq.1
  have hheader := toNat_header horder
  rw [if_neg hlarge] at hheader
  have hsmall := h.space_lt hn
  rw [BitVec.toNat_sub, hheader, BitVec.toNat_ofNat] at hsmall
  have hlt := (alignUp c.slabObjsize c.order).isLt
  have hdvd : 2 ^ c.order.toNat ∣ 2 ^ 32 - (alignUp c.slabObjsize c.order).toNat :=
    Nat.dvd_sub (Nat.pow_dvd_pow 2 horder.le) (dvd_alignUp horder _)
  have hle := Nat.le_of_dvd (by omega) hdvd
  have hbig : 2 ^ 13 ≤ 2 ^ c.order.toNat := Nat.pow_le_pow_right (by decide) (by omega)
  rw [pageSize] at hsmall
  omega

/-- Colours leave the first object in the page, behind the header. -/
theorem Sized.color_le (hcolor : maxColor c ≠ 0) :
    (alignUp sizeofSlab c.order).toNat + (nextColor c * alignment c.order).toNat < 4096 := by
  have horder := order_lt_of_alignUp h.eq.1
  have hheader := toNat_header horder
  rw [if_pos (h.order_le hn)] at hheader
  have halignment := toNat_alignment horder
  have hspace : (BitVec.ofNat 32 pageSize - alignUp sizeofSlab c.order).toNat =
      4096 - (alignUp sizeofSlab c.order).toNat := BitVec.toNat_sub_of_le (BitVec.le_def.mpr hheader)
  have hcolors : (maxColor c).toNat =
      (4096 - (alignUp sizeofSlab c.order).toNat) / 2 ^ c.order.toNat := by
    have hnone : c.slabNobjects * c.slabObjsize = 0#32 := by
      rw [hn]
      exact BitVec.zero_mul
    rw [maxColor, hnone, BitVec.sub_zero, BitVec.toNat_udiv, halignment, hspace]
  have hpad : ((nextColor c).toNat + 1) * 2 ^ c.order.toNat ≤
      4096 - (alignUp sizeofSlab c.order).toNat := by
    have hnext := nextColor_lt hcolor
    rw [hcolors] at hnext
    exact (Nat.le_div_iff_mul_le (Nat.two_pow_pos _)).mp hnext
  rw [Nat.succ_mul] at hpad
  have hpos := Nat.two_pow_pos c.order.toNat
  rw [BitVec.toNat_mul, halignment, Nat.mod_eq_of_lt (by omega)]
  omega

/-- A slab without objects has its address for the first one behind the header. -/
theorem Sized.firstObject_ne_zero (hcolor : maxColor c ≠ 0) (hpage : page ≠ 0)
    (halign : page.toNat % pageSize = 0) : firstObject c page ≠ 0 := by
  intro hzero
  have hlt := h.color_le hn hcolor
  have hsum := congrArg BitVec.toNat hzero
  rw [firstObject, BitVec.toNat_add, BitVec.toNat_add, BitVec.toNat_setWidth_of_le (by decide),
    BitVec.toNat_setWidth_of_le (by decide), show (0 : BitVec 64).toNat = 0 from rfl] at hsum
  have hpage' : page.toNat ≠ 0 := fun he => hpage (BitVec.eq_of_toNat_eq he)
  have hlast := page.isLt
  rw [pageSize] at halign
  omega

end Empty

/-! The chain of free objects. -/

/-- The chain from `p` on goes through these objects, and then to null. -/
inductive FreeChain (nextFreeObj : BitVec 64 → BitVec 64) : BitVec 64 → List (BitVec 64) → Prop
  | nil : FreeChain nextFreeObj 0 []
  | cons {p : BitVec 64} {objs : List (BitVec 64)} (ne : p ≠ 0)
      (rest : FreeChain nextFreeObj (nextFreeObj p) objs) : FreeChain nextFreeObj p (p :: objs)

/-- The objects of a new slab in `page`, from the lowest one up. -/
def slots (c : Cache) (page : BitVec 64) : List (BitVec 64) :=
  (List.range c.slabNobjects.toNat).map (slot c page)

/-- The chain from `objctl` has each object once, and `objects` is the lowest. -/
structure ChainComplete (c c' : Cache) (page : BitVec 64) : Prop where
  chain : ∃ objs, FreeChain c'.nextFreeObj (c'.slabs page).objctl objs ∧
    objs.Perm (slots c page)
  objects : c.slabNobjects ≠ 0 → (c'.slabs page).objects = slot c page 0

/-- What a slab that was made has in its header: twice the address behind its objects. -/
theorem slabCreate_fields (hpage : page ≠ 0) (h : slabCreate c page = some (page, c')) :
    maxColor c ≠ 0 ∧ (c'.slabs page).objctl = slot c page c.slabNobjects.toNat ∧
      (c'.slabs page).objects = slot c page c.slabNobjects.toNat ∧
      c'.nextFreeObj = (initObjctl c.slabObjsize c.slabNobjects.toNat (firstObject c page)
        c.nextFreeObj).2 := by
  unfold slabCreate at h
  rw [if_neg hpage] at h
  split_ifs at h with hcolor
  cases h
  refine ⟨hcolor, ?_, ?_, rfl⟩
  · simp only [Function.update_self, initObjctl_fst]
    rfl
  · simp only [Function.update_self, initObjctl_fst]
    rfl

theorem Sized.size_ne_zero (h : Sized c) : c.slabObjsize.toNat ≠ 0 := by
  intro hzero
  have hsize : c.slabObjsize = 0#32 := BitVec.eq_of_toNat_eq hzero
  refine h.eq.1 ?_
  rw [hsize, alignUp, BitVec.zero_add]
  exact BitVec.and_not_self _

/-- The addresses the loop goes through differ, the one behind the objects included. -/
theorem Sized.slot_ne (h : Sized c) {i j : ℕ} (hij : i < j) (hj : j ≤ c.slabNobjects.toNat) :
    slot c page i ≠ slot c page j := by
  intro he
  have hsame := congrArg BitVec.toNat (BitVec.add_right_inj _ |>.mp he)
  rw [toNat_slotOffset (hij.le.trans hj), toNat_slotOffset hj] at hsame
  exact hij.ne (Nat.eq_of_mul_eq_mul_right (Nat.pos_of_ne_zero h.size_ne_zero) hsame)

/-- The first step of the loop. -/
theorem add_zero_mul (ptr s : BitVec 64) : ptr + .ofNat 64 0 * s = ptr := by
  rw [BitVec.zero_mul, BitVec.add_zero]

/-- The next one. -/
theorem add_succ_mul (ptr s : BitVec 64) (i : ℕ) :
    ptr + .ofNat 64 (i + 1) * s = ptr + s + .ofNat 64 i * s := by
  rw [BitVec.ofNat_add, BitVec.add_mul, BitVec.add_assoc, BitVec.add_comm s]
  simp

/-- Elsewhere the loop writes nothing. -/
theorem initObjctl_snd_of_ne {objsize : BitVec 32} {n : ℕ} {ptr a : BitVec 64}
    {f : BitVec 64 → BitVec 64} (h : ∀ i < n, a ≠ ptr + .ofNat 64 i * objsize.setWidth 64) :
    (initObjctl objsize n ptr f).2 a = f a := by
  induction n generalizing ptr f with
  | zero => rfl
  | succ n ih =>
    have hptr : a ≠ ptr := by
      have hzero := h 0 n.succ_pos
      rwa [add_zero_mul] at hzero
    rw [initObjctl, ih fun i hi => add_succ_mul ptr _ i ▸ h (i + 1) (Nat.succ_lt_succ hi),
      Function.update_of_ne hptr]

/-- The loop makes a chain from the first object to the last. -/
theorem freeChain_initObjctl {objsize : BitVec 32} {n : ℕ} {ptr : BitVec 64}
    {f : BitVec 64 → BitVec 64}
    (hne : ∀ i ≤ n, ptr + .ofNat 64 i * objsize.setWidth 64 ≠ 0)
    (hapart : ∀ j ≤ n, ∀ i < j, ptr + .ofNat 64 i * objsize.setWidth 64 ≠
      ptr + .ofNat 64 j * objsize.setWidth 64) :
    FreeChain (initObjctl objsize (n + 1) ptr f).2 ptr
      ((List.range (n + 1)).map fun i => ptr + .ofNat 64 i * objsize.setWidth 64) := by
  induction n generalizing ptr f with
  | zero =>
    have hptr := hne 0 le_rfl
    rw [add_zero_mul] at hptr
    have hnull : (initObjctl objsize 1 ptr f).2 ptr = 0 := Function.update_self _ _ _
    rw [List.range_one, List.map_singleton, add_zero_mul]
    refine .cons hptr ?_
    rw [hnull]
    exact .nil
  | succ n ih =>
    have hptr := hne 0 (Nat.zero_le _)
    rw [add_zero_mul] at hptr
    let next := ptr + objsize.setWidth 64
    have hshift : ∀ i, next + .ofNat 64 i * objsize.setWidth 64 =
        ptr + .ofNat 64 (i + 1) * objsize.setWidth 64 := fun i => (add_succ_mul ptr _ i).symm
    have hstep : initObjctl objsize (n + 2) ptr f =
        initObjctl objsize (n + 1) next (Function.update f ptr next) := by
      rw [initObjctl, if_neg n.succ_ne_zero]
    have hkeep : (initObjctl objsize (n + 2) ptr f).2 ptr = next := by
      rw [hstep, initObjctl_snd_of_ne, Function.update_self]
      intro i hi
      have hne' := hapart (i + 1) hi 0 i.succ_pos
      rwa [add_zero_mul, ← hshift] at hne'
    have hrest : FreeChain (initObjctl objsize (n + 1) next (Function.update f ptr next)).2 next
        ((List.range (n + 1)).map fun i => next + .ofNat 64 i * objsize.setWidth 64) := by
      refine ih (fun i hi => ?_) fun j hj i hij => ?_
      · rw [hshift]
        exact hne (i + 1) (Nat.succ_le_succ hi)
      · rw [hshift, hshift]
        exact hapart (j + 1) (Nat.succ_le_succ hj) (i + 1) (Nat.succ_lt_succ hij)
    rw [List.range_succ_eq_map, List.map_cons, add_zero_mul, List.map_map]
    refine .cons hptr ?_
    rw [hkeep, hstep]
    simp only [hshift] at hrest
    exact hrest

section Chain

variable (hs : Sized c) (hpage : page ≠ 0) (hcreate : slabCreate c page = some (page, c'))

include hs hpage hcreate

/-- A chain is there, if no object is at null. -/
theorem freeChain_slots (hn : c.slabNobjects ≠ 0)
    (hne : ∀ i < c.slabNobjects.toNat, slot c page i ≠ 0) :
    FreeChain c'.nextFreeObj (slot c page 0) (slots c page) := by
  obtain ⟨n, hcount⟩ : ∃ n, c.slabNobjects.toNat = n + 1 := by
    refine Nat.exists_eq_add_one.mpr (Nat.pos_of_ne_zero fun hzero => ?_)
    exact hn (BitVec.eq_of_toNat_eq hzero)
  have hfirst : slot c page 0 = firstObject c page := by
    rw [slot, BitVec.zero_mul, BitVec.add_zero]
  obtain ⟨-, -, -, hnext⟩ := slabCreate_fields hpage hcreate
  rw [hnext, hfirst, slots, hcount]
  refine freeChain_initObjctl (fun i hi => hne i (by omega)) fun j hj i hij => ?_
  exact hs.slot_ne (c := c) hij (by omega)

/-- But the chain from `objctl` is another one: it starts behind the objects. -/
theorem not_freeChain (halign : page.toNat % pageSize = 0) : ¬ ∃ objs,
    FreeChain c'.nextFreeObj (c'.slabs page).objctl objs ∧ objs.Perm (slots c page) := by
  rintro ⟨objs, hchain, hperm⟩
  obtain ⟨hcolor, hobjctl, -, -⟩ := slabCreate_fields hpage hcreate
  rw [hobjctl] at hchain
  generalize hp : slot c page c.slabNobjects.toNat = p at hchain
  cases hchain with
  | nil =>
    have hnil : slots c page = [] := hperm.nil_eq.symm
    have hn : c.slabNobjects.toNat = 0 := by
      rwa [slots, List.map_eq_nil_iff, List.range_eq_nil] at hnil
    rw [hn, slot, BitVec.zero_mul, BitVec.add_zero] at hp
    exact hs.firstObject_ne_zero (BitVec.eq_of_toNat_eq hn) hcolor hpage halign hp
  | cons ne rest =>
    obtain ⟨i, hi, heq⟩ := List.mem_map.mp (hperm.subset List.mem_cons_self)
    exact hs.slot_ne (List.mem_range.mp hi) le_rfl (heq.trans hp.symm)

/-- The free chain of a new slab is never complete. -/
theorem free_chain_incomplete (halign : page.toNat % pageSize = 0) : ¬ ChainComplete c c' page :=
  fun h => not_freeChain hs hpage hcreate halign h.chain

end Chain

theorem free_chain_incomplete_64 : ∃ c c', newCache 64 = some c ∧
    slabCreate c 0x1000 = some (0x1000, c') ∧ ¬ ChainComplete c c' 0x1000 := by
  obtain ⟨c, hc, hcache, hfill⟩ := exists_cache64
  have hcolor := mt hcache.maxColor_eq_zero_iff.mp hfill
  obtain ⟨c', hcreate, -⟩ := slabCreate_eq (by decide : (0x1000 : BitVec 64) ≠ 0) hcolor
  exact ⟨c, c', hc, hcreate, free_chain_incomplete hcache.sized (by decide) hcreate (by decide)⟩

/-- The objects of 64 bytes are chained, but below `objctl` and `objects` all of them. -/
theorem objects_below_chain : ∃ c c', newCache 64 = some c ∧
    slabCreate c 0x1000 = some (0x1000, c') ∧
    FreeChain c'.nextFreeObj (slot c 0x1000 0) (slots c 0x1000) ∧
    (∀ i < c.slabNobjects.toNat, (slot c 0x1000 i).toNat < (c'.slabs 0x1000).objctl.toNat ∧
      (slot c 0x1000 i).toNat < (c'.slabs 0x1000).objects.toNat) ∧
    ¬ ChainComplete c c' 0x1000 := by
  obtain ⟨c, hc, hcache, hfill⟩ := exists_cache64
  have hpage : (0x1000 : BitVec 64) ≠ 0 := by decide
  have hcolor := mt hcache.maxColor_eq_zero_iff.mp hfill
  have hsound := hcache.soundLayout hcolor hpage (by decide)
  obtain ⟨c', hcreate⟩ := hsound.created
  obtain ⟨-, hobjctl, hobjects, -⟩ := slabCreate_fields hpage hcreate
  refine ⟨c, c', hc, hcreate, ?_, fun i hi => ?_, fun h => ?_⟩
  · have hone := hcache.one
    refine freeChain_slots hcache.sized hpage hcreate (fun hzero => ?_) fun i hi hnull => ?_
    · rw [hzero] at hone
      exact absurd hone (by decide)
    · have hfirst := hsound.behindHeader i hi
      rw [hnull] at hfirst
      exact absurd hfirst (by decide)
  · have hpos := hcache.size_pos
    have hlt := Nat.mul_lt_mul_of_pos_right hi hpos
    rw [hobjctl, hobjects, (hcache.toNat_slot hcolor (by decide) hi.le).1,
      (hcache.toNat_slot hcolor (by decide) le_rfl).1]
    omega
  · exact not_freeChain hcache.sized hpage hcreate (by decide) h.chain

end CxKernel.Slab
