import CxKernel.Lib.Words
import CxKernel.Proofs.SlabRun

/-! Where `slab_create` puts the objects of a slab, with the default order. Their size decides
how many colours there are, and that may be none. -/

namespace CxKernel.Slab

/-- Object `i` of a new slab in `page`. -/
def slot (c : Cache) (page : BitVec 64) (i : ℕ) : BitVec 64 :=
  firstObject c page + .ofNat 64 i * c.slabObjsize.setWidth 64

/-- The number of objects is the one the constructor computes. -/
def Sized (c : Cache) : Prop := numObjectsPerSlab c.slabObjsize c.order = some c.slabNobjects

theorem slabcache_fields {size : BitVec 32} {order : BitVec 16}
    {links : LinkRing.Links (BitVec 64)} {slabs : BitVec 64 → SlabNode}
    {nextFreeObj : BitVec 64 → BitVec 64} {c : Cache}
    (h : slabcache size order links slabs nextFreeObj = some c) :
    Sized c ∧ c.order = order ∧ c.slabObjsize = size := by
  obtain ⟨nobjects, hn, hc⟩ := Option.bind_eq_some_iff.mp h
  obtain rfl := Option.some.inj hc
  exact ⟨hn, rfl, rfl⟩

variable {c c' : Cache} {page : BitVec 64}

theorem Sized.eq (h : Sized c) : alignUp c.slabObjsize c.order ≠ 0 ∧ c.slabNobjects =
    (.ofNat 32 pageSize - alignUp sizeofSlab c.order) / alignUp c.slabObjsize c.order := by
  unfold Sized numObjectsPerSlab at h
  split_ifs at h with hzero
  exact ⟨hzero, (Option.some.inj h).symm⟩

theorem Sized.objsize_ne_zero (h : Sized c) : c.slabObjsize ≠ 0 := by
  intro hzero
  refine h.eq.1 ?_
  simp [hzero, alignUp]

theorem nextColor_lt (hcolor : maxColor c ≠ 0) : (nextColor c).toNat < (maxColor c).toNat := by
  rw [nextColor, BitVec.toNat_umod]
  exact Nat.mod_lt _ (Nat.pos_of_ne_zero fun hzero => hcolor (BitVec.eq_of_toNat_eq hzero))

/-- The offsets of the objects do not wrap, nor does the one behind them. -/
theorem toNat_slotOffset {i : ℕ} (hi : i ≤ c.slabNobjects.toNat) :
    (BitVec.ofNat 64 i * c.slabObjsize.setWidth 64).toNat = i * c.slabObjsize.toNat := by
  have hn := c.slabNobjects.isLt
  have hmul : i * c.slabObjsize.toNat < 2 ^ 32 * 2 ^ 32 :=
    Nat.mul_lt_mul'' (by omega) c.slabObjsize.isLt
  rw [show 2 ^ 32 * 2 ^ 32 = 2 ^ 64 from rfl] at hmul
  rw [BitVec.toNat_mul, BitVec.toNat_ofNat, BitVec.toNat_setWidth_of_le (by decide),
    Nat.mod_eq_of_lt (by omega : i < 2 ^ 64), Nat.mod_eq_of_lt hmul]

/-! The layout with the default order. -/

/-- The objects lie one behind the other between the header and the end of the page, on 8 byte
boundaries, and each leads back to the slab. -/
structure SoundLayout (c : Cache) (page : BitVec 64) : Prop where
  created : ∃ c', slabCreate c page = some (page, c')
  aligned : ∀ i < c.slabNobjects.toNat, (slot c page i).toNat % 8 = 0
  behindHeader : ∀ i < c.slabNobjects.toNat,
    page.toNat + sizeofSlab.toNat ≤ (slot c page i).toNat
  inPage : ∀ i < c.slabNobjects.toNat,
    (slot c page i).toNat + c.slabObjsize.toNat ≤ page.toNat + pageSize
  disjoint : ∀ j < c.slabNobjects.toNat, ∀ i < j,
    (slot c page i).toNat + c.slabObjsize.toNat ≤ (slot c page j).toNat
  slab : ∀ i < c.slabNobjects.toNat, findSlabFromObj (slot c page i) = page

theorem alignUp_default {v : BitVec 32} (hv : v.toNat % 8 = 0) : alignUp v defaultOrder = v := by
  have hlt := v.isLt
  have hsum : (v + (alignment defaultOrder - 1)).toNat = v.toNat + 7 := by
    rw [BitVec.toNat_add, show (alignment defaultOrder - 1).toNat = 7 from rfl,
      Nat.mod_eq_of_lt (by omega)]
  apply BitVec.eq_of_toNat_eq
  rw [alignUp, Words.toNat_and_not_sub_one (a := alignment defaultOrder) (k := 3) rfl, hsum]
  omega

/-- Rounding up wraps to zero, or it does round up. -/
theorem le_alignUp_default {v : BitVec 32} (hne : alignUp v defaultOrder ≠ 0) :
    v ≤ alignUp v defaultOrder := by
  have hlt := v.isLt
  have heq : (alignUp v defaultOrder).toNat = (v.toNat + 7) % 2 ^ 32 / 8 * 8 := by
    rw [alignUp, Words.toNat_and_not_sub_one (a := alignment defaultOrder) (k := 3) rfl,
      BitVec.toNat_add, show (alignment defaultOrder - 1).toNat = 7 from rfl]
    omega
  have hpos : (alignUp v defaultOrder).toNat ≠ 0 := fun hzero =>
    hne (BitVec.eq_of_toNat_eq hzero)
  rw [BitVec.le_def]
  omega

/-- A page offset leads back to the page. -/
theorem findSlabFromObj_eq {obj : BitVec 64} (halign : page.toNat % pageSize = 0)
    (hle : page.toNat ≤ obj.toNat) (hlt : obj.toNat < page.toNat + pageSize) :
    findSlabFromObj obj = page := by
  apply BitVec.eq_of_toNat_eq
  rw [findSlabFromObj, pageAlignDown, alignDown,
    Words.toNat_and_not_sub_one (a := .ofNat 64 pageSize) (k := 12) rfl]
  rw [pageSize] at *
  omega

/-- A cache of the default order. -/
structure DefaultCache (c : Cache) : Prop where
  sized : Sized c
  order : c.order = defaultOrder
  size : c.slabObjsize.toNat % 8 = 0
  one : 1 ≤ c.slabNobjects.toNat

/-- It stays one, whatever colour it is left with. -/
theorem DefaultCache.of_slabCreate {r : BitVec 64} (h : DefaultCache c)
    (hcreate : slabCreate c page = some (r, c')) : DefaultCache c' := by
  unfold slabCreate at hcreate
  split_ifs at hcreate with hnull hcolor
  · cases hcreate
    exact h
  · cases hcreate
    exact ⟨h.sized, h.order, h.size, h.one⟩

section Default

variable (h : DefaultCache c)

include h

theorem DefaultCache.size_pos : 0 < c.slabObjsize.toNat := by
  have hne := h.sized.eq.1
  rw [h.order, alignUp_default h.size] at hne
  exact Nat.pos_of_ne_zero fun hzero => hne (BitVec.eq_of_toNat_eq hzero)

theorem DefaultCache.toNat_nobjects : c.slabNobjects.toNat = 4008 / c.slabObjsize.toNat := by
  rw [h.sized.eq.2, h.order, alignUp_default h.size, BitVec.toNat_udiv]
  rfl

theorem DefaultCache.objects_le : c.slabNobjects.toNat * c.slabObjsize.toNat ≤ 4008 := by
  rw [h.toNat_nobjects]
  exact Nat.div_mul_le_self _ _

theorem DefaultCache.toNat_maxColor :
    (maxColor c).toNat = 4008 % c.slabObjsize.toNat / 8 := by
  have hle := h.objects_le
  have hmod := Nat.mod_add_div' 4008 c.slabObjsize.toNat
  rw [← h.toNat_nobjects] at hmod
  have hmul : (c.slabNobjects * c.slabObjsize).toNat =
      c.slabNobjects.toNat * c.slabObjsize.toNat := by
    rw [BitVec.toNat_mul, Nat.mod_eq_of_lt (by omega)]
  have hfree : (BitVec.ofNat 32 pageSize - alignUp sizeofSlab c.order).toNat = 4008 := by
    rw [h.order]
    decide
  have halign : (alignment c.order).toNat = 8 := by
    rw [h.order]
    decide
  have hpad : (BitVec.ofNat 32 pageSize - alignUp sizeofSlab c.order -
      c.slabNobjects * c.slabObjsize).toNat = 4008 % c.slabObjsize.toNat := by
    rw [BitVec.toNat_sub_of_le, hfree, hmul]
    · exact Nat.sub_eq_of_eq_add hmod.symm
    · rw [BitVec.le_def, hfree, hmul]
      exact hle
  rw [maxColor, BitVec.toNat_udiv, hpad, halign]

/-- There is no colour where the objects fill the page. -/
theorem DefaultCache.maxColor_eq_zero_iff :
    maxColor c = 0 ↔ c.slabObjsize.toNat ∣ pageSize - sizeofSlab.toNat := by
  have hsize := h.size
  have hdvd : 8 ∣ c.slabObjsize.toNat := Nat.dvd_of_mod_eq_zero hsize
  have hmod : 8 ∣ 4008 % c.slabObjsize.toNat := (Nat.dvd_mod_iff hdvd).mpr (by decide)
  rw [show pageSize - sizeofSlab.toNat = 4008 from rfl, Nat.dvd_iff_mod_eq_zero,
    show maxColor c = 0 ↔ (maxColor c).toNat = 0 from BitVec.toNat_eq (y := 0), h.toNat_maxColor]
  omega

/-- Colours move the objects by steps of 8 bytes, and not out of the page. -/
theorem DefaultCache.toNat_slot (hcolor : maxColor c ≠ 0) (halign : page.toNat % pageSize = 0) {i : ℕ}
    (hi : i ≤ c.slabNobjects.toNat) :
    (slot c page i).toNat =
      page.toNat + 88 + (nextColor c).toNat * 8 + i * c.slabObjsize.toNat ∧
    (nextColor c).toNat * 8 + 8 + c.slabNobjects.toNat * c.slabObjsize.toNat ≤ 4008 := by
  have hpage := page.isLt
  have hle := h.objects_le
  have hmod := Nat.mod_add_div' 4008 c.slabObjsize.toNat
  rw [← h.toNat_nobjects] at hmod
  have hnext := nextColor_lt hcolor
  rw [h.toNat_maxColor] at hnext
  have hmul := Nat.mul_le_mul_right c.slabObjsize.toNat hi
  refine ⟨?_, by omega⟩
  have hheader : (alignUp sizeofSlab c.order).toNat = 88 := by
    rw [h.order]
    decide
  have hstep : (alignment c.order).toNat = 8 := by
    rw [h.order]
    decide
  have hpad : (nextColor c * alignment c.order).toNat = (nextColor c).toNat * 8 := by
    rw [BitVec.toNat_mul, hstep]
    omega
  rw [slot, firstObject, BitVec.toNat_add, BitVec.toNat_add, BitVec.toNat_add, toNat_slotOffset hi,
    BitVec.toNat_setWidth_of_le (by decide), BitVec.toNat_setWidth_of_le (by decide), hheader, hpad]
  rw [pageSize] at halign
  omega

theorem DefaultCache.soundLayout (hcolor : maxColor c ≠ 0) (hpage : page ≠ 0)
    (halign : page.toNat % pageSize = 0) : SoundLayout c page := by
  have hsize := h.size
  have hpos := h.size_pos
  have hslot := fun i hi => h.toNat_slot (i := i) hcolor halign hi
  have hfit : ∀ j, ∀ i < j, i * c.slabObjsize.toNat + c.slabObjsize.toNat ≤
      j * c.slabObjsize.toNat := by
    intro j i hij
    rw [← Nat.succ_mul]
    exact Nat.mul_le_mul_right _ hij
  have hinside : ∀ i < c.slabNobjects.toNat, page.toNat + 88 ≤ (slot c page i).toNat ∧
      (slot c page i).toNat + c.slabObjsize.toNat ≤ page.toNat + 4096 := by
    intro i hi
    obtain ⟨heq, hend⟩ := hslot i hi.le
    have hobj := hfit _ i hi
    omega
  have hcreated : ∃ c', slabCreate c page = some (page, c') := by
    obtain ⟨c', hcreate, -⟩ := slabCreate_eq hpage hcolor
    exact ⟨c', hcreate⟩
  refine ⟨hcreated, ?_, fun i hi => (hinside i hi).1, fun i hi => (hinside i hi).2, ?_, ?_⟩
  · intro i hi
    have hmul : i * c.slabObjsize.toNat % 8 = 0 := by
      rw [Nat.mul_mod, hsize, Nat.mul_zero, Nat.zero_mod]
    rw [(hslot i hi.le).1]
    rw [pageSize] at halign
    omega
  · intro j hj i hij
    have hbefore := hfit j i hij
    rw [(hslot j hj.le).1, (hslot i (hij.trans hj).le).1]
    omega
  · intro i hi
    obtain ⟨hfirst, hlast⟩ := hinside i hi
    refine findSlabFromObj_eq halign (by omega) ?_
    rw [pageSize]
    omega

/-- The layout of a new slab is sound, unless the objects fill the page. -/
theorem slab_layout_sound_iff (hpage : page ≠ 0) (halign : page.toNat % pageSize = 0) :
    SoundLayout c page ↔ ¬ c.slabObjsize.toNat ∣ pageSize - sizeofSlab.toNat := by
  rw [← h.maxColor_eq_zero_iff]
  refine ⟨?_, fun hcolor => h.soundLayout hcolor hpage halign⟩
  rintro hsound hcolor
  obtain ⟨c', hcreate⟩ := hsound.created
  rw [slabCreate, if_neg hpage, if_pos hcolor] at hcreate
  cases hcreate

end Default

/-- A cache for objects of `size` bytes, over cleared memory. -/
def newCache (size : BitVec 32) : Option Cache :=
  slabcache size defaultOrder ⟨fun _ => none, fun _ => none⟩ (fun _ => ⟨0, 0, 0, 0⟩) (fun _ => 0)

theorem exists_cache64 : ∃ c, newCache 64 = some c ∧ DefaultCache c ∧
    ¬ c.slabObjsize.toNat ∣ pageSize - sizeofSlab.toNat := by
  obtain ⟨c, hc, hn⟩ := exists_slabcache
  obtain ⟨hsized, horder, hsize⟩ := slabcache_fields hc
  refine ⟨c, hc, ⟨hsized, horder, hsize ▸ by decide, hn ▸ by decide⟩, ?_⟩
  rw [hsize]
  decide

theorem slab_layout_sound_iff_64 : ∃ c, newCache 64 = some c ∧ SoundLayout c 0x1000 := by
  obtain ⟨c, hc, hcache, hfill⟩ := exists_cache64
  exact ⟨c, hc, (slab_layout_sound_iff hcache (by decide) (by decide)).mpr hfill⟩

/-- Objects of 24 bytes fill the page: `slab_create` divides by zero. -/
theorem slab_create_divides_by_zero :
    ∃ c, newCache 24 = some c ∧ c.slabNobjects = 167 ∧ slabCreate c 0x1000 = none ∧
      ¬ SoundLayout c 0x1000 := by
  refine ⟨_, rfl, by decide, ?_, ?_⟩
  · rw [slabCreate, if_neg (by decide), if_pos (by decide)]
  · intro hsound
    obtain ⟨c', hcreate⟩ := hsound.created
    rw [slabCreate, if_neg (by decide), if_pos (by decide)] at hcreate
    cases hcreate

end CxKernel.Slab
