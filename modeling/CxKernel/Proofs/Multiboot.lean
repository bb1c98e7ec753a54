import CxKernel.Lib.Words
import CxKernel.Spec.Multiboot
import Mathlib.Algebra.Order.Ring.Nat
import Mathlib.Tactic.Common

/-! The loops over the tags and over the memory map. Both look for their end only when they
advance, and the first one also advances where it dereferences. -/

namespace CxKernel.Multiboot

open RangeFor

/-! The tag area. -/

/-- From `p` on lie these tags, each on the next 8 byte boundary, and then an END tag. -/
inductive TagArea (mem : TagMemory) : BitVec 32 → List (BitVec 32 × Tag) → Prop
  | done {p : BitVec 32} {t : Tag} (here : mem.tagAt p = some t) (last : t.type = tagTypeEnd) :
      TagArea mem p []
  | tag {p q : BitVec 32} {t : Tag} {tags : List (BitVec 32 × Tag)} (here : mem.tagAt p = some t)
      (more : t.type ≠ tagTypeEnd) (size : 8 ≤ t.size.toNat)
      (next : q.toNat = p.toNat + (t.size.toNat + 7) / 8 * 8) (rest : TagArea mem q tags) :
      TagArea mem p ((p, t) :: tags)

/-- Where the iterator stands with these tags ahead, once it has advanced. -/
def tagPtr : List (BitVec 32 × Tag) → BitVec 32
  | [] => 0
  | x :: _ => x.1

/-- The addresses of the tags of one type. -/
def tagsOf (type : BitVec 32) (tags : List (BitVec 32 × Tag)) : List (BitVec 32) :=
  (tags.filter fun x => x.2.type = type).map (·.1)

section Area

variable {mem : TagMemory} {p q type : BitVec 32} {t : Tag} {tags : List (BitVec 32 × Tag)}

theorem TagArea.ne_zero (h : TagArea mem p tags) : p ≠ 0 := by
  rintro rfl
  cases h with
  | done here => exact absurd (mem.null.symm.trans here) (by simp)
  | tag here => exact absurd (mem.null.symm.trans here) (by simp)

theorem TagArea.eq_tagPtr (h : TagArea mem p tags) (hne : tags ≠ []) : p = tagPtr tags := by
  cases h with
  | done => exact absurd rfl hne
  | tag => rfl

theorem add_roundUp_eq (hnext : q.toNat = p.toNat + (t.size.toNat + 7) / 8 * 8) :
    p + ((t.size + 0b111) &&& ~~~0b111) = q := by
  have hp := p.isLt
  have hq := q.isLt
  have hsum : (t.size + 0b111).toNat = t.size.toNat + 7 := by
    rw [BitVec.toNat_add, show (0b111 : BitVec 32).toNat = 7 from rfl, Nat.mod_eq_of_lt (by omega)]
  have hround : ((t.size + 0b111) &&& ~~~0b111).toNat = (t.size.toNat + 7) / 8 * 8 := by
    have h := Words.toNat_and_not_sub_one (a := (8 : BitVec 32)) (k := 3) rfl (t.size + 0b111)
    rw [show (8 : BitVec 32) - 1 = 0b111 from rfl, hsum] at h
    rw [h]
    omega
  apply BitVec.eq_of_toNat_eq
  rw [BitVec.toNat_add, hround, ← hnext, Nat.mod_eq_of_lt hq]

/-- `operator++` gets to the next tag, or to null at the END tag. -/
theorem incr_eq (here : mem.tagAt p = some t)
    (hnext : q.toNat = p.toNat + (t.size.toNat + 7) / 8 * 8) (rest : TagArea mem q tags) :
    TagIterator.incr mem ⟨p, type⟩ = some ⟨tagPtr tags, type⟩ := by
  rw [TagIterator.incr, here, Option.bind_eq_bind, Option.bind_some]
  dsimp only
  rw [add_roundUp_eq hnext]
  cases rest with
  | done here' last =>
    rw [here', Option.bind_some, if_pos last]
    rfl
  | tag here' more =>
    rw [here', Option.bind_some, if_neg more]
    rfl

theorem deref_match (here : mem.tagAt p = some t) (hmatch : t.type = type) :
    TagIterator.deref mem ⟨p, type⟩ = some (p, ⟨p, type⟩) := by
  rw [TagIterator.deref, here]
  dsimp only
  rw [if_pos hmatch]

/-- `operator*` goes on from the next tag, and so from null at the END tag. -/
theorem deref_skip (here : mem.tagAt p = some t) (more : t.type ≠ tagTypeEnd)
    (hnext : q.toNat = p.toNat + (t.size.toNat + 7) / 8 * 8) (rest : TagArea mem q tags)
    (hother : t.type ≠ type) :
    TagIterator.deref mem ⟨p, type⟩ = TagIterator.deref mem ⟨tagPtr tags, type⟩ := by
  rw [TagIterator.deref, here]
  dsimp only
  rw [if_neg hother, if_neg more, incr_eq here hnext rest, Option.bind_eq_bind, Option.bind_some]

theorem deref_null : TagIterator.deref mem ⟨0, type⟩ = none := by
  rw [TagIterator.deref, mem.null]

theorem atEnd_eq_false (hp : p ≠ 0) : (tagList mem).atEnd ⟨p, type⟩ = false := decide_eq_false hp

/-- Behind a tag of the type: the body sees the tag, and the loop goes on. -/
theorem visit_match (hp : p ≠ 0) (here : mem.tagAt p = some t) (hmatch : t.type = type)
    (hnext : q.toNat = p.toNat + (t.size.toNat + 7) / 8 * 8) (rest : TagArea mem q tags) :
    visit (tagList mem) ⟨p, type⟩ = (visit (tagList mem) ⟨tagPtr tags, type⟩).map (p :: ·) :=
  visit_step (atEnd_eq_false hp) (deref_match here hmatch) (incr_eq here hnext rest)

/-- The last tag before the END tag, if there is one, has the type. -/
def EndsWith (type : BitVec 32) (tags : List (BitVec 32 × Tag)) : Prop :=
  ∀ x ∈ tags.getLast?, x.2.type = type

instance (type : BitVec 32) (tags : List (BitVec 32 × Tag)) : Decidable (EndsWith type tags) :=
  inferInstanceAs (Decidable (∀ x ∈ tags.getLast?, x.2.type = type))

theorem endsWith_cons_of_match (p : BitVec 32) (tags : List (BitVec 32 × Tag))
    (hmatch : t.type = type) :
    EndsWith type ((p, t) :: tags) ↔ EndsWith type tags := by
  cases tags with
  | nil => simp [EndsWith, hmatch]
  | cons y ys => rw [EndsWith, List.getLast?_cons_cons, EndsWith]

theorem endsWith_cons_of_other (p : BitVec 32) (tags : List (BitVec 32 × Tag))
    (hother : t.type ≠ type) :
    EndsWith type ((p, t) :: tags) ↔ tags ≠ [] ∧ EndsWith type tags := by
  cases tags with
  | nil => simp [EndsWith, hother]
  | cons y ys =>
    rw [EndsWith, List.getLast?_cons_cons, EndsWith, and_iff_right (List.cons_ne_nil y ys)]

theorem tagsOf_cons_of_match (p : BitVec 32) (tags : List (BitVec 32 × Tag))
    (hmatch : t.type = type) : tagsOf type ((p, t) :: tags) = p :: tagsOf type tags := by
  simp [tagsOf, hmatch]

theorem tagsOf_cons_of_other (p : BitVec 32) (tags : List (BitVec 32 × Tag))
    (hother : t.type ≠ type) : tagsOf type ((p, t) :: tags) = tagsOf type tags := by
  simp [tagsOf, hother]

/-- From a tag on, the loop sees the tags of the type if the last one is one of them. Else it
reads through null. -/
theorem visit_eq (h : TagArea mem p tags) :
    visit (tagList mem) ⟨tagPtr tags, type⟩ =
      if EndsWith type tags then some (tagsOf type tags) else none := by
  induction h with
  | done here last => exact visit_end rfl
  | @tag p q t tags here more size next rest ih =>
    have hp := (TagArea.tag here more size next rest).ne_zero
    by_cases hmatch : t.type = type
    · have hends := endsWith_cons_of_match p tags hmatch
      rw [tagPtr, visit_match hp here hmatch next rest, ih, tagsOf_cons_of_match p tags hmatch]
      by_cases hlast : EndsWith type tags
      · rw [if_pos hlast, if_pos (hends.mpr hlast), Option.map_some]
      · rw [if_neg hlast, if_neg (mt hends.mp hlast), Option.map_none]
    · have hends := endsWith_cons_of_other p tags hmatch
      have hskip := deref_skip here more next rest hmatch
      rw [tagPtr, tagsOf_cons_of_other p tags hmatch]
      by_cases hnil : tags = []
      · rw [if_neg fun hall => (hends.mp hall).1 hnil]
        rw [hnil, tagPtr, deref_null] at hskip
        exact visit_of_deref_none (atEnd_eq_false hp) hskip
      · have hq : tagPtr tags ≠ 0 := rest.eq_tagPtr hnil ▸ rest.ne_zero
        rw [visit_congr (atEnd_eq_false hp) (atEnd_eq_false hq) hskip, ih]
        by_cases hlast : EndsWith type tags
        · rw [if_pos hlast, if_pos (hends.mpr ⟨hnil, hlast⟩)]
        · rw [if_neg hlast, if_neg fun hall => hlast (hends.mp hall).2]

/-- An area without a tag: the body is given null, and the loop reads through it. -/
theorem visit_done (htype : type ≠ tagTypeEnd) (h : TagArea mem p []) :
    visit (tagList mem) ⟨p, type⟩ = none := by
  have hp := h.ne_zero
  cases h with
  | done here last =>
    have hderef : TagIterator.deref mem ⟨p, type⟩ = some (0, ⟨0, type⟩) := by
      rw [TagIterator.deref, here]
      dsimp only
      rw [if_neg (last ▸ htype.symm), if_pos last]
    refine visit_of_incr_none (atEnd_eq_false hp) hderef ?_
    change TagIterator.incr mem ⟨0, type⟩ = none
    rw [TagIterator.incr, mem.null]
    rfl

/-- The loop over a tag area gives its body exactly the tags of the type, exactly when there
is a tag and the last one has the type. -/
theorem tag_filter_exact_iff {addr : BitVec 32} (htype : type ≠ tagTypeEnd)
    (h : TagArea mem (addr + 8) tags) :
    visitTags mem addr type = some (tagsOf type tags) ↔ tags ≠ [] ∧ EndsWith type tags := by
  rw [visitTags]
  by_cases hnil : tags = []
  · subst hnil
    rw [visit_done htype h]
    simp
  · rw [h.eq_tagPtr hnil, visit_eq h, and_iff_right hnil]
    simp

end Area

/-! A module, and then the memory map. -/

def bootTags : TagMemory where
  tagAt a :=
    if a = 0x10008 then some ⟨3, 20⟩
    else if a = 0x10020 then some ⟨6, 16⟩
    else if a = 0x10030 then some ⟨0, 8⟩
    else none
  null := rfl

theorem bootArea : TagArea bootTags 0x10008 [(0x10008, ⟨3, 20⟩), (0x10020, ⟨6, 16⟩)] :=
  .tag (q := 0x10020) rfl (by decide) (by decide) (by decide)
    (.tag (q := 0x10030) rfl (by decide) (by decide) (by decide) (.done (t := ⟨0, 8⟩) rfl rfl))

theorem tag_filter_exact_iff_mmap : visitTags bootTags 0x10000 6 = some [0x10020] := by
  have hlast : EndsWith 6 [(0x10008, ⟨3, 20⟩), (0x10020, ⟨6, 16⟩)] := by decide
  exact (tag_filter_exact_iff (by decide) bootArea).mpr ⟨List.cons_ne_nil _ _, hlast⟩

/-- The loop over the modules reads through null behind the one there is. -/
theorem tag_behind_last_match :
    TagArea bootTags (0x10000 + 8) [(0x10008, ⟨3, 20⟩), (0x10020, ⟨6, 16⟩)] ∧
      tagsOf 3 [(0x10008, ⟨3, 20⟩), (0x10020, ⟨6, 16⟩)] = [0x10008] ∧
      visitTags bootTags 0x10000 3 = none :=
  ⟨bootArea, by decide, (visit_eq bootArea).trans (if_neg (by decide))⟩

/-! The memory map. -/

section Mmap

variable {mmap : TagMmap}

/-- Where entry `i` lies. -/
def entryAddr (mmap : TagMmap) (i : ℕ) : BitVec 32 :=
  mmap.entries + .ofNat 32 (i * mmap.entrySize.toNat)

/-- What a tag with `k` bytes of entries is: it has a header in front, and another tag behind. -/
structure MmapTagOk (mmap : TagMmap) (k : ℕ) : Prop where
  entrySize : 24 ≤ mmap.entrySize.toNat
  size : mmap.size.toNat = 16 + k
  inMemory : mmap.addr.toNat + mmap.size.toNat < 2 ^ 32

variable {k i n : ℕ} (h : MmapTagOk mmap k)

include h

theorem MmapTagOk.toNat_entryAddr (hi : i * mmap.entrySize.toNat ≤ k) :
    (entryAddr mmap i).toNat = mmap.addr.toNat + 16 + i * mmap.entrySize.toNat := by
  have hsize := h.size
  have hend := h.inMemory
  rw [entryAddr, TagMmap.entries, BitVec.toNat_add, BitVec.toNat_add, BitVec.toNat_ofNat,
    show (16 : BitVec 32).toNat = 16 from rfl]
  omega

theorem MmapTagOk.toNat_end :
    (mmap.addr + mmap.size).toNat = mmap.addr.toNat + 16 + k := by
  have hsize := h.size
  have hend := h.inMemory
  rw [BitVec.toNat_add]
  omega

theorem MmapTagOk.go (hi : i * mmap.entrySize.toNat ≤ k) :
    (mmapList mmap).atEnd (entryAddr mmap i) = false := by
  refine decide_eq_false fun hzero => ?_
  have haddr := h.toNat_entryAddr hi
  rw [hzero, show (0 : BitVec 32).toNat = 0 from rfl] at haddr
  omega

omit h in
theorem entryAddr_succ (i : ℕ) :
    entryAddr mmap i + mmap.entrySize = entryAddr mmap (i + 1) := by
  rw [entryAddr, entryAddr, BitVec.add_assoc, Nat.succ_mul, BitVec.ofNat_add, BitVec.ofNat_toNat,
    BitVec.setWidth_eq]

/-- `operator++` gets to the next entry, or to null where it is at the end of the tag. -/
theorem MmapTagOk.incr_eq (hi : (i + 1) * mmap.entrySize.toNat ≤ k) :
    mmap.incr (entryAddr mmap i) =
      if (i + 1) * mmap.entrySize.toNat = k then 0 else entryAddr mmap (i + 1) := by
  have hiff : entryAddr mmap (i + 1) ≥ mmap.addr + mmap.size ↔
      (i + 1) * mmap.entrySize.toNat = k := by
    rw [ge_iff_le, BitVec.le_def, h.toNat_end, h.toNat_entryAddr hi]
    omega
  rw [TagMmap.incr, entryAddr_succ]
  simp only [hiff]

/-- The loop sees the first entries, one after the other, up to one that begins in the tag. -/
theorem MmapTagOk.sees (hi : i = 0 ∨ i * mmap.entrySize.toNat < k) :
    Sees (mmapList mmap) mmap.entries ((List.range i).map (entryAddr mmap)) (entryAddr mmap i) := by
  induction i with
  | zero =>
    rw [entryAddr, Nat.zero_mul, BitVec.add_zero]
    exact .nil _
  | succ i ih =>
    have hlt := hi.resolve_left i.succ_ne_zero
    have hprev : i * mmap.entrySize.toNat < k :=
      (Nat.mul_le_mul_right _ i.le_succ).trans_lt hlt
    have hincr := h.incr_eq hlt.le
    rw [if_neg hlt.ne] at hincr
    rw [List.range_succ, List.map_append]
    exact (ih (Or.inr hprev)).snoc (h.go hprev.le) rfl (congrArg some hincr)

/-- The entries that lie in the tag as a whole. -/
def wholeEntries (mmap : TagMmap) (k : ℕ) : List (BitVec 32) :=
  (List.range (k / mmap.entrySize.toNat)).map (entryAddr mmap)

/-- Where the entries fill the tag the loop sees them and ends. -/
theorem MmapTagOk.visit_eq (hk : 0 < k) (hdvd : mmap.entrySize.toNat ∣ k) :
    visitMmap mmap = some (wholeEntries mmap k) := by
  obtain ⟨n, hn⟩ : ∃ n, k / mmap.entrySize.toNat = n + 1 :=
    Nat.exists_eq_add_one.mpr (Nat.div_pos (Nat.le_of_dvd hk hdvd) (by have := h.entrySize; omega))
  have hend : (n + 1) * mmap.entrySize.toNat = k := hn ▸ Nat.div_mul_cancel hdvd
  have hlast : n * mmap.entrySize.toNat < k := by
    have hsize := h.entrySize
    rw [Nat.succ_mul] at hend
    omega
  have hincr := h.incr_eq hend.le
  rw [if_pos hend] at hincr
  rw [visitMmap, wholeEntries, hn, List.range_succ, List.map_append]
  exact ((h.sees (Or.inr hlast)).snoc (h.go hlast.le) rfl (congrArg some hincr)).visit_eq_some rfl

/-- Else it goes on behind them: to an entry that is cut off, or to the first one of none. -/
theorem MmapTagOk.visit_ne (hnot : ¬ (0 < k ∧ mmap.entrySize.toNat ∣ k)) :
    visitMmap mmap ≠ some (wholeEntries mmap k) := by
  have hbegins : k / mmap.entrySize.toNat = 0 ∨
      k / mmap.entrySize.toNat * mmap.entrySize.toNat < k := by
    rcases Nat.eq_zero_or_pos k with rfl | hk
    · exact Or.inl (Nat.zero_div _)
    · refine Or.inr ((Nat.div_mul_le_self _ _).lt_of_ne fun heq => hnot ⟨hk, ?_⟩)
      exact Dvd.intro_left _ heq
  exact (h.sees hbegins).visit_ne (h.go (Nat.div_mul_le_self _ _))

/-- The loop over the memory map sees exactly the entries in the tag, exactly when they fill
it and there is one. -/
theorem mmap_iteration_exact_iff :
    visitMmap mmap = some (wholeEntries mmap k) ↔ 0 < k ∧ mmap.entrySize.toNat ∣ k := by
  refine ⟨fun hvisit => ?_, fun ⟨hk, hdvd⟩ => h.visit_eq hk hdvd⟩
  by_contra hnot
  exact h.visit_ne hnot hvisit

end Mmap

/-- A map of two entries. -/
def twoEntries : TagMmap := ⟨0x10020, 64, 24⟩

theorem mmap_iteration_exact_iff_two :
    visitMmap twoEntries = some [0x10030, 0x10048] := by
  have hok : MmapTagOk twoEntries 48 := ⟨by decide, by decide, by decide⟩
  exact (mmap_iteration_exact_iff hok).mpr ⟨by decide, by decide⟩

/-- A map of none: the loop sees an entry behind it. -/
theorem empty_mmap_entered :
    let mmap : TagMmap := ⟨0x10020, 16, 24⟩
    MmapTagOk mmap 0 ∧ wholeEntries mmap 0 = [] ∧ visitMmap mmap = some [0x10030] := by
  intro mmap
  refine ⟨⟨by decide, by decide, by decide⟩, by decide, ?_⟩
  have hsees : Sees (mmapList mmap) mmap.entries [0x10030] 0 :=
    .cons (by decide) rfl (congrArg some (by decide : mmap.incr 0x10030 = 0)) (.nil 0)
  exact hsees.visit_eq_some rfl

end CxKernel.Multiboot
