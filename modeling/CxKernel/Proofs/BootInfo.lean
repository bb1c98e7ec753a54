import CxKernel.Proofs.Multiboot
import CxKernel.Proofs.Strcmp
import CxKernel.Spec.Main

/-! What `main` looks for in the Multiboot information. Its loops leave at the first match, so that
where the tag is there they never get to the end that the range-for loops run past. -/

namespace CxKernel.Multiboot

open RangeFor

variable {mem : TagMemory} {p q type : BitVec 32} {tags : List (BitVec 32 × Tag)}
  {body : BitVec 32 → Option Bool} {f : BitVec 32 → Bool}

/-- From a tag on, a loop that may be left ends at the first match. Without one, it ends if the
last tag has the type, else it reads through null. -/
theorem search_tags (hbody : ∀ a, body a = some (f a)) (h : TagArea mem p tags) :
    search (tagList mem) body ⟨tagPtr tags, type⟩ =
      ((tagsOf type tags).find? f).elim (if EndsWith type tags then some none else none)
        fun a => some (some a) := by
  induction h with
  | done => exact search_end rfl
  | @tag p q t tags here more size next rest ih =>
    have hp := (TagArea.tag here more size next rest).ne_zero
    by_cases hmatch : t.type = type
    · rw [tagPtr, tagsOf_cons_of_match p tags hmatch, List.find?_cons]
      have hderef : (tagList mem).deref ⟨p, type⟩ = some (p, ⟨p, type⟩) := deref_match here hmatch
      cases hf : f p with
      | true => exact search_found (atEnd_eq_false hp) hderef ((hbody p).trans (congrArg some hf))
      | false =>
        rw [search_step (atEnd_eq_false hp) hderef ((hbody p).trans (congrArg some hf))
          (incr_eq here next rest), ih]
        simp only [endsWith_cons_of_match p tags hmatch]
    · have hskip := deref_skip here more next rest hmatch
      rw [tagPtr, tagsOf_cons_of_other p tags hmatch]
      by_cases hnil : tags = []
      · rw [hnil, tagPtr, deref_null] at hskip
        rw [search_of_deref_none (atEnd_eq_false hp) hskip, hnil,
          if_neg fun hends => ((endsWith_cons_of_other p [] hmatch).mp hends).1 rfl]
        rfl
      · have hq : tagPtr tags ≠ 0 := rest.eq_tagPtr hnil ▸ rest.ne_zero
        rw [search_congr (atEnd_eq_false hp) (atEnd_eq_false hq) hskip, ih]
        simp only [endsWith_cons_of_other p tags hmatch, hnil, ne_eq, not_false_eq_true, true_and]

theorem TagArea.search_eq (hbody : ∀ a, body a = some (f a)) (h : TagArea mem p tags)
    (hne : tags ≠ []) : search (tagList mem) body ⟨p, type⟩ =
      ((tagsOf type tags).find? f).elim (if EndsWith type tags then some none else none)
        fun a => some (some a) := by
  rw [← search_tags hbody h, h.eq_tagPtr hne]

theorem TagArea.ne_zero_of_mem (h : TagArea mem p tags) {x : BitVec 32 × Tag}
    (hx : x ∈ tags) : x.1 ≠ 0 := by
  induction h with
  | done => cases hx
  | tag here more size next rest ih =>
    rcases List.mem_cons.mp hx with rfl | hx
    · exact (TagArea.tag here more size next rest).ne_zero
    · exact ih hx

end CxKernel.Multiboot

namespace CxKernel.Loader

open Strings Multiboot RangeFor

/-- `"cxkernel"` -/
def kernelName : List (BitVec 8) := [0x63, 0x78, 0x6B, 0x65, 0x72, 0x6E, 0x65, 0x6C]

section Search

variable {mem : Mem 4} {ptr cxkernel p : BitVec 32} {tags : List (BitVec 32 × Tag)}

/-- The kernel's module: the first one with its name. -/
def kernelModule (mem : Mem 4) (tags : List (BitVec 32 × Tag)) : Option (BitVec 32) :=
  (tagsOf tagTypeModule tags).find? fun tag => Spells mem (cmdline tag) kernelName

theorem find_module (hlit : Spells mem cxkernel kernelName)
    (harea : TagArea (tagMemory mem) (ptr + 8) tags) (hne : tags ≠ []) :
    findModule cxkernel mem ptr = (kernelModule mem tags).elim
      (if EndsWith tagTypeModule tags then some none else none) fun a => some (some a) := by
  refine harea.search_eq (fun tag => ?_) hne
  obtain ⟨d, hd, hiff⟩ := strcmp_spells hlit (by decide) (cmdline tag)
  rw [hd, Option.map_some]
  exact congrArg some (decide_eq_decide.mpr hiff)

theorem find_mmap (harea : TagArea (tagMemory mem) (ptr + 8) tags) (hne : tags ≠ []) :
    findMmap mem ptr = (tagsOf tagTypeMmap tags).head?.elim
      (if EndsWith tagTypeMmap tags then some none else none) fun a => some (some a) := by
  rw [findMmap, harea.search_eq (fun _ => rfl) hne]
  cases tagsOf tagTypeMmap tags <;> rfl

/-- The Multiboot information, with the tags `main` needs. -/
structure BootInfo (mem : Mem 4) (cxkernel ptr module mmap : BitVec 32)
    (tags : List (BitVec 32 × Tag)) : Prop where
  literal : Spells mem cxkernel kernelName
  area : TagArea (tagMemory mem) (ptr + 8) tags
  module : kernelModule mem tags = some module
  mmap : (tagsOf tagTypeMmap tags).head? = some mmap

/-- The searches end at the tags, and these are not at null. -/
theorem BootInfo.found {module mmap : BitVec 32} (h : BootInfo mem cxkernel ptr module mmap tags) :
    (findModule cxkernel mem ptr).bind notNull = some module ∧
      (findMmap mem ptr).bind notNull = some mmap := by
  have hmap := List.mem_of_mem_head? h.mmap
  have hne : tags ≠ [] := by
    rintro rfl
    cases hmap
  have hnull : ∀ type tag, tag ∈ tagsOf type tags → notNull (some tag) = some tag := by
    intro type tag htag
    obtain ⟨x, hx, rfl⟩ := List.mem_map.mp htag
    rw [notNull, Option.filter_some_pos]
    exact decide_eq_true (h.area.ne_zero_of_mem (List.mem_filter.mp hx).1)
  rw [find_module h.literal h.area hne, find_mmap h.area hne, h.module, h.mmap]
  exact ⟨hnull _ _ (List.mem_of_find?_eq_some h.module), hnull _ _ hmap⟩

end Search

end CxKernel.Loader
