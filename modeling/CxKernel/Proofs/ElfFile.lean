import CxKernel.Proofs.Strcmp
import CxKernel.Spec.ElfFile

/-! `elf::Context::load`, whatever is in memory: `find_section` always comes to an end, with the
first section of the name. -/

namespace CxKernel.ElfFile

open Strings

variable {n : ℕ} {mem : Mem n} {literals : Literals n} {img shdr name : Ptr n}
  {s : List (BitVec 8)}

/-- `".null"` -/
def nullName : List (BitVec 8) := [0x2E, 0x6E, 0x75, 0x6C, 0x6C]

/-- `".symtab"` -/
def symtabName : List (BitVec 8) := [0x2E, 0x73, 0x79, 0x6D, 0x74, 0x61, 0x62]

/-- `".strtab"` -/
def strtabName : List (BitVec 8) := [0x2E, 0x73, 0x74, 0x72, 0x74, 0x61, 0x62]

/-- The literals are in memory. -/
structure Literals.InMemory (literals : Literals n) (mem : Mem n) : Prop where
  null : Spells mem literals.null nullName
  symtab : Spells mem literals.symtab symtabName
  strtab : Spells mem literals.strtab strtabName

/-- The empty string is not `".null"`, so the first test of the loop never succeeds. -/
theorem isSection_eq (hlit : Spells mem literals.null nullName) (hs : Spells mem name s)
    (hnul : 0 ∉ s) (shStr sh : Ptr n) : isSection literals mem shStr name sh =
      some (decide (Spells mem (shStr + (shName mem sh).setWidth _) s)) := by
  obtain ⟨d, hd, hiff⟩ :=
    strcmp_spells hs hnul (shStr + (shName mem sh).setWidth _)
  have hlast : (strcmp (fun _ => true) mem (shStr + (shName mem sh).setWidth _) name).bind
      (fun d => some (d == 0)) = some (decide (Spells mem (shStr + (shName mem sh).setWidth _) s)) := by
    rw [hd, Option.bind_some]
    exact congrArg some (decide_eq_decide.mpr hiff)
  rw [isSection]
  by_cases hempty : mem name = 0
  · have hhead : mem literals.null ≠ mem name := by
      rw [hlit.1, hempty]
      decide
    have hcmp : strcmp (fun _ => true) mem literals.null name = _ :=
      strcmp_unchecked literals.null name
    rw [if_neg fun h => hhead h.2] at hcmp
    have hne : (((mem literals.null).toNat : ℤ) - (mem name).toNat == 0) = false :=
      beq_eq_false_iff_ne.mpr fun h => hhead (sub_eq_zero_iff.mp h)
    rw [if_pos hempty, hcmp, Option.map_some, hne]
    exact hlast
  · rw [if_neg hempty]
    exact hlast

/-- The name of section `i`. -/
def sectionName (mem : Mem n) (img shdr : Ptr n) (i : ℕ) : Ptr n :=
  readSection64 mem img shdr (eShstrndx mem img).toNat +
    (shName mem (element sizeofShdr shdr i)).setWidth _

theorem findSection_eq (hlit : Spells mem literals.null nullName) (hs : Spells mem name s)
    (hnul : 0 ∉ s) (img shdr : Ptr n) : findSection literals mem img shdr name =
      some (((List.range (eShnum mem img).toNat).find? fun i =>
        Spells mem (sectionName mem img shdr i) s).map (element sizeofShdr shdr)) := by
  have hbody : (fun i => isSection literals mem (readSection64 mem img shdr
      (eShstrndx mem img).toNat) name (element sizeofShdr shdr i)) =
        fun i => pure (decide (Spells mem (sectionName mem img shdr i) s)) :=
    funext fun i => isSection_eq hlit hs hnul _ _
  rw [findSection, hbody, List.findM?_pure]
  rfl

theorem find?_range_eq_some_iff {p : ℕ → Bool} {k i : ℕ} :
    (List.range k).find? p = some i ↔ IsLeast {j | j < k ∧ p j = true} i := by
  rw [List.find?_range_eq_some]
  refine ⟨fun ⟨hp, hi, hbefore⟩ => ⟨⟨List.mem_range.mp hi, hp⟩, fun j hj => ?_⟩, fun h => ?_⟩
  · by_contra hlt
    have hno := hbefore j (Nat.lt_of_not_le hlt)
    simp [hj.2] at hno
  · refine ⟨h.1.2, List.mem_range.mpr h.1.1, fun j hj => ?_⟩
    rw [Bool.not_eq_true', Bool.eq_false_iff]
    exact fun hp => absurd (h.2 ⟨hj.trans h.1.1, hp⟩) (Nat.not_le.mpr hj)

/-- The section headers before which there is none of the name. -/
def FirstNamed (mem : Mem n) (img shdr : Ptr n) (s : List (BitVec 8)) (i : ℕ) : Prop :=
  IsLeast {i | i < (eShnum mem img).toNat ∧ Spells mem (sectionName mem img shdr i) s} i

/-- On any memory that holds the two strings, however broken the file, `find_section` ends: at the
first section that has the name, or at null where there is none. -/
theorem find_section_first (hlit : Spells mem literals.null nullName) (hs : Spells mem name s)
    (hnul : 0 ∉ s) (img shdr : Ptr n) : ∃ res, findSection literals mem img shdr name = some res ∧
      (∀ sh, res = some sh ↔ ∃ i, FirstNamed mem img shdr s i ∧ element sizeofShdr shdr i = sh) ∧
      (res = none ↔
        ∀ i < (eShnum mem img).toNat, ¬ Spells mem (sectionName mem img shdr i) s) := by
  refine ⟨_, findSection_eq hlit hs hnul img shdr, fun sh => ?_, ?_⟩
  · rw [Option.map_eq_some_iff]
    simp only [find?_range_eq_some_iff, decide_eq_true_eq, FirstNamed]
  · simp [List.find?_eq_none]

/-- A file with a section that has no name and one that is `".strtab"`, and the literals. -/
def sampleFile : Mem 8 := fun p =>
  if p = 0x103C ∨ p = 0x1059 then 2
  else if p = 0x1080 then 1
  else if 0x1201 ≤ p ∧ p ≤ 0x1207 then strtabName.getD (p - 0x1201).toNat 0
  else if 0x2000 ≤ p ∧ p ≤ 0x2006 then strtabName.getD (p - 0x2000).toNat 0
  else if 0x2010 ≤ p ∧ p ≤ 0x2014 then nullName.getD (p - 0x2010).toNat 0
  else 0

/-- Where its literals lie. -/
def sampleLiterals : Literals 8 := ⟨0x2010, 0, 0x2000⟩

theorem find_section_first_sample :
    findSection sampleLiterals sampleFile 0x1000 0x1040 0x2000 = some (some 0x1080) := by
  have hnull : Spells sampleFile sampleLiterals.null nullName := by decide +kernel
  have hname : Spells sampleFile 0x2000 strtabName := by decide +kernel
  obtain ⟨res, hres, hfound, -⟩ := find_section_first hnull hname (by decide) 0x1000 0x1040
  have hfirst : FirstNamed sampleFile 0x1000 0x1040 strtabName 1 := by
    have hone : 1 < (eShnum sampleFile 0x1000).toNat ∧
        Spells sampleFile (sectionName sampleFile 0x1000 0x1040 1) strtabName := by decide +kernel
    have hzero : ¬ Spells sampleFile (sectionName sampleFile 0x1000 0x1040 0) strtabName := by
      decide +kernel
    refine ⟨hone, fun i hi => Nat.pos_of_ne_zero ?_⟩
    rintro rfl
    exact hzero hi.2
  rw [hres, (hfound _).mpr ⟨1, hfirst, rfl⟩]
  rfl

theorem Literals.InMemory.load64_eq (h : literals.InMemory mem) (hdr : Ptr n) :
    ∃ ctx, load64 literals mem hdr = some ctx ∧ ctx.img = hdr ∧
      ctx.phdr = atOffset hdr (ePhoff mem hdr) := by
  rw [load64, findSection_eq h.null h.symtab (by decide),
    findSection_eq h.null h.strtab (by decide)]
  exact ⟨_, rfl, rfl, rfl⟩

end CxKernel.ElfFile
