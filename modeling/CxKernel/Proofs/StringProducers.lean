import CxKernel.Proofs.FormatScan
import CxKernel.Proofs.Memmove

/-! `strcpy`, `strcat` and `vsprintf`. All of them write the characters of their result and leave
the byte behind it as it is, so the result ends if that byte was a NUL before. -/

namespace CxKernel.Strings

open Stdio

section Wrote

variable {n : ℕ} {mem mem' : Mem n} {d src : Ptr n} {s old : List (BitVec 8)}

/-- The characters `s` at `d`, and the other bytes as they were. -/
structure Wrote (mem mem' : Mem n) (d : Ptr n) (s : List (BitVec 8)) : Prop where
  byte : ∀ i (h : i < s.length), mem' (d + .ofNat _ i) = s[i]
  frame : ∀ a, (∀ i < s.length, a ≠ d + .ofNat _ i) → mem' a = mem a

theorem add_ofNat_inj {i j k : ℕ} (hfits : d.toNat + k < 2 ^ (8 * n)) (hi : i ≤ k) (hj : j ≤ k) :
    d + .ofNat _ i = d + .ofNat _ j ↔ i = j := by
  refine ⟨fun he => ?_, fun he => he ▸ rfl⟩
  have hnat := toNat_add_eq (by omega) (by omega) he
  omega

/-- What is written is a string if there was a NUL behind it. -/
theorem Wrote.cstr_iff (h : Wrote mem mem' d s) (hs : 0 ∉ s)
    (hfits : d.toNat + s.length < 2 ^ (8 * n)) : CStr mem' d s ↔ mem (d + .ofNat _ s.length) = 0 := by
  have hbehind : mem' (d + .ofNat _ s.length) = mem (d + .ofNat _ s.length) := by
    refine h.frame _ fun i hi he => hi.ne ?_
    exact ((add_ofNat_inj hfits le_rfl hi.le).mp he).symm
  exact ⟨fun hstr => hbehind ▸ hstr.nul, fun hnul => ⟨h.byte, hs, hbehind.trans hnul, hfits⟩⟩

/-- What is written right behind a string continues it. -/
theorem Wrote.append (h : Wrote mem mem' (d + .ofNat _ old.length) s) (hold : CStr mem d old)
    (hfits : d.toNat + (old.length + s.length) < 2 ^ (8 * n)) : Wrote mem mem' d (old ++ s) := by
  refine ⟨fun i hi => ?_, fun a ha => h.frame a fun i hi => ?_⟩
  · rw [List.length_append] at hi
    by_cases hlt : i < old.length
    · have hkept : mem' (d + .ofNat _ i) = mem (d + .ofNat _ i) := by
        refine h.frame _ fun j hj he => ?_
        rw [add_ofNat_add, add_ofNat_inj hfits (by omega) (by omega)] at he
        omega
      rw [hkept, hold.byte i hlt, List.getElem_append_left hlt]
    · have hbyte := h.byte (i - old.length) (by omega)
      rw [add_ofNat_add, Nat.add_sub_cancel' (Nat.le_of_not_lt hlt)] at hbyte
      rw [hbyte, List.getElem_append_right (Nat.le_of_not_lt hlt)]
  · rw [add_ofNat_add]
    exact ha (old.length + i) (by rw [List.length_append]; omega)

/-- Two ranges of bytes, their ends included, have none in common. -/
def Apart (d : Ptr n) (k : ℕ) (src : Ptr n) (l : ℕ) : Prop :=
  ∀ i ≤ k, ∀ j ≤ l, d + .ofNat _ i ≠ src + .ofNat _ j

theorem strcpy_wrote (hn : n = 4 ∨ n = 8) (hs : CStr mem src s)
    (hfits : d.toNat + s.length < 2 ^ (8 * n)) (hapart : Apart d s.length src s.length) :
    ∃ mem', strcpy mem d src = some mem' ∧ Wrote mem mem' d s := by
  have hlen : (BitVec.ofNat (8 * n) s.length).toNat = s.length := by
    rw [BitVec.toNat_ofNat, Nat.mod_eq_of_lt (by omega)]
  have hcopied : Copied mem (memcpy mem d src (.ofNat _ s.length)) d src
      (BitVec.ofNat (8 * n) s.length).toNat :=
    copied_memcpy (by rw [hlen]; exact hfits.le)
      (by rw [hlen]; exact fun i hi j hj => hapart i hi.le j hj.le)
  rw [hlen] at hcopied
  refine ⟨memcpy mem d src (.ofNat _ s.length), ?_, ⟨fun i hi => ?_, hcopied.frame⟩⟩
  · rw [strcpy, hs.strlen_eq hn]
    rfl
  · rw [hcopied.copy i hi, hs.byte i hi]

theorem strcat_wrote (hn : n = 4 ∨ n = 8) (hold : CStr mem d old) (hs : CStr mem src s)
    (hfits : d.toNat + (old.length + s.length) < 2 ^ (8 * n))
    (hapart : Apart d (old.length + s.length) src s.length) :
    ∃ mem', strcat mem d src = some mem' ∧ Wrote mem mem' d (old ++ s) := by
  have hstart : (d + .ofNat _ old.length).toNat = d.toNat + old.length :=
    toNat_add_ofNat (by omega)
  obtain ⟨mem', hcpy, hwrote⟩ := strcpy_wrote hn hs (d := d + .ofNat _ old.length)
    (by rw [hstart]; omega) fun i hi j hj => by
      rw [add_ofNat_add]
      exact hapart (old.length + i) (by omega) j hj
  refine ⟨mem', ?_, hwrote.append hold hfits⟩
  rw [strcat, hold.strlen_eq hn]
  exact hcpy

end Wrote

section Vsprintf

variable {mem : Mem 8} {d : Ptr 8} {s fmt : List (BitVec 8)} {args : List (BitVec 64)}

theorem swriteSbuf_wrote (hfits : d.toNat + s.length < 2 ^ (8 * 8)) :
    Wrote mem (swriteSbuf mem d s) d s := by
  induction s generalizing mem d with
  | nil => exact ⟨fun i hi => absurd hi (Nat.not_lt_zero i), fun a _ => rfl⟩
  | cons c s ih =>
    rw [List.length_cons] at hfits
    have hnext : (d + 1).toNat = d.toNat + 1 := toNat_add_ofNat (i := 1) (by omega)
    have hrest : Wrote (Function.update mem d c) (swriteSbuf mem d (c :: s)) (d + 1) s :=
      ih (by omega)
    refine ⟨fun i hi => ?_, fun a ha => ?_⟩
    · cases i with
      | zero =>
        rw [BitVec.add_zero, hrest.frame, Function.update_self]
        · rfl
        · intro i hi he
          rw [add_one_add_ofNat] at he
          have hzero := (add_ofNat_inj hfits (Nat.zero_le _) (Nat.succ_le_succ hi.le)).mp
            ((BitVec.add_zero d).trans he)
          omega
      | succ i =>
        have hbyte := hrest.byte i (Nat.lt_of_succ_lt_succ hi)
        rwa [add_one_add_ofNat] at hbyte
    · rw [hrest.frame, Function.update_of_ne]
      · have hfirst := ha 0 (Nat.zero_lt_succ _)
        rwa [BitVec.add_zero] at hfirst
      · intro i hi
        rw [add_one_add_ofNat]
        exact ha (i + 1) (Nat.succ_lt_succ hi)

/-- The `int`s that `%n` stores lie apart from the result and its NUL. -/
def StoredApart (out : Out) (d : Ptr 8) : Prop :=
  ∀ p ∈ out.stored, ∀ j ≤ out.emitted.length, ∀ i < 4, p.1 + .ofNat _ i ≠ d + .ofNat _ j

theorem storeInt_apart {p : BitVec 64 × ℤ} {a : Ptr 8} (h : ∀ i < 4, p.1 + .ofNat _ i ≠ a) :
    storeInt mem p a = mem a := by
  refine ByteMem.store_of_not _ fun hlt => h (a - p.1).toNat (by omega) ?_
  rw [BitVec.ofNat_toNat, BitVec.setWidth_eq, BitVec.add_comm, BitVec.sub_add_cancel]

theorem foldl_storeInt_apart {stores : List (BitVec 64 × ℤ)} {a : Ptr 8}
    (h : ∀ p ∈ stores, ∀ i < 4, p.1 + .ofNat _ i ≠ a) : stores.foldl storeInt mem a = mem a := by
  induction stores generalizing mem with
  | nil => rfl
  | cons p stores ih =>
    rw [List.foldl_cons, ih fun q hq => h q (List.mem_cons_of_mem p hq)]
    exact storeInt_apart (h p List.mem_cons_self)

end Vsprintf

/-! The results. -/

section Results

variable {n : ℕ} {mem mem' : Mem n} {d src : Ptr n} {s old : List (BitVec 8)}

/-- The run ends, and the C string at `d` is `s`. -/
def Leaves (run : Option (Mem n)) (d : Ptr n) (s : List (BitVec 8)) : Prop :=
  ∃ mem', run = some mem' ∧ CStr mem' d s

theorem Wrote.leaves_iff (h : Wrote mem mem' d s) (hs : 0 ∉ s)
    (hfits : d.toNat + s.length < 2 ^ (8 * n)) :
    Leaves (some mem') d s ↔ mem (d + .ofNat _ s.length) = 0 := by
  rw [← h.cstr_iff hs hfits]
  refine ⟨?_, fun hstr => ⟨mem', rfl, hstr⟩⟩
  rintro ⟨_, heq, hstr⟩
  exact Option.some.inj heq ▸ hstr

theorem strcpy_leaves_iff (hn : n = 4 ∨ n = 8) (hs : CStr mem src s)
    (hfits : d.toNat + s.length < 2 ^ (8 * n)) (hapart : Apart d s.length src s.length) :
    Leaves (strcpy mem d src) d s ↔ mem (d + .ofNat _ s.length) = 0 := by
  obtain ⟨mem', hrun, hwrote⟩ := strcpy_wrote hn hs hfits hapart
  rw [hrun]
  exact hwrote.leaves_iff hs.nonzero hfits

theorem strcat_leaves_iff (hn : n = 4 ∨ n = 8) (hold : CStr mem d old) (hs : CStr mem src s)
    (hfits : d.toNat + (old ++ s).length < 2 ^ (8 * n))
    (hapart : Apart d (old ++ s).length src s.length) :
    Leaves (strcat mem d src) d (old ++ s) ↔ mem (d + .ofNat _ (old ++ s).length) = 0 := by
  obtain ⟨mem', hrun, hwrote⟩ := strcat_wrote hn hold hs (by rwa [List.length_append] at hfits)
    (by rwa [List.length_append] at hapart)
  rw [hrun]
  refine hwrote.leaves_iff (fun hmem => ?_) hfits
  rcases List.mem_append.mp hmem with h | h
  · exact hold.nonzero h
  · exact hs.nonzero h

end Results

section Vsprintf

variable {mem : Mem 8} {d : Ptr 8} {fmt : List (BitVec 8)} {args : List (BitVec 64)} {ret : ℤ}
  {out : Out}

/-- The C string at `d` is what was passed on, and its length is the count. -/
def VsprintfLeaves (mem : Mem 8) (d : Ptr 8) (fmt : List (BitVec 8)) (args : List (BitVec 64))
    (s : List (BitVec 8)) : Prop :=
  ∃ ret mem', vsprintf mem d (fmt ++ [0]) args = some (ret, mem') ∧ CStr mem' d s ∧
    strlen mem' d = some (.ofInt _ ret)

theorem vsprintf_leaves_iff (hrun : ssprintf mem (fmt ++ [0]) args = some (ret, out))
    (hret : ret = out.emitted.length) (hout : 0 ∉ out.emitted)
    (hfits : d.toNat + out.emitted.length < 2 ^ (8 * 8)) (hapart : StoredApart out d) :
    VsprintfLeaves mem d fmt args out.emitted ↔ mem (d + .ofNat _ out.emitted.length) = 0 := by
  have hwrote : Wrote (out.stored.foldl storeInt mem) _ d out.emitted := swriteSbuf_wrote hfits
  have hiff := hwrote.cstr_iff hout hfits
  rw [foldl_storeInt_apart fun p hp => hapart p hp _ le_rfl] at hiff
  rw [← hiff, VsprintfLeaves, vsprintf, hrun]
  constructor
  · rintro ⟨_, _, heq, hstr, -⟩
    obtain ⟨-, rfl⟩ := Prod.mk.inj (Option.some.inj heq)
    exact hstr
  · intro hstr
    refine ⟨ret, _, rfl, hstr, ?_⟩
    rw [hstr.strlen_eq (Or.inr rfl), hret, BitVec.ofInt_natCast]

end Vsprintf

/-- Each of the three leaves its result as a C string if and only if the byte behind it was a NUL
before the call. -/
theorem producers_leave_iff {n : ℕ} {mem : Mem n} {d dest src : Ptr n} {old s : List (BitVec 8)}
    (hn : n = 4 ∨ n = 8) (hs : CStr mem src s)
    (hcpy : d.toNat + s.length < 2 ^ (8 * n)) (hcpyApart : Apart d s.length src s.length)
    (hold : CStr mem dest old) (hcat : dest.toNat + (old ++ s).length < 2 ^ (8 * n))
    (hcatApart : Apart dest (old ++ s).length src s.length)
    {mem₈ : Mem 8} {fmt : List (BitVec 8)} {args : List (BitVec 64)} (buf : Ptr 8)
    (hfmt : 0 ∉ fmt) (hargs : Fits mem₈ (asks fmt).1 args) :
    (Leaves (strcpy mem d src) d s ↔ mem (d + .ofNat _ s.length) = 0) ∧
    (Leaves (strcat mem dest src) dest (old ++ s) ↔
      mem (dest + .ofNat _ (old ++ s).length) = 0) ∧
    ∃ ret out, ssprintf mem₈ (fmt ++ [0]) args = some (ret, out) ∧
      (0 ≤ ret → 0 ∉ out.emitted → buf.toNat + out.emitted.length < 2 ^ (8 * 8) →
        StoredApart out buf →
        (VsprintfLeaves mem₈ buf fmt args out.emitted ↔
          mem₈ (buf + .ofNat _ out.emitted.length) = 0)) := by
  refine ⟨strcpy_leaves_iff hn hs hcpy hcpyApart, strcat_leaves_iff hn hold hs hcat hcatApart, ?_⟩
  obtain ⟨ret, out, hrun, hcounted, hret⟩ := ssprintfLoop_counted fmt .empty hfmt hargs rfl
  refine ⟨ret, out, hrun, fun hnonneg => vsprintf_leaves_iff hrun ?_⟩
  split_ifs at hret
  · omega
  · rw [hret, hcounted]

/-- Ones everywhere, but for the end of a string at 0x1000 and what is from 0x3000 on. -/
def mostlyOnes : Mem 8 := fun p => if p = 0x1003 ∨ 0x3000 ≤ p then 0 else 1

theorem mostlyOnes_source : CStr mostlyOnes 0x1000 [1, 1, 1] :=
  ⟨by decide, by decide, by decide, by decide⟩

theorem producers_leave_iff_ones :
    (Leaves (strcpy mostlyOnes 0x3000 0x1000) 0x3000 [1, 1, 1] ↔ mostlyOnes 0x3003 = 0) ∧
    (Leaves (strcat mostlyOnes 0x3000 0x1000) 0x3000 [1, 1, 1] ↔ mostlyOnes 0x3003 = 0) ∧
    (VsprintfLeaves mostlyOnes 0x2000 [97] [] [97] ↔ mostlyOnes 0x2001 = 0) := by
  have hempty : CStr mostlyOnes 0x3000 [] := ⟨by decide, by decide, by decide, by decide⟩
  have hfits : (0x3000 : Ptr 8).toNat + 3 < 2 ^ (8 * 8) := by decide
  have hapart : Apart (0x3000 : Ptr 8) 3 0x1000 3 := by unfold Apart; decide
  have hargs : Fits mostlyOnes (asks [97]).1 [] := by
    rw [asks, if_neg (by decide), asks]
    trivial
  obtain ⟨hcpy, hcat, ret, out, hrun, hiff⟩ := producers_leave_iff (Or.inr rfl) mostlyOnes_source
    hfits hapart hempty hfits hapart 0x2000 (by decide) hargs
  have hone : ssprintf mostlyOnes ([97] ++ [0]) [] = some (1, Out.empty.puts [97]) :=
    (ssprintfLoop_lit (by decide) (by decide)).trans ssprintfLoop_nul
  obtain ⟨rfl, rfl⟩ := Prod.mk.inj (Option.some.inj (hrun.symm.trans hone))
  refine ⟨hcpy, hcat, ?_⟩
  exact hiff (by decide) (by decide) (by decide) fun p hp => absurd hp List.not_mem_nil

/-- A copy into memory that is full of ones does not end. -/
theorem strcpy_not_terminated : CStr mostlyOnes 0x1000 [1, 1, 1] ∧
    ¬ Leaves (strcpy mostlyOnes 0x2000 0x1000) 0x2000 [1, 1, 1] := by
  refine ⟨mostlyOnes_source, ?_⟩
  rw [strcpy_leaves_iff (Or.inr rfl) mostlyOnes_source (by decide) (by unfold Apart; decide)]
  decide

end CxKernel.Strings
