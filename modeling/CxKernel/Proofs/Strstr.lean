import CxKernel.Proofs.Memmove

/-! `strstr` against the least position at which the one string is a prefix of the rest of the
other. An empty string is found at the other's end. -/

namespace CxKernel.Strings

variable {n : ℕ} {mem : Mem n} {r : Ptr n → Bool} {s1 s2 : Ptr n} {a b : List (BitVec 8)}
  {c : BitVec 8} {i j k : ℕ}

/-- `p` is one of the bytes of a string of length `len` at `s`, its NUL included. -/
def within (s : Ptr n) (len : ℕ) (p : Ptr n) : Bool := (p - s).toNat ≤ len

/-- A string whose bytes may be read, and that is not at null. -/
structure Given (mem : Mem n) (r : Ptr n → Bool) (p : Ptr n) (s : List (BitVec 8)) : Prop where
  str : CStr mem p s
  readable : ∀ i ≤ s.length, r (p + .ofNat _ i) = true
  notNull : p ≠ 0

theorem Given.readByte_eq (h : Given mem r s1 a) (hi : i ≤ a.length) :
    readByte r mem (s1 + .ofNat _ i) = some (a.getD i 0) := by
  rw [readByte, if_pos (h.readable i hi), h.str.getD hi]

theorem Given.addr_ne_zero (h : Given mem r s1 a) (hi : i ≤ a.length) : s1 + .ofNat _ i ≠ 0 := by
  intro he
  have hfits := h.str.fits
  have hnat := congrArg BitVec.toNat he
  rw [toNat_add_ofNat (by omega), BitVec.ofNat_eq_ofNat, BitVec.toNat_ofNat, Nat.zero_mod] at hnat
  exact h.notNull (BitVec.eq_of_toNat_eq (by
    rw [BitVec.ofNat_eq_ofNat, BitVec.toNat_ofNat, Nat.zero_mod]; omega))

theorem Given.getD_ne_zero (h : Given mem r s1 a) (hi : i < a.length) : a.getD i 0 ≠ 0 := by
  rw [List.getD_eq_getElem _ _ hi]
  exact fun he => h.str.nonzero (he ▸ List.getElem_mem hi)

/-- The first `c` from `i` on. -/
theorem Given.strchr_found (h : Given mem r s1 a) (hij : i ≤ j) (hj : j ≤ a.length)
    (hc : a.getD j 0 = c) (hfirst : ∀ k, i ≤ k → k < j → a.getD k 0 ≠ c) :
    strchr r mem (s1 + .ofNat _ i) c = some (s1 + .ofNat _ j) := by
  induction hd : j - i generalizing i with
  | zero =>
    obtain rfl : i = j := by omega
    rw [strchr, h.readByte_eq hj, Option.bind_eq_bind, Option.bind_some, if_pos hc]
    rfl
  | succ d ih =>
    rw [strchr, h.readByte_eq (by omega), Option.bind_eq_bind, Option.bind_some,
      if_neg (hfirst i le_rfl (by omega)), if_neg (h.getD_ne_zero (by omega)), add_ofNat_one]
    exact ih (by omega) (fun k hk => hfirst k (by omega)) (by omega)

/-- No `c` from `i` on. -/
theorem Given.strchr_none (h : Given mem r s1 a) (hi : i ≤ a.length)
    (hno : ∀ k, i ≤ k → k ≤ a.length → a.getD k 0 ≠ c) :
    strchr r mem (s1 + .ofNat _ i) c = some 0 := by
  induction hd : a.length - i generalizing i with
  | zero =>
    obtain rfl : i = a.length := by omega
    rw [strchr, h.readByte_eq hi, Option.bind_eq_bind, Option.bind_some,
      if_neg (hno _ le_rfl le_rfl), if_pos (List.getD_eq_default _ _ le_rfl)]
    rfl
  | succ d ih =>
    rw [strchr, h.readByte_eq hi, Option.bind_eq_bind, Option.bind_some,
      if_neg (hno i le_rfl hi), if_neg (h.getD_ne_zero (by omega)), add_ofNat_one]
    exact ih (by omega) (fun k hk => hno k (by omega)) (by omega)

theorem prefix_drop_iff {t : ℕ} (ht : t < b.length) :
    b.drop t <+: a.drop i ↔ i < a.length ∧ a.getD i 0 = b.getD t 0 ∧
      b.drop (t + 1) <+: a.drop (i + 1) := by
  rw [List.drop_eq_getElem_cons ht, List.getD_eq_getElem _ _ ht]
  by_cases hi : i < a.length
  · rw [List.drop_eq_getElem_cons hi, List.cons_prefix_cons, List.getD_eq_getElem _ _ hi, eq_comm]
    exact (and_iff_right hi).symm
  · rw [List.drop_eq_nil_of_le (Nat.le_of_not_lt hi)]
    exact iff_of_false (fun h => by cases List.prefix_nil.mp h) fun h => hi h.1

/-- Comparing `k` bytes ends, and says whether they are the next ones. -/
theorem Given.strncmp_eq (h₁ : Given mem r s1 a) (h₂ : Given mem r s2 b) {t : ℕ}
    (hi : i ≤ a.length) (hk : t + k = b.length) :
    ∃ d, strncmp r mem (s1 + .ofNat _ i) (s2 + .ofNat _ t) k = some d ∧
      (d = 0 ↔ b.drop t <+: a.drop i) := by
  induction k generalizing i t with
  | zero =>
    refine ⟨0, rfl, iff_of_true rfl ?_⟩
    rw [List.drop_eq_nil_of_le (by omega)]
    exact List.nil_prefix
  | succ k ih =>
    have ht : t < b.length := by omega
    rw [strncmp, h₁.readByte_eq hi, h₂.readByte_eq ht.le, Option.bind_eq_bind, Option.bind_some,
      Option.bind_some, prefix_drop_iff ht]
    have hu2 := h₂.getD_ne_zero ht
    by_cases hne : a.getD i 0 = b.getD t 0
    · have hlt : i < a.length := by
        refine hi.lt_of_ne fun he => hu2 ?_
        rw [← hne, List.getD_eq_default _ _ he.ge]
      rw [if_neg (not_not.mpr hne), if_neg (hne ▸ hu2), add_ofNat_one, add_ofNat_one]
      obtain ⟨d, hd, hiff⟩ := ih (t := t + 1) hlt (by omega)
      exact ⟨d, hd, hiff.trans ⟨fun hp => ⟨hlt, hne, hp⟩, fun hp => hp.2.2⟩⟩
    · rw [if_pos hne]
      refine ⟨_, rfl, iff_of_false (fun hzero => hne ?_) fun hp => hne hp.2.1⟩
      apply BitVec.eq_of_toNat_eq
      omega

/-! The search. -/

/-- The least position from `i` on at which `b` is a prefix of the rest, or null. -/
def Finds (s1 : Ptr n) (a b : List (BitVec 8)) (i : ℕ) (res : Ptr n) : Prop :=
  (∃ j, IsLeast {j | i ≤ j ∧ b <+: a.drop j} j ∧ res = s1 + .ofNat _ j) ∨
    (∀ j, i ≤ j → ¬ b <+: a.drop j) ∧ res = 0

theorem getD_of_occurs {c : BitVec 8} {b' : List (BitVec 8)} (h : c :: b' <+: a.drop k) :
    k < a.length ∧ a.getD k 0 = c := by
  obtain ⟨hk, hc, -⟩ := (prefix_drop_iff (b := c :: b') (t := 0) (Nat.zero_lt_succ _)).mp h
  exact ⟨hk, hc⟩

/-- A position that is passed over makes no difference. -/
theorem Finds.of_le {res : Ptr n} (h : Finds s1 a b j res) (hij : i ≤ j)
    (hno : ∀ k, i ≤ k → k < j → ¬ b <+: a.drop k) : Finds s1 a b i res := by
  rcases h with ⟨k, ⟨⟨hjk, hk⟩, hleast⟩, rfl⟩ | ⟨hnone, rfl⟩
  · refine Or.inl ⟨k, ⟨⟨hij.trans hjk, hk⟩, ?_⟩, rfl⟩
    rintro m ⟨him, hm⟩
    exact hleast ⟨Nat.le_of_not_lt fun hlt => hno m him hlt hm, hm⟩
  · refine Or.inr ⟨fun k hk hp => ?_, rfl⟩
    rcases Nat.lt_or_ge k j with hlt | hge
    · exact hno k hk hlt hp
    · exact hnone k hge hp

/-- With a string that is not empty the search stops at the first place it occurs. -/
theorem Given.strstrFrom_eq (h₁ : Given mem r s1 a) (h₂ : Given mem r s2 b) (hb : b ≠ [])
    (hi : i ≤ a.length) : ∃ res, strstrFrom r mem (s1 + .ofNat _ i) s2 b.length = some res ∧
      Finds s1 a b i res := by
  obtain ⟨c, b', rfl⟩ := List.exists_cons_of_ne_nil hb
  have hc : c ≠ 0 := h₂.getD_ne_zero (i := 0) (Nat.zero_lt_succ _)
  have hread : readByte r mem s2 = some c := by
    have hzero := h₂.readByte_eq (Nat.zero_le _)
    rwa [BitVec.add_zero] at hzero
  induction hd : a.length - i using Nat.strongRecOn generalizing i with
  | ind d ih =>
    rw [strstrFrom, hread, Option.bind_eq_bind, Option.bind_some]
    by_cases hex : ∃ k, i ≤ k ∧ a.getD k 0 = c
    · obtain ⟨hik, hk⟩ := Nat.find_spec hex
      have hmin := fun k hk => Nat.find_min hex (m := k) hk
      generalize Nat.find hex = j at hik hk hmin
      have hlt : j < a.length := by
        refine Nat.lt_of_not_le fun hge => hc ?_
        rw [← hk, List.getD_eq_default _ _ hge]
      have hpassed : ∀ k, i ≤ k → k < j → ¬ c :: b' <+: a.drop k :=
        fun k hki hkj hp => hmin k hkj ⟨hki, (getD_of_occurs hp).2⟩
      rw [h₁.strchr_found hik hlt.le hk fun k hki hkj hck => hmin k hkj ⟨hki, hck⟩,
        Option.bind_eq_bind, Option.bind_some, if_neg (h₁.addr_ne_zero hlt.le)]
      obtain ⟨diff, hdiff, hiff⟩ := h₁.strncmp_eq h₂ (t := 0) hlt.le (Nat.zero_add _)
      rw [BitVec.add_zero] at hdiff
      rw [hdiff, Option.bind_eq_bind, Option.bind_some]
      by_cases hmatch : diff = 0
      · rw [if_pos hmatch]
        refine ⟨_, rfl, Finds.of_le (j := j) (Or.inl ⟨j, ⟨⟨le_rfl, hiff.mp hmatch⟩, ?_⟩, rfl⟩)
          hik hpassed⟩
        exact fun k hk => hk.1
      · rw [if_neg hmatch, add_ofNat_one]
        obtain ⟨res, hres, hfinds⟩ := ih (a.length - (j + 1)) (by omega) hlt rfl
        refine ⟨res, hres, hfinds.of_le (by omega) fun k hki hkj hp => ?_⟩
        rcases Nat.lt_succ_iff_lt_or_eq.mp hkj with hkj | rfl
        · exact hpassed k hki hkj hp
        · exact hmatch (hiff.mpr hp)
    · rw [h₁.strchr_none hi fun k hki _ hck => hex ⟨k, hki, hck⟩, Option.bind_eq_bind,
        Option.bind_some, if_pos rfl]
      exact ⟨0, rfl, Or.inr ⟨fun k hki hp => hex ⟨k, hki, (getD_of_occurs hp).2⟩, rfl⟩⟩

/-- An empty string is found at the end of the other one. -/
theorem Given.strstrFrom_nil (h₁ : Given mem r s1 a) (h₂ : Given mem r s2 b) (hb : b = []) :
    strstrFrom r mem s1 s2 b.length = some (s1 + .ofNat _ a.length) := by
  subst hb
  have hread : readByte r mem s2 = some 0 := by
    have hzero := h₂.readByte_eq le_rfl
    rwa [List.length_nil, BitVec.add_zero] at hzero
  have hend := h₁.strchr_found (Nat.zero_le _) le_rfl (List.getD_eq_default _ _ le_rfl)
    fun k _ hk => h₁.getD_ne_zero hk
  rw [BitVec.add_zero] at hend
  rw [strstrFrom, hread, Option.bind_eq_bind, Option.bind_some, hend,
    Option.bind_eq_bind, Option.bind_some, if_neg (h₁.addr_ne_zero le_rfl), List.length_nil]
  rw [strncmp, Option.bind_eq_bind, Option.bind_some, if_pos rfl]
  rfl

theorem within_add {s : Ptr n} {len : ℕ} (hi : i ≤ len) (hlt : len < 2 ^ (8 * n)) :
    within s len (s + .ofNat _ i) = true := by
  rw [within, add_ofNat_sub_self, BitVec.toNat_ofNat, Nat.mod_eq_of_lt (by omega)]
  exact decide_eq_true hi

/-- Both strings may be read. -/
def both (s1 s2 : Ptr n) (a b : List (BitVec 8)) (p : Ptr n) : Bool :=
  within s1 a.length p || within s2 b.length p

theorem given_both (h₁ : CStr mem s1 a) (h₂ : CStr mem s2 b) (hs1 : s1 ≠ 0) (hs2 : s2 ≠ 0) :
    Given mem (both s1 s2 a b) s1 a ∧ Given mem (both s1 s2 a b) s2 b := by
  have hfits₁ := h₁.fits
  have hfits₂ := h₂.fits
  constructor
  · exact ⟨h₁, fun i hi => by rw [both, within_add hi (by omega), Bool.true_or], hs1⟩
  · exact ⟨h₂, fun i hi => by rw [both, within_add hi (by omega), Bool.or_true], hs2⟩

/-- `strstr` ends and returns the first place of the second string in the first. It reads no
other bytes than those of the two strings, and loads no word that does not begin with one. -/
def StrstrExact (mem : Mem n) (s1 s2 : Ptr n) (a b : List (BitVec 8)) : Prop :=
  ∃ res, strstr (both s1 s2 a b) mem s1 s2 = some res ∧ Finds s1 a b 0 res

section Search

variable (hn : n = 4 ∨ n = 8) (h₁ : CStr mem s1 a) (h₂ : CStr mem s2 b)

include hn

theorem Given.strstr_eq (h : Given mem r s2 b) :
    strstr r mem s1 s2 = strstrFrom r mem s1 s2 b.length := by
  have hfits := h.str.fits
  rw [strstr, h.str.firstNul.strlenIn_eq hn h.readable, Option.bind_eq_bind, Option.bind_some,
    BitVec.toNat_ofNat, Nat.mod_eq_of_lt (by omega)]

include h₁ h₂

/-- The empty string is found where it should be in the empty string only. -/
theorem strstr_empty_iff (hs1 : s1 ≠ 0) (hs2 : s2 ≠ 0) (hb : b = []) :
    StrstrExact mem s1 s2 a b ↔ a = [] := by
  have hfits := h₁.fits
  obtain ⟨hgiven₁, hgiven₂⟩ := given_both h₁ h₂ hs1 hs2
  rw [StrstrExact, hgiven₂.strstr_eq hn, hgiven₁.strstrFrom_nil hgiven₂ hb]
  subst hb
  refine ⟨?_, fun ha => ?_⟩
  · rintro ⟨res, hres, hfinds⟩
    obtain rfl := Option.some.inj hres
    rcases hfinds with ⟨j, ⟨-, hleast⟩, heq⟩ | ⟨hnone, -⟩
    · have hj : j = 0 := Nat.le_zero.mp (hleast ⟨le_rfl, List.nil_prefix⟩)
      have hnat := toNat_add_eq (by omega) (by omega) heq
      exact List.eq_nil_of_length_eq_zero (by omega)
    · exact absurd List.nil_prefix (hnone 0 le_rfl)
  · subst ha
    exact ⟨_, rfl, Or.inl ⟨0, ⟨⟨le_rfl, List.nil_prefix⟩, fun k _ => Nat.zero_le k⟩, rfl⟩⟩

end Search

/-- `abab` at 0x1000, `ba` at 0x2000 and an empty string at 0x3000. -/
def samples : Mem 8 := fun p =>
  if p = 0x1000 ∨ p = 0x1002 ∨ p = 0x2001 then 97
  else if p = 0x1001 ∨ p = 0x1003 ∨ p = 0x2000 then 98 else 0

theorem samples_text : CStr samples 0x1000 [97, 98, 97, 98] :=
  ⟨by decide, by decide, by decide, by decide⟩

end CxKernel.Strings
