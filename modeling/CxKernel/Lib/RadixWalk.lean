import Mathlib.Data.List.Basic
import Mathlib.Data.Nat.Notation

/-! Lookup through a hierarchy of tables, one index a level. An entry names the next
table, or ends the walk. -/

namespace RadixWalk

variable {T I E V : Type}

/-- How entries read: with `n` levels below it an entry may name a table, and where it
names none the walk ends with what it says of the indices left. -/
structure Format (T I E V : Type) where
  next : ℕ → E → Option T
  stop : E → List I → Option V

variable (F : Format T I E V)

/-- The value at the end of a path of indices. -/
def lookup (tbl : T → I → E) : T → List I → Option V
  | _, [] => none
  | t, i :: is =>
    match F.next is.length (tbl t i) with
    | some u => lookup tbl u is
    | none => F.stop (tbl t i) is

/-- The table the first indices `p` of a path of `n` lead to. -/
def tableAt (tbl : T → I → E) : ℕ → T → List I → Option T
  | _, t, [] => some t
  | n, t, i :: p => (F.next (n - 1) (tbl t i)).bind fun u => tableAt tbl (n - 1) u p

variable {F} {tbl tbl' : T → I → E}

theorem tableAt_append {n : ℕ} {t : T} (p r : List I) :
    tableAt F tbl n t (p ++ r) =
      (tableAt F tbl n t p).bind fun u => tableAt F tbl (n - p.length) u r := by
  induction p generalizing n t with
  | nil => rfl
  | cons i p ih =>
    have hn : n - (p.length + 1) = n - 1 - p.length := by omega
    cases hnext : F.next (n - 1) (tbl t i) with
    | none => simp [tableAt, hnext]
    | some u => simp [tableAt, hnext, ih, hn]

theorem tableAt_concat {n : ℕ} {t u : T} {p : List I} {i : I} (h : tableAt F tbl n t p = some u) :
    tableAt F tbl n t (p ++ [i]) = F.next (n - p.length - 1) (tbl u i) := by
  rw [tableAt_append, h, Option.bind_some]
  simp [tableAt]

theorem lookup_append {t u : T} {p r : List I}
    (h : tableAt F tbl (p.length + r.length) t p = some u) :
    lookup F tbl t (p ++ r) = lookup F tbl u r := by
  induction p generalizing t with
  | nil =>
    rw [tableAt, Option.some_inj] at h
    rw [h, List.nil_append]
  | cons i p ih =>
    have hn : (i :: p).length + r.length - 1 = p.length + r.length := by
      rw [List.length_cons]
      omega
    rw [tableAt, hn, Option.bind_eq_some_iff] at h
    obtain ⟨w, hw, h⟩ := h
    rw [List.cons_append, lookup, List.length_append, hw]
    exact ih h

/-- A walk reads one entry a level, those of the tables its prefixes lead to. -/
theorem lookup_congr {t : T} {q : List I}
    (h : ∀ p i r u, q = p ++ i :: r → tableAt F tbl q.length t p = some u → tbl' u i = tbl u i) :
    lookup F tbl' t q = lookup F tbl t q := by
  induction q generalizing t with
  | nil => rfl
  | cons i q ih =>
    have hi : tbl' t i = tbl t i := h [] i q t rfl rfl
    rw [lookup, lookup, hi]
    cases hnext : F.next q.length (tbl t i) with
    | none => rfl
    | some u =>
      refine ih fun p j r w hq hw => h (i :: p) j r w (by rw [hq, List.cons_append]) ?_
      simpa [tableAt, hnext] using hw

theorem tableAt_congr {n : ℕ} {t : T} {q : List I}
    (h : ∀ p i r u, q = p ++ i :: r → tableAt F tbl n t p = some u → tbl' u i = tbl u i) :
    tableAt F tbl' n t q = tableAt F tbl n t q := by
  induction q generalizing n t with
  | nil => rfl
  | cons i q ih =>
    have hi : tbl' t i = tbl t i := h [] i q t rfl rfl
    rw [tableAt, tableAt, hi]
    cases hnext : F.next (n - 1) (tbl t i) with
    | none => rfl
    | some u =>
      refine ih fun p j r w hq hw => h (i :: p) j r w (by rw [hq, List.cons_append]) ?_
      simpa [tableAt, hnext] using hw

/-! Hierarchies in which a table is reached along one path only. Some paths may be
left out of account; `D` says which count. -/

section Tree

variable {n : ℕ} {root : T} {D : List I → Prop}

/-- `p` leads to the table `t`. -/
def Leads (F : Format T I E V) (tbl : T → I → E) (n : ℕ) (root : T) (D : List I → Prop)
    (p : List I) (t : T) : Prop :=
  p.length < n ∧ D p ∧ tableAt F tbl n root p = some t

def IsTree (F : Format T I E V) (tbl : T → I → E) (n : ℕ) (root : T) (D : List I → Prop) : Prop :=
  ∀ p q t, Leads F tbl n root D p t → Leads F tbl n root D q t → p = q

/-- Tables that agree on what the walks from the root see have the same paths. -/
theorem leads_congr (hD : ∀ p r, D (p ++ r) → D p)
    (h : ∀ q u j, Leads F tbl n root D q u → tbl' u j = tbl u j) (q : List I) (w : T) :
    Leads F tbl' n root D q w ↔ Leads F tbl n root D q w := by
  refine and_congr_right fun hlen => and_congr_right fun hq => ?_
  rw [tableAt_congr]
  intro p i r u he hu
  refine h p u i ⟨?_, hD p (i :: r) (he ▸ hq), hu⟩
  rw [he, List.length_append, List.length_cons] at hlen
  omega

/-- `tbl'` is `tbl` but for entry `i` of `t`, as far as the walks from the root see. -/
def AgreeBut (F : Format T I E V) (tbl tbl' : T → I → E) (n : ℕ) (root : T) (D : List I → Prop)
    (t : T) (i : I) : Prop :=
  ∀ q u j, Leads F tbl n root D q u → ¬ (u = t ∧ j = i) → tbl' u j = tbl u j

variable {p : List I} {t : T} {i : I}

/-- A path that does not go through the entry does not read it. -/
theorem AgreeBut.read (h : AgreeBut F tbl tbl' n root D t i) (htree : IsTree F tbl n root D)
    (hD : ∀ p r, D (p ++ r) → D p) (hp : Leads F tbl n root D p t) {q p' r : List I} {j : I} {u : T}
    (hq : D q) (hlen : q.length ≤ n) (hpre : ¬ p ++ [i] <+: q) (he : q = p' ++ j :: r)
    (hu : tableAt F tbl n root p' = some u) : tbl' u j = tbl u j := by
  have hlead : Leads F tbl n root D p' u := by
    refine ⟨?_, hD p' (j :: r) (he ▸ hq), hu⟩
    rw [he, List.length_append, List.length_cons] at hlen
    omega
  refine h p' u j hlead fun ⟨hut, hji⟩ => hpre ?_
  subst hut hji
  rw [htree p p' u hp hlead, he]
  exact ⟨r, by simp⟩

theorem AgreeBut.lookup_eq (h : AgreeBut F tbl tbl' n root D t i) (htree : IsTree F tbl n root D)
    (hD : ∀ p r, D (p ++ r) → D p) (hp : Leads F tbl n root D p t) {q : List I}
    (hq : D q) (hlen : q.length = n) (hpre : ¬ p ++ [i] <+: q) :
    lookup F tbl' root q = lookup F tbl root q :=
  lookup_congr fun _ _ _ _ he hu =>
    h.read htree hD hp hq (Nat.le_of_eq hlen) hpre he (hlen ▸ hu)

theorem AgreeBut.tableAt_eq (h : AgreeBut F tbl tbl' n root D t i) (htree : IsTree F tbl n root D)
    (hD : ∀ p r, D (p ++ r) → D p) (hp : Leads F tbl n root D p t) {q : List I}
    (hq : D q) (hlen : q.length ≤ n) (hpre : ¬ p ++ [i] <+: q) :
    tableAt F tbl' n root q = tableAt F tbl n root q :=
  tableAt_congr fun _ _ _ _ he hu => h.read htree hD hp hq hlen hpre he hu

/-- The path to the changed entry is unchanged itself. -/
theorem AgreeBut.leads (h : AgreeBut F tbl tbl' n root D t i) (htree : IsTree F tbl n root D)
    (hD : ∀ p r, D (p ++ r) → D p) (hp : Leads F tbl n root D p t) :
    Leads F tbl' n root D p t := by
  have hpre : ¬ p ++ [i] <+: p := fun hpre => by
    have := hpre.length_le
    rw [List.length_append, List.length_singleton] at this
    omega
  refine ⟨hp.1, hp.2.1, ?_⟩
  rw [h.tableAt_eq htree hD hp hp.2.1 (Nat.le_of_lt hp.1) hpre, hp.2.2]

/-- A path through the changed entry goes on from there. -/
theorem AgreeBut.lookup_through (h : AgreeBut F tbl tbl' n root D t i)
    (htree : IsTree F tbl n root D) (hD : ∀ p r, D (p ++ r) → D p)
    (hp : Leads F tbl n root D p t) {r : List I} (hlen : p.length + (r.length + 1) = n) :
    lookup F tbl' root (p ++ i :: r) = lookup F tbl' t (i :: r) := by
  apply lookup_append
  rw [List.length_cons, hlen]
  exact (h.leads htree hD hp).2.2

/-- Changing an entry of the last level leaves the tables as they are. -/
theorem AgreeBut.leads_last (h : AgreeBut F tbl tbl' n root D t i)
    (htree : IsTree F tbl n root D) (hD : ∀ p r, D (p ++ r) → D p)
    (hp : Leads F tbl n root D p t) (hlast : p.length + 1 = n) (q : List I) (w : T) :
    Leads F tbl' n root D q w ↔ Leads F tbl n root D q w := by
  refine and_congr_right fun hlen => and_congr_right fun hq => ?_
  have hpre : ¬ p ++ [i] <+: q := fun hpre => by
    have := hpre.length_le
    rw [List.length_append, List.length_singleton] at this
    omega
  rw [h.tableAt_eq htree hD hp hq (Nat.le_of_lt hlen) hpre]

/-- A table whose entries name no table, linked where no table was. -/
structure Grafts (F : Format T I E V) (tbl tbl' : T → I → E) (n : ℕ) (root : T)
    (D : List I → Prop) (p : List I) (t : T) (i : I) (u : T) : Prop where
  agree : AgreeBut F tbl tbl' n root D t i
  leads : Leads F tbl n root D p t
  inner : p.length + 1 < n
  dom : D (p ++ [i])
  before : F.next (n - p.length - 1) (tbl t i) = none
  after : F.next (n - p.length - 1) (tbl' t i) = some u
  fresh : ∀ q, ¬ Leads F tbl n root D q u
  empty : ∀ m j, F.next m (tbl' u j) = none

variable {u : T}

theorem Grafts.tableAt_eq (h : Grafts F tbl tbl' n root D p t i u) (htree : IsTree F tbl n root D)
    (hD : ∀ p r, D (p ++ r) → D p) : tableAt F tbl' n root (p ++ [i]) = some u := by
  rw [tableAt_concat (h.agree.leads htree hD h.leads).2.2, h.after]

/-- The tables are those from before and the new one. -/
theorem Grafts.leads_iff (h : Grafts F tbl tbl' n root D p t i u) (htree : IsTree F tbl n root D)
    (hD : ∀ p r, D (p ++ r) → D p) (q : List I) (w : T) :
    Leads F tbl' n root D q w ↔ Leads F tbl n root D q w ∨ q = p ++ [i] ∧ w = u := by
  refine ⟨?_, ?_⟩
  · rintro ⟨hlen, hq, hw⟩
    by_cases hpre : p ++ [i] <+: q
    · obtain ⟨r, rfl⟩ := hpre
      rw [tableAt_append, h.tableAt_eq htree hD, Option.bind_some] at hw
      cases r with
      | nil => exact Or.inr ⟨List.append_nil _, (Option.some_inj.mp hw).symm⟩
      | cons j r =>
        rw [tableAt, h.empty] at hw
        cases hw
    · rw [h.agree.tableAt_eq htree hD h.leads hq (Nat.le_of_lt hlen) hpre] at hw
      exact Or.inl ⟨hlen, hq, hw⟩
  · intro hor
    rcases hor with ⟨hlen, hq, hw⟩ | ⟨rfl, rfl⟩
    · have hpre : ¬ p ++ [i] <+: q := by
        rintro ⟨r, rfl⟩
        rw [tableAt_append, tableAt_concat h.leads.2.2, h.before] at hw
        cases hw
      refine ⟨hlen, hq, ?_⟩
      rw [h.agree.tableAt_eq htree hD h.leads hq (Nat.le_of_lt hlen) hpre, hw]
    · exact ⟨by simpa using h.inner, h.dom, h.tableAt_eq htree hD⟩

theorem Grafts.isTree (h : Grafts F tbl tbl' n root D p t i u) (htree : IsTree F tbl n root D)
    (hD : ∀ p r, D (p ++ r) → D p) : IsTree F tbl' n root D := by
  intro q q' w hq hq'
  rw [h.leads_iff htree hD] at hq hq'
  rcases hq with hq | ⟨hq, hw⟩ <;> rcases hq' with hq' | ⟨hq', hw'⟩
  · exact htree q q' w hq hq'
  · exact absurd (hw' ▸ hq) (h.fresh q)
  · exact absurd (hw ▸ hq') (h.fresh q')
  · exact hq.trans hq'.symm

end Tree

end RadixWalk
