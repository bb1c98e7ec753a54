import CxKernel.Proofs.MapPages

/-! The `Result<void>` objects of `map_pages`. A constructor arms them and an assignment
disarms neither side, so the function never gets to return. -/

namespace CxKernel.Mmu

open LinkedList Paging Pmm

/-! Without its check the destructor changes nothing. -/

def quiet (_ : ResultVoid) : Except String Unit := .ok ()

/-- The call returns `e`, armed or not. -/
def Carries (r : Option (Except String (ResultVoid × Kernel))) (e : Except E Unit) (s : Kernel) :
    Prop :=
  ∃ armed, r = some (.ok (⟨e, armed⟩, s))

theorem mapPagesResultFrom_quiet {endIt it : Iterator (BitVec 64)} {flags virt : BitVec 64}
    {s s' : Kernel} {e : Except E Unit} (h : mapPagesFrom endIt flags s it virt = some (e, s'))
    (ec : ResultVoid) : Carries (mapPagesResultFrom quiet endIt flags s it virt ec) e s' := by
  refine mapPagesFrom.partial_correctness endIt flags
    (fun s it virt r => ∀ ec, Carries (mapPagesResultFrom quiet endIt flags s it virt ec) r.1 r.2)
    ?_ s it virt (e, s') h ec
  intro self ih s it virt r hr ec
  unfold mapPagesResultFrom
  split_ifs at hr with hend
  · rw [if_pos hend]
    cases hr
    exact ⟨true, rfl⟩
  · rw [if_neg hend]
    simp only [Option.bind_eq_bind, Option.bind_eq_some_iff] at hr
    obtain ⟨page, hpage, ⟨result, s₁⟩, hmap, hr⟩ := hr
    rw [hpage, Option.bind_eq_bind, Option.bind_some, hmap]
    cases result with
    | error e =>
      simp only [Option.bind_eq_some_iff] at hr
      obtain ⟨lists, hfree, hr⟩ := hr
      cases hr
      simp only [Option.bind_eq_bind, Option.bind_some, quiet, ResultVoid.toBool,
        ResultVoid.status, ResultVoid.ofE, Except.isOk, Except.toBool, hfree, if_true]
      exact ⟨false, rfl⟩
    | ok u =>
      simp only [Option.bind_eq_some_iff] at hr
      obtain ⟨it', hincr, hr⟩ := hr
      simp only [Option.bind_eq_bind, Option.bind_some, quiet, ResultVoid.toBool,
        ResultVoid.status, ResultVoid.ofE, Except.isOk, Except.toBool, hincr]
      exact ih _ _ _ _ hr _

/-- So then the call returns what `mapPages` does. -/
theorem mapPagesResult_quiet {s s' : Kernel} {virt flags : BitVec 64} {e : Except E Unit}
    (h : mapPages s virt flags = some (e, s')) : Carries (mapPagesResult quiet s virt flags) e s' :=
  mapPagesResultFrom_quiet h _

/-! With the check. -/

def armedText : String := "Attempted to destroy an armed Result"

theorem destroy_ofE (e : Except E Unit) : (ResultVoid.ofE e).destroy = .error armedText := rfl

section

variable {s : Kernel} {σ : PageList → List (BitVec 64)} {page virt flags : BitVec 64}
  {rest : List (BitVec 64)}

theorem mapPagesResult_eq (hσ : Represents s.lists σ) :
    mapPagesResult ResultVoid.destroy s virt flags =
      mapPagesResultFrom ResultVoid.destroy (position (σ .pages) []) flags (start s)
        (position [] (σ .pages)) virt (.ofE (.ok ())) := by
  have hlist := (represents_start hσ).lists .pages
  rw [start_pages] at hlist
  rw [hlist.position_end, ← hlist.beginIt_eq]
  rfl

/-- Without a page it is `ec` that dies armed. -/
theorem mapPagesResult_nil (hσ : Represents s.lists σ) (hpages : σ .pages = []) :
    mapPagesResult ResultVoid.destroy s virt flags = some (.error armedText) := by
  rw [mapPagesResult_eq hσ, hpages, mapPagesResultFrom, if_pos rfl, destroy_ofE]

/-- Else it is what the first page is mapped with, mapped or not. -/
theorem mapPagesResult_cons (hσ : Represents s.lists σ) (hpages : σ .pages = page :: rest)
    {r : Except E Unit × Kernel}
    (hmap : mapSinglePage (start s) (paddr s.pfndbArr page) virt flags = some r) :
    mapPagesResult ResultVoid.destroy s virt flags = some (.error armedText) := by
  have hlist := (represents_start hσ).lists .pages
  have hend := hlist.position_end
  rw [start_pages, hpages] at hlist hend
  rw [← List.nil_append (page :: rest)] at hlist
  obtain ⟨hne, hpage, -⟩ := hlist.position_step
  rw [mapPagesResult_eq hσ, hpages, mapPagesResultFrom, hend, if_neg hne, hpage,
    Option.bind_eq_bind, Option.bind_some]
  -- the assignment from the call leaves its temporary armed
  change (mapSinglePage (start s) (paddr s.pfndbArr page) virt flags).bind _ = _
  rw [hmap]
  rfl

/-- The kernel stops, unless an assertion stopped it before. -/
theorem mapPagesResult_panics (hσ : Represents s.lists σ)
    (hmap : ∀ page ∈ (σ .pages).head?,
      ∃ r, mapSinglePage (start s) (paddr s.pfndbArr page) virt flags = some r) :
    mapPagesResult ResultVoid.destroy s virt flags = some (.error armedText) := by
  cases hpages : σ .pages with
  | nil => exact mapPagesResult_nil hσ hpages
  | cons page rest =>
    obtain ⟨r, hr⟩ := hmap page (by rw [hpages]; rfl)
    exact mapPagesResult_cons hσ hpages hr

end

/-- The call returns, with `E::OK` if every page has been mapped and only then. -/
def ReturnsDisarmed (s : Kernel) (virt flags : BitVec 64) : Prop :=
  ∃ r s', mapPagesResult ResultVoid.destroy s virt flags = some (.ok (r, s')) ∧
    (r.error = .ok () ↔ ∃ s'', mapPages s virt flags = some (.ok (), s''))

theorem mapPagesResultFrom_ne_ok (endIt it : Iterator (BitVec 64)) (flags virt : BitVec 64)
    (s : Kernel) (e : Except E Unit) (r : ResultVoid × Kernel) :
    mapPagesResultFrom ResultVoid.destroy endIt flags s it virt (.ofE e) ≠ some (.ok r) := by
  unfold mapPagesResultFrom
  intro h
  split_ifs at h with hend
  · rw [destroy_ofE] at h
    cases h
  · simp only [Option.bind_eq_bind, Option.bind_eq_some_iff] at h
    obtain ⟨page, -, ⟨result, s₁⟩, -, h⟩ := h
    rw [destroy_ofE] at h
    cases h

/-- No call of `map_pages` returns. -/
theorem map_pages_trips (s : Kernel) (virt flags : BitVec 64) : ¬ ReturnsDisarmed s virt flags := by
  rintro ⟨r, s', h, -⟩
  exact mapPagesResultFrom_ne_ok _ _ _ _ _ _ _ h

/-- A page that gets mapped stops the kernel all the same. -/
theorem mapped_page_trips :
    let s := lowKernel (singles none (some 192)) (chain 1 1 1)
    (∃ s', mapPages s (virtFromIndex 1 1 1 8) 3 = some (.ok (), s')) ∧
      mapPagesResult ResultVoid.destroy s (virtFromIndex 1 1 1 8) 3 = some (.error armedText) ∧
      ¬ ReturnsDisarmed s (virtFromIndex 1 1 1 8) 3 := by
  intro s
  have hσ : Represents s.lists (singleSeqs none (some 192)) := represents_singles (by simp)
  have ht : LeadsTo (start s).mem (start s).pml4 (upper (virtFromIndex 1 1 1 8)) 4 :=
    leadsTo_neighbour
  have hphys : (paddr (start s).pfndbArr 192).toNat % pageSize = 0 := paddr_aligned _ _
  have hmap : mapSinglePage (start s) (paddr (start s).pfndbArr 192) (virtFromIndex 1 1 1 8) 3 = _ :=
    mapSinglePage_present hphys (by decide) ht
  have htrips : mapPagesResult ResultVoid.destroy s (virtFromIndex 1 1 1 8) 3 =
      some (.error armedText) := by
    refine mapPagesResult_panics hσ fun page hpage => ?_
    cases hpage
    exact ⟨_, hmap⟩
  refine ⟨?_, htrips, ?_⟩
  · exact ⟨_, mapPages_ok_of_single hσ rfl hmap (represents_start hσ) rfl⟩
  · rintro ⟨r, s', hrun, -⟩
    rw [htrips] at hrun
    cases hrun

end CxKernel.Mmu
