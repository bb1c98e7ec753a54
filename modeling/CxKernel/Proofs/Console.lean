import CxKernel.Lib.Runs
import CxKernel.Spec.Console
import Mathlib.Data.List.Basic

/-! Where the console streams keep what they are given. A buffer holds 511 characters and
the terminator of a flush; the limit that flushes a full buffer is past its end, so only a
newline in time keeps a stream inside. -/

namespace CxKernel.Console

open Runs

variable {s s' : Streams} {fd : Fd} {c : BitVec 8}

/-! Reading a text back. -/

theorem consolePuts_eq {org : ℕ → BitVec 8} {text : List (BitVec 8)} {i left : ℕ}
    (htext : ∀ k c, text[k]? = some c → org (i + k) = c) (hpos : ∀ c ∈ text, c ≠ 0)
    (hnul : org (i + text.length) = 0) (hlen : text.length < left) :
    consolePuts org i left = some text := by
  induction text generalizing i left with
  | nil =>
    cases left with
    | zero => cases hlen
    | succ left => exact if_pos hnul
  | cons c text ih =>
    cases left with
    | zero => cases hlen
    | succ left =>
      have hc : org i = c := htext 0 c rfl
      have hne : org i ≠ 0 := hc ▸ hpos c List.mem_cons_self
      have hrest : consolePuts org (i + 1) left = some text := by
        refine ih (fun k d hk => ?_) (fun d hd => hpos d (List.mem_cons_of_mem _ hd)) ?_
          (Nat.lt_of_succ_lt_succ hlen)
        · rw [Nat.add_assoc, Nat.add_comm 1]
          exact htext (k + 1) d hk
        · rw [Nat.add_assoc, Nat.add_comm 1]
          exact hnul
      rw [consolePuts, if_neg hne, hrest, hc]
      rfl

/-- The loop with a bound stops at the terminator too. -/
theorem emitLoop_of_consolePuts {org : ℕ → BitVec 8} {text : List (BitVec 8)} {i left : ℕ}
    (h : consolePuts org i left = some text) : emitLoop org i left = text := by
  induction left generalizing i text with
  | zero => cases h
  | succ left ih =>
    rw [consolePuts] at h
    rw [emitLoop]
    by_cases hz : org i = 0
    · rw [if_pos hz] at h ⊢
      exact Option.some.inj h
    · rw [if_neg hz] at h ⊢
      obtain ⟨rest, hrest, rfl⟩ := Option.map_eq_some_iff.mp h
      rw [ih hrest]

/-! The buffers. -/

/-- The buffer of a stream has the characters pending, and the pointer is behind them. -/
structure Filled (s : Streams) (fd : Fd) : Prop where
  ptr : s.ptr fd = base fd + (s.pending fd).length
  len : (s.pending fd).length ≤ 512
  text : ∀ k c, (s.pending fd)[k]? = some c → s.org (base fd + k) = c
  pos : ∀ c ∈ s.pending fd, c ≠ 0

def Kept (s : Streams) : Prop := ∀ fd, Filled s fd

theorem filled_of_nil (hptr : s.ptr fd = base fd) (hnil : s.pending fd = []) : Filled s fd := by
  refine ⟨?_, ?_, fun k c hk => ?_, fun c hc => ?_⟩
  · rw [hptr, hnil]
    rfl
  · rw [hnil]
    exact Nat.zero_le _
  · rw [hnil] at hk
    cases hk
  · rw [hnil] at hc
    cases hc

/-- A stream whose pending characters are not overwritten stays as it is. -/
theorem Filled.keep (h : Filled s fd) (hptr : s'.ptr fd = s.ptr fd)
    (hpend : s'.pending fd = s.pending fd)
    (horg : ∀ k c, (s.pending fd)[k]? = some c → s'.org (base fd + k) = c) : Filled s' fd := by
  refine ⟨?_, ?_, fun k c hk => ?_, fun c hc => ?_⟩
  · rw [hptr, hpend]
    exact h.ptr
  · rw [hpend]
    exact h.len
  · rw [hpend] at hk
    exact horg k c hk
  · rw [hpend] at hc
    exact h.pos c hc

theorem base_le (fd : Fd) : base fd ≤ 512 := by
  cases fd <;> decide

/-- The buffers do not overlap. -/
theorem base_add_ne {e : Fd} (hne : e ≠ fd) {i j : ℕ} (hi : i < 512) (hj : j < 512) :
    base e + i ≠ base fd + j := by
  cases e <;> cases fd <;> simp only [base] <;> first | exact absurd rfl hne | omega

theorem Kept.put (hs : Kept s) (hlen : (s.pending fd).length < 512) (c : BitVec 8) :
    s.put fd c = some { s with
      org := Function.update s.org (base fd + (s.pending fd).length) c
      writes := s.writes ++ [(fd, base fd + (s.pending fd).length)] } := by
  have hbase := base_le fd
  rw [Streams.put, (hs fd).ptr, if_pos (by omega)]

/-- A byte written behind the pending characters changes none of them. -/
theorem Kept.org_put (hs : Kept s) (hlen : (s.pending fd).length < 512) {e : Fd} {k : ℕ}
    {d : BitVec 8} (hk : (s.pending e)[k]? = some d) :
    Function.update s.org (base fd + (s.pending fd).length) c (base e + k) = d := by
  have hlt := (List.getElem?_eq_some_iff.mp hk).1
  rw [Function.update_of_ne]
  · exact (hs e).text k d hk
  · by_cases hef : e = fd
    · subst hef
      omega
    · exact base_add_ne hef (Nat.lt_of_lt_of_le hlt (hs e).len) hlen

theorem Kept.after_write (hs : Kept s) (hlen : (s.pending fd).length < 512) (hc : c ≠ 0) :
    ∃ s', s.write fd c = some s' ∧ Kept s' ∧
      s'.pending = Function.update s.pending fd (s.pending fd ++ [c]) ∧
      s'.writes = s.writes ++ [(fd, base fd + (s.pending fd).length)] ∧
      s'.delivered = s.delivered := by
  rw [Streams.write, hs.put hlen c]
  refine ⟨_, rfl, fun e => ?_, rfl, rfl, rfl⟩
  by_cases hef : e = fd
  · subst hef
    refine ⟨?_, ?_, fun k d hk => ?_, fun d hd => ?_⟩
    · simp [(hs e).ptr, Nat.add_assoc]
    · dsimp only
      rw [Function.update_self, List.length_append]
      exact hlen
    · dsimp only at hk ⊢
      rw [Function.update_self] at hk
      rcases Nat.lt_trichotomy k (s.pending e).length with hlt | rfl | hgt
      · rw [List.getElem?_append_left hlt] at hk
        exact hs.org_put hlen hk
      · rw [List.getElem?_concat_length] at hk
        rw [Function.update_self]
        exact Option.some.inj hk
      · have hout : (s.pending e ++ [c]).length ≤ k := by
          rw [List.length_append]
          exact hgt
        rw [List.getElem?_eq_none hout] at hk
        cases hk
    · dsimp only at hd
      rw [Function.update_self] at hd
      rcases List.mem_append.mp hd with hd | hd
      · exact (hs e).pos d hd
      · rw [List.mem_singleton.mp hd]
        exact hc
  · exact (hs e).keep (Function.update_of_ne hef _ _) (Function.update_of_ne hef _ _)
      fun _ _ hk => hs.org_put hlen hk

theorem Kept.after_fflush (hs : Kept s) (hlen : (s.pending fd).length < 512) :
    ∃ s', fflush s fd = some s' ∧ Kept s' ∧
      s'.writes = s.writes ++ [(fd, base fd + (s.pending fd).length)] ∧
      s'.delivered = s.delivered ++ [(fd, s.pending fd)] := by
  have htext : ∀ k d, (s.pending fd)[k]? = some d →
      Function.update s.org (base fd + (s.pending fd).length) 0 (base fd + k) = d :=
    fun k d hk => hs.org_put hlen hk
  have hnul := Function.update_self (base fd + (s.pending fd).length) (0 : BitVec 8) s.org
  have hputs := consolePuts_eq htext (hs fd).pos hnul hlen
  have hemit := emitLoop_of_consolePuts hputs
  let t : Streams := { s with
    org := Function.update s.org (base fd + (s.pending fd).length) 0
    writes := s.writes ++ [(fd, base fd + (s.pending fd).length)] }
  have hrun : fflush s fd = some (t.deliver fd (s.pending fd)) := by
    cases fd with
    | clog =>
      rw [fflush, hs.put hlen 0]
      dsimp only [Option.bind_eq_bind, Option.bind_some]
      rw [hputs]
      rfl
    | cout =>
      rw [fflush, hs.put hlen 0]
      dsimp only [Option.bind_eq_bind, Option.bind_some]
      rw [hemit]
      rfl
  refine ⟨_, hrun, fun e => ?_, rfl, rfl⟩
  by_cases hef : e = fd
  · subst hef
    exact filled_of_nil (Function.update_self _ _ _) (Function.update_self _ _ _)
  · exact (hs e).keep (Function.update_of_ne hef _ _) (Function.update_of_ne hef _ _)
      fun _ _ hk => hs.org_put hlen hk

/-! One character. -/

/-- Every index written to is in the buffer of its stream, and a flush gives the console what
was written to the stream since the last one. -/
def Accounted (s : Streams) (a : Fd × BitVec 8) (s' : Streams) : Prop :=
  (∃ writes, s'.writes = s.writes ++ writes ∧
    ∀ w ∈ writes, base w.1 ≤ w.2 ∧ w.2 < base w.1 + 512) ∧
  (s'.delivered = s.delivered ∨
    s'.delivered = s.delivered ++ [(a.1, s.pending a.1 ++ [a.2])])

/-- No access is outside the two buffers, and the step is accounted for. -/
def LosesNothing (s : Streams) (a : Fd × BitVec 8) : Prop :=
  ∃ s', step s a = some s' ∧ Accounted s a s'

/-- There is a byte for the character, and for the terminator where a newline ends the
line. -/
def Fits (s : Streams) (a : Fd × BitVec 8) : Prop :=
  (s.pending a.1).length < 511 ∨ ((s.pending a.1).length = 511 ∧ a.2 ≠ newline)

theorem step_eq (s : Streams) (a : Fd × BitVec 8) : step s a = stream a.1 a.2 s := by
  obtain ⟨fd, c⟩ := a
  cases fd <;> rfl

theorem put_writes (h : s.put fd c = some s') :
    s'.ptr = s.ptr ∧ s'.writes = s.writes ++ [(fd, s.ptr fd)] := by
  rw [Streams.put] at h
  split_ifs at h
  obtain rfl := Option.some.inj h
  exact ⟨rfl, rfl⟩

theorem fflush_writes (h : fflush s fd = some s') :
    s'.writes = s.writes ++ [(fd, s.ptr fd)] := by
  cases fd with
  | clog =>
    obtain ⟨s₁, hput, htext⟩ := Option.bind_eq_some_iff.mp h
    obtain ⟨text, -, hs⟩ := Option.bind_eq_some_iff.mp htext
    obtain rfl := Option.some.inj hs
    exact (put_writes hput).2
  | cout =>
    obtain ⟨s₁, hput, hs⟩ := Option.bind_eq_some_iff.mp h
    obtain rfl := Option.some.inj hs
    exact (put_writes hput).2

/-- Where a character goes, and where the terminator goes after a newline. -/
theorem stream_writes (h : stream fd c s = some s') :
    ∃ writes, s'.writes = s.writes ++ (fd, s.ptr fd) :: writes ∧
      (c = newline → (fd, s.ptr fd + 1) ∈ writes) := by
  obtain ⟨s₁, hwrite, hflush⟩ := Option.bind_eq_some_iff.mp h
  obtain ⟨s₂, hput, hs₁⟩ := Option.bind_eq_some_iff.mp hwrite
  obtain rfl := Option.some.inj hs₁
  obtain ⟨hptr, hwrites⟩ := put_writes hput
  dsimp only at hflush
  split_ifs at hflush with hfull
  · have hlast := fflush_writes hflush
    dsimp only at hlast
    rw [hwrites, Function.update_self, hptr, List.append_assoc] at hlast
    exact ⟨_, hlast, fun _ => List.mem_singleton_self _⟩
  · obtain rfl := Option.some.inj hflush
    exact ⟨[], hwrites, fun hc => absurd (Or.inl hc) hfull⟩

theorem Kept.fits (hs : Kept s) {a : Fd × BitVec 8} (h : LosesNothing s a) : Fits s a := by
  obtain ⟨s', hstep, ⟨writes, hwrites, hin⟩, -⟩ := h
  rw [step_eq] at hstep
  obtain ⟨rest, hwrites', hnl⟩ := stream_writes hstep
  obtain rfl := List.append_cancel_left (hwrites.symm.trans hwrites')
  have hptr := (hs a.1).ptr
  have hfirst := (hin _ List.mem_cons_self).2
  dsimp only at hfirst
  by_cases hc : a.2 = newline
  · have hlast := (hin _ (List.mem_cons_of_mem _ (hnl hc))).2
    dsimp only at hlast
    left
    omega
  · by_cases hlt : (s.pending a.1).length < 511
    · exact Or.inl hlt
    · exact Or.inr ⟨by omega, hc⟩

/-- The flush limit is out of reach, so only a newline flushes. -/
theorem step_of_write (hwrite : s.write fd c = some s') (hs' : Kept s') :
    step s (fd, c) = if c = newline then fflush s' fd else some s' := by
  have hlen := (hs' fd).len
  have hlimit : ¬ s'.ptr fd - base fd > 512 := by
    rw [(hs' fd).ptr]
    omega
  rw [step_eq, stream, hwrite]
  dsimp only [Option.bind_eq_bind, Option.bind_some]
  simp only [hlimit, or_false]

theorem Kept.after_step (hs : Kept s) {a : Fd × BitVec 8} (hfit : Fits s a) (hc : a.2 ≠ 0) :
    ∃ s', step s a = some s' ∧ Kept s' ∧ Accounted s a s' := by
  obtain ⟨fd, c⟩ := a
  have hlen : (s.pending fd).length < 512 := by
    rcases hfit with hlt | ⟨heq, -⟩
    · exact Nat.lt_succ_of_lt hlt
    · rw [heq]
      decide
  obtain ⟨s₁, hwrite, hkept, hpend, hwrites, hdel⟩ := hs.after_write hlen hc
  have hpend₁ : s₁.pending fd = s.pending fd ++ [c] := by rw [hpend, Function.update_self]
  have hlen₁ : (s₁.pending fd).length = (s.pending fd).length + 1 := by
    rw [hpend₁, List.length_append, List.length_singleton]
  rw [step_of_write hwrite hkept]
  by_cases hnl : c = newline
  · rw [if_pos hnl]
    have hlt : (s₁.pending fd).length < 512 := by
      rcases hfit with hlt | ⟨-, hne⟩
      · rw [hlen₁]
        exact Nat.succ_lt_succ hlt
      · exact absurd hnl hne
    obtain ⟨s₂, hflush, hkept₂, hwrites₂, hdel₂⟩ := hkept.after_fflush hlt
    rw [hwrites, hlen₁, List.append_assoc] at hwrites₂
    refine ⟨s₂, hflush, hkept₂, ⟨_, hwrites₂, fun w hw => ?_⟩, Or.inr ?_⟩
    · rcases List.mem_pair.mp hw with rfl | rfl <;> dsimp only <;> omega
    · rw [hdel₂, hdel, hpend₁]
  · rw [if_neg hnl]
    refine ⟨s₁, rfl, hkept, ⟨_, hwrites, fun w hw => ?_⟩, Or.inl hdel⟩
    obtain rfl := List.mem_singleton.mp hw
    exact ⟨Nat.le_add_right _ _, Nat.add_lt_add_left hlen _⟩

/-! Every run. -/

theorem start_kept : Kept start := fun _ => filled_of_nil rfl rfl

theorem kept_preserves : Preserves step Kept fun s a => Fits s a ∧ a.2 ≠ 0 := by
  intro s a s' hs h hstep
  obtain ⟨s₁, hstep₁, hkept, -⟩ := hs.after_step h.1 h.2
  obtain rfl := Option.some.inj (hstep₁.symm.trans hstep)
  exact hkept

variable {acts : List (Fd × BitVec 8)}

/-- The streams lose nothing in a run exactly as long as each character fits. -/
theorem streams_lose_nothing_iff (hchars : ∀ a ∈ acts, a.2 ≠ 0) :
    AlongRun step LosesNothing start acts ↔ AlongRun step Fits start acts := by
  have hnz : AlongRun step (fun _ a => a.2 ≠ 0) start acts := AlongRun.of_forall_mem hchars
  refine ⟨fun h => ?_, fun h => ?_⟩
  · have hpres : Preserves step Kept fun s a => LosesNothing s a ∧ a.2 ≠ 0 := by
      intro s a s' hs h hstep
      exact kept_preserves s a s' hs ⟨hs.fits h.1, h.2⟩ hstep
    exact hpres.alongRun_of_inv (fun s a hs h => hs.fits h.1) start_kept (h.and hnz)
  · refine kept_preserves.alongRun_of_inv (fun s a hs h => ?_) start_kept (h.and hnz)
    obtain ⟨s', hstep, -, hacc⟩ := hs.after_step h.1 h.2
    exact ⟨s', hstep, hacc⟩

theorem streams_lose_nothing_iff_two :
    (∀ a ∈ [(Fd.clog, (97 : BitVec 8)), (Fd.cout, 98), (Fd.clog, newline)], a.2 ≠ 0) ∧
      (AlongRun step LosesNothing start [(.clog, 97), (.cout, 98), (.clog, newline)] ↔
        AlongRun step Fits start [(.clog, 97), (.cout, 98), (.clog, newline)]) :=
  ⟨by decide, streams_lose_nothing_iff (by decide)⟩

/-- A line is in the buffer until its newline. -/
theorem Kept.run_line (hs : Kept s) (hc : c ≠ 0) (hnl : c ≠ newline) {n : ℕ}
    (hlen : (s.pending fd).length + n ≤ 512) :
    ∃ s', run step s (List.replicate n (fd, c)) = some s' ∧ Kept s' ∧
      (s'.pending fd).length = (s.pending fd).length + n := by
  induction n generalizing s with
  | zero => exact ⟨s, rfl, hs, rfl⟩
  | succ n ih =>
    have hlt : (s.pending fd).length < 512 := by omega
    obtain ⟨s₁, hwrite, hkept, hpend, -, -⟩ := hs.after_write hlt hc
    have hstep : step s (fd, c) = some s₁ := by rw [step_of_write hwrite hkept, if_neg hnl]
    have hlen₁ : (s₁.pending fd).length = (s.pending fd).length + 1 := by
      rw [hpend, Function.update_self, List.length_append, List.length_singleton]
    obtain ⟨s', hrun, hkept', hlen'⟩ := ih hkept (by omega)
    exact ⟨s', run_cons.mpr ⟨s₁, hstep, hrun⟩, hkept', by omega⟩

/-- The newline of a line of 511 characters is the last byte of the buffer, and the terminator
is written to the first byte of the other one. -/
theorem terminator_past_buffer :
    let line := List.replicate 511 (Fd.cout, (97 : BitVec 8)) ++ [(Fd.cout, newline)]
    (∀ a ∈ line, a.2 ≠ 0) ∧ ¬ AlongRun step LosesNothing start line ∧
      ∃ s', run step start line = some s' ∧ (Fd.cout, 512) ∈ s'.writes := by
  have hlen : (start.pending .cout).length + 511 ≤ 512 := by decide
  obtain ⟨s, hrun, hs, hfull⟩ := start_kept.run_line (c := 97) (by decide) (by decide) hlen
  have hptr : s.ptr .cout = 511 := by rw [(hs .cout).ptr, hfull]; rfl
  refine ⟨?_, fun hline => ?_, ?_⟩
  · intro a ha
    rcases List.mem_append.mp ha with ha | ha
    · rw [List.eq_of_mem_replicate ha]
      decide
    · rw [List.mem_singleton.mp ha]
      decide
  · have hlast := hs.fits (hline.of_append hrun).1
    rcases hlast with hlt | ⟨-, hne⟩
    · exact absurd hlt (by rw [hfull]; decide)
    · exact hne rfl
  · have hlt : (s.pending .cout).length < 512 := by rw [hfull]; decide
    obtain ⟨s₁, hwrite, hkept, hpend, -, -⟩ := hs.after_write (c := newline) hlt (by decide)
    have hptr₁ : s₁.ptr .cout < 1024 := by
      rw [(hkept .cout).ptr]
      exact Nat.lt_of_le_of_lt (Nat.add_le_add_left (hkept .cout).len _) (by decide)
    have hflush : ∃ s', fflush s₁ .cout = some s' := by
      rw [fflush, Streams.put, if_pos hptr₁]
      exact ⟨_, rfl⟩
    obtain ⟨s', hflush⟩ := hflush
    have hstep : step s (.cout, newline) = some s' := by
      rw [step_of_write hwrite hkept, if_pos rfl, hflush]
    obtain ⟨writes, hwrites, hnl⟩ := stream_writes hstep
    have hlast := hnl rfl
    rw [hptr] at hlast
    refine ⟨s', run_append.mpr ⟨s, hrun, run_cons.mpr ⟨s', hstep, rfl⟩⟩, ?_⟩
    rw [hwrites]
    exact List.mem_append_right _ (List.mem_cons_of_mem _ hlast)

end CxKernel.Console
