import CxKernel.Proofs.Template
import CxKernel.Spec.Panic

/-! The dump of an unhandled exception: `exception_handler` writes what its format says, and the
registers are read back from it. -/

namespace CxKernel.Interrupt

open Strings Stdio

variable {mem : Mem 8} {messages : Messages} {r : IntFrame} {rsp cr2 p : BitVec 64}

/-- `%016lX` -/
def hex16 : HexField := ⟨['0', '1', '6', 'l', 'X'].map ch, ZEROPAD, 16, fun _ _ => rfl, .inl rfl⟩

/-- `%02lX` -/
def hex2 : HexField := ⟨['0', '2', 'l', 'X'].map ch, ZEROPAD, 2, fun _ _ => rfl, .inl rfl⟩

/-- `%lX` -/
def hex : HexField := ⟨['l', 'X'].map ch, 0, -1, fun _ _ => rfl, .inr ⟨rfl, by decide⟩⟩

/-- The text in front of each value of `dumped`, and its conversion. -/
def labels : List (String × HexField) :=
  [("\n=== Dumping register contents below\n> rax: 0x", hex16), (" rbx: 0x", hex16),
    (" rcx: 0x", hex16), (" rdx: 0x", hex16), ("\n> rsi: 0x", hex16), (" rdi: 0x", hex16),
    (" rsp: 0x", hex16), (" rbp: 0x", hex16), ("\n> r8:  0x", hex16), (" r9:  0x", hex16),
    (" r10: 0x", hex16), (" r11: 0x", hex16), ("\n> r12: 0x", hex16), (" r13: 0x", hex16),
    (" r14: 0x", hex16), (" r15: 0x", hex16), ("\n> rip: 0x", hex16), (" eflags: 0x", hex),
    ("\n=== Error code: 0x", hex16)]

/-- `dumpFormat`, with the values still to come. -/
def dumpPieces : List Piece :=
  [.lit (text "\n=== KERNEL UNHANDLED EXCEPTION 0x"), .hex hex2, .lit (text " ===\n=== "), .str] ++
    labels.flatMap (fun l => [.lit (text l.1), .hex l.2]) ++ [.lit (text "\n")]

/-- `faultFormat` -/
def faultPieces : List Piece :=
  [.lit (text "=== Page fault data:\n=== "), .str, .lit (text "\n=== Faulting address: 0x"),
    .hex hex16, .lit (text "\n")]

theorem dumpPieces_format : dumpPieces.flatMap Piece.format = dumpFormat.flatMap text := by
  decide +kernel

theorem faultPieces_format : faultPieces.flatMap Piece.format = faultFormat.flatMap text := by
  decide +kernel

theorem dumpPieces_separated : separated dumpPieces = true := by decide +kernel

theorem faultPieces_separated : separated faultPieces = true := by decide +kernel

/-- The parts that go out for a frame. -/
def dumpParts (r : IntFrame) (rsp p : BitVec 64) (s : List (BitVec 8)) : List Filled :=
  [.lit (text "\n=== KERNEL UNHANDLED EXCEPTION 0x"), .hex hex2 r.vector, .lit (text " ===\n=== "),
    .str p s] ++ (labels.zip (dumped r rsp)).flatMap (fun l => [.lit (text l.1.1), .hex l.1.2 l.2]) ++
    [.lit (text "\n")]

def faultParts (cr2 p : BitVec 64) (s : List (BitVec 8)) : List Filled :=
  [.lit (text "=== Page fault data:\n=== "), .str p s, .lit (text "\n=== Faulting address: 0x"),
    .hex hex16 cr2, .lit (text "\n")]

variable {s : List (BitVec 8)}

theorem faultParts_piece : (faultParts cr2 p s).map Filled.piece = faultPieces := rfl

theorem dumpParts_piece : (dumpParts r rsp p s).map Filled.piece = dumpPieces := rfl

theorem dumpPieces_plain : ∀ q ∈ dumpPieces, q.plain = true := by decide +kernel

theorem faultPieces_plain : ∀ q ∈ faultPieces, q.plain = true := by decide +kernel

/-- What goes out for a format of these parts. -/
theorem kerr_eq {format : List String} {ps : List Piece} {fs : List Filled}
    (hps : fs.map Filled.piece = ps) (hformat : ps.flatMap Piece.format = format.flatMap text)
    (hplain : ∀ q ∈ ps, q.plain = true)
    (hstrings : ∀ x ∈ fs.flatMap Filled.strings, StringAt mem x) :
    kerr mem format (fs.flatMap Filled.args) = some (fs.flatMap Filled.text) := by
  subst hps
  have hsame : fs.flatMap Filled.format = format.flatMap text := by
    rw [← hformat, List.flatMap_map]
    rfl
  rw [kerr, ← hsame, ssprintf_filled (fun f hf => hplain _ (List.mem_map_of_mem hf)) hstrings]
  rfl

/-- The messages are in memory, and the arrays point to them. -/
structure Messages.InMemory (mem : Mem 8) (messages : Messages) : Prop where
  exception : List.Forall₂ (fun p m => CStr mem p (text m)) messages.exception exceptionMessages
  pageFault : List.Forall₂ (fun p m => CStr mem p (text m)) messages.pageFault pageFaultMessages

/-- Each message is a line of its own, and short. -/
theorem messages_lines : ∀ m ∈ exceptionMessages ++ pageFaultMessages,
    ch '\n' ∉ text m ∧ 0 ∉ text m ∧ (text m).length < 128 := by
  decide +kernel

/-- The pointer at an index of an array is to a message. -/
theorem exists_message {ps : List (BitVec 64)} {ms : List String}
    (h : List.Forall₂ (fun p m => CStr mem p (text m)) ps ms)
    (hlines : ∀ m ∈ ms, ch '\n' ∉ text m ∧ 0 ∉ text m ∧ (text m).length < 128)
    {i : ℕ} (hi : i < ms.length) :
    ∃ p s, ps[i]? = some p ∧ ch '\n' ∉ s ∧ StringAt mem (p, s) := by
  have hlen : i < ps.length := by rwa [h.length_eq]
  obtain ⟨hline, -, hshort⟩ := hlines _ (List.getElem_mem hi)
  exact ⟨ps[i], text ms[i], List.getElem?_eq_getElem hlen, hline, h.get hlen hi,
    hshort.trans (by decide)⟩

theorem kerr_lit {format : List String} (hplain : (Piece.lit (format.flatMap text)).plain = true) :
    kerr mem format [] = some (format.flatMap text) := by
  have hlit : kerr mem format ([Filled.lit (format.flatMap text)].flatMap Filled.args) =
      some ([Filled.lit (format.flatMap text)].flatMap Filled.text) :=
    kerr_eq rfl (List.append_nil _) (fun q hq => List.mem_singleton.mp hq ▸ hplain) (by nofun)
  have htext : [Filled.lit (format.flatMap text)].flatMap Filled.text = format.flatMap text :=
    List.append_nil _
  rw [htext] at hlit
  exact hlit

theorem kerr_dump (hs : StringAt mem (p, s)) :
    kerr mem dumpFormat (r.vector :: p :: dumped r rsp) =
      some ((dumpParts r rsp p s).flatMap Filled.text) :=
  kerr_eq dumpParts_piece dumpPieces_format dumpPieces_plain
    (List.forall_mem_cons.mpr ⟨hs, List.forall_mem_nil _⟩)

theorem kerr_fault (hs : StringAt mem (p, s)) : kerr mem faultFormat [p, cr2] =
    some ((faultParts cr2 p s).flatMap Filled.text) :=
  kerr_eq faultParts_piece faultPieces_format faultPieces_plain
    (List.forall_mem_cons.mpr ⟨hs, List.forall_mem_nil _⟩)

/-- The values of a dump: those of the first format, and the faulting address. -/
def readDump (out : List (BitVec 8)) : Option (List (BitVec 64)) := do
  let (vs, out) ← readPieces dumpPieces out
  if vs.head? = some 14 then
    let (ws, _) ← readPieces faultPieces out
    return vs ++ ws
  else return vs

theorem exceptionHandler_eq (hp : messages.exception[r.vector.toNat]? = some p)
    (hs : StringAt mem (p, s)) : exceptionHandler mem messages r rsp cr2 =
      (pageFaultData mem messages r cr2).map fun fault =>
        (dumpParts r rsp p s).flatMap Filled.text ++ fault ++ ["\n"].flatMap text ++
          deadComputer.flatMap text := by
  have hgap : kerr mem ["\n"] [] = some (["\n"].flatMap text) := kerr_lit (by decide +kernel)
  have hdead : kerr mem deadComputer [] = some (deadComputer.flatMap text) :=
    kerr_lit (by decide +kernel)
  rw [exceptionHandler, hp, Option.bind_eq_bind, Option.bind_some, kerr_dump hs,
    Option.bind_eq_bind, Option.bind_some, hgap, hdead, Option.map_eq_bind]
  rfl

theorem read_fault (hline : ch '\n' ∉ s) (rest : List (BitVec 8)) :
    readPieces faultPieces ((faultParts cr2 p s).flatMap Filled.text ++ rest) = some ([cr2], rest) := by
  have hsep : separated ((faultParts cr2 p s).map Filled.piece) = true := faultPieces_separated
  exact readPieces_filled hsep (List.forall_mem_cons.mpr ⟨hline, List.forall_mem_nil _⟩) rest

/-- The dump is read back to the values it was made of, with whatever comes behind it. -/
theorem readDump_eq (hline : ch '\n' ∉ s) (rest : List (BitVec 8)) :
    readDump ((dumpParts r rsp p s).flatMap Filled.text ++ rest) =
      if r.vector = 14 then
        (readPieces faultPieces rest).map fun x => r.vector :: dumped r rsp ++ x.1
      else some (r.vector :: dumped r rsp) := by
  have hread : readPieces dumpPieces ((dumpParts r rsp p s).flatMap Filled.text ++ rest) =
      some (r.vector :: dumped r rsp, rest) := by
    have hsep : separated ((dumpParts r rsp p s).map Filled.piece) = true := dumpPieces_separated
    exact readPieces_filled hsep (List.forall_mem_cons.mpr ⟨hline, List.forall_mem_nil _⟩) rest
  have hhead : (r.vector :: dumped r rsp).head? = some 14 ↔ r.vector = 14 := Option.some_inj
  rw [readDump, hread, Option.bind_eq_bind, Option.bind_some]
  dsimp only
  rw [if_congr hhead rfl rfl, Option.map_eq_bind]
  rfl

/-- An exception is reported, unless it is a page fault with an error code for which there is no
message; and from what goes out everything is read back that `exception_handler` was given. -/
theorem exception_dump (h : messages.InMemory mem) (rsp cr2 : BitVec 64) (hv : r.vector < 32) :
    (exceptionHandler mem messages r rsp cr2 = none ↔ r.vector = 14 ∧ 8 ≤ r.errCode) ∧
      ∀ out, exceptionHandler mem messages r rsp cr2 = some out → readDump out =
        some (r.vector :: dumped r rsp ++ if r.vector = 14 then [cr2] else []) := by
  obtain ⟨p, s, hp, hline, hs⟩ := exists_message h.exception
    (fun m hm => messages_lines m (List.mem_append_left _ hm)) (i := r.vector.toNat) hv
  rw [exceptionHandler_eq hp hs, pageFaultData]
  by_cases hfault : r.vector = 14
  · rw [if_pos hfault, if_pos hfault]
    by_cases hcode : 8 ≤ r.errCode
    · have hnone : messages.pageFault[r.errCode.toNat]? = none := by
        rw [List.getElem?_eq_none_iff, h.pageFault.length_eq]
        exact hcode
      rw [hnone]
      exact ⟨iff_of_true rfl ⟨hfault, hcode⟩, by nofun⟩
    · obtain ⟨q, t, hq, htline, ht⟩ := exists_message h.pageFault
        (fun m hm => messages_lines m (List.mem_append_right _ hm)) (i := r.errCode.toNat)
        (Nat.lt_of_not_le hcode)
      rw [hq, Option.bind_eq_bind, Option.bind_some, kerr_fault ht]
      refine ⟨iff_of_false (by nofun) fun h => hcode h.2, fun out hout => ?_⟩
      obtain rfl := Option.some.inj hout
      dsimp only
      rw [List.append_assoc, List.append_assoc, readDump_eq hline, if_pos hfault, read_fault htline]
      rfl
  · rw [if_neg hfault, if_neg hfault]
    refine ⟨iff_of_false (by nofun) fun h => hfault h.1, fun out hout => ?_⟩
    obtain rfl := Option.some.inj hout
    dsimp only
    rw [List.append_assoc, List.append_assoc, readDump_eq hline, if_neg hfault, List.append_nil]

/-! The messages, each in 128 bytes. -/

def slots (ms : List String) : Mem 8 := fun a =>
  ((ms.map text).getD (a.toNat / 128) []).getD (a.toNat % 128) 0

/-- The pointers to the messages from number `k` on. -/
def slotPointers (k n : ℕ) : List (BitVec 64) := (List.range n).map fun i => .ofNat 64 (128 * (k + i))

theorem slots_byte {ms : List String} {i j : ℕ} (hi : i < ms.length) (hms : ms.length < 2 ^ 32)
    (hj : j < 128) :
    slots ms (.ofNat 64 (128 * i) + .ofNat 64 j) = (text ms[i]).getD j 0 := by
  have hnat : (BitVec.ofNat 64 (128 * i) + BitVec.ofNat 64 j).toNat = 128 * i + j := by
    rw [← BitVec.ofNat_add, BitVec.toNat_ofNat]
    omega
  have htext : (ms.map text).getD i [] = text ms[i] := by
    rw [List.getD_eq_getElem _ _ (by rwa [List.length_map]), List.getElem_map]
  rw [slots, hnat, Nat.mul_add_div (by decide), Nat.mul_add_mod, Nat.div_eq_of_lt hj,
    Nat.mod_eq_of_lt hj, Nat.add_zero, htext]

theorem cstr_slots {ms : List String} {i : ℕ} (hi : i < ms.length) (hms : ms.length < 2 ^ 32)
    (hnul : 0 ∉ text ms[i]) (hshort : (text ms[i]).length < 128) :
    CStr (slots ms) (.ofNat 64 (128 * i)) (text ms[i]) where
  byte j hj := by
    refine (slots_byte hi hms (by omega)).trans ?_
    rw [List.getD_eq_getElem _ _ hj]
  nonzero := hnul
  nul := by
    refine (slots_byte hi hms hshort).trans ?_
    rw [List.getD_eq_default _ _ (Nat.le_refl _)]
  fits := by
    rw [BitVec.toNat_ofNat]
    omega

theorem forall₂_slots {ms : List String} {k n : ℕ} (hend : k + n ≤ ms.length)
    (hms : ms.length < 2 ^ 32)
    (hlines : ∀ m ∈ ms, ch '\n' ∉ text m ∧ 0 ∉ text m ∧ (text m).length < 128) :
    List.Forall₂ (fun p m => CStr (slots ms) p (text m)) (slotPointers k n) ((ms.drop k).take n) := by
  rw [List.forall₂_iff_get]
  have hlen : (slotPointers k n).length = n := by rw [slotPointers, List.length_map, List.length_range]
  refine ⟨by rw [hlen, List.length_take, List.length_drop]; omega, fun i hi _ => ?_⟩
  rw [hlen] at hi
  obtain ⟨-, hnul, hshort⟩ := hlines ms[k + i] (List.getElem_mem (by omega))
  simp only [List.get_eq_getElem, List.getElem_take, List.getElem_drop, slotPointers, List.getElem_map,
    List.getElem_range]
  exact cstr_slots (by omega) hms hnul hshort

theorem inMemory_slots : Messages.InMemory (slots (exceptionMessages ++ pageFaultMessages))
    ⟨slotPointers 0 32, slotPointers 32 8⟩ :=
  ⟨forall₂_slots (by decide) (by decide) messages_lines,
    forall₂_slots (by decide) (by decide) messages_lines⟩

/-- A write to a page that is not there. -/
def pageFaultFrame : IntFrame where
  regs := ⟨1, 2, 3, 4, 5, 6, 7, 8, 9, 10, 11, 12, 13, 14, 15⟩
  vector := 14
  errCode := 2
  rip := 0x100000
  cs := 8
  flags := 0x202
  userSp := 0
  userSs := 0

theorem exception_dump_write : ∃ out, exceptionHandler
    (slots (exceptionMessages ++ pageFaultMessages)) ⟨slotPointers 0 32, slotPointers 32 8⟩
      pageFaultFrame 0x200000 0xDEAD000 = some out ∧
    readDump out = some (14 :: dumped pageFaultFrame 0x200000 ++ [0xDEAD000]) := by
  obtain ⟨hnone, hread⟩ :=
    exception_dump (r := pageFaultFrame) inMemory_slots 0x200000 0xDEAD000 (by decide)
  obtain ⟨out, hout⟩ := Option.ne_none_iff_exists'.mp fun h => absurd (hnone.mp h).2 (by decide)
  exact ⟨out, hout, hread out hout⟩

end CxKernel.Interrupt
