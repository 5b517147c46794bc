import Sbunix.Sys.ExecSegments
import Sbunix.Sys.Proofs.ExecArgs
import Sbunix.Sys.Proofs.VmaLists

/-!
# When the arguments spare the segments

`passArgs` is its writes, one after the other.  The bytes of the segments are kept exactly if
the last write over each of them repeats it.
-/

namespace Sbunix

open ByteMem

variable {m m' caller bytes : ByteMem} {a args newargs fileName i j k n t w x : Nat}
  {uStackbase childStackbase elfaddr proc : Nat} {path : List UInt8}
  {strs : List (List UInt8)} {ws : List Nat} {ps : List (Nat × List UInt8)} {vm : VmState}
  {s : Loading} {e : MainEntry}

/-! ## The writes -/

theorem setArg_eq : setArg m args i w = m.storeBytes (wordRun args i w).1 (wordRun args i w).2 :=
  storeNumber_eq

theorem storeAll_pointerRuns :
    m.storeAll (pointerRuns args newargs n i m) = copyPointers args newargs n i m := by
  induction n generalizing i m with
  | zero => rfl
  | succ n ih => rw [pointerRuns, storeAll, ← setArg_eq, ih, copyPointers]

theorem storeAll_copiedRuns :
    m.storeAll (copiedRuns newargs strs i m) = copyStrings newargs strs i m := by
  induction strs generalizing i m with
  | nil => rfl
  | cons str strs ih => rw [copiedRuns, storeAll, ← strcpy_eq, ih, copyStrings]

theorem storeAll_shiftRuns : m.storeAll (shiftRuns args n m) = shiftArgs args n m := by
  induction n generalizing m with
  | zero => rfl
  | succ n ih => rw [shiftRuns, storeAll, ← setArg_eq, ih, shiftArgs]

/-- The memory at the end of `passArgs` is that of its writes. -/
theorem storeAll_execRuns : m.storeAll (execRuns m fileName args newargs path strs) =
    argBytes m fileName args newargs path strs := by
  unfold execRuns argBytes cpyFilename2args
  dsimp only
  simp only [storeAll_append, storeAll, ← strcpy_eq, ← setArg_eq]
  rw [storeAll_pointerRuns, storeAll_copiedRuns, storeAll_shiftRuns]

/-! ## Their lengths -/

theorem wordRun_length : (wordRun args i w).2.length ≤ 2 ^ 64 := by
  rw [wordRun, length_numberBytes]
  decide

theorem pointerRuns_length :
    ∀ p ∈ pointerRuns args newargs n i m, p.2.length ≤ 2 ^ 64 := by
  induction n generalizing i m with
  | zero => simp [pointerRuns]
  | succ n ih => exact List.forall_mem_cons.mpr ⟨wordRun_length, ih⟩

theorem stringRun_length {str : List UInt8} (h : str.length < 2 ^ 31) :
    (str ++ [0]).length ≤ 2 ^ 64 := by
  rw [List.length_append, List.length_singleton]
  omega

theorem copiedRuns_length (hstrs : ∀ str ∈ strs, str.length < 2 ^ 31) :
    ∀ p ∈ copiedRuns newargs strs i m, p.2.length ≤ 2 ^ 64 := by
  induction strs generalizing i m with
  | nil => simp [copiedRuns]
  | cons str strs ih =>
    obtain ⟨hfirst, hrest⟩ := List.forall_mem_cons.mp hstrs
    exact List.forall_mem_cons.mpr ⟨stringRun_length hfirst, ih hrest⟩

theorem shiftRuns_length : ∀ p ∈ shiftRuns args n m, p.2.length ≤ 2 ^ 64 := by
  induction n generalizing m with
  | zero => simp [shiftRuns]
  | succ n ih => exact List.forall_mem_cons.mpr ⟨wordRun_length, ih⟩

theorem arrayRuns_length : ∀ p ∈ arrayRuns args ws i, p.2.length ≤ 2 ^ 64 := by
  induction ws generalizing i with
  | nil => simp [arrayRuns]
  | cons w ws ih => exact List.forall_mem_cons.mpr ⟨wordRun_length, ih⟩

theorem execRuns_length (hargs : ArgArray caller args strs) (hpath : path.length < 2 ^ 31) :
    ∀ p ∈ execRuns m fileName args newargs path strs, p.2.length ≤ 2 ^ 64 := by
  have hstrs : ∀ str ∈ strs, str.length < 2 ^ 31 := by
    intro str hs
    obtain ⟨j, hj⟩ := List.mem_iff_getElem?.mp hs
    have hlen := (hargs.strings j str hj).1
    omega
  unfold execRuns
  dsimp only
  simp only [List.forall_mem_append, List.forall_mem_cons, List.cons_append]
  exact ⟨stringRun_length hpath, ⟨⟨pointerRuns_length, copiedRuns_length hstrs⟩, shiftRuns_length⟩,
    wordRun_length, List.forall_mem_nil _⟩

/-! ## The new array -/

theorem arrayRuns_other (hx : ∀ j, i ≤ j → j < i + ws.length → ∀ k < 8,
      ¬ SameAddr x (args + 8 * j + k)) :
    (m.storeAll (arrayRuns args ws i)).load x = m.load x := by
  induction ws generalizing i m with
  | nil => rfl
  | cons w ws ih =>
    rw [List.length_cons] at hx
    rw [arrayRuns, storeAll, ← setArg_eq, ih]
    · apply setArg_load
      exact hx i (Nat.le_refl i) (by omega)
    · intro j hle hlt
      exact hx j (by omega) (by omega)

/-- An array is there once its elements have been written. -/
theorem argAt_arrayRuns (hws : ∀ w ∈ ws, w < 2 ^ 64) (hsize : 8 * (i + ws.length) ≤ 2 ^ 64)
    (hj : j < ws.length) :
    argAt (m.storeAll (arrayRuns args ws i)) args (i + j) = ws[j] := by
  induction ws generalizing i j m with
  | nil => cases hj
  | cons w ws ih =>
    rw [List.length_cons] at hsize hj
    rw [arrayRuns, storeAll, ← setArg_eq]
    cases j with
    | zero =>
      rw [Nat.add_zero, List.getElem_cons_zero]
      have hsame : argAt (setArg m args i w) args i = w := argAt_setArg_same (hws w List.mem_cons_self)
      refine Eq.trans ?_ hsame
      apply argAt_congr
      intro k hk
      apply arrayRuns_other
      intro l hle hlt k' hk' hs
      rw [Nat.add_assoc, Nat.add_assoc] at hs
      have heq := sameAddr_add (by omega) (by omega) hs
      omega
    | succ j =>
      have hrest : ∀ w' ∈ ws, w' < 2 ^ 64 := fun w' hw' => hws w' (List.mem_cons_of_mem w hw')
      have hij : i + (j + 1) = i + 1 + j := by omega
      rw [List.getElem_cons_succ, hij]
      exact ih hrest (by omega) (by omega)

namespace NewArrayApart

variable (h : NewArrayApart m fileName args newargs path strs)

include h

omit h in
theorem length_newWords :
    (newWords m fileName args newargs path strs).length = strs.length + 2 := by
  simp [newWords]

omit h in
theorem newWords_lt (hname : fileName < 2 ^ 64) :
    ∀ w ∈ newWords m fileName args newargs path strs, w < 2 ^ 64 := by
  unfold newWords
  simp only [List.cons_append, List.forall_mem_cons, List.forall_mem_append, List.forall_mem_map]
  exact ⟨hname, fun _ _ => argAt_lt, argAt_lt, List.forall_mem_nil _⟩

theorem argBytes_words (hfew : strs.length < 2 ^ 31) (hname : fileName < 2 ^ 64)
    (hj : j < (newWords m fileName args newargs path strs).length) :
    argAt (argBytes m fileName args newargs path strs) newargs j =
      (newWords m fileName args newargs path strs)[j] := by
  obtain ⟨hfirst, hrest, hlast⟩ := h.newArray hfew hname
  rw [length_newWords] at hj
  cases j with
  | zero => exact hfirst
  | succ j =>
    simp only [newWords, List.cons_append, List.getElem_cons_succ]
    by_cases hin : j < strs.length
    · rw [hrest j hin, List.getElem_append_left (by simpa using hin)]
      simp
    · obtain rfl : j = strs.length := by omega
      rw [hlast, List.getElem_append_right (by simp)]
      simp

/-- With the new array apart, memory ends up as the strings and then the array leave it. -/
theorem argBytes_load (hfew : strs.length < 2 ^ 31) (hname : fileName < 2 ^ 64) (x : Nat) :
    (argBytes m fileName args newargs path strs).load x =
      (m.storeAll (argRuns m fileName args path strs ++
        arrayRuns newargs (newWords m fileName args newargs path strs) 0)).load x := by
  rw [storeAll_append]
  by_cases hx : Range newargs (8 * (strs.length + 2)) x
  · obtain ⟨y, hy, hs⟩ := hx
    have hj : y / 8 < (newWords m fileName args newargs path strs).length := by
      rw [length_newWords]
      omega
    have hsize : 8 * (0 + (newWords m fileName args newargs path strs).length) ≤ 2 ^ 64 := by
      rw [length_newWords]
      omega
    have hget : argAt ((m.storeAll (argRuns m fileName args path strs)).storeAll
        (arrayRuns newargs (newWords m fileName args newargs path strs) 0)) newargs (0 + y / 8) = _ :=
      argAt_arrayRuns (newWords_lt hname) hsize hj
    rw [Nat.zero_add, ← h.argBytes_words hfew hname hj] at hget
    have hbyte := number_inj hget (y % 8) (Nat.mod_lt y (by decide))
    rw [Nat.add_assoc, Nat.div_add_mod y 8] at hbyte
    rw [load_congr hs, load_congr hs]
    exact hbyte.symm
  · rw [h.load_eq hfew hx, arrayRuns_other]
    rw [length_newWords]
    intro j _ hlt k hk hs
    apply hx
    exact ⟨8 * j + k, by omega, by rw [← Nat.add_assoc]; exact hs⟩

end NewArrayApart

/-! ## The segments -/

theorem segmentsKept_iff (hlen : ∀ p ∈ ps, p.2.length ≤ 2 ^ 64)
    (h : ∀ x, bytes.load x = (s.bytes.storeAll ps).load x) :
    SegmentsKept m s bytes ↔ SegmentsSpared m s ps := by
  constructor
  · intro hkept x hx
    have hload := hkept x hx
    rw [h x] at hload
    exact (storeAll_kept_iff hlen).mp hload
  · intro hspared x hx
    rw [h x]
    exact (storeAll_kept_iff hlen).mpr (hspared x hx)

theorem startProgram_bytes (hargs : ArgArray caller args strs)
    (h : startProgram caller m vm elfaddr proc fileName args uStackbase childStackbase path =
      some (s, e)) :
    e.bytes =
      argBytes s.bytes fileName args (newArgs uStackbase childStackbase args) path strs := by
  simp only [startProgram, Option.bind_eq_bind, Option.bind_eq_some_iff] at h
  obtain ⟨s', -, e', hexec, heq⟩ := h
  obtain ⟨rfl, rfl⟩ := Prod.mk.inj (Option.some.inj heq)
  rw [execArgs_eq hargs, passArgs_eq] at hexec
  obtain ⟨argc, -, rfl⟩ := Option.map_eq_some_iff.mp hexec
  rfl

/-- The program starts with its segments as `read_elf` has left them exactly if the writes of
`passArgs` spare them. These are, unless the new array gets in the way, the name of the file and
the arguments at the addresses that the caller has passed, and then the new array. -/
theorem exec_segmentsKept (hargs : ArgArray caller args strs) (hname : fileName < 2 ^ 64)
    (hpath : path.length < 2 ^ 31)
    (h : startProgram caller m vm elfaddr proc fileName args uStackbase childStackbase path =
      some (s, e)) :
    (SegmentsKept m s e.bytes ↔ SegmentsSpared m s
        (execRuns s.bytes fileName args (newArgs uStackbase childStackbase args) path strs)) ∧
      (NewArrayApart s.bytes fileName args (newArgs uStackbase childStackbase args) path strs →
        (SegmentsKept m s e.bytes ↔ SegmentsSpared m s
          (argRuns s.bytes fileName args path strs ++
            arrayRuns (newArgs uStackbase childStackbase args)
              (newWords s.bytes fileName args (newArgs uStackbase childStackbase args) path strs)
              0))) := by
  rw [startProgram_bytes hargs h]
  constructor
  · apply segmentsKept_iff (execRuns_length hargs hpath)
    intro x
    rw [storeAll_execRuns]
  · intro hnew
    apply segmentsKept_iff
    · intro p hp
      cases List.mem_append.mp hp with
      | inl hmem => exact argRuns_length hargs hpath p hmem
      | inr hmem => exact arrayRuns_length p hmem
    · exact hnew.argBytes_load hargs.few hname

/-! The call of `ls` again, whose file has one segment, of 32 bytes at `0x400000`, and a header
behind it that is not looked at. -/

/-- An ELF file with two program headers, the first for a segment of 32 bytes. -/
def lsFile : ByteMem := fun a =>
  [0x7F, 0x45, 0x4C, 0x46, 2, 1, 1, 0, 0, 0, 0, 0, 0, 0, 0, 0, 2, 0, 0x3E, 0, 1, 0, 0, 0,
    0, 0, 0x40, 0, 0, 0, 0, 0, 64, 0, 0, 0, 0, 0, 0, 0, 0, 0, 0, 0, 0, 0, 0, 0,
    0, 0, 0, 0, 64, 0, 56, 0, 2, 0, 64, 0, 0, 0, 0, 0,
    1, 0, 0, 0, 5, 0, 0, 0, 0, 0, 0, 0, 0, 0, 0, 0, 0, 0, 0x40, 0, 0, 0, 0, 0,
    0, 0, 0x40, 0, 0, 0, 0, 0, 32, 0, 0, 0, 0, 0, 0, 0, 32, 0, 0, 0, 0, 0, 0, 0,
    0, 16, 0, 0, 0, 0, 0, 0].getD (a - 0x1000) 0

/-- What the new process, in slot 1, sees: the file and the stacks. -/
def lsStart : ByteMem :=
  (lsFile.storeNumber lsArgs 0x400010 8).storeNumber (lsArgs - 8192) 0x400010 8

theorem exec_segmentsKept_ls : ∃ s e,
    startProgram lsCaller lsStart noVmas 0x1000 1 0x400000 lsArgs 0xFFFFFFFF7F1FF000
      0xFFFFFFFF7F1FD000 lsPath = some (s, e) ∧
    (SegmentsKept lsStart s e.bytes ↔ SegmentsSpared lsStart s
      (execRuns s.bytes 0x400000 lsArgs (newArgs 0xFFFFFFFF7F1FF000 0xFFFFFFFF7F1FD000 lsArgs)
        lsPath [[97]])) := by
  have hrun : (startProgram lsCaller lsStart noVmas 0x1000 1 0x400000 lsArgs 0xFFFFFFFF7F1FF000
      0xFFFFFFFF7F1FD000 lsPath).isSome := by decide +kernel
  obtain ⟨r, h⟩ := Option.isSome_iff_exists.mp hrun
  exact ⟨r.1, r.2, h, (exec_segmentsKept lsCaller_args (by decide) (by decide) h).1⟩

/-- `ls` loses the first byte of its segment, a `0x7F`, to the name under which it was found. -/
theorem exec_overSegment : ∃ s e,
    startProgram lsCaller lsStart noVmas 0x1000 1 0x400000 lsArgs 0xFFFFFFFF7F1FF000
      0xFFFFFFFF7F1FD000 lsPath = some (s, e) ∧
    s.bytes.load 0x400000 = 0x7F ∧ e.bytes.load 0x400000 = 98 ∧ ¬ SegmentsKept lsStart s e.bytes := by
  have hrun : (startProgram lsCaller lsStart noVmas 0x1000 1 0x400000 lsArgs 0xFFFFFFFF7F1FF000
      0xFFFFFFFF7F1FD000 lsPath).map (fun r =>
        (r.1.read, r.1.bytes.load 0x400000, r.2.bytes.load 0x400000)) =
      some ([0x1040], 0x7F, 98) := by decide +kernel
  obtain ⟨⟨s, e⟩, h, heq⟩ := Option.map_eq_some_iff.mp hrun
  obtain ⟨hread, hloads⟩ := Prod.mk.inj heq
  obtain ⟨hs, he⟩ := Prod.mk.inj hloads
  refine ⟨s, e, h, hs, he, ?_⟩
  intro hkept
  have hin : InSegment lsStart s 0x400000 := by
    have hmem : 0x1040 ∈ s.read := by
      rw [hread]
      exact List.mem_singleton_self _
    exact ⟨0x1040, hmem, by decide +kernel, by decide +kernel⟩
  have hbyte := hkept 0x400000 hin
  rw [hs, he] at hbyte
  exact absurd hbyte (by decide)

end Sbunix
