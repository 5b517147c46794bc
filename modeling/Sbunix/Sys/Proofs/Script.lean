import Sbunix.Sys.Script
import Sbunix.Sys.Proofs.FileStreams
import Sbunix.Sys.Proofs.PathSearch

/-!
# Scripts

What one line of a script does, and then the whole loop.  The store at the end of a line drops its
last character, which is right for `"\r\n"` only, and goes in front of `cmd` if nothing was kept.
-/

namespace Sbunix

variable {mem : Nat → UInt8} {tree : InodeTree} {p p' : Pcb} {f : FileObject}
  {fd buff n i k node offset turns : Nat}
  {s : Script} {file line rest text : List UInt8}

/-! The characters of the file -/

/-- The turns for the characters of a list, up to a NUL. -/
def Script.loop : List UInt8 → Script → Script
  | [], s => s
  | c :: rest, s => if c = 0 then s else Script.loop rest (s.turn c)

/-- The process with a file at its descriptor. -/
def Pcb.withFile (p : Pcb) (fd : Nat) (f : FileObject) : Pcb :=
  { p with fd := p.fd.set fd (some f) }

@[simp] theorem Pcb.withFile_withFile {f g : FileObject} :
    (p.withFile fd f).withFile fd g = p.withFile fd g := by
  simp [Pcb.withFile]

/-- A descriptor that `k_open` can give, and a node that ends in memory. -/
structure Readable (tree : InodeTree) (p : Pcb) (fd node : Nat) : Prop where
  low : 2 ≤ fd
  high : fd < maxFd
  free : p.fd[fd]? = some none
  stop : (tree.inode node).stop < 2 ^ 64

namespace Readable

variable (h : Readable tree p fd node)

include h

theorem entry : (p.withFile fd f).fd[fd]? = some (some f) :=
  List.getElem?_set_self (List.getElem?_eq_some_iff.mp h.free).1

/-- A call of `fgetc` gives the next byte of the file, or 0 at its end. -/
theorem fgetc : fgetc mem tree (p.withFile fd ⟨offset, node⟩) fd buff =
    ((fileBytes mem offset ((tree.inode node).stop - offset)).headD 0,
      p.withFile fd ⟨offset + min 1 ((tree.inode node).stop - offset), node⟩) := by
  have hstop := h.stop
  have hcount : readCount tree ⟨offset, node⟩ 1 = min 1 ((tree.inode node).stop - offset) := by
    unfold readCount
    dsimp only
    omega
  unfold Sbunix.fgetc
  rw [kRead_open h.low h.high h.entry, hcount]
  dsimp only
  rw [map_snd_storesFrom]
  refine Prod.ext ?_ Pcb.withFile_withFile
  dsimp only
  cases hleft : (tree.inode node).stop - offset with
  | zero => rfl
  | succ left =>
    rw [show min 1 (left + 1) = 0 + 1 by omega, fileBytes_succ, fileBytes_succ]
    rfl

theorem fclose : fclose (p.withFile fd f) fd = p := by
  obtain ⟨hlt, hfree⟩ := List.getElem?_eq_some_iff.mp h.free
  unfold Sbunix.fclose
  rw [kClose_open h.low h.high]
  unfold Pcb.withFile
  dsimp only
  rw [List.set_set, ← hfree, List.set_getElem_self]

/-- The first loop reads what comes before the first new line or NUL. -/
theorem compareLoop : ∃ last,
    compareLoop mem tree fd buff n (p.withFile fd ⟨offset, node⟩) =
      (((fileBytes mem offset ((tree.inode node).stop - offset)).take n).takeWhile
        fun c => decide (¬ (c = 10 ∨ c = 0)), p.withFile fd ⟨last, node⟩) := by
  induction n generalizing offset with
  | zero => exact ⟨offset, rfl⟩
  | succ n ih =>
    rw [Sbunix.compareLoop, h.fgetc]
    dsimp only
    cases hleft : (tree.inode node).stop - offset with
    | zero => exact ⟨_, rfl⟩
    | succ left =>
      obtain ⟨last, hrest⟩ := @ih (offset + 1)
      rw [show (tree.inode node).stop - (offset + 1) = left by omega] at hrest
      rw [show min 1 (left + 1) = 1 by omega, fileBytes_succ, List.headD_cons,
        List.take_succ_cons, List.takeWhile_cons]
      by_cases hc : mem offset = 10 ∨ mem offset = 0
      · exact ⟨_, by rw [if_pos hc, if_neg (by simp [hc])]⟩
      · exact ⟨last, by rw [if_neg hc, hrest, if_pos (by simp [hc])]⟩

/-- The second loop takes its turns for the bytes of the file. -/
theorem scriptLoop (hturns : (tree.inode node).stop - offset < turns) : ∃ last,
    scriptLoop mem tree fd buff turns (p.withFile fd ⟨offset, node⟩) s =
      some (Script.loop (fileBytes mem offset ((tree.inode node).stop - offset)) s,
        p.withFile fd ⟨last, node⟩) := by
  induction turns generalizing offset s with
  | zero => exact absurd hturns (Nat.not_lt_zero _)
  | succ turns ih =>
    rw [Sbunix.scriptLoop, h.fgetc]
    dsimp only
    cases hleft : (tree.inode node).stop - offset with
    | zero => exact ⟨_, rfl⟩
    | succ left =>
      obtain ⟨last, hrest⟩ := @ih (offset + 1) (s.turn (mem offset)) (by omega)
      rw [show (tree.inode node).stop - (offset + 1) = left by omega] at hrest
      rw [show min 1 (left + 1) = 1 by omega, fileBytes_succ, List.headD_cons, Script.loop]
      by_cases hc : mem offset = 0
      · exact ⟨_, by rw [if_pos hc, if_pos hc]⟩
      · exact ⟨last, by rw [if_neg hc, if_neg hc, hrest]⟩

end Readable

/-- An `fopen` that succeeds finds a node and gives a descriptor at its first byte. -/
theorem fopen_readable {path : List UInt8} (hs : tree.Bounded)
    (hopen : fopen tree p path = some (fd, p')) (hnode : tree.getInode path = some node) :
    Readable tree p fd node ∧ p' = p.withFile fd ⟨(tree.inode node).start, node⟩ := by
  unfold fopen kOpen at hopen
  rw [hnode] at hopen
  dsimp only at hopen
  by_cases hdir : tree.isDir node = true
  · rw [if_pos hdir] at hopen
    cases hopen
  · rw [if_neg hdir] at hopen
    cases hfree : freeFd p with
    | none =>
      rw [hfree] at hopen
      cases hopen
    | some free =>
      rw [hfree] at hopen
      have hrange := List.mem_range'_1.mp (List.mem_of_find?_eq_some hfree)
      have hmax : maxFd = 20 := rfl
      have hok : free ≠ fileError := by
        unfold fileError
        omega
      dsimp only at hopen
      rw [if_neg hok] at hopen
      obtain ⟨rfl, rfl⟩ := Prod.mk.inj (Option.some.inj hopen)
      have hentry : p.fd[free]? = some none := by
        unfold freeFd at hfree
        simpa using List.find?_some hfree
      exact ⟨⟨hrange.1, by omega, hentry, (hs node).2⟩, rfl⟩

namespace Script

/-! One line -/

theorem turn_comment {c : UInt8} (ht : s.t = true) (hc : c ≠ 10) : s.turn c = s := by
  have hsame : (if c = 35 then { s with t := true } else s) = s := by
    split
    · exact ht ▸ rfl
    · rfl
  unfold turn
  rw [hsame, if_neg hc, if_neg (by simp [ht])]

theorem loop_comment (ht : s.t = true) (h10 : 10 ∉ line) (h0 : 0 ∉ line) :
    loop (line ++ rest) s = loop rest s := by
  induction line with
  | nil => rfl
  | cons c line ih =>
    rw [List.mem_cons, not_or] at h10 h0
    rw [List.cons_append, loop, if_neg (Ne.symm h0.1), turn_comment ht (Ne.symm h10.1)]
    exact ih h10.2 h0.2

theorem loop_hash : loop (35 :: line) s = loop line { s with t := true } := by
  have hturn : s.turn 35 = { s with t := true } := by
    unfold turn
    rw [if_pos rfl, if_neg (by decide)]
    rfl
  rw [loop, if_neg (by decide), hturn]

/-- The state behind characters of a line: without a `#` they are kept, and otherwise `t` is
set. -/
structure Reads (text : List UInt8) (s s' : Script) : Prop where
  calls : s'.calls = s.calls
  t : s'.t = decide (35 ∈ text)
  k : 35 ∉ text → s'.k = s.k + text.length
  before : 35 ∉ text → ∀ i < s.k, s'.cmd i = s.cmd i
  chars : 35 ∉ text → ∀ (i : Nat) (h : i < text.length), s'.cmd (s.k + i : Nat) = text[i]

theorem loop_reads (rest : List UInt8) (ht : s.t = false) (h10 : 10 ∉ line) (h0 : 0 ∉ line) :
    ∃ s', loop (line ++ rest) s = loop rest s' ∧ Reads line s s' := by
  induction line generalizing s with
  | nil =>
    refine ⟨s, rfl, rfl, ht, fun _ => rfl, fun _ _ _ => rfl, fun _ i hi => ?_⟩
    exact absurd hi (Nat.not_lt_zero i)
  | cons c line ih =>
    rw [List.mem_cons, not_or] at h10 h0
    by_cases hc : c = 35
    · subst hc
      have hmem : (35 : UInt8) ∈ 35 :: line := List.mem_cons_self
      rw [List.cons_append, loop_hash, loop_comment rfl h10.2 h0.2]
      refine ⟨_, rfl, rfl, (decide_eq_true hmem).symm, ?_, ?_, ?_⟩
      all_goals exact fun hno => absurd hmem hno
    · have hturn : s.turn c = { s.store s.k c with k := s.k + 1 } := by
        unfold turn
        rw [if_neg hc, if_neg (Ne.symm h10.1), if_pos ht]
      rw [List.cons_append, loop, if_neg (Ne.symm h0.1), hturn]
      obtain ⟨s', hloop, hs⟩ := ih (s := { s.store s.k c with k := s.k + 1 }) ht h10.2 h0.2
      have hmem : 35 ∈ c :: line ↔ 35 ∈ line := by
        rw [List.mem_cons]
        exact or_iff_right (Ne.symm hc)
      refine ⟨s', hloop, hs.calls, hs.t.trans (decide_eq_decide.mpr hmem.symm), ?_, ?_, ?_⟩
      all_goals rw [hmem]
      · intro hno
        rw [hs.k hno, List.length_cons]
        dsimp only
        omega
      · intro hno i hi
        rw [hs.before hno i (Nat.lt_succ_of_lt hi)]
        exact Function.update_of_ne (by omega) _ _
      · intro hno i hi
        cases i with
        | zero =>
          rw [Nat.add_zero, hs.before hno s.k (Nat.lt_succ_self _)]
          exact Function.update_self _ _ _
        | succ i =>
          have hat := hs.chars hno i (Nat.lt_of_succ_lt_succ hi)
          dsimp only at hat
          rw [show s.k + (i + 1) = s.k + 1 + i by omega, hat]
          rfl

/-- What `Execute` is called with at the end of a line. -/
def lineCalls (line : List UInt8) : List (List UInt8) :=
  if line = [] ∨ 35 ∈ line then [] else [line.dropLast]

/-- The text in `cmd` at the end of a line is the line without its last character. -/
theorem cString_endLine {s' : Script} (hs : Reads line s s') (hk : s.k = 0) (hne : line ≠ [])
    (hno : 35 ∉ line) (h0 : 0 ∉ line) :
    cString (fun i => (s'.store (s'.k - 1) 0).cmd i) s'.k 0 = line.dropLast := by
  have hpos := List.length_pos_iff.mpr hne
  have hlen : s'.k = line.length := by
    rw [hs.k hno, hk, Nat.zero_add]
  rw [hlen]
  apply cString_eq
  · rw [List.length_dropLast]
    omega
  · exact fun hmem => h0 (List.dropLast_subset line hmem)
  · intro i hi
    rw [List.length_dropLast] at hi
    rw [Nat.zero_add]
    unfold store
    dsimp only
    by_cases hlast : i = line.length - 1
    · rw [List.getD_append_right _ _ _ _ (by rw [List.length_dropLast]; omega),
        List.length_dropLast, hlast, Nat.sub_self,
        show ((line.length - 1 : Nat) : Int) = (line.length : Int) - 1 by omega]
      exact Function.update_self _ _ _
    · have hlt : i < line.length := by omega
      have hat := hs.chars hno i hlt
      rw [hk, Nat.zero_add] at hat
      rw [Function.update_of_ne (by omega), hat,
        List.getD_append _ _ _ _ (by rw [List.length_dropLast]; omega),
        List.getD_eq_getElem _ _ (by rw [List.length_dropLast]; omega), List.getElem_dropLast]

theorem loop_line (rest : List UInt8) (hk : s.k = 0) (ht : s.t = false) (h10 : 10 ∉ line)
    (h0 : 0 ∉ line) :
    ∃ s', loop (line ++ 10 :: rest) s = loop rest s' ∧ s'.k = 0 ∧ s'.t = false ∧
      s'.calls = s.calls ++ lineCalls line := by
  obtain ⟨s', hloop, hs⟩ := loop_reads (10 :: rest) ht h10 h0
  have hend : loop (10 :: rest) s' = loop rest s'.endLine := by
    rw [loop, if_neg (by decide)]
    rfl
  refine ⟨s'.endLine, hloop.trans hend, rfl, rfl, ?_⟩
  unfold endLine lineCalls
  by_cases hkept : line = [] ∨ 35 ∈ line
  · have hnot : ¬ ((s'.store (s'.k - 1) 0).t = false ∧ 0 < (s'.store (s'.k - 1) 0).k) := by
      rintro ⟨hfalse, hpos⟩
      have hno : 35 ∉ line := of_decide_eq_false (hs.t.symm.trans hfalse)
      have hlen : 0 < s.k + line.length := (hs.k hno).symm ▸ hpos
      rw [hkept.resolve_right hno, hk] at hlen
      exact absurd hlen (by decide)
    dsimp only
    rw [if_neg hnot, if_pos hkept, List.append_nil]
    exact hs.calls
  · obtain ⟨hne, hno⟩ := not_or.mp hkept
    have hrun : (s'.store (s'.k - 1) 0).t = false ∧ 0 < (s'.store (s'.k - 1) 0).k := by
      refine ⟨hs.t.trans (decide_eq_false hno), ?_⟩
      have hpos := List.length_pos_iff.mpr hne
      have hlen := hs.k hno
      exact Nat.lt_of_lt_of_eq (by omega) hlen.symm
    dsimp only
    rw [if_pos hrun, if_neg hkept]
    exact congrArg₂ (fun calls text => calls ++ [text]) hs.calls
      (cString_endLine hs hk hne hno h0)

/-! All lines -/

/-- The calls of a whole script: the last line, which nothing ends, adds none. -/
theorem loop_calls (hk : s.k = 0) (ht : s.t = false) (h0 : 0 ∉ file) :
    (loop file s).calls = s.calls ++ (endedLines 10 file).flatMap lineCalls := by
  induction file using lines_induction (10 : UInt8) generalizing s with
  | last file h10 =>
    obtain ⟨s', hloop, hs⟩ := loop_reads [] ht h10 h0
    rw [List.append_nil] at hloop
    rw [hloop, endedLines_last h10, List.flatMap_nil, List.append_nil]
    exact hs.calls
  | line line rest h10 ih =>
    rw [List.mem_append, List.mem_cons, not_or, not_or] at h0
    obtain ⟨s', hloop, hk', ht', hcalls⟩ := loop_line rest hk ht h10 h0.1
    rw [hloop, ih hk' ht' h0.2.2, hcalls, endedLines_line h10, List.flatMap_cons,
      List.append_assoc]

/-! The stores -/

theorem stores_turn (c : UInt8) : s.stores <+: (s.turn c).stores := by
  unfold turn endLine
  dsimp only
  split_ifs
  all_goals first | exact List.prefix_rfl | exact List.prefix_append s.stores _

theorem stores_loop : s.stores <+: (loop file s).stores := by
  induction file generalizing s with
  | nil => exact List.prefix_rfl
  | cons c file ih =>
    rw [loop]
    split
    · exact List.prefix_rfl
    · exact (stores_turn c).trans ih

/-- A comment that is ended stores in front of `cmd`. -/
theorem loop_comment_stores (hk : s.k = 0) (h10 : 10 ∉ line) (h0 : 0 ∉ line)
    (hhead : line.head? = some 35) : -1 ∈ (loop (line ++ 10 :: rest) s).stores := by
  cases line with
  | nil => cases hhead
  | cons c line =>
    obtain rfl : c = 35 := Option.some.inj hhead
    rw [List.mem_cons, not_or] at h10 h0
    rw [List.cons_append, loop_hash, loop_comment rfl h10.2 h0.2, loop, if_neg (by decide)]
    apply stores_loop.subset
    have hend : (turn { s with t := true } 10).stores = s.stores ++ [(s.k : Int) - 1] := rfl
    rw [hend, hk]
    exact List.mem_append_right _ List.mem_cons_self

end Script

/-! The lines that should run -/

/-- What a line that is ended should add. -/
def lineCommands (line : List UInt8) : List (List UInt8) :=
  [lineText line].filter fun text => decide (IsCommand text)

theorem scriptCommands_eq : scriptCommands file = (endedLines 10 file).flatMap lineCommands ++
    [lastLine 10 file].filter fun text => decide (IsCommand text) := by
  unfold scriptCommands scriptLines
  rw [List.filter_append]
  congr 1
  induction endedLines 10 file with
  | nil => rfl
  | cons line lines ih =>
    rw [List.flatMap_cons, ← ih]
    unfold lineCommands
    rw [← List.filter_append]
    rfl

theorem lineText_head (line : List UInt8) :
    lineText line = [] ∨ (lineText line).head? = line.head? := by
  unfold lineText
  split
  · match line with
    | [] => exact Or.inl rfl
    | [c] => exact Or.inl rfl
    | c :: d :: line => exact Or.inr rfl
  · exact Or.inr rfl

theorem mem_lineCommands : text ∈ lineCommands line ↔ text = lineText line ∧ IsCommand text := by
  unfold lineCommands
  rw [List.mem_filter, List.mem_singleton, decide_eq_true_eq]

theorem lineCommands_of_not (h : ¬ IsCommand (lineText line)) : lineCommands line = [] := by
  unfold lineCommands
  rw [List.filter_singleton, decide_eq_false h]
  rfl

theorem lineCommands_of (h : IsCommand (lineText line)) : lineCommands line = [lineText line] := by
  unfold lineCommands
  rw [List.filter_singleton, decide_eq_true h]
  rfl

theorem lineText_subset (line : List UInt8) : lineText line ⊆ line := by
  unfold lineText
  split
  · exact List.dropLast_subset line
  · exact List.Subset.refl line

theorem mem_lineText (hmem : 35 ∈ line) : 35 ∈ lineText line := by
  unfold lineText
  split
  · rename_i hlast
    rw [← List.dropLast_append_getLast? 13 hlast, List.mem_append, List.mem_singleton] at hmem
    exact hmem.resolve_right (by decide)
  · exact hmem

/-- A line with a `#` behind its first character is a command all the same. -/
theorem isCommand_lineText (hhead : line.head? ≠ some 35) (hmem : 35 ∈ line) :
    IsCommand (lineText line) := by
  have hne : lineText line ≠ [] := List.ne_nil_of_mem (mem_lineText hmem)
  refine ⟨hne, ?_⟩
  rw [(lineText_head line).resolve_left hne]
  exact hhead

theorem lineCalls_eq_iff : Script.lineCalls line = lineCommands line ↔ RunsAsWritten line := by
  unfold Script.lineCalls
  constructor
  · intro h
    by_cases hne : line = []
    · exact Or.inl hne
    by_cases hhead : line.head? = some 35
    · exact Or.inr (Or.inl hhead)
    by_cases hmem : 35 ∈ line
    · rw [if_pos (Or.inr hmem), lineCommands_of (isCommand_lineText hhead hmem)] at h
      exact absurd h (List.cons_ne_nil _ _).symm
    · rw [if_neg (by simp [hne, hmem])] at h
      have htext : line.dropLast ∈ lineCommands line := h ▸ List.mem_singleton_self _
      obtain ⟨heq, hcommand⟩ := mem_lineCommands.mp htext
      unfold lineText at heq
      split at heq
      · rename_i hlast
        have hline := List.dropLast_append_getLast? 13 hlast
        exact Or.inr (Or.inr ⟨line.dropLast, hline.symm, hcommand.1,
          fun h35 => hmem (List.dropLast_subset line h35)⟩)
      · have hlen := congrArg List.length heq
        have hpos := List.length_pos_iff.mpr hne
        rw [List.length_dropLast] at hlen
        omega
  · rintro (rfl | hhead | ⟨text, rfl, hne, h35⟩)
    · rfl
    · have hmem : 35 ∈ line := List.mem_of_mem_head? hhead
      rw [if_pos (Or.inr hmem), lineCommands_of_not]
      rintro ⟨hne, htext⟩
      rw [(lineText_head line).resolve_left hne] at htext
      exact htext hhead
    · have htext : lineText (text ++ [13]) = text := by
        unfold lineText
        rw [List.getLast?_concat, if_pos rfl, List.dropLast_concat]
      have hcommand : IsCommand (lineText (text ++ [13])) := by
        rw [htext]
        exact ⟨hne, fun hhead => h35 (List.mem_of_mem_head? hhead)⟩
      rw [if_neg (by simp [h35]), lineCommands_of hcommand, htext, List.dropLast_concat]

theorem notMem_lineCalls (h : text ∈ Script.lineCalls line) : 35 ∉ text := by
  unfold Script.lineCalls at h
  split at h
  · cases h
  · rename_i hkept
    rw [List.mem_singleton.mp h]
    exact fun h35 => hkept (Or.inr (List.dropLast_subset line h35))

theorem nil_notMem_lineCommands : [] ∉ lineCommands line :=
  fun h => (mem_lineCommands.mp h).2.1 rfl

/-- A line adds as many calls as it should, if those it adds are not empty and those it should add
have no `#`. -/
theorem length_lineCalls (hne : [] ∉ Script.lineCalls line)
    (hno : ∀ text ∈ lineCommands line, 35 ∉ text) :
    (Script.lineCalls line).length = (lineCommands line).length := by
  unfold Script.lineCalls at hne ⊢
  by_cases hkept : line = [] ∨ 35 ∈ line
  · rw [if_pos hkept, lineCommands_of_not]
    intro hcommand
    rcases hkept with rfl | h35
    · exact hcommand.1 rfl
    · exact hno (lineText line) (mem_lineCommands.mpr ⟨rfl, hcommand⟩) (mem_lineText h35)
  · rw [if_neg hkept] at hne ⊢
    have hcommand : IsCommand (lineText line) := by
      refine ⟨fun hnil => ?_, fun hhead => ?_⟩
      · unfold lineText at hnil
        split at hnil
        · exact hne (hnil ▸ List.mem_singleton_self _)
        · exact hkept (Or.inl hnil)
      · exact hkept (Or.inr (lineText_subset line (List.mem_of_mem_head? hhead)))
    rw [lineCommands_of hcommand]
    rfl

/-- The calls are the right ones only if every line adds what it should. -/
theorem flatMap_lineCalls_eq_iff {lines : List (List UInt8)} {last : List UInt8} :
    lines.flatMap Script.lineCalls = lines.flatMap lineCommands ++
        [last].filter (fun text => decide (IsCommand text)) ↔
      (∀ line ∈ lines, RunsAsWritten line) ∧ ¬ IsCommand last := by
  constructor
  · intro h
    -- no call has a `#` and no command is empty, so neither is any of the other side
    have hno : ∀ line ∈ lines, ∀ text ∈ lineCommands line, 35 ∉ text := by
      intro line hline text htext
      have hmem : text ∈ lines.flatMap Script.lineCalls := by
        rw [h]
        exact List.mem_append_left _ (List.mem_flatMap.mpr ⟨line, hline, htext⟩)
      obtain ⟨other, -, hother⟩ := List.mem_flatMap.mp hmem
      exact notMem_lineCalls hother
    have hne : ∀ line ∈ lines, [] ∉ Script.lineCalls line := by
      intro line hline hempty
      have hmem : [] ∈ lines.flatMap lineCommands ++
          [last].filter (fun text => decide (IsCommand text)) := by
        rw [← h]
        exact List.mem_flatMap.mpr ⟨line, hline, hempty⟩
      rcases List.mem_append.mp hmem with hmem | hmem
      · obtain ⟨other, -, hother⟩ := List.mem_flatMap.mp hmem
        exact nil_notMem_lineCommands hother
      · exact (of_decide_eq_true (List.mem_filter.mp hmem).2).1 rfl
    obtain ⟨hlines, hlast⟩ := blocks_eq
      (fun line hline => length_lineCalls (hne line hline) (hno line hline))
      ((List.append_nil _).trans h)
    refine ⟨fun line hline => lineCalls_eq_iff.mp (hlines line hline), fun hcommand => ?_⟩
    rw [List.filter_singleton, decide_eq_true hcommand] at hlast
    exact absurd hlast (List.cons_ne_nil _ _).symm
  · rintro ⟨hlines, hlast⟩
    rw [List.filter_singleton, decide_eq_false hlast, cond_false, List.append_nil]
    exact List.flatMap_congr fun line hline => lineCalls_eq_iff.mpr (hlines line hline)

/-! The whole call -/

/-- A script is its first line alone, or a comment that is ended and more. -/
theorem IsScript.cases (h : IsScript file) : file = shebang ∨
    ∃ line rest, file = line ++ 10 :: rest ∧ 10 ∉ line ∧ shebang <+: line := by
  have hfirst := h.first
  unfold scriptLines at hfirst
  by_cases hmem : 10 ∈ file
  · obtain ⟨line, rest, rfl, h10⟩ := List.eq_append_cons_of_mem hmem
    rw [endedLines_line h10, List.map_cons, List.cons_append, List.head?_cons] at hfirst
    refine Or.inr ⟨line, rest, rfl, h10, ?_⟩
    rw [← Option.some.inj hfirst]
    unfold lineText
    split
    · exact List.dropLast_prefix line
    · exact List.prefix_rfl
  · rw [endedLines_last hmem, lastLine_last hmem] at hfirst
    exact Or.inl (Option.some.inj hfirst)

theorem IsScript.begins (h : IsScript file) : shebang <+: file := by
  rcases h.cases with rfl | ⟨line, rest, rfl, -, hpre⟩
  · exact List.prefix_rfl
  · exact hpre.trans (List.prefix_append _ _)

section

variable {t : Tarfs} {currentDir path : List UInt8} {cmd : Int → UInt8}

/-- A script is recognised, and the loop runs over it. -/
theorem executeAbsBinary_script (hs : tree.Bounded)
    (hopen : fopen tree p (currentDir ++ path.drop 2) = some (fd, p'))
    (hnode : tree.getInode (currentDir ++ path.drop 2) = some node)
    (hfile : fileBytes mem (tree.inode node).start
      ((tree.inode node).stop - (tree.inode node).start) = file)
    (hscript : IsScript file) (hturns : file.length < turns) :
    executeAbsBinary mem tree p buff turns currentDir path cmd =
      some (1, Script.loop file ⟨cmd, 0, false, [], []⟩, p) := by
  obtain ⟨hr, rfl⟩ := fopen_readable hs hopen hnode
  rw [← hfile, length_fileBytes] at hturns
  obtain ⟨first, hcompare⟩ : ∃ first, compareLoop mem tree fd buff 18
      (p.withFile fd ⟨(tree.inode node).start, node⟩) = (_, p.withFile fd ⟨first, node⟩) :=
    hr.compareLoop
  obtain ⟨last, hloop⟩ : ∃ last, scriptLoop mem tree fd buff turns
      (p.withFile fd ⟨(tree.inode node).start, node⟩) ⟨cmd, 0, false, [], []⟩ =
        some (_, p.withFile fd ⟨last, node⟩) :=
    hr.scriptLoop hturns
  rw [hfile] at hcompare hloop
  obtain ⟨rest, hrest⟩ := hscript.begins
  have hfirst : ((file.take 18).takeWhile fun c => decide (¬ (c = 10 ∨ c = 0))) = shebang := by
    rw [← hrest]
    rfl
  unfold executeAbsBinary
  dsimp only
  rw [hopen]
  dsimp only
  rw [hcompare, hfirst]
  dsimp only
  rw [if_pos (by decide), hr.fclose, hopen]
  dsimp only
  rw [hloop, Option.map_some, hr.fclose]

/-- What the two loops come to, for a script. -/
theorem loop_runsLines_iff (hscript : IsScript file) :
    ((Script.loop file ⟨cmd, 0, false, [], []⟩).RunsLines file ↔ 10 ∉ file) ∧
      ((Script.loop file ⟨cmd, 0, false, [], []⟩).calls = scriptCommands file ↔
        (∀ line ∈ endedLines 10 file, RunsAsWritten line) ∧ ¬ IsCommand (lastLine 10 file)) := by
  have hcalls : (Script.loop file ⟨cmd, 0, false, [], []⟩).calls = _ :=
    Script.loop_calls rfl rfl hscript.noNul
  refine ⟨⟨?_, fun h10 => ?_⟩, ?_⟩
  · rintro ⟨-, hstores⟩
    rcases hscript.cases with rfl | ⟨line, rest, rfl, h10, hpre⟩
    · decide
    · have h0 : 0 ∉ line := fun hmem => hscript.noNul (List.mem_append_left _ hmem)
      have hhead : line.head? = some 35 := by
        obtain ⟨more, rfl⟩ := hpre
        rfl
      have hstore := hstores (-1) (Script.loop_comment_stores rfl h10 h0 hhead)
      exact absurd hstore.1 (by decide)
  · rcases hscript.cases with rfl | ⟨line, rest, rfl, -, -⟩
    · have hbody : Script.loop (shebang.tail ++ []) ⟨cmd, 0, true, [], []⟩ =
          Script.loop [] ⟨cmd, 0, true, [], []⟩ :=
        Script.loop_comment rfl (by decide) (by decide)
      have hloop : Script.loop (35 :: shebang.tail) ⟨cmd, 0, false, [], []⟩ =
          ⟨cmd, 0, true, [], []⟩ := by
        rw [Script.loop_hash, ← List.append_nil shebang.tail, hbody, Script.loop]
      rw [show shebang = 35 :: shebang.tail from rfl, hloop]
      exact ⟨rfl, fun i hi => absurd hi List.not_mem_nil⟩
    · exact absurd (List.mem_append_right line List.mem_cons_self) h10
  · rw [hcalls, scriptCommands_eq, List.nil_append]
    exact flatMap_lineCalls_eq_iff

/-- `ExecuteAbsBinary` of a script that it can open comes to an end and leaves the descriptors as
they were. It runs the script line by line, with no store outside `cmd`, if nothing is ended in it:
it is its first line alone then. Apart from the stores, `Execute` is called as it should if every
line that is ended is empty, a comment, or a command without a `#` before `"\r\n"`, and no command
is left unended. -/
theorem executeAbsBinary_runsLines_iff {fuel : Nat} (ht : t.initTarfs fuel = some tree)
    (hopen : fopen tree p (currentDir ++ path.drop 2) = some (fd, p'))
    (hnode : tree.getInode (currentDir ++ path.drop 2) = some node)
    (hfile : fileBytes mem (tree.inode node).start
      ((tree.inode node).stop - (tree.inode node).start) = file)
    (hscript : IsScript file) (hturns : file.length < turns) :
    ∃ s, executeAbsBinary mem tree p buff turns currentDir path cmd = some (1, s, p) ∧
      (s.RunsLines file ↔ 10 ∉ file) ∧
      (s.calls = scriptCommands file ↔
        (∀ line ∈ endedLines 10 file, RunsAsWritten line) ∧ ¬ IsCommand (lastLine 10 file)) :=
  ⟨_, executeAbsBinary_script (Tarfs.initTarfs_bounded ht) hopen hnode hfile hscript hturns,
    loop_runsLines_iff hscript⟩

end

/-- The archive of a script `s` of `size` bytes. -/
def scriptTarfs (size : Nat) : Tarfs where
  start := 0xFFFFFFFF80270000
  count := 4
  header := fun i => [⟨[115], octal 11 size, 48⟩].getD i.toNat ⟨[], [], 0⟩

/-- The memory with the bytes of the script. -/
def scriptMem (file : List UInt8) (a : Nat) : UInt8 := file.getD (a - 0xFFFFFFFF80270200) 0

theorem fileBytes_scriptMem : fileBytes (scriptMem file) 0xFFFFFFFF80270200 file.length = file := by
  refine List.ext_getElem length_fileBytes fun i hi hi' => ?_
  simp [fileBytes, scriptMem, hi']

/-- The first process opens the script at descriptor 2. -/
theorem scriptTarfs_opens (hsize : n = 22 ∨ n = 23) : ∃ tree p',
    (scriptTarfs n).initTarfs 5 = some tree ∧ fopen tree Pcb.zero [47, 115] = some (2, p') ∧
      tree.getInode [47, 115] = some 1 ∧ (tree.inode 1).start = 0xFFFFFFFF80270200 ∧
      (tree.inode 1).stop = 0xFFFFFFFF80270200 + n := by
  have hsome : ((scriptTarfs n).initTarfs 5).isSome := by
    rcases hsize with rfl | rfl <;> decide
  have hopens : ((fopen (((scriptTarfs n).initTarfs 5).get hsome) Pcb.zero [47, 115]).map
      Prod.fst) = some 2 := by
    rcases hsize with rfl | rfl <;> decide +revert
  obtain ⟨⟨fd, p'⟩, hopen, rfl⟩ := Option.map_eq_some_iff.mp hopens
  refine ⟨_, p', (Option.some_get hsome).symm, hopen, ?_⟩
  clear hopen
  rcases hsize with rfl | rfl <;> decide +revert

/-- The script with the one command `ls`. -/
def lsScript : List UInt8 := shebang ++ [10, 108, 115, 13, 10]

/-- The first process runs it: `Execute` gets `ls`, and there are stores outside `cmd`. -/
theorem executeAbsBinary_runsLines_ls : ∃ tree s, (scriptTarfs 23).initTarfs 5 = some tree ∧
    executeAbsBinary (scriptMem lsScript) tree Pcb.zero 0x402000 24 [47] [46, 47, 115]
      (fun _ => 0) = some (1, s, Pcb.zero) ∧
    s.calls = [[108, 115]] ∧ ¬ s.RunsLines lsScript := by
  obtain ⟨tree, p', ht, hopen, hnode, hstart, hstop⟩ := scriptTarfs_opens (.inr rfl)
  have hfile : fileBytes (scriptMem lsScript) (tree.inode 1).start
      ((tree.inode 1).stop - (tree.inode 1).start) = lsScript := by
    rw [hstart, hstop, Nat.add_sub_cancel_left]
    exact fileBytes_scriptMem
  have hscript : IsScript lsScript := ⟨by decide, by decide, by decide⟩
  obtain ⟨s, hrun, hlines, hcalls⟩ : ∃ s, executeAbsBinary (scriptMem lsScript) tree Pcb.zero
      0x402000 24 [47] [46, 47, 115] (fun _ => 0) = some (1, s, Pcb.zero) ∧ _ :=
    executeAbsBinary_runsLines_iff ht hopen hnode hfile hscript (by decide)
  have hended : endedLines 10 lsScript = [shebang, [108, 115] ++ [13]] := by decide
  have hwritten : ∀ line ∈ endedLines 10 lsScript, RunsAsWritten line := by
    rw [hended]
    simp only [List.mem_cons, List.not_mem_nil, or_false, forall_eq_or_imp, forall_eq]
    exact ⟨.inr (.inl rfl), .inr (.inr ⟨[108, 115], rfl, by decide, by decide⟩)⟩
  have hcommands : scriptCommands lsScript = [[108, 115]] := by decide
  exact ⟨tree, s, ht, hrun, (hcalls.mpr ⟨hwritten, by decide⟩).trans hcommands,
    fun h => absurd (hlines.mp h) (by decide)⟩

/-- The same with the line that `'\n'` alone ends. -/
def cutScript : List UInt8 := shebang ++ [10, 108, 115, 10]

/-- `Execute` is called with `l` then, and the first line stores in front of `cmd`. -/
theorem executeAbsBinary_cuts : IsScript cutScript ∧ scriptCommands cutScript = [[108, 115]] ∧
    ∃ tree s, (scriptTarfs 22).initTarfs 5 = some tree ∧
      executeAbsBinary (scriptMem cutScript) tree Pcb.zero 0x402000 23 [47] [46, 47, 115]
        (fun _ => 0) = some (1, s, Pcb.zero) ∧
      s.calls = [[108]] ∧ ¬ s.RunsLines cutScript := by
  have hscript : IsScript cutScript := ⟨by decide, by decide, by decide⟩
  have hcommands : scriptCommands cutScript = [[108, 115]] := by decide
  obtain ⟨tree, p', ht, hopen, hnode, hstart, hstop⟩ := scriptTarfs_opens (.inl rfl)
  have hfile : fileBytes (scriptMem cutScript) (tree.inode 1).start
      ((tree.inode 1).stop - (tree.inode 1).start) = cutScript := by
    rw [hstart, hstop, Nat.add_sub_cancel_left]
    exact fileBytes_scriptMem
  have hrun : executeAbsBinary (scriptMem cutScript) tree Pcb.zero 0x402000 23 [47] [46, 47, 115]
      (fun _ => 0) = _ :=
    executeAbsBinary_script (Tarfs.initTarfs_bounded ht) hopen hnode hfile hscript (by decide)
  have hcalls : (Script.loop cutScript ⟨fun _ => 0, 0, false, [], []⟩).calls = [[108]] := by decide
  refine ⟨hscript, hcommands, tree, _, ht, hrun, hcalls, fun h => ?_⟩
  have heq := h.1
  rw [hcalls, hcommands] at heq
  exact absurd heq (by decide)

end Sbunix
