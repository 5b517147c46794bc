import Mathlib.Data.List.Induction
import Sbunix.Misc.ByteRuns
import Sbunix.Sys.Terminal

/-!
# Lines of input

During a read `stdin` holds the line that the characters make.  Enter puts a NUL behind it; at the
limit the next character is stored over the NUL.
-/

namespace Sbunix

variable {t t' : Terminal} {s s' : Tty} {c : UInt8} {cs : List UInt8} {stdin : Nat → UInt8}
  {m : ByteMem} {addr i n : Nat}

/-! The line -/

@[simp] theorem editLine_nil : editLine [] = [] := rfl

theorem editLine_append_singleton :
    editLine (cs ++ [c]) = if c = 45 then (editLine cs).dropLast else editLine cs ++ [c] := by
  unfold editLine
  rw [List.foldl_append]
  rfl

theorem editLine_eq_self (h : 45 ∉ cs) : editLine cs = cs := by
  induction cs using List.reverseRecOn with
  | nil => rfl
  | append_singleton cs c ih =>
    rw [List.mem_append, not_or, List.mem_singleton] at h
    rw [editLine_append_singleton, if_neg (Ne.symm h.2), ih h.1]

namespace Terminal

/-- What is in the buffer. -/
def contents (t : Terminal) : List UInt8 := (List.range t.stdinlength).map t.stdin

@[simp] theorem length_contents : t.contents.length = t.stdinlength := by
  simp [contents]

theorem contents_append {on : Bool} :
    contents ⟨Function.update t.stdin t.stdinlength c, t.stdinlength + 1, on⟩ =
      t.contents ++ [c] := by
  have hold : ∀ i ∈ List.range t.stdinlength,
      Function.update t.stdin t.stdinlength c i = t.stdin i :=
    fun i hi => Function.update_of_ne (Nat.ne_of_lt (List.mem_range.mp hi)) _ _
  unfold contents
  dsimp only
  rw [List.range_succ, List.map_append, List.map_congr_left hold, List.map_singleton,
    Function.update_self]

theorem contents_delete {on : Bool} :
    contents ⟨Function.update t.stdin t.stdinlength c, t.stdinlength - 1, on⟩ =
      t.contents.dropLast := by
  have hold : ∀ i ∈ List.range (t.stdinlength - 1),
      Function.update t.stdin t.stdinlength c i = t.stdin i := by
    intro i hi
    have := List.mem_range.mp hi
    exact Function.update_of_ne (by omega) _ _
  unfold contents
  dsimp only
  rw [List.map_congr_left hold, ← List.map_dropLast]
  congr 1
  cases t.stdinlength with
  | zero => rfl
  | succ n => rw [List.range_succ, List.dropLast_concat, Nat.add_sub_cancel]

/-- What one character does to the line: Enter ends the read with a NUL. -/
structure Takes (t : Terminal) (c : UInt8) (t' : Terminal) : Prop where
  enter : c = 10 → t'.readmodeon = false ∧ t'.contents = t.contents ++ [0]
  edit : c ≠ 10 → t'.readmodeon = t.readmodeon ∧
    t'.contents = if c = 45 then t.contents.dropLast else t.contents ++ [c]

theorem takeChar_takes (h : t.stdinlength < stdinSize) :
    ∃ t', t.takeChar c = some t' ∧ t.Takes c t' := by
  unfold takeChar setStdin
  by_cases henter : c = 10
  · rw [if_pos henter, if_pos h]
    exact ⟨_, rfl, fun _ => ⟨rfl, contents_append⟩, fun hne => absurd henter hne⟩
  · rw [if_neg henter]
    by_cases hdel : c = 45
    · rw [if_pos hdel, if_pos h]
      refine ⟨_, rfl, fun heq => absurd heq henter, fun _ => ⟨rfl, ?_⟩⟩
      rw [if_pos hdel]
      exact contents_delete
    · rw [if_neg hdel, if_pos h]
      refine ⟨_, rfl, fun heq => absurd heq henter, fun _ => ⟨rfl, ?_⟩⟩
      rw [if_neg hdel]
      exact contents_append

end Terminal

/-! One key -/

namespace Tty

@[simp] theorem localEcho_terminal : (s.localEcho c).terminal = s.terminal := by
  unfold localEcho
  repeat' split
  all_goals rfl

theorem echoAndTake_terminal :
    (s.echoAndTake c).map Tty.terminal = s.terminal.takeChar c := by
  unfold echoAndTake
  rw [Option.map_map, localEcho_terminal]
  exact Option.map_id_apply

/-- What a key does to the terminal while a read waits: at the limit the read ends first, and `-`
does nothing to an empty line. -/
theorem tunnel_terminal (hc : c ≠ 35) (hon : s.terminal.readmodeon = true) :
    (s.tunnel c).map Tty.terminal =
      if 1022 ≤ s.terminal.stdinlength then
        (s.terminal.setStdin s.terminal.stdinlength 0).bind fun t =>
          Terminal.takeChar { t with readmodeon := false } c
      else if s.terminal.stdinlength = 0 ∧ c = 45 then some s.terminal
      else s.terminal.takeChar c := by
  unfold tunnel
  dsimp only
  rw [if_pos hc, if_neg (by simp [hon])]
  split
  · rw [Option.map_bind]
    congr 1
    funext t
    exact echoAndTake_terminal
  · split
    · rfl
    · exact echoAndTake_terminal

end Tty

namespace Terminal

/-- A key while a read waits, with a line that is not longer than the limit. -/
inductive Key (t : Terminal) (c : UInt8) (t' : Terminal) : Prop
  | limit (hlen : t.stdinlength = 1022) (hoff : t'.readmodeon = false)
      (hedit : c ≠ 10 → t'.contents = if c = 45 then t.contents.dropLast else t.contents ++ [c])
      (henter : c = 10 → t'.contents = t.contents ++ [0])
  | empty (hlen : t.stdinlength = 0) (hc : c = 45) (heq : t' = t)
  | take (hlen : t.stdinlength < 1022) (h : t.Takes c t')

end Terminal

/-- What a key can do. -/
theorem Tty.tunnel_key (console : Console) (keyboard : Keyboard) (hc : c ≠ 35)
    (hon : t.readmodeon = true) (hlen : t.stdinlength ≤ 1022) :
    ∃ s, Tty.tunnel ⟨console, keyboard, t⟩ c = some s ∧ t.Key c s.terminal := by
  have hkey : ∃ t', (Tty.tunnel ⟨console, keyboard, t⟩ c).map Tty.terminal = some t' ∧
      t.Key c t' := by
    rw [tunnel_terminal hc hon]
    dsimp only
    split
    · rename_i hlimit
      have hlt : t.stdinlength < stdinSize := Nat.lt_of_le_of_lt hlen (by decide)
      rw [Terminal.setStdin, if_pos hlt, Option.bind_some]
      obtain ⟨t', ht', htakes⟩ := Terminal.takeChar_takes
        (t := ⟨Function.update t.stdin t.stdinlength 0, t.stdinlength, false⟩) (c := c) hlt
      have hsame : Terminal.contents
          ⟨Function.update t.stdin t.stdinlength 0, t.stdinlength, false⟩ = t.contents := by
        refine List.map_congr_left fun i hi => ?_
        exact Function.update_of_ne (Nat.ne_of_lt (List.mem_range.mp hi)) _ _
      refine ⟨t', ht', .limit (by omega) ?_ ?_ ?_⟩
      · by_cases henter : c = 10
        · exact (htakes.enter henter).1
        · exact (htakes.edit henter).1
      · intro hne
        rw [(htakes.edit hne).2, hsame]
      · intro henter
        rw [(htakes.enter henter).2, hsame]
    · rename_i hlimit
      split
      · rename_i hempty
        exact ⟨t, rfl, .empty hempty.1 hempty.2 rfl⟩
      · have hlt : t.stdinlength < stdinSize := Nat.lt_of_le_of_lt hlen (by decide)
        obtain ⟨t', ht', htakes⟩ := Terminal.takeChar_takes (c := c) hlt
        exact ⟨t', ht', .take (by omega) htakes⟩
  obtain ⟨t', ht', hkey⟩ := hkey
  obtain ⟨s, hs, rfl⟩ := Option.map_eq_some_iff.mp ht'
  exact ⟨s, hs, hkey⟩

/-- A key that does not end the read is passed over, or is echoed and taken. -/
theorem Tty.tunnel_on (hc : c ≠ 35) (hon : s.terminal.readmodeon = true)
    (hlen : s.terminal.stdinlength ≤ 1022) (hs : s.tunnel c = some s')
    (hon' : s'.terminal.readmodeon = true) :
    s.terminal.stdinlength = 0 ∧ c = 45 ∧ s' = s ∨
      c ≠ 10 ∧ s.terminal.stdinlength < 1022 ∧ ¬ (s.terminal.stdinlength = 0 ∧ c = 45) ∧
        s.echoAndTake c = some s' ∧ s'.terminal.stdinlength ≤ 1022 := by
  obtain ⟨s'', hs'', hkey⟩ := tunnel_key s.console s.keyboard hc hon hlen
  obtain rfl := Option.some.inj (hs.symm.trans hs'')
  unfold tunnel at hs
  dsimp only at hs
  rw [if_pos hc, if_neg (by simp [hon])] at hs
  cases hkey with
  | limit _ hoff => simp [hoff] at hon'
  | empty hzero hminus =>
    rw [if_neg (by omega), if_pos ⟨hzero, hminus⟩] at hs
    exact Or.inl ⟨hzero, hminus, (Option.some.inj hs).symm⟩
  | take hroom htakes =>
    rw [if_neg (Nat.not_le.mpr hroom)] at hs
    by_cases hdel : s.terminal.stdinlength = 0 ∧ c = 45
    · rw [if_pos hdel] at hs
      exact Or.inl ⟨hdel.1, hdel.2, (Option.some.inj hs).symm⟩
    · have henter : c ≠ 10 := by
        intro henter
        simp [(htakes.enter henter).1] at hon'
      rw [if_neg hdel] at hs
      refine Or.inr ⟨henter, hroom, hdel, hs, ?_⟩
      rw [← Terminal.length_contents, (htakes.edit henter).2]
      split
      · rw [List.length_dropLast, Terminal.length_contents]
        omega
      · rw [List.length_append, Terminal.length_contents, List.length_singleton]
        omega

/-! Runs -/

/-- What a terminal holds after some characters: the line while it waits, and then what the last
character made of it. -/
inductive LineHeld (cs : List UInt8) (t : Terminal) : Prop
  | waits (hon : t.readmodeon = true) (hnl : 10 ∉ cs) (hlen : t.stdinlength ≤ 1022)
      (hline : t.contents = editLine cs)
  | enter (ks : List UInt8) (hcs : cs = ks ++ [10]) (hoff : t.readmodeon = false) (hnl : 10 ∉ ks)
      (hlen : t.stdinlength ≤ 1023) (hline : t.contents = editLine ks ++ [0])
  | limit (ks : List UInt8) (c : UInt8) (hcs : cs = ks ++ [c]) (hc : c ≠ 10)
      (hoff : t.readmodeon = false) (hnl : 10 ∉ ks) (hlen : t.stdinlength ≤ 1023)
      (hline : t.contents = editLine cs)

theorem Delivered.lineHeld (h : Delivered (waiting stdin) cs t) (hcs : ∀ c ∈ cs, c ≠ 35) :
    LineHeld cs t := by
  induction h with
  | nil => exact .waits rfl List.not_mem_nil (Nat.zero_le _) rfl
  | @concat cs c t console keyboard s hd hon hs ih =>
    rw [List.forall_mem_append] at hcs
    cases ih hcs.1 with
    | enter _ _ hoff => simp [hoff] at hon
    | limit _ _ _ _ hoff => simp [hoff] at hon
    | waits _ hnl hlen hline =>
      obtain ⟨s', hs', hkey⟩ :=
        Tty.tunnel_key console keyboard (hcs.2 c (List.mem_singleton_self c)) hon hlen
      obtain rfl := Option.some.inj (hs.symm.trans hs')
      have hcount : s.terminal.stdinlength = s.terminal.contents.length :=
        Terminal.length_contents.symm
      have hbefore : t.contents.length = t.stdinlength := Terminal.length_contents
      cases hkey with
      | empty hzero hc heq =>
        rw [heq]
        refine .waits hon ?_ hlen ?_
        · simp [hnl, hc]
        · have hnil : t.contents = [] := List.eq_nil_of_length_eq_zero (hbefore.trans hzero)
          rw [editLine_append_singleton, if_pos hc, ← hline, hnil]
          rfl
      | limit hfull hoff hedit henter =>
        by_cases hc : c = 10
        · have hnew := henter hc
          rw [hnew, List.length_append, List.length_singleton] at hcount
          exact .enter cs (by rw [hc]) hoff hnl (by omega) (by rw [hnew, hline])
        · have hnew := hedit hc
          refine .limit cs c rfl hc hoff hnl ?_ ?_
          · rw [hcount, hnew]
            split
            · rw [List.length_dropLast]
              omega
            · rw [List.length_append, List.length_singleton]
              omega
          · rw [editLine_append_singleton, ← hline, hnew]
      | take hroom htakes =>
        by_cases hc : c = 10
        · have hnew := htakes.enter hc
          rw [hnew.2, List.length_append, List.length_singleton] at hcount
          exact .enter cs (by rw [hc]) hnew.1 hnl (by omega) (by rw [hnew.2, hline])
        · have hnew := htakes.edit hc
          refine .waits (hnew.1.trans hon) (by simp [hnl, Ne.symm hc]) ?_ ?_
          · rw [hcount, hnew.2]
            split
            · rw [List.length_dropLast]
              omega
            · rw [List.length_append, List.length_singleton]
              omega
          · rw [editLine_append_singleton, ← hline, hnew.2]

/-- No key leads past the end of `stdin`. -/
theorem Delivered.tunnel_isSome (h : Delivered (waiting stdin) cs t) (hcs : ∀ c ∈ cs, c ≠ 35)
    (console : Console) (keyboard : Keyboard) (c : UInt8) :
    (Tty.tunnel ⟨console, keyboard, t⟩ c).isSome := by
  by_cases hc : c = 35
  · rw [hc]
    rfl
  · cases h.lineHeld hcs with
    | waits hon _ hlen =>
      obtain ⟨s, hs, -⟩ := Tty.tunnel_key console keyboard hc hon hlen
      rw [hs]
      rfl
    | enter _ _ hoff => simp [Tty.tunnel, hc, hoff]
    | limit _ _ _ _ hoff => simp [Tty.tunnel, hc, hoff]

/-! What `read` hands over -/

theorem ofNat_charToUint64 : UInt8.ofNat (Terminal.charToUint64 c) = c := by
  unfold Terminal.charToUint64
  split
  · exact UInt8.ofNat_toNat
  · apply UInt8.toNat_inj.mp
    have := c.toNat_lt
    rw [UInt8.toNat_ofNat']
    omega

/-- Each character outlives the stores behind it. -/
theorem load_handOver (hn : n ≤ stdinSize) (hi : i < n) :
    (Terminal.handOver stdin addr n m).load (addr + i) = stdin i := by
  unfold stdinSize at hn
  induction n with
  | zero => omega
  | succ n ih =>
    unfold Terminal.handOver
    by_cases hlast : i = n
    · rw [hlast, ByteMem.storeNumber, ByteMem.storeNumber_other, ByteMem.load_store_same,
        ofNat_charToUint64]
      intro k hk hsame
      rw [Nat.add_assoc] at hsame
      have := ByteMem.sameAddr_add (v := addr + n) (i := 0) (j := 1 + k) (by omega) (by omega) hsame
      omega
    · rw [ByteMem.storeNumber_other, ih (by omega) (by omega)]
      intro k hk hsame
      rw [Nat.add_assoc] at hsame
      have := ByteMem.sameAddr_add (by omega) (by omega) hsame
      omega

theorem Terminal.read_eq (m : ByteMem) (addr : Nat) (h : t.stdinlength ≤ stdinSize) :
    ∃ m' t', t.read m addr = some (m', t.stdinlength, t') ∧
      (List.range t.stdinlength).map (fun i => m'.load (addr + i)) = t.contents := by
  refine ⟨handOver t.stdin addr t.stdinlength m, _, if_pos h, ?_⟩
  exact List.map_congr_left fun i hi => load_handOver h (List.mem_range.mp hi)

/-- A read that is over handed a line over exactly if it ended with Enter. -/
theorem Delivered.handsOverLine_iff (h : Delivered (waiting stdin) cs t)
    (hcs : ∀ c ∈ cs, c ≠ 35) (hoff : t.readmodeon = false) :
    HandsOverLine t cs m addr ↔ cs.getLast? = some 10 := by
  have hhands : t.stdinlength ≤ 1023 →
      (HandsOverLine t cs m addr ↔ t.contents = editLine (cs.filter (· ≠ 10)) ++ [0]) := by
    intro hlen
    obtain ⟨m', t', hread, hbytes⟩ :=
      Terminal.read_eq m addr (Nat.le_trans hlen (by decide))
    constructor
    · rintro ⟨m'', count, t'', hread', hline⟩
      rw [hread] at hread'
      obtain ⟨rfl, rfl, rfl⟩ := Prod.mk.injEq _ _ _ _ ▸ Option.some.inj hread'
      exact hbytes.symm.trans hline
    · intro hline
      exact ⟨m', _, t', hread, hbytes.trans hline⟩
  have hkeep : ∀ ks : List UInt8, 10 ∉ ks → ks.filter (· ≠ 10) = ks := by
    intro ks hnl
    refine List.filter_eq_self.mpr fun c hc => ?_
    simp only [ne_eq, decide_eq_true_eq]
    rintro rfl
    exact hnl hc
  cases h.lineHeld hcs with
  | waits hon => simp [hoff] at hon
  | enter ks hks _ hnl hlen hline =>
    rw [hhands hlen, hline, hks, List.filter_append, hkeep ks hnl]
    simp
  | limit ks c hks hc _ hnl hlen hline =>
    rw [hhands hlen, hline, hks, List.filter_append, hkeep ks hnl]
    simp [hc]

/-- During every read, whatever characters but `#` arrive, no key leads past the end of `stdin`; and
a read that is over hands over the line with one NUL exactly if Enter ended it. -/
theorem read_line_iff (h : Delivered (waiting stdin) cs t) (hcs : ∀ c ∈ cs, c ≠ 35) :
    (∀ console keyboard c, (Tty.tunnel ⟨console, keyboard, t⟩ c).isSome) ∧
      (t.readmodeon = false → ∀ m addr, (t.read m addr).isSome ∧
        (HandsOverLine t cs m addr ↔ cs.getLast? = some 10)) := by
  refine ⟨h.tunnel_isSome hcs, fun hoff m addr => ⟨?_, h.handsOverLine_iff hcs hoff⟩⟩
  have hlen : t.stdinlength ≤ 1023 := by
    cases h.lineHeld hcs with
    | waits _ _ hlen => exact Nat.le_succ_of_le hlen
    | enter _ _ _ _ hlen => exact hlen
    | limit _ _ _ _ _ _ hlen => exact hlen
  obtain ⟨m', t', hread, -⟩ :=
    Terminal.read_eq m addr (Nat.le_trans hlen (by decide))
  rw [hread]
  rfl

/-- A blank screen. -/
def blankConsole : Console := ⟨fun _ => 32, 0, 0, 0, rfl⟩

/-- The characters `h` and Enter. -/
theorem read_line_iff_h : ∃ t, Delivered (waiting fun _ => 32) [104, 10] t ∧
    t.readmodeon = false ∧ (HandsOverLine t [104, 10] (fun _ => 0) 0 ↔
      [104, 10].getLast? = some (10 : UInt8)) := by
  have hh : Delivered (waiting fun _ => 32) [104] _ := Delivered.nil.concat rfl
    (rfl : Tty.tunnel ⟨blankConsole, ⟨false, false⟩, waiting fun _ => 32⟩ 104 = some _)
  have henter : Delivered (waiting fun _ => 32) [104, 10] _ := hh.concat rfl
    (rfl : Tty.tunnel ⟨blankConsole, ⟨false, false⟩, _⟩ 10 = some _)
  exact ⟨_, henter, rfl, ((read_line_iff henter (by simp)).2 rfl _ _).2⟩

/-- Characters below the limit arrive. -/
theorem exists_delivered (stdin : Nat → UInt8) (hlen : cs.length ≤ 1022)
    (hcs : ∀ c ∈ cs, c ≠ 35 ∧ c ≠ 10 ∧ c ≠ 45) :
    ∃ t, Delivered (waiting stdin) cs t ∧ t.readmodeon = true := by
  induction cs using List.reverseRecOn with
  | nil => exact ⟨_, .nil, rfl⟩
  | append_singleton cs c ih =>
    rw [List.forall_mem_append] at hcs
    rw [List.length_append, List.length_singleton] at hlen
    obtain ⟨t, ht, hon⟩ := ih (by omega) hcs.1
    obtain ⟨hhash, hnl, hdel⟩ := hcs.2 c (List.mem_singleton_self c)
    have hplain : 45 ∉ cs := fun hmem => (hcs.1 45 hmem).2.2 rfl
    cases ht.lineHeld fun c hc => (hcs.1 c hc).1 with
    | enter _ _ hoff => simp [hoff] at hon
    | limit _ _ _ _ hoff => simp [hoff] at hon
    | waits _ _ hshort hline =>
      obtain ⟨s, hs, hkey⟩ := Tty.tunnel_key blankConsole ⟨false, false⟩ hhash hon hshort
      refine ⟨_, ht.concat hon hs, ?_⟩
      have hcount : t.stdinlength = cs.length := by
        rw [← Terminal.length_contents, hline, editLine_eq_self hplain]
      cases hkey with
      | limit hfull => omega
      | empty _ hc => exact absurd hc hdel
      | take _ htakes => exact (htakes.edit hnl).1.trans hon

/-- After 1022 characters `a` the character `b` ends the read and is handed over in place of the
NUL. -/
theorem read_at_limit : ∃ t, Delivered (waiting fun _ => 32) (List.replicate 1022 97 ++ [98]) t ∧
    t.readmodeon = false ∧ t.contents = List.replicate 1022 97 ++ [98] ∧
    ∀ m addr, ¬ HandsOverLine t (List.replicate 1022 97 ++ [98]) m addr := by
  have hplain : ∀ c ∈ List.replicate 1022 (97 : UInt8), c ≠ 35 ∧ c ≠ 10 ∧ c ≠ 45 := by
    intro c hc
    rw [List.eq_of_mem_replicate hc]
    decide
  have hhash : ∀ c ∈ List.replicate 1022 (97 : UInt8) ++ [98], c ≠ 35 := by
    rw [List.forall_mem_append]
    exact ⟨fun c hc => (hplain c hc).1, by simp⟩
  have hdel : (45 : UInt8) ∉ List.replicate 1022 97 ++ [98] := by
    rw [List.mem_append, not_or]
    exact ⟨fun hmem => (hplain 45 hmem).2.2 rfl, by decide⟩
  obtain ⟨t, ht, hon⟩ :=
    exists_delivered (fun _ => 32) (Nat.le_of_eq List.length_replicate) hplain
  obtain ⟨s, hs⟩ := Option.isSome_iff_exists.mp
    (ht.tunnel_isSome (fun c hc => (hplain c hc).1) blankConsole ⟨false, false⟩ 98)
  have hd := ht.concat hon hs
  have hline := editLine_eq_self hdel
  refine ⟨_, hd, ?_⟩
  cases hd.lineHeld hhash with
  | waits _ _ hlen hcontents =>
    rw [← Terminal.length_contents, hcontents, hline, List.length_append,
      List.length_replicate] at hlen
    exact absurd hlen (by decide)
  | enter ks hcs =>
    have hlast := congrArg List.getLast? hcs
    rw [List.getLast?_concat, List.getLast?_concat] at hlast
    exact absurd hlast (by decide)
  | limit ks c hcs _ hoff _ _ hcontents =>
    refine ⟨hoff, hcontents.trans hline, fun m addr hhands => ?_⟩
    have hlast := (hd.handsOverLine_iff hhash hoff).mp hhands
    rw [List.getLast?_concat] at hlast
    exact absurd hlast (by decide)

end Sbunix
