import Sbunix.Misc.Reach
import Sbunix.Sys.Proofs.LineInput
import Sbunix.Sys.Proofs.PrintNumber
import Sbunix.Sys.Proofs.Sleep
import Sbunix.Sys.Proofs.TextArea
import Sbunix.Sys.Proofs.WriteShows
import Sbunix.Sys.StatusLine

/-!
# The clock and the text

The timer's interrupts and everything else that reaches the screen go on side by side: neither
sees the other.
-/

namespace Sbunix

variable {c c' : Console} {i n p : Nat} {v ch : UInt8} {text text' : List UInt8}
  {screen str : Nat → UInt8} {calls : List FlushCall} {s s' : Tty} {l : DisplayLabel}

/-! ## Cells -/

theorem withCells_nil : withCells screen p [] = screen := by
  funext i
  unfold withCells
  rw [List.length_nil, if_neg (by omega)]

theorem withCells_cons : withCells (Function.update (Function.update screen p ch) (p + 1) 7) (p + 2)
    text = withCells screen p (ch :: text) := by
  funext i
  unfold withCells
  rw [List.length_cons]
  by_cases hrest : p + 2 ≤ i ∧ i < p + 2 + 2 * text.length
  · have hin : p ≤ i ∧ i < p + 2 * (text.length + 1) := by omega
    rw [if_pos hrest, if_pos hin, show (i - p) / 2 = (i - (p + 2)) / 2 + 1 by omega,
      show (i - p) % 2 = (i - (p + 2)) % 2 by omega, List.getD_cons_succ]
  · rw [if_neg hrest]
    by_cases hcolour : i = p + 1
    · rw [hcolour, Function.update_self, if_pos (by omega), if_neg (by omega)]
    · rw [Function.update_of_ne hcolour]
      by_cases hchar : i = p
      · rw [hchar, Function.update_self, if_pos (by omega), Nat.sub_self, if_pos rfl]
        rfl
      · rw [Function.update_of_ne hchar, if_neg (by omega)]

theorem writeCells_eq : writeCells text p screen =
    (p + 2 * text.length, withCells screen p text) := by
  induction text generalizing p screen with
  | nil => rw [withCells_nil, writeCells, List.length_nil, Nat.mul_zero, Nat.add_zero]
  | cons ch text ih =>
    rw [writeCells, ih, withCells_cons, List.length_cons, Nat.mul_succ, Nat.add_assoc,
      Nat.add_comm 2]

/-- Cells that are written in two goes. -/
theorem withCells_append :
    withCells (withCells screen p text) (p + 2 * text.length) text' =
      withCells screen p (text ++ text') := by
  induction text generalizing p screen with
  | nil => rw [withCells_nil, List.length_nil, List.nil_append, Nat.mul_zero, Nat.add_zero]
  | cons ch text ih =>
    rw [List.cons_append, ← withCells_cons, ← withCells_cons, ← ih, List.length_cons, Nat.mul_succ,
      Nat.add_assoc, Nat.add_comm (2 * text.length)]

/-- A text that is not shorter covers another one. -/
theorem withCells_withCells (h : text.length ≤ text'.length) :
    withCells (withCells screen p text) p text' = withCells screen p text' := by
  funext i
  unfold withCells
  by_cases hin : p ≤ i ∧ i < p + 2 * text'.length
  · rw [if_pos hin, if_pos hin]
  · rw [if_neg hin, if_neg hin, if_neg (by omega)]

/-! ## What `flushtime` draws -/

namespace Console

@[simp] theorem showing_nil : c.showing [] = c := by
  unfold showing
  rw [withCells_nil]

theorem showing_showing (h : text.length ≤ text'.length) :
    (c.showing text).showing text' = c.showing text' := by
  unfold showing
  rw [withCells_withCells h]

/-- One more character in the status line. -/
theorem showing_snoc : c.showing (text ++ [ch]) =
    ((c.showing text).withByte (timeAreaStart + 2 * text.length) ch).withByte
      (timeAreaStart + 2 * text.length + 1) 7 := by
  unfold showing withByte
  rw [← withCells_append, ← withCells_cons, withCells_nil]

end Console

theorem firstLine_numeral : firstLine (numeral 10 n) = numeral 10 n := by
  apply List.takeWhile_eq_self_iff.mpr
  intro ch hch
  obtain ⟨d, hd, rfl⟩ := mem_numeral (by decide) hch
  exact decide_eq_true
    ⟨digitChar_ne (by omega) (by decide), digitChar_ne (by omega) (by decide)⟩

theorem Console.flushtime_eq {seconds : Int32} (hsec : seconds.toInt = n) (hn : n ≠ 0) :
    c.flushtime seconds str = c.showing (secStr ++ numeral 10 n) := by
  have hlt : n ≤ 2 ^ 31 := by
    have := seconds.toInt_lt
    omega
  have hdigits := @turnedAround_intDigits n str 1 (.inl rfl) hlt
  rw [Int.one_mul, ← hsec, signedDigits_pos hn] at hdigits
  unfold flushtime showing
  simp only [hdigits, firstLine_numeral, writeCells_eq, withCells_append]

/-! ## What else reaches the screen -/

/-- The status line does not matter to calls that fit. -/
theorem FlushCallsFit.withByte (hc : c.dataWritten ≤ 80 * 24) (h : FlushCallsFit c calls)
    (hi : 160 * 24 ≤ i) : FlushCallsFit (c.withByte i v) calls := by
  induction calls generalizing c with
  | nil => trivial
  | cons call calls ih =>
    obtain ⟨hfits, hrest⟩ := h
    refine ⟨?_, fun c' hs => ?_⟩
    · cases call with
      | flush text | flushcolor text =>
        show (c.withByte i v).checkForScroll.dataWritten + _ ≤ _
        rw [Console.checkForScroll_withByte hi]
        exact hfits
      | flushchar ch | flushbackspace | flushNewLine => trivial
    · have hkeeps : call.run (c.withByte i v) = (call.run c).map (Console.withByte · i v) :=
        FlushCall.keepsByte hc hfits hi v
      rw [hkeeps] at hs
      obtain ⟨c₁, hs₁, rfl⟩ := Option.map_eq_some_iff.mp hs
      exact ih (FlushCall.run_le hc hfits hs₁) (hrest c₁ hs₁)

/-- Calls that fit draw the same whatever the status line shows. -/
theorem FlushCallsFit.showing (hc : c.dataWritten ≤ 80 * 24) (h : FlushCallsFit c calls)
    (text : List UInt8) : FlushCallsFit (c.showing text) calls ∧
      runFlushCalls (c.showing text) calls = (runFlushCalls c calls).map (Console.showing · text) := by
  induction text using List.reverseRecOn with
  | nil =>
    rw [Console.showing_nil]
    refine ⟨h, ?_⟩
    simp only [Console.showing_nil, Option.map_id']
  | append_singleton text ch ih =>
    obtain ⟨hfits, hrun⟩ := ih
    have hi : 160 * 24 ≤ timeAreaStart + 2 * text.length :=
      Nat.le_trans (by decide) (Nat.le_add_right _ _)
    rw [Console.showing_snoc]
    generalize hpos : timeAreaStart + 2 * text.length = i at hi ⊢
    have hroom : ((c.showing text).withByte i ch).dataWritten ≤ 80 * 24 := hc
    have hchar : FlushCallsFit ((c.showing text).withByte i ch) calls :=
      hfits.withByte (c := c.showing text) hc hi
    have hkeeps : runFlushCalls ((c.showing text).withByte i ch) calls =
        (runFlushCalls (c.showing text) calls).map (Console.withByte · i ch) :=
      (hfits.keepsByte (c := c.showing text) hc hi).1 ch
    have hcolour : runFlushCalls (((c.showing text).withByte i ch).withByte (i + 1) 7) calls =
        (runFlushCalls ((c.showing text).withByte i ch) calls).map
          (Console.withByte · (i + 1) 7) :=
      (hchar.keepsByte hroom (Nat.le_succ_of_le hi)).1 7
    refine ⟨hchar.withByte hroom (Nat.le_succ_of_le hi), ?_⟩
    rw [hcolour, hkeeps, hrun, Option.map_map, Option.map_map]
    refine congrArg (Option.map · _) (funext fun c' => ?_)
    rw [Function.comp_apply, Function.comp_apply, Console.showing_snoc, hpos]

/-- Calls without a text. -/
def FlushCall.Plain : FlushCall → Prop
  | .flush _ | .flushcolor _ => False
  | .flushchar _ | .flushbackspace | .flushNewLine => True

theorem fit_of_plain (h : ∀ call ∈ calls, call.Plain) : FlushCallsFit c calls := by
  induction calls generalizing c with
  | nil => trivial
  | cons call calls ih =>
    refine ⟨?_, fun c' _ => ih fun call' hmem => h call' (List.mem_cons_of_mem _ hmem)⟩
    have hplain := h call List.mem_cons_self
    cases call with
    | flush text | flushcolor text => exact hplain.elim
    | flushchar ch | flushbackspace | flushNewLine => trivial

theorem runFlushCalls_append {calls' : List FlushCall} :
    runFlushCalls c (calls ++ calls') = (runFlushCalls c calls).bind (runFlushCalls · calls') := by
  induction calls generalizing c with
  | nil => rfl
  | cons call calls ih =>
    rw [List.cons_append, runFlushCalls, runFlushCalls, Option.bind_assoc]
    exact congrArg _ (funext fun c' => ih)

namespace Tty

/-- What a step draws, and what it makes of the keyboard and the terminal, depends on no screen. -/
def DrawsWith (f : Tty → Option Tty) (s : Tty) (calls : List FlushCall) : Prop :=
  ∃ next : Option (Keyboard × Terminal), ∀ console, f { s with console } =
    next.bind fun kt => (runFlushCalls console calls).map fun console => ⟨console, kt.1, kt.2⟩

theorem drawsWith_nil : DrawsWith some s [] :=
  ⟨some (s.keyboard, s.terminal), fun _ => rfl⟩

/-- The call of `LocalEcho`. -/
def echoCall (s : Tty) (c : UInt8) : FlushCall :=
  if s.keyboard.ctrlKey = false ∧ c = 45 then .flushbackspace else .flushchar c

theorem echoCall_plain : (s.echoCall ch).Plain := by
  unfold echoCall
  split
  · trivial
  · trivial

theorem localEcho_draws : (echoCall s ch).run c =
    some (localEcho { s with console := c } ch).console ∧
      (localEcho { s with console := c } ch).keyboard = { s.keyboard with ctrlKey := false } := by
  obtain ⟨_, ⟨shiftKey, ctrlKey⟩, _⟩ := s
  unfold echoCall localEcho
  cases ctrlKey with
  | true => exact ⟨rfl, rfl⟩
  | false =>
    by_cases hc : ch = 45
    · rw [if_pos ⟨rfl, hc⟩, if_neg Bool.false_ne_true, if_pos hc]
      exact ⟨rfl, rfl⟩
    · rw [if_neg (fun h => hc h.2), if_neg Bool.false_ne_true, if_neg hc]
      exact ⟨rfl, rfl⟩

theorem echoAndTake_draws : DrawsWith (echoAndTake · ch) s [s.echoCall ch] := by
  refine ⟨(s.terminal.takeChar ch).map fun t => ({ s.keyboard with ctrlKey := false }, t),
    fun console => ?_⟩
  obtain ⟨hrun, hkeyboard⟩ := @localEcho_draws console ch s
  unfold echoAndTake
  dsimp only
  rw [localEcho_terminal, runFlushCalls, hrun, Option.bind_some, hkeyboard]
  cases s.terminal.takeChar ch <;> rfl

/-- At the limit the line is closed with a message before the character is taken. -/
theorem limit_draws : DrawsWith
    (fun s => (s.terminal.setStdin s.terminal.stdinlength 0).bind fun t =>
      echoAndTake
        { s with
          console := s.console.kprintf cantSupport
          terminal := { t with readmodeon := false } } ch) s
    ((cantSupport.map fun ch => if ch = 10 then .flushNewLine else .flushchar ch) ++
      [s.echoCall ch]) := by
  have hcalls := @Console.kprintfCalls_plain cantSupport [] (by decide) (by decide)
  cases ht : s.terminal.setStdin s.terminal.stdinlength 0 with
  | none => exact ⟨none, fun console => by simp only [ht, Option.bind_none]⟩
  | some t =>
    obtain ⟨next, hnext⟩ := @echoAndTake_draws ch
      { s with terminal := { t with readmodeon := false } }
    refine ⟨next, fun console => ?_⟩
    have hmessage := @Console.kprintfArgs_plain console cantSupport []
      (by decide) (by decide)
    unfold Console.kprintfArgs at hmessage
    rw [hcalls, Option.bind_some] at hmessage
    simp only [ht, Option.bind_some]
    rw [runFlushCalls_append, hmessage, Option.bind_some]
    exact hnext (console.kprintf cantSupport)

/-- A key draws no text. -/
theorem tunnel_draws : ∃ calls, (∀ call ∈ calls, call.Plain) ∧ DrawsWith (tunnel · ch) s calls := by
  by_cases hc : ch ≠ 35
  · by_cases hoff : s.terminal.readmodeon = false
    · refine ⟨[], List.forall_mem_nil _, some (s.keyboard, s.terminal), fun console => ?_⟩
      unfold tunnel
      dsimp only
      rw [if_pos hc, if_pos hoff]
      rfl
    · by_cases hlimit : 1022 ≤ s.terminal.stdinlength
      · obtain ⟨next, hnext⟩ := @limit_draws ch s
        refine ⟨_, ?_, next, fun console => Eq.trans ?_ (hnext console)⟩
        · intro call hcall
          rcases List.mem_append.mp hcall with hmessage | hecho
          · obtain ⟨c, -, rfl⟩ := List.mem_map.mp hmessage
            split
            · trivial
            · trivial
          · rw [List.mem_singleton.mp hecho]
            exact echoCall_plain
        · unfold tunnel
          dsimp only
          rw [if_pos hc, if_neg hoff, if_pos hlimit]
      · by_cases hempty : s.terminal.stdinlength = 0 ∧ ch = 45
        · refine ⟨[], List.forall_mem_nil _, some (s.keyboard, s.terminal), fun console => ?_⟩
          unfold tunnel
          dsimp only
          rw [if_pos hc, if_neg hoff, if_neg hlimit, if_pos hempty]
          rfl
        · obtain ⟨next, hnext⟩ := @echoAndTake_draws ch s
          refine ⟨_, List.forall_mem_singleton.mpr echoCall_plain, next, fun console =>
            Eq.trans ?_ (hnext console)⟩
          unfold tunnel
          dsimp only
          rw [if_pos hc, if_neg hoff, if_neg hlimit, if_neg hempty]
  · refine ⟨[], List.forall_mem_nil _, some (s.keyboard, s.terminal), fun console => ?_⟩
    unfold tunnel
    dsimp only
    rw [if_neg hc]
    rfl

/-- A step that the text area has room for draws with calls that fit. -/
theorem step_draws (hfit : s.Fits l) : ∃ calls, FlushCallsFit s.console calls ∧
    DrawsWith (step · l) s calls := by
  cases l with
  | call call =>
    cases hcalls : call.flushCalls with
    | none =>
      refine ⟨[], trivial, none, fun console => ?_⟩
      show (ScreenCall.run console call).map _ = none
      rw [ScreenCall.run, hcalls]
      rfl
    | some calls =>
      refine ⟨calls, hfit calls hcalls, some (s.keyboard, s.terminal), fun console => ?_⟩
      show (ScreenCall.run console call).map _ = _
      rw [ScreenCall.run_eq hcalls]
      rfl
  | key inb =>
    obtain ⟨calls, hplain, next, hnext⟩ := @tunnel_draws (s.keyboard.getchar inb).2
      { s with keyboard := (s.keyboard.getchar inb).1 }
    exact ⟨calls, fit_of_plain hplain, next, hnext⟩
  | readBegins => exact ⟨[], trivial, some (s.keyboard, { s.terminal with readmodeon := true }),
      fun console => rfl⟩
  | readEnds m addr =>
    refine ⟨[], trivial, if s.terminal.readmodeon then none
      else (s.terminal.read m addr).map fun r => (s.keyboard, r.2.2), fun console => ?_⟩
    unfold step
    dsimp only
    cases s.terminal.readmodeon with
    | true => rfl
    | false =>
      rw [if_neg Bool.false_ne_true, if_neg Bool.false_ne_true]
      cases s.terminal.read m addr <;> rfl
  | timer str => exact ⟨[], trivial, drawsWith_nil⟩

/-- A step does not see the status line and leaves it alone. -/
theorem step_showing (hroom : s.console.dataWritten ≤ 80 * 24) (hfit : s.Fits l)
    (text : List UInt8) : (s.showing text).step l = (s.step l).map (Tty.showing · text) ∧
      ∀ s', s.step l = some s' → s'.console.dataWritten ≤ 80 * 24 := by
  obtain ⟨calls, hcalls, next, hnext⟩ := step_draws hfit
  have hself : s.step l = next.bind fun kt =>
      (runFlushCalls s.console calls).map fun console => ⟨console, kt.1, kt.2⟩ := hnext s.console
  constructor
  · have hshown : (s.showing text).step l = next.bind fun kt =>
        (runFlushCalls (s.console.showing text) calls).map fun console =>
          ⟨console, kt.1, kt.2⟩ := hnext (s.console.showing text)
    rw [hshown, hself, (hcalls.showing hroom text).2, Option.map_bind]
    refine congrArg next.bind (funext fun kt => ?_)
    rw [Function.comp_apply, Option.map_map, Option.map_map]
    rfl
  · intro s' hs
    rw [hself] at hs
    obtain ⟨kt, -, hs⟩ := Option.bind_eq_some_iff.mp hs
    obtain ⟨c', hc', rfl⟩ := Option.map_eq_some_iff.mp hs
    exact (hcalls.keepsByte hroom (Nat.le_refl _)).2 c' hc'

end Tty

/-! ## The clock -/

theorem length_clockText (h : n ≤ i) : (clockText n).length ≤ (clockText i).length := by
  unfold clockText
  by_cases hn : n < 20
  · rw [if_pos hn]
    exact Nat.zero_le _
  · have hle : n / 20 ≤ i / 20 := Nat.div_le_div_right h
    have hlen := Nat.le_length_digits_le 10 (n / 20) (i / 20) hle
    rw [if_neg hn, if_neg (by omega), List.length_append, List.length_append]
    unfold numeral
    rw [if_neg (by omega), if_neg (by omega), List.length_reverse, List.length_reverse,
      List.length_map, List.length_map]
    omega

/-- One interrupt of the timer. -/
theorem Display.timemama_showing (hn : n + 1 < clockEnd) :
    Display.timemama ⟨s.showing (clockText n), clockAfter n⟩ str =
      ⟨s.showing (clockText (n + 1)), clockAfter (n + 1)⟩ := by
  have hinv := clockAfter_inv (n := n) (by omega)
  have hnext := clockAfter_inv hn
  have hclock : (clockAfter n).timemama = clockAfter (n + 1) := by
    rw [clockAfter, clockAfter, Function.iterate_succ_apply']
  have hfrac : (clockAfter n).fracTime + 50 = 1000 ↔ (n + 1) % 20 = 0 := by
    have h50 : (50 : Int32).toInt = 50 := rfl
    have h1000 : (1000 : Int32).toInt = 1000 := rfl
    have hold := hinv.fracTime
    have hsum : ((clockAfter n).fracTime + 50).toInt = 50 * (n % 20 : ℕ) + 50 := by
      rw [toInt_sum (by omega) (by omega) (by omega), hold, h50]
    rw [← Int32.toInt_inj, hsum, h1000]
    omega
  unfold timemama
  dsimp only
  rw [hclock]
  by_cases hfull : (clockAfter n).fracTime + 50 = 1000
  · have hmod := hfrac.mp hfull
    have hsec : (n + 1) / 20 ≠ 0 := by omega
    rw [if_pos hfull]
    have hdraw : ((s.showing (clockText n)).console.flushtime (clockAfter (n + 1)).timeInSec str) =
        s.console.showing (clockText (n + 1)) := by
      rw [Console.flushtime_eq hnext.timeInSec hsec]
      have htext : clockText (n + 1) = secStr ++ numeral 10 ((n + 1) / 20) :=
        if_neg (by omega)
      rw [← htext]
      exact Console.showing_showing (length_clockText (Nat.le_succ n))
    rw [hdraw]
    rfl
  · have hmod := mt hfrac.mpr hfull
    have htext : clockText (n + 1) = clockText n := by
      unfold clockText
      rw [show (n + 1) / 20 = n / 20 by omega]
      by_cases hlt : n < 20
      · rw [if_pos hlt, if_pos (by omega)]
      · rw [if_neg hlt, if_neg (by omega)]
    rw [if_neg hfull, htext]

/-- One step with the text of the clock in the status line. -/
theorem Display.step_showing {ticks : Nat} (hroom : s.console.dataWritten ≤ 80 * 24)
    (hfit : s.Fits l) (hticks : ticks = n + if l.isTimer then 1 else 0) (hend : ticks < clockEnd) :
    Display.step l ⟨s.showing (clockText n), clockAfter n⟩ =
      (s.step l).map fun s => ⟨s.showing (clockText ticks), clockAfter ticks⟩ := by
  cases l with
  | timer str =>
    obtain rfl : ticks = n + 1 := hticks
    exact congrArg some (timemama_showing hend)
  | call call | key inb | readBegins | readEnds m addr =>
    obtain rfl : ticks = n := hticks
    have hstep := (Tty.step_showing hroom hfit (clockText ticks)).1
    unfold step
    dsimp only
    rw [hstep, Option.map_map]
    rfl

/-- Everything that reaches the screen in whatever order: what is typed and written looks and does
the same as without the timer, and the line behind the text shows the seconds. -/
theorem clock_undisturbing {ls : List DisplayLabel} (hroom : s.console.dataWritten ≤ 80 * 24)
    (hfit : s.AllFit ls) (hend : n + ls.countP (·.isTimer) < clockEnd) :
    runLabels Display.step ls ⟨s.showing (clockText n), clockAfter n⟩ =
      (runLabels (fun l s => s.step l) ls s).map fun s =>
        ⟨s.showing (clockText (n + ls.countP (·.isTimer))),
          clockAfter (n + ls.countP (·.isTimer))⟩ := by
  induction ls generalizing s n with
  | nil => rfl
  | cons l ls ih =>
    obtain ⟨hfirst, hrest⟩ := hfit
    have hcount : n + (l :: ls).countP (·.isTimer) =
        (n + if l.isTimer then 1 else 0) + ls.countP (·.isTimer) := by
      rw [List.countP_cons]
      omega
    rw [hcount] at hend ⊢
    rw [runLabels_cons, runLabels_cons, Display.step_showing hroom hfirst rfl (by omega)]
    cases hs : s.step l with
    | none => rfl
    | some s' =>
      have hroom' := (Tty.step_showing hroom hfirst []).2 s' hs
      exact ih hroom' (hrest s' hs) hend

/-- Steps that fit in any state. -/
theorem Tty.allFit_of_fits {ls : List DisplayLabel} (h : ∀ l ∈ ls, ∀ s : Tty, s.Fits l) :
    s.AllFit ls := by
  induction ls generalizing s with
  | nil => trivial
  | cons l ls ih =>
    exact ⟨h l List.mem_cons_self s, fun s' _ => ih fun l' hl' => h l' (List.mem_cons_of_mem l hl')⟩

/-- An `h` on the screen, one second, and the key of `a` in a `read`. -/
def oneSecond : List DisplayLabel :=
  .call (.flushCall (.flushchar 104)) :: List.replicate 20 (.timer fun _ => 0) ++
    [.readBegins, .key 0x1E]

theorem clock_undisturbing_second :
    (runLabels Display.step oneSecond
      ⟨⟨blankConsole, ⟨false, false⟩, ⟨fun _ => 32, 0, false⟩⟩, Clock.boot⟩).map
        (fun d => [0, 2, 3928, 3950].map d.tty.console.screen) = some [104, 97, 66, 49] := by
  have hfit : Tty.AllFit ⟨blankConsole, ⟨false, false⟩, ⟨fun _ => 32, 0, false⟩⟩ oneSecond := by
    refine Tty.allFit_of_fits fun l hl s => ?_
    rcases List.mem_cons.mp hl with rfl | hl
    · rintro flushCalls ⟨⟩
      exact ⟨trivial, fun _ _ => trivial⟩
    · rcases List.mem_append.mp hl with htimer | hread
      · rw [List.eq_of_mem_replicate htimer]
        trivial
      · rcases List.mem_pair.mp hread with rfl | rfl
        · trivial
        · trivial
  have htext : clockText 20 = secStr ++ [49] := by
    simp [clockText, numeral, digitChar]
  have hrun := clock_undisturbing (n := 0) (by decide) hfit (by decide)
  have hnone : clockText 0 = [] := rfl
  have hcount : 0 + oneSecond.countP (·.isTimer) = 20 := rfl
  rw [hcount, htext, hnone] at hrun
  unfold Tty.showing at hrun
  rw [Console.showing_nil] at hrun
  rw [show Clock.boot = clockAfter 0 from rfl, hrun]
  rfl

end Sbunix
