import Mathlib.Algebra.Ring.Int.Defs
import Mathlib.Order.Bounds.Basic
import Sbunix.Sys.Sleep

/-!
# When `sleep` returns

`sleep` compares for equality and takes the value 0 for a clock it has not read, so it returns
when a call finds exactly the first value other than 0 plus the seconds.
-/

namespace Sbunix

variable {clock : ℕ → UInt64} {seconds : UInt32} {n k calls : ℕ} {s : SleepState}

/-! ## The state of the loop -/

/-- What `time` holds after `n` turns. -/
def lastTime (clock : ℕ → UInt64) : ℕ → UInt64
  | 0 => 0
  | n + 1 => clock n

theorem lastTime_eq_zero (h : ∀ k < n, clock k = 0) : lastTime clock n = 0 := by
  cases n with
  | zero => rfl
  | succ m => exact h m (Nat.lt_succ_self m)

/-- After `n` turns `time` is the last value and `start` the first one that is not 0. -/
structure SleepInv (clock : ℕ → UInt64) (n : ℕ) (s : SleepState) : Prop where
  time : s.time = lastTime clock n
  start : s.start = 0 ∧ (∀ k < n, clock k = 0) ∨
    ∃ k < n, IsLeast (startedCalls clock) k ∧ s.start = clock k

theorem SleepInv.initial (clock : ℕ → UInt64) : SleepInv clock 0 ⟨0, 0⟩ where
  time := rfl
  start := Or.inl ⟨rfl, fun k hk => absurd hk (Nat.not_lt_zero k)⟩

theorem SleepInv.turn (h : SleepInv clock n s) : SleepInv clock (n + 1) (sleepTurn clock n s) where
  time := rfl
  start := by
    rcases h.start with ⟨h0, hzero⟩ | ⟨k, hk, hleast, hstart⟩
    · have hturn : (sleepTurn clock n s).start = clock n := if_pos h0
      by_cases hn : clock n = 0
      · refine Or.inl ⟨hturn.trans hn, fun k hk => ?_⟩
        rcases Nat.lt_succ_iff_lt_or_eq.mp hk with hk | rfl
        · exact hzero k hk
        · exact hn
      · refine Or.inr ⟨n, Nat.lt_succ_self n, ⟨hn, fun k hk => ?_⟩, hturn⟩
        by_contra hlt
        exact hk (hzero k (by omega))
    · have hne : s.start ≠ 0 := hstart ▸ hleast.1
      exact Or.inr ⟨k, by omega, hleast, (if_neg hne).trans hstart⟩

theorem sleepState_inv (clock : ℕ → UInt64) (n : ℕ) : SleepInv clock n (sleepState clock n) :=
  pollState_invariant (SleepInv.initial clock) (fun _ _ h => h.turn) n

theorem slept_iff_toNat (h : s.start ≤ s.time) :
    s.slept seconds ↔ s.time.toNat = s.start.toNat + seconds.toNat := by
  have hle : s.start.toNat ≤ s.time.toNat := UInt64.le_iff_toNat_le.mp h
  have hsub : (s.time - s.start).toNat = s.time.toNat - s.start.toNat :=
    UInt64.toNat_sub_of_le _ _ h
  have hseconds : seconds.toUInt64.toNat = seconds.toNat := UInt32.toNat_toUInt64 seconds
  rw [SleepState.slept, ← UInt64.toNat_inj, hsub, hseconds]
  omega

/-- The loop ends at a call that gives the first value other than 0 plus the seconds. -/
theorem sleepState_slept_iff (hclock : NonDecreasing clock) (hsec : 1 ≤ seconds.toNat) :
    (sleepState clock n).slept seconds ↔ ∃ m k, n = m + 1 ∧ IsLeast (startedCalls clock) k ∧
      (clock m).toNat = (clock k).toNat + seconds.toNat := by
  have hinv := sleepState_inv clock n
  rcases hinv.start with ⟨hstart, hzero⟩ | ⟨k, hk, hleast, hstart⟩
  · -- Every value so far is 0, and so is the difference.
    have htime : (sleepState clock n).time = 0 := hinv.time.trans (lastTime_eq_zero hzero)
    have hle : (sleepState clock n).start ≤ (sleepState clock n).time := by
      rw [hstart, htime]
      exact UInt64.le_refl 0
    rw [slept_iff_toNat hle, hstart, htime, UInt64.toNat_zero]
    constructor
    · intro h
      omega
    · rintro ⟨m, k, rfl, -, h⟩
      rw [hzero m (Nat.lt_succ_self m), UInt64.toNat_zero] at h
      omega
  · obtain ⟨m, rfl⟩ : ∃ m, n = m + 1 := Nat.exists_eq_add_one.mpr (by omega)
    have htime : (sleepState clock (m + 1)).time = clock m := hinv.time
    have hle : (sleepState clock (m + 1)).start ≤ (sleepState clock (m + 1)).time := by
      rw [hstart, htime]
      exact UInt64.le_iff_toNat_le.mpr (hclock (Nat.le_of_lt_succ hk))
    rw [slept_iff_toNat hle, hstart, htime]
    constructor
    · intro h
      exact ⟨m, k, rfl, hleast, h⟩
    · rintro ⟨m', k', hm, hleast', h⟩
      obtain rfl : m = m' := Nat.succ_injective hm
      rwa [hleast.unique hleast']

/-! ## What `sleep` returns -/

theorem sleep_eq_some {fuel : ℕ} {ret : UInt32} : sleep clock seconds fuel = some (calls, ret) ↔
    ∃ s, pollLoop (sleepTurn clock) (SleepState.slept seconds) fuel 0 ⟨0, 0⟩ = some (calls, s) ∧
      ret = (s.time - s.start).toUInt32 := by
  constructor
  · intro h
    obtain ⟨⟨calls, s⟩, hloop, heq⟩ := Option.bind_eq_some_iff.mp h
    obtain ⟨rfl, rfl⟩ := Prod.mk.inj (Option.some.inj heq)
    exact ⟨s, hloop, rfl⟩
  · rintro ⟨s, hloop, rfl⟩
    exact Option.bind_eq_some_iff.mpr ⟨(calls, s), hloop, rfl⟩

theorem sleepReturns_iff : SleepReturns clock seconds calls ↔
    IsLeast {n | (sleepState clock n).slept seconds} calls := by
  constructor
  · rintro ⟨fuel, ret, h⟩
    obtain ⟨s, hloop, -⟩ := sleep_eq_some.mp h
    exact (pollLoop_iff_isLeast.mp ⟨fuel, hloop⟩).2
  · intro h
    obtain ⟨fuel, hloop⟩ := pollLoop_iff_isLeast.mpr ⟨rfl, h⟩
    exact ⟨fuel, _, sleep_eq_some.mpr ⟨_, hloop, rfl⟩⟩

/-- `sleep` returns the seconds it was given. -/
theorem sleep_ret {fuel : ℕ} {ret : UInt32} (h : sleep clock seconds fuel = some (calls, ret)) :
    ret = seconds := by
  obtain ⟨s, hloop, rfl⟩ := sleep_eq_some.mp h
  obtain ⟨rfl, hslept, -⟩ := pollLoop_iff_isLeast.mp ⟨fuel, hloop⟩
  have hdiff : (sleepState clock calls).time - (sleepState clock calls).start = seconds.toUInt64 :=
    hslept
  exact (congrArg UInt64.toUInt32 hdiff).trans (UInt32.toUInt32_toUInt64 seconds)

/-- The last value it has read is the first one other than 0 plus the seconds. -/
theorem sleepReturns_value (hclock : NonDecreasing clock) (hsec : 1 ≤ seconds.toNat)
    (h : SleepReturns clock seconds calls) : ∃ m k, calls = m + 1 ∧
      IsLeast (startedCalls clock) k ∧ (clock m).toNat = (clock k).toNat + seconds.toNat :=
  (sleepState_slept_iff hclock hsec).mp (sleepReturns_iff.mp h).1

theorem startedCalls_zero (h0 : clock 0 ≠ 0) : IsLeast (startedCalls clock) 0 :=
  ⟨h0, fun k _ => Nat.zero_le k⟩

/-- A call at which the loop ends finds the time up. -/
theorem timeIsUp_of_eq (hclock : NonDecreasing clock)
    (h : (clock n).toNat = (clock k).toNat + seconds.toNat) : n ∈ timeIsUp clock seconds := by
  have hfirst : (clock 0).toNat ≤ (clock k).toNat := hclock (Nat.zero_le k)
  show (clock 0).toNat + seconds.toNat ≤ (clock n).toNat
  omega

/-- `sleep` never returns before a call has found the time up. -/
theorem sleepReturns_timeIsUp (hclock : NonDecreasing clock) (hsec : 1 ≤ seconds.toNat)
    (h : SleepReturns clock seconds calls) : ∃ n, calls = n + 1 ∧ n ∈ timeIsUp clock seconds := by
  obtain ⟨n, k, rfl, -, heq⟩ := sleepReturns_value hclock hsec h
  exact ⟨n, rfl, timeIsUp_of_eq hclock heq⟩

theorem SleepsOnTime.fits (hclock : NonDecreasing clock) (hsec : 1 ≤ seconds.toNat)
    (h : SleepsOnTime clock seconds) : SleepFits clock seconds := by
  intro n hn
  have hreturns : SleepReturns clock seconds (n + 1) := (h (n + 1)).mpr ⟨n, rfl, hn⟩
  obtain ⟨m, k, hm, hleast, heq⟩ := sleepReturns_value hclock hsec hreturns
  obtain rfl : n = m := Nat.succ_injective hm
  exact ⟨k, hleast, heq⟩

/-- Where it fits, the loop ends behind the first call that finds the time up. -/
theorem SleepFits.slept (hclock : NonDecreasing clock) (hsec : 1 ≤ seconds.toNat)
    (h : SleepFits clock seconds) (hn : IsLeast (timeIsUp clock seconds) n) :
    (sleepState clock (n + 1)).slept seconds := by
  obtain ⟨k, hleast, heq⟩ := h n hn
  exact (sleepState_slept_iff hclock hsec).mpr ⟨n, k, rfl, hleast, heq⟩

theorem SleepFits.onTime (hclock : NonDecreasing clock) (hsec : 1 ≤ seconds.toNat)
    (h : SleepFits clock seconds) : SleepsOnTime clock seconds := by
  intro calls
  rw [sleepReturns_iff]
  constructor
  · rintro ⟨hslept, hleast⟩
    obtain ⟨m, k, rfl, -, heq⟩ := (sleepState_slept_iff hclock hsec).mp hslept
    have hm : m ∈ timeIsUp clock seconds := timeIsUp_of_eq hclock heq
    obtain ⟨n, hn⟩ : ∃ n, IsLeast (timeIsUp clock seconds) n :=
      ⟨_, Set.Nonempty.isLeast_natFind ⟨m, hm⟩⟩
    -- The loop has not gone on behind the first such call.
    have hend : m + 1 ≤ n + 1 := hleast (h.slept hclock hsec hn)
    exact ⟨m, rfl, hm, fun i hi => (Nat.le_of_succ_le_succ hend).trans (hn.2 hi)⟩
  · rintro ⟨n, rfl, hn⟩
    refine ⟨h.slept hclock hsec hn, fun i hi => ?_⟩
    obtain ⟨m, k, rfl, -, heq⟩ := (sleepState_slept_iff hclock hsec).mp hi
    exact Nat.succ_le_succ (hn.2 (timeIsUp_of_eq hclock heq))

/-- A program that has read a value other than 0 first sleeps for the right time or for ever. -/
theorem sleep_onTime_or_never (hclock : NonDecreasing clock) (hsec : 1 ≤ seconds.toNat)
    (h0 : clock 0 ≠ 0) :
    SleepsOnTime clock seconds ∨ ∀ calls, ¬ SleepReturns clock seconds calls := by
  have hfirst := startedCalls_zero h0
  by_cases hex : ∃ calls, SleepReturns clock seconds calls
  · obtain ⟨calls, hreturns⟩ := hex
    obtain ⟨m, k, rfl, hleast, heq⟩ := sleepReturns_value hclock hsec hreturns
    obtain rfl : 0 = k := hfirst.unique hleast
    refine Or.inl (SleepFits.onTime hclock hsec fun n hn => ⟨0, hfirst, ?_⟩)
    have hup : (clock 0).toNat + seconds.toNat ≤ (clock n).toNat := hn.1
    have hnm : n ≤ m := hn.2 (timeIsUp_of_eq hclock heq)
    have hle : (clock n).toNat ≤ (clock m).toNat := hclock hnm
    omega
  · exact Or.inr fun calls h => hex ⟨calls, h⟩

/-- A program that reads every value of the clock from the first one on sleeps for the right
time. -/
theorem sleepsOnTime_of_polled (hclock : NonDecreasing clock) (hsec : 1 ≤ seconds.toNat)
    (h0 : clock 0 ≠ 0) (hpoll : ∀ n, (clock (n + 1)).toNat ≤ (clock n).toNat + 1) :
    SleepsOnTime clock seconds := by
  refine SleepFits.onTime hclock hsec fun n hn => ⟨0, startedCalls_zero h0, ?_⟩
  have hup : (clock 0).toNat + seconds.toNat ≤ (clock n).toNat := hn.1
  cases n with
  | zero => omega
  | succ m =>
    have hbefore : (clock m).toNat < (clock 0).toNat + seconds.toNat := by
      by_contra hge
      have hle : m + 1 ≤ m := hn.2 (not_lt.mp hge)
      omega
    have hstep := hpoll m
    omega

/-! ## The kernel's clock -/

/-- The timer interrupts until the milliseconds no longer fit an `int`. -/
def clockEnd : ℕ := 20 * 2147484

/-- After `n` interrupts, 20 of them a second. -/
structure ClockInv (n : ℕ) (c : Clock) : Prop where
  time : c.time.toInt = 1000 * (n / 20 : ℕ)
  fracTime : c.fracTime.toInt = 50 * (n % 20 : ℕ)
  timeInSec : c.timeInSec.toInt = (n / 20 : ℕ)

theorem ClockInv.boot : ClockInv 0 Clock.boot := ⟨rfl, rfl, rfl⟩

theorem Clock.timemama_full {c : Clock} (h : c.fracTime + 50 = 1000) :
    c.timemama = ⟨c.time + 1000, 0, (c.time + 1000) / 1000⟩ := by
  rw [Clock.timemama, h, if_pos rfl]

theorem Clock.timemama_part {c : Clock} (h : c.fracTime + 50 ≠ 1000) :
    c.timemama = { c with fracTime := c.fracTime + 50 } :=
  if_neg h

/-- A sum of two `int`s that fits. -/
theorem toInt_sum {a b : Int32} (ha : 0 ≤ a.toInt) (hb : 0 ≤ b.toInt)
    (h : a.toInt + b.toInt < 2 ^ 31) : (a + b).toInt = a.toInt + b.toInt := by
  rw [Int32.toInt_add]
  exact Int.bmod_eq_of_le (by omega) (by omega)

theorem ClockInv.timemama {c : Clock} (h : ClockInv n c) (hn : n + 1 < clockEnd) :
    ClockInv (n + 1) c.timemama := by
  obtain ⟨htime, hfrac, hsec⟩ := h
  unfold clockEnd at hn
  have h50 : (50 : Int32).toInt = 50 := rfl
  have h1000 : (1000 : Int32).toInt = 1000 := rfl
  have hadd : (c.fracTime + 50).toInt = 50 * (n % 20 : ℕ) + 50 := by
    rw [toInt_sum (by omega) (by omega) (by omega), hfrac, h50]
  by_cases hfull : c.fracTime + 50 = 1000
  · -- The last 50 ms of a second.
    rw [hfull, h1000] at hadd
    have hsum : (c.time + 1000).toInt = 1000 * ((n + 1) / 20 : ℕ) := by
      rw [toInt_sum (by omega) (by omega) (by omega), htime, h1000]
      omega
    have hdiv : ((c.time + 1000) / 1000).toInt = ((n + 1) / 20 : ℕ) := by
      rw [Int32.toInt_div_of_ne_right _ _ (by decide), hsum, h1000,
        Int.mul_tdiv_cancel_left _ (by decide)]
    have hzero : (0 : Int32).toInt = 50 * ((n + 1) % 20 : ℕ) := by
      rw [Int32.toInt_zero]
      omega
    rw [Clock.timemama_full hfull]
    exact ⟨hsum, hzero, hdiv⟩
  · have hne : (c.fracTime + 50).toInt ≠ 1000 := fun h =>
      hfull (Int32.toInt_inj.mp (h.trans h1000.symm))
    rw [Clock.timemama_part hfull]
    refine ⟨?_, ?_, ?_⟩
    · show c.time.toInt = 1000 * ((n + 1) / 20 : ℕ)
      omega
    · show (c.fracTime + 50).toInt = 50 * ((n + 1) % 20 : ℕ)
      omega
    · show c.timeInSec.toInt = ((n + 1) / 20 : ℕ)
      omega

theorem clockAfter_inv (hn : n < clockEnd) : ClockInv n (clockAfter n) := by
  induction n with
  | zero => exact ClockInv.boot
  | succ n ih =>
    rw [clockAfter, Function.iterate_succ_apply']
    exact (ih (by omega)).timemama hn

/-- The system call gives the whole seconds since the start. -/
theorem syscallTime_clockAfter (hn : n < clockEnd) :
    (syscallTime (clockAfter n)).toNat = n / 20 := by
  have hsec : (clockAfter n).timeInSec.toInt64.toInt = (n / 20 : ℕ) :=
    (Int32.toInt_toInt64 _).trans (clockAfter_inv hn).timeInSec
  have hnonneg : 0 ≤ (clockAfter n).timeInSec.toInt64 := by
    rw [Int64.le_iff_toInt_le, hsec, Int64.toInt_zero]
    omega
  rw [syscallTime, Int64.toNat_toUInt64_of_le hnonneg, ← Int64.toNat_toInt, hsec]
  exact Int.toNat_natCast _

theorem clockReads_nonDecreasing {ticks : ℕ → ℕ} (hticks : Monotone ticks)
    (hroom : ∀ n, ticks n < clockEnd) : NonDecreasing (clockReads ticks) := by
  intro n m hnm
  show (clockReads ticks n).toNat ≤ (clockReads ticks m).toNat
  rw [clockReads, clockReads, syscallTime_clockAfter (hroom n), syscallTime_clockAfter (hroom m)]
  exact Nat.div_le_div_right (hticks hnm)

/-- A program that is never kept from the processor for more than a second sleeps for the right
time, once the clock has started. -/
theorem sleepsOnTime_of_ticks {ticks : ℕ → ℕ} (hticks : Monotone ticks)
    (hroom : ∀ n, ticks n < clockEnd) (hstarted : 20 ≤ ticks 0)
    (hpoll : ∀ n, ticks (n + 1) ≤ ticks n + 20) (hsec : 1 ≤ seconds.toNat) :
    SleepsOnTime (clockReads ticks) seconds := by
  have hvalue : ∀ n, (clockReads ticks n).toNat = ticks n / 20 := fun n =>
    syscallTime_clockAfter (hroom n)
  refine sleepsOnTime_of_polled (clockReads_nonDecreasing hticks hroom) hsec (fun h0 => ?_) ?_
  · have hzero := hvalue 0
    rw [h0, UInt64.toNat_zero] at hzero
    omega
  · intro n
    have hstep := hpoll n
    rw [hvalue, hvalue]
    omega

/-! ## When `sleep` is right -/

/-- The readings of a program that makes its first call after `first` timer interrupts and all
later ones after `later`. -/
def twoReads (first later : ℕ) : ℕ → UInt64 := clockReads fun n => if n = 0 then first else later

theorem twoReads_toNat {first later : ℕ} (h : first ≤ later) (hroom : later < clockEnd) (n : ℕ) :
    (twoReads first later n).toNat = if n = 0 then first / 20 else later / 20 := by
  rw [twoReads, clockReads]
  split
  next => exact syscallTime_clockAfter (by omega)
  next => exact syscallTime_clockAfter hroom

theorem twoReads_nonDecreasing {first later : ℕ} (h : first ≤ later) (hroom : later < clockEnd) :
    NonDecreasing (twoReads first later) := by
  refine clockReads_nonDecreasing (fun n m hnm => ?_) fun n => ?_
  · split <;> split <;> omega
  · split <;> omega

/-- With two readings `sleep` returns only if they differ by the seconds and the first is not
0. -/
theorem twoReads_returns {first later : ℕ} (h : first ≤ later) (hroom : later < clockEnd)
    (hsec : 1 ≤ seconds.toNat) (hreturns : SleepReturns (twoReads first later) seconds calls) :
    first / 20 ≠ 0 ∧ later / 20 = first / 20 + seconds.toNat := by
  have hclock := twoReads_nonDecreasing h hroom
  obtain ⟨m, k, -, hleast, heq⟩ := sleepReturns_value hclock hsec hreturns
  have hle : first / 20 ≤ later / 20 := Nat.div_le_div_right h
  have hk : (twoReads first later k).toNat ≠ 0 := fun h0 =>
    hleast.1 (UInt64.toNat_inj.mp (h0.trans UInt64.toNat_zero.symm))
  rw [twoReads_toNat h hroom] at hk
  rw [twoReads_toNat h hroom, twoReads_toNat h hroom] at heq
  split at heq <;> split at heq
  next => omega
  next => omega
  next hk0 =>
    rw [if_pos hk0] at hk
    exact ⟨hk, heq⟩
  next => omega

/-- The second reading finds the time up. -/
theorem twoReads_timeIsUp {first later : ℕ} (hroom : later < clockEnd) (hsec : 1 ≤ seconds.toNat)
    (hup : first / 20 + seconds.toNat ≤ later / 20) :
    IsLeast (timeIsUp (twoReads first later) seconds) 1 := by
  have hvalue : ∀ n, (twoReads first later n).toNat = if n = 0 then first / 20 else later / 20 :=
    twoReads_toNat (by omega) hroom
  refine ⟨?_, fun n hn => ?_⟩
  · show (twoReads first later 0).toNat + seconds.toNat ≤ (twoReads first later 1).toNat
    rwa [hvalue, hvalue]
  · have hn : (twoReads first later 0).toNat + seconds.toNat ≤ (twoReads first later n).toNat := hn
    by_contra h0
    obtain rfl : n = 0 := by omega
    omega

/-- It does not end the loop where it is more than the seconds behind the first one, or the
first one is 0. -/
theorem twoReads_missed {first later : ℕ} (hroom : later < clockEnd) (hsec : 1 ≤ seconds.toNat)
    (hup : first / 20 + seconds.toNat ≤ later / 20)
    (hmiss : first / 20 = 0 ∨ later / 20 ≠ first / 20 + seconds.toNat) :
    (∀ calls, ¬ SleepReturns (twoReads first later) seconds calls) ∧
      ¬ SleepsOnTime (twoReads first later) seconds := by
  have hnever : ∀ calls, ¬ SleepReturns (twoReads first later) seconds calls := by
    intro calls hreturns
    obtain ⟨h0, heq⟩ := twoReads_returns (by omega) hroom hsec hreturns
    exact hmiss.elim h0 fun hne => hne heq
  exact ⟨hnever, fun h => hnever 2 ((h 2).mpr ⟨1, rfl, twoReads_timeIsUp hroom hsec hup⟩)⟩

/-- The clock goes from 1 to 3 between the two readings, or from 0 to 1: a second is over at the
second call, and `sleep` goes on for ever. -/
theorem sleep_second_missed :
    (NonDecreasing (twoReads 20 60) ∧ IsLeast (timeIsUp (twoReads 20 60) 1) 1 ∧
      (∀ calls, ¬ SleepReturns (twoReads 20 60) 1 calls) ∧ ¬ SleepsOnTime (twoReads 20 60) 1) ∧
    NonDecreasing (twoReads 0 20) ∧ IsLeast (timeIsUp (twoReads 0 20) 1) 1 ∧
      (∀ calls, ¬ SleepReturns (twoReads 0 20) 1 calls) ∧ ¬ SleepsOnTime (twoReads 0 20) 1 := by
  refine ⟨⟨?_, ?_, ?_⟩, ?_, ?_, ?_⟩
  · exact twoReads_nonDecreasing (by decide) (by decide)
  · exact twoReads_timeIsUp (by decide) (by decide) (by decide)
  · exact twoReads_missed (by decide) (by decide) (by decide) (by decide)
  · exact twoReads_nonDecreasing (by decide) (by decide)
  · exact twoReads_timeIsUp (by decide) (by decide) (by decide)
  · exact twoReads_missed (by decide) (by decide) (by decide) (by decide)

/-- Exactly when `sleep` returns on time. -/
theorem sleepsOnTime_iff_fits (hclock : NonDecreasing clock) (hsec : 1 ≤ seconds.toNat) :
    SleepsOnTime clock seconds ↔ SleepFits clock seconds :=
  ⟨fun h => h.fits hclock hsec, fun h => h.onTime hclock hsec⟩

theorem sleepsOnTime_one_second : SleepsOnTime (twoReads 20 40) 1 := by
  have hvalue : ∀ n, (twoReads 20 40 n).toNat = if n = 0 then 1 else 2 :=
    twoReads_toNat (by decide) (by decide)
  have hclock : NonDecreasing (twoReads 20 40) := twoReads_nonDecreasing (by decide) (by decide)
  refine (sleepsOnTime_iff_fits hclock (by decide)).mpr fun n hn => ⟨0, startedCalls_zero ?_, ?_⟩
  · intro h0
    have h := hvalue 0
    rw [h0] at h
    exact absurd h (by decide)
  · obtain rfl : n = 1 := hn.unique (twoReads_timeIsUp (by decide) (by decide) (by decide))
    rw [hvalue, hvalue]
    rfl

end Sbunix
