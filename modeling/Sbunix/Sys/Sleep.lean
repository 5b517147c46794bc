import Mathlib.Logic.Function.Iterate
import Mathlib.Order.Monotone.Basic
import Sbunix.Misc.Polling

/-!
# The clock and `sleep`

C `timemama` (`sys/yomama.c:47-65`), which counts 50 ms for a timer interrupt, the system
call that reads its seconds, and `sleep` of the C library (`libc/unistd.c:8-38`), which polls
that call.
-/

namespace Sbunix

/-- The variables `time`, `frac_time` and `time_in_sec` (`sys/yomama.c:47-49`). -/
structure Clock where
  time : Int32
  fracTime : Int32
  timeInSec : Int32
  deriving DecidableEq, Repr

/-- The clock of a boot. -/
def Clock.boot : Clock := ⟨0, 0, 0⟩

/-- C `timemama` (lines 51-65). `flushtime` only draws the seconds. -/
def Clock.timemama (c : Clock) : Clock :=
  let fracTime := c.fracTime + 50
  if fracTime = 1000 then
    let time := c.time + fracTime
    ⟨time, 0, time / 1000⟩
  else { c with fracTime }

/-- The clock after a number of timer interrupts. -/
def clockAfter (ticks : ℕ) : Clock := Clock.timemama^[ticks] Clock.boot

/-- C `syscall_time` (`sys/syscall.c:36-39`), call number 56: the `int` as a `uint64_t`. -/
def syscallTime (c : Clock) : UInt64 := c.timeInSec.toInt64.toUInt64

/-- What the call returns that is made after `ticks n` timer interrupts. -/
def clockReads (ticks : ℕ → ℕ) (n : ℕ) : UInt64 := syscallTime (clockAfter (ticks n))

/-- The variables of `sleep`. -/
structure SleepState where
  start : UInt64
  time : UInt64
  deriving DecidableEq, Repr

/-- One turn of the loop of `sleep` (lines 21-31), where `clock n` is what the system call
returns that is made in turn `n`. -/
def sleepTurn (clock : ℕ → UInt64) (n : ℕ) (s : SleepState) : SleepState :=
  let time := clock n
  ⟨if s.start = 0 then time else s.start, time⟩

/-- The variables after `n` turns. -/
def sleepState (clock : ℕ → UInt64) (n : ℕ) : SleepState :=
  pollState (sleepTurn clock) ⟨0, 0⟩ n

/-- The test at the head of the loop (lines 18-19); `seconds` is an `unsigned int`. -/
def SleepState.slept (seconds : UInt32) (s : SleepState) : Prop :=
  s.time - s.start = seconds.toUInt64

instance (seconds : UInt32) : DecidablePred (SleepState.slept seconds) :=
  fun s => inferInstanceAs (Decidable (s.time - s.start = seconds.toUInt64))

/-- C `sleep` (lines 8-38): the system calls it makes and what it returns, where it makes fewer
than `fuel`. -/
def sleep (clock : ℕ → UInt64) (seconds : UInt32) (fuel : ℕ) : Option (ℕ × UInt32) := do
  let (calls, s) ← pollLoop (sleepTurn clock) (SleepState.slept seconds) fuel 0 ⟨0, 0⟩
  some (calls, (s.time - s.start).toUInt32)

/-- `sleep` returns, and has made `calls` system calls then. -/
def SleepReturns (clock : ℕ → UInt64) (seconds : UInt32) (calls : ℕ) : Prop :=
  ∃ fuel ret, sleep clock seconds fuel = some (calls, ret)

/-- The clock does not go back from one call to a later one. -/
def NonDecreasing (clock : ℕ → UInt64) : Prop := Monotone fun n => (clock n).toNat

variable {clock : ℕ → UInt64} {seconds : UInt32}

/-- Calls whose value is at least the value of the first one plus the seconds. -/
def timeIsUp (clock : ℕ → UInt64) (seconds : UInt32) : Set ℕ :=
  {n | (clock 0).toNat + seconds.toNat ≤ (clock n).toNat}

instance : DecidablePred (· ∈ timeIsUp clock seconds) :=
  fun n => inferInstanceAs (Decidable ((clock 0).toNat + seconds.toNat ≤ (clock n).toNat))

/-- `sleep` returns at the first call that finds the time up, and at no other; where no call
does, it does not return. -/
def SleepsOnTime (clock : ℕ → UInt64) (seconds : UInt32) : Prop :=
  ∀ calls, SleepReturns clock seconds calls ↔
    ∃ n, calls = n + 1 ∧ IsLeast (timeIsUp clock seconds) n

/-- Calls whose value is not 0. -/
def startedCalls (clock : ℕ → UInt64) : Set ℕ := {n | clock n ≠ 0}

/-- The first call that finds the time up gives exactly the first value other than 0 plus the
seconds. -/
def SleepFits (clock : ℕ → UInt64) (seconds : UInt32) : Prop :=
  ∀ n, IsLeast (timeIsUp clock seconds) n →
    ∃ k, IsLeast (startedCalls clock) k ∧ (clock n).toNat = (clock k).toNat + seconds.toNat

end Sbunix
