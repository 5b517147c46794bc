import Sbunix.Sys.ExecArgs

/-!
# When the arguments arrive

The name of the file and the argument strings are runs of bytes that are written one after the
other, apart from the new array of pointers.  They can be read from there exactly if they agree
where they overlap; the count is that of the caller's own array.
-/

namespace Sbunix

open ByteMem

variable {m m' caller : ByteMem} {a args newargs fileName i j k n t w x : Nat}
  {uStackbase childStackbase : Nat} {str path : List UInt8} {strs : List (List UInt8)}
  {p : Nat × List UInt8}

/-! ## Arrays of pointers -/

theorem argAt_lt : argAt m args i < 2 ^ 64 := number_lt 8

theorem argAt_congr (h : ∀ k < 8, m'.load (args + 8 * i + k) = m.load (args + 8 * i + k)) :
    argAt m' args i = argAt m args i := number_congr h

theorem setArg_load (h : ∀ k < 8, ¬ SameAddr x (args + 8 * i + k)) :
    (setArg m args i w).load x = m.load x := storeNumber_other h

theorem argAt_setArg_same (hw : w < 2 ^ 64) : argAt (setArg m args i w) args i = w := by
  have hnum := number_storeNumber (m := m) (a := args + 8 * i) (w := w) (n := 8) (by decide)
  have hpow : 256 ^ 8 = 2 ^ 64 := rfl
  rw [hpow, Nat.mod_eq_of_lt hw] at hnum
  exact hnum

theorem argAt_setArg_other (hne : j ≠ i) (hi : 8 * (i + 1) ≤ 2 ^ 64) (hj : 8 * (j + 1) ≤ 2 ^ 64) :
    argAt (setArg m args i w) args j = argAt m args j := by
  apply argAt_congr
  intro k hk
  apply setArg_load
  intro l hl hs
  rw [Nat.add_assoc, Nat.add_assoc] at hs
  have heq := sameAddr_add (by omega) (by omega) hs
  omega

/-- `n` elements of an array, as bytes. -/
theorem range_words (hi : i < n) (hk : k < 8) : Range args (8 * n) (args + 8 * i + k) :=
  ⟨8 * i + k, by omega, by rw [Nat.add_assoc]; rfl⟩

/-! ## The loops -/

theorem strcpy_eq : strcpy str a m = m.storeBytes a (str ++ [0]) := by
  induction str generalizing a m with
  | nil => rfl
  | cons c str ih => exact ih

theorem copyPointers_load (ht : i + n ≤ t) (hx : ¬ Range newargs (8 * t) x) :
    (copyPointers args newargs n i m).load x = m.load x := by
  induction n generalizing i m with
  | zero => rfl
  | succ n ih =>
    rw [copyPointers, ih (by omega)]
    apply setArg_load
    intro k hk hs
    apply hx
    exact ⟨8 * i + k, by omega, by rw [← Nat.add_assoc]; exact hs⟩

/-- The pointers are in the new array then. -/
theorem copyPointers_argAt (ht : i + n ≤ t) (hsize : 8 * t ≤ 2 ^ 64)
    (hapart : ∀ x < 8 * t, ¬ Range newargs (8 * t) (args + x)) (hj : j < t) :
    argAt (copyPointers args newargs n i m) newargs j =
      if i ≤ j ∧ j < i + n then argAt m args j else argAt m newargs j := by
  induction n generalizing i m with
  | zero =>
    rw [if_neg (by omega)]
    rfl
  | succ n ih =>
    have hargs : argAt (setArg m newargs i (argAt m args i)) args j = argAt m args j := by
      apply argAt_congr
      intro k hk
      apply setArg_load
      intro l hl hs
      rw [Nat.add_assoc] at hs
      apply hapart (8 * j + k) (by omega)
      exact ⟨8 * i + l, by omega, by rw [← Nat.add_assoc newargs]; exact hs⟩
    rw [copyPointers, ih (by omega), hargs]
    by_cases hij : j = i
    · rw [hij, if_neg (by omega), if_pos (by omega), argAt_setArg_same argAt_lt]
    · rw [argAt_setArg_other hij (by omega) (by omega)]
      by_cases hin : i + 1 ≤ j ∧ j < i + 1 + n
      · rw [if_pos hin, if_pos (by omega)]
      · rw [if_neg hin, if_neg (by omega)]

theorem shiftArgs_load (ht : n < t) (hx : ¬ Range args (8 * t) x) :
    (shiftArgs args n m).load x = m.load x := by
  induction n generalizing m with
  | zero => rfl
  | succ n ih =>
    rw [shiftArgs, ih (by omega)]
    apply setArg_load
    intro k hk hs
    apply hx
    exact ⟨8 * (n + 1) + k, by omega, by rw [← Nat.add_assoc]; exact hs⟩

/-- The loop moves the elements before `n` up by one. -/
theorem shiftArgs_argAt (ht : n < t) (hsize : 8 * t ≤ 2 ^ 64) (hj : j < t) :
    argAt (shiftArgs args n m) args j =
      if 1 ≤ j ∧ j ≤ n then argAt m args (j - 1) else argAt m args j := by
  induction n generalizing m with
  | zero =>
    rw [if_neg (by omega)]
    rfl
  | succ n ih =>
    rw [shiftArgs, ih (by omega)]
    by_cases hlast : j = n + 1
    · rw [hlast, if_neg (by omega), if_pos (by omega), argAt_setArg_same argAt_lt,
        Nat.add_sub_cancel]
    · by_cases hin : 1 ≤ j ∧ j ≤ n
      · have hprev : j - 1 ≠ n + 1 := by omega
        rw [if_pos hin, if_pos (by omega), argAt_setArg_other hprev (by omega) (by omega)]
      · rw [if_neg hin, if_neg (by omega), argAt_setArg_other hlast (by omega) (by omega)]

theorem mem_stringRuns : p ∈ stringRuns m args strs i ↔
    ∃ j str, strs[j]? = some str ∧ p = (argAt m args (i + j), str ++ [0]) := by
  induction strs generalizing i with
  | nil => simp [stringRuns]
  | cons s strs ih =>
    rw [stringRuns, List.mem_cons, ih]
    constructor
    · intro h
      cases h with
      | inl heq => exact ⟨0, s, rfl, heq⟩
      | inr hrest =>
        obtain ⟨j, str, hget, heq⟩ := hrest
        refine ⟨j + 1, str, hget, ?_⟩
        rw [heq, Nat.add_right_comm, Nat.add_assoc]
    · intro h
      obtain ⟨j, str, hget, heq⟩ := h
      cases j with
      | zero =>
        have hs : s = str := Option.some.inj hget
        rw [← hs] at heq
        exact .inl heq
      | succ j =>
        refine .inr ⟨j, str, hget, ?_⟩
        rw [heq, Nat.add_right_comm, Nat.add_assoc]

/-- While the strings keep clear of the new array, they are written at the pointers in it. -/
theorem copyStrings_eq {m₁ : ByteMem}
    (hptr : ∀ j < strs.length, argAt m newargs (i + j) = argAt m₁ args (i + j))
    (ht : i + strs.length ≤ t)
    (hapart : ∀ p ∈ stringRuns m₁ args strs i, ∀ y, Range newargs (8 * t) y → ∀ c, ¬ Covers p y c) :
    copyStrings newargs strs i m = m.storeAll (stringRuns m₁ args strs i) := by
  induction strs generalizing i m with
  | nil => rfl
  | cons s strs ih =>
    rw [List.length_cons] at ht
    have hfirst := hptr 0 (Nat.succ_pos _)
    rw [Nat.add_zero] at hfirst
    have hclear := hapart (argAt m₁ args i, s ++ [0]) (by rw [stringRuns]; exact List.mem_cons_self)
    rw [copyStrings, stringRuns, storeAll, hfirst, strcpy_eq]
    apply ih
    · intro j hj
      have hnext := hptr (j + 1) (Nat.succ_lt_succ hj)
      rw [show i + 1 + j = i + (j + 1) by omega, ← hnext]
      apply argAt_congr
      intro k hk
      apply storeBytes_other
      exact hclear _ (range_words (by omega) hk)
    · omega
    · intro p hp
      apply hapart p
      rw [stringRuns]
      exact List.mem_cons_of_mem _ hp

/-! ## The memory of the new program -/

/-- The memory at the end of `passArgs`. -/
def argBytes (m : ByteMem) (fileName args newargs : Nat) (path : List UInt8)
    (strs : List (List UInt8)) : ByteMem :=
  cpyFilename2args fileName newargs (strs.length + 1)
    (copyStrings newargs strs 0
      (copyPointers args newargs strs.length 0 (strcpy path fileName m)))

theorem passArgs_eq : passArgs m fileName args newargs path strs =
    (countArgs (argBytes m fileName args newargs path strs) args).map fun argc =>
      ⟨argc, newargs, argBytes m fileName args newargs path strs⟩ := by
  simp only [passArgs, argBytes, Option.bind_eq_bind, Nat.add_sub_cancel, Option.map_eq_bind,
    Function.comp_def]

namespace NewArrayApart

variable (h : NewArrayApart m fileName args newargs path strs)

include h

theorem array_clear (hx : x < 8 * (strs.length + 2)) :
    ¬ Range newargs (8 * (strs.length + 2)) (args + x) := by
  intro hr
  cases hr with
  | intro y hy => exact h.array x hx y hy.1 hy.2

theorem run_clear (hp : p ∈ argRuns m fileName args path strs) (y : Nat)
    (hy : Range newargs (8 * (strs.length + 2)) y) (c : UInt8) : ¬ Covers p y c := by
  intro hc
  obtain ⟨k, hk, hs⟩ := hc
  obtain ⟨j, hj, hs'⟩ := hy
  have hlt : k < p.2.length := (List.getElem?_eq_some_iff.mp hk).1
  exact h.runs p hp k hlt j hj (hs.symm.trans hs')

theorem path_argAt (hj : j < strs.length + 2) :
    argAt (strcpy path fileName m) newargs j = argAt m newargs j := by
  rw [strcpy_eq]
  apply argAt_congr
  intro k hk
  apply storeBytes_other
  exact h.run_clear List.mem_cons_self _ (range_words hj hk)

/-- The new array once the pointers have been copied. -/
theorem pointers_argAt (hfew : strs.length < 2 ^ 31) (hj : j < strs.length + 2) :
    argAt (copyPointers args newargs strs.length 0 (strcpy path fileName m)) newargs j =
      if j < strs.length then argAt (strcpy path fileName m) args j else argAt m newargs j := by
  rw [copyPointers_argAt (t := strs.length + 2) (by omega) (by omega) (fun x hx => h.array_clear hx)
    hj, h.path_argAt hj]
  by_cases hlt : j < strs.length
  · rw [if_pos hlt, if_pos (by omega)]
  · rw [if_neg hlt, if_neg (by omega)]

theorem strings_eq (hfew : strs.length < 2 ^ 31) :
    copyStrings newargs strs 0 (copyPointers args newargs strs.length 0 (strcpy path fileName m)) =
      (copyPointers args newargs strs.length 0 (strcpy path fileName m)).storeAll
        (stringRuns (strcpy path fileName m) args strs 0) := by
  apply copyStrings_eq (t := strs.length + 2)
  · intro j hj
    rw [Nat.zero_add, h.pointers_argAt hfew (by omega), if_pos hj]
  · omega
  · intro p hp
    exact h.run_clear (List.mem_cons_of_mem _ hp)

/-- Away from the new array memory is as the strings leave it. -/
theorem load_eq (hfew : strs.length < 2 ^ 31) (hx : ¬ Range newargs (8 * (strs.length + 2)) x) :
    (argBytes m fileName args newargs path strs).load x =
      (m.storeAll (argRuns m fileName args path strs)).load x := by
  have hshift : (argBytes m fileName args newargs path strs).load x =
      (copyStrings newargs strs 0
        (copyPointers args newargs strs.length 0 (strcpy path fileName m))).load x := by
    unfold argBytes cpyFilename2args
    rw [setArg_load, shiftArgs_load (Nat.lt_succ_self _) hx]
    intro k hk hs
    exact hx ⟨k, by omega, hs⟩
  rw [hshift, h.strings_eq hfew, argRuns, storeAll, ← strcpy_eq]
  apply storeAll_congr
  exact copyPointers_load (by omega) hx

/-- The new array. -/
theorem newArray (hfew : strs.length < 2 ^ 31) (hname : fileName < 2 ^ 64) :
    argAt (argBytes m fileName args newargs path strs) newargs 0 = fileName ∧
      (∀ j < strs.length, argAt (argBytes m fileName args newargs path strs) newargs (j + 1) =
        argAt (strcpy path fileName m) args j) ∧
      argAt (argBytes m fileName args newargs path strs) newargs (strs.length + 1) =
        argAt m newargs strs.length := by
  have hsize : 8 * (strs.length + 2) ≤ 2 ^ 64 := by omega
  -- what the shift moves
  have hmoved : ∀ j < strs.length + 1,
      argAt (argBytes m fileName args newargs path strs) newargs (j + 1) =
        if j < strs.length then argAt (strcpy path fileName m) args j else argAt m newargs j := by
    intro j hj
    unfold argBytes cpyFilename2args
    rw [argAt_setArg_other (Nat.succ_ne_zero j) (by omega) (by omega),
      shiftArgs_argAt (j := j + 1) (t := strs.length + 2) (Nat.lt_succ_self _) hsize (by omega),
      if_pos (by omega), Nat.add_sub_cancel, ← h.pointers_argAt hfew (Nat.lt_succ_of_lt hj),
      h.strings_eq hfew]
    apply argAt_congr
    intro k hk
    apply storeAll_other
    intro p hp
    exact h.run_clear (List.mem_cons_of_mem _ hp) _ (range_words (Nat.lt_succ_of_lt hj) hk)
  refine ⟨?_, ?_, ?_⟩
  · unfold argBytes cpyFilename2args
    exact argAt_setArg_same hname
  · intro j hj
    rw [hmoved j (Nat.lt_succ_of_lt hj), if_pos hj]
  · rw [hmoved strs.length (Nat.lt_succ_self _), if_neg (Nat.lt_irrefl _)]

end NewArrayApart

/-! ## Reading the arguments -/

theorem countArgsFrom_iff {fuel ctr r : Nat} : countArgsFrom m args fuel ctr = some r ↔
    ctr ≤ r ∧ r < ctr + fuel ∧ argAt m args r = 0 ∧
      ∀ i, ctr ≤ i → i < r → argAt m args i ≠ 0 := by
  induction fuel generalizing ctr with
  | zero =>
    rw [countArgsFrom]
    constructor
    · intro h
      cases h
    · intro h
      omega
  | succ fuel ih =>
    rw [countArgsFrom]
    by_cases h0 : argAt m args ctr = 0
    · rw [if_pos h0]
      constructor
      · intro h
        obtain rfl := Option.some.inj h
        exact ⟨Nat.le_refl _, by omega, h0, fun i hi hlt => absurd hi (Nat.not_le_of_lt hlt)⟩
      · intro h
        obtain ⟨hle, -, -, hall⟩ := h
        by_cases heq : ctr = r
        · rw [heq]
        · exact absurd h0 (hall ctr (Nat.le_refl _) (by omega))
    · rw [if_neg h0, ih]
      constructor
      · intro h
        obtain ⟨hle, hlt, hz, hall⟩ := h
        refine ⟨by omega, by omega, hz, ?_⟩
        intro i hi hir
        by_cases heq : i = ctr
        · rw [heq]
          exact h0
        · exact hall i (by omega) hir
      · intro h
        obtain ⟨hle, hlt, hz, hall⟩ := h
        have hne : ctr ≠ r := by
          intro heq
          rw [heq] at h0
          exact h0 hz
        exact ⟨by omega, by omega, hz, fun i hi => hall i (by omega)⟩

theorem countArgs_iff {r : Nat} (hr : r < 2 ^ 61) : countArgs m args = some r ↔
    (∀ i < r, argAt m args i ≠ 0) ∧ argAt m args r = 0 := by
  rw [countArgs, countArgsFrom_iff, Nat.zero_add]
  constructor
  · intro h
    exact ⟨fun i hi => h.2.2.2 i (Nat.zero_le i) hi, h.2.2.1⟩
  · intro h
    exact ⟨Nat.zero_le r, hr, h.2, fun i _ hi => h.1 i hi⟩

theorem stringAt_eq (hlen : str.length < n) (h0 : 0 ∉ str) (h : m.Holds (a, str ++ [0])) :
    stringAt m n a = some str := by
  induction str generalizing a n with
  | nil =>
    cases n with
    | zero => exact absurd hlen (Nat.not_lt_zero _)
    | succ n =>
      have hz : m.load a = 0 := h 0 0 rfl
      rw [stringAt, if_pos hz]
  | cons c str ih =>
    cases n with
    | zero => exact absurd hlen (Nat.not_lt_zero _)
    | succ n =>
      have hc : m.load a = c := h 0 c rfl
      have hne : c ≠ 0 := fun hz => h0 (hz ▸ List.mem_cons_self)
      have hrest : m.Holds (a + 1, str ++ [0]) := by
        intro k d hk
        have hload := h (k + 1) d hk
        rw [← Nat.add_assoc, Nat.add_right_comm] at hload
        exact hload
      rw [stringAt, hc, if_neg hne,
        ih (Nat.lt_of_succ_lt_succ hlen) (fun hm => h0 (List.mem_cons_of_mem c hm)) hrest]
      rfl

theorem copyArgs_eq
    (h : ∀ j str, strs[j]? = some str → stringAt m 1024 (argAt m args (i + j)) = some str) :
    copyArgs m args strs.length i = some strs := by
  induction strs generalizing i with
  | nil => rfl
  | cons s strs ih =>
    have hfirst := h 0 s rfl
    rw [Nat.add_zero] at hfirst
    rw [List.length_cons, copyArgs, hfirst, ih]
    · rfl
    · intro j str hj
      have hnext := h (j + 1) str hj
      rw [← Nat.add_assoc, Nat.add_right_comm] at hnext
      exact hnext

/-- The caller's arguments reach the second part of `syscall_exec`. -/
theorem execArgs_eq (h : ArgArray caller args strs) :
    execArgs caller m fileName args uStackbase childStackbase path =
      passArgs m fileName args (newArgs uStackbase childStackbase args) path strs := by
  have hcount : countArgs caller args = some strs.length := by
    have hfew := h.few
    apply (countArgs_iff (by omega)).mpr
    exact ⟨h.pointers, h.null⟩
  have hcopy : copyArgs caller args strs.length 0 = some strs := by
    apply copyArgs_eq
    intro j str hj
    obtain ⟨hlen, h0, hs⟩ := h.strings j str hj
    rw [Nat.zero_add]
    exact stringAt_eq hlen h0 hs
  simp only [execArgs, hcount, hcopy, Option.bind_eq_bind, Option.bind_some]

/-! ## What arrives -/

section

variable (h : NewArrayApart m fileName args newargs path strs) (hfew : strs.length < 2 ^ 31)
  (hname : fileName < 2 ^ 64)

include h hfew

theorem holds_argBytes (hp : p ∈ argRuns m fileName args path strs) :
    (argBytes m fileName args newargs path strs).Holds p ↔
      (m.storeAll (argRuns m fileName args path strs)).Holds p := by
  rw [holds_iff, holds_iff]
  have hload : ∀ x c, Covers p x c → (argBytes m fileName args newargs path strs).load x =
      (m.storeAll (argRuns m fileName args path strs)).load x := by
    intro x c hc
    apply h.load_eq hfew
    intro hx
    exact h.run_clear hp x hx c hc
  constructor
  · intro hall x c hc
    rw [← hload x c hc]
    exact hall x c hc
  · intro hall x c hc
    rw [hload x c hc]
    exact hall x c hc

theorem argAt_argBytes (hi : i < strs.length + 2) :
    argAt (argBytes m fileName args newargs path strs) args i =
      argAt (m.storeAll (argRuns m fileName args path strs)) args i := by
  apply argAt_congr
  intro k hk
  apply h.load_eq hfew
  rw [Nat.add_assoc]
  exact h.array_clear (by omega)

include hname

/-- The strings arrive exactly if they agree where they overlap. -/
theorem strings_arrive :
    (∀ p ∈ argRuns m fileName args path strs,
        (argBytes m fileName args newargs path strs).Holds p) ↔
      (argBytes m fileName args newargs path strs).Holds
          (argAt (argBytes m fileName args newargs path strs) newargs 0, path ++ [0]) ∧
        ∀ i str, strs[i]? = some str → (argBytes m fileName args newargs path strs).Holds
          (argAt (argBytes m fileName args newargs path strs) newargs (i + 1), str ++ [0]) := by
  obtain ⟨hfirst, hrest, -⟩ := h.newArray hfew hname
  constructor
  · intro hall
    constructor
    · rw [hfirst]
      exact hall _ List.mem_cons_self
    · intro i str hi
      rw [hrest i (List.getElem?_eq_some_iff.mp hi).1]
      apply hall
      apply List.mem_cons_of_mem
      rw [mem_stringRuns]
      exact ⟨i, str, hi, by rw [Nat.zero_add]⟩
  · intro hboth p hp
    cases List.mem_cons.mp hp with
    | inl heq =>
      have hs := hboth.1
      rw [hfirst] at hs
      rw [heq]
      exact hs
    | inr hmem =>
      obtain ⟨j, str, hj, heq⟩ := mem_stringRuns.mp hmem
      have hs := hboth.2 j str hj
      rw [hrest j (List.getElem?_eq_some_iff.mp hj).1] at hs
      rw [heq, Nat.zero_add]
      exact hs

end

/-- A word is `NULL` or not, by the bytes of the strings laid over memory. -/
theorem argAt_placed {ps : List (Nat × List UInt8)} (hlen : ∀ p ∈ ps, p.2.length ≤ 2 ^ 64)
    (h : Agree ps) : argAt (m.storeAll ps) args i = 0 ↔
      ∀ k < 8, Placed m ps (args + 8 * i + k) 0 := by
  unfold argAt
  rw [number_eq_zero]
  constructor
  · intro hall k hk
    exact (placed_iff hlen h).mp (hall k hk)
  · intro hall k hk
    exact (placed_iff hlen h).mpr (hall k hk)

/-- A word is a pointer if one of its bytes is not zero. -/
theorem pointer_placed {ps : List (Nat × List UInt8)} (hlen : ∀ p ∈ ps, p.2.length ≤ 2 ^ 64)
    (h : Agree ps) : argAt (m.storeAll ps) args i ≠ 0 ↔
      ∃ k < 8, ∃ c, c ≠ 0 ∧ Placed m ps (args + 8 * i + k) c := by
  unfold argAt
  rw [ne_eq, number_eq_zero]
  constructor
  · intro hall
    simp only [not_forall] at hall
    obtain ⟨k, hk, hne⟩ := hall
    exact ⟨k, hk, _, hne, (placed_iff hlen h).mp rfl⟩
  · intro hex hall
    obtain ⟨k, hk, c, hne, hc⟩ := hex
    apply hne
    rw [← (placed_iff hlen h).mpr hc]
    exact hall k hk

theorem argRuns_length (hargs : ArgArray caller args strs) (hpath : path.length < 2 ^ 31) :
    ∀ p ∈ argRuns m fileName args path strs, p.2.length ≤ 2 ^ 64 := by
  intro p hp
  cases List.mem_cons.mp hp with
  | inl heq =>
    rw [heq, List.length_append, List.length_singleton]
    omega
  | inr hmem =>
    obtain ⟨j, str, hj, heq⟩ := mem_stringRuns.mp hmem
    have hlen := (hargs.strings j str hj).1
    rw [heq, List.length_append, List.length_singleton]
    omega

/-- The arguments arrive exactly if the strings that are written agree where they overlap, one
of them runs over the `NULL` of the caller's array and makes it one pointer longer, and the
stack of the child has a `NULL` in the right place. -/
theorem execArgs_passed (hargs : ArgArray caller args strs) (hname : fileName < 2 ^ 64)
    (hpath : path.length < 2 ^ 31)
    (hnew : NewArrayApart m fileName args (newArgs uStackbase childStackbase args) path strs) :
    ArgsArrive caller m fileName args uStackbase childStackbase path strs ↔
      ArgsLand m fileName args (newArgs uStackbase childStackbase args) path strs := by
  have hfew := hargs.few
  have hlen : ∀ p ∈ argRuns m fileName args path strs, p.2.length ≤ 2 ^ 64 :=
    argRuns_length hargs hpath
  obtain ⟨hfirst, hrest, hlast⟩ := hnew.newArray hfew hname
  have harrive := strings_arrive hnew hfew hname
  have hagree : (∀ p ∈ argRuns m fileName args path strs,
      (argBytes m fileName args (newArgs uStackbase childStackbase args) path strs).Holds p) ↔
        Agree (argRuns m fileName args path strs) := by
    rw [← storeAll_holds_iff (m := m) hlen]
    constructor
    · intro hall p hp
      exact (holds_argBytes hnew hfew hp).mp (hall p hp)
    · intro hall p hp
      exact (holds_argBytes hnew hfew hp).mpr (hall p hp)
  rw [ArgsArrive, execArgs_eq hargs, passArgs_eq]
  constructor
  · intro hex
    obtain ⟨e, he, hpassed⟩ := hex
    obtain ⟨argc, hcount, rfl⟩ := Option.map_eq_some_iff.mp he
    have hargc : argc = strs.length + 1 := hpassed.argc
    rw [hargc, countArgs_iff (by omega)] at hcount
    have hland := hagree.mp (harrive.mpr ⟨hpassed.name, hpassed.strings⟩)
    refine ⟨hland, ?_, ?_, hlast.symm.trans hpassed.null⟩
    · intro i hi
      have hne := hcount.1 i (by omega)
      rw [argAt_argBytes hnew hfew (by omega)] at hne
      exact (pointer_placed hlen hland).mp hne
    · have hnull := hcount.2
      rw [argAt_argBytes hnew hfew (by omega)] at hnull
      exact (argAt_placed hlen hland).mp hnull
  · intro hland
    have hcount : countArgs
        (argBytes m fileName args (newArgs uStackbase childStackbase args) path strs) args =
          some (strs.length + 1) := by
      apply (countArgs_iff (by omega)).mpr
      constructor
      · intro i hi
        rw [argAt_argBytes hnew hfew (by omega)]
        exact (pointer_placed hlen hland.agree).mpr (hland.pointers i (by omega))
      · rw [argAt_argBytes hnew hfew (by omega)]
        exact (argAt_placed hlen hland.agree).mpr hland.behind
    obtain ⟨hpathHeld, hstrsHeld⟩ := harrive.mp (hagree.mpr hland.agree)
    rw [hcount]
    exact ⟨_, rfl, rfl, hpathHeld, hstrsHeld, hlast.trans hland.stale⟩

/-! The call `exec("ls", {"a", NULL})`, which finds `bin/ls`. The strings lie at `0x400000` and
`0x400010`, the array 64 bytes below the stack base of slot 0, and the new process has slot 1. -/

/-- The path `bin/ls`. -/
def lsPath : List UInt8 := [98, 105, 110, 47, 108, 115]

/-- Where the arguments of the call are. -/
def lsArgs : Nat := 0xFFFFFFFF7F1FEFC0

/-- The memory of a process that calls `execvpe` with the arguments of `ls a`. -/
def lsCaller : ByteMem :=
  ((ByteMem.storeNumber (fun _ => 0) lsArgs 0x400010 8).storeBytes 0x400000 [108, 115, 0]).storeBytes
    0x400010 [97, 0]

/-- The new program sees the stack of the caller and its own, which `init_stack` has filled. -/
def lsProgram : ByteMem :=
  (ByteMem.storeNumber (fun _ => 0) lsArgs 0x400010 8).storeNumber (lsArgs - 8192) 0x400010 8

theorem lsCaller_args : ArgArray lsCaller lsArgs [[97]] := by
  refine ⟨by decide, by decide +kernel, by decide +kernel, ?_⟩
  intro i str h
  cases i with
  | zero =>
    obtain rfl := Option.some.inj h
    have hptr : argAt lsCaller lsArgs 0 = 0x400010 := by decide +kernel
    refine ⟨by decide, by decide, ?_⟩
    rw [hptr]
    intro k c hk
    cases k with
    | zero =>
      rw [← Option.some.inj hk]
      decide +kernel
    | succ k =>
      cases k with
      | zero =>
        rw [← Option.some.inj hk]
        decide +kernel
      | succ k => cases hk
  | succ i => cases h

theorem execArgs_passed_ls :
    ArgsArrive lsCaller lsProgram 0x400000 lsArgs 0xFFFFFFFF7F1FF000 0xFFFFFFFF7F1FD000 lsPath
        [[97]] ↔
      ArgsLand lsProgram 0x400000 lsArgs (newArgs 0xFFFFFFFF7F1FF000 0xFFFFFFFF7F1FD000 lsArgs)
        lsPath [[97]] :=
  execArgs_passed lsCaller_args (by decide) (by decide) ⟨by decide +kernel, by decide +kernel⟩

/-- `main` of `ls` is told of one argument, its name. -/
theorem execArgs_ls : ArgArray lsCaller lsArgs [[97]] ∧
    (execArgs lsCaller lsProgram 0x400000 lsArgs 0xFFFFFFFF7F1FF000 0xFFFFFFFF7F1FD000
      lsPath).map MainEntry.argc = some 1 ∧
    ¬ ArgsArrive lsCaller lsProgram 0x400000 lsArgs 0xFFFFFFFF7F1FF000 0xFFFFFFFF7F1FD000 lsPath
      [[97]] := by
  have hrun : (execArgs lsCaller lsProgram 0x400000 lsArgs 0xFFFFFFFF7F1FF000 0xFFFFFFFF7F1FD000
      lsPath).map MainEntry.argc = some 1 := by decide +kernel
  refine ⟨lsCaller_args, hrun, ?_⟩
  intro harrive
  obtain ⟨e, he, hpassed⟩ := harrive
  rw [he] at hrun
  have hargc : e.argc = 1 := Option.some.inj hrun
  have hclaim : e.argc = 2 := hpassed.argc
  omega

/-- So a string must run over the `NULL` of the caller's array: otherwise the count misses the
name of the file. -/
theorem ArgsLand.overrun (h : ArgsLand m fileName args newargs path strs)
    (hnull : argAt m args strs.length = 0) : ∃ p ∈ argRuns m fileName args path strs,
      ∃ k < 8, ∃ c, c ≠ 0 ∧ Covers p (args + 8 * strs.length + k) c := by
  obtain ⟨k, hk, c, hne, hplaced⟩ := h.pointers strs.length (Nat.le_refl _)
  cases hplaced with
  | inl hcov =>
    obtain ⟨p, hp, hc⟩ := hcov
    exact ⟨p, hp, k, hk, c, hne, hc⟩
  | inr hload =>
    have hzero := number_eq_zero.mp hnull k hk
    exact absurd (hload.2.symm.trans hzero) hne

end Sbunix
