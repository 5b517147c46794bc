import Sbunix.Sys.Tokens

/-!
# Tokens

One call of `mystrtok` skips delimiters, takes the run behind them and stops at what ends it.  The
copies of kernel and shell agree.
-/

namespace Sbunix

variable {str rest ds t tail : List UInt8} {delim : UInt8} {pos k room : Nat} {s : TokState}

/-! The loop -/

theorem tokLoop_skip (h : ∀ c ∈ ds, c = delim) (hs : s.startFound = false) :
    tokLoop delim (ds ++ rest) s = tokLoop delim rest { s with i := s.i + ds.length } := by
  induction ds generalizing s with
  | nil => rfl
  | cons c ds ih =>
    have hc := h c List.mem_cons_self
    have hstep := ih (s := { s with i := s.i + 1 }) (fun d hd => h d (List.mem_cons_of_mem c hd)) hs
    rw [List.cons_append, tokLoop, if_neg (fun hne => hne.1 hc), if_neg (by simp [hs]), hstep,
      List.length_cons]
    dsimp only
    rw [Nat.add_assoc, Nat.add_comm 1]

theorem tokLoop_run (ht : delim ∉ t) (hs : s.startFound = true) :
    tokLoop delim (t ++ rest) s = tokLoop delim rest { s with i := s.i + t.length } := by
  induction t generalizing s with
  | nil => rfl
  | cons c t ih =>
    rw [List.mem_cons, not_or] at ht
    have hstep := ih (s := { s with i := s.i + 1 }) ht.2 hs
    rw [List.cons_append, tokLoop, if_neg (by simp [hs]), if_neg (fun heq => ht.1 heq.1.symm),
      hstep, List.length_cons]
    dsimp only
    rw [Nat.add_assoc, Nat.add_comm 1]

/-- Where the loop stops behind a run: at a delimiter or at the NUL. -/
theorem tokLoop_stop (htail : tail = [] ∨ tail.head? = some delim) (hs : s.startFound = true) :
    (tokLoop delim tail s).startFound = true ∧ (tokLoop delim tail s).start = s.start ∧
      (tokLoop delim tail s).i = s.i := by
  cases tail with
  | nil => exact ⟨hs, rfl, rfl⟩
  | cons c tail =>
    obtain rfl : c = delim := by simpa using htail
    rw [tokLoop, if_neg (fun hne => hne.1 rfl), if_pos ⟨rfl, hs⟩]
    exact ⟨hs, rfl, rfl⟩

/-! One call -/

theorem shMystrtok_none (h : ∀ c ∈ str.drop pos, c = delim) :
    shMystrtok str delim pos = (none, pos) := by
  have hloop : tokLoop delim (str.drop pos ++ []) ⟨false, 0, false, 0, pos⟩ = _ :=
    tokLoop_skip h rfl
  rw [List.append_nil] at hloop
  unfold shMystrtok
  rw [hloop]
  rfl

theorem shMystrtok_some (h : str.drop pos = ds ++ (t ++ tail)) (hds : ∀ c ∈ ds, c = delim)
    (hne : t ≠ []) (ht : delim ∉ t) (htail : tail = [] ∨ tail.head? = some delim) :
    shMystrtok str delim pos = (some t, pos + ds.length + t.length) := by
  have hstart : str.drop (pos + ds.length) = t ++ tail := by
    rw [← List.drop_drop, h, List.drop_left]
  cases t with
  | nil => exact absurd rfl hne
  | cons c t =>
    rw [List.mem_cons, not_or] at ht
    have hloop : tokLoop delim (str.drop pos) ⟨false, 0, false, 0, pos⟩ =
        tokLoop delim tail ⟨true, pos + ds.length, false, 0, pos + ds.length + 1 + t.length⟩ := by
      rw [h, tokLoop_skip hds rfl, List.cons_append, tokLoop,
        if_pos ⟨fun heq => ht.1 heq.symm, rfl⟩, tokLoop_run ht.2 rfl]
    obtain ⟨hfound, hfirst, hi⟩ := tokLoop_stop (s := ⟨true, pos + ds.length, false, 0,
      pos + ds.length + 1 + t.length⟩) htail rfl
    unfold shMystrtok
    rw [hloop]
    dsimp only
    rw [if_pos hfound]
    dsimp only
    rw [if_pos rfl, hfirst, hi]
    dsimp only
    rw [hstart, List.length_cons, Prod.mk.injEq]
    refine ⟨congrArg some ?_, by omega⟩
    rw [show pos + ds.length + 1 + t.length - 1 + 1 - (pos + ds.length) = (c :: t).length by
      rw [List.length_cons]
      omega]
    exact List.take_left

/-- A call gives the first run of what is left and leaves the other runs. -/
theorem shMystrtok_runs (str : List UInt8) (delim : UInt8) (pos : Nat) :
    (shMystrtok str delim pos).1 = (runs delim (str.drop pos)).head? ∧
      runs delim (str.drop (shMystrtok str delim pos).2) = (runs delim (str.drop pos)).tail ∧
      (runs delim (str.drop pos) ≠ [] → pos < (shMystrtok str delim pos).2) ∧
      (runs delim (str.drop pos) = [] → (shMystrtok str delim pos).2 = pos) := by
  rcases runs_cases delim (str.drop pos) with hall | ⟨ds, t, tail, heq, hds, hne, ht, htail⟩
  · rw [shMystrtok_none hall, runs_of_forall hall]
    exact ⟨rfl, rfl, fun h => absurd rfl h, fun _ => rfl⟩
  · have hpos := List.length_pos_iff.mpr hne
    have hleft : str.drop (pos + ds.length + t.length) = tail := by
      rw [Nat.add_assoc, ← List.drop_drop, heq, ← List.append_assoc, ← List.length_append,
        List.drop_left]
    rw [shMystrtok_some heq hds hne ht htail, heq, runs_skip hds, runs_append hne ht htail]
    dsimp only
    rw [hleft]
    exact ⟨rfl, rfl, fun _ => by omega, fun h => absurd h (List.cons_ne_nil _ _)⟩

/-! The copy of the kernel -/

/-- What the loop keeps: no end without a start, and a start before `i`. -/
structure TokState.Ok (s : TokState) : Prop where
  found : s.startFound = true → s.start < s.i
  unfound : s.startFound = false → s.endFound = false

theorem tokLoop_ok (h : s.Ok) : (tokLoop delim rest s).Ok := by
  induction rest generalizing s with
  | nil => exact h
  | cons c rest ih =>
    rw [tokLoop]
    split
    · exact ih ⟨fun _ => Nat.lt_succ_self s.i, fun hfalse => absurd hfalse (by simp)⟩
    · split
      · rename_i hstop
        exact ⟨h.found, fun hfalse => absurd (hstop.2.symm.trans hfalse) (by simp)⟩
      · exact ih ⟨fun hfound => Nat.lt_succ_of_lt (h.found hfound), h.unfound⟩

/-- The loop of the kernel's copy, which is written with an optional start. -/
theorem mystrtokLoop_eq (delim : UInt8) (rest : List UInt8) (s : TokState) :
    mystrtokLoop delim rest s.i (if s.startFound then some s.start else none) =
      ((if (tokLoop delim rest s).startFound then some (tokLoop delim rest s).start else none),
        (tokLoop delim rest s).i) := by
  induction rest generalizing s with
  | nil => rfl
  | cons c rest ih =>
    cases hs : s.startFound with
    | false =>
      by_cases hc : c = delim
      · have hloop : tokLoop delim (c :: rest) s = tokLoop delim rest { s with i := s.i + 1 } := by
          rw [tokLoop, if_neg (fun hne => hne.1 hc), if_neg (by simp [hs])]
        rw [hloop, ← ih]
        simp [mystrtokLoop, hs, hc]
      · have hloop : tokLoop delim (c :: rest) s =
            tokLoop delim rest { s with start := s.i, startFound := true, i := s.i + 1 } := by
          rw [tokLoop, if_pos ⟨hc, hs⟩]
        rw [hloop, ← ih]
        simp [mystrtokLoop, hc]
    | true =>
      by_cases hc : c = delim
      · have hloop : tokLoop delim (c :: rest) s = { s with stop := s.i - 1, endFound := true } := by
          rw [tokLoop, if_neg (fun hne => hne.1 hc), if_pos ⟨hc, hs⟩]
        rw [hloop]
        simp [mystrtokLoop, hs, hc]
      · have hloop : tokLoop delim (c :: rest) s = tokLoop delim rest { s with i := s.i + 1 } := by
          rw [tokLoop, if_neg (by simp [hs]), if_neg (fun heq => hc heq.1)]
        rw [hloop, ← ih]
        simp [mystrtokLoop, hs, hc]

theorem kMystrtok_eq : kMystrtok str delim = shMystrtok str delim := by
  funext pos
  have hloop := mystrtokLoop_eq delim (str.drop pos) ⟨false, 0, false, 0, pos⟩
  have hok : (tokLoop delim (str.drop pos) ⟨false, 0, false, 0, pos⟩).Ok :=
    tokLoop_ok ⟨fun hfound => absurd hfound (by simp), fun _ => rfl⟩
  dsimp only at hloop
  rw [if_neg Bool.false_ne_true] at hloop
  unfold kMystrtok mystrtok shMystrtok
  rw [hloop]
  dsimp only
  generalize tokLoop delim (str.drop pos) ⟨false, 0, false, 0, pos⟩ = s at hok ⊢
  cases hs : s.startFound with
  | false =>
    have hstop := hok.unfound hs
    simp [hstop]
  | true =>
    have hlt := hok.found hs
    rw [if_pos rfl, if_pos rfl, if_pos rfl]
    dsimp only
    rw [show s.i - 1 + 1 = s.i by omega]

/-! All calls -/

theorem runs_tokPos : runs delim (str.drop (tokPos (shMystrtok str delim) k pos)) =
    (runs delim (str.drop pos)).drop k := by
  induction k generalizing pos with
  | zero => rfl
  | succ k ih => rw [tokPos, ih, (shMystrtok_runs str delim pos).2.1, List.drop_tail]

theorem tokPos_succ {tok : Nat → Option (List UInt8) × Nat} :
    tokPos tok (k + 1) pos = (tok (tokPos tok k pos)).2 := by
  induction k generalizing pos with
  | zero => rfl
  | succ k ih => exact ih

theorem tokenises (str : List UInt8) (delim : UInt8) :
    Tokenises (shMystrtok str delim) str delim := by
  have hleft : ∀ k, runs delim (str.drop (tokPos (shMystrtok str delim) k 0)) =
      (runs delim str).drop k := fun _ => runs_tokPos
  constructor
  · intro k
    rw [(shMystrtok_runs str delim _).1, hleft, List.head?_drop]
  · intro k hk
    rw [tokPos_succ]
    apply (shMystrtok_runs str delim _).2.2.1
    rw [hleft]
    exact fun h => absurd (List.drop_eq_nil_iff.mp h) (Nat.not_le.mpr hk)
  · intro k hk
    rw [tokPos_succ]
    apply (shMystrtok_runs str delim _).2.2.2
    rw [hleft]
    exact List.drop_eq_nil_of_le hk

/-! `SplitString` -/

theorem splitLoop_eq (h : (runs 32 (str.drop pos)).length < room) :
    splitLoop (shMystrtok str 32) room pos =
      some ((runs 32 (str.drop pos)).map some ++ [none]) := by
  induction room generalizing pos with
  | zero => omega
  | succ room ih =>
    obtain ⟨htoken, hleft, -⟩ := shMystrtok_runs str 32 pos
    rw [splitLoop]
    cases hruns : runs 32 (str.drop pos) with
    | nil =>
      rw [hruns] at htoken
      have hcall : shMystrtok str 32 pos = (none, (shMystrtok str 32 pos).2) := Prod.ext htoken rfl
      rw [hcall]
      rfl
    | cons t ts =>
      rw [hruns] at htoken hleft h
      have hcall : shMystrtok str 32 pos = (some t, (shMystrtok str 32 pos).2) :=
        Prod.ext htoken rfl
      rw [List.length_cons] at h
      rw [hcall]
      dsimp only
      rw [ih (by rw [hleft]; simpa using h), hleft]
      rfl

/-- For every string below 1024 characters, in kernel and shell: the calls of `mystrtok` give its
runs for any delimiter, and `SplitString` gives those for a space, with their number, if there are
at most 19. -/
theorem tokenising (str : List UInt8) (hlen : str.length < 1024) :
    (∀ delim, Tokenises (kMystrtok str delim) str delim ∧
      Tokenises (shMystrtok str delim) str delim) ∧
    ((runs 32 str).length ≤ 19 →
      kSplitString str = some ((runs 32 str).map some ++ [none], (runs 32 str).length) ∧
      ∀ vecCount, shSplitString (some str) vecCount =
        some (some ((runs 32 str).map some ++ [none]), (runs 32 str).length)) := by
  refine ⟨fun delim => ⟨kMystrtok_eq ▸ tokenises str delim, tokenises str delim⟩, fun hruns => ?_⟩
  have hvector : splitLoop (shMystrtok str 32) 20 0 =
      some ((runs 32 (str.drop 0)).map some ++ [none]) :=
    splitLoop_eq (by rw [List.drop_zero]; omega)
  rw [List.drop_zero] at hvector
  have hcount : ((runs 32 str).map some ++ [none]).length - 1 = (runs 32 str).length := by
    rw [List.length_append, List.length_map, List.length_singleton, Nat.add_sub_cancel]
  constructor
  · unfold kSplitString
    rw [if_pos hlen, kMystrtok_eq, hvector, Option.map_some, hcount]
  · intro vecCount
    unfold shSplitString
    dsimp only
    rw [if_pos hlen, hvector, Option.map_some, hcount]

/-- The string `ls  a`. -/
theorem tokenising_ls :
    Tokenises (kMystrtok [108, 115, 32, 32, 97] 32) [108, 115, 32, 32, 97] 32 ∧
      kSplitString [108, 115, 32, 32, 97] = some ([some [108, 115], some [97], none], 2) :=
  ⟨((tokenising [108, 115, 32, 32, 97] (by decide)).1 32).1,
    ((tokenising [108, 115, 32, 32, 97] (by decide)).2 (by decide)).1⟩

end Sbunix
