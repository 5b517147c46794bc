import Sbunix.Sys.CurrentDir
import Sbunix.Sys.Proofs.ChdirRuns

/-!
# The buffer of `currentDir`

When the calls of all processes keep `currentDir` inside the bytes that it has.
-/

namespace Sbunix

variable {s : InodeTree} {currentDir newPath path dir : List UInt8} {dirs : List (List UInt8)}
  {e : DirEvent} {es : List DirEvent} {i n : Nat}

theorem mem_copyNewPath : i ∈ (copyNewPath newPath).2 ↔ i ≤ min newPath.length 510 := by
  unfold copyNewPath
  rw [List.mem_range, Nat.lt_succ_iff]

theorem copyNewPath_fst (h : newPath.length ≤ 510) : (copyNewPath newPath).1 = newPath :=
  List.take_of_length_le h

theorem copyNewPath_inside (h : newPath.length < currentDirSize) :
    (∀ i ∈ (copyNewPath newPath).2, i < currentDirSize) ∧
      (copyNewPath newPath).1.length < currentDirSize := by
  constructor
  · intro i hi
    have := mem_copyNewPath.mp hi
    omega
  · unfold copyNewPath
    rw [List.length_take]
    omega

/-- The stores of the last loop show how long the string is. -/
theorem length_lt_of_copyNewPath (h : ∀ i ∈ (copyNewPath newPath).2, i < currentDirSize) :
    newPath.length < currentDirSize := by
  have := h _ (mem_copyNewPath.mpr (Nat.le_refl _))
  unfold currentDirSize at *
  omega

/-- A string inside the buffer is below the limits that the code has. -/
theorem min_length (h : dir.length < currentDirSize) : min dir.length 512 = dir.length :=
  Nat.min_eq_left (Nat.le_of_lt (h.trans (by decide)))

/-- The indices that a relative path is appended at. -/
theorem appended_inside_iff :
    (∀ i ∈ (List.range (path.length + 2)).map (n + ·), i < currentDirSize) ↔
      n + path.length + 1 < currentDirSize := by
  simp only [List.mem_map, List.mem_range]
  constructor
  · intro h
    exact h _ ⟨path.length + 1, by omega, rfl⟩
  · intro h i hi
    obtain ⟨k, hk, rfl⟩ := hi
    omega

/-- A call of `k_chdir` stays inside the buffer exactly if it fits. -/
theorem kChdirStores_inside_iff (h : dir.length < currentDirSize) :
    (∀ i ∈ (kChdirStores s dir path).2.2, i < currentDirSize) ∧
      (kChdirStores s dir path).2.1.length < currentDirSize ↔ ChdirFits s dir path := by
  unfold kChdirStores ChdirFits
  dsimp only
  rw [min_length h, List.take_length]
  split
  · by_cases hfind : s.findsDir path = true
    · rw [if_pos hfind]
      exact ⟨fun hin _ => length_lt_of_copyNewPath hin.1, fun hfit => copyNewPath_inside (hfit hfind)⟩
    · rw [if_neg hfind]
      exact ⟨fun _ hf => absurd hf hfind, fun _ => ⟨fun _ hi => absurd hi List.not_mem_nil, h⟩⟩
  · split
    · have hlen : (dir ++ path ++ [47]).length = dir.length + path.length + 1 := length_glued
      by_cases hfind : s.findsDir (dir ++ path ++ [47]) = true
      · rw [if_pos hfind]
        dsimp only
        rw [List.forall_mem_append, appended_inside_iff]
        refine ⟨fun hin => hin.1.1, fun hfit => ?_⟩
        rw [← hlen] at hfit
        have hcopy := copyNewPath_inside hfit
        rw [hlen] at hfit
        exact ⟨⟨hfit, hcopy.1⟩, hcopy.2⟩
      · rw [if_neg hfind]
        dsimp only
        rw [List.forall_mem_append, appended_inside_iff]
        refine ⟨fun hin => hin.1.1, fun hfit => ⟨⟨hfit, fun i hi => ?_⟩, h⟩⟩
        rw [List.mem_singleton.mp hi]
        exact h
    · split
      · have hle : (gobackLoop dir (dir.length - 1)).length < currentDirSize :=
          length_gobackLoop_le.trans_lt h
        have hcopy := copyNewPath_inside hle
        dsimp only
        rw [List.forall_mem_append]
        refine ⟨fun _ => trivial, fun _ => ⟨⟨fun i hi => ?_, hcopy.1⟩, hcopy.2⟩⟩
        split at hi
        · rw [List.mem_singleton.mp hi]
          exact hle
        · cases hi
      · exact ⟨fun _ => trivial, fun _ => ⟨fun _ hi => absurd hi List.not_mem_nil, h⟩⟩

/-- Inside the buffer the stores leave the string that `kChdir` gives. -/
theorem kChdir_eq_of_fits (h : dir.length < currentDirSize) (hfit : ChdirFits s dir path) :
    kChdir s dir path = some ((kChdirStores s dir path).1, (kChdirStores s dir path).2.1) := by
  have hcopy : ∀ {p : List UInt8}, p.length < currentDirSize → (copyNewPath p).1 = p :=
    fun hp => copyNewPath_fst (Nat.le_of_lt (hp.trans (by decide)))
  unfold ChdirFits at hfit
  unfold kChdirStores kChdir
  dsimp only
  rw [min_length h, List.take_length]
  split
  · rename_i habs
    rw [if_pos habs] at hfit
    by_cases hfind : s.findsDir path = true
    · rw [if_pos hfind, if_pos hfind, if_pos (hfit hfind), hcopy (hfit hfind)]
    · rw [if_neg hfind, if_neg hfind]
  · rename_i habs
    rw [if_neg habs] at hfit
    split
    · rename_i hdot
      have hlen : (dir ++ path ++ [47]).length < currentDirSize := by
        rw [if_pos hdot] at hfit
        rw [length_glued]
        exact hfit
      rw [if_pos hlen]
      by_cases hfind : s.findsDir (dir ++ path ++ [47]) = true
      · rw [if_pos hfind, if_pos hfind, hcopy hlen]
      · rw [if_neg hfind, if_neg hfind]
    · split
      · rw [hcopy (length_gobackLoop_le.trans_lt h)]
      · rfl

/-- And `kChdir` gives nothing for a call that leaves the buffer. -/
theorem kChdir_none_of_not_fits (hfit : ¬ ChdirFits s dir path) : kChdir s dir path = none := by
  unfold ChdirFits at hfit
  unfold kChdir
  split at hfit
  · rename_i habs
    rw [Classical.not_imp] at hfit
    rw [if_pos habs, if_pos hfit.1, if_neg hfit.2]
  · rename_i habs
    rw [if_neg habs]
    split at hfit
    · rename_i hdot
      rw [if_pos hdot]
      dsimp only
      rw [if_neg]
      rw [length_glued]
      exact hfit
    · exact absurd trivial hfit

/-! Runs -/

/-- One call stays inside exactly if it fits. -/
theorem DirEvent.step_inside_iff (h : ∀ dir ∈ dirs, dir.length < currentDirSize) :
    (∀ i ∈ (e.step s dirs).2, i < currentDirSize) ∧
      (∀ dir ∈ (e.step s dirs).1, dir.length < currentDirSize) ↔ e.Fits s dirs := by
  have hcopy : ∀ proc, (∀ i ∈ ((DirEvent.fork proc).step s dirs).2, i < currentDirSize) ∧
      ∀ dir ∈ ((DirEvent.fork proc).step s dirs).1, dir.length < currentDirSize := by
    intro proc
    unfold step
    dsimp only
    cases hdir : dirs[proc]? with
    | none => exact ⟨fun _ hi => absurd hi List.not_mem_nil, h⟩
    | some dir =>
      have hlen := h dir (List.mem_of_getElem? hdir)
      dsimp only
      constructor
      · unfold copyCurDirStores
        rw [List.forall_mem_append]
        refine ⟨by decide, fun i hi => ?_⟩
        have := List.mem_range.mp hi
        omega
      · rw [List.forall_mem_append]
        refine ⟨h, fun dir' hdir' => ?_⟩
        rw [List.mem_singleton.mp hdir']
        exact hlen
  cases e with
  | fork proc => exact ⟨fun _ => trivial, fun _ => hcopy proc⟩
  | execvpe proc => exact ⟨fun _ => trivial, fun _ => hcopy proc⟩
  | chdir proc path =>
    unfold step Fits
    dsimp only
    cases hdir : dirs[proc]? with
    | none =>
      exact ⟨fun _ _ hd => absurd hd.symm (Option.some_ne_none _),
        fun _ => ⟨fun _ hi => absurd hi List.not_mem_nil, h⟩⟩
    | some dir =>
      have hlen := h dir (List.mem_of_getElem? hdir)
      have hproc : proc < dirs.length := (List.getElem?_eq_some_iff.mp hdir).1
      dsimp only
      constructor
      · intro hin dir' hdir'
        rw [← Option.some.inj hdir']
        refine (kChdirStores_inside_iff hlen).mp ⟨hin.1, hin.2 _ ?_⟩
        exact List.mem_set hproc _
      · intro hfit
        have hin := (kChdirStores_inside_iff hlen).mpr (hfit dir rfl)
        refine ⟨hin.1, fun dir' hdir' => ?_⟩
        rcases List.mem_or_eq_of_mem_set hdir' with hold | rfl
        · exact h dir' hold
        · exact hin.2

theorem staysInside_iff (h : ∀ dir ∈ dirs, dir.length < currentDirSize) :
    StaysInside s dirs es ↔ AllFit s dirs es := by
  induction es generalizing dirs with
  | nil => exact Iff.rfl
  | cons e es ih =>
    unfold StaysInside AllFit
    constructor
    · intro hin
      exact ⟨(DirEvent.step_inside_iff h).mp ⟨hin.1, hin.2.1⟩, (ih hin.2.1).mp hin.2.2⟩
    · intro hfit
      have hstep := (DirEvent.step_inside_iff h).mpr hfit.1
      exact ⟨hstep.1, hstep.2, (ih hstep.2).mpr hfit.2⟩

/-- A sequence of calls of `k_chdir`, `fork` and `execvpe`, from the first process on, keeps every
`currentDir` inside its buffer exactly if every call fits. -/
theorem currentDir_inside_iff (s : InodeTree) (es : List DirEvent) :
    StaysInside s [[47]] es ↔ AllFit s [[47]] es :=
  staysInside_iff (by decide)

/-- A missing directory with a name of 98 characters is appended to `/` before it is looked for,
and its NUL is stored to index 100. -/
theorem currentDir_overflows :
    100 ∈ (kChdirStores abTree [47] (List.replicate 98 97)).2.2 ∧
      ¬ StaysInside abTree [[47]] [.chdir 0 (List.replicate 98 97)] := by
  have hmem : 100 ∈ (List.range (98 + 2)).map (1 + ·) := List.mem_map.mpr ⟨99, by simp, rfl⟩
  have hstore : 100 ∈ (kChdirStores abTree [47] (List.replicate 98 97)).2.2 := by
    unfold kChdirStores
    rw [if_neg (by decide), if_pos (by decide)]
    dsimp only
    split
    · exact List.mem_append_left _ hmem
    · exact List.mem_append_left _ hmem
  exact ⟨hstore, fun hin => absurd (hin.1 100 hstore) (by decide)⟩

end Sbunix
