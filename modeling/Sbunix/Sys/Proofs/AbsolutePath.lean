import Sbunix.Sys.CurrentDir
import Sbunix.Sys.Proofs.ChdirRuns
import Sbunix.Sys.Proofs.PathSearch

/-!
# The shell's absolute paths

`GetAbsolutePath` puts a relative path behind `currentDir` without a slash, and writes no NUL
behind an absolute one.
-/

namespace Sbunix

variable {s : InodeTree} {currentDir path dir tok u v : List UInt8} {q : List (List UInt8)}
  {cwd absolutePath buf : Nat → UInt8} {j k n size : Nat}

/-- What shell and kernel should agree on: the string of a relative path resolves to what the path
names from the current directory, and an absolute path is its own string. -/
def PathsAgree (s : InodeTree) (currentDir path : List UInt8) (cwd absolutePath : Nat → UInt8) :
    Prop :=
  ∃ buf str, getAbsolutePath currentDir path cwd absolutePath = some buf ∧
    HoldsString 1024 buf str ∧
    (path.head? = some 47 → str = path) ∧
    (path.head? ≠ some 47 → s.getInode str = namedFrom s currentDir path)

/-! The strings of a history -/

/-- What the strings of a history satisfy. -/
structure HistoryInv (dir : List UInt8) : Prop where
  head : dir.head? = some 47
  short : dir.length ≤ 510
  noNul : (0 : UInt8) ∉ dir

theorem HistoryInv.copyNewPath (hhead : dir.head? = some 47) (h0 : (0 : UInt8) ∉ dir) :
    HistoryInv (copyNewPath dir).1 where
  head := by
    unfold Sbunix.copyNewPath
    rw [List.head?_take, if_neg (by decide)]
    exact hhead
  short := List.length_take_le _ _
  noNul hmem := h0 (List.mem_of_mem_take hmem)

theorem ChdirHistory.inv (h : ChdirHistory s dir) : HistoryInv dir := by
  induction h with
  | init => exact ⟨rfl, by decide, by decide⟩
  | @step dir dir' path stores _ h0 hcall ih =>
    unfold kChdirStores at hcall
    dsimp only at hcall
    split at hcall
    · rename_i habs
      split at hcall
      · obtain rfl : dir' = (copyNewPath path).1 :=
          (congrArg (fun r => r.2.1) hcall).symm
        exact HistoryInv.copyNewPath habs h0
      · cases hcall
    · split at hcall
      · split at hcall
        · obtain rfl : dir' = (copyNewPath (dir.take (min dir.length 512) ++ path ++ [47])).1 :=
            (congrArg (fun r => r.2.1) hcall).symm
          rw [Nat.min_eq_left (ih.short.trans (by decide)), List.take_length]
          apply HistoryInv.copyNewPath
          · rw [List.append_assoc, List.head?_append, ih.head]
            rfl
          · simp [ih.noNul, h0]
        · cases hcall
      · split at hcall
        · obtain rfl : dir' = (copyNewPath (gobackLoop dir (min dir.length 512 - 1))).1 :=
            (congrArg (fun r => r.2.1) hcall).symm
          apply HistoryInv.copyNewPath
          · exact head?_gobackLoop.trans ih.head
          · obtain ⟨m, -, hback⟩ : ∃ m, 0 < m ∧
                gobackLoop dir (min dir.length 512 - 1) = dir.take m := exists_take_gobackLoop
            rw [hback]
            exact fun hmem => ih.noNul (List.mem_of_mem_take hmem)
        · cases hcall

/-! The paths -/

/-- `GetCurrentDir` gives the whole string. -/
theorem cString_getCurrentDir (cwd : Nat → UInt8) (h : HistoryInv dir) :
    ∃ currDir, getCurrentDir dir cwd = some currDir ∧ cString currDir 1024 0 = dir := by
  have hshort := h.short
  have hlen : dir.length < 1024 := by omega
  refine ⟨withChars cwd 0 (dir ++ [0]), ?_, ?_⟩
  · unfold getCurrentDir kGetcwd
    rw [List.take_of_length_le (by omega), putChars_eq]
    rw [List.length_append, List.length_singleton]
    omega
  · exact cString_of_holds (holdsString_withChars hlen h.noNul)

/-- What a relative path is turned into. -/
theorem getAbsolutePath_relative (h : HistoryInv dir) (hrel : path.head? ≠ some 47) :
    getAbsolutePath dir path cwd absolutePath =
      if dir.length + path.length < 1024 then
        some (withChars absolutePath 0 (dir ++ path ++ [0])) else none := by
  obtain ⟨currDir, hcurr, hstr⟩ := cString_getCurrentDir cwd h
  have hlen : (dir ++ path ++ [0]).length = dir.length + path.length + 1 := length_glued
  unfold getAbsolutePath
  rw [if_neg hrel, hcurr, Option.bind_some, hstr]
  split
  · rw [putChars_eq (by omega)]
  · rw [putChars_none (by omega) (by simp)]

theorem getAbsolutePath_absolute (habs : path.head? = some 47) (hlen : path.length ≤ 1024) :
    getAbsolutePath dir path cwd absolutePath = some (withChars absolutePath 0 path) := by
  unfold getAbsolutePath
  rw [if_pos habs, putChars_eq (by omega)]

/-- When the string of a relative path resolves to what the path names. -/
theorem getInode_glued_iff (hb : s.Built) (h : HistoryInv dir) (hrel : path.head? ≠ some 47) :
    s.getInode (dir ++ path) = namedFrom s dir path ↔
      [47] <:+ dir ∨ path = [] ∨
        namedFrom s dir path = none ∧ s.getInode (dir ++ path) = none := by
  have hv := hb.linked.valid
  have hnamed : namedFrom s dir path = s.lookup 0 (components 47 dir ++ components 47 path) := by
    unfold namedFrom
    rw [if_neg hrel, InodeTree.getInode_eq hv, InodeTree.lookup_append]
  rw [hnamed, InodeTree.getInode_eq hv]
  by_cases hend : [47] <:+ dir
  · obtain ⟨core, rfl⟩ := hend
    simp only [List.suffix_append, true_or, iff_true]
    rw [List.append_assoc, List.singleton_append, components_append, components_append,
      components_nil, List.append_nil]
  · by_cases hne : path = []
    · simp [hne]
    · simp only [hend, hne, false_or]
      constructor
      · intro heq
        cases hfind : s.lookup 0 (components 47 dir ++ components 47 path) with
        | none => exact ⟨rfl, heq.trans hfind⟩
        | some j =>
          -- the two paths have different lengths, so they do not lead to one inode
          have hlen := components_glued h.head hend hne hrel
          have := hb.lookup_length (heq.trans hfind) hfind
          omega
      · rintro ⟨hlong, hshort⟩
        rw [hlong, hshort]

/-- What the calls come to, for the strings of a history. -/
theorem pathsAgree_iff (hb : s.Built) (h : HistoryInv dir) (h0 : (0 : UInt8) ∉ path) :
    PathsAgree s dir path cwd absolutePath ↔
      if path.head? = some 47 then path.length < 1024 ∧ absolutePath path.length = 0
      else dir.length + path.length < 1024 ∧ ([47] <:+ dir ∨ path = [] ∨
        namedFrom s dir path = none ∧ s.getInode (dir ++ path) = none) := by
  unfold PathsAgree
  split
  · rename_i habs
    constructor
    · rintro ⟨buf, str, hcall, hstr, heq, -⟩
      rw [heq habs] at hstr
      rw [getAbsolutePath_absolute habs (Nat.le_of_lt hstr.fits)] at hcall
      rw [← Option.some.inj hcall] at hstr
      exact (holdsString_withChars_iff h0).mp hstr
    · intro hnul
      exact ⟨_, path, getAbsolutePath_absolute habs (Nat.le_of_lt hnul.1),
        (holdsString_withChars_iff h0).mpr hnul, fun _ => rfl, fun hrel => absurd habs hrel⟩
  · rename_i hrel
    have h0' : (0 : UInt8) ∉ dir ++ path := by simp [h.noNul, h0]
    rw [getAbsolutePath_relative h hrel, ← getInode_glued_iff hb h hrel]
    constructor
    · rintro ⟨buf, str, hcall, hstr, -, hget⟩
      split at hcall
      · rename_i hlen
        rw [← Option.some.inj hcall] at hstr
        have hglued := hstr.unique (holdsString_withChars (by rw [List.length_append]; exact hlen) h0')
        rw [← hglued]
        exact ⟨hlen, hget hrel⟩
      · cases hcall
    · rintro ⟨hlen, hget⟩
      rw [if_pos hlen]
      exact ⟨_, dir ++ path, rfl,
        holdsString_withChars (by rw [List.length_append]; exact hlen) h0',
        fun habs => absurd habs hrel, fun _ => hget⟩

/-- After any history of successful calls of `k_chdir`, in the tree that `init_tarfs` makes of any
archive, the shell's path is right exactly if an absolute path finds a NUL behind it in the
buffer, and a relative one fits the buffer and is put behind a slash, is empty, or names nothing
with and without the slash. -/
theorem getAbsolutePath_agrees_iff {t : Tarfs} {fuel : Nat} (ht : t.initTarfs fuel = some s)
    (h : ChdirHistory s dir) (h0 : (0 : UInt8) ∉ path) :
    PathsAgree s dir path cwd absolutePath ↔
      if path.head? = some 47 then path.length < 1024 ∧ absolutePath path.length = 0
      else dir.length + path.length < 1024 ∧ ([47] <:+ dir ∨ path = [] ∨
        namedFrom s dir path = none ∧ s.getInode (dir ++ path) = none) :=
  pathsAgree_iff (Tarfs.initTarfs_built ht) h.inv h0

/-- `chdir("a")`, `chdir("b")` and `chdir("..")` lead to `/a/`, where the shell's paths are right
in buffers of `x`: those of `b` and of a name that nothing has. -/
theorem getAbsolutePath_agrees_iff_ab : ChdirHistory abTree [47, 97, 47] ∧
    PathsAgree abTree [47, 97, 47] [98] (fun _ => 120) (fun _ => 120) ∧
    PathsAgree abTree [47, 97, 47] [122] (fun _ => 120) (fun _ => 120) ∧
    ¬ PathsAgree abTree [47, 97, 47] [47, 97] (fun _ => 120) (fun _ => 120) := by
  have ha : ChdirHistory abTree [47, 97, 47] :=
    ChdirHistory.init.step (by decide : (0 : UInt8) ∉ [97]) rfl
  have hb : ChdirHistory abTree [47, 97, 47, 98, 47] := ha.step (by decide : (0 : UInt8) ∉ [98]) rfl
  have hback : ChdirHistory abTree [47, 97, 47] := hb.step (by decide : (0 : UInt8) ∉ dotDot) rfl
  have hslash : [(47 : UInt8)] <:+ [47, 97, 47] := ⟨[47, 97], rfl⟩
  refine ⟨hback, (getAbsolutePath_agrees_iff abTarfs_init hback (by decide)).mpr ?_,
    (getAbsolutePath_agrees_iff abTarfs_init hback (by decide)).mpr ?_, fun h => ?_⟩
  · rw [if_neg (by decide)]
    exact ⟨by decide, .inl hslash⟩
  · rw [if_neg (by decide)]
    exact ⟨by decide, .inl hslash⟩
  · have hcond := (getAbsolutePath_agrees_iff abTarfs_init hback (by decide)).mp h
    rw [if_pos (by decide)] at hcond
    exact absurd hcond.2 (by decide)

/-- After `chdir("/a")` the shell turns `b` into `/ab`, which names nothing, though `/a/b` is a
directory; and in a buffer of `x` it turns `/a` into a string that does not end. -/
theorem getAbsolutePath_glued :
    abTarfs.initTarfs 5 = some abTree ∧ ChdirHistory abTree [47, 97] ∧
      namedFrom abTree [47, 97] [98] = some 2 ∧ abTree.getInode [47, 97, 98] = none ∧
      ¬ PathsAgree abTree [47, 97] [98] (fun _ => 0) (fun _ => 0) ∧
      ¬ PathsAgree abTree [47, 97] [47, 97] (fun _ => 0) (fun _ => 120) := by
  have hb := Tarfs.initTarfs_built abTarfs_init
  have hreach : ChdirHistory abTree [47, 97] :=
    ChdirHistory.init.step (by decide)
      (rfl : kChdirStores abTree [47] [47, 97] = (1, [47, 97], [0, 1, 2]))
  have hnamed : namedFrom abTree [47, 97] [98] = some 2 := by decide
  refine ⟨abTarfs_init, hreach, hnamed, by decide, fun h => ?_, fun h => ?_⟩
  · have hcond := (pathsAgree_iff hb hreach.inv (by decide)).mp h
    rw [if_neg (by decide), hnamed] at hcond
    exact absurd hcond.2 (by decide)
  · have hcond := (pathsAgree_iff hb hreach.inv (by decide)).mp h
    rw [if_pos (by decide)] at hcond
    exact absurd hcond.2 (by decide)

end Sbunix
