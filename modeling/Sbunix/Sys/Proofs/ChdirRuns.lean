import Sbunix.Sys.Chdir
import Sbunix.Sys.Proofs.InsertRuns
import Sbunix.Sys.Proofs.Listing

/-!
# Runs of `k_chdir`

Within the limits of `ChdirLimits`, `currentDir` stays a string that begins with a slash and names
a directory, and each call leads to the directory that its path names.
-/

namespace Sbunix

variable {s : InodeTree} {currentDir currentDir' path dir xs ys tok : List UInt8}
  {q : List (List UInt8)} {j k n : Nat}

/-- The component `..`. -/
def dotDot : List UInt8 := [46, 46]

/-- The directory that `path` names: from the root if it is absolute, else from the directory
that `currentDir` names. -/
def namedFrom (s : InodeTree) (currentDir path : List UInt8) : Option Nat :=
  if path.head? = some 47 then s.lookup 0 (components 47 path)
  else (s.getInode currentDir).bind fun k => s.lookup k (components 47 path)

/-- `k_chdir` does what its path says: `..` leads to the parent, another path to the directory it
names, and a path that names none changes nothing. -/
def ChdirFollows (s : InodeTree) (currentDir path : List UInt8) : Prop :=
  ∃ ret currentDir', kChdir s currentDir path = some (ret, currentDir') ∧
    (path = dotDot → ret = 1 ∧ ∃ k parent, s.getInode currentDir = some k ∧
      (s.inode k).family.head? = some parent ∧ s.getInode currentDir' = some parent) ∧
    (path ≠ dotDot →
      (ret = 1 ↔ ∃ k, namedFrom s currentDir path = some k ∧ s.isDir k) ∧
      (ret = 1 → s.getInode currentDir' = namedFrom s currentDir path)) ∧
    (ret = 0 → currentDir' = currentDir)

/-- The call meets the limits of the string: an absolute path that names a directory fits the
buffer; a relative one fits, is appended to a string that ends in a slash or leads to no directory
with and without the slash, and does not begin with a dot, or with one dot while it names no
directory; `..` is not called on a string that ends in two slashes, unless it has no
components. -/
def ChdirLimits (s : InodeTree) (currentDir path : List UInt8) : Prop :=
  if path.head? = some 47 then s.findsDir path → path.length < currentDirSize
  else if path = dotDot then
    components 47 currentDir = [] ∨ ¬ [47, 47] <:+ currentDir
  else if path.head? = some 46 then
    path[1]? ≠ some 46 ∧ ∀ k, namedFrom s currentDir path = some k → s.isDir k = false
  else
    (path = [] ∨ [47] <:+ currentDir ∨ s.findsDir (currentDir ++ path ++ [47]) = false ∧
      ∀ k, namedFrom s currentDir path = some k → s.isDir k = false) ∧
    currentDir.length + path.length + 1 < currentDirSize

/-- The strings that calls of `k_chdir` within the limits lead to, from the root on. -/
inductive ChdirReach (s : InodeTree) : List UInt8 → Prop
  | init : ChdirReach s [47]
  | step {currentDir currentDir' path : List UInt8} {ret : Nat} : ChdirReach s currentDir →
      ChdirLimits s currentDir path → kChdir s currentDir path = some (ret, currentDir') →
      ChdirReach s currentDir'

/-- The loop of `..` cuts behind the last slash that it can see. -/
theorem gobackLoop_slash (hn : xs.length < n) (hys : ∀ c ∈ ys.take (n - xs.length - 1), c ≠ 47) :
    gobackLoop (xs ++ 47 :: ys) n = xs ++ [47] := by
  induction n with
  | zero => omega
  | succ n ih =>
    unfold gobackLoop
    by_cases heq : n = xs.length
    · rw [heq, if_pos (by simp)]
      simp [List.take_append]
    · have hget : (xs ++ 47 :: ys)[n]? = ys[n - xs.length - 1]? := by
        rw [List.getElem?_append_right (by omega), List.getElem?_cons, if_neg (by omega)]
      rw [if_neg, ih (by omega)]
      · intro c hc
        exact hys c (List.take_subset_take_left _ (by omega) hc)
      · rw [hget]
        intro hmem
        exact hys 47 (List.mem_of_getElem? (i := n - xs.length - 1) (by
          rw [List.getElem?_take_of_lt (by omega), hmem])) rfl

/-- `..` leaves a beginning of the string. -/
theorem exists_take_gobackLoop : ∃ m, 0 < m ∧ gobackLoop dir n = dir.take m := by
  induction n with
  | zero => exact ⟨dir.length + 1, Nat.succ_pos _, (List.take_of_length_le (Nat.le_succ _)).symm⟩
  | succ n ih =>
    unfold gobackLoop
    split
    · exact ⟨n + 1, Nat.succ_pos n, rfl⟩
    · exact ih

theorem head?_gobackLoop : (gobackLoop dir n).head? = dir.head? := by
  obtain ⟨m, hm, hback⟩ : ∃ m, 0 < m ∧ gobackLoop dir n = dir.take m := exists_take_gobackLoop
  rw [hback, List.head?_take, if_neg (Nat.ne_of_gt hm)]

theorem length_gobackLoop_le : (gobackLoop dir n).length ≤ dir.length := by
  obtain ⟨m, -, hback⟩ : ∃ m, 0 < m ∧ gobackLoop dir n = dir.take m := exists_take_gobackLoop
  rw [hback, List.length_take]
  exact Nat.min_le_right _ _

theorem length_glued {c : UInt8} : (dir ++ path ++ [c]).length = dir.length + path.length + 1 := by
  rw [List.length_append, List.length_append, List.length_singleton]

/-- `..` on a string without components leaves none. -/
theorem components_gobackLoop (h : components 47 dir = []) :
    components 47 (gobackLoop dir n) = [] := by
  induction n with
  | zero => exact h
  | succ n ih =>
    unfold gobackLoop
    split
    · rw [components_eq_nil] at h ⊢
      exact fun c hc => h c (List.mem_of_mem_take hc)
    · exact ih

/-- A string that begins with a slash and has components ends in its last one, but for slashes. -/
theorem exists_last_component (hhead : dir.head? = some 47) (hcomp : components 47 dir ≠ [])
    (hend : ¬ [47, 47] <:+ dir) :
    ∃ pre tok sfx, dir = pre ++ 47 :: (tok ++ sfx) ∧ tok ≠ [] ∧ (47 : UInt8) ∉ tok ∧
      (sfx = [] ∨ sfx = [47]) := by
  obtain ⟨core, sfx, hdir, hlast, hsfx⟩ : ∃ core sfx, dir = core ++ sfx ∧
      core.getLast? ≠ some 47 ∧ (sfx = [] ∨ sfx = [47]) := by
    by_cases hl : dir.getLast? = some 47
    · obtain ⟨core, rfl⟩ := List.getLast?_eq_some_iff.mp hl
      refine ⟨core, [47], rfl, fun hc => ?_, Or.inr rfl⟩
      obtain ⟨core', rfl⟩ := List.getLast?_eq_some_iff.mp hc
      exact hend ⟨core', by simp⟩
    · exact ⟨dir, [], (List.append_nil _).symm, hl, Or.inl rfl⟩
  have hmem : (47 : UInt8) ∈ core := by
    cases core with
    | nil =>
      refine absurd ?_ hcomp
      rw [hdir, List.nil_append]
      rcases hsfx with rfl | rfl <;> simp
    | cons c core =>
      rw [hdir, List.cons_append, List.head?_cons] at hhead
      rw [Option.some.inj hhead]
      exact List.mem_cons_self
  obtain ⟨bs, as, hrev, hnot⟩ := List.eq_append_cons_of_mem (List.mem_reverse.mpr hmem)
  have hcore : core = as.reverse ++ 47 :: bs.reverse := by
    rw [← List.reverse_reverse core, hrev]
    simp
  refine ⟨as.reverse, bs.reverse, sfx, ?_, ?_, fun h => hnot (List.mem_reverse.mp h), hsfx⟩
  · rw [hdir, hcore, List.append_assoc, List.cons_append]
  · intro hnil
    rw [hcore, hnil] at hlast
    exact hlast List.getLast?_concat

/-- `..` takes the last component away. -/
theorem components_goback (hhead : dir.head? = some 47)
    (hlimit : components 47 dir = [] ∨ ¬ [47, 47] <:+ dir) :
    components 47 (gobackLoop dir (dir.length - 1)) = (components 47 dir).dropLast := by
  by_cases hcomp : components 47 dir = []
  · rw [components_gobackLoop hcomp, hcomp]
    rfl
  · obtain ⟨pre, tok, sfx, hdir, htok, hnot, hsfx⟩ :=
      exists_last_component hhead hcomp (hlimit.resolve_left hcomp)
    have htoklen : 0 < tok.length := List.length_pos_of_ne_nil htok
    have hback : gobackLoop dir (dir.length - 1) = pre ++ [47] := by
      rw [hdir]
      apply gobackLoop_slash
      · rw [List.length_append, List.length_cons, List.length_append]
        omega
      · intro c hc heq
        rw [heq] at hc
        rw [List.take_append_of_le_length] at hc
        · exact hnot (List.mem_of_mem_take hc)
        · rw [List.length_append, List.length_cons, List.length_append]
          rcases hsfx with rfl | rfl
          · rw [List.length_nil]
            omega
          · rw [List.length_singleton]
            omega
    have hcompdir : components 47 dir = components 47 pre ++ [tok] := by
      rw [hdir, components_append]
      rcases hsfx with rfl | rfl
      · rw [List.append_nil, components_token htok hnot]
      · rw [components_append, components_token htok hnot, components_nil, List.append_nil]
    rw [hback, hcompdir, List.dropLast_concat, components_append, components_nil, List.append_nil]

/-- The components of a string without a slash at its end and a path glued to it. -/
theorem components_glued (hhead : dir.head? = some 47) (hend : ¬ [47] <:+ dir) (hne : path ≠ [])
    (hrel : path.head? ≠ some 47) :
    (components 47 (dir ++ path)).length + 1 =
      (components 47 dir ++ components 47 path).length := by
  have hcomp : components 47 dir ≠ [] := by
    intro hnil
    have hall := components_eq_nil.mp hnil
    cases hlast : dir.getLast? with
    | none =>
      rw [List.getLast?_eq_none_iff.mp hlast] at hhead
      cases hhead
    | some c =>
      obtain ⟨core, hcore⟩ := List.getLast?_eq_some_iff.mp hlast
      rw [hcore, hall c (List.mem_of_getLast? hlast)] at hend
      exact hend (List.suffix_append core [47])
  have hend' : ¬ [47, 47] <:+ dir := fun h => hend ((List.suffix_append [47] [47]).trans h)
  obtain ⟨pre, tok, sfx, hdir, htok, hnot, hsfx⟩ := exists_last_component hhead hcomp hend'
  obtain rfl : sfx = [] := by
    rcases hsfx with rfl | rfl
    · rfl
    · rw [hdir] at hend
      exact absurd ⟨pre ++ 47 :: tok, by simp⟩ hend
  rw [List.append_nil] at hdir
  obtain ⟨c, cs, rfl⟩ := List.exists_cons_of_ne_nil hne
  have hc : c ≠ 47 := fun h => hrel (congrArg some h)
  obtain ⟨a, tok, rfl⟩ := List.exists_cons_of_ne_nil htok
  have ha : a ≠ 47 := fun h => hnot (h ▸ List.mem_cons_self)
  have hall : ∀ x ∈ tok, x ≠ 47 := fun x hx h => hnot (h ▸ List.mem_cons_of_mem _ hx)
  have hglued : components 47 (a :: (tok ++ c :: cs)) =
      (a :: (tok ++ c :: cs).takeWhile (· ≠ 47)) :: components 47 (cs.dropWhile (· ≠ 47)) := by
    rw [components_cons ha, List.dropWhile_append_of_pos (by simpa using hall),
      List.dropWhile_cons_of_pos (by simpa using hc)]
  rw [hdir, List.append_assoc, List.cons_append, components_append, List.cons_append, hglued,
    components_append, components_token htok hnot, components_cons hc]
  simp only [List.length_append, List.length_cons, List.length_nil]
  omega

/-- Something that is reached by a lookup lies as many levels below as the lookup has
components. -/
theorem InodeTree.below_of_lookup (hs : s.Valid) (hk : k < s.count) (h : s.lookup k q = some j) :
    Below s.ChildOf k q.length j := by
  induction q generalizing k with
  | nil =>
    rw [← Option.some.inj h]
    exact .refl
  | cons t q ih =>
    obtain ⟨k', hk', hj⟩ := Option.bind_eq_some_iff.mp h
    exact Below.head ⟨hk, child_mem hk'⟩ (ih (hs.child_lt hk hk') hj)

/-- All lookups that lead to one inode have one number of components. -/
theorem InodeTree.Built.lookup_length (hb : s.Built) {p : List (List UInt8)}
    (hp : s.lookup 0 p = some k) (hq : s.lookup 0 q = some k) : p.length = q.length :=
  have hv := hb.linked.valid
  hb.isTree.depth_unique (InodeTree.below_of_lookup hv hv.root hp)
    (InodeTree.below_of_lookup hv hv.root hq)

/-- The path leads to the parent's lookup. -/
theorem InodeTree.Linked.lookup_dropLast (hs : s.Linked)
    (h : s.lookup 0 q = some k) :
    ∃ parent, (s.inode k).family.head? = some parent ∧ s.lookup 0 q.dropLast = some parent := by
  induction q using List.reverseRecOn with
  | nil =>
    rw [← Option.some.inj h]
    exact ⟨0, hs.root, rfl⟩
  | append_singleton q t _ =>
    rw [lookup_append] at h
    obtain ⟨parent, hp, hk⟩ := Option.bind_eq_some_iff.mp h
    unfold InodeTree.lookup at hk
    obtain ⟨k', hk', hk⟩ := Option.bind_eq_some_iff.mp hk
    rw [← Option.some.inj hk, List.dropLast_concat]
    exact ⟨parent, hs.child parent (lookup_lt hs.valid hs.valid.root hp) k' (child_mem hk'), hp⟩

theorem InodeTree.findsDir_iff :
    s.findsDir path = true ↔ ∃ k, s.getInode path = some k ∧ s.isDir k = true := by
  unfold findsDir
  cases s.getInode path <;> simp

/-- What the strings of a run satisfy. -/
structure ChdirInv (s : InodeTree) (dir : List UInt8) : Prop where
  head : dir.head? = some 47
  names : ∃ k, s.getInode dir = some k
  fits : dir.length < currentDirSize

theorem chdirInv_root (hs : s.Valid) : ChdirInv s [47] where
  head := rfl
  names := ⟨0, by rw [InodeTree.getInode_eq hs]; rfl⟩
  fits := by decide

/-- The call has one outcome, which follows the path and keeps the invariant. -/
def ChdirStepOk (s : InodeTree) (dir path : List UInt8) : Prop :=
  ChdirFollows s dir path ∧
    ∀ ret dir', kChdir s dir path = some (ret, dir') → ChdirInv s dir'

/-- A query decides: the path names a directory and becomes the current one, or nothing
changes. -/
theorem chdirStepOk_of_query (query : List UInt8) (hi : ChdirInv s dir) (hdots : path ≠ dotDot)
    (hquery : namedFrom s dir path = s.getInode query)
    (hcall : kChdir s dir path = some (if s.findsDir query then (1, query) else (0, dir)))
    (hhead : s.findsDir query → query.head? = some 47 ∧ query.length < currentDirSize) :
    ChdirStepOk s dir path := by
  unfold ChdirStepOk ChdirFollows
  rw [hcall, hquery]
  by_cases hfind : s.findsDir query = true
  · have hk := InodeTree.findsDir_iff.mp hfind
    rw [if_pos hfind]
    refine ⟨⟨1, query, rfl, fun h => absurd h hdots, fun _ => ⟨⟨fun _ => hk, fun _ => rfl⟩,
      fun _ => rfl⟩, fun h => absurd h (by decide)⟩, ?_⟩
    intro ret dir' hret
    obtain ⟨-, rfl⟩ := Prod.mk.inj (Option.some.inj hret)
    obtain ⟨k, hk, -⟩ := hk
    exact ⟨(hhead hfind).1, ⟨k, hk⟩, (hhead hfind).2⟩
  · have hno : ¬ ∃ k, s.getInode query = some k ∧ s.isDir k = true :=
      fun h => hfind (InodeTree.findsDir_iff.mpr h)
    rw [if_neg hfind]
    refine ⟨⟨0, dir, rfl, fun h => absurd h hdots, fun _ => ⟨⟨fun h => absurd h (by decide),
      fun h => absurd h hno⟩, fun h => absurd h (by decide)⟩, fun _ => rfl⟩, ?_⟩
    intro ret dir' hret
    obtain ⟨-, rfl⟩ := Prod.mk.inj (Option.some.inj hret)
    exact hi

theorem chdir_absolute (hs : s.Linked) (hi : ChdirInv s dir) (habs : path.head? = some 47)
    (hl : ChdirLimits s dir path) : ChdirStepOk s dir path := by
  have hfit : s.findsDir path → path.length < currentDirSize := by
    unfold ChdirLimits at hl
    rw [if_pos habs] at hl
    exact hl
  apply chdirStepOk_of_query path hi
  · intro h
    rw [h] at habs
    exact absurd habs (by decide)
  · unfold namedFrom
    rw [if_pos habs, InodeTree.getInode_eq hs.valid]
  · unfold kChdir
    rw [if_pos habs]
    by_cases hfind : s.findsDir path = true
    · rw [if_pos hfind, if_pos hfind, if_pos (hfit hfind)]
    · rw [if_neg hfind, if_neg hfind]
  · exact fun hfind => ⟨habs, hfit hfind⟩

/-- A call that is refused, of a path that names no directory. -/
theorem chdirStepOk_of_refused (hi : ChdirInv s dir) (hdots : path ≠ dotDot)
    (hcall : kChdir s dir path = some (0, dir))
    (hno : ∀ k, namedFrom s dir path = some k → s.isDir k = false) : ChdirStepOk s dir path := by
  unfold ChdirStepOk ChdirFollows
  rw [hcall]
  refine ⟨⟨0, dir, rfl, fun h => absurd h hdots, fun _ => ⟨⟨fun h => absurd h (by decide), ?_⟩,
    fun h => absurd h (by decide)⟩, fun _ => rfl⟩, ?_⟩
  · intro h
    obtain ⟨k, hk, hdir⟩ := h
    rw [hno k hk] at hdir
    cases hdir
  · intro ret dir' hret
    obtain ⟨-, rfl⟩ := Prod.mk.inj (Option.some.inj hret)
    exact hi

/-- What a plain relative path comes to. -/
theorem kChdir_relative (habs : path.head? ≠ some 47) (hdot : path.head? ≠ some 46) :
    kChdir s dir path = if dir.length + path.length + 1 < currentDirSize then
      some (if s.findsDir (dir ++ path ++ [47]) then (1, dir ++ path ++ [47]) else (0, dir))
      else none := by
  unfold kChdir
  rw [if_neg habs, if_pos hdot]
  dsimp only
  rw [length_glued]
  split
  · split <;> rfl
  · rfl

/-- With a slash between them the components are put together. -/
theorem components_appended (h : path = [] ∨ [47] <:+ dir) :
    components 47 (dir ++ path ++ [47]) = components 47 dir ++ components 47 path := by
  rw [components_append, components_nil, List.append_nil]
  rcases h with hnil | ⟨core, hcore⟩
  · rw [hnil, List.append_nil, components_nil, List.append_nil]
  · rw [← hcore, List.append_assoc, List.singleton_append, components_append, components_append,
      components_nil, List.append_nil]

theorem chdir_relative (hs : s.Linked) (hi : ChdirInv s dir) (habs : path.head? ≠ some 47)
    (hdot : path.head? ≠ some 46) (hl : ChdirLimits s dir path) : ChdirStepOk s dir path := by
  have hdots : path ≠ dotDot := by
    intro h
    rw [h] at hdot
    exact hdot rfl
  unfold ChdirLimits at hl
  rw [if_neg habs, if_neg hdots, if_neg hdot, ← or_assoc] at hl
  obtain ⟨hslash | ⟨hquery, hno⟩, hlen⟩ := hl
  · apply chdirStepOk_of_query (dir ++ path ++ [47]) hi hdots
    · unfold namedFrom
      rw [if_neg habs, InodeTree.getInode_eq hs.valid, InodeTree.getInode_eq hs.valid,
        components_appended hslash, InodeTree.lookup_append]
    · rw [kChdir_relative habs hdot, if_pos hlen]
    · intro _
      have hne : dir ≠ [] := by
        intro h
        have hhead := hi.head
        rw [h] at hhead
        cases hhead
      rw [List.append_assoc, List.head?_append_of_ne_nil _ hne, ← List.append_assoc, length_glued]
      exact ⟨hi.head, hlen⟩
  · refine chdirStepOk_of_refused hi hdots ?_ hno
    rw [kChdir_relative habs hdot, if_pos hlen, hquery]
    rfl

/-- What a path that begins with a dot comes to: it is not looked for. -/
theorem kChdir_dot (hdot : path.head? = some 46) : kChdir s dir path =
    some (if path[1]? = some 46 then (1, gobackLoop dir (dir.length - 1)) else (0, dir)) := by
  unfold kChdir
  rw [if_neg (by rw [hdot]; decide), if_neg (not_not.mpr hdot)]
  split <;> rfl

theorem chdir_dot (hi : ChdirInv s dir) (hdots : path ≠ dotDot)
    (hdot : path.head? = some 46) (hl : ChdirLimits s dir path) : ChdirStepOk s dir path := by
  have habs : path.head? ≠ some 47 := by
    rw [hdot]
    decide
  unfold ChdirLimits at hl
  rw [if_neg habs, if_neg hdots, if_pos hdot] at hl
  refine chdirStepOk_of_refused hi hdots ?_ hl.2
  rw [kChdir_dot hdot, if_neg hl.1]

theorem chdir_dotDot (hs : s.Linked) (hi : ChdirInv s dir) (hl : ChdirLimits s dir dotDot) :
    ChdirStepOk s dir dotDot := by
  obtain ⟨k, hk⟩ := hi.names
  have hk' := hk
  rw [InodeTree.getInode_eq hs.valid] at hk'
  obtain ⟨parent, hparent, hup⟩ := hs.lookup_dropLast hk'
  have hcomp := components_goback hi.head hl
  have hcall : kChdir s dir dotDot = some (1, gobackLoop dir (dir.length - 1)) := rfl
  have hget : s.getInode (gobackLoop dir (dir.length - 1)) = some parent := by
    rw [InodeTree.getInode_eq hs.valid, hcomp, hup]
  unfold ChdirStepOk ChdirFollows
  rw [hcall]
  refine ⟨⟨1, _, rfl, fun _ => ⟨rfl, k, parent, hk, hparent, hget⟩, fun h => absurd rfl h,
    fun h => absurd h (by decide)⟩, ?_⟩
  intro ret dir' hret
  obtain ⟨-, rfl⟩ := Prod.mk.inj (Option.some.inj hret)
  exact ⟨head?_gobackLoop.trans hi.head, ⟨parent, hget⟩, length_gobackLoop_le.trans_lt hi.fits⟩

theorem chdir_step (hs : s.Linked) (hi : ChdirInv s dir)
    (hl : ChdirLimits s dir path) : ChdirStepOk s dir path := by
  by_cases habs : path.head? = some 47
  · exact chdir_absolute hs hi habs hl
  · by_cases hdots : path = dotDot
    · rw [hdots] at hl ⊢
      exact chdir_dotDot hs hi hl
    · by_cases hdot : path.head? = some 46
      · exact chdir_dot hi hdots hdot hl
      · exact chdir_relative hs hi habs hdot hl

/-- Behind two slashes `..` takes only one of them away. -/
theorem components_goback_stuck (h : [47, 47] <:+ dir) :
    components 47 (gobackLoop dir (dir.length - 1)) = components 47 dir := by
  obtain ⟨core, rfl⟩ := h
  have hlen : (core ++ [47, 47]).length - 1 = core.length + 1 := by simp
  have hback : gobackLoop (core ++ [47, 47]) (core.length + 1) = core ++ [47] := by
    rw [gobackLoop_slash (Nat.lt_succ_self _)]
    simp
  rw [hlen, hback, components_append, show core ++ [47, 47] = core ++ 47 :: [47] from rfl,
    components_append, components_delim]

theorem length_components_goback_le (hi : ChdirInv s dir) :
    (components 47 (gobackLoop dir (dir.length - 1))).length ≤ (components 47 dir).length := by
  by_cases hend : [47, 47] <:+ dir
  · rw [components_goback_stuck hend]
  · rw [components_goback hi.head (.inr hend), List.length_dropLast]
    exact Nat.sub_le _ _

/-- A path that does not begin with a slash names what lies as many levels deeper. -/
theorem namedFrom_relative (hv : s.Valid) (habs : path.head? ≠ some 47) :
    namedFrom s dir path = s.lookup 0 (components 47 dir ++ components 47 path) := by
  unfold namedFrom
  rw [if_neg habs, InodeTree.getInode_eq hv, InodeTree.lookup_append]

section

variable (hb : s.Built) (hi : ChdirInv s dir) (h : ChdirFollows s dir path)

include hb hi h

omit hi in
theorem limits_dotDot (hdots : path = dotDot) : components 47 dir = [] ∨ ¬ [47, 47] <:+ dir := by
  obtain ⟨ret, dir', hcall, hup, -, -⟩ := h
  obtain ⟨-, k, parent, hk, hparent, hget⟩ := hup hdots
  have hv := hb.linked.valid
  rw [hdots] at hcall
  obtain rfl : gobackLoop dir (dir.length - 1) = dir' :=
    congrArg Prod.snd (Option.some.inj hcall)
  by_contra hno
  push Not at hno
  obtain ⟨hcomp, hend⟩ := hno
  -- the string still leads to the directory itself, which is not its own parent
  rw [InodeTree.getInode_eq hv, components_goback_stuck hend] at hget
  rw [InodeTree.getInode_eq hv] at hk
  obtain ⟨parent', hparent', hup'⟩ := hb.linked.lookup_dropLast hk
  obtain rfl := Option.some.inj (hparent.symm.trans hparent')
  have hlen := hb.lookup_length hget hup'
  rw [List.length_dropLast] at hlen
  have hpos := List.length_pos_of_ne_nil hcomp
  omega

theorem limits_dot (hdots : path ≠ dotDot) (hdot : path.head? = some 46) :
    path[1]? ≠ some 46 ∧ ∀ k, namedFrom s dir path = some k → s.isDir k = false := by
  obtain ⟨ret, dir', hcall, -, hplain, -⟩ := h
  obtain ⟨hret, hget⟩ := hplain hdots
  have hv := hb.linked.valid
  have habs : path.head? ≠ some 47 := by
    rw [hdot]
    decide
  rw [kChdir_dot hdot] at hcall
  by_cases hsecond : path[1]? = some 46
  · -- it goes up, where the path cannot lead
    rw [if_pos hsecond] at hcall
    obtain ⟨rfl, rfl⟩ := Prod.mk.inj (Option.some.inj hcall)
    obtain ⟨k, hk, -⟩ := hret.mp rfl
    have hup := (hget rfl).trans hk
    rw [InodeTree.getInode_eq hv] at hup
    rw [namedFrom_relative hv habs] at hk
    have hlen := hb.lookup_length hup hk
    have hle := length_components_goback_le hi
    have hpos : 0 < (components 47 path).length := by
      obtain ⟨cs, rfl⟩ := List.head?_eq_some_iff.mp hdot
      rw [components_cons (by decide)]
      exact Nat.succ_pos _
    rw [List.length_append] at hlen
    omega
  · rw [if_neg hsecond] at hcall
    obtain ⟨rfl, -⟩ := Prod.mk.inj (Option.some.inj hcall)
    refine ⟨hsecond, fun k hk => ?_⟩
    cases hdir : s.isDir k with
    | false => rfl
    | true => exact absurd (hret.mpr ⟨k, hk, hdir⟩) (by decide)

theorem limits_relative (habs : path.head? ≠ some 47) (hdot : path.head? ≠ some 46) :
    (path = [] ∨ [47] <:+ dir ∨ s.findsDir (dir ++ path ++ [47]) = false ∧
      ∀ k, namedFrom s dir path = some k → s.isDir k = false) ∧
    dir.length + path.length + 1 < currentDirSize := by
  obtain ⟨ret, dir', hcall, -, hplain, -⟩ := h
  obtain ⟨hret, hget⟩ := hplain (by rintro rfl; exact hdot rfl)
  have hv := hb.linked.valid
  rw [kChdir_relative habs hdot] at hcall
  split_ifs at hcall with hlen hfind
  · obtain ⟨rfl, rfl⟩ := Prod.mk.inj (Option.some.inj hcall)
    refine ⟨?_, hlen⟩
    by_cases hne : path = []
    · exact .inl hne
    by_cases hend : [47] <:+ dir
    · exact .inr (.inl hend)
    -- the glued string is one level too short for what the path names
    obtain ⟨k, hk, -⟩ := hret.mp rfl
    have hup := (hget rfl).trans hk
    rw [InodeTree.getInode_eq hv, components_append, components_nil, List.append_nil] at hup
    rw [namedFrom_relative hv habs] at hk
    have heq := hb.lookup_length hup hk
    have hglued := components_glued hi.head hend hne habs
    omega
  · obtain ⟨rfl, -⟩ := Prod.mk.inj (Option.some.inj hcall)
    refine ⟨.inr (.inr ⟨Bool.not_eq_true _ ▸ hfind, fun k hk => ?_⟩), hlen⟩
    cases hdir : s.isDir k with
    | false => rfl
    | true => exact absurd (hret.mpr ⟨k, hk, hdir⟩) (by decide)

/-- A call that follows its path meets the limits. -/
theorem chdirLimits_of_follows : ChdirLimits s dir path := by
  unfold ChdirLimits
  split_ifs with habs hdots hdot
  · intro hfind
    obtain ⟨ret, dir', hcall, -⟩ := h
    by_contra hlen
    unfold kChdir at hcall
    rw [if_pos habs, if_pos hfind, if_neg hlen] at hcall
    cases hcall
  · exact limits_dotDot hb h hdots
  · exact limits_dot hb hi h hdots hdot
  · exact limits_relative hb hi h habs hdot

end

theorem ChdirReach.inv (hs : s.Linked) (h : ChdirReach s dir) : ChdirInv s dir := by
  induction h with
  | init => exact chdirInv_root hs.valid
  | step _ hl hcall ih => exact (chdir_step hs ih hl).2 _ _ hcall

/-- In every run of calls within the limits, from the root on and in the tree that `init_tarfs`
makes of any archive, a call follows its path exactly if it is within the limits. -/
theorem kChdir_follows {t : Tarfs} {fuel : Nat} (ht : t.initTarfs fuel = some s)
    (h : ChdirReach s dir) : ChdirFollows s dir path ↔ ChdirLimits s dir path := by
  have hb := Tarfs.initTarfs_built ht
  have hi := h.inv hb.linked
  exact ⟨chdirLimits_of_follows hb hi, fun hl => (chdir_step hb.linked hi hl).1⟩

/-- A plain name behind a slash. -/
theorem chdirLimits_name (habs : path.head? ≠ some 47) (hdot : path.head? ≠ some 46)
    (hslash : [47] <:+ dir) (hlen : dir.length + path.length + 1 < currentDirSize) :
    ChdirLimits s dir path := by
  unfold ChdirLimits
  rw [if_neg habs, if_neg (by rintro rfl; exact hdot rfl), if_neg hdot]
  exact ⟨.inr (.inl hslash), hlen⟩

/-- `chdir("a")`, `chdir("b")`, `chdir("..")` and `chdir("b")` again. -/
theorem kChdir_follows_ab : ChdirReach abTree [47, 97, 47, 98, 47] ∧
    ChdirFollows abTree [47, 97, 47, 98, 47] dotDot ∧
    kChdir abTree [47, 97, 47, 98, 47] dotDot = some (1, [47, 97, 47]) ∧
    ChdirFollows abTree [47, 97, 47] [98] ∧ ChdirFollows abTree [47, 97, 47] [122] := by
  have ha : ChdirReach abTree [47, 97, 47] :=
    ChdirReach.init.step (chdirLimits_name (by decide) (by decide) ⟨[], rfl⟩ (by decide))
      (by decide : kChdir abTree [47] [97] = some (1, [47, 97, 47]))
  have hfits : 3 + 1 + 1 < currentDirSize := by decide
  have hname : ∀ c : UInt8, c ≠ 47 → c ≠ 46 → ChdirLimits abTree [47, 97, 47] [c] :=
    fun c h47 h46 =>
      chdirLimits_name (by simpa using h47) (by simpa using h46) ⟨[47, 97], rfl⟩ hfits
  have hb : ChdirReach abTree [47, 97, 47, 98, 47] :=
    ha.step (hname 98 (by decide) (by decide))
      (by decide : kChdir abTree [47, 97, 47] [98] = some (1, [47, 97, 47, 98, 47]))
  have hup : ChdirLimits abTree [47, 97, 47, 98, 47] dotDot := .inr (by decide)
  have hcall : kChdir abTree [47, 97, 47, 98, 47] dotDot = some (1, [47, 97, 47]) := by decide
  have hback : ChdirReach abTree [47, 97, 47] := hb.step hup hcall
  exact ⟨hb, (kChdir_follows abTarfs_init hb).mpr hup, hcall,
    (kChdir_follows abTarfs_init hback).mpr (hname 98 (by decide) (by decide)),
    (kChdir_follows abTarfs_init hback).mpr (hname 122 (by decide) (by decide))⟩

/-- After `chdir("/a")` the string is `/a`, and `chdir("b")` looks for `/ab/`. -/
theorem kChdir_glued :
    abTarfs.initTarfs 5 = some abTree ∧ kChdir abTree [47] [47, 97] = some (1, [47, 97]) ∧
      kChdir abTree [47, 97] [98] = some (0, [47, 97]) ∧
      ¬ ChdirFollows abTree [47, 97] [98] := by
  have hcall : kChdir abTree [47, 97] [98] = some (0, [47, 97]) := by decide
  have hnamed : namedFrom abTree [47, 97] [98] = some 2 ∧ abTree.isDir 2 = true := by decide
  refine ⟨abTarfs_init, by decide, hcall, fun h => ?_⟩
  obtain ⟨ret, dir', hret, -, hplain, -⟩ := h
  rw [hcall] at hret
  obtain ⟨rfl, -⟩ := Prod.mk.inj (Option.some.inj hret)
  exact absurd ((hplain (by decide)).1.mpr ⟨2, hnamed⟩) (by decide)

end Sbunix
