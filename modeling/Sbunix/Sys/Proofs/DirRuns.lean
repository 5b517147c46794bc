import Sbunix.Misc.Reach
import Sbunix.Sys.Dirs
import Sbunix.Sys.Proofs.InsertRuns

/-!
# Runs of `k_opendir`, `k_readdir` and `k_closedir`

An open object enumerates the children of its inode, whatever happens to other objects.  Nothing
is ever recycled: `k_closedir` passes `NULL` to `recycledirstruct`.
-/

namespace Sbunix

variable {tree : InodeTree} {s s' : DirState} {p : DirPool} {r : DirLog} {o : Dir}
  {path : List UInt8} {name : Option (List UInt8)} {rs : List (Option (List UInt8))}
  {d d' dirobj k : Nat}

namespace DirState

@[simp] theorem setDir_dir_self : (s.setDir d o).dir d = o := Function.update_self _ _ _

theorem setDir_dir_of_ne (h : d' ≠ d) : (s.setDir d o).dir d' = s.dir d' :=
  Function.update_of_ne h _ _

@[simp] theorem setDir_kmallocs : (s.setDir d o).kmallocs = s.kmallocs := rfl

@[simp] theorem setDir_dirRecycleList : (s.setDir d o).dirRecycleList = s.dirRecycleList := rfl

@[simp] theorem setDir_nulls : (s.setDir d o).nulls = s.nulls := rfl

/-- With an empty recycle list an object is new. -/
theorem getnewdir_eq (h : s.dirRecycleList = 0) :
    s.getnewdir = ({ s with kmallocs := s.kmallocs + 1 }.setDir (s.kmallocs + 1)
      ⟨[], noInode, [], 0⟩, s.kmallocs + 1) := by
  simp [getnewdir, getdirFromRecyclebin, h]

/-- What a call of `k_opendir` does while the recycle list is empty: it takes a new object, and
opens it if the path names a directory. -/
theorem kOpendir_cases (h : s.dirRecycleList = 0)
    (ho : s.kOpendir tree path = some (s', dirobj)) :
    s'.dirRecycleList = 0 ∧ s'.kmallocs = s.kmallocs + 1 ∧
      (∀ d, d ≠ s.kmallocs + 1 → s'.dir d = s.dir d) ∧
      (dirobj = 0 ∨ dirobj = s.kmallocs + 1 ∧ (∃ k, tree.getInode path = some k) ∧
        (s'.dir dirobj).path = path ∧ (s'.dir dirobj).currInode = 1) := by
  have hframe : ∀ o, ∀ d, d ≠ s.kmallocs + 1 →
      ({ s with kmallocs := s.kmallocs + 1 }.setDir (s.kmallocs + 1) o).dir d = s.dir d :=
    fun o d hd => setDir_dir_of_ne hd
  unfold kOpendir at ho
  rw [getnewdir_eq h] at ho
  dsimp only at ho
  cases hq : tree.getInode path with
  | none =>
    rw [hq] at ho
    obtain ⟨rfl, rfl⟩ := Prod.mk.inj (Option.some.inj ho)
    exact ⟨h, rfl, hframe _, Or.inl rfl⟩
  | some query =>
    rw [hq] at ho
    dsimp only at ho
    split at ho
    · split at ho
      · obtain ⟨rfl, rfl⟩ := Prod.mk.inj (Option.some.inj ho)
        refine ⟨h, rfl, fun d hd => ?_, Or.inr ⟨rfl, ⟨query, rfl⟩, ?_, ?_⟩⟩
        · rw [setDir_dir_of_ne hd, hframe _ d hd]
        · simp
        · simp
      · cases ho
    · obtain ⟨rfl, rfl⟩ := Prod.mk.inj (Option.some.inj ho)
      exact ⟨h, rfl, hframe _, Or.inl rfl⟩

/-- `k_opendir` comes to an end unless it opens a directory with a path that is too long. -/
theorem kOpendir_isSome :
    (s.kOpendir tree path).isSome ↔ (tree.findsDir path → path.length < nameSize) := by
  unfold kOpendir InodeTree.findsDir
  dsimp only
  cases tree.getInode path with
  | none => simp
  | some query =>
    dsimp only
    by_cases hd : tree.isDir query = true
    · by_cases hl : path.length < nameSize <;> simp [hd, hl]
    · simp [hd]

end DirState

/-! Enumeration -/

/-- The object has been read as far as its results say, and these are the names of the children of
`k` in order, and then `NULL`. -/
structure Enumerates (tree : InodeTree) (o : Dir) (k : Nat) (rs : List (Option (List UInt8))) :
    Prop where
  path : tree.getInode o.path = some k
  currInode : o.currInode = 1 + min rs.length (tree.children k).length
  results : rs = (List.range rs.length).map fun i => (tree.childNames k)[i]?

theorem Enumerates.append (h : Enumerates tree o k rs) {o' : Dir} (hpath : o'.path = o.path)
    (hcurr : o'.currInode = 1 + min (rs.length + 1) (tree.children k).length) :
    Enumerates tree o' k (rs ++ [(tree.childNames k)[rs.length]?]) where
  path := by
    rw [hpath]
    exact h.path
  currInode := by simpa using hcurr
  results := by
    rw [List.length_append, List.length_singleton, List.range_succ, List.map_append, ← h.results]
    rfl

/-- One call of `k_readdir` gives the next name. -/
theorem Enumerates.readdir (h : Enumerates tree (s.dir d) k rs) (hv : tree.Valid)
    (hk : k < tree.count) (hd : d ≠ 0) (hr : s.kReaddir tree d = some (s', name)) :
    ∃ o, s' = s.setDir d o ∧ Enumerates tree o k (rs ++ [name]) := by
  have hlen := InodeTree.length_children hv hk
  have hmax : (tree.inode k).family.length ≤ 10 := hv.bounded k hk
  have hcurr := h.currInode
  unfold DirState.kReaddir at hr
  dsimp only at hr
  rw [if_neg hd, h.path] at hr
  dsimp only at hr
  split at hr
  · rename_i hend
    have hall : (tree.children k).length ≤ rs.length := by
      rcases hend with hend | hend
      · rw [hcurr, noInode] at hend
        omega
      · omega
    have hnone : (tree.childNames k)[rs.length]? = none := by
      unfold InodeTree.childNames
      rw [List.getElem?_eq_none_iff, List.length_map]
      exact hall
    obtain ⟨rfl, rfl⟩ := Prod.mk.inj (Option.some.inj hr)
    refine ⟨s.dir d, ?_, ?_⟩
    · simp [DirState.setDir]
    · rw [← hnone]
      refine h.append rfl ?_
      rw [hcurr]
      omega
  · rename_i hmore
    rw [not_or, Nat.not_le] at hmore
    have hlt : rs.length < (tree.children k).length := by omega
    have hpos : (s.dir d).currInode = 1 + rs.length := by omega
    split at hr
    · have hname : (tree.childNames k)[rs.length]? =
          some (tree.inode ((tree.inode k).family.getD (s.dir d).currInode 0)).inodeName := by
        unfold InodeTree.childNames InodeTree.children
        rw [List.getElem?_map, List.getElem?_drop, List.getD_eq_getElem?_getD, hpos,
          List.getElem?_eq_getElem (by omega)]
        rfl
      obtain ⟨rfl, rfl⟩ := Prod.mk.inj (Option.some.inj hr)
      refine ⟨_, rfl, ?_⟩
      rw [← hname]
      refine h.append rfl ?_
      dsimp only
      rw [hpos, Nat.mod_eq_of_lt (by omega)]
      omega
    · cases hr

/-- What a run of `k_opendir` and `k_readdir` keeps. -/
structure DirInv (tree : InodeTree) (r : DirLog) : Prop where
  recycle : r.kernel.dirRecycleList = 0
  null : r.inode 0 = none
  fresh : ∀ d, r.kernel.kmallocs < d → r.inode d = none ∧ r.results d = []
  opened : ∀ d k, r.inode d = some k →
    k < tree.count ∧ Enumerates tree (r.kernel.dir d) k (r.results d)

theorem DirInv.opendir (h : DirInv tree r) (hv : tree.Valid)
    (ho : r.kernel.kOpendir tree path = some (s, dirobj)) :
    DirInv tree ⟨s, if dirobj = 0 then r.inode
      else Function.update r.inode dirobj (tree.getInode path), r.results⟩ := by
  obtain ⟨hrec, hcount, hframe, hobj⟩ := DirState.kOpendir_cases h.recycle ho
  have hold : ∀ d k, r.inode d = some k → d ≠ r.kernel.kmallocs + 1 := by
    intro d k hd heq
    rw [(h.fresh d (by omega)).1] at hd
    cases hd
  have hkeep : ∀ d k, r.inode d = some k →
      k < tree.count ∧ Enumerates tree (s.dir d) k (r.results d) := by
    intro d k hd
    rw [hframe d (hold d k hd)]
    exact h.opened d k hd
  rcases hobj with rfl | ⟨rfl, ⟨k, hk⟩, hpath, hcurr⟩
  · rw [if_pos rfl]
    have hlt : r.kernel.kmallocs < s.kmallocs := by omega
    exact ⟨hrec, h.null, fun d hd => h.fresh d (hlt.trans hd), hkeep⟩
  · rw [if_neg (by omega)]
    constructor
    · exact hrec
    · dsimp only
      rw [Function.update_of_ne (by omega)]
      exact h.null
    · intro d hd
      dsimp only at hd ⊢
      rw [Function.update_of_ne (by omega)]
      exact h.fresh d (by omega)
    · intro d j hd
      dsimp only at hd ⊢
      by_cases hnew : d = r.kernel.kmallocs + 1
      · rw [hnew, Function.update_self, hk] at hd
        obtain rfl := Option.some.inj hd
        rw [hnew, (h.fresh _ (Nat.lt_succ_self _)).2]
        rw [InodeTree.getInode_eq hv] at hk
        refine ⟨InodeTree.lookup_lt hv hv.root hk, ?_, ?_, rfl⟩
        · rw [hpath, InodeTree.getInode_eq hv, hk]
        · simpa using hcurr
      · rw [Function.update_of_ne hnew] at hd
        exact hkeep d j hd

theorem DirInv.readdir (h : DirInv tree r) (hv : tree.Valid) (hd : (r.inode d).isSome)
    (hr : r.kernel.kReaddir tree d = some (s, name)) :
    DirInv tree ⟨s, r.inode, Function.update r.results d (r.results d ++ [name])⟩ := by
  obtain ⟨k, hk⟩ := Option.isSome_iff_exists.mp hd
  have hnull : d ≠ 0 := by
    intro h0
    rw [h0, h.null] at hk
    cases hk
  obtain ⟨hlt, henum⟩ := h.opened d k hk
  obtain ⟨o, rfl, ho⟩ := henum.readdir hv hlt hnull hr
  refine ⟨h.recycle, h.null, ?_, ?_⟩
  · intro d' hd'
    have hfresh := h.fresh d' hd'
    dsimp only
    rw [Function.update_of_ne]
    · exact hfresh
    · intro heq
      rw [heq, hk] at hfresh
      cases hfresh.1
  · intro d' k' hd'
    dsimp only at hd' ⊢
    by_cases heq : d' = d
    · rw [heq, hk] at hd'
      rw [heq, ← Option.some.inj hd', DirState.setDir_dir_self, Function.update_self]
      exact ⟨hlt, ho⟩
    · rw [DirState.setDir_dir_of_ne heq, Function.update_of_ne heq]
      exact h.opened d' k' hd'

theorem DirReach.inv (hv : tree.Valid) (h : DirReach tree r) : DirInv tree r := by
  induction h with
  | init => exact ⟨rfl, rfl, fun _ _ => ⟨rfl, rfl⟩, fun d k hd => nomatch hd⟩
  | opendir _ ho ih => exact ih.opendir hv ho
  | readdir _ hd hr ih => exact ih.readdir hv hd hr

/-- `k_readdir` comes to an end when the names fit `d_name`. -/
theorem DirState.kReaddir_isSome (hv : tree.Valid) (hpath : tree.getInode (s.dir d).path = some k)
    (hk : k < tree.count) (hcurr : 0 < (s.dir d).currInode)
    (hnames : ∀ j < tree.count, (tree.inode j).inodeName.length < nameSize) :
    (s.kReaddir tree d).isSome := by
  unfold kReaddir
  dsimp only
  rw [hpath]
  dsimp only
  split
  · rfl
  · split
    · rfl
    · rename_i hmore
      rw [not_or, Nat.not_le] at hmore
      rw [if_pos]
      · rfl
      · refine hnames _ (hv.closed k hk _ ?_)
        apply List.mem_of_getElem? (i := (s.dir d).currInode - 1)
        unfold InodeTree.children
        rw [List.getElem?_drop, Nat.add_sub_cancel' hcurr, List.getD_eq_getElem?_getD,
          List.getElem?_eq_getElem hmore.2]
        rfl

/-- The names of the inodes are no longer than those of the headers. -/
theorem Tarfs.initTarfs_names {t : Tarfs} {fuel n : Nat} (hn : 1 < n)
    (hnames : ∀ h, (t.header h).name.length < n) (h : t.initTarfs fuel = some tree) :
    ∀ j < tree.count, (tree.inode j).inodeName.length < n := by
  refine (Tarfs.initTarfs_keeps (P := fun s => s.Linked ∧
    ∀ j < s.count, (s.inode j).inodeName.length < n) ⟨InodeTree.rootTree_linked, fun _ _ => hn⟩
    ?_ h).2
  intro s h size type hs
  refine ⟨InodeTree.insertIntoRoot_linked hs.1, ?_⟩
  refine InodeTree.insertIntoRoot_keeps (P := fun s => ∀ j < s.count,
    (s.inode j).inodeName.length < n) ?_ hs.1.valid hs.2
  intro s k c hv hs hk hc _ _ j hj
  rcases Nat.lt_succ_iff_lt_or_eq.mp hj with hlt | heq
  · rw [(InodeTree.append_extends hv hk).inodeName hlt]
    exact hs j hlt
  · rw [heq, InodeTree.append_inode_count hk]
    exact (length_le_of_mem_components hc).trans_lt (hnames h)

/-- In every run of `k_opendir` and `k_readdir` over the tree that `init_tarfs` makes of any archive,
each object gives the names of the children of its directory, in the order of their insertion and
each once, and then `NULL`; and every call comes to an end if the names of the archive fit. -/
theorem kReaddir_enumerates {t : Tarfs} {fuel : Nat} (ht : t.initTarfs fuel = some tree)
    (h : DirReach tree r) (hk : r.inode d = some k) :
    r.results d = (List.range (r.results d).length).map (fun i => (tree.childNames k)[i]?) ∧
      (tree.childNames k).Nodup ∧ (tree.children k).Pairwise (· < ·) ∧
      ((∀ i, (t.header i).name.length < nameSize) → (r.kernel.kReaddir tree d).isSome) := by
  have hb := Tarfs.initTarfs_built ht
  have hv := hb.linked.valid
  obtain ⟨hlt, henum⟩ := (h.inv hv).opened d k hk
  refine ⟨henum.results, hb.names k hlt, hb.ordered k hlt, fun hnames => ?_⟩
  refine DirState.kReaddir_isSome hv henum.path hlt ?_ ?_
  · rw [henum.currInode]
    omega
  · exact Tarfs.initTarfs_names (by decide) hnames ht

/-- A call of `k_opendir` with a path or of `k_readdir` with an object, recorded. -/
def DirLog.step (tree : InodeTree) : List UInt8 ⊕ Nat → DirLog → Option DirLog
  | .inl path, r => (r.kernel.kOpendir tree path).map fun c =>
      ⟨c.1, if c.2 = 0 then r.inode else Function.update r.inode c.2 (tree.getInode path), r.results⟩
  | .inr dirobj, r =>
      if (r.inode dirobj).isSome then
        (r.kernel.kReaddir tree dirobj).map fun c =>
          ⟨c.1, r.inode, Function.update r.results dirobj (r.results dirobj ++ [c.2])⟩
      else none

theorem DirReach.step {l : List UInt8 ⊕ Nat} {r' : DirLog} (h : DirReach tree r)
    (hs : DirLog.step tree l r = some r') : DirReach tree r' := by
  cases l with
  | inl path =>
    obtain ⟨c, hc, rfl⟩ := Option.map_eq_some_iff.mp hs
    exact h.opendir hc
  | inr dirobj =>
    unfold DirLog.step at hs
    dsimp only at hs
    split_ifs at hs with hopen
    obtain ⟨c, hc, rfl⟩ := Option.map_eq_some_iff.mp hs
    exact h.readdir hopen hc

theorem DirReach.run {ls : List (List UInt8 ⊕ Nat)} {r' : DirLog} (h : DirReach tree r)
    (hs : runLabels (DirLog.step tree) ls r = some r') : DirReach tree r' := by
  induction ls generalizing r with
  | nil => exact Option.some.inj hs ▸ h
  | cons l ls ih =>
    obtain ⟨q, hq, hrest⟩ := Option.bind_eq_some_iff.mp hs
    exact ih (h.step hq) hrest

/-- `/` and `/a` are opened in the tree of `a/` and `a/b/`, and then read in turns. -/
def abCalls : List (List UInt8 ⊕ Nat) := [.inl [47], .inl [47, 97], .inr 1, .inr 2, .inr 1, .inr 2]

/-- What these calls leave. -/
def abLog : DirLog :=
  (runLabels (DirLog.step abTree) abCalls ⟨noDirs, fun _ => none, fun _ => []⟩).get (by decide)

theorem abLog_reach : DirReach abTree abLog := DirReach.init.run (Option.some_get _).symm

theorem kReaddir_enumerates_ab :
    abTarfs.initTarfs 5 = some abTree ∧ abLog.inode 1 = some 0 ∧ abLog.inode 2 = some 1 ∧
      abLog.results 1 = [some [97], none] ∧ abLog.results 2 = [some [98], none] := by
  have hroot : abLog.inode 1 = some 0 := by decide
  have ha : abLog.inode 2 = some 1 := by decide
  refine ⟨abTarfs_init, hroot, ha, ?_, ?_⟩
  · rw [(kReaddir_enumerates abTarfs_init abLog_reach hroot).1]
    decide
  · rw [(kReaddir_enumerates abTarfs_init abLog_reach ha).1]
    decide

/-! Recycling -/

theorem DirState.nulls_le_setNextdir {node next : Nat} :
    s.nulls ≤ (s.setNextdir node next).nulls := by
  unfold setNextdir
  split
  · exact Nat.le_succ _
  · exact Nat.le_refl _

theorem DirState.nulls_lt_recycledirstruct : s.nulls < (s.recycledirstruct 0).nulls := by
  have hnull : s.nulls < (s.setNextdir 0 0).nulls := Nat.lt_succ_self _
  unfold recycledirstruct
  dsimp only
  split
  · exact hnull
  · exact hnull.trans_le nulls_le_setNextdir

/-- Every call of `k_closedir` follows `NULL`. -/
theorem DirState.nulls_lt_kClosedir : s.nulls < (s.kClosedir d).nulls :=
  nulls_lt_recycledirstruct (s := s.setDir d
    { s.dir d with path := [], currInode := noInode, nextdir := 0 })

/-- What a pool without closed objects satisfies. -/
structure DirPool.OpenOnly (p : DirPool) : Prop where
  recycle : p.kernel.dirRecycleList = 0
  closed : p.closed = []
  opened : ∀ d ∈ p.opened, 0 < d ∧ d ≤ p.kernel.kmallocs

theorem DirPool.OpenOnly.opendir (h : p.OpenOnly)
    (ho : p.kernel.kOpendir tree path = some (s, dirobj)) :
    dirobj ∉ p.opened ∧ OpenOnly ⟨s, if dirobj = 0 then p.opened else dirobj :: p.opened,
      p.closed.erase p.kernel.dirRecycleList⟩ := by
  obtain ⟨hrec, hcount, -, hobj⟩ := DirState.kOpendir_cases h.recycle ho
  have hold : ∀ d ∈ p.opened, 0 < d ∧ d ≤ s.kmallocs := by
    intro d hd
    have := h.opened d hd
    omega
  have hclosed : p.closed.erase p.kernel.dirRecycleList = [] := by rw [h.closed, List.erase_nil]
  rcases hobj with rfl | ⟨rfl, -⟩
  · rw [if_pos rfl]
    refine ⟨fun hmem => ?_, hrec, hclosed, hold⟩
    have := (h.opened 0 hmem).1
    omega
  · rw [if_neg (by omega)]
    refine ⟨fun hmem => ?_, hrec, hclosed, fun d hd => ?_⟩
    · have := (h.opened _ hmem).2
      omega
    · rcases List.mem_cons.mp hd with rfl | hd
      · exact ⟨Nat.succ_pos _, Nat.le_of_eq hcount.symm⟩
      · exact hold d hd

theorem DirPool.OpenOnly.allRecycle_iff {calls : List DirCall} (h : p.OpenOnly) :
    p.AllRecycle tree calls ↔ ∀ c ∈ calls, ∃ path, c = .opendir path ∧
      (tree.findsDir path → path.length < nameSize) := by
  induction calls generalizing p with
  | nil => simp [AllRecycle]
  | cons c calls ih =>
    rw [AllRecycle, List.forall_mem_cons]
    cases c with
    | closedir d =>
      have hno : ¬ p.Recycles tree (.closedir d) := fun hr =>
        absurd hr.1 (Nat.ne_of_gt DirState.nulls_lt_kClosedir)
      simp [hno]
    | opendir path =>
      have hstep : ∀ s dirobj, p.kernel.kOpendir tree path = some (s, dirobj) →
          p.Recycles tree (.opendir path) := fun s dirobj ho =>
        ⟨s, dirobj, ho, (h.opendir ho).1, fun _ => h.closed⟩
      constructor
      · rintro ⟨⟨s, dirobj, ho, -⟩, hrest⟩
        have hfit := DirState.kOpendir_isSome.mp (Option.isSome_of_eq_some ho)
        refine ⟨⟨path, rfl, hfit⟩, (ih (h.opendir ho).2).mp (hrest _ ?_)⟩
        rw [step, ho]
        rfl
      · rintro ⟨⟨path', hpath, hfit⟩, hrest⟩
        obtain rfl := DirCall.opendir.inj hpath
        obtain ⟨⟨s, dirobj⟩, ho⟩ :=
          Option.isSome_iff_exists.mp (DirState.kOpendir_isSome.mpr hfit)
        refine ⟨hstep s dirobj ho, fun p' hp' => ?_⟩
        rw [step, ho] at hp'
        rw [← Option.some.inj hp']
        exact (ih (h.opendir ho).2).mpr hrest

theorem DirPool.openOnly_init : DirPool.OpenOnly ⟨noDirs, [], []⟩ where
  recycle := rfl
  closed := rfl
  opened _ hd := absurd hd List.not_mem_nil

/-- A sequence of calls recycles every object as it should exactly if it closes none. -/
theorem dirs_recycled_iff (tree : InodeTree) (calls : List DirCall) :
    DirPool.AllRecycle tree ⟨noDirs, [], []⟩ calls ↔ ∀ c ∈ calls, ∃ path, c = .opendir path ∧
      (tree.findsDir path → path.length < nameSize) :=
  DirPool.openOnly_init.allRecycle_iff

/-- The object that `opendir("/")` makes in the tree of `a/` and `a/b/`. -/
def abOpen : DirState × Nat := (noDirs.kOpendir abTree [47]).get (by decide)

theorem abOpen_eq : noDirs.kOpendir abTree [47] = some abOpen := (Option.some_get _).symm

/-- `opendir("/")`, `closedir`, `opendir("/")`: `k_closedir` stores through `NULL`, the recycle list
stays empty, and the second call takes a new object. -/
theorem closedir_recycles_nothing :
    abTarfs.initTarfs 5 = some abTree ∧ noDirs.kOpendir abTree [47] = some abOpen ∧
      abOpen.2 = 1 ∧ (abOpen.1.kClosedir 1).nulls = 1 ∧
      (abOpen.1.kClosedir 1).dirRecycleList = 0 ∧
      ((abOpen.1.kClosedir 1).kOpendir abTree [47]).map Prod.snd = some 2 ∧
      ¬ DirPool.AllRecycle abTree ⟨noDirs, [], []⟩ [.opendir [47], .closedir 1] := by
  refine ⟨abTarfs_init, abOpen_eq, by decide, by decide, by decide, by decide, fun h => ?_⟩
  obtain ⟨path, hpath, -⟩ :=
    DirPool.openOnly_init.allRecycle_iff.mp h (.closedir 1) (List.mem_cons_of_mem _ List.mem_cons_self)
  cases hpath

end Sbunix
