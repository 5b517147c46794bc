import Sbunix.Sys.Proofs.InodeTree

/-!
# The tree of an archive's members

As long as every member can be told apart from those before it, `InsertIntoRoot` gives each one
an inode of its own under the inode of its directory, in the order of the archive
(`Represents`), and a lookup finds exactly the members.
-/

namespace Sbunix

variable {s : InodeTree} {ms pre : List Member} {m m' : Member} {c t : List UInt8}
  {d q ts path : List (List UInt8)} {i j k : Nat}

theorem nameIn_eq_some : nameIn d path = some c ↔ path = d ++ [c] := by
  unfold nameIn
  constructor
  · intro h
    split at h
    · rename_i hd
      rw [← hd]
      exact (List.dropLast_append_getLast? c h).symm
    · cases h
  · intro h
    rw [h, List.dropLast_concat, if_pos rfl, List.getLast?_concat]

theorem mem_namesIn : c ∈ namesIn ms d ↔ ∃ m ∈ ms, m.path = d ++ [c] := by
  unfold namesIn
  rw [List.mem_filterMap]
  exact exists_congr fun m => and_congr_right fun _ => nameIn_eq_some

theorem namesIn_nodup (h : (ms.map Member.path).Nodup) : (namesIn ms d).Nodup := by
  have hmap : namesIn ms d = (ms.map Member.path).filterMap (nameIn d) := by
    unfold namesIn
    rw [List.filterMap_map]
    rfl
  rw [hmap]
  apply List.Nodup.filterMap _ h
  intro p p' c hp hp'
  rw [nameIn_eq_some.mp hp, nameIn_eq_some.mp hp']

theorem namesIn_append_singleton :
    namesIn (ms ++ [m]) d = namesIn ms d ++ (nameIn d m.path).toList := by
  unfold namesIn
  rw [List.filterMap_append]
  cases h : nameIn d m.path <;> simp [h]

theorem namesIn_append_of_ne (h : ∀ c, m.path ≠ d ++ [c]) :
    namesIn (ms ++ [m]) d = namesIn ms d := by
  rw [namesIn_append_singleton]
  cases hn : nameIn d m.path with
  | none => exact List.append_nil _
  | some c => exact absurd (nameIn_eq_some.mp hn) (h c)

theorem namesIn_append_of_eq (h : m.path = d ++ [c]) :
    namesIn (ms ++ [m]) d = namesIn ms d ++ [c] := by
  rw [namesIn_append_singleton, nameIn_eq_some.mpr h]
  rfl

/-- The paths of the inodes, the root's first. -/
def pathOf (ms : List Member) (k : Nat) : Option (List (List UInt8)) :=
  ([] :: ms.map Member.path)[k]?

theorem pathOf_zero : pathOf ms 0 = some [] := rfl

theorem pathOf_succ : pathOf ms (i + 1) = (ms[i]?).map Member.path := by
  simp [pathOf]

theorem pathOf_lt (h : pathOf ms k = some q) : k < ms.length + 1 := by
  simpa using (List.getElem?_eq_some_iff.mp h).1

theorem pathOf_append (hk : k < ms.length + 1) : pathOf (ms ++ [m]) k = pathOf ms k := by
  unfold pathOf
  rw [List.map_append, ← List.cons_append, List.getElem?_append_left (by simpa using hk)]

theorem pathOf_append_length : pathOf (ms ++ [m]) (ms.length + 1) = some m.path := by
  rw [pathOf_succ, List.getElem?_concat_length]
  rfl

theorem exists_pathOf (h : m ∈ ms) : ∃ i, ms[i]? = some m ∧ pathOf ms (i + 1) = some m.path := by
  obtain ⟨i, hi⟩ := List.mem_iff_getElem?.mp h
  exact ⟨i, hi, by rw [pathOf_succ, hi]; rfl⟩

theorem pathOf_eq_some (h : pathOf ms k = some q) :
    k = 0 ∧ q = [] ∨ ∃ i m, k = i + 1 ∧ ms[i]? = some m ∧ m.path = q := by
  cases k with
  | zero => exact Or.inl ⟨rfl, (Option.some.inj h).symm⟩
  | succ i =>
    rw [pathOf_succ] at h
    obtain ⟨m, hm, hq⟩ := Option.map_eq_some_iff.mp h
    exact Or.inr ⟨i, m, rfl, hm, hq⟩

theorem pathOf_inj (h : ([] :: ms.map Member.path).Nodup) (hj : pathOf ms j = some q)
    (hk : pathOf ms k = some q) : j = k :=
  (List.getElem?_inj (List.getElem?_eq_some_iff.mp hj).1 h).mp (hj.trans hk.symm)

namespace TellsApart

theorem paths_nodup (h : InOrder TellsApart ms) : ([] :: ms.map Member.path).Nodup := by
  induction ms using List.reverseRecOn with
  | nil => simp
  | append_singleton ms m ih =>
    obtain ⟨hms, d, c, hm, hnew, -⟩ := inOrder_append_singleton.mp h
    rw [List.map_append, ← List.cons_append]
    refine List.nodup_append.mpr ⟨ih hms, List.nodup_singleton _, ?_⟩
    intro q hq q' hq'
    rw [List.mem_singleton.mp hq', hm]
    cases hq with
    | head => exact (List.append_ne_nil_of_right_ne_nil d (List.cons_ne_nil c [])).symm
    | tail _ hq =>
      obtain ⟨m', hm', rfl⟩ := List.mem_map.mp hq
      rw [← hm]
      exact hnew m' hm'

theorem prefixFirst (h : InOrder TellsApart ms) (d : List (List UInt8)) :
    PrefixFirst (namesIn ms d) := by
  induction ms using List.reverseRecOn with
  | nil => exact inOrder_nil
  | append_singleton ms m ih =>
    obtain ⟨hms, d', c, hm, -, hpre⟩ := inOrder_append_singleton.mp h
    by_cases hd : d' = d
    · rw [hd] at hm hpre
      rw [namesIn_append_of_eq hm]
      exact inOrder_append_singleton.mpr
        ⟨ih hms, fun t htc ht hne => mem_namesIn.mpr (hpre t htc ht hne)⟩
    · rw [namesIn_append_of_ne]
      · exact ih hms
      · intro c' hc'
        exact hd (List.append_inj' (hm.symm.trans hc') rfl).1

end TellsApart

/-- The first entry of directory `q` that starts with `t` is `t`. -/
def FindsExactly (ms : List Member) (q : List (List UInt8)) (t : List UInt8) : Prop :=
  ∀ i, firstExtending t (namesIn ms q) = some i → (namesIn ms q)[i]? = some t

theorem TellsApart.findsExactly (h : InOrder TellsApart ms) (hne : t ≠ []) :
    FindsExactly ms q t :=
  fun _ => (prefixFirst h q).getElem?_firstExtending hne

/-- Every path's directory is a path. -/
def PrefixClosed (ms : List Member) : Prop :=
  ∀ m ∈ ms, ∀ d c, m.path = d ++ [c] → ∃ k, pathOf ms k = some d

theorem DirsFirst.prefixClosed (h : DirsFirst ms) : PrefixClosed ms := by
  intro m hm d c hpath
  by_cases hd : d = []
  · exact ⟨0, by rw [hd]; rfl⟩
  · obtain ⟨pre, post, hms⟩ := List.append_of_mem hm
    obtain ⟨m', hm', hd', -⟩ := h pre m post hms d c hpath hd
    have hmem : m' ∈ ms := by
      rw [hms]
      exact List.mem_append_left _ hm'
    obtain ⟨i, -, hi⟩ := exists_pathOf hmem
    exact ⟨i + 1, by rw [hi, hd']⟩

/-- Every beginning of a path is a path. -/
theorem PrefixClosed.prefix (h : PrefixClosed ms) (hk : pathOf ms k = some (q ++ ts)) :
    ∃ j, pathOf ms j = some q := by
  induction ts using List.reverseRecOn generalizing k with
  | nil => exact ⟨k, by rw [hk, List.append_nil]⟩
  | append_singleton ts t ih =>
    rw [← List.append_assoc] at hk
    rcases pathOf_eq_some hk with ⟨-, hnil⟩ | ⟨i, m, -, hm, hpath⟩
    · exact absurd hnil (List.append_ne_nil_of_right_ne_nil _ (List.cons_ne_nil _ _))
    · obtain ⟨j, hj⟩ := h m (List.mem_of_getElem? hm) (q ++ ts) t hpath
      exact ih hj

/-- The inodes are the root and one for each member, in order; the family of the inode of `q`
is the entries of directory `q`, in order. -/
structure Represents (s : InodeTree) (ms : List Member) : Prop where
  count : s.count = ms.length + 1
  describes : ∀ i (m : Member), ms[i]? = some m → m.Describes (s.inode (i + 1))
  names : ∀ k q, pathOf ms k = some q → s.childNames k = namesIn ms q
  paths : ∀ k q, pathOf ms k = some q → ∀ j ∈ s.children k,
    pathOf ms j = some (q ++ [(s.inode j).inodeName])

namespace Represents

theorem lt_count (h : Represents s ms) (hk : pathOf ms k = some q) : k < s.count := by
  rw [h.count]
  exact pathOf_lt hk

/-- The component `t` leads to the entry `t` of the directory, and to nothing else. -/
theorem child_iff (h : Represents s ms) (hn : ([] :: ms.map Member.path).Nodup)
    (hk : pathOf ms k = some q) (hexact : FindsExactly ms q t) :
    s.child k t = some j ↔ pathOf ms j = some (q ++ [t]) := by
  have hfound : ∀ j, s.child k t = some j → pathOf ms j = some (q ++ [t]) := by
    intro j hj
    obtain ⟨i, hi, hget⟩ := Option.bind_eq_some_iff.mp hj
    have hname := hi
    rw [h.names k q hk] at hname
    have hname := hexact i hname
    rw [← h.names k q hk] at hname
    unfold InodeTree.childNames at hname
    rw [List.getElem?_map, hget, Option.map_some] at hname
    rw [h.paths k q hk j (List.mem_of_getElem? hget), Option.some.inj hname]
  constructor
  · exact hfound j
  · intro hj
    rcases pathOf_eq_some hj with ⟨-, hnil⟩ | ⟨i, m, rfl, hm, hpath⟩
    · exact absurd hnil (List.append_ne_nil_of_right_ne_nil _ (List.cons_ne_nil _ _))
    · have hmem : t ∈ namesIn ms q := mem_namesIn.mpr ⟨m, List.mem_of_getElem? hm, hpath⟩
      cases hc : s.child k t with
      | none =>
        have hnone := InodeTree.child_eq_none.mp hc
        rw [h.names k q hk] at hnone
        exact absurd (List.prefix_refl t) (firstExtending_eq_none.mp hnone t hmem)
      | some j' => rw [pathOf_inj hn (hfound j' hc) hj]

theorem lookup_iff (h : Represents s ms) (hn : ([] :: ms.map Member.path).Nodup)
    (hc : PrefixClosed ms) (hk : pathOf ms k = some q)
    (hexact : ∀ q' t, q' ++ [t] <+: q ++ ts → FindsExactly ms q' t) :
    s.lookup k ts = some j ↔ pathOf ms j = some (q ++ ts) := by
  induction ts generalizing k q with
  | nil =>
    rw [List.append_nil]
    constructor
    · intro hj
      rw [← Option.some.inj hj]
      exact hk
    · intro hj
      rw [pathOf_inj hn hk hj]
      rfl
  | cons t ts ih =>
    have hsplit : q ++ t :: ts = (q ++ [t]) ++ ts := by simp
    rw [hsplit] at hexact
    have ht := hexact q t (List.prefix_append _ _)
    unfold InodeTree.lookup
    rw [Option.bind_eq_some_iff, hsplit]
    constructor
    · intro hj
      obtain ⟨k', hk', hj⟩ := hj
      exact (ih ((h.child_iff hn hk ht).mp hk') hexact).mp hj
    · intro hj
      obtain ⟨k', hk'⟩ := hc.prefix hj
      exact ⟨k', (h.child_iff hn hk ht).mpr hk', (ih hk' hexact).mpr hj⟩

end Represents

/-- Member `m` is the new entry `c` of directory `d`. A lookup of `d` leads to its inode `k`, which
has room and where `c` leads nowhere. -/
structure NewEntry (s : InodeTree) (ms : List Member) (m : Member) (d : List (List UInt8))
    (c : List UInt8) (k : Nat) : Prop where
  tree : Represents s ms
  valid : s.Valid
  nodup : ([] :: ms.map Member.path).Nodup
  closed : PrefixClosed ms
  path : m.path = d ++ [c]
  new : ∀ m' ∈ ms, m'.path ≠ m.path
  dir : pathOf ms k = some d
  lookup_dir : s.lookup 0 d = some k
  child_eq_none : s.child k c = none
  room : (namesIn ms d).length < 9

namespace NewEntry

variable (h : NewEntry s ms m d c k)
include h

theorem lt_count : k < s.count := h.tree.lt_count h.dir

theorem family_lt : (s.inode k).family.length < maxFamily := by
  have hlen : (s.children k).length = (namesIn ms d).length := by
    rw [← h.tree.names k d h.dir]
    exact (List.length_map _).symm
  have hfamily := InodeTree.length_children h.valid h.lt_count
  have hroom := h.room
  have hmax : maxFamily = 10 := rfl
  omega

/-- `InsertIntoRoot` walks to the directory and adds the entry there. -/
theorem insertTokens_eq :
    InodeTree.insertTokens m.start m.stop m.type s 0 m.path =
      s.append m.start m.stop m.type c k := by
  rw [h.path, InodeTree.insertTokens_append h.valid h.valid.root h.lookup_dir,
    InodeTree.insertTokens,
    InodeTree.insertToken_new h.valid h.lt_count h.child_eq_none h.family_lt,
    InodeTree.insertTokens]

theorem extends' : s.Extends (s.append m.start m.stop m.type c k) :=
  InodeTree.append_extends h.valid h.lt_count

theorem children_dir :
    (s.append m.start m.stop m.type c k).children k = s.children k ++ [s.count] := by
  rw [InodeTree.children_append_self,
    List.drop_append_of_le_length (h.valid.parent k h.lt_count)]
  rfl

/-- The children that were there keep their names. -/
theorem map_inodeName (hj : j < s.count) :
    (s.children j).map (fun i => ((s.append m.start m.stop m.type c k).inode i).inodeName) =
      s.childNames j := by
  apply List.map_congr_left
  intro i hi
  exact h.extends'.inodeName (h.valid.closed j hj i hi)

theorem describes {m' : Member} (hm' : (ms ++ [m])[i]? = some m') :
    m'.Describes ((s.append m.start m.stop m.type c k).inode (i + 1)) := by
  have hlast := h.tree.count
  rcases Nat.lt_or_ge i ms.length with hi | hi
  · rw [List.getElem?_append_left hi] at hm'
    have hdata := h.extends'.data (i + 1) (by omega)
    have hold := h.tree.describes i m' hm'
    simp only [Inode.data, Prod.mk.injEq] at hdata
    unfold Member.Describes at *
    rw [hdata.1, hdata.2.1, hdata.2.2.1, hdata.2.2.2]
    exact hold
  · have hi' : i = ms.length := by
      have hlen := (List.getElem?_eq_some_iff.mp hm').1
      rw [List.length_append, List.length_singleton] at hlen
      omega
    rw [hi', List.getElem?_concat_length] at hm'
    rw [← Option.some.inj hm', hi', ← hlast, InodeTree.append_inode_count h.lt_count,
      Member.Describes, h.path]
    exact ⟨List.getLast?_concat, rfl, rfl, rfl⟩

/-- The new member has no entries yet: they would have come after it. -/
theorem namesIn_path : namesIn (ms ++ [m]) m.path = [] := by
  apply List.eq_nil_iff_forall_not_mem.mpr
  intro c' hc'
  obtain ⟨m', hm', hp⟩ := mem_namesIn.mp hc'
  rcases List.mem_append.mp hm' with hm' | hm'
  · obtain ⟨i, hi⟩ := h.closed m' hm' m.path c' hp
    rcases pathOf_eq_some hi with ⟨-, hnil⟩ | ⟨i', m'', -, hm'', hp'⟩
    · rw [h.path] at hnil
      exact List.append_ne_nil_of_right_ne_nil _ (List.cons_ne_nil _ _) hnil
    · exact h.new m'' (List.mem_of_getElem? hm'') hp'
  · rw [List.mem_singleton.mp hm'] at hp
    simpa using congrArg List.length hp

theorem eq_count_of_ge (hj : pathOf (ms ++ [m]) j = some q) (hge : s.count ≤ j) :
    j = s.count ∧ q = m.path := by
  have hlast := h.tree.count
  have hlt := pathOf_lt hj
  rw [List.length_append, List.length_singleton] at hlt
  have hj' : j = ms.length + 1 := by omega
  rw [hj', pathOf_append_length] at hj
  exact ⟨hj'.trans hlast.symm, (Option.some.inj hj).symm⟩

theorem childNames (hj : pathOf (ms ++ [m]) j = some q) :
    (s.append m.start m.stop m.type c k).childNames j = namesIn (ms ++ [m]) q := by
  have hlast := h.tree.count
  rcases Nat.lt_or_ge j s.count with hlt | hge
  · rw [pathOf_append (by omega)] at hj
    by_cases hjk : j = k
    · rw [hjk] at hj ⊢
      rw [Option.some.inj (hj.symm.trans h.dir), namesIn_append_of_eq h.path,
        ← h.tree.names k d h.dir]
      unfold InodeTree.childNames
      rw [h.children_dir, List.map_append, h.map_inodeName h.lt_count, List.map_singleton,
        InodeTree.append_inode_count h.lt_count]
      rfl
    · have hq : ∀ c', m.path ≠ q ++ [c'] := by
        intro c' hc'
        rw [← (List.append_inj' (h.path.symm.trans hc') rfl).1] at hj
        exact hjk (pathOf_inj h.nodup hj h.dir)
      rw [namesIn_append_of_ne hq, ← h.tree.names j q hj]
      unfold InodeTree.childNames
      rw [InodeTree.children_append_other hlt hjk]
      exact h.map_inodeName hlt
  · obtain ⟨rfl, rfl⟩ := h.eq_count_of_ge hj hge
    rw [h.namesIn_path]
    unfold InodeTree.childNames
    rw [InodeTree.children_append_count h.lt_count]
    rfl

theorem pathOf_child (hj : pathOf (ms ++ [m]) j = some q)
    (hi : i ∈ (s.append m.start m.stop m.type c k).children j) :
    pathOf (ms ++ [m]) i =
      some (q ++ [((s.append m.start m.stop m.type c k).inode i).inodeName]) := by
  have hlast := h.tree.count
  rcases Nat.lt_or_ge j s.count with hlt | hge
  · rw [pathOf_append (by omega)] at hj
    have hold : i ∈ s.children j → pathOf (ms ++ [m]) i =
        some (q ++ [((s.append m.start m.stop m.type c k).inode i).inodeName]) := by
      intro hi
      have hilt := h.valid.closed j hlt i hi
      rw [h.extends'.inodeName hilt, pathOf_append (by omega)]
      exact h.tree.paths j q hj i hi
    by_cases hjk : j = k
    · rw [hjk] at hi hj hold
      rw [h.children_dir] at hi
      rcases List.mem_append.mp hi with hi | hi
      · exact hold hi
      · rw [List.mem_singleton.mp hi, InodeTree.append_inode_count h.lt_count, hlast,
          pathOf_append_length, h.path, Option.some.inj (hj.symm.trans h.dir)]
    · rw [InodeTree.children_append_other hlt hjk] at hi
      exact hold hi
  · rw [(h.eq_count_of_ge hj hge).1, InodeTree.children_append_count h.lt_count] at hi
    cases hi

theorem represents : Represents (s.append m.start m.stop m.type c k) (ms ++ [m]) where
  count := by
    have hlast := h.tree.count
    rw [List.length_append, List.length_singleton, ← hlast]
    rfl
  describes _ _ := h.describes
  names _ _ := h.childNames
  paths _ _ hj _ := h.pathOf_child hj

end NewEntry

end Sbunix
