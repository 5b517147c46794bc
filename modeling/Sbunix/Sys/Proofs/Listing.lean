import Sbunix.Sys.Proofs.Lookup

/-!
# Which archives can be searched

The tree of a listing represents it when every member can be told apart from those before it.
The first member that cannot is found under a beginning of its name that is not an entry, and
later insertions do not repair that: a lookup that has found an inode keeps finding it.
-/

namespace Sbunix

variable {ms : List Member} {m : Member} {c t : List UInt8} {d q : List (List UInt8)}
  {j k : Nat}

/-- The tree after the insertion of the members. -/
def treeOf (ms : List Member) : InodeTree :=
  ms.foldl (fun s m => InodeTree.insertTokens m.start m.stop m.type s 0 m.path) rootTree

theorem treeOf_append_singleton :
    treeOf (ms ++ [m]) =
      InodeTree.insertTokens m.start m.stop m.type (treeOf ms) 0 m.path := by
  unfold treeOf
  rw [List.foldl_append]
  rfl

theorem rootTree_represents : Represents rootTree [] := by
  constructor
  · rfl
  · intro i m hm
    cases hm
  · intro k q hk
    rfl
  · intro k q hk j hj
    cases hj

theorem treeOf_valid : (treeOf ms).Valid := by
  induction ms using List.reverseRecOn with
  | nil => exact rootTree_valid
  | append_singleton ms m ih =>
    rw [treeOf_append_singleton]
    exact (InodeTree.insertTokens_extends ih ih.root).1

theorem treeOf_extends (ms post : List Member) : (treeOf ms).Extends (treeOf (ms ++ post)) := by
  induction post using List.reverseRecOn with
  | nil =>
    rw [List.append_nil]
    exact InodeTree.Extends.refl _
  | append_singleton post m ih =>
    rw [← List.append_assoc, treeOf_append_singleton]
    exact ih.trans (InodeTree.insertTokens_extends treeOf_valid treeOf_valid.root).2

theorem treeOf_root (ms : List Member) : ((treeOf ms).inode 0).attributes = (0, 1, none) := by
  have hdata := (treeOf_extends [] ms).data 0 Nat.one_pos
  simp only [Inode.data, Prod.mk.injEq, List.nil_append] at hdata
  unfold Inode.attributes
  rw [hdata.1, hdata.2.1, hdata.2.2.1]
  rfl

/-- What the members of a well-formed archive satisfy. -/
structure Listing (ms : List Member) : Prop where
  dirsFirst : DirsFirst ms
  entries : ∀ d, (namesIn ms d).length ≤ 9
  spelled : ∀ m ∈ ms, ∀ t ∈ m.path, t ≠ [] ∧ (47 : UInt8) ∉ t ∧ (0 : UInt8) ∉ t
  starts : (ms.map Member.start).Nodup

namespace Listing

theorem of_append {post : List Member} (h : Listing (ms ++ post)) : Listing ms where
  dirsFirst := h.dirsFirst.of_append
  entries d := by
    have hd := h.entries d
    unfold namesIn at *
    rw [List.filterMap_append, List.length_append] at hd
    omega
  spelled m hm := h.spelled m (List.mem_append_left _ hm)
  starts := by
    have hs := h.starts
    rw [List.map_append] at hs
    exact hs.of_append_left

theorem newEntry (h : Listing (ms ++ [m])) (ht : InOrder TellsApart ms)
    (hr : Represents (treeOf ms) ms) (hpath : m.path = d ++ [c])
    (hnew : ∀ m' ∈ ms, m'.path ≠ m.path) : ∃ k, NewEntry (treeOf ms) ms m d c k := by
  have hm : m ∈ ms ++ [m] := List.mem_append_right _ List.mem_cons_self
  have hdir : ∃ k, pathOf ms k = some d := by
    by_cases hd : d = []
    · exact ⟨0, by rw [hd]; rfl⟩
    · obtain ⟨m', hm', hd', -⟩ := (inOrder_append_singleton.mp h.dirsFirst).2 d c hpath hd
      obtain ⟨i, -, hi⟩ := exists_pathOf hm'
      exact ⟨i + 1, by rw [hi, hd']⟩
  have hroom := h.entries d
  rw [namesIn_append_of_eq hpath, List.length_append, List.length_singleton] at hroom
  have hne : ∀ t ∈ m.path, t ≠ [] := fun t ht => (h.spelled m hm t ht).1
  rw [hpath] at hne
  obtain ⟨k, hk⟩ := hdir
  have hclosed := h.of_append.dirsFirst.prefixClosed
  have hnodup := TellsApart.paths_nodup ht
  have hlookup : (treeOf ms).lookup 0 d = some k :=
    (hr.lookup_iff hnodup hclosed pathOf_zero fun q' t hpre => TellsApart.findsExactly ht
      (hne t (List.mem_append_left _ (hpre.subset (List.mem_append_right _ List.mem_cons_self))))).mpr hk
  have hchild : (treeOf ms).child k c = none := by
    cases hcase : (treeOf ms).child k c with
    | none => rfl
    | some j =>
      have hj := (hr.child_iff hnodup hk (TellsApart.findsExactly ht
        (hne c (List.mem_append_right _ List.mem_cons_self)))).mp hcase
      rcases pathOf_eq_some hj with ⟨-, hnil⟩ | ⟨i, m', -, hm', hp⟩
      · exact absurd hnil (List.append_ne_nil_of_right_ne_nil _ (List.cons_ne_nil _ _))
      · exact absurd (hp.trans hpath.symm) (hnew m' (List.mem_of_getElem? hm'))
  exact ⟨k, hr, treeOf_valid, hnodup, hclosed, hpath, hnew, hk, hlookup,
    hchild, by omega⟩

theorem represents (h : Listing ms) (ht : InOrder TellsApart ms) :
    Represents (treeOf ms) ms := by
  induction ms using List.reverseRecOn with
  | nil => exact rootTree_represents
  | append_singleton ms m ih =>
    obtain ⟨hms, d, c, hpath, hnew, -⟩ := inOrder_append_singleton.mp ht
    obtain ⟨k, hk⟩ := h.newEntry hms (ih h.of_append hms) hpath hnew
    rw [treeOf_append_singleton, hk.insertTokens_eq]
    exact hk.represents

/-- A lookup finds the inode of its path. -/
theorem getInode_iff (h : Listing ms) (ht : InOrder TellsApart ms) {p : List UInt8} :
    (treeOf ms).getInode p = some j ↔ pathOf ms j = some (components 47 p) := by
  have hexact : ∀ q' t, q' ++ [t] <+: [] ++ components 47 p → FindsExactly ms q' t := by
    intro q' t hpre
    exact TellsApart.findsExactly ht (ne_nil_of_mem_components
      (hpre.subset (List.mem_append_right _ List.mem_cons_self)))
  rw [InodeTree.getInode_eq treeOf_valid, (h.represents ht).lookup_iff (TellsApart.paths_nodup ht)
    h.dirsFirst.prefixClosed pathOf_zero hexact, List.nil_append]

theorem lookupFaithful (h : Listing ms) (ht : InOrder TellsApart ms) :
    LookupFaithful (treeOf ms) ms := by
  intro p hp
  have hget : ∀ {j}, (treeOf ms).getInode p = some j ↔ pathOf ms j = some (components 47 p) :=
    h.getInode_iff ht
  refine ⟨⟨?_, ?_⟩, ?_, ?_⟩
  · intro hsome
    obtain ⟨j, hj⟩ := Option.isSome_iff_exists.mp hsome
    rcases pathOf_eq_some (hget.mp hj) with ⟨-, hnil⟩ | ⟨i, m, -, hm, hpath⟩
    · exact Or.inl hnil
    · exact Or.inr ⟨m, List.mem_of_getElem? hm, hpath⟩
  · intro hcases
    rcases hcases with hnil | ⟨m, hm, hpath⟩
    · rw [hget.mpr (by rw [hnil]; exact pathOf_zero)]
      rfl
    · obtain ⟨i, -, hi⟩ := exists_pathOf hm
      rw [hget.mpr (hi.trans (congrArg some hpath))]
      rfl
  · intro hnil
    exact hget.mpr (by rw [hnil]; exact pathOf_zero)
  · intro m hm hpath
    obtain ⟨i, hi, hpi⟩ := exists_pathOf hm
    exact ⟨i + 1, hget.mpr (hpi.trans (congrArg some hpath)),
      (h.represents ht).describes i m hi⟩

/-- The path that spells some components, as `GetInode` reads it. -/
theorem getInode_spell (ms : List Member) (h : ∀ t ∈ q, t ≠ [] ∧ (47 : UInt8) ∉ t ∧ (0 : UInt8) ∉ t) :
    (0 : UInt8) ∉ spell 47 q ∧ components 47 (spell 47 q) = q ∧
      (treeOf ms).getInode (spell 47 q) = (treeOf ms).lookup 0 q := by
  have hcomp : components 47 (spell 47 q) = q :=
    components_spell (fun t ht => (h t ht).1) fun t ht => (h t ht).2.1
  refine ⟨?_, hcomp, ?_⟩
  · intro hmem
    rcases mem_spell hmem with hz | ⟨t, ht, hz⟩
    · cases hz
    · exact (h t ht).2.2 hz
  · rw [InodeTree.getInode_eq treeOf_valid, hcomp]

/-- The first member that cannot be told apart, though its path is new, is found under a
beginning of its name that the directory does not have. -/
theorem lookup_beginning (h : Listing (ms ++ [m])) (ht : InOrder TellsApart ms)
    (hpath : m.path = d ++ [c]) (hnew : ∀ m' ∈ ms, m'.path ≠ m.path) (htc : t <+: c)
    (hne : t ≠ []) (habsent : ∀ m' ∈ ms, m'.path ≠ d ++ [t]) :
    ∃ j, (treeOf (ms ++ [m])).lookup 0 (d ++ [t]) = some j ∧ j < (treeOf (ms ++ [m])).count ∧
      ((treeOf (ms ++ [m])).inode j).inodeName = c := by
  obtain ⟨k, hk⟩ := h.newEntry ht (h.of_append.represents ht) hpath hnew
  have hchild : ((treeOf ms).append m.start m.stop m.type c k).child k t =
      some (treeOf ms).count := by
    have hnone : firstExtending t (namesIn ms d) = none := by
      refine ((TellsApart.prefixFirst ht d).firstExtending_eq_none hne).mpr fun hmem => ?_
      obtain ⟨m', hm', hp⟩ := mem_namesIn.mp hmem
      exact habsent m' hm' hp
    have hlen : (namesIn ms d).length = ((treeOf ms).children k).length := by
      rw [← hk.tree.names k d hk.dir]
      exact List.length_map _
    have hdir := hk.childNames (j := k) (q := d)
      ((pathOf_append (pathOf_lt hk.dir)).trans hk.dir)
    unfold InodeTree.child
    rw [hdir, namesIn_append_of_eq hpath, firstExtending_append_singleton hnone htc,
      Option.bind_some, hk.children_dir, hlen, List.getElem?_concat_length]
  have hdir := hk.extends'.lookup hk.valid hk.valid.root hk.lookup_dir
  rw [treeOf_append_singleton, hk.insertTokens_eq]
  refine ⟨(treeOf ms).count, ?_, Nat.lt_succ_self _, ?_⟩
  · rw [InodeTree.lookup_append, hdir, Option.bind_some, InodeTree.lookup, hchild]
    rfl
  · rw [InodeTree.append_inode_count hk.lt_count]

/-- When lookups are faithful, every member can be told apart from those before it. -/
theorem tellsApart (h : Listing ms) (hf : LookupFaithful (treeOf ms) ms) :
    InOrder TellsApart ms := by
  by_contra hnot
  obtain ⟨pre, m, post, hms, hpre, hm⟩ := exists_first_of_not_inOrder hnot
  have hmem : m ∈ ms := by
    rw [hms]
    exact List.mem_append_right _ List.mem_cons_self
  have hmem' : ∀ m' ∈ pre, m' ∈ ms := by
    intro m' hm'
    rw [hms]
    exact List.mem_append_left _ hm'
  -- the lookup of a member's own path gives its own name and start
  have hown : ∀ m' ∈ ms, ∃ k, (treeOf ms).lookup 0 m'.path = some k ∧
      m'.Describes ((treeOf ms).inode k) := by
    intro m' hm'
    obtain ⟨hz, hcomp, hget⟩ := getInode_spell ms (h.spelled m' hm')
    obtain ⟨k, hk, hd⟩ := (hf _ hz).2.2 m' hm' hcomp.symm
    exact ⟨k, hget.symm.trans hk, hd⟩
  obtain ⟨k, hk, hd⟩ := hown m hmem
  obtain ⟨d, c, hpath⟩ : ∃ d c, m.path = d ++ [c] :=
    ⟨m.path.dropLast, _, (List.dropLast_append_getLast? _ hd.1).symm⟩
  have hnew : ∀ m' ∈ pre, m'.path ≠ m.path := by
    intro m' hm' hp
    obtain ⟨k', hk', hd'⟩ := hown m' (hmem' m' hm')
    rw [hp, hk] at hk'
    rw [← Option.some.inj hk'] at hd'
    have hstarts := h.starts
    rw [hms, List.map_append, List.map_cons] at hstarts
    refine (List.nodup_append.mp hstarts).2.2 m'.start (List.mem_map_of_mem hm') m.start
      List.mem_cons_self ?_
    exact hd'.2.1.symm.trans hd.2.1
  refine hm ⟨d, c, hpath, hnew, ?_⟩
  by_contra hmiss
  push Not at hmiss
  obtain ⟨t, htc, hne, htc', habsent⟩ := hmiss
  have hsplit : ms = pre ++ [m] ++ post := by rw [hms, List.append_assoc, List.singleton_append]
  have hpre' : Listing (pre ++ [m]) := by
    rw [hsplit] at h
    exact h.of_append
  obtain ⟨j, hj, hlt, hname⟩ :=
    hpre'.lookup_beginning hpre hpath hnew htc hne habsent
  have hext : (treeOf (pre ++ [m])).Extends (treeOf ms) := by
    rw [hsplit]
    exact treeOf_extends _ post
  have hjend := hext.lookup treeOf_valid treeOf_valid.root hj
  have hnameend := hext.inodeName hlt
  have hspelled : ∀ a ∈ d ++ [t], a ≠ [] ∧ (47 : UInt8) ∉ a ∧ (0 : UInt8) ∉ a := by
    intro a ha
    rcases List.mem_append.mp ha with ha | ha
    · exact h.spelled m hmem a (by rw [hpath]; exact List.mem_append_left _ ha)
    · have hc := h.spelled m hmem c (by rw [hpath]; exact List.mem_append_right _ List.mem_cons_self)
      rw [List.mem_singleton.mp ha]
      exact ⟨hne, fun hx => hc.2.1 (htc.subset hx), fun hx => hc.2.2 (htc.subset hx)⟩
  obtain ⟨hz, hcomp, hget⟩ := getInode_spell ms hspelled
  have hsome : ((treeOf ms).getInode (spell 47 (d ++ [t]))).isSome := by
    rw [hget, hjend]
    rfl
  rcases (hf _ hz).1.mp hsome with hnil | ⟨m', hm', hp⟩
  · rw [hcomp] at hnil
    exact List.append_ne_nil_of_right_ne_nil _ (List.cons_ne_nil _ _) hnil
  · rw [hcomp] at hp
    obtain ⟨k', hk', hd'⟩ := hown m' hm'
    rw [hp, hjend] at hk'
    have hlast := hd'.1
    rw [hp, List.getLast?_concat, ← Option.some.inj hk', hnameend, hname] at hlast
    exact htc' (Option.some.inj hlast)

/-- `GetInode` is faithful exactly when every member can be told apart from those before it. -/
theorem lookupFaithful_iff (h : Listing ms) :
    LookupFaithful (treeOf ms) ms ↔ InOrder TellsApart ms :=
  ⟨h.tellsApart, h.lookupFaithful⟩

end Listing

end Sbunix
