import Mathlib.Data.List.GetD
import Sbunix.Sys.Proofs.Listing

/-!
# Archives whose names do not begin one another

The tree of a listing represents it already when each member is inserted past no entry whose name
only begins like one of its components, as in an archive where no name is the beginning of an
earlier one. A lookup finds a path if none of its components is the beginning of another name.
-/

namespace Sbunix

variable {ms : List Member} {m : Member} {path : List UInt8} {p q : List (List UInt8)}
  {t : List UInt8} {j : Nat}

instance : Decidable (FindsExactly ms q t) :=
  decidable_of_iff (∀ i ∈ firstExtending t (namesIn ms q), (namesIn ms q)[i]? = some t) Iff.rfl

/-- In each directory on the way the first entry that begins like the component is the component
itself, if there is one. -/
def FoundExactly (ms : List Member) (p : List (List UInt8)) : Prop :=
  ∀ i < p.length, FindsExactly ms (p.take i) (p.getD i [])

instance : Decidable (FoundExactly ms p) :=
  inferInstanceAs (Decidable (∀ i < p.length, FindsExactly ms (p.take i) (p.getD i [])))

theorem FoundExactly.findsExactly (h : FoundExactly ms p) (hpre : q ++ [t] <+: p) :
    FindsExactly ms q t := by
  obtain ⟨r, rfl⟩ := hpre
  have hlen : q.length < (q ++ [t] ++ r).length := by
    simp only [List.length_append, List.length_singleton]
    omega
  have hstep := h q.length hlen
  rw [List.append_assoc, List.take_left, List.getD_append_right _ _ _ _ (Nat.le_refl _),
    Nat.sub_self] at hstep
  exact hstep

/-- Member `m` has a path of its own, and the members before it do not hide that path. -/
def InsertsExactly (pre : List Member) (m : Member) : Prop :=
  m.path ≠ [] ∧ (∀ m' ∈ pre, m'.path ≠ m.path) ∧ FoundExactly pre m.path

instance (pre : List Member) : Decidable (InsertsExactly pre m) :=
  inferInstanceAs (Decidable (_ ∧ _))

namespace InsertsExactly

theorem paths_nodup (h : InOrder InsertsExactly ms) : ([] :: ms.map Member.path).Nodup := by
  induction ms using List.reverseRecOn with
  | nil => simp
  | append_singleton ms m ih =>
    obtain ⟨hms, hne, hnew, -⟩ := inOrder_append_singleton.mp h
    rw [List.map_append, ← List.cons_append]
    refine List.nodup_append.mpr ⟨ih hms, List.nodup_singleton _, ?_⟩
    intro q hq q' hq'
    rw [List.mem_singleton.mp hq']
    cases hq with
    | head => exact hne.symm
    | tail _ hq =>
      obtain ⟨m', hm', rfl⟩ := List.mem_map.mp hq
      exact hnew m' hm'

/-- The directory of a new member is there, with room, and has no entry like it. -/
theorem newEntry (hlisting : Listing (ms ++ [m])) (h : InOrder InsertsExactly (ms ++ [m]))
    (hr : Represents (treeOf ms) ms) : ∃ d c k, NewEntry (treeOf ms) ms m d c k := by
  obtain ⟨hms, hne, hnew, hexact⟩ := inOrder_append_singleton.mp h
  obtain ⟨d, c, hpath⟩ : ∃ d c, m.path = d ++ [c] :=
    ⟨_, _, (List.dropLast_append_getLast hne).symm⟩
  have hdir : ∃ k, pathOf ms k = some d := by
    by_cases hd : d = []
    · exact ⟨0, by rw [hd]; rfl⟩
    · obtain ⟨m', hm', hd', -⟩ :=
        (inOrder_append_singleton.mp hlisting.dirsFirst).2 d c hpath hd
      obtain ⟨i, -, hi⟩ := exists_pathOf hm'
      exact ⟨i + 1, by rw [hi, hd']⟩
  have hroom := hlisting.entries d
  rw [namesIn_append_of_eq hpath, List.length_append, List.length_singleton] at hroom
  have hclosed := hlisting.of_append.dirsFirst.prefixClosed
  have hnodup := paths_nodup hms
  rw [hpath] at hexact
  obtain ⟨k, hk⟩ := hdir
  have hlookup : (treeOf ms).lookup 0 d = some k :=
    (hr.lookup_iff hnodup hclosed pathOf_zero fun q' t hpre =>
      hexact.findsExactly (hpre.trans (List.prefix_append d [c]))).mpr hk
  have hchild : (treeOf ms).child k c = none := by
    cases hcase : (treeOf ms).child k c with
    | none => rfl
    | some j =>
      have hj := (hr.child_iff hnodup hk (hexact.findsExactly (List.prefix_refl _))).mp hcase
      rcases pathOf_eq_some hj with ⟨-, hnil⟩ | ⟨i, m', -, hm', hp⟩
      · exact absurd hnil (List.append_ne_nil_of_right_ne_nil _ (List.cons_ne_nil _ _))
      · exact absurd (hp.trans hpath.symm) (hnew m' (List.mem_of_getElem? hm'))
  exact ⟨d, c, k, hr, treeOf_valid, hnodup, hclosed, hpath, hnew, hk, hlookup, hchild, by omega⟩

theorem represents (hlisting : Listing ms) (h : InOrder InsertsExactly ms) :
    Represents (treeOf ms) ms := by
  induction ms using List.reverseRecOn with
  | nil => exact rootTree_represents
  | append_singleton ms m ih =>
    have hms := (inOrder_append_singleton.mp h).1
    obtain ⟨d, c, k, hk⟩ := newEntry hlisting h (ih hlisting.of_append hms)
    rw [treeOf_append_singleton, hk.insertTokens_eq]
    exact hk.represents

/-- A lookup finds the inode of a path that no other name hides. -/
theorem getInode_iff (hlisting : Listing ms) (h : InOrder InsertsExactly ms)
    (hexact : FoundExactly ms (components 47 path)) :
    (treeOf ms).getInode path = some j ↔ pathOf ms j = some (components 47 path) := by
  have hexact' : ∀ q' t, q' ++ [t] <+: [] ++ components 47 path → FindsExactly ms q' t :=
    fun _ _ hpre => hexact.findsExactly hpre
  rw [InodeTree.getInode_eq treeOf_valid, (represents hlisting h).lookup_iff (paths_nodup h)
    hlisting.dirsFirst.prefixClosed pathOf_zero hexact', List.nil_append]

end InsertsExactly

end Sbunix
