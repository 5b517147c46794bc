import Sbunix.Misc.RootedTree
import Sbunix.Sys.Proofs.InodeTree
import Sbunix.Sys.Proofs.TarWalk

/-!
# Runs of `InsertIntoRoot`

Every insertion adds a leaf with a new name below a directory that has room, or changes nothing.
So the inodes form a tree with a parent pointer in each, and no two entries of a directory have
one name.
-/

namespace Sbunix

variable {s : InodeTree} {k j start stop : Nat} {type : InodeType} {t tok : List UInt8}
  {ts : List (List UInt8)} {path : List UInt8}

/-- The parent of an inode is the node whose child it is. -/
structure InodeTree.Linked (s : InodeTree) : Prop where
  valid : s.Valid
  root : (s.inode 0).family.head? = some 0
  child : ∀ k < s.count, ∀ j ∈ s.children k, (s.inode j).family.head? = some k

namespace InodeTree

theorem head?_family_append {start stop j : Nat} {type : InodeType} (hs : s.Valid)
    (hk : k < s.count) (hj : j < s.count) :
    ((s.append start stop type tok k).inode j).family.head? = (s.inode j).family.head? := by
  rw [append_inode]
  by_cases h : j = k
  · have hne : (s.inode k).family ≠ [] := List.ne_nil_of_length_pos (hs.parent k hk)
    rw [h, Function.update_self, List.head?_append_of_ne_nil _ hne]
  · rw [Function.update_of_ne h, Function.update_of_ne (by omega)]

theorem append_linked {start stop : Nat} {type : InodeType} (hs : s.Linked) (hk : k < s.count)
    (hroom : (s.inode k).family.length < maxFamily) :
    (s.append start stop type tok k).Linked where
  valid := append_valid _ _ _ _ hs.valid hk hroom
  root := by
    rw [head?_family_append hs.valid hk hs.valid.root]
    exact hs.root
  child i hi j hj := by
    have hcount : (s.append start stop type tok k).count = s.count + 1 := rfl
    have hold : j ∈ s.children i → i < s.count →
        ((s.append start stop type tok k).inode j).family.head? = some i := by
      intro hj hi
      rw [head?_family_append hs.valid hk (hs.valid.closed i hi j hj)]
      exact hs.child i hi j hj
    by_cases hik : i = k
    · rw [hik] at hj hold ⊢
      rw [children_append_self, List.drop_append_of_le_length (hs.valid.parent k hk)] at hj
      rcases List.mem_append.mp hj with hj | hj
      · exact hold hj hk
      · rw [List.mem_singleton.mp hj, append_inode_count hk]
        rfl
    · rcases Nat.lt_or_ge i s.count with hlt | hge
      · rw [children_append_other hlt hik] at hj
        exact hold hj hlt
      · rw [show i = s.count by omega, children_append_count hk] at hj
        cases hj

/-- What every new leaf keeps, `InsertIntoRoot` keeps. -/
theorem insertTokens_keeps {P : InodeTree → Prop}
    (hP : ∀ s k t, s.Valid → P s → k < s.count → t ∈ ts → s.child k t = none →
      (s.inode k).family.length < maxFamily → P (s.append start stop type t k))
    (hs : s.Valid) (hk : k < s.count) (h : P s) : P (insertTokens start stop type s k ts) := by
  induction ts generalizing s k with
  | nil => exact h
  | cons t ts ih =>
    obtain ⟨hs', -, hk'⟩ := insertToken_extends start stop type t hs hk
    have hstep : P (s.insertToken start stop type t k).1 := by
      cases hc : s.child k t with
      | some j =>
        rw [insertToken_of_child hs hk hc]
        exact h
      | none =>
        by_cases hroom : (s.inode k).family.length < maxFamily
        · rw [insertToken_new hs hk hc hroom]
          exact hP s k t hs h hk (by simp) hc hroom
        · rw [insertToken_full hc (Nat.not_lt.mp hroom)]
          exact h
    exact ih (fun s k t hs h hk ht => hP s k t hs h hk (by simp [ht])) hs' hk' hstep

theorem insertIntoRoot_keeps {P : InodeTree → Prop}
    (hP : ∀ s k t, s.Valid → P s → k < s.count → t ∈ components 47 path → s.child k t = none →
      (s.inode k).family.length < maxFamily → P (s.append start stop type t k))
    (hs : s.Valid) (h : P s) : P (s.insertIntoRoot path start stop type) := by
  rw [insertIntoRoot_eq]
  exact insertTokens_keeps hP hs hs.root h

theorem insertIntoRoot_linked (hs : s.Linked) :
    (s.insertIntoRoot path start stop type).Linked :=
  insertIntoRoot_keeps (fun _ _ _ _ h hk _ _ hroom => append_linked h hk hroom) hs.valid hs

theorem rootTree_linked : rootTree.Linked where
  valid := rootTree_valid
  root := rfl
  child k hk j hj := by cases hj

/-- `j` is a child of the inode `k`. -/
def ChildOf (s : InodeTree) (k j : Nat) : Prop := k < s.count ∧ j ∈ s.children k

/-- The inodes with the links to their children. -/
def IsTree (s : InodeTree) : Prop := RootedTree 0 (· < s.count) s.ChildOf

theorem children_append (hs : s.Valid) (hk : k < s.count) :
    (s.append start stop type t k).children k = s.children k ++ [s.count] := by
  rw [children_append_self, List.drop_append_of_le_length (hs.parent k hk)]
  rfl

theorem childOf_append (hs : s.Valid) (hk : k < s.count) (x y : Nat) :
    (s.append start stop type t k).ChildOf x y ↔ s.ChildOf x y ∨ x = k ∧ y = s.count := by
  have hcount : (s.append start stop type t k).count = s.count + 1 := rfl
  unfold ChildOf
  rw [hcount]
  by_cases hxk : x = k
  · rw [hxk, children_append hs hk]
    simp [hk, Nat.lt_succ_of_lt hk]
  · rcases Nat.lt_trichotomy x s.count with hlt | heq | hgt
    · rw [children_append_other hlt hxk]
      simp [hxk, hlt, Nat.lt_succ_of_lt hlt]
    · rw [heq, children_append_count hk]
      simp [heq ▸ hxk]
    · simp [hxk, Nat.not_lt.mpr hgt, Nat.lt_asymm hgt]

theorem append_isTree (ht : s.IsTree) (hs : s.Valid) (hk : k < s.count) :
    (s.append start stop type t k).IsTree := by
  refine ht.grow hk (Nat.lt_irrefl s.count) ?_ (childOf_append hs hk)
  intro x
  exact Nat.lt_succ_iff_lt_or_eq

/-- No two entries of a directory have one name. -/
def NamesApart (s : InodeTree) : Prop := ∀ k < s.count, (s.childNames k).Nodup

theorem childNames_append (hs : s.Valid) (hk : k < s.count) (hj : j < s.count) :
    (s.append start stop type t k).childNames j =
      s.childNames j ++ if j = k then [t] else [] := by
  have hold : ∀ i ∈ s.children j,
      ((s.append start stop type t k).inode i).inodeName = (s.inode i).inodeName :=
    fun i hi => (append_extends hs hk).inodeName (hs.closed j hj i hi)
  unfold childNames
  split
  · rename_i hjk
    rw [hjk] at hold ⊢
    rw [children_append hs hk, List.map_append, List.map_congr_left hold, List.map_singleton,
      append_inode_count hk]
  · rename_i hjk
    rw [children_append_other hj hjk, List.map_congr_left hold, List.append_nil]

/-- A component that `findFamily` does not find is a new name. -/
theorem notMem_childNames (hc : s.child k t = none) : t ∉ s.childNames k :=
  fun hmem => firstExtending_eq_none.mp (child_eq_none.mp hc) t hmem (List.prefix_refl t)

theorem append_namesApart (hn : s.NamesApart) (hs : s.Valid) (hk : k < s.count)
    (hc : s.child k t = none) : (s.append start stop type t k).NamesApart := by
  intro j hj
  rcases Nat.lt_succ_iff_lt_or_eq.mp hj with hlt | heq
  · rw [childNames_append hs hk hlt]
    split
    · rename_i hjk
      rw [hjk, ← List.concat_eq_append, List.nodup_concat]
      exact ⟨notMem_childNames hc, hn k hk⟩
    · rw [List.append_nil]
      exact hn j hlt
  · rw [heq]
    unfold childNames
    rw [children_append_count hk]
    exact List.nodup_nil

theorem append_ordered (ho : ∀ k < s.count, (s.children k).Pairwise (· < ·)) (hs : s.Valid)
    (hk : k < s.count) : ∀ j < (s.append start stop type t k).count,
      ((s.append start stop type t k).children j).Pairwise (· < ·) := by
  intro j hj
  rcases Nat.lt_succ_iff_lt_or_eq.mp hj with hlt | heq
  · by_cases hjk : j = k
    · rw [hjk, children_append hs hk, List.pairwise_append]
      refine ⟨ho k hk, List.pairwise_singleton _ _, fun i hi x hx => ?_⟩
      rw [List.mem_singleton.mp hx]
      exact hs.closed k hk i hi
    · rw [children_append_other hlt hjk]
      exact ho j hlt
  · rw [heq, children_append_count hk]
    exact List.Pairwise.nil

theorem rootTree_isTree : rootTree.IsTree := by
  refine RootedTree.singleton (fun _ => Nat.lt_one_iff) fun k j h => ?_
  exact absurd h.2 (by simp [rootTree, children])

theorem rootTree_namesApart : rootTree.NamesApart := by
  intro k _
  exact List.nodup_nil

/-- The trees that calls of `InsertIntoRoot` lead to from the root, with components that fit
`inodeName`. -/
inductive InsertReach : InodeTree → Prop
  | init : InsertReach rootTree
  | insert {s : InodeTree} {path : List UInt8} {start stop : Nat} {type : InodeType} :
      InsertReach s → (∀ c ∈ components 47 path, c.length ≤ 254) →
      InsertReach (s.insertIntoRoot path start stop type)

/-- Families of the right size, parent pointers that match the child links, and child links that
form a tree with different names in each directory. -/
structure Sound (s : InodeTree) : Prop where
  familyCount : ∀ k < s.count,
    1 ≤ (s.inode k).family.length ∧ (s.inode k).family.length ≤ maxFamily
  parent : ∀ k < s.count, ∀ i, 1 ≤ i → i < (s.inode k).family.length →
    ∃ j < s.count, (s.inode k).family[i]? = some j ∧ (s.inode j).family[0]? = some k
  unique : ∀ j < s.count, j ≠ 0 → ∃! k, s.ChildOf k j
  reachable : ∀ j < s.count, Relation.ReflTransGen s.ChildOf 0 j
  acyclic : ∀ k, ¬ Relation.TransGen s.ChildOf k k
  names : s.NamesApart

/-- What `InsertIntoRoot` keeps. Inodes are numbered as they are made, so a family is in the order
of insertion. -/
structure Built (s : InodeTree) : Prop where
  linked : s.Linked
  isTree : s.IsTree
  names : s.NamesApart
  ordered : ∀ k < s.count, (s.children k).Pairwise (· < ·)

theorem insertIntoRoot_built (h : s.Built) : (s.insertIntoRoot path start stop type).Built := by
  refine insertIntoRoot_keeps ?_ h.linked.valid h
  intro s k t hs h hk _ hc hroom
  exact ⟨append_linked h.linked hk hroom, append_isTree h.isTree hs hk,
    append_namesApart h.names hs hk hc, append_ordered h.ordered hs hk⟩

theorem rootTree_built : rootTree.Built :=
  ⟨rootTree_linked, rootTree_isTree, rootTree_namesApart, fun _ _ => List.Pairwise.nil⟩

theorem Built.sound (h : s.Built) : s.Sound where
  familyCount k hk := ⟨h.linked.valid.parent k hk, h.linked.valid.bounded k hk⟩
  parent k hk i hi hlt := by
    have hget := List.getElem?_eq_getElem hlt
    have hmem : (s.inode k).family[i] ∈ s.children k := by
      apply List.mem_of_getElem? (i := i - 1)
      unfold children
      rw [List.getElem?_drop, Nat.add_sub_cancel' hi, hget]
    refine ⟨_, h.linked.valid.closed k hk _ hmem, hget, ?_⟩
    rw [← List.head?_eq_getElem?]
    exact h.linked.child k hk _ hmem
  unique _ hj hne := h.isTree.exists_unique_parent hj hne
  reachable _ hj := h.isTree.reach hj
  acyclic _ := h.isTree.acyclic
  names := h.names

theorem InsertReach.built (h : InsertReach s) : s.Built := by
  induction h with
  | init => exact rootTree_built
  | insert _ _ ih => exact insertIntoRoot_built ih

/-- Every sequence of calls of `InsertIntoRoot` builds a sound tree. -/
theorem insertReach_sound (h : InsertReach s) : s.Sound := h.built.sound

/-- After the directory `bin/` and the file `bin/ls`. -/
theorem insertReach_sound_bin :
    ((rootTree.insertIntoRoot [98, 105, 110, 47] 0 0 .dir).insertIntoRoot
      [98, 105, 110, 47, 108, 115] 0 512 .file).Sound :=
  insertReach_sound (.insert (.insert .init (by decide)) (by decide))

end InodeTree

/-- What `init_tarfs` inserts. -/
theorem Tarfs.initTarfs_keeps {P : InodeTree → Prop} {t : Tarfs} {fuel : Nat} {s' : InodeTree}
    (hroot : P rootTree) (hP : ∀ s h size type, P s → P (s.insertIntoRoot (t.header h).name
      (t.addr (h + 1)) ((t.addr (h + 1) + size) % 2 ^ 64) type))
    (h : t.initTarfs fuel = some s') : P s' := by
  have hheader : ∀ s h size, P s → P (t.insertHeader h size s) := by
    intro s h size hs
    unfold Tarfs.insertHeader
    dsimp only
    repeat' split
    · exact hP s h size _ hs
    · exact hP s h size _ hs
    · exact hs
    · exact hs
  unfold Tarfs.initTarfs at h
  rw [Tarfs.initLoop_walk, Option.map_eq_some_iff] at h
  obtain ⟨hs, -, rfl⟩ := h
  exact List.foldlRecOn hs _ hroot fun s hs h _ => hheader s h _ hs

theorem Tarfs.initTarfs_built {t : Tarfs} {fuel : Nat} {s' : InodeTree}
    (h : t.initTarfs fuel = some s') : s'.Built :=
  Tarfs.initTarfs_keeps InodeTree.rootTree_built
    (fun _ _ _ _ hs => InodeTree.insertIntoRoot_built hs) h

/-- The archive of the directories `a/` and `a/b/`. -/
def abTarfs : Tarfs where
  start := 0xFFFFFFFF80230000
  count := 4
  header := fun i =>
    [⟨[97, 47], octal 11 0, 53⟩, ⟨[97, 47, 98, 47], octal 11 0, 53⟩].getD i.toNat ⟨[], [], 0⟩

/-- The tree of `a/` and `a/b/`. -/
def abTree : InodeTree := (abTarfs.initTarfs 5).get (by decide)

theorem abTarfs_init : abTarfs.initTarfs 5 = some abTree := (Option.some_get _).symm

end Sbunix
