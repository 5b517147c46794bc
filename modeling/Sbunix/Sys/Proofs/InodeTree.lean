import Sbunix.Misc.PrefixFirst
import Sbunix.Sys.Proofs.Components

/-!
# Growth of the inode tree

`GetInode` and `InsertIntoRoot` walk the tree by the components of their path.  An insertion
only adds children at the end of a family, so what a lookup has found stays found.
-/

namespace Sbunix

theorem strncmp_eq_zero {c t : List UInt8} : strncmp c t t.length = 0 ↔ t <+: c := by
  induction t generalizing c with
  | nil => simp [strncmp]
  | cons a t ih =>
    cases c with
    | nil => simp [strncmp]
    | cons b c =>
      by_cases h : b = a
      · simp [strncmp, h, ih]
      · simp [strncmp, h]
        exact fun hab => absurd hab.symm h

/-- What an inode says of its file. -/
def Inode.data (n : Inode) : Nat × Nat × Option InodeType × List UInt8 :=
  (n.start, n.stop, n.type, n.inodeName)

namespace InodeTree

variable {s s' : InodeTree} {t : List UInt8} {k j start stop : Nat} {type : InodeType}
  {ts : List (List UInt8)} {path : List UInt8}

/-- The children of a directory; its own number stands first in `family`. -/
def children (s : InodeTree) (k : Nat) : List Nat := (s.inode k).family.drop 1

/-- The names of the children, in the order of their insertion. -/
def childNames (s : InodeTree) (k : Nat) : List (List UInt8) :=
  (s.children k).map fun j => (s.inode j).inodeName

/-- The child that the component `t` leads to. -/
def child (s : InodeTree) (k : Nat) (t : List UInt8) : Option Nat :=
  (firstExtending t (s.childNames k)).bind fun i => (s.children k)[i]?

/-- `GetInode` on the components of a path, from node `k`. -/
def lookup (s : InodeTree) : Nat → List (List UInt8) → Option Nat
  | k, [] => some k
  | k, t :: ts => (s.child k t).bind fun j => s.lookup j ts

/-- `InsertIntoRoot` on the components of a path, from node `k`. -/
def insertTokens (start stop : Nat) (type : InodeType) :
    InodeTree → Nat → List (List UInt8) → InodeTree
  | s, _, [] => s
  | s, k, t :: ts =>
      insertTokens start stop type (s.insertToken start stop type t k).1
        (s.insertToken start stop type t k).2 ts

/-- Every family has a parent and at most nine children, all of them in the tree. -/
structure Valid (s : InodeTree) : Prop where
  root : 0 < s.count
  parent : ∀ k < s.count, 0 < (s.inode k).family.length
  bounded : ∀ k < s.count, (s.inode k).family.length ≤ maxFamily
  closed : ∀ k < s.count, ∀ j ∈ s.children k, j < s.count

theorem length_children (h : s.Valid) (hk : k < s.count) :
    (s.children k).length + 1 = (s.inode k).family.length := by
  have := h.parent k hk
  unfold children
  rw [List.length_drop]
  omega

theorem child_mem (h : s.child k t = some j) : j ∈ s.children k := by
  obtain ⟨i, -, hj⟩ := Option.bind_eq_some_iff.mp h
  exact List.mem_of_getElem? hj

theorem Valid.child_lt (h : s.Valid) (hk : k < s.count) (hj : s.child k t = some j) :
    j < s.count :=
  h.closed k hk j (child_mem hj)

theorem lookup_lt {ts : List (List UInt8)} {j : Nat} (hs : s.Valid) (hk : k < s.count)
    (h : s.lookup k ts = some j) : j < s.count := by
  induction ts generalizing k with
  | nil =>
    rw [← Option.some.inj h]
    exact hk
  | cons t ts ih =>
    obtain ⟨k', hk', hj⟩ := Option.bind_eq_some_iff.mp h
    exact ih (hs.child_lt hk hk') hj

theorem lookup_append {ts' : List (List UInt8)} :
    s.lookup k (ts ++ ts') = (s.lookup k ts).bind fun j => s.lookup j ts' := by
  induction ts generalizing k with
  | nil => rfl
  | cons t ts ih =>
    rw [List.cons_append, lookup, lookup]
    cases s.child k t with
    | none => rfl
    | some j => exact ih

theorem findFrom_eq {ks : List Nat} {i : Nat} :
    s.findFrom t ks i =
      ((firstExtending t (ks.map fun j => (s.inode j).inodeName)).map (i + ·)).getD 0 := by
  induction ks generalizing i with
  | nil => rfl
  | cons j ks ih =>
    by_cases hp : t <+: (s.inode j).inodeName
    · simp [findFrom, strncmp_eq_zero, firstExtending, List.findIdx?_cons, hp]
    · have hrest := ih (i := i + 1)
      unfold firstExtending at hrest
      simp [findFrom, strncmp_eq_zero, firstExtending, List.findIdx?_cons, hp, hrest,
        Function.comp_def, Nat.add_assoc, Nat.add_comm 1]

theorem child_eq_none : s.child k t = none ↔ firstExtending t (s.childNames k) = none := by
  constructor
  · intro h
    cases hf : firstExtending t (s.childNames k) with
    | none => rfl
    | some i =>
      obtain ⟨c, hc, -⟩ := firstExtending_isPrefix hf
      unfold childNames at hc
      rw [List.getElem?_map, Option.map_eq_some_iff] at hc
      obtain ⟨j, hj, -⟩ := hc
      unfold child at h
      rw [hf, Option.bind_some, hj] at h
      cases h
  · intro h
    unfold child
    rw [h]
    rfl

theorem findFamily_of_child_none (h : s.child k t = none) : s.findFamily k t = 0 := by
  have hf := child_eq_none.mp h
  unfold childNames children at hf
  unfold findFamily
  rw [findFrom_eq, hf]
  rfl

/-- `findFamily` gives an index from 1 to 9 whose entry is the child. -/
theorem findFamily_of_child (hs : s.Valid) (hk : k < s.count) (h : s.child k t = some j) :
    0 < s.findFamily k t ∧ s.findFamily k t < maxFamily ∧
      (s.inode k).family.getD (s.findFamily k t) 0 = j := by
  obtain ⟨i, hi, hj⟩ := Option.bind_eq_some_iff.mp h
  have hfind : s.findFamily k t = 1 + i := by
    unfold childNames children at hi
    unfold findFamily
    rw [findFrom_eq, hi]
    rfl
  have hlt := (List.getElem?_eq_some_iff.mp hj).1
  have hlen := length_children hs hk
  have hb := hs.bounded k hk
  unfold children at hj
  rw [List.getElem?_drop] at hj
  rw [hfind]
  refine ⟨by omega, by omega, ?_⟩
  rw [List.getD_eq_getElem?_getD, hj]
  rfl

theorem getInodeLoop_eq {fuel pos : Nat} (hs : s.Valid) (hk : k < s.count)
    (hfuel : path.length < fuel + pos) :
    s.getInodeLoop path fuel pos k = s.lookup k (components 47 (path.drop pos)) := by
  induction fuel generalizing pos k with
  | zero => simp [getInodeLoop, lookup, List.drop_eq_nil_of_le (show path.length ≤ pos by omega)]
  | succ fuel ih =>
    rcases mystrtok_spec path 47 pos with
      ⟨htok, hcomp⟩ | ⟨t, pos', htok, hlt, -, hcomp⟩
    · simp [getInodeLoop, htok, hcomp, lookup]
    · cases hc : s.child k t with
      | none => simp [getInodeLoop, htok, hcomp, lookup, hc, findFamily_of_child_none hc]
      | some j =>
        obtain ⟨hpos, hmax, hj⟩ := findFamily_of_child hs hk hc
        have hrest := ih (hs.child_lt hk hc) (show path.length < fuel + pos' by omega)
        unfold getInodeLoop
        rw [htok, hcomp]
        simp only [lookup]
        rw [if_neg (by omega), if_pos ⟨hpos, hmax⟩, hj, hrest, hc, Option.bind_some]

theorem getInode_eq (hs : s.Valid) : s.getInode path = s.lookup 0 (components 47 path) := by
  unfold getInode
  rw [getInodeLoop_eq hs hs.root (by omega), List.drop_zero]

theorem insertLoop_eq {fuel pos : Nat} (hfuel : path.length < fuel + pos) :
    insertLoop start stop type path fuel pos k s =
      insertTokens start stop type s k (components 47 (path.drop pos)) := by
  induction fuel generalizing pos k s with
  | zero =>
    simp [insertLoop, insertTokens, List.drop_eq_nil_of_le (show path.length ≤ pos by omega)]
  | succ fuel ih =>
    rcases mystrtok_spec path 47 pos with
      ⟨htok, hcomp⟩ | ⟨t, pos', htok, hlt, -, hcomp⟩
    · simp [insertLoop, htok, hcomp, insertTokens]
    · have hrest := ih (k := (s.insertToken start stop type t k).2)
        (s := (s.insertToken start stop type t k).1) (show path.length < fuel + pos' by omega)
      simp only [insertLoop, htok, hcomp, insertTokens, hrest]

theorem insertIntoRoot_eq :
    s.insertIntoRoot path start stop type =
      insertTokens start stop type s 0 (components 47 path) := by
  unfold insertIntoRoot
  rw [insertLoop_eq (by omega), List.drop_zero]

/-- The tree after `appendToFamily` has made room for a new child of `k`. -/
def append (s : InodeTree) (start stop : Nat) (type : InodeType) (t : List UInt8) (k : Nat) :
    InodeTree where
  inode := Function.update (Function.update s.inode s.count ⟨start, stop, [k], some type, t⟩) k
    { s.inode k with family := (s.inode k).family ++ [s.count] }
  count := s.count + 1

theorem insertToken_of_child (hs : s.Valid) (hk : k < s.count) (h : s.child k t = some j) :
    s.insertToken start stop type t k = (s, j) := by
  obtain ⟨hpos, hmax, hj⟩ := findFamily_of_child hs hk h
  have hne : s.findFamily k t ≠ 0 := by omega
  have hrange : (0 : Int) < (s.findFamily k t : Int) ∧ (s.findFamily k t : Int) < maxFamily := by
    omega
  unfold insertToken
  simp only [if_neg hne, if_pos hrange, Int.toNat_natCast, hj]

theorem insertToken_full (h : s.child k t = none)
    (hfull : maxFamily ≤ (s.inode k).family.length) :
    s.insertToken start stop type t k = (s, k) := by
  unfold insertToken appendToFamily
  simp [findFamily_of_child_none h, hfull]

theorem insertToken_new (hs : s.Valid) (hk : k < s.count) (h : s.child k t = none)
    (hroom : (s.inode k).family.length < maxFamily) :
    s.insertToken start stop type t k = (s.append start stop type t k, s.count) := by
  have hpos := hs.parent k hk
  have hrange : (0 : Int) < ((s.inode k).family.length : Int) ∧
      ((s.inode k).family.length : Int) < maxFamily := by omega
  unfold insertToken appendToFamily
  simp only [findFamily_of_child_none h, if_true, if_neg (Nat.not_le.mpr hroom), if_pos hrange,
    Int.toNat_natCast]
  simp [append]

theorem append_inode :
    (s.append start stop type t k).inode =
      Function.update (Function.update s.inode s.count ⟨start, stop, [k], some type, t⟩) k
        { s.inode k with family := (s.inode k).family ++ [s.count] } := rfl

theorem append_inode_count (hk : k < s.count) :
    (s.append start stop type t k).inode s.count = ⟨start, stop, [k], some type, t⟩ := by
  rw [append_inode, Function.update_of_ne (by omega), Function.update_self]

theorem children_append_self :
    (s.append start stop type t k).children k =
      ((s.inode k).family ++ [s.count]).drop 1 := by
  unfold children
  rw [append_inode, Function.update_self]

theorem children_append_count (hk : k < s.count) :
    (s.append start stop type t k).children s.count = [] := by
  unfold children
  rw [append_inode_count hk]
  rfl

theorem children_append_other (hj : j < s.count) (hne : j ≠ k) :
    (s.append start stop type t k).children j = s.children j := by
  unfold children
  rw [append_inode, Function.update_of_ne hne, Function.update_of_ne (by omega)]

/-- `s'` has the inodes of `s` with their data, and each family has only grown at its end. -/
structure Extends (s s' : InodeTree) : Prop where
  count : s.count ≤ s'.count
  data : ∀ k < s.count, (s'.inode k).data = (s.inode k).data
  children : ∀ k < s.count, s.children k <+: s'.children k

namespace Extends

theorem refl (s : InodeTree) : s.Extends s :=
  ⟨Nat.le_refl _, fun _ _ => rfl, fun _ _ => List.prefix_refl _⟩

theorem trans {s'' : InodeTree} (h : s.Extends s') (h' : s'.Extends s'') : s.Extends s'' where
  count := Nat.le_trans h.count h'.count
  data k hk := (h'.data k (Nat.lt_of_lt_of_le hk h.count)).trans (h.data k hk)
  children k hk := (h.children k hk).trans (h'.children k (Nat.lt_of_lt_of_le hk h.count))

theorem inodeName (h : s.Extends s') (hk : k < s.count) :
    (s'.inode k).inodeName = (s.inode k).inodeName :=
  congrArg (fun d => d.2.2.2) (h.data k hk)

theorem child (h : s.Extends s') (hs : s.Valid) (hk : k < s.count) (hj : s.child k t = some j) :
    s'.child k t = some j := by
  obtain ⟨i, hi, hget⟩ := Option.bind_eq_some_iff.mp hj
  obtain ⟨post, hpost⟩ := h.children k hk
  have hnames : s.childNames k <+: s'.childNames k := by
    refine ⟨post.map fun j => (s'.inode j).inodeName, ?_⟩
    unfold childNames
    rw [← hpost, List.map_append]
    congr 1
    apply List.map_congr_left
    intro j hj
    exact (h.inodeName (hs.closed k hk j hj)).symm
  unfold InodeTree.child
  rw [firstExtending_of_isPrefix hnames hi, Option.bind_some, ← hpost,
    List.getElem?_append_left (List.getElem?_eq_some_iff.mp hget).1, hget]

/-- What a lookup has found stays found. -/
theorem lookup (h : s.Extends s') (hs : s.Valid) (hk : k < s.count)
    (hj : s.lookup k ts = some j) : s'.lookup k ts = some j := by
  induction ts generalizing k with
  | nil => exact hj
  | cons t ts ih =>
    obtain ⟨k', hk', hj⟩ := Option.bind_eq_some_iff.mp hj
    unfold InodeTree.lookup
    rw [h.child hs hk hk', Option.bind_some]
    exact ih (hs.child_lt hk hk') hj

end Extends

theorem append_extends (hs : s.Valid) (hk : k < s.count) :
    s.Extends (s.append start stop type t k) where
  count := Nat.le_succ _
  data j hj := by
    rw [append_inode]
    by_cases h : j = k
    · rw [h, Function.update_self]
      rfl
    · rw [Function.update_of_ne h, Function.update_of_ne (by omega)]
  children j hj := by
    by_cases h : j = k
    · rw [h, children_append_self, List.drop_append_of_le_length (hs.parent k hk)]
      exact List.prefix_append _ _
    · rw [children_append_other hj h]

theorem append_valid (start stop : Nat) (type : InodeType) (t : List UInt8) (hs : s.Valid)
    (hk : k < s.count) (hroom : (s.inode k).family.length < maxFamily) :
    (s.append start stop type t k).Valid := by
  have hfamily : ∀ j, j < s.count + 1 →
      j = s.count ∧ ((s.append start stop type t k).inode j).family = [k] ∨
      j = k ∧ ((s.append start stop type t k).inode j).family =
        (s.inode k).family ++ [s.count] ∨
      j < s.count ∧ ((s.append start stop type t k).inode j).family = (s.inode j).family := by
    intro j hj
    rw [append_inode]
    by_cases hjk : j = k
    · rw [hjk, Function.update_self]
      exact Or.inr (Or.inl ⟨rfl, rfl⟩)
    · rw [Function.update_of_ne hjk]
      by_cases hjc : j = s.count
      · rw [hjc, Function.update_self]
        exact Or.inl ⟨rfl, rfl⟩
      · rw [Function.update_of_ne hjc]
        exact Or.inr (Or.inr ⟨by omega, rfl⟩)
  constructor
  · exact Nat.succ_pos _
  · intro j hj
    rcases hfamily j hj with ⟨-, h⟩ | ⟨-, h⟩ | ⟨hlt, h⟩ <;> rw [h]
    · exact Nat.one_pos
    · simp
    · exact hs.parent j hlt
  · intro j hj
    rcases hfamily j hj with ⟨-, h⟩ | ⟨-, h⟩ | ⟨hlt, h⟩ <;> rw [h]
    · exact Nat.succ_le_of_lt (by decide)
    · rw [List.length_append]
      exact hroom
    · exact hs.bounded j hlt
  · intro j hj i hi
    have hcount : (s.append start stop type t k).count = s.count + 1 := rfl
    unfold children at hi
    rw [hcount]
    rcases hfamily j hj with ⟨-, h⟩ | ⟨-, h⟩ | ⟨hlt, h⟩ <;> rw [h] at hi
    · simp at hi
    · rw [List.drop_append_of_le_length (hs.parent k hk)] at hi
      rcases List.mem_append.mp hi with hi | hi
      · have := hs.closed k hk i hi
        omega
      · have := List.mem_singleton.mp hi
        omega
    · have := hs.closed j hlt i hi
      omega

/-- One turn of `InsertIntoRoot`. -/
theorem insertToken_extends (start stop : Nat) (type : InodeType) (t : List UInt8) (hs : s.Valid)
    (hk : k < s.count) :
    (s.insertToken start stop type t k).1.Valid ∧
      s.Extends (s.insertToken start stop type t k).1 ∧
      (s.insertToken start stop type t k).2 < (s.insertToken start stop type t k).1.count := by
  cases hc : s.child k t with
  | some j =>
    rw [insertToken_of_child hs hk hc]
    exact ⟨hs, Extends.refl s, hs.child_lt hk hc⟩
  | none =>
    by_cases hroom : (s.inode k).family.length < maxFamily
    · rw [insertToken_new hs hk hc hroom]
      exact ⟨append_valid start stop type t hs hk hroom, append_extends hs hk, Nat.lt_succ_self _⟩
    · rw [insertToken_full hc (Nat.not_lt.mp hroom)]
      exact ⟨hs, Extends.refl s, hk⟩

theorem insertTokens_extends (hs : s.Valid) (hk : k < s.count) :
    (insertTokens start stop type s k ts).Valid ∧
      s.Extends (insertTokens start stop type s k ts) := by
  induction ts generalizing s k with
  | nil => exact ⟨hs, Extends.refl s⟩
  | cons t ts ih =>
    obtain ⟨hs', he, hk'⟩ := insertToken_extends start stop type t hs hk
    exact ⟨(ih hs' hk').1, he.trans (ih hs' hk').2⟩

/-- Along components that a lookup finds, `InsertIntoRoot` only walks. -/
theorem insertTokens_append {ts' : List (List UInt8)} (hs : s.Valid) (hk : k < s.count)
    (h : s.lookup k ts = some j) :
    insertTokens start stop type s k (ts ++ ts') = insertTokens start stop type s j ts' := by
  induction ts generalizing k with
  | nil =>
    cases h
    rfl
  | cons t ts ih =>
    obtain ⟨k', hk', hj⟩ := Option.bind_eq_some_iff.mp h
    rw [List.cons_append, insertTokens, insertToken_of_child hs hk hk']
    exact ih (hs.child_lt hk hk') hj

end InodeTree

theorem rootTree_valid : rootTree.Valid := by
  constructor
  · exact Nat.one_pos
  · intro k hk
    exact Nat.one_pos
  · intro k hk
    exact Nat.succ_le_of_lt (by decide)
  · intro k hk j hj
    cases hj

end Sbunix
