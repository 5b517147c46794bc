import Sbunix.Sys.Proofs.Listing

/-!
# The order of the members

When no component is the beginning of another one beside it, `InsertIntoRoot` gives an inode to
every path that some member mentions, in any order of the members.  The inode has the attributes
of the first member that mentions the path (`Grown`), which may be a file below a directory that
is listed later.
-/

namespace Sbunix

variable {s : InodeTree} {ns ms ms' o : List Member} {m m' x : Member} {c t : List UInt8}
  {q r ts : List (List UInt8)} {j k : Nat}

theorem insertAll_eq {cs : List InsertCall} :
    insertAll cs = treeOf (cs.map InsertCall.member) := by
  unfold insertAll treeOf
  rw [List.foldl_map]
  congr 1
  funext s c
  exact InodeTree.insertIntoRoot_eq

/-- The nodes `ns` are the paths that the members `o` mention, each with the attributes of the
first member that does. -/
structure Grown (s : InodeTree) (ns o : List Member) : Prop where
  tree : Represents s ns
  valid : s.Valid
  nodup : ([] :: ns.map Member.path).Nodup
  closed : PrefixClosed ns
  mentions : ∀ q ≠ [], (∃ n ∈ ns, n.path = q) ↔ ∃ m ∈ o, q <+: m.path
  attributes : ∀ n ∈ ns, ∃ m, firstMention o n.path = some m ∧ n.attributes = m.attributes

theorem grown_rootTree : Grown rootTree [] [] where
  tree := rootTree_represents
  valid := rootTree_valid
  nodup := by simp
  closed m hm := by cases hm
  mentions q _ := by simp
  attributes n hn := by cases hn

/-- The member `m` while `InsertIntoRoot` has come as far as `q` on its path. -/
def Member.upTo (m : Member) (q : List (List UInt8)) : Member := { m with path := q }

/-- A member that goes on mentions what it mentioned, with the same attributes. -/
theorem firstMention_upTo (ts : List (List UInt8))
    (hx : firstMention (o ++ [m.upTo q]) r = some x) :
    ∃ y, firstMention (o ++ [m.upTo (q ++ ts)]) r = some y ∧ y.attributes = x.attributes := by
  unfold firstMention at *
  rw [List.find?_append] at hx ⊢
  cases ho : o.find? fun m => decide (r <+: m.path) with
  | some y =>
    rw [ho] at hx
    exact ⟨y, rfl, congrArg Member.attributes (Option.some.inj hx)⟩
  | none =>
    rw [ho, Option.none_or, List.find?_singleton] at hx
    split at hx
    · rename_i hr
      rw [← Option.some.inj hx]
      refine ⟨m.upTo (q ++ ts), ?_, rfl⟩
      have hr' : r <+: (m.upTo (q ++ ts)).path :=
        (of_decide_eq_true hr).trans (List.prefix_append q ts)
      simp [hr']
    · cases hx

theorem prefix_concat_iff : r <+: q ++ [t] ↔ r <+: q ∨ r = q ++ [t] := by
  rw [List.prefix_concat_iff]
  exact or_comm

theorem SeparateNames.findsExactly (hsep : SeparateNames ms)
    (hn : ∀ c ∈ namesIn ns q, Mentioned ms q c) (ht : Mentioned ms q t) : FindsExactly ns q t := by
  intro i hi
  obtain ⟨c, hc, htc⟩ := firstExtending_isPrefix hi
  rw [hsep.apart q t c ht (hn c (List.mem_of_getElem? hc)) htc]
  exact hc

namespace Grown

/-- What the paths mention now, after one more component. -/
theorem mentions_upTo (h : Grown s ns (o ++ [m.upTo q])) (hr : r ≠ []) :
    (∃ x ∈ o ++ [m.upTo (q ++ [t])], r <+: x.path) ↔ (∃ n ∈ ns, n.path = r) ∨ r = q ++ [t] := by
  rw [h.mentions r hr]
  simp only [List.mem_append, List.mem_singleton, or_and_right, exists_or, exists_eq_left]
  rw [show (m.upTo (q ++ [t])).path = q ++ [t] from rfl, show (m.upTo q).path = q from rfl,
    prefix_concat_iff, or_assoc]

theorem mentioned (h : Grown s ns o) (hc : c ∈ namesIn ns r) : Mentioned o r c := by
  obtain ⟨n, hn, hp⟩ := mem_namesIn.mp hc
  have hne : r ++ [c] ≠ [] := List.append_ne_nil_of_right_ne_nil _ (List.cons_ne_nil _ _)
  exact (h.mentions _ hne).mp ⟨n, hn, hp⟩

section Step

variable (h : Grown s ns (o ++ [m.upTo q])) (ho : ∀ x ∈ o, x ∈ ms) (hm : m ∈ ms)
  (hq : q ++ [t] <+: m.path) (hsep : SeparateNames ms)
include h ho hm hq

theorem mentioned_upTo (hc : c ∈ namesIn ns q) : Mentioned ms q c := by
  obtain ⟨x, hx, hpre⟩ := h.mentioned hc
  rcases List.mem_append.mp hx with hx | hx
  · exact ⟨x, ho x hx, hpre⟩
  · rw [List.mem_singleton.mp hx] at hpre
    exact ⟨m, hm, hpre.trans ((List.prefix_append q [t]).trans hq)⟩

include hsep

theorem findsExactly : FindsExactly ns q t :=
  hsep.findsExactly (fun _ => h.mentioned_upTo ho hm hq) ⟨m, hm, hq⟩

theorem newEntry (hk : pathOf ns k = some q) (hlookup : s.lookup 0 q = some k)
    (hnone : s.child k t = none) : NewEntry s ns (m.upTo (q ++ [t])) q t k := by
  have hexact := h.findsExactly ho hm hq hsep
  have hnew : ∀ n ∈ ns, n.path ≠ q ++ [t] := by
    intro n hn hp
    obtain ⟨i, -, hi⟩ := exists_pathOf hn
    rw [(h.tree.child_iff h.nodup hk hexact).mpr (hi.trans (congrArg some hp))] at hnone
    cases hnone
  refine ⟨h.tree, h.valid, h.nodup, h.closed, rfl, hnew, hk, hlookup, hnone, ?_⟩
  have ht : t ∉ namesIn ns q := by
    intro hmem
    obtain ⟨n, hn, hp⟩ := mem_namesIn.mp hmem
    exact hnew n hn hp
  have hlen := hsep.entries q (t :: namesIn ns q)
    (List.nodup_cons.mpr ⟨ht, namesIn_nodup (List.nodup_cons.mp h.nodup).2⟩) (by
      intro c hc
      cases hc with
      | head => exact ⟨m, hm, hq⟩
      | tail _ hc => exact h.mentioned_upTo ho hm hq hc)
  rw [List.length_cons] at hlen
  omega

/-- One component: the node that has it is found, or made. -/
theorem insertToken (hk : pathOf ns k = some q) (hlookup : s.lookup 0 q = some k) :
    ∃ ns', Grown (s.insertToken m.start m.stop m.type t k).1 ns' (o ++ [m.upTo (q ++ [t])]) ∧
      pathOf ns' (s.insertToken m.start m.stop m.type t k).2 = some (q ++ [t]) ∧
      (s.insertToken m.start m.stop m.type t k).1.lookup 0 (q ++ [t]) =
        some (s.insertToken m.start m.stop m.type t k).2 := by
  have hlt := h.tree.lt_count hk
  have hexact := h.findsExactly ho hm hq hsep
  have hattr : ∀ n ∈ ns, ∃ y, firstMention (o ++ [m.upTo (q ++ [t])]) n.path = some y ∧
      n.attributes = y.attributes := by
    intro n hn
    obtain ⟨x, hx, hnx⟩ := h.attributes n hn
    obtain ⟨y, hy, hyx⟩ := firstMention_upTo [t] hx
    exact ⟨y, hy, hnx.trans hyx.symm⟩
  cases hc : s.child k t with
  | some j =>
    have hj := (h.tree.child_iff h.nodup hk hexact).mp hc
    rw [InodeTree.insertToken_of_child h.valid hlt hc]
    refine ⟨ns, ⟨h.tree, h.valid, h.nodup, h.closed, ?_, hattr⟩, hj, ?_⟩
    · intro r hr
      rw [h.mentions_upTo hr]
      refine ⟨Or.inl, fun hcases => hcases.elim id fun hrt => ?_⟩
      rcases pathOf_eq_some hj with ⟨-, hnil⟩ | ⟨i, n, -, hn, hp⟩
      · exact absurd hnil (List.append_ne_nil_of_right_ne_nil _ (List.cons_ne_nil _ _))
      · exact ⟨n, List.mem_of_getElem? hn, hp.trans hrt.symm⟩
    · rw [InodeTree.lookup_append, hlookup, Option.bind_some, InodeTree.lookup, hc]
      rfl
  | none =>
    have hnew := h.newEntry ho hm hq hsep hk hlookup hc
    have htree := hnew.represents
    rw [InodeTree.insertToken_new h.valid hlt hc hnew.family_lt]
    have hvalid := InodeTree.append_valid m.start m.stop m.type t h.valid hlt hnew.family_lt
    have hlast : pathOf (ns ++ [m.upTo (q ++ [t])]) s.count = some (q ++ [t]) := by
      rw [h.tree.count]
      exact pathOf_append_length
    have hnodup : ([] :: (ns ++ [m.upTo (q ++ [t])]).map Member.path).Nodup := by
      rw [List.map_append, ← List.cons_append]
      refine List.nodup_append.mpr ⟨h.nodup, List.nodup_singleton _, ?_⟩
      intro r hr r' hr'
      rw [List.mem_singleton.mp hr']
      cases hr with
      | head => exact (List.append_ne_nil_of_right_ne_nil q (List.cons_ne_nil t [])).symm
      | tail _ hr =>
        obtain ⟨n, hn, rfl⟩ := List.mem_map.mp hr
        exact hnew.new n hn
    have hclosed : PrefixClosed (ns ++ [m.upTo (q ++ [t])]) := by
      intro n hn d c hp
      rcases List.mem_append.mp hn with hn | hn
      · obtain ⟨i, hi⟩ := h.closed n hn d c hp
        exact ⟨i, (pathOf_append (pathOf_lt hi)).trans hi⟩
      · rw [List.mem_singleton.mp hn] at hp
        rw [← (List.append_inj' (show q ++ [t] = d ++ [c] from hp) rfl).1]
        exact ⟨k, (pathOf_append (pathOf_lt hk)).trans hk⟩
    refine ⟨_, ⟨htree, hvalid, hnodup, hclosed, ?_, ?_⟩, hlast, ?_⟩
    · intro r hr
      rw [h.mentions_upTo hr]
      simp only [List.mem_append, List.mem_singleton, or_and_right, exists_or, exists_eq_left]
      exact or_congr_right ⟨fun hrt => hrt.symm, fun hrt => hrt.symm⟩
    · intro n hn
      rcases List.mem_append.mp hn with hn | hn
      · exact hattr n hn
      · rw [List.mem_singleton.mp hn]
        refine ⟨m.upTo (q ++ [t]), ?_, rfl⟩
        have hnone : (o.find? fun x => decide (q ++ [t] <+: x.path)) = none := by
          apply List.find?_eq_none.mpr
          intro x hx hpre
          obtain ⟨n', hn', hp'⟩ := (h.mentions (q ++ [t])
            (List.append_ne_nil_of_right_ne_nil _ (List.cons_ne_nil _ _))).mpr
              ⟨x, List.mem_append_left _ hx, of_decide_eq_true hpre⟩
          exact hnew.new n' hn' hp'
        have hself : q ++ [t] <+: (m.upTo (q ++ [t])).path := List.prefix_refl _
        unfold firstMention
        rw [show (m.upTo (q ++ [t])).path = q ++ [t] from rfl, List.find?_append, hnone]
        simp [hself]
    · have hexact' : FindsExactly (ns ++ [m.upTo (q ++ [t])]) q t := by
        intro i hi
        have hnone := InodeTree.child_eq_none.mp hc
        rw [h.tree.names k q hk] at hnone
        rw [namesIn_append_of_eq (show (m.upTo (q ++ [t])).path = q ++ [t] from rfl)] at hi ⊢
        rw [firstExtending_append_singleton hnone (List.prefix_refl t)] at hi
        rw [← Option.some.inj hi, List.getElem?_concat_length]
      have hdir := hnew.extends'.lookup hnew.valid hnew.valid.root hlookup
      have hchild := (htree.child_iff hnodup ((pathOf_append (pathOf_lt hk)).trans hk)
        hexact').mpr hlast
      have hchild' : (s.append m.start m.stop m.type t k).child k t = some s.count := hchild
      have hdir' : (s.append m.start m.stop m.type t k).lookup 0 q = some k := hdir
      rw [InodeTree.lookup_append, hdir', Option.bind_some, InodeTree.lookup, hchild']
      rfl

end Step

/-- The path of a member, from the node of `q` on. -/
theorem insertTokens (h : Grown s ns (o ++ [m.upTo q])) (ho : ∀ x ∈ o, x ∈ ms) (hm : m ∈ ms)
    (hsep : SeparateNames ms) (hq : q ++ ts <+: m.path) (hk : pathOf ns k = some q)
    (hlookup : s.lookup 0 q = some k) :
    ∃ ns', Grown (InodeTree.insertTokens m.start m.stop m.type s k ts) ns'
      (o ++ [m.upTo (q ++ ts)]) := by
  induction ts generalizing s ns k q with
  | nil =>
    rw [List.append_nil]
    exact ⟨ns, h⟩
  | cons t ts ih =>
    have hsplit : q ++ t :: ts = (q ++ [t]) ++ ts := by simp
    rw [hsplit] at hq ⊢
    obtain ⟨ns', hns', hk', hl'⟩ :=
      h.insertToken ho hm ((List.prefix_append _ _).trans hq) hsep hk hlookup
    exact ih hns' hq hk' hl'

/-- A member that is about to be inserted mentions nothing yet. -/
theorem upTo_nil (h : Grown s ns o) : Grown s ns (o ++ [m.upTo []]) where
  tree := h.tree
  valid := h.valid
  nodup := h.nodup
  closed := h.closed
  mentions q hq := by
    rw [h.mentions q hq]
    simp only [List.mem_append, List.mem_singleton, or_and_right, exists_or, exists_eq_left]
    exact (or_iff_left fun hpre => hq (List.prefix_nil.mp hpre)).symm
  attributes n hn := by
    obtain ⟨x, hx, hnx⟩ := h.attributes n hn
    refine ⟨x, ?_, hnx⟩
    unfold firstMention at *
    rw [List.find?_append, hx]
    rfl

/-- Every path that a member mentions is found, with the attributes of the first mention. -/
theorem lookup (h : Grown s ns o) (hsep : SeparateNames o) (hq : q ≠ [])
    (hmention : ∃ m ∈ o, q <+: m.path) :
    ∃ k m, s.lookup 0 q = some k ∧ firstMention o q = some m ∧
      (s.inode k).attributes = (m.start, m.stop, some m.type) := by
  obtain ⟨m, hm, hqm⟩ := hmention
  have hexact : ∀ q' t, q' ++ [t] <+: [] ++ q → FindsExactly ns q' t := by
    intro q' t hpre
    exact hsep.findsExactly (fun _ => h.mentioned) ⟨m, hm, hpre.trans hqm⟩
  obtain ⟨n, hn, hp⟩ := (h.mentions q hq).mpr ⟨m, hm, hqm⟩
  obtain ⟨i, hi, hpath⟩ := exists_pathOf hn
  obtain ⟨x, hx, hnx⟩ := h.attributes n hn
  have hdesc := h.tree.describes i n hi
  rw [hp] at hx hpath
  refine ⟨i + 1, x, ?_, hx, ?_⟩
  · exact (h.tree.lookup_iff h.nodup h.closed pathOf_zero hexact).mpr hpath
  · unfold Inode.attributes
    simp only [Member.attributes, Prod.mk.injEq] at hnx
    rw [hdesc.2.1, hdesc.2.2.1, hdesc.2.2.2, hnx.1, hnx.2.1, hnx.2.2]

end Grown

/-- Every list of members grows a tree, in any order. -/
theorem exists_grown (hsep : SeparateNames ms) (ho : ∀ x ∈ o, x ∈ ms) :
    ∃ ns, Grown (treeOf o) ns o := by
  induction o using List.reverseRecOn with
  | nil => exact ⟨[], grown_rootTree⟩
  | append_singleton o m ih =>
    obtain ⟨ns, hns⟩ := ih fun x hx => ho x (List.mem_append_left _ hx)
    rw [treeOf_append_singleton]
    exact hns.upTo_nil.insertTokens (q := [])
      (fun x hx => ho x (List.mem_append_left _ hx))
      (ho m (List.mem_append_right _ List.mem_cons_self)) hsep (List.prefix_refl _) pathOf_zero rfl

/-- A lookup of a member gives the attributes of the first mention of its path. -/
theorem SeparateNames.getInode (hsep : SeparateNames ms) (hm : m ∈ ms) (hne : m.path ≠ [])
    {p : List UInt8} (hp : components 47 p = m.path) :
    ∃ k x, (treeOf ms).getInode p = some k ∧ firstMention ms m.path = some x ∧
      ((treeOf ms).inode k).attributes = (x.start, x.stop, some x.type) := by
  obtain ⟨ns, hns⟩ := exists_grown hsep fun _ hx => hx
  rw [InodeTree.getInode_eq treeOf_valid, hp]
  exact hns.lookup hsep hne ⟨m, hm, List.prefix_refl _⟩

theorem SeparateNames.perm (hsep : SeparateNames ms) (hperm : ms.Perm ms') :
    SeparateNames ms' := by
  have hmention : ∀ q c, Mentioned ms' q c → Mentioned ms q c := by
    intro q c h
    obtain ⟨m, hm, hq⟩ := h
    exact ⟨m, hperm.mem_iff.mpr hm, hq⟩
  exact ⟨fun q c c' hc hc' => hsep.apart q c c' (hmention q c hc) (hmention q c' hc'),
    fun q cs hn hcs => hsep.entries q cs hn fun c hc => hmention q c (hcs c hc)⟩

/-- For names of which none is the beginning of another beside it: two orders of insertion give
the same lookups of the members if and only if every member's path is mentioned first, in both
orders, by members with the same attributes. -/
theorem insertAll_order (cs cs' : List InsertCall) (hperm : cs.Perm cs')
    (hsep : SeparateNames (cs.map InsertCall.member)) :
    SameLookups (insertAll cs) (insertAll cs') (cs.map InsertCall.member) ↔
      ∀ m ∈ cs.map InsertCall.member, m.path ≠ [] →
        (firstMention (cs.map InsertCall.member) m.path).map Member.attributes =
          (firstMention (cs'.map InsertCall.member) m.path).map Member.attributes := by
  have hperm' := hperm.map InsertCall.member
  have hsep' := hsep.perm hperm'
  rw [insertAll_eq, insertAll_eq]
  constructor
  · intro h m hm hne
    obtain ⟨c, -, rfl⟩ := List.mem_map.mp hm
    obtain ⟨k, k', hk, hk', heq⟩ := h _ hm c.name rfl
    obtain ⟨j, x, hj, hx, hattr⟩ := hsep.getInode hm hne (p := c.name) rfl
    obtain ⟨j', x', hj', hx', hattr'⟩ :=
      hsep'.getInode (hperm'.mem_iff.mp hm) hne (p := c.name) rfl
    rw [← Option.some.inj (hk.symm.trans hj)] at hattr
    rw [← Option.some.inj (hk'.symm.trans hj')] at hattr'
    rw [hattr, hattr'] at heq
    rw [hx, hx']
    simp only [Prod.mk.injEq, Option.some.injEq] at heq
    simp only [Option.map_some, Member.attributes, heq.1, heq.2.1, heq.2.2]
  · intro h m hm p hp
    by_cases hne : m.path = []
    · rw [hne] at hp
      refine ⟨0, 0, ?_, ?_, (treeOf_root _).trans (treeOf_root _).symm⟩
      · rw [InodeTree.getInode_eq treeOf_valid, hp]
        rfl
      · rw [InodeTree.getInode_eq treeOf_valid, hp]
        rfl
    · obtain ⟨j, x, hj, hx, hattr⟩ := hsep.getInode hm hne hp
      obtain ⟨j', x', hj', hx', hattr'⟩ := hsep'.getInode (hperm'.mem_iff.mp hm) hne hp
      refine ⟨j, j', hj, hj', ?_⟩
      have heq := h m hm hne
      rw [hx, hx'] at heq
      simp only [Option.map_some, Member.attributes, Option.some.injEq, Prod.mk.injEq] at heq
      rw [hattr, hattr', heq.1, heq.2.1, heq.2.2]

/-- The directory `d/`, as an archive lists it, and the file `d/f` of one byte. -/
def dirCall : InsertCall := ⟨[100, 47], 1024, 1024, .dir⟩

/-- The insertion of the file `d/f`. -/
def fileCall : InsertCall := ⟨[100, 47, 102], 2048, 2049, .file⟩

theorem separateNames_dir_file : SeparateNames ([dirCall, fileCall].map InsertCall.member) := by
  have hmembers : [dirCall, fileCall].map InsertCall.member =
      [⟨[[100]], 1024, 1024, .dir⟩, ⟨[[100], [102]], 2048, 2049, .file⟩] := rfl
  have hmention : ∀ q c, Mentioned ([dirCall, fileCall].map InsertCall.member) q c →
      c = if q = [] then [100] else [102] := by
    intro q c h
    rw [hmembers] at h
    obtain ⟨m, hm, hpre⟩ := h
    cases q with
    | nil =>
      rcases List.mem_cons.mp hm with rfl | hm
      · simpa using hpre
      · rw [List.mem_singleton.mp hm] at hpre
        simpa using hpre
    | cons a q =>
      rcases List.mem_cons.mp hm with rfl | hm
      · simp at hpre
      · rw [List.mem_singleton.mp hm] at hpre
        cases q with
        | nil =>
          have hcons := (List.cons_prefix_cons.mp hpre).2
          simpa using hcons
        | cons b q => simp at hpre
  constructor
  · intro q c c' hc hc' _
    rw [hmention q c hc, hmention q c' hc']
  · intro q cs hn hcs
    match cs with
    | [] => exact Nat.zero_le _
    | [_] => exact Nat.succ_le_succ (Nat.zero_le _)
    | c :: c' :: cs =>
      have hc := hmention q c (hcs c List.mem_cons_self)
      have hc' := hmention q c' (hcs c' (List.mem_cons_of_mem _ List.mem_cons_self))
      rw [hc, hc'] at hn
      exact absurd List.mem_cons_self (List.nodup_cons.mp hn).1

theorem insertAll_order_dir_file :
    SameLookups (insertAll [dirCall, fileCall]) (insertAll [fileCall, dirCall])
        ([dirCall, fileCall].map InsertCall.member) ↔
      ∀ m ∈ [dirCall, fileCall].map InsertCall.member, m.path ≠ [] →
        (firstMention ([dirCall, fileCall].map InsertCall.member) m.path).map Member.attributes =
          (firstMention ([fileCall, dirCall].map InsertCall.member) m.path).map
            Member.attributes :=
  insertAll_order _ _ (List.Perm.swap _ _ _) separateNames_dir_file

/-- Listed before its directory, the file `d/f` makes the directory a file of one byte. -/
theorem insertAll_file_first :
    SeparateNames ([dirCall, fileCall].map InsertCall.member) ∧
      [dirCall, fileCall].Perm [fileCall, dirCall] ∧
      ¬ SameLookups (insertAll [dirCall, fileCall]) (insertAll [fileCall, dirCall])
        ([dirCall, fileCall].map InsertCall.member) := by
  refine ⟨separateNames_dir_file, List.Perm.swap _ _ _, fun h => ?_⟩
  obtain ⟨k, k', hk, hk', heq⟩ := h dirCall.member (by simp) [100, 47] rfl
  have hfound : (insertAll [dirCall, fileCall]).getInode [100, 47] = some 1 := by decide
  have hfound' : (insertAll [fileCall, dirCall]).getInode [100, 47] = some 1 := by decide
  rw [Option.some.inj (hk.symm.trans hfound), Option.some.inj (hk'.symm.trans hfound')] at heq
  exact absurd heq (by decide)

end Sbunix
