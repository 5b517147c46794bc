import Sbunix.Sys.Proofs.Listing
import Sbunix.Sys.Proofs.TarWalk

/-!
# `init_tarfs` on an archive

The loop of `init_tarfs` goes from header to header and inserts the members of the archive in
order.  With that, `GetInode` is faithful exactly when every member can be told apart from
those before it.
-/

namespace Sbunix

variable {t : Tarfs} {a : Archive} {e : ArchiveEntry} {es : List ArchiveEntry} {s : InodeTree}
  {k i h pad fuel : Nat}

/-- `InsertIntoRoot` of a member. -/
def insertMember (s : InodeTree) (m : Member) : InodeTree :=
  InodeTree.insertTokens m.start m.stop m.type s 0 m.path

theorem Tarfs.addr_eq (h : t.start + 512 * k < 2 ^ 64) : t.addr k = t.start + 512 * k := by
  unfold Tarfs.addr toUint64
  omega

theorem Tarfs.Holds.size_le (ht : t.Holds a) (he : e ∈ a.entries) : e.size ≤ 2 ^ 27 := by
  have hblocks := e.length_data
  have hsub : (e.header :: e.data).length ≤
      (a.entries.flatMap fun e => e.header :: e.data).length := by
    have hmem : e.header :: e.data ∈ a.entries.map fun e => e.header :: e.data :=
      List.mem_map.mpr ⟨e, he, rfl⟩
    rw [List.flatMap_def]
    exact (List.sublist_flatten_of_mem hmem).length_le
  have himage : a.image.length =
      (a.entries.flatMap fun e => e.header :: e.data).length + a.padding := by
    simp [Archive.image]
  have hsmall := ht.small
  have hcount := ht.count
  rw [List.length_cons] at hsub
  omega

theorem Tarfs.Holds.contains (ht : t.Holds a) : t.Contains a where
  count := ht.count
  header := ht.header
  sizes e he := by
    have := ht.size_le he
    omega

namespace Tarfs.Holds

/-- The data of an entry lie in memory. -/
theorem entry_below (ht : t.Holds a) (hdrop : a.image.drop k = restFrom (e :: es) pad)
    (hle : k ≤ t.count) :
    t.start + 512 * (k + 1) + e.size < 2 ^ 64 ∧ e.size < 0o2147500000 := by
  have hlen := ht.contains.length_drop hdrop hle
  rw [length_restFrom_cons] at hlen
  have hblocks := e.length_data
  have hspan : t.start + 512 * (k + 1) + e.size ≤ t.start + 512 * t.count := by omega
  have hsmall := ht.small
  refine ⟨Nat.lt_of_le_of_lt hspan ht.below, ?_⟩
  clear hspan
  omega

/-- The body of the loop of `init_tarfs`, at the header of an entry. -/
theorem insertHeader_entry (ht : t.Holds a) (hdrop : a.image.drop k = restFrom (e :: es) pad)
    (hle : k ≤ t.count) :
    t.insertHeader k (toUint64 (octToDec (t.header k).size)) s =
      (membersFrom t.start k [e]).foldl insertMember s := by
  obtain ⟨hbelow, hsmall⟩ := ht.entry_below hdrop hle
  have hhead := ht.contains.header_entry hdrop
  have hfield : octal 11 e.size ≠ [] := by simp [octal]
  have hsize : toUint64 (octToDec (octal 11 e.size)) = e.size := by
    rw [octToDec_octal hsmall]
    unfold toUint64
    omega
  have haddr : t.addr ((k : Int) + 1) = t.start + 512 * (k + 1) :=
    addr_eq (k := k + 1) (Nat.lt_of_le_of_lt (Nat.le_add_right _ _) hbelow)
  have hend : (t.start + 512 * (k + 1) + e.size) % 2 ^ 64 = t.start + 512 * (k + 1) + e.size :=
    Nat.mod_eq_of_lt hbelow
  unfold Tarfs.insertHeader
  simp only [hhead, ArchiveEntry.header, hsize, haddr, hend]
  rw [if_pos ⟨e.name_ne_nil, hfield⟩]
  unfold membersFrom membersFrom ArchiveEntry.type
  split
  · rw [InodeTree.insertIntoRoot_eq]
    rfl
  · split
    · rw [InodeTree.insertIntoRoot_eq]
      rfl
    · rfl

theorem insertHeader_padding (ht : t.Holds a)
    (hdrop : a.image.drop k = List.replicate pad ⟨[], [], 0⟩) (hi : k ≤ i) (hlt : i < t.count)
    (size : Nat) : t.insertHeader i size s = s := by
  unfold Tarfs.insertHeader
  simp [ht.contains.header_padding hdrop hi hlt]

/-- The headers of the walk insert the members. -/
theorem foldl_records (ht : t.Holds a) (hdrop : a.image.drop k = restFrom es pad)
    (hle : k ≤ t.count) :
    ((headerRecords k es ++ List.range' (t.count - pad) pad).map Int.ofNat).foldl
        (fun s h => t.insertHeader h (toUint64 (octToDec (t.header h).size)) s) s =
      (membersFrom t.start k es).foldl insertMember s := by
  induction es generalizing k s with
  | nil =>
    have hlen := ht.contains.length_drop hdrop hle
    simp only [restFrom, List.flatMap_nil, List.nil_append, List.length_replicate] at hlen
    rw [headerRecords, List.nil_append, membersFrom, List.foldl_nil]
    refine List.foldlRecOn _ _ (motive := fun s' => s' = s) rfl ?_
    intro s' hs' h hh
    obtain ⟨i, hi, rfl⟩ := List.mem_map.mp hh
    obtain ⟨j, hj, rfl⟩ := List.mem_range'.mp hi
    exact (ht.insertHeader_padding hdrop (by omega) (by omega) _).trans hs'
  | cons e es ih =>
    have hlen := ht.contains.length_drop hdrop hle
    rw [length_restFrom_cons] at hlen
    rw [headerRecords, List.cons_append, List.map_cons, List.foldl_cons]
    have hfirst := ht.insertHeader_entry hdrop hle (s := s)
    have hrest := ih (drop_entry hdrop) (s := (membersFrom t.start k [e]).foldl insertMember s)
      (by omega)
    rw [← hfirst] at hrest
    refine hrest.trans ?_
    rw [hfirst]
    simp only [membersFrom, List.append_nil, List.foldl_append]

/-- `init_tarfs` ends, and inserts the members in the order of the archive. -/
theorem initTarfs (ht : t.Holds a) (hfuel : t.count < fuel) :
    t.initTarfs fuel = some (treeOf (a.members t.start)) := by
  have himage : a.image.drop 0 = restFrom a.entries a.padding := rfl
  unfold Tarfs.initTarfs
  rw [Tarfs.initLoop_walk, ← Nat.cast_zero,
    ht.contains.walk_entries (fun e he => by have := ht.size_le he; omega) himage (Nat.zero_le _)
      hfuel, upTo_false, Option.map_some, ht.foldl_records himage (Nat.zero_le _)]
  rfl

end Tarfs.Holds

theorem entriesFrom_le {start : Nat} {es : List ArchiveEntry} :
    ∀ x ∈ entriesFrom start h es, start + 512 * (h + 1) ≤ x.2 := by
  induction es generalizing h with
  | nil =>
    intro x hx
    cases hx
  | cons e es ih =>
    intro x hx
    rcases List.mem_cons.mp hx with rfl | hx
    · exact Nat.le_refl _
    · refine Nat.le_trans ?_ (ih x hx)
      clear hx
      omega

/-- No two entries have one address. -/
theorem entriesFrom_nodup (start h : Nat) (es : List ArchiveEntry) :
    ((entriesFrom start h es).map Prod.snd).Nodup := by
  induction es generalizing h with
  | nil => exact List.nodup_nil
  | cons e es ih =>
    refine List.nodup_cons.mpr ⟨fun hmem => ?_, ih _⟩
    obtain ⟨x, hx, heq⟩ := List.mem_map.mp hmem
    have hle := entriesFrom_le x hx
    rw [heq] at hle
    clear hx heq hmem
    omega

theorem entriesFrom_fst (start h : Nat) (es : List ArchiveEntry) :
    (entriesFrom start h es).map Prod.fst = es := by
  induction es generalizing h with
  | nil => rfl
  | cons e es ih => exact congrArg (e :: ·) (ih _)

/-- The member that an entry is, if it is a file or a directory. -/
def ArchiveEntry.member (x : ArchiveEntry × Nat) : Option Member :=
  x.1.type.map fun type => ⟨components 47 x.1.name, x.2, x.2 + x.1.size, type⟩

theorem membersFrom_eq {start : Nat} {es : List ArchiveEntry} :
    membersFrom start h es = (entriesFrom start h es).filterMap ArchiveEntry.member := by
  induction es generalizing h with
  | nil => rfl
  | cons e es ih =>
    simp only [membersFrom, entriesFrom, ih]
    cases htype : e.type with
    | none =>
      rw [List.filterMap_cons_none]
      · rfl
      · simp [ArchiveEntry.member, htype]
    | some type =>
      rw [List.filterMap_cons_some]
      · rfl
      · simp [ArchiveEntry.member, htype]

theorem Archive.mem_members {start : Nat} {m : Member} :
    m ∈ a.members start ↔ ∃ x ∈ entriesFrom start 0 a.entries, ∃ type, x.1.type = some type ∧
      (⟨components 47 x.1.name, x.2, x.2 + x.1.size, type⟩ : Member) = m := by
  unfold Archive.members
  rw [membersFrom_eq, List.mem_filterMap]
  refine exists_congr fun x => and_congr_right fun _ => ?_
  unfold ArchiveEntry.member
  exact Option.map_eq_some_iff

theorem Archive.members_starts {start : Nat} : ((a.members start).map Member.start).Nodup := by
  have hnodup := entriesFrom_nodup start 0 a.entries
  unfold Archive.members
  rw [membersFrom_eq]
  unfold List.Nodup at *
  rw [List.pairwise_map] at hnodup ⊢
  rw [List.pairwise_filterMap]
  refine hnodup.imp fun {x y} hne m hm m' hm' heq => hne ?_
  obtain ⟨type, -, rfl⟩ := Option.map_eq_some_iff.mp hm
  obtain ⟨type', -, rfl⟩ := Option.map_eq_some_iff.mp hm'
  exact heq

theorem Archive.WellFormed.listing {start : Nat} (h : a.WellFormed start) :
    Listing (a.members start) where
  dirsFirst := h.dirsFirst
  entries := h.entries
  spelled m hm c hc := by
    obtain ⟨x, -, type, -, rfl⟩ := Archive.mem_members.mp hm
    have hmem := mem_components hc
    exact ⟨ne_nil_of_mem_components hc, hmem.1, fun hz => x.1.nul_notMem (hmem.2 0 hz)⟩
  starts := Archive.members_starts

/-- After `init_tarfs`, `GetInode` finds exactly the members of the archive, each with its own
data, if and only if every member's path is new, has a name, and comes after an entry of its
directory for every shorter beginning of that name. -/
theorem getInode_faithful (ht : t.Holds a) (hw : a.WellFormed t.start) (hfuel : t.count < fuel) :
    ∃ s, t.initTarfs fuel = some s ∧
      (LookupFaithful s (a.members t.start) ↔ InOrder TellsApart (a.members t.start)) :=
  ⟨_, ht.initTarfs hfuel, hw.listing.lookupFaithful_iff⟩

theorem abFileTarfs_holds : abFileTarfs.Holds abFileArchive where
  count := rfl
  header := (Tarfs.contains_of_getD rfl (fun _ => rfl) (by decide)).header
  small := by decide
  below := by decide

theorem abFileArchive_members : abFileArchive.members abFileTarfs.start =
    [⟨[[97]], 0xFFFFFFFF80220200, 0xFFFFFFFF80220200, .dir⟩] ++
      [⟨[[97], [98]], 0xFFFFFFFF80220400, 0xFFFFFFFF80220402, .file⟩] := rfl

theorem abFileArchive_wellFormed : abFileArchive.WellFormed abFileTarfs.start where
  dirsFirst := by
    rw [abFileArchive_members]
    refine inOrder_append_singleton.mpr ⟨?_, ?_⟩
    · rw [← List.nil_append [_]]
      refine inOrder_append_singleton.mpr ⟨inOrder_nil, fun d c hpath hd => ?_⟩
      obtain ⟨rfl, -⟩ := List.append_inj' (show ([] : List _) ++ [[97]] = d ++ [c] from hpath) rfl
      exact absurd rfl hd
    · intro d c hpath _
      obtain ⟨rfl, -⟩ := List.append_inj' (show [[97]] ++ [[98]] = d ++ [c] from hpath) rfl
      exact ⟨_, List.mem_singleton_self _, rfl, rfl⟩
  nodup := by decide
  entries d := by
    rw [abFileArchive_members]
    exact Nat.le_trans (List.length_filterMap_le _ _) (by decide)

/-- Names of one letter have no shorter beginning. -/
theorem tellsApart_letter {pre : List Member} {m : Member} {d : List (List UInt8)} {x : UInt8}
    (hpath : m.path = d ++ [[x]]) (hnew : ∀ m' ∈ pre, m'.path ≠ m.path) : TellsApart pre m := by
  refine ⟨d, [x], hpath, hnew, fun t ht hne htx => ?_⟩
  have hlen : t.length = 1 := by
    have hle : t.length ≤ 1 := ht.length_le
    have hpos := List.length_pos_of_ne_nil hne
    omega
  exact absurd (ht.eq_of_length hlen) htx

theorem abFileArchive_tellsApart : InOrder TellsApart (abFileArchive.members abFileTarfs.start) := by
  rw [abFileArchive_members]
  refine inOrder_append_singleton.mpr ⟨?_, tellsApart_letter (d := [[97]]) rfl (by decide)⟩
  rw [← List.nil_append [_]]
  exact inOrder_append_singleton.mpr ⟨inOrder_nil, tellsApart_letter (d := []) rfl (by simp)⟩

theorem getInode_faithful_ab : ∃ s, abFileTarfs.initTarfs 6 = some s ∧
    LookupFaithful s (abFileArchive.members abFileTarfs.start) := by
  obtain ⟨s, hs, hiff⟩ := getInode_faithful abFileTarfs_holds abFileArchive_wellFormed
    (by decide : abFileTarfs.count < 6)
  exact ⟨s, hs, hiff.mpr abFileArchive_tellsApart⟩

theorem binTarfs_holds : binTarfs.Holds binArchive where
  count := rfl
  header := binTarfs_contains.header
  small := by decide
  below := by decide

theorem binArchive_members :
    binArchive.members binTarfs.start =
      [⟨[[98, 105, 110]], 0xFFFFFFFF80220200, 0xFFFFFFFF80220200, .dir⟩] := rfl

theorem binArchive_wellFormed : binArchive.WellFormed binTarfs.start where
  dirsFirst := by
    rw [binArchive_members, ← List.nil_append [_]]
    refine inOrder_append_singleton.mpr ⟨inOrder_nil, ?_⟩
    intro d c hpath hd
    cases d with
    | nil => exact absurd rfl hd
    | cons a d => simp at hpath
  nodup := by decide
  entries d := by
    rw [binArchive_members]
    exact Nat.le_trans (List.length_filterMap_le _ _) (by decide)

/-- `GetInode("b")` finds the directory `bin`. -/
theorem getInode_beginning_found :
    binTarfs.Holds binArchive ∧ binArchive.WellFormed binTarfs.start ∧
      ∃ s, binTarfs.initTarfs 4 = some s ∧ s.getInode [98] = some 1 ∧
        ¬ LookupFaithful s (binArchive.members binTarfs.start) := by
  have hinit : binTarfs.initTarfs 4 = some (treeOf (binArchive.members binTarfs.start)) :=
    binTarfs_holds.initTarfs (by decide)
  have hget : (treeOf (binArchive.members binTarfs.start)).getInode [98] = some 1 := by decide
  refine ⟨binTarfs_holds, binArchive_wellFormed, _, hinit, hget, fun hf => ?_⟩
  have hsome := (hf [98] (by decide)).1.mp (by rw [hget]; rfl)
  rw [binArchive_members] at hsome
  rcases hsome with hnil | ⟨m, hm, hpath⟩
  · exact absurd hnil (by decide)
  · rw [List.mem_singleton.mp hm] at hpath
    exact absurd hpath (by decide)

end Sbunix
