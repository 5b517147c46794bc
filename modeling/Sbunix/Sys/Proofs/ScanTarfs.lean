import Sbunix.Sys.Proofs.ArchiveLookup

/-!
# `scan_tarfs` beside `GetInode`

`scan_tarfs` compares whole names and takes any entry; `GetInode` compares components and knows
the types.  They agree on a path that is the name of a file, and on one that is neither the name
of an entry nor another spelling of a file's path.
-/

namespace Sbunix

variable {t : Tarfs} {a : Archive} {s : InodeTree} {f : List UInt8} {fuel k : Nat}
  {x : ArchiveEntry × Nat}

theorem strcmp2_eq_zero {str1 str2 : List UInt8} : strcmp2 str1 str2 = 0 ↔ str1 = str2 := by
  induction str1 generalizing str2 with
  | nil => cases str2 <;> simp [strcmp2]
  | cons c str1 ih =>
    cases str2 with
    | nil => simp [strcmp2]
    | cons d str2 =>
      unfold strcmp2
      split
      · rename_i hcd
        rw [ih, hcd]
        simp
      · rename_i hcd
        split <;> simp [hcd]

namespace Tarfs.Holds

theorem matchesName_entry {e : ArchiveEntry} : matchesName f e.header = decide (e.name = f) := by
  have hfield : octal 11 e.size ≠ [] := by simp [octal]
  simp [matchesName, ArchiveEntry.header, strcmp2_eq_zero, hfield]

/-- The first record of the walk with the name belongs to the first entry with it. -/
theorem find_records (ht : t.Holds a) {es : List ArchiveEntry} {pad : Nat}
    (hdrop : a.image.drop k = restFrom es pad) (hle : k ≤ t.count) :
    (((headerRecords k es ++ List.range' (t.count - pad) pad).map Int.ofNat).find?
        fun h => matchesName f (t.header h)).map (fun h => t.addr (h + 1)) =
      ((entriesFrom t.start k es).find? fun x => decide (x.1.name = f)).map Prod.snd := by
  induction es generalizing k with
  | nil =>
    have hlen := ht.contains.length_drop hdrop hle
    simp only [restFrom, List.flatMap_nil, List.nil_append, List.length_replicate] at hlen
    rw [headerRecords, List.nil_append, List.find?_eq_none.mpr]
    · rfl
    · intro h hh
      obtain ⟨i, hi, rfl⟩ := List.mem_map.mp hh
      obtain ⟨j, hj, rfl⟩ := List.mem_range'.mp hi
      have hhead := ht.contains.header_padding hdrop (i := t.count - pad + 1 * j) (by omega)
        (by omega)
      rw [Int.ofNat_eq_natCast, hhead]
      simp [matchesName]
  | cons e es ih =>
    have hlen := ht.contains.length_drop hdrop hle
    rw [length_restFrom_cons] at hlen
    have hbelow := (ht.entry_below hdrop hle).1
    have hhead : matchesName f (t.header (Int.ofNat k)) = decide (e.name = f) := by
      rw [Int.ofNat_eq_natCast, ht.contains.header_entry hdrop, matchesName_entry]
    rw [headerRecords, List.cons_append, List.map_cons, entriesFrom]
    by_cases hname : e.name = f
    · have haddr : t.addr ((k : Int) + 1) = t.start + 512 * (k + 1) :=
        addr_eq (k := k + 1) (Nat.lt_of_le_of_lt (Nat.le_add_right _ _) hbelow)
      rw [List.find?_cons_of_pos (by rw [hhead]; exact decide_eq_true hname),
        List.find?_cons_of_pos (by exact decide_eq_true hname)]
      exact congrArg some haddr
    · rw [List.find?_cons_of_neg (by rw [hhead]; simpa using hname),
        List.find?_cons_of_neg (by simpa using hname)]
      exact ih (drop_entry hdrop) (by omega)

/-- `scan_tarfs` ends, with the first entry of the name. -/
theorem scanTarfs (ht : t.Holds a) (hfuel : t.count < fuel) :
    t.scanTarfs fuel f =
      some (((entriesFrom t.start 0 a.entries).find? fun x => decide (x.1.name = f)).map
        Prod.snd) := by
  have himage : a.image.drop 0 = restFrom a.entries a.padding := rfl
  unfold Tarfs.scanTarfs
  rw [Tarfs.scanLoop_walk, ← Nat.cast_zero,
    ht.contains.walk_entries (fun e he => by have := ht.size_le he; omega) himage
      (Nat.zero_le _) hfuel, Option.map_some, getLast?_upTo, ht.find_records himage (Nat.zero_le _)]

end Tarfs.Holds

theorem exists_entriesFrom {e : ArchiveEntry} (start : Nat) (he : e ∈ a.entries) :
    ∃ addr, (e, addr) ∈ entriesFrom start 0 a.entries := by
  rw [← entriesFrom_fst start 0 a.entries] at he
  obtain ⟨x, hx, rfl⟩ := List.mem_map.mp he
  exact ⟨x.2, hx⟩

theorem fst_mem_entries {start : Nat} (hx : x ∈ entriesFrom start 0 a.entries) :
    x.1 ∈ a.entries := by
  rw [← entriesFrom_fst start 0 a.entries]
  exact List.mem_map_of_mem hx

/-- The file that a lookup finds, when the members can be told apart. -/
theorem Archive.WellFormed.getInode_file (hw : a.WellFormed t.start)
    (ht : InOrder TellsApart (a.members t.start)) :
    (treeOf (a.members t.start)).getInode f = some k ∧
        ((treeOf (a.members t.start)).inode k).type = some .file ↔
      ∃ i m, k = i + 1 ∧ (a.members t.start)[i]? = some m ∧ m.path = components 47 f ∧
        m.type = .file := by
  rw [hw.listing.getInode_iff ht]
  constructor
  · intro hk
    obtain ⟨hpath, htype⟩ := hk
    rcases pathOf_eq_some hpath with ⟨rfl, -⟩ | ⟨i, m, rfl, hm, hp⟩
    · have hroot := congrArg (fun d => d.2.2) (treeOf_root (a.members t.start))
      rw [show ((treeOf (a.members t.start)).inode 0).type = none from hroot] at htype
      cases htype
    · have hdesc := (hw.listing.represents ht).describes i m hm
      rw [hdesc.2.2.2] at htype
      exact ⟨i, m, rfl, hm, hp, Option.some.inj htype⟩
  · intro hm
    obtain ⟨i, m, rfl, hm, hp, htype⟩ := hm
    have hdesc := (hw.listing.represents ht).describes i m hm
    rw [hdesc.2.2.2, htype, pathOf_succ, hm, ← hp]
    exact ⟨rfl, rfl⟩

/-- The start of that file is the address of an entry that spells the same path. -/
theorem Archive.WellFormed.start_file (hw : a.WellFormed t.start)
    (ht : InOrder TellsApart (a.members t.start))
    (hk : (treeOf (a.members t.start)).getInode f = some k)
    (htype : ((treeOf (a.members t.start)).inode k).type = some .file) :
    ∃ e, (e, ((treeOf (a.members t.start)).inode k).start) ∈ entriesFrom t.start 0 a.entries ∧
      e.type = some .file ∧ components 47 e.name = components 47 f := by
  obtain ⟨i, m, rfl, hm, hp, hmt⟩ := (hw.getInode_file ht).mp ⟨hk, htype⟩
  have hdesc := (hw.listing.represents ht).describes i m hm
  obtain ⟨x, hx, type, hxt, rfl⟩ := Archive.mem_members.mp (List.mem_of_getElem? hm)
  rw [hdesc.2.1]
  exact ⟨x.1, hx, hxt.trans (congrArg some hmt), hp⟩

/-- Where the members can be told apart, the two lookups agree on `f` exactly when it names a
file or nothing. -/
theorem Archive.WellFormed.lookupsAgree_iff (ht : t.Holds a) (hw : a.WellFormed t.start)
    (hfuel : t.count < fuel) (htell : InOrder TellsApart (a.members t.start)) :
    LookupsAgree t fuel (treeOf (a.members t.start)) f ↔ NamesFileExactly a f := by
  have hscan := ht.scanTarfs (f := f) hfuel
  unfold LookupsAgree NamesFileExactly
  constructor
  · intro h
    obtain ⟨found, hfound, hiff, hstart⟩ := h
    rw [hscan] at hfound
    have hfound := Option.some.inj hfound
    cases hfind : (entriesFrom t.start 0 a.entries).find? fun x => decide (x.1.name = f) with
    | none =>
      rw [hfind] at hfound
      rw [← hfound] at hiff
      refine Or.inr ⟨?_, ?_⟩
      · intro e he hname
        obtain ⟨addr, haddr⟩ := exists_entriesFrom t.start he
        have := List.find?_eq_none.mp hfind _ haddr
        exact this (decide_eq_true hname)
      · intro e he htype hcomp
        obtain ⟨addr, haddr⟩ := exists_entriesFrom t.start he
        obtain ⟨i, hi⟩ := List.mem_iff_getElem?.mp
          (Archive.mem_members.mpr ⟨_, haddr, _, htype, rfl⟩)
        have hfile := hiff.mpr ⟨i + 1, (hw.getInode_file htell).mpr ⟨i, _, rfl, hi, hcomp, rfl⟩⟩
        cases hfile
    | some x =>
      rw [hfind] at hfound
      obtain ⟨k, hk, htype⟩ := hiff.mp (by rw [← hfound]; rfl)
      obtain ⟨e, he, hfile, -⟩ := hw.start_file htell hk htype
      rw [hstart x.2 k hfound.symm hk] at he
      have hx := List.mem_of_find?_eq_some hfind
      have hname : x.1.name = f := by simpa using List.find?_some hfind
      have hsame : x = (e, x.2) :=
        List.inj_on_of_nodup_map (entriesFrom_nodup _ _ _) hx he rfl
      rw [hsame] at hname
      exact Or.inl ⟨e, fst_mem_entries he, hname, hfile⟩
  · intro h
    refine ⟨_, hscan, ?_⟩
    rcases h with ⟨e, he, hname, htype⟩ | ⟨hno, hnofile⟩
    · obtain ⟨addr, haddr⟩ := exists_entriesFrom t.start he
      have hfind : ∃ x, (entriesFrom t.start 0 a.entries).find?
          (fun x => decide (x.1.name = f)) = some x := by
        rw [← Option.isSome_iff_exists, List.find?_isSome]
        exact ⟨_, haddr, decide_eq_true hname⟩
      obtain ⟨x, hfind⟩ := hfind
      have hx := List.mem_of_find?_eq_some hfind
      have hxname : x.1.name = f := by simpa using List.find?_some hfind
      have hnames : ((entriesFrom t.start 0 a.entries).map fun x => x.1.name).Nodup := by
        have hn := hw.nodup
        rw [← entriesFrom_fst t.start 0 a.entries, List.map_map] at hn
        exact hn
      have hsame : x = (e, addr) :=
        List.inj_on_of_nodup_map hnames hx haddr (hxname.trans hname.symm)
      obtain ⟨i, hi⟩ := List.mem_iff_getElem?.mp
        (Archive.mem_members.mpr ⟨_, haddr, _, htype, rfl⟩)
      have hfile := (hw.getInode_file htell (f := f)).mpr
        ⟨i, _, rfl, hi, congrArg (components 47) hname, rfl⟩
      have hdesc := (hw.listing.represents htell).describes i _ hi
      rw [hfind, hsame]
      refine ⟨iff_of_true rfl ⟨i + 1, hfile⟩, ?_⟩
      intro addr' k hfound hk
      rw [← Option.some.inj (hfile.1.symm.trans hk), hdesc.2.1]
      exact Option.some.inj hfound
    · have hnone : (entriesFrom t.start 0 a.entries).find?
          (fun x => decide (x.1.name = f)) = none := by
        apply List.find?_eq_none.mpr
        intro x hx hname
        exact hno x.1 (fst_mem_entries hx) (of_decide_eq_true hname)
      rw [hnone]
      refine ⟨iff_of_false (by simp) ?_, fun addr k hfound => by cases hfound⟩
      intro hfile
      obtain ⟨k, hk, htype⟩ := hfile
      obtain ⟨e, he, hfile, hcomp⟩ := hw.start_file htell hk htype
      exact hnofile e (fst_mem_entries he) hfile hcomp

/-- A name with a hundred slashes more is a name to `GetInode` only. -/
theorem Tarfs.Holds.not_lookupsAgree (ht : t.Holds a) (hfuel : t.count < fuel)
    {e : ArchiveEntry} (he : e ∈ a.entries) (ms : List Member) :
    ¬ LookupsAgree t fuel (treeOf ms) e.name ∨
      ¬ LookupsAgree t fuel (treeOf ms) (e.name ++ List.replicate 100 47) := by
  by_contra h
  push Not at h
  obtain ⟨⟨found, hfound, hiff, -⟩, found', hfound', hiff', -⟩ := h
  rw [ht.scanTarfs hfuel] at hfound hfound'
  obtain ⟨addr, haddr⟩ := exists_entriesFrom t.start he
  have hsome : found.isSome := by
    rw [← Option.some.inj hfound, Option.isSome_map, List.find?_isSome]
    exact ⟨_, haddr, decide_eq_true rfl⟩
  have hsome' : found'.isSome := by
    apply hiff'.mpr
    rw [InodeTree.getInode_eq treeOf_valid, components_append_delims,
      ← InodeTree.getInode_eq treeOf_valid]
    exact hiff.mp hsome
  rw [← Option.some.inj hfound', Option.isSome_map, List.find?_isSome] at hsome'
  obtain ⟨x, hx, hname⟩ := hsome'
  have hlen := congrArg List.length (of_decide_eq_true hname)
  have hle := x.1.name_le
  rw [List.length_append, List.length_replicate] at hlen
  omega

/-- Where the members can be told apart, `scan_tarfs` and `GetInode` agree on a path exactly when
it names a file or nothing. No archive with a relative name has them agree on every path. -/
theorem scanTarfs_getInode (ht : t.Holds a) (hw : a.WellFormed t.start)
    (hfuel : t.count < fuel) :
    ∃ s, t.initTarfs fuel = some s ∧
      (InOrder TellsApart (a.members t.start) → ∀ f, (0 : UInt8) ∉ f → f.head? ≠ some 47 →
        (LookupsAgree t fuel s f ↔ NamesFileExactly a f)) ∧
      ((∃ e ∈ a.entries, e.name.head? ≠ some 47) →
        ∃ f, (0 : UInt8) ∉ f ∧ f.head? ≠ some 47 ∧ ¬ LookupsAgree t fuel s f) := by
  refine ⟨_, ht.initTarfs hfuel, fun htell f _ _ => hw.lookupsAgree_iff ht hfuel htell, ?_⟩
  intro h
  obtain ⟨e, he, hrel⟩ := h
  rcases ht.not_lookupsAgree hfuel he (a.members t.start) with hno | hno
  · exact ⟨e.name, e.nul_notMem, hrel, hno⟩
  · refine ⟨_, ?_, ?_, hno⟩
    · intro hz
      rcases List.mem_append.mp hz with hz | hz
      · exact e.nul_notMem hz
      · exact absurd (List.eq_of_mem_replicate hz) (by decide)
    · rw [List.head?_append_of_ne_nil _ e.name_ne_nil]
      exact hrel

/-- They agree on the file `a/b`, but not on every path. -/
theorem scanTarfs_getInode_ab : ∃ s, abFileTarfs.initTarfs 6 = some s ∧
    LookupsAgree abFileTarfs 6 s [97, 47, 98] ∧
    ∃ f, (0 : UInt8) ∉ f ∧ f.head? ≠ some 47 ∧ ¬ LookupsAgree abFileTarfs 6 s f := by
  obtain ⟨s, hs, hall, hsome⟩ := scanTarfs_getInode abFileTarfs_holds abFileArchive_wellFormed
    (by decide : abFileTarfs.count < 6)
  refine ⟨s, hs, (hall abFileArchive_tellsApart [97, 47, 98] (by decide) (by decide)).mpr ?_,
    hsome ⟨_, List.mem_cons_self, by decide⟩⟩
  exact .inl ⟨_, List.mem_cons_of_mem _ List.mem_cons_self, rfl, by decide⟩

/-- `scan_tarfs` takes the directory `bin/` for a program, which `GetInode` knows not to be a
file. -/
theorem scanTarfs_directory :
    binTarfs.Holds binArchive ∧ binArchive.WellFormed binTarfs.start ∧
      ∃ s, binTarfs.initTarfs 4 = some s ∧ s.getInode [98, 105, 110, 47] = some 1 ∧
        (s.inode 1).type = some .dir ∧ ¬ LookupsAgree binTarfs 4 s [98, 105, 110, 47] := by
  have hinit : binTarfs.initTarfs 4 = some (treeOf (binArchive.members binTarfs.start)) :=
    binTarfs_holds.initTarfs (by decide)
  have hget : (treeOf (binArchive.members binTarfs.start)).getInode [98, 105, 110, 47] =
      some 1 := by decide
  have htype : ((treeOf (binArchive.members binTarfs.start)).inode 1).type = some .dir := by
    decide
  refine ⟨binTarfs_holds, binArchive_wellFormed, _, hinit, hget, htype, ?_⟩
  intro h
  obtain ⟨found, hfound, hiff, -⟩ := h
  have hscan : binTarfs.scanTarfs 4 [98, 105, 110, 47] = some (some 0xFFFFFFFF80220200) := by
    decide
  rw [hscan] at hfound
  obtain ⟨k, hk, hfile⟩ := hiff.mp (by rw [← Option.some.inj hfound]; rfl)
  rw [← Option.some.inj (hget.symm.trans hk), htype] at hfile
  cases hfile

end Sbunix
