import Sbunix.Sys.Programs
import Sbunix.Sys.Proofs.ArchiveLookup
import Sbunix.Sys.Proofs.DirRuns
import Sbunix.Sys.Proofs.ExactPaths
import Sbunix.Sys.Proofs.FileStreams
import Sbunix.Sys.Proofs.Output
import Sbunix.Sys.Proofs.TarWalk

/-!
# The programs `cat` and `ls`

From the archive in memory to the screen: `init_tarfs`, `GetInode`, the calls on files and
directories, the output of the C library, and the roll behind the screen.
-/

namespace Sbunix

variable {c c' : Console} {r : Roll UInt8} {ch : UInt8} {bytes fmt path : List UInt8}
  {args : List VaArg} {i n buf : Nat} {mem m : Nat → UInt8} {s : InodeTree} {p : Pcb}
  {g : Nat → Garbage} {t : Tarfs} {a : Archive} {u : ProgramState}

/-! ## Output -/

/-- A message of the kernel without `%`. -/
theorem kprintf_types (h0 : 0 ∉ fmt) (h37 : 37 ∉ fmt) : Types (·.kprintfArgs fmt args) fmt := by
  intro c r h
  have hcalls := @Console.kprintfCalls_plain fmt args h0 h37
  have hrun := @Console.kprintfArgs_plain c fmt args h0 h37
  have hflush : runFlushCalls c
      (fmt.map fun ch => if ch = 10 then .flushNewLine else .flushchar ch) =
        some (c.kprintf fmt) := by
    unfold Console.kprintfArgs at hrun
    rwa [hcalls, Option.bind_some] at hrun
  have htyped : typedCalls (fmt.map fun ch => if ch = 10 then .flushNewLine else .flushchar ch) =
      some (typedString fmt) := by
    clear h0 h37 hcalls hrun hflush
    induction fmt with
    | nil => rfl
    | cons ch fmt ih =>
      rw [List.map_cons, typedCalls, ih]
      unfold typedString
      rw [List.map_cons]
      split
      · rfl
      · rfl
  have hfit : PaperFits c (fmt.map fun ch => if ch = 10 then .flushNewLine else .flushchar ch) := by
    refine paperFits_plain fun call hcall c => ?_
    obtain ⟨ch, -, rfl⟩ := List.mem_map.mp hcall
    split
    · exact ⟨trivial, trivial⟩
    · exact ⟨trivial, trivial⟩
  obtain ⟨keys, hkeys, hprints⟩ := runFlushCalls_prints h hfit hflush
  obtain rfl := Option.some.inj (htyped.symm.trans hkeys)
  exact ⟨_, hrun, hprints⟩

/-- `printf` of one character: a NUL shows nothing. -/
theorem printf_char_types {g : Garbage} (h : ch < 128) :
    Types (·.printf [37, 99] [.int (Int32.ofInt (charToInt ch))] g) ([ch].filter (· ≠ 0)) := by
  have hlt : ch.toNat < 128 := UInt8.lt_iff_toNat_lt.mp h
  have hint : charToInt ch = ch.toNat := Int.bmod_eq_of_le (by omega) (by omega)
  have hback : UInt8.ofInt (Int32.ofInt (charToInt ch)).toInt = ch := by
    rw [hint, Int32.toInt_ofInt_of_le (by omega) (by omega)]
    apply UInt8.toNat_inj.mp
    rw [UInt8.ofInt, UInt8.toNat_ofNat']
    omega
  have htext : rendered [37, 99] [.int (Int32.ofInt (charToInt ch))] = some [ch] := by
    have hconv : rendered [37, 99] [.int (Int32.ofInt (charToInt ch))] =
        some [UInt8.ofInt (Int32.ofInt (charToInt ch)).toInt] := rfl
    rw [hconv, hback]
  have hcut : [ch].takeWhile (· ≠ 0) = [ch].filter (· ≠ 0) := by
    rw [List.takeWhile_cons, List.filter_cons]
    rfl
  rw [← hcut]
  exact printf_types htext (show 1 < argsSize by decide) fun ch' hch' =>
    List.mem_singleton.mp hch' ▸ h

theorem printChars_types (h : ∀ ch ∈ bytes, ch < 128) :
    Types (printChars g bytes n) (bytes.filter (· ≠ 0)) := by
  induction bytes generalizing n with
  | nil => exact Types.nil
  | cons ch bytes ih =>
    have hrest := ih (n := n + 1) fun ch' hch' => h ch' (List.mem_cons_of_mem ch hch')
    have hboth := (printf_char_types (g := g n) (h ch List.mem_cons_self)).bind hrest
    rwa [← List.filter_append] at hboth

/-! ## What a read leaves in the buffer -/

theorem applyStores_cons {x : Nat × UInt8} {stores : List (Nat × UInt8)} :
    applyStores m (x :: stores) = applyStores (Function.update m x.1 x.2) stores := rfl

theorem applyStores_other (hbuf : buf + bytes.length ≤ 2 ^ 64) (hi : i < buf) :
    applyStores m (storesFrom buf bytes) i = m i := by
  induction bytes generalizing m buf with
  | nil => rfl
  | cons b bytes ih =>
    rw [List.length_cons] at hbuf
    rw [storesFrom, applyStores_cons]
    by_cases hlast : bytes = []
    · rw [hlast]
      exact Function.update_of_ne (Nat.ne_of_lt hi) _ _
    · have hpos := List.length_pos_iff.mpr hlast
      rw [Nat.mod_eq_of_lt (show buf + 1 < 2 ^ 64 by omega), ih (by omega) (by omega)]
      exact Function.update_of_ne (Nat.ne_of_lt hi) _ _

theorem applyStores_storesFrom (hbuf : buf + bytes.length ≤ 2 ^ 64) (hi : i < bytes.length) :
    applyStores m (storesFrom buf bytes) (buf + i) = bytes.getD i 0 := by
  induction bytes generalizing m buf i with
  | nil => exact absurd hi (Nat.not_lt_zero i)
  | cons b bytes ih =>
    rw [List.length_cons] at hbuf hi
    rw [storesFrom, applyStores_cons]
    by_cases hlast : bytes = []
    · subst hlast
      obtain rfl : i = 0 := by simpa using hi
      exact Function.update_self ..
    · have hpos := List.length_pos_iff.mpr hlast
      rw [Nat.mod_eq_of_lt (show buf + 1 < 2 ^ 64 by omega)]
      cases i with
      | zero =>
        have hfirst := @applyStores_other bytes buf (buf + 1) (Function.update m buf b)
          (by omega) (Nat.lt_succ_self buf)
        exact hfirst.trans (Function.update_self ..)
      | succ i =>
        rw [show buf + (i + 1) = buf + 1 + i by omega, ih (by omega) (by omega),
          List.getD_cons_succ]

/-! ## `cat` -/

/-- `k_open` of a file, with a descriptor left. -/
theorem kOpen_file {k : Nat} (hget : s.getInode path = some k)
    (htype : (s.inode k).type = some .file) (hfree : freeFd p = some i) :
    2 ≤ i ∧ i < maxFd ∧ ∃ p', kOpen s p path = (i, p') ∧
      p'.fd[i]? = some (some ⟨(s.inode k).start, k⟩) := by
  have hrange := List.mem_range'_1.mp (List.mem_of_find?_eq_some hfree)
  have hentry : p.fd[i]? = some none := by
    have hfound := List.find?_some hfree
    simpa using hfound
  have hmax : maxFd = 20 := rfl
  have hdir : s.isDir k = false := by
    unfold InodeTree.isDir
    simp [htype]
  refine ⟨hrange.1, by omega, { p with fd := p.fd.set i (some ⟨(s.inode k).start, k⟩) }, ?_,
    List.getElem?_set_self (List.getElem?_eq_some_iff.mp hentry).1⟩
  unfold kOpen
  rw [hget]
  simp only [hdir, hfree]
  rfl

/-- The bytes of the buffer after a read of 4096. -/
theorem buffer_eq {bytes : List UInt8} (hbuf : buf + 4097 ≤ 2 ^ 64) (hlen : bytes.length ≤ 4096) :
    ((List.range bytes.length).map fun i =>
      applyStores m (storesFrom buf (bytes ++ [0])) ((buf + i) % 2 ^ 64)) = bytes := by
  refine List.ext_getElem (by simp) fun i hi hi' => ?_
  rw [List.getElem_map, List.getElem_range, Nat.mod_eq_of_lt (by omega),
    applyStores_storesFrom (by rw [List.length_append, List.length_singleton]; omega)
      (by rw [List.length_append]; omega), List.getD_append _ _ _ _ hi',
    List.getD_eq_getElem _ _ hi']

/-- The upper half of the register does not matter to `k_read`. -/
theorem kRead_upper {fd upper count : Nat} (hfd : 2 ≤ fd) :
    kRead mem s p (fd + 2 ^ 32 * upper) buf count = kRead mem s p fd buf count := by
  have hint : toInt32 (fd + 2 ^ 32 * upper) = toInt32 fd := by
    have hmod : ((fd + 2 ^ 32 * upper : Nat) : Int) % 2 ^ 32 = (fd : Int) % 2 ^ 32 := by omega
    unfold toInt32
    rw [bmod32, bmod32, hmod]
  unfold kRead
  rw [if_pos (show 1 < fd + 2 ^ 32 * upper by omega), if_pos (show 1 < fd by omega), hint]

/-- A read of 4096 from the start of a file. -/
theorem kRead_start {k upper : Nat} (hlow : 2 ≤ i) (hmax : i < maxFd)
    (hfd : p.fd[i]? = some (some ⟨(s.inode k).start, k⟩))
    (hbelow : (s.inode k).start + 4096 < 2 ^ 64)
    (hbytes : bytes = (fileBytes mem (s.inode k).start
      ((s.inode k).stop - (s.inode k).start)).take 4096) :
    ∃ p', kRead mem s p (i + 2 ^ 32 * upper) buf 4096 =
      .done bytes.length p' (storesFrom buf (bytes ++ [0])) := by
  have hcount : readCount s ⟨(s.inode k).start, k⟩ 4096 =
      min 4096 ((s.inode k).stop - (s.inode k).start) := by
    unfold readCount
    dsimp only
    omega
  have htake : bytes = fileBytes mem (s.inode k).start
      (min 4096 ((s.inode k).stop - (s.inode k).start)) := by
    rw [hbytes]
    unfold fileBytes
    rw [← List.map_take, List.take_range]
  have hread := @kRead_open mem s p _ i buf 4096 hlow hmax hfd
  have hlen : bytes.length = min 4096 ((s.inode k).stop - (s.inode k).start) := by
    rw [htake, length_fileBytes]
  rw [hcount, ← htake, ← hlen] at hread
  exact ⟨_, (kRead_upper hlow).trans hread⟩

theorem catMain_file {k : Nat} (hget : s.getInode path = some k)
    (htype : (s.inode k).type = some .file) (hfree : freeFd p = some i)
    (hbelow : (s.inode k).start + 4096 < 2 ^ 64) (hbuff : u.buff + 4097 ≤ 2 ^ 64)
    (hbytes : bytes = (fileBytes mem (s.inode k).start
      ((s.inode k).stop - (s.inode k).start)).take 4096)
    (hascii : Ascii bytes) (h : c.Prints r) :
    ∃ c' p', catMain mem s u p path c = some (c', p', 0) ∧
      c'.Prints (typeKeys r (typedString (10 :: bytes.filter (· ≠ 0)))) := by
  obtain ⟨hlow, hmax, p₁, hopen, hfd⟩ := kOpen_file hget htype hfree
  obtain ⟨p₂, hread⟩ := @kRead_start bytes i u.buff mem s p₁ k u.upper hlow hmax hfd hbelow hbytes
  have hint : toInt32 i = i := toInt32_low (by
    have hmaxFd : maxFd = 20 := rfl
    omega)
  have hne : i ≠ fileError := by
    have hmaxFd : maxFd = 20 := rfl
    have herror : fileError = 2 ^ 64 - 1 := rfl
    omega
  have hlen : bytes.length ≤ 4096 := by
    rw [hbytes, List.length_take]
    exact Nat.min_le_left _ _
  have hshown : Types (fun c => (c.puts [10] u.stack).bind (printChars u.garbage bytes 0))
      (10 :: bytes.filter (· ≠ 0)) :=
    (puts_types (s := [10]) fun ch hch => by
      rw [List.mem_singleton.mp hch]
      exact ⟨by decide, by decide⟩).bind (printChars_types hascii)
  have hmain : catMain mem s u p path c = ((c.puts [10] u.stack).bind
      (printChars u.garbage bytes 0)).map fun c => (c, p₂, 0) := by
    unfold catMain Console.openFile
    simp only [hopen, hint, if_neg hne, Option.bind_eq_bind, Option.bind_some,
      if_neg (Int.not_lt.mpr (Int.natCast_nonneg i)), Int.toNat_natCast, hread,
      buffer_eq hbuff hlen]
    cases c.puts [10] u.stack with
    | none => rfl
    | some c₁ => exact Option.map_eq_bind.symm
  obtain ⟨c', hc', hprints⟩ := hshown c r h
  refine ⟨c', p₂, ?_, hprints⟩
  dsimp only at hc'
  rw [hmain, hc', Option.map_some]

theorem treeOf_root_type (ms : List Member) : ((treeOf ms).inode 0).type = none :=
  congrArg (fun d => d.2.2) (treeOf_root ms)

theorem treeOf_root_isDir (ms : List Member) : (treeOf ms).isDir 0 = true := by
  unfold InodeTree.isDir
  simp [treeOf_root_type]

namespace InsertsExactly

variable {ms : List Member} (hlisting : Listing ms) (hins : InOrder InsertsExactly ms)
include hlisting hins

/-- What a path names in the tree of an archive. -/
theorem fileAt_eq {k : Nat} (hexact : FoundExactly ms (components 47 path))
    (hget : (treeOf ms).getInode path = some k) :
    fileAt ms path = if (treeOf ms).isDir k then none else ms[k - 1]? := by
  have hpath := (getInode_iff hlisting hins hexact).mp hget
  have hnodup := paths_nodup hins
  rcases pathOf_eq_some hpath with ⟨rfl, hroot⟩ | ⟨i, m, rfl, hm, hp⟩
  · rw [if_pos (treeOf_root_isDir ms)]
    refine List.find?_eq_none.mpr fun m hm hboth => ?_
    have hsame := (of_decide_eq_true hboth).1
    rw [hroot] at hsame
    exact (List.nodup_cons.mp hnodup).1 (List.mem_map.mpr ⟨m, hm, hsame⟩)
  · have hdesc := (represents hlisting hins).describes i m hm
    have honly : ∀ m' ∈ ms, m'.path = components 47 path → m' = m := by
      intro m' hm' hp'
      exact List.inj_on_of_nodup_map (List.nodup_cons.mp hnodup).2 hm' (List.mem_of_getElem? hm)
        (hp'.trans hp.symm)
    unfold InodeTree.isDir
    rw [hdesc.2.2.2, Nat.add_sub_cancel, hm]
    cases htype : m.type with
    | dir =>
      rw [if_pos (by decide)]
      refine List.find?_eq_none.mpr fun m' hm' hboth => ?_
      obtain ⟨hp', hfile⟩ := of_decide_eq_true hboth
      rw [honly m' hm' hp', htype] at hfile
      cases hfile
    | file =>
      rw [if_neg (by decide)]
      cases hfind : fileAt ms path with
      | none =>
        have hno := List.find?_eq_none.mp hfind m (List.mem_of_getElem? hm)
        exact absurd (decide_eq_true ⟨hp, htype⟩) hno
      | some m' =>
        unfold fileAt at hfind
        have hfound : m'.path = components 47 path ∧ m'.type = .file := by
          simpa using List.find?_some hfind
        rw [honly m' (List.mem_of_find?_eq_some hfind) hfound.1]

theorem fileAt_eq_none (hexact : FoundExactly ms (components 47 path))
    (hget : (treeOf ms).getInode path = none) : fileAt ms path = none := by
  refine List.find?_eq_none.mpr fun m hm hboth => ?_
  obtain ⟨hp, htype⟩ := of_decide_eq_true hboth
  obtain ⟨k, -, hk⟩ := exists_pathOf hm
  rw [hp, ← getInode_iff hlisting hins hexact, hget] at hk
  cases hk

/-- A path finds a directory exactly when it names one. -/
theorem findsDir_iff (hexact : FoundExactly ms (components 47 path)) :
    (treeOf ms).findsDir path = true ↔ NamesDir ms path := by
  have hget := @getInode_iff ms path
  unfold InodeTree.findsDir
  constructor
  · intro hfinds
    cases hcase : (treeOf ms).getInode path with
    | none =>
      rw [hcase] at hfinds
      cases hfinds
    | some k =>
      rw [hcase] at hfinds
      rcases pathOf_eq_some ((hget hlisting hins hexact).mp hcase) with
        ⟨-, hroot⟩ | ⟨i, m, rfl, hm, hp⟩
      · exact .inl hroot
      · have hdesc := (represents hlisting hins).describes i m hm
        refine .inr ⟨m, List.mem_of_getElem? hm, hp, ?_⟩
        unfold InodeTree.isDir at hfinds
        dsimp only at hfinds
        rw [hdesc.2.2.2] at hfinds
        cases htype : m.type with
        | dir => rfl
        | file => simp [htype] at hfinds
  · rintro (hroot | ⟨m, hm, hp, htype⟩)
    · have hzero : (treeOf ms).getInode path = some 0 := by
        rw [hget hlisting hins hexact, hroot]
        rfl
      rw [hzero]
      exact treeOf_root_isDir ms
    · obtain ⟨i, hi, hpath⟩ := exists_pathOf hm
      have hsucc : (treeOf ms).getInode path = some (i + 1) := by
        rw [hget hlisting hins hexact, hpath, hp]
      have hdesc := (represents hlisting hins).describes i m hi
      rw [hsucc]
      unfold InodeTree.isDir
      simp [hdesc.2.2.2, htype]

end InsertsExactly

/-- The messages of `open` and of `cat` where there is no file. -/
theorem catMain_none (hopen : kOpen s p path = (fileError, p))
    (herror : openError s path = noSuchFile) (h : c.Prints r) :
    ∃ c' p', catMain mem s u p path c = some (c', p', -1) ∧
      c'.Prints (typeKeys r (typedString (noSuchFile ++ fileDoesntExist))) := by
  have hshown : Types (fun c => (c.kprintfArgs noSuchFile []).bind (·.puts fileDoesntExist u.stack))
      (noSuchFile ++ fileDoesntExist) :=
    (kprintf_types (by decide) (by decide)).bind (puts_types (List.all_iff_forall_prop.mp rfl))
  have hfile : c.openFile s p path = (c.kprintfArgs noSuchFile []).map fun c => (c, p, -1) := by
    have hint : toInt32 fileError = -1 := by decide
    unfold Console.openFile
    rw [hopen, herror]
    dsimp only
    rw [if_pos rfl, hint]
  have hmain : catMain mem s u p path c = ((c.kprintfArgs noSuchFile []).bind
      (·.puts fileDoesntExist u.stack)).map fun c => (c, p, -1) := by
    unfold catMain
    rw [hfile]
    cases c.kprintfArgs noSuchFile [] with
    | none => rfl
    | some c₁ =>
      rw [Option.map_some, Option.bind_eq_bind, Option.bind_some, Option.bind_some,
        Option.map_eq_bind]
      rfl
  obtain ⟨c', hc', hprints⟩ := hshown c r h
  refine ⟨c', p, ?_, hprints⟩
  dsimp only at hc'
  rw [hmain, hc', Option.map_some]

/-- `cat` in the tree of an archive. -/
theorem catMain_shows {ms : List Member} (hlisting : Listing ms) (hins : InOrder InsertsExactly ms)
    (hexact : FoundExactly ms (components 47 path))
    (hread : ∀ m ∈ fileAt ms path, m.Readable mem) (hfree : freeFd p = some i)
    (hbuff : u.buff + 4097 ≤ 2 ^ 64) (h : c.Prints r) :
    ∃ c' p', catMain mem (treeOf ms) u p path c = some (c', p', catStatus (fileAt ms path)) ∧
      c'.Prints (typeKeys r (typedString (catText mem (fileAt ms path)))) := by
  cases hget : (treeOf ms).getInode path with
  | none =>
    rw [InsertsExactly.fileAt_eq_none hlisting hins hexact hget]
    refine catMain_none ?_ ?_ h
    · unfold kOpen
      rw [hget]
    · unfold openError
      rw [hget]
  | some k =>
    rw [InsertsExactly.fileAt_eq hlisting hins hexact hget]
    cases hdir : (treeOf ms).isDir k with
    | true =>
      refine catMain_none ?_ ?_ h
      · unfold kOpen
        rw [hget]
        simp only [hdir, if_true]
      · unfold openError
        rw [hget]
        simp only [hdir, if_true]
    | false =>
      have htype : ((treeOf ms).inode k).type = some .file := by
        unfold InodeTree.isDir at hdir
        simpa using hdir
      have hpath := (InsertsExactly.getInode_iff hlisting hins hexact).mp hget
      rcases pathOf_eq_some hpath with ⟨rfl, -⟩ | ⟨j, m, rfl, hm, -⟩
      · rw [treeOf_root_type] at htype
        cases htype
      · have hdesc := (InsertsExactly.represents hlisting hins).describes j m hm
        rw [hdesc.2.2.2] at htype
        have hfile : fileAt ms path = some m := by
          rw [InsertsExactly.fileAt_eq hlisting hins hexact hget, hdir,
            if_neg Bool.false_ne_true, Nat.add_sub_cancel, hm]
        have hm' := hread m hfile
        rw [if_neg (by decide), Nat.add_sub_cancel, hm]
        refine catMain_file hget (hdesc.2.2.2.trans htype) hfree ?_ hbuff ?_ ?_ h
        · rw [hdesc.2.1]
          exact hm'.below
        · rw [hdesc.2.1, hdesc.2.2.1]
          rfl
        · exact hm'.ascii

/-- In the tree that `init_tarfs` makes of an archive in which no name hides another, `cat` shows
the beginning of the file that its path names, or that there is none. -/
theorem cat_shows {fuel : Nat} (ht : t.Holds a) (hw : a.WellFormed t.start) (hfuel : t.count < fuel)
    (hins : InOrder InsertsExactly (a.members t.start))
    (hexact : FoundExactly (a.members t.start) (components 47 path))
    (hread : ∀ m ∈ fileAt (a.members t.start) path, m.Readable mem)
    (hfree : freeFd p = some i) (hbuff : u.buff + 4097 ≤ 2 ^ 64) :
    ∃ s, t.initTarfs fuel = some s ∧ ∀ c r, c.Prints r → ∃ c' p',
      catMain mem s u p path c =
        some (c', p', catStatus (fileAt (a.members t.start) path)) ∧
      c'.Prints (typeKeys r (typedString (catText mem (fileAt (a.members t.start) path)))) :=
  ⟨_, ht.initTarfs hfuel, fun _ _ h =>
    catMain_shows hw.listing hins hexact hread hfree hbuff h⟩

/-- The archive of the directory `bin/` and the file `bin/ls` of one byte. -/
def lsArchive : Archive where
  entries := binArchive.entries ++
    [⟨[98, 105, 110, 47, 108, 115], 1, 48, [⟨[], [], 0⟩], by decide, by decide, by decide, rfl⟩]
  padding := 2

/-- The archive in memory. -/
def lsTarfs : Tarfs where
  start := 0xFFFFFFFF80260000
  count := 5
  header := fun i => lsArchive.image.getD i.toNat ⟨[], [], 0⟩

theorem lsArchive_members : lsArchive.members lsTarfs.start =
    [⟨[[98, 105, 110]], 0xFFFFFFFF80260200, 0xFFFFFFFF80260200, .dir⟩] ++
      [⟨[[98, 105, 110], [108, 115]], 0xFFFFFFFF80260400, 0xFFFFFFFF80260401, .file⟩] := rfl

theorem lsTarfs_holds : lsTarfs.Holds lsArchive where
  count := rfl
  header := (Tarfs.contains_of_getD rfl (fun _ => rfl) (by decide)).header
  small := by decide
  below := by decide

theorem lsArchive_wellFormed : lsArchive.WellFormed lsTarfs.start where
  dirsFirst := by
    rw [lsArchive_members]
    refine inOrder_append_singleton.mpr ⟨?_, ?_⟩
    · rw [← List.nil_append [_]]
      refine inOrder_append_singleton.mpr ⟨inOrder_nil, fun d c hpath hd => ?_⟩
      have hsplit : ([] : List (List UInt8)) ++ [[98, 105, 110]] = d ++ [c] := hpath
      obtain ⟨rfl, -⟩ := List.append_inj' hsplit rfl
      exact absurd rfl hd
    · intro d c hpath _
      have hsplit : [[98, 105, 110]] ++ [[108, 115]] = d ++ [c] := hpath
      obtain ⟨rfl, -⟩ := List.append_inj' hsplit rfl
      exact ⟨_, List.mem_singleton_self _, rfl, rfl⟩
  nodup := by decide
  entries d := by
    rw [lsArchive_members]
    exact Nat.le_trans (List.length_filterMap_le _ _) (by decide)

theorem lsArchive_insertsExactly : InOrder InsertsExactly (lsArchive.members lsTarfs.start) := by
  rw [lsArchive_members]
  refine inOrder_append_singleton.mpr ⟨?_, by decide⟩
  rw [← List.nil_append [_]]
  exact inOrder_append_singleton.mpr ⟨inOrder_nil, by decide⟩

theorem lsArchive_readable : ∀ m ∈ fileAt (lsArchive.members lsTarfs.start)
    [98, 105, 110, 47, 108, 115], m.Readable fun _ => 65 := by
  intro m hm
  rw [lsArchive_members] at hm
  obtain rfl := Option.some.inj hm
  refine ⟨fun ch hch => ?_, by decide⟩
  obtain ⟨k, -, rfl⟩ := List.mem_map.mp (List.mem_of_mem_take hch)
  show (65 : UInt8) < 128
  decide

/-- `cat bin/ls` shows the one byte of the file. -/
theorem cat_shows_ls : ∃ s, lsTarfs.initTarfs 6 = some s ∧ ∃ c' p',
    catMain (fun _ => 65) s ⟨fun _ => 0, 0x400000, fun _ => [], fun _ => ⟨fun _ => 0, fun _ => 0,
      fun _ => []⟩, 0⟩ Pcb.zero [98, 105, 110, 47, 108, 115] (Console.fresh fun _ => 32) =
        some (c', p', 0) ∧
    c'.Prints (typeKeys (Console.paper fun _ => 32) [.newLine, .char 65]) := by
  obtain ⟨s, hs, hshows⟩ := @cat_shows [98, 105, 110, 47, 108, 115] 2 (fun _ => 65) Pcb.zero lsTarfs
    lsArchive
    ⟨fun _ => 0, 0x400000, fun _ => [], fun _ => ⟨fun _ => 0, fun _ => 0, fun _ => []⟩, 0⟩ 6
    lsTarfs_holds lsArchive_wellFormed (show lsTarfs.count < 6 by decide)
    lsArchive_insertsExactly (by decide) lsArchive_readable (by decide) (by decide)
  exact ⟨s, hs, hshows _ _ (Console.fresh_prints _)⟩

/-! ## `ls` -/

/-- One call of `k_readdir` does not fail and gives the next name. -/
theorem Enumerates.readdir_next {tree : InodeTree} {s : DirState} {d k : Nat}
    {rs : List (Option (List UInt8))} (h : Enumerates tree (s.dir d) k rs) (hv : tree.Valid)
    (hk : k < tree.count) (hd : d ≠ 0)
    (hnames : ∀ j < tree.count, (tree.inode j).inodeName.length < nameSize) :
    ∃ o, s.kReaddir tree d = some (s.setDir d o, (tree.childNames k)[rs.length]?) ∧
      Enumerates tree o k (rs ++ [(tree.childNames k)[rs.length]?]) := by
  have hcurr : 0 < (s.dir d).currInode := by
    rw [h.currInode]
    omega
  obtain ⟨⟨s', name⟩, hread⟩ :=
    Option.isSome_iff_exists.mp (DirState.kReaddir_isSome hv h.path hk hcurr hnames)
  obtain ⟨o, rfl, ho⟩ := h.readdir hv hk hd hread
  have hname : name = (tree.childNames k)[rs.length]? := by
    have hlast := congrArg List.getLast? ho.results
    rw [List.length_append, List.length_singleton, List.range_succ, List.map_append,
      List.getLast?_concat, List.map_singleton, List.getLast?_concat] at hlast
    exact Option.some.inj hlast
  rw [← hname]
  exact ⟨o, hread, ho⟩

/-- The names that are left, each on a row of its own. -/
theorem lsLoop_shows {tree : InodeTree} {s : DirState} {d k fuel : Nat} {names : List (List UInt8)}
    {rs : List (Option (List UInt8))} {stack : Nat → List UInt8}
    (h : Enumerates tree (s.dir d) k rs) (hv : tree.Valid) (hk : k < tree.count) (hd : d ≠ 0)
    (hnames : ∀ j < tree.count, (tree.inode j).inodeName.length < nameSize)
    (hshown : ∀ name ∈ names, ∀ ch ∈ name, ch ≠ 0 ∧ ch < 128)
    (hleft : (tree.childNames k).drop rs.length = names) (hfuel : names.length < fuel)
    (hprints : c.Prints r) :
    ∃ s' c', lsLoop tree stack d fuel s c = some (s', c') ∧
      s'.dirRecycleList = s.dirRecycleList ∧
      c'.Prints (typeKeys r (typedString (names.flatMap (· ++ [10])))) := by
  induction names generalizing s rs fuel c r with
  | nil =>
    obtain ⟨o, hread, -⟩ := h.readdir_next hv hk hd hnames
    have hend : (tree.childNames k)[rs.length]? = none :=
      List.getElem?_eq_none (List.drop_eq_nil_iff.mp hleft)
    rw [hend] at hread
    cases fuel with
    | zero => exact absurd hfuel (Nat.not_lt_zero _)
    | succ fuel =>
      refine ⟨s.setDir d o, c, ?_, rfl, hprints⟩
      rw [lsLoop, hread]
  | cons name names ih =>
    obtain ⟨o, hread, ho⟩ := h.readdir_next hv hk hd hnames
    have hnext : (tree.childNames k)[rs.length]? = some name := by
      rw [← List.head?_drop, hleft, List.head?_cons]
    rw [hnext] at hread ho
    have hrest : (tree.childNames k).drop (rs ++ [some name]).length = names := by
      rw [List.length_append, List.length_singleton, ← List.drop_drop, hleft, List.drop_one,
        List.tail_cons]
    have hline : Types (fun c => (c.puts name stack).bind (·.puts [10] stack)) (name ++ [10]) :=
      (puts_types (hshown name List.mem_cons_self)).bind
        (puts_types (List.all_iff_forall_prop.mp rfl))
    obtain ⟨c₁, hc₁, h₁⟩ := hline c r hprints
    cases fuel with
    | zero => exact absurd hfuel (Nat.not_lt_zero _)
    | succ fuel =>
      rw [List.length_cons] at hfuel
      have ho' : Enumerates tree ((s.setDir d o).dir d) k (rs ++ [some name]) := by
        rwa [DirState.setDir_dir_self]
      obtain ⟨s', c', hloop, hrec, h'⟩ := ih ho'
        (fun n hn => hshown n (List.mem_cons_of_mem name hn)) hrest
        (show names.length < fuel by omega) h₁
      refine ⟨s', c', ?_, hrec, ?_⟩
      · obtain ⟨c₂, hc₂, hc₁⟩ := Option.bind_eq_some_iff.mp hc₁
        rw [lsLoop, hread]
        dsimp only
        rw [hc₂, Option.bind_eq_bind, Option.bind_some, hc₁, Option.bind_some, hloop]
      · rw [List.flatMap_cons, typedString_append]
        unfold typeKeys at h' ⊢
        rwa [Roll.type_append]

/-- `k_opendir` gives an object exactly for a directory. -/
theorem DirState.kOpendir_ne_zero {tree : InodeTree} {s s' : DirState} {dirobj : Nat}
    (hs : s.dirRecycleList = 0) (ho : s.kOpendir tree path = some (s', dirobj)) :
    dirobj ≠ 0 ↔ tree.findsDir path = true := by
  unfold kOpendir at ho
  rw [getnewdir_eq hs] at ho
  dsimp only at ho
  unfold InodeTree.findsDir
  cases hq : tree.getInode path with
  | none =>
    rw [hq] at ho
    simp [← (Prod.mk.inj (Option.some.inj ho)).2]
  | some query =>
    rw [hq] at ho
    dsimp only at ho ⊢
    split at ho
    · rename_i hdir
      split at ho
      · simp [hdir, ← (Prod.mk.inj (Option.some.inj ho)).2]
      · cases ho
    · rename_i hdir
      simp [hdir, ← (Prod.mk.inj (Option.some.inj ho)).2]

/-- `k_closedir` puts `NULL` in the empty list. -/
theorem DirState.kClosedir_dirRecycleList {s : DirState} {d : Nat} (hs : s.dirRecycleList = 0) :
    (s.kClosedir d).dirRecycleList = 0 := by
  unfold kClosedir recycledirstruct setNextdir
  simp [setDir, hs]

/-- The names in the tree are those of the archive, and no longer. -/
theorem Archive.WellFormed.inodeName_lt (hw : a.WellFormed t.start)
    (hins : InOrder InsertsExactly (a.members t.start)) :
    ∀ j < (treeOf (a.members t.start)).count,
      ((treeOf (a.members t.start)).inode j).inodeName.length < nameSize := by
  intro j hj
  have hr := InsertsExactly.represents hw.listing hins
  have hsize : nameSize = 256 := rfl
  cases j with
  | zero =>
    have hname : ((treeOf (a.members t.start)).inode 0).inodeName = [47] :=
      (treeOf_extends [] (a.members t.start)).inodeName Nat.one_pos
    rw [hname]
    decide
  | succ i =>
    rw [hr.count] at hj
    have hi : i < (a.members t.start).length := by omega
    have hm := List.getElem?_eq_getElem hi
    have hlast := (hr.describes i _ hm).1
    obtain ⟨x, -, type, -, hx⟩ := Archive.mem_members.mp (List.getElem_mem hi)
    rw [← hx] at hlast
    have hle := length_le_of_mem_components (List.mem_of_getLast? hlast)
    have hname := x.1.name_le
    omega

/-- The entries of a directory can be shown. -/
theorem Listing.names_shown {ms : List Member} (h : Listing ms)
    (hascii : ∀ m ∈ ms, ∀ name ∈ m.path, Ascii name) {q : List (List UInt8)} :
    ∀ name ∈ namesIn ms q, ∀ ch ∈ name, ch ≠ 0 ∧ ch < 128 := by
  intro name hname ch hch
  obtain ⟨m, hm, hp⟩ := mem_namesIn.mp hname
  have hmem : name ∈ m.path := by
    rw [hp]
    exact List.mem_append_right _ List.mem_cons_self
  refine ⟨fun h0 => ?_, hascii m hm name hmem ch hch⟩
  rw [h0] at hch
  exact (h.spelled m hm name hmem).2.2 hch

/-- `ls` in the tree of an archive. -/
theorem lsMain_shows {n : Nat} {stack : Nat → List UInt8} {s : DirState}
    (hw : a.WellFormed t.start) (hins : InOrder InsertsExactly (a.members t.start))
    (hexact : FoundExactly (a.members t.start) (components 47 path))
    (hascii : ∀ m ∈ a.members t.start, ∀ name ∈ m.path, Ascii name)
    (hpath : path.length < nameSize) (hn : 10 ≤ n) (hs : s.dirRecycleList = 0) (h : c.Prints r) :
    ∃ s' c', lsMain (treeOf (a.members t.start)) stack n path s c = some (s', c', 1) ∧
      s'.dirRecycleList = 0 ∧
      c'.Prints (typeKeys r (typedString (lsText (a.members t.start) path))) := by
  have hlisting := hw.listing
  have hr := InsertsExactly.represents hlisting hins
  obtain ⟨⟨s₁, dirobj⟩, hopen⟩ :=
    Option.isSome_iff_exists.mp ((@DirState.kOpendir_isSome (treeOf (a.members t.start)) s
      path).mpr fun _ => hpath)
  obtain ⟨hrec, -, -, hobj⟩ := DirState.kOpendir_cases hs hopen
  have hdir := (DirState.kOpendir_ne_zero hs hopen).trans
    (InsertsExactly.findsDir_iff hlisting hins hexact)
  unfold lsText
  by_cases hnames : NamesDir (a.members t.start) path
  · have hne := hdir.mpr hnames
    obtain ⟨-, ⟨k, hget⟩, hopath, hcurr⟩ := hobj.resolve_left hne
    have hk := (InsertsExactly.getInode_iff hlisting hins hexact).mp hget
    have hchildren := hr.names k _ hk
    have henum : Enumerates (treeOf (a.members t.start)) (s₁.dir dirobj) k [] :=
      ⟨by rw [hopath, hget], hcurr, rfl⟩
    have hroom := hw.entries (components 47 path)
    obtain ⟨c₁, hc₁, h₁⟩ := @puts_types [10] stack (List.all_iff_forall_prop.mp rfl) c r h
    obtain ⟨s', c', hloop, hrec', h'⟩ := @lsLoop_shows _ _ _ _ _ _ n _ _ stack henum treeOf_valid
      (hr.lt_count hk) hne (hw.inodeName_lt hins) (hlisting.names_shown hascii) hchildren (by omega)
      h₁
    refine ⟨s'.kClosedir dirobj, c', ?_, ?_, ?_⟩
    · unfold lsMain
      rw [hopen, Option.bind_eq_bind, Option.bind_some]
      dsimp only at hc₁ ⊢
      rw [if_neg hne, hc₁, Option.bind_eq_bind, Option.bind_some, hloop]
      rfl
    · exact DirState.kClosedir_dirRecycleList (hrec'.trans hrec)
    · rw [if_pos hnames]
      unfold typeKeys at h' ⊢
      rwa [← Roll.type_append, ← typedString_append] at h'
  · have hzero : dirobj = 0 := Decidable.not_not.mp fun hne => hnames (hdir.mp hne)
    obtain ⟨c', hc', h'⟩ :=
      @puts_types cannotOpenDirectory stack (List.all_iff_forall_prop.mp rfl) c r h
    refine ⟨s₁, c', ?_, hrec, ?_⟩
    · unfold lsMain
      rw [hopen, Option.bind_eq_bind, Option.bind_some]
      dsimp only at hc' ⊢
      rw [if_pos hzero, hc', Option.bind_eq_bind, Option.bind_some]
    · rw [if_neg hnames]
      exact h'

/-- In the tree that `init_tarfs` makes of an archive in which no name hides another, `ls` shows
the entries of the directory that its path names, in the order of the archive, and no others, or
that there is no directory. -/
theorem ls_shows {fuel n : Nat} {stack : Nat → List UInt8} (ht : t.Holds a)
    (hw : a.WellFormed t.start) (hfuel : t.count < fuel)
    (hins : InOrder InsertsExactly (a.members t.start))
    (hexact : FoundExactly (a.members t.start) (components 47 path))
    (hascii : ∀ m ∈ a.members t.start, ∀ name ∈ m.path, Ascii name)
    (hpath : path.length < nameSize) (hn : 10 ≤ n) :
    ∃ tree, t.initTarfs fuel = some tree ∧ ∀ s c r, s.dirRecycleList = 0 → c.Prints r →
      ∃ s' c', lsMain tree stack n path s c = some (s', c', 1) ∧ s'.dirRecycleList = 0 ∧
        c'.Prints (typeKeys r (typedString (lsText (a.members t.start) path))) :=
  ⟨_, ht.initTarfs hfuel, fun _ _ _ hs h => lsMain_shows hw hins hexact hascii hpath hn hs h⟩

theorem lsArchive_ascii : ∀ m ∈ lsArchive.members lsTarfs.start, ∀ name ∈ m.path, Ascii name := by
  rw [lsArchive_members]
  unfold Ascii
  simp only [List.all_iff_forall_prop.symm]
  decide

/-- `ls /bin` shows the name `ls`. -/
theorem ls_shows_bin : ∃ tree, lsTarfs.initTarfs 6 = some tree ∧ ∃ s' c',
    lsMain tree (fun _ => []) 10 [47, 98, 105, 110] noDirs (Console.fresh fun _ => 32) =
      some (s', c', 1) ∧ s'.dirRecycleList = 0 ∧
      c'.Prints (typeKeys (Console.paper fun _ => 32)
        [.newLine, .char 108, .char 115, .newLine]) := by
  obtain ⟨tree, htree, hshows⟩ := @ls_shows [47, 98, 105, 110] lsTarfs lsArchive 6 10 (fun _ => [])
    lsTarfs_holds lsArchive_wellFormed (show lsTarfs.count < 6 by decide) lsArchive_insertsExactly
    (by decide) lsArchive_ascii (by decide) (by decide)
  exact ⟨tree, htree, hshows noDirs _ _ rfl (Console.fresh_prints _)⟩

end Sbunix
