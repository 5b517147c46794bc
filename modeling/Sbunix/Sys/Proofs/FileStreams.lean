import Sbunix.Sys.Files
import Sbunix.Sys.Proofs.ChdirRuns

/-!
# File streams

Every open descriptor stands at some offset of its file, and the bytes read through it, those of
the parent before a fork included, are the file's bytes up to there.  A read gives the bytes that
are left, up to `count`, unless the end of the range wraps around.
-/

namespace Sbunix

variable {mem : Nat → UInt8} {s : InodeTree} {p p' : Pcb} {f : FileObject}
  {a c fd buf count i n nodeEnd : Nat}

/-- Memory from `start` on. -/
def fileBytes (mem : Nat → UInt8) (start n : Nat) : List UInt8 :=
  (List.range n).map fun k => mem (start + k)

@[simp] theorem length_fileBytes : (fileBytes mem i n).length = n := by
  simp [fileBytes]

theorem fileBytes_succ : fileBytes mem i (n + 1) = mem i :: fileBytes mem (i + 1) n := by
  unfold fileBytes
  rw [List.range_succ_eq_map, List.map_cons, List.map_map]
  congr 1
  apply List.map_congr_left
  intro k _
  exact congrArg mem (by simp; omega)

theorem fileBytes_append {m : Nat} :
    fileBytes mem i (n + m) = fileBytes mem i n ++ fileBytes mem (i + n) m := by
  unfold fileBytes
  rw [List.range_add, List.map_append, List.map_map]
  congr 1
  apply List.map_congr_left
  intro k _
  exact congrArg mem (by simp; omega)

theorem fileBytes_isPrefix {m : Nat} (h : n ≤ m) : fileBytes mem i n <+: fileBytes mem i m := by
  obtain ⟨k, rfl⟩ := Nat.exists_eq_add_of_le h
  rw [fileBytes_append]
  exact List.prefix_append _ _

theorem readLoop_eq : readLoop mem nodeEnd n i = fileBytes mem i (min n (nodeEnd - i)) := by
  induction n generalizing i with
  | zero => simp [readLoop, fileBytes]
  | succ n ih =>
    unfold readLoop
    split
    · rw [show min (n + 1) (nodeEnd - i) = 0 by omega]
      rfl
    · rw [show min (n + 1) (nodeEnd - i) = min n (nodeEnd - (i + 1)) + 1 by omega,
        fileBytes_succ, ih]

theorem storesFrom_append (buf : Nat) (xs ys : List UInt8) :
    ∃ buf', storesFrom buf (xs ++ ys) = storesFrom buf xs ++ storesFrom buf' ys := by
  induction xs generalizing buf with
  | nil => exact ⟨buf, rfl⟩
  | cons x xs ih =>
    obtain ⟨buf', h⟩ := @ih ((buf + 1) % 2 ^ 64)
    exact ⟨buf', congrArg _ h⟩

theorem length_storesFrom {xs : List UInt8} : (storesFrom buf xs).length = xs.length := by
  induction xs generalizing buf with
  | nil => rfl
  | cons x xs ih => exact congrArg (· + 1) ih

theorem map_snd_storesFrom {xs : List UInt8} : (storesFrom buf xs).map Prod.snd = xs := by
  induction xs generalizing buf with
  | nil => rfl
  | cons x xs ih => exact congrArg (x :: ·) ih

/-- The bytes that a read of `count` takes: until the end of its range, which may wrap, or of the
file. -/
def readCount (s : InodeTree) (f : FileObject) (count : Nat) : Nat :=
  min ((f.currentoffset + count) % 2 ^ 64 - f.currentoffset)
    ((s.inode f.node).stop - f.currentoffset)

/-- What `k_read` does through an open descriptor. -/
theorem kRead_open (hfd : 2 ≤ fd) (hmax : fd < maxFd) (hf : p.fd[fd]? = some (some f)) :
    kRead mem s p fd buf count = .done (readCount s f count)
      { p with fd := p.fd.set fd (some { f with
          currentoffset := f.currentoffset + readCount s f count }) }
      (storesFrom buf (fileBytes mem f.currentoffset (readCount s f count) ++ [0])) := by
  have hint : toInt32 fd = fd := toInt32_low (by
    have hm : maxFd = 20 := rfl
    omega)
  have hrange : (0 : Int) ≤ (fd : Int) ∧ (fd : Int) < (maxFd : Nat) := by omega
  unfold kRead
  rw [if_pos (by omega)]
  simp only [hint, if_pos hrange, Int.toNat_natCast, hf, readLoop_eq, length_fileBytes]
  rfl

theorem kClose_open (hfd : 2 ≤ fd) (hmax : fd < maxFd) :
    kClose p fd = .done 1 { p with fd := p.fd.set fd none } [] := by
  have hint : toInt32 fd = fd := toInt32_low (by
    have hm : maxFd = 20 := rfl
    omega)
  have hrange : (0 : Int) ≤ (fd : Int) ∧ (fd : Int) < (maxFd : Nat) := by omega
  unfold kClose
  rw [if_pos (by omega)]
  simp only [hint, if_pos hrange, Int.toNat_natCast]

/-- The end of the range does not wrap, or nothing is left. -/
def ReadLimit (s : InodeTree) (f : FileObject) (count : Nat) : Prop :=
  f.currentoffset + count < 2 ^ 64 ∨ (s.inode f.node).stop ≤ f.currentoffset

/-- The call returns `min(count, bytes left)`, the first bytes that it stores are that many bytes
of the file, from the offset on, at `buf` and behind, and of the PCB only the offset has moved on,
not past the end. -/
def ReadComplete (mem : Nat → UInt8) (s : InodeTree) (p : Pcb) (fd : Nat) (f : FileObject)
    (buf count : Nat) : Prop :=
  let got := min count ((s.inode f.node).stop - f.currentoffset)
  ∃ p' stores, kRead mem s p fd buf count = .done got p' stores ∧
    stores.take got = storesFrom buf (fileBytes mem f.currentoffset got) ∧
    p' = { p with fd := p.fd.set fd (some { f with currentoffset := f.currentoffset + got }) } ∧
    f.currentoffset + got ≤ max f.currentoffset (s.inode f.node).stop

theorem readCount_eq_iff (hoff : f.currentoffset < 2 ^ 64) (hcount : count < 2 ^ 64) :
    readCount s f count = min count ((s.inode f.node).stop - f.currentoffset) ↔
      ReadLimit s f count := by
  unfold readCount ReadLimit
  omega

theorem readComplete_iff (hfd : 2 ≤ fd) (hmax : fd < maxFd) (hf : p.fd[fd]? = some (some f))
    (hoff : f.currentoffset < 2 ^ 64) (hcount : count < 2 ^ 64) :
    ReadComplete mem s p fd f buf count ↔ ReadLimit s f count := by
  rw [← readCount_eq_iff hoff hcount]
  unfold ReadComplete
  dsimp only
  rw [kRead_open hfd hmax hf]
  constructor
  · intro h
    obtain ⟨p', stores, hcall, -⟩ := h
    exact (FileOutcome.done.inj hcall).1
  · intro h
    rw [h]
    refine ⟨_, _, rfl, ?_, rfl, by omega⟩
    obtain ⟨buf', hsplit⟩ := storesFrom_append buf
      (fileBytes mem f.currentoffset (min count ((s.inode f.node).stop - f.currentoffset))) [0]
    rw [hsplit]
    exact List.take_left' (by rw [length_storesFrom, length_fileBytes])

/-- The addresses of every inode are 64-bit. -/
def InodeTree.Bounded (s : InodeTree) : Prop :=
  ∀ k, (s.inode k).start < 2 ^ 64 ∧ (s.inode k).stop < 2 ^ 64

theorem InodeTree.append_bounded {start stop k : Nat} {type : InodeType} {tok : List UInt8}
    (hs : s.Bounded) (hstart : start < 2 ^ 64) (hstop : stop < 2 ^ 64) :
    (s.append start stop type tok k).Bounded := by
  intro j
  rw [append_inode]
  by_cases hj : j = k
  · rw [hj, Function.update_self]
    exact hs k
  · rw [Function.update_of_ne hj]
    by_cases hc : j = s.count
    · rw [hc, Function.update_self]
      exact ⟨hstart, hstop⟩
    · rw [Function.update_of_ne hc]
      exact hs j

theorem Tarfs.addr_lt {t : Tarfs} {h : Int} : t.addr h < 2 ^ 64 := by
  unfold Tarfs.addr toUint64
  omega

theorem Tarfs.initTarfs_bounded {t : Tarfs} {fuel : Nat} (h : t.initTarfs fuel = some s) :
    s.Bounded := by
  have hkeep : s.Linked ∧ s.Bounded := by
    refine Tarfs.initTarfs_keeps (P := fun s => s.Linked ∧ s.Bounded) ⟨InodeTree.rootTree_linked,
      fun _ => ⟨show 0 < 2 ^ 64 by decide, show 1 < 2 ^ 64 by decide⟩⟩ ?_ h
    intro s h size type hs
    refine ⟨InodeTree.insertIntoRoot_linked hs.1, ?_⟩
    refine InodeTree.insertIntoRoot_keeps ?_ hs.1.valid hs.2
    intro s k tok _ hb _ _ _ _
    exact InodeTree.append_bounded hb t.addr_lt (Nat.mod_lt _ (by decide))
  exact hkeep.2

/-- The processes with, for every descriptor, the bytes that were read through it. -/
structure FileRun where
  allPro : Nat → Pcb
  log : Nat → Nat → List UInt8

/-- The runs of `k_open`, `k_close`, `k_read` and fork by any processes, in any order. The reads
are within the limit. A child's descriptor carries on what its parent read. -/
inductive FileReach (mem : Nat → UInt8) (s : InodeTree) : FileRun → Prop
  | init (allPro : Nat → Pcb) (h : ∀ a, (allPro a).fd = noFiles) :
      FileReach mem s ⟨allPro, fun _ _ => []⟩
  | opened {st : FileRun} (a : Nat) (path : List UInt8) : FileReach mem s st →
      FileReach mem s
        ⟨Function.update st.allPro a (kOpen s (st.allPro a) path).2,
          Function.update st.log a
            (Function.update (st.log a) (kOpen s (st.allPro a) path).1 [])⟩
  | closed {st : FileRun} (a fd : Nat) {ret : Nat} {p' : Pcb} {stores : List (Nat × UInt8)} :
      FileReach mem s st → kClose (st.allPro a) fd = .done ret p' stores →
      FileReach mem s ⟨Function.update st.allPro a p', st.log⟩
  | forked {st : FileRun} (a c : Nat) (child : Pcb) : FileReach mem s st →
      FileReach mem s
        ⟨Function.update st.allPro c (copyFds (st.allPro a) child),
          Function.update st.log c (st.log a)⟩
  | read {st : FileRun} (a fd buf count : Nat) {f : FileObject} {ret : Nat} {p' : Pcb}
      {stores : List (Nat × UInt8)} : FileReach mem s st → 2 ≤ fd → fd < maxFd → count < 2 ^ 64 →
      (st.allPro a).fd[fd]? = some (some f) → ReadLimit s f count →
      kRead mem s (st.allPro a) fd buf count = .done ret p' stores →
      FileReach mem s
        ⟨Function.update st.allPro a p',
          Function.update st.log a (Function.update (st.log a) fd
            (st.log a fd ++ (stores.take ret).map Prod.snd))⟩

/-- Every open descriptor of a process stands at an offset of its file, behind the bytes that
were read through it. -/
structure StreamsOk (mem : Nat → UInt8) (s : InodeTree) (p : Pcb) (log : Nat → List UInt8) :
    Prop where
  length : p.fd.length = maxFd
  offset : ∀ (i : Nat) (f : FileObject), p.fd[i]? = some (some f) →
    (s.inode f.node).start ≤ f.currentoffset ∧
      f.currentoffset ≤ max (s.inode f.node).start (s.inode f.node).stop
  log : ∀ (i : Nat) (f : FileObject), p.fd[i]? = some (some f) →
    log i = fileBytes mem (s.inode f.node).start (f.currentoffset - (s.inode f.node).start)

namespace StreamsOk

variable {log : Nat → List UInt8} {path : List UInt8}

theorem fd_lt (h : StreamsOk mem s p log) (hf : p.fd[i]? = some (some f)) : i < maxFd := by
  rw [← h.length]
  exact (List.getElem?_eq_some_iff.mp hf).1

theorem of_noFiles (h : p.fd = noFiles) : StreamsOk mem s p log where
  length := by
    rw [h]
    exact List.length_replicate
  offset i f hf := by
    rw [h, noFiles, List.getElem?_replicate] at hf
    split at hf <;> cases hf
  log i f hf := by
    rw [h, noFiles, List.getElem?_replicate] at hf
    split at hf <;> cases hf

/-- One entry of the table changes, with what was read through it. -/
theorem set {file : Option FileObject} {bytes : List UInt8} (h : StreamsOk mem s p log)
    (hfile : ∀ f, file = some f → (s.inode f.node).start ≤ f.currentoffset ∧
      f.currentoffset ≤ max (s.inode f.node).start (s.inode f.node).stop ∧
      bytes = fileBytes mem (s.inode f.node).start (f.currentoffset - (s.inode f.node).start)) :
    StreamsOk mem s { p with fd := p.fd.set i file } (Function.update log i bytes) := by
  have hcases : ∀ j f, (p.fd.set i file)[j]? = some (some f) →
      j = i ∧ file = some f ∨ j ≠ i ∧ p.fd[j]? = some (some f) := by
    intro j f hf
    by_cases hj : j = i
    · rw [hj] at hf
      have hlt := (List.getElem?_eq_some_iff.mp hf).1
      rw [List.length_set] at hlt
      rw [List.getElem?_set_self hlt] at hf
      exact Or.inl ⟨hj, Option.some.inj hf⟩
    · rw [List.getElem?_set_ne (Ne.symm hj)] at hf
      exact Or.inr ⟨hj, hf⟩
  constructor
  · rw [List.length_set]
    exact h.length
  · intro j f hf
    rcases hcases j f hf with ⟨-, hsome⟩ | ⟨-, hold⟩
    · exact ⟨(hfile f hsome).1, (hfile f hsome).2.1⟩
    · exact h.offset j f hold
  · intro j f hf
    rcases hcases j f hf with ⟨rfl, hsome⟩ | ⟨hne, hold⟩
    · rw [Function.update_self]
      exact (hfile f hsome).2.2
    · rw [Function.update_of_ne hne]
      exact h.log j f hold

/-- What was read through an index that no descriptor has does not matter. -/
theorem log_beyond {bytes : List UInt8} (h : StreamsOk mem s p log) (hi : maxFd ≤ i) :
    StreamsOk mem s p (Function.update log i bytes) where
  length := h.length
  offset := h.offset
  log j f hf := by
    have hlt := h.fd_lt hf
    rw [Function.update_of_ne (by omega)]
    exact h.log j f hf

theorem kOpen (h : StreamsOk mem s p log) :
    StreamsOk mem s (kOpen s p path).2 (Function.update log (kOpen s p path).1 []) := by
  have herror : maxFd ≤ fileError := by decide
  unfold Sbunix.kOpen
  split
  · exact h.log_beyond herror
  · split
    · exact h.log_beyond herror
    · split
      · exact h.log_beyond herror
      · apply h.set
        intro f hf
        rw [← Option.some.inj hf]
        refine ⟨Nat.le_refl _, Nat.le_max_left _ _, ?_⟩
        rw [Nat.sub_self]
        rfl

theorem kClose {ret : Nat} {stores : List (Nat × UInt8)} (h : StreamsOk mem s p log)
    (hcall : kClose p fd = .done ret p' stores) : StreamsOk mem s p' log := by
  unfold Sbunix.kClose at hcall
  split at hcall
  · dsimp only at hcall
    split at hcall
    · rw [← (FileOutcome.done.inj hcall).2.1]
      have hset : StreamsOk mem s { p with fd := p.fd.set (toInt32 fd).toNat none }
          (Function.update log (toInt32 fd).toNat (log (toInt32 fd).toNat)) :=
        h.set fun f hf => by cases hf
      rw [Function.update_eq_self] at hset
      exact hset
    · cases hcall
  · rw [← (FileOutcome.done.inj hcall).2.1]
    exact h

theorem offset_lt (h : StreamsOk mem s p log) (hs : s.Bounded)
    (hf : p.fd[i]? = some (some f)) : f.currentoffset < 2 ^ 64 := by
  have hoff := (h.offset i f hf).2
  have hb := hs f.node
  omega

theorem kRead {ret : Nat} {stores : List (Nat × UInt8)} (h : StreamsOk mem s p log)
    (hfd : 2 ≤ fd) (hmax : fd < maxFd) (hf : p.fd[fd]? = some (some f))
    (hcall : kRead mem s p fd buf count = .done ret p' stores) :
    StreamsOk mem s p'
      (Function.update log fd (log fd ++ (stores.take ret).map Prod.snd)) := by
  rw [kRead_open hfd hmax hf] at hcall
  obtain ⟨rfl, rfl, rfl⟩ := FileOutcome.done.inj hcall
  have hoff := h.offset fd f hf
  have hgot : readCount s f count ≤ (s.inode f.node).stop - f.currentoffset :=
    Nat.min_le_right _ _
  apply h.set
  intro f' hf'
  rw [← Option.some.inj hf']
  refine ⟨by dsimp only; omega, by dsimp only; omega, ?_⟩
  rw [List.map_take, map_snd_storesFrom,
    List.take_left' (by rw [length_fileBytes]), h.log fd f hf]
  dsimp only
  rw [show f.currentoffset + readCount s f count - (s.inode f.node).start =
    (f.currentoffset - (s.inode f.node).start) + readCount s f count by omega, fileBytes_append,
    show (s.inode f.node).start + (f.currentoffset - (s.inode f.node).start) =
      f.currentoffset by omega]

theorem copyFds (h : StreamsOk mem s p log) (child : Pcb) :
    StreamsOk mem s (copyFds p child) log :=
  ⟨h.length, h.offset, h.log⟩

end StreamsOk

/-- One process changes. -/
theorem streamsOk_update {allPro : Nat → Pcb} {logs : Nat → Nat → List UInt8}
    {log : Nat → List UInt8} (h : ∀ a, StreamsOk mem s (allPro a) (logs a))
    (hp : StreamsOk mem s p log) (b : Nat) :
    StreamsOk mem s (Function.update allPro a p b) (Function.update logs a log b) := by
  by_cases hb : b = a
  · rw [hb, Function.update_self, Function.update_self]
    exact hp
  · rw [Function.update_of_ne hb, Function.update_of_ne hb]
    exact h b

theorem FileReach.streamsOk {st : FileRun} (h : FileReach mem s st) :
    ∀ a, StreamsOk mem s (st.allPro a) (st.log a) := by
  induction h with
  | init allPro h => exact fun a => StreamsOk.of_noFiles (h a)
  | opened a path _ ih => exact streamsOk_update ih (ih a).kOpen
  | @closed st a fd ret p' stores _ hcall ih =>
    have hupd := streamsOk_update (a := a) ih ((ih a).kClose hcall)
    rw [Function.update_eq_self] at hupd
    exact hupd
  | forked a c child _ ih => exact streamsOk_update ih ((ih a).copyFds child)
  | read a fd buf count _ hfd hmax _ hf _ hcall ih =>
    exact streamsOk_update ih ((ih a).kRead hfd hmax hf hcall)

/-- In the tree that `init_tarfs` makes of any archive, and in every run of calls whose reads are
within the limit: the bytes read through each open descriptor are a prefix of its file, whatever
the other descriptors did, and the next read is complete exactly if it is within the limit. -/
theorem kRead_streams {t : Tarfs} {fuel : Nat} {st : FileRun} (ht : t.initTarfs fuel = some s)
    (h : FileReach mem s st) :
    (∀ (a i : Nat) (f : FileObject), (st.allPro a).fd[i]? = some (some f) →
      st.log a i <+: fileBytes mem (s.inode f.node).start
        ((s.inode f.node).stop - (s.inode f.node).start)) ∧
    ∀ (a fd buf count : Nat) (f : FileObject), 2 ≤ fd → fd < maxFd → count < 2 ^ 64 →
      (st.allPro a).fd[fd]? = some (some f) →
      (ReadComplete mem s (st.allPro a) fd f buf count ↔ ReadLimit s f count) := by
  have hok := h.streamsOk
  constructor
  · intro a i f hf
    have hoff := (hok a).offset i f hf
    rw [(hok a).log i f hf]
    exact fileBytes_isPrefix (by omega)
  · intro a fd buf count f hfd hmax hcount hf
    exact readComplete_iff hfd hmax hf ((hok a).offset_lt (Tarfs.initTarfs_bounded ht) hf) hcount

/-- The archive of a file `f` of one byte. -/
def fTarfs : Tarfs where
  start := 0xFFFFFFFF80240000
  count := 4
  header := fun i => [⟨[102], octal 11 1, 48⟩].getD i.toNat ⟨[], [], 0⟩

/-- The tree of an archive with the one file `f`. -/
def fTree : InodeTree := (fTarfs.initTarfs 5).get (by decide)

theorem fTarfs_init : fTarfs.initTarfs 5 = some fTree := (Option.some_get _).symm

/-- Process 0 has opened `f`, as descriptor 2. -/
def fRun : FileRun :=
  ⟨Function.update (fun _ => Pcb.zero) 0 (kOpen fTree Pcb.zero [102]).2,
    Function.update (fun _ _ => []) 0
      (Function.update (fun _ => []) (kOpen fTree Pcb.zero [102]).1 [])⟩

theorem fRun_reach : FileReach mem fTree fRun :=
  FileReach.opened 0 [102] (FileReach.init (fun _ => Pcb.zero) fun _ => rfl)

theorem fRun_fd : (fRun.allPro 0).fd[2]? = some (some ⟨0xFFFFFFFF80240200, 1⟩) := by decide

theorem kRead_streams_f :
    (∀ (a i : Nat) (f : FileObject), (fRun.allPro a).fd[i]? = some (some f) →
      fRun.log a i <+: fileBytes (fun _ => 7) (fTree.inode f.node).start
        ((fTree.inode f.node).stop - (fTree.inode f.node).start)) ∧
    ∀ (a fd buf count : Nat) (f : FileObject), 2 ≤ fd → fd < maxFd → count < 2 ^ 64 →
      (fRun.allPro a).fd[fd]? = some (some f) →
      (ReadComplete (fun _ => 7) fTree (fRun.allPro a) fd f buf count ↔
        ReadLimit fTree f count) :=
  kRead_streams fTarfs_init fRun_reach

/-- A read of `2^63` bytes gives none, though one is left. -/
theorem kRead_wraps :
    FileReach (fun _ => 7) fTree fRun ∧
      (∃ p' stores, kRead (fun _ => 7) fTree (fRun.allPro 0) 2 0x400000 (2 ^ 63) =
        .done 0 p' stores) ∧
      (fTree.inode 1).stop = 0xFFFFFFFF80240201 ∧
      ¬ ReadComplete (fun _ => 7) fTree (fRun.allPro 0) 2 ⟨0xFFFFFFFF80240200, 1⟩ 0x400000
        (2 ^ 63) := by
  have hstop : (fTree.inode 1).stop = 0xFFFFFFFF80240201 := by decide
  have hcount : readCount fTree ⟨0xFFFFFFFF80240200, 1⟩ (2 ^ 63) = 0 := by
    unfold readCount
    rw [hstop]
    decide
  have hcall : kRead (fun _ => 7) fTree (fRun.allPro 0) 2 0x400000 (2 ^ 63) =
      .done (readCount fTree ⟨0xFFFFFFFF80240200, 1⟩ (2 ^ 63)) _ _ :=
    kRead_open (Nat.le_refl 2) (by decide) fRun_fd
  rw [hcount] at hcall
  refine ⟨fRun_reach, ⟨_, _, hcall⟩, hstop, fun h => ?_⟩
  obtain ⟨p', stores, hcall', -⟩ := h
  rw [hcall] at hcall'
  have hret := (FileOutcome.done.inj hcall').1
  dsimp only at hret
  rw [hstop] at hret
  exact absurd hret (by decide)

end Sbunix
