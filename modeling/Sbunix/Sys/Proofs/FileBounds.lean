import Sbunix.Sys.Proofs.FileStreams

/-!
# Bounds of the file calls

`k_close` and `k_read` take their descriptor from a 64-bit register, cut it to an `int` and index
`active->fd` with it; `k_read` stores a NUL behind what it has read.  A call stays within its
bounds exactly when its descriptor is an open one and, for a read, some of `count` is left over.
-/

namespace Sbunix

variable {mem : Nat → UInt8} {s : InodeTree} {p p' : Pcb} {a fd buf count : Nat}

/-- A call with the values of its registers. -/
inductive FileCall
  | opens (filePath : List UInt8)
  | close (fdIndex : Nat)
  | read (fdIndex buf count : Nat)

/-- One file call of a process. -/
def FileCall.run (mem : Nat → UInt8) (s : InodeTree) (p : Pcb) : FileCall → FileOutcome
  | .opens filePath => .done (kOpen s p filePath).1 (kOpen s p filePath).2 []
  | .close fdIndex => kClose p fdIndex
  | .read fdIndex buf count => kRead mem s p fdIndex buf count

/-- The descriptor register of a close or read is 2 or above, and all registers have 64 bits. -/
def FileCall.Registers : FileCall → Prop
  | .opens _ => True
  | .close fdIndex => 2 ≤ fdIndex ∧ fdIndex < 2 ^ 64
  | .read fdIndex buf count => 2 ≤ fdIndex ∧ fdIndex < 2 ^ 64 ∧ buf < 2 ^ 64 ∧ count < 2 ^ 64

/-- The register is the number of an open descriptor. -/
def IsOpen (p : Pcb) (fdIndex : Nat) : Prop :=
  2 ≤ fdIndex ∧ fdIndex < maxFd ∧ ∃ f : FileObject, p.fd[fdIndex]? = some (some f)

/-- A call that came to an end has stored inside the buffer only and changed nothing of the PCB
but the table of descriptors; with a descriptor that is not open it has failed (a close that
succeeds returns 1) without any effect. -/
def FileCall.Framed (call : FileCall) (p : Pcb) : FileOutcome → Prop
  | .wild _ => False
  | .null _ => False
  | .done ret p' stores =>
      { p' with fd := p.fd } = p ∧
      match call with
      | .opens _ => stores = []
      | .close fdIndex => stores = [] ∧ (¬ IsOpen p fdIndex → ret ≠ 1 ∧ p' = p)
      | .read fdIndex buf count =>
          (∀ x ∈ stores, ∃ k < count, x.1 = (buf + k) % 2 ^ 64) ∧
            (¬ IsOpen p fdIndex → stores = [] ∧ p' = p)

/-- The descriptor is open; a read comes to the end of the file before `count` bytes, or its range
wraps around. -/
def FileCall.Limits (s : InodeTree) (p : Pcb) : FileCall → Prop
  | .opens _ => True
  | .close fdIndex => IsOpen p fdIndex
  | .read fdIndex _ count => 2 ≤ fdIndex ∧ fdIndex < maxFd ∧ ∃ f : FileObject,
      p.fd[fdIndex]? = some (some f) ∧
        (2 ^ 64 ≤ f.currentoffset + count ∨
          (s.inode f.node).stop - f.currentoffset < count)

/-- The runs of calls within the limits, by any processes. -/
inductive FileCallReach (mem : Nat → UInt8) (s : InodeTree) : (Nat → Pcb) → Prop
  | init (allPro : Nat → Pcb) (h : ∀ a, (allPro a).fd = noFiles) : FileCallReach mem s allPro
  | step {allPro : Nat → Pcb} (a : Nat) (call : FileCall) {ret : Nat} {p' : Pcb}
      {stores : List (Nat × UInt8)} : FileCallReach mem s allPro → call.Registers →
      call.Limits s (allPro a) → call.run mem s (allPro a) = .done ret p' stores →
      FileCallReach mem s (Function.update allPro a p')

theorem kOpen_framed {filePath : List UInt8} : { (kOpen s p filePath).2 with fd := p.fd } = p := by
  unfold kOpen
  repeat' split
  all_goals rfl

theorem close_framed_iff (hfd : 2 ≤ fd) :
    (FileCall.close fd).Framed p (kClose p fd) ↔ IsOpen p fd := by
  constructor
  · intro h
    unfold kClose at h
    rw [if_pos (by omega)] at h
    dsimp only at h
    split at h
    · by_contra hopen
      exact (h.2.2 hopen).1 rfl
    · exact h.elim
  · intro h
    rw [kClose_open hfd h.2.1]
    exact ⟨rfl, rfl, fun hno => absurd h hno⟩

/-- A read that ends has stored a NUL at least. -/
theorem kRead_stores {ret : Nat} {stores : List (Nat × UInt8)} (hfd : 2 ≤ fd)
    (h : kRead mem s p fd buf count = .done ret p' stores) : stores ≠ [] := by
  unfold kRead at h
  rw [if_pos (by omega)] at h
  dsimp only at h
  split at h
  · split at h
    · intro hnil
      have hstores := (FileOutcome.done.inj h).2.2
      rw [hnil] at hstores
      have hlen := congrArg List.length hstores
      rw [length_storesFrom, List.length_append] at hlen
      simp at hlen
    · cases h
  · cases h

theorem mem_storesFrom {xs : List UInt8} {x : Nat × UInt8} (hbuf : buf < 2 ^ 64) :
    x ∈ storesFrom buf xs → ∃ k < xs.length, x.1 = (buf + k) % 2 ^ 64 := by
  induction xs generalizing buf with
  | nil =>
    intro hx
    cases hx
  | cons b xs ih =>
    intro hx
    rcases List.mem_cons.mp hx with rfl | hx
    · exact ⟨0, Nat.succ_pos _, by dsimp only; omega⟩
    · obtain ⟨k, hk, hx⟩ := ih (Nat.mod_lt _ (by decide)) hx
      refine ⟨k + 1, Nat.succ_lt_succ hk, ?_⟩
      rw [hx]
      omega

theorem last_mem_storesFrom {xs : List UInt8} {b : UInt8} (hbuf : buf < 2 ^ 64) :
    ((buf + xs.length) % 2 ^ 64, b) ∈ storesFrom buf (xs ++ [b]) := by
  induction xs generalizing buf with
  | nil =>
    rw [List.length_nil, Nat.add_zero, Nat.mod_eq_of_lt hbuf]
    exact List.mem_cons_self
  | cons x xs ih =>
    have hrest := @ih ((buf + 1) % 2 ^ 64) (Nat.mod_lt _ (by decide))
    rw [show ((buf + 1) % 2 ^ 64 + xs.length) % 2 ^ 64 = (buf + (x :: xs).length) % 2 ^ 64 by
      rw [List.length_cons]; omega] at hrest
    exact List.mem_cons_of_mem _ hrest

theorem readCount_lt_iff {f : FileObject} (hoff : f.currentoffset < 2 ^ 64)
    (hcount : count < 2 ^ 64) :
    readCount s f count < count ↔ 2 ^ 64 ≤ f.currentoffset + count ∨
      (s.inode f.node).stop - f.currentoffset < count := by
  unfold readCount
  omega

theorem readCount_le {f : FileObject} (hoff : f.currentoffset < 2 ^ 64)
    (hcount : count < 2 ^ 64) : readCount s f count ≤ count := by
  unfold readCount
  omega

theorem read_framed_iff {log : Nat → List UInt8} (hs : s.Bounded) (hp : StreamsOk mem s p log)
    (hfd : 2 ≤ fd) (hbuf : buf < 2 ^ 64) (hcount : count < 2 ^ 64) :
    (FileCall.read fd buf count).Framed p (kRead mem s p fd buf count) ↔
      (FileCall.read fd buf count).Limits s p := by
  by_cases hopen : IsOpen p fd
  · obtain ⟨-, hmax, f, hf⟩ := hopen
    have hoff := hp.offset_lt hs hf
    have hlimits : (FileCall.read fd buf count).Limits s p ↔ readCount s f count < count := by
      rw [readCount_lt_iff hoff hcount]
      unfold FileCall.Limits
      constructor
      · intro h
        obtain ⟨-, -, f', hf', hcases⟩ := h
        rw [hf] at hf'
        cases hf'
        exact hcases
      · exact fun h => ⟨hfd, hmax, f, hf, h⟩
    rw [hlimits, kRead_open hfd hmax hf]
    constructor
    · intro h
      have hle := readCount_le (s := s) hoff hcount
      obtain ⟨k, hk, heq⟩ := h.2.1 _ (last_mem_storesFrom hbuf)
      dsimp only at heq
      rw [length_fileBytes] at heq
      omega
    · intro h
      refine ⟨rfl, ?_, fun hno => absurd ⟨hfd, hmax, f, hf⟩ hno⟩
      intro x hx
      obtain ⟨k, hk, heq⟩ := mem_storesFrom hbuf hx
      rw [List.length_append, length_fileBytes, List.length_singleton] at hk
      exact ⟨k, by omega, heq⟩
  · constructor
    · intro h
      cases hcall : kRead mem s p fd buf count with
      | wild i =>
        rw [hcall] at h
        exact h.elim
      | null i =>
        rw [hcall] at h
        exact h.elim
      | done ret p' stores =>
        rw [hcall] at h
        exact absurd (h.2.2 hopen).1 (kRead_stores hfd hcall)
    · intro h
      obtain ⟨-, hmax, f, hf, -⟩ := h
      exact absurd ⟨hfd, hmax, f, hf⟩ hopen

theorem framed_iff {log : Nat → List UInt8} {call : FileCall} (hs : s.Bounded)
    (hp : StreamsOk mem s p log) (hr : call.Registers) :
    call.Framed p (call.run mem s p) ↔ call.Limits s p := by
  cases call with
  | opens filePath => exact iff_of_true ⟨kOpen_framed, rfl⟩ trivial
  | close fdIndex => exact close_framed_iff hr.1
  | read fdIndex buf count => exact read_framed_iff hs hp hr.1 hr.2.2.1 hr.2.2.2

theorem FileCallReach.streamsOk {allPro : Nat → Pcb} (h : FileCallReach mem s allPro) :
    ∀ a, ∃ log, StreamsOk mem s (allPro a) log := by
  induction h with
  | init allPro h => exact fun a => ⟨fun _ => [], StreamsOk.of_noFiles (h a)⟩
  | @step allPro a call ret p' stores _ _ hl hcall ih =>
    intro b
    by_cases hb : b = a
    · rw [hb, Function.update_self]
      obtain ⟨log, hlog⟩ := ih a
      cases call with
      | opens filePath =>
        rw [← (FileOutcome.done.inj hcall).2.1]
        exact ⟨_, hlog.kOpen⟩
      | close fdIndex => exact ⟨log, hlog.kClose hcall⟩
      | read fdIndex buf count =>
        obtain ⟨hfd, hmax, f, hf, -⟩ := hl
        exact ⟨_, hlog.kRead hfd hmax hf hcall⟩
    · rw [Function.update_of_ne hb]
      exact ih b

/-- In the tree that `init_tarfs` makes of any archive and in every run of calls within the
limits, a call stays within its bounds exactly when it is within the limits, for all values of
its registers. -/
theorem fileCall_framed {t : Tarfs} {fuel : Nat} {allPro : Nat → Pcb}
    (ht : t.initTarfs fuel = some s) (h : FileCallReach mem s allPro) {call : FileCall}
    (hr : call.Registers) :
    call.Framed (allPro a) (call.run mem s (allPro a)) ↔ call.Limits s (allPro a) := by
  obtain ⟨log, hlog⟩ := h.streamsOk a
  exact framed_iff (Tarfs.initTarfs_bounded ht) hlog hr

/-- A process that has opened `f` twice. -/
def fOpened : Pcb := (kOpen fTree (kOpen fTree Pcb.zero [102]).2 [102]).2

theorem fOpened_fd : fOpened.fd[2]? = some (some ⟨0xFFFFFFFF80240200, 1⟩) ∧
    fOpened.fd[3]? = some (some ⟨0xFFFFFFFF80240200, 1⟩) ∧ fOpened.fd[4]? = some none := by decide

/-- It reads `f` to its end through the first descriptor. The second one is as before, and there is
no third one. -/
theorem fileCall_framed_opened : ∃ p stores,
    FileCallReach (fun _ => 7) fTree (Function.update (fun _ => Pcb.zero) 0 p) ∧
    (FileCall.read 2 0x400000 2).run (fun _ => 7) fTree fOpened = .done 1 p stores ∧
    (FileCall.read 3 0x400000 2).Framed p ((FileCall.read 3 0x400000 2).run (fun _ => 7) fTree p) ∧
    (FileCall.close 3).Framed p ((FileCall.close 3).run (fun _ => 7) fTree p) ∧
    ¬ (FileCall.close 4).Framed p ((FileCall.close 4).run (fun _ => 7) fTree p) := by
  obtain ⟨hfirst, hsecond, hthird⟩ := fOpened_fd
  have hsize : (fTree.inode 1).stop = 0xFFFFFFFF80240201 := by decide
  have hlimits : ∀ (p : Pcb) (fd : Nat), 2 ≤ fd → fd < maxFd →
      p.fd[fd]? = some (some ⟨0xFFFFFFFF80240200, 1⟩) →
      (FileCall.read fd 0x400000 2).Limits fTree p := fun p fd hfd hmax hf =>
    ⟨hfd, hmax, _, hf, .inr (by rw [hsize]; decide)⟩
  have hopened : FileCallReach (fun _ => 7) fTree (Function.update (fun _ => Pcb.zero) 0 fOpened) := by
    have hinit : FileCallReach (fun _ => 7) fTree fun _ => Pcb.zero := .init _ fun _ => rfl
    have hone := hinit.step 0 (.opens [102]) trivial trivial rfl
    have htwo := hone.step 0 (.opens [102]) trivial trivial rfl
    rwa [Function.update_idem] at htwo
  have hcount : readCount fTree ⟨0xFFFFFFFF80240200, 1⟩ 2 = 1 := by decide
  have hrun : (FileCall.read 2 0x400000 2).run (fun _ => 7) fTree fOpened = _ :=
    kRead_open (by decide) (by decide) hfirst
  rw [hcount] at hrun
  have hread := hopened.step 0 (.read 2 0x400000 2) ⟨by decide, by decide, by decide, by decide⟩
    (by rw [Function.update_self]; exact hlimits _ 2 (by decide) (by decide) hfirst)
    (by rw [Function.update_self]; exact hrun)
  rw [Function.update_idem] at hread
  obtain ⟨p, hp⟩ : ∃ p : Pcb, { fOpened with
      fd := fOpened.fd.set 2 (some ⟨0xFFFFFFFF80240200 + 1, 1⟩) } = p := ⟨_, rfl⟩
  have hfd : p.fd[3]? = some (some ⟨0xFFFFFFFF80240200, 1⟩) ∧ p.fd[4]? = some none := by
    rw [← hp]
    exact ⟨(List.getElem?_set_ne (by decide)).trans hsecond,
      (List.getElem?_set_ne (by decide)).trans hthird⟩
  dsimp only at hrun hread
  rw [hp] at hrun hread
  have hiff : ∀ call : FileCall, call.Registers →
      (call.Framed p (call.run (fun _ => 7) fTree p) ↔ call.Limits fTree p) := fun call hr => by
    have hframed := fileCall_framed (a := 0) fTarfs_init hread hr
    rwa [Function.update_self] at hframed
  have hregs : (FileCall.read 3 0x400000 2).Registers :=
    ⟨by decide, by decide, by decide, by decide⟩
  refine ⟨p, _, hread, hrun, (hiff _ hregs).mpr ?_,
    (hiff (.close 3) ⟨by decide, by decide⟩).mpr ⟨by decide, by decide, _, hfd.1⟩, fun h => ?_⟩
  · exact hlimits p 3 (by decide) (by decide) hfd.1
  · obtain ⟨-, -, f, hf⟩ := (hiff (.close 4) ⟨by decide, by decide⟩).mp h
    rw [hfd.2] at hf
    cases hf

/-- `k_close(20)` stores `NULL` behind the array, where `heap_top` lies. -/
theorem kClose_beyond :
    kClose Pcb.zero 20 = .wild 20 ∧
      ¬ (FileCall.close 20).Framed Pcb.zero
        ((FileCall.close 20).run (fun _ => 7) fTree Pcb.zero) :=
  ⟨rfl, fun h => h⟩

end Sbunix
