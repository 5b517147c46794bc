import Sbunix.Sys.Proofs.VmRuns

/-!
# The first process

Start-up and `init_proc` always succeed on the machines they are made for. They leave a
process with an empty address space, and touch no frame of the free list they leave.
-/

namespace Sbunix

variable {mem mem' : Nat → Nat → Nat} {f k : Nat} {b : BootInfo} {s : VmState}

theorem putWord_frame {g i w : Nat} (h : f ≠ g) : putWord mem g i w f = mem f :=
  Function.update_of_ne h _ _

theorem clearTables_frame {d n : Nat} (hf : d + 25 < f) :
    clearTables mem (d * 4096) n f = mem f := by
  obtain ⟨e1, e2, e3, e4⟩ := bootFrames (Nat.mul_mod_left d 4096)
  rw [Nat.mul_div_cancel _ (by decide)] at e1 e2 e3 e4
  unfold clearTables
  rw [e1, e2, e3, e4]
  induction n with
  | zero => rfl
  | succ n ih =>
      rw [List.range_succ, List.foldl_append, List.foldl_cons, List.foldl_nil]
      rw [putWord_frame (by omega), putWord_frame (by omega), putWord_frame (by omega),
        putWord_frame (by omega), ih]

theorem mapImage_frame {kp p4 kernend fuel j kernstart j' : Nat} (hf : f ≠ kp)
    (h : mapImage kp p4 kernend fuel j kernstart mem = some (j', mem')) : mem' f = mem f := by
  induction fuel generalizing j kernstart mem with
  | zero => simp [mapImage] at h
  | succ fuel ih =>
      rw [mapImage] at h
      split_ifs at h with hle
      · rw [ih h, putWord_frame hf]
      · simp only [Option.some.injEq, Prod.mk.injEq] at h
        rw [h.2]

/-- `map_kernpt` writes to its four tables only. -/
theorem mapKernpt_frame {d v kernend curDisp : Nat} (hf : d + 25 < f)
    (h : mapKernpt mem (d * 4096) kernend curDisp = some (mem', v)) : mem' f = mem f := by
  obtain ⟨e1, e2, e3, e4⟩ := bootFrames (Nat.mul_mod_left d 4096)
  rw [Nat.mul_div_cancel _ (by decide)] at e1 e2 e3 e4
  simp only [mapKernpt, Option.bind_eq_bind, Option.bind_eq_some_iff, Prod.exists,
    Option.some.injEq, Prod.mk.injEq] at h
  obtain ⟨n, mem₁, himg, rfl, -⟩ := h
  have hne : f ≠ kernelpage (d * 4096) := by omega
  rw [putWord_frame hne, putWord_frame (by omega), mapImage_frame hne himg,
    putWord_frame (by omega), putWord_frame (by omega), putWord_frame (by omega),
    clearTables_frame hf]

/-- The state in which the first process starts on the machine `b`. -/
structure FirstProcess (b : BootInfo) (k : Nat) (s : VmState) : Prop where
  inv : VmInv k s
  active : s.active = some 0
  alive : s.alive = Function.update (fun _ => false) 0 true
  empty : ∀ q, leaf s.machine.mem k (some 0, q) = 0
  vmaList : (s.mm 0).vmaList = 0
  vmaRecycleList : s.vmaRecycleList = 0
  kernVA : s.kernVA < 2 ^ 64 - 2 ^ 20
  room : b.base + b.length ≤ b.physfree + 1024 * 1024 + 4096 * (s.machine.fl.totalblockcount + 7)
  content : ∀ x ∈ s.machine.fl.blocks, s.machine.mem (s.machine.fl.frame x) =
    b.mem (s.machine.fl.frame x)

/-- The frames of the free list are as start-up finds them. -/
theorem BootInfo.Fits.start_content (hb : b.Fits) (h : b.start = some s) :
    s.machine.fl.freeMemory = b.physfree + 1024 * 1024 + 4096 ∧
      ∀ x, s.machine.mem (s.machine.fl.frame x) = b.mem (s.machine.fl.frame x) := by
  have hfm := hb.freeInv.2.1
  have hal := hb.physfree_aligned
  rw [BootInfo.start, Option.bind_eq_bind, Option.bind_eq_some_iff] at h
  obtain ⟨⟨mem, kernVA⟩, hmap, hs⟩ := h
  rw [← Option.some.inj hs]
  refine ⟨hfm, fun x => ?_⟩
  obtain ⟨d, hd⟩ : ∃ d, b.physfree = d * 4096 := ⟨b.physfree / 4096, by omega⟩
  have hframe : d + 25 < (emptyFreeList.freelist b.base b.length b.physfree).frame x := by
    rw [FreeList.frame, hfm, hd]
    omega
  rw [hd] at hmap hframe ⊢
  exact mapKernpt_frame hframe hmap

theorem BootInfo.Fits.firstProcess (hb : b.Fits)
    (hroom : b.physfree + 1024 * 1024 + 4096 * 11 ≤ b.base + b.length) :
    ∃ k s, (∀ cond, VmReach cond s) ∧ FirstProcess b k s := by
  obtain ⟨s₀, h₀, hva, htot, hbin⟩ := hb.start_total
  have hstart : VmStart s₀ := .start hb h₀
  obtain ⟨k, hi⟩ := hstart.startInv
  have hroot : root s₀.machine.mem k (some 0) ≠ some (s₀.machine.cr3 / 4096) := by
    rw [hi.roots 0 (by decide)]
    simp
  have htot₀ : 8 ≤ s₀.machine.fl.totalblockcount := by omega
  have hva₀ : s₀.kernVA + 200 < 2 ^ 64 - 2 ^ 20 := (Nat.add_lt_add_right hva 200).trans (by decide)
  obtain ⟨t, ht, g, hnew⟩ := (createNewProcess_spec hi.pages hi.rootInv hi.small (by decide)
    hroot).exists_some ⟨htot₀, hva₀.trans_le (Nat.sub_le _ _)⟩
  obtain ⟨P, hcr, hlen⟩ := hnew.created
  have hinit : s₀.initProc = some { t.changePtable (t.mm 0).cr3 with active := some 0 } := by
    rw [VmState.initProc, VmState.syscallExec, ht]
    rfl
  obtain ⟨-, -, -, -, hv⟩ := hi.initProc hinit
  have htotal := hi.pages.free.toThreaded.total_eq hnew.pages.free.toThreaded hcr.blocks
  have hnodup := hi.pages.free.nodup
  rw [hcr.blocks] at hnodup
  have hframe : ∀ x, t.machine.fl.frame x = s₀.machine.fl.frame x :=
    FreeList.frame_congr hcr.freeMemory
  refine ⟨k, _, fun cond => .init ⟨s₀, hstart, hinit⟩, hv, rfl, ?_, ?_, ?_, ?_, ?_, ?_, ?_⟩
  · show t.alive = _
    rw [hnew.alive, show s₀.alive = fun _ => false from funext hi.alive]
  · exact fun q => hnew.leaf_child q
  · exact hnew.vmaList
  · exact hnew.vmaRecycleList.trans hbin
  · exact hnew.kernVA.trans_lt hva₀
  · refine htot.trans (Nat.add_le_add_left (Nat.mul_le_mul_left _ ?_) _)
    show s₀.machine.fl.totalblockcount + 3 ≤ t.machine.fl.totalblockcount + 7
    omega
  · intro x hx
    show t.machine.mem (t.machine.fl.frame x) = b.mem (t.machine.fl.frame x)
    rw [hframe, ← (hb.start_content h₀).2 x]
    have hxs : x ∈ s₀.machine.fl.blocks := by
      rw [hcr.blocks]
      exact List.mem_append_right P hx
    refine hcr.frames _ (fun hist => hi.pages.tables.notFree _ hist ⟨x, hxs, rfl⟩) fun y hy he => ?_
    obtain rfl := FreeList.frame_inj.mp he
    exact (List.nodup_append.mp hnodup).2.2 _ hy _ hx rfl

/-- A machine with 128 MiB of memory that holds `mem`. -/
def smallBoot (mem : Nat → Nat → Nat) : BootInfo :=
  { mem := mem, physfree := 0x220000, base := 0x100000, length := 0x7EE0000 }

theorem smallBoot_fits (mem : Nat → Nat → Nat) : (smallBoot mem).Fits := by
  constructor <;> dsimp only [smallBoot] <;> decide

/-- The invariant is not vacuous: a first process runs on any machine with that much memory. -/
theorem smallBoot_firstProcess (mem : Nat → Nat → Nat) :
    ∃ k s, (∀ cond, VmReach cond s) ∧ FirstProcess (smallBoot mem) k s :=
  (smallBoot_fits mem).firstProcess (by dsimp only [smallBoot]; decide)

end Sbunix
