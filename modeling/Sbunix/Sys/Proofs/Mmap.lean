import Sbunix.Sys.Mmap
import Sbunix.Sys.Proofs.HeapRuns

/-!
# The arithmetic of mmap

One call puts the VMA at the end of the list and moves the heap top behind it, if nothing wraps
around.  Nothing in `k_mmap` looks for that.
-/

namespace Sbunix

open VmState

variable {s t u : VmState} {lists : Option Nat → List Nat} {a length p ret start stop : Nat}
  {lengths : List Nat}

/-! Allocation of a node -/

theorem allocVma_recycled (start stop : Nat) (hbin : s.vmaRecycleList ≠ 0) :
    ∃ u, s.allocVma start stop = some (s.vmaRecycleList, u) ∧ u.kernVA = s.kernVA := by
  rw [allocVma, getvmaFromRecylebin, if_neg hbin]
  dsimp only
  rw [if_neg hbin]
  exact ⟨_, rfl, rfl⟩

theorem allocVma_full (hbin : s.vmaRecycleList = 0) (hva : 2 ^ 64 ≤ s.kernVA + 24) :
    s.allocVma start stop = none := by
  rw [allocVma, getvmaFromRecylebin, if_pos hbin]
  simp only [if_true, VmState.kmalloc, if_pos (show 2 ^ 64 - 1 < s.kernVA + 24 by omega)]
  rfl

/-- `alloc_vma` gives a node and leaves room for one node less, or there is no room. -/
theorem VmState.Owned.allocVma_room (h : s.Owned lists) :
    s.room = 0 ∧ (∀ start stop, s.allocVma start stop = none) ∨
      ∃ m, s.room = m + 1 ∧ ∀ start stop, ∃ p u, s.allocVma start stop = some (p, u) ∧
        (lists none).tail.length + (2 ^ 64 - 1 - u.kernVA) / 24 = m := by
  have hbound := h.bound
  have hhead : s.vmaRecycleList = 0 ↔ lists none = [] := h.head_eq_zero (i := none)
  unfold room
  rw [h.recycledNodes]
  by_cases hbin : s.vmaRecycleList = 0
  · rw [hhead.mp hbin]
    by_cases hva : 2 ^ 64 ≤ s.kernVA + 24
    · refine Or.inl ⟨?_, fun start stop => allocVma_full hbin hva⟩
      rw [List.length_nil]
      omega
    · refine Or.inr ⟨(2 ^ 64 - 1 - (s.kernVA + 24)) / 24, ?_, fun start stop =>
        ⟨_, _, allocVma_first hbin (by omega), ?_⟩⟩
      · rw [List.length_nil]
        omega
      · rw [List.tail_nil, List.length_nil, Nat.zero_add]
  · obtain ⟨x, xs, hl⟩ := List.exists_cons_of_ne_nil fun hnil => hbin (hhead.mpr hnil)
    rw [hl]
    refine Or.inr ⟨xs.length + (2 ^ 64 - 1 - s.kernVA) / 24, ?_, fun start stop => ?_⟩
    · rw [List.length_cons]
      omega
    · obtain ⟨u, hu, hva⟩ := allocVma_recycled start stop hbin
      exact ⟨_, u, hu, by rw [hva, List.tail_cons]⟩

/-! One call -/

/-- What a call does that does not fail. -/
structure MmapDoes (s t : VmState) (a ret endAddr : Nat) : Prop where
  owned : ∃ lists, t.Owned lists
  returns : ret = (s.mm a).heapTop
  records : t.areas (t.vmaNodes a) = s.areas (s.vmaNodes a) ++ [((s.mm a).heapTop, endAddr)]
  heapTop : (t.mm a).heapTop = ((endAddr >>> 12 + 1) <<< 12) % 2 ^ 64

/-- A call fails only for want of a node, and otherwise takes one. -/
theorem VmState.Owned.kMmapAny_cases (h : s.Owned lists) (a length : Nat) :
    s.room = 0 ∧ s.kMmapAny a length = none ∨
      ∃ ret t, s.kMmapAny a length = some (ret, t) ∧ s.room = t.room + 1 ∧
        MmapDoes s t a ret (((s.mm a).heapTop + length + (2 ^ 64 - 1)) % 2 ^ 64) := by
  unfold kMmapAny
  generalize ((s.mm a).heapTop + length + (2 ^ 64 - 1)) % 2 ^ 64 = endAddr
  dsimp only
  have hset : (s.setMm a fun m => { m with
      heapTop := ((endAddr >>> 12 + 1) <<< 12) % 2 ^ 64 }).Owned lists := h.setMm fun _ => rfl
  have hroom : (s.setMm a fun m => { m with
      heapTop := ((endAddr >>> 12 + 1) <<< 12) % 2 ^ 64 }).room = s.room := rfl
  rcases hset.allocVma_room with ⟨hzero, hnone⟩ | ⟨m, hm, hsome⟩
  · rw [hroom] at hzero
    rw [hnone]
    exact Or.inl ⟨hzero, rfl⟩
  · obtain ⟨p, u, halloc, hleft⟩ := hsome (s.mm a).heapTop endAddr
    obtain ⟨howned, hfree, hnext⟩ := hset.alloc halloc
    obtain ⟨t, happend, ht, hva⟩ := howned.append a hfree hnext
    obtain ⟨lists', ht', hadd⟩ := hset.added halloc happend
    refine Or.inr ⟨(s.mm a).heapTop, t, ?_, ?_, ⟨_, ht⟩, rfl, ?_, ?_⟩
    · rw [halloc]
      exact congrArg (fun r => Option.bind r _) happend
    · rw [← hroom, hm, ← hleft]
      unfold room
      rw [ht.recycledNodes, hva, Function.update_of_ne (Option.some_ne_none a).symm,
        Function.update_self]
    · rw [ht'.vmaNodes a, hadd.nodes, areas_append, hadd.kept, h.vmaNodes a, areas_singleton,
        hadd.area.1, hadd.area.2]
      rfl
    · rw [hadd.heapTop]
      unfold VmState.setMm
      dsimp only
      rw [Function.update_self]

/-- A call that does not fail is right if the VMA ends below the last page. -/
theorem MmapDoes.right_iff (hlen : 1 ≤ length ∧ length < 2 ^ 64) (htop : (s.mm a).heapTop < 2 ^ 64)
    (h : MmapDoes s t a ret (((s.mm a).heapTop + length + (2 ^ 64 - 1)) % 2 ^ 64)) :
    s.MmapRight t a length ret ↔ (s.mm a).heapTop + length ≤ 2 ^ 64 - 4096 := by
  have hmoved := h.heapTop
  rw [Nat.shiftRight_eq_div_pow, Nat.shiftLeft_eq] at hmoved
  constructor
  · intro hright
    have hwrap := hright.noWrap
    have hbeyond := hright.beyond
    rw [hmoved, lastByte_eq hlen.1 hwrap] at hbeyond
    omega
  · intro hfits
    have hlast := lastByte_eq hlen.1 (show (s.mm a).heapTop + length ≤ 2 ^ 64 by omega)
    have hrecords := h.records
    rw [hlast] at hmoved hrecords
    exact ⟨h.returns, by omega, hrecords, by omega, by omega, by omega⟩

theorem MmapDoes.heapTop_eq (hlen : 1 ≤ length)
    (h : MmapDoes s t a ret (((s.mm a).heapTop + length + (2 ^ 64 - 1)) % 2 ^ 64))
    (hfits : (s.mm a).heapTop + length ≤ 2 ^ 64 - 4096) :
    (t.mm a).heapTop = pageBehind ((s.mm a).heapTop + length - 1) := by
  have hmoved := h.heapTop
  rw [Nat.shiftRight_eq_div_pow, Nat.shiftLeft_eq, lastByte_eq hlen (by omega)] at hmoved
  unfold pageBehind
  omega

/-- The two models of the call agree where the VMA lies in user memory. -/
theorem kMmapAny_eq (hr : UserRange (s.mm a).heapTop
    (((s.mm a).heapTop + length + (2 ^ 64 - 1)) % 2 ^ 64)) :
    s.kMmapAny a length = s.malloc a length := by
  unfold kMmapAny VmState.malloc VmState.kMmap
  dsimp only
  rw [if_pos hr]
  simp only [Option.bind_eq_bind, Option.map_bind]
  congr 1
  funext r
  exact Option.map_eq_bind.symm

/-- What a program gets from `malloc` in a run of the memory side is right. -/
theorem VmReach.malloc_right {cond : VmLabel → VmState → Prop} (h : VmReach cond s)
    (hlen : 1 ≤ length) (hfits : (s.mm a).heapTop + length < 2 ^ 47)
    (heq : s.malloc a length = some (ret, t)) : s.MmapRight t a length ret := by
  obtain ⟨lists, hs⟩ := h.owned
  have hlast := lastByte_eq hlen (show (s.mm a).heapTop + length ≤ 2 ^ 64 by omega)
  have hr : UserRange (s.mm a).heapTop (((s.mm a).heapTop + length + (2 ^ 64 - 1)) % 2 ^ 64) := by
    rw [hlast]
    exact .inl (by omega)
  have hsame := kMmapAny_eq hr
  rcases hs.kMmapAny_cases a length with ⟨-, hnone⟩ | ⟨ret', t', hcall, -, hdoes⟩
  · rw [hsame, heq] at hnone
    cases hnone
  · rw [hsame, heq] at hcall
    obtain ⟨rfl, rfl⟩ := Prod.mk.inj (Option.some.inj hcall)
    exact (hdoes.right_iff ⟨hlen, by omega⟩ (by omega)).mpr (by omega)

/-! Sequences of calls -/

theorem VmState.Owned.mmaps_iff (h : s.Owned lists) (htop : (s.mm a).heapTop < 2 ^ 64)
    (hlen : ∀ length ∈ lengths, 1 ≤ length ∧ length < 2 ^ 64) :
    MmapsRight a lengths s ↔ EndsBelow (s.mm a).heapTop (lengths.take s.room) := by
  induction lengths generalizing s lists with
  | nil =>
    rw [List.take_nil]
    exact Iff.rfl
  | cons length lengths ih =>
    obtain ⟨hfirst, hrest⟩ := List.forall_mem_cons.mp hlen
    rw [MmapsRight]
    rcases h.kMmapAny_cases a length with ⟨hzero, hnone⟩ | ⟨ret, t, hcall, hroom, hdoes⟩
    · rw [hzero, hnone, List.take_zero]
      exact ⟨fun _ => trivial, fun _ ret t hsome => absurd hsome (by simp)⟩
    · obtain ⟨lists', ht⟩ := hdoes.owned
      have honce : (∀ ret' t', s.kMmapAny a length = some (ret', t') →
          s.MmapRight t' a length ret' ∧ MmapsRight a lengths t') ↔
          s.MmapRight t a length ret ∧ MmapsRight a lengths t := by
        refine ⟨fun hall => hall ret t hcall, fun hright ret' t' hcall' => ?_⟩
        obtain ⟨rfl, rfl⟩ := Prod.mk.inj (Option.some.inj (hcall.symm.trans hcall'))
        exact hright
      rw [honce, hdoes.right_iff hfirst htop, hroom, List.take_succ_cons, EndsBelow]
      refine and_congr_right fun hfits => ?_
      have hmoved := hdoes.heapTop_eq hfirst.1 hfits
      rw [ih ht (by rw [hmoved]; unfold pageBehind; omega) hrest, hmoved]

/-- From any reachable VMA lists and any heap top, a sequence of calls of `k_mmap` does what it
should if the blocks of those that get a VMA node all end below the last page of the address
space. -/
theorem mmapsRight_iff (hs : VmaReach s) (htop : (s.mm a).heapTop < 2 ^ 64)
    (hlen : ∀ length ∈ lengths, 1 ≤ length ∧ length < 2 ^ 64) :
    MmapsRight a lengths s ↔ EndsBelow (s.mm a).heapTop (lengths.take s.room) := by
  obtain ⟨lists, howned⟩ := hs.owned
  exact howned.mmaps_iff htop hlen

/-- No VMA yet, and the heap of every process begins at `heapTop`. -/
def emptyHeaps (heapTop : Nat) : VmState := { noVmas with mm := fun _ => ⟨0, 0, heapTop⟩ }

theorem emptyHeaps_reach (heapTop : Nat) : VmaReach (emptyHeaps heapTop) := by
  refine Reach.init ⟨fun i => ?_, show 0xFFFFFFFF80400000 < 2 ^ 64 by decide⟩
  cases i <;> rfl

theorem mmapsRight_twoCalls : MmapsRight 0 [1, 5000] (emptyHeaps 0x401000) ↔
    EndsBelow 0x401000 ([1, 5000].take (emptyHeaps 0x401000).room) :=
  mmapsRight_iff (emptyHeaps_reach 0x401000) (by decide) (by decide)

theorem emptyHeaps_call {heapTop : Nat} (hlen : 1 ≤ length ∧ length < 2 ^ 64)
    (htop : heapTop < 2 ^ 64) (hover : 2 ^ 64 - 4096 < heapTop + length) :
    ¬ MmapsRight 0 [length] (emptyHeaps heapTop) := by
  obtain ⟨lists, howned⟩ := (emptyHeaps_reach heapTop).owned
  have hroom : [length].length ≤ (emptyHeaps heapTop).room := by
    have hva : (emptyHeaps heapTop).kernVA = 0xFFFFFFFF80400000 := rfl
    unfold room
    rw [hva, List.length_singleton]
    omega
  rw [howned.mmaps_iff htop (List.forall_mem_singleton.mpr hlen), List.take_of_length_le hroom]
  rintro ⟨hfits, -⟩
  exact absurd hfits (Nat.not_le.mpr hover)

/-- A length that wraps around moves the heap top down, and a byte in the last page moves it to
0. -/
theorem mmap_overruns : ¬ MmapsRight 0 [2 ^ 64 - 4096] (emptyHeaps 0x401000) ∧
    ¬ MmapsRight 0 [1] (emptyHeaps (2 ^ 64 - 4096)) :=
  ⟨emptyHeaps_call (by decide) (by decide) (by decide),
    emptyHeaps_call (by decide) (by decide) (by decide)⟩

end Sbunix
