import Mathlib.Data.List.TakeWhile
import Sbunix.Sys.Heap
import Sbunix.Sys.Proofs.FreshPages
import Sbunix.Sys.Proofs.UnmapExact
import Sbunix.Sys.Proofs.VmaFrame

/-!
# free undoes malloc

`free` asks for the byte behind the address too, so it misses a block of one byte, takes the
first VMA that covers both, and unmaps what `unmap_phyaddr_range` visits of it.
-/

namespace Sbunix

open VmState

variable {s t : VmState} {lists : Option Nat → List Nat} {a n p v x length start stop : Nat}
  {b b' : Block} {h h' : Heap} {P : VmState → Prop}

/-! ## k_mmap -/

theorem lt_pageBehind : v < pageBehind v := by
  unfold pageBehind
  omega

/-- VMAs end well below the end of the address space. -/
theorem UserRange.pageBehind_lt (hr : UserRange start v) : pageBehind v < 2 ^ 64 := by
  have hup : upml4 - 4096 * (procSize - 1) = 0xFFFFFFFF801FF000 - 4096 * 99 := rfl
  unfold pageBehind
  rcases hr with h | ⟨-, h⟩ | ⟨-, h⟩
  · omega
  · omega
  · rw [hup] at h
    omega

theorem pageBehind_eq (hr : UserRange start v) : ((v >>> 12 + 1) <<< 12) % 2 ^ 64 = pageBehind v := by
  have hlt := hr.pageBehind_lt
  rw [Nat.shiftRight_eq_div_pow, Nat.shiftLeft_eq]
  exact Nat.mod_eq_of_lt hlt

theorem lastByte_eq (hlen : 1 ≤ length) (hover : start + length ≤ 2 ^ 64) :
    (start + length + (2 ^ 64 - 1)) % 2 ^ 64 = start + length - 1 := by
  have hsum : start + length + (2 ^ 64 - 1) = start + length - 1 + 2 ^ 64 := by omega
  rw [hsum, Nat.add_mod_right]
  exact Nat.mod_eq_of_lt (by omega)

/-- What `k_mmap` does to the list of the process. -/
structure MmapAppends (s t : VmState) (lists lists' : Option Nat → List Nat) (a length p : Nat) :
    Prop where
  nodes : lists' (some a) = lists (some a) ++ [p]
  area : (t.vma p).vstart = (s.mm a).heapTop ∧ (t.vma p).vend = (s.mm a).heapTop + length - 1
  kept : t.areas (lists (some a)) = s.areas (lists (some a))
  heapTop : (t.mm a).heapTop = pageBehind ((s.mm a).heapTop + length - 1)
  range : UserRange (s.mm a).heapTop ((s.mm a).heapTop + length - 1)

theorem VmState.Owned.kMmap (h : s.Owned lists) (hlen : 1 ≤ length)
    (hover : (s.mm a).heapTop + length ≤ 2 ^ 64) (heq : s.kMmap a length = some t) :
    ∃ lists' p, t.Owned lists' ∧ MmapAppends s t lists lists' a length p := by
  rw [VmState.kMmap] at heq
  simp only [Option.bind_eq_bind, lastByte_eq hlen hover] at heq
  split_ifs at heq with hr
  rw [pageBehind_eq hr] at heq
  simp only [Option.bind_eq_some_iff, Prod.exists] at heq
  obtain ⟨p, u, halloc, happend⟩ := heq
  have hset : (s.setMm a fun m => { m with
      heapTop := pageBehind ((s.mm a).heapTop + length - 1) }).Owned lists := h.setMm fun _ => rfl
  obtain ⟨lists', howned, hadd⟩ := hset.added halloc happend
  refine ⟨lists', p, howned, hadd.nodes, hadd.area, hadd.kept, ?_, hr⟩
  rw [hadd.heapTop]
  unfold VmState.setMm
  dsimp only
  rw [Function.update_self]

/-! ## The blocks -/

/-- The nodes of live blocks are on the list of the process, and the blocks do not overlap. -/
structure BlocksInv (a : Nat) (lists : Option Nat → List Nat) (h : Heap) : Prop where
  owned : h.vm.Owned lists
  node : ∀ b ∈ h.live, b.node ∈ lists (some a)
  area : ∀ b ∈ h.live, (h.vm.vma b.node).vstart = b.addr ∧
    (h.vm.vma b.node).vend = b.addr + b.size - 1
  size : ∀ b ∈ h.live, 1 ≤ b.size
  range : ∀ b ∈ h.live, UserRange b.addr (b.addr + b.size - 1)
  top : ∀ b ∈ h.live, b.addr + b.size ≤ (h.vm.mm a).heapTop
  nodup : h.live.Nodup
  apart : ∀ b ∈ h.live, ∀ b' ∈ h.live, b ≠ b' →
    b'.addr + b'.size ≤ b.addr ∨ b.addr + b.size ≤ b'.addr

/-- All other VMAs of the process are apart from the blocks and from the rest of the heap. -/
structure ClearInv (a : Nat) (lists : Option Nat → List Nat) (h : Heap) : Prop where
  below : ∀ x ∈ lists (some a), (h.vm.vma x).vend < (h.vm.mm a).heapTop
  clear : ∀ b ∈ h.live, ∀ x ∈ lists (some a), x ≠ b.node →
    (h.vm.vma x).vend < b.addr ∨ b.addr + b.size ≤ (h.vm.vma x).vstart

/-- Bounds that are kept node by node. -/
theorem bounds_of_areas {xs : List Nat} (h : t.areas xs = s.areas xs) (hx : x ∈ xs) :
    (t.vma x).vstart = (s.vma x).vstart ∧ (t.vma x).vend = (s.vma x).vend :=
  Prod.mk.inj (List.map_inj_left.mp h x hx)

namespace BlocksInv

theorem vmaNodes (hi : BlocksInv a lists h) : h.vm.vmaNodes a = lists (some a) :=
  hi.owned.vmaNodes a

/-- A node of a live block that covers an address of another is that of the other. -/
theorem not_covers (hi : BlocksInv a lists h) (hb : b ∈ h.live) (hb' : b' ∈ h.live)
    (hne : b ≠ b') (hstop : start ≤ stop) (hstart : b.addr ≤ start ∧ start < b.addr + b.size) :
    ¬ h.vm.Covers b'.node start stop := by
  rintro ⟨hlo, hhi⟩
  have hsize := hi.size b' hb'
  rw [(hi.area b' hb').1] at hlo
  rw [(hi.area b' hb').2] at hhi
  rcases hi.apart b hb b' hb' hne with hlt | hlt <;> omega

/-! ### malloc -/

/-- `malloc` makes a block behind all others. -/
theorem malloc (hi : BlocksInv a lists h) (hlen : 1 ≤ n)
    (hover : (h.vm.mm a).heapTop + n ≤ 2 ^ 64) (heq : h.vm.kMmap a n = some t) :
    ∃ lists', BlocksInv a lists' ⟨t, ⟨(h.vm.mm a).heapTop, n, (t.vmaNodes a).getLastD 0⟩ :: h.live⟩ ∧
      (ClearInv a lists h → ClearInv a lists'
        ⟨t, ⟨(h.vm.mm a).heapTop, n, (t.vmaNodes a).getLastD 0⟩ :: h.live⟩) := by
  obtain ⟨lists', p, howned, hm⟩ := hi.owned.kMmap hlen hover heq
  have hlast : (t.vmaNodes a).getLastD 0 = p := by
    rw [howned.vmaNodes, hm.nodes]
    exact List.getLastD_concat
  have hgrow : (h.vm.mm a).heapTop + n ≤ (t.mm a).heapTop := by
    have hlt : (h.vm.mm a).heapTop + n - 1 < pageBehind ((h.vm.mm a).heapTop + n - 1) :=
      lt_pageBehind
    rw [hm.heapTop]
    omega
  have hmem : p ∈ lists' (some a) := by simp [hm.nodes]
  have hold : ∀ x ∈ lists (some a), x ∈ lists' (some a) := by
    intro x hx
    rw [hm.nodes]
    exact List.mem_append_left _ hx
  have hcases : ∀ x ∈ lists' (some a), x ∈ lists (some a) ∨ x = p := by
    intro x hx
    rwa [hm.nodes, List.mem_append, List.mem_singleton] at hx
  have hkept : ∀ x ∈ lists (some a), (t.vma x).vstart = (h.vm.vma x).vstart ∧
      (t.vma x).vend = (h.vm.vma x).vend := fun x hx => bounds_of_areas hm.kept hx
  have hfresh : ∀ b ∈ h.live, b ≠ ⟨(h.vm.mm a).heapTop, n, p⟩ := by
    rintro b hb rfl
    have htop := hi.top _ hb
    dsimp only at htop
    omega
  rw [hlast]
  refine ⟨lists', ⟨howned, ?_, ?_, ?_, ?_, ?_, ?_, ?_⟩, fun hc => ⟨fun x hx => ?_, ?_⟩⟩
  · intro b hb
    rcases List.mem_cons.mp hb with rfl | hb
    · exact hmem
    · exact hold _ (hi.node b hb)
  · intro b hb
    rcases List.mem_cons.mp hb with rfl | hb
    · exact hm.area
    · rw [(hkept _ (hi.node b hb)).1, (hkept _ (hi.node b hb)).2]
      exact hi.area b hb
  · intro b hb
    rcases List.mem_cons.mp hb with rfl | hb
    · exact hlen
    · exact hi.size b hb
  · intro b hb
    rcases List.mem_cons.mp hb with rfl | hb
    · exact hm.range
    · exact hi.range b hb
  · intro b hb
    rcases List.mem_cons.mp hb with rfl | hb
    · exact hgrow
    · have htop := hi.top b hb
      exact htop.trans (Nat.le_of_add_right_le hgrow)
  · exact List.nodup_cons.mpr ⟨fun hb => hfresh _ hb rfl, hi.nodup⟩
  · intro b hb b' hb' hne
    rcases List.mem_cons.mp hb with rfl | hb
    · rcases List.mem_cons.mp hb' with rfl | hb'
      · exact absurd rfl hne
      · exact Or.inl (hi.top b' hb')
    · rcases List.mem_cons.mp hb' with rfl | hb'
      · exact Or.inr (hi.top b hb)
      · exact hi.apart b hb b' hb' hne
  · rcases hcases x hx with hx | rfl
    · have hbelow := hc.below x hx
      rw [(hkept x hx).2]
      exact Nat.lt_of_lt_of_le hbelow (Nat.le_of_add_right_le hgrow)
    · rw [hm.area.2, hm.heapTop]
      exact lt_pageBehind
  · intro b hb x hx hne
    rcases List.mem_cons.mp hb with rfl | hold'
    · rcases hcases x hx with hx | rfl
      · rw [(hkept x hx).2]
        exact Or.inl (hc.below x hx)
      · exact absurd rfl hne
    · rcases hcases x hx with hx | rfl
      · rw [(hkept x hx).1, (hkept x hx).2]
        exact hc.clear b hold' x hx hne
      · rw [hm.area.1]
        exact Or.inr (hi.top b hold')

/-! ### Other steps -/

/-- A step that keeps the list of the process keeps its blocks. -/
theorem keepsList {lists' : Option Nat → List Nat} {h' : Heap} (hi : BlocksInv a lists h)
    (howned : h'.vm.Owned lists') (hkeep : KeepsList h.vm h'.vm lists lists' a)
    (hlive : h'.live = h.live) :
    BlocksInv a lists' h' ∧ (ClearInv a lists h → ClearInv a lists' h') := by
  have hb : ∀ x ∈ lists (some a), (h'.vm.vma x).vstart = (h.vm.vma x).vstart ∧
      (h'.vm.vma x).vend = (h.vm.vma x).vend := fun x hx => bounds_of_areas hkeep.areas hx
  refine ⟨⟨howned, ?_, ?_, ?_, ?_, ?_, ?_, ?_⟩, fun hc => ⟨?_, ?_⟩⟩
  · rw [hlive, hkeep.nodes]
    exact hi.node
  · rw [hlive]
    intro b hmem
    rw [(hb _ (hi.node b hmem)).1, (hb _ (hi.node b hmem)).2]
    exact hi.area b hmem
  · rw [hlive]
    exact hi.size
  · rw [hlive]
    exact hi.range
  · rw [hlive, hkeep.heapTop]
    exact hi.top
  · rw [hlive]
    exact hi.nodup
  · rw [hlive]
    exact hi.apart
  · rw [hkeep.nodes, hkeep.heapTop]
    intro x hx
    rw [(hb x hx).2]
    exact hc.below x hx
  · rw [hlive, hkeep.nodes]
    intro b hmem x hx hne
    rw [(hb x hx).1, (hb x hx).2]
    exact hc.clear b hmem x hx hne

/-! ### free -/

/-- The byte behind the first of a block does not wrap. -/
theorem second_eq (hi : BlocksInv a lists h) (hb : b ∈ h.live) :
    (b.addr + 1) % 2 ^ 64 = b.addr + 1 := by
  have hsize := hi.size b hb
  have hlt := (hi.range b hb).pageBehind_lt
  have hle : b.addr + b.size - 1 < pageBehind (b.addr + b.size - 1) := lt_pageBehind
  apply Nat.mod_eq_of_lt
  omega

/-- What `free` does: `ThrowSegmentationFault`, or the first VMA that covers the first two bytes
of the block is removed. -/
theorem free_cases (hi : BlocksInv a lists h) (hb : b ∈ h.live) :
    (h.vm.free a b.addr = none ∧ ∀ z ∈ lists (some a), ¬ h.vm.Covers z b.addr (b.addr + 1)) ∨
    ∃ pre x post u, lists (some a) = pre ++ x :: post ∧
      (∀ y ∈ pre, ¬ h.vm.Covers y b.addr (b.addr + 1)) ∧ h.vm.Covers x b.addr (b.addr + 1) ∧
      u.Owned (recycled lists a (pre ++ post) x) ∧ SameSpace h.vm u ∧ SameBounds h.vm u ∧
      h.vm.free a b.addr = (h.vm.machine.unmapPhyaddrRange (h.vm.vma x).vstart
        (h.vm.vma x).vend).map fun m => { u with machine := m } := by
  have hfree : h.vm.free a b.addr =
      (h.vm.removeFromVmaList a b.addr (b.addr + 1)).bind
        fun r => if r.1 = 0 then none else some r.2 := by
    rw [VmState.free, VmState.kMunmap, hi.second_eq hb]
    rfl
  rcases hi.owned.remove a b.addr (b.addr + 1) with ⟨hnone, hno⟩ | ⟨pre, x, post, hr⟩
  · refine Or.inl ⟨?_, hno⟩
    rw [hfree, hnone]
    rfl
  · obtain ⟨u, howned, hspace, hbounds, hres⟩ := hr.result
    refine Or.inr ⟨pre, x, post, u, hr.split, hr.first, hr.covers, howned, hspace,
      fun p => hbounds p, ?_⟩
    rw [hfree, hres]
    cases h.vm.machine.unmapPhyaddrRange (h.vm.vma x).vstart (h.vm.vma x).vend <;> rfl

theorem free_heapTop (heq : s.free a p = some t) : (t.mm a).heapTop = (s.mm a).heapTop := by
  simp only [VmState.free, VmState.kMunmap, Option.bind_eq_bind, Option.bind_eq_some_iff,
    Prod.exists] at heq
  obtain ⟨found, u, hrem, heq⟩ := heq
  split_ifs at heq
  rw [← Option.some.inj heq]
  exact removeFromVmaList_heapTop hrem a

/-- What `free` removes is no node of another live block. -/
theorem free (hi : BlocksInv a lists h) (hb : b ∈ h.live)
    (heq : h.vm.free a b.addr = some t) :
    ∃ lists', BlocksInv a lists' ⟨t, h.live.erase b⟩ ∧
      (ClearInv a lists h → ClearInv a lists' ⟨t, h.live.erase b⟩) := by
  have hsize := hi.size b hb
  have htop := free_heapTop heq
  rcases hi.free_cases hb with ⟨hnone, -⟩ | ⟨pre, x, post, u, hsplit, -, hcov, howned, -, hbounds,
    hres⟩
  · rw [heq] at hnone
    cases hnone
  · rw [heq] at hres
    obtain ⟨m, -, rfl⟩ := Option.map_eq_some_iff.mp hres.symm
    have hlive : ∀ b' ∈ h.live.erase b, b' ∈ h.live ∧ b ≠ b' := by
      intro b' hb'
      rw [hi.nodup.mem_erase_iff] at hb'
      exact ⟨hb'.2, fun heq => hb'.1 heq.symm⟩
    have hlist : recycled lists a (pre ++ post) x (some a) = pre ++ post := by
      rw [recycled, Function.update_of_ne (Option.some_ne_none a), Function.update_self]
    have hsub : ∀ y ∈ pre ++ post, y ∈ lists (some a) := by
      intro y hy
      rw [hsplit]
      exact (List.Sublist.append_left (List.sublist_cons_self x post) pre).subset hy
    refine ⟨_, ⟨⟨howned.family, howned.heap, howned.bound⟩, fun b' hb' => ?_, fun b' hb' => ?_,
      fun b' hb' => hi.size b' (hlive b' hb').1, fun b' hb' => hi.range b' (hlive b' hb').1,
      fun b' hb' => ?_, hi.nodup.erase b, fun b₁ h₁ b₂ h₂ => ?_⟩, fun hc => ⟨?_, ?_⟩⟩
    · obtain ⟨hmem, hne⟩ := hlive b' hb'
      have hnode := hi.node b' hmem
      have hx : b'.node ≠ x := by
        rintro rfl
        exact hi.not_covers hb hmem hne (Nat.le_succ _) ⟨Nat.le_refl _, by omega⟩ hcov
      rw [hlist]
      rw [hsplit, List.mem_append, List.mem_cons] at hnode
      rw [List.mem_append]
      exact hnode.imp_right fun hor => hor.resolve_left hx
    · rw [show (VmState.vma { u with machine := m } b'.node) = u.vma b'.node from rfl,
        (hbounds b'.node).1, (hbounds b'.node).2]
      exact hi.area b' (hlive b' hb').1
    · rw [htop]
      exact hi.top b' (hlive b' hb').1
    · exact hi.apart b₁ (hlive b₁ h₁).1 b₂ (hlive b₂ h₂).1
    · intro y hy
      rw [hlist] at hy
      rw [htop]
      show (u.vma y).vend < _
      rw [(hbounds y).2]
      exact hc.below y (hsub y hy)
    · intro b' hb' y hy hne
      rw [hlist] at hy
      show (u.vma y).vend < _ ∨ _ ≤ (u.vma y).vstart
      rw [(hbounds y).1, (hbounds y).2]
      exact hc.clear b' (hlive b' hb').1 y (hsub y hy) hne

end BlocksInv

/-! ## Runs -/

theorem HeapReach.vmReach (h' : HeapReach P a h) : VmReach (fun _ _ => True) h.vm := by
  induction h' with
  | init hs => exact hs.1
  | step l _ hst ih =>
    cases l with
    | malloc size =>
      obtain ⟨ha, -, -, p, t, heq, rfl⟩ := hst
      obtain ⟨t', ht', hp⟩ := Option.map_eq_some_iff.mp heq
      obtain rfl := (Prod.mk.inj hp).2
      refine .step (.mmap size) ih ⟨trivial, ?_⟩
      show Option.bind _ _ = _
      rw [ha, Option.bind_some, VmState.stepOf]
      exact ht'
    | free b =>
      obtain ⟨ha, -, t, heq, rfl⟩ := hst
      refine .step (.munmap b.addr 1) ih ⟨trivial, ?_⟩
      show Option.bind _ _ = _
      rw [ha, Option.bind_some, VmState.stepOf]
      exact heq
    | elsewhere l => exact .step l ih ⟨trivial, hst.2.1⟩

/-- The blocks of every run. -/
theorem HeapReach.blocks (h' : HeapReach P a h) : ∃ lists, BlocksInv a lists h ∧
    ((∀ s, P s → s.BelowHeap a) → ClearInv a lists h) := by
  induction h' with
  | @init h hs =>
    obtain ⟨hreach, hstart, hlive⟩ := hs
    obtain ⟨lists, howned⟩ := hreach.owned
    refine ⟨lists, ⟨howned, ?_, ?_, ?_, ?_, ?_, ?_, ?_⟩, fun hP => ⟨fun x hx => ?_, ?_⟩⟩
    iterate 7 simp [hlive]
    · have hbelow := (hP h.vm hstart).below
      rw [howned.vmaNodes] at hbelow
      exact hbelow _ (List.mem_map_of_mem hx)
    · simp [hlive]
  | @step h h' l hr hst ih =>
    obtain ⟨lists, hi, hc⟩ := ih
    cases l with
    | malloc size =>
      obtain ⟨-, hlen, hover, p, t, heq, rfl⟩ := hst
      obtain ⟨t', ht', hp⟩ := Option.map_eq_some_iff.mp heq
      obtain ⟨rfl, rfl⟩ := Prod.mk.inj hp
      obtain ⟨lists', hi', hc'⟩ := hi.malloc hlen hover ht'
      exact ⟨lists', hi', fun hP => hc' (hc hP)⟩
    | free b =>
      obtain ⟨-, hb, t, heq, rfl⟩ := hst
      obtain ⟨lists', hi', hc'⟩ := hi.free hb heq
      exact ⟨lists', hi', fun hP => hc' (hc hP)⟩
    | elsewhere l =>
      obtain ⟨htouch, heq, hlive⟩ := hst
      obtain ⟨k, hv⟩ := (HeapReach.vmReach hr).vmInv
      obtain ⟨lists', howned, hkeep⟩ :=
        Frames.vmStep (fun a ha => (hv.active a ha).1) heq lists hi.owned
      obtain ⟨hi', hc'⟩ := hi.keepsList howned (hkeep a htouch) hlive
      exact ⟨lists', hi', fun hP => hc' (hc hP)⟩

/-! ## free undoes malloc -/

/-- `free` of a block removes its VMA and no other, and unmaps every page of the block. -/
def FreeUndoes (s : VmState) (a : Nat) (b : Block) : Prop :=
  ∃ t, s.free a b.addr = some t ∧ t.vmaNodes a = (s.vmaNodes a).erase b.node ∧
    t.areas (t.vmaNodes a) = s.areas (t.vmaNodes a) ∧
    ∀ v, b.addr ≤ v → v < b.addr + b.size → walk t.machine.mem t.machine.cr3 v = none

/-- The block has a second byte, no VMA before its own covers its first two, and its mapped
pages are among those that the loop of `unmap_phyaddr_range` visits. -/
structure FreeFits (s : VmState) (a : Nat) (b : Block) : Prop where
  second : 2 ≤ b.size
  first : ∀ y ∈ (s.vmaNodes a).takeWhile (· ≠ b.node), ¬ s.Covers y b.addr (b.addr + 1)
  visited : ∀ v, b.addr ≤ v → v < b.addr + b.size →
    walk s.machine.mem s.machine.cr3 v ≠ none →
    v / 4096 * 4096 ∈ rangeAddrs b.addr (b.addr + b.size - 1)


/-- An address is unmapped when the leaf entry of its page is zero. -/
theorem PageInv.walk_eq_none {k : Nat} {m : Machine} {sp : Space} (hp : PageInv k m noRes)
    (hr : RootInv k m) (hs : InSpace k m v sp) :
    walk m.mem m.cr3 v = none ↔ leaf m.mem k (sp, pageOf v) = 0 := by
  have hwalk := hp.walk_space hr hs
  constructor
  · intro h0
    by_contra hne
    rw [h0, if_neg hne] at hwalk
    cases hwalk
  · intro h0
    rw [if_pos h0] at hwalk
    exact Option.map_eq_none_iff.mp hwalk

/-- What is still mapped of a VMA that has been removed: the pages that were mapped before and
that the loop does not visit. -/
theorem VmInv.unmapped_iff {k : Nat} (hi : VmInv k s) (ha : s.active = some a)
    (hr : UserRange start stop) (hlo : start ≤ v) (hhi : v ≤ stop)
    {m : Machine} (hm : s.machine.unmapPhyaddrRange start stop = some m) :
    walk m.mem m.cr3 v = none ↔
      (walk s.machine.mem s.machine.cr3 v ≠ none → v / 4096 * 4096 ∈ rangeAddrs start stop) := by
  obtain ⟨halt, hroot⟩ := hi.active_root ha
  obtain ⟨m', hm', hkeeps, hleaf⟩ := unmapRange_spec hi.pages hi.rootInv halt hroot hr
  obtain rfl : m' = m := Option.some.inj (hm'.symm.trans hm)
  have hs : InSpace k s.machine v (spaceOf a v) := (hr.userAddr hlo hhi).inSpace halt hroot
  have hs' : InSpace k m' v (spaceOf a v) := by
    refine (hr.userAddr hlo hhi).inSpace halt ?_
    rw [hkeeps.roots a halt, hkeeps.cr3]
    exact hroot
  rw [hkeeps.pages.walk_eq_none hkeeps.rootInv hs', ne_eq,
    hi.pages.walk_eq_none hi.rootInv hs, show (spaceOf a v, pageOf v) = pageAt a v from rfl, hleaf]
  -- the loop visits the page when it visits its first address
  have hvisit : (∃ u ∈ rangeAddrs start stop, pageAt a v = pageAt a u) ↔
      v / 4096 * 4096 ∈ rangeAddrs start stop := by
    constructor
    · rintro ⟨u, hu, hp⟩
      obtain ⟨hal, -, hlow⟩ := mem_rangeAddrs hu
      have hlt := (hr.rangeAddrs hu).1.1
      have hcu : Canonical u := by
        unfold Canonical
        omega
      have heq := (hr.canonical hlo hhi).page_eq hcu (congrArg Prod.snd hp)
      rw [heq, Nat.div_mul_cancel (Nat.dvd_of_mod_eq_zero hal)]
      exact hu
    · intro hmem
      exact ⟨_, hmem, pageAt_congr pageOf_pageAddr.symm⟩
  rw [if_congr hvisit rfl rfl]
  by_cases hmem : v / 4096 * 4096 ∈ rangeAddrs start stop
  · simp [hmem]
  · simp [hmem]

/-- A list without a node. -/
theorem erase_split {xs pre post : List Nat} {x y : Nat} (hnodup : xs.Nodup)
    (hsplit : xs = pre ++ x :: post) (herase : pre ++ post = xs.erase y) : x = y := by
  by_contra hne
  have hx : x ∈ xs.erase y := (List.mem_erase_of_ne hne).mpr (by simp [hsplit])
  rw [← herase] at hx
  rw [hsplit, List.nodup_middle, List.nodup_cons] at hnodup
  exact hnodup.1 hx

theorem takeWhile_split {pre post : List Nat} {x : Nat} (hx : x ∉ pre) :
    (pre ++ x :: post).takeWhile (· ≠ x) = pre := by
  rw [List.takeWhile_append_of_pos]
  · simp
  · intro y hy
    rw [decide_eq_true_iff]
    rintro rfl
    exact hx hy

/-- `free` of a live block undoes its `malloc` exactly if the block is not too short, its VMA is
the first to cover it, and its mapped pages are visited. -/
theorem BlocksInv.free_iff {k : Nat} (hi : BlocksInv a lists h) (hv : VmInv k h.vm)
    (ha : h.vm.active = some a) (hb : b ∈ h.live) : FreeUndoes h.vm a b ↔ FreeFits h.vm a b := by
  have hnode := hi.node b hb
  have hsize := hi.size b hb
  have hnodup := hi.owned.family.nodup (some a)
  rcases hi.free_cases hb with ⟨hnone, hno⟩ | ⟨pre, x, post, u, hsplit, hfirst, hcov, howned,
    hspace, hbounds, hres⟩
  · -- no VMA covers the block, so its own does not either
    constructor
    · rintro ⟨t, ht, -⟩
      rw [ht] at hnone
      cases hnone
    · intro hfit
      have hsecond := hfit.second
      exfalso
      refine hno b.node hnode ⟨?_, ?_⟩
      · rw [(hi.area b hb).1]
      · rw [(hi.area b hb).2]
        omega
  · obtain ⟨halt, hroot⟩ := hv.active_root ha
    obtain ⟨m, hm, -⟩ := unmapRange_spec hv.pages hv.rootInv halt hroot (hv.range x)
    rw [hm] at hres
    have hlist : ({ u with machine := m } : VmState).vmaNodes a = pre ++ post := by
      have hnodes := howned.vmaNodes a
      rw [recycled, Function.update_of_ne (Option.some_ne_none a), Function.update_self] at hnodes
      exact hnodes
    have hxpre : x ∉ pre := by
      rw [hsplit, List.nodup_append] at hnodup
      exact fun hmem => hnodup.2.2 x hmem x List.mem_cons_self rfl
    constructor
    · rintro ⟨t, ht, hnodes, -, hpages⟩
      obtain rfl : _ = t := Option.some.inj (hres.symm.trans ht)
      rw [hlist, hi.vmaNodes] at hnodes
      obtain rfl := erase_split hnodup hsplit hnodes
      have hlast := hcov.2
      rw [(hi.area b hb).2] at hlast
      refine ⟨by omega, ?_, fun v hlo hhi => ?_⟩
      · rw [hi.vmaNodes, hsplit, takeWhile_split hxpre]
        exact hfirst
      · rw [(hi.area b hb).1, (hi.area b hb).2] at hm
        exact (hv.unmapped_iff ha (hi.range b hb) hlo (by omega) hm).mp (hpages v hlo hhi)
    · intro hfit
      have hsecond := hfit.second
      have hcovb : h.vm.Covers b.node b.addr (b.addr + 1) := by
        refine ⟨?_, ?_⟩
        · rw [(hi.area b hb).1]
        · rw [(hi.area b hb).2]
          omega
      -- the node of the block is neither before nor behind the one that is removed
      obtain rfl : x = b.node := by
        by_contra hne
        refine hfit.first x ?_ hcov
        rw [hi.vmaNodes, hsplit, List.takeWhile_append_of_pos]
        · apply List.mem_append_right
          rw [List.takeWhile_cons_of_pos (by simpa using hne)]
          exact List.mem_cons_self
        · intro y hy
          rw [decide_eq_true_iff]
          rintro rfl
          exact hfirst _ hy hcovb
      refine ⟨_, hres, ?_, ?_, fun v hlo hhi => ?_⟩
      · rw [hlist, hi.vmaNodes, hsplit, List.erase_append_right _ hxpre, List.erase_cons_head]
      · exact SameBounds.areas (fun p => hbounds p) _
      · rw [(hi.area b hb).1, (hi.area b hb).2] at hm
        exact (hv.unmapped_iff ha (hi.range b hb) hlo (by omega) hm).mpr (hfit.visited v hlo hhi)

/-- `free` removes exactly the VMA of the block and unmaps its pages exactly if the block has
two bytes, its VMA is the first to cover them, and its mapped pages are visited. When the
process started with its VMAs below the heap, the block has two bytes and its range is one the
loop handles, that is so. -/
theorem free_undoes (hr : HeapReach P a h) (hb : b ∈ h.live) (ha : h.vm.active = some a) :
    (FreeUndoes h.vm a b ↔ FreeFits h.vm a b) ∧
    ((∀ s, P s → s.BelowHeap a) → 2 ≤ b.size → LoopRange b.addr (b.addr + b.size - 1) →
      FreeUndoes h.vm a b) := by
  obtain ⟨k, hv⟩ := hr.vmReach.vmInv
  obtain ⟨lists, hi, hc⟩ := hr.blocks
  refine ⟨hi.free_iff hv ha hb, fun hP hsecond hloop => ?_⟩
  rw [hi.free_iff hv ha hb]
  refine ⟨hsecond, fun y hy hcov => ?_, fun v hlo hhi _ => ?_⟩
  · rw [hi.vmaNodes] at hy
    have hne : y ≠ b.node := by simpa using List.mem_takeWhile_imp hy
    obtain ⟨hstart, hstop⟩ := hcov
    rcases (hc hP).clear b hb y (List.takeWhile_subset _ hy) hne with hlt | hlt <;> omega
  · obtain ⟨-, hmem⟩ := (rangeAddrs_exact (by omega) (hi.range b hb).vend_lt).mpr hloop
    exact (hmem _).mpr ⟨Nat.mul_mod_left _ _, by omega, by omega⟩

/-! ### A program with one block -/

theorem VmState.Owned.kMmap_total (h : s.Owned lists) (a length : Nat) (hbin : s.vmaRecycleList = 0)
    (hva : s.kernVA + 24 < 2 ^ 64) (hlen : 1 ≤ length)
    (hover : (s.mm a).heapTop + length ≤ 2 ^ 64)
    (hr : UserRange (s.mm a).heapTop ((s.mm a).heapTop + length - 1)) :
    ∃ t, s.kMmap a length = some t ∧ t.active = s.active := by
  obtain ⟨p, u, t, -, halloc, happend, -, -, hspace, -⟩ :=
    (h.setMm (c := a) (f := fun m => { m with
      heapTop := pageBehind ((s.mm a).heapTop + length - 1) }) fun _ => rfl).add_total hbin hva a hr
  refine ⟨t, ?_, hspace.active⟩
  rw [VmState.kMmap]
  simp only [Option.bind_eq_bind, lastByte_eq hlen hover]
  rw [if_pos hr, pageBehind_eq hr, halloc]
  exact happend

/-- The first program has allocated `n` bytes. -/
theorem firstBlock (hn : 1 ≤ n) (hlt : n ≤ 4096) : ∃ h b, HeapReach (fun s => s.BelowHeap 0) 0 h ∧
    b ∈ h.live ∧ h.vm.active = some 0 ∧ b.addr = 0x401000 ∧ b.size = n := by
  obtain ⟨k, s, hreach, hs⟩ := firstSegment fun _ _ => 0
  have hbelow : s.BelowHeap 0 := by
    refine ⟨by rw [hs.heapTop], fun r hr => ?_⟩
    rw [hs.areas, List.mem_singleton] at hr
    rw [hr, hs.heapTop]
    exact Nat.lt_succ_self _
  obtain ⟨lists, howned⟩ := hreach.owned
  have hva := hs.kernVA
  obtain ⟨t, ht, hact⟩ := howned.kMmap_total 0 n hs.recycled (by omega) hn
    (by rw [hs.heapTop]; omega) (by rw [hs.heapTop]; exact .inl (by omega))
  have hinit : HeapReach (fun s => s.BelowHeap 0) 0 ⟨s, []⟩ := .init ⟨hreach, hbelow, rfl⟩
  refine ⟨_, _, .step (.malloc n) hinit ⟨hs.active, hn, ?_, _, t, ?_, rfl⟩,
    List.mem_cons_self, hact.trans hs.active, hs.heapTop, rfl⟩
  · rw [hs.heapTop]
    omega
  · rw [VmState.malloc, ht]
    rfl

/-- A block of 100 bytes. -/
theorem free_undoes_firstBlock : ∃ h b, HeapReach (fun s => s.BelowHeap 0) 0 h ∧ b ∈ h.live ∧
    b.size = 100 ∧ FreeUndoes h.vm 0 b := by
  obtain ⟨h, b, hr, hb, ha, haddr, hsize⟩ := firstBlock (n := 100) (by decide) (by decide)
  refine ⟨h, b, hr, hb, hsize, (free_undoes hr hb ha).2 (fun _ => id) ?_ ?_⟩
  · rw [hsize]
    decide
  · rw [hsize, haddr]
    exact ⟨by decide, by decide, Or.inl (by decide)⟩

/-- A block of one byte is not freed. -/
theorem free_oneByte : ∃ h b, HeapReach (fun s => s.BelowHeap 0) 0 h ∧ b ∈ h.live ∧
    h.vm.active = some 0 ∧ b.size = 1 ∧ ¬ FreeUndoes h.vm 0 b := by
  obtain ⟨h, b, hr, hb, ha, haddr, hsize⟩ := firstBlock (n := 1) (by decide) (by decide)
  obtain ⟨k, hv⟩ := hr.vmReach.vmInv
  obtain ⟨lists, hi, -⟩ := hr.blocks
  refine ⟨h, b, hr, hb, ha, hsize, fun hfree => ?_⟩
  have hsecond := ((hi.free_iff hv ha hb).mp hfree).second
  rw [hsize] at hsecond
  exact absurd hsecond (by decide)

end Sbunix
