import Mathlib.Data.List.Perm.Subperm
import Mathlib.Tactic.SplitIfs
import Sbunix.Sys.PhyMemManager

/-!
# The free list

The blocks on the free list, and what `get_page` and `free_page` do to them.
-/

namespace Sbunix

/-- The cells from `h` to the end mark 0, at most `n` of them. -/
def follow (next : Nat → Nat) : Nat → Nat → List Nat
  | 0, _ => []
  | n + 1, h => if h = 0 then [] else h :: follow next n (next h)

theorem follow_eq {next : Nat → Nat} {n h : Nat} {xs : List Nat} (hc : Chain next 0 h xs)
    (hn : xs.length ≤ n) : follow next n h = xs := by
  induction xs generalizing n h with
  | nil =>
      cases n with
      | zero => rfl
      | succ n =>
          unfold follow
          rw [if_pos (show h = 0 from hc)]
  | cons x xs ih =>
      obtain ⟨rfl, hne, hx⟩ := hc
      cases n with
      | zero => simp at hn
      | succ n =>
          unfold follow
          rw [if_neg hne, ih hx (by simpa using hn)]

/-- The blocks on the free list, front first. -/
def FreeList.blocks (fl : FreeList) : List Nat := follow fl.next listSize fl.headFreelist

/-- The frame of block `b`. -/
def FreeList.frame (fl : FreeList) (b : Nat) : Nat := fl.freeMemory / 4096 + b

theorem FreeList.frame_congr {fl fl' : FreeList} (h : fl'.freeMemory = fl.freeMemory) (b : Nat) :
    fl'.frame b = fl.frame b := by
  rw [FreeList.frame, FreeList.frame, h]

theorem FreeList.frame_inj {fl : FreeList} {b c : Nat} : fl.frame b = fl.frame c ↔ b = c :=
  Nat.add_left_cancel_iff

/-- A frame that is on the free list. -/
def FreeList.IsFree (fl : FreeList) (f : Nat) : Prop := ∃ b ∈ fl.blocks, f = fl.frame b

/-- The free list is a list of distinct unused blocks from 1 to `n - 1`, one longer than the
count. -/
structure Threaded (n : Nat) (fl : FreeList) : Prop where
  aligned : fl.freeMemory % 4096 = 0
  bound : fl.freeMemory / 4096 + listSize < 2 ^ 52
  chain : Chain fl.next 0 fl.headFreelist fl.blocks
  nodup : fl.blocks.Nodup
  length : fl.blocks.length = fl.totalblockcount + 1
  lt : ∀ b ∈ fl.blocks, b < n
  unused : ∀ b ∈ fl.blocks, fl.refCount b = 0

/-- A free list of blocks of `p_list`, above address 0. -/
structure FreeInv (fl : FreeList) : Prop extends Threaded listSize fl where
  low : 0 < fl.freeMemory / 4096

variable {fl fl' : FreeList} {b n paddr : Nat} {bs : List Nat}

namespace Threaded

/-- Distinct blocks from 1 to `n - 1` are at most `n - 1` many. -/
theorem length_le (hn : bs.Nodup) (hlt : ∀ b ∈ bs, b < n) (h0 : 0 ∉ bs) : bs.length ≤ n - 1 := by
  have hsub : bs ⊆ List.range' 1 (n - 1) := by
    intro b hb
    have hpos : b ≠ 0 := fun he => h0 (he ▸ hb)
    have := hlt b hb
    rw [List.mem_range'_1]
    omega
  simpa using (List.subperm_of_subset hn hsub).length_le

/-- A list of distinct blocks that `next` threads is the free list. -/
theorem of_chain (hsize : n ≤ listSize + 1) (ha : fl.freeMemory % 4096 = 0)
    (hbd : fl.freeMemory / 4096 + listSize < 2 ^ 52)
    (hc : Chain fl.next 0 fl.headFreelist bs) (hn : bs.Nodup)
    (hl : bs.length = fl.totalblockcount + 1) (hlt : ∀ b ∈ bs, b < n)
    (hu : ∀ b ∈ bs, fl.refCount b = 0) : Threaded n fl ∧ fl.blocks = bs := by
  have hlen := length_le hn hlt fun h0 => hc.ne_stop h0 rfl
  have heq : fl.blocks = bs := follow_eq hc (Nat.le_trans hlen (Nat.sub_le_of_le_add hsize))
  exact ⟨⟨ha, hbd, heq ▸ hc, heq ▸ hn, heq ▸ hl, heq ▸ hlt, heq ▸ hu⟩, heq⟩

theorem ne_zero (h : Threaded n fl) (hb : b ∈ fl.blocks) : b ≠ 0 := h.chain.ne_stop hb

/-- What has been handed out is missing from the count. -/
theorem total_eq {P : List Nat} (h : Threaded n fl) (h' : Threaded n fl')
    (hP : fl.blocks = P ++ fl'.blocks) :
    fl.totalblockcount = P.length + fl'.totalblockcount := by
  have hlen := congrArg List.length hP
  rw [List.length_append, h.length, h'.length] at hlen
  omega

/-- `get_page` hands out the front block with count 1. -/
theorem getPage (h : Threaded n fl) (hsize : n ≤ listSize + 1)
    (hg : fl.getPage = some (paddr, fl')) :
    ∃ b bs, fl.blocks = b :: bs ∧ paddr = fl.frame b * 4096 ∧ 5 ≤ bs.length ∧ Threaded n fl' ∧
      fl'.blocks = bs ∧ fl'.freeMemory = fl.freeMemory ∧
      fl'.refCount = Function.update fl.refCount b 1 := by
  obtain ⟨b, bs, hbs⟩ : ∃ b bs, fl.blocks = b :: bs := by
    cases hb : fl.blocks with
    | nil =>
        have := h.length
        rw [hb] at this
        simp at this
    | cons b bs => exact ⟨b, bs, rfl⟩
  have hchain := h.chain
  have hnodup := h.nodup
  have hlen := h.length
  rw [hbs] at hchain hnodup hlen
  obtain ⟨hhead, hne, hrest⟩ := hchain
  rw [List.nodup_cons] at hnodup
  have hfull : ¬ fl.totalblockcount < 5 := by
    intro hlow
    simp [FreeList.getPage, hlow] at hg
  unfold FreeList.getPage at hg
  rw [if_neg hfull, if_neg (by rw [hhead]; exact hne)] at hg
  simp only [Option.some.injEq, Prod.mk.injEq] at hg
  obtain ⟨hp, hfl⟩ := hg
  have hblt := h.lt b (by simp [hbs])
  have hzero := h.unused b (by simp [hbs])
  have hal := h.aligned
  have hbd := h.bound
  rw [List.length_cons] at hlen
  have hbs' : ∀ c ∈ bs, c ∈ fl.blocks ∧ c ≠ b := by
    intro c hc
    refine ⟨by simp [hbs, hc], ?_⟩
    rintro rfl
    exact hnodup.1 hc
  have hnew : Threaded n fl' ∧ fl'.blocks = bs := by
    subst hfl
    refine of_chain hsize hal hbd ?_ hnodup.2 ?_ ?_ ?_
    · show Chain fl.next 0 (fl.next fl.headFreelist) bs
      rw [hhead]
      exact hrest
    · show bs.length = fl.totalblockcount - 1 + 1
      omega
    · exact fun c hc => h.lt c (hbs' c hc).1
    · intro c hc
      show Function.update fl.refCount fl.headFreelist (fl.refCount fl.headFreelist + 1) c = 0
      rw [hhead, Function.update_of_ne (hbs' c hc).2]
      exact h.unused c (hbs' c hc).1
  refine ⟨b, bs, hbs, ?_, by omega, hnew.1, hnew.2, ?_, ?_⟩
  · have hfm : fl.freeMemory / 4096 * 4096 = fl.freeMemory := Nat.div_mul_cancel (by omega)
    have hb : b ≤ listSize := by omega
    have hfit : (fl.freeMemory / 4096 + b) * 4096 < 2 ^ 64 :=
      calc (fl.freeMemory / 4096 + b) * 4096
          ≤ (fl.freeMemory / 4096 + listSize) * 4096 :=
            Nat.mul_le_mul_right 4096 (Nat.add_le_add_left hb _)
        _ < 2 ^ 52 * 4096 := Nat.mul_lt_mul_of_pos_right hbd (by decide)
        _ = 2 ^ 64 := by decide
    rw [← hp, hhead, FreeList.frame, ← Nat.mod_eq_of_lt hfit, Nat.add_mul, hfm]
  · rw [← hfl]
  · rw [← hfl]
    show Function.update fl.refCount fl.headFreelist (fl.refCount fl.headFreelist + 1) = _
    rw [hhead, hzero]

/-- What is free after the front block has been handed out. -/
theorem isFree_tail {f : Nat} (h : Threaded n fl) (hb : fl.blocks = b :: bs) (hbs : fl'.blocks = bs)
    (hfm : fl'.freeMemory = fl.freeMemory) (hf : fl'.IsFree f) : fl.IsFree f ∧ f ≠ fl.frame b := by
  obtain ⟨c, hc, rfl⟩ := hf
  have hfr : fl'.frame c = fl.frame c := FreeList.frame_congr hfm c
  have hnodup := h.nodup
  rw [hbs] at hc
  rw [hb, List.nodup_cons] at hnodup
  refine ⟨⟨c, by simp [hb, hc], hfr⟩, ?_⟩
  rw [hfr]
  intro he
  exact hnodup.1 (FreeList.frame_inj.mp he ▸ hc)

/-- Counts of blocks that are not free may change. -/
theorem setCount {c : Nat} (h : Threaded n fl) (hsize : n ≤ listSize + 1) (hb : b ∉ fl.blocks) :
    Threaded n { fl with refCount := Function.update fl.refCount b c } ∧
      ({ fl with refCount := Function.update fl.refCount b c } : FreeList).blocks = fl.blocks := by
  refine of_chain hsize h.aligned h.bound h.chain h.nodup h.length h.lt ?_
  intro d hd
  show Function.update fl.refCount b c d = 0
  have hne : d ≠ b := by
    rintro rfl
    exact hb hd
  rw [Function.update_of_ne hne]
  exact h.unused d hd

/-- Freeing a block and dropping its count to 0 puts it in front. -/
theorem push (h : Threaded n fl) (hsize : n ≤ listSize + 1) (hb : b ∉ fl.blocks) (hlt : b < n)
    (h0 : b ≠ 0) :
    let fl' := { fl with
      next := Function.update fl.next b fl.headFreelist, headFreelist := b,
      totalblockcount := fl.totalblockcount + 1,
      refCount := Function.update fl.refCount b 0 }
    Threaded n fl' ∧ fl'.blocks = b :: fl.blocks := by
  refine of_chain hsize h.aligned h.bound (h.chain.push hb h0) ?_ ?_ ?_ ?_
  · exact List.nodup_cons.mpr ⟨hb, h.nodup⟩
  · show (b :: fl.blocks).length = fl.totalblockcount + 1 + 1
    rw [List.length_cons, h.length]
  · intro d hd
    rcases List.mem_cons.mp hd with rfl | hd
    · exact hlt
    · exact h.lt d hd
  · intro d hd
    show Function.update fl.refCount b 0 d = 0
    by_cases hdb : d = b
    · rw [hdb, Function.update_self]
    · rw [Function.update_of_ne hdb]
      exact h.unused d ((List.mem_cons.mp hd).resolve_left hdb)

end Threaded

/-- `get_page` keeps a reserve. -/
theorem FreeList.getPage_total (h : 5 ≤ fl.totalblockcount) : ∃ r, fl.getPage = some r := by
  rw [FreeList.getPage, if_neg (by omega)]
  exact ⟨_, rfl⟩

theorem FreeList.blockindex_eq (hb : b < listSize) (hp : paddr / 4096 = fl.frame b) :
    fl.blockindex paddr = some b := by
  unfold FreeList.blockindex
  rw [hp, FreeList.frame, if_pos ⟨Nat.le_add_right _ _, by omega⟩, Nat.add_sub_cancel_left]

theorem FreeList.frame_of_blockindex (h : fl.blockindex paddr = some b) :
    paddr / 4096 = fl.frame b := by
  unfold FreeList.blockindex at h
  split_ifs at h with hin
  rw [← Option.some.inj h, FreeList.frame, Nat.add_sub_cancel' hin.1]

namespace FreeInv

theorem getPage (h : FreeInv fl) (hg : fl.getPage = some (paddr, fl')) :
    ∃ b bs, fl.blocks = b :: bs ∧ paddr = fl.frame b * 4096 ∧ FreeInv fl' ∧
      fl'.blocks = bs ∧ fl'.freeMemory = fl.freeMemory ∧
      fl'.refCount = Function.update fl.refCount b 1 := by
  obtain ⟨b, bs, hb, hp, -, ht, hbs, hfm, hrc⟩ := h.toThreaded.getPage (Nat.le_succ _) hg
  exact ⟨b, bs, hb, hp, ⟨ht, hfm ▸ h.low⟩, hbs, hfm, hrc⟩

theorem frame_lt (h : FreeInv fl) (hb : b < listSize) : fl.frame b < 2 ^ 52 :=
  Nat.lt_trans (Nat.add_lt_add_left hb _) h.bound

theorem setCount {c : Nat} (h : FreeInv fl) (hb : b ∉ fl.blocks) :
    FreeInv { fl with refCount := Function.update fl.refCount b c } ∧
      ({ fl with refCount := Function.update fl.refCount b c } : FreeList).blocks = fl.blocks := by
  obtain ⟨ht, hblocks⟩ := h.toThreaded.setCount (c := c) (Nat.le_succ _) hb
  exact ⟨⟨ht, h.low⟩, hblocks⟩

theorem push (h : FreeInv fl) (hb : b ∉ fl.blocks) (hlt : b < listSize) (h0 : b ≠ 0) :
    let fl' := { fl with
      next := Function.update fl.next b fl.headFreelist, headFreelist := b,
      totalblockcount := fl.totalblockcount + 1,
      refCount := Function.update fl.refCount b 0 }
    FreeInv fl' ∧ fl'.blocks = b :: fl.blocks := by
  obtain ⟨ht, hblocks⟩ := h.toThreaded.push (Nat.le_succ _) hb hlt h0
  exact ⟨⟨ht, h.low⟩, hblocks⟩

end FreeInv

end Sbunix
