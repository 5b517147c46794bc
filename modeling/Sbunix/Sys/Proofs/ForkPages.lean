import Sbunix.Sys.Proofs.UserPages

/-!
# Sharing the pages of a VMA at fork

The two byte loops of `copy_vma`. The first raises the count of each mapped frame, which
sets the frame aside for the page of the child; the second maps it there.
-/

namespace Sbunix

variable {k : Nat} {m m' : Machine} {res : Page → Option Nat} {a c n v v₀ marked : Nat}

/-- The addresses below `v` have been dealt with: their frames are claimed for slot `c`. -/
def Claimed (lf : Page → Nat) (res : Page → Option Nat) (a c v₀ v : Nat) : Prop :=
  ∀ u, v₀ ≤ u → u < v → lf (pageAt a u) ≠ 0 →
    claims lf res (pageAt c u) = some (lf (pageAt a u) / 4096)

/-- What the child has mapped so far are pages of the parent. -/
def ChildOf (lf : Page → Nat) (a c : Nat) : Prop :=
  ∀ q, lf (some c, q) ≠ 0 → lf (some a, q) ≠ 0 ∧ lf (some c, q) / 4096 = lf (some a, q) / 4096

theorem ChildOf.at_page {lf : Page → Nat} (h : ChildOf lf a c) (hu : lf (pageAt c v) ≠ 0) :
    lf (pageAt a v) ≠ 0 ∧ lf (pageAt c v) / 4096 = lf (pageAt a v) / 4096 := by
  unfold pageAt spaceOf at *
  split_ifs at * with hv
  · exact ⟨hu, rfl⟩
  · exact h _ hu

/-- The byte loop is at `v`: `marked` is the frame of a page it has passed, if it has passed
a mapped one, and of the page of `v` if it has been there. -/
structure Marks (lf : Page → Nat) (a v₀ v marked : Nat) : Prop where
  passed : marked = 0 ∨
    ∃ u, v₀ ≤ u ∧ u < v ∧ lf (pageAt a u) ≠ 0 ∧ marked = lf (pageAt a u) / 4096 * 4096
  here : ∀ u, v₀ ≤ u → u < v → u / 4096 = v / 4096 → lf (pageAt a u) ≠ 0 →
    marked = lf (pageAt a u) / 4096 * 4096

theorem Marks.start {lf : Page → Nat} : Marks lf a v v 0 :=
  ⟨.inl rfl, fun _ hu hlt => absurd hlt (Nat.not_lt.mpr hu)⟩

/-- After the step at `v`, whether it did something or not. -/
theorem Marks.next {lf : Page → Nat} (h : Marks lf a v₀ v marked) (hv : v₀ ≤ v)
    {marked' : Nat} (hmapped : lf (pageAt a v) ≠ 0 → marked' = lf (pageAt a v) / 4096 * 4096)
    (hunmapped : lf (pageAt a v) = 0 → marked' = marked) : Marks lf a v₀ (v + 1) marked' := by
  have hsame : ∀ u, u / 4096 = v / 4096 → pageAt a u = pageAt a v := by
    intro u hu
    refine pageAt_congr ?_
    unfold pageOf
    rw [hu]
  by_cases h0 : lf (pageAt a v) = 0
  · rw [hunmapped h0]
    refine ⟨?_, fun u hu hlt hpage hl => ?_⟩
    · exact h.passed.imp id fun ⟨u, hu, hlt, hl⟩ => ⟨u, hu, by omega, hl⟩
    · rw [hsame u (by omega)] at hl
      exact absurd h0 hl
  · rw [hmapped h0]
    refine ⟨.inr ⟨v, hv, Nat.lt_succ_self v, h0, rfl⟩, fun u hu hlt hpage hl => ?_⟩
    rw [hsame u (by omega)]

/-- Some page below `v` has the frame `f`. -/
def Covers (lf : Page → Nat) (a v₀ v f : Nat) : Prop :=
  ∃ u, v₀ ≤ u ∧ u < v ∧ lf (pageAt a u) ≠ 0 ∧ lf (pageAt a u) / 4096 = f

/-- Each frame of a page below `v` has been counted once, on top of `cnt`. -/
def Counts (lf : Page → Nat) (fl : FreeList) (cnt : Nat → Nat) (a v₀ v : Nat) : Prop :=
  ∀ b < listSize, (Covers lf a v₀ v (fl.frame b) → fl.refCount b = cnt b + 1) ∧
    (¬ Covers lf a v₀ v (fl.frame b) → fl.refCount b = cnt b)

theorem Covers.succ {lf : Page → Nat} {f : Nat} (hv : v₀ ≤ v) : Covers lf a v₀ (v + 1) f ↔
    Covers lf a v₀ v f ∨ lf (pageAt a v) ≠ 0 ∧ lf (pageAt a v) / 4096 = f := by
  constructor
  · rintro ⟨u, hu, hlt, hl⟩
    by_cases huv : u = v
    · exact .inr (huv ▸ hl)
    · exact .inl ⟨u, hu, by omega, hl⟩
  · rintro (⟨u, hu, hlt, hl⟩ | hl)
    · exact ⟨u, hu, by omega, hl⟩
    · exact ⟨v, hv, Nat.lt_succ_self v, hl⟩

/-- The addresses of a VMA: user addresses in one half of the canonical ones. -/
def UserSpan (v₀ v : Nat) : Prop := ∀ u, v₀ ≤ u → u < v → UserAddr u ∧ u / 2 ^ 48 = v₀ / 2 ^ 48

theorem UserSpan.page_eq (h : UserSpan v₀ n) {u : Nat} (hu : v₀ ≤ u ∧ u < n) (hv : v₀ ≤ v ∧ v < n)
    (hp : pageOf u = pageOf v) : u / 4096 = v / 4096 := by
  have h1 := (h u hu.1 hu.2).2
  have h2 := (h v hv.1 hv.2).2
  unfold pageOf at hp
  omega

section Increment

variable {b : Nat}

/-- One step of `increment_childpg_ref` that counts. -/
theorem reserve_spec (hinv : PageInv k m res) (hr : RootInv k m)
    (hb : b < listSize) (h0 : leaf m.mem k (pageAt a v) ≠ 0)
    (hfr : leaf m.mem k (pageAt a v) / 4096 = m.fl.frame b) :
    let m' := { m with fl := { m.fl with
      refCount := Function.update m.fl.refCount b (m.fl.refCount b + 1) } }
    PageInv k m' (Function.update res (pageAt c v) (some (m.fl.frame b))) ∧ RootInv k m' ∧
      m'.fl.blocks = m.fl.blocks := by
  have hnb : b ∉ m.fl.blocks := fun hmem => hinv.leaves.not_free hinv.free h0 ⟨b, hmem, hfr⟩
  obtain ⟨hfree, hblocks⟩ := hinv.free.setCount (c := m.fl.refCount b + 1) hnb
  have hisfree : ∀ f, ({ m.fl with
      refCount := Function.update m.fl.refCount b (m.fl.refCount b + 1) } : FreeList).IsFree f →
      m.fl.IsFree f := by
    rintro f ⟨x, hx, rfl⟩
    exact ⟨x, hblocks ▸ hx, rfl⟩
  refine ⟨⟨hfree, ?_, ?_⟩, ?_, hblocks⟩
  · exact hinv.tables.refree fun f hf hfr => hinv.tables.notFree f hf (hisfree f hfr)
  · exact hinv.leaves.reserve hb rfl rfl
  · exact hr.congr rfl (fun _ _ => rfl) (fun _ _ => rfl) fun hf => hr.notFree (hisfree _ hf)

/-- A frame set aside at `v` keeps the claims of the addresses before. -/
theorem Claimed.reserve {lf : Page → Nat} {f : Nat} (h : Claimed lf res a c v₀ v)
    (hchild : ChildOf lf a c) (h0 : lf (pageAt a v) ≠ 0) (hf : lf (pageAt a v) / 4096 = f) :
    Claimed lf (Function.update res (pageAt c v) (some f)) a c v₀ (v + 1) := by
  intro u hu hlt hl
  by_cases hp : pageOf u = pageOf v
  · rw [pageAt_congr hp, pageAt_congr hp, hf]
    by_cases hc0 : lf (pageAt c v) = 0
    · rw [claims_reserve hc0, Function.update_self]
    · rw [claims_of_leaf hc0, (hchild.at_page hc0).2, hf]
  · have hne : pageAt c u ≠ pageAt c v := fun he => hp (congrArg Prod.snd he)
    have huv : u ≠ v := by
      rintro rfl
      exact hp rfl
    have hold := h u hu (by omega) hl
    unfold claims at hold ⊢
    rw [Function.update_of_ne hne]
    exact hold

/-- The loop of `increment_childpg_ref`. Only counts change: by one for each mapped frame. -/
theorem incrementFrom_spec {N : Nat → Nat} (hinv : PageInv k m res) (hr : RootInv k m)
    (ha : a < procSize) (hroot : root m.mem k (some a) = some (m.cr3 / 4096))
    (hchild : ChildOf (leaf m.mem k) a c) (hspan : UserSpan v₀ (v + n)) (hv : v₀ ≤ v)
    (hclaimed : Claimed (leaf m.mem k) res a c v₀ v) (hmarks : Marks (leaf m.mem k) a v₀ v marked)
    (hcnt : Counts (leaf m.mem k) m.fl N a v₀ v)
    (h : VmState.incrementFrom n v marked m = some m') :
    ∃ res', PageInv k m' res' ∧ RootInv k m' ∧ m'.mem = m.mem ∧ m'.cr3 = m.cr3 ∧
      m'.fl.freeMemory = m.fl.freeMemory ∧ m'.fl.blocks = m.fl.blocks ∧
      Claimed (leaf m.mem k) res' a c v₀ (v + n) ∧
      Counts (leaf m.mem k) m'.fl N a v₀ (v + n) := by
  induction n generalizing m res v marked with
  | zero =>
      obtain rfl : m = m' := Option.some.inj h
      exact ⟨res, hinv, hr, rfl, rfl, rfl, rfl, hclaimed, hcnt⟩
  | succ n ih =>
      have huser := (hspan v hv (by omega)).1
      have hs := huser.inSpace ha hroot
      have hsum : v + (n + 1) = v + 1 + n := by omega
      rw [hsum] at hspan ⊢
      rw [VmState.incrementFrom, Machine.getPhysAddr_eq hinv.tables hr hs] at h
      have hpage : (spaceOf a v, pageOf v) = pageAt a v := rfl
      rw [hpage, Option.bind_eq_bind, Option.bind_some] at h
      by_cases h0 : leaf m.mem k (pageAt a v) = 0
      · -- nothing is mapped here
        simp only [h0, Nat.zero_and, ne_eq, not_true, false_and, if_false] at h
        refine ih hinv hr hroot hchild hspan (by omega) ?_
          (hmarks.next hv (fun hne => absurd h0 hne) fun _ => rfl) ?_ h
        · intro u hu hlt hl
          refine hclaimed u hu ?_ hl
          by_contra hge
          rw [show u = v by omega] at hl
          exact hl h0
        · intro b hb
          rw [Covers.succ hv, or_iff_left fun hl => hl.1 h0]
          exact hcnt b hb
      · obtain ⟨b, hb, hb0, hfr⟩ := hinv.leaves.owned (pageAt a v) huser.userPage.managed h0
        have hlt52 : m.fl.frame b < 2 ^ 52 := hinv.free.frame_lt hb
        have hlow := hinv.free.low
        have hw : leaf m.mem k (pageAt a v) < 2 ^ 64 := by omega
        have hpos : m.fl.frame b * 4096 ≠ 0 := by
          simp only [FreeList.frame]
          omega
        -- the same frame is only ever the same page
        have hhome : ∀ u, leaf m.mem k (pageAt a u) ≠ 0 →
            leaf m.mem k (pageAt a u) / 4096 = m.fl.frame b → pageOf u = pageOf v := by
          intro u hu hf
          exact hinv.leaves.home _ _ hu h0 (hf.trans hfr.symm) (hf ▸ FreeList.frame_mono)
        have hmask : leaf m.mem k (pageAt a v) &&& 0xFFFFFFFFFFFFF000 = m.fl.frame b * 4096 := by
          rw [and_pageMask hw, hfr]
        simp only [hmask, ne_eq, hpos, not_false_eq_true, true_and] at h
        have hnext : Marks (leaf m.mem k) a v₀ (v + 1) (m.fl.frame b * 4096) :=
          hmarks.next hv (fun _ => by rw [hfr]) fun hz => absurd hz h0
        by_cases hm : m.fl.frame b * 4096 = marked
        · -- the page has been counted
          rw [if_neg (by simpa using hm)] at h
          obtain ⟨u, hu, hlt, hl, hmu⟩ := hmarks.passed.resolve_left (fun hz => hpos (hm.trans hz))
          have hfu : leaf m.mem k (pageAt a u) / 4096 = m.fl.frame b := by omega
          have hpu := hhome u hl hfu
          refine ih hinv hr hroot hchild hspan (by omega) ?_ (hm ▸ hnext) ?_ h
          · intro x hx hxlt hxl
            by_cases hxv : x = v
            · have hold := hclaimed u hu hlt hl
              rw [hxv, ← pageAt_congr hpu, ← pageAt_congr hpu]
              exact hold
            · exact hclaimed x hx (by omega) hxl
          · intro d hd
            rw [Covers.succ hv, or_iff_left_of_imp]
            · exact hcnt d hd
            · rintro ⟨-, hl'⟩
              exact ⟨u, hu, hlt, hl, by rw [hfu, ← hfr, hl']⟩
        · rw [if_pos hm] at h
          have hidx : m.fl.blockindex (m.fl.frame b * 4096) = some b :=
            FreeList.blockindex_eq hb (Nat.mul_div_cancel _ (by decide))
          rw [FreeList.incrementReferenceCount, hidx, Option.map_some, Option.bind_eq_bind,
            Option.bind_some] at h
          obtain ⟨hinv', hr', hblocks'⟩ := reserve_spec (c := c) hinv hr hb h0 hfr
          have hnew : ¬ Covers (leaf m.mem k) a v₀ v (m.fl.frame b) := by
            rintro ⟨u, hu, hlt, hl, hf⟩
            have hdiv := hspan.page_eq ⟨hu, by omega⟩ ⟨hv, by omega⟩ (hhome u hl hf)
            have := hmarks.here u hu hlt hdiv hl
            rw [hf] at this
            exact hm this.symm
          have hcnt' : Counts (leaf m.mem k) { m.fl with
              refCount := Function.update m.fl.refCount b (m.fl.refCount b + 1) } N a v₀ (v + 1) := by
            intro d hd
            show (Covers _ a v₀ (v + 1) (m.fl.frame d) → Function.update m.fl.refCount b _ d = _) ∧
              (¬ Covers _ a v₀ (v + 1) (m.fl.frame d) → Function.update m.fl.refCount b _ d = _)
            rw [Covers.succ hv]
            by_cases hdb : d = b
            · rw [hdb, Function.update_self, (hcnt b hb).2 hnew]
              exact ⟨fun _ => rfl, fun hn => absurd (.inr ⟨h0, hfr⟩) hn⟩
            · rw [Function.update_of_ne hdb, or_iff_left]
              · exact hcnt d hd
              · rintro ⟨-, hl⟩
                exact hdb (FreeList.frame_inj.mp (hfr.symm.trans hl)).symm
          obtain ⟨res', hi, hrr, hmem, hcr3, hfm, hbl, hcl, hct⟩ := ih hinv' hr' hroot hchild hspan
            (by omega) (hclaimed.reserve hchild h0 hfr) hnext hcnt' h
          exact ⟨res', hi, hrr, hmem, hcr3, hfm, hbl.trans hblocks', hcl, hct⟩

end Increment

/-- `m'` is `m` after the blocks `P` have become page tables; leaf entries may differ. -/
structure Alloc (k : Nat) (m m' : Machine) (P : List Nat) : Prop where
  blocks : m.fl.blocks = P ++ m'.fl.blocks
  freeMemory : m'.fl.freeMemory = m.fl.freeMemory
  refs : ∀ b, b ∉ P → m'.fl.refCount b = m.fl.refCount b
  isTable : ∀ f, IsTable m.mem k f → IsTable m'.mem k f
  fresh : ∀ f, IsTable m'.mem k f → IsTable m.mem k f ∨ ∃ b ∈ P, f = m.fl.frame b
  frames : ∀ f, ¬ IsTable m'.mem k f → m'.mem f = m.mem f

namespace Alloc

variable {m'' : Machine} {P Q : List Nat}

theorem refl : Alloc k m m [] :=
  ⟨rfl, rfl, fun _ _ => rfl, fun _ hf => hf, fun _ hf => .inl hf, fun _ _ => rfl⟩

theorem frame_eq (h : Alloc k m m' P) (b : Nat) : m'.fl.frame b = m.fl.frame b :=
  FreeList.frame_congr h.freeMemory b

theorem trans (h : Alloc k m m' P) (h' : Alloc k m' m'' Q) : Alloc k m m'' (P ++ Q) := by
  refine ⟨?_, h'.freeMemory.trans h.freeMemory, ?_, fun f hf => h'.isTable f (h.isTable f hf), ?_, ?_⟩
  · rw [h.blocks, h'.blocks, List.append_assoc]
  · intro b hb
    rw [List.mem_append, not_or] at hb
    rw [h'.refs b hb.2, h.refs b hb.1]
  · intro f hf
    rcases h'.fresh f hf with ht | ⟨b, hb, rfl⟩
    · rcases h.fresh f ht with ht | ⟨b, hb, rfl⟩
      · exact .inl ht
      · exact .inr ⟨b, List.mem_append_left Q hb, rfl⟩
    · exact .inr ⟨b, List.mem_append_right P hb, by rw [h.frame_eq]⟩
  · intro f hf
    rw [h'.frames f hf, h.frames f fun ht => hf (h'.isTable f ht)]

end Alloc

/-- `lf'` is `lf` with the pages from `v₀` to `v` shared with slot `c`. -/
structure SharedTo (lf lf' : Page → Nat) (a c v₀ v : Nat) : Prop where
  shared : ∀ u, v₀ ≤ u → u < v → lf (pageAt a u) ≠ 0 →
    lf' (pageAt c u) = lf (pageAt a u) / 4096 * 4096 + 5
  other : ∀ p, (∀ u, v₀ ≤ u → u < v → p = pageAt c u → lf (pageAt a u) = 0) → lf' p = lf p

theorem SharedTo.start {lf : Page → Nat} : SharedTo lf lf a c v v :=
  ⟨fun _ hu hlt => absurd hlt (Nat.not_lt.mpr hu), fun _ _ => rfl⟩

/-- The parent keeps its frames. -/
theorem SharedTo.parent {lf lf' : Page → Nat} {u : Nat} (h : SharedTo lf lf' a c v₀ v) :
    lf' (pageAt a u) / 4096 = lf (pageAt a u) / 4096 ∧
      (lf' (pageAt a u) = 0 ↔ lf (pageAt a u) = 0) := by
  by_cases hall : ∀ x, v₀ ≤ x → x < v → pageAt a u = pageAt c x → lf (pageAt a x) = 0
  · rw [h.other _ hall]
    exact ⟨rfl, Iff.rfl⟩
  · simp only [not_forall] at hall
    obtain ⟨x, hx, hlt, hp, hl⟩ := hall
    have hpx : pageOf u = pageOf x := congrArg Prod.snd hp
    rw [hp, h.shared x hx hlt hl, ← hp, ← pageAt_congr hpx, entry_div (by decide)]
    rw [pageAt_congr hpx]
    exact ⟨rfl, fun h0 => absurd h0 (by omega), fun h0 => absurd h0 hl⟩

/-- One page more: the entry of `v` has been shared, or has been there before. -/
theorem SharedTo.step {lf lf' lf'' : Page → Nat} (h : SharedTo lf lf' a c v₀ v) (hv : v₀ ≤ v)
    (h0 : lf (pageAt a v) ≠ 0) (hnew : lf'' (pageAt c v) = lf (pageAt a v) / 4096 * 4096 + 5)
    (hother : ∀ p, p ≠ pageAt c v → lf'' p = lf' p) : SharedTo lf lf'' a c v₀ (v + 1) := by
  refine ⟨fun u hu hlt hl => ?_, fun p hp => ?_⟩
  · by_cases hpage : pageOf u = pageOf v
    · rw [pageAt_congr hpage, hnew, pageAt_congr hpage]
    · have hne : pageAt c u ≠ pageAt c v := fun he => hpage (congrArg Prod.snd he)
      have huv : u ≠ v := fun he => hpage (congrArg pageOf he)
      rw [hother _ hne]
      exact h.shared u hu (by omega) hl
  · have hne : p ≠ pageAt c v := fun he => h0 (hp v hv (Nat.lt_succ_self v) he)
    rw [hother p hne]
    exact h.other p fun u hu hlt => hp u hu (by omega)

/-- Nothing to do at `v`. -/
theorem SharedTo.skip {lf lf' : Page → Nat} (h : SharedTo lf lf' a c v₀ v)
    (h0 : lf (pageAt a v) ≠ 0 → lf' (pageAt c v) = lf (pageAt a v) / 4096 * 4096 + 5) :
    SharedTo lf lf' a c v₀ (v + 1) := by
  refine ⟨fun u hu hlt hl => ?_, fun p hp => h.other p fun u hu hlt => hp u hu (by omega)⟩
  by_cases huv : u = v
  · rw [huv] at hl ⊢
    exact h0 hl
  · exact h.shared u hu (by omega) hl

/-- The PML4s of two slots. -/
structure Slots (k : Nat) (m : Machine) (a c ga gc : Nat) : Prop where
  ne : a ≠ c
  lt : a < procSize ∧ c < procSize
  parent : root m.mem k (some a) = some ga
  child : root m.mem k (some c) = some gc

section Share

variable {ga gc : Nat} {lf : Page → Nat}

/-- What holds between two turns of the second loop of `copy_vma`. -/
structure Sharing (k : Nat) (m : Machine) (res : Page → Option Nat) (lf : Page → Nat)
    (a c v₀ v v₁ marked : Nat) : Prop where
  pages : PageInv k m res
  done : SharedTo lf (leaf m.mem k) a c v₀ v
  childOf : ChildOf (leaf m.mem k) a c
  claimed : Claimed (leaf m.mem k) res a c v₀ v₁
  marked : marked = 0 ∨
    ∃ u, v₀ ≤ u ∧ u < v ∧ lf (pageAt a u) ≠ 0 ∧ marked / 4096 = lf (pageAt a u) / 4096

/-- Writing a frame to the page that claims it keeps the claims. -/
theorem claims_share {lf : Page → Nat} {p : Page} {w f : Nat} (hw : w = f * 4096 + 5)
    (h : claims lf res p = some f) : claims (Function.update lf p w) res = claims lf res := by
  have hne : w ≠ 0 := by omega
  have hdiv : w / 4096 = f := by
    rw [hw]
    exact entry_div (by decide)
  rw [claims_update, if_neg hne, hdiv, ← h, Function.update_eq_self]

theorem ChildOf.share {lf : Page → Nat} {w : Nat} (h : ChildOf lf a c) (hac : a ≠ c)
    (hw : lf (pageAt a v) = w) (h0 : w ≠ 0) :
    ChildOf (Function.update lf (pageAt c v) (w / 4096 * 4096 + 5)) a c := by
  have hne : ∀ q, ((some a, q) : Page) ≠ pageAt c v := by
    intro q he
    have hs : some a = spaceOf c v := congrArg Prod.fst he
    unfold spaceOf at hs
    split_ifs at hs
    exact hac (Option.some.inj hs)
  intro q hq
  rw [Function.update_of_ne (hne q)]
  by_cases he : ((some c, q) : Page) = pageAt c v
  · have hs : some c = spaceOf c v := congrArg Prod.fst he
    have hp : pageAt a v = (some a, q) := by
      unfold pageAt spaceOf at *
      split_ifs at *
      exact Prod.ext rfl (congrArg Prod.snd he).symm
    rw [he, Function.update_self, ← hp, hw, entry_div (by decide)]
    exact ⟨h0, rfl⟩
  · rw [Function.update_of_ne he] at hq ⊢
    exact h q hq

theorem Claimed.share {lf : Page → Nat} {w v₁ : Nat} (h : Claimed lf res a c v₀ v₁)
    (hclaim : claims lf res (pageAt c v) = some (w / 4096)) :
    Claimed (Function.update lf (pageAt c v) (w / 4096 * 4096 + 5)) res a c v₀ v₁ := by
  intro u hu hlt hl
  rw [claims_share rfl hclaim]
  by_cases hp : pageAt a u = pageAt c v
  · have hpage : pageOf u = pageOf v := congrArg Prod.snd hp
    rw [hp, Function.update_self, entry_div (by decide), pageAt_congr hpage, hclaim]
  · rw [Function.update_of_ne hp] at hl ⊢
    exact h u hu hlt hl

/-- A turn of the second loop that shares the page of `v`. -/
theorem Sharing.share {w v₁ : Nat} (h : Sharing k m res lf a c v₀ v v₁ marked)
    (hslots : Slots k m a c ga gc) (hv : v₀ ≤ v) (hv₁ : v < v₁) (huser : UserAddr v)
    (hw : leaf m.mem k (pageAt a v) = w) (h0 : w ≠ 0)
    (hset : ({ m with cr3 := gc * 4096 } : Machine).setCow v w = some m') :
    Sharing k { m' with cr3 := ga * 4096 } res lf a c v₀ (v + 1) v₁ w ∧
      Slots k { m' with cr3 := ga * 4096 } a c ga gc ∧
      (∃ P, Alloc k m m' P) ∧
      ∀ d < procSize, root m'.mem k (some d) = root m.mem k (some d) := by
  have hgc : gc * 4096 / 4096 = gc := Nat.mul_div_cancel _ (by decide)
  have hga : ga * 4096 / 4096 = ga := Nat.mul_div_cancel _ (by decide)
  have hinv' : PageInv k ({ m with cr3 := gc * 4096 } : Machine) res :=
    ⟨h.pages.free, h.pages.tables, h.pages.leaves⟩
  have hroot' : root ({ m with cr3 := gc * 4096 } : Machine).mem k (some c) =
      some (({ m with cr3 := gc * 4096 } : Machine).cr3 / 4096) := by
    show root m.mem k (some c) = some (gc * 4096 / 4096)
    rw [hgc]
    exact hslots.child
  have hr' := RootInv.of_slot hinv'.tables hslots.lt.2 hroot'
  have hs' := huser.inSpace hslots.lt.2 hroot'
  obtain ⟨hpar, hpar0⟩ := h.done.parent (u := v)
  rw [hw] at hpar hpar0
  obtain ⟨b, hb, -, hfr⟩ := h.pages.leaves.owned (pageAt a v) huser.userPage.managed (hw ▸ h0)
  rw [hw] at hfr
  have hw64 : w < 2 ^ 64 := by
    have := h.pages.free.frame_lt hb
    omega
  have hclaim : claims (leaf m.mem k) res (pageAt c v) = some (w / 4096) := by
    rw [← hw]
    exact h.claimed v hv hv₁ (hw ▸ h0)
  obtain ⟨P, hsh, hpages, -⟩ := (Machine.setCow_spec (q := pageAt a v) hinv' hr' hs'
    huser.userPage hw64 hclaim huser.userPage rfl (by show leaf m.mem k (pageAt a v) ≠ 0; rwa [hw])
    (by show leaf m.mem k (pageAt a v) / 4096 = _; rw [hw])).sound _ hset
  have hleaf : leaf m'.mem k =
      Function.update (leaf m.mem k) (pageAt c v) (w / 4096 * 4096 + 5) := hsh.leaf
  have hroots : ∀ d < procSize, root m'.mem k (some d) = root m.mem k (some d) :=
    fun d hd => roots_of_update huser.userPage hleaf hd
  have hframe : ∀ p, leaf m.mem k p ≠ 0 → leaf m'.mem k p ≠ 0 := by
    intro p hp
    rw [hleaf, Function.update_apply]
    split_ifs
    · omega
    · exact hp
  refine ⟨⟨⟨hpages.free, hpages.tables, hpages.leaves⟩, ?_, ?_, ?_, ?_⟩,
    ⟨hslots.ne, hslots.lt, (hroots a hslots.lt.1).trans hslots.parent,
      (hroots c hslots.lt.2).trans hslots.child⟩,
    ⟨P, hsh.blocks, hsh.freeMemory, hsh.refs, hsh.isTable, hsh.fresh, hsh.frames⟩, hroots⟩
  · refine h.done.step hv (fun hz => h0 (hpar0.mpr hz)) ?_ fun p hp => ?_
    · show leaf m'.mem k _ = _
      rw [hleaf, Function.update_self, hpar]
    · show leaf m'.mem k p = _
      rw [hleaf, Function.update_of_ne hp]
  · show ChildOf (leaf m'.mem k) a c
    rw [hleaf]
    exact h.childOf.share hslots.ne hw h0
  · show Claimed (leaf m'.mem k) res a c v₀ v₁
    rw [hleaf]
    exact h.claimed.share hclaim
  · exact .inr ⟨v, hv, Nat.lt_succ_self v, fun hz => h0 (hpar0.mpr hz), hpar⟩

/-- The second loop of `copy_vma`. -/
theorem shareFrom_spec {v₁ : Nat} (h : Sharing k m res lf a c v₀ v v₁ marked)
    (hslots : Slots k m a c ga gc) (hv : v₀ ≤ v) (hend : v + n = v₁)
    (huser : ∀ u, v₀ ≤ u → u < v₁ → UserAddr u) (hcr3 : m.cr3 = ga * 4096)
    (hsh : VmState.shareFrom (gc * 4096) (ga * 4096) n v marked m = some m') :
    PageInv k m' res ∧ SharedTo lf (leaf m'.mem k) a c v₀ v₁ ∧ ChildOf (leaf m'.mem k) a c ∧
      m'.cr3 = m.cr3 ∧ (∃ P, Alloc k m m' P) ∧
      ∀ d < procSize, root m'.mem k (some d) = root m.mem k (some d) := by
  induction n generalizing m v marked with
  | zero =>
      obtain rfl : m = m' := Option.some.inj hsh
      rw [Nat.add_zero] at hend
      exact ⟨h.pages, hend ▸ h.done, h.childOf, rfl, ⟨[], Alloc.refl⟩, fun _ _ => rfl⟩
  | succ n ih =>
      have hlt : v < v₁ := by omega
      have hu := huser v hv hlt
      have hga : ga * 4096 / 4096 = ga := Nat.mul_div_cancel _ (by decide)
      have hroot : root m.mem k (some a) = some (m.cr3 / 4096) := by
        rw [hcr3, hga]
        exact hslots.parent
      have hr := RootInv.of_slot h.pages.tables hslots.lt.1 hroot
      have hs := hu.inSpace hslots.lt.1 hroot
      obtain ⟨w, hw⟩ : ∃ w, leaf m.mem k (pageAt a v) = w := ⟨_, rfl⟩
      obtain ⟨hpar, hpar0⟩ := h.done.parent (u := v)
      rw [hw] at hpar hpar0
      rw [VmState.shareFrom, Machine.getPhysAddr_eq h.pages.tables hr hs,
        show (spaceOf a v, pageOf v) = pageAt a v from rfl, hw, Option.bind_eq_bind,
        Option.bind_some] at hsh
      by_cases hskip : w = 0 ∨ w = marked
      · rw [if_pos hskip] at hsh
        refine ih ⟨h.pages, h.done.skip fun hl => ?_, h.childOf, h.claimed, ?_⟩ hslots (by omega)
          (by omega) hcr3 hsh
        · -- the page was shared when the loop passed it
          have h0 : w ≠ 0 := fun hz => hl (hpar0.mp hz)
          obtain rfl := hskip.resolve_left h0
          obtain ⟨u, hu₀, huv, hul, hmu⟩ := h.marked.resolve_left h0
          obtain ⟨hparu, hparu0⟩ := h.done.parent (u := u)
          have hpage : pageOf u = pageOf v := by
            refine h.pages.leaves.home (pageAt a u) (pageAt a v) (fun hz => hul (hparu0.mp hz))
              (hw ▸ h0) ?_ ?_
            · rw [hparu, hw, ← hmu]
            · obtain ⟨b, -, -, hb⟩ := h.pages.leaves.owned (pageAt a u)
                (huser u hu₀ (by omega)).userPage.managed fun hz => hul (hparu0.mp hz)
              rw [hb]
              exact FreeList.frame_mono
          have hdone := h.done.shared u hu₀ huv hul
          rw [pageAt_congr hpage, pageAt_congr hpage] at hdone
          exact hdone
        · exact h.marked.imp id fun ⟨u, hu₀, huv, hul⟩ => ⟨u, hu₀, by omega, hul⟩
      · rw [if_neg hskip, Option.bind_eq_bind, Option.bind_eq_some_iff] at hsh
        rw [not_or] at hskip
        obtain ⟨m₁, hset, hsh⟩ := hsh
        obtain ⟨hsharing, hslots', ⟨P, hP⟩, hroots⟩ := h.share hslots hv hlt hu hw hskip.1 hset
        obtain ⟨hp', hdone', hchild', hcr3', ⟨Q, hQ⟩, hroots'⟩ :=
          ih hsharing hslots' (by omega) (by omega) rfl hsh
        have hQ' : Alloc k m₁ m' Q :=
          ⟨hQ.blocks, hQ.freeMemory, hQ.refs, hQ.isTable, hQ.fresh, hQ.frames⟩
        exact ⟨hp', hdone', hchild', hcr3'.trans hcr3.symm, ⟨P ++ Q, hP.trans hQ'⟩,
          fun d hd => (hroots' d hd).trans (hroots d hd)⟩

end Share

end Sbunix
