import Sbunix.Sys.AddressSpace
import Sbunix.Sys.Proofs.FreeBlocks

/-!
# Leaf entries and reference counts

`LeafInv` relates the leaf entries of all halves to the reference counts of
`sys/phy_mem_manager.c`, and says what the changes that mapping, copy-on-write and
unmapping make to both of them keep.
-/

namespace Sbunix

/-- `lf` gives the leaf entries, `T` the frames used as page tables, and `res` the
frames whose count has been raised for a page that is still to be mapped. -/
structure LeafInv (lf : Page → Nat) (T : Nat → Prop) (fl : FreeList) (res : Page → Option Nat) :
    Prop where
  finite : FiniteMap (claims lf res)
  flags : ∀ p, lf p = 0 ∨ lf p % 4096 = 5 ∨ lf p % 4096 = 7 ∨ lf p % 4096 = 3 ∧ ¬ ManagedPage p
  owned : ∀ p, ManagedPage p → lf p ≠ 0 → ∃ b < listSize, b ≠ 0 ∧ lf p / 4096 = fl.frame b
  home : ∀ p p', lf p ≠ 0 → lf p' ≠ 0 → lf p / 4096 = lf p' / 4096 →
    fl.frame 0 ≤ lf p / 4096 → p.2 = p'.2
  notTable : ∀ p, ¬ Window p → lf p ≠ 0 → fl.frame 0 ≤ lf p / 4096 → ¬ T (lf p / 4096)
  count : ∀ b < listSize, (users (claims lf res) (fl.frame b)).ncard ≤ fl.refCount b

variable {lf lf' : Page → Nat} {T T' : Nat → Prop} {fl fl' : FreeList}
  {res res' : Page → Option Nat} {p p' : Page} {b w : Nat}

@[simp] theorem claims_of_leaf (h : lf p ≠ 0) : claims lf res p = some (lf p / 4096) := by
  unfold claims
  rw [if_neg h]

/-- Writing a leaf entry changes the claim of its page. -/
theorem claims_update : claims (Function.update lf p w) res =
    Function.update (claims lf res) p (if w = 0 then res p else some (w / 4096)) := by
  funext p'
  by_cases hp : p' = p
  · subst hp
    simp [claims]
  · simp [claims, hp]

/-- Setting a frame aside for a page that is not mapped. -/
theorem claims_reserve (h : lf p = 0) {f : Nat} :
    claims lf (Function.update res p (some f)) = Function.update (claims lf res) p (some f) := by
  funext p'
  by_cases hp : p' = p
  · subst hp
    simp [claims, h]
  · simp [claims, hp]

theorem claims_reserve_mapped (h : lf p ≠ 0) {f : Option Nat} :
    claims lf (Function.update res p f) = claims lf res := by
  funext p'
  by_cases hp : p' = p
  · subst hp
    simp [claims, h]
  · simp [claims, hp]

theorem FreeList.frame_mono : fl.frame 0 ≤ fl.frame b := by
  unfold FreeList.frame
  exact Nat.add_le_add_left (Nat.zero_le b) _

namespace LeafInv

/-- No page uses a frame of the free list. -/
theorem free_unused (h : LeafInv lf T fl res) (hfree : FreeInv fl) (hb : b ∈ fl.blocks) :
    claims lf res p ≠ some (fl.frame b) := by
  intro hp
  have hpos := users_pos h.finite hp
  have hle := h.count b (hfree.lt b hb)
  rw [hfree.unused b hb] at hle
  omega

theorem not_free (h : LeafInv lf T fl res) (hfree : FreeInv fl) (hp : lf p ≠ 0) :
    ¬ fl.IsFree (lf p / 4096) := by
  rintro ⟨b, hb, heq⟩
  apply h.free_unused hfree hb (p := p)
  rw [claims_of_leaf hp, heq]

/-- Entries are present or zero. -/
theorem odd (h : LeafInv lf T fl res) (hp : lf p ≠ 0) : lf p % 2 = 1 := by
  have hflags := h.flags p
  omega

/-- Programs may read the pages outside the kernel image. -/
theorem managed_flags (h : LeafInv lf T fl res) (hm : ManagedPage p) :
    lf p = 0 ∨ lf p % 4096 = 5 ∨ lf p % 4096 = 7 := by
  rcases h.flags p with h0 | h5 | h7 | ⟨-, hn⟩
  · exact .inl h0
  · exact .inr (.inl h5)
  · exact .inr (.inr h7)
  · exact absurd hm hn

/-- The block of a mapped user page is counted at least once. -/
theorem count_pos (h : LeafInv lf T fl res) (hb : b < listSize) (hp : lf p ≠ 0)
    (heq : lf p / 4096 = fl.frame b) : 0 < fl.refCount b := by
  have hpos : 0 < (users (claims lf res) (fl.frame b)).ncard :=
    users_pos h.finite (by rw [claims_of_leaf hp, heq])
  have hle := h.count b hb
  omega

/-- Counts may change as long as they cover the claims. -/
theorem recount (h : LeafInv lf T fl res) (hfm : fl'.freeMemory = fl.freeMemory)
    (hcount : ∀ b < listSize, (users (claims lf res) (fl.frame b)).ncard ≤ fl'.refCount b) :
    LeafInv lf T fl' res := by
  have hfr : ∀ b, fl'.frame b = fl.frame b := FreeList.frame_congr hfm
  refine ⟨h.finite, h.flags, ?_, ?_, ?_, ?_⟩
  · intro p hs hp
    obtain ⟨b, hb, h0, heq⟩ := h.owned p hs hp
    exact ⟨b, hb, h0, by rw [hfr, heq]⟩
  · rw [hfr]
    exact h.home
  · rw [hfr]
    exact h.notTable
  · intro b hb
    rw [hfr]
    exact hcount b hb

/-- One count may grow. -/
theorem recount_raise {n : Nat} (h : LeafInv lf T fl res) (hfm : fl'.freeMemory = fl.freeMemory)
    (hrc : fl'.refCount = Function.update fl.refCount b n) (hn : fl.refCount b ≤ n) :
    LeafInv lf T fl' res := by
  refine h.recount hfm fun c hc => ?_
  have hle := h.count c hc
  rw [hrc]
  by_cases hcb : c = b
  · subst hcb
    rw [Function.update_self]
    exact hle.trans hn
  · rwa [Function.update_of_ne hcb]

/-- Pages that lose their entry, as when a PML4 is cleared. -/
theorem drop (h : LeafInv lf T fl noRes) (hlf : ∀ p, lf' p = lf p ∨ lf' p = 0)
    (hT : ∀ f, T' f → T f) : LeafInv lf' T' fl noRes := by
  have hkeep : ∀ p, lf' p ≠ 0 → lf' p = lf p := fun p hp => (hlf p).resolve_right hp
  have hsub : ∀ p f, claims lf' noRes p = some f → claims lf noRes p = some f := by
    intro p f hp
    by_cases h0 : lf' p = 0
    · simp [claims, h0, noRes] at hp
    · rw [claims_of_leaf h0, hkeep p h0] at hp
      rw [claims_of_leaf (hkeep p h0 ▸ h0), hp]
  refine ⟨?_, ?_, ?_, ?_, ?_, ?_⟩
  · refine h.finite.subset ?_
    intro p hp
    obtain ⟨f, hf⟩ := Option.ne_none_iff_exists'.mp hp
    show claims lf noRes p ≠ none
    rw [hsub p f hf]
    simp
  · intro p
    rcases hlf p with he | he
    · rw [he]
      exact h.flags p
    · exact .inl he
  · intro p hs hp
    have he := hkeep p hp
    rw [he] at hp ⊢
    exact h.owned p hs hp
  · intro p₁ p₂ h₁ h₂
    have he₁ := hkeep p₁ h₁
    have he₂ := hkeep p₂ h₂
    rw [he₁] at h₁ ⊢
    rw [he₂] at h₂ ⊢
    exact h.home p₁ p₂ h₁ h₂
  · intro p hw hp hle ht
    have he := hkeep p hp
    rw [he] at hp hle ht
    exact h.notTable p hw hp hle (hT _ ht)
  · intro b hb
    exact (users_mono h.finite fun p hp => hsub p _ hp).trans (h.count b hb)

/-- Frames that no page uses may become page tables, and tables may be given up. -/
theorem retable (h : LeafInv lf T fl res)
    (hT : ∀ f, T' f → T f ∨ ∀ p, ¬ Window p → lf p ≠ 0 → lf p / 4096 ≠ f) :
    LeafInv lf T' fl res := by
  refine ⟨h.finite, h.flags, h.owned, h.home, ?_, h.count⟩
  intro p hw hp hle ht
  rcases hT _ ht with ht | hne
  · exact h.notTable p hw hp hle ht
  · exact hne p hw hp rfl

/-- The free list hands out a block. -/
theorem pop (h : LeafInv lf T fl res) (hfree : FreeInv fl) (hb : b ∈ fl.blocks)
    (hfm : fl'.freeMemory = fl.freeMemory) (hrc : fl'.refCount = Function.update fl.refCount b 1) :
    LeafInv lf T fl' res := by
  refine h.recount_raise hfm hrc ?_
  rw [hfree.unused b hb]
  exact Nat.zero_le 1

/-- Writing the leaf entry of one page. -/
theorem write (h : LeafInv lf T fl res)
    (hflag : w = 0 ∨ w % 4096 = 5 ∨ w % 4096 = 7)
    (howned : ManagedPage p → w ≠ 0 → ∃ b < listSize, b ≠ 0 ∧ w / 4096 = fl.frame b)
    (hhome : w ≠ 0 → fl.frame 0 ≤ w / 4096 →
      ∀ p', p' ≠ p → lf p' ≠ 0 → lf p' / 4096 = w / 4096 → p'.2 = p.2)
    (hnt : ¬ Window p → w ≠ 0 → fl.frame 0 ≤ w / 4096 → ¬ T (w / 4096))
    (hcount : ∀ b < listSize,
      (users (claims (Function.update lf p w) res) (fl.frame b)).ncard ≤ fl.refCount b) :
    LeafInv (Function.update lf p w) T fl res := by
  refine ⟨?_, ?_, ?_, ?_, ?_, hcount⟩
  · rw [claims_update]
    exact h.finite.update
  · intro p'
    by_cases hp : p' = p
    · subst hp
      rw [Function.update_self]
      exact hflag.imp_right fun hw => hw.imp_right .inl
    · rw [Function.update_of_ne hp]
      exact h.flags p'
  · intro p' hs
    by_cases hp : p' = p
    · subst hp
      rw [Function.update_self]
      exact howned hs
    · rw [Function.update_of_ne hp]
      exact h.owned p' hs
  · intro p₁ p₂
    by_cases h₁ : p₁ = p
    · subst h₁
      rw [Function.update_self]
      by_cases h₂ : p₂ = p₁
      · intros
        rw [h₂]
      · rw [Function.update_of_ne h₂]
        intro hw hp₂ heq hle
        exact (hhome hw hle p₂ h₂ hp₂ heq.symm).symm
    · rw [Function.update_of_ne h₁]
      by_cases h₂ : p₂ = p
      · subst h₂
        rw [Function.update_self]
        intro hp₁ hw heq hle
        exact hhome hw (heq ▸ hle) p₁ h₁ hp₁ heq
      · rw [Function.update_of_ne h₂]
        exact h.home p₁ p₂
  · intro p' hw
    by_cases hp : p' = p
    · subst hp
      rw [Function.update_self]
      exact hnt hw
    · rw [Function.update_of_ne hp]
      exact h.notTable p' hw

/-- Mapping an unused block with count 1 at a page that is not mapped. -/
theorem map (h : LeafInv lf T fl noRes) (hb : b < listSize) (hb0 : b ≠ 0) (hrc : fl.refCount b = 1)
    (hunused : ∀ p, lf p ≠ 0 → lf p / 4096 ≠ fl.frame b) (hT : ¬ Window p → ¬ T (fl.frame b))
    (hw : w / 4096 = fl.frame b) (hw7 : w % 4096 = 7) :
    LeafInv (Function.update lf p w) T fl noRes := by
  have hne : w ≠ 0 := by
    rintro rfl
    simp at hw7
  refine h.write (.inr (.inr hw7)) (fun _ _ => ⟨b, hb, hb0, hw⟩) ?_ ?_ ?_
  · intro _ _ p' _ hp' heq
    exact absurd (heq.trans hw) (hunused p' hp')
  · intro hwin _ _
    rw [hw]
    exact hT hwin
  · intro c hc
    rw [claims_update, if_neg hne, hw]
    by_cases hcb : c = b
    · subst hcb
      have hnone : ∀ p, claims lf noRes p ≠ some (fl.frame c) := by
        intro p hp
        unfold claims at hp
        split_ifs at hp with h0
        · exact absurd hp (by simp [noRes])
        · exact hunused p h0 (Option.some.inj hp)
      rw [users_update_add h.finite (hnone p), hrc]
      have hempty : users (claims lf noRes) (fl.frame c) = ∅ :=
        Set.eq_empty_of_forall_notMem hnone
      simp [hempty]
    · have hfr : fl.frame b ≠ fl.frame c := fun he => hcb (FreeList.frame_inj.mp he).symm
      have hle : (users (Function.update (claims lf noRes) p (some (fl.frame b)))
          (fl.frame c)).ncard ≤ (users (claims lf noRes) (fl.frame c)).ncard := by
        refine users_mono h.finite ?_
        intro j hj
        by_cases hjp : j = p
        · subst hjp
          rw [Function.update_self] at hj
          exact absurd (Option.some.inj hj) hfr
        · rwa [Function.update_of_ne hjp] at hj
      exact hle.trans (h.count c hc)

/-- The entry of a mapped page is cleared and its block's count goes down by one. -/
theorem unmap (h : LeafInv lf T fl noRes) (hp : lf p ≠ 0) (heq : lf p / 4096 = fl.frame b)
    (hfm : fl'.freeMemory = fl.freeMemory)
    (hrc : fl'.refCount = Function.update fl.refCount b (fl.refCount b - 1)) :
    LeafInv (Function.update lf p 0) T fl' noRes := by
  have hclaim : claims lf noRes p = some (fl.frame b) := by rw [claims_of_leaf hp, heq]
  have hdrop : LeafInv (Function.update lf p 0) T fl noRes := by
    refine h.drop ?_ fun _ ht => ht
    intro p'
    by_cases hp' : p' = p
    · subst hp'
      simp
    · simp [hp']
  refine hdrop.recount hfm ?_
  intro c hc
  have hle := h.count c hc
  rw [claims_update, if_pos rfl, hrc]
  by_cases hcb : c = b
  · subst hcb
    have hone := users_update_drop h.finite hclaim (v := none) (by simp)
    rw [Function.update_self]
    simp only [noRes] at hone ⊢
    omega
  · rw [Function.update_of_ne hcb]
    have hne : claims lf noRes p ≠ some (fl.frame c) := by
      rw [hclaim]
      exact fun he => hcb (FreeList.frame_inj.mp (Option.some.inj he)).symm
    rw [users_update_other hne (by simp [noRes])]
    exact hle

/-- Raising the count of a mapped block sets it aside for one more page. -/
theorem reserve (h : LeafInv lf T fl res) (hb : b < listSize) (hfm : fl'.freeMemory = fl.freeMemory)
    (hrc : fl'.refCount = Function.update fl.refCount b (fl.refCount b + 1)) :
    LeafInv lf T fl' (Function.update res p (some (fl.frame b))) := by
  have hmono : LeafInv lf T fl' res := h.recount_raise hfm hrc (Nat.le_succ _)
  by_cases hp : lf p = 0
  · refine ⟨?_, hmono.flags, hmono.owned, hmono.home, hmono.notTable, ?_⟩
    · rw [claims_reserve hp]
      exact h.finite.update
    · intro c hc
      have hfr : fl'.frame c = fl.frame c := FreeList.frame_congr hfm c
      have hle := h.count c hc
      rw [claims_reserve hp, hfr, hrc]
      by_cases hcb : c = b
      · subst hcb
        rw [Function.update_self]
        exact (users_update_le h.finite).trans (Nat.succ_le_succ hle)
      · rw [Function.update_of_ne hcb]
        refine le_trans (users_mono h.finite ?_) hle
        intro j hj
        by_cases hjp : j = p
        · subst hjp
          rw [Function.update_self] at hj
          exact absurd (FreeList.frame_inj.mp (Option.some.inj hj)).symm hcb
        · rwa [Function.update_of_ne hjp] at hj
  · refine ⟨?_, hmono.flags, hmono.owned, hmono.home, hmono.notTable, ?_⟩
    · rw [claims_reserve_mapped hp]
      exact h.finite
    · rw [claims_reserve_mapped hp]
      exact hmono.count

/-- Mapping a page to the frame set aside for it, or to the one it has, when that is the
frame of the same page in another half or of the page itself. -/
theorem share (h : LeafInv lf T fl res) (hw5 : w % 4096 = 5)
    (hclaim : claims lf res p = some (w / 4096)) (hq : p'.2 = p.2) (hp' : lf p' ≠ 0)
    (heq : lf p' / 4096 = w / 4096) (hm : ManagedPage p') (hnw : ¬ Window p') :
    LeafInv (Function.update lf p w) T fl res := by
  have hne : w ≠ 0 := by
    rintro rfl
    simp at hw5
  have howned := h.owned p' hm hp'
  rw [heq] at howned
  refine h.write (.inr (.inl hw5)) (fun _ _ => howned) ?_ ?_ ?_
  · intro _ hle p'' _ hp'' he
    rw [← hq]
    exact h.home p'' p' hp'' hp' (he.trans heq.symm) (he ▸ hle)
  · intro _ _ hle
    rw [← heq] at hle ⊢
    exact h.notTable p' hnw hp' hle
  · rw [claims_update, if_neg hne, ← hclaim, Function.update_eq_self]
    exact h.count

/-- What was set aside and not used may be forgotten. -/
theorem release (h : LeafInv lf T fl res) : LeafInv lf T fl noRes := by
  have hsub : ∀ p f, claims lf noRes p = some f → claims lf res p = some f := by
    intro p f hp
    by_cases h0 : lf p = 0
    · simp [claims, h0, noRes] at hp
    · rw [claims_of_leaf h0] at hp ⊢
      exact hp
  refine ⟨?_, h.flags, h.owned, h.home, h.notTable, ?_⟩
  · refine h.finite.subset ?_
    intro p hp
    obtain ⟨f, hf⟩ := Option.ne_none_iff_exists'.mp hp
    show claims lf res p ≠ none
    rw [hsub p f hf]
    simp
  · intro b hb
    exact (users_mono h.finite fun p hp => hsub p _ hp).trans (h.count b hb)

end LeafInv

end Sbunix
