import Sbunix.Sys.Proofs.BootList
import Sbunix.Sys.Proofs.CurrentSpace

/-!
# The page tables after start-up

`map_kernpt` builds the kernel half: `page_directory2`, `page_directory3` and
`kernelpage`, whose entries map the kernel image and the screen.
-/

namespace Sbunix

variable {mem mem' : Nat → Nat → Nat} {physfree kernend curDisp j j' f i w g : Nat}

theorem word_putWord (hw : w < 2 ^ 64) :
    word (putWord mem f i w) g j = if g = f ∧ j = i then w else word mem g j := word_store hw

/-- The frames of the four tables. -/
theorem bootFrames (h : physfree % 4096 = 0) :
    pageDirectory1 physfree = physfree / 4096 + 1 ∧ pageDirectory2 physfree = physfree / 4096 + 9 ∧
      pageDirectory3 physfree = physfree / 4096 + 17 ∧ kernelpage physfree = physfree / 4096 + 25 := by
  unfold kernelpage pageDirectory3 pageDirectory2 pageDirectory1
  omega

theorem word_clearTables {n : Nat} : word (clearTables mem physfree n) f i =
    if i < n ∧ (f = pageDirectory1 physfree ∨ f = pageDirectory2 physfree ∨
      f = pageDirectory3 physfree ∨ f = kernelpage physfree) then 0 else word mem f i := by
  induction n with
  | zero =>
      rw [if_neg (by omega)]
      rfl
  | succ n ih =>
      have hstep : clearTables mem physfree (n + 1) =
          putWord (putWord (putWord (putWord (clearTables mem physfree n)
            (pageDirectory1 physfree) n 0) (pageDirectory2 physfree) n 0)
            (pageDirectory3 physfree) n 0) (kernelpage physfree) n 0 := by
        unfold clearTables
        rw [List.range_succ, List.foldl_append]
        rfl
      have h0 : (0 : Nat) < 2 ^ 64 := by decide
      rw [hstep, word_putWord h0, word_putWord h0, word_putWord h0, word_putWord h0, ih]
      by_cases hi : i = n
      · subst hi
        by_cases h1 : f = pageDirectory1 physfree
        · simp [h1]
        · by_cases h2 : f = pageDirectory2 physfree
          · simp [h2]
          · by_cases h3 : f = pageDirectory3 physfree
            · simp [h3]
            · by_cases h4 : f = kernelpage physfree
              · simp [h4]
              · simp [h1, h2, h3, h4]
      · simp only [hi, and_false, if_false]
        by_cases hlt : i < n
        · simp [hlt, show i < n + 1 by omega]
        · simp [hlt, show ¬ i < n + 1 by omega]

/-- The entries for the kernel image. -/
theorem mapImage_spec {kp p4 fuel j kernstart : Nat} (hal : kernstart % 4096 = 0)
    (hend : kernend < 2 ^ 60) (h : mapImage kp p4 kernend fuel j kernstart mem = some (j', mem')) :
    ∃ n, j' = j + n ∧ (∀ x < n, kernstart + 4096 * x ≤ kernend) ∧
      kernend < kernstart + 4096 * n ∧
      (∀ x < n, word mem' kp (p4 + j + x) = kernstart + 4096 * x + 3) ∧
      ∀ f i, ¬ (f = kp ∧ p4 + j ≤ i ∧ i < p4 + j + n) → word mem' f i = word mem f i := by
  induction fuel generalizing j kernstart mem with
  | zero => simp [mapImage] at h
  | succ fuel ih =>
      rw [mapImage] at h
      split_ifs at h with hle
      · have hal' : (kernstart + 4096) % 4096 = 0 := by omega
        have h3 : kernstart ||| 3 = kernstart + 3 := by
          have hor : kernstart / 4096 * 2 ^ 12 ||| 3 = kernstart / 4096 * 2 ^ 12 + 3 :=
            shift_or (by decide)
          rwa [show kernstart / 4096 * 2 ^ 12 = kernstart by omega] at hor
        have hw : kernstart + 3 < 2 ^ 64 := by omega
        rw [h3] at h
        obtain ⟨n, hj, hin, hlast, hnew, hother⟩ := ih hal' h
        refine ⟨n + 1, by omega, ?_, hlast.trans_eq (page_succ _ _), ?_, ?_⟩
        · intro x hx
          cases x with
          | zero => exact hle
          | succ x => exact (page_succ kernstart x).ge.trans (hin x (by omega))
        · intro x hx
          cases x with
          | zero =>
              rw [hother _ _ (by omega), word_putWord hw, if_pos ⟨rfl, rfl⟩]
          | succ x =>
              have hx' := hnew x (by omega)
              rw [show p4 + j + (x + 1) = p4 + (j + 1) + x by omega, hx', page_succ]
        · intro f i hfi
          rw [hother f i (fun hc => hfi ⟨hc.1, by omega, by omega⟩), word_putWord hw,
            if_neg (fun hc => hfi ⟨hc.1, by omega, by omega⟩)]
      · simp only [Option.some.injEq, Prod.mk.injEq] at h
        obtain ⟨rfl, rfl⟩ := h
        exact ⟨0, rfl, by omega, by omega, by omega, fun _ _ _ => rfl⟩

/-- What `map_kernpt` leaves in the four tables, when `physfree` is page `d`; `n` pages of
the image are mapped. -/
structure BootWords (mem : Nat → Nat → Nat) (d n : Nat) : Prop where
  few : n < 511
  image : ∀ x < n, 512 + x ≤ d + 10
  pml4 : ∀ i < 512, word mem (d + 1) i =
    if i = 510 then (d + 1) * 4096 + 3 else if i = 511 then (d + 9) * 4096 + 7 else 0
  second : ∀ i < 512, word mem (d + 9) i = if i = 510 then (d + 17) * 4096 + 7 else 0
  third : ∀ i < 512, word mem (d + 17) i = if i = 1 then (d + 25) * 4096 + 7 else 0
  last : ∀ i < 512, word mem (d + 25) i =
    if i < n then (512 + i) * 4096 + 3 else if i = n then 0xB8007 else 0

theorem mapKernpt_words {d v : Nat} (hlo : 512 ≤ d) (hhi : d + 10 < 512 + 510)
    (h : mapKernpt mem (d * 4096) (d * 4096 + 4096 * 10) 0xB8000 = some (mem', v)) :
    ∃ n, BootWords mem' d n := by
  have hdiv : d * 4096 / 4096 = d := Nat.mul_div_cancel _ (by decide)
  obtain ⟨e1, e2, e3, e4⟩ := bootFrames (Nat.mul_mod_left d 4096)
  rw [hdiv] at e1 e2 e3 e4
  have hb : ∀ x < 26, ∀ e < 4096, (d + x) * 4096 + e < 2 ^ 64 :=
    fun x hx e he => entry_lt (by omega) he
  have hb5 : 0xB8007 < 2 ^ 64 := by decide
  have hkernend : d * 4096 + 4096 * 10 < 2 ^ 60 := by omega
  have hor : ∀ g, g * 4096 ||| 7 = g * 4096 + 7 := fun g => shift_or (k := 12) (by decide)
  have hor3 : ∀ g, g * 4096 ||| 3 = g * 4096 + 3 := fun g => shift_or (k := 12) (by decide)
  have hi1 : p1Index kernmem = 511 := by decide
  have hi2 : p2Index kernmem = 510 := by decide
  have hi3 : p3Index kernmem = 1 := by decide
  have hi4 : p4Index kernmem = 0 := by decide
  have hcur : (0xB8000 &&& 0xFFFFFFFFFF000 ||| 7 : Nat) = 0xB8007 := by decide
  simp only [mapKernpt, hi1, hi2, hi3, hi4, e1, e2, e3, e4, hor, hor3, hcur, Option.bind_eq_bind,
    Option.bind_eq_some_iff, Prod.exists, Option.some.injEq, Prod.mk.injEq] at h
  obtain ⟨n, mem₁, himg, rfl, -⟩ := h
  obtain ⟨n', hn, hin, hlast, hnew, hother⟩ := mapImage_spec (by decide) hkernend himg
  obtain rfl : n' = n := by omega
  have himage : ∀ x < n', 512 + x ≤ d + 10 := by
    intro x hx
    have hle : 0x200000 + 4096 * x ≤ d * 4096 + 4096 * 10 := hin x hx
    omega
  have hfew : n' < 511 := by
    by_contra hge
    have := himage 510 (by omega)
    omega
  clear hn hin hlast
  refine ⟨n', hfew, himage, ?_, ?_, ?_, ?_⟩ <;> intro i hi <;>
    rw [word_putWord hb5, word_putWord (hb 1 (by decide) 3 (by decide))]
  · rw [if_neg (by omega)]
    by_cases h510 : i = 510
    · rw [if_pos ⟨rfl, h510⟩, if_pos h510]
    · rw [if_neg (by omega), if_neg h510, hother _ _ (by omega),
        word_putWord (hb 25 (by decide) 7 (by decide)), if_neg (by omega),
        word_putWord (hb 17 (by decide) 7 (by decide)), if_neg (by omega),
        word_putWord (hb 9 (by decide) 7 (by decide))]
      by_cases h511 : i = 511
      · rw [if_pos ⟨rfl, h511⟩, if_pos h511]
      · rw [if_neg (by omega), if_neg h511, word_clearTables, if_pos ⟨hi, .inl e1.symm⟩]
  · rw [if_neg (by omega), if_neg (by omega), hother _ _ (by omega),
      word_putWord (hb 25 (by decide) 7 (by decide)), if_neg (by omega),
      word_putWord (hb 17 (by decide) 7 (by decide))]
    by_cases h510 : i = 510
    · rw [if_pos ⟨rfl, h510⟩, if_pos h510]
    · rw [if_neg (by omega), if_neg h510, word_putWord (hb 9 (by decide) 7 (by decide)),
        if_neg (by omega), word_clearTables, if_pos ⟨hi, .inr (.inl e2.symm)⟩]
  · rw [if_neg (by omega), if_neg (by omega), hother _ _ (by omega),
      word_putWord (hb 25 (by decide) 7 (by decide))]
    by_cases h1 : i = 1
    · rw [if_pos ⟨rfl, h1⟩, if_pos h1]
    · rw [if_neg (by omega), if_neg h1, word_putWord (hb 17 (by decide) 7 (by decide)),
        if_neg (by omega), word_putWord (hb 9 (by decide) 7 (by decide)), if_neg (by omega),
        word_clearTables, if_pos ⟨hi, .inr (.inr (.inl e3.symm))⟩]
  · by_cases hin' : i = n'
    · rw [if_pos ⟨rfl, by omega⟩, if_neg (by omega), if_pos hin']
    · rw [if_neg (by omega), if_neg (by omega)]
      by_cases hlt : i < n'
      · have himg := hnew i hlt
        rw [show 0 + 0 + i = i by omega] at himg
        rw [if_pos hlt, himg, Nat.add_mul, Nat.mul_comm i]
        rfl
      · rw [if_neg hlt, if_neg hin', hother _ _ (by omega),
          word_putWord (hb 25 (by decide) 7 (by decide)), if_neg (by omega),
          word_putWord (hb 17 (by decide) 7 (by decide)), if_neg (by omega),
          word_putWord (hb 9 (by decide) 7 (by decide)), if_neg (by omega), word_clearTables,
          if_pos ⟨hi, .inr (.inr (.inr e4.symm))⟩]

namespace BootWords

variable {d n c : Nat} {l : List Nat} {p : Page} (h : BootWords mem d n)

include h

theorem child_second : child mem (d + 9) i = if i = 510 then some (d + 17) else none := by
  unfold child
  by_cases hi : i < 512
  · rw [h.second i hi]
    by_cases h510 : i = 510
    · rw [if_pos h510, if_pos h510, if_pos ⟨hi, by omega⟩, entry_div (by decide)]
    · rw [if_neg h510, if_neg h510, if_neg (by simp)]
  · rw [if_neg (fun hc => hi hc.1), if_neg (by omega)]

theorem child_third : child mem (d + 17) i = if i = 1 then some (d + 25) else none := by
  unfold child
  by_cases hi : i < 512
  · rw [h.third i hi]
    by_cases h1 : i = 1
    · rw [if_pos h1, if_pos h1, if_pos ⟨hi, by omega⟩, entry_div (by decide)]
    · rw [if_neg h1, if_neg h1, if_neg (by simp)]
  · rw [if_neg (fun hc => hi hc.1), if_neg (by omega)]

/-- The three tables of the kernel half. -/
theorem kernelTable_cases (hl : l.length ≤ 2) (hf : kernelTable mem (d + 9) l = some f) :
    (l = [] ∧ f = d + 9) ∨ (l = [510] ∧ f = d + 17) ∨ (l = [1, 510] ∧ f = d + 25) := by
  match l, hl with
  | [], _ => exact .inl ⟨rfl, (Option.some.inj hf).symm⟩
  | [i], _ =>
      have hc : child mem (d + 9) i = some f := hf
      rw [h.child_second] at hc
      split_ifs at hc with hi
      exact .inr (.inl ⟨by rw [hi], (Option.some.inj hc).symm⟩)
  | [i, j], _ =>
      have hc : (child mem (d + 9) j).bind (fun g => child mem g i) = some f := hf
      rw [h.child_second] at hc
      split_ifs at hc with hj
      · rw [Option.bind_some, h.child_third] at hc
        split_ifs at hc with hi
        exact .inr (.inr ⟨by rw [hi, hj], (Option.some.inj hc).symm⟩)
      · simp at hc

/-- No slot has a PML4 yet. -/
theorem root_none (hc : c < procSize) : root mem (d + 9) (some c) = none := by
  have hmiss : kernelTable mem (d + 9) (pagePath none (pml4Page c)) = none := by
    by_contra hne
    obtain ⟨f, hf⟩ := Option.ne_none_iff_exists'.mp hne
    have hlt : c < 100 := hc
    rw [pml4Page_eq hc] at hf
    rcases h.kernelTable_cases (by simp [pagePath]) hf with ⟨hp, -⟩ | ⟨hp, -⟩ | ⟨hp, -⟩
    · simp [pagePath] at hp
    · simp [pagePath] at hp
    · simp only [pagePath, List.cons.injEq] at hp
      omega
  rw [root_eq hc, leaf_window hc, kernelLeaf, hmiss]
  rfl

theorem table_cases {s : Space} (hl : ValidPath s l) (hf : tableAt mem (d + 9) s l = some f) :
    s = none ∧
      ((l = [] ∧ f = d + 9) ∨ (l = [510] ∧ f = d + 17) ∨ (l = [1, 510] ∧ f = d + 25)) := by
  cases s with
  | none => exact ⟨rfl, h.kernelTable_cases hl.1 (tableAt_none.symm.trans hf)⟩
  | some c =>
      have hnone : ∀ l, tableAt mem (d + 9) (some c) l = none := by
        intro l
        induction l with
        | nil => exact h.root_none hl.1
        | cons i l ih => rw [tableAt_cons, ih, Option.bind_none]
      rw [hnone] at hf
      exact absurd hf (by simp)

theorem isTable_lt (hf : IsTable mem (d + 9) f) : f ≤ d + 25 ∧ f ≠ d + 1 := by
  obtain ⟨s, l, hl, hf⟩ := hf
  have := (h.table_cases hl hf).2
  omega

/-- What is mapped after start-up: a part of the image or the screen. -/
theorem leaf_cases (hp : leaf mem (d + 9) p ≠ 0) :
    p.1 = none ∧ p.2 / 2 ^ 9 = 0x7FFFC01 ∧
      ((∃ x < n, leaf mem (d + 9) p = (512 + x) * 4096 + 3) ∨ leaf mem (d + 9) p = 0xB8007) := by
  obtain ⟨s, q⟩ := p
  obtain ⟨hv, f, hf⟩ := exists_table hp
  have hleaf := leaf_of_table hv hf
  obtain ⟨rfl, hcases⟩ := h.table_cases (validPath_pagePath hv) hf
  obtain ⟨hq, hq'⟩ := hv
  have hpath : pagePath none q = [q / 2 ^ 9 % 512, q / 2 ^ 18 % 512] := rfl
  rw [hpath] at hcases
  simp only [List.cons_ne_nil, false_and, List.cons.injEq, and_false, false_or, and_true] at hcases
  obtain ⟨⟨h1, h510⟩, rfl⟩ := hcases
  refine ⟨rfl, by simp only; omega, ?_⟩
  have hlast := h.last (q % 512) (Nat.mod_lt _ (by decide))
  rw [← hleaf] at hlast
  rw [hlast] at hp ⊢
  split_ifs at hp ⊢ with hlt heq
  · exact .inl ⟨_, hlt, rfl⟩
  · exact .inr rfl
  · exact absurd rfl hp

theorem leaf_low (hd : 512 ≤ d) (hp : leaf mem (d + 9) p ≠ 0) : leaf mem (d + 9) p / 4096 ≤ d + 10 := by
  obtain ⟨-, -, ⟨x, hx, he⟩ | he⟩ := h.leaf_cases hp
  · have := h.image x hx
    rw [he, entry_div (by decide)]
    exact this
  · rw [he]
    omega

theorem not_managed (hp : leaf mem (d + 9) p ≠ 0) : ¬ ManagedPage p := by
  obtain ⟨hs, hq, -⟩ := h.leaf_cases hp
  rintro (hm | hm)
  · exact hm hs
  · rw [pml4Page_eq (by decide)] at hm
    omega

/-- The forest after start-up. -/
theorem tableInv {fl : FreeList} (hfl : fl.freeMemory / 4096 = d + 257) :
    TableInv (d + 9) mem fl := by
  refine ⟨?_, ?_, ?_, ?_⟩
  · intro s l t l' f hl hl' hf hf'
    obtain ⟨rfl, hc⟩ := h.table_cases hl hf
    obtain ⟨rfl, hc'⟩ := h.table_cases hl' hf'
    refine ⟨rfl, ?_⟩
    rcases hc with ⟨rfl, hc⟩ | ⟨rfl, hc⟩ | ⟨rfl, hc⟩ <;>
      rcases hc' with ⟨rfl, hc'⟩ | ⟨rfl, hc'⟩ | ⟨rfl, hc'⟩ <;> first | rfl | omega
  · intro s i l f hl hf
    have hi := hl.head_lt
    obtain ⟨rfl, hc⟩ := h.table_cases (validPath_closed s i l hl) hf
    rcases hc with ⟨-, rfl⟩ | ⟨-, rfl⟩ | ⟨rfl, -⟩
    · by_cases h510 : i = 510
      · rw [h.second i hi, if_pos h510]
        exact .inr (entry_mod (by decide))
      · rw [h.second i hi, if_neg h510]
        exact .inl rfl
    · by_cases h1 : i = 1
      · rw [h.third i hi, if_pos h1]
        exact .inr (entry_mod (by decide))
      · rw [h.third i hi, if_neg h1]
        exact .inl rfl
    · exact absurd hl.1 (by simp)
  · rintro f hf ⟨b, -, rfl⟩
    have := (h.isTable_lt hf).1
    rw [FreeList.frame, hfl] at this
    omega
  · intro c f hc hf
    rw [h.root_none hc] at hf
    exact absurd hf (by simp)

theorem leafInv {fl : FreeList} (hd : 512 ≤ d) (hfl : fl.freeMemory / 4096 = d + 257) :
    LeafInv (leaf mem (d + 9)) (IsTable mem (d + 9)) fl noRes := by
  have hlow : ∀ p b, leaf mem (d + 9) p ≠ 0 → leaf mem (d + 9) p / 4096 ≠ fl.frame b := by
    intro p b hp
    have := h.leaf_low hd hp
    rw [FreeList.frame, hfl]
    omega
  have hnot : ∀ p, leaf mem (d + 9) p ≠ 0 → ¬ fl.frame 0 ≤ leaf mem (d + 9) p / 4096 := by
    intro p hp
    have := h.leaf_low hd hp
    rw [FreeList.frame, hfl]
    omega
  refine ⟨?_, ?_, ?_, ?_, ?_, ?_⟩
  · refine ((Finset.range 512).image fun i =>
      ((none, 0x7FFFC01 * 512 + i) : Page)).finite_toSet.subset ?_
    intro p hp
    have h0 : leaf mem (d + 9) p ≠ 0 := by
      intro h0
      exact hp (by simp [claims, h0, noRes])
    obtain ⟨hs, hq, -⟩ := h.leaf_cases h0
    rw [Finset.mem_coe, Finset.mem_image]
    refine ⟨p.2 % 512, Finset.mem_range.mpr (Nat.mod_lt _ (by decide)), ?_⟩
    refine Prod.ext hs.symm ?_
    show _ * 512 + p.2 % 512 = p.2
    omega
  · intro p
    by_cases h0 : leaf mem (d + 9) p = 0
    · exact .inl h0
    · obtain ⟨-, -, ⟨x, -, he⟩ | he⟩ := h.leaf_cases h0
      · refine .inr (.inr (.inr ⟨?_, h.not_managed h0⟩))
        rw [he]
        exact entry_mod (by decide)
      · rw [he]
        exact .inr (.inr (.inl rfl))
  · exact fun p hm hp => absurd hm (h.not_managed hp)
  · intro p p' hp _ _ hle
    exact absurd hle (hnot p hp)
  · intro p _ hp hle
    exact absurd hle (hnot p hp)
  · intro b _
    have hempty : users (claims (leaf mem (d + 9)) noRes) (fl.frame b) = ∅ := by
      refine Set.eq_empty_of_forall_notMem fun p hp => ?_
      by_cases h0 : leaf mem (d + 9) p = 0
      · have hp : claims (leaf mem (d + 9)) noRes p = some (fl.frame b) := hp
        simp [claims, h0, noRes] at hp
      · have hp : claims (leaf mem (d + 9)) noRes p = some (fl.frame b) := hp
        rw [claims_of_leaf h0] at hp
        exact hlow p b h0 (Option.some.inj hp)
    rw [hempty, Set.ncard_empty]
    exact Nat.zero_le _

/-- The PML4 of start-up. -/
theorem rootInv {fl : FreeList} (hfl : fl.freeMemory / 4096 = d + 257) :
    RootInv (d + 9) ⟨mem, (d + 1) * 4096, fl⟩ := by
  have hcr3 : (d + 1) * 4096 / 4096 = d + 1 := Nat.mul_div_cancel _ (by decide)
  refine ⟨?_, ?_, ?_, ?_⟩ <;> dsimp only <;> rw [hcr3]
  · rw [h.pml4 510 (by decide)]
    exact .inr rfl
  · rw [h.pml4 511 (by decide)]
    rfl
  · rintro ⟨b, -, hb⟩
    rw [FreeList.frame, hfl] at hb
    omega
  · intro l hl hf
    have := (h.table_cases hl hf).2
    omega

end BootWords

/-- The machine C `start` leaves to `init_proc`. -/
theorem BootInfo.Fits.start_inv {b : BootInfo} {s : VmState} (h : b.Fits) (hs : b.start = some s) :
    ∃ k < 2 ^ 52, PageInv k s.machine noRes ∧ RootInv k s.machine ∧
      (∀ c < procSize, root s.machine.mem k (some c) = none) := by
  have hfree := h.freeInv.1
  have hfm := h.freeInv.2.1
  have hal := h.physfree_aligned
  have hlo : 0x200000 ≤ b.physfree := h.physfree_low
  have hhi : b.physfree + 4096 * 10 < 0x200000 + 4096 * 510 := h.physfree_high
  obtain ⟨d, hd⟩ : ∃ d, b.physfree = d * 4096 := ⟨b.physfree / 4096, by omega⟩
  have hlo' : 512 ≤ d := by omega
  have hhi' : d + 10 < 512 + 510 := by omega
  have hbase : (emptyFreeList.freelist b.base b.length b.physfree).freeMemory / 4096 = d + 257 := by
    rw [hfm]
    omega
  rw [BootInfo.start, Option.bind_eq_bind, Option.bind_eq_some_iff] at hs
  obtain ⟨⟨mem, kernVA⟩, hmap, hs⟩ := hs
  rw [hd] at hmap
  obtain ⟨n, hw⟩ := mapKernpt_words hlo' hhi' hmap
  have hcr3 : b.physfree + 4096 = (d + 1) * 4096 := by omega
  rw [hcr3] at hs
  rw [← Option.some.inj hs]
  exact ⟨d + 9, by omega, ⟨hfree, hw.tableInv hbase, hw.leafInv hlo' hbase⟩, hw.rootInv hbase,
    fun c hc => hw.root_none hc⟩

theorem mapImage_total {kp p4 fuel j kernstart : Nat} (h : kernend < kernstart + 4096 * fuel) :
    ∃ n ≤ fuel, ∃ mem', mapImage kp p4 kernend (fuel + 1) j kernstart mem = some (j + n, mem') := by
  induction fuel generalizing j kernstart mem with
  | zero =>
      rw [mapImage, if_neg (by omega)]
      exact ⟨0, Nat.le_refl 0, mem, rfl⟩
  | succ fuel ih =>
      rw [mapImage]
      by_cases hle : kernstart ≤ kernend
      · rw [if_pos hle]
        have hfuel : kernend < kernstart + 4096 + 4096 * fuel :=
          h.trans_eq (page_succ kernstart fuel).symm
        obtain ⟨n, hn, mem', heq⟩ := @ih (putWord mem kp (p4 + j) (kernstart ||| 3)) (j + 1) _ hfuel
        exact ⟨n + 1, by omega, mem', by rw [heq, Nat.add_right_comm, Nat.add_assoc j]⟩
      · rw [if_neg hle]
        exact ⟨0, Nat.zero_le _, mem, rfl⟩

/-- Start-up succeeds, with all the memory of the region on the free list. -/
theorem BootInfo.Fits.start_total {b : BootInfo} (h : b.Fits) :
    ∃ s, b.start = some s ∧ s.kernVA < 0xFFFFFFFF80200000 + 4096 * 600 ∧
      b.base + b.length ≤ b.physfree + 1024 * 1024 + 4096 * (s.machine.fl.totalblockcount + 3) ∧
      s.vmaRecycleList = 0 := by
  have htot := h.freeInv.2.2
  have hhi : b.physfree + 4096 * 10 < 0x200000 + 4096 * 510 := h.physfree_high
  have hfit : b.physfree + 4096 * 10 < physbase + 4096 * 511 :=
    hhi.trans (by decide)
  have hmap : ∃ r, mapKernpt b.mem b.physfree (b.physfree + 4096 * 10) 0xB8000 = some r ∧
      r.2 < 0xFFFFFFFF80200000 + 4096 * 600 := by
    rw [mapKernpt]
    obtain ⟨n, hn, mem', heq⟩ := mapImage_total hfit
    simp only [Option.bind_eq_bind]
    rw [heq]
    refine ⟨_, rfl, ?_⟩
    have hlt : 4096 * (0 + n + 2) < 4096 * 600 := by omega
    exact Nat.add_lt_add_left hlt kernmem
  obtain ⟨r, hr, hva⟩ := hmap
  rw [BootInfo.start, hr]
  exact ⟨_, rfl, hva, htot, rfl⟩

end Sbunix
