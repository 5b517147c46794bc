import Sbunix.Sys.CowRun
import Sbunix.Sys.Proofs.FaultPages
import Sbunix.Sys.Proofs.ForkMap

/-!
# Isolation of a parent and its child

Faults keep the contents of all mapped pages, and a store reaches the processes that share its
frame.  `copy_vma` leaves the entry of the parent writable, so that the child sees what the
parent stores before the child has a copy of its own.
-/

namespace Sbunix

variable {k : Nat} {s t : VmState} {u w : CowState} {p c d e a b v x : Nat} {q : Page}
  {l : VmLabel}

/-! ## Reading -/

/-- The byte that slot `d` has at `v`. -/
def byteAt (k : Nat) (s : VmState) (d v : Nat) : Nat :=
  s.machine.mem (leaf s.machine.mem k (pageAt d v) / 4096) (v % 4096)

section

variable (hi : VmInv k s) (hd : s.alive d = true) (hu : UserAddr v)

include hi hd hu

/-- A process sees its leaf entry. -/
theorem VmInv.frameAt (h0 : leaf s.machine.mem k (pageAt d v) ≠ 0) :
    s.frameAt d v = some (leaf s.machine.mem k (pageAt d v) / 4096) := by
  have hi' := OwnRoots.switchTo hi.alive hi.pages hi.small hi.range hd
  obtain ⟨hlt, hroot⟩ := hi'.active_root rfl
  exact frameOf_leaf hi'.pages.tables hi'.rootInv (hu.inSpace hlt hroot) (hi.pages.leaves.odd h0)

/-- Programs may read the pages that are mapped, and no others. -/
theorem VmInv.readByte : s.readByte d v =
    if leaf s.machine.mem k (pageAt d v) = 0 then none else some (byteAt k s d v) := by
  have hi' := OwnRoots.switchTo hi.alive hi.pages hi.small hi.range hd
  obtain ⟨hlt, hroot⟩ := hi'.active_root rfl
  have hpage : UserPage (pageAt d v) := hu.userPage
  have hperm : permits (s.changePtable (s.mm d).cr3).machine v false = _ :=
    permits_eq hi'.pages hi'.rootInv (hu.inSpace hlt hroot)
  change _ = (leaf s.machine.mem k (pageAt d v) % 8 == 7 ||
    (!false && leaf s.machine.mem k (pageAt d v) % 8 == 5)) at hperm
  rw [VmState.readByte, hperm]
  by_cases h0 : leaf s.machine.mem k (pageAt d v) = 0
  · rw [if_pos h0, h0]
    rfl
  · have hframe : (s.changePtable (s.mm d).cr3).machine.frameOf v = _ := hi.frameAt hd hu h0
    have hflags := hi.pages.leaves.managed_flags hpage.managed
    have hmod : leaf s.machine.mem k (pageAt d v) % 8 = 7 ∨
        leaf s.machine.mem k (pageAt d v) % 8 = 5 := by omega
    rw [if_neg h0, if_pos (by cases hmod with | inl h7 => simp [h7] | inr h5 => simp [h5]),
      Machine.load8, hframe]
    rfl

end

/-! ## Steps of the two processes -/

/-- A fault of a program keeps every mapped page, in whatever frame it is then. -/
theorem FaultHandled.byteAt {m' : Machine} (hp : PageInv k s.machine noRes)
    (h : FaultHandled k s.machine m' q) (hu : UserAddr v)
    (h0 : leaf s.machine.mem k (pageAt d v) ≠ 0) :
    leaf m'.mem k (pageAt d v) ≠ 0 ∧
      byteAt k { s with machine := m' } d v = byteAt k s d v := by
  have hpage : UserPage (pageAt d v) := hu.userPage
  obtain ⟨b₀, hb₀, -, hfr₀⟩ := hp.leaves.owned _ hpage.managed h0
  have hnt : ¬ IsTable s.machine.mem k (s.machine.fl.frame b₀) :=
    Machine.mapped_not_table hp (s := spaceOf d v) (v := v) hpage h0 hfr₀
  have hnf : ¬ s.machine.fl.IsFree (s.machine.fl.frame b₀) := Machine.mapped_not_free hp h0 hfr₀
  show _ ∧ m'.mem (leaf m'.mem k (pageAt d v) / 4096) (v % 4096) =
    s.machine.mem (leaf s.machine.mem k (pageAt d v) / 4096) (v % 4096)
  cases h with
  | same h =>
    rw [h]
    exact ⟨h0, rfl⟩
  | copied b n _ _ hfr h =>
    have hfree : s.machine.fl.IsFree (s.machine.fl.frame n) := ⟨n, by simp [h.blocks], rfl⟩
    rw [h.leaf]
    by_cases hq : pageAt d v = q
    · rw [hq, Function.update_self, entry_div (by decide), hfr]
      exact ⟨Nat.succ_ne_zero _, h.page _ (Nat.mod_lt v (by decide))⟩
    · rw [Function.update_of_ne hq, hfr₀, h.frames _ hnt]
      · exact ⟨h0, rfl⟩
      · intro heq
        rw [heq] at hnf
        exact hnf hfree
  | mapped P b hq0 h =>
    have hfree : s.machine.fl.IsFree (s.machine.fl.frame b) := ⟨b, by simp [h.blocks], rfl⟩
    have hq : pageAt d v ≠ q := by
      intro heq
      rw [heq] at h0
      exact h0 hq0
    rw [h.leaf, Function.update_of_ne hq, hfr₀, h.frames]
    · exact ⟨h0, rfl⟩
    · intro ht
      cases h.fresh _ ht with
      | inl ht => exact hnt ht
      | inr hP =>
        obtain ⟨c', hc', heq⟩ := hP
        rw [heq] at hnf
        exact hnf ⟨c', by simp [h.blocks, hc'], rfl⟩
    · intro heq
      rw [heq] at hnf
      exact hnf hfree

/-- Different addresses have different places in memory, in all address spaces. -/
theorem VmInv.place_inj (hi : VmInv k s) (hu : UserAddr a) (ha : Canonical a) (hv : Canonical v)
    (ha0 : leaf s.machine.mem k (pageAt e a) ≠ 0) (hv0 : leaf s.machine.mem k (pageAt d v) ≠ 0)
    (hf : leaf s.machine.mem k (pageAt e a) / 4096 = leaf s.machine.mem k (pageAt d v) / 4096)
    (hoff : a % 4096 = v % 4096) : v = a := by
  have hpage : UserPage (pageAt e a) := hu.userPage
  obtain ⟨b₀, -, -, hfr⟩ := hi.pages.leaves.owned _ hpage.managed ha0
  have hhome : pageOf a = pageOf v := by
    apply hi.pages.leaves.home (pageAt e a) (pageAt d v) ha0 hv0 hf
    rw [hfr]
    exact FreeList.frame_mono
  have hdiv := ha.page_eq hv hhome
  omega

/-- The two processes, with `a` mapped in both. -/
structure CowSpace (k p c a : Nat) (u : CowState) : Prop where
  inv : VmInv k u.vm
  ne : p ≠ c
  alive : ∀ d, d = p ∨ d = c → u.vm.alive d = true
  active : ∃ d, (d = p ∨ d = c) ∧ u.vm.active = some d
  user : UserAddr a
  canonical : Canonical a
  mapped : ∀ d, d = p ∨ d = c → leaf u.vm.machine.mem k (pageAt d a) ≠ 0

/-- What a step of the two means for the address `a`. -/
inductive CowEffect (k p c a : Nat) (l : VmLabel) (u w : CowState) : Prop
  | kept (hl : ∀ x, l ≠ .userStore a x) (hw : w.wrote = u.wrote)
      (hb : ∀ e, e = p ∨ e = c → byteAt k w.vm e a = byteAt k u.vm e a)
  | stored (d x : Nat) (hl : l = .userStore a x) (hd : d = p ∨ d = c) (ha : u.vm.active = some d)
      (hw : w.wrote = Function.update u.wrote d true)
      (hb : ∀ e, e = p ∨ e = c → byteAt k w.vm e a =
        if leaf u.vm.machine.mem k (pageAt e a) / 4096 = leaf u.vm.machine.mem k (pageAt d a) / 4096
        then x % 256 else byteAt k u.vm e a)

theorem CowSpace.step (h : CowSpace k p c a u) (hs : cowStep p c a l u = some w) :
    CowSpace k p c a w ∧ CowEffect k p c a l u w := by
  obtain ⟨d, hd, ha⟩ := h.active
  cases l with
  | switch e =>
    rw [cowStep] at hs
    split_ifs at hs with he
    obtain ⟨t, ht, rfl⟩ := Option.map_eq_some_iff.mp hs
    have hi := h.inv.vmStep ht
    rw [vmStep] at ht
    split_ifs at ht
    obtain rfl := Option.some.inj ht
    refine ⟨⟨hi, h.ne, h.alive, ⟨e, he, rfl⟩, h.user, h.canonical, h.mapped⟩,
      .kept ?_ rfl fun _ _ => rfl⟩
    intro x hl
    cases hl
  | userFault v write =>
    obtain ⟨t, ht, rfl⟩ := Option.map_eq_some_iff.mp hs
    have hi := h.inv.vmStep ht
    have hfault : u.vm.active.bind _ = some t := ht
    rw [ha, Option.bind_some] at hfault
    obtain ⟨-, m', rfl, -, -, hhandled⟩ := userFault_handled h.inv ha hfault
    refine ⟨⟨hi, h.ne, h.alive, ⟨d, hd, ha⟩, h.user, h.canonical, ?_⟩, .kept ?_ rfl ?_⟩
    · intro e he
      exact (hhandled.byteAt h.inv.pages h.user (h.mapped e he)).1
    · intro x hl
      cases hl
    · intro e he
      exact (hhandled.byteAt h.inv.pages h.user (h.mapped e he)).2
  | userStore v x =>
    rw [cowStep, ha, Option.bind_some] at hs
    obtain ⟨w', hw', rfl⟩ := Option.map_eq_some_iff.mp hs
    obtain ⟨t, ht, rfl⟩ := Option.map_eq_some_iff.mp hw'
    have hi := h.inv.vmStep ht
    have hstore : u.vm.active.bind _ = some t := ht
    rw [ha, Option.bind_some, VmState.stepOf] at hstore
    split_ifs at hstore with hc
    have hv := h.inv.userAddr hc.2.1
    obtain ⟨hv0, m', -, rfl, hleaf, -, -, hmem⟩ := store8_keeps h.inv ha hv hstore
    have hmapped : ∀ e, e = p ∨ e = c → leaf m'.mem k (pageAt e a) ≠ 0 := by
      intro e he
      rw [hleaf]
      exact h.mapped e he
    have hbyte : ∀ e, e = p ∨ e = c → byteAt k { u.vm with machine := m' } e a =
        if leaf u.vm.machine.mem k (pageAt e a) / 4096 =
            leaf u.vm.machine.mem k (pageAt d v) / 4096 ∧ a % 4096 = v % 4096
        then x % 256 else byteAt k u.vm e a := by
      intro e _
      show m'.mem (leaf m'.mem k (pageAt e a) / 4096) (a % 4096) = _
      rw [hleaf, hmem]
      by_cases hf : leaf u.vm.machine.mem k (pageAt e a) / 4096 =
          leaf u.vm.machine.mem k (pageAt d v) / 4096
      · rw [hf, Function.update_self, Function.update_apply]
        simp [byteAt, hf]
      · rw [Function.update_of_ne hf, if_neg (fun hboth => hf hboth.1)]
        rfl
    by_cases hva : v = a
    · rw [if_pos hva]
      refine ⟨⟨hi, h.ne, h.alive, ⟨d, hd, ha⟩, h.user, h.canonical, hmapped⟩, ?_⟩
      rw [hva] at hbyte ⊢
      refine .stored d x rfl hd ha rfl ?_
      intro e he
      rw [hbyte e he]
      simp
    · rw [if_neg hva]
      refine ⟨⟨hi, h.ne, h.alive, ⟨d, hd, ha⟩, h.user, h.canonical, hmapped⟩, .kept ?_ rfl ?_⟩
      · intro y hl
        cases hl
        exact hva rfl
      · intro e he
        rw [hbyte e he, if_neg]
        intro hboth
        exact hva (h.inv.place_inj h.user h.canonical (h.inv.canonical hc.2.1) (h.mapped e he) hv0
          hboth.1 hboth.2)
  | _ => cases hs

namespace CowSpace

theorem readByte (h : CowSpace k p c a u) (hd : d = p ∨ d = c) :
    u.vm.readByte d a = some (byteAt k u.vm d a) := by
  rw [h.inv.readByte (h.alive d hd) h.user, if_neg (h.mapped d hd)]

theorem frameAt_eq (h : CowSpace k p c a u) (hd : d = p ∨ d = c) (he : e = p ∨ e = c) :
    u.vm.frameAt e a = u.vm.frameAt d a ↔
      leaf u.vm.machine.mem k (pageAt e a) / 4096 = leaf u.vm.machine.mem k (pageAt d a) / 4096 := by
  rw [h.inv.frameAt (h.alive d hd) h.user (h.mapped d hd),
    h.inv.frameAt (h.alive e he) h.user (h.mapped e he), Option.some.injEq]

theorem isolated_iff (h : CowSpace k p c a u) : Isolated u p c a b ↔
    ∀ d, d = p ∨ d = c → u.wrote d = false → byteAt k u.vm d a = b := by
  constructor
  · intro hiso d hd hw
    have hread : u.vm.readByte d a = some b := by
      cases hd with
      | inl heq =>
        rw [heq] at hw ⊢
        exact hiso.parent hw
      | inr heq =>
        rw [heq] at hw ⊢
        exact hiso.child hw
    rw [h.readByte hd] at hread
    exact Option.some.inj hread
  · intro hall
    constructor
    · intro hw
      rw [h.readByte (.inl rfl), hall p (.inl rfl) hw]
    · intro hw
      rw [h.readByte (.inr rfl), hall c (.inr rfl) hw]

/-- The other of the two. -/
theorem exists_other (h : CowSpace k p c a u) (hd : d = p ∨ d = c) :
    ∃ e, (d = p ∧ e = c ∨ d = c ∧ e = p) ∧ (e = p ∨ e = c) ∧ e ≠ d ∧
      ∀ e', e' = p ∨ e' = c → e' = d ∨ e' = e := by
  have hne := h.ne
  cases hd with
  | inl heq => exact ⟨c, .inl ⟨heq, rfl⟩, .inr rfl, by omega, by omega⟩
  | inr heq => exact ⟨p, .inr ⟨heq, rfl⟩, .inl rfl, by omega, by omega⟩

/-- A step keeps the two apart exactly if it stores nothing that the other one sees. -/
theorem isolated_step (h : CowSpace k p c a u) (hu : Isolated u p c a b)
    (hs : cowStep p c a l u = some w) : Isolated w p c a b ↔ Unseen p c a l u := by
  have hbytes := h.isolated_iff.mp hu
  obtain ⟨hw, heffect⟩ := h.step hs
  rw [hw.isolated_iff]
  cases heffect with
  | kept hl hwrote hb =>
    constructor
    · intro _ x d e hlx
      exact absurd hlx (hl x)
    · intro _ d hd hnot
      rw [hwrote] at hnot
      rw [hb d hd]
      exact hbytes d hd hnot
  | stored d x hl hd ha hwrote hb =>
    obtain ⟨e, hpair, he, hne, hboth⟩ := h.exists_other hd
    have hother : w.wrote e = u.wrote e := by rw [hwrote, Function.update_of_ne hne]
    -- only the other process still has to read the old byte
    have hunseen : Unseen p c a l u ↔ u.wrote e = true ∨
        u.vm.frameAt e a ≠ u.vm.frameAt d a ∨ u.vm.readByte e a = some (x % 256) := by
      constructor
      · intro hall
        exact hall x d e hl ha hpair
      · intro hor x' d' e' hl' ha' hpair'
        obtain rfl : d = d' := Option.some.inj (ha.symm.trans ha')
        rw [hl] at hl'
        obtain ⟨-, rfl⟩ := VmLabel.userStore.inj hl'
        have hne' := h.ne
        have hee : e' = e := by omega
        rw [hee]
        exact hor
    have hleft : (∀ d', d' = p ∨ d' = c → w.wrote d' = false → byteAt k w.vm d' a = b) ↔
        (u.wrote e = false → byteAt k w.vm e a = b) := by
      constructor
      · intro hall hnot
        exact hall e he (hother.trans hnot)
      · intro hone d' hd' hnot
        cases hboth d' hd' with
        | inl heq =>
          rw [heq, hwrote, Function.update_self] at hnot
          cases hnot
        | inr heq =>
          rw [heq] at hnot ⊢
          exact hone (hother.symm.trans hnot)
    rw [hunseen, hleft, hb e he, ne_eq, h.frameAt_eq hd he, h.readByte he, Option.some.injEq]
    cases hwr : u.wrote e with
    | true => simp
    | false =>
      have hold := hbytes e he hwr
      split_ifs with hf
      · simp only [hold, hf, not_true_eq_false, false_or, forall_const]
        exact eq_comm
      · simp [hold, hf]

end CowSpace

/-! ## The fork -/

theorem inVmaFrom_iff {vma : Nat → Vma} {fuel n : Nat} : VmState.inVmaFrom vma v fuel n = true ↔
    ∃ x ∈ VmState.nodesFrom vma fuel n, (vma x).vstart ≤ v ∧ v ≤ (vma x).vend := by
  induction fuel generalizing n with
  | zero => simp [VmState.inVmaFrom, VmState.nodesFrom]
  | succ fuel ih =>
    rw [VmState.inVmaFrom, VmState.nodesFrom]
    by_cases h0 : n = 0
    · simp [h0]
    · rw [if_neg h0, if_neg h0]
      by_cases hin : (vma n).vstart ≤ v ∧ v ≤ (vma n).vend
      · simp [hin]
      · rw [if_neg hin, ih]
        simp [hin]

/-- `IsPageInVmaList` looks through the areas of the process. -/
theorem isPageInVmaList_iff : s.isPageInVmaList d v = true ↔ InAreas (s.areas (s.vmaNodes d)) v := by
  rw [VmState.isPageInVmaList, inVmaFrom_iff]
  simp [InAreas, VmState.areas, VmState.vmaNodes]

/-- `t` is `s` after the process in slot `p` has forked a child into slot `c`. The parent keeps
its entries, apart from those of the kernel half, which the child has as well. -/
structure Forked (k : Nat) (s t : VmState) (p c : Nat) : Prop where
  inv : VmInv k t
  ne : p ≠ c
  alive : t.alive = Function.update s.alive c true
  active : t.active = some c
  areas : t.areas (t.vmaNodes p) = s.areas (s.vmaNodes p)
  childAreas : t.areas (t.vmaNodes c) = s.areas (s.vmaNodes p)
  parent : ∀ a, UserAddr a → leaf t.machine.mem k (pageAt p a) = leaf s.machine.mem k (pageAt p a) ∨
    p1Index a = 511 ∧ leaf s.machine.mem k (pageAt p a) ≠ 0 ∧
      leaf t.machine.mem k (pageAt p a) = leaf s.machine.mem k (pageAt p a) / 4096 * 4096 + 5
  child : ∀ a, s.isPageInVmaList p a = true → leaf s.machine.mem k (pageAt p a) ≠ 0 →
    leaf t.machine.mem k (pageAt c a) = leaf s.machine.mem k (pageAt p a) / 4096 * 4096 + 5
  frames : ∀ f, ¬ IsTable s.machine.mem k f → ¬ s.machine.fl.IsFree f → ¬ IsTable t.machine.mem k f →
    t.machine.mem f = s.machine.mem f
  outside : ∀ q, UserPage q → q.1 ≠ some c →
    SameFrame (leaf t.machine.mem k q) (leaf s.machine.mem k q)
  inherited : ∀ q, leaf t.machine.mem k (some c, q) ≠ 0 → leaf s.machine.mem k (some p, q) ≠ 0 ∧
    leaf t.machine.mem k (some c, q) / 4096 = leaf s.machine.mem k (some p, q) / 4096
  freeMemory : t.machine.fl.freeMemory = s.machine.fl.freeMemory
  isFree : ∀ f, t.machine.fl.IsFree f → s.machine.fl.IsFree f

theorem VmInv.forked {lists : Option Nat → List Nat} (hi : VmInv k s) (howned : s.Owned lists)
    (ha : s.active = some p) (h : Sbunix.vmStep (.fork c) s = some t) : Forked k s t p c := by
  have hi' := hi.vmStep h
  have hrun : s.active.bind _ = some t := h
  rw [ha, Option.bind_some, VmState.stepOf] at hrun
  split_ifs at hrun with hc
  simp only [VmState.syscallFork, Option.bind_eq_bind, Option.bind_eq_some_iff] at hrun
  obtain ⟨s₁, h₁, s₃, h₃, hrun⟩ := hrun
  obtain ⟨ga, gc, hfork, hstart, hnew⟩ :=
    hi.forkStart (n := (s₁.mm p).heapTop) ha howned hc.1 hc.2 h₁
  have hpc := hfork.slots.ne
  have hal := (hfork.copyFrom h₃).2.1
  have hcopied := (copyVma_copied hstart).sound s₃ h₃
  obtain ⟨⟨lists', hnodes⟩, -⟩ := hstart.nodes.sound s₃ h₃
  have hmap := hnodes.map
  -- the state in which `copy_vma` starts
  obtain ⟨P, hcr, -⟩ := hnew.created
  obtain ⟨s₂, hs₂⟩ : ∃ s₂, s₁.setMm c (fun m => { m with heapTop := (s₁.mm p).heapTop, vmaList := 0 }) =
    s₂ := ⟨_, rfl⟩
  have hmach₂ : s₂.machine = s₁.machine := by rw [← hs₂]; rfl
  have hvma₂ : s₂.vma = s.vma := by rw [← hs₂]; exact hnew.vma
  have hal₂ : s₂.alive = Function.update s.alive c true := by rw [← hs₂]; exact hnew.alive
  have hmm₂ : s₂.mm p = s.mm p := by
    rw [← hs₂]
    exact (Function.update_of_ne hpc _ _).trans (hnew.mm p hpc)
  have hnodes₂ : s₂.vmaNodes p = s.vmaNodes p := by
    unfold VmState.vmaNodes
    rw [hvma₂, hmm₂]
  have hareas₂ : s₂.areas (s₂.vmaNodes p) = s.areas (s.vmaNodes p) := by
    rw [hnodes₂]
    unfold VmState.areas
    rw [hvma₂]
  rw [hs₂] at hmap hal hcopied
  rw [← hmach₂] at hcr
  have hout₂ : ∀ q, UserPage q → q.1 ≠ some c → leaf s₂.machine.mem k q = leaf s.machine.mem k q := by
    intro q hq hqc
    rw [hcr.leaf, if_neg hqc]
    intro heq
    exact hq.not_window (heq ▸ window_mk hc.1)
  have hleaf₂ : ∀ a, UserAddr a →
      leaf s₂.machine.mem k (pageAt p a) = leaf s.machine.mem k (pageAt p a) := by
    intro a hu
    apply hout₂ _ hu.userPage
    unfold pageAt spaceOf
    split_ifs
    · simp
    · simpa using hpc
  rw [← Option.some.inj hrun] at hi' ⊢
  refine ⟨hi', hpc, hal.trans hal₂, rfl, hcopied.parent.2.trans hareas₂,
    hcopied.child.trans hareas₂, ?_, ?_, ?_, ?_, ?_, hmap.freeMemory.trans hcr.freeMemory, ?_⟩
  · intro a hu
    rw [← hleaf₂ a hu]
    by_cases h511 : p1Index a = 511
    · cases hmap.shared.parent a with
      | inl heq => exact .inl heq
      | inr hne => exact .inr ⟨h511, hne⟩
    · left
      apply hmap.shared.other
      intro v _ hp
      -- the page lies in the half of the parent
      have hspace : spaceOf p a = spaceOf c v := congrArg Prod.fst hp
      unfold spaceOf at hspace
      rw [if_neg h511] at hspace
      split_ifs at hspace
      exact absurd (Option.some.inj hspace) hpc
  · intro a hin h0
    have hu := hi.userAddr hin
    have hD : InAreas (s₂.areas (s₂.vmaNodes p)) a := by
      rw [hareas₂]
      exact isPageInVmaList_iff.mp hin
    rw [← hleaf₂ a hu] at h0 ⊢
    exact hmap.shared.shared a hD h0
  · intro f hf hfree hf'
    refine (hmap.frames f hf').trans (hcr.frames f hf ?_)
    intro b hb heq
    rw [heq] at hfree
    exact hfree ⟨b, by simp [hcr.blocks, hb], rfl⟩
  · intro q hq hqc
    rw [← hout₂ q hq hqc]
    exact hmap.shared.outside hqc
  · intro q hq0
    have hempty : leaf s₂.machine.mem k (some c, q) = 0 := by
      rw [hcr.leaf _ (by simp), if_pos rfl]
    rw [← hout₂ (some p, q) (.inl (by simp)) (by simpa using hpc)]
    exact hmap.shared.inherited hempty hq0
  · intro f hf
    obtain ⟨b, hb, rfl⟩ := hmap.isFree hf
    refine ⟨b, by simp [hcr.blocks, hb], ?_⟩
    exact FreeList.frame_congr hcr.freeMemory b

/-- The two processes have every page in the frame in which the parent had it. -/
theorem Forked.frame_eq (h : Forked k s t p c) (hu : UserAddr a) (hin : s.isPageInVmaList p a = true)
    (h0 : leaf s.machine.mem k (pageAt p a) ≠ 0) (hd : d = p ∨ d = c) :
    leaf t.machine.mem k (pageAt d a) ≠ 0 ∧
      leaf t.machine.mem k (pageAt d a) / 4096 = leaf s.machine.mem k (pageAt p a) / 4096 := by
  have h5 : ∀ n, n * 4096 + 5 ≠ 0 ∧ (n * 4096 + 5) / 4096 = n := by omega
  cases hd with
  | inl heq =>
    rw [heq]
    cases h.parent a hu with
    | inl hsame =>
      rw [hsame]
      exact ⟨h0, rfl⟩
    | inr hlow =>
      rw [hlow.2.2]
      exact h5 _
  | inr heq =>
    rw [heq, h.child a hin h0]
    exact h5 _

/-- A fork shares every mapped page that the VMAs of the parent cover. -/
theorem Forked.cowSpace (h : Forked k s t p c) (hi : VmInv k s) (ha : s.active = some p)
    (hin : s.isPageInVmaList p a = true) (h0 : leaf s.machine.mem k (pageAt p a) ≠ 0) :
    CowSpace k p c a ⟨t, fun _ => false⟩ ∧
      ∀ d, d = p ∨ d = c → byteAt k t d a = byteAt k s p a := by
  have hu := hi.userAddr hin
  have hpage : UserPage (pageAt p a) := hu.userPage
  have halive := (hi.active p ha).1
  refine ⟨⟨h.inv, h.ne, ?_, ⟨c, .inr rfl, h.active⟩, hu, hi.canonical hin,
    fun d hd => (h.frame_eq hu hin h0 hd).1⟩, ?_⟩
  · intro d hd
    show t.alive d = true
    rw [h.alive, Function.update_apply]
    cases hd with
    | inl heq => rw [heq, if_neg h.ne, halive]
    | inr heq => rw [if_pos heq]
  · intro d hd
    obtain ⟨b₀, -, -, hfr⟩ := hi.pages.leaves.owned _ hpage.managed h0
    obtain ⟨hne, heq⟩ := h.frame_eq hu hin h0 (.inl rfl)
    unfold byteAt
    rw [(h.frame_eq hu hin h0 hd).2, h.frames]
    · rw [hfr]
      exact Machine.mapped_not_table hi.pages (s := spaceOf p a) (v := a) hpage h0 hfr
    · rw [hfr]
      exact Machine.mapped_not_free hi.pages h0 hfr
    · rw [← heq]
      apply h.inv.pages.leaves.notTable _ hpage.not_window hne
      rw [heq, hfr]
      simp only [FreeList.frame, h.freeMemory]
      exact Nat.add_le_add_left (Nat.zero_le b₀) _

/-- A page of the process half that the parent could write stays writable for it. -/
theorem Forked.parent_writable (h : Forked k s t p c) (hu : UserAddr a)
    (h7 : leaf s.machine.mem k (pageAt p a) % 8 = 7) (hhalf : p1Index a ≠ 511 := by decide) :
    leaf t.machine.mem k (pageAt p a) % 8 = 7 := by
  cases h.parent a hu with
  | inl heq => rwa [heq]
  | inr hlow => exact absurd hlow.1 hhalf

/-- The child has the page of its parent, and may only read it. -/
theorem Forked.shared (h : Forked k s t p c) (hin : s.isPageInVmaList p a = true)
    (h0 : leaf s.machine.mem k (pageAt p a) ≠ 0) :
    t.isPageInVmaList c a = true ∧ leaf t.machine.mem k (pageAt c a) % 8 = 5 := by
  constructor
  · rw [isPageInVmaList_iff, h.childAreas]
    exact isPageInVmaList_iff.mp hin
  · rw [h.child a hin h0]
    omega

/-! ## The copy of a page -/

/-- The first program forks at once. -/
theorem OnePage.vmStep_fork (h : OnePage k s) :
    ∃ t, vmStep (.fork 1) s = some t ∧ 50 ≤ t.machine.fl.totalblockcount := by
  obtain ⟨t, t₁, u, -, -, ht, ht₁, -, -, -, hu, hroom⟩ := h.fork (s.mm 0).heapTop
  have hnew := (createNewProcess_spec h.inv.pages h.inv.rootInv h.inv.small (by decide)
    (h.inv.root_ne h.active (by decide) (h.alive 1 (by decide)))).sound _ ht
  have hmm : t.mm 0 = s.mm 0 := by
    obtain ⟨g, hnew⟩ := hnew
    exact hnew.mm 0 (by decide)
  refine ⟨{ u.changePtable (u.mm 1).cr3 with active := some 1 }, ?_, hroom⟩
  show s.active.bind _ = _
  rw [h.active, Option.bind_some, VmState.stepOf, if_pos ⟨by decide, h.alive 1 (by decide)⟩,
    VmState.syscallFork, Option.bind_eq_bind, ht, Option.bind_some]
  dsimp only
  rw [hmm, ht₁, hu, Option.bind_some]

/-- In every reachable state `cow` at a mapped page below slot 510, whatever the flags of its entry,
gives the process a page of its own. It halts when the free list has fewer than five pages. -/
theorem cow_private {cond : VmLabel → VmState → Prop} (h : VmReach cond s) (ha : s.active = some a)
    (hv : v < 2 ^ 64) (h510 : p1Index v < 510) {w : Walk}
    (hw : walk s.machine.mem s.machine.cr3 v = some w) :
    ((∃ m', s.machine.cow v = some m') ↔ 5 ≤ s.machine.fl.totalblockcount) ∧
      ∀ m', s.machine.cow v = some m' → ∃ n, PrivateCopy s.machine m' a v (w.e4 / 4096) n := by
  cases h.vmInv with
  | intro k hi =>
    have hu : UserAddr v := ⟨hv, .inl h510⟩
    obtain ⟨halt, hroot⟩ := hi.active_root ha
    have hs := hu.inSpace halt hroot
    have h0 : leaf s.machine.mem k (pageAt a v) ≠ 0 := by
      intro h0
      rw [walk_none hi.pages.tables hi.rootInv hs h0] at hw
      exact absurd hw (by simp)
    have hodd : leaf s.machine.mem k (spaceOf a v, pageOf v) % 2 = 1 := hi.pages.leaves.odd h0
    obtain ⟨f2, f3, f4, hw'⟩ := walk_leaf hi.pages.tables hi.rootInv hs hodd
    have he4 : w.e4 = leaf s.machine.mem k (pageAt a v) := by
      rw [hw, Option.some.injEq] at hw'
      rw [hw']
      rfl
    obtain ⟨b, hb, -, hfr⟩ := hi.pages.leaves.owned _ hu.userPage.managed h0
    have hcow := Machine.cow_spec hi.pages hi.rootInv hs hu.userPage hv h0 hb hfr
    constructor
    · exact ⟨fun ⟨m', hm'⟩ => Machine.cow_room hm', hcow.total⟩
    · intro m' hm'
      obtain ⟨n, hcp, hp', hr'⟩ := hcow.sound m' hm'
      refine ⟨s.machine.fl.frame n, ?_⟩
      rw [he4, hfr]
      exact .of_copied hi.pages hi.rootInv halt hroot hu h510 h0 hb hfr hcp hp' hr'

/-- The entry that the processor finds for a page of the running program. -/
theorem VmInv.walk_present (hi : VmInv k s) (ha : s.active = some d) (hu : UserAddr v)
    (hodd : leaf s.machine.mem k (pageAt d v) % 2 = 1) :
    ∃ w, walk s.machine.mem s.machine.cr3 v = some w ∧
      w.e4 = leaf s.machine.mem k (pageAt d v) := by
  obtain ⟨halt, hroot⟩ := hi.active_root ha
  obtain ⟨f2, f3, f4, hw⟩ := walk_leaf hi.pages.tables hi.rootInv (hu.inSpace halt hroot) hodd
  exact ⟨_, hw, rfl⟩

/-- The page that the child of the first program shares with its parent. -/
theorem cow_private_child : ∃ (s t : VmState) (w : Walk) (m' : Machine) (n : Nat),
    vmStep (.fork 1) s = some t ∧ t.active = some 1 ∧
    walk t.machine.mem t.machine.cr3 0x400000 = some w ∧ w.e4 % 8 = 5 ∧
    t.machine.cow 0x400000 = some m' ∧ PrivateCopy t.machine m' 1 0x400000 (w.e4 / 4096) n := by
  obtain ⟨k, s, h⟩ := onePage
  obtain ⟨lists, howned⟩ := h.reach.owned
  obtain ⟨t, ht, hroom⟩ := h.vmStep_fork
  have hforked := h.inv.forked howned h.active ht
  have h5 := (hforked.shared h.covered h.mapped).2
  obtain ⟨w, hw, he4⟩ := hforked.inv.walk_present hforked.active h.userAddr (by omega)
  rw [← he4] at h5
  have hcow := cow_private (.step _ h.reach ⟨trivial, ht⟩) hforked.active (by decide) (by decide) hw
  obtain ⟨m', hm'⟩ := hcow.1.mpr (by omega)
  obtain ⟨n, hn⟩ := hcow.2 m' hm'
  exact ⟨s, t, w, m', n, ht, hforked.active, hw, h5, hm', hn⟩

/-! ## Isolation -/

/-- After a fork, as long as no store is seen by the other process, each of the two reads the byte
that it had at the fork until it stores there itself; and the first store that is seen ends
this. -/
theorem fork_isolated {cond : VmLabel → VmState → Prop} (h : VmReach cond s)
    (ha : s.active = some p) (hin : s.isPageInVmaList p a = true)
    (hb : s.readByte p a = some b) (hfork : vmStep (.fork c) s = some t)
    (hrun : CowReach (Unseen p c a) p c a t u) :
    Isolated u p c a b ∧ ∀ l w, cowStep p c a l u = some w →
      (Isolated w p c a b ↔ Unseen p c a l u) := by
  obtain ⟨k, hi⟩ := h.vmInv
  obtain ⟨lists, howned⟩ := h.owned
  have hforked := hi.forked howned ha hfork
  rw [hi.readByte (hi.active p ha).1 (hi.userAddr hin)] at hb
  split_ifs at hb with h0
  obtain ⟨hspace, hbytes⟩ := hforked.cowSpace hi ha hin h0
  have hinv : CowSpace k p c a u ∧ Isolated u p c a b := by
    refine Reach.invariant (P := fun u => CowSpace k p c a u ∧ Isolated u p c a b) ?_ ?_ hrun
    · intro u₀ hu₀
      rw [hu₀]
      refine ⟨hspace, hspace.isolated_iff.mpr ?_⟩
      intro d hd _
      rw [← Option.some.inj hb]
      exact hbytes d hd
    · intro l u₁ u₂ hu₁ hstep
      exact ⟨(hu₁.1.step hstep.2).1, (hu₁.1.isolated_step hu₁.2 hstep.2).mpr hstep.1⟩
  refine ⟨hinv.2, ?_⟩
  intro l w hstep
  exact hinv.1.isolated_step hinv.2 hstep

theorem OnePage.readByte (h : OnePage k s) :
    s.readByte 0 0x400000 = some (byteAt k s 0 0x400000) := by
  rw [h.inv.readByte (h.inv.active 0 h.active).1 (h.inv.userAddr h.covered), if_neg h.mapped]

/-- A program stores where its entry lets it. -/
theorem VmInv.userStore_total (hi : VmInv k s) (ha : s.active = some d)
    (hin : s.isPageInVmaList d v = true) (h7 : leaf s.machine.mem k (pageAt d v) % 8 = 7) (x : Nat) :
    ∃ t, Sbunix.vmStep (.userStore v x) s = some t := by
  have hu := hi.userAddr hin
  obtain ⟨hlt, hroot⟩ := hi.active_root ha
  have hs := hu.inSpace hlt hroot
  have hperm : permits s.machine v true = true := by
    rw [permits_eq hi.pages hi.rootInv hs]
    change (leaf s.machine.mem k (pageAt d v) % 8 == 7 || _) = true
    rw [h7]
    rfl
  have hframe := frameOf_leaf hi.pages.tables hi.rootInv hs
    (show leaf s.machine.mem k (pageAt d v) % 2 = 1 by omega)
  obtain ⟨t, ht⟩ : ∃ t, s.store8 v x = some t := by
    rw [VmState.store8, VmState.onMachine, Machine.store8, hframe]
    exact ⟨_, rfl⟩
  refine ⟨t, ?_⟩
  show s.active.bind _ = _
  rw [ha, Option.bind_some, VmState.stepOf, if_pos ⟨hu.1, hin, hperm⟩, ht]

namespace CowSpace

/-- A store of one of the two goes through where its entry lets it. -/
theorem userStore_total (h : CowSpace k p c a u) (ha : u.vm.active = some d)
    (hin : u.vm.isPageInVmaList d a = true)
    (h7 : leaf u.vm.machine.mem k (pageAt d a) % 8 = 7) (x : Nat) :
    ∃ m', cowStep p c a (.userStore a x) u =
        some ⟨{ u.vm with machine := m' }, Function.update u.wrote d true⟩ ∧
      leaf m'.mem k = leaf u.vm.machine.mem k := by
  obtain ⟨t, ht⟩ := h.inv.userStore_total ha hin h7 x
  have hstore : u.vm.active.bind _ = some t := ht
  rw [ha, Option.bind_some, VmState.stepOf] at hstore
  split_ifs at hstore
  obtain ⟨-, m', -, rfl, hleaf, -⟩ := store8_keeps h.inv ha h.user hstore
  refine ⟨m', ?_, hleaf⟩
  rw [cowStep, CowState.setVm, ha, Option.bind_some, ht, Option.map_some, Option.map_some, if_pos rfl]

/-- Each of the two can be given the processor. -/
theorem switch_total (h : CowSpace k p c a u) (hd : d = p ∨ d = c) (hlt : d < procSize) :
    cowStep p c a (.switch d) u =
      some { u with vm := { u.vm.changePtable (u.vm.mm d).cr3 with active := some d } } := by
  rw [cowStep, if_pos hd, CowState.setVm, vmStep, if_pos ⟨hlt, h.alive d hd⟩]
  rfl

/-- The first write of one of the two to a page that it may only read: it gets a frame that the
other one does not have. -/
theorem userFault_total (h : CowSpace k p c a u) (ha : u.vm.active = some d)
    (hin : u.vm.isPageInVmaList d a = true)
    (h5 : leaf u.vm.machine.mem k (pageAt d a) % 8 = 5)
    (hroom : 5 ≤ u.vm.machine.fl.totalblockcount) :
    ∃ m', cowStep p c a (.userFault a true) u = some { u with vm := { u.vm with machine := m' } } ∧
      leaf m'.mem k (pageAt d a) % 8 = 7 ∧
      ∀ e, (e = p ∨ e = c) → pageAt e a ≠ pageAt d a →
        leaf m'.mem k (pageAt e a) = leaf u.vm.machine.mem k (pageAt e a) ∧
        leaf m'.mem k (pageAt e a) / 4096 ≠ leaf m'.mem k (pageAt d a) / 4096 := by
  obtain ⟨hlt, hroot⟩ := h.inv.active_root ha
  have hperm : permits u.vm.machine a true = false := by
    rw [permits_eq h.inv.pages h.inv.rootInv (h.user.inSpace hlt hroot)]
    change (leaf u.vm.machine.mem k (pageAt d a) % 8 == 7 || _) = false
    rw [h5]
    rfl
  have hfault := h.inv.cowFault ha h.user.1 hin h5
  obtain ⟨t, ht⟩ := hfault.total hroom
  have hstep : u.vm.stepOf d (.userFault a true) = some t := by
    rw [VmState.stepOf, if_pos ⟨h.user.1, hperm⟩]
    exact ht
  have hvm : vmStep (.userFault a true) u.vm = some t := by
    show u.vm.active.bind _ = _
    rw [ha, Option.bind_some, hstep]
  have hafter := hfault.sound t ht
  obtain ⟨-, m', rfl, -, -, hhandled⟩ := userFault_handled h.inv ha hstep
  refine ⟨m', by rw [cowStep, CowState.setVm, hvm]; rfl, ?_⟩
  cases hhandled with
  | same heq =>
    rw [heq] at hafter
    exact absurd (hperm.symm.trans hafter) (by simp)
  | mapped P b h0 _ => omega
  | copied b n _ _ _ hcp =>
    rw [hcp.leaf, Function.update_self]
    refine ⟨by omega, fun e he hne => ?_⟩
    rw [Function.update_of_ne hne]
    refine ⟨rfl, fun heq => ?_⟩
    rw [entry_div (by decide)] at heq
    exact Machine.mapped_not_free h.inv.pages (h.mapped e he) heq ⟨n, by simp [hcp.blocks], rfl⟩

end CowSpace

namespace OnePage

/-- The child of the first program has written to the page: the parent has it to itself. -/
theorem childStore (h : OnePage k s) (ht : vmStep (.fork 1) s = some t)
    (hroom : 50 ≤ t.machine.fl.totalblockcount) (x : Nat) :
    ∃ m, CowReach (Unseen 0 1 0x400000) 0 1 0x400000 t
        ⟨{ t with machine := m }, Function.update (fun _ => false) 1 true⟩ ∧
      CowSpace k 0 1 0x400000
        ⟨{ t with machine := m }, Function.update (fun _ => false) 1 true⟩ ∧
      t.isPageInVmaList 0 0x400000 = true ∧ leaf m.mem k (pageAt 0 0x400000) % 8 = 7 := by
  obtain ⟨lists, howned⟩ := h.reach.owned
  have hforked := h.inv.forked howned h.active ht
  obtain ⟨hspace, -⟩ := hforked.cowSpace h.inv h.active h.covered h.mapped
  obtain ⟨hin, h5⟩ := hforked.shared h.covered h.mapped
  obtain ⟨m₁, hstep₁, h7, hparent⟩ :=
    hspace.userFault_total (d := 1) hforked.active hin h5
      (by show 5 ≤ t.machine.fl.totalblockcount; omega)
  have hspace₁ := (hspace.step hstep₁).1
  obtain ⟨m₂, hstep₂, hleaf₂⟩ := hspace₁.userStore_total (d := 1) hforked.active hin h7 x
  have hne : pageAt 0 0x400000 ≠ pageAt 1 0x400000 := by decide
  obtain ⟨hkept, hframe⟩ := hparent 0 (.inl rfl) hne
  refine ⟨m₂, .step _ (.step _ (.init rfl) ⟨?_, hstep₁⟩) ⟨?_, hstep₂⟩, (hspace₁.step hstep₂).1, ?_, ?_⟩
  · intro y d e hl
    cases hl
  · -- the two have the page in different frames
    intro y d e _ hd hpair
    obtain rfl : 1 = d := Option.some.inj (hforked.active.symm.trans hd)
    obtain rfl : e = 0 := by omega
    exact .inr (.inl fun heq => hframe ((hspace₁.frameAt_eq (.inr rfl) (.inl rfl)).mp heq))
  · rw [isPageInVmaList_iff, hforked.areas]
    exact isPageInVmaList_iff.mp h.covered
  · show leaf m₂.mem k (pageAt 0 0x400000) % 8 = 7
    rw [hleaf₂]
    show leaf m₁.mem k (pageAt 0 0x400000) % 8 = 7
    rw [hkept]
    exact hforked.parent_writable h.userAddr h.writable

end OnePage

/-- The child of the first program writes to the page, and then the parent does. -/
theorem fork_isolated_first : ∃ (s t : VmState) (b : Nat) (u v w : CowState),
    s.readByte 0 0x400000 = some b ∧ vmStep (.fork 1) s = some t ∧
    CowReach (Unseen 0 1 0x400000) 0 1 0x400000 t u ∧ u.wrote 1 = true ∧
    u.vm.readByte 0 0x400000 = some b ∧ cowStep 0 1 0x400000 (.switch 0) u = some v ∧
    cowStep 0 1 0x400000 (.userStore 0x400000 (b + 2)) v = some w ∧ Isolated w 0 1 0x400000 b := by
  obtain ⟨k, s, h⟩ := onePage
  obtain ⟨t, ht, hroom⟩ := h.vmStep_fork
  have hb := h.readByte
  obtain ⟨m, hreach, hspace, hin, h7⟩ := h.childStore ht hroom (byteAt k s 0 0x400000 + 1)
  obtain ⟨hiso, -⟩ := fork_isolated h.reach h.active h.covered hb ht hreach
  have hswitch := hspace.switch_total (d := 0) (.inl rfl) (by decide)
  obtain ⟨m', hstore, -⟩ := (hspace.step hswitch).1.userStore_total (d := 0) rfl hin h7
    (byteAt k s 0 0x400000 + 2)
  have hreach' : CowReach (Unseen 0 1 0x400000) 0 1 0x400000 t _ :=
    .step _ hreach ⟨fun y d e hl => (by cases hl), hswitch⟩
  refine ⟨s, t, _, _, _, _, hb, ht, hreach, rfl, hiso.parent rfl, hswitch, hstore, ?_⟩
  refine ((fork_isolated h.reach h.active h.covered hb ht hreach').2 _ _ hstore).mpr ?_
  -- the child has written there itself
  intro y d e _ hd hpair
  obtain rfl : 0 = d := Option.some.inj hd
  obtain rfl : e = 1 := by omega
  exact .inl rfl

/-! ## The parent writes first -/

/-- The parent runs again after the fork and stores another byte. -/
theorem OnePage.parentStore (h : OnePage k s) (ht : vmStep (.fork 1) s = some t) (x : Nat) :
    ∃ w₀ w : CowState, cowStep 0 1 0x400000 (.switch 0) ⟨t, fun _ => false⟩ = some w₀ ∧
      cowStep 0 1 0x400000 (.userStore 0x400000 x) w₀ = some w ∧
      w₀.vm.machine.mem = t.machine.mem ∧ w₀.vm.active = some 0 ∧ w.wrote 1 = false := by
  obtain ⟨lists, howned⟩ := h.reach.owned
  have hforked := h.inv.forked howned h.active ht
  obtain ⟨hspace, -⟩ := hforked.cowSpace h.inv h.active h.covered h.mapped
  have hswitch := hspace.switch_total (d := 0) (.inl rfl) (by decide)
  have hin : t.isPageInVmaList 0 0x400000 = true := by
    rw [isPageInVmaList_iff, hforked.areas]
    exact isPageInVmaList_iff.mp h.covered
  obtain ⟨m', hstore, -⟩ := (hspace.step hswitch).1.userStore_total (d := 0) rfl hin
    (hforked.parent_writable h.userAddr h.writable) x
  exact ⟨_, _, hswitch, hstore, rfl, rfl, rfl⟩

/-- The child reads what its parent has stored. -/
theorem fork_parentStore : ∃ (s t : VmState) (b : Nat) (w : CowState),
    VmReach (fun _ _ => True) s ∧ s.active = some 0 ∧ s.isPageInVmaList 0 0x400000 = true ∧
    s.readByte 0 0x400000 = some b ∧ vmStep (.fork 1) s = some t ∧
    CowReach (fun _ _ => True) 0 1 0x400000 t w ∧ w.wrote 1 = false ∧
    w.vm.readByte 1 0x400000 ≠ some b := by
  obtain ⟨k, s, h⟩ := onePage
  obtain ⟨lists, howned⟩ := h.reach.owned
  obtain ⟨t, ht, -⟩ := h.vmStep_fork
  have hforked := h.inv.forked howned h.active ht
  obtain ⟨hspace, -⟩ := hforked.cowSpace h.inv h.active h.covered h.mapped
  obtain ⟨w₀, w, hw₀, hw, hmem, ha₀, hwrote⟩ := h.parentStore ht (byteAt k s 0 0x400000 + 1)
  have hspace₀ := (hspace.step hw₀).1
  obtain ⟨hspace₁, heffect⟩ := hspace₀.step hw
  refine ⟨s, t, byteAt k s 0 0x400000, w, h.reach, h.active, h.covered, h.readByte, ht,
    .step _ (.step _ (.init rfl) ⟨trivial, hw₀⟩) ⟨trivial, hw⟩, hwrote, ?_⟩
  rw [hspace₁.readByte (.inr rfl)]
  cases heffect with
  | kept hl => exact absurd rfl (hl _)
  | stored d x hl _ ha _ hb =>
    obtain rfl : 0 = d := Option.some.inj (ha₀.symm.trans ha)
    obtain ⟨-, rfl⟩ := VmLabel.userStore.inj hl
    -- both have the page in one frame
    have hframe : ∀ e, e = 0 ∨ e = 1 → _ := fun e he =>
      (hforked.frame_eq (h.inv.userAddr h.covered) h.covered h.mapped he).2
    rw [hb 1 (.inr rfl), hmem, hframe 1 (.inr rfl), hframe 0 (.inl rfl), if_pos rfl, ne_eq,
      Option.some.injEq]
    omega

end Sbunix
