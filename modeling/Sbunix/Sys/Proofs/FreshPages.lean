import Sbunix.Sys.Proofs.VmaFrame

/-!
# The contents of a fresh page

`map_phyaddr` clears the first 519 bytes of the page it maps; the others keep what the frame
held before.
-/

namespace Sbunix

variable {k : Nat} {m m' : Machine} {s t : VmState} {a v pa : Nat}

/-- A byte of a mapped user page. -/
theorem load8_leaf {sp : Space} {f o : Nat} (hp : PageInv k m noRes) (hr : RootInv k m)
    (hs : InSpace k m v sp) (hv : v % 4096 = 0) (ho : o < 4096)
    (h0 : leaf m.mem k (sp, pageOf v) ≠ 0) (hf : leaf m.mem k (sp, pageOf v) / 4096 = f) :
    m.load8 (v + o) = some (m.mem f o) := by
  have hpage := pageOf_add hv ho
  have hodd : leaf m.mem k (sp, pageOf (v + o)) % 2 = 1 := by
    rw [hpage]
    exact hp.leaves.odd h0
  have hoff : (v + o) % 4096 = o := by omega
  rw [Machine.load8, frameOf_leaf hp.tables hr (hs.add hv ho) hodd, hpage, hf, Option.map_some, hoff]

section

variable {P : List Nat} {sp : Space} {b : Nat} (hp : PageInv k m' noRes) (hr : RootInv k m')
  (hs : InSpace k m' v sp) (hv : v % 4096 = 0) (hm : Mapped k m m' (sp, pageOf v) P b)

include hp hr hs hv hm

theorem load8_mapped {o : Nat} (ho : o < 4096) :
    m'.load8 (v + o) = some (if o < 519 then 0 else m.mem (m.fl.frame b) o) := by
  have hleaf : leaf m'.mem k (sp, pageOf v) = m.fl.frame b * 4096 + 7 := by
    rw [hm.leaf, Function.update_self]
  rw [load8_leaf (f := m.fl.frame b) hp hr hs hv ho (by omega)
    (by rw [hleaf]; exact entry_div (by decide)), hm.page]
  rfl

/-- A fresh page reads as zero exactly if the frame was zero from byte 519 on. -/
theorem mapPhyaddr_zero : (∀ o < 4096, m'.load8 (v + o) = some 0) ↔
    ∀ o, 519 ≤ o → o < 4096 → m.mem (m.fl.frame b) o = 0 := by
  constructor
  · intro h o hlo hhi
    have heq := (load8_mapped hp hr hs hv hm hhi).symm.trans (h o hhi)
    rw [if_neg (by omega)] at heq
    exact Option.some.inj heq
  · intro h o ho
    rw [load8_mapped hp hr hs hv hm ho]
    split_ifs with hlt
    · rfl
    · rw [h o (by omega) ho]

end

/-- The block that `map_phyaddr` maps is the first that the missing tables leave. -/
theorem Mapped.block {P : List Nat} {p : Page} {b n : Nat} (h : Mapped k m m' p P b)
    (hn : P.length = n) : m.fl.blocks[n]? = some b := by
  rw [h.blocks, ← hn, List.getElem?_append_right (Nat.le_refl _), Nat.sub_self]
  rfl

theorem leaf_mapped {P : List Nat} {p : Page} {b : Nat} (h : Mapped k m m' p P b) :
    leaf m'.mem k p = m'.fl.frame b * 4096 + 7 := by
  rw [h.leaf, Function.update_self, FreeList.frame_congr h.freeMemory]

/-- Loading a program: segments, and faults on pages that are not mapped. -/
def Loads (l : VmLabel) (s : VmState) : Prop :=
  match l with
  | .segment .. => True
  | .userFault v _ => walk s.machine.mem s.machine.cr3 v = none
  | _ => False

/-- The first program, with one segment at `0x400000` and nothing mapped, on a machine that
started with `mem`. -/
structure OneSegment (mem : Nat → Nat → Nat) (k : Nat) (s : VmState) : Prop where
  loaded : VmReach Loads s
  inv : VmInv k s
  active : s.active = some 0
  covered : s.isPageInVmaList 0 0x400000 = true
  areas : s.areas (s.vmaNodes 0) = [(0x400000, 0x400FFF)]
  empty : ∀ q, leaf s.machine.mem k (some 0, q) = 0
  room : 1000 ≤ s.machine.fl.totalblockcount
  content : ∀ b ∈ s.machine.fl.blocks, s.machine.mem (s.machine.fl.frame b) = mem (s.machine.fl.frame b)
  recycled : s.vmaRecycleList = 0
  kernVA : s.kernVA + 1000 < 2 ^ 64
  alive : ∀ c, c ≠ 0 → s.alive c = false
  heapTop : (s.mm 0).heapTop = 0x401000

theorem VmReach.of_loaded (h : VmReach Loads s) : VmReach (fun _ _ => True) s :=
  h.mono fun _ _ _ hst => ⟨trivial, hst.2⟩

theorem firstSegment (mem : Nat → Nat → Nat) :
    ∃ k s, VmReach (fun _ _ => True) s ∧ OneSegment mem k s := by
  obtain ⟨k, s, hreach, hs⟩ := smallBoot_firstProcess mem
  have hva : s.kernVA + 1024 < 2 ^ 64 := by
    have := hs.kernVA
    omega
  have hrange : UserRange 0x400000 (0x400000 + 0xFFF) := .inl (by decide)
  have hseg := segment_first hs.active hs.vmaList hs.vmaRecycleList (by omega) hrange
  obtain ⟨s₁, hs₁⟩ : ∃ s₁, s.withVma 0 0x400000 (0x400000 + 0xFFF)
    ((((0x400000 + 0xFFF) >>> 12 + 1) <<< 12) % 2 ^ 64) = s₁ := ⟨_, rfl⟩
  rw [hs₁] at hseg
  have hmach : s₁.machine = s.machine := by rw [← hs₁]; rfl
  have hhead : (s₁.mm 0).vmaList = s.kernVA + 1 := by
    rw [← hs₁]
    simp [VmState.withVma]
  have hnode : s₁.vma (s.kernVA + 1) = ⟨0x400000, 0x400FFF, 0⟩ := by
    rw [← hs₁]
    simp [VmState.withVma]
  have hva₁ : s₁.kernVA = s.kernVA + 24 := by rw [← hs₁]; rfl
  have hloaded : VmReach Loads s₁ := .step (.segment 0x400000 0xFFF) (hreach _) ⟨trivial, hseg⟩
  have hnodes : s₁.vmaNodes 0 = [s.kernVA + 1] := by
    refine nodesFrom_chain ⟨hhead, Nat.succ_ne_zero _, congrArg Vma.nextvma hnode⟩ ?_
    rw [List.length_singleton]
    decide
  refine ⟨k, s₁, hloaded.of_loaded, hloaded, hs.inv.vmStep hseg, ?_, ?_, ?_, ?_, ?_, ?_, ?_,
    by omega, ?_, ?_⟩
  · rw [← hs₁]
    exact hs.active
  · rw [← hs₁]
    refine inVmaFrom_head (by decide) ?_ ?_ ?_ <;> simp [VmState.withVma]
  · rw [hnodes, areas_singleton, hnode]
  · rw [hmach]
    exact hs.empty
  · have := hs.room
    rw [hmach]
    dsimp only [smallBoot] at this
    omega
  · rw [hmach]
    exact hs.content
  · rw [← hs₁]
    exact hs.vmaRecycleList
  · intro c hc
    rw [← hs₁]
    show s.alive c = false
    rw [hs.alive, Function.update_of_ne hc]
  · rw [← hs₁]
    simp [VmState.withVma]

/-- The first page fault of the first program. -/
theorem OneSegment.fault {mem : Nat → Nat → Nat} {s : VmState} (h : OneSegment mem k s) :
    UserAddr 0x400000 ∧ leaf s.machine.mem k (pageAt 0 0x400000) = 0 ∧
      walk s.machine.mem s.machine.cr3 0x400000 = none ∧
      ∃ pa m', s.machine.mapPhyaddr 0x400000 = some (pa, m') ∧
        vmStep (.userFault 0x400000 false) s = some { s with machine := m' } := by
  obtain ⟨halt, hroot⟩ := h.inv.active_root h.active
  have hu := h.inv.userAddr h.covered
  have h0 : leaf s.machine.mem k (pageAt 0 0x400000) = 0 := h.empty _
  obtain ⟨pa, m', hm', hstep⟩ := h.inv.pageFault h.active (by decide) h.covered h0
    (Nat.le_trans (by decide) h.room)
  exact ⟨hu, h0, walk_none h.inv.pages.tables h.inv.rootInv (hu.inSpace halt hroot) h0, pa, m',
    hm', hstep⟩

/-- The first program, with one segment and one page mapped. -/
structure OnePage (k : Nat) (s : VmState) : Prop where
  loaded : VmReach Loads s
  inv : VmInv k s
  active : s.active = some 0
  covered : s.isPageInVmaList 0 0x400000 = true
  areas : s.areas (s.vmaNodes 0) = [(0x400000, 0x400FFF)]
  block : ∃ b < listSize, leaf s.machine.mem k (pageAt 0 0x400000) = s.machine.fl.frame b * 4096 + 7 ∧
    s.machine.fl.refCount b = 1
  room : 100 ≤ s.machine.fl.totalblockcount
  recycled : s.vmaRecycleList = 0
  kernVA : s.kernVA + 1000 < 2 ^ 64
  alive : ∀ c, c ≠ 0 → s.alive c = false

theorem onePage : ∃ k s, OnePage k s := by
  obtain ⟨k, s, -, hs⟩ := firstSegment fun _ _ => 0
  obtain ⟨hu, h0, hw, pa, m', hm, hstep⟩ := hs.fault
  obtain ⟨halt, hroot⟩ := hs.inv.active_root hs.active
  obtain ⟨P, b, hmap, hp', -, hlen, -⟩ := (Machine.mapPhyaddr_fresh hs.inv.pages hs.inv.rootInv
    (hu.inSpace halt hroot) hu.userPage.not_window (by decide) h0).sound _ hm
  have hb : b ∈ s.machine.fl.blocks := by simp [hmap.blocks]
  have hused := hs.inv.pages.free.toThreaded.total_eq (P := P ++ [b]) hp'.free.toThreaded
    (by rw [hmap.blocks, List.append_assoc]; rfl)
  have hmissing := missing_le (m := s.machine) (k := k) (v := 0x400000) (s := spaceOf 0 0x400000)
  have hroom := hs.room
  rw [List.length_append, hlen, List.length_singleton] at hused
  simp only at hused
  refine ⟨k, { s with machine := m' }, .step (.userFault 0x400000 false) hs.loaded ⟨hw, hstep⟩,
    hs.inv.vmStep hstep, hs.active, hs.covered, hs.areas,
    ⟨b, hs.inv.pages.free.lt b hb, ?_, hmap.ref⟩, ?_, hs.recycled, hs.kernVA, hs.alive⟩
  · exact leaf_mapped hmap
  · show 100 ≤ m'.fl.totalblockcount
    omega

namespace OnePage

theorem reach (h : OnePage k s) : VmReach (fun _ _ => True) s := h.loaded.of_loaded

theorem writable (h : OnePage k s) : leaf s.machine.mem k (pageAt 0 0x400000) % 8 = 7 := by
  obtain ⟨b, -, hleaf, -⟩ := h.block
  omega

theorem mapped (h : OnePage k s) : leaf s.machine.mem k (pageAt 0 0x400000) ≠ 0 := by
  have hw := h.writable
  omega

theorem userAddr (h : OnePage k s) : UserAddr 0x400000 := h.inv.userAddr h.covered

/-- An argument string on the page takes its count to 2. -/
theorem argument (h : OnePage k s) : ∃ t u b, OneMore s t 0 0x400000 0x400000 ∧
    vmStep (.argument 0x400000 0) s = some u ∧ VmInv k u ∧
    u = { t with machine := { s.machine with
      fl := { s.machine.fl with refCount := Function.update s.machine.fl.refCount b 2 } } } ∧
    b < listSize ∧ leaf s.machine.mem k (pageAt 0 0x400000) = s.machine.fl.frame b * 4096 + 7 ∧
    s.machine.fl.refCount b = 1 := by
  obtain ⟨lists, howned⟩ := h.reach.owned
  obtain ⟨b, hb, hleaf, hone⟩ := h.block
  have hva := h.kernVA
  have hrange : UserRange 0x400000 0x400000 := .inl (by decide)
  obtain ⟨t, hmore, -, hstep⟩ := argument_counted howned h.active h.recycled (by omega) h.inv hrange hb
    (by rw [hleaf, entry_div (by decide)])
  rw [hone] at hstep
  exact ⟨t, _, b, hmore, hstep, h.inv.vmStep hstep, rfl, hb, hleaf, hone⟩

end OnePage

/-- Serving a demand fault gives a zero page exactly if the frame that `get_page` supplies for
the page, behind those for missing tables, holds zeros from byte 519 on. -/
theorem demandFault_zero {cond : VmLabel → VmState → Prop} (h : VmReach cond s)
    (ha : s.active = some a) (hu : UserAddr v) (hv : v % 4096 = 0)
    (hw : walk s.machine.mem s.machine.cr3 v = none)
    (hm : s.machine.mapPhyaddr v = some (pa, m')) :
    (∀ o < 4096, m'.load8 (v + o) = some 0) ↔
      ∀ b, s.machine.fl.blocks[missing s.machine.mem s.machine.kernelHalf v (spaceOf a v)]? =
        some b → ∀ o, 519 ≤ o → o < 4096 → s.machine.mem (s.machine.fl.frame b) o = 0 := by
  obtain ⟨k, hi⟩ := h.vmInv
  obtain ⟨halt, hroot⟩ := hi.active_root ha
  have hs := hu.inSpace halt hroot
  have h0 := leaf_of_walk hi.pages hi.rootInv hs hw
  obtain ⟨P, b, hmap, hp', hr', hlen, -⟩ :=
    (Machine.mapPhyaddr_fresh hi.pages hi.rootInv hs hu.userPage.not_window hv h0).sound _ hm
  have hs' : InSpace k m' v (spaceOf a v) := by
    refine hu.inSpace halt ?_
    rw [roots_of_update hu.userPage hmap.leaf halt, hmap.cr3]
    exact hroot
  rw [mapPhyaddr_zero hp' hr' hs' hv hmap, hi.rootInv.kernelHalf, hmap.block hlen]
  constructor
  · intro hz b' hb'
    obtain rfl := Option.some.inj hb'
    exact hz
  · exact fun hz => hz b rfl

/-- Memory that is zero at start-up gives zero pages. -/
theorem demandFault_zero_first : ∃ (s : VmState) (pa : Nat) (m' : Machine), s.active = some 0 ∧
    s.machine.mapPhyaddr 0x400000 = some (pa, m') ∧ ∀ o < 4096, m'.load8 (0x400000 + o) = some 0 := by
  obtain ⟨k, s, hreach, hseg⟩ := firstSegment fun _ _ => 0
  obtain ⟨hu, -, hw, pa, m', hm, -⟩ := hseg.fault
  refine ⟨s, pa, m', hseg.active, hm,
    (demandFault_zero hreach hseg.active hu (by decide) hw hm).mpr ?_⟩
  intro b hb o _ _
  rw [hseg.content b (List.mem_of_getElem? hb)]

/-- What the first program reads from byte 519 of a page it has not written is what the memory
held when the machine started. -/
theorem demandFault_stale : ∃ s t, VmReach (fun _ _ => True) s ∧ s.active = some 0 ∧
    walk s.machine.mem s.machine.cr3 0x400000 = none ∧
    vmStep (.userFault 0x400000 false) s = some t ∧
    t.machine.load8 (0x400000 + 519) = some 1 := by
  obtain ⟨k, s, hreach, hseg⟩ := firstSegment fun _ _ => 1
  obtain ⟨hu, -, hw, pa, m', hm, hstep⟩ := hseg.fault
  have hi := hseg.inv
  obtain ⟨halt, hroot⟩ := hi.active_root hseg.active
  have hsp := hu.inSpace halt hroot
  obtain ⟨P, b, hmap, hp', hr', -⟩ := (Machine.mapPhyaddr_fresh hi.pages hi.rootInv hsp
    hu.userPage.not_window (by decide) (leaf_of_walk hi.pages hi.rootInv hsp hw)).sound _ hm
  have hsp' : InSpace k m' 0x400000 (spaceOf 0 0x400000) := by
    refine hu.inSpace halt ?_
    rw [roots_of_update hu.userPage hmap.leaf halt, hmap.cr3]
    exact hroot
  refine ⟨s, _, hreach, hseg.active, hw, hstep, ?_⟩
  show m'.load8 (0x400000 + 519) = some 1
  rw [load8_mapped hp' hr' hsp' (by decide) hmap (by decide), if_neg (by decide),
    hseg.content b (by rw [hmap.blocks]; simp)]

end Sbunix
