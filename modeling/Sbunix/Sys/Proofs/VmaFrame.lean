import Sbunix.Sys.Proofs.VmTotal
import Sbunix.Sys.Proofs.VmaLists

/-!
# The VMA list of a process under the steps of others

A step moves nodes of one list. The lists of all other slots keep their nodes, what these
cover, and the heap top.
-/

namespace Sbunix

open VmState

variable {s t u : VmState} {lists lists' lists'' : Option Nat → List Nat} {xs ys : List Nat}
  {T U : Nat → Prop} {a c d p x task start stop : Nat} {l : VmLabel}

/-! ## Lists and what they cover -/

/-- Reading a list node by node. -/
theorem nodesFrom_chain {n : Nat} (h : Chain s.next 0 p xs) (hn : xs.length < n) :
    nodesFrom s.vma n p = xs := by
  induction xs generalizing p n with
  | nil =>
    cases n with
    | zero => rfl
    | succ n => rw [nodesFrom, if_pos (show p = 0 from h)]
  | cons x xs ih =>
    obtain ⟨rfl, hne, hrest⟩ := h
    cases n with
    | zero => exact absurd hn (Nat.not_lt_zero _)
    | succ n =>
      rw [nodesFrom, if_neg hne]
      exact congrArg _ (ih hrest (Nat.lt_of_succ_lt_succ hn))

theorem VmState.Owned.vmaNodes (h : s.Owned lists) (c : Nat) : s.vmaNodes c = lists (some c) :=
  nodesFrom_chain (h.family.chain (some c)) (h.length_lt (some c))

theorem VmState.Owned.recycledNodes (h : s.Owned lists) : s.recycledNodes = lists none :=
  nodesFrom_chain (h.family.chain none) (h.length_lt none)

theorem areas_congr {xs : List Nat} (h : ∀ x ∈ xs, (t.vma x).vstart = (s.vma x).vstart ∧
    (t.vma x).vend = (s.vma x).vend) : t.areas xs = s.areas xs := by
  apply List.map_congr_left
  intro x hx
  rw [(h x hx).1, (h x hx).2]

theorem SameBounds.areas (h : SameBounds s t) (xs : List Nat) : t.areas xs = s.areas xs :=
  areas_congr fun x _ => h x

theorem areas_append (s : VmState) (xs ys : List Nat) :
    s.areas (xs ++ ys) = s.areas xs ++ s.areas ys := List.map_append

theorem areas_singleton (s : VmState) (x : Nat) :
    s.areas [x] = [((s.vma x).vstart, (s.vma x).vend)] := rfl

/-! ## The slots of the processes -/

theorem recyclevmastruct_mm (h : s.recyclevmastruct x = some t) : t.mm = s.mm := by
  rw [recyclevmastruct_eq] at h
  split_ifs at h
  · rw [← Option.some.inj h]
    rfl
  · obtain ⟨last, -, rfl⟩ := Option.map_eq_some_iff.mp h
    rfl

theorem allocVma_mm (h : s.allocVma start stop = some (p, t)) : t.mm = s.mm := by
  have hbin : s.getvmaFromRecylebin.2.mm = s.mm := by
    rw [getvmaFromRecylebin]
    split_ifs <;> rfl
  rw [allocVma] at h
  split_ifs at h
  · simp only [kmalloc, Option.bind_eq_bind, Option.bind_eq_some_iff, Prod.exists] at h
    obtain ⟨new, u, hnew, h⟩ := h
    split_ifs at hnew
    obtain ⟨rfl, rfl⟩ := Prod.mk.inj (Option.some.inj hnew)
    rw [← (Prod.mk.inj (Option.some.inj h)).2]
    exact hbin
  · have ht := (Prod.mk.inj (Option.some.inj h)).2
    rw [← ht]
    exact hbin

theorem appendToVmaList_heapTop (h : s.appendToVmaList task p = some t) (d : Nat) :
    (t.mm d).heapTop = (s.mm d).heapTop := by
  rw [appendToVmaList] at h
  split_ifs at h
  · rw [← Option.some.inj h]
    unfold setMm
    dsimp only
    by_cases hd : d = task
    · rw [hd, Function.update_self]
    · rw [Function.update_of_ne hd]
  · obtain ⟨last, -, rfl⟩ := Option.map_eq_some_iff.mp h
    rfl

theorem setMm_heapTop {f : Mm → Mm} (hf : ∀ m, (f m).heapTop = m.heapTop) (d : Nat) :
    ((s.setMm c f).mm d).heapTop = (s.mm d).heapTop := by
  unfold setMm
  dsimp only
  by_cases hd : d = c
  · rw [hd, Function.update_self, hf]
  · rw [Function.update_of_ne hd]

theorem onMachine_mm {f : Machine → Option Machine} (h : s.onMachine f = some t) :
    t.mm = s.mm := by
  obtain ⟨m, -, rfl⟩ := Option.map_eq_some_iff.mp h
  rfl

theorem removeFrom_heapTop {fuel r : Nat} (h : s.removeFrom start stop fuel p x = some (r, t))
    (d : Nat) : (t.mm d).heapTop = (s.mm d).heapTop := by
  induction fuel generalizing p x with
  | zero => cases h
  | succ fuel ih =>
    rw [removeFrom] at h
    split_ifs at h
    · rw [← (Prod.mk.inj (Option.some.inj h)).2]
    · simp only [Option.bind_eq_bind, Option.bind_eq_some_iff] at h
      obtain ⟨u, hu, u', hu', h⟩ := h
      rw [← (Prod.mk.inj (Option.some.inj h)).2, onMachine_mm hu', recyclevmastruct_mm hu]
      rfl
    · exact ih h

theorem removeFromVmaList_heapTop {r : Nat} (h : s.removeFromVmaList task start stop = some (r, t))
    (d : Nat) : (t.mm d).heapTop = (s.mm d).heapTop := by
  unfold removeFromVmaList at h
  dsimp only at h
  split_ifs at h
  · rw [← (Prod.mk.inj (Option.some.inj h)).2]
  · simp only [Option.bind_eq_bind, Option.bind_eq_some_iff] at h
    obtain ⟨u, hu, u', hu', h⟩ := h
    rw [← (Prod.mk.inj (Option.some.inj h)).2, recyclevmastruct_mm hu', ← onMachine_mm hu]
    apply setMm_heapTop
    intro m
    rfl
  · exact removeFrom_heapTop h d

/-! ## What is kept of a list -/

/-- The list of slot `d`, what its nodes cover, and its heap top stay. -/
structure KeepsList (s t : VmState) (lists lists' : Option Nat → List Nat) (d : Nat) : Prop where
  nodes : lists' (some d) = lists (some d)
  areas : t.areas (lists (some d)) = s.areas (lists (some d))
  heapTop : (t.mm d).heapTop = (s.mm d).heapTop

theorem KeepsList.trans (h : KeepsList s t lists lists' d) (h' : KeepsList t u lists' lists'' d) :
    KeepsList s u lists lists'' d := by
  refine ⟨h'.nodes.trans h.nodes, ?_, h'.heapTop.trans h.heapTop⟩
  have hareas := h'.areas
  rw [h.nodes] at hareas
  exact hareas.trans h.areas

/-- The nodes behind one of a list that is kept. -/
theorem KeepsList.rest (h : KeepsList s t lists lists' d) (hl : lists (some d) = xs ++ x :: ys)
    (ht : t.Owned lists') : lists' (some d) = (xs ++ [x]) ++ ys ∧ Chain t.next 0 (t.next x) ys ∧
      t.areas ys = s.areas ys := by
  have hnodes : lists' (some d) = (xs ++ [x]) ++ ys := by
    rw [h.nodes, hl, List.append_assoc, List.singleton_append]
  refine ⟨hnodes, ?_, ?_⟩
  · have hchain := ht.family.chain (some d)
    rw [hnodes, List.append_assoc] at hchain
    exact hchain.next_eq
  · have hareas := h.areas
    rw [hl, areas_append, areas_append] at hareas
    have htail := (List.append_inj hareas (by simp [VmState.areas])).2
    exact (List.cons.inj htail).2

/-- From `s` to `t` only lists of slots in `T` change. -/
def Frames (T : Nat → Prop) (s t : VmState) : Prop :=
  ∀ lists, s.Owned lists → ∃ lists', t.Owned lists' ∧ ∀ d, ¬ T d → KeepsList s t lists lists' d

namespace Frames

theorem refl : Frames T s s := fun lists h => ⟨lists, h, fun _ _ => ⟨rfl, rfl, rfl⟩⟩

theorem trans (h : Frames T s t) (h' : Frames T t u) : Frames T s u := by
  intro lists hs
  obtain ⟨lists', ht, hkeep⟩ := h lists hs
  obtain ⟨lists'', hu, hkeep'⟩ := h' lists' ht
  exact ⟨lists'', hu, fun d hd => (hkeep d hd).trans (hkeep' d hd)⟩

theorem mono (h : Frames T s t) (hle : ∀ d, T d → U d) : Frames U s t := by
  intro lists hs
  obtain ⟨lists', ht, hkeep⟩ := h lists hs
  exact ⟨lists', ht, fun d hd => hkeep d fun hT => hd (hle d hT)⟩

/-- No list is touched. -/
theorem same (hvma : t.vma = s.vma) (hmm : t.mm = s.mm) (hbin : t.vmaRecycleList = s.vmaRecycleList)
    (hva : s.kernVA ≤ t.kernVA) (hlt : s.kernVA < 2 ^ 64 → t.kernVA < 2 ^ 64) : Frames T s t := by
  intro lists hs
  have hnext : t.next = s.next := by
    unfold VmState.next
    rw [hvma]
  have hheads : t.heads = s.heads := by
    funext i
    cases i with
    | none => exact hbin
    | some c => exact congrArg Mm.vmaList (congrFun hmm c)
  refine ⟨lists, ⟨?_, fun i x hx => (hs.heap i x hx).trans hva, hlt hs.bound⟩, fun d _ => ?_⟩
  · rw [hnext, hheads]
    exact hs.family
  · refine ⟨rfl, areas_congr fun x _ => ?_, ?_⟩
    · rw [hvma]
      exact ⟨rfl, rfl⟩
    · rw [hmm]

theorem onMachine {f : Machine → Option Machine} (h : s.onMachine f = some t) : Frames T s t := by
  obtain ⟨m, -, rfl⟩ := Option.map_eq_some_iff.mp h
  exact same rfl rfl rfl (Nat.le_refl _) id

theorem kmalloc {n : Nat} (h : s.kmalloc n = some (p, t)) : Frames T s t := by
  rw [VmState.kmalloc] at h
  split_ifs at h with hfull
  obtain ⟨rfl, rfl⟩ := Prod.mk.inj (Option.some.inj h)
  refine same rfl rfl rfl (Nat.le_add_right _ n) fun _ => ?_
  exact Nat.lt_of_le_pred (by decide) (Nat.not_lt.mp hfull)

/-- A change of a slot, apart from its list. -/
theorem setMm {f : Mm → Mm} (hf : ∀ m, (f m).vmaList = m.vmaList) :
    Frames (· = c) s (s.setMm c f) := by
  intro lists hs
  refine ⟨lists, hs.setMm hf, fun d hd => ⟨rfl, rfl, ?_⟩⟩
  exact congrArg Mm.heapTop (Function.update_of_ne hd _ _)

/-- The list of a slot is dropped. -/
theorem drop : Frames (· = c) s (s.setMm c fun m => { m with vmaList := 0 }) := by
  intro lists hs
  refine ⟨Function.update lists (some c) [], ?_, fun d hd => ⟨?_, rfl, ?_⟩⟩
  · refine hs.taken (List.nil_subset _) rfl ?_
    rw [heads_setVmaList]
    exact hs.family.replace (List.nil_sublist _) rfl fun _ _ _ _ => rfl
  · exact Function.update_of_ne (fun h => hd (Option.some.inj h)) _ _
  · exact congrArg Mm.heapTop (Function.update_of_ne hd _ _)

/-- The slot of a child before `copy_vma`. -/
theorem inherit {n : Nat} :
    Frames (· = c) s (s.setMm c fun m => { m with heapTop := n, vmaList := 0 }) := by
  have htop : Frames (· = c) s (s.setMm c fun m => { m with heapTop := n }) := setMm fun _ => rfl
  convert htop.trans drop using 1
  simp [VmState.setMm]

/-- The list of a process may be removed from. -/
theorem remove {r : Nat} (h : s.removeFromVmaList task start stop = some (r, t)) :
    Frames (· = task) s t := by
  intro lists hs
  have htop := removeFromVmaList_heapTop h
  rcases hs.remove task start stop with ⟨hnone, -⟩ | ⟨pre, x, post, hr⟩
  · rw [hnone] at h
    rw [← (Prod.mk.inj (Option.some.inj h)).2]
    exact ⟨lists, hs, fun _ _ => ⟨rfl, rfl, rfl⟩⟩
  · obtain ⟨u, howned, -, hbounds, hres⟩ := hr.result
    rw [h] at hres
    obtain ⟨m, -, hm⟩ := Option.map_eq_some_iff.mp hres.symm
    obtain rfl := (Prod.mk.inj hm).2
    refine ⟨_, ⟨howned.family, howned.heap, howned.bound⟩, fun d hd => ⟨?_, ?_, htop d⟩⟩
    · rw [recycled, Function.update_of_ne (Option.some_ne_none d),
        Function.update_of_ne fun h => hd (Option.some.inj h)]
    · exact SameBounds.areas (fun p => hbounds p) _

theorem removals (h : Removals task s t) : Frames (· = task) s t := by
  induction h with
  | refl => exact refl
  | step hrem _ ih => exact (remove hrem).trans ih

end Frames

/-! ## A new node -/

/-- A node that covers `[start, stop]` has been put at the end of the list of `task`. -/
structure Added (s t : VmState) (lists lists' : Option Nat → List Nat)
    (task p start stop : Nat) : Prop where
  nodes : lists' (some task) = lists (some task) ++ [p]
  area : (t.vma p).vstart = start ∧ (t.vma p).vend = stop
  kept : t.areas (lists (some task)) = s.areas (lists (some task))
  others : ∀ d, d ≠ task → KeepsList s t lists lists' d
  heapTop : (t.mm task).heapTop = (s.mm task).heapTop

theorem VmState.Owned.added (h : s.Owned lists) (halloc : s.allocVma start stop = some (p, u))
    (happend : u.appendToVmaList task p = some t) :
    ∃ lists', t.Owned lists' ∧ Added s t lists lists' task p start stop := by
  obtain ⟨lists', howned, hnodes, hother, hfresh⟩ := h.add halloc happend
  have hvma := SameSpace.allocVma_vma halloc
  have hbounds := SameSpace.append_bounds happend
  have hareas : ∀ d, t.areas (lists (some d)) = s.areas (lists (some d)) := by
    intro d
    apply areas_congr
    intro x hx
    have hne : x ≠ p := by
      rintro rfl
      exact hfresh d hx
    rw [(hbounds x).1, (hbounds x).2, hvma, Function.update_of_ne hne]
    exact ⟨rfl, rfl⟩
  have htop : ∀ d, (t.mm d).heapTop = (s.mm d).heapTop := by
    intro d
    rw [appendToVmaList_heapTop happend, allocVma_mm halloc]
  refine ⟨lists', howned, hnodes, ?_, hareas task, fun d hd => ⟨hother d hd, hareas d, htop d⟩,
    htop task⟩
  rw [(hbounds p).1, (hbounds p).2, hvma, Function.update_self]
  exact ⟨rfl, rfl⟩

/-- While nothing has been recycled and the heap has room, a VMA can be added to any list. -/
theorem VmState.Owned.add_total (h : s.Owned lists) (hbin : s.vmaRecycleList = 0)
    (hva : s.kernVA + 24 < 2 ^ 64) (task : Nat) (hr : UserRange start stop) :
    ∃ p u t lists', s.allocVma start stop = some (p, u) ∧ u.appendToVmaList task p = some t ∧
      t.Owned lists' ∧ Added s t lists lists' task p start stop ∧ SameSpace s t ∧
      t.vmaRecycleList = 0 ∧ t.kernVA = s.kernVA + 24 := by
  have halloc : s.allocVma start stop = some _ := allocVma_first hbin hva
  obtain ⟨howned, hfree, hnext⟩ := h.alloc halloc
  obtain ⟨t, happend, -, hkernVA⟩ := howned.append task hfree hnext
  obtain ⟨lists', ht, hadd⟩ := h.added halloc happend
  refine ⟨_, _, t, lists', halloc, happend, ht, hadd,
    (SameSpace.allocVma hr halloc).trans (SameSpace.append happend), ?_, hkernVA⟩
  rw [appendToVmaList] at happend
  split_ifs at happend
  · rw [← Option.some.inj happend]
    exact hbin
  · obtain ⟨last, -, rfl⟩ := Option.map_eq_some_iff.mp happend
    exact hbin

/-- The process `a` has one VMA more, and nothing else has happened. -/
structure OneMore (s t : VmState) (a start stop : Nat) : Prop where
  owned : ∃ lists, t.Owned lists
  areas : t.areas (t.vmaNodes a) = s.areas (s.vmaNodes a) ++ [(start, stop)]
  machine : t.machine = s.machine
  active : t.active = some a
  alive : t.alive = s.alive
  recycled : t.vmaRecycleList = 0
  kernVA : t.kernVA = s.kernVA + 24

section

variable (hs : s.Owned lists) (ha : s.active = some a) (hbin : s.vmaRecycleList = 0)
  (hva : s.kernVA + 24 < 2 ^ 64)

include hs ha hbin hva

/-- An empty argument string, for what `increment_childpg_ref` makes of the machine. -/
theorem argument_step {v : Nat} {m : Machine} (hr : UserRange v v)
    (hinc : VmState.incrementFrom 1 v 0 s.machine = some m) :
    ∃ t, OneMore s t a v v ∧ (t.mm a).heapTop = (s.mm a).heapTop ∧
      vmStep (.argument v 0) s = some { t with machine := m } := by
  obtain ⟨p, u, t, lists', halloc, happend, ht, hadd, hspace, hbin', hva'⟩ :=
    hs.add_total hbin hva a hr
  refine ⟨t, ⟨⟨lists', ht⟩, ?_, hspace.machine, hspace.active.trans ha, hspace.alive, hbin', hva'⟩,
    hadd.heapTop, ?_⟩
  · rw [ht.vmaNodes, hs.vmaNodes, hadd.nodes, areas_append, hadd.kept, areas_singleton,
      hadd.area.1, hadd.area.2]
  · show Option.bind _ _ = _
    rw [ha, Option.bind_some, VmState.stepOf, VmState.argument, Nat.add_zero, if_pos hr,
      Option.bind_eq_bind, halloc, Option.bind_some]
    simp only [Option.bind_eq_bind]
    rw [happend, Option.bind_some, VmState.incrementChildpgRef, VmState.onMachine,
      show v + 1 - v = 1 by omega, hspace.machine, hinc]
    rfl

/-- An empty argument string on a mapped page counts its frame. -/
theorem argument_counted {k v b : Nat} (hi : VmInv k s) (hr : UserRange v v) (hb : b < listSize)
    (hfr : leaf s.machine.mem k (pageAt a v) / 4096 = s.machine.fl.frame b) :
    ∃ t, OneMore s t a v v ∧ (t.mm a).heapTop = (s.mm a).heapTop ∧
      vmStep (.argument v 0) s = some { t with machine := { s.machine with
        fl := { s.machine.fl with
          refCount := Function.update s.machine.fl.refCount b (s.machine.fl.refCount b + 1) } } } := by
  obtain ⟨halt, hroot⟩ := hi.active_root ha
  have hs' := (hr.userAddr (Nat.le_refl v) (Nat.le_refl v)).inSpace halt hroot
  have hlt : s.machine.fl.frame b < 2 ^ 52 := hi.pages.free.frame_lt hb
  have hlow := hi.pages.free.low
  have hw : leaf s.machine.mem k (pageAt a v) < 2 ^ 64 := by omega
  have hpos : s.machine.fl.frame b * 4096 ≠ 0 := by
    simp only [FreeList.frame]
    omega
  have hmask : leaf s.machine.mem k (pageAt a v) &&& 0xFFFFFFFFFFFFF000 =
      s.machine.fl.frame b * 4096 := by
    rw [and_pageMask hw, hfr]
  have hidx : s.machine.fl.blockindex (s.machine.fl.frame b * 4096) = some b :=
    FreeList.blockindex_eq hb (Nat.mul_div_cancel _ (by decide))
  have hinc : VmState.incrementFrom 1 v 0 s.machine = some { s.machine with
      fl := { s.machine.fl with
        refCount := Function.update s.machine.fl.refCount b (s.machine.fl.refCount b + 1) } } := by
    rw [VmState.incrementFrom, Machine.getPhysAddr_eq hi.pages.tables hi.rootInv hs']
    simp only [Option.bind_eq_bind, Option.bind_some,
      show (spaceOf a v, pageOf v) = pageAt a v from rfl, hmask]
    rw [if_pos ⟨hpos, hpos⟩, FreeList.incrementReferenceCount, hidx]
    rfl
  exact argument_step hs ha hbin hva hr hinc

end

theorem Frames.add (halloc : s.allocVma start stop = some (p, u))
    (happend : u.appendToVmaList task p = some t) : Frames (· = task) s t := by
  intro lists hs
  obtain ⟨lists', howned, hadd⟩ := hs.added halloc happend
  exact ⟨lists', howned, hadd.others⟩

/-- `copy_vma` from the node `x` of the list of `a` on: what the nodes from there on cover is
put at the end of the list of `c`. -/
theorem VmState.Owned.copied (hne : a ≠ c) {fuel : Nat} (h : s.Owned lists)
    (hl : lists (some a) = xs ++ ys) (hx : Chain s.next 0 x ys)
    (heq : VmState.copyFrom a c fuel x s = some t) :
    ∃ lists', t.Owned lists' ∧
      t.areas (lists' (some c)) = s.areas (lists (some c)) ++ s.areas ys ∧
      (∀ d, d ≠ c → KeepsList s t lists lists' d) ∧
      (t.mm c).heapTop = (s.mm c).heapTop := by
  induction fuel generalizing s lists xs ys x with
  | zero => cases heq
  | succ fuel ih =>
    rw [VmState.copyFrom] at heq
    cases ys with
    | nil =>
      rw [if_pos (show x = 0 from hx)] at heq
      rw [← Option.some.inj heq]
      exact ⟨lists, h, (List.append_nil _).symm, fun _ _ => ⟨rfl, rfl, rfl⟩, rfl⟩
    | cons y ys =>
      obtain ⟨rfl, h0, -⟩ := hx
      rw [if_neg h0, Option.bind_eq_bind, Option.bind_eq_some_iff] at heq
      obtain ⟨u, hu, heq⟩ := heq
      simp only [VmState.copyNode, Option.bind_eq_bind, Option.bind_eq_some_iff,
        Prod.exists] at hu
      obtain ⟨p, u₁, halloc, u₂, happend, u₃, hinc, hshare⟩ := hu
      obtain ⟨lists', howned, hadd⟩ := h.added halloc happend
      obtain ⟨m₃, -, rfl⟩ := Option.map_eq_some_iff.mp hinc
      obtain ⟨m, -, rfl⟩ := Option.map_eq_some_iff.mp hshare
      have howned' : VmState.Owned { u₂ with machine := m } lists' :=
        ⟨howned.family, howned.heap, howned.bound⟩
      obtain ⟨hl', hrest, hys⟩ := (hadd.others a hne).rest hl howned
      obtain ⟨lists'', howned'', hcopy, hother, htop⟩ := ih howned' hl' hrest heq
      refine ⟨lists'', howned'', ?_, fun d hd => ?_, htop.trans hadd.heapTop⟩
      · have hc : u₂.areas (lists' (some c)) =
            s.areas (lists (some c)) ++ [((s.vma x).vstart, (s.vma x).vend)] := by
          rw [hadd.nodes, areas_append, hadd.kept, areas_singleton, hadd.area.1, hadd.area.2]
        rw [hcopy]
        show u₂.areas (lists' (some c)) ++ u₂.areas ys = _
        rw [hc, hys, List.append_assoc]
        rfl
      · have hkeep := hadd.others d hd
        have hkeep' : KeepsList s { u₂ with machine := m } lists lists' d :=
          ⟨hkeep.nodes, hkeep.areas, hkeep.heapTop⟩
        exact hkeep'.trans (hother d hd)

namespace Frames

theorem copyVma (hne : a ≠ c) (h : s.copyVma a c = some t) : Frames (· = c) s t := by
  intro lists hs
  obtain ⟨lists', howned, -, hother, -⟩ :=
    hs.copied hne (List.nil_append _).symm (hs.family.chain (some a)) h
  exact ⟨lists', howned, hother⟩

theorem createNewProcess (h : s.createNewProcess c = some t) : Frames (· = c) s t := by
  simp only [VmState.createNewProcess, Option.bind_eq_bind, Option.bind_eq_some_iff,
    Prod.exists, Option.some.injEq] at h
  obtain ⟨cr3, m, -, p, u, hu, q, u', hu', rfl⟩ := h
  have hmach : Frames (· = c) s { s.setMm c (fun m => { m with vmaList := 0 }) with machine := m } :=
    drop.trans (same rfl rfl rfl (Nat.le_refl _) id)
  have hcr3 := hmach.trans (setMm (f := fun m => { m with cr3 := cr3 }) fun _ => rfl)
  exact ((hcr3.trans (kmalloc hu)).trans (kmalloc hu')).trans (same rfl rfl rfl (Nat.le_refl _) id)

theorem syscallFork (hne : a ≠ c) (h : s.syscallFork a c = some t) : Frames (· = c) s t := by
  simp only [VmState.syscallFork, Option.bind_eq_bind, Option.bind_eq_some_iff,
    Option.some.injEq] at h
  obtain ⟨u, hu, u', hu', rfl⟩ := h
  exact ((createNewProcess hu).trans inherit).trans
    ((copyVma hne hu').trans (same rfl rfl rfl (Nat.le_refl _) id))

theorem syscallExec (h : s.syscallExec c = some t) : Frames (· = c) s t := by
  simp only [VmState.syscallExec, Option.bind_eq_bind, Option.bind_eq_some_iff,
    Option.some.injEq] at h
  obtain ⟨u, hu, rfl⟩ := h
  exact (createNewProcess hu).trans (same rfl rfl rfl (Nat.le_refl _) id)

theorem syscallExit (h : s.syscallExit a = some t) : Frames (· = a) s t := by
  simp only [VmState.syscallExit, Option.bind_eq_bind, Option.bind_eq_some_iff,
    Option.some.injEq] at h
  obtain ⟨u, hu, rfl⟩ := h
  have hcr3 : Frames (· = a) s (s.setMm a fun m => { m with cr3 := 0 }) := setMm fun _ => rfl
  exact ((hcr3.trans (removals (.of_exitFrom hu))).trans drop).trans
    (same rfl rfl rfl (Nat.le_refl _) id)

theorem syscallKillMem (h : s.syscallKillMem c = some t) : Frames (· = c) s t := by
  have halive : Frames (· = c) s { s with alive := Function.update s.alive c false } :=
    same rfl rfl rfl (Nat.le_refl _) id
  exact (halive.trans (setMm (f := fun m => { m with cr3 := 0 }) fun _ => rfl)).trans
    (removals (.of_killFrom h))

/-- Machine steps of a process. -/
theorem pagemama {ring0 : Bool} {v : Nat} {err : FaultCode} (h : s.pagemama ring0 v err = some t) :
    Frames T s t := by
  rw [VmState.pagemama] at h
  split_ifs at h
  · exact onMachine h
  · simp only [Option.bind_eq_bind, Option.bind_eq_some_iff] at h
    obtain ⟨a, -, h⟩ := h
    split_ifs at h
    obtain ⟨chk, -, h⟩ := Option.bind_eq_some_iff.mp h
    split_ifs at h
    · exact onMachine h
    · rw [← Option.some.inj h]
      exact refl
  · obtain ⟨a, -, h⟩ := Option.bind_eq_some_iff.mp h
    split_ifs at h
    exact onMachine h

theorem stepOf (ha : s.active = some a) (hal : s.alive a = true) (h : s.stepOf a l = some t) :
    Frames (fun d => s.Touches d l) s t := by
  have hne : ∀ {c}, s.alive c = false → a ≠ c := by
    rintro c hc rfl
    rw [hal] at hc
    cases hc
  have hown : ∀ d, d = a → s.active = some d := by
    rintro d rfl
    exact ha
  cases l with
  | switch c => cases h
  | kernelFault v => cases h
  | fork c =>
    rw [VmState.stepOf] at h
    split_ifs at h with hc
    exact (syscallFork (hne hc.2) h).mono fun _ => Eq.symm
  | exec c =>
    rw [VmState.stepOf] at h
    split_ifs at h with hc
    exact (syscallExec h).mono fun _ => Eq.symm
  | segment vaddr memsz =>
    rw [VmState.stepOf, VmState.segment] at h
    split_ifs at h
    simp only [Option.bind_eq_bind, Option.bind_eq_some_iff, Prod.exists, Option.some.injEq] at h
    obtain ⟨p, u, halloc, u', happend, rfl⟩ := h
    have htop : Frames (· = a) u' (u'.setMm a fun m =>
        { m with heapTop := (((u'.vma p).vend >>> 12 + 1) <<< 12) % 2 ^ 64 }) := setMm fun _ => rfl
    have hframe := (add halloc happend).trans htop
    exact hframe.mono hown
  | argument addr len =>
    rw [VmState.stepOf, VmState.argument] at h
    split_ifs at h
    simp only [Option.bind_eq_bind, Option.bind_eq_some_iff, Prod.exists] at h
    obtain ⟨p, u, halloc, u', happend, h⟩ := h
    exact ((add halloc happend).trans (onMachine h)).mono hown
  | mmap length =>
    rw [VmState.stepOf, VmState.kMmap] at h
    simp only [Option.bind_eq_bind] at h
    split_ifs at h
    simp only [Option.bind_eq_some_iff, Prod.exists] at h
    obtain ⟨p, u, halloc, happend⟩ := h
    have htop : Frames (· = a) s (s.setMm a fun m => { m with heapTop :=
        (((((s.mm a).heapTop + length + (2 ^ 64 - 1)) % 2 ^ 64) >>> 12 + 1) <<< 12) % 2 ^ 64 }) :=
      setMm fun _ => rfl
    have hframe := htop.trans (add halloc happend)
    exact hframe.mono hown
  | munmap addr length =>
    simp only [VmState.stepOf, VmState.kMunmap, Option.bind_eq_bind, Option.bind_eq_some_iff,
      Prod.exists] at h
    obtain ⟨found, u, hu, h⟩ := h
    split_ifs at h
    rw [← Option.some.inj h]
    exact (remove hu).mono hown
  | userFault v write =>
    rw [VmState.stepOf] at h
    split_ifs at h
    exact pagemama h
  | userStore v b =>
    rw [VmState.stepOf] at h
    split_ifs at h
    exact onMachine h
  | kernelStore v b =>
    rw [VmState.stepOf] at h
    split_ifs at h
    exact onMachine h
  | exit => exact (syscallExit h).mono hown
  | kill c =>
    rw [VmState.stepOf] at h
    split_ifs at h
    exact (syscallKillMem h).mono fun _ => Eq.symm

end Frames

/-- A step is one of the process that runs, a switch, or a fault of the kernel. -/
theorem vmStep_cases (h : vmStep l s = some t) : (∃ c, l = .switch c) ∨
    (∃ v, l = .kernelFault v) ∨ ∃ a, s.active = some a ∧ s.stepOf a l = some t := by
  have hbind : ∀ l', (s.active.bind fun a => s.stepOf a l') = some t →
      ∃ a, s.active = some a ∧ s.stepOf a l' = some t := fun l' => Option.bind_eq_some_iff.mp
  cases l with
  | switch c => exact Or.inl ⟨c, rfl⟩
  | kernelFault v => exact Or.inr (Or.inl ⟨v, rfl⟩)
  | _ => exact Or.inr (Or.inr (hbind _ h))

/-- A step changes no list that it does not touch. -/
theorem Frames.vmStep (hal : ∀ a, s.active = some a → s.alive a = true)
    (h : vmStep l s = some t) : Frames (fun d => s.Touches d l) s t := by
  rcases vmStep_cases h with ⟨c, rfl⟩ | ⟨v, rfl⟩ | ⟨a, ha, hstep⟩
  · rw [Sbunix.vmStep] at h
    split_ifs at h
    rw [← Option.some.inj h]
    exact same rfl rfl rfl (Nat.le_refl _) id
  · rw [Sbunix.vmStep] at h
    split_ifs at h
    exact pagemama h
  · exact stepOf ha (hal a ha) hstep

/-! ## Runs -/

/-- Before the first process no slot has a VMA. -/
theorem VmStart.noVma (h : VmStart s) : s.Owned fun _ => [] := by
  induction h with
  | start hfits hs =>
    obtain ⟨s₀, h₀, hva, -, -⟩ := hfits.start_total
    obtain rfl : s₀ = _ := Option.some.inj (h₀.symm.trans hs)
    rw [BootInfo.start, Option.bind_eq_bind, Option.bind_eq_some_iff] at hs
    obtain ⟨⟨mem, kernVA⟩, -, hs⟩ := hs
    refine ⟨⟨fun i => ?_, fun _ => List.nodup_nil, fun i j x hx => ?_⟩, fun i x hx => ?_, ?_⟩
    · rw [← Option.some.inj hs]
      cases i <;> rfl
    · cases hx
    · cases hx
    · exact hva.trans (by decide)
  | fault v _ hf ih =>
    rw [Sbunix.vmStep] at hf
    split_ifs at hf
    rw [VmState.pagemama, if_pos rfl] at hf
    exact ih.onMachine hf

theorem VmStart.mm (h : VmStart s) : s.mm = fun _ => ⟨0, 0, 0⟩ := by
  induction h with
  | start hfits hs =>
    rw [BootInfo.start, Option.bind_eq_bind, Option.bind_eq_some_iff] at hs
    obtain ⟨⟨mem, kernVA⟩, -, hs⟩ := hs
    rw [← Option.some.inj hs]
  | fault v _ hf ih =>
    rw [Sbunix.vmStep] at hf
    split_ifs at hf
    rw [VmState.pagemama, if_pos rfl] at hf
    rw [onMachine_mm hf]
    exact ih

/-- The lists of a reachable state. -/
theorem VmReach.owned {cond : VmLabel → VmState → Prop} (h : VmReach cond s) :
    ∃ lists, s.Owned lists := by
  induction h with
  | init hs =>
    obtain ⟨s₀, hs₀, hs⟩ := hs
    obtain ⟨lists, howned, -⟩ := Frames.syscallExec hs _ hs₀.noVma
    exact ⟨lists, howned⟩
  | step l hr hst ih =>
    obtain ⟨lists, hs⟩ := ih
    obtain ⟨k, hi⟩ := VmReach.vmInv hr
    obtain ⟨lists', ht, -⟩ := Frames.vmStep (fun a ha => (hi.active a ha).1) hst.2 lists hs
    exact ⟨lists', ht⟩

end Sbunix
