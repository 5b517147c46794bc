import Sbunix.Sys.VmaRun
import Sbunix.Sys.Proofs.VmStep

/-!
# No VMA node is on two lists

Every operation moves whole nodes between the lists, which stay disjoint and end.
-/

namespace Sbunix

open VmState

variable {s t u : VmState} {lists : Option Nat → List Nat} {i : Option Nat} {xs ys : List Nat}
  {a c p q x y task start stop : Nat}

/-! ## Fields -/

theorem heads_setVmaList : (s.setMm c fun m => { m with vmaList := x }).heads =
    Function.update s.heads (some c) x := by
  funext i
  cases i with
  | none => rfl
  | some d =>
    unfold heads setMm
    dsimp only
    by_cases hd : d = c
    · rw [hd, Function.update_self, Function.update_self]
    · rw [Function.update_of_ne hd, Function.update_of_ne (fun h => hd (Option.some.inj h))]

theorem heads_setMm {f : Mm → Mm} (hf : ∀ m, (f m).vmaList = m.vmaList) :
    (s.setMm c f).heads = s.heads := by
  funext i
  cases i with
  | none => rfl
  | some d =>
    unfold heads setMm
    dsimp only
    by_cases hd : d = c
    · rw [hd, Function.update_self, hf]
    · rw [Function.update_of_ne hd]

theorem heads_setRecycle :
    ({ s with vmaRecycleList := x } : VmState).heads = Function.update s.heads none x := by
  funext i
  cases i with
  | none => rfl
  | some d => rw [Function.update_of_ne (Option.some_ne_none d)]; rfl

theorem next_setVma {n : Vma} :
    (s.setVma p n).next = Function.update s.next p n.nextvma := by
  funext y
  unfold VmState.next setVma
  dsimp only
  by_cases hy : y = p
  · rw [hy, Function.update_self, Function.update_self]
  · rw [Function.update_of_ne hy, Function.update_of_ne hy]

theorem recyclevmastruct_eq : s.recyclevmastruct x =
    if s.vmaRecycleList = 0 then some { s.setNext x 0 with vmaRecycleList := x }
    else (VmState.lastVma (s.setNext x 0).vma (2 ^ 64) s.vmaRecycleList).map
      fun last => (s.setNext x 0).setNext last x := rfl

theorem recyclevmastruct_machine (m : Machine) :
    ({ s with machine := m } : VmState).recyclevmastruct x =
      (s.recyclevmastruct x).map fun u => { u with machine := m } := by
  rw [recyclevmastruct_eq, recyclevmastruct_eq]
  split_ifs
  · rfl
  · rw [Option.map_map]
    rfl

theorem next_setNext : (s.setNext p q).next = Function.update s.next p q := next_setVma

/-! ## Walks -/

/-- The walk along a list finds its last node. -/
theorem lastVma_chain {n : Nat} (h : Chain s.next 0 p (xs ++ [y])) (hn : xs.length < n) :
    lastVma s.vma n p = some y := by
  induction xs generalizing p n with
  | nil =>
    obtain ⟨hp, -, hend⟩ := h
    cases n with
    | zero => exact absurd hn (Nat.not_lt_zero _)
    | succ n => rw [lastVma, hp, if_pos (show (s.vma y).nextvma = 0 from hend)]
  | cons x xs ih =>
    obtain ⟨hp, -, hrest⟩ := h
    cases n with
    | zero => exact absurd hn (Nat.not_lt_zero _)
    | succ n =>
      have hne : (s.vma x).nextvma ≠ 0 := by
        intro h0
        rw [show s.next x = 0 from h0] at hrest
        exact List.append_ne_nil_of_right_ne_nil xs (List.cons_ne_nil y []) hrest.eq_nil
      rw [lastVma, hp, if_neg hne]
      exact ih hrest (Nat.lt_of_succ_lt_succ hn)

/-- A heap node that is on no list. -/
structure VmState.Unlisted (s : VmState) (lists : Option Nat → List Nat) (x : Nat) : Prop where
  notMem : ∀ i, x ∉ lists i
  pos : x ≠ 0
  heap : x ≤ s.kernVA

namespace VmState.Owned

theorem length_lt (h : s.Owned lists) (i : Option Nat) : (lists i).length < 2 ^ 64 := by
  have hle : (lists i).length ≤ s.kernVA + 1 - 1 :=
    Threaded.length_le (h.family.nodup i) (fun x hx => Nat.lt_succ_of_le (h.heap i x hx))
      fun h0 => (h.family.chain i).ne_stop h0 rfl
  exact Nat.lt_of_le_of_lt hle h.bound

theorem pos (h : s.Owned lists) (hx : x ∈ lists i) : x ≠ 0 := (h.family.chain i).ne_stop hx

theorem head_eq_zero (h : s.Owned lists) : s.heads i = 0 ↔ lists i = [] := by
  constructor
  · intro h0
    have hchain := h.family.chain i
    rw [h0] at hchain
    exact hchain.eq_nil
  · intro hnil
    have hchain := h.family.chain i
    rw [hnil] at hchain
    exact hchain

/-- A change of a slot, apart from its list. -/
theorem setMm (h : s.Owned lists) {f : Mm → Mm} (hf : ∀ m, (f m).vmaList = m.vmaList) :
    (s.setMm c f).Owned lists := by
  have hheads : (s.setMm c f).heads = s.heads := heads_setMm hf
  refine ⟨?_, h.heap, h.bound⟩
  rw [hheads]
  exact h.family

theorem head_ne_zero (h : s.Owned lists) (hi : lists i = xs ++ [y]) : s.heads i ≠ 0 := by
  intro h0
  rw [h.head_eq_zero.mp h0] at hi
  exact List.append_ne_nil_of_right_ne_nil xs (List.cons_ne_nil y []) hi.symm

theorem lastVma (h : s.Owned lists) (hi : lists i = xs ++ [y]) :
    VmState.lastVma s.vma (2 ^ 64) (s.heads i) = some y := by
  have hchain := h.family.chain i
  have hlen := h.length_lt i
  rw [hi] at hchain hlen
  rw [List.length_append, List.length_singleton] at hlen
  exact lastVma_chain hchain (Nat.lt_of_succ_lt hlen)

/-- What is on the lists when a free node has been linked in. -/
theorem heap_append (h : s.Owned lists) (hx : s.Unlisted lists x) (j : Option Nat) :
    ∀ y ∈ Function.update lists i (lists i ++ [x]) j, y ≤ s.kernVA := by
  intro y hy
  by_cases hj : j = i
  · rw [hj, Function.update_self, List.mem_append, List.mem_singleton] at hy
    rcases hy with hy | rfl
    · exact h.heap i y hy
    · exact hx.heap
  · rw [Function.update_of_ne hj] at hy
    exact h.heap j y hy

theorem setNext_free (h : s.Owned lists) (hx : s.Unlisted lists x) (y : Nat) :
    (s.setNext x y).Owned lists where
  family := by
    rw [next_setNext]
    exact h.family.update_free hx.notMem y
  heap := h.heap
  bound := h.bound

/-- `append_to_vma_list` of a free node. -/
theorem append (h : s.Owned lists) (task : Nat) (hx : s.Unlisted lists x) (hnext : s.next x = 0) :
    ∃ t, s.appendToVmaList task x = some t ∧
      t.Owned (Function.update lists (some task) (lists (some task) ++ [x])) ∧
      t.kernVA = s.kernVA := by
  unfold appendToVmaList
  rcases List.eq_nil_or_concat' (lists (some task)) with hl | ⟨xs, y, hl⟩
  · have hhead : (s.mm task).vmaList = 0 := h.head_eq_zero.mpr hl
    rw [if_pos hhead]
    refine ⟨_, rfl, ⟨?_, h.heap_append hx, h.bound⟩, rfl⟩
    rw [heads_setVmaList, hl]
    exact h.family.start hl hx.notMem hx.pos hnext
  · have hhead : (s.mm task).vmaList ≠ 0 := h.head_ne_zero hl
    have hlast : VmState.lastVma s.vma (2 ^ 64) (s.mm task).vmaList = some y := h.lastVma hl
    rw [if_neg hhead, hlast]
    refine ⟨_, rfl, ⟨?_, h.heap_append hx, h.bound⟩, rfl⟩
    rw [next_setNext]
    exact h.family.append hl hx.notMem hx.pos hnext

/-- `recyclevmastruct` of a node that has been taken off its list. -/
theorem recycle (h : s.Owned lists) (hx : s.Unlisted lists x) :
    ∃ t, s.recyclevmastruct x = some t ∧
      t.Owned (Function.update lists none (lists none ++ [x])) ∧ t.kernVA = s.kernVA := by
  have h' := h.setNext_free hx 0
  have hnext : (s.setNext x 0).next x = 0 := by rw [next_setNext, Function.update_self]
  unfold recyclevmastruct
  dsimp only
  rcases List.eq_nil_or_concat' (lists none) with hl | ⟨xs, y, hl⟩
  · have hhead : (s.setNext x 0).vmaRecycleList = 0 := h'.head_eq_zero.mpr hl
    rw [if_pos hhead]
    refine ⟨_, rfl, ⟨?_, h.heap_append hx, h.bound⟩, rfl⟩
    rw [heads_setRecycle, hl]
    exact h'.family.start hl hx.notMem hx.pos hnext
  · have hhead : (s.setNext x 0).vmaRecycleList ≠ 0 := h'.head_ne_zero hl
    have hlast : VmState.lastVma (s.setNext x 0).vma (2 ^ 64) (s.setNext x 0).vmaRecycleList =
        some y := h'.lastVma hl
    rw [if_neg hhead, hlast]
    refine ⟨_, rfl, ⟨?_, h.heap_append hx, h.bound⟩, rfl⟩
    rw [next_setNext]
    exact h'.family.append hl hx.notMem hx.pos hnext

/-- A new node is a free one. -/
theorem initialised (h : s.Owned lists) (hx : s.Unlisted lists x) :
    (s.setVma x ⟨start, stop, 0⟩).Owned lists ∧ (s.setVma x ⟨start, stop, 0⟩).Unlisted lists x ∧
      (s.setVma x ⟨start, stop, 0⟩).next x = 0 := by
  refine ⟨⟨?_, h.heap, h.bound⟩, ⟨hx.notMem, hx.pos, hx.heap⟩, ?_⟩
  · rw [next_setVma]
    exact h.family.update_free hx.notMem 0
  · rw [next_setVma, Function.update_self]

/-- A list that has lost nodes. -/
theorem taken (h : s.Owned lists) (hsub : xs ⊆ lists i) (hva : t.kernVA = s.kernVA)
    (hfamily : ChainFamily t.next 0 t.heads (Function.update lists i xs)) :
    t.Owned (Function.update lists i xs) := by
  refine ⟨hfamily, fun j y hy => ?_, hva ▸ h.bound⟩
  rw [hva]
  by_cases hj : j = i
  · rw [hj, Function.update_self] at hy
    exact h.heap i y (hsub hy)
  · rw [Function.update_of_ne hj] at hy
    exact h.heap j y hy

/-- The node that a list has lost. -/
theorem unlisted (h : s.Owned lists) (hx : x ∈ lists i) (hxs : x ∉ xs)
    (hva : t.kernVA = s.kernVA) : t.Unlisted (Function.update lists i xs) x := by
  refine ⟨fun j hj => ?_, h.pos hx, hva ▸ h.heap i x hx⟩
  by_cases hji : j = i
  · rw [hji, Function.update_self] at hj
    exact hxs hj
  · rw [Function.update_of_ne hji] at hj
    exact hji (h.family.unique j i x hj hx)

/-- `alloc_vma` gives a free node: the first of the recycle list, or a new one. -/
theorem alloc (h : s.Owned lists) (halloc : s.allocVma start stop = some (p, t)) :
    t.Owned (Function.update lists none (lists none).tail) ∧
      t.Unlisted (Function.update lists none (lists none).tail) p ∧ t.next p = 0 := by
  cases hl : lists none with
  | nil =>
    have hhead : s.vmaRecycleList = 0 := h.head_eq_zero.mpr hl
    have hbin : s.getvmaFromRecylebin = (0, s) := if_pos hhead
    have hsame : Function.update lists none [] = lists := by rw [← hl, Function.update_eq_self]
    rw [allocVma, hbin, if_pos rfl, kmalloc] at halloc
    split_ifs at halloc with hfull
    · cases halloc
    · obtain ⟨rfl, rfl⟩ := Prod.mk.inj (Option.some.inj halloc)
      have hbound : s.kernVA + 24 < 2 ^ 64 := Nat.lt_of_le_pred (by decide) (Nat.not_lt.mp hfull)
      have hgrown : ({ s with kernVA := s.kernVA + 24 } : VmState).Owned lists :=
        ⟨h.family, fun i x hx => Nat.le_add_right_of_le (h.heap i x hx), hbound⟩
      have hfree : ({ s with kernVA := s.kernVA + 24 } : VmState).Unlisted lists (s.kernVA + 1) :=
        ⟨fun i hi => absurd (h.heap i _ hi) (Nat.not_succ_le_self _), Nat.succ_ne_zero _,
          Nat.add_le_add_left (by decide) _⟩
      rw [List.tail_nil, hsame]
      exact hgrown.initialised hfree
  | cons x xs =>
    have hmem : x ∈ lists none := by simp [hl]
    have hhead : s.vmaRecycleList = x := by
      have hchain := h.family.chain none
      rw [hl] at hchain
      exact hchain.1
    have hne : s.vmaRecycleList ≠ 0 := by
      rw [hhead]
      exact h.pos hmem
    have hbin : s.getvmaFromRecylebin = (x, { s with vmaRecycleList := s.next x }) := by
      rw [getvmaFromRecylebin, if_neg hne, hhead]
      rfl
    rw [allocVma, hbin, if_neg (h.pos hmem)] at halloc
    obtain ⟨rfl, rfl⟩ := Prod.mk.inj (Option.some.inj halloc)
    have htaken : ({ s with vmaRecycleList := s.next x } : VmState).Owned
        (Function.update lists none xs) := by
      refine h.taken ?_ ?_ ?_
      · rw [hl]
        exact List.subset_cons_self x xs
      · rfl
      · rw [heads_setRecycle]
        exact h.family.tail hl
    have hnodup := h.family.nodup none
    rw [hl, List.nodup_cons] at hnodup
    rw [List.tail_cons]
    exact htaken.initialised (h.unlisted hmem hnodup.1 rfl)

end VmState.Owned

/-- The lists when `x` has been moved to the recycle list. -/
def recycled (lists : Option Nat → List Nat) (task : Nat) (rest : List Nat) (x : Nat) :
    Option Nat → List Nat :=
  Function.update (Function.update lists (some task) rest) none (lists none ++ [x])

/-- `remove_from_vma_list` takes the first node that covers the range, recycles it and unmaps
its pages. -/
structure Removes (s : VmState) (lists : Option Nat → List Nat) (task start stop : Nat)
    (pre : List Nat) (x : Nat) (post : List Nat) (r : Option (Nat × VmState)) : Prop where
  split : lists (some task) = pre ++ x :: post
  first : ∀ y ∈ pre, ¬ s.Covers y start stop
  covers : s.Covers x start stop
  result : ∃ u, u.Owned (recycled lists task (pre ++ post) x) ∧ SameSpace s u ∧ SameBounds s u ∧
    r = (s.machine.unmapPhyaddrRange (s.vma x).vstart (s.vma x).vend).map
      fun m => (1, { u with machine := m })

namespace VmState.Owned

/-- A node of the list of a task, gone from it, is recycled. -/
theorem recycle_taken (h : s.Owned lists) (hl : lists (some task) = xs ++ x :: ys)
    (hva : t.kernVA = s.kernVA)
    (hfamily : ChainFamily t.next 0 t.heads (Function.update lists (some task) (xs ++ ys))) :
    ∃ u, t.recyclevmastruct x = some u ∧ u.Owned (recycled lists task (xs ++ ys) x) := by
  have hmem : x ∈ lists (some task) := by simp [hl]
  have hnodup := h.family.nodup (some task)
  have hsub : xs ++ ys ⊆ lists (some task) := by
    rw [hl]
    exact ((List.Sublist.refl xs).append (List.sublist_cons_self x ys)).subset
  rw [hl, List.nodup_middle, List.nodup_cons] at hnodup
  obtain ⟨u, hu, howned, -⟩ :=
    (h.taken hsub hva hfamily).recycle (h.unlisted hmem hnodup.1 hva)
  rw [Function.update_of_ne (Option.some_ne_none task).symm] at howned
  exact ⟨u, hu, howned⟩

/-- The loop of `remove_from_vma_list`, from the node `q` behind `y`. -/
theorem removeFrom (h : s.Owned lists) {fuel : Nat} (hl : lists (some task) = xs ++ y :: ys)
    (hq : Chain s.next 0 q ys) (hno : ∀ z ∈ xs ++ [y], ¬ s.Covers z start stop)
    (hfuel : ys.length < fuel) :
    (s.removeFrom start stop fuel y q = some (0, s) ∧
      ∀ z ∈ lists (some task), ¬ s.Covers z start stop) ∨
    ∃ pre x post, Removes s lists task start stop pre x post
      (s.removeFrom start stop fuel y q) := by
  induction ys generalizing xs y q fuel with
  | nil =>
    cases fuel with
    | zero => exact absurd hfuel (Nat.not_lt_zero _)
    | succ fuel =>
      rw [VmState.removeFrom, if_pos (show q = 0 from hq), hl]
      exact Or.inl ⟨rfl, hno⟩
  | cons x ys ih =>
    obtain ⟨rfl, hne, hrest⟩ := hq
    cases fuel with
    | zero => exact absurd hfuel (Nat.not_lt_zero _)
    | succ fuel =>
      have hsplit : lists (some task) = (xs ++ [y]) ++ q :: ys := by
        rw [hl, List.append_assoc, List.singleton_append]
      rw [VmState.removeFrom, if_neg hne]
      by_cases hc : (s.vma q).vstart ≤ start ∧ stop ≤ (s.vma q).vend
      · rw [if_pos hc]
        have hfamily := h.family.unlink hl
        rw [show xs ++ y :: ys = (xs ++ [y]) ++ ys by simp, ← next_setNext] at hfamily
        obtain ⟨u, hu, howned⟩ := h.recycle_taken (t := s.setNext y (s.next q)) hsplit rfl hfamily
        have hspace := SameSpace.setNext.trans (SameSpace.recycle hu)
        have hbounds := SameBounds.setNext.trans (SameBounds.recycle hu)
        refine Or.inr ⟨xs ++ [y], q, ys, hsplit, hno, hc, u, howned, hspace, hbounds, ?_⟩
        have hu' : (s.setNext y (s.vma q).nextvma).recyclevmastruct q = some u := hu
        rw [hu', Option.bind_eq_bind, Option.bind_some, onMachine, (hbounds q).1, (hbounds q).2,
          hspace.machine]
        cases s.machine.unmapPhyaddrRange (s.vma q).vstart (s.vma q).vend <;> rfl
      · rw [if_neg hc]
        apply ih hsplit hrest
        · intro z hz
          rcases List.mem_append.mp hz with hz | hz
          · exact hno z hz
          · rw [List.mem_singleton.mp hz]
            exact hc
        · exact Nat.lt_of_succ_lt_succ hfuel

/-- `remove_from_vma_list`: no node covers the range, or the first one is removed. -/
theorem remove (h : s.Owned lists) (task start stop : Nat) :
    (s.removeFromVmaList task start stop = some (0, s) ∧
      ∀ z ∈ lists (some task), ¬ s.Covers z start stop) ∨
    ∃ pre x post, Removes s lists task start stop pre x post
      (s.removeFromVmaList task start stop) := by
  have hchain := h.family.chain (some task)
  have hlen := h.length_lt (some task)
  unfold removeFromVmaList
  dsimp only
  cases hl : lists (some task) with
  | nil =>
    have hhead : (s.mm task).vmaList = 0 := h.head_eq_zero.mpr hl
    rw [if_pos hhead]
    exact Or.inl ⟨rfl, fun z hz => absurd hz List.not_mem_nil⟩
  | cons x ys =>
    rw [hl] at hchain hlen
    obtain ⟨hhead, hne, hrest⟩ := hchain
    have hhead : (s.mm task).vmaList = x := hhead
    rw [hhead, if_neg hne]
    by_cases hc : (s.vma x).vstart ≤ start ∧ stop ≤ (s.vma x).vend
    · rw [if_pos hc]
      have hfamily := h.family.tail hl
      rw [← heads_setVmaList] at hfamily
      have hsplit : lists (some task) = [] ++ x :: ys := hl
      obtain ⟨u, hu, howned⟩ := h.recycle_taken
        (t := s.setMm task fun m => { m with vmaList := s.next x }) hsplit rfl hfamily
      have hset : SameSpace s (s.setMm task fun m => { m with vmaList := s.next x }) :=
        SameSpace.setMm fun _ => rfl
      have hspace := hset.trans (SameSpace.recycle hu)
      have hbounds : SameBounds s u := fun p => SameBounds.recycle hu p
      refine Or.inr ⟨[], x, ys, hsplit, fun _ hz => absurd hz List.not_mem_nil, hc, u, howned,
        hspace, hbounds, ?_⟩
      unfold onMachine
      dsimp only
      cases s.machine.unmapPhyaddrRange (s.vma x).vstart (s.vma x).vend with
      | none => rfl
      | some m =>
        have hrec := recyclevmastruct_machine
          (s := s.setMm task fun m => { m with vmaList := s.next x }) (x := x) m
        rw [hu] at hrec
        exact congrArg (Option.bind · fun u => some (1, u)) hrec
    · rw [if_neg hc]
      have hfuel : (2 ^ 64 : Nat) = 2 ^ 64 - 1 + 1 := rfl
      rw [hfuel, VmState.removeFrom, if_neg hne, if_neg hc, ← hl]
      apply h.removeFrom (hl.trans (List.nil_append (x :: ys)).symm) hrest
      · intro z hz
        rw [List.nil_append, List.mem_singleton] at hz
        rw [hz]
        exact hc
      · rw [List.length_cons] at hlen
        omega

/-- A change of the machine moves no node. -/
theorem onMachine (h : s.Owned lists) {f : Machine → Option Machine}
    (heq : s.onMachine f = some t) : t.Owned lists := by
  obtain ⟨m, -, rfl⟩ := Option.map_eq_some_iff.mp heq
  exact ⟨h.family, h.heap, h.bound⟩

/-- `alloc_vma` and `append_to_vma_list` put a node that no process has at the end of the list
of `task`. -/
theorem add (h : s.Owned lists) (halloc : s.allocVma start stop = some (p, u))
    (happend : u.appendToVmaList task p = some t) :
    ∃ lists', t.Owned lists' ∧ lists' (some task) = lists (some task) ++ [p] ∧
      (∀ d, d ≠ task → lists' (some d) = lists (some d)) ∧ ∀ d, p ∉ lists (some d) := by
  obtain ⟨howned, hfree, hnext⟩ := h.alloc halloc
  obtain ⟨t', ht', howned', -⟩ := howned.append task hfree hnext
  rw [happend] at ht'
  rw [Option.some.inj ht']
  refine ⟨_, howned', ?_, fun d hd => ?_, fun d hd => ?_⟩
  · rw [Function.update_self, Function.update_of_ne (Option.some_ne_none task)]
  · rw [Function.update_of_ne (fun heq => hd (Option.some.inj heq)),
      Function.update_of_ne (Option.some_ne_none d)]
  · apply hfree.notMem (some d)
    rwa [Function.update_of_ne (Option.some_ne_none d)]

theorem copyNode (h : s.Owned lists) (heq : s.copyNode a c x = some t) :
    ∃ lists', t.Owned lists' ∧ ∀ d, d ≠ c → lists' (some d) = lists (some d) := by
  simp only [VmState.copyNode, Option.bind_eq_bind, Option.bind_eq_some_iff, Prod.exists] at heq
  obtain ⟨p, u, halloc, u₁, happend, u₂, hinc, hshare⟩ := heq
  obtain ⟨lists', howned, -, hother, -⟩ := h.add halloc happend
  exact ⟨lists', (howned.onMachine hinc).onMachine hshare, hother⟩

/-- `copy_vma` from the node `x` of the list of `a` on, which does not change under the copy. -/
theorem copyFrom (hne : a ≠ c) {fuel : Nat} (h : s.Owned lists)
    (hl : lists (some a) = xs ++ ys) (hx : Chain s.next 0 x ys)
    (heq : VmState.copyFrom a c fuel x s = some t) :
    ∃ lists', t.Owned lists' ∧ ∀ d, d ≠ c → lists' (some d) = lists (some d) := by
  induction fuel generalizing s lists xs ys x with
  | zero => cases heq
  | succ fuel ih =>
    rw [VmState.copyFrom] at heq
    cases ys with
    | nil =>
      rw [if_pos (show x = 0 from hx)] at heq
      rw [← Option.some.inj heq]
      exact ⟨lists, h, fun _ _ => rfl⟩
    | cons y ys =>
      obtain ⟨rfl, h0, -⟩ := hx
      rw [if_neg h0, Option.bind_eq_bind, Option.bind_eq_some_iff] at heq
      obtain ⟨u, hu, heq⟩ := heq
      obtain ⟨lists', howned, hother⟩ := h.copyNode hu
      have hl' : lists' (some a) = xs ++ x :: ys := by rw [hother a hne, hl]
      have hrest : Chain u.next 0 (u.next x) ys := by
        have hchain := howned.family.chain (some a)
        rw [hl'] at hchain
        exact hchain.next_eq
      have hl' : lists' (some a) = (xs ++ [x]) ++ ys := by
        rw [hl', List.append_assoc, List.singleton_append]
      obtain ⟨lists'', howned', hother'⟩ := ih howned hl' hrest heq
      exact ⟨lists'', howned', fun d hd => (hother' d hd).trans (hother d hd)⟩

/-- A removal that covers the first node removes it. -/
theorem remove_head (h : s.Owned lists) (hl : lists (some task) = x :: xs)
    (hc : s.Covers x start stop) :
    Removes s lists task start stop [] x xs (s.removeFromVmaList task start stop) := by
  rcases h.remove task start stop with ⟨-, hno⟩ | ⟨pre, y, post, hr⟩
  · exact absurd hc (hno x (by simp [hl]))
  · have hsplit := hr.split
    rw [hl] at hsplit
    cases pre with
    | nil =>
      obtain ⟨rfl, rfl⟩ := List.cons.inj hsplit
      exact hr
    | cons z pre =>
      obtain ⟨rfl, -⟩ := List.cons.inj hsplit
      exact absurd hc (hr.first x List.mem_cons_self)

/-- One turn of the teardown loop. -/
theorem exitFrom_cons {fuel : Nat} (h : s.Owned lists) (hl : lists (some task) = x :: xs)
    (heq : VmState.exitFrom task fuel (s.mm task).vmaList s = some t) :
    ∃ n u, u.Owned (recycled lists task xs x) ∧ SameBounds s u ∧
      s.machine.unmapPhyaddrRange (s.vma x).vstart (s.vma x).vend = some u.machine ∧
      VmState.exitFrom task n (u.mm task).vmaList u = some t := by
  have hchain := h.family.chain (some task)
  rw [hl] at hchain
  obtain ⟨hhead, hne, hrest⟩ := hchain
  have hhead : (s.mm task).vmaList = x := hhead
  cases fuel with
  | zero => cases heq
  | succ fuel =>
    rw [VmState.exitFrom, hhead, if_neg hne] at heq
    simp only [Option.bind_eq_bind, Option.bind_eq_some_iff, Prod.exists] at heq
    obtain ⟨r, u, hrem, heq⟩ := heq
    obtain ⟨u₀, howned₀, -, hbounds, hres⟩ :=
      (h.remove_head hl ⟨Nat.le_refl _, Nat.le_refl _⟩).result
    rw [hrem] at hres
    obtain ⟨m, hm, hres⟩ := Option.map_eq_some_iff.mp hres.symm
    obtain ⟨-, rfl⟩ := Prod.mk.inj hres
    have howned : VmState.Owned { u₀ with machine := m } (recycled lists task xs x) :=
      ⟨howned₀.family, howned₀.heap, howned₀.bound⟩
    -- the node saved before the removal heads the list after it
    have hnext : (s.vma x).nextvma = (u₀.mm task).vmaList := by
      have hchain := howned.family.chain (some task)
      rw [recycled, Function.update_of_ne (Option.some_ne_none task), Function.update_self] at hchain
      exact hrest.head_eq hchain
    rw [hnext] at heq
    exact ⟨fuel, _, howned, hbounds, hm, heq⟩

/-- The teardown loop moves the nodes of a process to the recycle list, in order. -/
theorem exitFrom {fuel : Nat} (h : s.Owned lists) (hl : lists (some task) = xs)
    (heq : VmState.exitFrom task fuel (s.mm task).vmaList s = some t) :
    ∃ lists', t.Owned lists' ∧ lists' (some task) = [] ∧ lists' none = lists none ++ xs ∧
      ∀ d, d ≠ task → lists' (some d) = lists (some d) := by
  induction xs generalizing s lists fuel with
  | nil =>
    have hhead : (s.mm task).vmaList = 0 := h.head_eq_zero.mpr hl
    cases fuel with
    | zero => cases heq
    | succ fuel =>
      rw [VmState.exitFrom, if_pos hhead] at heq
      rw [← Option.some.inj heq, List.append_nil]
      exact ⟨lists, h, hl, rfl, fun _ _ => rfl⟩
  | cons x xs ih =>
    obtain ⟨n, u, howned, -, -, heq⟩ := h.exitFrom_cons hl heq
    have hlu : recycled lists task xs x (some task) = xs := by
      rw [recycled, Function.update_of_ne (Option.some_ne_none task), Function.update_self]
    obtain ⟨lists', howned', hnil, hbin, hother⟩ := ih howned hlu heq
    refine ⟨lists', howned', hnil, ?_, fun d hd => ?_⟩
    · rw [hbin, recycled, Function.update_self, List.append_assoc, List.singleton_append]
    · rw [hother d hd, recycled, Function.update_of_ne (Option.some_ne_none d),
        Function.update_of_ne (fun h => hd (Option.some.inj h))]

/-- The memory side of `syscall_exit` and `kill_proc`. -/
theorem syscallExit (h : s.Owned lists) (heq : s.syscallExit task = some t) :
    ∃ lists', t.Owned lists' ∧ lists' (some task) = [] ∧
      lists' none = lists none ++ lists (some task) ∧
      ∀ d, d ≠ task → lists' (some d) = lists (some d) := by
  simp only [VmState.syscallExit, Option.bind_eq_bind, Option.bind_eq_some_iff,
    Option.some.injEq] at heq
  obtain ⟨u, hu, rfl⟩ := heq
  have hcr3 : (s.setMm task fun m => { m with cr3 := 0 }).Owned lists := h.setMm fun _ => rfl
  obtain ⟨lists', howned, hnil, hbin, hother⟩ := hcr3.exitFrom rfl hu
  refine ⟨lists', ⟨?_, howned.heap, howned.bound⟩, hnil, hbin, hother⟩
  have hzero : u.heads (some task) = 0 := howned.head_eq_zero.mpr hnil
  have hheads : (u.setMm task fun m => { m with vmaList := 0 }).heads = u.heads := by
    rw [heads_setVmaList, ← hzero, Function.update_eq_self]
  have hfamily := howned.family
  rw [← hheads] at hfamily
  exact hfamily

/-- Anything else. -/
theorem elsewhere (h : s.Owned lists) (he : s.Elsewhere t) : ∃ lists', t.Owned lists' := by
  have hnext : t.next = s.next := by
    funext p
    unfold VmState.next
    rw [he.vma]
  have hcases : ∀ i, ∃ ys, Chain t.next 0 (t.heads i) ys ∧ (ys = lists i ∨ ys = []) := by
    intro i
    rw [hnext]
    cases i with
    | none =>
      refine ⟨lists none, ?_, Or.inl rfl⟩
      rw [show t.heads none = s.heads none from he.recycle]
      exact h.family.chain none
    | some c =>
      rcases he.lists c with hc | hc
      · refine ⟨lists (some c), ?_, Or.inl rfl⟩
        rw [show t.heads (some c) = s.heads (some c) from hc]
        exact h.family.chain (some c)
      · exact ⟨[], hc, Or.inr rfl⟩
  choose lists' hchain hor using hcases
  have hsub : ∀ i x, x ∈ lists' i → x ∈ lists i := by
    intro i x hx
    rcases hor i with hi | hi
    · rwa [hi] at hx
    · rw [hi] at hx
      cases hx
  refine ⟨lists', ⟨hchain, fun i => ?_, fun i j x hi hj => ?_⟩, fun i x hx => ?_, he.heap.2⟩
  · rcases hor i with hi | hi
    · rw [hi]
      exact h.family.nodup i
    · rw [hi]
      exact List.nodup_nil
  · exact h.family.unique i j x (hsub i x hi) (hsub j x hj)
  · exact Nat.le_trans (h.heap i x (hsub i x hx)) he.heap.1

/-- One operation, of any kind. -/
theorem step (h : s.Owned lists) (op : VmaOp) (hst : op.Step s t) : ∃ lists', t.Owned lists' := by
  cases op with
  | add task start stop =>
    obtain ⟨p, u, halloc, happend⟩ := hst
    obtain ⟨lists', howned, -⟩ := h.add halloc happend
    exact ⟨lists', howned⟩
  | remove task start stop =>
    obtain ⟨r, heq⟩ := hst
    rcases h.remove task start stop with ⟨hnone, -⟩ | ⟨pre, x, post, hr⟩
    · rw [hnone] at heq
      rw [← (Prod.mk.inj (Option.some.inj heq)).2]
      exact ⟨lists, h⟩
    · obtain ⟨u, howned, -, -, hres⟩ := hr.result
      rw [heq] at hres
      obtain ⟨m, -, hm⟩ := Option.map_eq_some_iff.mp hres.symm
      rw [← (Prod.mk.inj hm).2]
      exact ⟨_, howned.family, howned.heap, howned.bound⟩
  | copy a c =>
    obtain ⟨hne, heq⟩ := hst
    obtain ⟨lists', howned, -⟩ :=
      h.copyFrom hne (List.nil_append _).symm (h.family.chain (some a)) heq
    exact ⟨lists', howned⟩
  | teardown task =>
    obtain ⟨lists', howned, -⟩ := h.syscallExit hst
    exact ⟨lists', howned⟩
  | elsewhere => exact h.elsewhere hst

end VmState.Owned

/-- Every run of the operations keeps the lists apart. -/
theorem VmaReach.owned (h : VmaReach s) : ∃ lists, s.Owned lists := by
  apply h.invariant
  · intro s hs
    refine ⟨fun _ => [], ⟨fun i => hs.1 i, fun _ => List.nodup_nil, ?_⟩, ?_, hs.2⟩
    · intro i j x hx
      cases hx
    · intro i x hx
      cases hx
  · intro op s t hs hst
    obtain ⟨lists, howned⟩ := hs
    exact howned.step op hst

/-- In every run the lists of the processes and the recycle list are disjoint and end with
`NULL`, the walks along them end, `alloc_vma` gives a node that no process has, and a teardown
puts every node of the process on the recycle list exactly once. -/
theorem vmaNodes_owned (h : VmaReach s) : ∃ lists, s.Owned lists ∧
    (∀ i, lists i ≠ [] → ∃ y ∈ lists i, lastVma s.vma (2 ^ 64) (s.heads i) = some y ∧
      s.next y = 0) ∧
    (∀ task start stop, s.removeFromVmaList task start stop = none → ∃ x ∈ lists (some task),
      s.machine.unmapPhyaddrRange (s.vma x).vstart (s.vma x).vend = none) ∧
    (∀ start stop p t, s.allocVma start stop = some (p, t) →
      p ≠ 0 ∧ ∀ c, p ∉ lists (some c)) ∧
    (∀ task t, s.syscallExit task = some t → ∃ lists', t.Owned lists' ∧
      lists' (some task) = [] ∧ ∀ x ∈ lists (some task), (lists' none).count x = 1) := by
  obtain ⟨lists, hs⟩ := h.owned
  refine ⟨lists, hs, fun i hi => ?_, fun task start stop hrem => ?_, fun start stop p t heq => ?_,
    fun task t heq => ?_⟩
  · rcases List.eq_nil_or_concat' (lists i) with hnil | ⟨xs, y, hl⟩
    · exact absurd hnil hi
    · have hchain := hs.family.chain i
      rw [hl] at hchain
      exact ⟨y, by simp [hl], hs.lastVma hl, hchain.next_eq⟩
  · rcases hs.remove task start stop with ⟨hzero, -⟩ | ⟨pre, x, post, hr⟩
    · rw [hrem] at hzero
      cases hzero
    · obtain ⟨u, -, -, -, hres⟩ := hr.result
      rw [hrem] at hres
      exact ⟨x, by simp [hr.split], Option.map_eq_none_iff.mp hres.symm⟩
  · obtain ⟨-, hfree, -⟩ := hs.alloc heq
    refine ⟨hfree.pos, fun c hc => hfree.notMem (some c) ?_⟩
    rw [Function.update_of_ne (Option.some_ne_none c)]
    exact hc
  · obtain ⟨lists', howned, hnil, hbin, -⟩ := hs.syscallExit heq
    refine ⟨lists', howned, hnil, fun x hx => ?_⟩
    apply List.count_eq_one_of_mem (howned.family.nodup none)
    rw [hbin]
    exact List.mem_append_right _ hx

/-- A kernel without processes, and the VMA of a first page. -/
def noVmas : VmState where
  machine := ⟨fun _ _ => 0, 0, ⟨0, fun _ => 0, fun _ => 0, 0, 0, 0, 0⟩⟩
  vma _ := ⟨0, 0, 0⟩
  mm _ := ⟨0, 0, 0⟩
  alive _ := false
  active := none
  vmaRecycleList := 0
  kernVA := 0xFFFFFFFF80400000

/-- The same kernel with a root table that points to itself in slot 510. -/
def oneRoot : VmState :=
  { noVmas with machine := { noVmas.machine with
      mem := fun f o => if f = 1 ∧ o = 4080 then 7 else if f = 1 ∧ o = 4081 then 16 else 0
      cr3 := 0x1000 } }

/-- An operation on the lists, as it is called. -/
def VmaOp.run : VmaOp → VmState → Option VmState
  | .add task startAdd endAddr, s =>
      (s.allocVma startAdd endAddr).bind fun r => r.2.appendToVmaList task r.1
  | .remove task startAddr endAddr, s => (s.removeFromVmaList task startAddr endAddr).map Prod.snd
  | .copy active proc, s => if active ≠ proc then s.copyVma active proc else none
  | .teardown task, s => s.syscallExit task
  | .elsewhere, _ => none

theorem VmaOp.step_of_run {op : VmaOp} (h : op.run s = some t) : op.Step s t := by
  cases op with
  | add task startAdd endAddr =>
    obtain ⟨⟨p, u⟩, halloc, happend⟩ := Option.bind_eq_some_iff.mp h
    exact ⟨p, u, halloc, happend⟩
  | remove task startAddr endAddr =>
    obtain ⟨⟨r, u⟩, heq, rfl⟩ := Option.map_eq_some_iff.mp h
    exact ⟨r, heq⟩
  | copy active proc =>
    unfold VmaOp.run at h
    dsimp only at h
    split_ifs at h with hne
    exact ⟨hne, h⟩
  | teardown task => exact h
  | elsewhere => cases h

/-- Two VMAs, of which the first is removed; a copy for a child, and the end of the parent. -/
def copyOps : List VmaOp :=
  [.add 0 0x400000 0x400FFF, .add 0 0x500000 0x50000F, .remove 0 0x400000 0x400FFF, .copy 0 1,
    .teardown 0]

/-- The child has the node of the first VMA, and that of the second is on the recycle list. -/
def copiedVmas : VmState := (runLabels VmaOp.run copyOps oneRoot).get (by decide +kernel)

theorem copiedVmas_reach : VmaReach copiedVmas := by
  have hinit : VmaReach oneRoot := by
    refine Reach.init ⟨fun i => ?_, by decide⟩
    cases i <;> rfl
  exact hinit.of_run (fun _ _ _ h => VmaOp.step_of_run h) (Option.some_get _).symm

theorem vmaNodes_owned_copied : ∃ lists, copiedVmas.Owned lists ∧ lists (some 0) = [] ∧
    lists (some 1) = [0xFFFFFFFF80400001] ∧ lists none = [0xFFFFFFFF80400019] ∧
    (∀ start stop p t, copiedVmas.allocVma start stop = some (p, t) →
      p ≠ 0 ∧ ∀ c, p ∉ lists (some c)) ∧
    ∀ t, copiedVmas.syscallExit 1 = some t → ∃ lists', t.Owned lists' ∧ lists' (some 1) = [] ∧
      (lists' none).count 0xFFFFFFFF80400001 = 1 := by
  obtain ⟨lists, howned, -, -, halloc, hexit⟩ := vmaNodes_owned copiedVmas_reach
  have hlist : ∀ i l, Chain copiedVmas.next 0 (copiedVmas.heads i) l → lists i = l := fun i l h =>
    (howned.family.chain i).unique h
  have hparent : copiedVmas.heads (some 0) = 0 := by decide +kernel
  have hlast : copiedVmas.next 0xFFFFFFFF80400001 = 0 ∧ copiedVmas.next 0xFFFFFFFF80400019 = 0 := by
    decide +kernel
  have hchild : lists (some 1) = [0xFFFFFFFF80400001] :=
    hlist (some 1) _ ⟨by decide +kernel, by decide, hlast.1⟩
  have hbin : lists none = [0xFFFFFFFF80400019] :=
    hlist none _ ⟨by decide +kernel, by decide, hlast.2⟩
  refine ⟨lists, howned, hlist (some 0) [] hparent, hchild, hbin, halloc, ?_⟩
  intro t ht
  obtain ⟨lists', howned', hnil, hcount⟩ := hexit 1 t ht
  exact ⟨lists', howned', hnil, hcount _ (by rw [hchild]; exact List.mem_singleton_self _)⟩

end Sbunix
