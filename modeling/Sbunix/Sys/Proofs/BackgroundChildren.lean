import Mathlib.Data.List.Induction
import Mathlib.Data.List.Perm.Subperm
import Sbunix.Misc.ChainFamily
import Sbunix.Sys.BackgroundChildren

/-!
# Background children

The links stay right as long as the head is not removed from a longer list: the node behind it gets
itself as its back link then, and can never be removed.
-/

namespace Sbunix

namespace BackgroundChildren

variable {s s' : BackgroundChildren} {pid : UInt64} {p x y fuel : Nat} {front nodes rest : List Nat}

/-- `nodes` is the list, and `p` the back link of its head. -/
structure Linked (s : BackgroundChildren) (p : Nat) (nodes : List Nat) : Prop where
  chain : Chain s.next 0 s.bgChildLL nodes
  back : BackLinks s.prev p nodes
  nodup : nodes.Nodup
  allocated : ∀ x ∈ nodes, x ≤ s.allocated

theorem Linked.length_le (h : Linked s p nodes) : nodes.length ≤ s.allocated := by
  have hsub : nodes ⊆ List.range' 1 s.allocated := by
    intro x hx
    have hne := h.chain.ne_stop hx
    have hle := h.allocated x hx
    rw [List.mem_range'_1]
    omega
  have hlen := (List.subperm_of_subset h.nodup hsub).length_le
  rwa [List.length_range'] at hlen

/-- The nodes that a removal leaves. -/
def kept (s : BackgroundChildren) (pid : UInt64) (nodes : List Nat) : List Nat :=
  nodes.filter fun x => decide (asPid (s.pid x) ≠ pid)

theorem kept_cons_of_ne (h : asPid (s.pid x) ≠ pid) :
    kept s pid (x :: nodes) = x :: kept s pid nodes := by
  unfold kept
  rw [List.filter_cons, if_pos (decide_eq_true h)]

theorem kept_cons_of_eq (h : asPid (s.pid x) = pid) :
    kept s pid (x :: nodes) = kept s pid nodes := by
  unfold kept
  rw [List.filter_cons, if_neg (by simp [h])]

/-! One node -/

theorem removeNode_of_ne (h : asPid (s.pid x) ≠ pid) : s.removeNode pid x = s := by
  unfold removeNode
  rw [if_neg h]

/-- A node behind another one is unlinked, and the walk goes on behind it. -/
theorem removeNode_behind (h : Linked s p (front ++ y :: x :: rest))
    (heq : asPid (s.pid x) = pid) :
    ∃ s', s.removeNode pid x = s' ∧ Linked s' p (front ++ y :: rest) ∧ s'.pid = s.pid ∧
      s'.allocated = s.allocated ∧ s'.bgChildLL = s.bgChildLL ∧ s'.next x = s'.next y := by
  have hy : y ≠ 0 := h.chain.ne_stop (List.mem_append_right front List.mem_cons_self)
  have hback : s.prev x = y := (BackLinks.append_iff.mp h.back).2.1
  have hafter : Chain s.next 0 (s.next x) rest := h.chain.next_eq.2.2
  have hnodup := List.nodup_append.mp h.nodup
  have hnode := List.nodup_cons.mp hnodup.2.1
  have hyx : x ≠ y := fun he => hnode.1 (he ▸ List.mem_cons_self)
  have hyrest : y ∉ rest := fun hmem => hnode.1 (List.mem_cons_of_mem x hmem)
  have hyfront : y ∉ front := fun hmem => hnodup.2.2 y hmem y List.mem_cons_self rfl
  have hchain := h.chain.unlink ⟨hyfront, hyrest⟩
  have hsub : (front ++ y :: rest).Sublist (front ++ y :: x :: rest) :=
    List.Sublist.append_left (List.Sublist.cons_cons y (List.sublist_cons_self x rest)) front
  have halloc : ∀ w ∈ front ++ y :: rest, w ≤ s.allocated := fun w hw =>
    h.allocated w (hsub.subset hw)
  unfold removeNode
  rw [if_pos heq]
  dsimp only
  rw [hback, if_pos hy]
  have hjump : Function.update s.next y (s.next x) x = Function.update s.next y (s.next x) y := by
    rw [Function.update_of_ne hyx, Function.update_self]
  cases rest with
  | nil =>
    have hnext : s.next x = 0 := hafter
    rw [if_neg (by simp [hnext])]
    exact ⟨_, rfl, ⟨hchain, h.back.unlink_last, h.nodup.sublist hsub, halloc⟩, rfl, rfl, rfl, hjump⟩
  | cons z rest =>
    obtain ⟨hnext, hz, -⟩ := hafter
    rw [hnext, if_pos hz]
    rw [hnext] at hchain hjump
    have hnodup' := List.nodup_append.mp (h.nodup.sublist hsub)
    have hzy : z ≠ y := fun he => hyrest (he ▸ List.mem_cons_self)
    have hzfront : z ∉ front ++ [y] := by
      intro hmem
      rcases List.mem_append.mp hmem with hmem | hmem
      · exact hnodup'.2.2 z hmem z (List.mem_cons_of_mem y List.mem_cons_self) rfl
      · exact hzy (List.mem_singleton.mp hmem)
    have hzrest : z ∉ rest := (List.nodup_cons.mp (List.nodup_cons.mp hnodup'.2.1).2).1
    exact ⟨_, rfl, ⟨hchain, h.back.unlink ⟨hzfront, hzrest⟩, h.nodup.sublist hsub, halloc⟩,
      rfl, rfl, rfl, hjump⟩

/-- A head with itself as its back link stays. -/
theorem removeNode_self (h : Linked s x (x :: rest)) : s.removeNode pid x = s := by
  have hx : x ≠ 0 := h.chain.2.1
  have hafter : Chain s.next 0 (s.next x) rest := h.chain.2.2
  unfold removeNode
  dsimp only
  rw [h.back.1, if_pos hx, Function.update_eq_self]
  split
  · cases rest with
    | nil => rw [if_neg (by simp [show s.next x = 0 from hafter])]
    | cons z rest =>
      have hprev : s.prev (s.next x) = x := hafter.1 ▸ h.back.2.1
      have hsame : Function.update s.prev (s.next x) x = s.prev := by
        have heq := Function.update_eq_self (s.next x) s.prev
        rwa [hprev] at heq
      rw [hsame, ite_self]
  · rfl

/-! The walk -/

/-- What a walk that ends leaves of the list. -/
def Leaves (s : BackgroundChildren) (result : Option BackgroundChildren) (p : Nat)
    (nodes : List Nat) : Prop :=
  ∃ s', result = some s' ∧ Linked s' p nodes ∧ s'.pid = s.pid

/-- The walk behind `y`: the nodes with the pid are unlinked. -/
theorem removeLoop_behind (h : Linked s p (front ++ y :: rest)) (hfuel : rest.length < fuel) :
    s.Leaves (removeLoop pid fuel s (s.next y)) p (front ++ y :: kept s pid rest) := by
  induction rest generalizing s front y fuel with
  | nil =>
    obtain ⟨fuel, rfl⟩ := Nat.exists_eq_succ_of_ne_zero (show fuel ≠ 0 by omega)
    have hend : s.next y = 0 := h.chain.next_eq
    refine ⟨s, ?_, h, rfl⟩
    rw [removeLoop, if_pos hend]
  | cons x rest ih =>
    rw [List.length_cons] at hfuel
    obtain ⟨fuel, rfl⟩ := Nat.exists_eq_succ_of_ne_zero (show fuel ≠ 0 by omega)
    have hlt : rest.length < fuel := Nat.lt_of_succ_lt_succ hfuel
    obtain ⟨hnext, hx, -⟩ := h.chain.next_eq
    rw [hnext, removeLoop, if_neg hx]
    dsimp only
    by_cases heq : asPid (s.pid x) = pid
    · obtain ⟨s', hs', hlinked, hpid, -, -, hjump⟩ := removeNode_behind h heq
      rw [hs', hjump, kept_cons_of_eq heq]
      obtain ⟨t, hloop, ht, htpid⟩ := ih hlinked hlt
      refine ⟨t, hloop, ?_, htpid.trans hpid⟩
      unfold kept at ht ⊢
      rw [hpid] at ht
      exact ht
    · rw [removeNode_of_ne heq, kept_cons_of_ne heq]
      rw [List.append_cons] at h ⊢
      exact ih h hlt

/-- The walk from a head that stays. -/
theorem removeLoop_head (h : Linked s p (x :: rest)) (hkeep : s.removeNode pid x = s)
    (hfuel : rest.length + 1 < fuel) :
    s.Leaves (removeLoop pid fuel s x) p (x :: kept s pid rest) := by
  obtain ⟨fuel, rfl⟩ := Nat.exists_eq_succ_of_ne_zero (show fuel ≠ 0 by omega)
  have hx : x ≠ 0 := h.chain.2.1
  rw [removeLoop, if_neg hx]
  dsimp only
  rw [hkeep]
  have hbehind : s.Leaves (removeLoop pid fuel s (s.next x)) p ([] ++ x :: kept s pid rest) :=
    removeLoop_behind h (by omega)
  exact hbehind

/-- Removal from a list whose head stays. -/
theorem remove_head (h : Linked s p (x :: rest)) (hkeep : s.removeNode pid x = s) :
    s.Leaves (s.removeBackgroundChildProcess pid) p (x :: kept s pid rest) := by
  have hlen := h.length_le
  rw [List.length_cons] at hlen
  unfold removeBackgroundChildProcess
  rw [h.chain.1]
  exact removeLoop_head h hkeep (by omega)

/-- Removal of the only node. -/
theorem remove_only (h : Linked s 0 [x]) (heq : asPid (s.pid x) = pid) :
    s.Leaves (s.removeBackgroundChildProcess pid) 0 [] := by
  have hlen := h.length_le
  have hx : x ≠ 0 := h.chain.2.1
  have hnext : s.next x = 0 := h.chain.2.2
  have hnode : s.removeNode pid x = { s with bgChildLL := 0 } := by
    unfold removeNode
    dsimp only
    rw [if_pos heq, h.back.1, if_neg (by simp), hnext, if_neg (by simp)]
  obtain ⟨m, hm⟩ := Nat.exists_eq_succ_of_ne_zero (Nat.ne_of_gt hlen)
  refine ⟨{ s with bgChildLL := 0 }, ?_, ⟨rfl, trivial, List.nodup_nil, ?_⟩, rfl⟩
  · unfold removeBackgroundChildProcess
    rw [h.chain.1, removeLoop, if_neg hx, hnode, hm]
    dsimp only
    rw [hnext, removeLoop, if_pos rfl]
  · exact fun y hy => absurd hy List.not_mem_nil

/-- Removal of a head with another node behind it: that node becomes its own back link. -/
theorem remove_first (h : Linked s 0 (x :: y :: rest)) (heq : asPid (s.pid x) = pid) :
    s.Leaves (s.removeBackgroundChildProcess pid) y (y :: kept s pid rest) := by
  have hlen := h.length_le
  rw [List.length_cons, List.length_cons] at hlen
  have hx : x ≠ 0 := h.chain.2.1
  obtain ⟨hnext, hy, hrest⟩ := h.chain.2.2
  have hnodup := List.nodup_cons.mp h.nodup
  have hyrest : y ∉ rest := (List.nodup_cons.mp hnodup.2).1
  have hnode : s.removeNode pid x =
      { s with bgChildLL := y, prev := Function.update s.prev y y } := by
    unfold removeNode
    dsimp only
    rw [if_pos heq, h.back.1, if_neg (by simp), hnext, if_pos hy]
  have hlinked : Linked { s with bgChildLL := y, prev := Function.update s.prev y y } y
      (y :: rest) := by
    refine ⟨⟨rfl, hy, hrest⟩, ⟨Function.update_self _ _ _, ?_⟩, hnodup.2, ?_⟩
    · refine h.back.2.2.congr fun z hz => Function.update_of_ne ?_ _ _
      rintro rfl
      exact hyrest hz
    · exact fun z hz => h.allocated z (List.mem_cons_of_mem x hz)
  unfold removeBackgroundChildProcess
  rw [h.chain.1, removeLoop, if_neg hx, hnode]
  dsimp only
  rw [hnext]
  exact removeLoop_head hlinked (removeNode_self hlinked) (by omega)

/-! Adding -/

theorem lastNode_eq (h : Chain s.next 0 x (front ++ [y])) (hfuel : front.length < fuel) :
    s.lastNode fuel x = some y := by
  induction front generalizing x fuel with
  | nil =>
    obtain ⟨fuel, rfl⟩ := Nat.exists_eq_succ_of_ne_zero (show fuel ≠ 0 by omega)
    obtain ⟨rfl, -, hend⟩ := h
    rw [lastNode, if_neg (fun hne => hne hend)]
  | cons z front ih =>
    rw [List.length_cons] at hfuel
    obtain ⟨fuel, rfl⟩ := Nat.exists_eq_succ_of_ne_zero (show fuel ≠ 0 by omega)
    obtain ⟨rfl, -, hrest⟩ := h
    have hne : s.next x ≠ 0 := by
      cases front with
      | nil => exact hrest.1 ▸ hrest.2.1
      | cons w front => exact hrest.1 ▸ hrest.2.1
    rw [lastNode, if_pos hne]
    exact ih hrest (by omega)

/-- What an addition leaves: a new last node with the pid as an `int`. -/
theorem add_linked (h : Linked s p nodes) (hp : nodes = [] → p = 0) :
    ∃ s', s.addNewBackgroundChildProcess pid = some s' ∧
      Linked s' p (nodes ++ [s.allocated + 1]) ∧
      s'.pid = Function.update s.pid (s.allocated + 1) pid.toInt64.toInt32 := by
  have hfresh : s.allocated + 1 ∉ nodes := fun hmem =>
    absurd (h.allocated _ hmem) (Nat.not_succ_le_self _)
  have hne : ∀ x ∈ nodes, x ≠ s.allocated + 1 := fun x hx he => hfresh (he ▸ hx)
  have halloc : ∀ x ∈ nodes ++ [s.allocated + 1], x ≤ s.allocated + 1 := by
    intro x hx
    rcases List.mem_append.mp hx with hx | hx
    · exact Nat.le_succ_of_le (h.allocated x hx)
    · exact Nat.le_of_eq (List.mem_singleton.mp hx)
  have hnodup : (nodes ++ [s.allocated + 1]).Nodup :=
    List.nodup_append.mpr ⟨h.nodup, List.nodup_singleton _,
      fun x hx z hz => List.mem_singleton.mp hz ▸ hne x hx⟩
  have hchain : Chain (s.newNode pid).next 0 s.bgChildLL nodes :=
    h.chain.congr fun x hx => Function.update_of_ne (hne x hx) _ _
  have hback : BackLinks (s.newNode pid).prev p nodes :=
    h.back.congr fun x hx => Function.update_of_ne (hne x hx) _ _
  unfold addNewBackgroundChildProcess
  dsimp only
  rcases List.eq_nil_or_concat' nodes with rfl | ⟨front, y, rfl⟩
  · have hhead : s.bgChildLL = 0 := h.chain
    rw [if_pos hhead]
    refine ⟨_, rfl, ⟨⟨rfl, Nat.succ_ne_zero _, Function.update_self _ _ _⟩, ?_, hnodup, halloc⟩,
      rfl⟩
    exact ⟨(Function.update_self _ _ _).trans (hp rfl).symm, trivial⟩
  · have hlen := h.length_le
    have hhead : s.bgChildLL ≠ 0 := by
      cases front with
      | nil => exact h.chain.1 ▸ h.chain.2.1
      | cons x front => exact h.chain.1 ▸ h.chain.2.1
    have hy : y ∈ front ++ [y] := List.mem_append_right front List.mem_cons_self
    have hyfront : y ∉ front := fun hmem =>
      (List.nodup_append.mp h.nodup).2.2 y hmem y List.mem_cons_self rfl
    have hlast : (s.newNode pid).lastNode (s.allocated + 1) s.bgChildLL = some y := by
      rw [List.length_append, List.length_singleton] at hlen
      exact lastNode_eq hchain (by omega)
    rw [if_neg hhead, hlast]
    refine ⟨_, rfl, ⟨?_, ?_, hnodup, halloc⟩, rfl⟩
    · exact hchain.append (Nat.succ_ne_zero _) (Function.update_self _ _ _) hyfront (hne y hy).symm
    · exact hback.append hfresh

/-! Sequences of calls -/

/-- The list is right. -/
def Good (s : BackgroundChildren) (pids : List UInt64) : Prop :=
  ∃ nodes, Linked s 0 nodes ∧ nodes.map (fun x => asPid (s.pid x)) = pids

/-- The head is its own back link. -/
def Broken (s : BackgroundChildren) : Prop := ∃ x rest, Linked s x (x :: rest)

theorem Good.lists {pids : List UInt64} (h : s.Good pids) : s.Lists pids := by
  obtain ⟨nodes, hlinked, hpids⟩ := h
  exact ⟨nodes, hlinked.chain, hlinked.nodup, hlinked.back, hpids⟩

theorem Broken.not_lists {pids : List UInt64} (h : s.Broken) : ¬ s.Lists pids := by
  rintro ⟨nodes, hchain, -, hback, -⟩
  obtain ⟨x, rest, hlinked⟩ := h
  rw [← hlinked.chain.unique hchain] at hback
  exact hlinked.chain.2.1 (hlinked.back.1.symm.trans hback.1)

theorem Broken.remove (h : s.Broken) :
    ∃ s', s.removeBackgroundChildProcess pid = some s' ∧ s'.Broken := by
  obtain ⟨x, rest, hlinked⟩ := h
  obtain ⟨s', hs', hlinked', -⟩ := remove_head hlinked (removeNode_self hlinked)
  exact ⟨s', hs', x, _, hlinked'⟩

theorem Broken.add (h : s.Broken) :
    ∃ s', s.addNewBackgroundChildProcess pid = some s' ∧ s'.Broken := by
  obtain ⟨x, rest, hlinked⟩ := h
  obtain ⟨s', hs', hlinked', -⟩ := add_linked hlinked (fun hnil => absurd hnil (List.cons_ne_nil _ _))
  exact ⟨s', hs', x, _, hlinked'⟩

/-- The pids of the nodes that a removal leaves. -/
theorem map_kept : (kept s pid nodes).map (fun x => asPid (s.pid x)) =
    (nodes.map fun x => asPid (s.pid x)).filter fun other => decide (other ≠ pid) := by
  unfold kept
  rw [List.filter_map]
  rfl

/-- Removal from a right list: it stays right unless the head goes and another node is left. -/
theorem Good.remove {pids : List UInt64} (h : s.Good pids) :
    ∃ s', s.removeBackgroundChildProcess pid = some s' ∧
      ((pids.head? = some pid → pids.length = 1) →
        s'.Good (pids.filter fun other => decide (other ≠ pid))) ∧
      (¬ (pids.head? = some pid → pids.length = 1) → s'.Broken) := by
  obtain ⟨nodes, hlinked, rfl⟩ := h
  rw [← map_kept]
  cases nodes with
  | nil =>
    have hhead : s.bgChildLL = 0 := hlinked.chain
    refine ⟨s, ?_, fun _ => ⟨[], hlinked, rfl⟩, fun hnot => absurd (fun hnone => ?_) hnot⟩
    · unfold removeBackgroundChildProcess
      rw [removeLoop, if_pos hhead]
    · cases hnone
  | cons x rest =>
    by_cases heq : asPid (s.pid x) = pid
    · rw [kept_cons_of_eq heq]
      cases rest with
      | nil =>
        obtain ⟨s', hs', hlinked', hpid⟩ := remove_only hlinked heq
        refine ⟨s', hs', fun _ => ⟨[], hlinked', ?_⟩, fun hnot => absurd (fun _ => rfl) hnot⟩
        rw [hpid]
        rfl
      | cons y rest =>
        obtain ⟨s', hs', hlinked', -⟩ := remove_first hlinked heq
        refine ⟨s', hs', fun hfits => ?_, fun _ => ⟨y, _, hlinked'⟩⟩
        have hlen := hfits (congrArg some heq)
        simp at hlen
    · rw [kept_cons_of_ne heq]
      obtain ⟨s', hs', hlinked', hpid⟩ := remove_head hlinked (removeNode_of_ne heq)
      refine ⟨s', hs', fun _ => ⟨_, hlinked', by rw [hpid]⟩, fun hnot => absurd (fun hhead => ?_) hnot⟩
      exact absurd (Option.some.inj hhead) heq

theorem Good.add {pids : List UInt64} (h : s.Good pids) :
    ∃ s', s.addNewBackgroundChildProcess pid = some s' ∧
      s'.Good (pids ++ [asPid pid.toInt64.toInt32]) := by
  obtain ⟨nodes, hlinked, rfl⟩ := h
  obtain ⟨s', hs', hlinked', hpid⟩ := add_linked hlinked (fun _ => rfl)
  refine ⟨s', hs', _, hlinked', ?_⟩
  rw [List.map_append, hpid, List.map_singleton, Function.update_self]
  congr 1
  apply List.map_congr_left
  intro x hx
  have hle := hlinked.allocated x hx
  rw [Function.update_of_ne (by omega)]

theorem init_good : init.Good [] :=
  ⟨[], ⟨rfl, trivial, List.nodup_nil, fun _ hx => absurd hx List.not_mem_nil⟩, rfl⟩

/-- A call leaves a list that is right, or one that is broken. -/
theorem step_cases (call : ChildCall) (h : (∃ pids, s.Good pids) ∨ s.Broken) :
    ∃ s', s.step call = some s' ∧ ((∃ pids, s'.Good pids) ∨ s'.Broken) := by
  rcases h with ⟨pids, h⟩ | h
  · cases call with
    | add pid =>
      obtain ⟨s', hs', hgood⟩ := h.add
      exact ⟨s', hs', Or.inl ⟨_, hgood⟩⟩
    | remove pid =>
      obtain ⟨s', hs', hgood, hbroken⟩ := h.remove
      by_cases hfits : pids.head? = some pid → pids.length = 1
      · exact ⟨s', hs', Or.inl ⟨_, hgood hfits⟩⟩
      · exact ⟨s', hs', Or.inr (hbroken hfits)⟩
  · cases call with
    | add pid =>
      obtain ⟨s', hs', hbroken⟩ := h.add
      exact ⟨s', hs', Or.inr hbroken⟩
    | remove pid =>
      obtain ⟨s', hs', hbroken⟩ := h.remove
      exact ⟨s', hs', Or.inr hbroken⟩

end BackgroundChildren

open BackgroundChildren

variable {calls : List ChildCall} {call : ChildCall}

theorem childRun_concat : childRun (calls ++ [call]) = (childRun calls).bind (·.step call) := by
  unfold childRun
  rw [List.foldlM_append]
  exact congrArg _ (funext fun s => bind_pure _)

theorem pids_concat : ChildCall.pids (calls ++ [call]) = call.pidsAfter (ChildCall.pids calls) := by
  unfold ChildCall.pids
  rw [List.foldl_append]
  rfl

theorem callsFit_concat : CallsFit (calls ++ [call]) ↔
    CallsFit calls ∧ call.Fits (ChildCall.pids calls) := by
  unfold CallsFit
  simp only [List.prefix_concat_iff]
  constructor
  · intro h
    exact ⟨fun before other hpre => h before other (Or.inr hpre), h calls call (Or.inl rfl)⟩
  · rintro ⟨hbefore, hlast⟩ before other (heq | hpre)
    · obtain ⟨rfl, hother⟩ := List.append_inj' heq rfl
      obtain rfl := List.singleton_inj.mp hother
      exact hlast
    · exact hbefore before other hpre

/-- The loops of every call end. -/
theorem childRun_ends (calls : List ChildCall) :
    ∃ s, childRun calls = some s ∧ ((∃ pids, s.Good pids) ∨ s.Broken) := by
  induction calls using List.reverseRecOn with
  | nil => exact ⟨init, rfl, Or.inl ⟨[], init_good⟩⟩
  | append_singleton calls call ih =>
    obtain ⟨s, hs, hcases⟩ := ih
    obtain ⟨s', hs', hcases'⟩ := step_cases call hcases
    refine ⟨s', ?_, hcases'⟩
    rw [childRun_concat, hs]
    exact hs'

/-- Which pids a field `int` keeps. -/
theorem asPid_eq_iff {pid : UInt64} : asPid pid.toInt64.toInt32 = pid ↔
    pid.toNat < 2 ^ 31 ∨ 2 ^ 64 - 2 ^ 31 ≤ pid.toNat := by
  have hint : pid.toInt64.toInt32.toInt64.toInt = pid.toInt64.toInt.bmod (2 ^ 32) := by
    rw [Int32.toInt_toInt64, Int64.toInt_toInt32]
  have hlong : pid.toInt64.toInt = Int.bmod pid.toNat (2 ^ 64) :=
    BitVec.toInt_eq_toNat_bmod pid.toBitVec
  have hiff : asPid pid.toInt64.toInt32 = pid ↔
      pid.toInt64.toInt32.toInt64.toInt = pid.toInt64.toInt := by
    constructor
    · intro h
      exact congrArg (fun other : UInt64 => other.toInt64.toInt) h
    · intro h
      exact congrArg Int64.toUInt64 (Int64.toInt_inj.mp h)
  have hlt := pid.toNat_lt
  rw [hiff, hint, hlong]
  simp only [Int.bmod_def]
  omega

/-- A call that fits leaves a right list, and one that does not leaves a wrong one. -/
theorem BackgroundChildren.Good.step {s : BackgroundChildren} {pids : List UInt64}
    (h : s.Good pids) (call : ChildCall) : ∃ s', s.step call = some s' ∧
      (call.Fits pids → s'.Good (call.pidsAfter pids)) ∧
      (¬ call.Fits pids → ¬ s'.Lists (call.pidsAfter pids)) := by
  cases call with
  | add pid =>
    obtain ⟨s', hs', hgood⟩ := h.add
    refine ⟨s', hs', fun hfits => ?_, fun hnot hlists => hnot ?_⟩
    · rw [asPid_eq_iff.mpr hfits] at hgood
      exact hgood
    · obtain ⟨nodes, hchain, -, -, hpids⟩ := hlists
      obtain ⟨nodes', hchain', -, -, hpids'⟩ := hgood.lists
      rw [hchain.unique hchain', hpids'] at hpids
      exact asPid_eq_iff.mp (List.singleton_inj.mp (List.append_cancel_left hpids))
  | remove pid =>
    obtain ⟨s', hs', hgood, hbroken⟩ := h.remove
    exact ⟨s', hs', hgood, fun hnot => (hbroken hnot).not_lists⟩

theorem good_of_callsFit (h : CallsFit calls) :
    ∃ s, childRun calls = some s ∧ s.Good (ChildCall.pids calls) := by
  induction calls using List.reverseRecOn with
  | nil => exact ⟨init, rfl, init_good⟩
  | append_singleton calls call ih =>
    obtain ⟨hbefore, hfits⟩ := callsFit_concat.mp h
    obtain ⟨s, hs, hgood⟩ := ih hbefore
    obtain ⟨s', hs', hgood', -⟩ := hgood.step call
    refine ⟨s', ?_, ?_⟩
    · rw [childRun_concat, hs]
      exact hs'
    · rw [pids_concat]
      exact hgood' hfits

/-- The loops of every call end, for any calls. Up to each of them the list is doubly linked and
holds the pids that were added and not removed if every pid that was added is an `int` and none was
removed from the front of a longer list. -/
theorem backgroundChildren_lists_iff (calls : List ChildCall) :
    (∃ s, childRun calls = some s) ∧
      ((∀ before, before <+: calls →
          ∃ s, childRun before = some s ∧ s.Lists (ChildCall.pids before)) ↔ CallsFit calls) := by
  obtain ⟨s, hs, -⟩ := childRun_ends calls
  refine ⟨⟨s, hs⟩, fun h => ?_, fun h before hpre => ?_⟩
  · clear s hs
    induction calls using List.reverseRecOn with
    | nil =>
      intro before call hpre
      exact absurd (List.prefix_nil.mp hpre) (by simp)
    | append_singleton calls call ih =>
      have hbefore := ih fun before hpre => h before (hpre.trans (List.prefix_append _ _))
      refine callsFit_concat.mpr ⟨hbefore, ?_⟩
      by_contra hnot
      obtain ⟨s, hs, hgood⟩ := good_of_callsFit hbefore
      obtain ⟨s', hs', -, hwrong⟩ := hgood.step call
      obtain ⟨t, ht, hlists⟩ := h _ List.prefix_rfl
      rw [childRun_concat, hs, Option.bind_some, hs'] at ht
      rw [pids_concat, ← Option.some.inj ht] at hlists
      exact hwrong hnot hlists
  · obtain ⟨s, hs, hgood⟩ :=
      good_of_callsFit fun other call hother => h other call (hother.trans hpre)
    exact ⟨s, hs, hgood.lists⟩

/-- The children 5 and 6 are added and 5 is removed: the node of 6 is its own back link. -/
theorem backgroundChildren_head :
    ∃ s, childRun [.add 5, .add 6, .remove 5] = some s ∧ s.bgChildLL = 2 ∧ s.prev 2 = 2 ∧
      ¬ s.Lists (ChildCall.pids [.add 5, .add 6, .remove 5]) := by
  obtain ⟨s, hs, hhead, hprev⟩ : ∃ s, childRun [.add 5, .add 6, .remove 5] = some s ∧
      s.bgChildLL = 2 ∧ s.prev 2 = 2 := ⟨_, rfl, rfl, rfl⟩
  refine ⟨s, hs, hhead, hprev, ?_⟩
  rintro ⟨nodes, hchain, -, hback, -⟩
  rw [hhead] at hchain
  cases nodes with
  | nil => exact absurd (show 2 = 0 from hchain) (by decide)
  | cons x nodes =>
    obtain ⟨rfl, -⟩ := hchain
    exact absurd (hprev.symm.trans hback.1) (by decide)

end Sbunix
