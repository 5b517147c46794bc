import Sbunix.Sys.Proofs.InsertRuns

/-!
# Insertions into a full directory

`appendToFamily` refuses a tenth entry, but the loop of `InsertIntoRoot` goes on with the next
component from the same directory.
-/

namespace Sbunix

open InodeTree

variable {s : InodeTree} {k start stop : Nat} {type : InodeType} {ts : List (List UInt8)}
  {path : List UInt8}

namespace InodeTree

/-- A directory on the way of the path is full and lacks the component that comes next. -/
def MeetsFull (s : InodeTree) (path : List UInt8) : Prop :=
  ∃ pre t rest k, components 47 path = pre ++ t :: rest ∧ s.lookup 0 pre = some k ∧
    (s.inode k).family.length = maxFamily ∧ t ∉ s.childNames k

/-- The whole insertion fails. -/
def FailsCleanly (s : InodeTree) (path : List UInt8) : Prop :=
  s.MeetsFull path → ∀ start stop type, s.insertIntoRoot path start stop type = s

/-- The components from `k` on come to nothing: each one leads to an entry of the directory
reached so far, or that directory is full and the component is passed over. -/
def AddsNothing (s : InodeTree) : Nat → List (List UInt8) → Prop
  | _, [] => True
  | k, t :: ts =>
      match s.child k t with
      | some j => s.AddsNothing j ts
      | none => (s.inode k).family.length = maxFamily ∧ s.AddsNothing k ts

theorem insertTokens_eq_self (hs : s.Valid) (hk : k < s.count) :
    insertTokens start stop type s k ts = s ↔ s.AddsNothing k ts := by
  induction ts generalizing k with
  | nil => simp [insertTokens, AddsNothing]
  | cons t ts ih =>
    unfold insertTokens AddsNothing
    cases hc : s.child k t with
    | some j =>
      rw [insertToken_of_child hs hk hc]
      exact ih (hs.child_lt hk hc)
    | none =>
      by_cases hroom : (s.inode k).family.length < maxFamily
      · -- the new leaf stays, whatever follows
        have hext : (s.append start stop type t k).Extends
            (insertTokens start stop type (s.append start stop type t k) s.count ts) :=
          (insertTokens_extends (append_valid start stop type t hs hk hroom)
            (Nat.lt_succ_self s.count)).2
        have hgrown := hext.count
        rw [insertToken_new hs hk hc hroom]
        constructor
        · intro heq
          rw [heq] at hgrown
          exact absurd hgrown (Nat.not_succ_le_self s.count)
        · exact fun h => absurd h.1 (Nat.ne_of_lt hroom)
      · have hfull := Nat.le_antisymm (hs.bounded k hk) (Nat.not_lt.mp hroom)
        rw [insertToken_full hc (Nat.not_lt.mp hroom)]
        simp [hfull, ih hk]

end InodeTree

/-- A path that meets a full directory leaves the tree unchanged exactly if all its components
lead to existing entries or are passed over in full directories. -/
theorem insertIntoRoot_full (hs : s.Valid) :
    s.FailsCleanly path ↔ (s.MeetsFull path → s.AddsNothing 0 (components 47 path)) := by
  unfold FailsCleanly
  refine imp_congr_right fun _ => ?_
  constructor
  · intro h
    have hself := h 0 0 .file
    rw [insertIntoRoot_eq] at hself
    exact (insertTokens_eq_self hs hs.root).mp hself
  · intro h start stop type
    rw [insertIntoRoot_eq]
    exact (insertTokens_eq_self hs hs.root).mpr h

/-- Nine directories `1` to `9` in the root. -/
def nineDirs : InodeTree :=
  [49, 50, 51, 52, 53, 54, 55, 56, 57].foldl
    (fun s c => s.insertIntoRoot [c, 47] 0 0 .dir) rootTree

theorem nineDirs_built : nineDirs.Built := by
  refine List.foldlRecOn _ _ rootTree_built fun s hs c _ => insertIntoRoot_built hs

theorem insertIntoRoot_full_nine :
    nineDirs.FailsCleanly [48, 47, 97] ↔
      (nineDirs.MeetsFull [48, 47, 97] → nineDirs.AddsNothing 0 (components 47 [48, 47, 97])) :=
  insertIntoRoot_full nineDirs_built.linked.valid

/-- The root is full and has no entry `0`, but inserting `0/1/x` creates `1/x`. -/
theorem insertIntoRoot_misplaced :
    nineDirs.Valid ∧ nineDirs.MeetsFull [48, 47, 49, 47, 120] ∧
      nineDirs.getInode [49, 47, 120] = none ∧
      (nineDirs.insertIntoRoot [48, 47, 49, 47, 120] 0 0 .file).getInode [49, 47, 120] = some 10 ∧
      ¬ nineDirs.FailsCleanly [48, 47, 49, 47, 120] := by
  have hmeets : nineDirs.MeetsFull [48, 47, 49, 47, 120] :=
    ⟨[], [48], [[49], [120]], 0, by decide, by decide, by decide +kernel, by decide +kernel⟩
  have hbefore : nineDirs.getInode [49, 47, 120] = none := by decide +kernel
  have hafter : (nineDirs.insertIntoRoot [48, 47, 49, 47, 120] 0 0 .file).getInode [49, 47, 120] =
      some 10 := by decide +kernel
  refine ⟨nineDirs_built.linked.valid, hmeets, hbefore, hafter, fun h => ?_⟩
  have hsame := congrArg (fun s => s.getInode [49, 47, 120]) (h hmeets 0 0 .file)
  have hnone : none = some 10 := hbefore.symm.trans (hsame.symm.trans hafter)
  cases hnone

end Sbunix
