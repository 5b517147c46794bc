import Sbunix.Misc.CharBuffer
import Sbunix.Sys.PathSearch

/-!
# The file search of `exec`

When `syscall_exec` tries the names that a search over the directories should try.
-/

namespace Sbunix

variable {scan : List UInt8 → Bool} {file dir p str : List UInt8} {paths : List (List UInt8)}
variable {currentDir : List UInt8} {absPath : Nat → UInt8} {s t : PathSearch}

theorem writeString_eq_putChars {ctr : Nat} :
    writeString str ctr absPath = putChars 200 str ctr absPath := by
  induction str generalizing ctr absPath with
  | nil => rfl
  | cons c str ih => rw [writeString, putChars, ih]

theorem writeString_eq {ctr : Nat} (h : ctr + str.length ≤ 200) :
    writeString str ctr absPath = some (withChars absPath ctr str) := by
  rw [writeString_eq_putChars, putChars_eq h]

theorem writeString_none {ctr : Nat} (h : 200 < ctr + str.length) (hne : str ≠ []) :
    writeString str ctr absPath = none := by
  rw [writeString_eq_putChars, putChars_none h hne]

theorem withChars_zero : withChars absPath 0 (str ++ [0]) = withString absPath str := by
  funext k
  unfold withChars withString
  simp only [List.length_append, List.length_cons, List.length_nil, Nat.zero_add, Nat.sub_zero,
    Nat.zero_le, true_and, Nat.lt_succ_iff]

/-- `concat_path` puts the name together if it fits. -/
theorem concatPath_eq :
    concatPath dir file absPath =
      if (joined dir file (absPath dir.length)).length < 200 then
        some (withString absPath (joined dir file (absPath dir.length)))
      else none := by
  unfold concatPath
  by_cases hdir : dir.length < 200
  · have hbyte : withChars absPath 0 dir dir.length = absPath dir.length := by
      unfold withChars
      rw [if_neg (by omega)]
    simp only [Option.bind_eq_bind]
    rw [writeString_eq (by omega), Option.bind_some, if_pos hdir, hbyte]
    by_cases hs : absPath dir.length = 47
    · rw [if_neg (by simp [hs])]
      unfold joined
      simp only [hs, if_true, List.append_nil, List.length_append]
      by_cases hfit : dir.length + file.length < 200
      · rw [if_pos hfit, writeString_eq (by simp; omega), withChars_append, ← List.append_assoc,
          withChars_zero]
      · rw [if_neg hfit, writeString_none (by simp; omega) (by simp)]
    · rw [if_pos hs]
      have hupdate : Function.update (withChars absPath 0 dir) dir.length 47 =
          withChars absPath 0 (dir ++ [47]) := by
        rw [← withChars_append, ← withChars_cons]
        funext k
        unfold withChars
        rw [if_neg (by simp)]
      unfold joined
      simp only [hs, if_false, List.length_append, List.length_cons, List.length_nil]
      by_cases hfit : dir.length + (0 + 1) + file.length < 200
      · rw [if_pos hfit, writeString_eq (by simp; omega), hupdate,
          show dir.length + 1 = (dir ++ [47]).length by simp, withChars_append, ← List.append_assoc,
          withChars_zero]
      · rw [if_neg hfit, writeString_none (by simp; omega) (by simp)]
  · have hlong : ¬ (joined dir file (absPath dir.length)).length < 200 := by
      unfold joined
      simp only [List.length_append]
      omega
    rw [if_neg hlong]
    by_cases h200 : dir.length = 200
    · simp only [Option.bind_eq_bind]
      rw [writeString_eq (by omega), Option.bind_some, if_neg hdir]
    · have hne : dir ≠ [] := by
        intro h
        rw [h] at hdir
        exact hdir (by simp)
      simp only [Option.bind_eq_bind]
      rw [writeString_none (by omega) hne, Option.bind_none]

theorem cString_eq (n : Nat) : ∀ {i : Nat} {str : List UInt8}, str.length < n → 0 ∉ str →
    (∀ k, k ≤ str.length → absPath (i + k) = (str ++ [0]).getD k 0) → cString absPath n i = str := by
  induction n with
  | zero =>
    intro i str h
    omega
  | succ n ih =>
    intro i str hlen h0 hat
    have hfirst := hat 0 (Nat.zero_le _)
    rw [Nat.add_zero] at hfirst
    cases str with
    | nil =>
      have hz : absPath i = 0 := hfirst
      rw [cString, if_pos hz]
    | cons c str =>
      simp only [List.length_cons] at hlen
      have hc : absPath i = c := hfirst
      have hne : c ≠ 0 := by
        intro h
        exact h0 (by simp [h])
      rw [cString, hc, if_neg hne]
      apply congrArg (List.cons c)
      apply ih (by omega)
      · intro h
        exact h0 (List.mem_cons_of_mem _ h)
      · intro k hk
        have hnext := hat (k + 1) (by simp only [List.length_cons]; omega)
        rw [show i + (k + 1) = i + 1 + k by omega] at hnext
        exact hnext

theorem cString_of_holds {n : Nat} (h : HoldsString n absPath str) : cString absPath n 0 = str := by
  refine cString_eq n h.fits h.noNul fun k hk => ?_
  rw [Nat.zero_add]
  rcases Nat.lt_or_eq_of_le hk with hlt | rfl
  · rw [h.chars k hlt, List.getD_append _ _ _ _ hlt]
  · rw [h.nul, List.getD_append_right _ _ _ _ (Nat.le_refl _), Nat.sub_self]
    rfl

theorem filePath_withString (hlen : str.length < 200) (h0 : 0 ∉ str) :
    filePath (withString absPath str) = stripSlash str := by
  have hat : ∀ k, k ≤ str.length → withString absPath str k = (str ++ [0]).getD k 0 := by
    intro k hk
    unfold withString
    rw [if_pos hk]
  unfold filePath stripSlash
  rw [hat 0 (Nat.zero_le _)]
  cases str with
  | nil => rfl
  | cons c str =>
    simp only [List.length_cons] at hlen
    have hc : ((c :: str) ++ [0]).getD 0 0 = c := rfl
    rw [hc]
    by_cases hs : c = 47
    · rw [if_pos hs, if_pos (by simp [hs])]
      apply cString_eq 200 (by simp; omega)
      · intro h
        exact h0 (List.mem_cons_of_mem _ h)
      · intro k hk
        rw [hat (1 + k) (by simp at hk; simp; omega), Nat.add_comm]
        rfl
    · rw [if_neg hs, if_neg (by simp [hs])]
      apply cString_eq 200 (by simp; omega) h0
      intro k hk
      rw [Nat.zero_add, hat k hk]

/-- What one turn does with a name that fits. -/
theorem tryDir_eq (hd : 0 ∉ dir) (hf : 0 ∉ file) :
    tryDir scan file dir s =
      if (joined dir file (s.absPath dir.length)).length < 200 then
        some ⟨s.tried ++ [stripSlash (joined dir file (s.absPath dir.length))],
          withString s.absPath (joined dir file (s.absPath dir.length)),
          if scan (stripSlash (joined dir file (s.absPath dir.length))) then
            some (stripSlash (joined dir file (s.absPath dir.length))) else none⟩
      else none := by
  unfold tryDir
  rw [concatPath_eq]
  by_cases hlen : (joined dir file (s.absPath dir.length)).length < 200
  · have h0 : 0 ∉ joined dir file (s.absPath dir.length) := by
      unfold joined
      split <;> simp [hd, hf]
    rw [if_pos hlen, if_pos hlen, Option.map_some, filePath_withString hlen h0]
  · rw [if_neg hlen, if_neg hlen, Option.map_none]

/-- The names tried are only added to. -/
theorem tryDirs_extends {dirs : List (List UInt8)} (h : tryDirs scan file dirs s = some t) :
    s.tried <+: t.tried := by
  induction dirs generalizing s with
  | nil =>
    cases h
    exact List.prefix_rfl
  | cons dir dirs ih =>
    rw [tryDirs] at h
    simp only [Option.bind_eq_bind, Option.bind_eq_some_iff] at h
    cases h with
    | intro u hu =>
      have hstep : s.tried <+: u.tried := by
        have htry := hu.1
        unfold tryDir at htry
        rw [Option.map_eq_some_iff] at htry
        cases htry with
        | intro b hb =>
          rw [← hb.2]
          exact List.prefix_append _ _
      have hrest := hu.2
      by_cases hfound : u.found.isSome = true
      · rw [if_pos hfound] at hrest
        cases hrest
        exact hstep
      · rw [if_neg hfound] at hrest
        exact hstep.trans (ih hrest)

theorem searchPaths_extends (h : searchPaths scan file paths s = some t) : s.tried <+: t.tried := by
  induction paths generalizing s with
  | nil => cases h
  | cons p paths ih =>
    rw [searchPaths] at h
    simp only [Option.bind_eq_bind, Option.bind_eq_some_iff] at h
    obtain ⟨dirs, _, u, hu, hrest⟩ := h
    by_cases hfound : u.found.isSome = true
    · rw [if_pos hfound] at hrest
      cases hrest
      exact tryDirs_extends hu
    · rw [if_neg hfound] at hrest
      exact (tryDirs_extends hu).trans (ih hrest)

theorem searchPaths_found (h : searchPaths scan file paths s = some t) : t.found.isSome = true := by
  induction paths generalizing s with
  | nil => cases h
  | cons p paths ih =>
    rw [searchPaths] at h
    simp only [Option.bind_eq_bind, Option.bind_eq_some_iff] at h
    obtain ⟨dirs, _, u, _, hrest⟩ := h
    by_cases hfound : u.found.isSome = true
    · rw [if_pos hfound] at hrest
      cases hrest
      exact hfound
    · rw [if_neg hfound] at hrest
      exact ih hrest

/-- A path string with a first name that fits is tried under that name first. -/
theorem searchPaths_first (hp : 0 ∉ p) (hf : 0 ∉ file)
    (h : searchPaths scan file (p :: paths) s = some t) :
    s.tried ++ [stripSlash (joined p file (s.absPath p.length))] <+: t.tried := by
  rw [searchPaths] at h
  simp only [Option.bind_eq_bind, Option.bind_eq_some_iff] at h
  obtain ⟨dirs, hdirs, u, hu, hrest⟩ := h
  have hu' : s.tried ++ [stripSlash (joined p file (s.absPath p.length))] <+: u.tried := by
    unfold splitPath at hdirs
    by_cases hcount : (splitFrom p).length + 1 < 200
    · rw [if_pos hcount] at hdirs
      cases hdirs
      rw [tryDirs, tryDir_eq hp hf] at hu
      by_cases hlen : (joined p file (s.absPath p.length)).length < 200
      · rw [if_pos hlen] at hu
        simp only [Option.bind_eq_bind, Option.bind_some] at hu
        by_cases hfound : scan (stripSlash (joined p file (s.absPath p.length))) = true
        · rw [if_pos hfound] at hu
          cases hu
          exact List.prefix_rfl
        · rw [if_neg hfound] at hu
          exact tryDirs_extends hu
      · rw [if_neg hlen] at hu
        cases hu
    · rw [if_neg hcount] at hdirs
      cases hdirs
  by_cases hfound : u.found.isSome = true
  · rw [if_pos hfound] at hrest
    cases hrest
    exact hu'
  · rw [if_neg hfound] at hrest
    exact hu'.trans (searchPaths_extends hrest)

theorem stripSlash_cons_inj {c : UInt8} {a b : List UInt8}
    (h : stripSlash (c :: a) = stripSlash (c :: b)) : a = b := by
  unfold stripSlash at h
  by_cases hc : c = 47
  · simpa [hc] using h
  · simpa [hc] using h

/-- A name with a whole path string in front is not that of its first directory. -/
theorem joined_colon_ne {d rest : List UInt8} {slash : UInt8} :
    stripSlash (joined (d ++ 58 :: rest) file slash) ≠ nameInDir file d := by
  intro h
  unfold nameInDir joined at h
  cases d with
  | nil =>
    have hlen := congrArg List.length h
    simp [stripSlash] at hlen
    omega
  | cons c d =>
    simp only [List.cons_append, List.append_assoc] at h
    have htail := List.append_cancel_left (stripSlash_cons_inj h)
    by_cases hlast : (c :: d).getLast? = some 47
    · rw [if_pos hlast] at htail
      have hlen := congrArg List.length htail
      simp at hlen
      omega
    · rw [if_neg hlast] at htail
      simp at htail

/-- A single directory gets the right name exactly if the byte behind it stood there rightly. -/
theorem joined_name_iff {slash : UInt8} (hf : 47 ∉ file) :
    stripSlash (joined p file slash) = nameInDir file p ↔
      p = [] ∨ (slash = 47 ↔ p.getLast? = some 47) := by
  unfold nameInDir joined
  cases p with
  | nil =>
    have hhead : file.head? ≠ some 47 := by
      intro h
      exact hf (List.mem_of_mem_head? h)
    by_cases hs : slash = 47
    · simp [hs, stripSlash, hhead]
    · simp [hs, stripSlash]
  | cons c p =>
    constructor
    · intro h
      apply Or.inr
      simp only [List.cons_append, List.append_assoc] at h
      have htail := List.append_cancel_left (stripSlash_cons_inj h)
      by_cases hs : slash = 47
      · by_cases hlast : (c :: p).getLast? = some 47
        · exact ⟨fun _ => hlast, fun _ => hs⟩
        · rw [if_pos hs, if_neg hlast] at htail
          have hlen := congrArg List.length htail
          simp at hlen
      · by_cases hlast : (c :: p).getLast? = some 47
        · rw [if_neg hs, if_pos hlast] at htail
          have hlen := congrArg List.length htail
          simp at hlen
        · exact ⟨fun h => absurd h hs, fun h => absurd h hlast⟩
    · intro h
      cases h with
      | inl h => cases h
      | inr h =>
        by_cases hs : slash = 47
        · rw [if_pos hs, if_pos (h.1 hs)]
        · rw [if_neg hs, if_neg fun hl => hs (h.2 hl)]

theorem splitFrom_single (h : 58 ∉ p) : splitFrom p = [] := by
  induction p with
  | nil => rfl
  | cons c p ih =>
    rw [splitFrom, if_neg]
    · exact ih fun hp => h (List.mem_cons_of_mem _ hp)
    · intro hc
      exact h (by simp [hc])

theorem searchNames_single (h : 58 ∉ p) :
    searchNames file (p :: paths) currentDir =
      nameInDir file p :: searchNames file paths currentDir := by
  unfold searchNames
  rw [List.flatMap_cons, List.splitOn_eq_singleton h]
  rfl

/-- The loop tries the names that it should, behind those in `s`. -/
def TriesRight (scan : List UInt8 → Bool) (file : List UInt8) (paths : List (List UInt8))
    (currentDir : List UInt8) (s : PathSearch) : Prop :=
  ∃ t, searchPaths scan file paths s = some t ∧
    t.tried = s.tried ++ upToFirst scan (searchNames file paths currentDir) ∧
    t.found = (searchNames file paths currentDir).find? scan

/-- The first name tried decides. -/
theorem TriesRight.first {n : List UInt8} {ns : List (List UInt8)}
    (h : TriesRight scan file (p :: paths) currentDir s) (hp : 0 ∉ p) (hf : 0 ∉ file)
    (hn : searchNames file (p :: paths) currentDir = n :: ns) :
    stripSlash (joined p file (s.absPath p.length)) = n := by
  obtain ⟨t, ht, htried, -⟩ := h
  have hpre := searchPaths_first hp hf ht
  rw [htried, List.prefix_append_right_inj, hn, upToFirst] at hpre
  by_cases hscan : scan n = true
  · rw [if_pos hscan] at hpre
    exact (List.cons_prefix_cons.1 hpre).1
  · rw [if_neg hscan] at hpre
    exact (List.cons_prefix_cons.1 hpre).1

/-- Of several directories in one string the first gets a wrong name. -/
theorem TriesRight.single (h : TriesRight scan file (p :: paths) currentDir s) (hp : 0 ∉ p)
    (hf : 0 ∉ file) : 58 ∉ p := by
  intro hcolon
  obtain ⟨d, rest, hsplit, hd⟩ := List.eq_append_cons_of_mem hcolon
  have hn : searchNames file (p :: paths) currentDir = nameInDir file d ::
      ((rest.splitOn 58 ++ paths.flatMap fun p => p.splitOn 58) ++ [currentDir]).map
        (nameInDir file) := by
    unfold searchNames
    rw [List.flatMap_cons, hsplit, List.splitOn_append_cons_self_of_not_mem hd]
    rfl
  have he := h.first hp hf hn
  rw [hsplit] at he
  exact absurd he joined_colon_ne

section

variable (hcolon : 58 ∉ p) (hp : 0 ∉ p) (hf : 0 ∉ file)
  (hname : stripSlash (joined p file (s.absPath p.length)) = nameInDir file p)

include hcolon hp hf hname

/-- One string that is a single directory with the right name. -/
theorem searchPaths_single : searchPaths scan file (p :: paths) s =
    if (joined p file (s.absPath p.length)).length < 200 then
      if scan (nameInDir file p) then
        some ⟨s.tried ++ [nameInDir file p],
          withString s.absPath (joined p file (s.absPath p.length)), some (nameInDir file p)⟩
      else searchPaths scan file paths ⟨s.tried ++ [nameInDir file p],
        withString s.absPath (joined p file (s.absPath p.length)), none⟩
    else none := by
  have hsplit : splitPath p = some [p] := by
    unfold splitPath
    rw [splitFrom_single hcolon]
    rfl
  rw [searchPaths, hsplit]
  simp only [Option.bind_eq_bind, Option.bind_some, tryDirs]
  rw [tryDir_eq hp hf, hname]
  by_cases hlen : (joined p file (s.absPath p.length)).length < 200
  · rw [if_pos hlen, if_pos hlen]
    by_cases hscan : scan (nameInDir file p) = true
    · simp [hscan]
    · simp [hscan]
  · rw [if_neg hlen, if_neg hlen]
    rfl

theorem triesRight_cons : TriesRight scan file (p :: paths) currentDir s ↔
    (joined p file (s.absPath p.length)).length < 200 ∧ (scan (nameInDir file p) = true ∨
      TriesRight scan file paths currentDir ⟨s.tried ++ [nameInDir file p],
        withString s.absPath (joined p file (s.absPath p.length)), none⟩) := by
  unfold TriesRight
  rw [searchPaths_single hcolon hp hf hname, searchNames_single hcolon]
  by_cases hlen : (joined p file (s.absPath p.length)).length < 200
  · rw [if_pos hlen]
    by_cases hscan : scan (nameInDir file p) = true
    · rw [if_pos hscan]
      exact iff_of_true ⟨_, rfl, by simp [upToFirst, hscan], by simp [hscan]⟩ ⟨hlen, .inl hscan⟩
    · rw [if_neg hscan, List.find?_cons_of_neg hscan, upToFirst, if_neg hscan]
      simp only [List.append_assoc, List.cons_append, List.nil_append]
      exact ⟨fun h => ⟨hlen, .inr h⟩, fun h => h.2.resolve_left hscan⟩
  · rw [if_neg hlen]
    refine iff_of_false ?_ fun h => hlen h.1
    rintro ⟨t, ht, -⟩
    cases ht

end

/-- The loop tries the right names exactly if each path string up to the file is one directory
and `abs_path` suits it. -/
theorem triesRight_iff (hf : 0 ∉ file) (hs : 47 ∉ file) (hp : ∀ p ∈ paths, 0 ∉ p) :
    TriesRight scan file paths currentDir s ↔ PathsWork scan file paths s.absPath := by
  induction paths generalizing s with
  | nil =>
    refine iff_of_false ?_ id
    rintro ⟨t, ht, -⟩
    cases ht
  | cons p paths ih =>
    have hp0 : 0 ∉ p := hp p List.mem_cons_self
    have hrest : ∀ q ∈ paths, 0 ∉ q := fun q hq => hp q (List.mem_cons_of_mem _ hq)
    unfold PathsWork
    by_cases hcolon : 58 ∈ p
    · exact iff_of_false (fun h => h.single hp0 hf hcolon) fun h => h.1 hcolon
    by_cases hname : stripSlash (joined p file (s.absPath p.length)) = nameInDir file p
    · rw [triesRight_cons hcolon hp0 hf hname, ih hrest]
      exact ⟨fun h => ⟨hcolon, (joined_name_iff hs).1 hname, h.1, h.2⟩, fun h => h.2.2⟩
    · refine iff_of_false (fun h => hname ?_) fun h => hname ((joined_name_iff hs).2 h.2.1)
      exact h.first hp0 hf (searchNames_single hcolon)

/-- The search of `exec` does what it should exactly if a file is found among the path strings
and every path string up to it is a single directory that `abs_path` happens to suit. -/
theorem searchFile_inOrder (hf : 0 ∉ file) (hs : 47 ∉ file) (hp : ∀ p ∈ paths, 0 ∉ p) :
    SearchesInOrder scan file paths currentDir absPath ↔ PathsWork scan file paths absPath := by
  rw [← @triesRight_iff scan file paths currentDir ⟨[], absPath, none⟩ hf hs hp]
  have hrun : searchFile scan file paths currentDir absPath =
      searchPaths scan file paths ⟨[], absPath, none⟩ := by
    have habs : checkAbsPath file = false := by
      unfold checkAbsPath
      simpa using hs
    unfold searchFile
    rw [habs]
    cases hcase : searchPaths scan file paths ⟨[], absPath, none⟩ with
    | none => rfl
    | some t =>
      have hfound := searchPaths_found hcase
      simp only [Option.bind_eq_bind, Option.bind_some]
      cases hval : t.found with
      | none =>
        rw [hval] at hfound
        cases hfound
      | some n => simp
  unfold SearchesInOrder TriesRight
  rw [hrun]
  simp only [List.nil_append]

/-- One directory without files, and then one with the file `ls`. -/
theorem searchFile_inOrder_second :
    SearchesInOrder (fun n => n == [97, 47, 108, 115]) [108, 115] [[98], [97]] [47] (fun _ => 0) ↔
      PathsWork (fun n => n == [97, 47, 108, 115]) [108, 115] [[98], [97]] (fun _ => 0) :=
  searchFile_inOrder (by decide) (by decide) (by decide)

/-- The file `x/ls` exists and `/x` is the current directory; one path string, `b`. The search
does not end, though it should get to the current directory. -/
theorem searchFile_notFound :
    searchFile (fun n => n == [120, 47, 108, 115]) [108, 115] [[98]] [47, 120] (fun _ => 0) = none ∧
      ¬ SearchesInOrder (fun n => n == [120, 47, 108, 115]) [108, 115] [[98]] [47, 120]
        (fun _ => 0) := by
  have hrun : searchFile (fun n => n == [120, 47, 108, 115]) [108, 115] [[98]] [47, 120]
      (fun _ => 0) = none := by decide +kernel
  refine ⟨hrun, ?_⟩
  intro h
  cases h with
  | intro t h =>
    rw [hrun] at h
    cases h.1

end Sbunix
