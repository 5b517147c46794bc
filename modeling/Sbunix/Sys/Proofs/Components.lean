import Sbunix.Sys.Archive
import Mathlib.Data.List.TakeWhile

/-!
# The components of a path

`mystrtok` gives the non-empty pieces of a path between its slashes, one after the other.
-/

namespace Sbunix

variable {p cs tok : List UInt8} {c d : UInt8} {i pos pos' start stop : Nat}

@[simp] theorem components_nil : components d [] = [] := by
  simp [components]

@[simp] theorem components_delim : components d (d :: cs) = components d cs := by
  have h := List.splitOn_append_cons_self (a := d) [] cs
  rw [List.nil_append, List.splitOn_nil] at h
  simp [components, h]

theorem components_token (htok : tok ≠ []) (hd : d ∉ tok) : components d tok = [tok] := by
  simp [components, List.splitOn_eq_singleton hd, htok]

theorem components_token_append (htok : tok ≠ []) (hd : d ∉ tok) :
    components d (tok ++ d :: cs) = tok :: components d cs := by
  simp [components, List.splitOn_append_cons_self_of_not_mem hd, htok]

theorem components_append_delims {n : Nat} :
    components d (p ++ List.replicate n d) = components d p := by
  induction n with
  | zero => rw [List.replicate_zero, List.append_nil]
  | succ n ih =>
    have hsplit := List.splitOn_append_cons_self (a := d) (p ++ List.replicate n d) []
    rw [List.replicate_succ', ← List.append_assoc, ← ih]
    unfold components
    rw [hsplit, List.splitOn_nil, List.filter_append]
    simp

/-- The first piece ends where the next delimiter stands. -/
theorem components_cons (hc : c ≠ d) :
    components d (c :: cs) =
      (c :: cs.takeWhile (· ≠ d)) :: components d (cs.dropWhile (· ≠ d)) := by
  have hmem : d ∉ c :: cs.takeWhile (· ≠ d) := by
    intro h
    cases h with
    | head => exact hc rfl
    | tail _ h => simpa using List.mem_takeWhile_imp h
  cases hrest : cs.dropWhile (· ≠ d) with
  | nil =>
    rw [components_nil, List.takeWhile_eq_self_iff.mpr (List.dropWhile_eq_nil_iff.mp hrest)] at *
    exact components_token (List.cons_ne_nil _ _) hmem
  | cons a rest =>
    have ha : a = d := by
      have h := List.head_dropWhile_not (fun a => decide (a ≠ d)) (l := cs)
        (by rw [hrest]; exact List.cons_ne_nil _ _)
      simp only [hrest, List.head_cons] at h
      simpa using h
    rw [ha] at hrest ⊢
    rw [components_delim, ← components_token_append (List.cons_ne_nil _ _) hmem,
      List.cons_append, ← hrest, List.takeWhile_append_dropWhile]

theorem components_eq_nil : components d p = [] ↔ ∀ c ∈ p, c = d := by
  induction p with
  | nil => simp
  | cons c cs ih =>
    by_cases hc : c = d
    · rw [hc, components_delim, ih]
      simp
    · rw [components_cons hc]
      simp [hc]

theorem components_append {p' : List UInt8} :
    components d (p ++ d :: p') = components d p ++ components d p' := by
  unfold components
  rw [List.splitOn_append_cons_self, List.filter_append]

theorem ne_nil_of_mem_components (h : tok ∈ components d p) : tok ≠ [] := by
  simpa using (List.mem_filter.mp h).2

theorem mem_splitOn (h : tok ∈ p.splitOn d) : d ∉ tok ∧ ∀ c ∈ tok, c ∈ p := by
  induction p generalizing tok with
  | nil => simp_all
  | cons c cs ih =>
    rw [List.splitOn_cons_eq_if_modifyHead] at h
    split at h
    · cases h with
      | head => simp
      | tail _ h => exact ⟨(ih h).1, fun c hc => List.mem_cons_of_mem _ ((ih h).2 c hc)⟩
    · rename_i hc
      cases hsplit : cs.splitOn d with
      | nil => simp [hsplit] at h
      | cons first rest =>
        rw [hsplit, List.modifyHead_cons] at h
        cases h with
        | head =>
          have hf := ih (hsplit ▸ List.mem_cons_self)
          constructor
          · intro hmem
            cases hmem with
            | head => exact hc (by simp)
            | tail _ hmem => exact hf.1 hmem
          · intro a ha
            cases ha with
            | head => exact List.mem_cons_self
            | tail _ ha => exact List.mem_cons_of_mem _ (hf.2 a ha)
        | tail _ h =>
          have hr := ih (hsplit ▸ List.mem_cons_of_mem _ h)
          exact ⟨hr.1, fun c hc => List.mem_cons_of_mem _ (hr.2 c hc)⟩

theorem mem_components (h : tok ∈ components d p) : d ∉ tok ∧ ∀ c ∈ tok, c ∈ p :=
  mem_splitOn (List.mem_filter.mp h).1

theorem length_le_of_mem_components (h : tok ∈ components d p) : tok.length ≤ p.length := by
  induction hn : p.length using Nat.strong_induction_on generalizing p with
  | _ n ih =>
    cases p with
    | nil => simp at h
    | cons c cs =>
      rw [List.length_cons] at hn
      by_cases hc : c = d
      · rw [hc, components_delim] at h
        have := ih cs.length (by omega) h rfl
        omega
      · rw [components_cons hc] at h
        rcases List.mem_cons.mp h with rfl | h
        · have := (List.takeWhile_sublist (· ≠ d) (l := cs)).length_le
          rw [List.length_cons]
          omega
        · have hle := (List.dropWhile_sublist (· ≠ d) (l := cs)).length_le
          have := ih _ (by omega) h rfl
          omega

/-- A path with the given components. -/
def spell (d : UInt8) (names : List (List UInt8)) : List UInt8 :=
  names.flatMap fun name => d :: name

theorem components_spell {names : List (List UInt8)} (hne : ∀ n ∈ names, n ≠ [])
    (hd : ∀ n ∈ names, d ∉ n) : components d (spell d names) = names := by
  induction names with
  | nil => simp [spell]
  | cons name names ih =>
    have hrest := ih (fun n hn => hne n (List.mem_cons_of_mem _ hn))
      (fun n hn => hd n (List.mem_cons_of_mem _ hn))
    have hname := hne name List.mem_cons_self
    have hdname := hd name List.mem_cons_self
    have hspell : spell d (name :: names) = d :: (name ++ spell d names) := by simp [spell]
    rw [hspell, components_delim]
    cases names with
    | nil => simpa [spell] using components_token hname hdname
    | cons name' names =>
      have hspell' : spell d (name' :: names) = d :: (name' ++ spell d names) := by simp [spell]
      rw [hspell'] at hrest ⊢
      rw [components_token_append hname hdname, ← components_delim, hrest]

theorem mem_spell {names : List (List UInt8)} (h : c ∈ spell d names) :
    c = d ∨ ∃ n ∈ names, c ∈ n := by
  obtain ⟨n, hn, hc⟩ := List.mem_flatMap.mp h
  cases hc with
  | head => exact Or.inl rfl
  | tail _ hc => exact Or.inr ⟨n, hn, hc⟩

theorem mystrtokLoop_some :
    mystrtokLoop d cs i (some start) = (some start, i + (cs.takeWhile (· ≠ d)).length) := by
  induction cs generalizing i with
  | nil => rfl
  | cons c cs ih =>
    by_cases hc : c = d
    · simp [mystrtokLoop, hc]
    · simp [mystrtokLoop, hc, ih]
      omega

/-- What the loop of `mystrtok` finds in `cs`, whose first character has index `i`. -/
theorem mystrtokLoop_none (d : UInt8) (cs : List UInt8) (i : Nat) :
    (components d cs = [] ∧ ∃ stop, mystrtokLoop d cs i none = (none, stop)) ∨
      ∃ start stop, mystrtokLoop d cs i none = (some start, stop) ∧ i ≤ start ∧ start < stop ∧
        stop ≤ i + cs.length ∧
        components d cs = (cs.drop (start - i)).take (stop - start) ::
          components d (cs.drop (stop - i)) := by
  induction cs generalizing i with
  | nil => exact Or.inl ⟨components_nil, i, rfl⟩
  | cons c cs ih =>
    by_cases hc : c = d
    · rw [hc, components_delim]
      have hloop : mystrtokLoop d (d :: cs) i none = mystrtokLoop d cs (i + 1) none := by
        simp [mystrtokLoop]
      rw [hloop]
      rcases ih (i + 1) with h | ⟨start, stop, h, hs, hlt, hle, hcomp⟩
      · exact Or.inl h
      · refine Or.inr ⟨start, stop, h, by omega, hlt, by rw [List.length_cons]; omega, ?_⟩
        rw [show start - i = (start - (i + 1)) + 1 by omega,
          show stop - i = (stop - (i + 1)) + 1 by omega]
        exact hcomp
    · have hloop : mystrtokLoop d (c :: cs) i none =
          (some i, i + 1 + (cs.takeWhile (· ≠ d)).length) := by
        simp [mystrtokLoop, hc, mystrtokLoop_some]
      have hlen : (cs.takeWhile (· ≠ d)).length ≤ cs.length := (List.takeWhile_prefix _).length_le
      have hk : ∀ k, i + 1 + k - i = k + 1 := by omega
      refine Or.inr ⟨i, _, hloop, Nat.le_refl i, by omega, by rw [List.length_cons]; omega, ?_⟩
      rw [components_cons hc, Nat.sub_self, hk, List.drop_zero, List.take_succ_cons,
        List.drop_succ_cons, ← List.prefix_iff_eq_take.mp (List.takeWhile_prefix _)]
      congr 2
      conv_rhs => arg 2; rw [← List.takeWhile_append_dropWhile (p := (· ≠ d)) (l := cs)]
      rw [List.drop_left]

/-- One call of `mystrtok` takes the first component of what `*pos` has not passed. -/
theorem mystrtok_spec (p : List UInt8) (d : UInt8) (pos : Nat) :
    (mystrtok p d pos = none ∧ components d (p.drop pos) = []) ∨
      ∃ tok pos', mystrtok p d pos = some (tok, pos') ∧ pos < pos' ∧ pos' ≤ p.length ∧
        components d (p.drop pos) = tok :: components d (p.drop pos') := by
  rcases mystrtokLoop_none d (p.drop pos) pos with
    ⟨hc, stop, h⟩ | ⟨start, stop, h, hs, hlt, hle, hcomp⟩
  · exact Or.inl ⟨by simp [mystrtok, h], hc⟩
  · rw [List.drop_drop, List.drop_drop, show pos + (start - pos) = start by omega,
      show pos + (stop - pos) = stop by omega] at hcomp
    rw [List.length_drop] at hle
    exact Or.inr ⟨_, stop, by simp [mystrtok, h], by omega, by omega, hcomp⟩

end Sbunix
