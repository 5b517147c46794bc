import Sbunix.Sys.PageTree
import Sbunix.Sys.Proofs.TableGrowth

/-!
# Filling one empty entry

What becomes of the tables below one PML4 when the first empty entry on the way to an
address gets a frame that is not in use: `TreeInv` is kept, no other page is translated
differently, and the walk to the address gets one level further.
-/

namespace Sbunix

variable {mem mem' : Nat → Nat → Nat} {r v f g i n : Nat} {l : List Nat} {m m' m'' : Machine}

/-! ## Paths -/

theorem OutsidePath.mono {n' : Nat} (h : OutsidePath n l) (hn : l.length ≤ n') : OutsidePath n' l :=
  ⟨hn, h.2⟩

theorem OutsidePath.suffix {l' : List Nat} (h : OutsidePath n l) (hl : l' <:+ l) :
    OutsidePath n l' := by
  obtain ⟨p, rfl⟩ := hl
  obtain ⟨hlen, hlt, hlast⟩ := h
  rw [List.length_append] at hlen
  refine ⟨by omega, fun i hi => hlt i (List.mem_append_right p hi), ?_⟩
  cases l' with
  | nil => simp
  | cons i l' => simpa [List.getLast?_append] using hlast

theorem OutsidePath.tail (h : OutsidePath (n + 1) (i :: l)) : OutsidePath n l :=
  (h.suffix (List.suffix_cons i l)).mono (by simpa using h.1)

theorem OutsidePath.head_lt (h : OutsidePath n (i :: l)) : i < 512 := h.2.1 i List.mem_cons_self

theorem outsidePath_nil : OutsidePath n [] := ⟨Nat.zero_le n, by simp, by simp⟩

theorem outsidePath_way4 (h : p1Index v ≠ 510) : OutsidePath 4 (way4 v) := by
  obtain ⟨h1, h2, h3, h4⟩ := pIndex_lt v
  refine ⟨by simp [way4, way3, way2, way1], ?_, by simp [way4, way3, way2, way1, h]⟩
  simp only [way4, way3, way2, way1, List.mem_cons, List.not_mem_nil, or_false, forall_eq_or_imp,
    forall_eq]
  exact ⟨h4, h3, h2, h1⟩

theorem way4_add {o : Nat} (hv : v % 4096 = 0) (ho : o < 4096) : way4 (v + o) = way4 v := by
  obtain ⟨h1, h2, h3, h4⟩ := pIndex_add hv ho
  simp only [way4, way3, way2, way1, h1, h2, h3, h4]

theorem pageOf_of_way4 {q : Nat} (h : way4 q = way4 v) : pageOf q = pageOf v := by
  simp only [way4, way3, way2, way1, List.cons.injEq, and_true] at h
  obtain ⟨h4, h3, h2, h1⟩ := h
  rw [p1Index_eq, p1Index_eq] at h1
  rw [p2Index_eq, p2Index_eq] at h2
  rw [p3Index_eq, p3Index_eq] at h3
  rw [p4Index_eq, p4Index_eq] at h4
  unfold pageOf
  omega

theorem tableFrom_nil : tableFrom mem r [] = some r := rfl

theorem tableFrom_cons : tableFrom mem r (i :: l) =
    (tableFrom mem r l).bind fun f => child mem f i := rfl

theorem tableFrom_cons_of (h : tableFrom mem r l = some f) (hi : i < 512) (h0 : word mem f i ≠ 0) :
    tableFrom mem r (i :: l) = some (word mem f i / 4096) := by
  rw [tableFrom_cons, h, Option.bind_some, child, if_pos ⟨hi, h0⟩]

theorem exists_tableFrom_tail (h : tableFrom mem r (i :: l) = some g) :
    ∃ f, tableFrom mem r l = some f ∧ i < 512 ∧ word mem f i ≠ 0 ∧ word mem f i / 4096 = g := by
  rw [tableFrom_cons] at h
  obtain ⟨f, hf, hc⟩ := Option.bind_eq_some_iff.mp h
  exact ⟨f, hf, child_eq_some hc⟩

/-! ## Walks as lists of entries -/

/-- The entries of a walk from the table `f`, outermost index first. -/
def entries (mem : Nat → Nat → Nat) : Nat → List Nat → Option (List Nat)
  | _, [] => some []
  | f, i :: is =>
      if word mem f i % 2 = 0 then none
      else (entries mem (word mem f i / 4096) is).map (word mem f i :: ·)

/-- The walk with the entries of a list. -/
def Walk.ofList (es : List Nat) : Walk :=
  ⟨es.getD 0 0, es.getD 1 0, es.getD 2 0, es.getD 3 0⟩

theorem walk_eq_entries (mem : Nat → Nat → Nat) (c v : Nat) :
    walk mem c v = (entries mem (c / 4096) (way4 v).reverse).map Walk.ofList := by
  unfold walk
  simp only [way4, way3, way2, way1, List.reverse_cons, List.reverse_nil, List.nil_append,
    List.cons_append, entries]
  split_ifs <;> rfl

theorem entries_zero (h : ∀ j < 512, word mem f j = 0) {is : List Nat} (hne : is ≠ [])
    (hlt : ∀ i ∈ is, i < 512) : entries mem f is = none := by
  cases is with
  | nil => exact absurd rfl hne
  | cons i is =>
      unfold entries
      rw [if_pos (by rw [h i (hlt i List.mem_cons_self)])]

/-! ## The way to a table -/

/-- Present entries lead along the path to the table `f`. -/
def Way (mem : Nat → Nat → Nat) (r : Nat) : List Nat → Nat → Prop
  | [], f => f = r
  | i :: l, f => ∃ f', Way mem r l f' ∧ word mem f' i % 2 = 1 ∧ word mem f' i / 4096 = f

theorem Present.way (h : Present mem r) {l : List Nat} {f : Nat} (hl : OutsidePath 4 l)
    (hf : tableFrom mem r l = some f) : Way mem r l f := by
  induction l generalizing f with
  | nil => exact (Option.some.inj hf).symm
  | cons i l ih =>
      obtain ⟨f', hf', hi, h0, hd⟩ := exists_tableFrom_tail hf
      exact ⟨f', ih (hl.suffix (List.suffix_cons i l)) hf', h l f' i hl.tail hf' hi h0, hd⟩

theorem Way.walk {c : Nat} (h : Way mem (c / 4096) (way4 v) g) :
    ∃ w, walk mem c v = some w ∧ w.e4 / 4096 = g := by
  obtain ⟨f4, ⟨f3, ⟨f2, ⟨f1, rfl, o1, rfl⟩, o2, rfl⟩, o3, rfl⟩, o4, rfl⟩ := h
  exact ⟨_, walk_eq rfl rfl rfl rfl ⟨o1, o2, o3, o4⟩, rfl⟩

namespace Machine

variable {x : Nat}

theorem frameOf_way (h : Way m.mem (m.cr3 / 4096) (way4 v) g) : m.frameOf v = some g := by
  obtain ⟨w, hw, hg⟩ := h.walk
  rw [frameOf, hw, Option.map_some, hg]

section

variable (hs : SelfMap m.mem (m.cr3 / 4096)) (hx : x < 4096)

include hs hx

theorem frameOf_way1 (h : Way m.mem (m.cr3 / 4096) (way1 v) f) :
    m.frameOf (p2Table baseInit v + x) = some f := by
  obtain ⟨f1, rfl, o1, rfl⟩ := h
  exact frameOf_p2Table hs hx o1

theorem frameOf_way2 (h : Way m.mem (m.cr3 / 4096) (way2 v) f) :
    m.frameOf (p3Table baseInit v + x) = some f := by
  obtain ⟨f2, ⟨f1, rfl, o1, rfl⟩, o2, rfl⟩ := h
  exact frameOf_p3Table hs hx o1 o2

theorem frameOf_way3 (h : Way m.mem (m.cr3 / 4096) (way3 v) f) :
    m.frameOf (p4Table baseInit v + x) = some f := by
  obtain ⟨f3, ⟨f2, ⟨f1, rfl, o1, rfl⟩, o2, rfl⟩, o3, rfl⟩ := h
  exact frameOf_p4Table hs hx o1 o2 o3

end

end Machine

/-! ## One entry -/

/-- What `map_phyaddr(v)` needs of the tables. -/
structure TreeInv (mem : Nat → Nat → Nat) (r v : Nat) : Prop where
  self : SelfMap mem r
  present : Present mem r
  sole : SoleWay mem r v

section

variable (h510 : p1Index v ≠ 510) (hinv : TreeInv mem r v) (hl : i :: l <:+ way4 v)
  (hf : tableFrom mem r l = some f) (h0 : word mem f i = 0) (hg : ¬ InUse mem r g)
  (hnew : word mem' f i = g * 4096 + 7)
  (hother : ∀ f' j, f' ≠ g → ¬ (f' = f ∧ j = i) → word mem' f' j = word mem f' j)

include h510 hl in
theorem fill_outside : OutsidePath 4 (i :: l) := (outsidePath_way4 h510).suffix hl

include hinv hl hf h0 in
theorem fill_sole {l' : List Nat} (hl' : OutsidePath 3 l') (hf' : tableFrom mem r l' = some f) :
    l' = l :=
  hinv.sole i l f l' hl hf h0 hl' hf'

include hg in
theorem fill_ne {l' : List Nat} {f' : Nat} (hl' : OutsidePath 4 l')
    (hf' : tableFrom mem r l' = some f') : f' ≠ g := by
  rintro rfl
  exact hg ⟨l', hl', hf'⟩

include h510 hinv hl hf h0 hg hother

/-- The entries above the new one are kept. -/
theorem fill_way {l' : List Nat} {f' : Nat} (hl' : l' <:+ l) (hf' : tableFrom mem r l' = some f') :
    Way mem' r l' f' := by
  have hout := fill_outside h510 hl
  induction l' generalizing f' with
  | nil => exact (Option.some.inj hf').symm
  | cons j l' ih =>
      obtain ⟨f'', hf'', hj, hj0, hd⟩ := exists_tableFrom_tail hf'
      have hsuf : l' <:+ l := (List.suffix_cons j l').trans hl'
      have hlen : l'.length < l.length := hl'.length_le
      have hout' := hout.tail.suffix hsuf
      have hcell : ¬ (f'' = f ∧ j = i) := by
        rintro ⟨rfl, -⟩
        have hll := fill_sole hinv hl hf h0 hout' hf''
        rw [hll] at hlen
        exact Nat.lt_irrefl _ hlen
      have hw := hother f'' j (fill_ne hg (hout'.mono (by have := hout'.1; omega)) hf'') hcell
      exact ⟨f'', ih hsuf hf'', hw ▸ hinv.present l' f'' j hout' hf'' hj hj0, hw ▸ hd⟩

include hnew in
theorem fill_way_new : Way mem' r (i :: l) g := by
  refine ⟨f, fill_way h510 hinv hl hf h0 hg hother List.suffix_rfl hf, ?_, ?_⟩ <;> omega

omit h510 in
theorem fill_self : SelfMap mem' r := by
  have hne : r ≠ g := fill_ne hg (outsidePath_nil (n := 4)) tableFrom_nil
  have hcell : ¬ (r = f ∧ 510 = i) := by
    rintro ⟨rfl, rfl⟩
    have hself := hinv.self.1
    omega
  exact hinv.self.congr (hother r 510 hne hcell)

variable (hzero : (i :: l).length ≤ 3 → ∀ j < 512, word mem' g j = 0)

include hnew hzero

/-- The new frame is one table more, unless it is the page itself. -/
theorem fill_tables {l' : List Nat} (hl' : OutsidePath 3 l') :
    tableFrom mem' r l' = if l' = i :: l then some g else tableFrom mem r l' := by
  have hout := fill_outside h510 hl
  have hclosed : PathClosed (fun (_ : Unit) p => OutsidePath 3 p) :=
    fun _ j p h => h.suffix (List.suffix_cons j p)
  have hfree : ∀ p, OutsidePath 3 p → tableFrom mem r p ≠ some g := fun p hp hpg =>
    fill_ne hg (hp.mono (by have := hp.1; omega)) hpg rfl
  have hkeep : ∀ f' j, f' ≠ g → ¬ (f' = f ∧ j = i) → child mem' f' j = child mem f' j :=
    fun f' j hne hcell => child_congr (hother f' j hne hcell)
  by_cases hlen : (i :: l).length ≤ 3
  · have hlink : ∀ (t : Unit) p, OutsidePath 3 p → tree (child mem') (fun _ => some r) t p =
        if t = () ∧ p = i :: l then some g else tree (child mem) (fun _ => some r) t p :=
      tree_link (fun _ p hp hpf => ⟨rfl, fill_sole hinv hl hf h0 hp hpf⟩) hclosed (hout.mono hlen)
        hf (child_eq_none h0) (fun _ p hp => hfree p hp)
        (by rw [child, if_pos ⟨hout.head_lt, by omega⟩, hnew]; exact congrArg some (by omega))
        hkeep (fun _ p j hp => child_eq_none (hzero hlen j hp.head_lt))
    simpa [tableFrom] using hlink () l' hl'
  · have hne : l' ≠ i :: l := fun he => hlen (he ▸ hl'.1)
    rw [if_neg hne]
    refine tree_congr (s := ()) hclosed rfl (fun j p f' hp hpf => ?_) l' hl'
    have hvp := hclosed () j p hp
    refine hkeep f' j (fun he => hfree p hvp (he ▸ hpf)) ?_
    rintro ⟨rfl, -⟩
    have hpl := fill_sole hinv hl hf h0 hvp hpf
    rw [hpl] at hp
    have := hp.1
    simp only [List.length_cons] at this hlen
    omega

/-- A table after the step, and its entry, come from before, or are new. -/
theorem fill_word {l' : List Nat} {f' j : Nat} (hl' : OutsidePath 3 l')
    (hf' : tableFrom mem' r l' = some f') (hj : j < 512) (hne : word mem' f' j ≠ 0) :
    tableFrom mem r l' = some f' ∧
      (word mem' f' j = word mem f' j ∨ f' = f ∧ l' = l ∧ j = i) := by
  rw [fill_tables h510 hinv hl hf h0 hg hnew hother hzero hl'] at hf'
  split_ifs at hf' with he
  · obtain rfl : g = f' := Option.some.inj hf'
    exact absurd (hzero (he ▸ hl'.1) j hj) hne
  · refine ⟨hf', ?_⟩
    by_cases hcell : f' = f ∧ j = i
    · obtain ⟨rfl, rfl⟩ := hcell
      exact .inr ⟨rfl, fill_sole hinv hl hf h0 hl' hf', rfl⟩
    · exact .inl (hother f' j (fill_ne hg (hl'.mono (by have := hl'.1; omega)) hf') hcell)

theorem fill_present : Present mem' r := by
  intro l' f' j hl' hf' hj hne
  obtain ⟨hf₀, hw | ⟨rfl, -, rfl⟩⟩ := fill_word h510 hinv hl hf h0 hg hnew hother hzero hl' hf' hj hne
  · rw [hw] at hne ⊢
    exact hinv.present l' f' j hl' hf₀ hj hne
  · omega

theorem fill_soleWay : SoleWay mem' r v := by
  intro j l' f' l'' hsuf hf' h0' hl'' hf''
  have hl' : OutsidePath 3 l' := ((outsidePath_way4 h510).suffix hsuf).tail
  have hfree : ∀ p, OutsidePath 3 p → tableFrom mem r p ≠ some g := fun p hp hpg =>
    fill_ne hg (hp.mono (by have := hp.1; omega)) hpg rfl
  rw [fill_tables h510 hinv hl hf h0 hg hnew hother hzero hl'] at hf'
  rw [fill_tables h510 hinv hl hf h0 hg hnew hother hzero hl''] at hf''
  split_ifs at hf' with h₁
  · obtain rfl : g = f' := Option.some.inj hf'
    split_ifs at hf'' with h₂
    · exact h₂.trans h₁.symm
    · exact absurd hf'' (hfree l'' hl'')
  · split_ifs at hf'' with h₂
    · exact absurd ((Option.some.inj hf'').symm ▸ hf') (hfree l' hl')
    · have hne : f' ≠ g := fun he => hfree l' hl' (he ▸ hf')
      have hcell : ¬ (f' = f ∧ j = i) := by
        rintro ⟨rfl, rfl⟩
        omega
      rw [hother f' j hne hcell] at h0'
      exact hinv.sole j l' f' l'' hsuf hf' h0' hl'' hf''

theorem fill_inv : TreeInv mem' r v :=
  ⟨fill_self hinv hl hf h0 hg hother, fill_present h510 hinv hl hf h0 hg hnew hother hzero,
    fill_soleWay h510 hinv hl hf h0 hg hnew hother hzero⟩

theorem fill_inUse {f' : Nat} (h : InUse mem' r f') : InUse mem r f' ∨ f' = g := by
  obtain ⟨l', hl', hf'⟩ := h
  cases l' with
  | nil => exact .inl ⟨[], hl', hf'⟩
  | cons j l' =>
      obtain ⟨f'', hf'', hj, hne, hd⟩ := exists_tableFrom_tail hf'
      obtain ⟨hf₀, hw | ⟨rfl, -, rfl⟩⟩ :=
        fill_word h510 hinv hl hf h0 hg hnew hother hzero hl'.tail hf'' hj hne
      · rw [hw] at hne hd
        refine .inl ⟨j :: l', hl', ?_⟩
        rw [tableFrom_cons_of hf₀ hj hne, hd]
      · exact .inr (by omega)

omit h510 in
/-- A walk below a table on some path is kept, unless it goes on through the new entry. -/
theorem fill_entries (is : List Nat) : ∀ l' f', tableFrom mem r l' = some f' →
    OutsidePath 4 (is.reverse ++ l') →
    (∀ js, js.reverse ++ i :: l = is.reverse ++ l' → entries mem' g js = none) →
    entries mem' f' is = entries mem f' is := by
  induction is with
  | nil => exact fun _ _ _ _ _ => rfl
  | cons j is ih =>
      intro l' f' hf' hout hdead
      rw [List.reverse_cons, List.append_assoc, List.singleton_append] at hout hdead
      have hout' := hout.suffix (List.suffix_append is.reverse (j :: l'))
      have hl' : OutsidePath 3 l' := by
        refine (hout'.suffix (List.suffix_cons j l')).mono ?_
        have := hout.1
        simp only [List.length_append, List.length_cons] at this
        omega
      unfold entries
      by_cases hcell : f' = f ∧ j = i
      · obtain ⟨rfl, rfl⟩ := hcell
        obtain rfl := fill_sole hinv hl hf h0 hl' hf'
        have hd : word mem' f' j / 4096 = g := by omega
        rw [hd, hdead is rfl, h0]
        simp
      · have hne : f' ≠ g := fill_ne hg (hl'.mono (by have := hl'.1; omega)) hf'
        rw [hother f' j hne hcell]
        split_ifs with hodd
        · rfl
        · rw [ih _ _ (tableFrom_cons_of hf' hout'.head_lt (by omega)) hout hdead]

omit h510 in
/-- A new table changes no walk, a new page only that of `v`. -/
theorem fill_walk {c q : Nat} (hc : c / 4096 = r) (hq : p1Index q ≠ 510)
    (hne : (i :: l).length = 4 → pageOf q ≠ pageOf v) : walk mem' c q = walk mem c q := by
  have hout := outsidePath_way4 hq
  rw [walk_eq_entries, walk_eq_entries, hc]
  refine congrArg _ (fill_entries hinv hl hf h0 hg hnew hother hzero _ [] r tableFrom_nil ?_ ?_)
  · simpa using hout
  · intro js hjs
    rw [List.reverse_reverse, List.append_nil] at hjs
    cases js with
    | nil =>
        -- the new entry is that of the page `v`
        have hlen : (i :: l).length = 4 := by
          rw [← List.nil_append (i :: l), ← List.reverse_nil, hjs]
          rfl
        exact absurd (pageOf_of_way4 (hjs.symm.trans (hl.eq_of_length hlen))) (hne hlen)
    | cons j js =>
        refine entries_zero (hzero ?_) (List.cons_ne_nil j js) fun k hk => hout.2.1 k ?_
        · have hlen := congrArg List.length hjs
          simp only [List.length_append, List.length_reverse, List.length_cons, way4, way3, way2,
            way1, List.length_nil] at hlen ⊢
          omega
        · rw [← hjs]
          exact List.mem_append_left _ (List.mem_reverse.mpr hk)

end

end Sbunix
