import Sbunix.Sys.Paging

/-!
# The recursive page-table mapping

The addresses that `map_phyaddr` and its relatives compute lead, through slot 510 of
the current PML4, to the tables of an address: `Machine.frameOf_p1Table` and the
lemmas after it.
-/

namespace Sbunix

variable {m m' : Machine} {mem mem' : Nat → Nat → Nat} {v o i r f g : Nat}

theorem p1Index_eq (v : Nat) : p1Index v = v / 2 ^ 39 % 512 := by
  simp only [p1Index, Nat.shiftLeft_eq, Nat.shiftRight_eq_div_pow]
  omega

theorem p2Index_eq (v : Nat) : p2Index v = v / 2 ^ 30 % 512 := by
  simp only [p2Index, Nat.shiftLeft_eq, Nat.shiftRight_eq_div_pow]
  omega

theorem p3Index_eq (v : Nat) : p3Index v = v / 2 ^ 21 % 512 := by
  simp only [p3Index, Nat.shiftLeft_eq, Nat.shiftRight_eq_div_pow]
  omega

theorem p4Index_eq (v : Nat) : p4Index v = v / 2 ^ 12 % 512 := by
  simp only [p4Index, Nat.shiftLeft_eq, Nat.shiftRight_eq_div_pow]
  omega

theorem pIndex_lt (v : Nat) :
    p1Index v < 512 ∧ p2Index v < 512 ∧ p3Index v < 512 ∧ p4Index v < 512 := by
  rw [p1Index_eq, p2Index_eq, p3Index_eq, p4Index_eq]
  omega

/-- One step of the address computation keeps what lies above the index it sets. -/
theorem setIndex_eq {u k n : Nat} (hi : i < 512) (hb : u / 2 ^ (k + 9) = n)
    (hlt : (n * 512 + i) * 2 ^ k < 2 ^ 64) : setIndex u k i = (n * 512 + i) * 2 ^ k := by
  have hor : (n * 2 ^ 9 ||| i) = n * 2 ^ 9 + i := shift_or hi
  unfold setIndex
  rw [Nat.shiftRight_eq_div_pow, hb, Nat.shiftLeft_eq, Nat.shiftLeft_eq, hor]
  exact Nat.mod_eq_of_lt hlt

/-- An address of the upper half from its indices. -/
def highAddr (a b c d o : Nat) : Nat :=
  0xFFFF000000000000 + a * 2 ^ 39 + b * 2 ^ 30 + c * 2 ^ 21 + d * 2 ^ 12 + o

theorem setIndices_eq {base a b c d : Nat} (hb : base / 2 ^ 48 = 0xFFFF) (ha : a < 512)
    (hb' : b < 512) (hc : c < 512) (hd : d < 512) :
    setIndex (setIndex (setIndex (setIndex base 39 a) 30 b) 21 c) 12 d = highAddr a b c d 0 := by
  have h₁ := setIndex_eq (u := base) (k := 39) (n := 0xFFFF) ha hb (by omega)
  have h₂ := setIndex_eq (u := setIndex base 39 a) (k := 30) (n := 0xFFFF * 512 + a) hb'
    (by rw [h₁]; omega) (by omega)
  have h₃ := setIndex_eq (u := setIndex (setIndex base 39 a) 30 b) (k := 21)
    (n := (0xFFFF * 512 + a) * 512 + b) hc (by rw [h₂]; omega) (by omega)
  have h₄ := setIndex_eq (u := setIndex (setIndex (setIndex base 39 a) 30 b) 21 c) (k := 12)
    (n := ((0xFFFF * 512 + a) * 512 + b) * 512 + c) hd (by rw [h₃]; omega) (by omega)
  rw [h₄]
  unfold highAddr
  omega

theorem highAddr_index {a b c d : Nat} (ha : a < 512) (hb : b < 512) (hc : c < 512) (hd : d < 512)
    (ho : o < 4096) : p1Index (highAddr a b c d o) = a ∧ p2Index (highAddr a b c d o) = b ∧
      p3Index (highAddr a b c d o) = c ∧ p4Index (highAddr a b c d o) = d ∧
      highAddr a b c d o % 4096 = o := by
  rw [p1Index_eq, p2Index_eq, p3Index_eq, p4Index_eq]
  unfold highAddr
  omega

theorem highAddr_top {a b c d : Nat} (ha : a < 512) (hb : b < 512) (hc : c < 512) (hd : d < 512) :
    highAddr a b c d 0 / 2 ^ 48 = 0xFFFF := by
  unfold highAddr
  omega

theorem highAddr_add {a b c d : Nat} : highAddr a b c d 0 + o = highAddr a b c d o := by
  unfold highAddr
  omega

section

variable {base : Nat}

theorem p1Table_eq (hb : base / 2 ^ 48 = 0xFFFF) : p1Table base = highAddr 510 510 510 510 0 :=
  setIndices_eq hb (by decide) (by decide) (by decide) (by decide)

theorem p2Table_eq (hb : base / 2 ^ 48 = 0xFFFF) :
    p2Table base v = highAddr 510 510 510 (p1Index v) 0 :=
  setIndices_eq hb (by decide) (by decide) (by decide) (pIndex_lt v).1

theorem p3Table_eq (hb : base / 2 ^ 48 = 0xFFFF) :
    p3Table base v = highAddr 510 510 (p1Index v) (p2Index v) 0 :=
  setIndices_eq hb (by decide) (by decide) (pIndex_lt v).1 (pIndex_lt v).2.1

theorem p4Table_eq (hb : base / 2 ^ 48 = 0xFFFF) :
    p4Table base v = highAddr 510 (p1Index v) (p2Index v) (p3Index v) 0 :=
  setIndices_eq hb (by decide) (pIndex_lt v).1 (pIndex_lt v).2.1 (pIndex_lt v).2.2.1

end

theorem highAddr_aligned {a b c d : Nat} : highAddr a b c d 0 % 4096 = 0 := by
  unfold highAddr
  omega

theorem baseInit_top : baseInit / 2 ^ 48 = 0xFFFF := by decide

/-- `base` is not reset between the tables of `map_phyaddr`; only its top bits are used. -/
theorem p2Table_p1Table : p2Table (p1Table baseInit) v = p2Table baseInit v := by
  rw [p2Table_eq baseInit_top, p2Table_eq]
  rw [p1Table_eq baseInit_top]
  decide

theorem p3Table_p2Table : p3Table (p2Table baseInit v) v = p3Table baseInit v := by
  rw [p3Table_eq baseInit_top, p3Table_eq]
  rw [p2Table_eq baseInit_top]
  exact highAddr_top (by decide) (by decide) (by decide) (pIndex_lt v).1

theorem p4Table_p3Table : p4Table (p3Table baseInit v) v = p4Table baseInit v := by
  rw [p4Table_eq baseInit_top, p4Table_eq]
  rw [p3Table_eq baseInit_top]
  exact highAddr_top (by decide) (by decide) (pIndex_lt v).1 (pIndex_lt v).2.1

theorem p1Table_aligned : p1Table baseInit % 4096 = 0 := by
  rw [p1Table_eq baseInit_top]
  exact highAddr_aligned

theorem p2Table_aligned : p2Table baseInit v % 4096 = 0 := by
  rw [p2Table_eq baseInit_top]
  exact highAddr_aligned

theorem p3Table_aligned : p3Table baseInit v % 4096 = 0 := by
  rw [p3Table_eq baseInit_top]
  exact highAddr_aligned

theorem p4Table_aligned : p4Table baseInit v % 4096 = 0 := by
  rw [p4Table_eq baseInit_top]
  exact highAddr_aligned

/-! ## Walks -/

/-- The frame at the end of the three upper levels. -/
theorem walk_eq {e1 e2 e3 e4 : Nat} (h1 : word mem (r / 4096) (p1Index v) = e1)
    (h2 : word mem (e1 / 4096) (p2Index v) = e2) (h3 : word mem (e2 / 4096) (p3Index v) = e3)
    (h4 : word mem (e3 / 4096) (p4Index v) = e4)
    (ho : e1 % 2 = 1 ∧ e2 % 2 = 1 ∧ e3 % 2 = 1 ∧ e4 % 2 = 1) :
    walk mem r v = some ⟨e1, e2, e3, e4⟩ := by
  obtain ⟨o1, o2, o3, o4⟩ := ho
  unfold walk
  simp only [h1, h2, h3, h4]
  rw [if_neg (by omega), if_neg (by omega), if_neg (by omega), if_neg (by omega)]

/-- The recursive slot of the PML4 in frame `r`. -/
def SelfMap (mem : Nat → Nat → Nat) (r : Nat) : Prop :=
  word mem r 510 % 2 = 1 ∧ word mem r 510 / 4096 = r

theorem SelfMap.congr {mem' : Nat → Nat → Nat} (h : SelfMap mem r)
    (hw : word mem' r 510 = word mem r 510) : SelfMap mem' r := by
  unfold SelfMap
  rw [hw]
  exact h

namespace Machine

/-- The tables on the way to `v` below the PML4 in frame `r`. -/
def t2 (mem : Nat → Nat → Nat) (r v : Nat) : Nat := word mem r (p1Index v) / 4096
/-- The frame of the table of the third level. -/
def t3 (mem : Nat → Nat → Nat) (r v : Nat) : Nat := word mem (t2 mem r v) (p2Index v) / 4096
/-- The frame of the table of the fourth level. -/
def t4 (mem : Nat → Nat → Nat) (r v : Nat) : Nat := word mem (t3 mem r v) (p3Index v) / 4096

section

variable (hs : SelfMap m.mem (m.cr3 / 4096)) (ho : o < 4096)

include hs ho

theorem frameOf_p1Table : m.frameOf (p1Table baseInit + o) = some (m.cr3 / 4096) := by
  obtain ⟨hodd, hself⟩ := hs
  obtain ⟨i1, i2, i3, i4, -⟩ :=
    highAddr_index (a := 510) (b := 510) (c := 510) (d := 510) (by decide) (by decide) (by decide)
      (by decide) ho
  rw [p1Table_eq baseInit_top, highAddr_add, frameOf,
    walk_eq (by rw [i1]) (by rw [hself, i2]) (by rw [hself, i3]) (by rw [hself, i4])
      ⟨hodd, hodd, hodd, hodd⟩]
  simp [hself]

theorem frameOf_p2Table (h1 : word m.mem (m.cr3 / 4096) (p1Index v) % 2 = 1) :
    m.frameOf (p2Table baseInit v + o) = some (t2 m.mem (m.cr3 / 4096) v) := by
  obtain ⟨hodd, hself⟩ := hs
  obtain ⟨i1, i2, i3, i4, -⟩ :=
    highAddr_index (a := 510) (b := 510) (c := 510) (by decide) (by decide) (by decide)
      (pIndex_lt v).1 ho
  rw [p2Table_eq baseInit_top, highAddr_add, frameOf,
    walk_eq (by rw [i1]) (by rw [hself, i2]) (by rw [hself, i3]) (by rw [hself, i4])
      ⟨hodd, hodd, hodd, h1⟩]
  simp [t2]

theorem frameOf_p3Table (h1 : word m.mem (m.cr3 / 4096) (p1Index v) % 2 = 1)
    (h2 : word m.mem (t2 m.mem (m.cr3 / 4096) v) (p2Index v) % 2 = 1) :
    m.frameOf (p3Table baseInit v + o) = some (t3 m.mem (m.cr3 / 4096) v) := by
  obtain ⟨hodd, hself⟩ := hs
  obtain ⟨i1, i2, i3, i4, -⟩ :=
    highAddr_index (a := 510) (b := 510) (by decide) (by decide) (pIndex_lt v).1
      (pIndex_lt v).2.1 ho
  rw [p3Table_eq baseInit_top, highAddr_add, frameOf,
    walk_eq (by rw [i1]) (by rw [hself, i2]) (by rw [hself, i3]) (by rw [← t2, i4])
      ⟨hodd, hodd, h1, h2⟩]
  simp [t3]

theorem frameOf_p4Table (h1 : word m.mem (m.cr3 / 4096) (p1Index v) % 2 = 1)
    (h2 : word m.mem (t2 m.mem (m.cr3 / 4096) v) (p2Index v) % 2 = 1)
    (h3 : word m.mem (t3 m.mem (m.cr3 / 4096) v) (p3Index v) % 2 = 1) :
    m.frameOf (p4Table baseInit v + o) = some (t4 m.mem (m.cr3 / 4096) v) := by
  obtain ⟨hodd, hself⟩ := hs
  obtain ⟨i1, i2, i3, i4, -⟩ :=
    highAddr_index (a := 510) (by decide) (pIndex_lt v).1 (pIndex_lt v).2.1
      (pIndex_lt v).2.2.1 ho
  rw [p4Table_eq baseInit_top, highAddr_add, frameOf,
    walk_eq (by rw [i1]) (by rw [hself, i2]) (by rw [← t2, i3]) (by rw [← t3, i4])
      ⟨hodd, h1, h2, h3⟩]
  simp [t4]

end

/-! ## Kernel accesses to a table -/

theorem load64_entry {tbl : Nat} (hfr : m.frameOf (tbl + 8 * i) = some f) (htbl : tbl % 4096 = 0)
    (hi : i < 512) : m.load64 (tbl + 8 * i) = some (word m.mem f i) := by
  have hoff : (tbl + 8 * i) % 4096 = 8 * i := by omega
  rw [load64, hfr, Option.bind_some, hoff, if_pos (by omega), word]

theorem store64_entry {tbl w : Nat} (hfr : m.frameOf (tbl + 8 * i) = some f) (htbl : tbl % 4096 = 0)
    (hi : i < 512) : m.store64 (tbl + 8 * i) w =
      some { m with mem := Function.update m.mem f (wr64 (m.mem f) (8 * i) w) } := by
  have hoff : (tbl + 8 * i) % 4096 = 8 * i := by omega
  rw [store64, hfr, Option.bind_some, hoff, if_pos (by omega)]

theorem zeroWords_zero {base stride : Nat} : m.zeroWords base stride 0 = some m := rfl

theorem zeroWords_succ {base stride n : Nat} : m.zeroWords base stride (n + 1) =
    (m.zeroWords base stride n).bind fun m' => m'.store64 (base + stride * n) 0 := by
  unfold zeroWords
  rw [List.range_succ, List.foldlM_append]
  cases (List.range n).foldlM (fun m i => m.store64 (base + stride * i) 0) m with
  | none => simp
  | some m' => simp

/-- The clearing loops write to one frame, as long as their addresses lead there. -/
theorem zeroWords_eq {base stride n : Nat} (hb : base % 4096 = 0) (hst : stride ≤ 8)
    (hn : stride * n + 8 ≤ 4096)
    (hfr : ∀ mem', (∀ f, f ≠ g → mem' f = m.mem f) → ∀ x < 4096,
      ({ m with mem := mem' } : Machine).frameOf (base + x) = some g) :
    m.zeroWords base stride (n + 1) =
      some { m with mem := Function.update m.mem g (clearTo (m.mem g) (stride * n + 8)) } := by
  -- one more word, after the frame has been cleared up to `b`
  have hstep : ∀ b x, x ≤ b → b ≤ x + 8 → x + 8 ≤ 4096 →
      ({ m with mem := Function.update m.mem g (clearTo (m.mem g) b) } : Machine).store64
        (base + x) 0 =
        some { m with mem := Function.update m.mem g (clearTo (m.mem g) (x + 8)) } := by
    intro b x hxb hbx hx
    have hfg := hfr (Function.update m.mem g (clearTo (m.mem g) b))
      (fun f hf => Function.update_of_ne hf _ _) x (by omega)
    rw [store64, hfg, Option.bind_some, show (base + x) % 4096 = x by omega, if_pos hx]
    simp only [Function.update_self, Function.update_idem, wr64_clearTo hxb hbx]
  induction n with
  | zero =>
      have h0 := hstep 0 0 (Nat.le_refl 0) (by omega) (by omega)
      rw [clearTo_zero, Function.update_eq_self] at h0
      rw [zeroWords_succ, zeroWords_zero, Option.bind_some, Nat.mul_zero]
      exact h0
  | succ n ih =>
      have hmul : stride * (n + 1) = stride * n + stride := Nat.mul_succ stride n
      rw [zeroWords_succ, ih (by omega), Option.bind_some]
      exact hstep _ _ (by omega) (by omega) hn

end Machine

end Sbunix
