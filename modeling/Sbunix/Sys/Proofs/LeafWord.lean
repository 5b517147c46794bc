import Sbunix.Sys.Proofs.CowOps
import Sbunix.Sys.Proofs.OneMapping

/-!
# One word for five walks

`get_phys_addr`, `check_cow`, `cow`, `set_Cow` and `unmap_phyaddr` each compute the address of
the last-level entry of `v` by hand. Over any tables that map themselves they read and write the
word that the hardware walk ends at.
-/

namespace Sbunix

variable {m m' : Machine} {mem mem' : Nat → Nat → Nat} {r v f f' g i n w : Nat} {l : List Nat}

/-- Memory with entry `i` of the table in frame `f` written. -/
def writeWord (mem : Nat → Nat → Nat) (f i w : Nat) : Nat → Nat → Nat :=
  Function.update mem f (wr64 (mem f) (8 * i) w)

/-! ## Ways -/

/-- A way needs the entries along it only. -/
theorem Way.congr (h : Way mem r l f)
    (hw : ∀ j l' f', j :: l' <:+ l → Way mem r l' f' → word mem f' j % 2 = 1 →
      word mem' f' j = word mem f' j) : Way mem' r l f := by
  induction l generalizing f with
  | nil => exact h
  | cons j l ih =>
      obtain ⟨f', hf', hodd, hd⟩ := h
      have hj := hw j l f' List.suffix_rfl hf' hodd
      refine ⟨f', ih hf' fun j' l' g' hl' => hw j' l' g' (hl'.trans (List.suffix_cons j l)), ?_, ?_⟩
      · rw [hj, hodd]
      · rw [hj, hd]

theorem Way.unique (h : Way mem r l f) (h' : Way mem r l g) : f = g := by
  induction l generalizing f g with
  | nil => exact h.trans h'.symm
  | cons j l ih =>
      obtain ⟨f', hf', -, hd⟩ := h
      obtain ⟨g', hg', -, hd'⟩ := h'
      obtain rfl := ih hf' hg'
      exact hd.symm.trans hd'

theorem Way.suffix {l' : List Nat} (h : Way mem r l f) (hl : l' <:+ l) : ∃ g, Way mem r l' g := by
  induction l generalizing f with
  | nil =>
      rw [List.suffix_nil.mp hl]
      exact ⟨f, h⟩
  | cons j l ih =>
      rcases List.suffix_cons_iff.mp hl with rfl | hl
      · exact ⟨f, h⟩
      · obtain ⟨f', hf', -⟩ := h
        exact ih hf' hl

theorem Way.tableFrom (h : Way mem r l f) (hl : ∀ i ∈ l, i < 512) : tableFrom mem r l = some f := by
  induction l generalizing f with
  | nil =>
      obtain rfl : f = r := h
      rfl
  | cons j l ih =>
      obtain ⟨f', hf', hodd, hd⟩ := h
      rw [tableFrom_cons_of (ih hf' fun i hi => hl i (List.mem_cons_of_mem j hi))
        (hl j List.mem_cons_self) (by omega), hd]

/-! ## The walks -/

namespace Machine

section

variable (hs : SelfMap m.mem (m.cr3 / 4096)) (hway : Way m.mem (m.cr3 / 4096) (way3 v) f)

include hs hway

theorem frameOf_leafAddr : m.frameOf (leafAddr v) = some f :=
  frameOf_way3 hs (by have := (pIndex_lt v).2.2.2; omega) hway

theorem load64_way : m.load64 (leafAddr v) = some (word m.mem f (p4Index v)) :=
  load64_entry (frameOf_leafAddr hs hway) p4Table_aligned (pIndex_lt v).2.2.2

theorem store64_way : m.store64 (leafAddr v) w =
    some { m with mem := writeWord m.mem f (p4Index v) w } :=
  store64_entry (frameOf_leafAddr hs hway) p4Table_aligned (pIndex_lt v).2.2.2

/-- The entries of the upper tables along the way. -/
theorem load64_tables : ∃ e₁ e₂ e₃, m.load64 (p1Table baseInit + 8 * p1Index v) = some e₁ ∧
    m.load64 (p2Table baseInit v + 8 * p2Index v) = some e₂ ∧
    m.load64 (p3Table baseInit v + 8 * p3Index v) = some e₃ ∧ e₁ ≠ 0 ∧ e₂ ≠ 0 ∧ e₃ ≠ 0 := by
  obtain ⟨h1, h2, h3, -⟩ := pIndex_lt v
  obtain ⟨f3, ⟨f2, ⟨f1, rfl, o1, rfl⟩, o2, rfl⟩, o3, rfl⟩ := hway
  have l1 := load64_entry (frameOf_p1Table hs (by omega)) p1Table_aligned h1
  have l2 := load64_entry (frameOf_p2Table hs (by omega) o1) p2Table_aligned h2
  have l3 := load64_entry (frameOf_p3Table hs (by omega) o1 o2) p3Table_aligned h3
  unfold t2 at l2
  unfold t3 t2 at l3
  exact ⟨_, _, _, l1, l2, l3, by omega, by omega, by omega⟩

theorem getPhysAddr_way : m.getPhysAddr v = some (word m.mem f (p4Index v)) := by
  obtain ⟨e₁, e₂, e₃, l1, l2, l3, h1, h2, h3⟩ := load64_tables hs hway
  rw [getPhysAddr, l1, l2, l3, load64_way hs hway]
  simp only [Option.bind_eq_bind, Option.bind_some]
  rw [if_neg h1, if_neg h2, if_neg h3]

theorem checkCow_way : m.checkCow v =
    some (word m.mem f (p4Index v) != 0 && word m.mem f (p4Index v) &&& 7 == 5) := by
  rw [checkCow, load64_way hs hway]
  rfl

/-- Where the three tables exist none is made. -/
theorem ensureTables_way : m.ensureTables v = some m := by
  obtain ⟨h1, h2, h3, -⟩ := pIndex_lt v
  obtain ⟨f3, ⟨f2, ⟨f1, rfl, o1, rfl⟩, o2, rfl⟩, o3, rfl⟩ := hway
  have hway1 : Way m.mem (m.cr3 / 4096) (way1 v) _ := ⟨_, rfl, o1, rfl⟩
  have hway2 : Way m.mem (m.cr3 / 4096) (way2 v) _ := ⟨_, hway1, o2, rfl⟩
  rw [ensureTables_eq,
    ensureTable_present (frameOf_p1Table hs (by omega)) p1Table_aligned h1 (by omega),
    Option.bind_some,
    ensureTable_present (frameOf_way1 hs (by omega) hway1) p2Table_aligned h2 (by omega),
    Option.bind_some,
    ensureTable_present (frameOf_way2 hs (by omega) hway2) p3Table_aligned h3 (by omega)]

theorem setCow_way {padd : Nat} : m.setCow v padd =
    some { m with
      mem := writeWord m.mem f (p4Index v) ((padd &&& 0xFFFFFFFFFFFFF000) ||| 5) } := by
  rw [setCow, ensureTables_way hs hway, Option.bind_eq_bind, Option.bind_some, store64_way hs hway]

/-- The new entry of `cow`, before the page is copied back. -/
theorem cow_way (h : m.cow v = some m') : ∃ p fl buf,
    (Machine.mk (writeWord m.mem f (p4Index v) ((p &&& 0xFFFFFFFFFFFFF000) ||| 7)) m.cr3 fl).storePage
      (v &&& 0xFFFFFFFFFFFFF000) buf = some m' := by
  rw [cow_eq] at h
  obtain ⟨buf, -, h⟩ := Option.bind_eq_some_iff.mp h
  obtain ⟨m₁, hentry, h⟩ := Option.bind_eq_some_iff.mp h
  have hstore : ∀ fl p, ({ m with fl := fl } : Machine).store64 (leafAddr v) p = some m₁ →
      m₁ = ⟨writeWord m.mem f (p4Index v) p, m.cr3, fl⟩ := by
    intro fl p hst
    rw [store64_way (m := { m with fl := fl }) hs hway, Option.some.injEq] at hst
    exact hst.symm
  simp only [cowEntry, Option.bind_eq_bind, load64_way hs hway, Option.bind_some] at hentry
  have hnew : ∃ p fl, m₁ =
      ⟨writeWord m.mem f (p4Index v) ((p &&& 0xFFFFFFFFFFFFF000) ||| 7), m.cr3, fl⟩ := by
    split_ifs at hentry
    · obtain ⟨fl, -, hentry⟩ := Option.bind_eq_some_iff.mp hentry
      simp only [Option.pure_def, Option.bind_some] at hentry
      obtain ⟨⟨p, m₂⟩, hget, hst⟩ := Option.bind_eq_some_iff.mp hentry
      obtain ⟨q, -, hq⟩ := Option.map_eq_some_iff.mp hget
      obtain ⟨rfl, rfl⟩ := Prod.mk.inj hq
      exact ⟨_, _, hstore _ _ hst⟩
    · simp only [Option.pure_def, Option.bind_some] at hentry
      obtain ⟨⟨p, m₂⟩, hget, hst⟩ := Option.bind_eq_some_iff.mp hentry
      obtain ⟨q, -, hq⟩ := Option.map_eq_some_iff.mp hget
      obtain ⟨rfl, rfl⟩ := Prod.mk.inj hq
      exact ⟨_, _, hstore _ _ hst⟩
  obtain ⟨p, fl, rfl⟩ := hnew
  exact ⟨p, fl, buf, h⟩

theorem unmapPhyaddr_way : m.unmapPhyaddr v = m.unmapLeaf v := by
  obtain ⟨e₁, e₂, e₃, l1, l2, l3, h1, h2, h3⟩ := load64_tables hs hway
  rw [unmapPhyaddr]
  simp only [p2Table_p1Table, p3Table_p2Table]
  rw [l1, l2, l3]
  simp only [Option.bind_eq_bind, Option.bind_some]
  rw [if_neg h1, if_neg h2, if_neg h3]

end

/-! ## The clearing loop -/

/-- The loop writes to one frame, as long as its addresses lead there. -/
theorem zeroWords_frame (hv : v % 4096 + n + 7 ≤ 4096)
    (hfr : ∀ mem', (∀ f, f ≠ g → mem' f = m.mem f) → ∀ x < n,
      ({ m with mem := mem' } : Machine).frameOf (v + x) = some g) :
    ∃ mem', m.zeroWords v 1 n = some { m with mem := mem' } ∧ ∀ f, f ≠ g → mem' f = m.mem f := by
  induction n with
  | zero => exact ⟨m.mem, rfl, fun _ _ => rfl⟩
  | succ n ih =>
      obtain ⟨mem₁, hz, hkeep⟩ := ih (by omega) fun mem' h x hx => hfr mem' h x (by omega)
      have hfg := hfr mem₁ hkeep n (Nat.lt_succ_self n)
      refine ⟨Function.update mem₁ g (wr64 (mem₁ g) ((v + n) % 4096) 0), ?_, ?_⟩
      · rw [zeroWords_succ, hz, Option.bind_some, Nat.one_mul, store64, hfg, Option.bind_some,
          if_pos (by omega)]
      · intro f hf
        rw [Function.update_of_ne hf, hkeep f hf]

/-- The tables of `v` stay when only the frame `g`, none of them, changes. -/
theorem way_of_agree {l' : List Nat} (h : Way mem r l' f) (hl : l' <:+ way4 v)
    (hg : ∀ l f', l <:+ way3 v → Way mem r l f' → f' ≠ g) (hkeep : ∀ f, f ≠ g → mem' f = mem f) :
    Way mem' r l' f := by
  refine h.congr fun j l'' f' hsuf hw _ => word_congr (hkeep f' (hg l'' f' ?_ hw))
  have hcons : j :: l'' <:+ p4Index v :: way3 v := hsuf.trans hl
  rcases List.suffix_cons_iff.mp hcons with he | hsuf'
  · rw [(List.cons.inj he).2]
  · exact (List.suffix_cons j l'').trans hsuf'

/-- Clearing the page of `v` from `v` on. -/
theorem zeroWords_page (hway : Way m.mem (m.cr3 / 4096) (way4 v) g) (hv : v % 4096 + 519 ≤ 4096)
    (hg : ∀ l f', l <:+ way3 v → Way m.mem (m.cr3 / 4096) l f' → f' ≠ g) :
    ∃ mem', m.zeroWords v 1 512 = some { m with mem := mem' } ∧ ∀ f, f ≠ g → mem' f = m.mem f := by
  refine zeroWords_frame (by omega) fun mem' hkeep x hx => ?_
  have hpage : way4 (v + x) = way4 v := by
    have hv0 : v / 4096 * 4096 + v % 4096 = v := by omega
    have hvx : v / 4096 * 4096 + (v % 4096 + x) = v + x := by omega
    have hal : v / 4096 * 4096 % 4096 = 0 := by omega
    rw [← hvx, way4_add hal (by omega), ← way4_add hal (Nat.mod_lt v (by decide)), hv0]
  refine frameOf_way ?_
  rw [hpage]
  exact way_of_agree hway List.suffix_rfl hg hkeep

/-- `unmap_phyaddr` at a present entry whose frame is counted `c` times. -/
theorem unmap_way {c e : Nat} (hs : SelfMap m.mem (m.cr3 / 4096))
    (hway : Way m.mem (m.cr3 / 4096) (way3 v) f) (he : word m.mem f (p4Index v) = e)
    (hodd : e % 2 = 1) (hc : m.fl.getReferenceCount e = some c)
    (hzero : c = 1 → v % 4096 + 519 ≤ 4096 ∧
      ∀ l f', l <:+ way3 v → Way m.mem (m.cr3 / 4096) l f' → f' ≠ e / 4096) :
    ∃ mem b, m.fl.blockindex e = some b ∧ (∀ f, f ≠ e / 4096 → mem f = m.mem f) ∧
      (c ≠ 1 → mem = m.mem) ∧
      m.unmapPhyaddr v = some ⟨writeWord mem f (p4Index v) 0, m.cr3,
        if c = 1 then { m.fl with
            next := Function.update m.fl.next b m.fl.headFreelist, headFreelist := b,
            totalblockcount := m.fl.totalblockcount + 1,
            refCount := Function.update m.fl.refCount b 0 }
          else { m.fl with refCount := Function.update m.fl.refCount b (c - 1) }⟩ := by
  obtain ⟨b, hb, rfl⟩ := Option.map_eq_some_iff.mp hc
  have hidx : ∀ next rc head total last curr,
      FreeList.blockindex ⟨m.fl.freeMemory, next, rc, head, total, last, curr⟩ e = some b :=
    fun _ _ _ _ _ _ => hb
  have hand : ¬ e &&& 1 = 0 := by
    rw [Nat.and_one_is_mod]
    omega
  rw [unmapPhyaddr_way hs hway, unmapLeaf, load64_way hs hway, he]
  simp only [Option.bind_eq_bind, Option.bind_some, if_neg hand, Option.pure_def, hc]
  by_cases h1 : m.fl.refCount b = 1
  · obtain ⟨hv, hg⟩ := hzero h1
    have hway4 : Way m.mem (m.cr3 / 4096) (way4 v) (e / 4096) := ⟨f, hway, he.symm ▸ hodd, by rw [he]⟩
    obtain ⟨mem', hz, hkeep⟩ := zeroWords_page hway4 hv hg
    have hr : m.cr3 / 4096 ≠ e / 4096 := hg [] _ List.nil_suffix rfl
    have hs' : SelfMap mem' (m.cr3 / 4096) := hs.congr (word_congr (hkeep _ hr))
    have hway' := way_of_agree hway (List.suffix_cons _ _) hg hkeep
    refine ⟨mem', b, hb, hkeep, fun h => absurd h1 h, ?_⟩
    have hstore : ∀ fl, (Machine.mk mem' m.cr3 fl).store64 (leafAddr v) 0 =
        some ⟨writeWord mem' f (p4Index v) 0, m.cr3, fl⟩ := fun fl => store64_way hs' hway'
    rw [if_pos h1, hz, Option.bind_some]
    simp only [FreeList.freePage, hb, Option.map_some, Option.bind_some,
      FreeList.decrementReferenceCount, hidx, hstore, h1]
    rfl
  · refine ⟨m.mem, b, hb, fun _ _ => rfl, fun _ => rfl, ?_⟩
    have hstore : ∀ fl, (Machine.mk m.mem m.cr3 fl).store64 (leafAddr v) 0 =
        some ⟨writeWord m.mem f (p4Index v) 0, m.cr3, fl⟩ := fun fl => store64_way hs hway
    simp only [if_neg h1, FreeList.decrementReferenceCount, hb, Option.map_some, Option.bind_some,
      hstore]
    by_cases h0 : m.fl.refCount b < 1
    · have hsub : m.fl.refCount b - 1 = m.fl.refCount b := by omega
      rw [if_pos h0, hsub, Function.update_eq_self]
    · rw [if_neg h0]

/-! ## Mapping and unmapping -/

/-- Filling an empty entry keeps the ways. -/
theorem way_of_fill {l' : List Nat} (h : Way mem r l' f') (h0 : word mem f i = 0) (hw : w < 2 ^ 64) :
    Way (writeWord mem f i w) r l' f' := by
  refine h.congr fun j l'' g _ _ hodd => ?_
  have hcell : ¬ (g = f ∧ j = i) := by
    rintro ⟨rfl, rfl⟩
    omega
  exact (word_store hw).trans (if_neg hcell)

/-- `map_phyaddr` at an empty entry of a table that exists. -/
theorem mapPhyaddr_way {p : Nat} {fl' : FreeList} (hs : SelfMap m.mem (m.cr3 / 4096))
    (hway : Way m.mem (m.cr3 / 4096) (way3 v) f) (h0 : word m.mem f (p4Index v) = 0)
    (hv : v % 4096 + 519 ≤ 4096) (hget : m.fl.getPage = some (p, fl'))
    (hg : ∀ l f', l <:+ way3 v → Way m.mem (m.cr3 / 4096) l f' → f' ≠ p / 4096) :
    ∃ mem', m.mapPhyaddr v = some (p, ⟨mem', m.cr3, fl'⟩) ∧
      ∀ f', f' ≠ p / 4096 → mem' f' = writeWord m.mem f (p4Index v) (p / 4096 * 4096 + 7) f' := by
  have hlt := FreeList.getPage_lt hget
  have hw : p / 4096 * 4096 + 7 < 2 ^ 64 := by omega
  have hentry : (p &&& 0xFFFFFFFFFFFFF000) ||| 7 = p / 4096 * 4096 + 7 :=
    and_or_flags (by omega) rfl (by decide)
  have hnew : word (writeWord m.mem f (p4Index v) (p / 4096 * 4096 + 7)) f (p4Index v) =
      p / 4096 * 4096 + 7 := (word_store hw).trans (if_pos ⟨rfl, rfl⟩)
  have hway' := way_of_fill hway h0 hw
  have hway4 : Way (writeWord m.mem f (p4Index v) (p / 4096 * 4096 + 7)) (m.cr3 / 4096) (way4 v)
      (p / 4096) := by
    refine ⟨f, hway', ?_, ?_⟩
    · rw [hnew]
      exact entry_odd (by decide)
    · rw [hnew]
      exact entry_div (by decide)
  have hg' : ∀ l f', l <:+ way3 v →
      Way (writeWord m.mem f (p4Index v) (p / 4096 * 4096 + 7)) (m.cr3 / 4096) l f' →
      f' ≠ p / 4096 := by
    intro l f' hl hf'
    obtain ⟨g, hw'⟩ := hway.suffix hl
    obtain rfl := hf'.unique (way_of_fill hw' h0 hw)
    exact hg l f' hl hw'
  obtain ⟨mem', hz, hkeep⟩ := zeroWords_page
    (m := ⟨writeWord m.mem f (p4Index v) (p / 4096 * 4096 + 7), m.cr3, fl'⟩) hway4 hv hg'
  have hstore : (Machine.mk m.mem m.cr3 fl').store64 (leafAddr v) (p / 4096 * 4096 + 7) =
      some ⟨writeWord m.mem f (p4Index v) (p / 4096 * 4096 + 7), m.cr3, fl'⟩ := store64_way hs hway
  refine ⟨mem', ?_, hkeep⟩
  rw [mapPhyaddr, ensureTables_way hs hway, Option.bind_eq_bind, Option.bind_some, mapLeaf,
    load64_way hs hway, h0]
  simp only [Option.bind_eq_bind, Option.bind_some, Nat.zero_and, if_true, Machine.getPage, hget,
    Option.map_some, hentry, hstore, Option.pure_def, hz]

end Machine

/-- A walk outside slot 510 stays when all frames in use keep their words. -/
theorem entries_agree (hg : ¬ InUse mem r g)
    (hword : ∀ f j, f ≠ g → word mem' f j = word mem f j) (is : List Nat) : ∀ l' f,
    tableFrom mem r l' = some f → OutsidePath 4 (is.reverse ++ l') →
    entries mem' f is = entries mem f is := by
  induction is with
  | nil => exact fun _ _ _ _ => rfl
  | cons j is ih =>
      intro l' f hf hout
      rw [List.reverse_cons, List.append_assoc, List.singleton_append] at hout
      have hout' := hout.suffix (List.suffix_append is.reverse (j :: l'))
      have hne : f ≠ g := fill_ne hg (hout'.suffix (List.suffix_cons j l')) hf
      unfold entries
      rw [hword f j hne]
      by_cases heven : word mem f j % 2 = 0
      · rw [if_pos heven, if_pos heven]
      · rw [if_neg heven, if_neg heven, ih _ _ (tableFrom_cons_of hf hout'.head_lt (by omega)) hout]

theorem walk_agree {c q : Nat} (hg : ¬ InUse mem (c / 4096) g)
    (hword : ∀ f j, f ≠ g → word mem' f j = word mem f j) (hq : p1Index q ≠ 510) :
    walk mem' c q = walk mem c q := by
  have hout := outsidePath_way4 hq
  rw [walk_eq_entries, walk_eq_entries]
  refine congrArg _ (entries_agree hg hword _ [] _ tableFrom_nil ?_)
  simpa using hout

/-! ## The main result -/

/-- All five functions work on entry `p4Index v` of the table in frame `f`, and so does the
hardware. `unmap_phyaddr` writes there after it has cleared the page, which must not be one of
the tables of `v`. -/
structure SameWord (m : Machine) (v f : Nat) : Prop where
  hardware : (walk m.mem m.cr3 v).map Walk.e4 =
    if word m.mem f (p4Index v) % 2 = 1 then some (word m.mem f (p4Index v)) else none
  getPhysAddr : m.getPhysAddr v = some (word m.mem f (p4Index v))
  checkCow : m.checkCow v =
    some (word m.mem f (p4Index v) != 0 && word m.mem f (p4Index v) &&& 7 == 5)
  setCow : ∀ padd, m.setCow v padd = some { m with
    mem := writeWord m.mem f (p4Index v) ((padd &&& 0xFFFFFFFFFFFFF000) ||| 5) }
  cow : ∀ m', m.cow v = some m' → ∃ p fl buf,
    (Machine.mk (writeWord m.mem f (p4Index v) ((p &&& 0xFFFFFFFFFFFFF000) ||| 7)) m.cr3 fl).storePage
      (v &&& 0xFFFFFFFFFFFFF000) buf = some m'
  absent : word m.mem f (p4Index v) % 2 = 0 → m.unmapPhyaddr v = some m
  unmap : ∀ c, word m.mem f (p4Index v) % 2 = 1 →
    m.fl.getReferenceCount (word m.mem f (p4Index v)) = some c →
    (c = 1 → v % 4096 + 519 ≤ 4096 ∧ ∀ l, l <:+ way3 v →
      tableFrom m.mem (m.cr3 / 4096) l ≠ some (word m.mem f (p4Index v) / 4096)) →
    ∃ m' mem, m.unmapPhyaddr v = some m' ∧ m'.mem = writeWord mem f (p4Index v) 0 ∧
      (∀ g, g ≠ word m.mem f (p4Index v) / 4096 → mem g = m.mem g) ∧ (c ≠ 1 → mem = m.mem)

/-- `m'` is `m` after the page `p` has been mapped and unmapped again: no word outside it has
changed, and it is the first on the free list. -/
structure Undone (m m' : Machine) (p : Nat) : Prop where
  words : ∀ g j, g ≠ p / 4096 → word m'.mem g j = word m.mem g j
  walks : ∀ q, p1Index q ≠ 510 → walk m'.mem m'.cr3 q = walk m.mem m.cr3 q
  blocks : m'.fl.blocks = m.fl.blocks
  head : p = m'.fl.frame m'.fl.headFreelist * 4096
  count : m'.fl.refCount m'.fl.headFreelist = 0

section

variable (hself : SelfMap m.mem (m.cr3 / 4096)) (hpresent : Present m.mem (m.cr3 / 4096))
  (h510 : p1Index v ≠ 510) (hf : tableFrom m.mem (m.cr3 / 4096) (way3 v) = some f)

include hpresent h510 hf

theorem way3_of_table : Way m.mem (m.cr3 / 4096) (way3 v) f :=
  hpresent.way ((outsidePath_way4 h510).suffix (List.suffix_cons _ _)) hf

/-- A present leaf entry is odd, an absent one zero. -/
theorem leaf_even (heven : word m.mem f (p4Index v) % 2 = 0) : word m.mem f (p4Index v) = 0 := by
  by_contra h0
  have hout := outsidePath_way4 h510
  have hodd := hpresent (way3 v) f (p4Index v) hout.tail hf hout.head_lt h0
  omega

theorem walk_leaf_word : (walk m.mem m.cr3 v).map Walk.e4 =
    if word m.mem f (p4Index v) % 2 = 1 then some (word m.mem f (p4Index v)) else none := by
  obtain ⟨f3, ⟨f2, ⟨f1, rfl, o1, rfl⟩, o2, rfl⟩, o3, rfl⟩ := way3_of_table hpresent h510 hf
  unfold walk
  dsimp only
  rw [if_neg (by omega), if_neg (by omega), if_neg (by omega)]
  split_ifs <;> first | rfl | omega

include hself

theorem sameWord : SameWord m v f := by
  have hway := way3_of_table hpresent h510 hf
  constructor
  · exact walk_leaf_word hpresent h510 hf
  · exact Machine.getPhysAddr_way hself hway
  · exact Machine.checkCow_way hself hway
  · exact fun padd => Machine.setCow_way hself hway
  · exact fun m' h => Machine.cow_way hself hway h
  · intro heven
    have hand : word m.mem f (p4Index v) &&& 1 = 0 := by rw [Nat.and_one_is_mod, heven]
    rw [Machine.unmapPhyaddr_way hself hway, Machine.unmapLeaf, Machine.load64_way hself hway,
      Option.bind_eq_bind, Option.bind_some, if_pos hand]
    rfl
  · intro c hodd hc hzero
    have hzero' : c = 1 → v % 4096 + 519 ≤ 4096 ∧ ∀ l f', l <:+ way3 v →
        Way m.mem (m.cr3 / 4096) l f' → f' ≠ word m.mem f (p4Index v) / 4096 := by
      intro h1
      obtain ⟨hv, hne⟩ := hzero h1
      refine ⟨hv, ?_⟩
      rintro l f' hl hf' rfl
      exact hne l hl (hf'.tableFrom ((outsidePath_way4 h510).suffix
        (hl.trans (List.suffix_cons _ _))).2.1)
    obtain ⟨mem, b, -, hkeep, hc1, hunmap⟩ := Machine.unmap_way hself hway rfl hodd hc hzero'
    exact ⟨_, mem, hunmap, rfl, hkeep, hc1⟩

/-- Mapping an unmapped page and unmapping it again. -/
theorem map_unmap (hfree : FreeInv m.fl) (hroom : 5 ≤ m.fl.totalblockcount)
    (hunused : ∀ g, m.fl.IsFree g → ¬ InUse m.mem (m.cr3 / 4096) g)
    (hnone : walk m.mem m.cr3 v = none) (hv : v % 4096 + 519 ≤ 4096) :
    ∃ p m' m'', m.mapPhyaddr v = some (p, m') ∧ m'.unmapPhyaddr v = some m'' ∧ Undone m m'' p := by
  have hway := way3_of_table hpresent h510 hf
  have hout := outsidePath_way4 h510
  have h0 : word m.mem f (p4Index v) = 0 := by
    have hleaf := walk_leaf_word hpresent h510 hf
    rw [hnone] at hleaf
    apply leaf_even hpresent h510 hf
    by_contra hodd
    rw [if_pos (by omega)] at hleaf
    exact absurd hleaf (by simp)
  obtain ⟨⟨p, fl'⟩, hget⟩ := FreeList.getPage_total hroom
  obtain ⟨b, bs, hb, rfl, hfree', hbs, hfm, hrc⟩ := hfree.getPage hget
  have hmem : b ∈ m.fl.blocks := by simp [hb]
  have hdiv : m.fl.frame b * 4096 / 4096 = m.fl.frame b := Nat.mul_div_cancel _ (by decide)
  have hnot := hunused (m.fl.frame b) ⟨b, hmem, rfl⟩
  have hg : ∀ l f', l <:+ way3 v → Way m.mem (m.cr3 / 4096) l f' → f' ≠ m.fl.frame b := by
    rintro l f' hl hf' rfl
    have hl' := hout.suffix (hl.trans (List.suffix_cons _ _))
    exact hnot ⟨l, hl', hf'.tableFrom hl'.2.1⟩
  -- mapping
  obtain ⟨mem', hmap, hkeep⟩ := Machine.mapPhyaddr_way hself hway h0 hv hget
    (by rw [hdiv]; exact hg)
  rw [hdiv] at hkeep
  have hlt : m.fl.frame b < 2 ^ 52 := hfree.frame_lt (hfree.lt b hmem)
  have hw : m.fl.frame b * 4096 + 7 < 2 ^ 64 := by omega
  have hfne : f ≠ m.fl.frame b := hg (way3 v) f List.suffix_rfl hway
  have hword : ∀ g j, g ≠ m.fl.frame b → word mem' g j =
      if g = f ∧ j = p4Index v then m.fl.frame b * 4096 + 7 else word m.mem g j := by
    intro g j hne
    rw [word_congr (hkeep g hne)]
    exact word_store hw
  have hcells : ∀ l f', Way m.mem (m.cr3 / 4096) l f' → l <:+ way3 v →
      Way mem' (m.cr3 / 4096) l f' := by
    intro l f' hl hsuf
    refine hl.congr fun j l' g hl' hg' hodd => ?_
    have hsuf' : l' <:+ way3 v := (List.suffix_cons j l').trans (hl'.trans hsuf)
    rw [hword g j (hg l' g hsuf' hg'), if_neg]
    rintro ⟨rfl, rfl⟩
    omega
  have hway' := hcells (way3 v) f hway List.suffix_rfl
  have hrne : m.cr3 / 4096 ≠ m.fl.frame b := hg [] _ List.nil_suffix rfl
  have hself' : SelfMap mem' (m.cr3 / 4096) := by
    refine hself.congr ((hword _ _ hrne).trans (if_neg ?_))
    rintro ⟨he, h510'⟩
    rw [← he, ← h510'] at h0
    have := hself.1
    omega
  have hentry : word mem' f (p4Index v) = m.fl.frame b * 4096 + 7 := by
    rw [hword f _ hfne, if_pos ⟨rfl, rfl⟩]
  have hediv : (m.fl.frame b * 4096 + 7) / 4096 = m.fl.frame b := entry_div (by decide)
  have hfr' : fl'.frame b = m.fl.frame b := FreeList.frame_congr hfm b
  have hidx : fl'.blockindex (m.fl.frame b * 4096 + 7) = some b :=
    FreeList.blockindex_eq (hfree.lt b hmem) (by rw [hediv, hfr'])
  have hcount : fl'.getReferenceCount (m.fl.frame b * 4096 + 7) = some 1 := by
    rw [FreeList.getReferenceCount, hidx, Option.map_some, hrc, Function.update_self]
  -- unmapping
  obtain ⟨mem'', b', hb', hkeep', -, hunmap⟩ := Machine.unmap_way (m := ⟨mem', m.cr3, fl'⟩) hself'
    hway' hentry (entry_odd (by decide)) hcount (by
      refine fun _ => ⟨hv, fun l f' hl hf' => ?_⟩
      obtain ⟨g, hg'⟩ := hway.suffix hl
      obtain rfl := hf'.unique (hcells l g hg' hl)
      rw [hediv]
      exact hg l f' hl hg')
  obtain rfl : b' = b := Option.some.inj (hb'.symm.trans hidx)
  rw [hediv] at hkeep'
  rw [if_pos rfl] at hunmap
  have hnb : b' ∉ fl'.blocks := by
    have hnodup := hfree.nodup
    rw [hb, List.nodup_cons] at hnodup
    rw [hbs]
    exact hnodup.1
  have hpush := hfree'.push hnb (hfree.lt b' hmem) (hfree.ne_zero hmem)
  have hwords : ∀ g j, g ≠ m.fl.frame b' →
      word (writeWord mem'' f (p4Index v) 0) g j = word m.mem g j := by
    intro g j hne
    have hstored : word (writeWord mem'' f (p4Index v) 0) g j =
        if g = f ∧ j = p4Index v then 0 else word mem'' g j := word_store (by decide)
    rw [hstored, word_congr (hkeep' g hne), hword g j hne]
    split_ifs with hcell
    · rw [hcell.1, hcell.2, h0]
    · rfl
  refine ⟨_, _, _, hmap, hunmap, ?_⟩
  constructor
  · rw [hdiv]
    exact hwords
  · exact fun q hq => walk_agree hnot hwords hq
  · rw [hpush.2, hbs, hb]
  · show _ = FreeList.frame fl' b' * 4096
    rw [hfr']
  · exact Function.update_self ..

end

/-- The five walks agree over any tables with the recursive slot, and mapping an unmapped page and
unmapping it again changes nothing but the page: `map_phyaddr` and `unmap_phyaddr` clear 519
bytes from `v` on, which must not go beyond the page. -/
theorem walks_agree (hself : SelfMap m.mem (m.cr3 / 4096)) (hpresent : Present m.mem (m.cr3 / 4096))
    (h510 : p1Index v ≠ 510) (hf : tableFrom m.mem (m.cr3 / 4096) (way3 v) = some f) :
    SameWord m v f ∧
      (FreeInv m.fl → 5 ≤ m.fl.totalblockcount →
        (∀ g, m.fl.IsFree g → ¬ InUse m.mem (m.cr3 / 4096) g) → walk m.mem m.cr3 v = none →
        v % 4096 + 519 ≤ 4096 →
        ∃ p m' m'', m.mapPhyaddr v = some (p, m') ∧ m'.unmapPhyaddr v = some m'' ∧
          walk m''.mem m''.cr3 v = none ∧ Undone m m'' p) := by
  refine ⟨sameWord hself hpresent h510 hf, ?_⟩
  intro hfree hroom hunused hnone hv
  obtain ⟨p, m', m'', hmap, hunmap, h⟩ := map_unmap hself hpresent h510 hf hfree hroom hunused hnone hv
  exact ⟨p, m', m'', hmap, hunmap, (h.walks v h510).trans hnone, h⟩

/-- Three tables on the way to page 0, whose leaf entry is `e`. -/
def threeTables (e : Nat) (fl : FreeList) : Machine :=
  ⟨wordsMem [(4, 0, e), (3, 0, 4 * 4096 + 7), (2, 0, 3 * 4096 + 7), (1, 0, 2 * 4096 + 7),
    (1, 510, 4096 + 7)], 4096, fl⟩

/-- The blocks 1 to 9, in the frames 11 to 19, are free. -/
def nineBlocks : FreeList := ⟨10 * 4096, fun b => if b < 9 then b + 1 else 0, fun _ => 0, 1, 8, 0, 0⟩

theorem nineBlocks_free : FreeInv nineBlocks ∧ nineBlocks.blocks = [1, 2, 3, 4, 5, 6, 7, 8, 9] := by
  have h : Threaded listSize nineBlocks ∧ nineBlocks.blocks = [1, 2, 3, 4, 5, 6, 7, 8, 9] := by
    refine Threaded.of_chain (by decide) (by decide) (by decide) ?_ (by decide) (by decide)
      (by decide) (fun _ _ => rfl)
    simp [Chain, nineBlocks]
  exact ⟨⟨h.1, by decide⟩, h.2⟩

section

variable {e : Nat} {fl : FreeList} (he : e < 2 ^ 64)

include he

theorem word_threeTables : word (threeTables e fl).mem f i =
    if f = 4 ∧ i = 0 then e else if f = 3 ∧ i = 0 then 4 * 4096 + 7
    else if f = 2 ∧ i = 0 then 3 * 4096 + 7 else if f = 1 ∧ i = 0 then 2 * 4096 + 7
    else if f = 1 ∧ i = 510 then 4096 + 7 else 0 := by
  rw [threeTables, word_wordsMem_cons he, word_wordsMem_cons (by decide),
    word_wordsMem_cons (by decide), word_wordsMem_cons (by decide),
    word_wordsMem_cons (by decide), word_wordsMem_nil]

theorem selfMap_threeTables : SelfMap (threeTables e fl).mem 1 := by
  rw [SelfMap, word_threeTables he]
  simp

theorem present_threeTables (hodd : e = 0 ∨ e % 2 = 1) : Present (threeTables e fl).mem 1 := by
  refine Present.of_words fun f i => ?_
  rw [word_threeTables he]
  split_ifs <;> omega

theorem way_threeTables (hv : way3 v = [0, 0, 0]) : Way (threeTables e fl).mem 1 (way3 v) 4 := by
  rw [hv]
  refine ⟨3, ⟨2, ⟨1, rfl, ?_⟩, ?_⟩, ?_⟩
  · rw [word_threeTables he]
    simp
  · rw [word_threeTables he]
    simp
  · rw [word_threeTables he]
    simp

theorem table_threeTables (hv : way3 v = [0, 0, 0]) :
    tableFrom (threeTables e fl).mem 1 (way3 v) = some 4 := by
  refine (way_threeTables he hv).tableFrom ?_
  rw [hv]
  simp

end

theorem walk_threeTables (hv : way4 v = [0, 0, 0, 0]) (fl : FreeList) :
    walk (threeTables 0 fl).mem 4096 v = none := by
  rw [walk_eq_entries, hv]
  simp [entries, word_threeTables]

theorem unused_threeTables (hg : nineBlocks.IsFree g) :
    ¬ InUse (threeTables 0 nineBlocks).mem 1 g := by
  rintro ⟨l, -, hl⟩
  obtain ⟨b, hb, rfl⟩ := hg
  have hle : nineBlocks.frame b ≤ 4 := by
    refine le_of_tableFrom (by decide) (fun f i => ?_) hl
    rw [word_threeTables (by decide)]
    split_ifs <;> omega
  rw [nineBlocks_free.2] at hb
  simp only [FreeList.frame, nineBlocks] at hle
  omega

/-- Page 0 mapped and unmapped below three empty tables. -/
theorem walks_agree_empty : ∃ p m' m'', (threeTables 0 nineBlocks).mapPhyaddr 0 = some (p, m') ∧
    m'.unmapPhyaddr 0 = some m'' ∧ walk m''.mem m''.cr3 0 = none ∧
    Undone (threeTables 0 nineBlocks) m'' p :=
  (walks_agree (m := threeTables 0 nineBlocks) (v := 0) (selfMap_threeTables (by decide))
    (present_threeTables (by decide) (.inl rfl)) (by decide)
    (table_threeTables (by decide) (by decide))).2 nineBlocks_free.1 (by decide)
    (fun _ => unused_threeTables) (walk_threeTables (by decide) _) (by decide)

theorem zeroWords_none {base stride k : Nat} (h : m.zeroWords base stride n = none) :
    m.zeroWords base stride (n + k) = none := by
  induction k with
  | zero => exact h
  | succ k ih => rw [← Nat.add_assoc, Machine.zeroWords_succ, ih, Option.bind_none]

/-- Page 0 leads to its own page directory. -/
def directoryPage : Machine := threeTables (3 * 4096 + 7) ⟨4096, id, fun _ => 1, 0, 0, 0, 0⟩

/-- Clearing the page takes its mapping away. -/
theorem unmapPhyaddr_directory : directoryPage.unmapPhyaddr 0 = none := by
  obtain ⟨m, hm⟩ : ∃ m, directoryPage = m := ⟨_, rfl⟩
  have hword : ∀ f i, word m.mem f i = _ := fun f i => by
    rw [← hm, directoryPage, word_threeTables (by decide)]
  have hcr3 : m.cr3 = 4096 := by rw [← hm]; rfl
  have hs : SelfMap m.mem (m.cr3 / 4096) := by
    rw [← hm]
    exact selfMap_threeTables (by decide)
  have hway : Way m.mem (m.cr3 / 4096) (way3 0) 4 := by
    rw [← hm]
    exact way_threeTables (by decide) (by decide)
  have he : word m.mem 4 (p4Index 0) = 3 * 4096 + 7 := by
    rw [hword]
    decide
  have hcount : m.fl.getReferenceCount (3 * 4096 + 7) = some 1 := by
    rw [← hm]
    decide
  have hfr : m.frameOf 0 = some 3 := by
    refine Machine.frameOf_way ?_
    refine ⟨4, hway, ?_, ?_⟩ <;> rw [he]
  -- the first word of the page is the entry of the page directory
  obtain ⟨mem₁, hmem₁⟩ : ∃ mem₁, Function.update m.mem 3 (wr64 (m.mem 3) (8 * 0) 0) = mem₁ := ⟨_, rfl⟩
  have hword₁ : ∀ g j, word mem₁ g j = if g = 3 ∧ j = 0 then 0 else word m.mem g j := by
    intro g j
    rw [← hmem₁]
    exact word_store (by decide)
  have hfirst : m.zeroWords 0 1 1 = some { m with mem := mem₁ } := by
    rw [Machine.zeroWords_succ, Machine.zeroWords_zero, Option.bind_some, Machine.store64, hfr,
      Option.bind_some, if_pos (by decide), ← hmem₁]
  have h1 : word mem₁ 1 0 = 2 * 4096 + 7 := by simp [hword₁, hword]
  have h2 : word mem₁ 2 0 = 3 * 4096 + 7 := by simp [hword₁, hword]
  have h3 : word mem₁ 3 0 = 0 := by simp [hword₁]
  have hsecond : m.zeroWords 0 1 2 = none := by
    have hwalk : walk mem₁ m.cr3 (0 + 1 * 1) = none := by
      rw [walk_eq_entries, hcr3, show (way4 (0 + 1 * 1)).reverse = [0, 0, 0, 0] by decide]
      simp [entries, h1, h2, h3]
    rw [Machine.zeroWords_succ, hfirst, Option.bind_some, Machine.store64, Machine.frameOf, hwalk]
    rfl
  rw [hm, Machine.unmapPhyaddr_way hs hway, Machine.unmapLeaf, Machine.load64_way hs hway, he]
  simp only [Option.bind_eq_bind, Option.bind_some, if_neg (show ¬ (3 * 4096 + 7) &&& 1 = 0 by decide),
    hcount, if_true]
  rw [zeroWords_none (n := 2) (k := 510) hsecond]
  rfl

/-- The clearing loop of `map_phyaddr` at the last byte of a page runs into the next one. -/
theorem mapPhyaddr_lastByte : (threeTables 0 nineBlocks).mapPhyaddr 0xFFF = none := by
  obtain ⟨m, hm⟩ : ∃ m, threeTables 0 nineBlocks = m := ⟨_, rfl⟩
  have hs : SelfMap m.mem (m.cr3 / 4096) := by
    rw [← hm]
    exact selfMap_threeTables (by decide)
  have hway : Way m.mem (m.cr3 / 4096) (way3 0xFFF) 4 := by
    rw [← hm]
    exact way_threeTables (by decide) (by decide)
  have h0 : word m.mem 4 (p4Index 0xFFF) = 0 := by
    rw [← hm, word_threeTables (by decide)]
    decide
  obtain ⟨r, hr⟩ : ∃ r, m.fl.getPage = some r := by
    rw [← hm]
    exact FreeList.getPage_total (by decide)
  have hzero : ∀ m' : Machine, m'.zeroWords 0xFFF 1 512 = none := by
    intro m'
    refine zeroWords_none (n := 1) (k := 511) ?_
    rw [Machine.zeroWords_succ, Machine.zeroWords_zero, Option.bind_some, Machine.store64]
    cases m'.frameOf (0xFFF + 1 * 0) with
    | none => rfl
    | some f => rfl
  have hstore : ∀ w, (Machine.mk m.mem m.cr3 r.2).store64 (Machine.leafAddr 0xFFF) w =
      some ⟨writeWord m.mem 4 (p4Index 0xFFF) w, m.cr3, r.2⟩ := fun w => Machine.store64_way hs hway
  rw [hm, Machine.mapPhyaddr, Machine.ensureTables_way hs hway, Option.bind_eq_bind,
    Option.bind_some, Machine.mapLeaf, Machine.load64_way hs hway, h0]
  simp only [Option.bind_eq_bind, Option.bind_some, Nat.zero_and, if_true, Machine.getPage, hr,
    Option.map_some, hstore, Option.pure_def, hzero, Option.bind_none]

/-- Without the condition on the page of `v`, `unmap_phyaddr` need not get to the leaf entry, and
without that on the offset of `v`, `map_phyaddr` need not get through. -/
theorem walks_agree_faults :
    (¬ ∀ (m : Machine) (v f c : Nat), SelfMap m.mem (m.cr3 / 4096) → Present m.mem (m.cr3 / 4096) →
      p1Index v ≠ 510 → tableFrom m.mem (m.cr3 / 4096) (way3 v) = some f → v % 4096 = 0 →
      word m.mem f (p4Index v) % 2 = 1 →
      m.fl.getReferenceCount (word m.mem f (p4Index v)) = some c →
      ∃ m', m.unmapPhyaddr v = some m' ∧ word m'.mem f (p4Index v) = 0) ∧
    ¬ ∀ (m : Machine) (v f : Nat), SelfMap m.mem (m.cr3 / 4096) → Present m.mem (m.cr3 / 4096) →
      p1Index v ≠ 510 → tableFrom m.mem (m.cr3 / 4096) (way3 v) = some f → FreeInv m.fl →
      5 ≤ m.fl.totalblockcount → (∀ g, m.fl.IsFree g → ¬ InUse m.mem (m.cr3 / 4096) g) →
      walk m.mem m.cr3 v = none →
      ∃ p m' m'', m.mapPhyaddr v = some (p, m') ∧ m'.unmapPhyaddr v = some m'' := by
  constructor
  · intro h
    have hodd : (3 * 4096 + 7) % 2 = 1 := by decide
    have hword : word directoryPage.mem 4 (p4Index 0) = 3 * 4096 + 7 := by
      rw [directoryPage, word_threeTables (by decide)]
      decide
    have hself : SelfMap directoryPage.mem 1 := selfMap_threeTables (by decide)
    have hpresent : Present directoryPage.mem 1 := present_threeTables (by decide) (.inr hodd)
    have htable : tableFrom directoryPage.mem 1 (way3 0) = some 4 :=
      table_threeTables (by decide) (by decide)
    have hdir := h directoryPage 0 4 1 hself hpresent (by decide) htable (by decide)
      (hword.symm ▸ hodd) (by rw [hword]; decide)
    rw [unmapPhyaddr_directory] at hdir
    simp at hdir
  · intro h
    have hlast := h (threeTables 0 nineBlocks) 0xFFF 4
      (selfMap_threeTables (by decide)) (present_threeTables (by decide) (.inl rfl))
      (by decide) (table_threeTables (by decide) (by decide)) nineBlocks_free.1 (by decide)
      (fun _ => unused_threeTables) (walk_threeTables (by decide) _)
    rw [mapPhyaddr_lastByte] at hlast
    simp at hlast

end Sbunix
