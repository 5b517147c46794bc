import Sbunix.Sys.Proofs.LeafOps

/-!
# Copy-on-write entries

`set_Cow`, which lets a second process share a page, and `cow`, which gives a process
its own copy again.
-/

namespace Sbunix

variable {k : Nat} {m m' : Machine} {res : Page → Option Nat} {s : Space} {v w b g : Nat}

/-- `m'` is `m` after the blocks `P` have become page tables and the page `p` has got the
entry `w`. -/
structure Shared (k : Nat) (m m' : Machine) (p : Page) (w : Nat) (P : List Nat) : Prop where
  cr3 : m'.cr3 = m.cr3
  blocks : m.fl.blocks = P ++ m'.fl.blocks
  freeMemory : m'.fl.freeMemory = m.fl.freeMemory
  refs : ∀ b, b ∉ P → m'.fl.refCount b = m.fl.refCount b
  leaf : leaf m'.mem k = Function.update (leaf m.mem k) p w
  isTable : ∀ f, IsTable m.mem k f → IsTable m'.mem k f
  fresh : ∀ f, IsTable m'.mem k f → IsTable m.mem k f ∨ ∃ b ∈ P, f = m.fl.frame b
  frames : ∀ f, ¬ IsTable m'.mem k f → m'.mem f = m.mem f

/-- `m'` is `m` after the page `p` has been moved from block `b` to block `n`, which is not
filled yet. -/
structure Moved (k : Nat) (m m' : Machine) (p : Page) (b n : Nat) : Prop where
  cr3 : m'.cr3 = m.cr3
  blocks : m.fl.blocks = n :: m'.fl.blocks
  freeMemory : m'.fl.freeMemory = m.fl.freeMemory
  refCount : m'.fl.refCount =
    Function.update (Function.update m.fl.refCount b (m.fl.refCount b - 1)) n 1
  tables : ∀ s l, ValidPath s l → tableAt m'.mem k s l = tableAt m.mem k s l
  leaf : leaf m'.mem k = Function.update (leaf m.mem k) p (m.fl.frame n * 4096 + 7)
  frames : ∀ f, ¬ IsTable m.mem k f → m'.mem f = m.mem f
  pages : PageInv k m' noRes
  root : RootInv k m'

/-- `m'` is `m` after the page `p` has been copied from block `b` to block `n`. -/
structure Copied (k : Nat) (m m' : Machine) (p : Page) (b n : Nat) : Prop where
  cr3 : m'.cr3 = m.cr3
  blocks : m.fl.blocks = n :: m'.fl.blocks
  freeMemory : m'.fl.freeMemory = m.fl.freeMemory
  refCount : m'.fl.refCount =
    Function.update (Function.update m.fl.refCount b (m.fl.refCount b - 1)) n 1
  tables : ∀ s l, ValidPath s l → tableAt m'.mem k s l = tableAt m.mem k s l
  leaf : leaf m'.mem k = Function.update (leaf m.mem k) p (m.fl.frame n * 4096 + 7)
  frames : ∀ f, ¬ IsTable m.mem k f → f ≠ m.fl.frame n → m'.mem f = m.mem f
  page : ∀ x < 4096, m'.mem (m.fl.frame n) x = m.mem (m.fl.frame b) x

namespace Machine

/-- `set_Cow` whatever the leaf entries are; a PML4 window must keep its frame. -/
theorem setCow_forest (hinv : ForestInv k m) (hr : RootInv k m) (hs : InSpace k m v s)
    (hw : w < 2 ^ 64)
    (hwin : Window (s, pageOf v) → leaf m.mem k (s, pageOf v) ≠ 0 ∧
      leaf m.mem k (s, pageOf v) / 4096 = w / 4096) :
    Attempt (m.setCow v w) (7 ≤ m.fl.totalblockcount) fun m' =>
      ∃ P, Shared k m m' (s, pageOf v) (w / 4096 * 4096 + 5) P ∧ ForestInv k m' ∧ RootInv k m' ∧
        P.length = missing m.mem k v s := by
  rw [setCow, Option.bind_eq_bind]
  refine ((ensureTables_forest hinv hr hs).bind (N := fun _ => True) ?_).consequence
    (fun h7 => ⟨h7, fun _ _ => trivial⟩) fun _ => id
  rintro m₁ ⟨P, hg, hinv₁, hr₁, hlen, f4, h4⟩
  have hwin₁ : Window (s, pageOf v) →
      SameFrame (w / 4096 * 4096 + 5) (leaf m₁.mem k (s, pageOf v)) := by
    intro h
    obtain ⟨h0, hdiv⟩ := hwin h
    rw [hg.leaf]
    exact ⟨⟨fun hz => by omega, fun hz => absurd hz h0⟩, by rw [hdiv]; exact entry_div (by decide)⟩
  obtain ⟨m₂, hstore, hls⟩ := store64_leafAddr_spec (w := w / 4096 * 4096 + 5) hinv₁.tables hr₁
    (hg.inSpace hs) h4 hwin₁ (by omega)
  rw [and_or_flags hw rfl (by decide), hstore]
  have hist : ∀ f, IsTable m₂.mem k f ↔ IsTable m₁.mem k f := fun f => isTable_congr hls.tables
  refine .some ⟨P, ⟨?_, ?_, ?_, ?_, ?_, ?_, ?_, ?_⟩, ⟨?_, hls.inv⟩, hls.root, hlen⟩
  · rw [hls.cr3, hg.cr3]
  · rw [hls.fl, hg.blocks]
  · rw [hls.fl, hg.freeMemory]
  · rw [hls.fl]
    exact hg.refs
  · rw [hls.leaf, hg.leaf]
  · exact fun f hf => (hist f).mpr (hg.isTable hf)
  · exact fun f hf => hg.fresh f ((hist f).mp hf)
  · intro f hf
    have hf₁ : ¬ IsTable m₁.mem k f := fun ht => hf ((hist f).mpr ht)
    rw [hls.frames f hf₁, hg.frames f hf₁]
  · rw [hls.fl]
    exact hinv₁.free

/-- `set_Cow` for a page that a frame has been set aside for, or that has it already. -/
theorem setCow_spec {q : Page} (hinv : PageInv k m res) (hr : RootInv k m)
    (hs : InSpace k m v s) (hu : UserPage (s, pageOf v)) (hw : w < 2 ^ 64)
    (hclaim : claims (leaf m.mem k) res (s, pageOf v) = some (w / 4096))
    (hu' : UserPage q) (hq : q.2 = pageOf v) (hp' : leaf m.mem k q ≠ 0)
    (heq : leaf m.mem k q / 4096 = w / 4096) :
    Attempt (m.setCow v w) (7 ≤ m.fl.totalblockcount) fun m' =>
      ∃ P, Shared k m m' (s, pageOf v) (w / 4096 * 4096 + 5) P ∧ PageInv k m' res ∧
        RootInv k m' := by
  refine (setCow_forest hinv.forest hr hs hw fun h => absurd h hu.not_window).consequence id ?_
  rintro m' ⟨P, hsh, hinv', hr', -⟩
  have hdiv : (w / 4096 * 4096 + 5) / 4096 = w / 4096 := entry_div (by decide)
  have hleaves := LeafInv.alloc hinv hsh.blocks hsh.freeMemory hsh.refs hsh.fresh
  refine ⟨P, hsh, ⟨hinv'.free, hinv'.tables, ?_⟩, hr'⟩
  rw [hsh.leaf]
  refine hleaves.share (by omega) ?_ hq hp' ?_ hu'.managed hu'.not_window
  · rw [hclaim, hdiv]
  · rw [heq, hdiv]

/-! ## Byte loops over a page -/

theorem mapM_some {α β : Type} {f : α → Option β} {g : α → β} {xs : List α}
    (h : ∀ x ∈ xs, f x = some (g x)) : xs.mapM f = some (xs.map g) := by
  induction xs with
  | nil => rfl
  | cons x xs ih =>
      have htail := ih fun y hy => h y (List.mem_cons_of_mem x hy)
      rw [List.mapM_cons, h x List.mem_cons_self, htail]
      rfl

theorem loadPage_eq (hfr : ∀ x < 4096, m.frameOf (v + x) = some g) (hv : v % 4096 = 0) :
    m.loadPage v = some ((List.range 4096).map (m.mem g)) := by
  refine mapM_some fun x hx => ?_
  have hlt := List.mem_range.mp hx
  rw [load8, hfr x hlt, Option.map_some, show (v + x) % 4096 = x by omega]

/-- The bytes of a frame with a buffer laid over them from offset `n` on. -/
def overlay (pg : Nat → Nat) (n : Nat) (buf : List Nat) : Nat → Nat :=
  fun x => if n ≤ x then (buf[x - n]?).getD (pg x) else pg x

theorem overlay_nil (pg : Nat → Nat) (n : Nat) : overlay pg n [] = pg := by
  funext x
  simp [overlay]

theorem overlay_cons (pg : Nat → Nat) (n b : Nat) (buf : List Nat) :
    overlay (Function.update pg n b) (n + 1) buf = overlay pg n (b :: buf) := by
  funext x
  unfold overlay
  by_cases hx : x = n
  · subst hx
    simp
  · rw [Function.update_of_ne hx]
    by_cases hlt : n ≤ x
    · rw [if_pos hlt, if_pos (by omega), show x - n = x - (n + 1) + 1 by omega,
        List.getElem?_cons_succ]
    · rw [if_neg hlt, if_neg (by omega)]

theorem storeBytes_eq {buf : List Nat} {n : Nat} (hv : v % 4096 = 0) (hn : n + buf.length ≤ 4096)
    (hfr : ∀ mem', (∀ f, f ≠ g → mem' f = m.mem f) → ∀ x < 4096,
      ({ m with mem := mem' } : Machine).frameOf (v + x) = some g) :
    (buf.zipIdx n).foldlM (fun (m : Machine) b => m.store8 (v + b.2) b.1) m =
      some { m with mem := Function.update m.mem g (overlay (m.mem g) n buf) } := by
  induction buf generalizing m n with
  | nil =>
      rw [overlay_nil, Function.update_eq_self]
      rfl
  | cons b buf ih =>
      rw [List.length_cons] at hn
      have hoff : (v + n) % 4096 = n := by omega
      have hfirst : m.store8 (v + n) b =
          some { m with mem := Function.update m.mem g (Function.update (m.mem g) n b) } := by
        rw [store8, hfr m.mem (fun _ _ => rfl) n (by omega), Option.map_some, hoff]
      rw [List.zipIdx_cons, List.foldlM_cons, hfirst, Option.bind_eq_bind, Option.bind_some,
        ih (by omega)]
      · simp only [Function.update_self, Function.update_idem, overlay_cons]
      · intro mem' hmem' x hx
        refine hfr mem' (fun f hf => ?_) x hx
        rw [hmem' f hf]
        exact Function.update_of_ne hf _ _

theorem overlay_page {pg old : Nat → Nat} {x : Nat} (hx : x < 4096) :
    overlay pg 0 ((List.range 4096).map old) x = old x := by
  have hget : ((List.range 4096).map old)[x]? = some (old x) := by
    rw [List.getElem?_map, List.getElem?_range hx]
    rfl
  rw [overlay, if_pos (Nat.zero_le x), Nat.sub_zero, hget]
  rfl

/-- `cow` up to the new entry. -/
def cowEntry (m : Machine) (v : Nat) : Option Machine := do
  let oldPage ← m.load64 (leafAddr v)
  let m ←
    if oldPage ≠ 5 ∧ oldPage ≠ 0 then do
      let fl ← m.fl.decrementReferenceCount oldPage
      pure { m with fl := fl }
    else pure m
  let (padd, m) ← m.getPage
  m.store64 (leafAddr v) ((padd &&& 0xFFFFFFFFFFFFF000) ||| 7)

theorem cow_eq : m.cow v =
    (m.loadPage (v &&& 0xFFFFFFFFFFFFF000)).bind fun cowPage =>
      (m.cowEntry v).bind fun m => m.storePage (v &&& 0xFFFFFFFFFFFFF000) cowPage := by
  simp only [cow, cowEntry, Option.bind_eq_bind, Option.bind_assoc]
  refine congrArg _ (funext fun cowPage => congrArg _ (funext fun oldPage => ?_))
  split_ifs <;> simp [Option.bind_assoc]

section

variable (hinv : PageInv k m noRes) (hr : RootInv k m) (hs : InSpace k m v s)
  (hu : UserPage (s, pageOf v)) (h0 : leaf m.mem k (s, pageOf v) ≠ 0) (hlt : b < listSize)
  (hb : leaf m.mem k (s, pageOf v) / 4096 = m.fl.frame b)

include hinv hr hs hu h0 hlt hb

theorem cowEntry_spec : Attempt (m.cowEntry v) (5 ≤ m.fl.totalblockcount) fun m' =>
    ∃ n, Moved k m m' (s, pageOf v) b n := by
  have hpos := hinv.leaves.count_pos hlt h0 hb
  have hnb : b ∉ m.fl.blocks := fun hmem => mapped_not_free hinv h0 hb ⟨b, hmem, rfl⟩
  obtain ⟨-, f4, h4⟩ := exists_table h0
  rw [← path3_eq] at h4
  -- giving up the old block
  have hidx : m.fl.blockindex (leaf m.mem k (s, pageOf v)) = some b :=
    FreeList.blockindex_eq hlt hb
  have hne5 : leaf m.mem k (s, pageOf v) ≠ 5 := by
    intro h5
    have hlow := hinv.free.low
    rw [h5] at hb
    simp only [FreeList.frame] at hb
    omega
  obtain ⟨fl₁, hfl₁⟩ : ∃ fl₁, { m.fl with
    refCount := Function.update m.fl.refCount b (m.fl.refCount b - 1) } = fl₁ := ⟨_, rfl⟩
  obtain ⟨hfree₁, hblocks₁⟩ := hinv.free.setCount (c := m.fl.refCount b - 1) hnb
  have hleaf₁ := hinv.leaves.unmap h0 hb (show FreeList.freeMemory { m.fl with
    refCount := Function.update m.fl.refCount b (m.fl.refCount b - 1) } = _ from rfl) rfl
  rw [hfl₁] at hfree₁ hblocks₁ hleaf₁
  have hfm₁ : fl₁.freeMemory = m.fl.freeMemory := by rw [← hfl₁]
  have hrc₁ : fl₁.refCount = Function.update m.fl.refCount b (m.fl.refCount b - 1) := by
    rw [← hfl₁]
  have htot₁ : fl₁.totalblockcount = m.fl.totalblockcount := by rw [← hfl₁]
  have hfr₁ : ∀ x, fl₁.frame x = m.fl.frame x := FreeList.frame_congr hfm₁
  rw [cowEntry, load64_leafAddr hinv.tables hr hs h4]
  simp only [Option.bind_eq_bind, Option.bind_some, Option.pure_def,
    FreeList.decrementReferenceCount, hidx, Option.map_some,
    if_pos (show leaf m.mem k (s, pageOf v) ≠ 5 ∧ _ from ⟨hne5, h0⟩),
    if_neg (show ¬ m.fl.refCount b < 1 by omega), Machine.getPage, hfl₁]
  cases hg : fl₁.getPage with
  | none =>
      refine ⟨fun hroom => ?_, fun r h => by simp at h⟩
      obtain ⟨r, hr⟩ := FreeList.getPage_total (htot₁.symm ▸ hroom)
      exact absurd (hg.symm.trans hr) (by simp)
  | some r =>
      obtain ⟨q, fl₂⟩ := r
      obtain ⟨n, bs, hn, rfl, hfree₂, hbs, hfm, hrc⟩ := hfree₁.getPage hg
      have hnmem : n ∈ m.fl.blocks := by
        rw [← hblocks₁, hn]
        exact List.mem_cons_self
      have hnfree : m.fl.IsFree (m.fl.frame n) := ⟨n, hnmem, rfl⟩
      have hnt : ¬ IsTable m.mem k (m.fl.frame n) := fun ht => hinv.tables.notFree _ ht hnfree
      have hlt52 : m.fl.frame n < 2 ^ 52 := hinv.free.frame_lt (hinv.free.lt n hnmem)
      have hfrn : fl₂.frame n = m.fl.frame n := FreeList.frame_congr (hfm.trans hfm₁) n
      have htail : ∀ f, fl₂.IsFree f → m.fl.IsFree f := by
        intro f hf
        obtain ⟨⟨x, hx, rfl⟩, -⟩ := hfree₁.isFree_tail hn hbs hfm hf
        rw [hblocks₁] at hx
        exact ⟨x, hx, hfr₁ x⟩
      have hentry : (m.fl.frame n * 4096 &&& 0xFFFFFFFFFFFFF000) ||| 7 = m.fl.frame n * 4096 + 7 :=
        and_or_flags (by omega) (by omega) (by decide)
      -- the new entry
      have hinv₂ : TableInv k m.mem fl₂ :=
        hinv.tables.refree fun f hf hfree => hinv.tables.notFree f hf (htail f hfree)
      have hr₂ : RootInv k ({ m with fl := fl₂ } : Machine) :=
        hr.congr rfl (fun _ _ => rfl) (fun _ _ => rfl) fun hf => hr.notFree (htail _ hf)
      have hs₂ : InSpace k ({ m with fl := fl₂ } : Machine) v s :=
        hs.congr rfl fun _ _ _ => rfl
      obtain ⟨m₃, hstore, hls⟩ := store64_leafAddr_spec (w := m.fl.frame n * 4096 + 7)
        (m := { m with fl := fl₂ }) hinv₂ hr₂ hs₂ h4 (fun h => absurd h hu.not_window) (by omega)
      have hfl : m₃.fl = fl₂ := hls.fl
      simp only [Option.map_some, Option.bind_some, hfr₁, hentry, hstore]
      refine .some ⟨n, hls.cr3, ?_, ?_, ?_, hls.tables, hls.leaf, hls.frames,
        ⟨?_, hls.inv, ?_⟩, hls.root⟩
      · rw [hfl, hbs, ← hn, hblocks₁]
      · rw [hfl, hfm, hfm₁]
      · rw [hfl, hrc, hrc₁]
      · rw [hfl]
        exact hfree₂
      · have hpop := hleaf₁.pop hfree₁ (b := n) (by rw [hn]; exact List.mem_cons_self) hfm hrc
        have hmap := hpop.map (b := n) (p := (s, pageOf v)) (w := m.fl.frame n * 4096 + 7)
          (hinv.free.lt n hnmem) (hinv.free.ne_zero hnmem) (by rw [hrc, Function.update_self])
          (fun p hp he => by
            by_cases hpc : p = (s, pageOf v)
            · rw [hpc, Function.update_self] at hp
              exact hp rfl
            · rw [Function.update_of_ne hpc] at hp he
              refine hinv.leaves.not_free hinv.free hp ?_
              rw [he, hfrn]
              exact hnfree)
          (fun _ => by rw [hfrn]; exact hnt) (by rw [hfrn]; exact entry_div (by decide))
          (entry_mod (by decide))
        rw [Function.update_idem] at hmap
        rw [hfl, hls.leaf]
        exact hmap.retable fun f hf => .inl ((isTable_congr hls.tables).mp hf)

end

/-- `cow` at a mapped user page. -/
theorem cow_spec (hinv : PageInv k m noRes) (hr : RootInv k m)
    (hs : InSpace k m v s) (hu : UserPage (s, pageOf v)) (hv : v < 2 ^ 64)
    (h0 : leaf m.mem k (s, pageOf v) ≠ 0) (hlt : b < listSize)
    (hb : leaf m.mem k (s, pageOf v) / 4096 = m.fl.frame b) :
    Attempt (m.cow v) (5 ≤ m.fl.totalblockcount) fun m' =>
      ∃ n, Copied k m m' (s, pageOf v) b n ∧ PageInv k m' noRes ∧ RootInv k m' := by
  have hnt := mapped_not_table hinv hu h0 hb
  -- the addresses of the page
  have hmask : v &&& 0xFFFFFFFFFFFFF000 = v / 4096 * 4096 := and_pageMask hv
  have hal : v / 4096 * 4096 % 4096 = 0 := by omega
  have hoff : v % 4096 < 4096 := Nat.mod_lt _ (by decide)
  have hv' : v / 4096 * 4096 + v % 4096 = v := by omega
  have hpage : pageOf (v / 4096 * 4096) = pageOf v := by
    rw [← pageOf_add hal hoff, hv']
  have hs₀ : InSpace k m (v / 4096 * 4096) s := InSpace.of_add hal hoff (hv'.symm ▸ hs)
  have hodd : leaf m.mem k (s, pageOf v) % 2 = 1 := hinv.leaves.odd h0
  have hfr : ∀ x < 4096, m.frameOf (v / 4096 * 4096 + x) = some (m.fl.frame b) := by
    intro x hx
    rw [frameOf_leaf hinv.tables hr (hs₀.add hal hx)] <;> rw [pageOf_add hal hx, hpage]
    · rw [hb]
    · exact hodd
  rw [cow_eq, hmask, loadPage_eq hfr hal, Option.bind_some]
  refine ((cowEntry_spec hinv hr hs hu h0 hlt hb).bind (N := fun _ => True) ?_).consequence
    (fun h => ⟨h, fun _ _ => trivial⟩) fun _ => id
  rintro m₃ ⟨n, hmv⟩
  have hnmem : n ∈ m.fl.blocks := by simp [hmv.blocks]
  have hnfree : m.fl.IsFree (m.fl.frame n) := ⟨n, hnmem, rfl⟩
  have hnt' : ¬ IsTable m.mem k (m.fl.frame n) := fun ht => hinv.tables.notFree _ ht hnfree
  have hnr' : m.fl.frame n ≠ m.cr3 / 4096 := fun he => hr.notFree (he ▸ hnfree)
  have hist : ∀ f, IsTable m₃.mem k f ↔ IsTable m.mem k f := fun f => isTable_congr hmv.tables
  have hs₃ : InSpace k m₃ (v / 4096 * 4096) s := hs₀.congr hmv.cr3 hmv.tables
  have hleaf₃ : leaf m₃.mem k (s, pageOf v) = m.fl.frame n * 4096 + 7 := by
    rw [hmv.leaf, Function.update_self]
  rw [storePage, storeBytes_eq (g := m.fl.frame n) hal (by simp)]
  · have hagree : ∀ f, IsTable m₃.mem k f → Function.update m₃.mem (m.fl.frame n)
        (overlay (m₃.mem (m.fl.frame n)) 0 ((List.range 4096).map (m.mem (m.fl.frame b)))) f =
          m₃.mem f := by
      intro f hf
      refine Function.update_of_ne ?_ _ _
      rintro rfl
      exact hnt' ((hist _).mp hf)
    obtain ⟨htab, hleaf⟩ := tables_of_agree hagree
    refine .some ⟨n, ⟨hmv.cr3, hmv.blocks, hmv.freeMemory, hmv.refCount,
      fun s l hl => (htab s l hl).trans (hmv.tables s l hl), hleaf.trans hmv.leaf, ?_, ?_⟩,
      ⟨hmv.pages.free, hmv.pages.tables.agree hagree, ?_⟩, ?_⟩
    · intro f hf hne
      exact (Function.update_of_ne hne _ _).trans (hmv.frames f hf)
    · intro x hx
      show Function.update m₃.mem (m.fl.frame n) _ (m.fl.frame n) x = _
      rw [Function.update_self, overlay_page hx]
    · rw [hleaf]
      exact hmv.pages.leaves.retable fun f hf => .inl ((isTable_congr htab).mp hf)
    · refine hmv.root.congr rfl (fun j _ => ?_) (htab none) hmv.root.notFree
      refine word_congr (Function.update_of_ne ?_ _ _)
      rw [hmv.cr3]
      exact hnr'.symm
  · intro mem' hmem' x hx
    obtain ⟨-, f4', h4'⟩ := exists_table (show leaf m₃.mem k (s, pageOf v) ≠ 0 by omega)
    have hcell := leaf_of_table hs.validPage h4'
    rw [hleaf₃] at hcell
    have hne : f4' ≠ m.fl.frame n := by
      rintro rfl
      exact hnt' ((hist _).mp ⟨_, _, validPath_pagePath hs.validPage, h4'⟩)
    have hpath4 : path3 (v / 4096 * 4096 + x) s = pagePath s (pageOf v) := by
      rw [path3_add hal hx, path3_eq, hpage]
    have hidx4 : p4Index (v / 4096 * 4096 + x) = pageOf v % 512 := by
      rw [(pIndex_add hal hx).2.2.2, pIndex_pageOf.2.2.2, hpage]
    have hentry' : word mem' f4' (p4Index (v / 4096 * 4096 + x)) = m.fl.frame n * 4096 + 7 := by
      rw [word_congr (hmem' f4' hne), hidx4, ← hcell]
    have hfp := frameOf_path hmv.pages.tables hmv.root (hs₃.add hal hx) mem' m₃.fl (m.fl.frame n)
      (hpath4.symm ▸ h4')
      (fun l hl hf => hnt' ((hist _).mp ⟨_, l, hl, hf⟩))
      (by rw [hmv.cr3]; exact hnr') (fun f j hf _ => word_congr (hmem' f hf))
      (by rw [hentry']; exact entry_odd (by decide))
    rw [hentry'] at hfp
    exact hfp.trans (congrArg some (entry_div (by decide)))

end Machine

end Sbunix
