import Sbunix.Sys.Proofs.OctToDec
import Sbunix.Sys.TarWalk

/-!
# Where the header loops go

A size that is decoded to `size` leads `(size + 511) / 512 + 1` records on.  That is forward
exactly for sizes above -512, and to the next header exactly for sizes below `0o2147500000`.
-/

namespace Sbunix

variable {t : Tarfs} {a : Archive} {e : ArchiveEntry} {s : InodeTree} {es : List ArchiveEntry}
  {fname : List UInt8} {found : PosixHeader → Bool} {h : Int} {i k fuel pad : Nat}

theorem Tarfs.next_eq (t : Tarfs) (h : Int) :
    t.next h = h + 1 + (octToDec (t.header h).size + 511) / 512 := by
  have hbounds := octToDec_bounds (t.header h).size
  unfold Tarfs.next toInt32 toUint64
  dsimp only
  rw [bmod32]
  split <;> split <;> omega

/-- A header leads forward unless its size is decoded to -512 or less. -/
theorem Tarfs.lt_next_iff : h < t.next h ↔ -512 < octToDec (t.header h).size := by
  rw [t.next_eq]
  omega

/-! The loops look at the records of the walk. -/

theorem Tarfs.initLoop_walk :
    t.initLoop fuel h s = (t.walk (fun _ => false) fuel h).map fun hs =>
      hs.foldl (fun s h => t.insertHeader h (toUint64 (octToDec (t.header h).size)) s) s := by
  induction fuel generalizing h s with
  | zero => rfl
  | succ fuel ih =>
    unfold Tarfs.initLoop Tarfs.walk
    split
    · rw [if_neg (by simp), Option.map_map]
      exact ih
    · rfl

theorem Tarfs.scanLoop_walk :
    t.scanLoop fname fuel h = (t.walk (matchesName fname) fuel h).map fun hs =>
      (hs.getLast?.filter fun h => matchesName fname (t.header h)).map fun h => t.addr (h + 1) := by
  induction fuel generalizing h with
  | zero => rfl
  | succ fuel ih =>
    unfold Tarfs.scanLoop Tarfs.walk
    split
    · by_cases hm : matchesName fname (t.header h) = true
      · rw [if_pos hm, if_pos (of_decide_eq_true hm)]
        simp [hm]
      · rw [if_neg hm, if_neg (of_decide_eq_false (Bool.not_eq_true _ ▸ hm)), Option.map_map]
        refine ih.trans (congrArg (Option.map · _) ?_)
        funext hs
        cases hs <;> simp [hm]
    · rfl

theorem Tarfs.walk_cons {hs : List Int} (hlt : h < t.count)
    (hrest : t.walk found fuel (t.next h) = some (upTo (fun h => found (t.header h)) hs)) :
    t.walk found (fuel + 1) h = some (upTo (fun h => found (t.header h)) (h :: hs)) := by
  unfold Tarfs.walk upTo
  rw [if_pos hlt, hrest]
  by_cases hf : found (t.header h) = true <;> simp [hf]

/-- A walk begins with the record that it starts at. -/
theorem Tarfs.walk_head {hs : List Int} (hlt : h < t.count) (hw : t.walk found fuel h = some hs) :
    h ∈ hs := by
  cases fuel with
  | zero => cases hw
  | succ fuel =>
    unfold Tarfs.walk at hw
    rw [if_pos hlt] at hw
    split at hw
    · simp [← Option.some.inj hw]
    · obtain ⟨rest, -, hrest⟩ := Option.map_eq_some_iff.mp hw
      simp [← hrest]

theorem le_headerRecords (k : Nat) (es : List ArchiveEntry) : ∀ x ∈ headerRecords k es, k ≤ x := by
  induction es generalizing k with
  | nil => simp [headerRecords]
  | cons e es ih =>
    intro x hx
    rcases List.mem_cons.mp hx with rfl | hx
    · exact Nat.le_refl x
    · have := ih _ x hx
      omega

theorem Tarfs.walk_isSome (hf : ∀ h, t.Reaches h → h < t.count → h < t.next h) (hr : t.Reaches h)
    (hfuel : (t.count - h).toNat < fuel) : (t.walk found fuel h).isSome := by
  induction fuel generalizing h with
  | zero => omega
  | succ fuel ih =>
    unfold Tarfs.walk
    split
    · rename_i hlt
      have hnext := hf h hr hlt
      split
      · rfl
      · rw [Option.isSome_map]
        exact ih (.next hr hlt) (by omega)
    · rfl

/-- The loops end, and move forward all the way, exactly if no header on the way has a size that
is decoded to -512 or less. -/
theorem Tarfs.walkEnds_iff :
    t.WalkEnds ↔ ∀ h, t.Reaches h → h < t.count → -512 < octToDec (t.header h).size := by
  unfold Tarfs.WalkEnds
  constructor
  · intro hw h hr hlt
    exact Tarfs.lt_next_iff.mp (hw.1 h hr hlt)
  · intro hsize
    have hf : ∀ h, t.Reaches h → h < t.count → h < t.next h := fun h hr hlt =>
      Tarfs.lt_next_iff.mpr (hsize h hr hlt)
    refine ⟨hf, ⟨t.count + 1, ?_⟩, fun fname => ⟨t.count + 1, ?_⟩⟩
    · unfold Tarfs.initTarfs
      rw [Tarfs.initLoop_walk, Option.isSome_map]
      exact Tarfs.walk_isSome hf .start (by omega)
    · unfold Tarfs.scanTarfs
      rw [Tarfs.scanLoop_walk, Option.isSome_map]
      exact Tarfs.walk_isSome hf .start (by omega)

/-- The image from the header of `e` on. -/
abbrev restFrom (es : List ArchiveEntry) (pad : Nat) : List PosixHeader :=
  (es.flatMap fun e => e.header :: e.data) ++ List.replicate pad ⟨[], [], 0⟩

/-- What is left of the image after an entry. -/
theorem drop_entry (hdrop : a.image.drop k = restFrom (e :: es) pad) :
    a.image.drop (k + 1 + e.data.length) = restFrom es pad := by
  rw [Nat.add_assoc, ← List.drop_drop, hdrop, restFrom, List.flatMap_cons, List.append_assoc,
    Nat.add_comm 1, ← List.length_cons (a := e.header)]
  exact List.drop_left

theorem length_restFrom_cons :
    (restFrom (e :: es) pad).length = 1 + e.data.length + (restFrom es pad).length := by
  simp only [restFrom, List.flatMap_cons, List.length_append, List.length_cons]
  omega

namespace Tarfs.Contains

theorem length_drop (ht : t.Contains a) (hdrop : a.image.drop k = restFrom es pad)
    (hle : k ≤ t.count) : k + (restFrom es pad).length = t.count := by
  have hlen := congrArg List.length hdrop
  have hcount := ht.count
  rw [List.length_drop] at hlen
  omega

/-- What the loops read at the header of an entry. -/
theorem header_entry (ht : t.Contains a) (hdrop : a.image.drop k = restFrom (e :: es) pad) :
    t.header k = e.header := by
  apply ht.header
  have hget := congrArg (fun l => l[0]?) hdrop
  simpa using hget

/-- The records after the entries are zero. -/
theorem header_padding (ht : t.Contains a)
    (hdrop : a.image.drop k = List.replicate pad ⟨[], [], 0⟩) (hi : k ≤ i) (hlt : i < t.count) :
    t.header i = ⟨[], [], 0⟩ := by
  apply ht.header
  have hget := congrArg (fun l => l[i - k]?) hdrop
  rw [List.getElem?_drop, Nat.add_sub_cancel' hi] at hget
  rw [hget, List.getElem?_replicate, if_pos]
  have hlen := congrArg List.length hdrop
  have hcount := ht.count
  simp only [List.length_drop, List.length_replicate] at hlen
  omega

theorem next_padding (ht : t.Contains a)
    (hdrop : a.image.drop k = List.replicate pad ⟨[], [], 0⟩) (hi : k ≤ i) (hlt : i < t.count) :
    t.next i = (i + 1 : Nat) := by
  have hsize : octToDec [] = 0 := by decide
  rw [t.next_eq, ht.header_padding hdrop hi hlt, hsize]
  omega

/-- From the header of an entry the loops go to the next one, or not even that far. -/
theorem next_entry (ht : t.Contains a) (hdrop : a.image.drop k = restFrom (e :: es) pad) :
    (e.size < 0o2147500000 → t.next k = (k + 1 + e.data.length : Nat)) ∧
      (e.size < 8 ^ 11 → 0o2147500000 ≤ e.size → t.next k < (k + 1 + e.data.length : Nat)) := by
  have hblocks := e.length_data
  rw [t.next_eq, ht.header_entry hdrop]
  unfold ArchiveEntry.header
  dsimp only
  constructor
  · intro hsize
    rw [octToDec_octal hsize]
    omega
  · intro hfield hsize
    have := octToDec_octal_ge hsize hfield
    omega

theorem walk_padding (ht : t.Contains a) (hdrop : a.image.drop k = List.replicate pad ⟨[], [], 0⟩)
    (hi : k ≤ i) {n : Nat} (hn : i + n = t.count) (hfuel : n < fuel) :
    t.walk found fuel i =
      some (upTo (fun h => found (t.header h)) ((List.range' i n).map Int.ofNat)) := by
  induction n generalizing i fuel with
  | zero =>
    obtain ⟨fuel, rfl⟩ : ∃ f, fuel = f + 1 := ⟨fuel - 1, by omega⟩
    rw [Tarfs.walk, if_neg (by omega)]
    rfl
  | succ n ih =>
    obtain ⟨fuel, rfl⟩ : ∃ f, fuel = f + 1 := ⟨fuel - 1, by omega⟩
    rw [List.range'_succ, List.map_cons]
    apply Tarfs.walk_cons (by omega)
    rw [ht.next_padding hdrop hi (by omega)]
    exact ih (by omega) (by omega) (by omega)

/-- As long as the sizes are decoded, the walk follows the entries. -/
theorem walk_entries (ht : t.Contains a) (hs : ∀ e ∈ es, e.size < 0o2147500000)
    (hdrop : a.image.drop k = restFrom es pad) (hle : k ≤ t.count) (hfuel : t.count < fuel + k) :
    t.walk found fuel k = some (upTo (fun h => found (t.header h))
      ((headerRecords k es ++ List.range' (t.count - pad) pad).map Int.ofNat)) := by
  induction es generalizing k fuel with
  | nil =>
    have hlen := ht.length_drop hdrop hle
    simp only [restFrom, List.flatMap_nil, List.nil_append, List.length_replicate] at hlen
    have hpad : t.count - pad = k := by omega
    rw [headerRecords, List.nil_append, hpad]
    exact ht.walk_padding hdrop (Nat.le_refl k) hlen (by omega)
  | cons e es ih =>
    have hlen := ht.length_drop hdrop hle
    rw [length_restFrom_cons] at hlen
    obtain ⟨fuel, rfl⟩ : ∃ f, fuel = f + 1 := ⟨fuel - 1, by omega⟩
    rw [headerRecords, List.cons_append, List.map_cons]
    apply Tarfs.walk_cons (by omega)
    rw [(ht.next_entry hdrop).1 (hs e (by simp))]
    exact ih (fun e he => hs e (by simp [he])) (drop_entry hdrop) (by omega) (by omega)

/-- A walk that follows the entries has decoded their sizes. -/
theorem sizes_of_walk (ht : t.Contains a) (hfield : ∀ e ∈ es, e.size < 8 ^ 11)
    (hdrop : a.image.drop k = restFrom es pad) (hle : k ≤ t.count)
    (hw : t.walk (fun _ => false) fuel k =
      some ((headerRecords k es ++ List.range' (t.count - pad) pad).map Int.ofNat)) :
    ∀ e ∈ es, e.size < 0o2147500000 := by
  induction es generalizing k fuel with
  | nil => simp
  | cons e es ih =>
    have hlen := ht.length_drop hdrop hle
    rw [length_restFrom_cons] at hlen
    cases fuel with
    | zero => cases hw
    | succ fuel =>
      rw [Tarfs.walk, if_pos (by omega), if_neg (by simp), headerRecords, List.cons_append,
        List.map_cons, Option.map_eq_some_iff] at hw
      obtain ⟨hs, hw, heq⟩ := hw
      rw [(List.cons.inj heq).2] at hw
      by_cases hsize : e.size < 0o2147500000
      · rw [(ht.next_entry hdrop).1 hsize] at hw
        intro e' he'
        rcases List.mem_cons.mp he' with rfl | he'
        · exact hsize
        · exact ih (fun e he => hfield e (by simp [he])) (drop_entry hdrop) (by omega) hw e' he'
      · -- the next record is one of the data of `e`
        have hshort := (ht.next_entry hdrop).2 (hfield e (by simp)) (by omega)
        have hmem := Tarfs.walk_head (by omega) hw
        obtain ⟨x, hx, hxk⟩ := List.mem_map.mp hmem
        have hpad : pad ≤ (restFrom es pad).length := by simp [restFrom]
        have hge : k + 1 + e.data.length ≤ x := by
          rcases List.mem_append.mp hx with hx | hx
          · exact le_headerRecords _ es x hx
          · have := List.mem_range'.mp hx
            omega
        have hcast : Int.ofNat x = (x : Int) := rfl
        omega

end Tarfs.Contains

theorem upTo_false {α : Type} (xs : List α) : upTo (fun _ => false) xs = xs := by
  induction xs with
  | nil => rfl
  | cons x xs ih => simp [upTo, ih]

/-- The last element, if it has the property, is the first one that has it. -/
theorem getLast?_upTo {α : Type} (p : α → Bool) (xs : List α) :
    (upTo p xs).getLast?.filter p = xs.find? p := by
  induction xs with
  | nil => rfl
  | cons x xs ih =>
    by_cases hp : p x = true
    · simp [upTo, hp]
    · rw [List.find?_cons_of_neg hp, ← ih, upTo, if_neg hp]
      cases upTo p xs <;> simp [hp]

/-- The walk visits the entries in order exactly if all sizes are below `0o2147500000`. -/
theorem Tarfs.visitsEntries_iff (ht : t.Contains a) :
    t.VisitsEntries a ↔ ∀ e ∈ a.entries, e.size < 0o2147500000 := by
  have himage : a.image.drop 0 = restFrom a.entries a.padding := rfl
  unfold Tarfs.VisitsEntries Archive.records
  rw [← ht.count]
  constructor
  · intro h
    obtain ⟨fuel, hw⟩ := h
    have hinit := hw fun _ => false
    rw [upTo_false] at hinit
    exact ht.sizes_of_walk ht.sizes himage (Nat.zero_le _) hinit
  · intro hs
    exact ⟨t.count + 1, fun found => ht.walk_entries hs himage (Nat.zero_le _) (by omega)⟩

/-- In any memory the header loops move forward and end exactly if no header on the way has a
size that is decoded to -512 or less; in memory that holds an archive they visit its entries in
order exactly if all sizes are below `0o2147500000`. -/
theorem header_walk (t : Tarfs) :
    (t.WalkEnds ↔ ∀ h, t.Reaches h → h < t.count → -512 < octToDec (t.header h).size) ∧
      ∀ a, t.Contains a → (t.VisitsEntries a ↔ ∀ e ∈ a.entries, e.size < 0o2147500000) :=
  ⟨Tarfs.walkEnds_iff, fun _ => Tarfs.visitsEntries_iff⟩

/-- The archive that lists the directory `bin/` alone. -/
def binArchive : Archive where
  entries := [⟨[98, 105, 110, 47], 0, 53, [], by decide, by decide, by decide, rfl⟩]
  padding := 2

/-- The archive in memory. -/
def binTarfs : Tarfs where
  start := 0xFFFFFFFF80220000
  count := 3
  header := fun i => binArchive.image.getD i.toNat ⟨[], [], 0⟩

/-- The archive of the directory `a/` and the file `a/b` of two bytes. -/
def abFileArchive : Archive where
  entries := [⟨[97, 47], 0, 53, [], by decide, by decide, by decide, rfl⟩,
    ⟨[97, 47, 98], 2, 48, [⟨[], [], 0⟩], by decide, by decide, by decide, by decide⟩]
  padding := 2

/-- The archive in memory. -/
def abFileTarfs : Tarfs where
  start := 0xFFFFFFFF80220000
  count := 5
  header := fun i => abFileArchive.image.getD i.toNat ⟨[], [], 0⟩

theorem Tarfs.contains_of_getD (hcount : t.count = a.image.length)
    (hheader : ∀ i, t.header i = a.image.getD i.toNat ⟨[], [], 0⟩)
    (hs : ∀ e ∈ a.entries, e.size < 8 ^ 11) : t.Contains a where
  count := hcount
  header i r hr := by
    rw [hheader, Int.toNat_natCast, List.getD_eq_getElem?_getD, hr]
    rfl
  sizes := hs

theorem binTarfs_contains : binTarfs.Contains binArchive :=
  Tarfs.contains_of_getD rfl (fun _ => rfl) (by decide)

theorem header_walk_bin :
    (binTarfs.WalkEnds ↔
      ∀ h, binTarfs.Reaches h → h < 3 → -512 < octToDec (binTarfs.header h).size) ∧
      (binTarfs.VisitsEntries binArchive ↔ ∀ e ∈ binArchive.entries, e.size < 0o2147500000) :=
  ⟨(header_walk binTarfs).1, (header_walk binTarfs).2 binArchive binTarfs_contains⟩

/-- A header whose size field reads `/000`. -/
def stuckTarfs : Tarfs := ⟨0xFFFFFFFF80220000, 1, fun _ => ⟨[97], [47, 48, 48, 48], 48⟩⟩

/-- The archive of one file of 282 MiB. -/
def bigArchive : Archive where
  entries := [⟨[97], 0o2147500000, 48, List.replicate 577344 ⟨[97], [], 48⟩, by decide, by decide,
    by decide, List.length_replicate⟩]
  padding := 2

/-- The archive in memory. -/
def bigTarfs : Tarfs where
  start := 0xFFFFFFFF80220000
  count := bigArchive.image.length
  header := fun i => bigArchive.image.getD i.toNat ⟨[], [], 0⟩

/-- `/000` is decoded to -512, and the loop of `init_tarfs` never leaves its header.  The header
of a file of 282 MiB does not lead to the next one. -/
theorem header_walk_stuck :
    stuckTarfs.next 0 = 0 ∧ (∀ fuel, stuckTarfs.initTarfs fuel = none) ∧ ¬ stuckTarfs.WalkEnds ∧
      bigTarfs.Contains bigArchive ∧ ¬ bigTarfs.VisitsEntries bigArchive := by
  have hnext : stuckTarfs.next 0 = 0 := by decide
  have hbig : bigTarfs.Contains bigArchive :=
    Tarfs.contains_of_getD rfl (fun _ => rfl) (by decide)
  refine ⟨hnext, fun fuel => ?_, fun hw => ?_, hbig, fun hv => ?_⟩
  · unfold Tarfs.initTarfs
    rw [Tarfs.initLoop_walk, Option.map_eq_none_iff]
    induction fuel with
    | zero => rfl
    | succ fuel ih =>
      rw [Tarfs.walk, if_pos (by decide), if_neg (by simp), hnext, ih]
      rfl
  · have hlt := hw.1 0 .start (by decide)
    rw [hnext] at hlt
    exact absurd hlt (by decide)
  · have hsize := Tarfs.visitsEntries_iff hbig |>.mp hv _ (List.mem_singleton.mpr rfl)
    exact absurd hsize (by decide)

end Sbunix
