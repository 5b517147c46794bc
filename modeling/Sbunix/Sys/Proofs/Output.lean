import Mathlib.Data.Bool.AllAny
import Sbunix.Sys.Output
import Sbunix.Sys.Proofs.Paper
import Sbunix.Sys.Proofs.PrintNumber
import Sbunix.Sys.Proofs.WriteShows

/-!
# Output of the C library

Written character by character, text of any length and with any new lines reaches the roll as it
is: what `write` drops of a longer buffer never matters to `puts` and `printf`.
-/

namespace Sbunix

variable {c c' : Console} {r : Roll UInt8} {ch : UInt8} {s s' text : List UInt8} {i n : Nat}
  {str args : Nat → UInt8} {stack : Nat → List UInt8} {f g : Console → Option Console}
  {pfmt : List UInt8} {pap : List VaArg} {d : Int32}

/-! ## Functions that type -/

theorem typedString_append : typedString (s ++ s') = typedString s ++ typedString s' :=
  List.map_append

theorem Types.nil : Types some [] := fun c _ h => ⟨c, rfl, h⟩

theorem Types.bind (hf : Types f s) (hg : Types g s') : Types (fun c => (f c).bind g) (s ++ s') := by
  intro c r h
  obtain ⟨c₁, hc₁, h₁⟩ := hf c r h
  obtain ⟨c₂, hc₂, h₂⟩ := hg c₁ _ h₁
  refine ⟨c₂, Option.bind_eq_some_iff.mpr ⟨c₁, hc₁, hc₂⟩, ?_⟩
  unfold typeKeys at h₂ ⊢
  rwa [typedString_append, Roll.type_append]

/-! ## `putchar` and `puts` -/

theorem intBytes_charToInt (h : ch < 128) : intBytes (charToInt ch) = [ch, 0, 0, 0] := by
  have hlt : ch.toNat < 128 := UInt8.lt_iff_toNat_lt.mp h
  have hint : charToInt ch = ch.toNat := Int.bmod_eq_of_le (by omega) (by omega)
  have hnat : ((ch.toNat : Int) % 2 ^ 32).toNat = ch.toNat := by omega
  have hhigh : ∀ k : Nat, 128 ≤ k → ch.toNat / k = 0 := fun k hk => Nat.div_eq_of_lt (by omega)
  unfold intBytes
  dsimp only
  rw [hint, hnat, hhigh _ (by decide), hhigh _ (by decide), hhigh _ (by decide),
    UInt8.ofNat_toNat]
  rfl

/-- The text of one character fits everywhere. -/
theorem types_flush (hnul : ch ≠ 0) (rest : List UInt8) :
    Types (fun c => c.flush (ch :: 0 :: rest)) [ch] := by
  intro c r h
  have hlt := Console.checkForScroll_lt (k := c)
  have hline : (firstLine (ch :: 0 :: rest)).length ≤ 1 := by
    unfold firstLine
    rw [List.takeWhile_cons]
    split
    · exact Nat.le_refl _
    · exact Nat.zero_le _
  have hfit : FlushCall.FitsPaper c (.flush (ch :: 0 :: rest)) :=
    ⟨show _ + _ ≤ _ by omega, trivial⟩
  have hrun : ∃ c', c.flush (ch :: 0 :: rest) = some c' := by
    unfold Console.flush
    rw [Console.flushLoop, if_neg hnul]
    split
    · exact ⟨_, rfl⟩
    · exact ⟨_, rfl⟩
  obtain ⟨c', hc'⟩ := hrun
  have hcall : FlushCall.run c (.flush (ch :: 0 :: rest)) = some c' := hc'
  obtain ⟨keys, hkeys, hprints⟩ := FlushCall.prints h hfit hcall
  have htyped : typedText (ch :: 0 :: rest) = some (typedString [ch]) := by
    rw [typedText, if_neg hnul]
    unfold typedString
    rw [List.map_singleton]
    split
    · rfl
    · rfl
  obtain rfl := Option.some.inj (htyped.symm.trans hkeys)
  exact ⟨c', hc', hprints⟩

theorem putsLoop_types (h : ∀ ch ∈ s, ch ≠ 0 ∧ ch < 128) :
    Types (Console.putsLoop stack s n) s := by
  induction s generalizing n with
  | nil => exact Types.nil
  | cons ch s ih =>
    obtain ⟨hnul, hascii⟩ := h ch List.mem_cons_self
    have hrest := ih (n := n + 1) fun ch' hch' => h ch' (List.mem_cons_of_mem ch hch')
    have hboth := (types_flush hnul (0 :: 0 :: stack n)).bind hrest
    intro c r hprints
    obtain ⟨c', hc', hprints'⟩ := hboth c r hprints
    refine ⟨c', ?_, hprints'⟩
    rw [Console.putsLoop, Console.putchar, Console.kWrite_one, intBytes_charToInt hascii]
    dsimp only at hc'
    simp only [List.cons_append, List.nil_append]
    cases hflush : c.flush (ch :: 0 :: 0 :: 0 :: stack n) with
    | none =>
      rw [hflush] at hc'
      cases hc'
    | some c₁ =>
      rw [hflush] at hc'
      exact hc'

/-- `puts` shows its whole string, wherever the cursor is. -/
theorem puts_types (h : ∀ ch ∈ s, ch ≠ 0 ∧ ch < 128) : Types (·.puts s stack) s :=
  putsLoop_types h

/-! ## `printf` -/

theorem signedDigits_neg {n : Nat} :
    signedDigits (-1) n = (Nat.digits 10 n).map fun digit => UInt8.ofNat (48 - digit) := by
  unfold signedDigits
  refine List.map_congr_left fun digit hdigit => ?_
  have hlt := Nat.digits_lt_base (by decide) hdigit
  apply UInt8.toNat_inj.mp
  rw [UInt8.ofInt, UInt8.toNat_ofNat', UInt8.toNat_ofNat']
  omega

/-- What `printfflushint` appends. -/
theorem printfflushint_eq : printfflushint d.toInt str i args =
    (i + (intText d.toInt).length, withChars args i (intText d.toInt)) := by
  have hdigits : ∀ str, turnedAround (intDigits d.toInt 0 str).1 (intDigits d.toInt 0 str).2 =
      intText d.toInt := by
    intro str
    obtain ⟨sign, k, hs, hk, heq, -⟩ := exists_sign d
    rw [heq, turnedAround_intDigits hs hk]
    unfold intText
    rcases hs with rfl | rfl
    · by_cases hz : k = 0
      · rw [hz]
        rfl
      · rw [signedDigits_pos hz, if_pos (by omega)]
        unfold decimal
        rw [if_neg (by omega), Int.one_mul, Int.natAbs_natCast]
    · rw [signedDigits_neg, if_neg (by omega), Int.neg_one_mul, Int.natAbs_neg,
        Int.natAbs_natCast]
  unfold printfflushint
  dsimp only
  rw [hdigits, appendLoop_eq]

/-- The loop has appended `text`. -/
def Appends (str : Nat → UInt8) (pfmt : List UInt8) (pap : List VaArg) (text : List UInt8) : Prop :=
  ∀ (args : Nat → UInt8) (s : List UInt8), (s ++ text).length ≤ argsSize →
    printfLoop str pfmt pap s.length (withChars args 0 s) =
      some ((s ++ text).length, withChars args 0 (s ++ text))

/-- One conversion, and the rest of the format. -/
theorem Appends.step (h : Appends str pfmt pap text) (hroom : (s ++ (s' ++ text)).length ≤ argsSize) :
    ((inArgs (s.length + s'.length, withChars (withChars args 0 s) s.length s')).bind fun r =>
        printfLoop str pfmt pap r.1 r.2) =
      some ((s ++ (s' ++ text)).length, withChars args 0 (s ++ (s' ++ text))) := by
  have hall : (s ++ s' ++ text).length ≤ argsSize := by rwa [List.append_assoc]
  have hnow : s.length + s'.length ≤ argsSize := by
    rw [List.length_append, List.length_append] at hall
    omega
  unfold inArgs
  rw [if_pos hnow, Option.bind_some, withChars_append, ← List.length_append, h args (s ++ s') hall,
    List.append_assoc]

theorem printfLoop_appends (htext : rendered pfmt pap = some text) : Appends str pfmt pap text := by
  induction pfmt, pap using rendered.induct generalizing text with
  | case1 pap =>
    obtain rfl := Option.some.inj htext
    intro args s _
    rw [List.append_nil]
    rfl
  | case2 ch pap =>
    obtain rfl := Option.some.inj htext
    intro args s hroom
    rw [printfLoop, appendLoop_eq, withChars_append, ← List.length_append]
    exact if_pos hroom
  | case3 ch nextch pfmt hconv s pap ih =>
    simp only [rendered, if_pos hconv] at htext
    obtain ⟨s', hs', htext⟩ := Option.bind_eq_some_iff.mp htext
    obtain ⟨rest, hrest, htext⟩ := Option.bind_eq_some_iff.mp htext
    obtain rfl := Option.some.inj htext
    intro args s hroom
    simp only [printfLoop, if_pos hconv, hs', appendLoop_eq]
    exact (ih hrest).step hroom
  | case4 ch nextch pfmt pap hconv hno =>
    simp only [rendered, if_pos hconv] at htext
    cases htext
  | case5 ch nextch pfmt hs hconv d pap ih =>
    simp only [rendered, if_neg hs, if_pos hconv] at htext
    obtain ⟨rest, hrest, rfl⟩ := Option.map_eq_some_iff.mp htext
    intro args s hroom
    simp only [printfLoop, if_neg hs, if_pos hconv, appendLoop_eq]
    exact (ih hrest).step hroom
  | case6 ch nextch pfmt pap hs hconv hno =>
    simp only [rendered, if_neg hs, if_pos hconv] at htext
    cases htext
  | case7 ch nextch pfmt hs hc hconv d pap ih =>
    simp only [rendered, if_neg hs, if_neg hc, if_pos hconv] at htext
    obtain ⟨rest, hrest, rfl⟩ := Option.map_eq_some_iff.mp htext
    intro args s hroom
    simp only [printfLoop, if_neg hs, if_neg hc, if_pos hconv, printfflushint_eq]
    exact (ih hrest).step hroom
  | case8 ch nextch pfmt pap hs hc hconv hno =>
    simp only [rendered, if_neg hs, if_neg hc, if_pos hconv] at htext
    cases htext
  | case9 ch nextch pfmt hs hc hd hconv d pap ih =>
    simp only [rendered, if_neg hs, if_neg hc, if_neg hd, if_pos hconv] at htext
    obtain ⟨rest, hrest, rfl⟩ := Option.map_eq_some_iff.mp htext
    intro args s hroom
    simp only [printfLoop, if_neg hs, if_neg hc, if_neg hd, if_pos hconv, printfflushhex_eq]
    exact (ih hrest).step hroom
  | case10 ch nextch pfmt pap hs hc hd hconv hno =>
    simp only [rendered, if_neg hs, if_neg hc, if_neg hd, if_pos hconv] at htext
    cases htext
  | case11 ch nextch pfmt hs hc hd hx hconv n pap ih =>
    simp only [rendered, if_neg hs, if_neg hc, if_neg hd, if_neg hx, if_pos hconv] at htext
    obtain ⟨rest, hrest, rfl⟩ := Option.map_eq_some_iff.mp htext
    intro args s hroom
    simp only [printfLoop, if_neg hs, if_neg hc, if_neg hd, if_neg hx, if_pos hconv,
      printfflushhex_eq]
    exact (ih hrest).step hroom
  | case12 ch nextch pfmt pap hs hc hd hx hconv hno =>
    simp only [rendered, if_neg hs, if_neg hc, if_neg hd, if_neg hx, if_pos hconv] at htext
    cases htext
  | case13 ch nextch pfmt pap hs hc hd hx hp ih =>
    simp only [rendered, if_neg hs, if_neg hc, if_neg hd, if_neg hx, if_neg hp] at htext
    obtain ⟨rest, hrest, rfl⟩ := Option.map_eq_some_iff.mp htext
    intro args s hroom
    simp only [printfLoop, if_neg hs, if_neg hc, if_neg hd, if_neg hx, if_neg hp, appendLoop_eq]
    exact @Appends.step s [ch] rest str args (nextch :: pfmt) pap (ih hrest) hroom

/-- A string is cut at its first NUL. -/
theorem exists_nul (s : List UInt8) : 0 ∉ s.takeWhile (· ≠ 0) ∧
    (s.takeWhile (· ≠ 0) = s ∨ ∃ rest, s = s.takeWhile (· ≠ 0) ++ 0 :: rest) := by
  constructor
  · intro hmem
    have hne := List.mem_takeWhile_imp hmem
    simp at hne
  · have hall : s.takeWhile (· ≠ 0) ++ s.dropWhile (· ≠ 0) = s := List.takeWhile_append_dropWhile
    cases hrest : s.dropWhile (· ≠ 0) with
    | nil =>
      rw [hrest, List.append_nil] at hall
      exact .inl hall
    | cons ch rest =>
      have hstop := List.head?_dropWhile_not (fun ch : UInt8 => decide (ch ≠ 0)) s
      rw [hrest] at hstop
      have hnul : ch = 0 := by simpa using hstop
      rw [hrest, hnul] at hall
      exact .inr ⟨rest, hall.symm⟩

/-- The string in `args` ends at the first NUL. -/
theorem cString_args (hlen : text.length < argsSize) :
    cString (Function.update (withChars args 0 text) text.length 0) argsSize 0 =
      text.takeWhile (· ≠ 0) := by
  obtain ⟨hnul, hrest⟩ := exists_nul text
  have hprefix : text.takeWhile (· ≠ 0) <+: text := List.takeWhile_prefix _
  generalize text.takeWhile (· ≠ 0) = str at hnul hrest hprefix
  have hle := hprefix.length_le
  refine cString_eq argsSize (Nat.lt_of_le_of_lt hle hlen) hnul fun k hk => ?_
  rw [Nat.zero_add]
  rcases hrest with rfl | ⟨rest, rfl⟩
  · rcases Nat.lt_or_eq_of_le hk with hlt | rfl
    · rw [Function.update_of_ne (Nat.ne_of_lt hlt), withChars_of_lt hlt,
        List.getD_append _ _ _ _ hlt]
    · rw [Function.update_self, List.getD_append_right _ _ _ _ (Nat.le_refl _), Nat.sub_self]
      rfl
  · have hlt : k < (str ++ 0 :: rest).length := by
      rw [List.length_append, List.length_cons]
      omega
    rw [Function.update_of_ne (Nat.ne_of_lt hlt), withChars_of_lt hlt]
    rcases Nat.lt_or_eq_of_le hk with hin | rfl
    · rw [List.getD_append _ _ _ _ hin, List.getD_append _ _ _ _ hin]
    · rw [List.getD_append_right _ _ _ _ (Nat.le_refl _),
        List.getD_append_right _ _ _ _ (Nat.le_refl _), Nat.sub_self]
      rfl

/-- `printf` shows the text of its format, as far as the first NUL in it. -/
theorem printf_types {g : Garbage} (htext : rendered pfmt pap = some text)
    (hlen : text.length < argsSize) (hascii : ∀ ch ∈ text, ch < 128) :
    Types (·.printf pfmt pap g) (text.takeWhile (· ≠ 0)) := by
  have happends : Appends g.str pfmt pap text := printfLoop_appends htext
  have hloop := happends g.args [] (Nat.le_of_lt hlen)
  rw [withChars_nil, List.length_nil, List.nil_append] at hloop
  have hprintf : ∀ c : Console, c.printf pfmt pap g = c.puts (text.takeWhile (· ≠ 0)) g.stack := by
    intro c
    unfold Console.printf
    rw [hloop]
    show (if text.length < argsSize then _ else none) = _
    rw [if_pos hlen, cString_args hlen]
  simp only [hprintf]
  refine puts_types fun ch hch => ⟨?_, hascii ch ((List.takeWhile_sublist _).subset hch)⟩
  simpa using List.mem_takeWhile_imp hch

/-- `printf("%d %s%c", 42, "a", 0)`: the NUL ends what is shown. -/
theorem printf_types_three : ∃ c', (Console.fresh fun _ => 32).printf
      [37, 100, 32, 37, 115, 37, 99] [.int 42, .text [97, 0], .int 0]
      ⟨fun _ => 0, fun _ => 0, fun _ => []⟩ = some c' ∧
    c'.Prints (typeKeys (Console.paper fun _ => 32) [.char 52, .char 50, .char 32, .char 97]) :=
  @printf_types [52, 50, 32, 97, 0] _ _ _ (by decide) (by decide) (List.all_iff_forall_prop.mp rfl) _ _
    (Console.fresh_prints _)

end Sbunix
