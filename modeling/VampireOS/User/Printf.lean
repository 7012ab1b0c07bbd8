import Mathlib.Data.Nat.Digits.Defs
import VampireOS.Fs.Volume

/-!
# Formatted text (user/printf.c:6-126)

| here | there |
| --- | --- |
| `Out`, `putcAt`, `digits` | `dst` and `*pos`, `putc_at`, the `tmp` of `put_uint` |
| `putUint`, `putStr` | `put_uint`, `put_str` |
| `Arg` | what `va_arg` may find; a wrong or a missing one is `none` |
| `format`, `snprintf` | the loop of `vsnprintf`, `vsnprintf` |
| `Renders` | the rules of the text, one for each directive |

A string is what stands before the NUL; a pointer that is 0 is `none`. `pos` is an `unsigned long`,
the result an `int`.
-/

namespace VampireOS.Printf

def percent : UInt8 := 37
def letterD : UInt8 := 100
def letterS : UInt8 := 115
def letterX : UInt8 := 120

/-! ## The program -/

structure Out where
  dst : Option Bytes
  pos : UInt64

def putcAt (cap : UInt64) (o : Out) (c : UInt8) : Out where
  dst := if cap ≠ 0 ∧ o.pos + 1 < cap then o.dst.map fun d => Function.update d o.pos.toNat c else o.dst
  pos := o.pos + 1

def digit (d : UInt32) : UInt8 := if d < 10 then 48 + d.toUInt8 else 97 + (d - 10).toUInt8

/-- `tmp`, which has room for `left` more digits. -/
def digits (base : UInt32) : (left : Nat) → UInt32 → List UInt8
  | 0, _ => []
  | left + 1, v => if v = 0 then [] else digit (v % base) :: digits base left (v / base)

def putUint (cap : UInt64) (base v : UInt32) (o : Out) : Out :=
  if v = 0 then putcAt cap o 48 else (digits base 16 v).reverse.foldl (putcAt cap) o

def putStr (cap : UInt64) (s : Option Name) (o : Out) : Out := (s.getD []).foldl (putcAt cap) o

inductive Arg where
  | str (s : Option Name)
  /-- An `int` or an `unsigned`. -/
  | word (w : UInt32)
deriving DecidableEq, Repr

/-- `%d`. -/
def putInt (cap : UInt64) (v : Int32) (o : Out) : Out :=
  if v < 0 then putUint cap 10 ((-(v + 1)).toUInt32 + 1) (putcAt cap o 45) else putUint cap 10 v.toUInt32 o

def format (cap : UInt64) : Name → List Arg → Out → Option Out
  | [], _, o => some o
  | c :: fmt, args, o =>
    if c ≠ percent then format cap fmt args (putcAt cap o c)
    else
      match fmt with
      | [] => some (putcAt cap o percent)
      | f :: fmt =>
        if f = percent then format cap fmt args (putcAt cap o percent)
        else if f = letterS then
          match args with
          | .str s :: args => format cap fmt args (putStr cap s o)
          | _ => none
        else if f = letterD then
          match args with
          | .word w :: args => format cap fmt args (putInt cap w.toInt32 o)
          | _ => none
        else if f = letterX then
          match args with
          | .word w :: args => format cap fmt args (putUint cap 16 w o)
          | _ => none
        else format cap fmt args (putcAt cap (putcAt cap o percent) f)

/-- The NUL behind the text, as far as the text fits. -/
def terminate (cap : UInt64) (o : Out) : Option Bytes :=
  if cap ≠ 0 then o.dst.map fun d => Function.update d (if o.pos ≥ cap then cap - 1
    else o.pos).toNat 0 else o.dst

/-- `dst` afterwards, and the result. -/
def snprintf (dst : Option Bytes) (cap : UInt64) (fmt : Option Name) (args : List Arg) :
    Option (Option Bytes × Int32) := do
  let o ← format cap (fmt.getD []) args ⟨dst, 0⟩
  pure (terminate cap o, o.pos.toUInt32.toInt32)

/-! ## The text -/

/-- A digit of a number, lower case. -/
def digitByte (d : Nat) : UInt8 := UInt8.ofNat (if d < 10 then 48 + d else 87 + d)

def unsigned (base n : Nat) : Name := if n = 0 then [48] else ((Nat.digits base n).map digitByte).reverse

def signed (z : Int) : Name := if z < 0 then 45 :: unsigned 10 z.natAbs else unsigned 10 z.natAbs

/-- The text of a format whose arguments match. -/
inductive Renders : Name → List Arg → Name → Prop
  | done (args : List Arg) : Renders [] args []
  | plain {fmt args out} {c : UInt8} (hc : c ≠ percent) (h : Renders fmt args out) : Renders
      (c :: fmt) args (c :: out)
  | percent {fmt args out} (h : Renders fmt args out) : Renders (percent :: percent :: fmt) args
      (percent :: out)
  | str {fmt args out} (s : Option Name) (h : Renders fmt args out) :
      Renders (Printf.percent :: letterS :: fmt) (.str s :: args) (s.getD [] ++ out)
  | int {fmt args out} (w : UInt32) (h : Renders fmt args out) :
      Renders (Printf.percent :: letterD :: fmt) (.word w :: args) (signed w.toInt32.toInt ++ out)
  | hex {fmt args out} (w : UInt32) (h : Renders fmt args out) :
      Renders (Printf.percent :: letterX :: fmt) (.word w :: args) (unsigned 16 w.toNat ++ out)
  | other {fmt args out} {f : UInt8} (hf : f ≠ Printf.percent ∧ f ≠ letterS ∧ f ≠ letterD ∧ f ≠ letterX)
      (h : Renders fmt args out) : Renders (Printf.percent :: f :: fmt) args (Printf.percent :: f :: out)
  | lone (args : List Arg) : Renders [Printf.percent] args [Printf.percent]

/-! ## What is put out -/

variable {cap : UInt64} {o : Out}

/-- The characters of `l`, one after the other. -/
def emit (cap : UInt64) (o : Out) (l : Name) : Out := l.foldl (putcAt cap) o

theorem emit_append (o : Out) (l l' : Name) : emit cap o (l ++ l') = emit cap (emit cap o l) l' :=
  List.foldl_append

theorem digit_byte {d : UInt32} (h : d.toNat < 16) : digit d = digitByte d.toNat := by
  obtain ⟨n, hn, rfl⟩ : ∃ n < 16, d = UInt32.ofNat n := ⟨d.toNat, h, by simp⟩
  revert n
  decide +kernel

theorem digits_eq {base : UInt32} (h2 : 2 ≤ base.toNat) (h16 : base.toNat ≤ 16) (left : Nat) : ∀ v : UInt32,
    v.toNat < base.toNat ^ left → digits base left v = (Nat.digits base.toNat v.toNat).map digitByte := by
  induction left with
  | zero =>
    intro v hv
    have h0 : v.toNat = 0 := by simpa using hv
    simp [digits, h0]
  | succ left ih =>
    intro v hv
    unfold digits
    by_cases h0 : v = 0
    · simp [h0]
    · have hpos : 0 < v.toNat := Nat.pos_of_ne_zero fun h => h0 (UInt32.toNat_inj.1 h)
      have hdiv : (v / base).toNat < base.toNat ^ left := by
        rw [UInt32.toNat_div]
        exact Nat.div_lt_of_lt_mul (by rwa [Nat.pow_succ, Nat.mul_comm] at hv)
      have hmod : (v % base).toNat < 16 := by
        rw [UInt32.toNat_mod]
        exact (Nat.mod_lt _ (by omega)).trans_le h16
      rw [if_neg h0, ih _ hdiv, digit_byte hmod, Nat.digits_def' (by omega) hpos, UInt32.toNat_div,
        UInt32.toNat_mod]
      rfl

theorem putUint_emit {base : UInt32} (h : base = 10 ∨ base = 16) (v : UInt32) (o : Out) :
    putUint cap base v o = emit cap o (unsigned base.toNat v.toNat) := by
  have hfits : v.toNat < base.toNat ^ 16 := by
    have := v.toNat_lt
    rcases h with rfl | rfl
    · exact this.trans (by decide)
    · exact this.trans (by decide)
  unfold putUint unsigned emit
  by_cases h0 : v = 0
  · simp [h0]
  · have hn : v.toNat ≠ 0 := fun hz => h0 (UInt32.toNat_inj.1 hz)
    rw [if_neg h0, if_neg hn, digits_eq (by rcases h with rfl | rfl <;> decide)
      (by rcases h with rfl | rfl <;> decide) 16 v hfits]

theorem toNat_toUInt32 (v : Int32) :
    (v.toUInt32.toNat : Int) = if v.toInt < 0 then v.toInt + 2 ^ 32 else v.toInt := by
  change (v.toBitVec.toNat : Int) = if v.toBitVec.toInt < 0 then v.toBitVec.toInt + 2 ^ 32
    else v.toBitVec.toInt
  have h := v.toBitVec.isLt
  rw [BitVec.toInt_eq_toNat_cond]
  split <;> split <;> omega

/-- `-(v + 1)` does not overflow, and one more is the absolute value, for `INT_MIN` too. -/
theorem negated {v : Int32} (h : v.toInt < 0) : ((-(v + 1)).toUInt32 + 1).toNat = v.toInt.natAbs := by
  have hlo := v.le_toInt
  have h1 : (v + 1).toInt = v.toInt + 1 := by
    rw [Int32.toInt_add]
    change (v.toInt + 1).bmod (2 ^ 32) = _
    exact Int.bmod_eq_of_le (by omega) (by omega)
  have h2 : (-(v + 1)).toInt = -(v.toInt + 1) := by
    rw [Int32.toInt_neg, h1]
    exact Int.bmod_eq_of_le (by omega) (by omega)
  have h3 := toNat_toUInt32 (-(v + 1))
  rw [h2, if_neg (by omega)] at h3
  rw [UInt32.toNat_add]
  change ((-(v + 1)).toUInt32.toNat + 1) % 2 ^ 32 = _
  omega

theorem putInt_emit (v : Int32) (o : Out) : putInt cap v o = emit cap o (signed v.toInt) := by
  unfold putInt signed
  have hneg : v < 0 ↔ v.toInt < 0 := Int32.lt_iff_toInt_lt
  simp only [hneg]
  by_cases h : v.toInt < 0
  · rw [if_pos h, if_pos h, putUint_emit (.inl rfl), negated h]
    rfl
  · have hnat : v.toUInt32.toNat = v.toInt.natAbs := by
      have h1 := toNat_toUInt32 v
      rw [if_neg h] at h1
      omega
    rw [if_neg h, if_neg h, putUint_emit (.inl rfl), hnat]
    rfl

/-- The loop puts out the text. -/
theorem format_renders {fmt : Name} {args : List Arg} {out : Name} (h : Renders fmt args out) :
    ∀ o, format cap fmt args o = some (emit cap o out) := by
  induction h with
  | done args =>
    intro o
    simp [format, emit]
  | plain hc _ ih =>
    intro o
    rw [format.eq_def]
    simp [hc, ih, emit]
  | percent _ ih =>
    intro o
    rw [format.eq_def]
    simp [ih, emit]
  | str s _ ih =>
    intro o
    rw [format]
    simp [letterS, Printf.percent, ih, putStr, emit]
  | int w _ ih =>
    intro o
    rw [format]
    simp [letterS, letterD, Printf.percent, ih, emit_append, putInt_emit]
  | hex w _ ih =>
    intro o
    rw [format]
    simp [letterS, letterD, letterX, Printf.percent, ih, emit_append, putUint_emit]
  | other hf _ ih =>
    intro o
    obtain ⟨h1, h2, h3, h4⟩ := hf
    rw [format.eq_def]
    simp [h1, h2, h3, h4, ih, emit]
  | lone args =>
    intro o
    simp [format, emit]

/-- The counter after `l`, and the bytes that found room. -/
theorem emit_spec (cap : UInt64) (l : Name) : ∀ (o : Out), o.pos.toNat + l.length < 2 ^ 64 →
    (emit cap o l).pos.toNat = o.pos.toNat + l.length ∧
    (emit cap o l).dst = o.dst.map fun d i =>
      if o.pos.toNat ≤ i ∧ i < o.pos.toNat + l.length ∧ i + 1 < cap.toNat
      then l.getD (i - o.pos.toNat) 0 else d i := by
  induction l with
  | nil =>
    intro o _
    refine ⟨rfl, ?_⟩
    have hnone : ∀ i, ¬(o.pos.toNat ≤ i ∧ i < o.pos.toNat + 0 ∧ i + 1 < cap.toNat) := by omega
    simp only [List.length_nil, hnone, if_false]
    exact Option.map_id'.symm
  | cons c l ih =>
    intro o hlt
    rw [List.length_cons] at hlt
    have hpos : (putcAt cap o c).pos.toNat = o.pos.toNat + 1 := by
      change (o.pos + 1).toNat = _
      rw [UInt64.toNat_add]
      change (o.pos.toNat + 1) % 2 ^ 64 = _
      omega
    obtain ⟨h1, h2⟩ := ih (putcAt cap o c) (by omega)
    refine ⟨?_, ?_⟩
    · change (emit cap (putcAt cap o c) l).pos.toNat = _
      rw [h1, hpos, List.length_cons]
      omega
    · change (emit cap (putcAt cap o c) l).dst = _
      rw [h2, hpos]
      have hroom : cap ≠ 0 ∧ o.pos + 1 < cap ↔ o.pos.toNat + 1 < cap.toNat := by
        rw [UInt64.lt_iff_toNat_lt, show (o.pos + 1).toNat = o.pos.toNat + 1 from hpos]
        constructor
        · exact And.right
        · intro h
          refine ⟨?_, h⟩
          rintro rfl
          exact absurd h (by simp)
      cases hd : o.dst with
      | none => simp [putcAt, hd]
      | some d =>
        simp only [putcAt, hroom, hd, Option.map_some]
        split
        · simp only [Option.map_some, Option.some.injEq]
          funext i
          rcases Nat.lt_trichotomy i o.pos.toNat with hi | rfl | hi
          · rw [if_neg (by omega), if_neg (by omega), Function.update_of_ne (by omega)]
          · rw [if_neg (by omega), if_pos (by rw [List.length_cons]; omega), Function.update_self,
              Nat.sub_self]
            rfl
          · rw [Function.update_of_ne (by omega), List.length_cons, show i - o.pos.toNat =
              (i - (o.pos.toNat + 1)) + 1 by omega, List.getD_cons_succ]
            exact if_congr (by omega) rfl rfl
        · simp only [Option.map_some, Option.some.injEq]
          funext i
          rw [if_neg (by omega), if_neg (by omega)]

/-! ## The result -/

/-- The text as far as `cap` goes, a NUL behind it, and nothing else. -/
structure Truncated (cap : Nat) (text : Name) (d d' : Bytes) : Prop where
  written : ∀ i, i < min text.length (cap - 1) → d' i = text.getD i 0
  nul : 0 < cap → d' (min text.length (cap - 1)) = 0
  rest : ∀ i, (0 < cap → min text.length (cap - 1) < i) → d' i = d i

theorem terminate_spec {text : Name} (hlen : text.length < 2 ^ 64) (d : Bytes) :
    ∃ d', terminate cap (emit cap ⟨some d, 0⟩ text) = some d' ∧ Truncated cap.toNat text d d' := by
  obtain ⟨hpos, hdst⟩ := emit_spec cap text ⟨some d, 0⟩ (by simpa using hlen)
  simp only [UInt64.toNat_zero, Nat.zero_add, Nat.sub_zero, Nat.zero_le, true_and, Option.map_some]
    at hpos hdst
  unfold terminate
  by_cases h0 : cap = 0
  · subst h0
    rw [if_neg (by simp), hdst]
    refine ⟨_, rfl, fun i hi => ?_, fun h => absurd h (by simp), fun i _ => if_neg fun h => absurd
      h.2 (by simp)⟩
    simp at hi
  · have hcap : 0 < cap.toNat := Nat.pos_of_ne_zero fun h => h0 (UInt64.toNat_inj.1 h)
    have hend : (if (emit cap ⟨some d, 0⟩ text).pos ≥ cap then cap - 1
      else (emit cap ⟨some d, 0⟩ text).pos).toNat =
        min text.length (cap.toNat - 1) := by
      have hge : (emit cap ⟨some d, 0⟩ text).pos ≥ cap ↔ cap.toNat ≤ text.length := by
        rw [ge_iff_le, UInt64.le_iff_toNat_le, hpos]
      have hone : (cap - 1).toNat = cap.toNat - 1 :=
        UInt64.toNat_sub_of_le cap 1 (UInt64.le_iff_toNat_le.2 hcap)
      by_cases hfull : cap.toNat ≤ text.length
      · rw [if_pos (hge.2 hfull), hone]
        omega
      · rw [if_neg (mt hge.1 hfull), hpos]
        omega
    rw [if_pos h0, hdst, Option.map_some, hend]
    refine ⟨_, rfl, fun i hi => ?_, fun _ => Function.update_self .., fun i hi => ?_⟩
    · rw [Function.update_of_ne (by omega), if_pos (by omega)]
    · have := hi hcap
      rw [Function.update_of_ne (by omega), if_neg (by omega)]

theorem snprintf_emit (fmt : Option Name) {args : List Arg} {text : Name}
    (h : Renders (fmt.getD []) args text) (dst : Option Bytes) (cap : UInt64) :
    snprintf dst cap fmt args =
      some (terminate cap (emit cap ⟨dst, 0⟩ text),
      (emit cap ⟨dst, 0⟩ text).pos.toUInt32.toInt32) := by
  unfold snprintf
  rw [format_renders h]
  rfl

/-- The counter, which wraps. -/
theorem emit_pos (cap : UInt64) (l : Name) :
    ∀ o : Out, (emit cap o l).pos = o.pos + UInt64.ofNat l.length := by
  induction l with
  | nil =>
    intro o
    simp [emit]
  | cons c l ih =>
    intro o
    change (emit cap (putcAt cap o c) l).pos = _
    rw [ih, List.length_cons]
    change o.pos + 1 + _ = _
    rw [UInt64.add_assoc, UInt64.ofNat_add, UInt64.add_comm 1]
    rfl

theorem emit_null (cap : UInt64) (l : Name) : ∀ pos, (emit cap ⟨none, pos⟩ l).dst = none := by
  induction l with
  | nil =>
    intro pos
    rfl
  | cons c l ih =>
    intro pos
    have hput : putcAt cap ⟨none, pos⟩ c = ⟨none, pos + 1⟩ := by simp [putcAt]
    change (emit cap (putcAt cap ⟨none, pos⟩ c) l).dst = none
    rw [hput, ih]

theorem toInt_result (n : Nat) : (UInt64.ofNat n).toUInt32.toInt32.toInt = Int.bmod n (2 ^ 32) := by
  change ((BitVec.ofNat 64 n).setWidth 32).toInt = _
  rw [BitVec.toInt_eq_toNat_bmod, BitVec.toNat_setWidth, BitVec.toNat_ofNat,
    Nat.mod_mod_of_dvd _ (by decide), Int.natCast_mod]
  exact Int.emod_bmod _ _

/-- **`snprintf` is a truncated rendering**: the result is the length, whatever `cap` is, as an `int`. -/
theorem snprintf_renders (fmt : Option Name) {args : List Arg} {text : Name}
    (h : Renders (fmt.getD []) args text) (cap : UInt64) :
    ∃ n, (∀ dst, (snprintf dst cap fmt args).map Prod.snd = some n) ∧ n.toInt = Int.bmod text.length
      (2 ^ 32) ∧
      (text.length < 2 ^ 31 → n.toInt = text.length) ∧ (snprintf none cap fmt args).map Prod.fst = some none ∧
      (text.length < 2 ^ 64 → ∀ d, ∃ d', snprintf (some d) cap fmt args = some (some d', n) ∧
        Truncated cap.toNat text d d') := by
  have hn : ∀ dst, (emit cap ⟨dst, 0⟩ text).pos = UInt64.ofNat text.length := fun dst => by
    rw [emit_pos, UInt64.zero_add]
  refine ⟨(UInt64.ofNat text.length).toUInt32.toInt32, fun dst => ?_, toInt_result _,
    fun hlen => ?_, ?_, fun hlen d => ?_⟩
  · rw [snprintf_emit fmt h, hn]
    rfl
  · rw [toInt_result]
    exact Int.bmod_eq_of_le (by omega) (by omega)
  · rw [snprintf_emit fmt h]
    simp [terminate, emit_null]
  · obtain ⟨d', h1, h2⟩ := terminate_spec hlen d
    exact ⟨d', by rw [snprintf_emit fmt h, h1, hn], h2⟩

/-- `%d` of `INT_MIN`, in 12 bytes. -/
theorem snprintf_renders_min : let text : Name := [45, 50, 49, 52, 55, 52, 56, 51, 54, 52, 56]
    Renders [percent, letterD] [.word 0x80000000] text ∧
    ∃ n, n.toInt = 11 ∧ ∀ d, ∃ d', snprintf (some d) 12 (some [percent, letterD])
      [.word 0x80000000] = some (some d', n) ∧
      Truncated 12 text d d' := by
  intro text
  have htext : Renders [percent, letterD] [.word 0x80000000] text := by
    have hint : signed (0x80000000 : UInt32).toInt32.toInt ++ [] = text := by
      rw [show (0x80000000 : UInt32).toInt32.toInt = -2147483648 by decide]
      simp [signed, unsigned, digitByte, text]
    exact hint ▸ .int 0x80000000 (.done [])
  obtain ⟨n, -, -, h2, -, h3⟩ := snprintf_renders (some [percent, letterD]) htext 12
  exact ⟨htext, n, h2 (by decide), h3 (by decide)⟩

theorem emit_some (cap : UInt64) (l : Name) : ∀ d pos, ∃ d', (emit cap ⟨some d, pos⟩ l).dst = some d' := by
  induction l with
  | nil => exact fun d _ => ⟨d, rfl⟩
  | cons c l ih =>
    intro d pos
    change ∃ d', (emit cap (putcAt cap ⟨some d, pos⟩ c) l).dst = some d'
    unfold putcAt
    split
    · exact ih _ _
    · exact ih _ _

/-- A text of 2^31 characters has a negative result; one of 2^64 characters ends at its first byte. -/
theorem snprintf_too_long : let long : Name := List.replicate (2 ^ 31) 97
    let half : Name := List.replicate (2 ^ 63) 97
    (Renders [percent, letterS] [.str (some long)] long ∧
      (snprintf none 0 (some [percent, letterS]) [.str (some long)]).map (fun r => r.2.toInt) =
        some (-2 ^ 31)) ∧
    Renders [percent, letterS, percent, letterS] [.str (some half), .str (some half)] (half ++ half) ∧
    ∃ d' n, snprintf (some fun _ => 1) 10 (some [percent, letterS, percent, letterS])
      [.str (some half), .str (some half)] = some (some d', n) ∧ d' 0 = 0 ∧ half.head? = some 97 := by
  intro long half
  have h1 : Renders [percent, letterS] [.str (some long)] long := by
    have hr := Renders.str (some long) (.done [])
    rwa [List.append_nil] at hr
  have h2 : Renders [percent, letterS, percent, letterS] [.str (some half), .str (some half)]
      (half ++ half) := by
    have hr := Renders.str (some half) (.str (some half) (.done []))
    rwa [List.append_nil] at hr
  have hlong : long.length = 2 ^ 31 := List.length_replicate
  have hpos : (emit 10 ⟨some fun _ => 1, 0⟩ (half ++ half)).pos = 0 := by
    rw [emit_pos, List.length_append, List.length_replicate]
    decide
  obtain ⟨d', hd⟩ := emit_some 10 (half ++ half) (fun _ => 1) 0
  refine ⟨⟨h1, ?_⟩, h2, Function.update d' 0 0, 0, ?_, Function.update_self .., ?_⟩
  · rw [snprintf_emit (some _) h1, emit_pos, hlong]
    rfl
  · rw [snprintf_emit (some _) h2, terminate, if_pos (by decide), hd, hpos]
    rfl
  · rw [List.head?_replicate, if_neg (by decide)]

end VampireOS.Printf
