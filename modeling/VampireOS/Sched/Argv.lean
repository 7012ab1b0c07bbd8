import VampireOS.Memory.Own
import VampireOS.Sched.Signals

/-!
# Program arguments (user.c:692-757, crt0.asm)

| here | there |
| --- | --- |
| `argLen` | the `while` loop over `argv[i]` |
| `pushStrings` | the loop that copies the strings down from the stack top |
| `copyWords` | the copies of argc, `str_va` and NULL |
| `userPushArgv` | `user_push_argv` |
| `readWord` | a load of `crt0.asm` (`mov rdi, [rsp]`) or of `main` through `argv` |

A string is what its pointer shows: bytes, of which the first 0 ends it. A null pointer is `none`;
`argv` and `rsp_out` are not null.
-/

namespace VampireOS

open Lib

/-- `USER_ARGV_MAX`. -/
def userArgvMax : Nat := 4

def argLen (str : Nat → UInt8) : Nat → Nat → Nat
  | 0, len => len
  | n + 1, len => if str len ≠ 0 ∧ len + 1 < fdPathMax then argLen str n (len + 1) else len

namespace Space

/-- The stack pointer and `str_va` after the loop. -/
def pushStrings (r stackPage : Nat) :
    List (Option (Nat → UInt8)) → Nat → Space → Space × Option (Nat × List Nat)
  | [], sp, s => (s, some (sp, []))
  | none :: _, _, s => (s, none)
  | some str :: rest, sp, s =>
    let len := argLen str fdPathMax 0
    if str len ≠ 0 ∨ len = 0 then (s, none)
    else if sp < stackPage + len + 1 then (s, none)
    else
      match s.step (.copyTo r (sp - (len + 1)) ((List.range (len + 1)).map str)) with
      | (s, none) => (s, none)
      | (s, some _) =>
        match pushStrings r stackPage rest (sp - (len + 1)) s with
        | (s, none) => (s, none)
        | (s, some (low, strVa)) => (s, some (low, (sp - (len + 1)) :: strVa))

def copyWords (r : Nat) : List Nat → Nat → Space → Space × Bool
  | [], _, s => (s, true)
  | v :: vs, a, s =>
    match s.step (.copyTo r a (Kernel.bytes64 (UInt64.ofNat v))) with
    | (s, none) => (s, false)
    | (s, some _) => copyWords r vs (a + 8) s

def userPushArgv (s : Space) (r stackTop : Nat) (argv : List (Option (Nat → UInt8))) : Space × Option Nat :=
  if r = 0 ∨ stackTop = 0 then (s, none)
  else if argv.length = 0 ∨ argv.length > userArgvMax then (s, none)
  else
    let stackPage := (stackTop + 2 ^ 64 - pageSize) % 2 ^ 64
    match pushStrings r stackPage argv stackTop s with
    | (s, none) => (s, none)
    | (s, some (sp, strVa)) =>
      let vecBytes := (argv.length + 2) * 8
      if sp / 8 * 8 < stackPage + vecBytes then (s, none)
      else
        match copyWords r (argv.length :: strVa ++ [0]) (sp / 8 * 8 - vecBytes) s with
        | (s, false) => (s, none)
        | (s, true) => (s, some (sp / 8 * 8 - vecBytes))

end Space

/-! ## Reading it back -/

/-- The eight bytes at `a`, least significant first. -/
def readWord (A : Nat → Option UInt8) (a : Nat) : Option Nat :=
  ((List.range 8).mapM fun i => A (a + i)).map fun bs => (Kernel.word64 bs).toNat

/-- At `p` stands `str`, closed by a 0. -/
def CStringAt (A : Nat → Option UInt8) (p : Nat) (str : List UInt8) : Prop :=
  (∀ i (h : i < str.length), A (p + i) = some str[i]) ∧ A (p + str.length) = some 0

/-- What a pointer to `str` shows. -/
def cstr (str : List UInt8) (i : Nat) : UInt8 := str.getD i 0

theorem bytes64_length (v : UInt64) : (Kernel.bytes64 v).length = 8 := by simp [Kernel.bytes64]

theorem readWord_of {A : Nat → Option UInt8} {a : Nat} {v : UInt64}
    (h : ∀ i (hi : i < (Kernel.bytes64 v).length), A (a + i) = some (Kernel.bytes64 v)[i]) :
    readWord A a = some v.toNat := by
  have hbytes : ((List.range 8).mapM fun i => A (a + i)) = some (Kernel.bytes64 v) := by
    rw [Kernel.mapM_some (g := fun i => (Kernel.bytes64 v).getD i 0) fun i hi => ?_]
    · refine congrArg some (List.ext_getElem (by simp [bytes64_length]) fun i h1 h2 => ?_)
      simp [h2]
    · have hi : i < (Kernel.bytes64 v).length := by
        rw [bytes64_length]
        exact List.mem_range.1 hi
      rw [h i hi, List.getD_eq_getElem _ _ hi]
  unfold readWord
  rw [hbytes, Option.map_some, Kernel.word64_bytes64]

/-! ## Lengths -/

theorem argLen_spec (str : Nat → UInt8) :
    ∀ n len, len < fdPathMax → fdPathMax ≤ len + n → (∀ i, i < len → str i ≠ 0) →
    argLen str n len < fdPathMax ∧ (∀ i, i < argLen str n len → str i ≠ 0) ∧
      (str (argLen str n len) = 0 ∨ argLen str n len + 1 = fdPathMax)
  | 0, len, h1, h2, _ => by omega
  | n + 1, len, h1, h2, h3 => by
    unfold argLen
    split
    · rename_i hc
      refine argLen_spec str n (len + 1) hc.2 (by omega) fun i hi => ?_
      rcases Nat.lt_succ_iff_lt_or_eq.1 hi with hlt | rfl
      · exact h3 i hlt
      · exact hc.1
    · rename_i hc
      refine ⟨h1, h3, ?_⟩
      by_cases hz : str len = 0
      · exact .inl hz
      · have : ¬len + 1 < fdPathMax := fun h => hc ⟨hz, h⟩
        exact .inr (by omega)

/-- An argument that `user_push_argv` refuses. -/
def BadArg (a : List UInt8) : Prop := a = [] ∨ 31 < a.length

instance (a : List UInt8) : Decidable (BadArg a) := inferInstanceAs (Decidable (_ ∨ _))

theorem cstr_ne {a : List UInt8} (hz : (0 : UInt8) ∉ a) {i : Nat} (hi : i < a.length) : cstr a i ≠ 0 := by
  unfold cstr
  rw [List.getD_eq_getElem _ _ hi]
  exact fun h => hz (h ▸ List.getElem_mem hi)

theorem cstr_end (a : List UInt8) : cstr a a.length = 0 := by
  unfold cstr
  rw [List.getD_eq_default _ _ le_rfl]

theorem argLen_cstr {a : List UInt8} (hz : (0 : UInt8) ∉ a) :
    (cstr a (argLen (cstr a) fdPathMax 0) ≠ 0 ∨ argLen (cstr a) fdPathMax 0 = 0 ↔ BadArg a) ∧
      (¬BadArg a → argLen (cstr a) fdPathMax 0 = a.length) := by
  obtain ⟨h1, h2, h3⟩ := argLen_spec (cstr a) fdPathMax 0 (by decide) (by omega) nofun
  generalize argLen (cstr a) fdPathMax 0 = len at h1 h2 h3
  have hle : len ≤ a.length := by
    by_contra hlt
    exact h2 a.length (by omega) (cstr_end a)
  have hend : len < a.length → cstr a len ≠ 0 := cstr_ne hz
  have hbad : BadArg a ↔ a.length = 0 ∨ 31 < a.length := by
    unfold BadArg
    rw [List.length_eq_zero_iff]
  have hfull : len = a.length → cstr a len = 0 := fun e => e ▸ cstr_end a
  unfold fdPathMax at h1 h3
  rw [hbad]
  rcases Nat.lt_or_ge len a.length with hlt | hge
  · have := hend hlt
    have : len + 1 = 32 := h3.resolve_left this
    exact ⟨⟨fun _ => .inr (by omega), fun _ => .inl (hend hlt)⟩, fun h => by omega⟩
  · have he : len = a.length := by omega
    have := hfull he
    exact ⟨⟨fun h => .inl (by rcases h with h | h; exact absurd this h; omega),
      fun h => .inr (by omega)⟩, fun _ => he⟩

/-! ## The pushes -/

/-- Strings laid downwards from `top` to `low`, one right below the other, at the addresses `vas`. -/
inductive Laid (A : Nat → Option UInt8) : Nat → Nat → List (List UInt8) → List Nat → Prop where
  | nil (low : Nat) : Laid A low low [] []
  | cons {top low : Nat} {a : List UInt8} {args : List (List UInt8)} {vas : List Nat} (h : a.length + 1 ≤ top)
      (hs : CStringAt A (top - (a.length + 1)) a) (ht : Laid A (top - (a.length + 1)) low args vas) :
      Laid A top low (a :: args) ((top - (a.length + 1)) :: vas)

theorem Laid.low_le {A : Nat → Option UInt8} {top low : Nat} {args : List (List UInt8)} {vas : List Nat}
    (h : Laid A top low args vas) : low ≤ top := by
  induction h with
  | nil => exact le_rfl
  | cons _ _ _ ih => omega

theorem CStringAt.congr {A A' : Nat → Option UInt8} {p : Nat} {a : List UInt8} (h : CStringAt A p a)
    (he : ∀ w, p ≤ w → w < p + a.length + 1 → A' w = A w) : CStringAt A' p a :=
  ⟨fun i hi => (he _ (by omega) (by omega)).trans (h.1 i hi), (he _ (by omega) (by omega)).trans h.2⟩

theorem Laid.congr {A A' : Nat → Option UInt8} {top low : Nat} {args : List (List UInt8)} {vas : List Nat}
    (h : Laid A top low args vas) (he : ∀ w, low ≤ w → w < top → A' w = A w) : Laid A' top low args vas := by
  induction h with
  | nil low => exact .nil low
  | @cons top low a args vas h hs ht ih =>
    have := ht.low_le
    exact .cons h (hs.congr fun w h1 h2 => he w (by omega) (by omega)) (ih fun w h1 h2 => he w h1 (by omega))

namespace Space

variable {s s' : Space} {r page : Nat} {A : Nat → Option UInt8}

/-- A string is pushed with its 0. -/
theorem put_cstr {dst : Nat} (a : List UInt8) :
    CStringAt (put A dst ((List.range (a.length + 1)).map (cstr a))) dst a := by
  constructor
  · intro i hi
    rw [put_in (by simp; omega)]
    simp [cstr, hi]
  · rw [put_in (by simp)]
    simp [cstr]

theorem pushStrings_bad {argv : List (Option (Nat → UInt8))} {stackPage sp : Nat} {str : Nat → UInt8}
    (h : str (argLen str fdPathMax 0) ≠ 0 ∨ argLen str fdPathMax 0 = 0) :
    (pushStrings r stackPage (some str :: argv) sp s').2 = none := by
  unfold pushStrings
  simp only
  rw [if_pos h]

/-- Good strings are all pushed, and a bad one stops the loop. -/
theorem pushStrings_spec (hr : r ∈ s.roots) :
    ∀ (args : List (List UInt8)) (sp : Nat) (s' : Space) (A : Nat → Option UInt8),
    OnPage r page s s' A → (∀ a ∈ args, (0 : UInt8) ∉ a) → page + 32 * args.length ≤ sp →
    sp ≤ page + pageSize →
    ((∃ a ∈ args, BadArg a) → (pushStrings r page (args.map fun a => some (cstr a)) sp s').2 = none) ∧
      ((∀ a ∈ args, ¬BadArg a) → ∃ s'' low vas A',
      pushStrings r page (args.map fun a => some (cstr a)) sp s' = (s'', some (low, vas)) ∧
        OnPage r page s s'' A' ∧ Laid A' sp low args vas ∧ sp ≤ low + 32 * args.length ∧
        ∀ w, ¬(low ≤ w ∧ w < sp) → A' w = A w)
  | [], sp, s', A, h, _, _, _ => by
    refine ⟨?_, fun _ => ⟨s', sp, [], A, rfl, h, .nil sp, by omega, fun _ _ => rfl⟩⟩
    rintro ⟨a, hm, -⟩
    cases hm
  | a :: args, sp, s', A, h, hz, h1, h2 => by
    obtain ⟨hbad, hlen⟩ := argLen_cstr (hz a (List.mem_cons_self ..))
    by_cases hb : BadArg a
    · exact ⟨fun _ => pushStrings_bad (hbad.2 hb), fun hall => absurd hb (hall a (List.mem_cons_self ..))⟩
    · have hshort : a.length ≤ 31 := Nat.le_of_not_lt fun hl => hb (.inr hl)
      simp only [List.length_cons] at h1
      set bytes := (List.range (a.length + 1)).map (cstr a) with hbytes
      have hsize : bytes.length = a.length + 1 := by simp [hbytes]
      obtain ⟨hok, hnext⟩ := h.copy hr (sp - (a.length + 1)) bytes (by omega) (by omega)
      obtain ⟨ih1, ih2⟩ := pushStrings_spec hr args (sp - (a.length + 1)) _ _ hnext
        (fun b hm => hz b (List.mem_cons_of_mem _ hm)) (by omega) (by omega)
      -- one round of the loop
      have hround : pushStrings r page ((a :: args).map fun a => some (cstr a)) sp s' =
          match pushStrings r page (args.map fun a => some (cstr a)) (sp - (a.length + 1))
            (s'.step (.copyTo r (sp - (a.length + 1)) bytes)).1 with
          | (s, none) => (s, none)
          | (s, some (low, strVa)) => (s, some (low, (sp - (a.length + 1)) :: strVa)) := by
        rw [List.map_cons, pushStrings]
        simp only [hlen hb]
        rw [if_neg (fun hc => hb (hbad.1 (by rw [hlen hb]; exact hc))), if_neg (by omega), ← hbytes,
          show s'.step (.copyTo r (sp - (a.length + 1)) bytes) =
            ((s'.step (.copyTo r (sp - (a.length + 1)) bytes)).1, some 0)
            from Prod.ext rfl hok]
      rw [hround]
      refine ⟨fun hany => ?_, fun hall => ?_⟩
      · obtain ⟨b, hm, hbb⟩ := hany
        rcases List.mem_cons.1 hm with rfl | hm
        · exact absurd hbb hb
        · have hnone := ih1 ⟨b, hm, hbb⟩
          generalize pushStrings r page (args.map fun a => some (cstr a)) (sp - (a.length + 1)) _ =
            res at hnone
          obtain ⟨s1, o⟩ := res
          simp only at hnone
          rw [hnone]
      · obtain ⟨s1, low, vas, A', e, hon, hlaid, hlow, hout⟩ :=
          ih2 fun b hm => hall b (List.mem_cons_of_mem _ hm)
        have hle := hlaid.low_le
        refine ⟨s1, low, _ :: vas, A', by rw [e], hon, .cons (by omega) ?_ hlaid, ?_, fun w hw => ?_⟩
        · refine (put_cstr (A := A) a).congr fun w hw1 hw2 => ?_
          rw [hout w (by omega)]
        · simp only [List.length_cons]
          omega
        · rw [hout w (by omega), put_out (by omega)]

/-- The words stand one after the other. -/
theorem copyWords_spec (hr : r ∈ s.roots) : ∀ (vs : List Nat) (a : Nat) (s' : Space) (A : Nat → Option UInt8),
    OnPage r page s s' A → (∀ v ∈ vs, v < 2 ^ 64) → page ≤ a → a + 8 * vs.length ≤ page + pageSize →
    ∃ s'' A', copyWords r vs a s' = (s'', true) ∧ OnPage r page s s'' A' ∧
      (∀ i, i < vs.length → readWord A' (a + 8 * i) = vs[i]?) ∧
      ∀ w, ¬(a ≤ w ∧ w < a + 8 * vs.length) → A' w = A w
  | [], a, s', A, h, _, _, _ => ⟨s', A, rfl, h, nofun, fun _ _ => rfl⟩
  | v :: vs, a, s', A, h, hv, h1, h2 => by
    simp only [List.length_cons] at h2
    have hsize := bytes64_length (UInt64.ofNat v)
    obtain ⟨hok, hnext⟩ := h.copy hr a (Kernel.bytes64 (UInt64.ofNat v)) h1 (by omega)
    obtain ⟨s'', A', e, hon, hread, hout⟩ :=
      copyWords_spec hr vs (a + 8) _ _ hnext (fun u hu => hv u (List.mem_cons_of_mem _ hu))
      (by omega) (by omega)
    refine ⟨s'', A', ?_, hon, fun i hi => ?_, fun w hw => ?_⟩
    · rw [copyWords, show s'.step (.copyTo r a (Kernel.bytes64 (UInt64.ofNat v))) =
        ((s'.step (.copyTo r a (Kernel.bytes64 (UInt64.ofNat v)))).1, some 0) from Prod.ext rfl hok]
      exact e
    · cases i with
      | zero =>
        have hval : (UInt64.ofNat v).toNat = v := by
          rw [UInt64.toNat_ofNat']
          exact Nat.mod_eq_of_lt (hv v (List.mem_cons_self ..))
        have hread := readWord_of (A := A') (a := a) (v := UInt64.ofNat v) fun i hi => by
          rw [hout (a + i) (by omega), put_in hi]
        rw [hval] at hread
        exact hread
      | succ i =>
        rw [show a + 8 * (i + 1) = a + 8 + 8 * i by omega]
        exact hread i (Nat.lt_of_succ_lt_succ hi)
    · simp only [List.length_cons] at hw
      rw [hout w (by omega), put_out (by omega)]

end Space

/-! ## The round trip -/

/-- What `_start` and `main` find at `sp`: argc, the pointers `vas` to the arguments, NULL, and
above them the strings up to `top`, of which no two overlap. -/
structure ArgvAt (A : Nat → Option UInt8) (sp top : Nat) (args : List (List UInt8))
      (vas : List Nat) : Prop where
  length : vas.length = args.length
  argc : readWord A sp = some args.length
  ptr : ∀ i, i < args.length → readWord A (sp + 8 * (i + 1)) = vas[i]?
  null : readWord A (sp + 8 * (args.length + 1)) = some 0
  str : ∀ i (h : i < args.length), ∃ p, vas[i]? = some p ∧ CStringAt A p args[i] ∧
    sp + 8 * (args.length + 2) ≤ p ∧
    p + args[i].length + 1 ≤ top
  apart : ∀ i j (h : j < args.length), i < j → ∀ p q, vas[i]? = some p → vas[j]? = some q →
    q + args[j].length + 1 ≤ p

theorem Laid.strings {A : Nat → Option UInt8} {top low : Nat} {args : List (List UInt8)}
    {vas : List Nat} (h : Laid A top low args vas) :
    vas.length = args.length ∧
      (∀ i (h : i < args.length), ∃ p, vas[i]? = some p ∧ CStringAt A p args[i] ∧ low ≤ p ∧
      p + args[i].length + 1 ≤ top) ∧
      ∀ i j (h : j < args.length), i < j → ∀ p q, vas[i]? = some p → vas[j]? = some q →
      q + args[j].length + 1 ≤ p := by
  induction h with
  | nil low => exact ⟨rfl, nofun, nofun⟩
  | @cons top low a args vas h hs ht ih =>
    obtain ⟨h1, h2, h3⟩ := ih
    refine ⟨by simp [h1], fun i hi => ?_, fun i j hj hij p q hp hq => ?_⟩
    · cases i with
      | zero => exact ⟨_, rfl, hs, ht.low_le, by simp only [List.getElem_cons_zero]; omega⟩
      | succ i =>
        obtain ⟨p, e, g1, g2, g3⟩ := h2 i (Nat.lt_of_succ_lt_succ hi)
        exact ⟨p, e, g1, g2, by simp only [List.getElem_cons_succ]; omega⟩
    · obtain ⟨j, rfl⟩ : ∃ j', j = j' + 1 := ⟨j - 1, by omega⟩
      cases i with
      | zero =>
        obtain ⟨q', e, -, -, g3⟩ := h2 j (Nat.lt_of_succ_lt_succ hj)
        rw [List.getElem?_cons_succ, e] at hq
        cases hq
        cases hp
        exact g3
      | succ i =>
        exact h3 i j (Nat.lt_of_succ_lt_succ hj) (Nat.lt_of_succ_lt_succ hij) p q hp hq

theorem mapM_congr {α β : Type} {f g : α → Option β} {l : List α} (h : ∀ a ∈ l, f a = g a) :
    l.mapM f = l.mapM g := by
  induction l with
  | nil => rfl
  | cons a l ih => rw [List.mapM_cons, List.mapM_cons, h a List.mem_cons_self,
      ih fun b hb => h b (List.mem_cons_of_mem _ hb)]

theorem readWord_congr {A A' : Nat → Option UInt8} {a : Nat} (h : ∀ i, i < 8 → A' (a + i) = A (a + i)) :
    readWord A' a = readWord A a := by
  unfold readWord
  rw [mapM_congr fun i hi => h i (List.mem_range.1 hi)]

theorem ArgvAt.congr {A A' : Nat → Option UInt8} {sp top : Nat} {args : List (List UInt8)}
    {vas : List Nat} (h : ArgvAt A sp top args vas) (htop : sp + 8 * (args.length + 2) ≤ top)
    (he : ∀ w, w < top → A' w = A w) :
    ArgvAt A' sp top args vas := by
  refine ⟨h.length, ?_, fun i hi => ?_, ?_, fun i hi => ?_, h.apart⟩
  · rw [← h.argc]
    exact readWord_congr fun i hi => he _ (by omega)
  · rw [← h.ptr i hi]
    exact readWord_congr fun j hj => he _ (by omega)
  · rw [← h.null]
    exact readWord_congr fun j hj => he _ (by omega)
  · obtain ⟨p, e, g1, g2, g3⟩ := h.str i hi
    exact ⟨p, e, g1.congr fun w _ hw => he w (by omega), g2, g3⟩

namespace Space

variable {s : Space} {r page : Nat}

/-- **The argument round trip**: on a stack page of the task's own, `user_push_argv` fails exactly
for an empty or overlong argument; else the program finds its arguments at the stack pointer, and
only the stack above it was written. -/
theorem userPushArgv_spec (h : s.Inv) (hr : r ∈ s.roots) (ho : s.OwnPage r page)
    {args : List (List UInt8)} (hn : 1 ≤ args.length) (h4 : args.length ≤ 4)
    (hz : ∀ a ∈ args, (0 : UInt8) ∉ a) :
    ((s.userPushArgv r (page + pageSize) (args.map fun a => some (cstr a))).2 = none ↔ ∃ a ∈ args,
    a = [] ∨ 31 < a.length) ∧
      ∀ s' sp, s.userPushArgv r (page + pageSize) (args.map fun a => some (cstr a)) = (s', some sp) →
        sp % 8 = 0 ∧ page ≤ sp ∧ sp < page + pageSize ∧
          (∃ vas, ArgvAt (readByte (s'.mems r)) sp (page + pageSize) args vas) ∧
          (∀ w, w < userTop → ¬(sp ≤ w ∧ w < page + pageSize) →
            readByte (s'.mems r) w = readByte (s.mems r) w) ∧
          (∀ r' ∈ s.roots, r' ≠ r → s'.mems r' = s.mems r') ∧
          ∀ f ∈ s.kern, frameBytes s'.vm.mem f = frameBytes s.vm.mem f := by
  obtain ⟨ha, htop, -⟩ := id ho
  have hr0 : r ≠ 0 := (h.pt.root_owned hr).ne_zero h.pt.ok
  have hpage : (page + pageSize + 2 ^ 64 - pageSize) % 2 ^ 64 = page := by
    unfold userTop userPages pageSize at *
    omega
  have hsize : pageSize = 4096 := rfl
  obtain ⟨hbad, hgood⟩ := pushStrings_spec hr args (page + pageSize) s _ (.refl h ho) hz (by omega) (by omega)
  unfold userPushArgv
  rw [if_neg (by omega), if_neg (by simp only [List.length_map, userArgvMax]; omega)]
  simp only [hpage, List.length_map]
  by_cases hany : ∃ a ∈ args, BadArg a
  · have hnone := hbad hany
    generalize pushStrings r page (args.map fun a => some (cstr a)) (page + pageSize) s = res at hnone
    obtain ⟨s1, o⟩ := res
    simp only at hnone
    subst hnone
    exact ⟨⟨fun _ => hany, fun _ => rfl⟩, nofun⟩
  · obtain ⟨s1, low, vas, A1, e, hon, hlaid, hlow, hout⟩ := hgood fun a hm hb => hany ⟨a, hm, hb⟩
    have hle := hlaid.low_le
    obtain ⟨hlen, hstr, hapart⟩ := hlaid.strings
    have hsmall : ∀ v ∈ args.length :: vas ++ [0], v < 2 ^ 64 := by
      intro v hv
      simp only [List.cons_append, List.mem_cons, List.mem_append, List.not_mem_nil, or_false] at hv
      rcases hv with rfl | hv | rfl
      · omega
      · obtain ⟨i, hi, rfl⟩ := List.mem_iff_getElem.1 hv
        obtain ⟨p, hp, -, -, hp2⟩ := hstr i (hlen ▸ hi)
        rw [List.getElem?_eq_getElem hi] at hp
        cases hp
        unfold userTop userPages at htop
        omega
      · omega
    have hcount : (args.length :: vas ++ [0]).length = args.length + 2 := by simp [hlen]
    set sp := low / 8 * 8 - (args.length + 2) * 8 with hsp
    obtain ⟨s2, A2, e2, hon2, hread, hout2⟩ := copyWords_spec hr _ sp s1 A1 hon hsmall (by omega)
      (by rw [hcount]; omega)
    rw [hcount] at hread hout2
    have hroom : ¬low / 8 * 8 < page + (args.length + 2) * 8 := by omega
    simp only [e, if_neg hroom, ← hsp, e2]
    refine ⟨⟨nofun, fun hb => absurd hb hany⟩, fun s' sp' he => ?_⟩
    cases he
    refine ⟨by omega, by omega, by omega, ⟨vas, ?_⟩, fun w hw hoff => ?_, hon2.other, hon2.frames⟩
    · have hlaid2 := (hlaid.congr fun w h1 h2 => hout2 w (by omega)).strings
      have hargv : ArgvAt A2 sp (page + pageSize) args vas := by
        refine ⟨hlen, ?_, fun i hi => ?_, ?_, fun i hi => ?_, hapart⟩
        · exact hread 0 (by omega)
        · rw [hread (i + 1) (by omega), List.cons_append, List.getElem?_cons_succ,
            List.getElem?_append_left (by omega)]
        · rw [hread (args.length + 1) (by omega), List.cons_append, List.getElem?_cons_succ, ← hlen]
          simp
        · obtain ⟨p, g0, g1, g2, g3⟩ := hlaid2.2.1 i hi
          exact ⟨p, g0, g1, by omega, g3⟩
      exact hargv.congr (by omega) fun w hw => hon2.read w (by omega)
    · rw [hon2.read w hw, hout2 w (by omega), hout w (by omega)]

/-- The strings take their lengths, each with its 0, off the stack top. -/
theorem pushStrings_low :
    ∀ (args : List (List UInt8)) (sp : Nat) (s s' : Space) (low : Nat) (vas : List Nat),
    (∀ a ∈ args, (0 : UInt8) ∉ a) → pushStrings r page (args.map fun a => some (cstr a)) sp s =
    (s', some (low, vas)) →
    low = sp - ((args.map (· ++ [0])).map List.length).sum
  | [], sp, s, s', low, vas, _, e => by
    cases e
    rfl
  | a :: args, sp, s, s', low, vas, hz, e => by
    obtain ⟨hbad, hlen⟩ := argLen_cstr (hz a (List.mem_cons_self ..))
    rw [List.map_cons, pushStrings] at e
    split at e
    · cases e
    · rename_i hgood
      rw [hlen fun hb => hgood (hbad.2 hb)] at e
      split at e
      · cases e
      · rcases hcopy : s.step
          (.copyTo r (sp - (a.length + 1)) ((List.range (a.length + 1)).map (cstr a)))
          with ⟨s1, _ | v⟩ <;> rw [hcopy] at e
        · cases e
        · dsimp only at e
          rcases hrest : pushStrings r page (args.map fun a => some (cstr a)) (sp - (a.length + 1))
            s1 with ⟨s2, _ | ⟨low', vas'⟩⟩ <;> rw [hrest] at e
          · cases e
          · cases e
            have ih := pushStrings_low args _ s1 _ _ _ (fun b hm => hz b (List.mem_cons_of_mem _ hm)) hrest
            simp only [List.map_cons, List.sum_cons, List.length_append, List.length_singleton]
            omega

/-- `Kernel.loadImage` refuses the arguments that `user_push_argv` refuses, and leaves its stack pointer. -/
theorem userPushArgv_answer (h : s.Inv) (hr : r ∈ s.roots) (ho : s.OwnPage r page) {args : List (List UInt8)}
    (hn : 1 ≤ args.length) (h4 : args.length ≤ 4) (hz : ∀ a ∈ args, (0 : UInt8) ∉ a) :
    (s.userPushArgv r (page + pageSize) (args.map fun a => some (cstr a))).2 =
      if args.any Kernel.argRefused then none else some (Kernel.argvBlock args (page + pageSize)).1 := by
  have hany : args.any Kernel.argRefused = true ↔ ∃ a ∈ args, a = [] ∨ 31 < a.length := by
    simp only [List.any_eq_true, Kernel.argRefused, Bool.or_eq_true, decide_eq_true_eq]
    exact ⟨fun ⟨a, hm, ha⟩ => ⟨a, hm, ha⟩, fun ⟨a, hm, ha⟩ => ⟨a, hm, ha⟩⟩
  obtain ⟨hnone, hgood⟩ := userPushArgv_spec h hr ho hn h4 hz
  rcases hx : s.userPushArgv r (page + pageSize) (args.map fun a => some (cstr a)) with ⟨s', _ | sp⟩
  · rw [hx] at hnone
    rw [if_pos (hany.2 (hnone.1 rfl))]
  · rw [hx] at hnone
    rw [if_neg fun hc => by cases hnone.2 (hany.1 hc)]
    have htop := ho.2
    have hpage : (page + pageSize + 2 ^ 64 - pageSize) % 2 ^ 64 = page := by
      unfold userTop userPages pageSize at *
      omega
    unfold userPushArgv at hx
    split at hx
    · cases hx
    · split at hx
      · cases hx
      · simp only [hpage, List.length_map] at hx
        rcases hpush : pushStrings r page (args.map fun a => some (cstr a)) (page + pageSize) s
          with ⟨s1, _ | ⟨low, vas⟩⟩ <;> rw [hpush] at hx
        · cases hx
        · have hlow := pushStrings_low args _ s s1 low vas hz hpush
          dsimp only at hx
          split at hx
          · cases hx
          · split at hx <;> cases hx
            simp only [Kernel.argvBlock, ← hlow, Nat.mul_comm]

/-- A page mapped for a task is its own. -/
theorem step_map_own {t b : Space} (e : t = (b.step (.map r page 0)).1) (h : b.Inv)
    (hr : r ∈ b.roots) (ha : page % pageSize = 0) (ht : page + pageSize ≤ userTop)
    (hok : (b.step (.map r page 0)).2.isSome = true) : t.Inv ∧ r ∈ t.roots ∧ t.OwnPage r page := by
  subst e
  refine ⟨(step_ok h _).inv, ?_, map_ownPage h hr ha ht hok⟩
  rw [step_map hr, mapFresh_roots]
  exact hr

/-- A task with a stack page, and nothing else. -/
@[irreducible]
def stackSpace : Space := ((Kernel.smallSpace.run [.clone]).step (.map 0x200000 0x401000 0)).1

theorem stackSpace_task : (0x200000 : Nat) ∈ (Kernel.smallSpace.run [.clone]).roots := by decide +kernel

theorem stackSpace_map :
    ((Kernel.smallSpace.run [.clone]).step (.map 0x200000 0x401000 0)).2.isSome = true := by
  decide +kernel

theorem stackSpace_eq :
    stackSpace = ((Kernel.smallSpace.run [.clone]).step (.map 0x200000 0x401000 0)).1 := by
  unfold stackSpace
  rfl

theorem stackSpace_top : (0x401000 : Nat) + pageSize ≤ userTop := by
  unfold userTop userPages pageSize
  omega


set_option maxRecDepth 20000 in
theorem stackSpace_own :
    stackSpace.Inv ∧ (0x200000 : Nat) ∈ stackSpace.roots ∧ stackSpace.OwnPage 0x200000 0x401000 :=
  step_map_own stackSpace_eq (run_inv Kernel.smallSpace_boot _) stackSpace_task rfl stackSpace_top
    stackSpace_map

/-- The arguments of `cat hello`. -/
def catHello : List (List UInt8) := [[99, 97, 116], [104, 101, 108, 108, 111]]

theorem catHello_strings : ∀ a ∈ catHello, (0 : UInt8) ∉ a := by decide

theorem userPushArgv_catHello :
    stackSpace.Inv ∧ (0x200000 : Nat) ∈ stackSpace.roots ∧ stackSpace.OwnPage 0x200000 0x401000 ∧
    1 ≤ catHello.length ∧ catHello.length ≤ 4 ∧ (∀ a ∈ catHello, (0 : UInt8) ∉ a) ∧
    ((stackSpace.userPushArgv 0x200000 (0x401000 + pageSize) (catHello.map fun a => some (cstr a))).2 = none ↔
      ∃ a ∈ catHello, a = [] ∨ 31 < a.length) :=
  ⟨stackSpace_own.1, stackSpace_own.2.1, stackSpace_own.2.2, by decide, by decide, catHello_strings,
    (userPushArgv_spec stackSpace_own.1 stackSpace_own.2.1 stackSpace_own.2.2 (by decide)
      (by decide) catHello_strings).1⟩

end Space

end VampireOS
