import Mathlib.Data.List.TakeWhile
import VampireOS.Fs.Dir

/-!
# 8.3 names (kernel/fs.c:437-498, 1102-1132)

| here | there |
| --- | --- |
| `copyPart` | the two `while` loops of `to_83`, which differ in the bound, the place and the dot |
| `to83Scan` | `to_83` loop by loop; `to83` (Fs/Dir.lean) is its value (`to83Scan_eq`) |
| `Part`, `Is83` | the grammar: 1 to 8 letters or digits, and 1 to 3 more behind a dot |

A name is what stands before the NUL.
-/

namespace VampireOS.Fs

/-- From character `n` of a part on: up to `max` characters into `out` at `off`; the count, the rest
and `out`. -/
def copyPart (stop : UInt8 → Bool) (off max : Nat) : Name → Nat → Name → Option (Nat × Name × Name)
  | [], n, out => some (n, [], out)
  | c :: rest, n, out =>
    if stop c || n ≥ max then some (n, c :: rest, out)
    else if nameChar (foldAz c) then copyPart stop off max rest (n + 1) (out.set (off + n) (upper (foldAz c)))
    else none

def to83Scan (name : Name) : Option Name :=
  if name = [] then none
  else do
    let (n, rest, out) ← copyPart (· = dot) 0 8 name 0 (List.replicate 11 blank)
    if n = 0 then none
    else
      match rest with
      | [] => some out
      | c :: ext =>
        if c = dot then do
          let (e, rest, out) ← copyPart (fun _ => false) 8 3 ext 0 out
          if e = 0 || rest ≠ [] then none else some out
        else none

/-! ## The loops -/

theorem upperName_cons (c : UInt8) (l : Name) : upperName (c :: l) =
    if nameChar (foldAz c) then (upperName l).map fun u => upper (foldAz c) :: u else none := by
  unfold upperName
  rw [List.all_cons]
  cases h : nameChar (foldAz c) with
  | false => simp
  | true =>
    simp only [Bool.true_and, if_true, List.map_cons]
    split <;> simp

theorem set_split (out : Name) (o : Nat) (x : UInt8) (u : Name) (h : o < out.length) :
    (out.set o x).take (o + 1) ++ u ++ (out.set o x).drop (o + 1 + u.length) =
      out.take o ++ (x :: u) ++ out.drop (o + (x :: u).length) := by
  have htake : (out.set o x).take (o + 1) = out.take o ++ [x] := by
    rw [List.take_add_one, List.getElem?_set_self h, List.take_set_of_le (Nat.le_refl o)]
    rfl
  have hdrop : (out.set o x).drop (o + 1 + u.length) = out.drop (o + (x :: u).length) := by
    rw [List.drop_set_of_lt (by omega), List.length_cons, Nat.add_assoc, Nat.add_comm 1]
  rw [htake, hdrop]
  simp

theorem copyPart_spec (stop : UInt8 → Bool) (off max : Nat) (rest : Name) :
    ∀ (n : Nat) (out : Name), n ≤ max →
    off + max ≤ out.length → copyPart stop off max rest n out =
      (upperName ((rest.takeWhile fun c => !stop c).take (max - n))).map fun u =>
        (n + u.length, rest.drop u.length,
          out.take (off + n) ++ u ++ out.drop (off + n + u.length)) := by
  induction rest with
  | nil =>
    intro n out _ _
    simp [copyPart, upperName]
  | cons c rest ih =>
    intro n out hn hout
    unfold copyPart
    by_cases hs : stop c = true
    · simp [hs, upperName]
    · simp only [Bool.not_eq_true] at hs
      by_cases hm : n ≥ max
      · obtain rfl : n = max := by omega
        simp [upperName]
      · have hgo : (stop c || decide (n ≥ max)) = false := by simp [hs, hm]
        have hstop : (!stop c) = true := by simp [hs]
        rw [hgo, if_neg nofun, List.takeWhile_cons, if_pos hstop, show max - n = (max - (n + 1)) + 1 by omega,
          List.take_succ_cons, upperName_cons]
        by_cases hc : nameChar (foldAz c) = true
        · rw [if_pos hc, if_pos hc, ih (n + 1) _ (by omega) (by rw [List.length_set]; omega)]
          cases upperName ((rest.takeWhile fun c => !stop c).take (max - (n + 1))) with
          | none => rfl
          | some u =>
            simp only [Option.map_some, List.length_cons, List.drop_succ_cons]
            rw [← Nat.add_assoc off, set_split out (off + n) _ u (by omega), List.length_cons]
            congr 2
            omega
        · rw [if_neg hc, if_neg hc]
          rfl

theorem upperName_length {l u : Name} (h : upperName l = some u) : u.length = l.length := by
  unfold upperName at h
  split at h
  · rw [← Option.some.inj h, List.length_map]
  · cases h

/-- A part in a field of blanks. -/
theorem padTo_field {b : Name} (hb : b.length ≤ 8) :
    b ++ (List.replicate 11 blank).drop b.length = padTo 8 b ++ padTo 3 [] := by
  rw [List.drop_replicate, show 11 - b.length = (8 - b.length) + 3 by omega,
    ← List.replicate_append_replicate]
  simp [padTo]

theorem padTo_length {n : Nat} {l : Name} (h : l.length ≤ n) : (padTo n l).length = n := by
  unfold padTo
  rw [List.length_append, List.length_replicate]
  omega

/-- The second loop of `to_83`, and what follows it. -/
theorem to83Scan_ext {b : Name} (hb : b.length ≤ 8) (ext : Name) :
    ((copyPart (fun _ => false) 8 3 ext 0 (padTo 8 b ++ padTo 3 [])).bind fun r =>
      if r.1 = 0 || !decide (r.2.1 = []) then none else some r.2.2) =
    if ext = [] ∨ ext.length > 3 then none else (upperName ext).map fun e => padTo 8 b ++ padTo 3 e := by
  have h8 := padTo_length hb
  have h3 : (padTo 3 []).length = 3 := rfl
  have hall : (ext.takeWhile fun _ => !false) = ext := by
    induction ext with
    | nil => rfl
    | cons c ext ih => rw [List.takeWhile_cons, if_pos (show (!false) = true from rfl), ih]
  rw [copyPart_spec _ _ _ _ _ _ (by omega) (by rw [List.length_append, h8, h3]), hall]
  by_cases hlong : ext.length > 3
  · rw [if_pos (.inr hlong)]
    cases h : upperName (ext.take (3 - 0)) with
    | none => rfl
    | some e =>
      have he := upperName_length h
      have hrest : ext.drop e.length ≠ [] := by
        rw [ne_eq, List.drop_eq_nil_iff]
        rw [he, List.length_take]
        omega
      simp [hrest]
  · rw [show ext.take (3 - 0) = ext from List.take_of_length_le (by omega)]
    by_cases h0 : ext = []
    · rw [if_pos (.inl h0), h0]
      rfl
    · rw [if_neg (by simp [h0, hlong])]
      cases h : upperName ext with
      | none => rfl
      | some e =>
        have he := upperName_length h
        have hne : e ≠ [] := by
          rw [← List.length_pos_iff, he]
          exact List.length_pos_iff.2 h0
        have htake : (padTo 8 b ++ padTo 3 []).take 8 = padTo 8 b := by
          rw [List.take_append_of_le_length (by omega), List.take_of_length_le (by omega)]
        have hdrop : (padTo 8 b ++ padTo 3 []).drop (8 + e.length) = List.replicate (3 - e.length) blank := by
          rw [List.drop_append, List.drop_of_length_le (by omega), h8, Nat.add_sub_cancel_left]
          exact List.drop_replicate
        have hfits : ext.drop e.length = [] := by
          rw [he, List.drop_length]
        simp only [Option.map_some, Option.bind_some, Nat.zero_add, Nat.add_zero, hfits, htake, hdrop]
        simp [hne, padTo]

/-- The two loops compute `to83`. -/
theorem to83Scan_eq (name : Name) : to83Scan name = to83 name := by
  unfold to83Scan to83
  by_cases h0 : name = []
  · rw [if_pos h0, h0]
    rfl
  rw [if_neg h0, copyPart_spec _ _ _ _ _ _ (by omega) (by simp)]
  simp only [Option.bind_eq_bind, Nat.sub_zero, Nat.zero_add, List.take_zero, List.nil_append, decide_not]
  cases hb : upperName ((name.takeWhile fun c => !decide (c = dot)).take 8) with
  | none => rfl
  | some b =>
    have hlen := upperName_length hb
    have hb8 : b.length ≤ 8 := by
      rw [hlen, List.length_take]
      omega
    simp only [Option.map_some, Option.bind_some, ← hlen, List.length_eq_zero_iff, padTo_field hb8]
    by_cases hb0 : b = []
    · rw [if_pos hb0, if_pos hb0]
    rw [if_neg hb0, if_neg hb0]
    cases name.drop b.length with
    | nil => rfl
    | cons c ext =>
      simp only
      by_cases hc : c = dot
      · rw [if_pos hc, to83Scan_ext hb8]
        simp [hc]
      · rw [if_neg hc, if_pos (.inl hc)]

/-! ## The grammar -/

/-- An ASCII letter or digit. -/
def Alnum (c : UInt8) : Prop := 48 ≤ c ∧ c ≤ 57 ∨ 65 ≤ c ∧ c ≤ 90 ∨ 97 ≤ c ∧ c ≤ 122

instance (c : UInt8) : Decidable (Alnum c) := inferInstanceAs (Decidable (_ ∨ _))

structure Part (max : Nat) (l : Name) : Prop where
  pos : 1 ≤ l.length
  le : l.length ≤ max
  alnum : ∀ c ∈ l, Alnum c

inductive Is83 : Name → Prop
  | base {b : Name} (hb : Part 8 b) : Is83 b
  | ext {b e : Name} (hb : Part 8 b) (he : Part 3 e) : Is83 (b ++ dot :: e)

theorem forall_byte {P : UInt8 → Prop} (h : ∀ n < 256, P (UInt8.ofNat n)) (c : UInt8) : P c := by
  have hc := h c.toNat c.toNat_lt
  rwa [UInt8.ofNat_toNat] at hc

theorem nameChar_foldAz (c : UInt8) : nameChar (foldAz c) = true ↔ Alnum c := by
  revert c
  exact forall_byte (by decide +kernel)

theorem alnum_folded (c : UInt8) :
    Alnum c → upper (foldAz c) ≠ blank ∧ lower (upper (foldAz c)) = foldAz c ∧ foldAz c ≠ 0 ∧
    c ≠ dot := by
  revert c
  exact forall_byte (by decide +kernel)

theorem upper_foldAz (c : UInt8) : upper (foldAz (foldAz c)) = upper (foldAz c) ∧ (foldAz c = dot ↔ c = dot) ∧
    (Alnum (foldAz c) ↔ Alnum c) := by
  revert c
  exact forall_byte (by decide +kernel)

theorem upperName_eq (l : Name) [Decidable (∀ c ∈ l, Alnum c)] :
    upperName l = if ∀ c ∈ l, Alnum c then some (l.map fun c => upper (foldAz c)) else none := by
  unfold upperName
  simp only [List.all_eq_true, nameChar_foldAz]

theorem Part.upperName {max : Nat} {l : Name} (h : Part max l) :
    upperName l = some (l.map fun c => upper (foldAz c)) := by
  rw [upperName_eq, if_pos h.alnum]

theorem Part.ne_nil {max : Nat} {l : Name} (h : Part max l) : l ≠ [] := by
  intro hl
  have hpos := h.pos
  simp [hl] at hpos

theorem Part.takeWhile {max : Nat} {l : Name} (h : Part max l) (rest : Name) :
    (l ++ dot :: rest).takeWhile (· ≠ dot) = l ∧ l.takeWhile (· ≠ dot) = l := by
  have hall : ∀ c ∈ l, decide (c ≠ dot) = true := fun c hc => by simp [(alnum_folded c (h.alnum c hc)).2.2.2]
  constructor
  · rw [List.takeWhile_append_of_pos hall, List.takeWhile_cons, if_neg (by simp), List.append_nil]
  · have hself : (l ++ []).takeWhile (· ≠ dot) = l ++ [].takeWhile (· ≠ dot) :=
      List.takeWhile_append_of_pos hall
    simpa using hself

/-- The base alone. -/
theorem to83_base {b : Name} (hb : Part 8 b) :
    to83 b = some (padTo 8 (b.map fun c => upper (foldAz c)) ++ padTo 3 []) := by
  unfold to83
  simp only [(hb.takeWhile []).2, List.take_of_length_le hb.le, hb.upperName, List.drop_length,
    List.map_eq_nil_iff, if_neg hb.ne_nil]

/-- A base and an extension. -/
theorem to83_ext {b e : Name} (hb : Part 8 b) (he : Part 3 e) : to83 (b ++ dot :: e) =
    some (padTo 8 (b.map fun c => upper (foldAz c)) ++ padTo 3 (e.map fun c => upper (foldAz c))) := by
  have hle := he.le
  have hlen : ¬ e.length > 3 := by omega
  unfold to83
  simp only [(hb.takeWhile e).1, List.take_of_length_le hb.le, hb.upperName, List.map_eq_nil_iff,
    if_neg hb.ne_nil, List.drop_left, he.upperName, Option.map_some]
  rw [if_neg (by simp [he.ne_nil, hlen])]

/-- Nothing else is accepted. -/
theorem is83_of_to83 {s a : Name} (h : to83 s = some a) : Is83 s := by
  unfold to83 at h
  simp only [upperName_eq] at h
  generalize hb : (s.takeWhile (· ≠ dot)).take 8 = b at h
  have hpre : b <+: s := hb ▸ (List.take_prefix _ _).trans (List.takeWhile_prefix _)
  obtain ⟨rest, rfl⟩ := hpre
  have hb8 : b.length ≤ 8 := by
    rw [← hb, List.length_take]
    omega
  rw [List.drop_left] at h
  by_cases hal : ∀ c ∈ b, Alnum c
  · rw [if_pos hal] at h
    simp only [List.map_eq_nil_iff] at h
    by_cases h0 : b = []
    · rw [if_pos h0] at h
      cases h
    · have hpart : Part 8 b := ⟨List.length_pos_iff.2 h0, hb8, hal⟩
      rw [if_neg h0] at h
      cases rest with
      | nil =>
        rw [List.append_nil]
        exact .base hpart
      | cons c e =>
        simp only at h
        split at h
        · cases h
        · rename_i hbad
          push Not at hbad
          obtain ⟨rfl, he0, he3⟩ := hbad
          by_cases hae : ∀ c ∈ e, Alnum c
          · exact .ext hpart ⟨List.length_pos_iff.2 he0, he3, hae⟩
          · rw [if_neg hae] at h
            cases h
  · rw [if_neg hal] at h
    cases h

/-! ## Back to a name -/

theorem takeWhile_padTo {n : Nat} {u : Name} (h : ∀ c ∈ u, c ≠ blank) :
    (padTo n u).takeWhile (· ≠ blank) = u := by
  unfold padTo
  rw [List.takeWhile_append_of_pos fun c hc => by simp [h c hc]]
  cases n - u.length with
  | zero => simp
  | succ k => simp [List.replicate_succ]

theorem range_map_ofList (l : Name) (a n : Nat) (h : a + n ≤ l.length) :
    ((List.range n).map fun i => ofList l (0 + a + i)) = (l.drop a).take n := by
  refine List.ext_getElem ?_ fun i h1 h2 => ?_
  · rw [List.length_map, List.length_range, List.length_take, List.length_drop]
    omega
  · rw [List.length_map, List.length_range] at h1
    rw [List.getElem_map, List.getElem_range, List.getElem_take, List.getElem_drop, ofList, Nat.zero_add,
      List.getD_eq_getElem?_getD, List.getElem?_eq_getElem (by omega), Option.getD_some]

/-- `fat_name` of a padded base and extension. -/
theorem fatName_padTo {u v : Name} (hu : u.length ≤ 8) (hv : v.length ≤ 3)
    (hub : ∀ c ∈ u, c ≠ blank ∧ lower c ≠ 0) (hvb : ∀ c ∈ v, c ≠ blank ∧ lower c ≠ 0) :
    fatName (ofList (padTo 8 u ++ padTo 3 v)) 0 =
      u.map lower ++ if v = [] then [] else dot :: v.map lower := by
  have h8 := padTo_length hu
  have h3 := padTo_length hv
  have hhead : ofList (padTo 8 u ++ padTo 3 v) (0 + 8) ≠ blank ↔ v ≠ [] := by
    unfold ofList
    rw [Nat.zero_add, List.getD_eq_getElem?_getD, List.getElem?_append_right (by omega), h8]
    cases v with
    | nil => simp [padTo]
    | cons c v => simpa [padTo] using (hvb c (by simp)).1
  have hchars : fatChars (ofList (padTo 8 u ++ padTo 3 v)) 0 = u.map lower ++ if v = [] then []
      else dot :: v.map lower := by
    unfold fatChars
    simp only [hhead]
    rw [range_map_ofList _ 0 8 (by simp [h8]), range_map_ofList _ 8 3 (by simp [h8, h3]), List.drop_zero,
      List.take_append_of_le_length (by omega), List.take_of_length_le (by omega),
        List.drop_append_of_le_length (by omega),
      List.drop_of_length_le (by omega), List.nil_append, List.take_of_length_le (by omega),
      takeWhile_padTo fun c hc => (hub c hc).1, takeWhile_padTo fun c hc => (hvb c hc).1]
    by_cases hv0 : v = []
    · simp [hv0]
    · simp [hv0]
  unfold fatName
  rw [hchars, List.takeWhile_eq_self_iff]
  intro c hc
  rcases List.mem_append.1 hc with hc | hc
  · obtain ⟨x, hx, rfl⟩ := List.mem_map.1 hc
    simpa using (hub x hx).2
  · split at hc
    · cases hc
    · rcases List.mem_cons.1 hc with rfl | hc
      · decide
      · obtain ⟨x, hx, rfl⟩ := List.mem_map.1 hc
        simpa using (hvb x hx).2

theorem Part.upper {max : Nat} {l : Name} (h : Part max l) :
    (∀ c ∈ l.map fun c => upper (foldAz c), c ≠ blank ∧ lower c ≠ 0) ∧
    (l.map fun c => Fs.upper (foldAz c)).map lower = l.map foldAz := by
  constructor
  · intro c hc
    obtain ⟨x, hx, rfl⟩ := List.mem_map.1 hc
    obtain ⟨h1, h2, h3, -⟩ := alnum_folded x (h.alnum x hx)
    exact ⟨h1, by rwa [h2]⟩
  · rw [List.map_map]
    exact List.map_congr_left fun x hx => (alnum_folded x (h.alnum x hx)).2.1

/-- `fat_name` gives the name back, in lower case. -/
theorem fatName_to83 {s a : Name} (h : to83 s = some a) : fatName (ofList a) 0 = s.map foldAz := by
  have hlen : ∀ {max : Nat} {l : Name}, Part max l → (l.map fun c => upper (foldAz c)).length ≤
      max := fun hp => by
    rw [List.length_map]
    exact hp.le
  cases is83_of_to83 h with
  | base hb =>
    rw [to83_base hb, Option.some.injEq] at h
    rw [← h, fatName_padTo (hlen hb) (by simp) hb.upper.1 (by simp), hb.upper.2]
    simp
  | ext hb he =>
    rw [to83_ext hb he, Option.some.injEq] at h
    rw [← h, fatName_padTo (hlen hb) (hlen he) hb.upper.1 he.upper.1, hb.upper.2, he.upper.2,
      List.map_append, List.map_cons, if_neg (by simpa using he.ne_nil)]
    rfl

theorem Part.fold {max : Nat} {l : Name} (h : Part max l) : Part max (l.map foldAz) := by
  refine ⟨?_, ?_, fun c hc => ?_⟩
  · rw [List.length_map]
    exact h.pos
  · rw [List.length_map]
    exact h.le
  · obtain ⟨x, hx, rfl⟩ := List.mem_map.1 hc
    exact (upper_foldAz x).2.2.2 (h.alnum x hx)

/-- The case of a letter does not matter. -/
theorem to83_fold {s a : Name} (h : to83 s = some a) : to83 (s.map foldAz) = some a := by
  have hup : ∀ l : Name, (l.map foldAz).map (fun c => upper (foldAz c)) = l.map fun c => upper
      (foldAz c) := fun l => by
    rw [List.map_map]
    exact List.map_congr_left fun x _ => (upper_foldAz x).1
  cases is83_of_to83 h with
  | base hb => rw [to83_base hb.fold, hup, ← to83_base hb, h]
  | ext hb he =>
    rw [List.map_append, List.map_cons, show foldAz dot = dot from rfl, to83_ext hb.fold he.fold, hup, hup,
      ← to83_ext hb he, h]

/-- **`to_83` accepts the 8.3 names and `fat_name` inverts it.** -/
theorem to83_exact : (∀ s, (to83Scan s).isSome ↔ Is83 s) ∧
    (∀ s a, to83Scan s = some a → a.length = 11 ∧ fatName (ofList a) 0 = s.map foldAz) ∧
    ∀ s t a b, to83Scan s = some a → to83Scan t = some b → (a = b ↔ s.map foldAz = t.map foldAz) := by
  simp only [to83Scan_eq]
  refine ⟨fun s => ⟨fun h => ?_, fun h => ?_⟩, fun s a h => ⟨?_, fatName_to83 h⟩,
    fun s t a b hs ht => ⟨fun h => ?_, fun h => ?_⟩⟩
  · obtain ⟨a, ha⟩ := Option.isSome_iff_exists.1 h
    exact is83_of_to83 ha
  · cases h with
    | base hb => simp [to83_base hb]
    | ext hb he => simp [to83_ext hb he]
  · cases is83_of_to83 h with
    | base hb =>
      rw [to83_base hb, Option.some.injEq] at h
      rw [← h, List.length_append, padTo_length (by simpa using hb.le)]
      rfl
    | ext hb he =>
      rw [to83_ext hb he, Option.some.injEq] at h
      rw [← h, List.length_append, padTo_length (by simpa using hb.le), padTo_length (by simpa using he.le)]
  · rw [← fatName_to83 hs, ← fatName_to83 ht, h]
  · exact Option.some.inj ((to83_fold hs).symm.trans (h ▸ to83_fold ht))

end VampireOS.Fs
