import Mathlib.Data.Nat.Digits.Lemmas
import RubiKernel.Lib.Buffer
import RubiKernel.Types

/-! `itoa` of `lib/string.c`: the digits of a number, the last one first, and their
reversal in place. A loop gets the number of turns that it may take. -/

namespace RubiKernel.Text

/-- `'0'` and the digits after it, `'A'` and the letters after it. -/
def digitChar (k : Word) : Byte := (k + if k < 10 then 48 else 65 - 10).setWidth 8

/-- The body of the loop of `strinv`. -/
def swap (str : Buffer Byte) (j size : Nat) : Buffer Byte :=
  (str.store j (str.cells size)).store size (str.cells j)

def strinv : Nat → Buffer Byte → Nat → Nat → Option (Buffer Byte)
  | 0, _, _, _ => none
  | fuel + 1, str, j, size =>
    if j < size then strinv fuel (swap str j size) (j + 1) (size - 1) else some str

/-- The loop of `itoa`: `str` and `i` behind it. -/
def itoaLoop (base : Word) : Nat → Word → Buffer Byte → Nat → Option (Buffer Byte × Nat)
  | 0, _, _, _ => none
  | fuel + 1, value, str, i =>
    if value ≠ 0 then
      itoaLoop base fuel (value / base) (str.store i (digitChar (value % base))) (i + 1)
    else some (str, i)

def itoa (fuel : Nat) (value : Word) (str : Buffer Byte) (base : Word) : Option (Buffer Byte) :=
  let start := if value = 0 then (str.store 0 48, 1) else (str, 0)
  (itoaLoop base fuel value start.1 start.2).bind fun (str, i) =>
    strinv fuel (str.store i 0) 0 (i - 1)

variable {str str' : Buffer Byte} {value base : Word} {fuel i j k size : Nat} {s t : List Byte}
  {ds : List Nat}

theorem cells_swap : (swap str j size).cells i =
    if i = size then str.cells j else if i = j then str.cells size else str.cells i := by
  simp only [swap, Buffer.cells_store]

theorem strinv_spec (str : Buffer Byte) (hj : j ≤ size + 1) (hfuel : size + 2 ≤ j + 2 * fuel) :
    ∃ str', strinv fuel str j size = some str' ∧ ∀ i, str'.cells i =
      if j ≤ i ∧ i ≤ size then str.cells (j + size - i) else str.cells i := by
  induction fuel generalizing str j size with
  | zero => omega
  | succ fuel ih =>
    rw [strinv]
    split
    · next hlt =>
      obtain ⟨str', hrun, hcells⟩ := ih (swap str j size) (show j + 1 ≤ size - 1 + 1 by omega)
        (by omega)
      refine ⟨str', hrun, fun i => ?_⟩
      rw [hcells, cells_swap, cells_swap]
      by_cases hinner : j + 1 ≤ i ∧ i ≤ size - 1
      · rw [if_pos hinner, if_neg (by omega), if_neg (by omega), if_pos (by omega)]
        congr 1
        omega
      · rw [if_neg hinner]
        by_cases hi : i = size
        · rw [if_pos hi, if_pos (by omega)]
          congr 1
          omega
        · rw [if_neg hi]
          by_cases hi' : i = j
          · rw [if_pos hi', if_pos (by omega)]
            congr 1
            omega
          · rw [if_neg hi', if_neg (by omega)]
    · next hge =>
      refine ⟨str, rfl, fun i => ?_⟩
      split
      · congr 1
        omega
      · rfl

def digitChars : List Byte :=
  (List.range 10).map (fun k => BitVec.ofNat 8 (48 + k)) ++
    (List.range 26).map (fun k => BitVec.ofNat 8 (65 + k))

def charOf (d : Nat) : Byte := digitChars.getD d 0

theorem digitChar_ofNat {d : Nat} (h : d < 36) : digitChar (BitVec.ofNat 32 d) = charOf d := by
  have hall : ∀ e ∈ List.range 36, digitChar (BitVec.ofNat 32 e) = charOf e := by decide
  exact hall d (List.mem_range.mpr h)

theorem charOf_ne_zero {d : Nat} (h : d < 36) : charOf d ≠ 0 := by
  have hall : ∀ e ∈ List.range 36, charOf e ≠ 0 := by decide
  exact hall d (List.mem_range.mpr h)

theorem charOf_inj {d e : Nat} (hd : d < 36) (he : e < 36) (h : charOf d = charOf e) : d = e := by
  have hlen : digitChars.length = 36 := by decide
  have hnodup : digitChars.Nodup := by decide
  rw [charOf, charOf, List.getD_eq_getElem?_getD, List.getD_eq_getElem?_getD,
    List.getElem?_eq_getElem (by omega), List.getElem?_eq_getElem (by omega)] at h
  exact hnodup.getElem_inj_iff.mp h

theorem itoaLoop_spec (hbase : 2 ≤ base.toNat)
    (hfuel : (Nat.digits base.toNat value.toNat).length < fuel) :
    itoaLoop base fuel value str i = some
      (str.put i ((Nat.digits base.toNat value.toNat).map fun d => digitChar (BitVec.ofNat 32 d)),
        i + (Nat.digits base.toNat value.toNat).length) := by
  induction fuel generalizing value str i with
  | zero => exact absurd hfuel (Nat.not_lt_zero _)
  | succ fuel ih =>
    rw [itoaLoop]
    by_cases hzero : value = 0
    · have hnil : Nat.digits base.toNat value.toNat = [] := by rw [hzero]; exact Nat.digits_zero _
      rw [if_neg (not_not_intro hzero), hnil]
      rfl
    · have hpos : 0 < value.toNat := by
        rw [Nat.pos_iff_ne_zero]
        exact fun h => hzero (BitVec.eq_of_toNat_eq h)
      have hcons : Nat.digits base.toNat value.toNat = (value % base).toNat ::
          Nat.digits base.toNat (value / base).toNat := by
        rw [Nat.digits_def' (by omega) hpos, BitVec.toNat_umod, BitVec.toNat_udiv]
      rw [hcons, List.length_cons] at hfuel
      rw [if_pos hzero, ih (Nat.lt_of_succ_lt_succ hfuel), hcons, List.map_cons, List.length_cons,
        Buffer.put, BitVec.ofNat_toNat, BitVec.setWidth_eq, Nat.add_right_comm, Nat.add_assoc]

/-- `ds` writes the number `n`, most significant digit first. -/
structure Numeral (base n : Nat) (ds : List Nat) : Prop where
  digits : ∀ d ∈ ds, d < base
  nonempty : ds ≠ []
  leading : ds.head? = some 0 → ds = [0]
  value : Nat.ofDigits base ds.reverse = n

def reversedDigits (base n : Nat) : List Nat := if n = 0 then [0] else Nat.digits base n

theorem numeral_reversedDigits {b n : Nat} (hb : 2 ≤ b) :
    Numeral b n (reversedDigits b n).reverse := by
  unfold reversedDigits
  split
  · next hzero =>
    subst hzero
    refine ⟨?_, by decide, fun _ => rfl, by simp⟩
    rw [List.reverse_singleton, List.forall_mem_singleton]
    omega
  · next hpos =>
    refine ⟨fun d hd => ?_, ?_, fun hhead => ?_, ?_⟩
    · exact Nat.digits_lt_base (by omega) (List.mem_reverse.mp hd)
    · rw [ne_eq, List.reverse_eq_nil_iff, Nat.digits_eq_nil_iff_eq_zero]
      exact hpos
    · rw [List.head?_reverse, List.getLast?_eq_some_getLast
        (Nat.digits_ne_nil_iff_ne_zero.mpr hpos), Option.some.injEq] at hhead
      exact absurd hhead (Nat.getLast_digit_ne_zero b hpos)
    · rw [List.reverse_reverse, Nat.ofDigits_digits]

theorem length_reversedDigits {b : Nat} (hb : 2 ≤ b) (value : Word) :
    0 < (reversedDigits b value.toNat).length ∧ (reversedDigits b value.toNat).length ≤ 32 := by
  have hnumeral := numeral_reversedDigits (n := value.toNat) hb
  have hne := List.length_pos_iff.mpr hnumeral.nonempty
  rw [List.length_reverse] at hne
  refine ⟨hne, ?_⟩
  unfold reversedDigits
  split
  · decide
  · rw [Nat.digits_length_le_iff (by omega)]
    exact value.isLt.trans_le (Nat.pow_le_pow_left hb 32)

/-- The array begins with the string `s` and its terminator. -/
def IsString (str : Buffer Byte) (s : List Byte) : Prop := str.Holds 0 (s ++ [0]) ∧ (0 : Byte) ∉ s

theorem IsString.unique (h : IsString str s) (h' : IsString str t) : s = t := by
  have hle {s t : List Byte} (h : IsString str s) (h' : IsString str t) :
      s.length ≤ t.length := by
    by_contra hlt
    have hzero := h'.1 t.length (by simp)
    have hchar := h.1 t.length (by rw [List.length_append]; omega)
    rw [List.getElem_append_left (by omega)] at hchar
    rw [List.getElem_append_right (Nat.le_refl _)] at hzero
    refine h.2 ?_
    simp only [Nat.sub_self, List.getElem_singleton] at hzero
    rw [← hzero, hchar]
    exact List.getElem_mem _
  have hlen := Nat.le_antisymm (hle h h') (hle h' h)
  refine List.ext_getElem hlen fun i hi hi' => ?_
  have hs := (Buffer.holds_append.mp h.1).1 i hi
  have ht := (Buffer.holds_append.mp h'.1).1 i hi'
  exact hs.symm.trans ht

theorem itoa_start (hbase : 2 ≤ base.toNat) (hfuel : 34 ≤ fuel) :
    itoa fuel value str base =
      strinv fuel
        ((str.put 0 ((reversedDigits base.toNat value.toNat).map fun d =>
          digitChar (BitVec.ofNat 32 d))).store (reversedDigits base.toNat value.toNat).length 0)
        0 ((reversedDigits base.toNat value.toNat).length - 1) := by
  have hlen := (length_reversedDigits hbase value).2
  rw [itoa]
  by_cases hzero : value = 0
  · subst hzero
    have hdigits : reversedDigits base.toNat (0 : Word).toNat = [0] := rfl
    have hnil : Nat.digits base.toNat (0 : Word).toNat = [] := Nat.digits_zero _
    rw [hdigits]
    simp only [if_true]
    rw [itoaLoop_spec hbase (by rw [hnil]; exact Nat.zero_lt_of_lt hfuel), hnil]
    rfl
  · have hne : value.toNat ≠ 0 := fun h => hzero (BitVec.eq_of_toNat_eq h)
    rw [reversedDigits, if_neg hne] at hlen ⊢
    simp only [hzero, if_false]
    rw [itoaLoop_spec hbase (by omega), Option.bind_some, Nat.zero_add]

theorem itoa_spec (value : Word) (str : Buffer Byte) (hbase : 2 ≤ base.toNat)
    (hbase' : base.toNat ≤ 36) (hfuel : 34 ≤ fuel) :
    ∃ str', itoa fuel value str base = some str' ∧
      IsString str' ((reversedDigits base.toNat value.toNat).reverse.map charOf) := by
  obtain ⟨hpos, hlen⟩ := length_reversedDigits hbase value
  have hnumeral := numeral_reversedDigits (n := value.toNat) hbase
  have hdigit : ∀ d ∈ reversedDigits base.toNat value.toNat, d < 36 := fun d hd =>
    (hnumeral.digits d (List.mem_reverse.mpr hd)).trans_le hbase'
  rw [itoa_start hbase hfuel, List.map_congr_left fun d hd => digitChar_ofNat (hdigit d hd)]
  generalize reversedDigits base.toNat value.toNat = ds at hpos hlen hdigit
  obtain ⟨str', hrun, hcells⟩ := strinv_spec ((str.put 0 (ds.map charOf)).store ds.length 0)
    (show 0 ≤ ds.length - 1 + 1 by omega) (show ds.length - 1 + 2 ≤ 0 + 2 * fuel by omega)
  refine ⟨str', hrun, Buffer.holds_append.mpr ⟨fun i hi => ?_, fun i hi => ?_⟩, fun hmem => ?_⟩
  · rw [List.length_map, List.length_reverse] at hi
    have hput := Buffer.holds_put (b := str) (p := 0) (l := ds.map charOf) (ds.length - 1 - i)
      (by rw [List.length_map]; omega)
    rw [hcells, if_pos (by omega), Buffer.cells_store, if_neg (by omega), List.getElem_map,
      List.getElem_reverse]
    simp only [Nat.zero_add, List.getElem_map] at hput ⊢
    exact hput
  · obtain rfl : i = 0 := Nat.lt_one_iff.mp hi
    rw [List.length_map, List.length_reverse, hcells, if_neg (by omega), Buffer.cells_store,
      if_pos (by omega)]
    rfl
  · obtain ⟨d, hd, hchar⟩ := List.mem_map.mp hmem
    exact charOf_ne_zero (hdigit d (List.mem_reverse.mp hd)) hchar

theorem Numeral.ext {b n m : Nat} {ds es : List Nat} (hb : b ≤ 36) (h : Numeral b n ds)
    (h' : Numeral b m es) (heq : ds.map charOf = es.map charOf) : n = m := by
  have hsame : ds = es := by
    have hlen := congrArg List.length heq
    rw [List.length_map, List.length_map] at hlen
    refine List.ext_getElem hlen fun i hi hi' => ?_
    have hchar := List.getElem_of_eq heq (i := i) (by rwa [List.length_map])
    rw [List.getElem_map, List.getElem_map] at hchar
    exact charOf_inj ((h.digits _ (List.getElem_mem hi)).trans_le hb)
      ((h'.digits _ (List.getElem_mem hi')).trans_le hb) hchar
  rw [← h.value, ← h'.value, hsame]

/-- `itoa` ends for every number and base, with the string of the numeral; numbers with one
string are one. -/
theorem itoa_numeral (hbase : 2 ≤ base.toNat) (hbase' : base.toNat ≤ 36) :
    (∀ fuel value str, 34 ≤ fuel → ∃ str' ds, itoa fuel value str base = some str' ∧
      Numeral base.toNat value.toNat ds ∧ IsString str' (ds.map charOf)) ∧
    ∀ fuel value value' str₁ str₂ r₁ r₂ s, 34 ≤ fuel → itoa fuel value str₁ base = some r₁ →
      itoa fuel value' str₂ base = some r₂ → IsString r₁ s → IsString r₂ s → value = value' := by
  have hspec (fuel : Nat) (value : Word) (str : Buffer Byte) (hfuel : 34 ≤ fuel) :
      ∃ str' ds, itoa fuel value str base = some str' ∧
        Numeral base.toNat value.toNat ds ∧ IsString str' (ds.map charOf) := by
    obtain ⟨str', hrun, hstring⟩ := itoa_spec value str hbase hbase' hfuel
    exact ⟨str', _, hrun, numeral_reversedDigits hbase, hstring⟩
  refine ⟨hspec, ?_⟩
  intro fuel value value' str₁ str₂ r₁ r₂ s hfuel hrun₁ hrun₂ hs₁ hs₂
  obtain ⟨r₁', ds, hrun₁', hds, hstring₁⟩ := hspec fuel value str₁ hfuel
  obtain ⟨r₂', es, hrun₂', hes, hstring₂⟩ := hspec fuel value' str₂ hfuel
  obtain rfl : r₁ = r₁' := Option.some.inj (hrun₁.symm.trans hrun₁')
  obtain rfl : r₂ = r₂' := Option.some.inj (hrun₂.symm.trans hrun₂')
  have hchars : ds.map charOf = es.map charOf :=
    (hstring₁.unique hs₁).trans (hs₂.unique hstring₂)
  exact BitVec.eq_of_toNat_eq (hds.ext hbase' hes hchars)

theorem itoa_numeral_example : ∃ str' ds, itoa 34 255 ⟨fun _ => 0, []⟩ 16 = some str' ∧
    Numeral 16 255 ds ∧ IsString str' (ds.map charOf) :=
  (itoa_numeral (show 2 ≤ (16 : Word).toNat by decide) (by decide)).1 34 255 ⟨fun _ => 0, []⟩
    (by decide)

end RubiKernel.Text
