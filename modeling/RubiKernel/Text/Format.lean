import RubiKernel.Text.Itoa

/-! `vsprintf` of `lib/string.c` over a format in memory, with the indices it reads, and a
reference formatter over the characters of the format. -/

namespace RubiKernel.Text

def percent : Byte := 37

/-- `'x'`, `'X'`, `'i'`, `'d'`, `'u'`, `'s'` and `'c'`. -/
def directives : List Byte := [120, 88, 105, 100, 117, 115, 99]

/-- The local variables of `vsprintf`, and `reads` for the indices of the format read so
far; `argI` counts the values taken from the list. -/
structure Printer where
  srcI : Nat
  dstI : Nat
  argI : Nat
  rt : Buffer Byte
  out : Buffer Byte
  reads : List Nat

/-- The characters of `rt` before the terminator. -/
def stringIn (rt : Buffer Byte) : List Byte :=
  ((List.range 32).map rt.cells).takeWhile (· ≠ 0)

/-- The cases of a number, padded with `'0'` to `width`. -/
def printNumber (p : Printer) (num base : Word) (width : Nat) : Option Printer :=
  (itoa 34 num p.rt base).map fun rt =>
    let num2 := width - (stringIn rt).length
    { p with
      rt := rt
      out := (p.out.fill p.dstI num2 48).put (p.dstI + num2) (stringIn rt)
      dstI := p.dstI + num2 + (stringIn rt).length
      srcI := p.srcI + 2
      argI := p.argI + 1 }

section

variable (strAt : Word → List Byte) (args : Nat → Word) (s2 : Nat → Byte)

/-- One turn of the loop. `strAt` has the string at a pointer, and `args` the values from
the start of the list on. -/
def vsprintfTurn (p : Printer) : Option Printer :=
  let num := args p.argI
  if s2 p.srcI = percent then
    let p := { p with reads := (p.srcI + 1) :: p.reads }
    if s2 (p.srcI + 1) = 120 then printNumber p num 16 0
    else if s2 (p.srcI + 1) = 88 then printNumber p num 16 8
    else if s2 (p.srcI + 1) = 105 ∨ s2 (p.srcI + 1) = 100 ∨ s2 (p.srcI + 1) = 117 then
      printNumber p num 10 0
    else if s2 (p.srcI + 1) = 115 then
      some { p with
        out := p.out.put p.dstI (strAt num)
        dstI := p.dstI + (strAt num).length
        srcI := p.srcI + 2
        argI := p.argI + 1 }
    else if s2 (p.srcI + 1) = 99 then
      -- without a `break` the step of the default case follows
      some { p with
        out := p.out.store p.dstI (num.setWidth 8)
        dstI := p.dstI + 1
        srcI := p.srcI + 2 + 1
        argI := p.argI + 1 }
    else some { p with srcI := p.srcI + 1 }
  else
    some { p with
      out := p.out.store p.dstI (s2 p.srcI)
      srcI := p.srcI + 1
      dstI := p.dstI + 1 }

/-- The loop, with the number of turns that it may take. -/
def vsprintfLoop : Nat → Printer → Option Printer
  | 0, _ => none
  | fuel + 1, p =>
    let p := { p with reads := p.srcI :: p.reads }
    if s2 p.srcI ≠ 0 then (vsprintfTurn strAt args s2 p).bind (vsprintfLoop fuel) else some p

/-- What is written to `s1`, the value returned and the indices read. -/
def vsprintf (fuel : Nat) (s1 rt : Buffer Byte) : Option (Buffer Byte × Nat × List Nat) :=
  (vsprintfLoop strAt args s2 fuel ⟨0, 0, 0, rt, s1, []⟩).map fun p =>
    (p.out.store p.dstI 0, p.dstI, p.reads)

end

def numeralText (base : Nat) (w : Word) : List Byte :=
  (reversedDigits base w.toNat).reverse.map charOf

def render (strAt : Word → List Byte) (d : Byte) (w : Word) : List Byte :=
  if d = 120 then numeralText 16 w
  else if d = 88 then
    List.replicate (8 - (numeralText 16 w).length) 48 ++ numeralText 16 w
  else if d = 115 then strAt w
  else if d = 99 then [w.setWidth 8]
  else numeralText 10 w

/-- The text that a format stands for: a `'%'` before any other character is dropped. -/
def reference (strAt : Word → List Byte) : (Nat → Word) → List Byte → List Byte
  | _, [] => []
  | _, [c] => if c = percent then [] else [c]
  | args, c :: d :: rest =>
    if c = percent then
      if d ∈ directives then
        render strAt d (args 0) ++ reference strAt (fun i => args (i + 1)) rest
      else reference strAt args (d :: rest)
    else c :: reference strAt args (d :: rest)

/-- The text that is produced; `none` when a character behind the format is looked at. -/
def produced (strAt : Word → List Byte) : (Nat → Word) → List Byte → Option (List Byte)
  | _, [] => some []
  | _, [c] => some (if c = percent then [] else [c])
  | args, c :: d :: rest =>
    if c = percent then
      if d = 99 then
        match rest with
        | [] => none
        | _ :: rest =>
          (produced strAt (fun i => args (i + 1)) rest).map (render strAt d (args 0) ++ ·)
      else if d ∈ directives then
        (produced strAt (fun i => args (i + 1)) rest).map (render strAt d (args 0) ++ ·)
      else produced strAt args (d :: rest)
    else (produced strAt args (d :: rest)).map (c :: ·)

inductive Scan : List Byte → Prop
  | done : Scan []
  | literal {c l} : c ≠ percent → Scan l → Scan (c :: l)
  | dropped {l} : l.headD 0 ∉ directives → Scan l → Scan (percent :: l)
  | directive {d rest} : d ∈ directives → Scan rest → Scan (percent :: d :: rest)

theorem scan : (l : List Byte) → Scan l
  | [] => .done
  | [c] => if hc : c = percent then hc ▸ .dropped (by decide) .done else .literal hc .done
  | c :: d :: rest =>
    if hc : c = percent then
      if hd : d ∈ directives then hc ▸ .directive hd (scan rest)
      else hc ▸ .dropped hd (scan (d :: rest))
    else .literal hc (scan (d :: rest))

variable {strAt : Word → List Byte} {args : Nat → Word} {s2 : Nat → Byte} {p p' : Printer}
  {rt s1 : Buffer Byte} {pre o s fmt l rest : List Byte} {c d : Byte} {num base : Word}
  {n src arg i fuel width : Nat}

theorem reference_literal (hc : c ≠ percent) :
    reference strAt args (c :: l) = c :: reference strAt args l := by
  cases l <;> simp [reference, hc]

theorem reference_dropped (hl : l.headD 0 ∉ directives) :
    reference strAt args (percent :: l) = reference strAt args l := by
  cases l with
  | nil => simp [reference]
  | cons d rest => simp [reference, show d ∉ directives from hl]

theorem reference_directive (hd : d ∈ directives) :
    reference strAt args (percent :: d :: rest) =
      render strAt d (args 0) ++ reference strAt (fun i => args (i + 1)) rest := by
  simp [reference, hd]

theorem produced_literal (hc : c ≠ percent) :
    produced strAt args (c :: l) = (produced strAt args l).map (c :: ·) := by
  cases l with
  | nil => simp [produced, hc]
  | cons d l =>
    rw [produced.eq_def]
    simp [hc]

theorem produced_dropped (hl : l.headD 0 ∉ directives) :
    produced strAt args (percent :: l) = produced strAt args l := by
  cases l with
  | nil => simp [produced]
  | cons d rest =>
    have hd : d ∉ directives := hl
    have hchar : d ≠ 99 := by
      rintro rfl
      exact hd (by decide)
    rw [produced.eq_def]
    simp only [if_true, if_neg hchar, if_neg hd]

theorem produced_directive (hd : d ∈ directives) (hne : d ≠ 99) :
    produced strAt args (percent :: d :: rest) =
      (produced strAt (fun i => args (i + 1)) rest).map (render strAt d (args 0) ++ ·) := by
  rw [produced.eq_def]
  simp only [if_true, if_neg hne, if_pos hd]

theorem produced_char (e : Byte) : produced strAt args (percent :: 99 :: e :: rest) =
    (produced strAt (fun i => args (i + 1)) rest).map (render strAt 99 (args 0) ++ ·) := by
  simp [produced]

theorem produced_char_end : produced strAt args [percent, 99] = none := by
  simp [produced]

theorem stringIn_eq (h : IsString rt s) (hlen : s.length < 32) : stringIn rt = s := by
  obtain ⟨k, hk⟩ := Nat.exists_eq_add_of_le (Nat.succ_le_of_lt hlen)
  have hchars : (List.range s.length).map rt.cells = s := by
    refine List.ext_getElem (by simp) fun i hi hi' => ?_
    rw [List.getElem_map, List.getElem_range]
    have hchar := (Buffer.holds_append.mp h.1).1 i hi'
    rwa [Nat.zero_add] at hchar
  have hzero : rt.cells s.length = 0 := by
    have hend := (Buffer.holds_append.mp h.1).2 0 (by simp)
    simpa using hend
  have hall : ∀ b ∈ s, decide (b ≠ 0) = true := by
    intro b hb
    rw [decide_eq_true_eq]
    rintro rfl
    exact h.2 hb
  rw [stringIn, hk, Nat.succ_add_eq_add_succ, List.range_add, List.map_append, hchars,
    List.takeWhile_append_of_pos hall, List.range_succ_eq_map]
  simp [hzero]

theorem numeralText_length (hbase : 10 ≤ base.toNat) (num : Word) :
    (numeralText base.toNat num).length ≤ 10 := by
  rw [numeralText, List.length_map, List.length_reverse]
  unfold reversedDigits
  split
  · decide
  · rw [Nat.digits_length_le_iff (by omega)]
    have hnum := num.isLt
    have hpow : 10 ^ 10 ≤ base.toNat ^ 10 := Nat.pow_le_pow_left hbase 10
    omega

/-- The state in front of the index `src` of a format with its terminator at `n`, after
the text `pre` and `arg` values. -/
structure At (n src arg : Nat) (pre : List Byte) (p : Printer) : Prop where
  src : p.srcI = src
  arg : p.argI = arg
  dst : p.dstI = pre.length
  out : p.out.Holds 0 pre
  reads : ∀ r ∈ p.reads, r ≤ n

theorem At.read {k : Nat} (h : At n src arg pre p) (hk : k ≤ n) :
    At n src arg pre { p with reads := k :: p.reads } :=
  ⟨h.src, h.arg, h.dst, h.out, List.forall_mem_cons.mpr ⟨hk, h.reads⟩⟩

theorem At.put (h : At n src arg pre p) (s : List Byte) (src' arg' : Nat) :
    At n src' arg' (pre ++ s) { p with
      out := p.out.put p.dstI s
      dstI := p.dstI + s.length
      srcI := src'
      argI := arg' } where
  src := rfl
  arg := rfl
  dst := by rw [List.length_append, ← h.dst]
  out := by
    have hput := h.out.put_append s
    rwa [Nat.zero_add, ← h.dst] at hput
  reads := h.reads

theorem At.printNumber (h : At n src arg pre p) (num base : Word) (hbase : 10 ≤ base.toNat)
    (hbase' : base.toNat ≤ 36) (width : Nat) :
    ∃ p', printNumber p num base width = some p' ∧
      At n (src + 2) (arg + 1)
        (pre ++ (List.replicate (width - (numeralText base.toNat num).length) 48 ++
          numeralText base.toNat num)) p' := by
  obtain ⟨rt, hrun, hstring⟩ := itoa_spec num p.rt (by omega) hbase' (Nat.le_refl 34)
  have htext : stringIn rt = numeralText base.toNat num :=
    stringIn_eq hstring ((numeralText_length hbase num).trans_lt (by decide))
  refine ⟨_, by rw [Text.printNumber, hrun]; rfl, ?_⟩
  simp only [htext]
  have hfill := h.out.fill_append (width - (numeralText base.toNat num).length) 48
  have hput := hfill.put_append (numeralText base.toNat num)
  rw [Nat.zero_add, Nat.zero_add, List.length_append, List.length_replicate, ← h.dst,
    List.append_assoc] at hput
  refine ⟨by rw [h.src], by rw [h.arg], ?_, hput, h.reads⟩
  simp only [List.length_append, List.length_replicate, h.dst, Nat.add_assoc]

theorem At.turn_directive (strAt : Word → List Byte) (args : Nat → Word)
    (h : At n src arg pre p) (hn : src + 1 ≤ n) (hc : s2 src = percent)
    (hd : s2 (src + 1) = d) (hmem : d ∈ directives) (hne : d ≠ 99) :
    ∃ p', vsprintfTurn strAt args s2 p = some p' ∧
      At n (src + 2) (arg + 1) (pre ++ render strAt d (args arg)) p' := by
  have hread := h.read hn
  obtain ⟨rfl, rfl⟩ : src = p.srcI ∧ arg = p.argI := ⟨h.src.symm, h.arg.symm⟩
  simp only [directives, List.mem_cons, List.not_mem_nil, or_false] at hmem
  simp only [vsprintfTurn, hc, hd, if_true]
  rcases hmem with rfl | rfl | rfl | rfl | rfl | rfl | rfl
  · simpa [render] using hread.printNumber (args p.argI) 16 (by decide) (by decide) 0
  · simpa [render] using hread.printNumber (args p.argI) 16 (by decide) (by decide) 8
  · simpa [render] using hread.printNumber (args p.argI) 10 (by decide) (by decide) 0
  · simpa [render] using hread.printNumber (args p.argI) 10 (by decide) (by decide) 0
  · simpa [render] using hread.printNumber (args p.argI) 10 (by decide) (by decide) 0
  · exact ⟨_, rfl, hread.put (strAt (args p.argI)) (p.srcI + 2) (p.argI + 1)⟩
  · exact absurd rfl hne

theorem At.turn_char (strAt : Word → List Byte) (args : Nat → Word)
    (h : At n src arg pre p) (hn : src + 1 ≤ n) (hc : s2 src = percent)
    (hd : s2 (src + 1) = 99) :
    ∃ p', vsprintfTurn strAt args s2 p = some p' ∧
      At n (src + 3) (arg + 1) (pre ++ render strAt 99 (args arg)) p' := by
  have hread := h.read hn
  obtain ⟨rfl, rfl⟩ : src = p.srcI ∧ arg = p.argI := ⟨h.src.symm, h.arg.symm⟩
  simp only [vsprintfTurn, hc, hd, if_true]
  exact ⟨_, rfl, hread.put [(args p.argI).setWidth 8] (p.srcI + 3) (p.argI + 1)⟩

theorem At.turn_dropped (strAt : Word → List Byte) (args : Nat → Word)
    (h : At n src arg pre p) (hn : src + 1 ≤ n) (hc : s2 src = percent)
    (hd : s2 (src + 1) = d) (hmem : d ∉ directives) :
    ∃ p', vsprintfTurn strAt args s2 p = some p' ∧ At n (src + 1) arg pre p' := by
  have hread := h.read hn
  obtain ⟨rfl, rfl⟩ : src = p.srcI ∧ arg = p.argI := ⟨h.src.symm, h.arg.symm⟩
  simp only [directives, List.mem_cons, List.not_mem_nil, or_false, not_or] at hmem
  obtain ⟨hx, hX, hi, hd', hu, hs, hchar⟩ := hmem
  simp only [vsprintfTurn, hc, hd, if_true, hx, hX, hi, hd', hu, hs, hchar, if_false, or_false]
  exact ⟨_, rfl, ⟨rfl, rfl, hread.dst, hread.out, hread.reads⟩⟩

theorem At.turn_literal (strAt : Word → List Byte) (args : Nat → Word)
    (h : At n src arg pre p) (hc : s2 src ≠ percent) :
    ∃ p', vsprintfTurn strAt args s2 p = some p' ∧ At n (src + 1) arg (pre ++ [s2 src]) p' := by
  obtain ⟨rfl, rfl⟩ : src = p.srcI ∧ arg = p.argI := ⟨h.src.symm, h.arg.symm⟩
  simp only [vsprintfTurn, hc, if_false]
  exact ⟨_, rfl, h.put [s2 p.srcI] (p.srcI + 1) p.argI⟩

/-- The characters `l` of a format from the index `i` on, and its terminator. -/
structure FormatAt (s2 : Nat → Byte) (i : Nat) (l : List Byte) : Prop where
  chars : ∀ j (h : j < l.length), s2 (i + j) = l[j]
  nul : s2 (i + l.length) = 0
  noNul : (0 : Byte) ∉ l

theorem FormatAt.tail (h : FormatAt s2 i (c :: l)) : FormatAt s2 (i + 1) l where
  chars j hj := by
    rw [Nat.add_assoc, Nat.add_comm 1]
    exact h.chars (j + 1) (Nat.succ_lt_succ hj)
  nul := by
    have hnul := h.nul
    rwa [List.length_cons, Nat.add_comm l.length, ← Nat.add_assoc] at hnul
  noNul hmem := h.noNul (List.mem_cons_of_mem c hmem)

theorem FormatAt.headD (h : FormatAt s2 i l) : s2 i = l.headD 0 := by
  cases l with
  | nil => exact h.nul
  | cons c l => exact h.chars 0 (Nat.succ_pos _)

theorem FormatAt.head_ne_zero (h : FormatAt s2 i (c :: l)) : s2 i ≠ 0 := by
  rw [h.headD]
  rintro rfl
  exact h.noNul List.mem_cons_self

theorem vsprintfLoop_succ (hsrc : p.srcI = i) (hne : s2 i ≠ 0) :
    vsprintfLoop strAt args s2 (fuel + 1) p =
      (vsprintfTurn strAt args s2 { p with reads := i :: p.reads }).bind
        (vsprintfLoop strAt args s2 fuel) := by
  subst hsrc
  rw [vsprintfLoop, if_pos hne]

theorem shift_args (args : Nat → Word) (arg : Nat) :
    (fun k => args (arg + (k + 1))) = fun k => args (arg + 1 + k) := by
  funext k
  rw [Nat.add_right_comm, Nat.add_assoc]

/-- One turn produces some text and leaves the rest `l'` of the format, or it passes by the
terminator, when nothing is produced. -/
theorem At.turn (strAt : Word → List Byte) (args : Nat → Word) (hp : At n i arg pre p)
    (hn : i + l.length = n) (hfmt : FormatAt s2 i l) (hl : l ≠ []) :
    ∃ p₁, vsprintfTurn strAt args s2 { p with reads := i :: p.reads } = some p₁ ∧
      ((∃ o l' src' arg', At n src' arg' (pre ++ o) p₁ ∧ src' + l'.length = n ∧
        FormatAt s2 src' l' ∧ l'.length < l.length ∧
        produced strAt (fun k => args (arg + k)) l =
          (produced strAt (fun k => args (arg' + k)) l').map (o ++ ·)) ∨
      produced strAt (fun k => args (arg + k)) l = none ∧ n < p₁.srcI) := by
  have hread := hp.read (k := i) (by omega)
  cases scan l with
  | done => exact absurd rfl hl
  | @literal c l hc _ =>
    rw [List.length_cons] at hn
    have hchar : s2 i = c := hfmt.headD
    obtain ⟨p₁, hturn, hp₁⟩ := hread.turn_literal strAt args (hchar ▸ hc : s2 i ≠ percent)
    rw [hchar] at hp₁
    exact ⟨p₁, hturn, Or.inl ⟨[c], l, i + 1, arg, hp₁, by omega, hfmt.tail, Nat.lt_succ_self _,
      produced_literal hc⟩⟩
  | @dropped l hdrop _ =>
    rw [List.length_cons] at hn
    obtain ⟨p₁, hturn, hp₁⟩ := hread.turn_dropped strAt args (by omega) hfmt.headD
      hfmt.tail.headD hdrop
    refine ⟨p₁, hturn, Or.inl ⟨[], l, i + 1, arg, by rwa [List.append_nil], by omega, hfmt.tail,
      Nat.lt_succ_self _, ?_⟩⟩
    rw [produced_dropped hdrop]
    exact Option.map_id'.symm
  | @directive d rest hd _ =>
    rw [List.length_cons, List.length_cons] at hn
    have hnext := hfmt.tail
    by_cases hchar : d = 99
    · subst hchar
      obtain ⟨p₁, hturn, hp₁⟩ := hread.turn_char strAt args (by omega) hfmt.headD hnext.headD
      refine ⟨p₁, hturn, ?_⟩
      cases rest with
      | nil =>
        refine Or.inr ⟨produced_char_end, ?_⟩
        rw [hp₁.src, ← hn]
        simp
      | cons e rest =>
        rw [List.length_cons] at hn
        refine Or.inl ⟨_, rest, i + 3, arg + 1, hp₁, by omega, hnext.tail.tail, ?_, ?_⟩
        · simp only [List.length_cons]
          omega
        · rw [produced_char, shift_args]
          rfl
    · obtain ⟨p₁, hturn, hp₁⟩ := hread.turn_directive strAt args (by omega) hfmt.headD
        hnext.headD hd hchar
      refine ⟨p₁, hturn, Or.inl ⟨_, rest, i + 2, arg + 1, hp₁, by omega, hnext.tail, ?_, ?_⟩⟩
      · simp only [List.length_cons]
        omega
      · rw [produced_directive hd hchar, shift_args]
        rfl

theorem At.loop (hp : At n i arg pre p) (hn : i + l.length = n) (hfmt : FormatAt s2 i l)
    (hprod : produced strAt (fun k => args (arg + k)) l = some o) (hfuel : l.length < fuel) :
    ∃ p' src' arg', vsprintfLoop strAt args s2 fuel p = some p' ∧
      At n src' arg' (pre ++ o) p' := by
  induction fuel generalizing i arg pre p l o with
  | zero => exact absurd hfuel (Nat.not_lt_zero _)
  | succ fuel ih =>
    cases l with
    | nil =>
      obtain rfl : [] = o := by simpa [produced] using hprod
      have hzero : ¬s2 p.srcI ≠ 0 := by
        rw [hp.src]
        exact not_not_intro hfmt.nul
      refine ⟨_, i, arg, by rw [vsprintfLoop, if_neg hzero], ?_⟩
      rw [List.append_nil]
      exact hp.read (by rw [hp.src, ← hn]; exact Nat.le_refl _)
    | cons c l =>
      obtain ⟨p₁, hturn, hgo | ⟨hnone, -⟩⟩ := hp.turn strAt args hn hfmt (List.cons_ne_nil c l)
      · obtain ⟨o₁, l', src₁, arg₁, hp₁, hn₁, hrest, hlt, hstep⟩ := hgo
        obtain ⟨o', hprod', rfl⟩ := Option.map_eq_some_iff.mp (hstep.symm.trans hprod)
        obtain ⟨p', src', arg', hloop, hp'⟩ := ih hp₁ hn₁ hrest hprod' (by omega)
        refine ⟨p', src', arg', ?_, by rwa [← List.append_assoc]⟩
        rw [vsprintfLoop_succ hp.src hfmt.head_ne_zero, hturn]
        exact hloop
      · rw [hnone] at hprod
        cases hprod

theorem printNumber_reads (h : printNumber p num base width = some p') : p'.reads = p.reads := by
  obtain ⟨rt, -, rfl⟩ := Option.map_eq_some_iff.mp h
  rfl

theorem vsprintfTurn_reads (h : vsprintfTurn strAt args s2 p = some p') {r : Nat}
    (hr : r ∈ p.reads) : r ∈ p'.reads := by
  simp only [vsprintfTurn] at h
  have hmore : r ∈ (p.srcI + 1) :: p.reads := List.mem_cons_of_mem _ hr
  split at h
  · split at h
    · rwa [printNumber_reads h]
    split at h
    · rwa [printNumber_reads h]
    split at h
    · rwa [printNumber_reads h]
    split at h
    · rwa [← Option.some.inj h]
    split at h
    · rwa [← Option.some.inj h]
    · rwa [← Option.some.inj h]
  · rwa [← Option.some.inj h]

theorem vsprintfLoop_reads (h : vsprintfLoop strAt args s2 fuel p = some p') {r : Nat}
    (hr : r ∈ p.srcI :: p.reads) : r ∈ p'.reads := by
  induction fuel generalizing p with
  | zero => cases h
  | succ fuel ih =>
    rw [vsprintfLoop] at h
    split at h
    · obtain ⟨p₁, hturn, hloop⟩ := Option.bind_eq_some_iff.mp h
      exact ih hloop (List.mem_cons_of_mem _ (vsprintfTurn_reads hturn hr))
    · rwa [← Option.some.inj h]

/-- A `%c` at the end of the format takes the loop past the terminator. -/
theorem At.overread (hp : At n i arg pre p) (hn : i + l.length = n) (hfmt : FormatAt s2 i l)
    (hprod : produced strAt (fun k => args (arg + k)) l = none)
    (hloop : vsprintfLoop strAt args s2 fuel p = some p') : ∃ r ∈ p'.reads, n < r := by
  induction fuel generalizing i arg pre p l with
  | zero => cases hloop
  | succ fuel ih =>
    cases l with
    | nil => simp [produced] at hprod
    | cons c l =>
      obtain ⟨p₁, hturn, hnext⟩ := hp.turn strAt args hn hfmt (List.cons_ne_nil c l)
      rw [vsprintfLoop_succ hp.src hfmt.head_ne_zero, hturn, Option.bind_some] at hloop
      rcases hnext with ⟨o₁, l', src₁, arg₁, hp₁, hn₁, hrest, -, hstep⟩ | ⟨-, hpast⟩
      · exact ih hp₁ hn₁ hrest (Option.map_eq_none_iff.mp (hstep.symm.trans hprod)) hloop
      · exact ⟨p₁.srcI, vsprintfLoop_reads hloop List.mem_cons_self, hpast⟩

/-- The call ends, with the text of the reference and its terminator at `s1` and its length
as the value, and without a look behind the format. -/
def Formats (strAt : Word → List Byte) (args : Nat → Word) (s2 : Nat → Byte)
    (s1 rt : Buffer Byte) (fmt : List Byte) : Prop :=
  ∀ fuel, fmt.length < fuel → ∃ out ret reads,
    vsprintf strAt args s2 fuel s1 rt = some (out, ret, reads) ∧
      out.Holds 0 (reference strAt args fmt ++ [0]) ∧ ret = (reference strAt args fmt).length ∧
      ∀ r ∈ reads, r ≤ fmt.length

/-- The call does what the characters of the format say one by one. -/
theorem formats_iff_produced (hfmt : FormatAt s2 0 fmt) :
    Formats strAt args s2 s1 rt fmt ↔ produced strAt args fmt = some (reference strAt args fmt) := by
  have hstart : At fmt.length 0 0 [] ⟨0, 0, 0, rt, s1, []⟩ :=
    ⟨rfl, rfl, rfl, fun i h => absurd h (Nat.not_lt_zero i), by simp⟩
  have hargs : (fun k => args (0 + k)) = args := by
    funext k
    rw [Nat.zero_add]
  constructor
  · intro h
    obtain ⟨out, ret, reads, hrun, hout, hret, hreads⟩ := h (fmt.length + 1) (Nat.lt_succ_self _)
    obtain ⟨p', hloop, heq⟩ := Option.map_eq_some_iff.mp hrun
    obtain ⟨rfl, rfl, rfl⟩ : p'.out.store p'.dstI 0 = out ∧ p'.dstI = ret ∧ p'.reads = reads := by
      simpa using heq
    cases hprod : produced strAt args fmt with
    | none =>
      obtain ⟨r, hr, hlt⟩ := hstart.overread (Nat.zero_add _) hfmt (by rwa [hargs]) hloop
      exact absurd (hreads r hr) (Nat.not_le.mpr hlt)
    | some o =>
      obtain ⟨p'', src', arg', hloop', hp''⟩ := hstart.loop (Nat.zero_add _) hfmt
        (by rwa [hargs]) (Nat.lt_succ_self _)
      obtain rfl : p' = p'' := Option.some.inj (hloop.symm.trans hloop')
      congr 1
      have hlen : o.length = (reference strAt args fmt).length := by rw [← hret, hp''.dst]; rfl
      refine List.ext_getElem hlen fun i hi hi' => ?_
      have hchar := hp''.out i hi
      have href := (Buffer.holds_append.mp hout).1 i hi'
      rw [Buffer.cells_store, if_neg (by omega)] at href
      exact hchar.symm.trans href
  · intro hprod fuel hfuel
    obtain ⟨p', src', arg', hloop, hp'⟩ := hstart.loop (Nat.zero_add _) hfmt
      (by rwa [hargs]) hfuel
    refine ⟨p'.out.store p'.dstI 0, p'.dstI, p'.reads, by rw [vsprintf, hloop]; rfl, ?_, hp'.dst,
      hp'.reads⟩
    have hstore := hp'.out.store_append (v := 0)
    rwa [Nat.zero_add, ← hp'.dst] at hstore

/-- A format that begins with a `'%'` that is dropped. -/
def DropsFirst (l : List Byte) : Prop := l.headD 0 = percent ∧ l.tail.headD 0 ∉ directives

/-- Behind every `%c` is a `'%'` that is dropped. -/
def CharsPadded : List Byte → Prop
  | c :: d :: rest =>
    if c = percent then
      if d ∈ directives then (d = 99 → DropsFirst rest) ∧ CharsPadded rest
      else CharsPadded (d :: rest)
    else CharsPadded (d :: rest)
  | _ => True

theorem charsPadded_literal (hc : c ≠ percent) : CharsPadded (c :: l) ↔ CharsPadded l := by
  cases l <;> simp [CharsPadded, hc]

theorem charsPadded_dropped (hl : l.headD 0 ∉ directives) :
    CharsPadded (percent :: l) ↔ CharsPadded l := by
  cases l with
  | nil => simp [CharsPadded]
  | cons d rest => simp [CharsPadded, show d ∉ directives from hl]

theorem charsPadded_directive (hd : d ∈ directives) :
    CharsPadded (percent :: d :: rest) ↔ (d = 99 → DropsFirst rest) ∧ CharsPadded rest := by
  simp [CharsPadded, hd]

theorem dropsFirst_iff : DropsFirst l ↔ ∃ rest, l = percent :: rest ∧ rest.headD 0 ∉ directives := by
  cases l with
  | nil => simp [DropsFirst, percent]
  | cons c rest => simp [DropsFirst]

theorem produced_of_charsPadded (h : CharsPadded l) :
    produced strAt args l = some (reference strAt args l) := by
  induction scan l generalizing args with
  | done => rfl
  | literal hc _ ih =>
    rw [produced_literal hc, reference_literal hc, ih ((charsPadded_literal hc).mp h)]
    rfl
  | dropped hl _ ih =>
    rw [produced_dropped hl, reference_dropped hl, ih ((charsPadded_dropped hl).mp h)]
  | @directive d rest hd _ ih =>
    obtain ⟨hpad, hrest⟩ := (charsPadded_directive hd).mp h
    rw [reference_directive hd]
    by_cases hchar : d = 99
    · subst hchar
      obtain ⟨tail, rfl, htail⟩ := dropsFirst_iff.mp (hpad rfl)
      rw [produced_char, ← produced_dropped htail, ih hrest]
      rfl
    · rw [produced_directive hd hchar, ih hrest]
      rfl

/-- Every value is 100, and every string has two characters: the text of a directive
is not its character, and only that of `%c` is as short. -/
def sampleArgs : Nat → Word := fun _ => 100

def sampleStr : Word → List Byte := fun _ => [97, 98]

theorem render_sample (hd : d ∈ directives) :
    ∃ e s, render sampleStr d 100 = e :: s ∧ e ≠ d := by
  have hall : ∀ d ∈ directives, (render sampleStr d 100).head?.any (· ≠ d) := by decide
  obtain ⟨e, he, hne⟩ := (Option.any_eq_true ..).mp (hall d hd)
  obtain ⟨s, hs⟩ := List.head?_eq_some_iff.mp he
  exact ⟨e, s, hs, of_decide_eq_true hne⟩

theorem directive_ne_percent (hd : d ∈ directives) : d ≠ percent := by
  rintro rfl
  exact absurd hd (by decide)

theorem length_reference_le_cons (e : Byte) (l : List Byte) :
    (reference sampleStr sampleArgs l).length ≤ (reference sampleStr sampleArgs (e :: l)).length := by
  by_cases he : e = percent
  · subst he
    by_cases hl : l.headD 0 ∈ directives
    · cases l with
      | nil => exact absurd hl (by decide)
      | cons d rest =>
        have hd : d ∈ directives := hl
        obtain ⟨c, s, hrender, -⟩ := render_sample hd
        rw [reference_literal (directive_ne_percent hd), reference_directive hd,
          show sampleArgs 0 = 100 from rfl, hrender, List.length_append, List.length_cons,
          List.length_cons]
        show _ ≤ s.length + 1 + (reference sampleStr sampleArgs rest).length
        omega
    · rw [reference_dropped hl]
  · rw [reference_literal he, List.length_cons]
    omega

theorem length_produced_le (h : produced sampleStr sampleArgs l = some o) :
    o.length ≤ (reference sampleStr sampleArgs l).length := by
  induction hk : l.length using Nat.strongRecOn generalizing l o with
  | ind k ih =>
    subst hk
    cases scan l with
    | done =>
      obtain rfl : [] = o := by simpa [produced] using h
      exact Nat.zero_le _
    | literal hc _ =>
      rw [produced_literal hc] at h
      obtain ⟨o', hrest, rfl⟩ := Option.map_eq_some_iff.mp h
      rw [reference_literal hc, List.length_cons, List.length_cons]
      exact Nat.succ_le_succ (ih _ (by simp) hrest rfl)
    | dropped hl _ =>
      rw [produced_dropped hl] at h
      rw [reference_dropped hl]
      exact ih _ (by simp) h rfl
    | @directive d rest hd _ =>
      rw [reference_directive hd, List.length_append]
      by_cases hchar : d = 99
      · subst hchar
        cases rest with
        | nil =>
          rw [produced_char_end] at h
          cases h
        | cons e rest =>
          rw [produced_char] at h
          obtain ⟨o', hrest, rfl⟩ := Option.map_eq_some_iff.mp h
          rw [List.length_append]
          have hle := ih rest.length (by simp; omega) hrest rfl
          exact Nat.add_le_add_left (hle.trans (length_reference_le_cons e rest)) _
      · rw [produced_directive hd hchar] at h
        obtain ⟨o', hrest, rfl⟩ := Option.map_eq_some_iff.mp h
        rw [List.length_append]
        exact Nat.add_le_add_left (ih rest.length (by simp) hrest rfl) _

/-- A character that is passed by and that the reference keeps changes the text. -/
theorem dropsFirst_of_produced {e : Byte} (h : produced sampleStr sampleArgs rest =
    some (reference sampleStr sampleArgs (e :: rest))) : DropsFirst (e :: rest) := by
  by_contra hkept
  by_cases he : e = percent
  · -- the text of a directive, where its character is produced
    subst he
    have hdir : rest.headD 0 ∈ directives := by
      by_contra hdir
      exact hkept ⟨rfl, hdir⟩
    cases rest with
    | nil => exact absurd hdir (by decide)
    | cons f rest =>
      have hf : f ∈ directives := hdir
      obtain ⟨c, s, hrender, hne⟩ := render_sample hf
      rw [produced_literal (directive_ne_percent hf)] at h
      obtain ⟨o, -, heq⟩ := Option.map_eq_some_iff.mp h
      rw [reference_directive hf, show sampleArgs 0 = 100 from rfl, hrender] at heq
      exact hne (List.cons.inj heq).1.symm
  · -- the character passed by is missing
    have hle := length_produced_le h
    rw [reference_literal he, List.length_cons] at hle
    exact Nat.not_succ_le_self _ hle

theorem charsPadded_of_produced
    (h : produced sampleStr sampleArgs l = some (reference sampleStr sampleArgs l)) :
    CharsPadded l := by
  induction scan l with
  | done => trivial
  | literal hc _ ih =>
    rw [produced_literal hc, reference_literal hc] at h
    obtain ⟨o, hrest, heq⟩ := Option.map_eq_some_iff.mp h
    obtain rfl := List.cons_injective heq
    exact (charsPadded_literal hc).mpr (ih hrest)
  | dropped hl _ ih =>
    rw [produced_dropped hl, reference_dropped hl] at h
    exact (charsPadded_dropped hl).mpr (ih h)
  | @directive d rest hd _ ih =>
    rw [charsPadded_directive hd]
    rw [reference_directive hd] at h
    by_cases hchar : d = 99
    · subst hchar
      cases rest with
      | nil =>
        rw [produced_char_end] at h
        cases h
      | cons e rest =>
        rw [produced_char] at h
        obtain ⟨o, hrest, heq⟩ := Option.map_eq_some_iff.mp h
        obtain rfl := List.append_cancel_left heq
        have hdrop := dropsFirst_of_produced hrest
        obtain ⟨tail, hcons, htail⟩ := dropsFirst_iff.mp hdrop
        obtain ⟨rfl, rfl⟩ := List.cons.inj hcons
        exact ⟨fun _ => hdrop, ih (by rwa [produced_dropped htail])⟩
    · rw [produced_directive hd hchar] at h
      obtain ⟨o, hrest, heq⟩ := Option.map_eq_some_iff.mp h
      obtain rfl := List.append_cancel_left heq
      exact ⟨fun heq => absurd heq hchar, ih hrest⟩

def formatMemory (fmt : List Byte) : Nat → Byte := fun i => fmt.getD i 0

theorem formatAt_formatMemory (hfmt : (0 : Byte) ∉ fmt) : FormatAt (formatMemory fmt) 0 fmt where
  chars j hj := by
    rw [formatMemory, Nat.zero_add, List.getD_eq_getElem?_getD, List.getElem?_eq_getElem hj,
      Option.getD_some]
  nul := by simp [formatMemory]
  noNul := hfmt

/-- A format is printed as the reference says, whatever its values are and lies behind it,
exactly when behind every `%c` of it there is a `'%'` that is dropped. -/
theorem vsprintf_formats_iff (hfmt : (0 : Byte) ∉ fmt) :
    (∀ s2, FormatAt s2 0 fmt → ∀ strAt args s1 rt, Formats strAt args s2 s1 rt fmt) ↔
      CharsPadded fmt := by
  constructor
  · intro hall
    have hat := formatAt_formatMemory hfmt
    have hsample := hall _ hat sampleStr sampleArgs ⟨fun _ => 0, []⟩ ⟨fun _ => 0, []⟩
    exact charsPadded_of_produced ((formats_iff_produced hat).mp hsample)
  · intro hpad s2 hat strAt args s1 rt
    exact (formats_iff_produced hat).mpr (produced_of_charsPadded hpad)

theorem vsprintf_formats_iff_example :
    Formats sampleStr sampleArgs (formatMemory [37, 88, 58, 32, 37, 115]) ⟨fun _ => 0, []⟩
      ⟨fun _ => 0, []⟩ [37, 88, 58, 32, 37, 115] :=
  (vsprintf_formats_iff (show 0 ∉ [37, 88, 58, 32, 37, 115] by decide)).mpr
    (by simp [CharsPadded, directives]) _ (formatAt_formatMemory (by decide)) _ _ _ _

theorem vsprintf_skips_char : ¬∀ fmt s2 strAt args s1 rt, (0 : Byte) ∉ fmt →
    FormatAt s2 0 fmt → Formats strAt args s2 s1 rt fmt := by
  intro hall
  have hat := formatAt_formatMemory (show 0 ∉ [37, 99, 33] by decide)
  have hformats := hall _ _ sampleStr sampleArgs ⟨fun _ => 0, []⟩ ⟨fun _ => 0, []⟩ (by decide) hat
  exact absurd ((formats_iff_produced hat).mp hformats) (by decide)

end RubiKernel.Text
