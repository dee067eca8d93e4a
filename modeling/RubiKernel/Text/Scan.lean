import Mathlib.Data.List.TakeWhile
import RubiKernel.Text.Format
import RubiKernel.Tty.Defs

/-! `vsscanf` of `lib/string.c`, and `vscanf` of `lib/stdio.c` over what its reads of `stdin`
deliver. -/

namespace RubiKernel.Text

open Tty (newline)

def space : Byte := 32

def isBlank (c : Byte) : Bool := c = space ∨ c = newline ∨ c = 9

/-- What is stored, each with the index of the argument that it is stored through; the value
returned is their number. -/
def vsscanf : List Byte → List Byte → Nat → List (List Byte × Nat)
  | _, [], _ => []
  | _, [_], _ => []
  | src, c :: d :: format, list =>
    if src = [] then []
    else if c = percent ∧ d = 115 then
      (src.takeWhile (!isBlank ·), list) ::
        vsscanf ((src.dropWhile (!isBlank ·)).drop 1) format (list + 1)
    else vsscanf src (d :: format) list

/-- What a read of `sizeof(buff) - 1` characters leaves in `buff`. -/
structure Delivery where
  chars : List Byte
  fits : chars.length ≤ 127

/-- The string in `buff`, with the terminator behind what was read. -/
def Delivery.string (buff : Delivery) : List Byte := buff.chars.takeWhile (· ≠ 0)

/-- The loop of `vscanf` with the next argument and `count`; `none` when it waits for a read
that does not come. -/
def vscanfLoop (format : List Byte) (realcount : Nat) :
    Nat → Nat → List Delivery → Option (List (List Byte × Nat))
  | _, count, [] => if count < realcount then none else some []
  | argList, count, buff :: reads =>
    if count < realcount then
      let stored := vsscanf buff.string format argList
      let count := count + stored.length
      -- the arguments are stepped by all conversions so far, not by those of this call
      (vscanfLoop format realcount (argList + count) count reads).map (stored ++ ·)
    else some []

def vscanf (format : List Byte) (reads : List Delivery) : Option (List (List Byte × Nat)) :=
  vscanfLoop format (format.count percent) 0 0 reads

/-- `n` times `"%s"`, with single spaces between. -/
def scanFormat (n : Nat) : List Byte := [space].intercalate (List.replicate n [percent, 115])

def lineText (words : List (List Byte)) : List Byte := [space].intercalate words ++ [newline]

/-- An input line of words with single spaces between. -/
structure Line where
  words : List (List Byte)
  ne_nil : ∀ w ∈ words, w ≠ []
  noNul : ∀ w ∈ words, ∀ c ∈ w, c ≠ 0
  noBlank : ∀ w ∈ words, ∀ c ∈ w, isBlank c = false
  fits : (lineText words).length ≤ 127

def Line.delivery (l : Line) : Delivery := ⟨lineText l.words, l.fits⟩

variable {format src rest w : List Byte} {words : List (List Byte)} {c b : Byte}
  {lines : List Line} {n list argList count realcount : Nat} {reads : List Delivery}

theorem isBlank_space : isBlank space = true := by decide

theorem isBlank_newline : isBlank newline = true := by decide

@[simp] theorem vsscanf_nil : vsscanf [] format list = [] := by
  rcases format with _ | ⟨c, _ | ⟨d, format⟩⟩ <;> simp [vsscanf]

theorem vsscanf_skip (hc : c ≠ percent) :
    vsscanf src (c :: format) list = vsscanf src format list := by
  rcases format with _ | ⟨d, format⟩
  · simp [vsscanf]
  · rw [vsscanf.eq_def]
    by_cases hsrc : src = []
    · simp [hsrc]
    · simp [hsrc, hc]

theorem vsscanf_word (hw : ∀ c ∈ w, isBlank c = false) (hb : isBlank b = true) :
    vsscanf (w ++ b :: rest) (percent :: 115 :: format) list =
      (w, list) :: vsscanf rest format (list + 1) := by
  have hword : ∀ c ∈ w, (!isBlank c) = true := fun c hc => by rw [hw c hc]; rfl
  rw [vsscanf, if_neg (by simp), if_pos ⟨rfl, rfl⟩, List.takeWhile_append_of_pos hword,
    List.dropWhile_append_of_pos hword]
  simp [hb]

theorem scanFormat_add_two :
    scanFormat (n + 2) = percent :: 115 :: space :: scanFormat (n + 1) := by
  simp [scanFormat, List.replicate_succ]

@[simp] theorem count_scanFormat : (scanFormat n).count percent = n := by
  induction n with
  | zero => rfl
  | succ n ih =>
    cases n with
    | zero => decide
    | succ n =>
      rw [scanFormat_add_two, List.count_cons_self, List.count_cons_of_ne (by decide),
        List.count_cons_of_ne (by decide), ih]

theorem lineText_singleton : lineText [w] = w ++ [newline] := by simp [lineText]

theorem lineText_cons_cons {w' : List Byte} :
    lineText (w :: w' :: words) = w ++ space :: lineText (w' :: words) := by
  simp [lineText]

theorem vsscanf_line (n list : Nat) (hne : words ≠ [])
    (hw : ∀ w ∈ words, ∀ c ∈ w, isBlank c = false) :
    vsscanf (lineText words) (scanFormat n) list = (words.take n).zipIdx list := by
  induction words generalizing n list with
  | nil => exact absurd rfl hne
  | cons w words ih =>
    have hfirst := hw w List.mem_cons_self
    have hformat : scanFormat 1 = [percent, 115] := rfl
    cases words with
    | nil =>
      rw [lineText_singleton]
      rcases n with _ | _ | n
      · simp [scanFormat, vsscanf]
      · rw [hformat, vsscanf_word hfirst isBlank_newline, vsscanf_nil]
        rfl
      · rw [scanFormat_add_two, vsscanf_word hfirst isBlank_newline, vsscanf_nil]
        rfl
    | cons w' words =>
      have hrest : ∀ w ∈ w' :: words, ∀ c ∈ w, isBlank c = false :=
        fun w hmem => hw w (List.mem_cons_of_mem _ hmem)
      rw [lineText_cons_cons]
      rcases n with _ | _ | n
      · simp [scanFormat, vsscanf]
      · rw [hformat, vsscanf_word hfirst isBlank_space, vsscanf]
        rfl
      · rw [scanFormat_add_two, vsscanf_word hfirst isBlank_space, vsscanf_skip (by decide),
          ih _ _ (by simp) hrest]
        rfl

theorem vsscanf_empty_line :
    vsscanf (lineText []) (scanFormat (n + 1)) list = [([], list)] := by
  cases n with
  | zero => rfl
  | succ n =>
    have hword := @vsscanf_word (space :: scanFormat (n + 1)) [] [] newline list (by simp)
      isBlank_newline
    rwa [vsscanf_nil, ← scanFormat_add_two] at hword

theorem forall_mem_lineText {P : Byte → Prop} (hspace : P space) (hnewline : P newline)
    (hw : ∀ w ∈ words, ∀ c ∈ w, P c) : ∀ c ∈ lineText words, P c := by
  induction words with
  | nil => simpa [lineText] using hnewline
  | cons w words ih =>
    have hfirst := hw w List.mem_cons_self
    cases words with
    | nil =>
      rw [lineText_singleton]
      intro c hc
      rcases List.mem_append.mp hc with hc | hc
      · exact hfirst c hc
      · exact List.mem_singleton.mp hc ▸ hnewline
    | cons w' words =>
      have hrest := ih fun w hmem => hw w (List.mem_cons_of_mem _ hmem)
      rw [lineText_cons_cons]
      intro c hc
      rcases List.mem_append.mp hc with hc | hc
      · exact hfirst c hc
      · rcases List.mem_cons.mp hc with rfl | hc
        · exact hspace
        · exact hrest c hc

theorem Line.string (l : Line) : l.delivery.string = lineText l.words := by
  have hnul := forall_mem_lineText (P := (· ≠ 0)) (by decide) (by decide) l.noNul
  exact List.takeWhile_eq_self_iff.mpr fun c hc => decide_eq_true (hnul c hc)

theorem vscanfLoop_done (h : realcount ≤ count) :
    vscanfLoop format realcount argList count reads = some [] := by
  cases reads <;> simp [vscanfLoop, Nat.not_lt.mpr h]

theorem vscanfLoop_line {l : Line} (hlt : count < n) :
    vscanfLoop (scanFormat n) n argList count (l.delivery :: reads) =
      (vscanfLoop (scanFormat n) n
        (argList + (count + (vsscanf (lineText l.words) (scanFormat n) argList).length))
        (count + (vsscanf (lineText l.words) (scanFormat n) argList).length) reads).map
        (vsscanf (lineText l.words) (scanFormat n) argList ++ ·) := by
  rw [vscanfLoop, if_pos hlt, l.string]

/-- A line with words left over, or with just the words that are missing, ends the loop. -/
theorem vscanfLoop_last {l : Line} (hlt : count < n) (hne : l.words ≠ [])
    (hlast : n ≤ count + l.words.length) :
    vscanfLoop (scanFormat n) n argList count (l.delivery :: reads) =
      some ((l.words.take n).zipIdx argList) := by
  rw [vscanfLoop_line hlt, vsscanf_line _ _ hne l.noBlank, vscanfLoop_done, Option.map_some,
    List.append_nil]
  rw [List.length_zipIdx, List.length_take]
  omega

/-- The words of the first line are enough, or those of the second are just the rest. -/
def Sufficient (n : Nat) : List Line → Prop
  | [] => False
  | [l] => n ≤ l.words.length
  | l :: l' :: _ =>
    n ≤ l.words.length ∨ l.words ≠ [] ∧ l.words.length + l'.words.length = n

/-- The first `n` words are stored through the first `n` arguments. -/
def InOrder (n : Nat) (lines : List Line) : Prop :=
  vscanf (scanFormat n) (lines.map Line.delivery) =
    some (((lines.flatMap Line.words).take n).zipIdx)

theorem vscanf_eq (n : Nat) (reads : List Delivery) :
    vscanf (scanFormat n) reads = vscanfLoop (scanFormat n) n 0 0 reads := by
  rw [vscanf, count_scanFormat]

theorem inOrder_of_sufficient (hn : 0 < n) (h : Sufficient n lines) : InOrder n lines := by
  have hfirst (l : Line) (ls : List Line) (hl : n ≤ l.words.length) : InOrder n (l :: ls) := by
    have hne : l.words ≠ [] := List.ne_nil_of_length_pos (by omega)
    rw [InOrder, vscanf_eq, List.map_cons, vscanfLoop_last hn hne (by omega),
      List.flatMap_cons, List.take_append_of_le_length hl]
  rcases lines with _ | ⟨l, _ | ⟨l', ls⟩⟩
  · exact h.elim
  · exact hfirst l [] h
  · rcases h with hl | ⟨hne, hsum⟩
    · exact hfirst l (l' :: ls) hl
    · by_cases hl' : l'.words = []
      · exact hfirst l (l' :: ls) (by simpa [hl'] using hsum.ge)
      · have hpos : 0 < l'.words.length := List.length_pos_of_ne_nil hl'
        have htake : l.words.take n = l.words := List.take_of_length_le (by omega)
        have htake' : l'.words.take n = l'.words := List.take_of_length_le (by omega)
        rw [InOrder, vscanf_eq, List.map_cons, List.map_cons, vscanfLoop_line hn,
          vsscanf_line _ _ hne l.noBlank, htake, List.length_zipIdx,
          vscanfLoop_last (by omega) hl' (by omega), htake', List.flatMap_cons, List.flatMap_cons,
          ← List.append_assoc, List.take_append_of_le_length (by rw [List.length_append]; omega),
          List.take_of_length_le (by rw [List.length_append]; omega), List.zipIdx_append]
        simp

theorem exists_of_vscanfLoop {l : Line} {stored out : List (List Byte × Nat)} (hlt : count < n)
    (hstored : vsscanf (lineText l.words) (scanFormat n) argList = stored)
    (h : vscanfLoop (scanFormat n) n argList count (l.delivery :: reads) = some out) :
    ∃ rest, vscanfLoop (scanFormat n) n (argList + (count + stored.length))
      (count + stored.length) reads = some rest ∧ stored ++ rest = out := by
  subst hstored
  rw [vscanfLoop_line hlt] at h
  exact Option.map_eq_some_iff.mp h

theorem vsscanf_head (l : Line) (n list : Nat) : ∃ rest,
    vsscanf (lineText l.words) (scanFormat (n + 1)) list = (l.words.headD [], list) :: rest := by
  by_cases hne : l.words = []
  · exact ⟨[], by rw [hne, vsscanf_empty_line]; rfl⟩
  · rw [vsscanf_line _ _ hne l.noBlank]
    obtain ⟨w, ws, hcons⟩ := List.exists_cons_of_ne_nil hne
    exact ⟨(ws.take n).zipIdx (list + 1), by rw [hcons]; rfl⟩

theorem of_append_eq_zipIdx {pre post : List (List Byte × Nat)} {s : List Byte} {i : Nat}
    (h : pre ++ (s, i) :: post = (words.take n).zipIdx) : i = pre.length ∧ s ∈ words := by
  have hat := congrArg (fun l => l[pre.length]?) h
  simp only [List.getElem?_append_right le_rfl, Nat.sub_self, List.getElem?_cons_zero,
    List.getElem?_zipIdx] at hat
  obtain ⟨w, hw, heq⟩ := Option.map_eq_some_iff.mp hat.symm
  obtain ⟨rfl, rfl⟩ := Prod.mk.inj heq
  exact ⟨Nat.zero_add _, List.mem_of_mem_take (List.mem_of_getElem? hw)⟩

/-- A line that is read while the words are stored in order has one, and it is stored through
the argument after those stored through. -/
theorem next_argument {l : Line} {pre out : List (List Byte × Nat)} (hlt : count < n)
    (hnonempty : ([] : List Byte) ∉ words)
    (h : vscanfLoop (scanFormat n) n argList count (l.delivery :: reads) = some out)
    (heq : pre ++ out = (words.take n).zipIdx) : argList = pre.length ∧ l.words ≠ [] := by
  obtain ⟨n, rfl⟩ := Nat.exists_eq_succ_of_ne_zero (Nat.ne_zero_of_lt hlt)
  obtain ⟨rest, hstored⟩ := vsscanf_head l n argList
  obtain ⟨out', -, rfl⟩ := exists_of_vscanfLoop hlt hstored h
  obtain ⟨hat, hmem⟩ := of_append_eq_zipIdx heq
  refine ⟨hat, fun hnil => hnonempty ?_⟩
  rwa [hnil] at hmem

theorem nil_notMem_words (lines : List Line) : ([] : List Byte) ∉ lines.flatMap Line.words := by
  intro hmem
  obtain ⟨l, -, hl⟩ := List.mem_flatMap.mp hmem
  exact l.ne_nil _ hl rfl

theorem sufficient_of_inOrder (hn : 0 < n) (htotal : n ≤ (lines.flatMap Line.words).length)
    (h : InOrder n lines) : Sufficient n lines := by
  have hnonempty := nil_notMem_words lines
  rcases lines with _ | ⟨l, _ | ⟨l', ls⟩⟩
  · exact absurd htotal hn.not_ge
  · rwa [List.flatMap_singleton] at htotal
  · by_cases hl : n ≤ l.words.length
    · exact Or.inl hl
    rw [InOrder, vscanf_eq, List.map_cons, List.map_cons] at h
    obtain ⟨-, hne⟩ := next_argument hn hnonempty h (List.nil_append _)
    -- the words of the first line are stored, and the second line is read
    have hstored := vsscanf_line n 0 hne l.noBlank
    rw [List.take_of_length_le (by omega)] at hstored
    obtain ⟨out, hout, heq⟩ := exists_of_vscanfLoop hn hstored h
    rw [List.length_zipIdx, Nat.zero_add, Nat.zero_add] at hout
    obtain ⟨-, hne'⟩ := next_argument (by omega) hnonempty hout heq
    have hpos : 0 < l.words.length := List.length_pos_of_ne_nil hne
    -- no more than the missing words are stored from it
    have hstored' := vsscanf_line n l.words.length hne' l'.noBlank
    obtain ⟨out', hout', rfl⟩ := exists_of_vscanfLoop (by omega) hstored' hout
    have hlen := congrArg List.length heq
    simp only [List.length_append, List.length_zipIdx, List.length_take] at hlen hout'
    refine Or.inr ⟨hne, Nat.le_antisymm (by omega) ?_⟩
    by_contra hmissing
    -- a third line is read, and its first word goes to the wrong argument
    rcases ls with _ | ⟨l'', ls⟩
    · rw [List.flatMap_cons, List.flatMap_singleton, List.length_append] at htotal
      exact hmissing htotal
    · rw [← List.append_assoc] at heq
      have hat := (next_argument (by omega) hnonempty hout' heq).1
      simp only [List.length_append, List.length_zipIdx, List.length_take] at hat
      omega

/-- Words from lines are stored in order exactly when the first line has enough of them or
the second just the rest. -/
theorem vscanf_stores_iff (hn : 0 < n) (htotal : n ≤ (lines.flatMap Line.words).length) :
    vscanf (scanFormat n) (lines.map Line.delivery) =
      some (((lines.flatMap Line.words).take n).zipIdx) ↔ Sufficient n lines :=
  ⟨sufficient_of_inOrder hn htotal, inOrder_of_sufficient hn⟩

def letterLine : Line := ⟨[[97]], by decide, by decide, by decide, by decide⟩

theorem vscanf_stores_iff_example :
    vscanf (scanFormat 2) ([letterLine, letterLine].map Line.delivery) =
      some [([97], 0), ([97], 1)] :=
  (vscanf_stores_iff (by decide) (show 2 ≤ ([letterLine, letterLine].flatMap Line.words).length by
    decide)).mpr (Or.inr ⟨by decide, rfl⟩)

theorem vscanf_passes_argument : ¬∀ n (lines : List Line), 0 < n →
    n ≤ (lines.flatMap Line.words).length → vscanf (scanFormat n) (lines.map Line.delivery) =
      some (((lines.flatMap Line.words).take n).zipIdx) := by
  intro hall
  exact absurd (hall 3 [letterLine, letterLine, letterLine] (by decide) (by decide)) (by decide)

end RubiKernel.Text
