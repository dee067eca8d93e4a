import RubiKernel.Text.Format
import RubiKernel.Vga.Print

/-! `kprintf`, `printf` of user space and `kpanic`: a text that `vsprintf` puts in an array of
256 characters, and what of it the terminal shows. -/

namespace RubiKernel.Vga

open Text
open Tty (newline)

def retSize : Nat := 256

def migrateText : List Byte :=
  [77, 105, 103, 114, 97, 116, 101, 32, 116, 111, 32, 116, 116, 121, 32, 100, 114, 105, 118, 101, 114]

def okText : List Byte := [46, 46, 46, 32, 91, 79, 75, 93, newline]

/-- `tty_ioctl(IOCTL_INIT, TTY_IOCTL_WRITE)`; `legacy` is `allow_legacy_vga_functions`, which
it takes away. -/
def ttyIoctlInit (legacy : Bool) (t : Terminal) (fuel : Nat) : Option Terminal :=
  if legacy then
    (t.print (formatMemory migrateText) fuel).map fun (t, _) =>
      (t.write (formatMemory okText) 9).1.flush
  else some t

section

variable (strAt : Word → List Byte) (args : Nat → Word) (s2 : Nat → Byte) (fuel : Nat)
  (ret rt : Buffer Byte) (t : Terminal)

/-- `kvprintf`, with the indices of `ret` that are stored to. -/
def kvprintf (fuel' : Nat) : Option (Terminal × List Nat) :=
  (vsprintf strAt args s2 fuel ret rt).bind fun (out, _, _) =>
    (t.print out.cells fuel').map fun (t, _) => (t, out.written)

/-- `uvprintf`; `opened` is whether `stdout` is not -1. The files that `stdio_init` opens are
there. -/
def uvprintf (opened legacy : Bool) (fuel' : Nat) : Option (Terminal × List Nat) :=
  (if opened then some t else ttyIoctlInit legacy t fuel').bind fun t =>
    (vsprintf strAt args s2 fuel ret rt).map fun (out, _, _) =>
      ((t.write out.cells retSize).1.flush, out.written)

end

variable {strAt : Word → List Byte} {args : Nat → Word} {s2 : Nat → Byte} {p p' : Printer}
  {ret rt : Buffer Byte} {fmt text : List Byte} {num base : Word} {fuel width : Nat}

/-- Everything before the index of the next character has been stored, and nothing else. -/
def Spans (p : Printer) : Prop := ∀ j, j ∈ p.out.written ↔ j < p.dstI

theorem Spans.put {s : List Byte} (h : Spans p) (hout : p'.out = p.out.put p.dstI s)
    (hdst : p'.dstI = p.dstI + s.length) : Spans p' := by
  intro j
  rw [hout, hdst, Buffer.mem_written_put, h j]
  omega

theorem Spans.printNumber (h : Spans p) (hnumber : printNumber p num base width = some p') :
    Spans p' := by
  obtain ⟨rt, -, rfl⟩ := Option.map_eq_some_iff.mp hnumber
  intro j
  show j ∈ Buffer.written _ ↔ _
  rw [Buffer.mem_written_put, Buffer.mem_written_fill, h j]
  dsimp only
  omega

theorem Spans.turn (h : Spans p) (hturn : vsprintfTurn strAt args s2 p = some p') : Spans p' := by
  have hread : Spans { p with reads := (p.srcI + 1) :: p.reads } := h
  simp only [vsprintfTurn] at hturn
  split at hturn
  · split at hturn
    · exact hread.printNumber hturn
    split at hturn
    · exact hread.printNumber hturn
    split at hturn
    · exact hread.printNumber hturn
    split at hturn
    · obtain rfl := Option.some.inj hturn
      exact h.put rfl rfl
    split at hturn
    · obtain rfl := Option.some.inj hturn
      exact h.put (s := [(args p.argI).setWidth 8]) rfl rfl
    · obtain rfl := Option.some.inj hturn
      exact h
  · obtain rfl := Option.some.inj hturn
    exact h.put (s := [s2 p.srcI]) rfl rfl

theorem Spans.loop (h : Spans p) (hloop : vsprintfLoop strAt args s2 fuel p = some p') :
    Spans p' := by
  induction fuel generalizing p with
  | zero => cases hloop
  | succ fuel ih =>
    rw [vsprintfLoop] at hloop
    split at hloop
    · obtain ⟨p₁, hturn, hrest⟩ := Option.bind_eq_some_iff.mp hloop
      have hread : Spans { p with reads := p.srcI :: p.reads } := h
      exact ih (hread.turn hturn) hrest
    · obtain rfl := Option.some.inj hloop
      exact h

theorem vsprintf_produced (hfmt : FormatAt s2 0 fmt) (hprod : produced strAt args fmt = some text)
    (hret : ret.written = []) (rt : Buffer Byte) :
    ∃ out reads, vsprintf strAt args s2 (fmt.length + 1) ret rt = some (out, text.length, reads) ∧
      out.Holds 0 (text ++ [0]) ∧ ∀ j, j ∈ out.written ↔ j ≤ text.length := by
  have hstart : At fmt.length 0 0 [] ⟨0, 0, 0, rt, ret, []⟩ :=
    ⟨rfl, rfl, rfl, fun i h => absurd h (Nat.not_lt_zero i), by simp⟩
  have hargs : (fun k => args (0 + k)) = args := by
    funext k
    rw [Nat.zero_add]
  obtain ⟨p', src', arg', hloop, hp'⟩ := hstart.loop (Nat.zero_add _) hfmt (by rwa [hargs])
    (Nat.lt_succ_self _)
  have hspans : Spans ⟨0, 0, 0, rt, ret, []⟩ := fun j => by simp [hret]
  have hdst : p'.dstI = text.length := hp'.dst
  have hout := hp'.out.store_append (v := 0)
  rw [List.nil_append, Nat.zero_add, ← hdst] at hout
  refine ⟨p'.out.store p'.dstI 0, p'.reads, by rw [vsprintf, hloop, ← hdst]; rfl, hout, fun j => ?_⟩
  rw [Buffer.mem_written_store, hspans.loop hloop j, hdst]
  omega

variable {t : Terminal} {sheet : Sheet} {log : List Byte} {message : List Mark}

/-- What the first output of user space shows before its text. -/
def Sheet.initialised (p : Sheet) (opened legacy : Bool) : Sheet :=
  if !opened && legacy then (p.print (migrateText.map Mark.char)).print (okText.map Mark.char) else p

theorem Displays.wrote (h : Displays log t sheet) (htext : ∀ c ∈ text, Printable c ∨ c = newline)
    {str : Nat → Byte} {size : Nat} (hstr : ∀ k (hk : k < text.length), str (0 + k) = text[k])
    (hend : size = text.length ∨ text.length < size ∧ str (0 + text.length) = 0) :
    Displays log (t.write str size).1.flush (sheet.print (text.map Mark.char)) := by
  have hwrite : (t.write str size).1 = text.foldl Terminal.putc t :=
    writeLoop_eq (fun c hc => plain_ne_zero (htext c hc)) hstr hend t
  have hshown := (h.written htext).flush
  rw [Sheet.print, List.foldl_map, hwrite]
  exact hshown

theorem stringAt_formatMemory (text : List Byte) : StringAt (formatMemory text) 0 text := by
  refine ⟨fun k hk => ?_, ?_⟩
  · rw [Nat.zero_add]
    exact List.getD_eq_getElem _ _ hk
  · rw [Nat.zero_add]
    exact List.getD_eq_default _ _ le_rfl

theorem Displays.initialised (h : Displays log t sheet) (opened legacy : Bool) :
    ∃ t' fuel, (if opened then some t else ttyIoctlInit legacy t fuel) = some t' ∧
      Displays log t' (sheet.initialised opened legacy) := by
  cases opened with
  | true => exact ⟨t, 0, rfl, h⟩
  | false =>
    cases legacy with
    | false => exact ⟨t, 0, rfl, h⟩
    | true =>
      have hplain : ∀ m ∈ migrateText.map Mark.char, m.Plain := by decide
      have htext : ∀ c ∈ okText, Printable c ∨ c = newline := by decide
      have hstr : StringAt (formatMemory migrateText) 0
          ((migrateText.map Mark.char).flatMap Mark.encode) := stringAt_formatMemory migrateText
      have hprint := print_eq hplain hstr t
      have hok := (stringAt_formatMemory okText).1
      have hend : 9 = okText.length ∨ okText.length < 9 ∧ formatMemory okText (0 + okText.length) = 0 :=
        .inl rfl
      refine ⟨_, (migrateText.map Mark.char).length + 1, ?_,
        (h.print hplain hstr hprint).wrote htext hok hend⟩
      rw [if_neg Bool.false_ne_true, ttyIoctlInit, if_pos rfl, hprint]
      rfl

/-- The text that a format produces is stored to the indices of `ret` from 0 to its length, and
so inside `ret` exactly when it has fewer than 256 characters. `kprintf` shows it with its
colours, and `printf` of user space its first 256 characters when it has none. -/
theorem printf_shows (h : Displays log t sheet) (hfmt : FormatAt s2 0 fmt)
    (hprod : produced strAt args fmt = some text) (hret : ret.written = []) (rt : Buffer Byte) :
    ∃ stores : List Nat, (∀ j, j ∈ stores ↔ j ≤ text.length) ∧
      ((∀ j ∈ stores, j < retSize) ↔ text.length < retSize) ∧
      (∀ message : List Mark, (∀ m ∈ message, m.Plain) → text = message.flatMap Mark.encode →
        ∃ t' fuel', kvprintf strAt args s2 (fmt.length + 1) ret rt t fuel' = some (t', stores) ∧
          Displays log t' (sheet.print message)) ∧
      ((∀ c ∈ text, Printable c ∨ c = newline) → ∀ opened legacy, ∃ t' fuel',
        uvprintf strAt args s2 (fmt.length + 1) ret rt t opened legacy fuel' = some (t', stores) ∧
          Displays log t' ((sheet.initialised opened legacy).print
            ((text.take retSize).map Mark.char))) := by
  obtain ⟨out, reads, hrun, hout, hwritten⟩ := vsprintf_produced hfmt hprod hret rt
  have hstores : (∀ j ∈ out.written, j < retSize) ↔ text.length < retSize :=
    ⟨fun hall => hall _ ((hwritten _).mpr le_rfl),
      fun hlt j hj => ((hwritten j).mp hj).trans_lt hlt⟩
  obtain ⟨hchars, hnul⟩ := Buffer.holds_append.mp hout
  refine ⟨out.written, hwritten, hstores, fun message hplain htext => ?_,
    fun htext opened legacy => ?_⟩
  · have hstr : StringAt out.cells 0 (message.flatMap Mark.encode) := by
      rw [← htext]
      exact ⟨hchars, hnul 0 Nat.zero_lt_one⟩
    have hprint := print_eq hplain hstr t
    exact ⟨_, message.length + 1,
      (congrArg (Option.bind · _) hrun).trans (congrArg (Option.map _) hprint),
      h.print hplain hstr hprint⟩
  · have htaken : ∀ c ∈ text.take retSize, Printable c ∨ c = newline :=
      fun c hc => htext c (List.mem_of_mem_take hc)
    have hlen : (text.take retSize).length = min retSize text.length := List.length_take
    have hstr : ∀ k (hk : k < (text.take retSize).length),
        out.cells (0 + k) = (text.take retSize)[k] := fun k hk => by
      rw [List.getElem_take]
      exact hchars k (by omega)
    have hend : retSize = (text.take retSize).length ∨ (text.take retSize).length < retSize ∧
        out.cells (0 + (text.take retSize).length) = 0 := by
      by_cases hfull : retSize ≤ text.length
      · exact .inl (by omega)
      · rw [List.take_of_length_le (by omega)]
        exact .inr ⟨by omega, hnul 0 Nat.zero_lt_one⟩
    obtain ⟨t₁, fuel', hopened, hshown⟩ := h.initialised opened legacy
    exact ⟨_, fuel', (congrArg (Option.bind · _) hopened).trans (congrArg (Option.map _) hrun),
      hshown.wrote htaken hstr hend⟩

/-- `"%s!"`, by the kernel and by the first task of user space that prints. -/
theorem printf_shows_example : ∃ t' t'' stores fuel' fuel'',
    kvprintf (fun _ => [104, 105]) (fun _ => 0) (formatMemory [37, 115, 33]) 4 ⟨fun _ => 0, []⟩
      ⟨fun _ => 0, []⟩ bootTerminal fuel' = some (t', stores) ∧ t'.serial = [104, 105, 33] ∧
    uvprintf (fun _ => [104, 105]) (fun _ => 0) (formatMemory [37, 115, 33]) 4 ⟨fun _ => 0, []⟩
      ⟨fun _ => 0, []⟩ bootTerminal false true fuel'' = some (t'', stores) ∧
    t''.serial = migrateText ++ okText ++ [13, 104, 105, 33] ∧ ∀ j ∈ stores, j < retSize := by
  have hfmt : FormatAt (formatMemory [37, 115, 33]) 0 [37, 115, 33] :=
    formatAt_formatMemory (by decide)
  have hprod : produced (fun _ => [104, 105]) (fun _ => 0) [37, 115, 33] = some [104, 105, 33] := rfl
  have hret : (⟨fun _ => 0, []⟩ : Buffer Byte).written = [] := rfl
  obtain ⟨stores, -, hfits, hkernel, huser⟩ := printf_shows
    (displays_blank initial (fun _ => 0) []) hfmt hprod hret ⟨fun _ => 0, []⟩
  obtain ⟨t', fuel', hrun, hdisplays⟩ :=
    hkernel [.char 104, .char 105, .char 33] (by decide) rfl
  obtain ⟨t'', fuel'', hrun', hdisplays'⟩ := huser (by decide) false true
  exact ⟨t', t'', stores, fuel', fuel'', hrun, hdisplays.serial, hrun',
    hdisplays'.serial.trans (by decide +kernel), hfits.mpr (by decide)⟩

end RubiKernel.Vga
