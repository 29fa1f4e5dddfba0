import BitAssembly.Proofs.Machine.Output
import BitAssembly.Proofs.Structured.Lines
import BitAssembly.Proofs.Structured.Writing

/-!
# Texts byte by byte

In the basic edition a quotation becomes an immediate display for each of its
characters, followed by all bytes of the character as it is encoded.  The display
takes one byte and prints the character with this code, and the other bytes are
run as instructions.  So the text is printed exactly if no character has other
bytes.
-/

namespace BitAssembly.Structured

open BitAssembly.Bits
open BitAssembly.Machine
open BitAssembly.Source
open BitAssembly.Text

variable {edition : Edition} {passes : Nat} {call : Body → Run Unit}

/-! ## The bits of a text -/

def plainBits (instruction : Plain) : List Char :=
  instruction.operation ++ instruction.fields .basic

def bitsOfBytes (bytes : List UInt8) : List Char :=
  bytes.flatMap fun byte => binaryDigits 8 byte.toNat

def characterBits (c : Char) : List Char :=
  ['1', '0', '0', '1', '1'] ++ bitsOfBytes (String.utf8EncodeChar c)

theorem characterBits_eq {c : Char} {byte : UInt8} {bytes : List UInt8}
    (h : String.utf8EncodeChar c = byte :: bytes) :
    characterBits c = plainBits (.displayByte byte) ++ bitsOfBytes bytes := by
  rw [characterBits, h]
  exact (List.append_assoc _ _ _).symm

def displayBits (text : List Char) : List Char :=
  text.flatMap characterBits

def characterTokens (c : Char) : List Token :=
  "DPI".toList :: (String.utf8EncodeChar c).flatMap byteTokens

theorem tokenBits_characterTokens (c : Char) :
    tokenBits edition (characterTokens c) = characterBits c := by
  have hdisplay : ("DPI".toList, ['1', '0', '0', '1', '1']) ∈ fixedCodes := by decide
  have hbytes : byteTokens = fun byte => numberTokens 2 byte.toNat := funext byteTokens_eq
  rw [characterTokens, tokenBits_fixed hdisplay, hbytes, tokenBits_bytes]
  rfl

theorem tokenBits_displayed (text : List Char) :
    tokenBits edition (text.flatMap characterTokens) = displayBits text := by
  induction text with
  | nil => rfl
  | cons c text ih =>
      rw [List.flatMap_cons, tokenBits_append, tokenBits_characterTokens, ih]
      rfl

theorem coded_displayed (text : List Char) : Coded edition (text.flatMap characterTokens) := by
  intro token htoken
  obtain ⟨c, -, hmem⟩ := List.mem_flatMap.mp htoken
  rcases List.mem_cons.mp hmem with rfl | hmem
  · exact coded_fixed (by simp [fixedCodes])
  · obtain ⟨byte, -, hbyte⟩ := List.mem_flatMap.mp hmem
    rw [byteTokens_eq] at hbyte
    exact coded_numberTokens 2 byte.toNat token hbyte

theorem allBits_displayBits (text : List Char) : AllBits (displayBits text) := by
  rw [← @tokenBits_displayed .basic]
  exact allBits_tokenBits _

/-! ## The first byte of a character -/

theorem utf8EncodeChar_of_lt {c : Char} (h : c.toNat < 128) :
    String.utf8EncodeChar c = [UInt8.ofNat c.toNat] := by
  have hval : c.val.toNat ≤ 127 := Nat.le_of_lt_succ h
  rw [String.utf8EncodeChar, if_pos hval]
  rfl

/-- A character of several bytes is the one that its first byte alone stands for. -/
theorem eq_of_first_byte {c : Char} (h : 128 ≤ c.toNat) {byte : UInt8} {bytes : List UInt8}
    (hbytes : String.utf8EncodeChar c = byte :: bytes) (hfirst : Char.ofNat byte.toNat = c) :
    c = 'Ã' := by
  have hcode : byte.toNat = c.toNat := by
    rw [← hfirst, Char.toNat_ofNat, if_pos (.inl (by have := byte.toNat_lt; omega))]
  have hbyte := byte.toNat_lt
  have hsmall : ¬ c.val.toNat ≤ 127 := Nat.not_le.mpr h
  have hlarge : c.val.toNat ≤ 2047 := by
    change c.toNat ≤ 2047
    omega
  rw [String.utf8EncodeChar, if_neg hsmall, if_pos hlarge] at hbytes
  injection hbytes with hhead
  have hlead : (c.toNat / 64 % 32 + 192) % 256 = byte.toNat := by
    rw [← hhead, UInt8.toNat_ofNat']
    rfl
  have hhigh : c.toNat / 64 < 32 := by omega
  rw [Nat.mod_eq_of_lt hhigh, Nat.mod_eq_of_lt (by omega)] at hlead
  have hnumber : c.toNat = 195 := by omega
  rw [← Char.ofNat_toNat c, hnumber]

/-! ## Steps -/

theorem executeText_plain {instruction : Plain} (hfits : instruction.fits .basic)
    {session : Session} (hready : session.memory.page?.isSome = true) {rest : List Char}
    (hgoes : session.GoesOn (plainBits instruction ++ rest)) (fuel : Nat) :
    executeText .basic false passes call (fuel + 1) session =
      (do
        perform passes call instruction.instruction
        executeText .basic false passes call fuel : Run Unit)
          (session.forward (plainBits instruction).length) := by
  have hbits : plainBits instruction ≠ [] :=
    List.append_ne_nil_of_left_ne_nil instruction.operation_ne_nil _
  rw [executeText_fetch (reads_fetch_plain hfits passes) hbits hready hgoes,
    if_neg instruction.instruction_ne_close]
  rfl

theorem executeText_fetch_error {session : Session} {bits : List Char} (hbits : bits ≠ [])
    (hgoes : session.GoesOn bits) {stop : Stop} {reader : Reader}
    (hfetch : fetch .basic false session.memory.page?.isSome passes session.reader =
      .error stop reader) (fuel : Nat) :
    executeText .basic false passes call (fuel + 1) session =
      .error stop (session.afterReading reader) := by
  have hmore : ¬ session.cursor.atEnd := by rwa [hgoes.atEnd_iff]
  have hnext : fetchNext .basic false passes session =
      .error stop (session.afterReading reader) := by
    change reading (fetch .basic false session.memory.page?.isSome passes) session = _
    simp only [Session.reader] at hfetch
    rw [reading, hfetch]
  change (if session.cursor.atEnd then pure () else _ : Run Unit) session = _
  rw [if_neg hmore]
  exact bind_of_error hnext

theorem display_byte (byte : UInt8) (session : Session) :
    display .character byte.toNat session =
      .ok () (session.printing (String.singleton (Char.ofNat byte.toNat))) := by
  have hchar : ofExcept (displayedChar byte.toNat) session =
      .ok (Char.ofNat byte.toNat) session := by
    rw [displayedChar_byte]
    rfl
  exact bind_of_ok hchar

theorem page?_of_initial {session : Session} (hmemory : session.memory = .initial) :
    session.memory.page?.isSome = true := by
  rw [hmemory]
  rfl

theorem perform_display_bell {session : Session} (hmemory : session.memory = .initial) :
    perform passes call (Plain.display .character 7).instruction session =
      .ok () (session.printing (String.singleton '\x07')) := by
  have hpage : session.memory.page = ((0 : Fin 8) : Nat) := by
    rw [hmemory]
    rfl
  have hvalue : session.memory.value 0 7 = 7 := by
    rw [hmemory]
    rfl
  have hget := getRegister_of_page hpage (7 : Fin 16)
  rw [hvalue] at hget
  exact (bind_of_ok hget).trans (display_byte 7 session)

/-! ## Printing the text -/

/-- The run ends normally, prints the text in addition, and leaves the memory as it is. -/
def Says (passes : Nat) (call : Body → Run Unit) (fuel : Nat) (session : Session)
    (text : List Char) : Prop :=
  ∃ after, executeText .basic false passes call fuel session = .ok () after ∧
    after.console.output = session.console.output ++ String.ofList text ∧
    after.memory = session.memory

section

variable {fuel : Nat} {session : Session} {text : List Char}

theorem not_says_of_error {stop : Stop} {after : Session}
    (h : executeText .basic false passes call fuel session = .error stop after) :
    ¬ Says passes call fuel session text := by
  rintro ⟨later, hrun, -⟩
  rw [h] at hrun
  cases hrun

theorem says_nil (hgoes : session.GoesOn []) : Says passes call (fuel + 1) session [] :=
  ⟨session, executeText_end hgoes fuel, by simp, rfl⟩

theorem says_step_iff (hcall : ∀ base body, Appends base (call body)) {next : Session} {d : Char}
    (hstep : executeText .basic false passes call (fuel + 1) session =
      executeText .basic false passes call fuel (next.printing (String.singleton d)))
    (hconsole : next.console = session.console) (hmemory : next.memory = session.memory) :
    Says passes call (fuel + 1) session text ↔ ∃ rest, text = d :: rest ∧
      Says passes call fuel (next.printing (String.singleton d)) rest := by
  have houtput : (next.printing (String.singleton d)).console.output =
      session.console.output ++ String.singleton d := by
    rw [Session.printing, Console.output_print, hconsole]
  constructor
  · rintro ⟨after, hrun, htext, hafter⟩
    rw [hstep] at hrun
    obtain ⟨more, hmore⟩ := (appends_executeText (hcall _) false passes fuel).output hrun
    rw [houtput, htext, String.append_assoc, String.append_right_inj] at hmore
    have hlist := congrArg String.toList hmore
    rw [String.toList_ofList, String.toList_append, String.toList_singleton] at hlist
    refine ⟨more.toList, hlist, after, hrun, ?_, hafter.trans hmemory.symm⟩
    rw [houtput, htext, hmore, String.append_assoc, String.ofList_toList]
  · rintro ⟨rest, rfl, after, hrun, htext, hafter⟩
    refine ⟨after, hstep.trans hrun, ?_, hafter.trans hmemory⟩
    rw [htext, houtput, String.append_assoc, String.ofList_cons]

theorem says_displayByte_iff (hcall : ∀ base body, Appends base (call body))
    (hmemory : session.memory = .initial) (byte : UInt8) {rest : List Char}
    (hgoes : session.GoesOn (plainBits (.displayByte byte) ++ rest)) :
    Says passes call (fuel + 1) session text ↔ ∃ later, text = Char.ofNat byte.toNat :: later ∧
      Says passes call fuel
        ((session.forward 13).printing (String.singleton (Char.ofNat byte.toNat))) later := by
  have hready := page?_of_initial hmemory
  have hfits : (Plain.displayByte byte).fits .basic = true := rfl
  refine says_step_iff hcall ((executeText_plain hfits hready hgoes fuel).trans ?_) rfl rfl
  exact bind_of_ok (display_byte byte _)

/-! ## Bytes that are left over -/

theorem fetch_left_over (ready : Bool) (hgoes : session.GoesOn (binaryDigits 8 0x83)) :
    ∃ reader, fetch .basic false ready passes session.reader =
      .error (.fault .endOfText) reader := by
  have hread : Reads (read 3) ['1', '0', '0'] ['1', '0', '0'] := reads_read rfl
  have hmode : Reads (operand 2) ['0', '0'] (0 : Nat) := reads_operand 2 0 (by decide) (by decide)
  have hfirst : session.reader.rest = ['1', '0', '0'] ++ ['0', '0', '0', '1', '1'] := hgoes.rest
  have hplaced := hgoes.placed.forward hfirst
  have hsecond : (session.reader.forward 3).rest = ['0', '0'] ++ ['0', '1', '1'] :=
    Reader.rest_forward_append hgoes.placed hfirst
  refine ⟨(session.reader.forward 3).forward 2, ?_⟩
  refine (hread.bind_apply _ hgoes.placed hfirst).trans ?_
  refine (hmode.bind_apply _ hplaced hsecond).trans ?_
  refine bind_of_error (bind_of_error (read_short (hplaced.forward hsecond) ?_))
  rw [Reader.rest_forward_append hplaced hsecond]
  decide

theorem executeText_left_over (hready : session.memory.page?.isSome = true)
    (hgoes : session.GoesOn (['1', '1'] ++ displayBits text)) :
    ∃ stop after, executeText .basic false passes call (fuel + 1) session = .error stop after := by
  cases text with
  | nil => exact ⟨_, _, executeText_short (by decide) (by decide) hgoes fuel⟩
  | cons c text =>
      have hexit : (Plain.exit false).fits .basic = true := rfl
      have hbits : session.GoesOn (plainBits (.exit false) ++
        (['1', '1'] ++ bitsOfBytes (String.utf8EncodeChar c) ++ displayBits text)) := hgoes
      exact ⟨.exit (some 0), session.forward 5, executeText_plain hexit hready hbits fuel⟩

theorem executeText_push_left_over (hmemory : session.memory = .initial)
    (hgoes : session.GoesOn (plainBits (.alter .push 1) ++ (['1', '1'] ++ displayBits text))) :
    ∃ stop after, executeText .basic false passes call (fuel + 2) session = .error stop after := by
  have hready := page?_of_initial hmemory
  have hpush : (Plain.alter .push 1).fits .basic = true := rfl
  have hpage : Memory.initial.page = ((0 : Fin 8) : Nat) := rfl
  have hturns : Turns (Plain.alter .push 1).instruction Memory.initial _ :=
    turns_push hpage Memory.sound_initial.shared (Memory.sound_initial.registers 0 1)
  let pushed := { session.forward 10 with
    memory := { Memory.initial with stack := [Memory.initial.value 0 1] } }
  have hnext := hgoes.forward
  have hpushed : pushed.GoesOn (['1', '1'] ++ displayBits text) :=
    ⟨⟨hnext.placed.untraced, hnext.placed.nonneg, hnext.placed.within⟩, hnext.rest⟩
  obtain ⟨stop, after, herror⟩ := executeText_left_over rfl hpushed
  refine ⟨stop, after, (executeText_plain hpush hready hgoes _).trans ?_⟩
  exact (bind_of_ok (hturns passes call (session.forward 10) hmemory)).trans herror

/-- Nor does a character behind it save the text: the display of a register takes its first
bit, and after the only character that could be meant two bits are left over again. -/
theorem not_says_left_over (hcall : ∀ base body, Appends base (call body))
    (hmemory : session.memory = .initial)
    (hgoes : session.GoesOn (binaryDigits 8 0x83 ++ displayBits text)) :
    ¬ Says passes call (fuel + 3) session text := by
  cases text with
  | nil =>
      obtain ⟨reader, hfetch⟩ := fetch_left_over session.memory.page?.isSome hgoes
      exact not_says_of_error (executeText_fetch_error (by decide) hgoes hfetch (fuel + 2))
  | cons c text =>
      have hready := page?_of_initial hmemory
      have hdisplay : (Plain.display .character 7).fits .basic = true := rfl
      have hbits : session.GoesOn (plainBits (.display .character 7) ++
        (['0', '0', '1', '1'] ++ bitsOfBytes (String.utf8EncodeChar c) ++ displayBits text)) :=
        hgoes
      have hstep : executeText .basic false passes call (fuel + 3) session =
          executeText .basic false passes call (fuel + 2)
            ((session.forward 9).printing (String.singleton '\x07')) :=
        (executeText_plain hdisplay hready hbits (fuel + 2)).trans
          (bind_of_ok (perform_display_bell hmemory))
      intro hsays
      obtain ⟨rest, hrest, hsays⟩ := (says_step_iff hcall hstep rfl rfl).mp hsays
      obtain ⟨rfl, rfl⟩ := List.cons.inj hrest
      let next := (session.forward 9).printing (String.singleton '\x07')
      have hnext : next.GoesOn (plainBits (.alter .push 1) ++ (['1', '1'] ++ displayBits text)) :=
        hbits.forward.printing _
      have hnew : next.memory = .initial := hmemory
      obtain ⟨stop, after, herror⟩ := executeText_push_left_over hnew hnext
      exact not_says_of_error herror hsays

theorem says_displayBits_iff (hcall : ∀ base body, Appends base (call body))
    (hmemory : session.memory = .initial) (hgoes : session.GoesOn (displayBits text))
    (hfuel : (displayBits text).length < fuel) :
    Says passes call fuel session text ↔ ∀ c ∈ text, c.toNat < 128 := by
  induction text generalizing fuel session with
  | nil =>
      obtain ⟨fuel, rfl⟩ := Nat.exists_eq_add_one.mpr hfuel
      exact iff_of_true (says_nil hgoes) nofun
  | cons c text ih =>
      obtain ⟨byte, bytes, hbytes⟩ := List.exists_cons_of_ne_nil (@String.utf8EncodeChar_ne_nil c)
      rw [displayBits, List.flatMap_cons, characterBits_eq hbytes, List.append_assoc] at hgoes hfuel
      obtain ⟨fuel, rfl⟩ := Nat.exists_eq_add_one.mpr (Nat.zero_lt_of_lt hfuel)
      rw [says_displayByte_iff hcall hmemory byte hgoes]
      have hnext : ((session.forward 13).printing (String.singleton (Char.ofNat byte.toNat))).GoesOn
          (bitsOfBytes bytes ++ displayBits text) := hgoes.forward.printing _
      have hnew : ((session.forward 13).printing
          (String.singleton (Char.ofNat byte.toNat))).memory = .initial := hmemory
      generalize (session.forward 13).printing _ = next at hnext hnew ⊢
      have hwidth : (plainBits (.displayByte byte)).length = 13 := rfl
      rw [List.length_append, List.length_append, hwidth] at hfuel
      by_cases hascii : c.toNat < 128
      · -- The byte is all of the character, so the rest of the text stands next.
        rw [utf8EncodeChar_of_lt hascii, List.cons_eq_cons] at hbytes
        obtain ⟨rfl, rfl⟩ := hbytes
        have hcode : Char.ofNat (UInt8.ofNat c.toNat).toNat = c := by
          rw [UInt8.toNat_ofNat', Nat.mod_eq_of_lt (by omega), Char.ofNat_toNat]
        have hless : (displayBits text).length < fuel := by
          rw [displayBits]
          omega
        rw [hcode, List.forall_mem_cons, ← ih hnew hnext hless]
        simp [hascii]
      · -- Another character is printed, with one exception.
        refine iff_of_false ?_ fun hall => hascii (hall c List.mem_cons_self)
        rintro ⟨later, hlater, hsays⟩
        obtain ⟨hchar, rfl⟩ := List.cons.inj hlater
        obtain rfl := eq_of_first_byte (Nat.not_lt.mp hascii) hbytes hchar.symm
        obtain ⟨rfl, rfl⟩ := List.cons.inj hbytes
        obtain ⟨fuel, rfl⟩ : ∃ less, fuel = less + 3 := ⟨fuel - 3, by omega⟩
        exact not_says_left_over hcall hnew hnext hsays

end

/-! ## Quotations -/

theorem execute_start_eq {bits input : List Char} (hbits : AllBits bits) {limits : Limits}
    {depth : Nat} (hdepth : limits.depth = depth + 1) :
    execute .basic limits false (.start bits false input) =
      executeText .basic false limits.passes
        (fun body => onCursor (.ofChars body) (executeAt .basic limits.passes depth false))
        (bits.length + 1 + limits.passes)
        ((Session.start [] false input).onto bits) := by
  rw [execute, hdepth, Session.start, Cursor.ofText_of_allBits hbits]
  rfl

/-- In the basic edition every quotation is assembled.  On a new machine its bits end normally,
print the text and change nothing exactly if every character of the text is encoded by a
single byte. -/
theorem quotation_prints_itself_iff {mark : Char} {text gap : List Char}
    (h : Quotable .basic mark text) (hgap : Gap .basic gap) (files : Directory)
    (limits : Limits) (hdepth : 0 < limits.depth) (input : List Char) :
    build .basic (quotation gap mark text) "" files =
        ⟨"", .ok (some (displayBits text)), files⟩ ∧
      ((∃ after, execute .basic limits false (.start (displayBits text) false input) =
            .ok () after ∧
          after.console.output = String.ofList text ∧ after.memory = .initial) ↔
        ∀ c ∈ text, c.toNat < 128) := by
  constructor
  · have hadded : textTokens .basic text = .ok (text.flatMap characterTokens) := rfl
    have hspells := spells_quotation h hgap hadded
    rw [hspells.build (coded_displayed text) files, ← @tokenBits_displayed .basic]
    rfl
  · obtain ⟨depth, hlevel⟩ := Nat.exists_eq_add_one.mpr hdepth
    rw [execute_start_eq (allBits_displayBits text) hlevel]
    have hcall (base : List Emission) (body : Body) :
        Appends base (onCursor (.ofChars body) (executeAt .basic limits.passes depth false)) :=
      appends_onCursor (appends_executeAt limits.passes depth false) (.ofChars body)
    let start := (Session.start [] false input).onto (displayBits text)
    have hsilent : start.console.output = "" := rfl
    have hsays : Says limits.passes _ _ start text ↔ _ := says_displayBits_iff hcall rfl
      ((Session.start [] false input).goesOn_onto (displayBits text))
      (Nat.lt_add_right limits.passes (Nat.lt_succ_self _))
    rw [Says, hsilent, String.empty_append] at hsays
    exact hsays

theorem quotation_prints_itself_iff_signs :
    let text := ['m', ';', '\'', '\n', '\x07', '\x7f']
    let gap := [' ', ';', '\x22', ';', '(']
    Quotable .basic '\x22' text ∧ Gap .basic gap ∧
      build .basic (quotation gap '\x22' text) "" [] = ⟨"", .ok (some (displayBits text)), []⟩ ∧
      ∃ after, execute .basic .standard false (.start (displayBits text) false []) =
          .ok () after ∧
        after.console.output = "m;'\n\x07\x7f" ∧ after.memory = .initial := by
  intro text gap
  have hstays : text.all (isKept .basic) = true := by rfl
  have htext : Quotable .basic '\x22' text :=
    ⟨rfl, by decide, by decide, List.all_eq_true.mp hstays⟩
  have hgap : Gap .basic gap :=
    .blank rfl (.comment ['\x22'] (by decide) (.bracket (by decide) .nil))
  have hsmall : text.all (fun c => c.toNat < 128) = true := by rfl
  obtain ⟨hbuild, hiff⟩ := quotation_prints_itself_iff htext hgap [] .standard (by decide) []
  exact ⟨htext, hgap, hbuild, hiff.mpr (by simpa using hsmall)⟩

/-- A character of two bytes: another character is printed, and the second byte is no
complete instruction. -/
theorem quotation_prints_other_character :
    Quotable .basic '\x22' ['é'] ∧ Gap .basic [' '] ∧
      build .basic (quotation [' '] '\x22' ['é']) "" [] =
        ⟨"", .ok (some (displayBits ['é'])), []⟩ ∧
      let ending := Ending.ofRun
        (execute .basic .standard false (.start (displayBits ['é']) false []))
      ending.stop = some (.fault .endOfText) ∧ ending.console.output = "Ã" := by
  refine ⟨⟨rfl, by decide, by decide, List.forall_mem_singleton.mpr rfl⟩, .blank rfl .nil, rfl, ?_⟩
  decide +kernel

end BitAssembly.Structured
