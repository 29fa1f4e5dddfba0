import BitAssembly.Machine.Direct
import BitAssembly.Proofs.Machine.Execute
import BitAssembly.Proofs.Machine.Output
import BitAssembly.Proofs.Source.Quotation
import BitAssembly.Proofs.Structured.Editions
import BitAssembly.Proofs.Text.Digits

/-!
# Texts from source to output

In the extended edition a quotation becomes one instruction: the number of
bytes in the encoded text, and the bytes.  Wherever the instruction stands it is
passed over as a whole, and when it is run it prints the text that was quoted.
-/

namespace BitAssembly.Structured

open BitAssembly.Bits
open BitAssembly.Machine
open BitAssembly.Source
open BitAssembly.Text

/-! ## The tokens of a text -/

theorem map_hexWidth {width value : Nat} (hwidth : 0 < width) (hvalue : value < 16 ^ width) :
    (hexWidth width value).map (fun digit => [digit]) = numberTokens width value := by
  change (padded 16 width value).map _ = _
  induction width generalizing value with
  | zero => omega
  | succ width ih =>
      cases width with
      | zero =>
          have hsmall : value < 16 := by simpa using hvalue
          rw [padded_one hsmall, numberTokens, digitToken, Nat.mod_eq_of_lt hsmall]
          rfl
      | succ width =>
          have hpart : value / 16 < 16 ^ (width + 1) := by
            rw [Nat.pow_succ] at hvalue
            omega
          rw [padded_succ (by decide) (by omega), List.map_append, ih (by omega) hpart]
          rfl

theorem byteTokens_eq (byte : UInt8) : byteTokens byte = numberTokens 2 byte.toNat :=
  map_hexWidth (by decide) byte.toNat_lt

def encoded (text : List Char) : List UInt8 :=
  (String.ofList text).toUTF8.data.toList

theorem encoded_eq (text : List Char) : encoded text = text.flatMap String.utf8EncodeChar := by
  change (text.flatMap String.utf8EncodeChar).toByteArray.data.toList = _
  rw [List.data_toByteArray]

theorem fromUTF8?_encoded (text : List Char) :
    String.fromUTF8? ⟨(encoded text).toArray⟩ = some (String.ofList text) := by
  have hbytes : (⟨(encoded text).toArray⟩ : ByteArray) = text.utf8Encode := by
    rw [encoded]
    rfl
  rw [hbytes, String.fromUTF8?, dif_pos ByteArray.isValidUTF8_utf8Encode]
  rfl

theorem textTokens_fits {text : List Char} (fits : (encoded text).length < 2 ^ 16) :
    textTokens .extended text = .ok ((Plain.write (encoded text) fits).tokens .extended) := by
  have hlimit : ¬ textLimit < (text.flatMap String.utf8EncodeChar).length := by
    rw [← encoded_eq, textLimit]
    omega
  have hbytes : byteTokens = fun byte => numberTokens 2 byte.toNat := funext byteTokens_eq
  rw [textTokens, if_neg hlimit, ← encoded_eq, map_hexWidth (by decide) (by simpa using fits),
    hbytes]
  rfl

theorem textTokens_long {text : List Char} (hlong : 65535 < (encoded text).length) :
    textTokens .extended text = .error .longText := by
  rw [encoded_eq] at hlong
  rw [textTokens]
  exact if_pos hlong

/-! ## The bits of a text -/

def writeBits (bytes : List UInt8) : List Char :=
  "101111".toList ++ (binaryDigits 16 bytes.length ++
    bytes.flatMap fun byte => binaryDigits 8 byte.toNat)

theorem writeBits_eq {bytes : List UInt8} (fits : bytes.length < 2 ^ 16) :
    writeBits bytes =
      (Plain.write bytes fits).operation ++ (Plain.write bytes fits).fields .extended :=
  rfl

theorem tokenBits_textTokens {bytes : List UInt8} (fits : bytes.length < 2 ^ 16) :
    tokenBits .extended ((Plain.write bytes fits).tokens .extended) = writeBits bytes := by
  rw [tokenBits_write rfl, writeBits_eq fits]

theorem allBits_writeBits {bytes : List UInt8} (fits : bytes.length < 2 ^ 16) :
    AllBits (writeBits bytes) := by
  rw [← tokenBits_textTokens fits]
  exact allBits_tokenBits _

/-! ## Printing it -/

/-- The text has been added to what was printed before, as the program's own, and nothing else
differs. -/
structure Shown (session : Session) (text : String) (after : Session) : Prop where
  output : after.console.output = session.console.output ++ text
  emitted : after.console.emitted = ⟨text, false⟩ :: session.console.emitted
  input : after.console.input = session.console.input
  memory : after.memory = session.memory
  cursor : after.cursor = session.cursor
  traced : after.traced = session.traced

theorem shown_printing (session : Session) (text : String) :
    Shown session text (session.printing text) :=
  ⟨session.console.output_print text, rfl, rfl, rfl, rfl, rfl⟩

/-- Whatever else the machine holds, these bits print the output and do nothing more. -/
structure Prints (edition : Edition) (bits : List Char) (output : String) : Prop where
  /-- In a program or in the body of a block, what follows the bits is run next. -/
  runs : ∀ {session : Session} {rest : List Char} (passes : Nat) (call : Body → Run Unit)
    (fuel : Nat), session.GoesOn (bits ++ rest) →
    ∃ after, Shown (session.forward bits.length) output after ∧
      executeText edition false passes call (fuel + 1) session =
        executeText edition false passes call fuel after
  /-- Where the end of a block is sought, the bits are passed over as a whole. -/
  skipped : ∀ {reader : Reader} {rest : List Char} (fuel depth : Nat) (chunk : Body),
    reader.Placed → reader.rest = bits ++ rest →
    skipBlock edition false (fuel + 1) depth chunk reader =
      skipBlock edition false fuel depth (chunk ++ bits) (reader.forward bits.length)
  /-- As a program of their own they are used up, and the machine stops at their end. -/
  alone : ∀ (session : Session) (limits : Limits), 0 < limits.depth →
    ∃ after, Shown session output after ∧
      onText bits (execute edition limits false) session = .ok ((), bits.length) after

theorem write_encoded (text : List Char) (session : Session) :
    write (encoded text) session =
      .ok () (session.printing (String.ofList text ++ "\n")) := by
  rw [write, fromUTF8?_encoded]
  rfl

section

variable {text : List Char} (fits : (encoded text).length < 2 ^ 16)

include fits

theorem executeText_write {session : Session} {rest : List Char} (passes : Nat)
    (call : Body → Run Unit) (fuel : Nat)
    (hgoes : session.GoesOn (writeBits (encoded text) ++ rest)) :
    executeText .extended false passes call (fuel + 1) session =
      executeText .extended false passes call fuel
        ((session.forward (writeBits (encoded text)).length).printing
          (String.ofList text ++ "\n")) := by
  have hreads := reads_fetch_write fits session.memory.page?.isSome passes
  rw [executeText_fetch hreads (by simp [Plain.operation]) rfl hgoes, if_neg (by simp)]
  change EStateM.bind (write (encoded text)) _ _ = _
  rw [EStateM.bind, write_encoded]
  rfl

theorem skipBlock_write {reader : Reader} {rest : List Char} (fuel depth : Nat) (chunk : Body)
    (hplaced : reader.Placed) (hrest : reader.rest = writeBits (encoded text) ++ rest) :
    skipBlock .extended false (fuel + 1) depth chunk reader =
      skipBlock .extended false fuel depth (chunk ++ writeBits (encoded text))
        (reader.forward (writeBits (encoded text)).length) :=
  skipBlock_inner (.write _ _ rfl fits (length_bytes _)) hplaced hrest fuel depth chunk

theorem execute_write (session : Session) (limits : Limits) (hdepth : 0 < limits.depth) :
    onText (writeBits (encoded text)) (execute .extended limits false) session =
      .ok ((), (writeBits (encoded text)).length)
        (session.printing (String.ofList text ++ "\n")) := by
  obtain ⟨depth, hlevel⟩ := Nat.exists_eq_add_one.mpr hdepth
  have hbits := allBits_writeBits fits
  have hpositive : 0 < (writeBits (encoded text)).length := Nat.zero_lt_succ _
  have hstart : (session.onto (writeBits (encoded text))).GoesOn
      (writeBits (encoded text) ++ []) := by
    rw [List.append_nil]
    exact session.goesOn_onto _
  -- One step prints, and the next one finds the end of the text.
  have hstep := executeText_write fits limits.passes
    (fun body => onCursor (.ofChars body) (executeAt .extended limits.passes depth false))
    ((writeBits (encoded text)).length + limits.passes) hstart
  generalize writeBits (encoded text) = bits at *
  have hrun : execute .extended limits false (session.onto bits) =
      .ok () (((session.onto bits).forward bits.length).printing
        (String.ofList text ++ "\n")) := by
    obtain ⟨fuel, hfuel⟩ := Nat.exists_eq_add_one.mpr
      (show 0 < bits.length + limits.passes by omega)
    rw [hfuel, executeText_end (hstart.forward.printing _) fuel, ← hfuel,
      Nat.add_right_comm] at hstep
    rw [execute, hlevel]
    exact hstep
  rw [onText_eq_ok hbits hrun]
  simp only [Session.printing, Session.resume, Session.forward, Session.onto, Cursor.advance,
    Cursor.ofChars, Int.zero_add]

theorem prints_writeBits :
    Prints .extended (writeBits (encoded text)) (String.ofList text ++ "\n") where
  runs passes call fuel hgoes :=
    ⟨_, shown_printing _ _, executeText_write fits passes call fuel hgoes⟩
  skipped := skipBlock_write fits
  alone session limits hdepth :=
    ⟨_, shown_printing _ _, execute_write fits session limits hdepth⟩

end

/-- In the extended edition a quotation of up to 65535 bytes becomes the instruction that
writes these bytes, which prints the text and a line break wherever it stands; and a longer
one is refused. -/
theorem quotation_prints {mark : Char} {text gap : List Char}
    (h : Quotable .extended mark text) (hgap : Gap .extended gap) (files : Directory) :
    ((encoded text).length ≤ 65535 →
      build .extended (quotation gap mark text) "" files =
          ⟨"", .ok (some (writeBits (encoded text))), files⟩ ∧
        Prints .extended (writeBits (encoded text)) (String.ofList text ++ "\n")) ∧
    (65535 < (encoded text).length →
      build .extended (quotation gap mark text) "" files = ⟨"", .error .longText, files⟩) := by
  constructor
  · intro hshort
    have fits : (encoded text).length < 2 ^ 16 := Nat.lt_succ_of_le hshort
    have hspells := spells_quotation h hgap (textTokens_fits fits)
    refine ⟨?_, prints_writeBits fits⟩
    rw [hspells.build (coded_plain rfl) files, ← tokenBits_textTokens fits]
    rfl
  · intro hlong
    exact build_quotation_error h hgap (textTokens_long hlong) files

theorem quotation_prints_letters :
    let text := ['m', ';', '\'', '\n', 'é', '€']
    let gap := [' ', ';', '\x22', ';', '(']
    let bits := "1011110000000000001001011011010011101100100111".toList ++
      "000010101100001110101001111000101000001010101100".toList
    Quotable .extended '\x22' text ∧ Gap .extended gap ∧
      build .extended (quotation gap '\x22' text) "" [] = ⟨"", .ok (some bits), []⟩ ∧
      Prints .extended bits (String.ofList text ++ "\n") ∧
      ∀ count, 65535 < count → Quotable .extended '\'' (List.replicate count 'm') ∧
        build .extended (quotation [] '\'' (List.replicate count 'm')) "" [] =
          ⟨"", .error .longText, []⟩ := by
  intro text gap bits
  have hstays : text.all (isKept .extended) = true := by rfl
  have htext : Quotable .extended '\x22' text :=
    ⟨rfl, by decide, by decide, List.all_eq_true.mp hstays⟩
  have hgap : Gap .extended gap :=
    .blank rfl (.comment ['\x22'] (by decide) (.bracket (by decide) .nil))
  have hbytes : encoded text = [109, 59, 39, 10, 195, 169, 226, 130, 172] := by
    rw [encoded_eq]
    decide
  have hbits : writeBits (encoded text) = bits := by
    rw [hbytes]
    rfl
  have hprints := (quotation_prints htext hgap []).1 (by rw [hbytes]; decide)
  rw [hbits] at hprints
  refine ⟨htext, hgap, hprints.1, hprints.2, fun count hcount => ?_⟩
  have hlong : Quotable .extended '\'' (List.replicate count 'm') :=
    ⟨rfl, by simp, by simp, fun c hc => List.eq_of_mem_replicate hc ▸ rfl⟩
  have hlength : (encoded (List.replicate count 'm')).length = count := by
    have hletter : Char.utf8Size 'm' = 1 := by decide
    simp [encoded_eq, List.length_flatMap, hletter]
  exact ⟨hlong, (quotation_prints hlong .nil []).2 (hcount.trans_eq hlength.symm)⟩

end BitAssembly.Structured
