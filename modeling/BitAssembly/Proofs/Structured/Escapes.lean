import BitAssembly.Proofs.Source.Joining
import BitAssembly.Proofs.Structured.Writing

/-!
# Escapes in quotations

Inside a quotation the mark ends it and a backslash escapes what follows, in
this order and whatever stands before.  So an escaped mark is an end like any
other and an escaped backslash only escapes again: neither can be quoted.
All other characters can, and those with a key can be written by it.
-/

namespace BitAssembly.Structured

open BitAssembly.Machine
open BitAssembly.Source
open BitAssembly.Text

variable {mark : Char}

/-! ## Escaping -/

def escapeKey? : Char → Option Char
  | '\n' => some 'n'
  | '\r' => some 'r'
  | '\t' => some 't'
  | '\\' => some '\\'
  | '\x27' => some '\x27'
  | '\x22' => some '\x22'
  | '\x07' => some 'a'
  | '\x08' => some 'b'
  | '\x0c' => some 'f'
  | '\x0b' => some 'v'
  | _ => none

def escapeChar (c : Char) : List Char :=
  match escapeKey? c with
  | some key => ['\\', key]
  | none => [c]

def escaped (text : List Char) : List Char :=
  text.flatMap escapeChar

theorem unescape_escapeKey? {c key : Char} (h : escapeKey? c = some key) : unescape key = c := by
  unfold escapeKey? at h
  split at h <;> cases h <;> rfl

theorem isGrouping_of_mem_escapeChar {c d : Char} (hc : c ∈ escapeChar d) (h : isGrouping c) :
    isGrouping d := by
  unfold escapeChar at hc
  cases hkey : escapeKey? d with
  | none =>
      rw [hkey, List.mem_singleton] at hc
      exact hc ▸ h
  | some key =>
      rw [hkey, List.mem_pair] at hc
      unfold escapeKey? at hkey
      rcases hc with rfl | rfl
      · cases h
      · split at hkey <;> cases hkey <;> cases h

theorem unescape_of_isQuote (h : isQuote mark) : unescape mark = mark := by
  simp only [isQuote, Bool.or_eq_true, beq_iff_eq] at h
  rcases h with rfl | rfl <;> rfl

theorem ne_backslash_of_isQuote (h : isQuote mark) : mark ≠ '\\' := by
  rintro rfl
  cases h

theorem unescape_ne_mark {c : Char} (hmark : isQuote mark) (hc : c ≠ mark) : unescape c ≠ mark := by
  simp only [isQuote, Bool.or_eq_true, beq_iff_eq] at hmark
  unfold unescape
  rcases hmark with rfl | rfl
  · split <;> simp_all
  · split <;> simp_all

theorem unescape_ne_backslash {c : Char} (hc : c ≠ '\\') : unescape c ≠ '\\' := by
  unfold unescape
  split <;> simp_all

/-! ## Texts that are read back -/

theorem passes_escapeChar {c : Char} (hmark : isQuote mark) (hc : c ≠ mark) (hplain : c ≠ '\\')
    (chars : List Char) :
    Passes .extended (escapeChar c) ⟨.text mark chars, 0, false, []⟩
      ⟨.text mark (c :: chars), 0, false, []⟩ := by
  unfold escapeChar
  cases hkey : escapeKey? c with
  | none => exact (Passes.nil _).cons fun rest => (Takes.text hc hplain).step
  | some key =>
      have hunescape := unescape_escapeKey? hkey
      have hmarked : key ≠ mark := by
        rintro rfl
        exact hc (hunescape.symm.trans (unescape_of_isQuote hmark))
      have hslash : key ≠ '\\' := by
        rintro rfl
        exact hplain hunescape.symm
      have hescape : Passes .extended [key] ⟨.text mark chars, 0, true, []⟩
          ⟨.text mark (c :: chars), 0, false, []⟩ := by
        rw [← hunescape]
        exact (Passes.nil _).cons fun rest => (Takes.escape hmarked hslash).step
      exact hescape.cons fun rest =>
        (Takes.backslash (ne_backslash_of_isQuote hmark).symm rfl).step

theorem passes_escaped {text : List Char} (hmark : isQuote mark) (hunmarked : mark ∉ text)
    (hplain : '\\' ∉ text) (chars : List Char) :
    Passes .extended (escaped text) ⟨.text mark chars, 0, false, []⟩
      ⟨.text mark (text.reverse ++ chars), 0, false, []⟩ := by
  induction text generalizing chars with
  | nil => exact .nil _
  | cons c text ih =>
      rw [List.mem_cons, not_or] at hunmarked hplain
      have hfirst := passes_escapeChar hmark (Ne.symm hunmarked.1) (Ne.symm hplain.1) chars
      rw [escaped, List.flatMap_cons, List.reverse_cons, List.append_assoc]
      exact hfirst.append (ih hunmarked.2 hplain.2 (c :: chars))

/-! ## Quotations -/

section

variable {edition : Edition} {gap : List Char} (hmark : isQuote mark) (hgap : ∀ c ∈ gap, isBlank c)

include hgap

theorem passes_blanks (tokens : List Token) :
    Passes edition gap ⟨.code, 0, false, tokens⟩ ⟨.code, 0, false, tokens⟩ := by
  induction gap with
  | nil => exact .nil _
  | cons c gap ih =>
      rw [List.forall_mem_cons] at hgap
      exact (passes_blank hgap.1 false tokens).append (ih hgap.2)

include hmark

theorem filter_quotation (inner : List Char) :
    (quotation gap mark inner).filter (fun c => !isGrouping c) =
      quotation gap mark (inner.filter fun c => !isGrouping c) := by
  have hblanks : gap.filter (fun c => !isGrouping c) = gap := by
    refine List.filter_eq_self.mpr fun c hc => ?_
    have hblank := hgap c hc
    rw [Bool.not_eq_true', Bool.eq_false_iff]
    intro hgrouping
    simp only [isGrouping, Bool.or_eq_true, beq_iff_eq] at hgrouping
    rcases hgrouping with (rfl | rfl) | rfl <;> exact absurd hblank (by decide)
  have hmarks : [mark].filter (fun c => !isGrouping c) = [mark] := by
    simp only [isQuote, Bool.or_eq_true, beq_iff_eq] at hmark
    rcases hmark with rfl | rfl <;> rfl
  have hdisplay : "DPI".toList.filter (fun c => !isGrouping c) = "DPI".toList := rfl
  have hsplit (inner : List Char) : quotation gap mark inner =
      "DPI".toList ++ (gap ++ ([mark] ++ (inner ++ [mark]))) := rfl
  simp only [hsplit, List.filter_append, hblanks, hmarks, hdisplay]

theorem tokenize_quotation_iff {inner : List Char} {tokens : List Token} :
    tokenize edition (quotation gap mark inner) = .ok (some tokens) ↔
      ∃ scan, Scan.run edition ⟨.text mark [], 0, false, []⟩
          (inner.filter (fun c => !isGrouping c) ++ [mark]) = .ok scan ∧
        scan.mode ≠ .comment ∧ scan.tokens.reverse = tokens := by
  have hopen : Passes edition ("DPI".toList ++ (gap ++ [mark])) Scan.start
      ⟨.text mark [], 0, false, []⟩ :=
    (passes_word (by decide) false []).append
      ((passes_blanks hgap ["DPI".toList]).append (passes_openText hmark false []))
  have hrun := hopen (inner.filter (fun c => !isGrouping c) ++ [mark])
  rw [List.append_assoc, List.append_assoc] at hrun
  rw [tokenize, filter_quotation hmark hgap]
  change (Scan.run edition Scan.start
    ("DPI".toList ++ (gap ++ ([mark] ++ (inner.filter (fun c => !isGrouping c) ++ [mark])))) >>=
      _) = _ ↔ _
  rw [hrun]
  cases Scan.run edition ⟨.text mark [], 0, false, []⟩
      (inner.filter (fun c => !isGrouping c) ++ [mark]) with
  | error fault => simp [bind, Except.bind]
  | ok scan => by_cases h : scan.mode = .comment <;> simp [bind, Except.bind, pure, Except.pure, h]

end

/-! ## Texts that can be quoted -/

/-- All that is gathered within the mark is free of the mark and of backslashes, and once the
quotation is closed its tokens stay the first ones. -/
inductive Gathers (mark : Char) : Scan → Prop
  | inside {chars : List Char} {pending : Nat} {escaped : Bool} (hmark : mark ∉ chars)
      (hplain : '\\' ∉ chars) : Gathers mark ⟨.text mark chars, pending, escaped, []⟩
  | behind {scan : Scan} {text : List Char} {added : List Token} (hmark : mark ∉ text)
      (hplain : '\\' ∉ text) (hadded : textTokens .extended text = .ok added)
      (htokens : added.reverse <:+ scan.tokens) : Gathers mark scan

theorem display_not_mem {text : List Char} {added : List Token}
    (h : textTokens .extended text = .ok added) : "DPI".toList ∉ added := by
  rw [textTokens] at h
  split at h
  · cases h
  · cases h
    simp [byteTokens]

theorem Gathers.takes {scan next : Scan} {c : Char} {rest : List Char} (h : Gathers mark scan)
    (hquote : isQuote mark) (htakes : Takes .extended c rest scan next) : Gathers mark next := by
  cases h with
  | inside hmark hplain =>
      cases htakes with
      | closeText hadded =>
          exact .behind (by simpa using hmark) (by simpa using hplain) hadded (by simp)
      | backslash _ _ => exact .inside hmark hplain
      | escape hc hslash =>
          have hkey := unescape_ne_mark hquote hc
          have hsign := unescape_ne_backslash hslash
          exact .inside (by simp [hmark, Ne.symm hkey]) (by simp [hplain, Ne.symm hsign])
      | text hc hslash =>
          exact .inside (by simp [hmark, Ne.symm hc]) (by simp [hplain, Ne.symm hslash])
  | @behind scan text added hmark hplain hadded htokens =>
      cases htakes with
      | closeText _ => exact .behind hmark hplain hadded (htokens.trans (List.suffix_append _ _))
      | openText _ _ _ _ =>
          -- A display that is taken back here stands behind the tokens of the text.
          rcases List.suffix_cons_iff.mp htokens with hall | hrest
          · have hmem : "DPI".toList ∈ added := by
              rw [← List.mem_reverse, hall]
              exact List.mem_cons_self
            exact absurd hmem (display_not_mem hadded)
          · exact .behind hmark hplain hadded hrest
      | single _ _ _ => exact .behind hmark hplain hadded (htokens.trans (List.suffix_cons _ _))
      | double _ _ _ _ _ => exact .behind hmark hplain hadded (htokens.trans (List.suffix_cons _ _))
      | triple _ _ _ _ _ => exact .behind hmark hplain hadded (htokens.trans (List.suffix_cons _ _))
      | _ => exact .behind hmark hplain hadded htokens

theorem Gathers.run {scan after : Scan} {source : List Char} (h : Gathers mark scan)
    (hquote : isQuote mark) (hrun : scan.run .extended source = .ok after) :
    Gathers mark after := by
  induction source generalizing scan with
  | nil =>
      cases hrun
      exact h
  | cons c rest ih =>
      obtain ⟨next, htakes, hrest⟩ := run_cons_eq_ok hrun
      exact ih (h.takes hquote htakes) hrest

/-! ## Decoding -/

def writeTokens (bytes : List UInt8) : List Token :=
  "DPM".toList :: numberTokens 4 bytes.length ++ bytes.flatMap fun byte => numberTokens 2 byte.toNat

theorem textTokens_eq {text : List Char} (hshort : (encoded text).length ≤ 65535) :
    textTokens .extended text = .ok (writeTokens (encoded text)) :=
  textTokens_fits (Nat.lt_succ_of_le hshort)

theorem encoded_injective : Function.Injective encoded := by
  intro text other h
  have hdecoded := fromUTF8?_encoded text
  rw [h, fromUTF8?_encoded other, Option.some.injEq] at hdecoded
  have hchars := congrArg String.toList hdecoded
  simpa using hchars.symm

/-- The number of bytes stands before them, so nothing but the text itself begins alike. -/
theorem eq_of_writeTokens {text other : List Char} (htext : (encoded text).length ≤ 65535)
    (hother : (encoded other).length ≤ 65535) {later : List Token}
    (h : writeTokens (encoded text) ++ later = writeTokens (encoded other)) : text = other := by
  have hbits := congrArg (tokenBits .extended) h
  have hwrite {bytes : List UInt8} (hbytes : bytes.length ≤ 65535) :
      tokenBits .extended (writeTokens bytes) =
        (Plain.write bytes (Nat.lt_succ_of_le hbytes)).operation ++
          (Plain.write bytes (Nat.lt_succ_of_le hbytes)).fields .extended :=
    tokenBits_write rfl
  rw [tokenBits_append, hwrite htext, hwrite hother] at hbits
  obtain ⟨-, -, hsame⟩ := (reads_fetch_write (Nat.lt_succ_of_le htext) true 0).unique
    (reads_fetch_write (Nat.lt_succ_of_le hother) true 0) (hbits.trans (List.append_nil _).symm)
  exact encoded_injective (Instruction.write.inj hsame)

theorem unmarked_of_tokenize {gap inner text : List Char} (hmark : isQuote mark)
    (hgap : ∀ c ∈ gap, isBlank c) (hshort : (encoded text).length ≤ 65535)
    (h : tokenize .extended (quotation gap mark inner) = .ok (some (writeTokens (encoded text)))) :
    mark ∉ text ∧ '\\' ∉ text := by
  obtain ⟨scan, hrun, -, htokens⟩ := (tokenize_quotation_iff hmark hgap).mp h
  have hstart : Gathers mark ⟨.text mark [], 0, false, []⟩ := .inside (by simp) (by simp)
  cases hstart.run hmark hrun with
  | inside _ _ => cases htokens
  | @behind _ quoted added hunmarked hplain hadded hsuffix =>
      have hquoted : (encoded quoted).length ≤ 65535 := by
        by_contra hlong
        rw [textTokens_long (not_le.mp hlong)] at hadded
        cases hadded
      rw [textTokens_eq hquoted, Except.ok.injEq] at hadded
      subst hadded
      have hfirst : writeTokens (encoded quoted) <+: writeTokens (encoded text) := by
        rw [← htokens, ← List.reverse_suffix, List.reverse_reverse]
        exact hsuffix
      obtain ⟨later, hlater⟩ := hfirst
      have hsame := eq_of_writeTokens hquoted hshort hlater
      subst hsame
      exact ⟨hunmarked, hplain⟩

theorem tokenize_escaped {gap text : List Char} (hmark : isQuote mark)
    (hgap : ∀ c ∈ gap, isBlank c) (hstays : ∀ c ∈ text, ¬ isGrouping c)
    (hshort : (encoded text).length ≤ 65535) (hunmarked : mark ∉ text) (hplain : '\\' ∉ text) :
    tokenize .extended (quotation gap mark (escaped text)) =
      .ok (some (writeTokens (encoded text))) := by
  have hkept : (escaped text).filter (fun c => !isGrouping c) = escaped text := by
    refine List.filter_eq_self.mpr fun c hc => ?_
    obtain ⟨d, hd, hmem⟩ := List.mem_flatMap.mp hc
    have hnot := mt (isGrouping_of_mem_escapeChar hmem) (hstays d hd)
    simpa using hnot
  have hinside := (passes_escaped hmark hunmarked hplain []) [mark]
  rw [tokenize_quotation_iff hmark hgap, hkept, hinside]
  refine ⟨⟨.code, 0, false, (writeTokens (encoded text)).reverse⟩, ?_, by simp, by simp⟩
  have hclose : Takes .extended mark [] ⟨.text mark text.reverse, 0, false, []⟩ _ :=
    .closeText (by rw [List.reverse_reverse]; exact textTokens_eq hshort)
  rw [Scan.run, List.append_nil, hclose.step, List.append_nil]
  rfl

/-- In the extended edition a text comes out of its quotation as it was before it was escaped
just if it holds neither the mark nor a backslash, and no other spelling between the marks yields
a text that does. -/
theorem escaped_quotation_iff (mark : Char) (hmark : isQuote mark) (gap : List Char)
    (hgap : ∀ c ∈ gap, isBlank c) (text : List Char) (hstays : ∀ c ∈ text, ¬ isGrouping c)
    (hshort : (encoded text).length ≤ 65535) :
    (tokenize .extended (quotation gap mark (escaped text)) =
        .ok (some (writeTokens (encoded text))) ↔ mark ∉ text ∧ '\\' ∉ text) ∧
      ((∃ inner, tokenize .extended (quotation gap mark inner) =
        .ok (some (writeTokens (encoded text)))) ↔ mark ∉ text ∧ '\\' ∉ text) := by
  have honly {inner : List Char} (h : tokenize .extended (quotation gap mark inner) =
      .ok (some (writeTokens (encoded text)))) : mark ∉ text ∧ '\\' ∉ text :=
    unmarked_of_tokenize hmark hgap hshort h
  have hescaped (h : mark ∉ text ∧ '\\' ∉ text) :
      tokenize .extended (quotation gap mark (escaped text)) =
        .ok (some (writeTokens (encoded text))) :=
    tokenize_escaped hmark hgap hstays hshort h.1 h.2
  constructor
  · exact ⟨honly, hescaped⟩
  · constructor
    · rintro ⟨inner, h⟩
      exact honly h
    · intro h
      exact ⟨escaped text, hescaped h⟩

theorem escaped_quotation_iff_bell :
    let text := ['\x27', '\n', '\x07', 'n', 'é']
    let gap := [' ', '\t']
    let digits := ['2', '7', '0', 'a', '0', '7', '6', 'e', 'c', '3', 'a', '9']
    (∀ c ∈ text, ¬ isGrouping c) ∧ (encoded text).length = 6 ∧
      escaped text = "\\\x27\\n\\ané".toList ∧
      tokenize .extended (quotation gap '\x22' (escaped text)) =
        .ok (some ("DPM".toList :: ['0'] :: ['0'] :: ['0'] :: ['6'] ::
          digits.map fun digit => [digit])) ∧
      ¬ ∃ inner, tokenize .extended (quotation gap '\x22' inner) =
        .ok (some (writeTokens (encoded ['n', '\\']))) := by
  intro text gap digits
  have hblank : gap.all isBlank = true := by rfl
  have hgap := List.all_eq_true.mp hblank
  have hstays : ∀ c ∈ text, ¬ isGrouping c := by simp [text, isGrouping]
  have hbytes : encoded text = [39, 10, 7, 110, 195, 169] := by
    rw [encoded_eq]
    decide
  have hslash : encoded ['n', '\\'] = [110, 92] := by
    rw [encoded_eq]
    decide
  obtain ⟨hquoted, -⟩ := escaped_quotation_iff '\x22' rfl gap hgap text hstays
    (by rw [hbytes]; decide)
  obtain ⟨-, hnone⟩ := escaped_quotation_iff '\x22' rfl gap hgap ['n', '\\']
    (by simp [isGrouping]) (by rw [hslash]; decide)
  have hspelled := hquoted.mpr (by decide)
  rw [hbytes] at hspelled
  refine ⟨hstays, by rw [hbytes]; rfl, by decide, hspelled, ?_⟩
  rw [hnone]
  decide

/-- A backslash that is escaped is lost, and a mark that is escaped ends the quotation. -/
theorem not_escaped_quotation :
    let gap := [' ']
    escaped ['\\'] = ['\\', '\\'] ∧ escaped ['\x22'] = ['\\', '\x22'] ∧
      tokenize .extended (quotation gap '\x22' (escaped ['\\'])) = .ok (some (writeTokens [])) ∧
      tokenize .extended (quotation gap '\x22' (escaped ['\\'])) ≠
        .ok (some (writeTokens (encoded ['\\']))) ∧
      tokenize .extended (quotation gap '\x22' (escaped ['\x22'])) = .error .unexpectedQuote := by
  have hbytes : encoded ['\\'] = [92] := by
    rw [encoded_eq]
    decide
  rw [hbytes]
  decide

end BitAssembly.Structured
