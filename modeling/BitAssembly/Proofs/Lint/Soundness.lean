import BitAssembly.Proofs.Lint.Completeness
import BitAssembly.Proofs.Source.Spacing

/-!
# What a passed check says about the tokens

A source that passes the check is cut into complete tokens up to its first slip.
Past a slip, the check no longer looks where tokens start.
-/

namespace BitAssembly.Lint

open BitAssembly.Source
open BitAssembly.Structured
open BitAssembly.Text

variable {edition : Edition} {levels : Nat} {progress after : Progress}
variable {text rest : List Char} {tokens : List Token} {token : Token} {c : Char}

/-! ## How a spaced text starts -/

def isKnown (edition : Edition) (token : Token) : Bool :=
  token == closeToken || isOperand token ||
    (token.head?.any isStray && isMnemonic token &&
      (token == "DPM".toList || (slots? edition token).isSome))

theorem codeTable_known : (codeTable edition).all fun entry => isKnown edition entry.1 := by
  cases edition <;> decide +kernel

theorem coded_cases (h : (code? edition token).isSome) :
    token = closeToken ∨ (∃ c, (c ∈ digits ∨ c ∈ signs) ∧ token = [c]) ∨
      (∃ c more, token = c :: more ∧ isStray c) ∧ isMnemonic token ∧
        (token = "DPM".toList ∨ ∃ slots, slots? edition token = some slots) := by
  obtain ⟨code, hcode⟩ := Option.isSome_iff_exists.mp h
  have hknown := List.all_eq_true.mp codeTable_known _ (mem_codeTable hcode)
  simp only [isKnown, Bool.or_eq_true, Bool.and_eq_true, beq_iff_eq] at hknown
  rcases hknown with (hclose | hoperand) | ⟨⟨hstray, hname⟩, hslots⟩
  · exact .inl hclose
  · rcases token with _ | ⟨c, _ | ⟨d, more⟩⟩
    · cases hoperand
    · exact .inr (.inl ⟨c, by simpa [isOperand] using hoperand, rfl⟩)
    · cases hoperand
  · refine .inr (.inr ⟨?_, hname, hslots.imp id Option.isSome_iff_exists.mp⟩)
    cases token with
    | nil => cases hstray
    | cons c more => exact ⟨c, more, rfl, by simpa using hstray⟩

theorem spaced_nil (h : Spaced edition [] tokens) : tokens = [] := by
  generalize htext : ([] : List Char) = text at h
  cases h with
  | nil => rfl
  | space _ _ => cases htext
  | token hcode _ =>
      rcases coded_cases hcode with rfl | ⟨c, -, rfl⟩ | ⟨⟨c, more, rfl, -⟩, -⟩ <;> cases htext

theorem spaced_cons (h : Spaced edition (c :: rest) tokens) :
    ((isBlank c ∨ isGrouping c) ∧ Spaced edition rest tokens) ∨
      ((c = ']' ∨ c ∈ digits ∨ c ∈ signs) ∧
        ∃ others, tokens = [c] :: others ∧ Spaced edition rest others) ∨
      (isStray c ∧ ∃ name left others, isMnemonic name ∧ c :: rest = name ++ left ∧
        tokens = name :: others ∧ Spaced edition left others ∧
        (name = "DPM".toList ∨ ∃ slots, slots? edition name = some slots)) := by
  generalize htext : c :: rest = text at h
  cases h with
  | nil => cases htext
  | space hspace h =>
      cases htext
      exact .inl ⟨hspace, h⟩
  | @token token left others hcode h =>
      rcases coded_cases hcode with rfl | ⟨d, hd, rfl⟩ | ⟨⟨d, more, hname, hd⟩, hmnemonic, hslots⟩
      · cases htext
        exact .inr (.inl ⟨.inl rfl, _, rfl, h⟩)
      · cases htext
        exact .inr (.inl ⟨.inr hd, _, rfl, h⟩)
      · have hfirst : c = d := by
          rw [hname] at htext
          exact (List.cons.inj htext).1
        rw [← hfirst] at hd
        exact .inr (.inr ⟨hd, token, left, others, hmnemonic, rfl, rfl, h, hslots⟩)

theorem spaced_filler (h : Spaced edition (c :: rest) tokens) (hc : isFiller [c]) :
    Spaced edition rest tokens ∨
      ∃ others, tokens = closeToken :: others ∧ Spaced edition rest others := by
  rcases spaced_cons h with ⟨-, hrest⟩ | ⟨hd, others, rfl, hrest⟩ | ⟨hstray, -⟩
  · exact .inl hrest
  · rcases hd with rfl | hd | hd
    · exact .inr ⟨others, rfl, hrest⟩
    · exact absurd hc (not_isFiller_of_digit hd)
    · exact absurd hc (not_isFiller_of_sign hd)
  · exact absurd hc (isStray_iff.mp hstray).1

theorem spaced_operand (h : Spaced edition (c :: rest) tokens) (hc : c ∈ digits ∨ c ∈ signs) :
    ∃ others, tokens = [c] :: others ∧ Spaced edition rest others := by
  rcases spaced_cons h with ⟨hspace, -⟩ | ⟨-, hothers⟩ | ⟨hstray, -⟩
  · have hfiller := isFiller_of_clear hspace
    rcases hc with hc | hc
    · exact absurd hfiller (not_isFiller_of_digit hc)
    · exact absurd hfiller (not_isFiller_of_sign hc)
  · exact hothers
  · obtain ⟨-, hdigit, hsign, -⟩ := isStray_iff.mp hstray
    simp [hdigit, hsign] at hc

theorem not_isQuote_of_spaced (h : Spaced edition (c :: rest) tokens) : ¬ isQuote c := by
  intro hquote
  simp only [isQuote, Bool.or_eq_true, beq_iff_eq] at hquote
  rcases spaced_cons h with ⟨hspace, -⟩ | ⟨hd, -⟩ | ⟨hstray, -⟩
  · rcases hquote with rfl | rfl <;> revert hspace <;> decide
  · rcases hquote with rfl | rfl <;> revert hd <;> decide
  · rcases hquote with rfl | rfl <;> revert hstray <;> decide

/-! ## Reading operands -/

/-- Of the tokens, operands for the slots have been read, with closing brackets before them, and
what is left is a spaced text. -/
def Sifted (edition : Edition) (tokens : List Token) (slots : List (List Char))
    (progress : Progress) : Prop :=
  ∃ mixed left others, tokens = mixed ++ others ∧ Mixed slots mixed ∧ progress.At left ∧
    Spaced edition left others

def Sifts {α : Type} (edition : Edition) (slots : List (List Char)) (action : Linting α) : Prop :=
  ∀ tokens before, Triple (Sifted edition tokens before)
    (fun _ => Sifted edition tokens (before ++ slots)) (fun _ _ => True) action

section

variable {α β : Type} {slots more : List (List Char)} {slot : List Char}

theorem sifted_nil (hat : progress.At text) (hspaced : Spaced edition text tokens) :
    Sifted edition tokens [] progress :=
  ⟨[], text, tokens, rfl, .nil, hat, hspaced⟩

theorem Sifts.ok {action : Linting α} {value : α} (h : Sifts edition slots action)
    (hat : progress.At text) (hspaced : Spaced edition text tokens)
    (hok : action progress = .ok value after) : Sifted edition tokens slots after :=
  (h tokens []).of_ok (sifted_nil hat hspaced) hok

theorem sifts_of_ok {action : Linting α}
    (h : ∀ {progress after : Progress} {value : α} {text : List Char} {tokens : List Token},
      progress.At text → Spaced edition text tokens → action progress = .ok value after →
      Sifted edition tokens slots after) : Sifts edition slots action := by
  rintro tokens before progress ⟨mixed, left, others, rfl, hmixed, hat, hspaced⟩
  cases hresult : action progress with
  | error stop after => trivial
  | ok value after =>
      obtain ⟨again, right, last, rfl, hagain, hafter⟩ := h hat hspaced hresult
      exact ⟨mixed ++ again, right, last, (List.append_assoc _ _ _).symm, hmixed.append hagain,
        hafter⟩

theorem sifts_fail (fault : Fault) : Sifts edition slots (fail fault : Linting α) :=
  fun _ _ => .throw fun _ _ => trivial

theorem sifts_pure (value : α) : Sifts edition [] (pure value : Linting α) := by
  intro tokens before
  rw [List.append_nil]
  exact .pure value

theorem look_eq_ok {count : Int} {chars : List Char} (h : look count progress = .ok chars after) :
    after = progress := by
  have hlook : Triple (· = progress) (fun _ => (· = progress)) (fun _ _ => True) (look count) :=
    triple_look (fun _ _ => trivial) count
  exact hlook.of_ok rfl h

theorem sifts_look (count : Int) : Sifts edition [] (look count) := by
  intro tokens before
  rw [List.append_nil]
  exact triple_look (fun _ _ => trivial) count

theorem Sifts.bind {first : Linting α} {next : α → Linting β} (h : Sifts edition slots first)
    (hnext : ∀ value, Sifts edition more (next value)) :
    Sifts edition (slots ++ more) (first >>= next) := by
  intro tokens before
  rw [← List.append_assoc]
  exact (h tokens before).bind fun value => hnext value tokens (before ++ slots)

theorem Sifts.bind_stay {first : Linting α} {next : α → Linting β} (h : Sifts edition slots first)
    (hnext : ∀ value, Sifts edition [] (next value)) : Sifts edition slots (first >>= next) := by
  have hbind := h.bind hnext
  rwa [List.append_nil] at hbind

theorem sifts_reader {reader : Nat → Linting (List Char)}
    (hslot : ∀ c ∈ slot, c ∈ digits ∨ c ∈ signs)
    (hzero : ∀ progress value after, reader 0 progress ≠ .ok value after)
    (hnil : ∀ {levels : Nat} {progress : Progress}, progress.At [] →
      ∀ value after, reader levels progress ≠ .ok value after)
    (hcons : ∀ {levels : Nat} {progress after : Progress} {c : Char} {rest value : List Char},
      progress.At (c :: rest) → reader (levels + 1) progress = .ok value after →
      c ∈ slot ∧ after.At rest ∨
        isFiller [c] ∧ reader levels (progress.advance 1 [c]) = .ok value after)
    (levels : Nat) : Sifts edition [slot] (reader levels) := by
  induction levels with
  | zero => exact sifts_of_ok fun _ _ hok => absurd hok (hzero _ _ _)
  | succ levels ih =>
      refine sifts_of_ok fun {progress after value text tokens} hat hspaced hok => ?_
      cases text with
      | nil => exact absurd hok (hnil hat value after)
      | cons c rest =>
          rcases hcons hat hok with ⟨hc, hafter⟩ | ⟨hc, hagain⟩
          · obtain ⟨others, rfl, hrest⟩ := spaced_operand hspaced (hslot c hc)
            exact ⟨[[c]], rest, others, rfl, .operand hc .nil, hafter, hrest⟩
          · rcases spaced_filler hspaced hc with hrest | ⟨others, rfl, hrest⟩
            · exact ih.ok hat.advance_cons hrest hagain
            · obtain ⟨mixed, left, last, rfl, hmixed, hleft⟩ :=
                ih.ok hat.advance_cons hrest hagain
              exact ⟨closeToken :: mixed, left, last, rfl, .close hmixed, hleft⟩

theorem sifts_digit (levels : Nat) : Sifts edition [digits] (digit levels) := by
  refine sifts_reader (fun c hc => .inl hc) (fun _ _ _ h => by cases h) ?_ ?_ levels
  · intro levels progress hat value after h
    cases levels with
    | zero => cases h
    | succ levels =>
        rw [digit, bind_of_error hat.take_nil] at h
        cases h
  · intro levels progress after c rest value hat h
    rw [digit, bind_of_ok hat.take_cons] at h
    by_cases hdigit : among digits [c]
    · rw [if_pos hdigit] at h
      cases h
      exact .inl ⟨(among_singleton digits c).mp hdigit, hat.advance_cons⟩
    rw [if_neg hdigit] at h
    by_cases hfiller : isFiller [c]
    · rw [if_pos hfiller] at h
      obtain ⟨found, middle, hfound, hlook⟩ := bind_eq_ok h
      obtain ⟨next, last, hnext, hlast⟩ := bind_eq_ok hlook
      cases hlast
      rw [look_eq_ok hnext]
      exact .inr ⟨hfiller, hfound⟩
    · rw [if_neg hfiller] at h
      cases h

theorem sifts_sign (levels : Nat) : Sifts edition [signs] (sign levels) := by
  refine sifts_reader (fun c hc => .inr hc) (fun _ _ _ h => by cases h) ?_ ?_ levels
  · intro levels progress hat value after h
    cases levels with
    | zero => cases h
    | succ levels =>
        rw [sign, bind_of_error hat.take_nil] at h
        cases h
  · intro levels progress after c rest value hat h
    rw [sign, bind_of_ok hat.take_cons] at h
    by_cases hsign : among signs [c]
    · rw [if_pos hsign] at h
      cases h
      exact .inl ⟨(among_singleton signs c).mp hsign, hat.advance_cons⟩
    rw [if_neg hsign] at h
    by_cases hfiller : isFiller [c]
    · rw [if_pos hfiller] at h
      exact .inr ⟨hfiller, h⟩
    · rw [if_neg hfiller] at h
      cases h

theorem sifts_digitRun (levels count : Nat) (before : List Char) :
    Sifts edition (List.replicate count digits) (digitRun levels count before) := by
  induction count generalizing before with
  | zero => exact sifts_pure before
  | succ count ih => exact (sifts_digit levels).bind fun found => ih (before ++ found)

theorem sifts_number (levels count : Nat) (alone : Bool) :
    Sifts edition (List.replicate count digits) (number levels count alone) := by
  unfold number
  refine (sifts_digitRun levels count []).bind_stay fun found => ?_
  refine (sifts_look 1).bind fun next => ?_
  split
  · exact fun _ _ => .get fun _ => .throw fun _ _ => trivial
  · exact sifts_pure found

theorem sifts_shape (levels : Nat) (shape : Shape) :
    Sifts edition shape.slots (shape.read levels) := by
  cases shape with
  | bare => exact sifts_pure _
  | single => exact (sifts_number levels 1 true).bind_stay fun _ => sifts_pure _
  | pair =>
      refine (sifts_number levels 2 true).bind_stay fun found => ?_
      split
      · exact sifts_pure _
      · exact sifts_fail _
  | valued count =>
      refine (sifts_number levels 1 false).bind fun first => ?_
      exact (sifts_number levels count true).bind_stay fun _ => sifts_pure _
  | compared =>
      refine (sifts_number levels 1 true).bind fun first => ?_
      refine (sifts_sign levels).bind fun sign => ?_
      exact (sifts_number levels 1 true).bind_stay fun _ => sifts_pure _

theorem sifts_rule (levels : Nat) (rule : Rule) :
    Sifts edition rule.shape.slots (rule.check levels false) := by
  refine sifts_of_ok fun {progress _ _ _ _} hat hspaced hok => ?_
  obtain ⟨middle, hcursor, -, heq⟩ := rule_check rule levels progress
  rw [heq] at hok
  exact ((sifts_shape levels rule.shape).bind_stay fun _ => sifts_pure ()).ok
    (hat.of_cursor hcursor) hspaced hok

theorem Mixed.closes {mixed : List Token} (h : Mixed (slot :: slots) mixed) (count : Nat) :
    Mixed (slot :: slots) (List.replicate count closeToken ++ mixed) := by
  induction count with
  | zero => exact h
  | succ count ih => exact .close ih

theorem solid_eq_ok {value : List Char} (hat : progress.At text)
    (hspaced : Spaced edition text tokens) (hok : solid false levels progress = .ok value after) :
    ∃ count others c rest, tokens = List.replicate count closeToken ++ others ∧ value = [c] ∧
      after.At (c :: rest) ∧ Spaced edition (c :: rest) others := by
  induction levels generalizing progress text tokens with
  | zero => cases hok
  | succ levels ih =>
      cases text with
      | nil =>
          rw [solid, bind_of_error hat.take_nil] at hok
          cases hok
      | cons c rest =>
          by_cases hc : isFiller [c]
          · rw [solid_filler hat hc] at hok
            rcases spaced_filler hspaced hc with hrest | ⟨others, rfl, hrest⟩
            · exact ih hat.advance_cons hrest hok
            · obtain ⟨count, others, d, left, rfl, hvalue, hafter, hleft⟩ :=
                ih hat.advance_cons hrest hok
              exact ⟨count + 1, others, d, left, rfl, hvalue, hafter, hleft⟩
          · rw [solid_found false hat hc] at hok
            cases hok
            exact ⟨0, tokens, c, rest, rfl, rfl, hat.again, hspaced⟩

theorem sifts_immediate (levels : Nat) :
    Sifts edition [digits, digits] (checkImmediate levels false) := by
  refine sifts_of_ok fun hat hspaced hok => ?_
  obtain ⟨next, middle, hnext, hrest⟩ := bind_eq_ok hok
  obtain ⟨found, last, hfound, hlast⟩ := bind_eq_ok hnext
  cases hlast
  obtain ⟨count, others, c, rest, rfl, rfl, hmiddle, hleft⟩ := solid_eq_ok hat hspaced hfound
  have hmarks : ¬ ([c] = ['\x22'] ∨ [c] = ['\x27']) := by
    simpa [isQuote] using not_isQuote_of_spaced hleft
  rw [List.nil_append, if_neg hmarks] at hrest
  obtain ⟨mixed, left, last, rfl, hmixed, hafter⟩ :=
    ((sifts_number levels 2 true).bind_stay fun _ => sifts_pure ()).ok hmiddle hleft hrest
  exact ⟨List.replicate count closeToken ++ mixed, left, last, (List.append_assoc _ _ _).symm,
    hmixed.closes count, hafter⟩

theorem sifts_mnemonic {name : Token} (h : slots? edition name = some slots) (levels : Nat) :
    Sifts edition slots (checkMnemonic edition levels false name) := by
  rcases slots?_cases h with ⟨rfl, rfl⟩ | ⟨rfl, rfl⟩ | ⟨shape, opens, houtline, rfl⟩
  · have hrule : rule? edition "NOP".toList = none := by cases edition <;> decide +kernel
    refine sifts_of_ok fun {progress _ _ _ _} hat hspaced hok => ?_
    obtain ⟨middle, hcursor, -, heq⟩ := checkMnemonic_unknown hrule (by decide) progress
    cases heq.symm.trans hok
    exact sifted_nil (hat.of_cursor hcursor) hspaced
  · exact sifts_immediate levels
  · obtain ⟨rule, hrule, hpair⟩ := Option.map_eq_some_iff.mp houtline
    cases hpair
    rw [checkMnemonic_rule hrule]
    exact sifts_rule levels rule

end

/-! ## All passes -/

theorem returns_mnemonic {name : Token} {slots : List (List Char)}
    (hname : slots? edition name = some slots) (hat : progress.At (name ++ text))
    (hif : name = "IF".toList → text ≠ []) (hspaced : Spaced edition text tokens)
    (h : Returns (checkRest edition levels false progress)) :
    ∃ mixed left others after, tokens = mixed ++ others ∧ Mixed slots mixed ∧
      left.length < (name ++ text).length ∧ Spaced edition left others ∧ after.At left ∧
      Returns (checkRest edition levels false after) := by
  have hmnemonic := isMnemonic_of_slots? hname
  obtain ⟨middle, hnext, hmiddle, -⟩ :=
    @checkNext_mnemonic edition levels _ _ _ hmnemonic hif hat
  obtain ⟨final, hfinal⟩ := h
  rw [checkRest_cons hat (ne_nil_of_isMnemonic hmnemonic)] at hfinal
  obtain ⟨goes, after, hok, hrest⟩ := bind_eq_ok hfinal
  obtain ⟨_, last, hread, hgoes⟩ := bind_eq_ok (hnext.symm.trans hok)
  cases hgoes
  obtain ⟨mixed, left, others, htokens, hmixed, hafter, hleft⟩ :=
    (sifts_mnemonic hname levels).ok hmiddle hspaced hread
  obtain ⟨unread, hunread, hshorter⟩ := checkNext_shorter hat hok
  have hlength : left.length = unread.length := hafter.unread.symm.trans hunread.unread
  exact ⟨mixed, left, others, _, htokens, hmixed, by omega, hleft, hafter, final, hrest⟩

theorem complete_or_slips (h : Spaced edition text tokens) (htext : "DPM".toList ∉ tokens)
    (hat : progress.At text) (hreturns : Returns (checkRest edition levels false progress)) :
    Complete edition tokens ∨ Slips edition tokens := by
  -- A pass reads a mnemonic with its operands at once, so the induction is on the length.
  induction hlength : text.length using Nat.strongRecOn generalizing text tokens progress with
  | ind length ih =>
      cases text with
      | nil =>
          rw [spaced_nil h]
          exact .inl complete_nil
      | cons c rest =>
          have hrest : rest.length < length := by simp [← hlength]
          rcases spaced_cons h with ⟨hspace, hleft⟩ | ⟨hc, others, rfl, hleft⟩ |
            ⟨-, name, left, others, hmnemonic, hsource, rfl, hleft, hname⟩
          · obtain ⟨after, heq, hafter, -⟩ :=
              @checkRest_filler edition levels _ _ _ hat (isFiller_of_clear hspace)
            exact ih rest.length hrest hleft htext hafter (heq ▸ hreturns) rfl
          · rcases hc with rfl | hc
            · obtain ⟨after, heq, hafter, -⟩ :=
                @checkRest_filler edition levels _ _ _ hat (by decide)
              rw [List.mem_cons, not_or] at htext
              exact complete_or_slips_append complete_close
                (ih rest.length hrest hleft htext.2 hafter (heq ▸ hreturns) rfl)
            · exact .inr ⟨[], _, rfl, complete_nil, .operand hc others⟩
          · rw [List.mem_cons, not_or] at htext
            obtain ⟨slots, hslots⟩ := hname.resolve_left (Ne.symm htext.1)
            by_cases hif : name = "IF".toList ∧ left = []
            · obtain ⟨rfl, rfl⟩ := hif
              rw [spaced_nil hleft]
              exact .inr ⟨[], _, rfl, complete_nil, .condition⟩
            rw [hsource] at hat hlength
            obtain ⟨mixed, left, last, after, rfl, hmixed, hshorter, hlast, hafter, hreturns⟩ :=
              returns_mnemonic hslots hat (fun heq hnil => hif ⟨heq, hnil⟩) hleft hreturns
            by_cases hclose : closeToken ∈ mixed
            · exact .inr ⟨[], _, rfl, complete_nil, .bracket hslots hmixed hclose last⟩
            · rw [List.mem_append, not_or] at htext
              have hinner := ih left.length (hlength ▸ hshorter) hlast htext.2.2 hafter hreturns rfl
              exact complete_or_slips_append (complete_named hslots (hmixed.filled hclose)) hinner

/-- A source that passes the check is cut into complete tokens exactly if there is no slip, and
then a fetch decodes its bits one item after the other.  Quotations and comments are left out, and
so are curly brackets, brackets within a token, and the text instruction. -/
theorem check_complete_iff (edition : Edition) (levels : Nat) (source bits : List Char)
    (tokens : List Token) (hmarks : ∀ c ∈ source, ¬ isQuote c ∧ c ≠ ';')
    (hcheck : Returns (check edition levels false (.start source)))
    (hbits : assemble edition source = .ok (.bits bits)) (hspells : Spells edition source tokens)
    (hcurly : ∀ c ∈ source, ¬ isCurly edition c)
    (hwords : Spells edition (unbracketed source) tokens) (htext : "DPM".toList ∉ tokens) :
    (Complete edition tokens ↔ ¬ Slips edition tokens) ∧
      ∀ items : List Item, (∀ item ∈ items, item.fits edition) →
        tokens = items.flatMap (Item.tokens edition) → Decodes edition bits items := by
  obtain ⟨others, hothers, hencode⟩ := assemble_eq_bits hbits
  cases hothers.symm.trans hspells
  obtain ⟨hcoded, rfl⟩ := encodeTokens_eq_ok hencode
  constructor
  · rw [check_eq] at hcheck
    have hor := complete_or_slips (hwords.spaced hcoded hmarks hcurly) htext
      (Progress.at_start source) hcheck
    exact ⟨fun h hslips => hslips.not_complete htext h, hor.resolve_right⟩
  · rintro items hitems rfl
    exact decodes_items hitems

theorem check_complete_iff_block :
    let source := "REP 2 [INC 3 ]]".toList
    let items : List Item := [.opening (.times (Fin.ofNat 16 2)),
      .plain (.alter .increment (Fin.ofNat 16 3)), .close, .close]
    let bits := "10100100100010000011110110".toList
    assemble .basic source = .ok (.bits bits) ∧
      ¬ Slips .basic (items.flatMap (Item.tokens .basic)) ∧ Decodes .basic bits items := by
  have hassemble : assemble .basic "REP 2 [INC 3 ]]".toList =
      .ok (.bits "10100100100010000011110110".toList) := by rfl
  have hcheck : Returns (check .basic 2 false (.start "REP 2 [INC 3 ]]".toList)) := by
    decide +kernel
  have hmarks : "REP 2 [INC 3 ]]".toList.all fun c =>
      !isQuote c && c != ';' && !isCurly .basic c := by decide +kernel
  intro source items bits
  have hitems : ∀ item ∈ items, item.fits .basic := by decide
  have hspells : Spells .basic source (items.flatMap (Item.tokens .basic)) := by rfl
  have hwords : Spells .basic (unbracketed source) (items.flatMap (Item.tokens .basic)) := by rfl
  have hplain : ∀ c ∈ source, (¬ isQuote c ∧ c ≠ ';') ∧ ¬ isCurly .basic c := by
    intro c hc
    simpa using List.all_eq_true.mp hmarks c hc
  obtain ⟨hiff, hdecodes⟩ := check_complete_iff .basic 2 source bits _
    (fun c hc => (hplain c hc).1) hcheck hassemble hspells (fun c hc => (hplain c hc).2) hwords
    (by decide)
  exact ⟨hassemble, hiff.mp ⟨items, hitems, rfl⟩, hdecodes items hitems rfl⟩

def Misses (edition : Edition) (source : List Char) : Prop :=
  Returns (check edition levelLimit false (.start source)) ∧
    ∃ bits tokens, assemble edition source = .ok (.bits bits) ∧ Spells edition source tokens ∧
      ¬ Complete edition tokens

theorem slots?_increment (edition : Edition) : slots? edition "INC".toList = some [digits] := by
  have hname : "INC".toList ∈ singleNames := by decide
  exact slots?_of_outline ((outlines edition).2.1 _ hname)

theorem not_complete_increment {operands : List Token}
    (h : ∀ c ∈ digits, ∀ rest, operands = [c] :: rest → ¬ Complete edition rest) :
    ¬ Complete edition ("INC".toList :: operands) := by
  intro hcomplete
  obtain ⟨others, rest, hfilled, rfl, hrest⟩ :=
    (complete_named_iff (slots?_increment edition)).mp hcomplete
  obtain ⟨c, hc, others, rfl, hnone⟩ := filled_cons hfilled
  rw [filled_nil hnone] at h
  exact h c hc rest rfl hrest

theorem not_complete_text {token : Token} {tokens : List Token} (h : ∀ c, token ≠ [c]) :
    ¬ Complete edition ("DPM".toList :: token :: tokens) := by
  intro hcomplete
  rcases complete_cons hcomplete with ⟨hclose, -⟩ | ⟨-, value, rest, heq⟩ | ⟨slots, _, _, hname, -⟩
  · cases hclose
  · exact h _ (List.cons.inj heq).1
  · rw [slots?_text] at hname
    cases hname

/-- An operand too many, a bracket before an operand, a condition that is missing, a bracket within
a mnemonic, a curly bracket, and a text without its operands. -/
theorem not_check_complete :
    (∀ edition, Misses edition "INC 3 4 ".toList ∧ Misses edition "INC ] 3 ".toList ∧
      Misses edition "NOP IF".toList ∧ Misses edition "I[NC NOP".toList) ∧
      Misses .extended "\x7bINC NOP".toList ∧ Misses .extended "DPM NOP".toList := by
  have hextra : ∀ edition, ¬ Complete edition ["INC".toList, ['3'], ['4']] := by
    refine fun edition => not_complete_increment fun c _ rest heq => ?_
    cases heq
    exact (Slip.operand (.inl (by decide)) []).not_complete
  have hbracket : ∀ edition, ¬ Complete edition ["INC".toList, closeToken, ['3']] := fun edition =>
    (Slip.bracket (slots?_increment edition) (.close (.operand (by decide) .nil))
      List.mem_cons_self []).not_complete
  have hcondition : ∀ edition, ¬ Complete edition ["NOP".toList, "IF".toList] := by
    intro edition h
    obtain ⟨operands, rest, hfilled, heq, hrest⟩ := (complete_named_iff rfl).mp h
    rw [filled_nil hfilled, List.nil_append] at heq
    rw [← heq] at hrest
    exact Slip.condition.not_complete hrest
  have hpause : ∀ edition, ¬ Complete edition ["INC".toList, "NOP".toList] :=
    fun edition => not_complete_increment fun c _ rest heq => by cases heq
  refine ⟨fun edition => ⟨?_, ?_, ?_, ?_⟩, ?_, ?_⟩
  · cases edition <;> exact ⟨by decide +kernel, _, _, rfl, rfl, hextra _⟩
  · cases edition <;> exact ⟨by decide +kernel, _, _, rfl, rfl, hbracket _⟩
  · cases edition <;> exact ⟨by decide +kernel, _, _, rfl, rfl, hcondition _⟩
  · cases edition <;> exact ⟨by decide +kernel, _, _, rfl, rfl, hpause _⟩
  · exact ⟨by decide +kernel, _, _, rfl, rfl, hpause _⟩
  · exact ⟨by decide +kernel, _, _, rfl, rfl, not_complete_text fun c h => by cases h⟩

end BitAssembly.Lint
