import BitAssembly.Proofs.Lint.Layout
import BitAssembly.Proofs.Structured.Program

/-!
# Checks of whole programs

A program is laid out by its tokens, with gaps between them.  A check of such a
source returns exactly if its layout is readable.  Where all gaps are clear and
the source ends in a gap, it fails only by nesting too deep, and if it returns,
it has read everything, closed every block and counted every line.
-/

namespace BitAssembly.Structured

def Head.title : Head → String
  | .onlyIf _ => "IF"
  | .whileTrue _ => "WHILE"
  | .times _ => "REPEAT"
  | .count _ _ => "FOR"
  | .countTo _ _ => "FOR"
  | .define _ => "FUNCDEF"

def Program.openers : Program → List String
  | .done => []
  | .plain _ rest => rest.openers
  | .block head body rest => head.title :: (body.openers ++ rest.openers)

def Plain.immediates : Plain → Nat
  | .displayByte _ => 1
  | _ => 0

def Program.immediates : Program → Nat
  | .done => 0
  | .plain instruction rest => instruction.immediates + rest.immediates
  | .block _ body rest => body.immediates + rest.immediates

def Plain.isWrite : Plain → Bool
  | .write _ _ => true
  | _ => false

def Program.writesNone : Program → Bool
  | .done => true
  | .plain instruction rest => !instruction.isWrite && rest.writesNone
  | .block _ body rest => body.writesNone && rest.writesNone

end BitAssembly.Structured

namespace BitAssembly.Lint

open BitAssembly.Text
open BitAssembly.Source
open BitAssembly.Structured

/-! ## Instructions of a program -/

theorem digitChar_mem_digits (value : Nat) : Nat.digitChar (value % 16) ∈ digits := by
  have hall : ∀ digit : Fin 16, Nat.digitChar digit.val ∈ digits := by decide
  exact hall ⟨value % 16, Nat.mod_lt value (by decide)⟩

theorem exists_sign (relation : Relation) :
    ∃ c ∈ signs, relation.sign = [c] := by
  cases relation <;> exact ⟨_, by decide, rfl⟩

section

variable {edition : Edition} {levels : Nat} {slots : List (List Char)} {operands : List Token}

theorem Suits.digit (value : Nat) (h : Suits slots operands) :
    Suits (digits :: slots) (digitToken value :: operands) :=
  .cons (digitChar_mem_digits value) h

theorem Suits.append {more : List (List Char)} {others : List Token} (h : Suits slots operands)
    (h' : Suits more others) : Suits (slots ++ more) (operands ++ others) := by
  intro pieces hpieces
  obtain ⟨first, second, rfl, hfirst, hsecond⟩ := List.map_eq_append_iff.mp hpieces
  exact (h first hfirst).append (h' second hsecond)

theorem suits_numberTokens (width value : Nat) :
    Suits (List.replicate width digits) (numberTokens width value) := by
  induction width generalizing value with
  | zero => exact suits_nil
  | succ width ih =>
      rw [List.replicate_succ', numberTokens]
      exact (ih (value / 16)).append (suits_nil.digit value)

theorem suits_condition (condition : Condition) :
    Suits Shape.compared.slots condition.tokens := by
  obtain ⟨c, hc, hsign⟩ := exists_sign condition.relation
  rw [Condition.tokens, hsign]
  exact Suits.digit _ (.cons hc (.digit _ suits_nil))

/-! ## Mnemonics by what follows them -/

def bareNames (edition : Edition) : List Token :=
  (List.finRange 8).map pageMnemonic ++ [false, true].map (exitMnemonic edition)

def singleNames : List Token :=
  [.increment, .decrement, .clear, .restore, .push, .pop].map Change.mnemonic ++
    ([.character, .decimal, .hexadecimal].map Form.mnemonic ++
      ([false, true].map askMnemonic ++ ["UDF".toList, "CLL".toList]))

def pairNames : List Token :=
  [.add, .subtract, .multiply, .divide, .copy, .power, .root].map Operation.mnemonic

def loads : Edition → List (Fin 4)
  | .basic => [⟨0, by decide⟩]
  | .extended => List.finRange 4

def blockOutlines : List (Token × Shape × String) :=
  [("IF".toList, .compared, "IF"), ("WHL".toList, .compared, "WHILE"),
   ("REP".toList, .single, "REPEAT"), ("FOR".toList, .valued 2, "FOR"),
   ("VFR".toList, .valued 1, "FOR"), ("DEF".toList, .single, "FUNCDEF")]

theorem outlines (edition : Edition) :
    (∀ name ∈ bareNames edition, outline? edition name = some (.bare, none)) ∧
    (∀ name ∈ singleNames, outline? edition name = some (.single, none)) ∧
    (∀ name ∈ pairNames, outline? edition name = some (.pair, none)) ∧
    (∀ width ∈ loads edition,
      outline? edition (loadMnemonic width) = some (.valued (2 * (width.val + 1)), none)) ∧
    (∀ entry ∈ blockOutlines,
      outline? edition entry.1 = some (entry.2.1, some entry.2.2)) := by
  cases edition <;> decide +kernel

theorem treats_named {mnemonic : Token} {shape : Shape} {opens : Option String}
    (h : outline? edition mnemonic = some (shape, opens)) (hsuits : Suits shape.slots operands) :
    Treats edition levels (mnemonic :: operands) opens.toList 0 0 := by
  obtain ⟨hmnemonic, hletter, hshape, hif⟩ := outline?_regular h
  exact treats_instruction hmnemonic hletter hif (demands_named h hshape) hsuits

theorem plain_outline (instruction : Plain) (hfits : instruction.fits edition) :
    (∃ name shape operands, outline? edition name = some (shape, none) ∧
      Suits shape.slots operands ∧ instruction.tokens edition = name :: operands ∧
      instruction.immediates = 0) ∨
    instruction = .pause ∨ (∃ byte, instruction = .displayByte byte) ∨ instruction.isWrite := by
  obtain ⟨hbare, hsingle, hpair, hload, -⟩ := outlines edition
  cases instruction with
  | pause => exact .inr (.inl rfl)
  | displayByte byte => exact .inr (.inr (.inl ⟨byte, rfl⟩))
  | write bytes hlength => exact .inr (.inr (.inr rfl))
  | alter change register =>
      have hname : change.mnemonic ∈ singleNames :=
        List.mem_append_left _ (List.mem_map_of_mem (by cases change <;> decide))
      exact .inl ⟨_, _, _, hsingle _ hname, suits_nil.digit _, rfl, rfl⟩
  | selectPage page =>
      have hname : pageMnemonic page ∈ bareNames edition :=
        List.mem_append_left _ (List.mem_map_of_mem (List.mem_finRange page))
      exact .inl ⟨_, _, _, hbare _ hname, suits_nil, rfl, rfl⟩
  | compute operation target source =>
      have hname : operation.mnemonic ∈ pairNames :=
        List.mem_map_of_mem (by cases operation <;> decide)
      exact .inl ⟨_, _, _, hpair _ hname, (suits_nil.digit _).digit _, rfl, rfl⟩
  | load width target value =>
      have hwidth : width ∈ loads edition := by
        cases edition with
        | basic => simpa [Plain.fits, loads] using hfits
        | extended => exact List.mem_finRange width
      exact .inl ⟨_, _, _, hload width hwidth, (suits_numberTokens _ _).digit _, rfl, rfl⟩
  | display form register =>
      have hname : form.mnemonic ∈ singleNames := List.mem_append_right _
        (List.mem_append_left _ (List.mem_map_of_mem (by cases form <;> decide)))
      exact .inl ⟨_, _, _, hsingle _ hname, suits_nil.digit _, rfl, rfl⟩
  | undefine name =>
      exact .inl ⟨_, _, _, hsingle _ (by simp [singleNames]), suits_nil.digit _, rfl, rfl⟩
  | call name =>
      exact .inl ⟨_, _, _, hsingle _ (by simp [singleNames]), suits_nil.digit _, rfl, rfl⟩
  | exit failed =>
      have hname : exitMnemonic edition failed ∈ bareNames edition :=
        List.mem_append_right _ (List.mem_map_of_mem (by cases failed <;> decide))
      exact .inl ⟨_, _, _, hbare _ hname, suits_nil, rfl, rfl⟩
  | ask decimal register =>
      have hname : askMnemonic decimal ∈ singleNames :=
        List.mem_append_right _ (List.mem_append_right _
          (List.mem_append_left _ (List.mem_map_of_mem (by cases decimal <;> decide))))
      exact .inl ⟨_, _, _, hsingle _ hname, suits_nil.digit _, rfl, rfl⟩

theorem head_outline (edition : Edition) (head : Head) :
    ∃ name shape operands, outline? edition name = some (shape, some head.title) ∧
      Suits shape.slots operands ∧ head.tokens = name :: operands := by
  have hblock : ∀ entry ∈ blockOutlines,
      outline? edition entry.1 = some (entry.2.1, some entry.2.2) := (outlines edition).2.2.2.2
  simp only [blockOutlines, List.forall_mem_cons] at hblock
  obtain ⟨hif, hwhile, htimes, hcount, hcountTo, hdefine, -⟩ := hblock
  cases head with
  | onlyIf condition => exact ⟨_, _, _, hif, suits_condition condition, rfl⟩
  | whileTrue condition => exact ⟨_, _, _, hwhile, suits_condition condition, rfl⟩
  | times register => exact ⟨_, _, _, htimes, suits_nil.digit _, rfl⟩
  | count register passes => exact ⟨_, _, _, hcount, (suits_numberTokens _ _).digit _, rfl⟩
  | countTo register limit => exact ⟨_, _, _, hcountTo, (suits_nil.digit _).digit _, rfl⟩
  | define name => exact ⟨_, _, _, hdefine, suits_nil.digit _, rfl⟩

theorem treats_plain (levels : Nat) (instruction : Plain) (hfits : instruction.fits edition)
    (hwrite : !instruction.isWrite) :
    Treats edition levels (instruction.tokens edition) [] 0 instruction.immediates := by
  rcases plain_outline instruction hfits with
    ⟨name, shape, operands, houtline, hsuits, htokens, hnone⟩ | rfl | ⟨byte, rfl⟩ | htext
  · rw [htokens, hnone]
    exact treats_named houtline hsuits
  · -- No rule is needed where nothing follows: the mnemonic is passed over as unknown.
    have hrule : rule? edition "NOP".toList = none := by cases edition <;> decide +kernel
    exact @treats_instruction _ _ _ _ .bare _ _ (by decide) ⟨'N', _, rfl, by decide⟩ (by decide)
      (demands_unknown hrule (by decide)) suits_nil
  · exact @treats_instruction _ _ _ _ .pair _ _ (by decide) ⟨'D', _, rfl, by decide⟩ (by decide)
      (demands_byte levels) (suits_numberTokens 2 byte.toNat)
  · simp [htext] at hwrite

theorem treats_head (edition : Edition) (levels : Nat) (head : Head) :
    Treats edition levels head.tokens [head.title] 0 0 := by
  obtain ⟨name, shape, operands, houtline, hsuits, htokens⟩ := head_outline edition head
  rw [htokens]
  exact treats_named houtline hsuits

theorem treats_program (levels : Nat) (program : Program) (hfits : program.fits edition)
    (hwrites : program.writesNone) :
    Treats edition levels (program.tokens edition) program.openers program.openers.length
      program.immediates := by
  induction program with
  | done => exact treats_nil edition levels
  | plain instruction rest ih =>
      simp only [Program.fits, Program.writesNone, Bool.and_eq_true] at hfits hwrites
      have htreats := (treats_plain levels instruction hfits.1 hwrites.1).append
        (ih hfits.2 hwrites.2)
      rwa [Nat.zero_add] at htreats
  | block head body rest ihbody ihrest =>
      simp only [Program.fits, Program.writesNone, Bool.and_eq_true] at hfits hwrites
      -- A block is a head, a body and a bracket, and then comes the rest.
      have htreats := (treats_head edition levels head).append
        ((ihbody hfits.1 hwrites.1).append
          ((treats_close edition levels).append (ihrest hfits.2 hwrites.2)))
      have htokens : (Program.block head body rest).tokens edition =
          head.tokens ++ (body.tokens edition ++ ([[']']] ++ rest.tokens edition)) := by
        simp [Program.tokens, closeToken]
      have hclosed : (Program.block head body rest).openers.length =
          0 + (body.openers.length + (1 + rest.openers.length)) := by
        simp [Program.openers]
        omega
      have hpushed : (Program.block head body rest).immediates =
          0 + (body.immediates + (0 + rest.immediates)) := by
        simp [Program.immediates]
      rw [htokens, hclosed, hpushed]
      exact htreats

end

/-! ## Layouts -/

structure Layout where
  pieces : List (List Char × Token)
  trail : List Char

def Layout.source (layout : Layout) : List Char :=
  spell layout.pieces ++ layout.trail

def Layout.tokens (layout : Layout) : List Token :=
  layout.pieces.map Prod.snd

def Layout.Readable (layout : Layout) (levels : Nat) : Prop :=
  Lint.Readable levels layout.trail layout.pieces

instance (layout : Layout) (levels : Nat) : Decidable (layout.Readable levels) :=
  decidableReadable levels layout.trail layout.pieces

/-- All gaps are gaps of the edition.  Those that stand before mnemonics and closing brackets are
passed over by a check, and so is the one at the end, but for up to two characters. -/
structure Layout.Regular (layout : Layout) (edition : Edition) : Prop where
  gaps : ∀ piece ∈ layout.pieces, Gap edition piece.1
  outer : ∀ piece ∈ layout.pieces, ¬ isOperand piece.2 → Passable edition piece.1
  trail : Gap edition layout.trail
  ends : ∃ gap rest, layout.trail = gap ++ rest ∧ Passable edition gap ∧ rest.length < 3

theorem head_not_digit_of_gap {edition : Edition} {gap : List Char} (h : Gap edition gap) :
    ∀ c ∈ gap.head?, c ∉ digits := by
  cases gap with
  | nil => simp
  | cons c gap => simpa using (fair_of_gap h).head_not_digit

theorem checkRest_short {edition : Edition} {levels : Nat} {progress : Progress} {text : List Char}
    (hat : progress.At text) (hshort : text.length < 3) :
    Returns (checkRest edition levels false progress) := by
  induction text generalizing progress with
  | nil => exact ⟨progress, checkRest_nil hat⟩
  | cons c rest ih =>
      rw [List.length_cons] at hshort
      by_cases hc : isFiller [c]
      · obtain ⟨after, heq, hafter, -⟩ := @checkRest_filler edition levels _ _ _ hat hc
        rw [heq]
        exact ih hafter (by omega)
      · refine ⟨progress, ?_⟩
        rw [checkRest_cons hat (by simp), bind_of_ok (checkNext_short hat hc (by omega))]
        rfl

/-- A check of a laid out program returns exactly if the layout is readable. -/
theorem check_layout_iff (edition : Edition) (levels : Nat) (program : Program) (layout : Layout)
    (hfits : program.fits edition) (hwrites : program.writesNone)
    (htokens : layout.tokens = program.tokens edition) (hregular : layout.Regular edition) :
    Returns (check edition levels false (.start layout.source)) ↔ layout.Readable levels := by
  have htreats := treats_program levels program hfits hwrites
  have hlaid : Laid edition layout.pieces := fun piece hpiece =>
    ⟨fair_of_gap (hregular.gaps piece hpiece), hregular.outer piece hpiece⟩
  have hends : Returns (check edition levels false (.start layout.trail)) := by
    obtain ⟨gap, rest, htrail, hgap, hshort⟩ := hregular.ends
    rw [htrail, returns_gap_iff hgap, check_eq]
    exact checkRest_short (Progress.at_start rest) hshort
  have hiff := htreats.returns_iff htokens hlaid (head_not_digit_of_gap hregular.trail)
  rwa [and_iff_left hends] at hiff

theorem check_layout_iff_comments :
    let program : Program := .block (.onlyIf ⟨Fin.ofNat 16 1, .equal, Fin.ofNat 16 2⟩)
      (.plain (.alter .increment (Fin.ofNat 16 3)) .done) .done
    let layout : Layout :=
      ⟨[(";a;".toList, "IF".toList), ([], "1".toList), (" (".toList, "=".toList), ([], "2".toList),
        ("\n[".toList, "INC".toList), (" ".toList, "3".toList), (";];".toList, "]".toList)],
        " ;;".toList⟩
    layout.tokens = program.tokens .extended ∧ layout.Regular .extended ∧ layout.Readable 3 ∧
      Returns (check .extended 3 false (.start layout.source)) := by
  intro program layout
  have htokens : layout.tokens = program.tokens .extended := by decide +kernel
  have hregular : layout.Regular .extended := by
    have hfirst : Passable .extended ";a;".toList :=
      .group (by decide) (by decide) (by decide) (by decide +kernel) .nil
    have hlast : Passable .extended ";];".toList :=
      .group (by decide) (by decide) (by decide) (by decide +kernel) .nil
    refine ⟨?_, ?_, .blank (by decide) (.comment [] (by decide) .nil),
      " ".toList, ";;".toList, by decide, .filler (by decide) .nil, by decide⟩
    · simp only [layout, List.forall_mem_cons]
      exact ⟨.comment "a".toList (by decide) .nil, .nil,
        .blank (by decide) (.bracket (by decide) .nil), .nil,
        .blank (by decide) (.bracket (by decide) .nil), .blank (by decide) .nil,
        .comment "]".toList (by decide) .nil, by simp⟩
    · simp only [layout, List.forall_mem_cons]
      exact ⟨fun _ => hfirst, fun _ => .nil, fun h => absurd rfl h, fun _ => .nil,
        fun _ => .filler (by decide) (.filler (by decide) .nil), fun h => absurd rfl h,
        fun _ => hlast, by simp⟩
  have hreadable : layout.Readable 3 := by decide +kernel
  exact ⟨htokens, hregular, hreadable, (check_layout_iff .extended 3 program layout (by decide)
    (by decide) htokens hregular).mpr hreadable⟩

/-- The same tokens with a blank at the end, with nothing there, and with a comment before the
operand. -/
theorem not_check_alike :
    let program : Program := .plain (.alter .increment (Fin.ofNat 16 3)) .done
    let blank : Layout := ⟨[([], "INC".toList), (" ".toList, "3".toList)], " ".toList⟩
    let bare : Layout := ⟨[([], "INC".toList), (" ".toList, "3".toList)], []⟩
    let comment : Layout := ⟨[([], "INC".toList), (";x; ".toList, "3".toList)], " ".toList⟩
    (∀ layout ∈ [blank, bare, comment], layout.tokens = program.tokens .extended ∧
      (∀ piece ∈ layout.pieces, Gap .extended piece.1) ∧ Gap .extended layout.trail) ∧
    Returns (check .extended levelLimit false (.start blank.source)) ∧
    ¬ Returns (check .extended levelLimit false (.start bare.source)) ∧
    ¬ Returns (check .extended levelLimit false (.start comment.source)) := by
  intro program blank bare comment
  have hblank : Gap .extended " ".toList := .blank (by decide) .nil
  have hcomment : Gap .extended ";x; ".toList := .comment "x".toList (by decide) hblank
  refine ⟨?_, by decide +kernel, by decide +kernel, by decide +kernel⟩
  simp only [blank, bare, comment, List.forall_mem_cons]
  exact ⟨⟨by decide +kernel, ⟨.nil, hblank, by simp⟩, hblank⟩,
    ⟨by decide +kernel, ⟨.nil, hblank, by simp⟩, .nil⟩,
    ⟨by decide +kernel, ⟨.nil, hcomment, by simp⟩, hblank⟩, by simp⟩

/-! ## Clear layouts -/

def Layout.IsClear (layout : Layout) : Prop :=
  (∀ piece ∈ layout.pieces, Clear piece.1) ∧ Clear layout.trail

def Layout.IsShort (layout : Layout) (levels : Nat) : Prop :=
  ∀ piece ∈ layout.pieces, isOperand piece.2 → piece.1.length < levels

instance (layout : Layout) : Decidable layout.IsClear :=
  inferInstanceAs (Decidable ((∀ piece ∈ layout.pieces, Clear piece.1) ∧ Clear layout.trail))

instance (layout : Layout) (levels : Nat) : Decidable (layout.IsShort levels) :=
  inferInstanceAs (Decidable (∀ piece ∈ layout.pieces, _))

theorem Clear.head_not_digit {gap : List Char} (h : Clear gap) : ∀ c ∈ gap.head?, c ∉ digits := by
  cases gap with
  | nil => simp
  | cons c gap => simpa using not_digit_of_isFiller (isFiller_of_clear (h c List.mem_cons_self))

theorem Clear.laid {edition : Edition} {pieces : List (List Char × Token)}
    (h : ∀ piece ∈ pieces, Clear piece.1) : Laid edition pieces :=
  fun piece hpiece => ⟨(h piece hpiece).filling.fair, fun _ => (h piece hpiece).filling.passable⟩

theorem readable_iff_short {levels : Nat} {tail : List Char}
    {pieces : List (List Char × Token)} (hclear : ∀ piece ∈ pieces, Clear piece.1)
    (htail : tail ≠ []) :
    Readable levels tail pieces ↔
      ∀ piece ∈ pieces, isOperand piece.2 → piece.1.length < levels := by
  induction pieces with
  | nil => simp [Readable]
  | cons piece pieces ih =>
      rw [List.forall_mem_cons] at hclear
      rw [Readable, ih hclear.2, List.forall_mem_cons]
      simp [Loose, hclear.1.filling, htail]

/-- Everything has been read, every block is closed, and lines and blocks are counted. -/
structure Finished (program : Program) (source : List Char) (after : Progress) : Prop where
  pos : after.cursor.pos = after.cursor.text.size
  depth : after.depth = 0
  line : after.line = 1 + source.count '\n'
  blocks : after.blocks.reverse = program.openers
  size : after.cursor.text.size = source.length + program.immediates

section

variable {edition : Edition} {levels : Nat} {program : Program} {layout : Layout}

theorem check_clear_ok (hfits : program.fits edition) (hwrites : program.writesNone)
    (htokens : layout.tokens = program.tokens edition) (hclear : layout.IsClear)
    (htrail : layout.trail ≠ []) (hshort : layout.IsShort levels) :
    ∃ after, check edition levels false (.start layout.source) = .ok () after ∧
      Finished program layout.source after := by
  have htreats := treats_program levels program hfits hwrites
  obtain ⟨middle, heq, hmiddle, hmoved⟩ := htreats.ok htokens (Clear.laid hclear.1)
    (Progress.at_start layout.source) hclear.2.head_not_digit
    ((readable_iff_short hclear.1 htrail).mpr hshort)
  rw [← List.append_nil layout.trail] at hmiddle
  obtain ⟨after, heq', hafter, hmoved'⟩ :=
    @checkRest_gap edition levels _ _ _ hclear.2.filling.passable hmiddle
  have hall := (hmoved hclear.1).trans (hmoved' hclear.2)
  refine ⟨after, ?_, ?_⟩
  · rw [check_eq, heq, heq', checkRest_nil hafter]
  · have hsize := hall.size
    constructor
    · simpa using hafter.size.symm
    · rw [hall.depth]
      simp [Progress.start]
    · exact hall.line
    · rw [hall.blocks]
      simp [Progress.start]
    · rw [hsize]
      simp [Progress.start]

theorem check_clear_error (hfits : program.fits edition) (hwrites : program.writesNone)
    (htokens : layout.tokens = program.tokens edition) (hclear : layout.IsClear)
    (htrail : layout.trail ≠ []) (hlong : ¬ layout.IsShort levels) :
    ∃ after, check edition levels false (.start layout.source) = .error .tooDeep after := by
  have htreats := treats_program levels program hfits hwrites
  obtain ⟨stop, after, herror, hstop⟩ := htreats.error htokens (Clear.laid hclear.1)
    (Progress.at_start layout.source) hclear.2.head_not_digit
    (mt (readable_iff_short hclear.1 htrail).mp hlong)
  rw [hstop hclear.1 htrail] at herror
  exact ⟨after, (check_eq _).trans herror⟩

end

/-- A check of a clear layout comes to the end of the source, with everything counted, unless a
gap before an operand has as many characters as there are levels. -/
theorem check_clear (edition : Edition) (levels : Nat) (program : Program) (layout : Layout)
    (hfits : program.fits edition) (hwrites : program.writesNone)
    (htokens : layout.tokens = program.tokens edition) (hclear : layout.IsClear)
    (htrail : layout.trail ≠ []) :
    (layout.IsShort levels →
      ∃ after, check edition levels false (.start layout.source) = .ok () after ∧
        Finished program layout.source after) ∧
    (¬ layout.IsShort levels →
      ∃ after, check edition levels false (.start layout.source) = .error .tooDeep after) :=
  ⟨check_clear_ok hfits hwrites htokens hclear htrail,
    check_clear_error hfits hwrites htokens hclear htrail⟩

theorem check_clear_nested :
    let program : Program := .block (.define (Fin.ofNat 16 1))
      (.block (.count (Fin.ofNat 16 2) 10) (.plain (.displayByte 65) .done) .done)
      (.plain (.selectPage (Fin.ofNat 8 2)) .done)
    let layout : Layout :=
      ⟨[(" ".toList, "DEF".toList), ("\n".toList, "1".toList), ("[".toList, "FOR".toList),
        ([], "2".toList), (" (".toList, "0".toList), ([], "a".toList), (")[".toList, "DPI".toList),
        (" ".toList, "4".toList), ("\n\t".toList, "1".toList), ([], "]".toList),
        ("\n".toList, "]".toList), ([], "PG3".toList)], "\n".toList⟩
    layout.tokens = program.tokens .basic ∧ layout.IsClear ∧ layout.IsShort levelLimit ∧
      ∃ after, check .basic levelLimit false (.start layout.source) = .ok () after ∧
        Finished program layout.source after := by
  intro program layout
  have htokens : layout.tokens = program.tokens .basic := by decide +kernel
  have hclear : layout.IsClear := by decide +kernel
  have hshort : layout.IsShort levelLimit := by decide +kernel
  exact ⟨htokens, hclear, hshort, (check_clear .basic levelLimit program layout (by decide)
    (by decide) htokens hclear (by decide)).1 hshort⟩

/-- The limit ends the check of an instruction behind whose name stand three thousand blanks. -/
theorem not_check_long_gap :
    let program : Program := .plain (.alter .increment (Fin.ofNat 16 3)) .done
    let layout : Layout :=
      ⟨[([], "INC".toList), (List.replicate 3000 ' ', "3".toList)], " ".toList⟩
    layout.tokens = program.tokens .extended ∧ layout.IsClear ∧
      ∃ after, check .extended levelLimit false (.start layout.source) = .error .tooDeep after := by
  intro program layout
  have htokens : layout.tokens = program.tokens .extended := rfl
  have hclear : layout.IsClear := by
    have hblanks : Clear (List.replicate 3000 ' ') := by
      intro c hc
      rw [List.eq_of_mem_replicate hc]
      decide
    refine ⟨?_, by decide⟩
    simp only [layout, List.forall_mem_cons]
    exact ⟨by decide, hblanks, by simp⟩
  have hlong : ¬ layout.IsShort levelLimit := by
    intro hshort
    have hlength := hshort (List.replicate 3000 ' ', "3".toList)
      (List.mem_cons_of_mem _ List.mem_cons_self) (by decide)
    rw [List.length_replicate] at hlength
    exact absurd hlength (by decide)
  exact ⟨htokens, hclear,
    check_clear_error (by decide) (by decide) htokens hclear (by decide) hlong⟩

end BitAssembly.Lint
