import BitAssembly.Proofs.Lint.Lockstep

/-!
# Checks with and without narration

A narrated check prints what a silent one only reads, and takes the names of blocks
from its list.  To print an operand it has to be decoded, which fails for one kind of
operand only: a byte that is no character by itself.  Up to the first such byte both
checks are at the same place all the time, and so they end alike if there is none.
-/

namespace BitAssembly.Lint

/-! ## What is told of operands -/

def Tells {α : Type} (result : Except Fault α) : Prop :=
  ∃ value, result = .ok value

theorem Tells.of_isSome {α : Type} {result : Except Fault α} (h : result.toOption.isSome) :
    Tells result := by
  cases result with
  | ok value => exact ⟨value, rfl⟩
  | error fault => cases h

theorem Tells.map {α β : Type} {result : Except Fault α} (h : Tells result) (f : α → β) :
    Tells (do return f (← result)) := by
  obtain ⟨value, rfl⟩ := h
  exact ⟨f value, rfl⟩

theorem decimal_digits : digits.all fun c => (decimal [c]).toOption.isSome &&
    digits.all fun d => (decimal [c, d]).toOption.isSome := by
  decide +kernel

theorem tells_decimal_one {c : Char} (hc : c ∈ digits) : Tells (decimal [c]) := by
  have hall := List.all_eq_true.mp decimal_digits c hc
  rw [Bool.and_eq_true] at hall
  exact .of_isSome hall.1

theorem tells_decimal_two {chars : List Char} (hlength : chars.length = 2)
    (hchars : ∀ c ∈ chars, c ∈ digits) : Tells (decimal chars) := by
  obtain ⟨c, d, rfl⟩ := List.length_eq_two.mp hlength
  have hall := List.all_eq_true.mp decimal_digits c (hchars c (by simp))
  rw [Bool.and_eq_true] at hall
  exact .of_isSome (List.all_eq_true.mp hall.2 d (hchars d (by simp)))

theorem comparison_signs : signs.all fun c => (comparison [c]).toOption.isSome := by
  decide +kernel

theorem tells_comparison {c : Char} (hc : c ∈ signs) : Tells (comparison [c]) :=
  .of_isSome (List.all_eq_true.mp comparison_signs c hc)

theorem tells_rules (operands : Operands) :
    ∀ entry ∈ sharedRules ++ (basicRules ++ extendedRules),
      entry.2.shape.Fitting operands → Tells (entry.2.narrate operands) := by
  have hcompared (name : String) :
      Shape.compared.Fitting operands → Tells ((comparedRule name).narrate operands) := by
    rintro ⟨c, hc, hsign⟩
    change Tells (do return _ ++ (← comparison operands.sign) ++ _ ++ _)
    rw [hsign]
    exact (tells_comparison hc).map _
  have hrestored : Shape.single.Fitting operands →
      Tells (do return register operands.first ++ " = " ++ (← decimal operands.first)) := by
    rintro ⟨c, hc, hfirst⟩
    rw [hfirst]
    exact (tells_decimal_one hc).map _
  have hcounted : (Shape.valued 2).Fitting operands →
      Tells (do return countedText operands.first (← decimal operands.second)) :=
    fun hsecond => (tells_decimal_two hsecond.1 hsecond.2).map _
  simp only [sharedRules, basicRules, extendedRules, List.cons_append, List.nil_append,
    List.forall_mem_cons, List.not_mem_nil, false_implies, implies_true, and_true]
  repeat' apply And.intro
  all_goals first
    | exact hcompared _
    | exact hrestored
    | exact hcounted
    | exact fun _ => ⟨_, rfl⟩

/-! ## Mnemonics and blocks -/

section

variable {progress other : Progress} {text : List Char}

theorem Twins.printed (h : Twins progress other) (printed later : List String) :
    Twins { progress with printed := printed } { other with printed := later } :=
  ⟨⟨h.cursor, h.line, h.column, h.last, h.depth⟩, h.named⟩

theorem Twins.opened (h : Twins progress other) (name : String) :
    Twins { progress with depth := progress.depth + 1, blocks := name :: progress.blocks }
      { other with depth := other.depth + 1, blocks := name :: other.blocks } := by
  refine ⟨⟨h.cursor, h.line, h.column, h.last, congrArg (· + 1) h.depth⟩, ?_⟩
  have hnamed := h.named
  simp only [List.length_cons]
  omega

theorem together_rule {edition : Edition} {mnemonic : List Char} {rule : Rule}
    (h : rule? edition mnemonic = some rule) (levels : Nat) (narrated : Bool) :
    Together (rule.check levels narrated) (rule.check levels false) fun _ _ _ => True := by
  obtain ⟨name, hentry⟩ := mem_of_rule? h
  have hread : Together
      (rule.shape.read levels >>= fun operands =>
        if narrated then ofExcept (rule.narrate operands) >>= printLine else pure ())
      (rule.shape.read levels >>= fun _ => pure ()) fun _ _ _ => True := by
    intro progress other text htwins hat
    refine (together_shape levels rule.shape htwins hat).bind ?_
    intro operands left after another hholds htwins hat
    cases narrated with
    | false => exact .ok trivial hat htwins
    | true =>
        obtain ⟨line, hline⟩ := tells_rules operands _ hentry hholds
        change rule.narrate operands = .ok line at hline
        rw [if_pos rfl, hline]
        exact .ok trivial hat (htwins.printed ((line ++ "\n") :: after.printed) another.printed)
  intro progress other text htwins hat
  unfold Rule.check
  cases rule.opens with
  | none => exact hread htwins hat
  | some name =>
      -- The block is open before the operands are read, and stays so if they are missing.
      exact hread (htwins.opened name) (hat.of_cursor rfl)

def endLine : List String → List String
  | [] => []
  | name :: _ => ["END " ++ name ++ "\n"]

def isEndLine (line : String) : Bool :=
  ['E', 'N', 'D', ' '].isPrefixOf line.toList

theorem printLine_if (condition : Prop) [Decidable condition] {line : String}
    (hline : isEndLine (line ++ "\n") = false) (progress : Progress) :
    ∃ printed : List String, (∀ line ∈ printed, isEndLine line = false) ∧
      (if condition then printLine line else pure ()) progress =
        .ok () { progress with printed := printed ++ progress.printed } := by
  by_cases h : condition
  · rw [if_pos h]
    exact ⟨[line ++ "\n"], List.forall_mem_singleton.mpr hline, rfl⟩
  · rw [if_neg h]
    exact ⟨[], nofun, rfl⟩

theorem closeBlock_narrated (progress : Progress) :
    ∃ warnings : List String, (∀ line ∈ warnings, isEndLine line = false) ∧
      closeBlock true progress = .ok () { progress with
        depth := progress.depth - 1
        blocks := progress.blocks.tail
        printed := warnings ++ (endLine progress.blocks ++ progress.printed) } := by
  have hwarning (text : String) :
      isEndLine ("\x1b[33mSyntaxWarning\x1b[39m ']' at " ++ text) = false := by
    rw [isEndLine, String.toList_append]
    rfl
  rw [closeBlock, bind_modify, bind_get, if_pos rfl]
  dsimp only
  cases progress.blocks with
  | nil =>
      apply printLine_if
      simp only [String.append_assoc]
      exact hwarning _
  | cons name rest =>
      dsimp only
      let ended := { progress with
        depth := progress.depth - 1
        blocks := rest
        printed := ("END " ++ name ++ "\n") :: progress.printed }
      refine printLine_if _ ?_ ended
      simp only [String.append_assoc]
      exact hwarning _

def Progress.reported (progress : Progress) : Progress :=
  match progress.blocks with
  | [] => progress
  | name :: rest =>
      { progress with
        blocks := rest
        printed := ("Unclosed block found, possibly a " ++ name ++ "\n") :: progress.printed }

theorem checkClosed_named {narrated : Bool} (h : progress.depth ≤ progress.blocks.length) :
    checkClosed narrated progress =
      .ok () (if 0 < progress.depth ∧ narrated = true then progress.reported else progress) := by
  unfold checkClosed
  rw [bind_get]
  by_cases hopen : 0 < progress.depth ∧ narrated = true
  · rw [if_pos hopen, if_pos hopen]
    unfold Progress.reported
    cases hblocks : progress.blocks with
    | nil =>
        rw [hblocks, List.length_nil] at h
        omega
    | cons name rest => rfl
  · rw [if_neg hopen, if_neg hopen]
    rfl

theorem together_closeAt (narrated : Bool) (c : Char) :
    Together (closeAt narrated c) (closeAt false c) fun _ _ _ => True := by
  intro progress other text htwins hat
  unfold closeAt
  by_cases hc : c = ']'
  · rw [if_pos hc, if_pos hc]
    have hdepth : other.depth - 1 = progress.depth - 1 := congrArg (· - 1) htwins.depth
    have hnamed := htwins.named
    cases narrated with
    | false =>
        have hclosed : Twins { progress with depth := progress.depth - 1 }
            { other with depth := other.depth - 1 } :=
          ⟨⟨htwins.cursor, htwins.line, htwins.column, htwins.last, hdepth⟩,
            (Int.sub_le_self _ Int.one_nonneg).trans hnamed⟩
        exact .ok trivial (hat.of_cursor rfl) hclosed
    | true =>
        obtain ⟨warnings, -, hclose⟩ := closeBlock_narrated progress
        rw [hclose]
        refine .ok trivial (hat.of_cursor rfl)
          ⟨⟨htwins.cursor, htwins.line, htwins.column, htwins.last, hdepth⟩, ?_⟩
        simp only [List.length_tail]
        omega
  · rw [if_neg hc, if_neg hc]
    exact .ok trivial hat htwins

end

/-! ## Bytes that are no characters -/

def highDigits : List Char :=
  ['8', '9', 'a', 'b', 'c', 'd', 'e', 'f']

/-- A number of two digits comes next that spells a byte which is no character by itself. -/
def HighByte (levels : Nat) (text : List Char) : Prop :=
  ∃ (gap middle rest : List Char) (first second next : Char),
    Loose levels gap ∧ first ∈ highDigits ∧ Loose levels middle ∧ second ∈ digits ∧
      next ∉ digits ∧ text = gap ++ first :: (middle ++ second :: next :: rest)

theorem mem_digits_of_high {c : Char} (h : c ∈ highDigits) : c ∈ digits := by
  have hall : highDigits.all digits.contains := by decide +kernel
  exact List.contains_iff_mem.mp (List.all_eq_true.mp hall c h)

theorem byteChar_digits : digits.all fun c => digits.all fun d =>
    if highDigits.contains c then decide (byteChar [c, d] = .error .badEncoding)
    else (byteChar [c, d]).toOption.isSome := by
  decide +kernel

section

variable {levels : Nat} {progress other : Progress} {text rest : List Char} {c d : Char}

theorem byteChar_high (hc : c ∈ highDigits) (hd : d ∈ digits) :
    byteChar [c, d] = .error .badEncoding := by
  have hdigits := List.all_eq_true.mp byteChar_digits c (mem_digits_of_high hc)
  have hall := List.all_eq_true.mp hdigits d hd
  rw [if_pos (List.contains_iff_mem.mpr hc)] at hall
  exact of_decide_eq_true hall

theorem tells_byteChar (hc : c ∈ digits) (hlow : c ∉ highDigits) (hd : d ∈ digits) :
    Tells (byteChar [c, d]) := by
  have hall := List.all_eq_true.mp (List.all_eq_true.mp byteChar_digits c hc) d hd
  rw [if_neg (mt List.contains_iff_mem.mp hlow)] at hall
  exact .of_isSome hall

theorem takeThrough_mark (hat : progress.At (c :: rest)) (fuel : Nat) :
    takeThrough [c] (fuel + 1) [] progress = .ok [c] (progress.advance 1 [c]) := by
  rw [takeThrough, bind_of_ok hat.take_cons, if_pos rfl]
  rfl

theorem checkImmediate_agreed (narrated : Bool) (htwins : Twins progress other)
    (hat : progress.At text) (hhigh : narrated = true → ¬ HighByte levels text) :
    Agreed (fun _ _ => True) (checkImmediate levels narrated progress)
      (checkImmediate levels false other) := by
  unfold checkImmediate
  rw [solids_false]
  refine (together_solid levels htwins hat).bind ?_
  rintro _ _ after another ⟨gap, c, rest, hgap, hc, rfl, rfl, rfl⟩ htwins hat
  by_cases hquote : [c] = ['\x22'] ∨ [c] = ['\x27']
  · rw [if_pos hquote, if_pos hquote, bind_get, bind_get, bind_of_ok (takeThrough_mark hat _),
      bind_of_ok (takeThrough_mark (htwins.at hat) _)]
    have hread := htwins.advance 1 [c]
    cases narrated with
    | false => exact .ok trivial hat.advance_cons hread
    | true => exact .ok trivial (hat.advance_cons.of_cursor rfl) (hread.printed _ _)
  · rw [if_neg hquote, if_neg hquote]
    refine (together_number levels 2 true htwins hat).bind ?_
    rintro _ left after another ⟨hfound, next, more, rfl, hnext⟩ htwins hat
    obtain ⟨before, first, middle, second, hbefore, hmiddle, hfirst, hsecond, rfl, htext⟩ :=
      hfound.two
    cases narrated with
    | false => exact .ok trivial hat htwins
    | true =>
        have hlow : first ∉ highDigits := by
          intro hfirst
          apply hhigh rfl
          -- What was put back is no filler, so that the first digit stands right there.
          cases before with
          | nil =>
              exact ⟨gap, middle, more, first, second, next, hgap, hfirst, hmiddle, hsecond,
                hnext rfl, congrArg (gap ++ ·) htext⟩
          | cons filler before =>
              obtain rfl : c = filler := (List.cons.inj htext).1
              exact absurd (hbefore.1 c List.mem_cons_self) hc
        obtain ⟨line, hline⟩ := tells_byteChar hfirst hlow hsecond
        rw [if_pos rfl, hline]
        exact .ok trivial (hat.of_cursor rfl) (htwins.printed _ _)

theorem number_byte {middle : List Char} {next : Char}
    (hat : progress.At (c :: (middle ++ d :: next :: rest))) (hc : c ∈ digits)
    (hmiddle : Loose levels middle) (hd : d ∈ digits) (hnext : next ∉ digits) :
    ∃ after, number levels 2 true progress = .ok [c, d] after := by
  obtain ⟨fewer, rfl⟩ : ∃ fewer, levels = fewer + 1 :=
    ⟨levels - 1, by have := hmiddle.2; omega⟩
  let between := progress.advance 1 [c]
  have hbetween : between.At (middle ++ d :: next :: rest) := hat.advance_cons
  have hafter : (between.reads (middle ++ [d])).At (next :: rest) := by
    apply Progress.At.reads
    rwa [List.append_assoc]
  have hrun : digitRun (fewer + 1) 2 [] progress = .ok [c, d] (between.reads (middle ++ [d])) := by
    rw [digitRun, bind_of_ok (digit_found hat hc), digitRun,
      bind_of_ok (digit_ok hmiddle hd hbetween)]
    rfl
  have halone : ¬ (among digits [next] && true) = true := by
    rw [Bool.and_true, among_singleton]
    exact hnext
  refine ⟨between.reads (middle ++ [d]), ?_⟩
  unfold number
  refine (bind_of_ok hrun).trans ?_
  rw [bind_of_ok hafter.look_cons, if_neg halone]
  rfl

theorem checkImmediate_high (hat : progress.At text) (hhigh : HighByte levels text) :
    ∃ after, checkImmediate levels true progress = .error (.fault .badEncoding) after := by
  obtain ⟨gap, middle, rest, first, second, next, hgap, hfirst, hmiddle, hsecond, hnext, rfl⟩ :=
    hhigh
  have hdigit := mem_digits_of_high hfirst
  have hquote : ¬ ([first] = ['\x22'] ∨ [first] = ['\x27']) := by
    simpa [Source.isQuote] using not_isQuote_of_digit hdigit
  obtain ⟨before, hsolid, hbefore, -⟩ := solid_back hat hgap (not_isFiller_of_digit hdigit)
  obtain ⟨after, hnumber⟩ := number_byte hbefore hdigit hmiddle hsecond hnext
  unfold checkImmediate
  rw [hsolid, if_neg hquote, bind_of_ok hnumber, if_pos rfl, byteChar_high hfirst hsecond]
  exact ⟨after, rfl⟩

end

/-! ## One pass -/

def HighDisplay (levels : Nat) (text : List Char) : Prop :=
  ∃ rest, text = ['D', 'P', 'I'] ++ rest ∧ HighByte levels rest

section

variable {edition : Edition} {levels : Nat} {progress other : Progress} {text : List Char}

theorem checkMnemonic_agreed (narrated : Bool) {mnemonic : List Char}
    (htwins : Twins progress other) (hat : progress.At text)
    (hhigh : narrated = true → mnemonic = "DPI".toList → ¬ HighByte levels text) :
    Agreed (fun _ _ => True) (checkMnemonic edition levels narrated mnemonic progress)
      (checkMnemonic edition levels false mnemonic other) := by
  unfold checkMnemonic
  by_cases himmediate : mnemonic = "DPI".toList
  · rw [if_pos himmediate, if_pos himmediate]
    exact checkImmediate_agreed narrated htwins hat fun h => hhigh h himmediate
  rw [if_neg himmediate, if_neg himmediate]
  by_cases hmessage : mnemonic = "DPM".toList ∧ edition = .extended
  · rw [if_pos hmessage, if_pos hmessage]
    exact .ok trivial (hat.of_cursor rfl) (htwins.printed _ _)
  rw [if_neg hmessage, if_neg hmessage]
  cases hrule : rule? edition mnemonic with
  | none => exact .ok trivial hat htwins
  | some rule => exact together_rule hrule levels narrated htwins hat

theorem Agreed.pass {first second : Linting Unit}
    (h : Agreed (fun _ _ => True) (first progress) (second other)) :
    Agreed (fun _ _ => True) ((first >>= fun _ => pure true) progress)
      ((second >>= fun _ => pure true) other) :=
  h.bind fun _ _ _ _ _ htwins hat => .ok trivial hat htwins

theorem checkNext_agreed (edition : Edition) (narrated : Bool) (htwins : Twins progress other)
    (hat : progress.At text) (hhigh : narrated = true → ¬ HighDisplay levels text) :
    Agreed (fun _ _ => True) (checkNext edition levels narrated progress)
      (checkNext edition levels false other) := by
  have hother := htwins.at hat
  rcases text with - | ⟨a, rest⟩
  · rw [checkNext_nil hat, checkNext_nil hother]
    exact .error (.inr (.inl rfl)) htwins
  by_cases ha : isFiller [a]
  · rw [checkNext_filler hat ha, checkNext_filler hother ha]
    exact (together_closeAt narrated a (htwins.advance 1 [a]) hat.advance_cons).pass
  rcases rest with - | ⟨b, - | ⟨c, rest⟩⟩
  · rw [checkNext_short hat ha (by simp), checkNext_short hother ha (by simp)]
    exact .ok trivial hat htwins
  · rw [checkNext_short hat ha (by simp), checkNext_short hother ha (by simp)]
    exact .ok trivial hat htwins
  by_cases hname : [a, b] = "IF".toList
  · obtain ⟨rfl, rfl⟩ : a = 'I' ∧ b = 'F' := by simpa using hname
    rw [checkNext_if hat, checkNext_if hother]
    have hread : (progress.advance 2 "IF".toList).At (c :: rest) :=
      Progress.At.advance (show progress.At ("IF".toList ++ c :: rest) from hat)
    exact (checkMnemonic_agreed narrated (htwins.advance 2 _) hread fun _ h => by simp at h).pass
  · rw [checkNext_group hat ha hname, checkNext_group hother ha hname]
    have hread : (progress.advance 2 [a, b]).At (c :: rest) :=
      Progress.At.advance (show progress.At ([a, b] ++ c :: rest) from hat)
    refine (checkMnemonic_agreed narrated ((htwins.advance 2 [a, b]).advance 1 [c])
      hread.advance_cons ?_).pass
    intro hnarrated hmnemonic hbyte
    exact hhigh hnarrated ⟨rest, congrArg (· ++ rest) hmnemonic, hbyte⟩

theorem checkNext_high (hat : progress.At text) (hhigh : HighDisplay levels text) :
    ∃ after, checkNext edition levels true progress = .error (.fault .badEncoding) after := by
  obtain ⟨rest, rfl, hbyte⟩ := hhigh
  have hread : (progress.advance 2 ['D', 'P']).At ('I' :: rest) :=
    Progress.At.advance (show progress.At (['D', 'P'] ++ 'I' :: rest) from hat)
  obtain ⟨after, herror⟩ := checkImmediate_high hread.advance_cons hbyte
  refine ⟨after, ?_⟩
  rw [checkNext_group hat (by decide) (by decide)]
  exact bind_of_error herror

end

/-! ## All passes -/

/-- A silent check comes to the display of a byte that is no character by itself. -/
inductive Stumbles (edition : Edition) (levels : Nat) : Progress → Prop
  | here {progress : Progress} {text : List Char} (hat : progress.At text)
      (hhigh : HighDisplay levels text) : Stumbles edition levels progress
  | later {progress after : Progress}
      (hpass : checkNext edition levels false progress = .ok true after)
      (h : Stumbles edition levels after) : Stumbles edition levels progress

section

variable {edition : Edition} {levels : Nat} {progress other : Progress} {text : List Char}

theorem HighDisplay.ne_nil (h : HighDisplay levels text) : text ≠ [] := by
  rintro rfl
  obtain ⟨rest, htext, -⟩ := h
  cases htext

theorem checkRest_agreed (narrated : Bool) (htwins : Twins progress other)
    (hat : progress.At text) (hclear : narrated = true → ¬ Stumbles edition levels other) :
    Agreed (fun _ _ => True) (checkRest edition levels narrated progress)
      (checkRest edition levels false other) := by
  -- A pass that goes on leaves less text for both.
  induction hlength : text.length using Nat.strongRecOn generalizing progress other text with
  | ind length ih =>
      have hother := htwins.at hat
      by_cases htext : text = []
      · subst htext
        rw [checkRest_nil hat, checkRest_nil hother]
        exact .ok trivial hat htwins
      rw [checkRest_cons hat htext, checkRest_cons hother htext]
      have hpass := checkNext_agreed edition narrated htwins hat fun h hhigh =>
        hclear h (.here hother hhigh)
      generalize hfirst : checkNext edition levels narrated progress = first at hpass
      generalize hsecond : checkNext edition levels false other = second at hpass
      cases hpass with
      | excused h => exact h.elim
      | error h =>
          rw [bind_of_error hfirst, bind_of_error hsecond]
          exact Related.error h
      | @ok goes _ _ h =>
          obtain ⟨left, -, hleft, htwins⟩ := h
          rw [bind_of_ok hfirst, bind_of_ok hsecond]
          cases goes with
          | false => exact .ok trivial hleft htwins
          | true =>
              obtain ⟨rest, hrest, hshorter⟩ := checkNext_shorter hat hfirst
              have hsame : left.length = rest.length := hleft.unread.symm.trans hrest.unread
              exact ih left.length (by omega) htwins hleft
                (fun h hlater => hclear h (.later hsecond hlater)) rfl

theorem checkRest_high (hat : progress.At text) (hhigh : HighDisplay levels text) :
    ∃ after, checkRest edition levels true progress = .error (.fault .badEncoding) after := by
  obtain ⟨after, herror⟩ := checkNext_high hat hhigh
  rw [checkRest_cons hat hhigh.ne_nil]
  exact ⟨after, bind_of_error herror⟩

theorem checkRest_stumbles (h : Stumbles edition levels other) (htwins : Twins progress other)
    (hat : progress.At text) :
    ∃ after, checkRest edition levels true progress = .error (.fault .badEncoding) after := by
  induction h generalizing progress text with
  | here hother hhigh => exact checkRest_high (hother.of_cursor htwins.cursor.symm) hhigh
  | later hsecond _ ih =>
      by_cases hhigh : HighDisplay levels text
      · exact checkRest_high hat hhigh
      have htext : text ≠ [] := by
        rintro rfl
        rw [checkNext_nil (htwins.at hat)] at hsecond
        cases hsecond
      have hpass := checkNext_agreed edition true htwins hat fun _ => hhigh
      generalize hfirst : checkNext edition levels true progress = first at hpass
      rw [hsecond] at hpass
      cases hpass with
      | ok h =>
          obtain ⟨left, -, hleft, htwins⟩ := h
          rw [checkRest_cons hat htext, bind_of_ok hfirst]
          exact ih htwins hleft
      | excused h => exact h.elim

end

/-! ## The verdict -/

/-- Both checks come to their end, or both stop for the same reason, at the same place of the
same text and with as many blocks open. -/
inductive SameVerdict : EStateM.Result Stop Progress Unit →
    EStateM.Result Stop Progress Unit → Prop
  | ok {progress other : Progress} (h : progress.Level other) :
      SameVerdict (.ok () progress) (.ok () other)
  | error (stop : Stop) {progress other : Progress} (h : progress.Level other) :
      SameVerdict (.error stop progress) (.error stop other)

theorem checkClosed_verdict (narrated : Bool) {progress other : Progress}
    (h : Twins progress other) :
    SameVerdict (checkClosed narrated progress) (.ok () other) := by
  rw [checkClosed_named h.named]
  split
  · unfold Progress.reported
    split
    · exact .ok h.toLevel
    · exact .ok ⟨h.cursor, h.line, h.column, h.last, h.depth⟩
  · exact .ok h.toLevel

theorem twins_start (source : List Char) : Twins (.start source) (.start source) :=
  ⟨⟨rfl, rfl, rfl, rfl, rfl⟩, Int.le_refl 0⟩

section

variable {edition : Edition} {levels : Nat} {narrated : Bool} {source : List Char}
variable {stop : Stop} {after : Progress}

theorem check_verdict
    (hclear : narrated = true → ¬ Stumbles edition levels (.start source)) :
    SameVerdict (check edition levels narrated (.start source))
      (check edition levels false (.start source)) := by
  have hrest := checkRest_agreed narrated (twins_start source) (Progress.at_start source) hclear
  rw [check_eq, check_eq_bind]
  generalize hfirst : checkRest edition levels narrated (.start source) = first at hrest
  generalize checkRest edition levels false (.start source) = second at hrest
  cases hrest with
  | error h =>
      obtain ⟨rfl, htwins, -⟩ := h
      rw [bind_of_error hfirst]
      exact .error _ htwins.toLevel
  | ok h =>
      obtain ⟨left, -, -, htwins⟩ := h
      rw [bind_of_ok hfirst]
      exact checkClosed_verdict narrated htwins
  | excused h => exact h.elim

theorem check_stumbles (h : Stumbles edition levels (.start source)) :
    ∃ after, check edition levels true (.start source) = .error (.fault .badEncoding) after := by
  obtain ⟨after, herror⟩ := checkRest_stumbles h (twins_start source) (Progress.at_start source)
  exact ⟨after, check_eq_bind ▸ bind_of_error herror⟩

theorem ordinary_of_silent (h : check edition levels false (.start source) = .error stop after) :
    Ordinary stop := by
  rw [check_eq] at h
  have hrest : Agreed _ (checkRest edition levels false _) (checkRest edition levels false _) :=
    checkRest_agreed false (twins_start source) (Progress.at_start source) nofun
  rw [h] at hrest
  cases hrest with
  | error h => exact h.2.2
  | excused h => exact h.elim

theorem not_ordinary_badEncoding : ¬ Ordinary (.fault .badEncoding) := by
  rintro (h | h | h) <;> cases h

/-- Narration changes neither the verdict of a check nor its place in the text, unless the check
comes to the display of a byte that is no character by itself.  A narrated check then fails, as
it cannot tell the byte. -/
theorem narration_keeps_verdict_iff (edition : Edition) (levels : Nat) (source : List Char) :
    (SameVerdict (check edition levels true (.start source))
        (check edition levels false (.start source)) ↔
      ¬ Stumbles edition levels (.start source)) ∧
    (Stumbles edition levels (.start source) →
      ∃ after, check edition levels true (.start source) =
        .error (.fault .badEncoding) after) := by
  refine ⟨⟨?_, fun h => check_verdict fun _ => h⟩, check_stumbles⟩
  intro hsame hstumbles
  obtain ⟨after, herror⟩ := check_stumbles hstumbles
  rw [herror] at hsame
  generalize hsilent : check edition levels false (.start source) = second at hsame
  cases hsame
  exact not_ordinary_badEncoding (ordinary_of_silent hsilent)

theorem narration_changes_verdict :
    (∃ after, check .basic levelLimit true (.start "DPI 80 ".toList) =
        .error (.fault .badEncoding) after ∧
      ∃ after, check .basic levelLimit false (.start "DPI 80 ".toList) = .ok () after) ∧
    (∃ after, check .extended levelLimit true (.start "DPI 80 ".toList) =
        .error (.fault .badEncoding) after ∧
      ∃ after, check .extended levelLimit false (.start "DPI 80 ".toList) = .ok () after) :=
  ⟨⟨_, rfl, _, rfl⟩, ⟨_, rfl, _, rfl⟩⟩

end

end BitAssembly.Lint
