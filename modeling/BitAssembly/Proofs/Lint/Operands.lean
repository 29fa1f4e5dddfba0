import BitAssembly.Proofs.Lint.Unread
import BitAssembly.Source.Token

/-!
# Operands and the gaps before them

An operand is one character, with a gap before it.  A check passes over the gap
if it is loose: it holds fillers only, and fewer of them than there are levels.
Any other gap ends the check, and so does the end of the text right behind the
last operand.
-/

namespace BitAssembly.Lint

open BitAssembly.Text
open BitAssembly.Source

/-! ## Reading one character at a time -/

def Progress.reads (progress : Progress) (chars : List Char) : Progress :=
  chars.foldl (fun progress c => progress.advance 1 [c]) progress

section

variable (progress : Progress) (chars more : List Char) (c : Char)

@[simp] theorem Progress.reads_nil : progress.reads [] = progress := rfl

@[simp] theorem Progress.reads_cons :
    progress.reads (c :: chars) = (progress.advance 1 [c]).reads chars := rfl

theorem Progress.reads_append :
    progress.reads (chars ++ more) = (progress.reads chars).reads more :=
  List.foldl_append

@[simp] theorem Progress.reads_depth : (progress.reads chars).depth = progress.depth := by
  induction chars generalizing progress with
  | nil => rfl
  | cons c chars ih => exact ih _

@[simp] theorem Progress.reads_blocks : (progress.reads chars).blocks = progress.blocks := by
  induction chars generalizing progress with
  | nil => rfl
  | cons c chars ih => exact ih _

@[simp] theorem Progress.reads_text :
    (progress.reads chars).cursor.text = progress.cursor.text := by
  induction chars generalizing progress with
  | nil => rfl
  | cons c chars ih => exact ih _

theorem Progress.reads_line :
    (progress.reads chars).line = progress.line + chars.count '\n' := by
  induction chars generalizing progress with
  | nil => rfl
  | cons c chars ih =>
      rw [reads_cons, ih]
      by_cases hc : c = '\n'
      · subst hc
        simp [Progress.advance]
        omega
      · simp [Progress.advance, hc, Ne.symm hc]

end

theorem Progress.At.reads {progress : Progress} {chars rest : List Char}
    (h : progress.At (chars ++ rest)) : (progress.reads chars).At rest := by
  induction chars generalizing progress with
  | nil => exact h
  | cons c chars ih => exact ih h.advance_cons

/-! ## Gaps -/

def isStray (c : Char) : Bool :=
  !isFiller [c] && !digits.contains c && !signs.contains c && !isQuote c

theorem isStray_iff {c : Char} :
    isStray c ↔ ¬ isFiller [c] ∧ c ∉ digits ∧ c ∉ signs ∧ ¬ isQuote c := by
  simp [isStray, and_assoc]

def Filling (gap : List Char) : Prop :=
  ∀ c ∈ gap, isFiller [c]

def Loose (levels : Nat) (gap : List Char) : Prop :=
  Filling gap ∧ gap.length < levels

/-- Its first character that is no filler is no operand either. -/
def Fair (gap : List Char) : Prop :=
  ∀ c ∈ gap.find? fun c => !isFiller [c], isStray c

theorem Fair.split {gap : List Char} (h : Fair gap) :
    ∃ before more, gap = before ++ more ∧ Filling before ∧ ∀ c ∈ more.head?, isStray c := by
  cases hfind : gap.find? fun c => !isFiller [c] with
  | none =>
      refine ⟨gap, [], (List.append_nil gap).symm, ?_, by simp⟩
      intro c hc
      simpa using List.find?_eq_none.mp hfind c hc
  | some c =>
      obtain ⟨-, before, more, hgap, hbefore⟩ := List.find?_eq_some_iff_append.mp hfind
      refine ⟨before, c :: more, hgap, ?_, by simpa using h c hfind⟩
      intro d hd
      simpa using hbefore d hd

theorem fair_of_head {gap : List Char} (h : ∀ c ∈ gap.head?, isStray c) : Fair gap := by
  cases gap with
  | nil => simp [Fair]
  | cons c gap =>
      have hc : isStray c := h c rfl
      simpa [Fair, (isStray_iff.mp hc).1] using hc

theorem Filling.fair {gap : List Char} (h : Filling gap) : Fair gap := by
  have hfind : (gap.find? fun c => !isFiller [c]) = none := by
    rw [List.find?_eq_none]
    intro c hc
    simpa using h c hc
  intro c hc
  rw [hfind] at hc
  cases hc

theorem digits_not_filler : digits.all fun c => !isFiller [c] := by
  decide +kernel

theorem signs_not_filler : signs.all fun c => !isFiller [c] && !digits.contains c := by
  decide +kernel

theorem not_isFiller_of_digit {c : Char} (h : c ∈ digits) : ¬ isFiller [c] := by
  simpa using List.all_eq_true.mp digits_not_filler c h

theorem not_digit_of_isFiller {c : Char} (h : isFiller [c]) : c ∉ digits :=
  fun hc => not_isFiller_of_digit hc h

theorem not_isFiller_of_sign {c : Char} (h : c ∈ signs) : ¬ isFiller [c] := by
  have hc := List.all_eq_true.mp signs_not_filler c h
  simp only [Bool.and_eq_true, Bool.not_eq_true'] at hc
  simp [hc.1]

theorem not_digit_of_sign {c : Char} (h : c ∈ signs) : c ∉ digits := by
  have hc := List.all_eq_true.mp signs_not_filler c h
  simp only [Bool.and_eq_true, Bool.not_eq_true', List.contains_eq_mem,
    decide_eq_false_iff_not] at hc
  exact hc.2

theorem Fair.head_not_digit {c : Char} {gap : List Char} (h : Fair (c :: gap)) : c ∉ digits := by
  by_cases hc : isFiller [c]
  · exact not_digit_of_isFiller hc
  · have hstray : isStray c := h c (by simp [hc])
    exact (isStray_iff.mp hstray).2.1

theorem among_singleton (allowed : List Char) (c : Char) :
    among allowed [c] ↔ c ∈ allowed := by
  simp [among]

/-! ## Passing over fillers -/

/-- The reader passes over a filler with one level less, and is not changed by it otherwise as
long as text is left. -/
structure Skips {α : Type} (reader : Nat → Linting α) : Prop where
  zero : ∀ progress, reader 0 progress = .error .tooDeep progress
  error : ∀ {levels : Nat} {progress after : Progress} {c : Char} {rest : List Char} {stop : Stop},
    progress.At (c :: rest) → isFiller [c] →
    reader levels (progress.advance 1 [c]) = .error stop after →
    reader (levels + 1) progress = .error stop after
  ok : ∀ {levels : Nat} {progress after : Progress} {c d : Char} {rest left : List Char}
      {value : α}, progress.At (c :: rest) → isFiller [c] →
    reader levels (progress.advance 1 [c]) = .ok value after → after.At (d :: left) →
    reader (levels + 1) progress = .ok value after

section

variable {α : Type} {reader : Nat → Linting α} {levels : Nat} {progress after : Progress}
variable {gap rest left : List Char} {c d : Char} {stop : Stop} {value : α}

theorem Skips.error_gap (h : Skips reader) (hgap : Filling gap) (hat : progress.At (gap ++ rest))
    (herror : reader levels (progress.reads gap) = .error stop after) :
    reader (levels + gap.length) progress = .error stop after := by
  induction gap generalizing progress with
  | nil => exact herror
  | cons c gap ih =>
      have hc : isFiller [c] := hgap c List.mem_cons_self
      have hinner := ih (fun d hd => hgap d (List.mem_cons_of_mem c hd)) hat.advance_cons herror
      exact h.error hat hc hinner

theorem Skips.ok_gap (h : Skips reader) (hgap : Filling gap) (hat : progress.At (gap ++ rest))
    (hok : reader levels (progress.reads gap) = .ok value after) (hafter : after.At (d :: left)) :
    reader (levels + gap.length) progress = .ok value after := by
  induction gap generalizing progress with
  | nil => exact hok
  | cons c gap ih =>
      have hc : isFiller [c] := hgap c List.mem_cons_self
      have hinner := ih (fun d hd => hgap d (List.mem_cons_of_mem c hd)) hat.advance_cons hok
      exact h.ok hat hc hinner hafter

theorem Skips.tooDeep (h : Skips reader) (hgap : Filling gap) (hat : progress.At (gap ++ rest))
    (hlong : levels ≤ gap.length) : ∃ after, reader levels progress = .error .tooDeep after := by
  have hlength : (gap.take levels).length = levels := List.length_take_of_le hlong
  have hsplit : gap ++ rest = gap.take levels ++ (gap.drop levels ++ rest) := by
    rw [← List.append_assoc, List.take_append_drop]
  rw [hsplit] at hat
  have htake : Filling (gap.take levels) := fun c hc => hgap c (List.mem_of_mem_take hc)
  have herror := h.error_gap htake hat (h.zero _)
  rw [hlength, Nat.zero_add] at herror
  exact ⟨_, herror⟩

theorem Skips.not_loose (h : Skips reader)
    (hstray : ∀ {levels : Nat} {progress : Progress} {c : Char} {rest : List Char},
      progress.At (c :: rest) → isStray c →
        ∃ stop after, reader (levels + 1) progress = .error stop after)
    (hgap : Fair gap) (hloose : ¬ Loose levels gap) (hat : progress.At (gap ++ rest)) :
    ∃ stop after, reader levels progress = .error stop after ∧
      (Filling gap → stop = .tooDeep) := by
  obtain ⟨before, more, rfl, hbefore, hmore⟩ := hgap.split
  rw [List.append_assoc] at hat
  -- Either the fillers in front use up the levels, or the reader comes to what follows them.
  by_cases hlong : levels ≤ before.length
  · obtain ⟨after, herror⟩ := h.tooDeep hbefore hat hlong
    exact ⟨_, after, herror, fun _ => rfl⟩
  cases more with
  | nil => exact absurd ⟨by simpa using hbefore, by simpa using hlong⟩ hloose
  | cons c more =>
      have hc : isStray c := hmore c rfl
      obtain ⟨fewer, rfl⟩ : ∃ fewer, levels = fewer + 1 + before.length :=
        ⟨levels - before.length - 1, by omega⟩
      obtain ⟨stop, after, herror⟩ := hstray hat.reads hc
      refine ⟨stop, after, h.error_gap hbefore hat herror, fun hfilling => ?_⟩
      exact absurd (hfilling c (by simp)) (isStray_iff.mp hc).1

/-! ## Single operands -/

theorem skips_digit : Skips digit where
  zero _ := rfl
  error hat hc herror := by
    rw [digit, bind_of_ok hat.take_cons, if_neg, if_pos hc, bind_of_error herror]
    rw [among_singleton]
    exact not_digit_of_isFiller hc
  ok hat hc hok hafter := by
    rw [digit, bind_of_ok hat.take_cons, if_neg, if_pos hc, bind_of_ok hok,
      bind_of_ok hafter.look_cons]
    · rfl
    rw [among_singleton]
    exact not_digit_of_isFiller hc

theorem digit_found (hat : progress.At (c :: rest)) (hc : c ∈ digits) :
    digit (levels + 1) progress = .ok [c] (progress.advance 1 [c]) := by
  rw [digit, bind_of_ok hat.take_cons, if_pos ((among_singleton digits c).mpr hc)]
  rfl

theorem digit_stray (hat : progress.At (c :: rest)) (hc : isStray c) :
    ∃ stop after, digit (levels + 1) progress = .error stop after := by
  obtain ⟨hfiller, hdigit, -, -⟩ := isStray_iff.mp hc
  rw [digit, bind_of_ok hat.take_cons, if_neg (mt (among_singleton digits c).mp hdigit),
    if_neg hfiller]
  exact ⟨_, _, rfl⟩

theorem digit_last (hgap : Filling gap) (hne : gap ≠ []) (hc : c ∈ digits)
    (hat : progress.At (gap ++ [c])) : ∃ stop after, digit levels progress = .error stop after := by
  induction gap generalizing progress levels with
  | nil => exact absurd rfl hne
  | cons d gap ih =>
      cases levels with
      | zero => exact ⟨_, _, rfl⟩
      | succ levels =>
          have hd : isFiller [d] := hgap d List.mem_cons_self
          have hrest := hat.advance_cons
          by_cases hmore : gap = []
          · subst hmore
            cases levels with
            | zero => exact ⟨_, _, skips_digit.error hat hd (skips_digit.zero _)⟩
            | succ levels =>
                have hdigit : ¬ among digits [d] :=
                  mt (among_singleton digits d).mp (not_digit_of_isFiller hd)
                rw [digit, bind_of_ok hat.take_cons, if_neg hdigit, if_pos hd,
                  bind_of_ok (digit_found hrest hc), bind_of_error hrest.advance_cons.look_nil]
                exact ⟨_, _, rfl⟩
          · have hfilling : Filling gap := fun e he => hgap e (List.mem_cons_of_mem d he)
            obtain ⟨stop, after, herror⟩ := ih hfilling hmore hrest
            exact ⟨stop, after, skips_digit.error hat hd herror⟩

theorem skips_sign : Skips sign where
  zero _ := rfl
  error hat hc herror := by
    rw [sign, bind_of_ok hat.take_cons, if_neg, if_pos hc, herror]
    rw [among_singleton]
    exact fun hsign => not_isFiller_of_sign hsign hc
  ok hat hc hok _ := by
    rw [sign, bind_of_ok hat.take_cons, if_neg, if_pos hc, hok]
    rw [among_singleton]
    exact fun hsign => not_isFiller_of_sign hsign hc

theorem sign_found (hat : progress.At (c :: rest)) (hc : c ∈ signs) :
    sign (levels + 1) progress = .ok [c] (progress.advance 1 [c]) := by
  rw [sign, bind_of_ok hat.take_cons, if_pos ((among_singleton signs c).mpr hc)]
  rfl

theorem sign_stray (hat : progress.At (c :: rest)) (hc : isStray c) :
    ∃ stop after, sign (levels + 1) progress = .error stop after := by
  obtain ⟨hfiller, -, hsign, -⟩ := isStray_iff.mp hc
  rw [sign, bind_of_ok hat.take_cons, if_neg (mt (among_singleton signs c).mp hsign),
    if_neg hfiller]
  exact ⟨_, _, rfl⟩

theorem Skips.ok_loose {reader : Nat → Linting (List Char)} (h : Skips reader)
    (hfound : ∀ {levels : Nat} {progress : Progress}, progress.At (c :: d :: rest) →
      reader (levels + 1) progress = .ok [c] (progress.advance 1 [c]))
    (hgap : Loose levels gap) (hat : progress.At (gap ++ c :: d :: rest)) :
    reader levels progress = .ok [c] (progress.reads (gap ++ [c])) := by
  obtain ⟨hfilling, hshort⟩ := hgap
  obtain ⟨fewer, rfl⟩ : ∃ fewer, levels = fewer + 1 + gap.length :=
    ⟨levels - gap.length - 1, by omega⟩
  rw [Progress.reads_append]
  exact h.ok_gap hfilling hat (hfound hat.reads) hat.reads.advance_cons

end

/-! ## Operands in a row -/

def spell (pieces : List (List Char × Token)) : List Char :=
  pieces.flatMap fun piece => piece.1 ++ piece.2

@[simp] theorem spell_nil : spell [] = [] := rfl

@[simp] theorem spell_cons (piece : List Char × Token) (pieces : List (List Char × Token)) :
    spell (piece :: pieces) = piece.1 ++ (piece.2 ++ spell pieces) := by
  simp [spell]

theorem spell_append (pieces more : List (List Char × Token)) :
    spell (pieces ++ more) = spell pieces ++ spell more :=
  List.flatMap_append

inductive Fills : List (List Char) → List (List Char × Token) → Prop
  | nil : Fills [] []
  | cons {slot : List Char} {slots : List (List Char)} {pieces : List (List Char × Token)}
      (gap : List Char) {c : Char} (hc : c ∈ slot) (h : Fills slots pieces) :
      Fills (slot :: slots) ((gap, [c]) :: pieces)

theorem Fills.append {slots more : List (List Char)} {pieces others : List (List Char × Token)}
    (h : Fills slots pieces) (h' : Fills more others) :
    Fills (slots ++ more) (pieces ++ others) := by
  induction h with
  | nil => exact h'
  | cons gap hc _ ih => exact .cons gap hc ih

theorem Fills.append_cases {slots more : List (List Char)} {pieces : List (List Char × Token)}
    (h : Fills (slots ++ more) pieces) :
    ∃ first second, pieces = first ++ second ∧ Fills slots first ∧ Fills more second := by
  induction slots generalizing pieces with
  | nil => exact ⟨[], pieces, rfl, .nil, h⟩
  | cons slot slots ih =>
      cases h with
      | cons gap hc h =>
          obtain ⟨first, second, rfl, hfirst, hsecond⟩ := ih h
          exact ⟨_ :: first, second, rfl, .cons gap hc hfirst, hsecond⟩

/-- The action reads operands for these slots out of a text that goes on behind them; with
`alone`, not with a digit. -/
structure ReadsSlots {α : Type} (levels : Nat) (alone : Bool) (slots : List (List Char))
    (Post : α → Prop) (action : Linting α) : Prop where
  ok : ∀ {progress : Progress} {pieces : List (List Char × Token)} {c : Char} {rest : List Char},
    Fills slots pieces → progress.At (spell pieces ++ c :: rest) → (alone → c ∉ digits) →
    (∀ piece ∈ pieces, Loose levels piece.1) →
    ∃ value, Post value ∧ action progress = .ok value (progress.reads (spell pieces))
  error : ∀ {progress : Progress} {pieces : List (List Char × Token)} {c : Char}
      {rest : List Char},
    Fills slots pieces → (∀ piece ∈ pieces, Fair piece.1) →
    progress.At (spell pieces ++ c :: rest) → (alone → c ∉ digits) →
    ¬ (∀ piece ∈ pieces, Loose levels piece.1) →
    ∃ stop after, action progress = .error stop after ∧
      ((∀ piece ∈ pieces, Filling piece.1) → stop = .tooDeep)

structure ReadsWithin {α : Type} (levels : Nat) (alone : Bool) (slots : List (List Char))
    (Post : α → Prop) (action : Linting α) : Prop
    extends ReadsSlots levels alone slots Post action where
  ended : ∀ {progress : Progress} {pieces : List (List Char × Token)},
    Fills slots pieces → (∀ piece ∈ pieces, Fair piece.1) → progress.At (spell pieces) →
    ∃ stop after, action progress = .error stop after

section

variable {levels : Nat} {progress : Progress} {pieces : List (List Char × Token)}
variable {c : Char} {rest : List Char}

theorem exists_cons (pieces : List (List Char × Token)) (c : Char) (rest : List Char) :
    ∃ d left, spell pieces ++ c :: rest = d :: left := by
  cases htext : spell pieces ++ c :: rest with
  | nil => simp at htext
  | cons d left => exact ⟨d, left, rfl⟩

theorem Progress.At.operand {gap : List Char} {d : Char}
    (hat : progress.At (spell ((gap, [d]) :: pieces) ++ rest)) :
    progress.At (gap ++ d :: (spell pieces ++ rest)) ∧
      (progress.reads (gap ++ [d])).At (spell pieces ++ rest) := by
  have hsplit : spell ((gap, [d]) :: pieces) ++ rest = gap ++ [d] ++ (spell pieces ++ rest) := by
    simp
  rw [hsplit] at hat
  refine ⟨?_, hat.reads⟩
  rwa [List.append_assoc] at hat

theorem digit_ok {gap : List Char} {d : Char} (hgap : Loose levels gap) (hd : d ∈ digits)
    (hat : progress.At (gap ++ d :: c :: rest)) :
    digit levels progress = .ok [d] (progress.reads (gap ++ [d])) :=
  skips_digit.ok_loose (fun h => digit_found h hd) hgap hat

theorem digit_cases {gap : List Char} {d : Char} (hgap : Fair gap) (hd : d ∈ digits)
    (hat : progress.At (gap ++ d :: rest)) :
    (∃ stop after, digit levels progress = .error stop after) ∨
      digit levels progress = .ok [d] (progress.reads (gap ++ [d])) := by
  by_cases hloose : Loose levels gap
  · cases rest with
    | cons c rest => exact .inr (digit_ok hloose hd hat)
    | nil =>
        by_cases hne : gap = []
        · subst hne
          obtain ⟨fewer, rfl⟩ := Nat.exists_eq_add_one_of_ne_zero (Nat.ne_of_gt hloose.2)
          exact .inr (digit_found hat hd)
        · exact .inl (digit_last hloose.1 hne hd hat)
  · obtain ⟨stop, after, herror, -⟩ := skips_digit.not_loose digit_stray hgap hloose hat
    exact .inl ⟨stop, after, herror⟩

theorem digitRun_ok {count : Nat} (hfills : Fills (List.replicate count digits) pieces)
    (hloose : ∀ piece ∈ pieces, Loose levels piece.1)
    (hat : progress.At (spell pieces ++ c :: rest)) (before : List Char) :
    ∃ found, found.length = before.length + count ∧
      digitRun levels count before progress = .ok found (progress.reads (spell pieces)) := by
  induction count generalizing progress pieces before with
  | zero =>
      cases hfills
      exact ⟨before, rfl, rfl⟩
  | succ count ih =>
      cases hfills with
      | @cons _ _ pieces gap d hd hfills =>
          rw [List.forall_mem_cons] at hloose
          obtain ⟨hgap, hread⟩ := hat.operand
          obtain ⟨found, hlength, hrun⟩ := ih hfills hloose.2 hread (before ++ [d])
          refine ⟨found, ?_, ?_⟩
          · rw [hlength, List.length_append, List.length_singleton]
            omega
          · obtain ⟨e, left, hnext⟩ := exists_cons pieces c rest
            rw [hnext] at hgap
            rw [digitRun, bind_of_ok (digit_ok hloose.1 hd hgap), hrun, ← Progress.reads_append]
            simp

theorem digitRun_error {count : Nat} (hfills : Fills (List.replicate count digits) pieces)
    (hfair : ∀ piece ∈ pieces, Fair piece.1)
    (hloose : ¬ ∀ piece ∈ pieces, Loose levels piece.1)
    (hat : progress.At (spell pieces ++ c :: rest)) (before : List Char) :
    ∃ stop after, digitRun levels count before progress = .error stop after ∧
      ((∀ piece ∈ pieces, Filling piece.1) → stop = .tooDeep) := by
  induction count generalizing progress pieces before with
  | zero =>
      cases hfills
      simp at hloose
  | succ count ih =>
      cases hfills with
      | @cons _ _ pieces gap d hd hfills =>
          simp only [List.forall_mem_cons] at hfair hloose ⊢
          obtain ⟨hgap, hread⟩ := hat.operand
          by_cases hfirst : Loose levels gap
          · have hothers : ¬ ∀ piece ∈ pieces, Loose levels piece.1 :=
              fun hothers => hloose ⟨hfirst, hothers⟩
            obtain ⟨e, left, hnext⟩ := exists_cons pieces c rest
            rw [hnext] at hgap
            obtain ⟨stop, after, herror, hstop⟩ := ih hfills hfair.2 hothers hread (before ++ [d])
            refine ⟨stop, after, ?_, fun hfilling => hstop hfilling.2⟩
            rw [digitRun, bind_of_ok (digit_ok hfirst hd hgap), herror]
          · obtain ⟨stop, after, herror, hstop⟩ :=
              skips_digit.not_loose digit_stray hfair.1 hfirst hgap
            refine ⟨stop, after, ?_, fun hfilling => hstop hfilling.1⟩
            rw [digitRun, bind_of_error herror]

theorem digitRun_ended {count : Nat} (hfills : Fills (List.replicate count digits) pieces)
    (hfair : ∀ piece ∈ pieces, Fair piece.1) (hat : progress.At (spell pieces))
    (before : List Char) :
    (∃ stop after, digitRun levels count before progress = .error stop after) ∨
      ∃ found after, digitRun levels count before progress = .ok found after ∧ after.At [] := by
  induction count generalizing progress pieces before with
  | zero =>
      cases hfills
      exact .inr ⟨before, progress, rfl, hat⟩
  | succ count ih =>
      cases hfills with
      | @cons _ _ pieces gap d hd hfills =>
          rw [List.forall_mem_cons] at hfair
          rw [← List.append_nil (spell _)] at hat
          obtain ⟨hgap, hread⟩ := hat.operand
          rw [List.append_nil] at hgap hread
          rcases digit_cases hfair.1 hd hgap with ⟨stop, after, herror⟩ | hok
          · left
            exact ⟨stop, after, bind_of_error herror⟩
          · rw [digitRun, bind_of_ok hok]
            exact ih hfills hfair.2 hread _

end

section

variable {α β : Type} {levels : Nat} {alone final : Bool} {slots more : List (List Char)}
variable {Post : α → Prop} {After : β → Prop} {first : Linting α} {next : α → Linting β}

theorem readsSlots_number (levels count : Nat) (alone : Bool) :
    ReadsWithin levels alone (List.replicate count digits) (fun found => found.length = count)
      (number levels count alone) where
  ok hfills hat hc hloose := by
    obtain ⟨found, hlength, hrun⟩ := digitRun_ok hfills hloose hat []
    refine ⟨found, by simpa using hlength, ?_⟩
    unfold number
    rw [Int.toNat_natCast, bind_of_ok hrun, bind_of_ok hat.reads.look_cons, if_neg]
    · rfl
    · rw [Bool.and_eq_true, among_singleton]
      exact fun ⟨hdigit, halone⟩ => hc halone hdigit
  error hfills hfair hat _ hloose := by
    obtain ⟨stop, after, herror, hstop⟩ := digitRun_error hfills hfair hloose hat []
    exact ⟨stop, after, bind_of_error herror, hstop⟩
  ended hfills hfair hat := by
    unfold number
    rw [Int.toNat_natCast]
    rcases digitRun_ended hfills hfair hat [] with ⟨stop, after, herror⟩ | ⟨found, after, hok, hend⟩
    · exact ⟨stop, after, bind_of_error herror⟩
    · rw [bind_of_ok hok, bind_of_error hend.look_nil]
      exact ⟨_, _, rfl⟩

theorem readsSlots_sign (levels : Nat) :
    ReadsSlots levels false [signs] (fun _ => True) (sign levels) where
  ok hfills hat _ hloose := by
    cases hfills with
    | cons gap hd hfills =>
        cases hfills
        rw [List.forall_mem_singleton] at hloose
        obtain ⟨hgap, -⟩ := hat.operand
        have hok := skips_sign.ok_loose (fun h => sign_found h hd) hloose hgap
        exact ⟨_, trivial, by simpa using hok⟩
  error hfills hfair hat _ hloose := by
    cases hfills with
    | cons gap hd hfills =>
        cases hfills
        rw [List.forall_mem_singleton] at hloose hfair ⊢
        exact skips_sign.not_loose sign_stray hfair hloose hat.operand.1

theorem ReadsWithin.map (h : ReadsWithin levels alone slots Post first)
    (hnext : ∀ value, Post value → ∃ result, After result ∧
      ∀ progress, next value progress = .ok result progress) :
    ReadsWithin levels alone slots After (first >>= next) where
  ok hfills hat hc hloose := by
    obtain ⟨value, hpost, hok⟩ := h.ok hfills hat hc hloose
    obtain ⟨result, hafter, hresult⟩ := hnext value hpost
    refine ⟨result, hafter, ?_⟩
    rw [bind_of_ok hok, hresult]
  error hfills hfair hat hc hloose := by
    obtain ⟨stop, after, herror, hstop⟩ := h.error hfills hfair hat hc hloose
    exact ⟨stop, after, bind_of_error herror, hstop⟩
  ended hfills hfair hat := by
    obtain ⟨stop, after, herror⟩ := h.ended hfills hfair hat
    exact ⟨stop, after, bind_of_error herror⟩

theorem Fills.head {slot : List Char} {slots : List (List Char)}
    {pieces : List (List Char × Token)} (h : Fills (slot :: slots) pieces)
    (hfair : ∀ piece ∈ pieces, Fair piece.1) (hslot : alone → ∀ d ∈ slot, d ∉ digits)
    (text : List Char) :
    ∃ d left, spell pieces ++ text = d :: left ∧ (alone → d ∉ digits) := by
  cases h with
  | @cons _ _ pieces gap c hc h =>
      cases gap with
      | nil => exact ⟨c, spell pieces ++ text, by simp, fun halone => hslot halone c hc⟩
      | cons d gap =>
          have hgap : Fair (d :: gap) := hfair _ List.mem_cons_self
          exact ⟨d, gap ++ (c :: spell pieces ++ text), by simp, fun _ => hgap.head_not_digit⟩

theorem ReadsSlots.bind {slot : List Char} (h : ReadsSlots levels alone slots Post first)
    (hnext : ∀ value, Post value → ReadsWithin levels final (slot :: more) After (next value))
    (hslot : alone → ∀ d ∈ slot, d ∉ digits) :
    ReadsWithin levels final (slots ++ slot :: more) After (first >>= next) where
  ok hfills hat hc hloose := by
    obtain ⟨pieces, others, rfl, hfirst, hsecond⟩ := hfills.append_cases
    rw [List.forall_mem_append] at hloose
    rw [spell_append, List.append_assoc] at hat
    obtain ⟨d, left, hleft, hd⟩ :=
      hsecond.head (fun piece hpiece => (hloose.2 piece hpiece).1.fair) hslot _
    have hread := hat.reads
    rw [hleft] at hat
    obtain ⟨value, hpost, hok⟩ := h.ok hfirst hat hd hloose.1
    obtain ⟨result, hafter, hresult⟩ := (hnext value hpost).ok hsecond hread hc hloose.2
    refine ⟨result, hafter, ?_⟩
    rw [bind_of_ok hok, hresult, spell_append, Progress.reads_append]
  error hfills hfair hat hc hloose := by
    obtain ⟨pieces, others, rfl, hfirst, hsecond⟩ := hfills.append_cases
    rw [List.forall_mem_append] at hfair hloose
    rw [spell_append, List.append_assoc] at hat
    obtain ⟨d, left, hleft, hd⟩ := hsecond.head hfair.2 hslot _
    have hread := hat.reads
    rw [hleft] at hat
    by_cases hbefore : ∀ piece ∈ pieces, Loose levels piece.1
    · obtain ⟨value, hpost, hok⟩ := h.ok hfirst hat hd hbefore
      have hothers : ¬ ∀ piece ∈ others, Loose levels piece.1 :=
        fun hothers => hloose ⟨hbefore, hothers⟩
      obtain ⟨stop, after, herror, hstop⟩ :=
        (hnext value hpost).error hsecond hfair.2 hread hc hothers
      refine ⟨stop, after, (bind_of_ok hok).trans herror, fun hfilling => hstop ?_⟩
      exact (List.forall_mem_append.mp hfilling).2
    · obtain ⟨stop, after, herror, hstop⟩ := h.error hfirst hfair.1 hat hd hbefore
      refine ⟨stop, after, bind_of_error herror, fun hfilling => hstop ?_⟩
      exact (List.forall_mem_append.mp hfilling).1
  ended hfills hfair hat := by
    obtain ⟨pieces, others, rfl, hfirst, hsecond⟩ := hfills.append_cases
    rw [List.forall_mem_append] at hfair
    rw [spell_append] at hat
    obtain ⟨d, left, hleft, hd⟩ := hsecond.head hfair.2 hslot []
    rw [List.append_nil] at hleft
    have hread := hat.reads
    rw [hleft] at hat
    by_cases hbefore : ∀ piece ∈ pieces, Loose levels piece.1
    · obtain ⟨value, hpost, hok⟩ := h.ok hfirst hat hd hbefore
      obtain ⟨stop, after, herror⟩ := (hnext value hpost).ended hsecond hfair.2 hread
      exact ⟨stop, after, (bind_of_ok hok).trans herror⟩
    · obtain ⟨stop, after, herror, -⟩ := h.error hfirst hfair.1 hat hd hbefore
      exact ⟨stop, after, bind_of_error herror⟩

end

def Shape.slots : Shape → List (List Char)
  | .bare => []
  | .single => [digits]
  | .pair => [digits, digits]
  | .valued count => digits :: List.replicate count digits
  | .compared => [digits, signs, digits]

theorem readsSlots_shape (levels : Nat) {shape : Shape} (hbare : shape ≠ .bare)
    (hvalued : shape ≠ .valued 0) :
    ReadsWithin levels true shape.slots (fun _ => True) (shape.read levels) := by
  cases shape with
  | bare => exact absurd rfl hbare
  | single => exact (readsSlots_number levels 1 true).map fun _ _ => ⟨_, trivial, fun _ => rfl⟩
  | pair =>
      refine (readsSlots_number levels 2 true).map fun found hfound => ?_
      match found, hfound with
      | [first, second], _ => exact ⟨_, trivial, fun _ => rfl⟩
  | valued count =>
      obtain ⟨count, rfl⟩ : ∃ fewer, count = fewer + 1 := by
        cases count with
        | zero => exact absurd rfl hvalued
        | succ fewer => exact ⟨fewer, rfl⟩
      refine (readsSlots_number levels 1 false).toReadsSlots.bind (fun _ _ => ?_) (by simp)
      exact (readsSlots_number levels (count + 1) true).map fun _ _ => ⟨_, trivial, fun _ => rfl⟩
  | compared =>
      refine (readsSlots_number levels 1 true).toReadsSlots.bind (fun _ _ => ?_)
        fun _ d hd => not_digit_of_sign hd
      refine (readsSlots_sign levels).bind (fun _ _ => ?_) (by simp)
      exact (readsSlots_number levels 1 true).map fun _ _ => ⟨_, trivial, fun _ => rfl⟩

end BitAssembly.Lint
