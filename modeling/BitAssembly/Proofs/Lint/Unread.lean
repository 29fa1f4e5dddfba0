import BitAssembly.Lint.Check
import BitAssembly.Proofs.Result

/-!
# The unread text of a check

A check may put a character back in front of its text, so that the text grows
while it is read.  What counts is the text that is still unread: no action of a
check depends on more of the text than that, and none leaves anything unread but
an end of it.  So every pass makes it shorter, and the check needs no bound on
the number of its passes.
-/

namespace BitAssembly.Lint

open BitAssembly.Bits

/-- The position lies in the text, and this is what follows it. -/
def Progress.At (progress : Progress) (text : List Char) : Prop :=
  ∃ before : List Char,
    progress.cursor.text.toList = before ++ text ∧ progress.cursor.pos = before.length

theorem Progress.at_start (source : List Char) : (Progress.start source).At source :=
  ⟨[], rfl, rfl⟩

section

variable {progress : Progress} {text rest : List Char} {c : Char}

theorem Progress.At.size (h : progress.At text) :
    (progress.cursor.text.size : Int) = progress.cursor.pos + text.length := by
  obtain ⟨before, htext, hpos⟩ := h
  rw [hpos, ← Array.length_toList, htext, List.length_append, Int.natCast_add]

theorem Progress.At.unread (h : progress.At text) : progress.unread = text.length := by
  have hsize := h.size
  unfold Progress.unread
  omega

theorem Progress.At.atEnd_iff (h : progress.At text) : progress.cursor.atEnd ↔ text = [] := by
  have hsize := h.size
  simp only [Cursor.atEnd, decide_eq_true_eq, ← List.length_eq_zero_iff]
  omega

theorem Progress.At.of_cursor {other : Progress} (h : progress.At text)
    (hcursor : other.cursor = progress.cursor) : other.At text := by
  obtain ⟨before, htext, hpos⟩ := h
  exact ⟨before, hcursor ▸ htext, hcursor ▸ hpos⟩

theorem Progress.At.peek? (h : progress.At text) (count : Nat) :
    progress.cursor.peek? count =
      if count ≤ text.length then some (text.take count) else none := by
  obtain ⟨before, htext, hpos⟩ := h
  have hrest : progress.cursor.rest = text := by
    rw [Cursor.rest, htext, hpos, Int.toNat_natCast, List.drop_left]
  have hsize : progress.cursor.text.size = before.length + text.length := by
    rw [← Array.length_toList, htext, List.length_append]
  rw [Cursor.peek?_eq progress.cursor before.length count hpos, hrest, hsize]
  simp only [Nat.add_le_add_iff_left]

theorem Progress.At.look (h : progress.At text) (count : Nat) :
    look count progress =
      if count ≤ text.length then .ok (text.take count) progress
      else .error (.fault .endOfText) progress := by
  have hpeek := h.peek? count
  rw [Lint.look, bind_get]
  by_cases hfits : count ≤ text.length
  · rw [hpeek, if_pos hfits, if_pos hfits]
    rfl
  · rw [hpeek, if_neg hfits, if_neg hfits]
    rfl

theorem Progress.At.look_cons (h : progress.At (c :: rest)) :
    Lint.look 1 progress = .ok [c] progress :=
  (h.look 1).trans (if_pos (by simp))

theorem Progress.At.look_nil (h : progress.At []) :
    Lint.look 1 progress = .error (.fault .endOfText) progress :=
  (h.look 1).trans (if_neg (by simp))

theorem Progress.At.take (h : progress.At text) (count : Nat) :
    take count progress =
      if count ≤ text.length then .ok (text.take count) (progress.advance count (text.take count))
      else .error (.fault .endOfText) progress := by
  have hlook := h.look count
  by_cases hfits : count ≤ text.length
  · rw [if_pos hfits] at hlook ⊢
    exact bind_of_ok hlook
  · rw [if_neg hfits] at hlook ⊢
    exact bind_of_error hlook

theorem Progress.At.take_cons (h : progress.At (c :: rest)) :
    Lint.take 1 progress = .ok [c] (progress.advance 1 [c]) :=
  (h.take 1).trans (if_pos (by simp))

theorem Progress.At.take_nil (h : progress.At []) :
    Lint.take 1 progress = .error (.fault .endOfText) progress :=
  (h.take 1).trans (if_neg (by simp))

theorem Progress.At.take_two {d : Char} (h : progress.At (c :: d :: rest)) :
    Lint.take 2 progress = .ok [c, d] (progress.advance 2 [c, d]) :=
  (h.take 2).trans (if_pos (by simp))

theorem Progress.At.advance {chars : List Char} (h : progress.At (chars ++ rest)) :
    (progress.advance chars.length chars).At rest := by
  obtain ⟨before, htext, hpos⟩ := h
  refine ⟨before ++ chars, ?_, ?_⟩
  · rw [List.append_assoc]
    exact htext
  · change progress.cursor.pos + chars.length = _
    rw [hpos, List.length_append, Int.natCast_add]

theorem Progress.At.advance_cons (h : progress.At (c :: rest)) :
    (progress.advance 1 [c]).At rest := by
  rw [← List.singleton_append] at h
  exact h.advance

def Progress.again (progress : Progress) (c : Char) : Progress :=
  { progress with
    cursor := { progress.cursor with text := #[c] ++ progress.cursor.text } }

theorem Progress.At.again (h : progress.At (c :: rest)) :
    ((progress.advance 1 [c]).again c).At (c :: rest) := by
  obtain ⟨before, htext, hpos⟩ := h
  refine ⟨c :: before, ?_, ?_⟩
  · change (#[c] ++ progress.cursor.text).toList = _
    rw [Array.toList_append, htext]
    rfl
  · change progress.cursor.pos + 1 = _
    rw [hpos, List.length_cons, Int.natCast_add, Int.natCast_one]

end

/-- A look changes nothing, and fails only at the end of the text. -/
theorem triple_look {Inv : Progress → Prop} {Fail : Stop → Progress → Prop}
    (h : ∀ progress, Inv progress → Fail (.fault .endOfText) progress) (count : Int) :
    Triple Inv (fun _ => Inv) Fail (look count) := by
  refine .get fun progress => ?_
  cases progress.cursor.peek? count with
  | some chars => exact .pure chars
  | none => exact .throw h

/-! ## Actions that depend on the unread text only -/

def Beside (text : List Char) (progress other : Progress) : Prop :=
  ∃ left, left <:+ text ∧ progress.At left ∧ other.At left

/-- Both fail, maybe at other lines and columns, and no loop used up its allowance. -/
def BothStop (text : List Char) (stop _reason : Stop) (after other : Progress) : Prop :=
  Beside text after other ∧ stop ≠ .unfinished

def Parallel {α : Type} (text : List Char) :
    EStateM.Result Stop Progress α → EStateM.Result Stop Progress α → Prop :=
  Related (fun _ => Beside text) (BothStop text) (fun _ => False)

def Local {α : Type} (text : List Char) (action : Linting α) : Prop :=
  Alike (Beside text) (fun _ => Beside text) (BothStop text) (fun _ => False) action action

section

variable {progress other : Progress} {text left : List Char}

theorem Progress.At.beside (h : progress.At text) (hother : other.At text) :
    Beside text progress other :=
  ⟨text, text.suffix_refl, h, hother⟩

theorem Beside.widen (h : Beside left progress other) (hleft : left <:+ text) :
    Beside text progress other := by
  obtain ⟨rest, hrest, hprogress, hother⟩ := h
  exact ⟨rest, hrest.trans hleft, hprogress, hother⟩

variable {α : Type}

theorem Parallel.widen {first second : EStateM.Result Stop Progress α}
    (h : Parallel left first second) (hleft : left <:+ text) : Parallel text first second :=
  Related.mono h (fun _ _ _ hafter => hafter.widen hleft)
    (fun _ _ _ _ hfailed => ⟨hfailed.1.widen hleft, hfailed.2⟩) fun _ => id

/-- What an action leaves unread is an end of what was unread before, also when it fails. -/
theorem Local.concludes {action : Linting α} (h : Local text action) (hat : progress.At text) :
    Concludes (fun _ after => ∃ left, left <:+ text ∧ after.At left)
      (fun stop after => stop ≠ .unfinished ∧ ∃ left, left <:+ text ∧ after.At left)
      (action progress) := by
  refine (h progress progress (hat.beside hat)).concludes ?_ ?_
  · rintro _ after _ ⟨left, hleft, hafter, -⟩
    exact ⟨left, hleft, hafter⟩
  · rintro stop _ after _ ⟨⟨left, hleft, hafter, -⟩, hstop⟩
    exact ⟨hstop, left, hleft, hafter⟩

theorem local_of_stops {action : Linting α}
    (h : ∀ progress, ∃ stop, stop ≠ .unfinished ∧ action progress = .error stop progress) :
    Local text action := by
  intro progress other hbeside
  obtain ⟨stop, hstop, hprogress⟩ := h progress
  obtain ⟨reason, -, hother⟩ := h other
  rw [hprogress, hother]
  exact .error ⟨hbeside, hstop⟩

theorem local_fail (fault : Fault) : Local text (fail fault : Linting α) :=
  local_of_stops fun _ => ⟨.fault fault, by simp, rfl⟩

theorem local_of_still {action : Linting Unit}
    (h : ∀ progress, ∃ after, action progress = .ok () after ∧ after.cursor = progress.cursor) :
    Local text action := by
  rintro progress other ⟨left, hleft, hprogress, hother⟩
  obtain ⟨after, hfirst, hafter⟩ := h progress
  obtain ⟨later, hsecond, hlater⟩ := h other
  rw [hfirst, hsecond]
  exact .ok ⟨left, hleft, hprogress.of_cursor hafter, hother.of_cursor hlater⟩

theorem local_look (count : Nat) : Local text (look count) := by
  rintro progress other ⟨left, hleft, hprogress, hother⟩
  rw [hprogress.look, hother.look]
  by_cases hfits : count ≤ left.length
  · rw [if_pos hfits, if_pos hfits]
    exact .ok ⟨left, hleft, hprogress, hother⟩
  · rw [if_neg hfits, if_neg hfits]
    exact .error ⟨⟨left, hleft, hprogress, hother⟩, by simp⟩

theorem local_take (count : Nat) : Local text (take count) := by
  rintro progress other ⟨left, hleft, hprogress, hother⟩
  rw [hprogress.take, hother.take]
  by_cases hfits : count ≤ left.length
  · have hlength : (left.take count).length = count := List.length_take_of_le hfits
    have hadvance : ∀ {progress : Progress}, progress.At left →
        (progress.advance count (left.take count)).At (left.drop count) := by
      intro progress h
      rw [← List.take_append_drop count left] at h
      have hafter := h.advance
      rwa [hlength] at hafter
    rw [if_pos hfits, if_pos hfits]
    exact .ok ⟨_, (left.drop_suffix count).trans hleft, hadvance hprogress, hadvance hother⟩
  · rw [if_neg hfits, if_neg hfits]
    exact .error ⟨⟨left, hleft, hprogress, hother⟩, by simp⟩

theorem local_printLine (line : String) : Local text (printLine line) :=
  local_of_still fun _ => ⟨_, rfl, rfl⟩

theorem local_ofExcept (value : Except Fault α) : Local text (ofExcept value) := by
  cases value with
  | ok value => exact .pure value
  | error fault => exact local_fail fault

end

section

variable {text : List Char}

theorem local_digit (levels : Nat) : Local text (digit levels) := by
  induction levels with
  | zero => exact local_of_stops fun _ => ⟨.tooDeep, by simp, rfl⟩
  | succ levels ih =>
      refine (local_take 1).bind fun chars => .ite (.pure chars) (.ite ?_ ?_)
      · exact ih.bind fun found => (local_look 1).bind fun _ => .pure found
      · exact local_of_stops fun _ => ⟨_, by simp, rfl⟩

theorem local_digitRun (levels count : Nat) (before : List Char) :
    Local text (digitRun levels count before) := by
  induction count generalizing before with
  | zero => exact .pure before
  | succ count ih => exact (local_digit levels).bind fun found => ih _

theorem local_number (levels : Nat) (count : Int) (alone : Bool) :
    Local text (number levels count alone) := by
  refine (local_digitRun levels count.toNat []).bind fun found => ?_
  refine (local_look 1).bind fun next => .ite ?_ (.pure found)
  exact local_of_stops fun _ => ⟨_, by simp, rfl⟩

theorem local_sign (levels : Nat) : Local text (sign levels) := by
  induction levels with
  | zero => exact local_of_stops fun _ => ⟨.tooDeep, by simp, rfl⟩
  | succ levels ih =>
      refine (local_take 1).bind fun chars => .ite (.pure chars) (.ite ih ?_)
      exact local_of_stops fun _ => ⟨_, by simp, rfl⟩

theorem solid_filler {keep : Bool} {levels : Nat} {progress : Progress} {c : Char}
    {rest : List Char} (h : progress.At (c :: rest)) (hc : isFiller [c]) :
    solid keep (levels + 1) progress = solid keep levels (progress.advance 1 [c]) := by
  rw [solid]
  refine (bind_of_ok h.take_cons).trans ?_
  rw [if_pos hc]

theorem solid_found {levels : Nat} {progress : Progress} {c : Char} {rest : List Char}
    (keep : Bool) (h : progress.At (c :: rest)) (hc : ¬ isFiller [c]) :
    solid keep (levels + 1) progress =
      .ok [c] (if keep then progress.advance 1 [c] else (progress.advance 1 [c]).again c) := by
  rw [solid]
  refine (bind_of_ok h.take_cons).trans ?_
  rw [if_neg hc]
  cases keep <;> rfl

theorem local_solid (keep : Bool) (levels : Nat) : Local text (solid keep levels) := by
  induction levels with
  | zero => exact local_of_stops fun _ => ⟨.tooDeep, by simp, rfl⟩
  | succ levels ih =>
      rintro progress other ⟨left, hleft, hprogress, hother⟩
      cases left with
      | nil =>
          rw [solid, bind_of_error hprogress.take_nil, bind_of_error hother.take_nil]
          exact .error ⟨⟨[], hleft, hprogress, hother⟩, by simp⟩
      | cons c rest =>
          have hrest : rest <:+ text := (List.suffix_cons c rest).trans hleft
          have hread : Beside text (progress.advance 1 [c]) (other.advance 1 [c]) :=
            ⟨rest, hrest, hprogress.advance_cons, hother.advance_cons⟩
          by_cases hc : isFiller [c]
          · rw [solid_filler hprogress hc, solid_filler hother hc]
            exact ih _ _ hread
          · rw [solid_found keep hprogress hc, solid_found keep hother hc]
            cases keep with
            | true => exact .ok hread
            | false => exact .ok ⟨c :: rest, hleft, hprogress.again, hother.again⟩

theorem local_solidRun (levels : Nat) (keep : Bool) (count : Nat) (before : List Char) :
    Local text (solidRun levels keep count before) := by
  induction count generalizing before with
  | zero => exact .pure _
  | succ count ih => exact (local_solid keep levels).bind fun found => ih _

theorem local_shape (levels : Nat) (shape : Shape) : Local text (shape.read levels) := by
  cases shape with
  | bare => exact .pure _
  | single => exact (local_number levels 1 true).bind fun _ => .pure _
  | pair =>
      refine (local_number levels 2 true).bind fun found => ?_
      split
      · exact .pure _
      · exact local_fail _
  | valued count =>
      exact (local_number levels 1 false).bind fun _ =>
        (local_number levels count true).bind fun _ => .pure _
  | compared =>
      exact (local_number levels 1 true).bind fun _ => (local_sign levels).bind fun _ =>
        (local_number levels 1 true).bind fun _ => .pure _

theorem local_rule (rule : Rule) (levels : Nat) (narrated : Bool) :
    Local text (rule.check levels narrated) := by
  have hread : Local text (rule.shape.read levels >>= fun operands =>
      if narrated then ofExcept (rule.narrate operands) >>= printLine else pure ()) := by
    refine (local_shape levels rule.shape).bind fun operands => .ite ?_ (.pure ())
    exact (local_ofExcept _).bind local_printLine
  unfold Rule.check
  cases rule.opens with
  | none => exact hread
  | some name =>
      have hopen : Local text (openBlock name) := local_of_still fun _ => ⟨_, rfl, rfl⟩
      exact hopen.bind fun _ => hread

/-- The allowance of the loop suffices, for each turn reads a character. -/
theorem local_takeThrough (mark : List Char) {fuel : Nat} (hfuel : text.length < fuel)
    (before : List Char) : Local text (takeThrough mark fuel before) := by
  induction fuel generalizing text before with
  | zero => omega
  | succ fuel ih =>
      rintro progress other ⟨left, hleft, hprogress, hother⟩
      rw [takeThrough]
      cases left with
      | nil =>
          rw [bind_of_error hprogress.take_nil, bind_of_error hother.take_nil]
          exact .error ⟨⟨[], hleft, hprogress, hother⟩, by simp⟩
      | cons c rest =>
          have hrest : rest <:+ text := (List.suffix_cons c rest).trans hleft
          rw [bind_of_ok hprogress.take_cons, bind_of_ok hother.take_cons]
          split
          · exact .ok ⟨rest, hrest, hprogress.advance_cons, hother.advance_cons⟩
          · have hlength := hleft.length_le
            rw [List.length_cons] at hlength
            have hturn : Local rest (takeThrough mark fuel ([c].reverse ++ before)) :=
              ih (by omega) _
            exact Parallel.widen
              (hturn _ _ (hprogress.advance_cons.beside hother.advance_cons)) hrest

theorem local_checkImmediate (levels : Nat) (narrated : Bool) :
    Local text (checkImmediate levels narrated) := by
  refine (local_solidRun levels false 1 []).bind fun next => .ite ?_ ?_
  · rintro progress other ⟨left, hleft, hprogress, hother⟩
    rw [bind_get, bind_get, hprogress.unread, hother.unread]
    refine Parallel.widen ?_ hleft
    refine (local_takeThrough next (Nat.lt_succ_self _) []).bind (fun chars => ?_) _ _
      (hprogress.beside hother)
    exact .ite (local_printLine _) (.pure ())
  · refine (local_number levels 2 true).bind fun byte => .ite ?_ (.pure ())
    exact (local_ofExcept _).bind fun line => local_printLine _

theorem local_checkMnemonic (edition : Edition) (levels : Nat) (narrated : Bool)
    (mnemonic : List Char) : Local text (checkMnemonic edition levels narrated mnemonic) := by
  refine .ite (local_checkImmediate levels narrated) (.ite (local_printLine _) ?_)
  cases rule? edition mnemonic with
  | none => exact .pure ()
  | some rule => exact local_rule rule levels narrated

end

structure Progress.SamePlace (progress after : Progress) : Prop where
  cursor : after.cursor = progress.cursor
  line : after.line = progress.line
  column : after.column = progress.column

theorem Progress.SamePlace.refl (progress : Progress) : progress.SamePlace progress :=
  ⟨rfl, rfl, rfl⟩

theorem Progress.SamePlace.trans {progress middle after : Progress}
    (h : progress.SamePlace middle) (h' : middle.SamePlace after) : progress.SamePlace after :=
  ⟨h'.cursor.trans h.cursor, h'.line.trans h.line, h'.column.trans h.column⟩

theorem closeBlock_still (narrated : Bool) (progress : Progress) :
    ∃ after, closeBlock narrated progress = .ok () after ∧ progress.SamePlace after := by
  cases narrated with
  | false => exact ⟨_, rfl, rfl, rfl, rfl⟩
  | true =>
      have hwarn : ∀ (claim : Prop) [Decidable claim] (text : String) (later : Progress),
          progress.SamePlace later →
          ∃ after, (if claim then printLine text else pure ()) later = .ok () after ∧
            progress.SamePlace after := by
        intro claim _ text later hlater
        split
        · exact ⟨_, rfl, hlater.cursor, hlater.line, hlater.column⟩
        · exact ⟨_, rfl, hlater⟩
      rw [closeBlock, bind_modify, bind_get]
      cases progress.blocks with
      | nil => exact hwarn _ _ _ ⟨rfl, rfl, rfl⟩
      | cons name rest => exact hwarn _ _ _ ⟨rfl, rfl, rfl⟩

/-! ## One pass -/

section

variable {edition : Edition} {levels : Nat} {narrated : Bool} {progress : Progress}
variable {text rest : List Char} {a b c : Char}

def closeAt (narrated : Bool) (c : Char) : Linting Unit :=
  if c = ']' then closeBlock narrated else pure ()

theorem local_closeAt (narrated : Bool) (c : Char) : Local text (closeAt narrated c) := by
  refine .ite (local_of_still fun progress => ?_) (.pure ())
  obtain ⟨after, hclose, hsame⟩ := closeBlock_still narrated progress
  exact ⟨after, hclose, hsame.cursor⟩

theorem checkNext_filler (h : progress.At (c :: rest)) (hc : isFiller [c]) :
    checkNext edition levels narrated progress =
      (closeAt narrated c >>= fun _ => pure true) (progress.advance 1 [c]) := by
  unfold checkNext closeAt
  rw [bind_of_ok h.look_cons, if_pos hc, bind_of_ok h.take_cons]
  by_cases hclose : c = ']'
  · subst hclose
    rfl
  · rw [if_neg hclose]
    have hother : [c] ≠ [']'] := by simpa using hclose
    simp only [if_neg hother]
    rfl

theorem checkNext_short (h : progress.At (c :: rest)) (hc : ¬ isFiller [c])
    (hrest : rest.length < 2) :
    checkNext edition levels narrated progress = .ok false progress := by
  have hsize := h.size
  rw [List.length_cons] at hsize
  have hends : progress.cursor.pos + 3 > progress.cursor.text.size := by omega
  unfold checkNext
  rw [bind_of_ok h.look_cons, if_neg hc]
  exact (bind_of_ok rfl).trans (congrFun (if_pos hends) progress)

theorem checkNext_if (h : progress.At ('I' :: 'F' :: c :: rest)) :
    checkNext edition levels narrated progress =
      (checkMnemonic edition levels narrated "IF".toList >>= fun _ => pure true)
        (progress.advance 2 "IF".toList) := by
  have hsize := h.size
  simp only [List.length_cons] at hsize
  have hfits : ¬ progress.cursor.pos + 3 > progress.cursor.text.size := by omega
  unfold checkNext
  rw [bind_of_ok h.look_cons, if_neg (by decide)]
  refine (bind_of_ok rfl).trans ((congrFun (if_neg hfits) progress).trans ?_)
  exact bind_of_ok h.take_two

theorem checkNext_group (h : progress.At (a :: b :: c :: rest)) (ha : ¬ isFiller [a])
    (hname : [a, b] ≠ "IF".toList) :
    checkNext edition levels narrated progress =
      (checkMnemonic edition levels narrated [a, b, c] >>= fun _ => pure true)
        ((progress.advance 2 [a, b]).advance 1 [c]) := by
  have hsize := h.size
  simp only [List.length_cons] at hsize
  have hfits : ¬ progress.cursor.pos + 3 > progress.cursor.text.size := by omega
  have hthird : (progress.advance 2 [a, b]).At (c :: rest) :=
    Progress.At.advance (show progress.At ([a, b] ++ c :: rest) from h)
  unfold checkNext
  rw [bind_of_ok h.look_cons, if_neg ha]
  refine (bind_of_ok rfl).trans ((congrFun (if_neg hfits) progress).trans ?_)
  refine (bind_of_ok h.take_two).trans ?_
  rw [if_neg hname]
  exact bind_of_ok hthird.take_cons

theorem checkNext_cases (edition : Edition) (levels : Nat) (narrated : Bool) (c : Char)
    (rest : List Char) :
    (∃ (action : Linting Unit) (left : List Char), (∀ text, Local text action) ∧ left <:+ rest ∧
      ∀ progress : Progress, progress.At (c :: rest) → ∃ middle : Progress, middle.At left ∧
        checkNext edition levels narrated progress = (action >>= fun _ => pure true) middle) ∨
    ¬ isFiller [c] ∧ rest.length < 2 := by
  by_cases hc : isFiller [c]
  · refine .inl ⟨closeAt narrated c, rest, fun _ => local_closeAt narrated c, rest.suffix_refl, ?_⟩
    intro progress h
    exact ⟨_, h.advance_cons, checkNext_filler h hc⟩
  by_cases hrest : rest.length < 2
  · exact .inr ⟨hc, hrest⟩
  obtain ⟨b, d, left, rfl⟩ : ∃ b d left, rest = b :: d :: left := by
    match rest, hrest with
    | b :: d :: left, _ => exact ⟨b, d, left, rfl⟩
    | [_], hrest | [], hrest => simp at hrest
  left
  by_cases hname : [c, b] = "IF".toList
  · obtain ⟨rfl, rfl⟩ : c = 'I' ∧ b = 'F' := by simpa using hname
    refine ⟨_, d :: left, fun _ => local_checkMnemonic edition levels narrated "IF".toList,
      List.suffix_cons 'F' _, ?_⟩
    intro progress h
    exact ⟨_, Progress.At.advance (show progress.At (['I', 'F'] ++ d :: left) from h),
      checkNext_if h⟩
  · refine ⟨_, left, fun _ => local_checkMnemonic edition levels narrated [c, b, d],
      List.suffix_append [b, d] left, ?_⟩
    intro progress h
    have hthird := Progress.At.advance (show progress.At ([c, b] ++ d :: left) from h)
    exact ⟨_, hthird.advance_cons, checkNext_group h hc hname⟩

theorem checkNext_nil (h : progress.At []) :
    checkNext edition levels narrated progress = .error (.fault .endOfText) progress := by
  unfold checkNext
  rw [bind_of_error h.look_nil]

theorem local_checkNext (edition : Edition) (levels : Nat) (narrated : Bool) :
    Local text (checkNext edition levels narrated) := by
  rintro progress other ⟨left, hleft, hprogress, hother⟩
  cases left with
  | nil =>
      rw [checkNext_nil hprogress, checkNext_nil hother]
      exact .error ⟨⟨[], hleft, hprogress, hother⟩, by simp⟩
  | cons c rest =>
      rcases checkNext_cases edition levels narrated c rest with
        ⟨action, unread, haction, hunread, h⟩ | ⟨hc, hrest⟩
      · obtain ⟨first, hfirst, hprogress⟩ := h progress hprogress
        obtain ⟨second, hsecond, hother⟩ := h other hother
        have hsuffix : unread <:+ text := (hunread.trans (List.suffix_cons c rest)).trans hleft
        rw [hprogress, hother]
        exact (haction text).bind (fun _ => .pure true) _ _ ⟨unread, hsuffix, hfirst, hsecond⟩
      · rw [checkNext_short hprogress hc hrest, checkNext_short hother hc hrest]
        exact .ok ⟨_, hleft, hprogress, hother⟩

/-- What a pass makes of an unread text.  It reads a character at least, and leaves an end of
what is behind that one; or it reads nothing, and is the last one. -/
inductive Proceeds (progress : Progress) (c : Char) (rest : List Char) :
    EStateM.Result Stop Progress Bool → Prop
  | reads {left : List Char} {after : Progress} (hleft : left <:+ rest) (hafter : after.At left) :
      Proceeds progress c rest (.ok true after)
  | stops {stop : Stop} {left : List Char} {after : Progress} (hstop : stop ≠ .unfinished)
      (hleft : left <:+ rest) (hafter : after.At left) :
      Proceeds progress c rest (.error stop after)
  | short (hc : ¬ isFiller [c]) (hrest : rest.length < 2) :
      Proceeds progress c rest (.ok false progress)

theorem proceeds_checkNext (edition : Edition) (levels : Nat) (narrated : Bool)
    (hat : progress.At (c :: rest)) :
    Proceeds progress c rest (checkNext edition levels narrated progress) := by
  rcases checkNext_cases edition levels narrated c rest with
    ⟨action, left, haction, hleft, hpass⟩ | ⟨hc, hrest⟩
  · obtain ⟨middle, hmiddle, hnext⟩ := hpass progress hat
    have hresult := (haction left).concludes hmiddle
    rw [hnext]
    cases hmet : action middle with
    | error stop after =>
        rw [hmet] at hresult
        obtain ⟨hstop, unread, hunread, hafter⟩ := hresult
        rw [bind_of_error hmet]
        exact .stops hstop (hunread.trans hleft) hafter
    | ok value after =>
        rw [hmet] at hresult
        obtain ⟨unread, hunread, hafter⟩ := hresult
        rw [bind_of_ok hmet]
        exact .reads (hunread.trans hleft) hafter
  · rw [checkNext_short hat hc hrest]
    exact .short hc hrest

theorem checkNext_shorter (h : progress.At text) {after : Progress}
    (hnext : checkNext edition levels narrated progress = .ok true after) :
    ∃ left, after.At left ∧ left.length < text.length := by
  cases text with
  | nil =>
      rw [checkNext_nil h] at hnext
      cases hnext
  | cons c rest =>
      have hpass := proceeds_checkNext edition levels narrated h
      rw [hnext] at hpass
      cases hpass with
      | reads hleft hafter => exact ⟨_, hafter, Nat.lt_succ_of_le hleft.length_le⟩

end

/-! ## All passes -/

def checkRest (edition : Edition) (levels : Nat) (narrated : Bool) : Linting Unit :=
  fun progress => checkAll edition levels narrated (progress.unread + 1) progress

section

variable {edition : Edition} {levels : Nat} {narrated : Bool} {progress after : Progress}
variable {text : List Char}

theorem checkAll_succ (h : progress.At text) (fuel : Nat) :
    checkAll edition levels narrated (fuel + 1) progress =
      if text = [] then .ok () progress
      else (checkNext edition levels narrated >>= fun more =>
        if more then checkAll edition levels narrated fuel else pure ()) progress := by
  rw [checkAll]
  refine (bind_of_ok rfl).trans ?_
  by_cases htext : text = []
  · rw [if_pos htext]
    exact congrFun (if_pos (h.atEnd_iff.mpr htext)) progress
  · rw [if_neg htext]
    exact congrFun (if_neg (mt h.atEnd_iff.mp htext)) progress

/-- The fuel of a check does not matter as soon as it exceeds the text. -/
theorem checkAll_congr (h : progress.At text) {fuel more : Nat} (hfuel : text.length < fuel)
    (hmore : text.length < more) :
    checkAll edition levels narrated fuel progress =
      checkAll edition levels narrated more progress := by
  induction fuel generalizing more progress text with
  | zero => omega
  | succ fuel ih =>
      obtain ⟨more, rfl⟩ : ∃ count, more = count + 1 := ⟨more - 1, by omega⟩
      rw [checkAll_succ h, checkAll_succ h]
      split
      · rfl
      cases hnext : checkNext edition levels narrated progress with
      | error stop after => rw [bind_of_error hnext, bind_of_error hnext]
      | ok goes after =>
          rw [bind_of_ok hnext, bind_of_ok hnext]
          cases goes with
          | false => rfl
          | true =>
              obtain ⟨left, hafter, hshorter⟩ := checkNext_shorter h hnext
              exact ih hafter (by omega) (by omega)

theorem checkRest_nil (h : progress.At []) :
    checkRest edition levels narrated progress = .ok () progress := by
  rw [checkRest, checkAll_succ h, if_pos rfl]

theorem checkRest_cons (h : progress.At text) (htext : text ≠ []) :
    checkRest edition levels narrated progress =
      (checkNext edition levels narrated >>= fun more =>
        if more then checkRest edition levels narrated else pure ()) progress := by
  rw [checkRest, checkAll_succ h, if_neg htext]
  cases hnext : checkNext edition levels narrated progress with
  | error stop after => rw [bind_of_error hnext, bind_of_error hnext]
  | ok goes after =>
      rw [bind_of_ok hnext, bind_of_ok hnext]
      cases goes with
      | false => rfl
      | true =>
          obtain ⟨left, hafter, hshorter⟩ := checkNext_shorter h hnext
          refine checkAll_congr hafter ?_ ?_
          · rwa [h.unread]
          · rw [hafter.unread]
            omega

theorem local_checkRest (edition : Edition) (levels : Nat) (narrated : Bool) :
    Local text (checkRest edition levels narrated) := by
  rintro progress other ⟨left, hleft, hprogress, hother⟩
  refine Parallel.widen ?_ hleft
  clear hleft
  -- A pass that goes on has read something, which is the same in both.
  induction hlength : left.length using Nat.strongRecOn generalizing progress other left with
  | ind length ih =>
      by_cases hempty : left = []
      · subst hempty
        rw [checkRest_nil hprogress, checkRest_nil hother]
        exact .ok (hprogress.beside hother)
      rw [checkRest_cons hprogress hempty, checkRest_cons hother hempty]
      have hpass := local_checkNext edition levels narrated _ _ (hprogress.beside hother)
      refine hpass.bind fun goes after another hfirst hbeside => ?_
      cases goes with
      | false => exact .ok hbeside
      | true =>
          obtain ⟨rest, hrest, hafter, hanother⟩ := hbeside
          obtain ⟨unread, hunread, hshorter⟩ := checkNext_shorter hprogress hfirst
          have hsame : rest.length = unread.length := hafter.unread.symm.trans hunread.unread
          exact (ih rest.length (by omega) after another rest hafter hanother rfl).widen hrest

def Returns (result : EStateM.Result Stop Progress Unit) : Prop :=
  ∃ after, result = .ok () after

instance (result : EStateM.Result Stop Progress Unit) : Decidable (Returns result) :=
  match result with
  | .ok () after => isTrue ⟨after, rfl⟩
  | .error _ _ => isFalse (by rintro ⟨_, h⟩; cases h)

theorem Parallel.returns_iff {first second : EStateM.Result Stop Progress Unit}
    (h : Parallel text first second) : Returns first ↔ Returns second := by
  cases h with
  | ok _ => exact ⟨fun _ => ⟨_, rfl⟩, fun _ => ⟨_, rfl⟩⟩
  | error _ =>
      constructor <;>
      · rintro ⟨_, h⟩
        cases h
  | excused h => exact h.elim

theorem returns_checkRest_iff (h : progress.At text) :
    Returns (checkRest edition levels narrated progress) ↔
      Returns (checkRest edition levels narrated (.start text)) :=
  Parallel.returns_iff
    (local_checkRest edition levels narrated _ _ (h.beside (Progress.at_start text)))

theorem check_eq_bind : check edition levels narrated =
    (checkRest edition levels narrated >>= fun _ => checkClosed narrated) := rfl

theorem check_eq (progress : Progress) :
    check edition levels false progress = checkRest edition levels false progress := by
  rw [check_eq_bind]
  cases hall : checkRest edition levels false progress with
  | error stop after => rw [bind_of_error hall]
  | ok _ after =>
      rw [bind_of_ok hall]
      exact congrFun (if_neg (by simp)) after

end

end BitAssembly.Lint
