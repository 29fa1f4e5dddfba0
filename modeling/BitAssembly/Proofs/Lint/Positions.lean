import BitAssembly.Proofs.Lint.Instructions
import BitAssembly.Proofs.Lint.Points
import BitAssembly.Proofs.Text.Digits

/-!
# Places in the reports of a check

A report names the place of the character that it complains of, up to the look-aheads
of its line.  Every immediate display looks ahead once, so that the column exceeds
the true one by the number of displays before it on its line.  A display at the end of
an earlier line counts as well, when it takes its operand from this one.
-/

namespace BitAssembly.Lint

open BitAssembly.Text

/-! ## How a check may end -/

def place? : Stop → Option (Nat × Int)
  | .fault (.notNumber line column) => some (line, column)
  | .fault (.notComparison line column) => some (line, column)
  | .fault (.extraNumber line column) => some (line, column)
  | _ => none

/-- The character is what a stop complains of: it was read last, or it is the next one. -/
inductive Offends (progress : Progress) (c : Char) (rest : List Char) : Stop → Prop
  | notNumber (line : Nat) (column : Int) (hread : progress.At rest) (hc : ¬ among digits [c])
      (hsolid : ¬ isFiller [c]) : Offends progress c rest (.fault (.notNumber line column))
  | notComparison (line : Nat) (column : Int) (hread : progress.At rest) (hc : ¬ among signs [c])
      (hsolid : ¬ isFiller [c]) : Offends progress c rest (.fault (.notComparison line column))
  | extraNumber (line : Nat) (column : Int) (hnext : progress.At (c :: rest))
      (hc : among digits [c]) : Offends progress c rest (.fault (.extraNumber line column))

/-- The place is that of the offending character, up to the look-aheads of its line. -/
structure Blamed (source : List Char) (stop : Stop) (journal : Journal) (place : Nat × Int) :
    Prop where
  settled : displays journal.events = lookAheads journal.events
  located : ∃ before c rest, source = before ++ c :: rest ∧ Offends journal.progress c rest stop ∧
    place = (1 + before.count '\n',
      ((1 + sinceBreak before + lookAheads (onLine journal.events) : Nat) : Int))

structure Ended (source : List Char) (stop : Stop) (journal : Journal) : Prop where
  stands : ∃ waiting, journal.Stands source waiting
  blamed : ∀ place ∈ place? stop, Blamed source stop journal place

theorem Journal.Stands.ended {source : List Char} {waiting : Nat} {journal : Journal} {stop : Stop}
    (h : journal.Stands source waiting) (hstop : place? stop = none) :
    Ended source stop journal := by
  refine ⟨⟨waiting, h⟩, ?_⟩
  rw [hstop]
  nofun

def Ensures {α : Type} (source : List Char) (Pre : Journal → Prop) (Post : α → Journal → Prop)
    (action : Journaling α) : Prop :=
  Triple Pre Post (Ended source) action

/-- The action is taken while no display waits for its operand. -/
def Steady {α : Type} (source : List Char) (action : Journaling α) : Prop :=
  Ensures source (Journal.Stands source 0) (fun _ => Journal.Stands source 0) action

theorem ensures_record {β : Type} {source : List Char} {Pre Mid : Journal → Prop}
    {Post : β → Journal → Prop} {event : Event} {next : Unit → Journaling β}
    (hevent : ∀ journal, Pre journal → Mid (journal.enter journal.progress event))
    (hnext : Ensures source Mid Post (next ())) : Ensures source Pre Post (record event >>= next) :=
  Triple.bind (Triple.modify hevent) fun _ => hnext

/-! ## Reads -/

section

variable {source : List Char} {waiting : Nat}

def JustRead (source : List Char) (c : Char) (journal : Journal) : Prop :=
  ∃ before rest, journal.progress.Sited source (lookAheads journal.events)
      (lookAheads (onLine journal.events)) (before ++ [c]) rest ∧
    (c ≠ '\n' → journal.progress.last = (1 + before.count '\n',
      ((1 + sinceBreak before + lookAheads (onLine journal.events) : Nat) : Int)))

theorem ensures_take (hwaiting : waiting ≤ 1) :
    Ensures source (Journal.Stands source waiting)
      (fun chars after => ∃ c, chars = [c] ∧ after.Stands source waiting ∧ JustRead source c after)
      (Journal.take 1) := by
  intro journal h
  obtain ⟨consumed, unread, hsited⟩ := h.now.sited
  cases unread with
  | nil =>
      have htake : Journal.take 1 journal = .error (.fault .endOfText) journal :=
        bind_of_error (plainly_of_error hsited.at.take_nil)
      rw [htake]
      exact h.ended rfl
  | cons c rest =>
      have hnext : journal.progress.Sited source (lookAheads journal.events)
          (lookAheads (onLine journal.events)) consumed ([] ++ c :: rest) := hsited
      obtain ⟨htake, hstands, hmoved⟩ := h.take_append hwaiting hnext List.not_mem_nil
      change Journal.take 1 journal = _ at htake
      rw [htake]
      refine ⟨c, rfl, hstands, consumed, rest, hmoved, fun hc => ?_⟩
      have hrecent := @lookAheads_onLine_read journal.events [] c List.not_mem_nil
      rw [if_neg hc] at hrecent
      change (journal.progress.line, journal.progress.column) = (_, (Nat.cast (_ + lookAheads
        (onLine (.read ([] ++ [c]) :: journal.events))) : Int))
      rw [hrecent, hsited.line, hsited.column]

theorem steady_take : Steady source (Journal.take 1) := by
  refine (ensures_take (Nat.zero_le 1)).mono ?_
  rintro _ _ ⟨c, -, hafter, -⟩
  exact hafter

def Quiet {α : Type} (origin : Progress) (action : Linting α) : Prop :=
  Triple origin.SamePlace (fun _ => origin.SamePlace)
    (fun stop after => origin.SamePlace after ∧ place? stop = none) action

theorem ensures_plainly {α : Type} {action : Linting α} (h : ∀ origin, Quiet origin action) :
    Ensures source (Journal.Stands source waiting) (fun _ => Journal.Stands source waiting)
      (plainly action) := by
  refine triple_plainly fun journal hstands => ?_
  refine (h journal.progress _ (.refl _)).mono ?_ ?_
  · intro value after hsame
    exact hstands.of_same hsame
  · intro stop after hfails
    exact (hstands.of_same hfails.1).ended hfails.2

variable {origin : Progress}

theorem quiet_fail {α : Type} {fault : Fault} (h : place? (.fault fault) = none) :
    Quiet origin (fail fault : Linting α) :=
  .throw fun _ hsame => ⟨hsame, h⟩

theorem quiet_look (count : Int) : Quiet origin (look count) :=
  triple_look (fun _ hsame => ⟨hsame, rfl⟩) count

theorem JustRead.ended {c : Char} {journal : Journal} {stop : Stop}
    (hread : JustRead source c journal) (hstands : journal.Stands source 0)
    (hsolid : ¬ isFiller [c]) (hplace : place? stop = some journal.progress.last)
    (hoffends : ∀ rest, journal.progress.At rest → Offends journal.progress c rest stop) :
    Ended source stop journal := by
  obtain ⟨before, rest, hsited, hlast⟩ := hread
  refine ⟨⟨0, hstands⟩, fun place hmem => ?_⟩
  rw [hplace, hlast (ne_lineFeed_of_not_filler hsolid)] at hmem
  cases hmem
  have hsplit : source = before ++ c :: rest := by simpa using hsited.split
  exact ⟨hstands.waits, before, c, rest, hsplit, hoffends rest hsited.at, rfl⟩

theorem steady_digit (levels : Nat) : Steady source (Journal.digit levels) := by
  induction levels with
  | zero => exact .throw fun _ h => h.ended rfl
  | succ levels ih =>
      refine (ensures_take (Nat.zero_le 1)).bind fun chars => ?_
      rintro journal ⟨c, rfl, hstands, hread⟩
      by_cases hc : among digits [c]
      · rw [if_pos hc]
        exact hstands
      rw [if_neg hc]
      by_cases hfiller : isFiller [c]
      · rw [if_pos hfiller]
        have hrest : Steady source (do
            let found ← Journal.digit levels
            let _ ← plainly (look 1)
            return found) :=
          ih.bind fun found =>
            Triple.bind (ensures_plainly fun _ => quiet_look 1) fun _ => .pure found
        exact hrest journal hstands
      · rw [if_neg hfiller]
        exact hread.ended hstands hfiller rfl fun rest hat => .notNumber _ _ hat hc hfiller

theorem steady_digitRun (levels count : Nat) (before : List Char) :
    Steady source (Journal.digitRun levels count before) := by
  induction count generalizing before with
  | zero => exact .pure before
  | succ count ih => exact (steady_digit levels).bind fun found => ih _

theorem endNumber_cons {progress : Progress} {c : Char} {rest : List Char}
    (h : progress.At (c :: rest)) (alone : Bool) (found : List Char) :
    Journal.endNumber alone found progress =
      if among digits [c] && alone then
        .error (.fault (.extraNumber progress.line progress.column)) progress
      else .ok found progress := by
  unfold Journal.endNumber
  rw [bind_of_ok h.look_cons]
  split <;> rfl

theorem steady_number (levels : Nat) (count : Int) (alone : Bool) :
    Steady source (Journal.number levels count alone) := by
  refine (steady_digitRun levels count.toNat []).bind fun found => ?_
  intro journal hstands
  obtain ⟨consumed, unread, hsited⟩ := hstands.now.sited
  cases unread with
  | nil =>
      have hnext : Journal.endNumber alone found journal.progress =
          .error (.fault .endOfText) journal.progress := bind_of_error hsited.at.look_nil
      rw [plainly_of_error hnext]
      exact hstands.ended rfl
  | cons c rest =>
      have hnext := endNumber_cons hsited.at alone found
      by_cases hextra : (among digits [c] && alone) = true
      · rw [if_pos hextra] at hnext
        rw [plainly_of_error hnext]
        refine ⟨⟨0, hstands⟩, ?_⟩
        rintro place ⟨⟩
        refine ⟨hstands.waits, consumed, c, rest, hsited.split, ?_, ?_⟩
        · exact .extraNumber _ _ hsited.at (Bool.and_eq_true_iff.mp hextra).1
        · rw [hsited.line, hsited.column]
      · rw [if_neg hextra] at hnext
        rw [plainly_of_ok hnext]
        exact hstands

theorem steady_sign (levels : Nat) : Steady source (Journal.sign levels) := by
  induction levels with
  | zero => exact .throw fun _ h => h.ended rfl
  | succ levels ih =>
      refine (ensures_take (Nat.zero_le 1)).bind fun chars => ?_
      rintro journal ⟨c, rfl, hstands, hread⟩
      by_cases hc : among signs [c]
      · rw [if_pos hc]
        exact hstands
      rw [if_neg hc]
      by_cases hfiller : isFiller [c]
      · rw [if_pos hfiller]
        exact ih journal hstands
      · rw [if_neg hfiller]
        exact hread.ended hstands hfiller rfl fun rest hat => .notComparison _ _ hat hc hfiller

/-- A display waits for its operand.  The look-ahead puts one more character back. -/
theorem ensures_ahead (levels : Nat) :
    Ensures source (Journal.Stands source 1)
      (fun _ after => (after.enter after.progress .lookedAhead).Stands source 0)
      (Journal.ahead levels) := by
  induction levels with
  | zero => exact .throw fun _ h => h.ended rfl
  | succ levels ih =>
      refine (ensures_take (Nat.le_refl 1)).bind fun chars => ?_
      rintro journal ⟨c, rfl, hstands, before, rest, hsited, -⟩
      by_cases hfiller : isFiller [c]
      · rw [if_pos hfiller]
        exact ih journal hstands
      · rw [if_neg hfiller]
        have hagain := hsited.again (ne_lineFeed_of_not_filler hfiller)
        have hwaits : displays journal.events =
            lookAheads (.lookedAhead :: journal.events) + 0 := by
          rw [hstands.waits, lookAheads_lookedAhead]
        rw [← lookAheads_lookedAhead, ← lookAheads_lookedAhead, ← onLine_cons rfl] at hagain
        exact hstands.enter hstands.now.read hagain hwaits (Nat.zero_le 1)

/-! ## Mnemonics -/

def Unplaced {α : Type} (result : Except Fault α) : Prop :=
  ∀ fault, result = .error fault → place? (.fault fault) = none

theorem quiet_ofExcept {α : Type} {result : Except Fault α} (h : Unplaced result) :
    Quiet origin (ofExcept result) := by
  cases result with
  | ok value => exact .pure value
  | error fault => exact quiet_fail (h fault rfl)

theorem quiet_printLine (text : String) : Quiet origin (printLine text) :=
  .modify fun _ h => ⟨h.cursor, h.line, h.column⟩

theorem quiet_openBlock (name : String) : Quiet origin (openBlock name) :=
  .modify fun _ h => ⟨h.cursor, h.line, h.column⟩

theorem steady_readShape (levels : Nat) (shape : Shape) :
    Steady source (Journal.readShape levels shape) := by
  cases shape with
  | bare => exact .pure _
  | single => exact (steady_number levels 1 true).bind fun _ => .pure _
  | pair =>
      refine (steady_number levels 2 true).bind fun found => ensures_plainly fun _ => ?_
      split
      · exact .pure _
      · exact quiet_fail rfl
  | valued count =>
      exact (steady_number levels 1 false).bind fun _ =>
        (steady_number levels count true).bind fun _ => .pure _
  | compared =>
      exact (steady_number levels 1 true).bind fun _ => (steady_sign levels).bind fun _ =>
        (steady_number levels 1 true).bind fun _ => .pure _

theorem unplaced_parseInt (radix : Nat) (chars : List Char) : Unplaced (parseInt radix chars) := by
  intro fault hfault
  rcases parseInt_eq_error hfault with rfl | ⟨-, digits, rfl⟩ <;> rfl

theorem Unplaced.bind {α β : Type} {first : Except Fault α} {next : α → Except Fault β}
    (hfirst : Unplaced first) (hnext : ∀ value, Unplaced (next value)) :
    Unplaced (first >>= next) := by
  cases first with
  | ok value => exact hnext value
  | error fault =>
      intro reason hreason
      cases hreason
      exact hfirst fault rfl

theorem unplaced_ok {α : Type} (value : α) : Unplaced (.ok value) :=
  nofun

theorem unplaced_comparison (sign : List Char) : Unplaced (comparison sign) := by
  intro fault hfault
  unfold comparison at hfault
  split at hfault <;> cases hfault
  rfl

theorem unplaced_rules (operands : Operands) :
    ∀ entry ∈ sharedRules ++ (basicRules ++ extendedRules),
      Unplaced (entry.2.narrate operands) := by
  have hdecimal {α : Type} (chars : List Char) (next : String → α) :
      Unplaced (do return next (← decimal chars)) :=
    ((unplaced_parseInt 16 chars).bind fun _ => unplaced_ok _).bind fun _ => unplaced_ok _
  have hcompared (name : String) : Unplaced ((comparedRule name).narrate operands) :=
    (unplaced_comparison operands.sign).bind fun _ => unplaced_ok _
  simp only [sharedRules, basicRules, extendedRules, List.cons_append, List.nil_append,
    List.forall_mem_cons, List.not_mem_nil, false_implies, implies_true, and_true]
  repeat' apply And.intro
  all_goals first
    | exact unplaced_ok _
    | exact hcompared _
    | exact hdecimal _ _

theorem mem_of_rule? {edition : Edition} {mnemonic : List Char} {rule : Rule}
    (h : rule? edition mnemonic = some rule) :
    ∃ name, (name, rule) ∈ sharedRules ++ (basicRules ++ extendedRules) := by
  have hmem {rules : List (String × Rule)}
      (hlookup : (spellRules rules).lookup mnemonic = some rule) :
      ∃ name, (name, rule) ∈ rules := by
    obtain ⟨before, after, hsplit, -⟩ := List.lookup_eq_some_iff.mp hlookup
    have hentry : (mnemonic, rule) ∈ spellRules rules := by simp [hsplit]
    obtain ⟨⟨name, other⟩, hother, hsame⟩ := List.mem_map.mp hentry
    cases hsame
    exact ⟨name, hother⟩
  cases edition with
  | basic =>
      obtain ⟨name, hentry⟩ := hmem h
      exact ⟨name, List.append_assoc _ _ _ ▸ List.mem_append_left extendedRules hentry⟩
  | extended =>
      obtain ⟨name, hentry⟩ := hmem h
      refine ⟨name, List.mem_append.mpr ((List.mem_append.mp hentry).imp_right fun hown => ?_)⟩
      exact List.mem_append_right basicRules hown

theorem unplaced_narrate {edition : Edition} {mnemonic : List Char} {rule : Rule}
    (h : rule? edition mnemonic = some rule) (operands : Operands) :
    Unplaced (rule.narrate operands) := by
  obtain ⟨name, hentry⟩ := mem_of_rule? h
  exact unplaced_rules operands _ hentry

theorem steady_checkRule {edition : Edition} {mnemonic : List Char} {rule : Rule}
    (h : rule? edition mnemonic = some rule) (levels : Nat) (narrated : Bool) :
    Steady source (Journal.checkRule rule levels narrated) := by
  have hread : Steady source (do
      let operands ← Journal.readShape levels rule.shape
      plainly do
        if narrated then printLine (← ofExcept (rule.narrate operands))) := by
    refine (steady_readShape levels rule.shape).bind fun operands => ?_
    refine ensures_plainly fun _ => .ite ?_ (.pure ())
    exact (quiet_ofExcept (unplaced_narrate h operands)).bind quiet_printLine
  unfold Journal.checkRule
  cases rule.opens with
  | none => exact hread
  | some name =>
      refine Triple.bind (ensures_plainly fun _ => quiet_openBlock name) fun _ => ?_
      refine ensures_record (fun _ hstands => ?_) hread
      exact hstands.mark_other (Nat.zero_le 1) rfl rfl (by simp) (by simp)

theorem steady_takeThrough (mark : List Char) (fuel : Nat) (before : List Char) :
    Steady source (Journal.takeThrough mark fuel before) := by
  induction fuel generalizing before with
  | zero => exact .throw fun _ h => h.ended rfl
  | succ fuel ih => exact steady_take.bind fun chars => Triple.ite (.pure _) (ih _)

theorem unplaced_byteChar (chars : List Char) : Unplaced (byteChar chars) := by
  refine (unplaced_parseInt 16 chars).bind fun value => ?_
  split
  · exact unplaced_ok _
  · rintro fault ⟨⟩
    rfl

theorem ensures_checkImmediate (levels : Nat) (narrated : Bool) :
    Ensures source (Journal.Stands source 1) (fun _ => Journal.Stands source 0)
      (Journal.checkImmediate levels narrated) := by
  refine (ensures_ahead levels).bind fun next => ensures_record (fun _ h => h) (Triple.ite ?_ ?_)
  · refine Triple.get fun journal => ?_
    refine (steady_takeThrough next _ []).bind fun chars => ?_
    exact ensures_plainly fun _ => .ite (quiet_printLine _) (.pure ())
  · refine (steady_number levels 2 true).bind fun byte => ?_
    refine ensures_plainly fun _ => .ite ?_ (.pure ())
    exact (quiet_ofExcept (unplaced_byteChar byte)).bind fun text => quiet_printLine _

theorem steady_checkMnemonic (edition : Edition) (levels : Nat) (narrated : Bool)
    (mnemonic : List Char) :
    Steady source (Journal.checkMnemonic edition levels narrated mnemonic) := by
  unfold Journal.checkMnemonic
  by_cases hdisplay : mnemonic = "DPI".toList
  · rw [if_pos hdisplay]
    refine ensures_record (fun journal hstands => ?_) (ensures_checkImmediate levels narrated)
    refine hstands.mark rfl rfl (by simp) ?_ (Nat.le_refl 1)
    rw [hdisplay, displays_named, hstands.waits]
  · rw [if_neg hdisplay]
    have hnamed (journal : Journal) (hstands : journal.Stands source 0) :
        (journal.enter journal.progress (.named mnemonic)).Stands source 0 :=
      hstands.mark_other (Nat.zero_le 1) rfl rfl (by simp) (by simpa using hdisplay)
    refine ensures_record hnamed (Triple.ite ?_ ?_)
    · exact ensures_plainly fun _ => quiet_printLine _
    · cases hrule : rule? edition mnemonic with
      | none => exact .pure ()
      | some rule => exact steady_checkRule hrule levels narrated

/-! ## The whole check -/

theorem quiet_closeBlock (narrated : Bool) : Quiet origin (closeBlock narrated) := by
  intro progress hprogress
  obtain ⟨after, hclose, hsame⟩ := closeBlock_still narrated progress
  rw [hclose]
  exact hprogress.trans hsame

theorem quiet_checkClosed (narrated : Bool) : Quiet origin (checkClosed narrated) := by
  intro progress hprogress
  rw [checkClosed, bind_get]
  by_cases hopen : 0 < progress.depth ∧ narrated = true
  · rw [if_pos hopen]
    cases progress.blocks with
    | nil => exact ⟨hprogress, rfl⟩
    | cons name rest => exact ⟨hprogress.cursor, hprogress.line, hprogress.column⟩
  · rw [if_neg hopen]
    exact hprogress

theorem steady_filler (narrated : Bool) (c : Char) :
    Steady source (do
      let _ ← Journal.take 1
      if [c] = [']'] then
        plainly (closeBlock narrated)
        record .closed
      return true) := by
  refine steady_take.bind fun _ => Triple.ite ?_ (.pure true)
  refine Triple.bind (ensures_plainly fun _ => quiet_closeBlock narrated) fun _ => ?_
  refine ensures_record (fun _ h => ?_) (Triple.pure true)
  exact h.mark_other (Nat.zero_le 1) rfl rfl (by simp) (by simp)

theorem steady_name (edition : Edition) (levels : Nat) (narrated : Bool) (two : List Char) :
    Steady source (do
      if two = "IF".toList then Journal.checkMnemonic edition levels narrated two
      else
        let third ← Journal.take 1
        Journal.checkMnemonic edition levels narrated (two ++ third)
      return true) := by
  have hall (mnemonic : List Char) : Steady source (do
      Journal.checkMnemonic edition levels narrated mnemonic
      return true) :=
    (steady_checkMnemonic edition levels narrated mnemonic).bind fun _ => .pure true
  exact Triple.ite (hall two) (steady_take.bind fun third => hall (two ++ third))

theorem steady_checkNext (edition : Edition) (levels : Nat) (narrated : Bool) :
    Steady source (Journal.checkNext edition levels narrated) := by
  intro journal hstands
  obtain ⟨consumed, unread, hsited⟩ := hstands.now.sited
  unfold Journal.checkNext
  cases unread with
  | nil =>
      rw [bind_of_error (plainly_of_error hsited.at.look_nil)]
      exact hstands.ended rfl
  | cons a rest =>
      have hlook : plainly (look 1) journal = .ok [a] journal := plainly_of_ok hsited.at.look_cons
      rw [bind_of_ok hlook]
      by_cases ha : isFiller [a]
      · rw [if_pos ha]
        exact steady_filler narrated a journal hstands
      rw [if_neg ha, bind_get]
      by_cases hshort : journal.progress.cursor.pos + 3 > journal.progress.cursor.text.size
      · rw [if_pos hshort]
        exact hstands
      rw [if_neg hshort]
      have hsize := hsited.at.size
      cases rest with
      | nil =>
          simp only [List.length_cons, List.length_nil] at hsize
          omega
      | cons b rest =>
          -- Only the second of the two letters may be a line feed.
          have hfront : '\n' ∉ [a] := by simpa using Ne.symm (ne_lineFeed_of_not_filler ha)
          have hpair : journal.progress.Sited source (lookAheads journal.events)
            (lookAheads (onLine journal.events)) consumed ([a] ++ b :: rest) := hsited
          obtain ⟨htake, hread, -⟩ := hstands.take_append (Nat.zero_le 1) hpair hfront
          change Journal.take 2 journal = _ at htake
          rw [bind_of_ok htake]
          exact steady_name edition levels narrated _ _ hread

theorem steady_checkAll (edition : Edition) (levels : Nat) (narrated : Bool) (fuel : Nat) :
    Steady source (Journal.checkAll edition levels narrated fuel) := by
  induction fuel with
  | zero => exact .throw fun _ h => h.ended rfl
  | succ fuel ih =>
      refine Triple.get fun journal => Triple.ite (.pure ()) ?_
      exact (steady_checkNext edition levels narrated).bind fun _ => Triple.ite ih (.pure ())

theorem steady_check (edition : Edition) (levels : Nat) (narrated : Bool) :
    Steady source (Journal.check edition levels narrated) := by
  refine Triple.get fun journal => ?_
  refine (steady_checkAll edition levels narrated _).bind fun _ => ?_
  exact ensures_plainly fun _ => quiet_checkClosed narrated

theorem check_ended {edition : Edition} {levels : Nat} {narrated : Bool} {stop : Stop}
    (h : stopOf (Journal.check edition levels narrated (.start source)) = some stop) :
    Ended source stop (journalOf (Journal.check edition levels narrated (.start source))) :=
  (steady_check edition levels narrated).of_error (Journal.stands_start source)
    (eq_error_of_stopOf h)

theorem check_stands (edition : Edition) (levels : Nat) (narrated : Bool) (source : List Char) :
    ∃ waiting, (journalOf (Journal.check edition levels narrated (.start source))).Stands source
      waiting := by
  have hsteady := steady_check edition levels narrated _ (Journal.stands_start source)
  cases hrun : Journal.check edition levels narrated (.start source) with
  | ok value journal =>
      rw [hrun] at hsteady
      exact ⟨0, hsteady⟩
  | error stop journal =>
      rw [hrun] at hsteady
      exact hsteady.stands

end

/-! ## Reported places -/

theorem message_of_place {fault : Fault} {line : Nat} {column : Int}
    (h : place? (.fault fault) = some (line, column)) :
    ∃ front back, fault.message = some (front ++ place line column ++ back) := by
  cases fault <;> cases h
  · exact ⟨"Character at ", " was not a number", rfl⟩
  · exact ⟨"Character at ", " was not a boolean operator (i, j, k, l)", rfl⟩
  · exact ⟨"Unexpected number at ", "", by rw [String.append_empty]; rfl⟩

/-- The displays of earlier lines that had not got their operand at the last line feed. -/
def carried (events : List Event) : Nat :=
  displays (beforeLine events) - lookAheads (beforeLine events)

section

variable {source : List Char} {journal : Journal} {waiting : Nat}

theorem Journal.Stands.before (h : journal.Stands source waiting) :
    displays (beforeLine journal.events) =
        lookAheads (beforeLine journal.events) + carried journal.events ∧
      carried journal.events ≤ 1 := by
  obtain ⟨progress, hshows⟩ := Journal.shows_beforeLine source journal
  have hleast := (h.point hshows).least
  have hmost := (h.point hshows).most
  unfold carried
  omega

theorem Journal.Stands.lookAheads_onLine (h : journal.Stands source waiting)
    (hsettled : displays journal.events = lookAheads journal.events) :
    lookAheads (onLine journal.events) =
      displays (onLine journal.events) + carried journal.events := by
  have hbefore := h.before.1
  rw [displays_split, lookAheads_split] at hsettled
  omega

end

/-- A check knows its line, and its column up to the look-aheads of the line.  A report names the
offending character, in a column that is too large by the displays before it on its line, and by
one more if the line took over a display of an earlier one. -/
theorem check_places (edition : Edition) (levels : Nat) (narrated : Bool) (source : List Char) :
    let run := Journal.check edition levels narrated (.start source)
    let journal := journalOf run
    forget run = check edition levels narrated (.start source) ∧
    (∀ events progress, journal.Shows source events progress →
      progress.cursor.pos = charsRead events ∧
      ∃ consumed unread, source = consumed ++ unread ∧ progress.At unread ∧
        progress.cursor.pos = (lookAheads events + consumed.length : Nat) ∧
        progress.line = 1 + consumed.count '\n' ∧
        progress.column = (1 + sinceBreak consumed + lookAheads (onLine events) : Nat)) ∧
    carried journal.events ≤ 1 ∧
    ∀ fault line column, stopOf run = some (.fault fault) →
      place? (.fault fault) = some (line, column) →
      (∃ front back, fault.message = some (front ++ place line column ++ back)) ∧
      ∃ before c rest, source = before ++ c :: rest ∧
        Offends journal.progress c rest (.fault fault) ∧
        line = 1 + before.count '\n' ∧
        column = (1 + sinceBreak before + displays (onLine journal.events) +
          carried journal.events : Nat) := by
  intro run journal
  obtain ⟨waiting, hstands⟩ := check_stands edition levels narrated source
  refine ⟨(erases_check edition levels narrated).forget_eq _, ?_, hstands.before.2, ?_⟩
  · intro events progress hshows
    have hpoint := hstands.point hshows
    obtain ⟨consumed, unread, hsited⟩ := hpoint.sited
    exact ⟨hpoint.read, consumed, unread, hsited.split, hsited.at, hsited.pos, hsited.line,
      hsited.column⟩
  · intro fault line column hrun hplace
    obtain ⟨hsettled, before, c, rest, hsource, hoffends, hsame⟩ :=
      (check_ended hrun).blamed _ hplace
    rw [hstands.lookAheads_onLine hsettled, ← Nat.add_assoc] at hsame
    cases hsame
    exact ⟨message_of_place hplace, before, c, rest, hsource, hoffends, rfl, rfl⟩

/-- No display stands on the second line, but the character that was put back there counts. -/
theorem check_place_carried :
    let source := "DPI\n5x ".toList
    let run (edition : Edition) := Journal.check edition levelLimit false (.start source)
    let misplaces (edition : Edition) : Prop :=
      stopOf (run edition) = some (.fault (.notNumber 2 3)) ∧
      (journalOf (run edition)).progress.cursor.rest = [' '] ∧
      displays (onLine (journalOf (run edition)).events) = 0
    misplaces .basic ∧ misplaces .extended ∧
      source = "DPI\n5".toList ++ 'x' :: [' '] ∧ 1 + sinceBreak "DPI\n5".toList = 2 := by
  decide +kernel

end BitAssembly.Lint
