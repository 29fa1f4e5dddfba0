import BitAssembly.Proofs.Lint.Narration

/-!
# Blocks of a check

A check counts the blocks that are open and keeps a list of their names.  Both are
settled by its journal: by the mnemonics that open blocks and by the closing brackets
that it met.  The count may fall below zero, and the list can only become empty, so that
there are always enough names.  A narrated check takes one more name out for its last
report, of a block that is still open.
-/

namespace BitAssembly.Lint

/-! ## Blocks in a journal -/

def blockNames : List (List Char × String) :=
  [(['I', 'F'], "IF"),
   (['R', 'E', 'P'], "REPEAT"),
   (['D', 'E', 'F'], "FUNCDEF"),
   (['F', 'O', 'R'], "FOR"),
   (['V', 'F', 'R'], "FOR"),
   (['W', 'H', 'L'], "WHILE")]

def blockName? (mnemonic : List Char) : Option String :=
  blockNames.lookup mnemonic

def Event.opens? : Event → Option String
  | .named mnemonic => blockName? mnemonic
  | _ => none

def openings (events : List Event) : Nat :=
  (events.filterMap Event.opens?).length

def closings (events : List Event) : Nat :=
  events.count .closed

/-- The names of opened blocks, newest first.  With narration those that have ended are left
out. -/
def listed (narrated : Bool) : List Event → List String
  | [] => []
  | .named mnemonic :: events => (blockName? mnemonic).toList ++ listed narrated events
  | .closed :: events =>
      if narrated then (listed narrated events).tail else listed narrated events
  | _ :: events => listed narrated events

/-- A line for each closing bracket that ended a block, newest first: it names the block that was
opened last among those that had not ended. -/
def endLines : List Event → List String
  | [] => []
  | .closed :: events => endLine (listed true events) ++ endLines events
  | _ :: events => endLines events

/-- The events of which the blocks are counted.  A mnemonic that has just been named has not
opened its block. -/
def settled : List Event → List Event
  | .named _ :: events => events
  | events => events

structure Tally (narrated : Bool) (events : List Event) (progress : Progress) : Prop where
  depth : progress.depth = openings events - closings events
  blocks : progress.blocks = listed narrated events
  ended : progress.printed.filter isEndLine = if narrated then endLines events else []

section

variable {narrated : Bool} {events : List Event} {event : Event} {progress after : Progress}

theorem openings_cons : openings (event :: events) =
    event.opens?.toList.length + openings events := by
  cases hopens : event.opens? with
  | none => simp [openings, hopens]
  | some name => simp [openings, hopens, Nat.add_comm]

theorem closings_cons : closings (event :: events) =
    closings events + if event = .closed then 1 else 0 := by
  simp [closings, List.count_cons]

theorem listed_mark (hopens : event.opens? = none) (hclosed : event ≠ .closed) :
    listed narrated (event :: events) = listed narrated events := by
  cases event with
  | named mnemonic =>
      change blockName? mnemonic = none at hopens
      rw [listed, hopens]
      rfl
  | closed => exact absurd rfl hclosed
  | read chars | lookedAhead | opened name => rfl

theorem listed_opened {name : String} (hopens : event.opens? = some name) :
    listed narrated (event :: events) = name :: listed narrated events := by
  cases event with
  | named mnemonic =>
      change blockName? mnemonic = some name at hopens
      rw [listed, hopens]
      rfl
  | closed | read chars | lookedAhead | opened other => cases hopens

theorem endLines_mark (hclosed : event ≠ .closed) :
    endLines (event :: events) = endLines events := by
  cases event with
  | closed => exact absurd rfl hclosed
  | named mnemonic | read chars | lookedAhead | opened name => rfl

theorem ne_closed_of_opens {name : String} (h : event.opens? = some name) : event ≠ .closed := by
  rintro rfl
  cases h

/-- There are enough names, also where more blocks have ended than were opened. -/
theorem openings_le (narrated : Bool) (events : List Event) :
    openings events ≤ closings events + (listed narrated events).length := by
  induction events with
  | nil => exact Nat.zero_le _
  | cons event events ih =>
      rw [openings_cons, closings_cons]
      cases hopens : event.opens? with
      | some name =>
          rw [listed_opened hopens, if_neg (ne_closed_of_opens hopens), Option.toList_some,
            List.length_singleton, List.length_cons]
          omega
      | none =>
          rw [Option.toList_none, List.length_nil, Nat.zero_add]
          by_cases hclosed : event = .closed
          · subst hclosed
            have htail : (listed narrated events).length ≤
                (listed narrated (.closed :: events)).length + 1 := by
              cases narrated with
              | false => exact Nat.le_succ _
              | true =>
                  change _ ≤ (listed true events).tail.length + 1
                  rw [List.length_tail]
                  omega
            rw [if_pos rfl]
            omega
          · rwa [listed_mark hopens hclosed, if_neg hclosed]

theorem Tally.named (h : Tally narrated events progress) :
    progress.depth ≤ progress.blocks.length := by
  have hle := openings_le narrated events
  rw [h.depth, h.blocks]
  omega

theorem tally_start (narrated : Bool) (source : List Char) :
    Tally narrated [] (.start source) := by
  refine ⟨rfl, rfl, ?_⟩
  cases narrated <;> rfl

theorem Tally.mark (h : Tally narrated events progress) (hopens : event.opens? = none)
    (hclosed : event ≠ .closed) : Tally narrated (event :: events) progress := by
  refine ⟨?_, ?_, ?_⟩
  · rw [h.depth, openings_cons, closings_cons, hopens, if_neg hclosed, Option.toList_none,
      List.length_nil, Nat.zero_add, Nat.add_zero]
  · rw [h.blocks, listed_mark hopens hclosed]
  · rw [h.ended, endLines_mark hclosed]

theorem Tally.opened {name : String} (h : Tally narrated events progress)
    (hopens : event.opens? = some name) :
    Tally narrated (event :: events)
      { progress with depth := progress.depth + 1, blocks := name :: progress.blocks } := by
  have hclosed := ne_closed_of_opens hopens
  refine ⟨?_, ?_, ?_⟩
  · have hdepth := h.depth
    rw [openings_cons, closings_cons, hopens, if_neg hclosed, Option.toList_some,
      List.length_singleton]
    change progress.depth + 1 = _
    omega
  · rw [listed_opened hopens, ← h.blocks]
  · rw [endLines_mark hclosed]
    exact h.ended

theorem filter_endLine (names : List String) :
    (endLine names).filter isEndLine = endLine names := by
  cases names with
  | nil => rfl
  | cons name names =>
      have hend : isEndLine ("END " ++ name ++ "\n") = true := by
        rw [isEndLine, String.toList_append, String.toList_append]
        rfl
      exact List.filter_cons_of_pos hend

theorem Tally.closed (h : Tally narrated events progress) :
    ∃ after, closeBlock narrated progress = .ok () after ∧
      Tally narrated (.closed :: events) after := by
  have hdepth : progress.depth - 1 =
      openings (.closed :: events) - closings (.closed :: events) := by
    rw [h.depth, openings_cons, closings_cons, if_pos rfl]
    change _ = ((0 + openings events : Nat) : Int) - _
    omega
  cases narrated with
  | false => exact ⟨_, rfl, hdepth, h.blocks, h.ended⟩
  | true =>
      obtain ⟨warnings, hwarnings, hclose⟩ := closeBlock_narrated progress
      refine ⟨_, hclose, hdepth, congrArg List.tail h.blocks, ?_⟩
      have hfilter : warnings.filter isEndLine = [] := by
        rw [List.filter_eq_nil_iff]
        intro line hline
        simp [hwarnings line hline]
      change (warnings ++ (endLine progress.blocks ++ progress.printed)).filter isEndLine =
        endLine (listed true events) ++ endLines events
      rw [List.filter_append, List.filter_append, hfilter, filter_endLine, h.ended, h.blocks]
      rfl

end

/-! ## Mnemonics that open blocks -/

theorem opens_rule? (edition : Edition) (mnemonic : List Char) :
    (rule? edition mnemonic).bind Rule.opens = blockName? mnemonic := by
  have hnone {β : Type} {table : List (List Char × β)} (h : mnemonic ∉ table.map Prod.fst) :
      table.lookup mnemonic = none :=
    List.lookup_eq_none_iff.mpr fun entry hentry =>
      bne_iff_ne.mpr fun hsame => h (hsame ▸ List.mem_map_of_mem hentry)
  have hlookup {table : List (List Char × Rule)}
      (hall : (table.map Prod.fst ++ blockNames.map Prod.fst).all fun mnemonic =>
        (table.lookup mnemonic).bind Rule.opens == blockName? mnemonic) :
      (table.lookup mnemonic).bind Rule.opens = blockName? mnemonic := by
    by_cases hmem : mnemonic ∈ table.map Prod.fst ++ blockNames.map Prod.fst
    · exact eq_of_beq (List.all_eq_true.mp hall mnemonic hmem)
    · rw [List.mem_append, not_or] at hmem
      rw [hnone hmem.1, blockName?, hnone hmem.2]
      rfl
  cases edition with
  | basic => exact @hlookup basicRuleTable (by decide +kernel)
  | extended => exact @hlookup extendedRuleTable (by decide +kernel)

def Continues (result : Except Fault String) : Prop :=
  ∀ line, result = .ok line → isEndLine (line ++ "\n") = false

theorem Continues.ok {line : String} (h : isEndLine (line ++ "\n") = false) :
    Continues (.ok line) := by
  rintro _ ⟨⟩
  exact h

theorem Continues.map {α : Type} {result : Except Fault α} {f : α → String}
    (h : ∀ value, isEndLine (f value ++ "\n") = false) :
    Continues (do return f (← result)) := by
  cases result with
  | ok value => exact .ok (h value)
  | error fault => rintro _ ⟨⟩

theorem continues_rules (operands : Operands) :
    ∀ entry ∈ sharedRules ++ (basicRules ++ extendedRules),
      Continues (entry.2.narrate operands) := by
  simp only [sharedRules, basicRules, extendedRules, List.cons_append, List.nil_append,
    List.forall_mem_cons, List.not_mem_nil, false_implies, implies_true, and_true]
  repeat' apply And.intro
  all_goals first
    | apply Continues.ok
    | refine Continues.map fun _ => ?_
  all_goals
    simp [isEndLine, register, function, countedText, String.toList_append, List.isPrefixOf]

/-! ## Actions that leave the blocks alone -/

structure Progress.SameBlocks (progress after : Progress) : Prop where
  depth : after.depth = progress.depth
  blocks : after.blocks = progress.blocks
  ended : after.printed.filter isEndLine = progress.printed.filter isEndLine

def Calm {α : Type} (origin : Progress) (action : Linting α) : Prop :=
  Triple origin.SameBlocks (fun _ => origin.SameBlocks) (fun _ => origin.SameBlocks) action

section

variable {origin : Progress}

theorem calm_fail {α : Type} (fault : Fault) : Calm origin (fail fault : Linting α) :=
  .throw fun _ h => h

theorem calm_printLine {line : String} (h : isEndLine (line ++ "\n") = false) :
    Calm origin (printLine line) := by
  refine .modify fun progress hsame => ⟨hsame.depth, hsame.blocks, ?_⟩
  exact (List.filter_cons_of_neg (by simp [h])).trans hsame.ended

theorem calm_tell {result : Except Fault String} (h : Continues result) :
    Calm origin (ofExcept result >>= printLine) := by
  cases result with
  | ok line => exact calm_printLine (h line rfl)
  | error fault => exact calm_fail fault

theorem calm_look (count : Int) : Calm origin (look count) := by
  apply triple_look
  intro progress hsame
  exact hsame

theorem calm_take (count : Int) : Calm origin (take count) := by
  refine (calm_look count).bind fun chars => ?_
  exact fun _ h => ⟨h.depth, h.blocks, h.ended⟩

theorem calm_endNumber (alone : Bool) (found : List Char) :
    Calm origin (Journal.endNumber alone found) :=
  (calm_look 1).bind fun _ => .ite (.get fun _ => calm_fail _) (.pure _)

end

/-! ## All points of a journal -/

structure Journal.Tallied (source : List Char) (narrated : Bool) (journal : Journal) : Prop where
  now : Tally narrated journal.events journal.progress
  always : ∀ history, history <:+ journal.entries →
    Tally narrated (settled (history.map Entry.event)) (.behind source history)

def Tallies {α : Type} (source : List Char) (narrated : Bool) (action : Journaling α) : Prop :=
  Triple (Journal.Tallied source narrated) (fun _ => Journal.Tallied source narrated)
    (fun _ => Journal.Tallied source narrated) action

section

variable {α : Type} {source : List Char} {narrated : Bool} {journal : Journal} {event : Event}
variable {progress : Progress}

theorem Journal.tallied_start (source : List Char) (narrated : Bool) :
    (Journal.start source).Tallied source narrated := by
  refine ⟨tally_start narrated source, ?_⟩
  intro history hhistory
  rw [List.suffix_nil.mp hhistory]
  exact tally_start narrated source

theorem Journal.Tallied.enter (h : journal.Tallied source narrated)
    (hnow : Tally narrated (event :: journal.events) progress)
    (hsettled : Tally narrated (settled (event :: journal.events)) progress) :
    (journal.enter progress event).Tallied source narrated := by
  refine ⟨hnow, ?_⟩
  intro history hhistory
  rcases List.suffix_cons_iff.mp hhistory with rfl | hhistory
  · exact hsettled
  · exact h.always history hhistory

theorem Journal.Tallied.mark (h : journal.Tallied source narrated) (hopens : event.opens? = none)
    (hclosed : event ≠ .closed) :
    (journal.enter journal.progress event).Tallied source narrated := by
  have hnow := h.now.mark hopens hclosed
  refine h.enter hnow ?_
  cases event with
  | named mnemonic => exact h.now
  | closed => exact absurd rfl hclosed
  | read chars | lookedAhead | opened name => exact hnow

theorem tallies_plainly {action : Linting α} (h : ∀ origin, Calm origin action) :
    Tallies source narrated (plainly action) := by
  refine triple_plainly fun journal hjournal => ?_
  have hafter (after : Progress) (hsame : journal.progress.SameBlocks after) :
      Journal.Tallied source narrated ⟨after, journal.entries⟩ := by
    refine ⟨⟨?_, ?_, ?_⟩, hjournal.always⟩
    · exact hsame.depth.trans hjournal.now.depth
    · exact hsame.blocks.trans hjournal.now.blocks
    · exact hsame.ended.trans hjournal.now.ended
  exact (h journal.progress _ ⟨rfl, rfl, rfl⟩).mono (fun _ => hafter) fun _ => hafter

theorem tallies_record (hopens : event.opens? = none) (hclosed : event ≠ .closed) :
    Tallies source narrated (record event) :=
  Triple.modify fun _ h => h.mark hopens hclosed

end

/-! ## Readers -/

section

variable {source : List Char} {narrated : Bool}

theorem tallies_take (count : Int) : Tallies source narrated (Journal.take count) :=
  (tallies_plainly fun _ => calm_take count).bind fun chars =>
    (tallies_record rfl (by simp)).bind fun _ => .pure chars

theorem tallies_digit (levels : Nat) : Tallies source narrated (Journal.digit levels) := by
  induction levels with
  | zero => exact .throw fun _ h => h
  | succ levels ih =>
      refine (tallies_take 1).bind fun chars => .ite (.pure chars) (.ite ?_ ?_)
      · exact ih.bind fun found => (tallies_plainly fun _ => calm_look 1).bind fun _ => .pure found
      · exact tallies_plainly fun _ => .get fun _ => calm_fail _

theorem tallies_digitRun (levels count : Nat) (before : List Char) :
    Tallies source narrated (Journal.digitRun levels count before) := by
  induction count generalizing before with
  | zero => exact .pure before
  | succ count ih => exact (tallies_digit levels).bind fun found => ih _

theorem tallies_number (levels : Nat) (count : Int) (alone : Bool) :
    Tallies source narrated (Journal.number levels count alone) :=
  (tallies_digitRun levels count.toNat []).bind fun found =>
    tallies_plainly fun _ => calm_endNumber alone found

theorem tallies_sign (levels : Nat) : Tallies source narrated (Journal.sign levels) := by
  induction levels with
  | zero => exact .throw fun _ h => h
  | succ levels ih =>
      refine (tallies_take 1).bind fun chars => .ite (.pure chars) (.ite ih ?_)
      exact tallies_plainly fun _ => .get fun _ => calm_fail _

theorem tallies_ahead (levels : Nat) : Tallies source narrated (Journal.ahead levels) := by
  induction levels with
  | zero => exact .throw fun _ h => h
  | succ levels ih =>
      refine (tallies_take 1).bind fun chars => .ite ih ?_
      have hback (origin : Progress) : Calm origin (pushBack chars) :=
        .modify fun _ h => ⟨h.depth, h.blocks, h.ended⟩
      exact (tallies_plainly hback).bind fun _ => .pure chars

theorem tallies_readShape (levels : Nat) (shape : Shape) :
    Tallies source narrated (Journal.readShape levels shape) := by
  cases shape with
  | bare => exact .pure _
  | single => exact (tallies_number levels 1 true).bind fun _ => .pure _
  | pair =>
      refine (tallies_number levels 2 true).bind fun found => tallies_plainly fun _ => ?_
      split
      · exact .pure _
      · exact calm_fail _
  | valued count =>
      exact (tallies_number levels 1 false).bind fun _ =>
        (tallies_number levels count true).bind fun _ => .pure _
  | compared =>
      exact (tallies_number levels 1 true).bind fun _ => (tallies_sign levels).bind fun _ =>
        (tallies_number levels 1 true).bind fun _ => .pure _

theorem tallies_takeThrough (mark : List Char) (fuel : Nat) (before : List Char) :
    Tallies source narrated (Journal.takeThrough mark fuel before) := by
  induction fuel generalizing before with
  | zero => exact .throw fun _ h => h
  | succ fuel ih => exact (tallies_take 1).bind fun chars => .ite (.pure _) (ih _)

theorem tallies_checkImmediate (levels : Nat) :
    Tallies source narrated (Journal.checkImmediate levels narrated) := by
  refine (tallies_ahead levels).bind fun next => (tallies_record rfl (by simp)).bind fun _ => ?_
  refine .ite (.get fun journal => ?_) ?_
  · refine (tallies_takeThrough next _ []).bind fun chars => ?_
    refine tallies_plainly fun _ => .ite ?_ (.pure ())
    refine calm_printLine ?_
    simp [isEndLine, String.toList_append, List.isPrefixOf]
  · refine (tallies_number levels 2 true).bind fun byte => ?_
    refine tallies_plainly fun _ => .ite ?_ (.pure ())
    cases byteChar byte with
    | error fault => exact calm_fail fault
    | ok text =>
        refine calm_printLine ?_
        simp [isEndLine, String.toList_append, List.isPrefixOf]

/-! ## Mnemonics and brackets -/

theorem tallies_opener {mnemonic : List Char} {name : String} {rest : Journaling Unit}
    (hname : blockName? mnemonic = some name) (hrest : Tallies source narrated rest) :
    Tallies source narrated (record (.named mnemonic) >>= fun _ =>
      plainly (openBlock name) >>= fun _ => record (.opened name) >>= fun _ => rest) := by
  intro journal h
  let opened := { journal.progress with
    depth := journal.progress.depth + 1
    blocks := name :: journal.progress.blocks }
  have hopened : Tally narrated (.named mnemonic :: journal.events) opened := h.now.opened hname
  have hmarked : Tally narrated (.opened name :: .named mnemonic :: journal.events) opened :=
    hopened.mark rfl (by simp)
  let named := journal.enter journal.progress (.named mnemonic)
  have hafter : (named.enter opened (.opened name)).Tallied source narrated := by
    refine ⟨hmarked, ?_⟩
    intro history hhistory
    rcases List.suffix_cons_iff.mp hhistory with rfl | hhistory
    · exact hmarked
    rcases List.suffix_cons_iff.mp hhistory with rfl | hhistory
    · exact h.now
    · exact h.always history hhistory
  exact hrest _ hafter

theorem tallies_rule {edition : Edition} {mnemonic : List Char} {rule : Rule}
    (h : rule? edition mnemonic = some rule) (levels : Nat) :
    Tallies source narrated (record (.named mnemonic) >>= fun _ =>
      Journal.checkRule rule levels narrated) := by
  obtain ⟨spelling, hentry⟩ := mem_of_rule? h
  have hname := opens_rule? edition mnemonic
  rw [h, Option.bind_some] at hname
  have hread : Tallies source narrated (Journal.readShape levels rule.shape >>= fun operands =>
      plainly (if narrated then ofExcept (rule.narrate operands) >>= printLine else pure ())) :=
    (tallies_readShape levels rule.shape).bind fun operands =>
      tallies_plainly fun _ => .ite (calm_tell (continues_rules operands _ hentry)) (.pure ())
  unfold Journal.checkRule
  cases hopens : rule.opens with
  | none =>
      have hnone : Event.opens? (.named mnemonic) = none := hname.symm.trans hopens
      exact (tallies_record hnone (by simp)).bind fun _ => hread
  | some name => exact tallies_opener (hname.symm.trans hopens) hread

theorem tallies_checkMnemonic (edition : Edition) (levels : Nat) (mnemonic : List Char) :
    Tallies source narrated (Journal.checkMnemonic edition levels narrated mnemonic) := by
  have hrecord (hname : blockName? mnemonic = none) :
      Tallies source narrated (record (.named mnemonic)) := tallies_record hname (by simp)
  unfold Journal.checkMnemonic
  by_cases himmediate : mnemonic = "DPI".toList
  · rw [if_pos himmediate]
    have hname : blockName? mnemonic = none := by rw [himmediate]; rfl
    exact (hrecord hname).bind fun _ => tallies_checkImmediate levels
  rw [if_neg himmediate]
  by_cases hmessage : mnemonic = "DPM".toList ∧ edition = .extended
  · rw [if_pos hmessage]
    have hwarning : isEndLine (textWarning ++ "\n") = false := by decide +kernel
    have hname : blockName? mnemonic = none := by rw [hmessage.1]; rfl
    exact (hrecord hname).bind fun _ => tallies_plainly fun _ => calm_printLine hwarning
  rw [if_neg hmessage]
  cases hrule : rule? edition mnemonic with
  | some rule => exact tallies_rule hrule levels
  | none =>
      have hname := opens_rule? edition mnemonic
      rw [hrule] at hname
      exact (hrecord hname.symm).bind fun _ => .pure ()

theorem tallies_close : Tallies source narrated (plainly (closeBlock narrated) >>= fun _ =>
    record .closed) := by
  intro journal h
  obtain ⟨after, hclose, hafter⟩ := h.now.closed
  rw [bind_of_ok (plainly_of_ok hclose)]
  exact h.enter hafter hafter

theorem tallies_checkNext (edition : Edition) (levels : Nat) :
    Tallies source narrated (Journal.checkNext edition levels narrated) := by
  refine (tallies_plainly fun _ => calm_look 1).bind fun next => .ite ?_ (.get fun journal => ?_)
  · refine (tallies_take 1).bind fun _ => .ite ?_ (.pure true)
    have hclose := (@tallies_close source narrated).bind fun _ => Triple.pure true
    rwa [bind_assoc] at hclose
  · refine .ite (.pure false) ((tallies_take 2).bind fun two => .ite ?_ ?_)
    · exact (tallies_checkMnemonic edition levels two).bind fun _ => .pure true
    · refine (tallies_take 1).bind fun third => ?_
      exact (tallies_checkMnemonic edition levels (two ++ third)).bind fun _ => .pure true

theorem tallies_checkAll (edition : Edition) (levels fuel : Nat) :
    Tallies source narrated (Journal.checkAll edition levels narrated fuel) := by
  induction fuel with
  | zero => exact .throw fun _ h => h
  | succ fuel ih =>
      refine .get fun journal => .ite (.pure ()) ?_
      exact (tallies_checkNext edition levels).bind fun _ => .ite ih (.pure ())

end

/-! ## The last report -/

section

variable {edition : Edition} {levels : Nat} {narrated : Bool} {source : List Char}

theorem check_tallied (edition : Edition) (levels : Nat) (narrated : Bool) (source : List Char) :
    let run := Journal.check edition levels narrated (.start source)
    ∃ before, Journal.Tallied source narrated ⟨before, (journalOf run).entries⟩ ∧
      (journalOf run).progress = if stopOf run = none ∧ 0 < before.depth ∧ narrated = true
        then before.reported else before := by
  have hstart := Journal.tallied_start source narrated
  have htallies := @tallies_checkAll source narrated edition levels
    ((Progress.start source).unread + 1)
  have hcheck : Journal.check edition levels narrated (.start source) =
      (Journal.checkAll edition levels narrated ((Progress.start source).unread + 1) >>= fun _ =>
        plainly (checkClosed narrated)) (.start source) := rfl
  intro run
  cases hall : Journal.checkAll edition levels narrated ((Progress.start source).unread + 1)
      (.start source) with
  | error stop journal =>
      have hrun : run = .error stop journal := hcheck.trans (bind_of_error hall)
      have hafter : journal.Tallied source narrated := htallies.of_error hstart hall
      refine ⟨journal.progress, hrun ▸ hafter, ?_⟩
      rw [hrun]
      exact (if_neg (by rintro ⟨⟨⟩, -⟩)).symm
  | ok value journal =>
      have hafter : journal.Tallied source narrated := htallies.of_ok hstart hall
      have hrun : run = _ :=
        (hcheck.trans (bind_of_ok hall)).trans (plainly_of_ok (checkClosed_named hafter.now.named))
      refine ⟨journal.progress, hrun ▸ hafter, ?_⟩
      rw [hrun]
      by_cases hopen : 0 < journal.progress.depth ∧ narrated = true
      · exact (if_pos hopen).trans (if_pos ⟨rfl, hopen⟩).symm
      · exact (if_neg hopen).trans (if_neg fun h => hopen h.2).symm

theorem check_stop {stop : Stop} {after : Progress}
    (h : check edition levels narrated (.start source) = .error stop after) :
    Ordinary stop ∨ narrated = true ∧ stop = .fault .badEncoding := by
  by_cases hclear : narrated = true → ¬ Stumbles edition levels (.start source)
  · have hsame := check_verdict hclear
    rw [h] at hsame
    generalize hsilent : check edition levels false (.start source) = silent at hsame
    cases hsame with
    | error _ _ => exact .inl (ordinary_of_silent hsilent)
  · obtain ⟨rfl, hstumbles⟩ := Classical.not_imp.mp hclear
    obtain ⟨other, herror⟩ := check_stumbles (Classical.not_not.mp hstumbles)
    rw [h] at herror
    cases herror
    exact .inr ⟨rfl, rfl⟩

end

/-- At every point of a check the count of open blocks is the number of opened blocks less the
number of closing brackets, and there is a name for each open block.  Each line for the end of a
block names the last opened one among those that had not ended.  Only the last report of a
narrated check takes one more name out.  No name and no operand is ever missed: a check stops
where the text ends too early, at a misplaced character, at the limit of levels, and with
narration at a byte that is no character. -/
theorem check_blocks (edition : Edition) (levels : Nat) (narrated : Bool) (source : List Char) :
    let run := Journal.check edition levels narrated (.start source)
    let journal := journalOf run
    forget run = check edition levels narrated (.start source) ∧
    (∀ history, history <:+ journal.entries →
      let progress := Progress.behind source history
      Tally narrated (settled (history.map Entry.event)) progress ∧
        progress.depth ≤ progress.blocks.length) ∧
    (∃ before : Progress, Tally narrated journal.events before ∧
      before.depth ≤ before.blocks.length ∧
      journal.progress = if stopOf run = none ∧ 0 < before.depth ∧ narrated = true
        then before.reported else before) ∧
    ∀ stop, stopOf run = some stop →
      stop ≠ .fault .noBlock ∧ stop ≠ .fault .shortOperand ∧
      (stop = .tooDeep ∨ ∃ fault, stop = .fault fault ∧
        (fault.message = some "Unexpected end of bitstream" ∨ (place? stop).isSome ∨
          narrated = true ∧ fault = .badEncoding)) := by
  intro run journal
  obtain ⟨before, htallied, hlast⟩ := check_tallied edition levels narrated source
  have herases := (erases_check edition levels narrated).forget_eq (.start source)
  refine ⟨herases, ?_, ⟨before, htallied.now, htallied.now.named, hlast⟩, ?_⟩
  · intro history hhistory
    have htally := htallied.always history hhistory
    exact ⟨htally, htally.named⟩
  · intro stop hstop
    have hcheck := herases.symm.trans (congrArg forget (eq_error_of_stopOf hstop))
    rcases check_stop hcheck with (rfl | rfl | hplace) | ⟨hnarrated, rfl⟩
    · exact ⟨by simp, by simp, .inl rfl⟩
    · exact ⟨by simp, by simp, .inr ⟨_, rfl, .inl rfl⟩⟩
    · cases stop with
      | fault fault =>
          refine ⟨?_, ?_, .inr ⟨fault, rfl, .inr (.inl hplace)⟩⟩ <;>
          · rintro ⟨⟩
            cases hplace
      | exit status | tooDeep | unfinished => cases hplace
    · exact ⟨by simp, by simp, .inr ⟨_, rfl, .inr (.inr ⟨hnarrated, rfl⟩)⟩⟩

/-- The name of the open block is gone at the end. -/
theorem check_blocks_unclosed :
    (∃ after, check .basic levelLimit true (.start "REP 1 ".toList) = .ok () after ∧
      after.depth = 1 ∧ after.blocks = []) ∧
    (∃ after, check .extended levelLimit true (.start "REP 1 ".toList) = .ok () after ∧
      after.depth = 1 ∧ after.blocks = []) :=
  ⟨⟨_, rfl, rfl, rfl⟩, ⟨_, rfl, rfl, rfl⟩⟩

end BitAssembly.Lint
