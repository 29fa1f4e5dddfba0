import BitAssembly.Proofs.Lint.Unread

/-!
# The journal of a check

A check that writes down what it does: each read, each mnemonic, each look-ahead for
the operand of an immediate display, and each block that it opens or closes, with
the progress behind it.  Without its journal it is the check.
-/

namespace BitAssembly.Lint

inductive Event where
  | read (chars : List Char)
  | named (mnemonic : List Char)
  /-- The first character of an immediate operand has been found and put back. -/
  | lookedAhead
  | opened (name : String)
  | closed
deriving DecidableEq, Repr

structure Entry where
  event : Event
  progress : Progress
deriving DecidableEq, Repr

structure Journal where
  progress : Progress
  /-- Newest first. -/
  entries : List Entry
deriving DecidableEq, Repr

def Journal.start (source : List Char) : Journal :=
  ⟨.start source, []⟩

abbrev Journaling := EStateM Stop Journal

def plainly {α : Type} (action : Linting α) : Journaling α := fun journal =>
  match action journal.progress with
  | .ok value progress => .ok value { journal with progress := progress }
  | .error stop progress => .error stop { journal with progress := progress }

def record (event : Event) : Journaling Unit :=
  modify fun journal =>
    { journal with entries := ⟨event, journal.progress⟩ :: journal.entries }

section

variable {α : Type} {action : Linting α} {journal : Journal} {after : Progress}

theorem plainly_of_ok {value : α} (h : action journal.progress = .ok value after) :
    plainly action journal = .ok value { journal with progress := after } := by
  simp only [plainly, h]

theorem plainly_of_error {stop : Stop} (h : action journal.progress = .error stop after) :
    plainly action journal = .error stop { journal with progress := after } := by
  simp only [plainly, h]

theorem triple_plainly {Pre : Journal → Prop} {Post : α → Journal → Prop}
    {Fail : Stop → Journal → Prop}
    (h : ∀ journal, Pre journal → Concludes (fun value after => Post value ⟨after, journal.entries⟩)
      (fun stop after => Fail stop ⟨after, journal.entries⟩) (action journal.progress)) :
    Triple Pre Post Fail (plainly action) := by
  intro journal hjournal
  have hresult := h journal hjournal
  unfold plainly
  revert hresult
  generalize action journal.progress = result
  intro hresult
  cases result with
  | ok value after => exact hresult
  | error stop after => exact hresult

end

/-! ## A check with a journal -/

namespace Journal

def take (count : Int) : Journaling (List Char) := do
  let chars ← plainly (Lint.take count)
  record (.read chars)
  return chars

def digit : Nat → Journaling (List Char)
  | 0 => throw .tooDeep
  | levels + 1 => do
      let chars ← take 1
      if among digits chars then return chars
      else if isFiller chars then
        let found ← digit levels
        let _ ← plainly (look 1)
        return found
      else
        plainly do
          let (line, column) := (← get).last
          fail (.notNumber line column)

def digitRun (levels : Nat) : Nat → List Char → Journaling (List Char)
  | 0, before => return before
  | count + 1, before => do
      let found ← digit levels
      digitRun levels count (before ++ found)

def endNumber (alone : Bool) (found : List Char) : Linting (List Char) := do
  let next ← look 1
  if among digits next && alone then
    let progress ← get
    fail (.extraNumber progress.line progress.column)
  else return found

def number (levels : Nat) (count : Int) (alone : Bool) : Journaling (List Char) := do
  let found ← digitRun levels count.toNat []
  plainly (endNumber alone found)

def sign : Nat → Journaling (List Char)
  | 0 => throw .tooDeep
  | levels + 1 => do
      let chars ← take 1
      if among signs chars then return chars
      else if isFiller chars then sign levels
      else
        plainly do
          let (line, column) := (← get).last
          fail (.notComparison line column)

def ahead : Nat → Journaling (List Char)
  | 0 => throw .tooDeep
  | levels + 1 => do
      let chars ← take 1
      if isFiller chars then ahead levels
      else
        plainly (pushBack chars)
        return chars

def readShape (levels : Nat) : Shape → Journaling Operands
  | .bare => return ⟨[], [], []⟩
  | .single => return ⟨← number levels 1 true, [], []⟩
  | .pair => do
      let found ← number levels 2 true
      plainly do
        match found with
        | [first, second] => return ⟨[first], [], [second]⟩
        | _ => fail .shortOperand
  | .valued count => do
      let first ← number levels 1 false
      return ⟨first, [], ← number levels count true⟩
  | .compared => do
      let first ← number levels 1 true
      let sign ← sign levels
      return ⟨first, sign, ← number levels 1 true⟩

def checkRule (rule : Rule) (levels : Nat) (narrated : Bool) : Journaling Unit := do
  match rule.opens with
  | some name =>
      plainly (openBlock name)
      record (.opened name)
  | none => pure ()
  let operands ← readShape levels rule.shape
  plainly do
    if narrated then printLine (← ofExcept (rule.narrate operands))

def takeThrough (mark : List Char) : Nat → List Char → Journaling (List Char)
  | 0, _ => throw .unfinished
  | fuel + 1, before => do
      let chars ← take 1
      if chars = mark then return (chars.reverse ++ before).reverse
      else takeThrough mark fuel (chars.reverse ++ before)

def checkImmediate (levels : Nat) (narrated : Bool) : Journaling Unit := do
  let next ← ahead levels
  record .lookedAhead
  if next = ['\x22'] ∨ next = ['\x27'] then
    let chars ← takeThrough next ((← get).progress.unread + 1) []
    plainly do
      if narrated then printLine ("Print immediate \"" ++ String.ofList chars ++ "\"")
  else
    let byte ← number levels 2 true
    plainly do
      if narrated then
        let text ← ofExcept (byteChar byte)
        printLine ("Print immediate 0x" ++ String.ofList byte ++ " (" ++ text ++ ")")

def checkMnemonic (edition : Edition) (levels : Nat) (narrated : Bool) (mnemonic : List Char) :
    Journaling Unit := do
  record (.named mnemonic)
  if mnemonic = "DPI".toList then checkImmediate levels narrated
  else if mnemonic = "DPM".toList ∧ edition = .extended then plainly (printLine textWarning)
  else
    match rule? edition mnemonic with
    | some rule => checkRule rule levels narrated
    | none => pure ()

def checkNext (edition : Edition) (levels : Nat) (narrated : Bool) : Journaling Bool := do
  let next ← plainly (look 1)
  if isFiller next then
    let _ ← take 1
    if next = [']'] then
      plainly (closeBlock narrated)
      record .closed
    return true
  else
    let progress := (← get).progress
    if progress.cursor.pos + 3 > progress.cursor.text.size then return false
    let two ← take 2
    if two = "IF".toList then checkMnemonic edition levels narrated two
    else
      let third ← take 1
      checkMnemonic edition levels narrated (two ++ third)
    return true

def checkAll (edition : Edition) (levels : Nat) (narrated : Bool) : Nat → Journaling Unit
  | 0 => throw .unfinished
  | fuel + 1 => do
      if (← get).progress.cursor.atEnd then return
      if ← checkNext edition levels narrated then checkAll edition levels narrated fuel

def check (edition : Edition) (levels : Nat) (narrated : Bool) : Journaling Unit := do
  let progress := (← get).progress
  checkAll edition levels narrated (progress.unread + 1)
  plainly (checkClosed narrated)

end Journal

/-! ## Without the journal -/

variable {α β : Type}

def forget : EStateM.Result Stop Journal α → EStateM.Result Stop Progress α
  | .ok value journal => .ok value journal.progress
  | .error stop journal => .error stop journal.progress

/-- The first action does what the second does, and keeps a journal. -/
def Erases (journaled : Journaling α) (plain : Linting α) : Prop :=
  Concur (fun (journal : Journal) progress => progress = journal.progress) (fun _ => True)
    (fun _ => False) journaled plain

theorem Erases.forget_eq {journaled : Journaling α} {plain : Linting α} (h : Erases journaled plain)
    (journal : Journal) : forget (journaled journal) = plain journal.progress := by
  have hrelated := h journal journal.progress rfl
  revert hrelated
  generalize journaled journal = result
  generalize plain journal.progress = other
  intro hrelated
  cases hrelated with
  | ok h => rw [forget, h]
  | error h => rw [forget, h.1, h.2.1]
  | excused h => exact h.elim

theorem erases_plainly (action : Linting α) : Erases (plainly action) action := by
  rintro journal _ rfl
  cases hresult : action journal.progress with
  | ok value after =>
      rw [plainly_of_ok hresult]
      exact .ok rfl
  | error stop after =>
      rw [plainly_of_error hresult]
      exact .error ⟨rfl, rfl, trivial⟩

theorem erases_record {next : Journaling β} {later : Linting β} (event : Event)
    (h : Erases next later) : Erases (record event >>= fun _ => next) later :=
  fun journal => h { journal with entries := ⟨event, journal.progress⟩ :: journal.entries }

theorem erases_get {next : Journal → Journaling β} {later : Progress → Linting β}
    (h : ∀ journal, Erases (next journal) (later journal.progress)) :
    Erases (get >>= next) (get >>= later) := by
  rintro journal _ rfl
  exact h journal journal _ rfl

theorem erases_take (count : Int) : Erases (Journal.take count) (take count) := by
  have hrecord (chars : List Char) : Erases (record (.read chars) >>= fun _ => pure chars)
      (pure chars) := erases_record _ (.pure chars)
  have hbind := (erases_plainly (take count)).bind hrecord
  rwa [bind_pure] at hbind

theorem erases_digit (levels : Nat) : Erases (Journal.digit levels) (digit levels) := by
  induction levels with
  | zero => exact .throw trivial
  | succ levels ih =>
      refine (erases_take 1).bind fun chars => .ite (.pure chars) (.ite ?_ (erases_plainly _))
      exact ih.bind fun found => (erases_plainly (look 1)).bind fun _ => .pure found

theorem erases_digitRun (levels count : Nat) (before : List Char) :
    Erases (Journal.digitRun levels count before) (digitRun levels count before) := by
  induction count generalizing before with
  | zero => exact .pure before
  | succ count ih => exact (erases_digit levels).bind fun found => ih _

theorem erases_number (levels : Nat) (count : Int) (alone : Bool) :
    Erases (Journal.number levels count alone) (number levels count alone) :=
  (erases_digitRun levels count.toNat []).bind fun _ => erases_plainly _

theorem erases_sign (levels : Nat) : Erases (Journal.sign levels) (sign levels) := by
  induction levels with
  | zero => exact .throw trivial
  | succ levels ih =>
      exact (erases_take 1).bind fun chars => .ite (.pure chars) (.ite ih (erases_plainly _))

theorem erases_ahead (levels : Nat) : Erases (Journal.ahead levels) (solid false levels) := by
  induction levels with
  | zero => exact .throw trivial
  | succ levels ih =>
      refine (erases_take 1).bind fun chars => .ite ih ?_
      exact (erases_plainly (pushBack chars)).bind fun _ => .pure chars

theorem solids_false (levels : Nat) (count : Int) :
    solids levels count false = solid false levels := by
  change (solid false levels >>= fun found => pure ([] ++ found)) = _
  simp

theorem erases_readShape (levels : Nat) (shape : Shape) :
    Erases (Journal.readShape levels shape) (shape.read levels) := by
  cases shape with
  | bare => exact .pure _
  | single => exact (erases_number levels 1 true).bind fun _ => .pure _
  | pair => exact (erases_number levels 2 true).bind fun _ => erases_plainly _
  | valued count =>
      exact (erases_number levels 1 false).bind fun _ =>
        (erases_number levels count true).bind fun _ => .pure _
  | compared =>
      exact (erases_number levels 1 true).bind fun _ => (erases_sign levels).bind fun _ =>
        (erases_number levels 1 true).bind fun _ => .pure _

theorem erases_checkRule (rule : Rule) (levels : Nat) (narrated : Bool) :
    Erases (Journal.checkRule rule levels narrated) (rule.check levels narrated) := by
  have hread := (erases_readShape levels rule.shape).bind fun operands =>
    erases_plainly (if narrated then ofExcept (rule.narrate operands) >>= printLine else pure ())
  unfold Journal.checkRule Rule.check
  cases rule.opens with
  | none => exact hread
  | some name =>
      refine (erases_plainly (openBlock name)).bind fun _ => ?_
      exact erases_record _ hread

theorem erases_takeThrough (mark : List Char) (fuel : Nat) (before : List Char) :
    Erases (Journal.takeThrough mark fuel before) (takeThrough mark fuel before) := by
  induction fuel generalizing before with
  | zero => exact .throw trivial
  | succ fuel ih => exact (erases_take 1).bind fun chars => .ite (.pure _) (ih _)

theorem erases_checkImmediate (levels : Nat) (narrated : Bool) :
    Erases (Journal.checkImmediate levels narrated) (checkImmediate levels narrated) := by
  unfold checkImmediate
  rw [solids_false]
  refine (erases_ahead levels).bind fun next => ?_
  refine erases_record _ (.ite (erases_get fun journal => ?_) ?_)
  · exact (erases_takeThrough next (journal.progress.unread + 1) []).bind fun _ => erases_plainly _
  · exact (erases_number levels 2 true).bind fun _ => erases_plainly _

theorem erases_checkMnemonic (edition : Edition) (levels : Nat) (narrated : Bool)
    (mnemonic : List Char) :
    Erases (Journal.checkMnemonic edition levels narrated mnemonic)
      (checkMnemonic edition levels narrated mnemonic) := by
  refine erases_record _ (.ite (erases_checkImmediate levels narrated) (.ite (erases_plainly _) ?_))
  cases rule? edition mnemonic with
  | none => exact .pure ()
  | some rule => exact erases_checkRule rule levels narrated

theorem erases_checkNext (edition : Edition) (levels : Nat) (narrated : Bool) :
    Erases (Journal.checkNext edition levels narrated) (checkNext edition levels narrated) := by
  refine (erases_plainly (look 1)).bind fun next => .ite ?_ (erases_get fun journal => ?_)
  · refine (erases_take 1).bind fun _ => .ite ?_ (.pure true)
    exact (erases_plainly (closeBlock narrated)).bind fun _ => erases_record _ (.pure true)
  · refine .ite (.pure false) ((erases_take 2).bind fun two => .ite ?_ ?_)
    · exact (erases_checkMnemonic edition levels narrated two).bind fun _ => .pure true
    · refine (erases_take 1).bind fun third => ?_
      exact (erases_checkMnemonic edition levels narrated (two ++ third)).bind fun _ => .pure true

theorem erases_checkAll (edition : Edition) (levels : Nat) (narrated : Bool) (fuel : Nat) :
    Erases (Journal.checkAll edition levels narrated fuel)
      (checkAll edition levels narrated fuel) := by
  induction fuel with
  | zero => exact .throw trivial
  | succ fuel ih =>
      refine erases_get fun journal => .ite (.pure ()) ?_
      exact (erases_checkNext edition levels narrated).bind fun _ => .ite ih (.pure ())

theorem erases_check (edition : Edition) (levels : Nat) (narrated : Bool) :
    Erases (Journal.check edition levels narrated) (check edition levels narrated) := by
  refine erases_get fun journal => ?_
  exact (erases_checkAll edition levels narrated _).bind fun _ => erases_plainly _

end BitAssembly.Lint
