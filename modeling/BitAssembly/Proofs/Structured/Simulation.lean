import BitAssembly.Proofs.Machine.Session
import BitAssembly.Proofs.Structured.Fetching
import BitAssembly.Proofs.Structured.Interpreter

/-!
# Performing an instruction and acting on its structured form

A state of the interpreter stands for a memory in which every function is
written out in bits.  Performing an instruction on that memory and acting on
the state end in the same way, in a memory and a state that again belong
together.
-/

namespace BitAssembly.Structured

open BitAssembly.Bits
open BitAssembly.Machine
open BitAssembly.Text

variable {edition : Edition} {α β : Type}

/-! ## The memory of a state -/

def entryBody (edition : Edition) : Option Program → Body
  | none => #[]
  | some body => (body.bodyBits edition).toArray

def writeEntry (edition : Edition) (entry : Name × Option Program) : Int × Body :=
  ((entry.1 : Nat), entryBody edition entry.2)

def State.memory (edition : Edition) (state : State) : Memory :=
  ⟨state.pages, (state.page : Nat), state.stack, state.functions.map (writeEntry edition)⟩

theorem find?_writeEntry (functions : SortedTable Name (Option Program)) (name : Name) :
    SortedTable.find? (functions.map (writeEntry edition)) ((name : Nat) : Int) =
      (functions.find? name).map (entryBody edition) := by
  induction functions with
  | nil => rfl
  | cons entry rest ih =>
      have hname : ((name : Nat) : Int) = ((entry.1 : Nat) : Int) ↔ name = entry.1 := by
        rw [Int.natCast_inj, Fin.val_inj]
      rw [List.map_cons, SortedTable.find?_cons, SortedTable.find?_cons, ih, writeEntry]
      simp only [hname]
      split <;> rfl

theorem insert_writeEntry (functions : SortedTable Name (Option Program)) (name : Name)
    (body : Option Program) :
    (functions.insert name body).map (writeEntry edition) =
      SortedTable.insert (functions.map (writeEntry edition)) ((name : Nat) : Int)
        (entryBody edition body) := by
  induction functions with
  | nil => rfl
  | cons entry rest ih =>
      have hname : ((name : Nat) : Int) = ((entry.1 : Nat) : Int) ↔ name = entry.1 := by
        rw [Int.natCast_inj, Fin.val_inj]
      have horder : ((name : Nat) : Int) < ((entry.1 : Nat) : Int) ↔ name < entry.1 := by
        rw [Int.ofNat_lt, Fin.lt_def]
      rw [List.map_cons, SortedTable.insert, SortedTable.insert]
      simp only [writeEntry, hname, horder]
      split
      · rfl
      · split
        · rfl
        · rw [List.map_cons, ih]
          rfl

@[simp] theorem page?_memory (state : State) : (state.memory edition).page? = some state.page :=
  index?_natCast state.page.isLt

theorem register?_memory (state : State) (register : Register) :
    (state.memory edition).register? ((register : Nat) : Int) = some (state.read register) := by
  rw [Memory.register?, page?_memory, index?_natCast register.isLt]
  rfl

theorem store_memory (state : State) (register : Register) (value : Int) :
    (state.memory edition).store ((register : Nat) : Int) value =
      .ok ((state.write register value).memory edition) := by
  rw [Memory.store, page?_memory, index?_natCast register.isLt]
  rfl

/-! ## Results that belong together -/

/-- Every function is a program of the edition that defines no function itself. -/
def State.Sound (edition : Edition) (state : State) : Prop :=
  ∀ name body, state.functions.find? name = some (some body) →
    body.fits edition ∧ body.definesNone

structure Tracks (edition : Edition) (state : State) (session : Session) : Prop where
  memory : session.memory = state.memory edition
  console : session.console = state.console
  untraced : session.traced = false
  sound : state.Sound edition

def TracksAt (edition : Edition) (Place : Cursor → Prop) (state : State) (session : Session) :
    Prop :=
  Tracks edition state session ∧ Place session.cursor

def Agree (edition : Edition) (Place : Cursor → Prop) :
    EStateM.Result Stop State α → EStateM.Result Stop Session α → Prop :=
  InAccord (TracksAt edition Place) (fun _ => True) (fun _ => False)

section

variable {Place Later : Cursor → Prop} {state : State} {session : Session}

theorem Agree.ok {value : α} (htracks : Tracks edition state session)
    (hplace : Place session.cursor) : Agree edition Place (.ok value state) (.ok value session) :=
  Related.ok ⟨htracks, hplace⟩

theorem Agree.error {stop : Stop} (htracks : Tracks edition state session)
    (hplace : Place session.cursor) :
    Agree edition Place (.error stop state : EStateM.Result Stop State α) (.error stop session) :=
  Related.error ⟨rfl, ⟨htracks, hplace⟩, trivial⟩

theorem Agree.bind {action : Exec α} {run : Run α} {next : α → Exec β} {proceed : α → Run β}
    (hfirst : Agree edition Place (action state) (run session))
    (hnext : ∀ value after later, Tracks edition after later → Place later.cursor →
      Agree edition Later (next value after) (proceed value later))
    (hlater : ∀ cursor, Place cursor → Later cursor) :
    Agree edition Later ((action >>= next) state) ((run >>= proceed) session) := by
  have hwide : Related (fun _ => TracksAt edition Place)
      (Jointly (TracksAt edition Later) fun _ => True) (fun _ => False)
      (action state) (run session) := by
    refine Related.mono hfirst (fun _ _ _ h => h) ?_ fun _ => id
    rintro stop _ after later ⟨rfl, ⟨htracks, hplace⟩, -⟩
    exact ⟨rfl, ⟨htracks, hlater _ hplace⟩, trivial⟩
  exact hwide.bind fun value after later _ h => hnext value after later h.1 h.2

end

/-- The action of the machine does what the interpreter does, and stays in its place. -/
def Simulates (edition : Edition) (action : Exec α) (run : Run α) : Prop :=
  ∀ state session, Tracks edition state session →
    Agree edition (· = session.cursor) (action state) (run session)

namespace Simulates

theorem pure (value : α) : Simulates edition (Pure.pure value) (Pure.pure value) := by
  intro state session htracks
  exact .ok htracks rfl

theorem throw (stop : Stop) :
    Simulates edition (MonadExcept.throw stop : Exec α) (MonadExcept.throw stop) := by
  intro state session htracks
  exact .error htracks rfl

theorem bind {action : Exec α} {run : Run α} {next : α → Exec β} {proceed : α → Run β}
    (hfirst : Simulates edition action run)
    (hnext : ∀ value, Simulates edition (next value) (proceed value)) :
    Simulates edition (action >>= next) (run >>= proceed) := by
  intro state session htracks
  refine (hfirst state session htracks).bind (fun value after later hafter hplace => ?_)
    fun _ h => h
  have hagree := hnext value after later hafter
  rw [hplace] at hagree
  exact hagree

end Simulates

theorem simulates_modify {change : State → State} {update : Session → Session}
    (h : ∀ state session, Tracks edition state session →
      Tracks edition (change state) (update session) ∧ (update session).cursor = session.cursor) :
    Simulates edition (modify change) (modify update) := by
  intro state session htracks
  obtain ⟨hafter, hplace⟩ := h state session htracks
  exact .ok hafter hplace

/-! ## Single operations -/

theorem simulates_look (register : Register) :
    Simulates edition (look register) (getRegister ((register : Nat) : Int)) := by
  intro state session htracks
  rw [getRegister_apply, htracks.memory, register?_memory]
  exact .ok htracks rfl

theorem simulates_assign (register : Register) (value : Int) :
    Simulates edition (assign register value) (setRegister ((register : Nat) : Int) value) := by
  intro state session htracks
  rw [setRegister_apply, htracks.memory, store_memory]
  exact .ok ⟨rfl, htracks.console, htracks.untraced, htracks.sound⟩ rfl

theorem simulates_say (text : String) : Simulates edition (say text) (print text) := by
  apply simulates_modify
  intro state session htracks
  refine ⟨⟨htracks.memory, ?_, htracks.untraced, htracks.sound⟩, rfl⟩
  simp only [htracks.console]

theorem simulates_orFault (result : Except Fault α) :
    Simulates edition (orFault result) (ofExcept result) := by
  cases result with
  | ok value => exact Simulates.pure value
  | error fault => exact Simulates.throw (.fault fault)

theorem simulates_push (value : Nat) :
    Simulates edition (modify fun state => { state with stack := value :: state.stack })
      (push value) := by
  apply simulates_modify
  intro state session htracks
  refine ⟨⟨?_, htracks.console, htracks.untraced, htracks.sound⟩, rfl⟩
  simp only [htracks.memory, State.memory]

theorem simulates_takeTop : Simulates edition takeTop pop := by
  intro state session htracks
  have hstack : session.memory.stack = state.stack := by rw [htracks.memory, State.memory]
  rw [pop_apply, takeTop_apply, hstack]
  cases state.stack with
  | nil => exact .error htracks rfl
  | cons value rest =>
      refine .ok ⟨?_, htracks.console, htracks.untraced, htracks.sound⟩ rfl
      simp only [htracks.memory, State.memory]

theorem simulates_nextLine (prompt : String) :
    Simulates edition (nextLine prompt) (askLine prompt) := by
  intro state session htracks
  rw [askLine_apply, nextLine_apply, htracks.console]
  cases takeLine? state.console.input with
  | none => exact .error ⟨htracks.memory, rfl, htracks.untraced, htracks.sound⟩ rfl
  | some pair => exact .ok ⟨htracks.memory, rfl, htracks.untraced, htracks.sound⟩ rfl

theorem Sound.insert {state : State} (h : state.Sound edition) (name : Name)
    {entry : Option Program}
    (hentry : ∀ body, entry = some body → body.fits edition ∧ body.definesNone) :
    ({ state with functions := state.functions.insert name entry } : State).Sound edition := by
  intro sought body hfind
  rw [SortedTable.find?_insert] at hfind
  by_cases hsought : sought = name
  · rw [if_pos hsought, Option.some.injEq] at hfind
    exact hentry body hfind
  · rw [if_neg hsought] at hfind
    exact h sought body hfind

theorem simulates_bindName (name : Name) {entry : Option Program}
    (hentry : ∀ body, entry = some body → body.fits edition ∧ body.definesNone) :
    Simulates edition (bindName name entry)
      (define ((name : Nat) : Int) (entryBody edition entry)) := by
  apply simulates_modify
  intro state session htracks
  refine ⟨⟨?_, htracks.console, htracks.untraced, Sound.insert htracks.sound name hentry⟩, rfl⟩
  simp only [htracks.memory, State.memory, insert_writeEntry]

theorem simulates_selectPage (page : Fin 8) :
    Simulates edition (modify fun state => { state with page := page })
      (selectPage ((page : Nat) : Int)) := by
  apply simulates_modify
  intro state session htracks
  refine ⟨⟨?_, htracks.console, htracks.untraced, htracks.sound⟩, rfl⟩
  simp only [htracks.memory, State.memory]

theorem simulates_change (change : Change) (register : Register) :
    Simulates edition (change.act register) (alter change.alteration ((register : Nat) : Int)) := by
  refine (simulates_look register).bind fun value => ?_
  cases change with
  | increment => exact simulates_assign register _
  | decrement => exact simulates_assign register _
  | clear => exact simulates_assign register _
  | restore => exact simulates_assign register _
  | push => exact (simulates_push value).bind fun _ => simulates_assign register _
  | pop => exact simulates_takeTop.bind fun top => simulates_assign register top

theorem simulates_compute (operation : Operation) (target source : Register) :
    Simulates edition
      (do
        let left ← look target
        let right ← look source
        assign target (operation.result left right))
      (compute operation.arithmetic ((target : Nat) : Int) ((source : Nat) : Int)) := by
  refine (simulates_look target).bind fun left => (simulates_look source).bind fun right => ?_
  have hresult : operation.arithmetic.apply left right = operation.result left right := by
    cases operation <;> rfl
  rw [hresult]
  exact simulates_assign target _

theorem simulates_form (form : Form) (value : Nat) :
    Simulates edition (form.act value) (display form.format value) := by
  cases form with
  | character => exact (simulates_orFault _).bind fun c => simulates_say _
  | decimal => exact simulates_say _
  | hexadecimal => exact simulates_say _

theorem displayedChar_byte (byte : UInt8) :
    displayedChar byte.toNat = .ok (Char.ofNat byte.toNat) := by
  have hbyte := byte.toNat_lt
  rw [displayedChar, if_neg (by omega), if_neg (by omega), if_neg (by omega), Int.toNat_natCast]

theorem simulates_displayByte (byte : UInt8) :
    Simulates edition (say (String.singleton (Char.ofNat byte.toNat)))
      (display .character byte.toNat) := by
  intro state session htracks
  have hsay := simulates_say (String.singleton (Char.ofNat byte.toNat)) state session htracks
  change Agree edition _ _ (EStateM.bind (ofExcept (displayedChar byte.toNat)) _ session)
  rw [displayedChar_byte]
  exact hsay

theorem simulates_write (bytes : List UInt8) :
    Simulates edition
      (match String.fromUTF8? ⟨bytes.toArray⟩ with
      | some text => say (text ++ "\n")
      | none => throw (.fault .badEncoding))
      (write bytes) := by
  rw [write]
  cases String.fromUTF8? ⟨bytes.toArray⟩ with
  | some text => exact simulates_say _
  | none => exact Simulates.throw _

theorem simulates_ask (decimal : Bool) (register : Register) :
    Simulates edition
      (do
        let line ← nextLine (if decimal then "dec> " else "hex> ")
        assign register (← orFault (parseInt (if decimal then 10 else 16) line)))
      (ask (if decimal then 10 else 16) ((register : Nat) : Int)) := by
  have hprompt : askPrompt (if decimal then 10 else 16) = if decimal then "dec> " else "hex> " := by
    cases decimal <;> rfl
  rw [ask, hprompt]
  exact (simulates_nextLine _).bind fun line =>
    (simulates_orFault _).bind fun value => simulates_assign register value

theorem simulates_holds (condition : Condition) :
    Simulates edition condition.holds condition.test.holds := by
  refine (simulates_look condition.left).bind fun left =>
    (simulates_look condition.right).bind fun right => ?_
  have hholds : condition.test.comparison.holds left right =
      condition.relation.holds left right := by
    rw [Condition.test]
    cases condition.relation with
    | equal => exact beq_eq_decide left right
    | atMost => rfl
    | atLeast => rfl
    | differ => exact (decide_not.trans (congrArg _ (beq_eq_decide left right).symm)).symm
  rw [hholds]
  exact Simulates.pure _

/-! ## Loops -/

theorem simulates_repeatTimes {action : Exec Unit} {run : Run Unit}
    (hbody : Simulates edition action run) (turns : List Nat) :
    Simulates edition (turns.forM fun _ => action) (repeatTimes run turns.length) := by
  induction turns with
  | nil => exact Simulates.pure ()
  | cons turn turns ih => exact hbody.bind fun _ => ih

theorem simulates_countFrom {action : Exec Unit} {run : Run Unit}
    (hbody : Simulates edition action run) (register : Register) (next count : Nat) :
    Simulates edition
      ((List.range' next count).forM fun number => do
        assign register (number : Nat)
        action)
      (countFrom run ((register : Nat) : Int) next count) := by
  induction count generalizing next with
  | zero => exact Simulates.pure ()
  | succ count ih =>
      rw [List.range'_succ, List.forM, bind_assoc]
      exact (simulates_assign register _).bind fun _ => hbody.bind fun _ => ih (next + 1)

theorem simulates_repeatWhile {action : Exec Unit} {run : Run Unit}
    (hbody : Simulates edition action run) (condition : Condition) (passes : Nat) :
    Simulates edition (loopWhile condition action passes)
      (repeatWhile condition.test run passes) := by
  induction passes with
  | zero => exact Simulates.throw .unfinished
  | succ passes ih =>
      refine (simulates_holds condition).bind fun holds => ?_
      cases holds with
      | true => exact hbody.bind fun _ => ih
      | false => exact Simulates.pure ()

/-! ## Instructions -/

/-- Bodies and functions are run alike, a removed function as a text without bits. -/
structure Runs (edition : Edition) (enter : Program → Exec Unit) (call : Body → Run Unit) :
    Prop where
  body : ∀ program : Program, program.fits edition → program.definesNone →
    Simulates edition (enter program) (call (program.bodyBits edition).toArray)
  removed : Simulates edition (enter .done) (call #[])

variable {enter : Program → Exec Unit} {call : Body → Run Unit}

theorem simulates_call (hruns : Runs edition enter call) (passes : Nat) (name : Name) :
    Simulates edition ((Plain.call name).act enter)
      (perform passes call (.call ((name : Nat) : Int))) := by
  intro state session htracks
  have hfind : session.memory.functions.find? ((name : Nat) : Int) =
      (state.functions.find? name).map (entryBody edition) := by
    rw [htracks.memory]
    exact find?_writeEntry state.functions name
  rw [act_call_apply, perform_call_apply, hfind]
  cases hentry : state.functions.find? name with
  | none => exact .ok htracks rfl
  | some entry =>
      cases entry with
      | none => exact hruns.removed state session htracks
      | some body =>
          obtain ⟨hfits, hnone⟩ := htracks.sound name body hentry
          exact hruns.body body hfits hnone state session htracks

theorem simulates_plain (hruns : Runs edition enter call) (passes : Nat) (instruction : Plain) :
    Simulates edition (instruction.act enter) (perform passes call instruction.instruction) := by
  cases instruction with
  | pause => exact Simulates.pure ()
  | alter change register => exact simulates_change change register
  | selectPage page => exact simulates_selectPage page
  | compute operation target source => exact simulates_compute operation target source
  | load width target value => exact simulates_assign target _
  | display form register =>
      exact (simulates_look register).bind fun value => simulates_form form value
  | displayByte byte => exact simulates_displayByte byte
  | undefine name => exact simulates_bindName name (by simp)
  | call name => exact simulates_call hruns passes name
  | write bytes fits => exact simulates_write bytes
  | exit failed => exact Simulates.throw _
  | ask decimal register => exact simulates_ask decimal register

theorem simulates_head (hruns : Runs edition enter call) (passes : Nat) (head : Head)
    {body : Program} (hfits : body.fits edition) (hnone : body.definesNone) :
    Simulates edition (head.act passes enter body)
      (perform passes call (head.instruction (body.bodyBits edition).toArray)) := by
  have hbody := hruns.body body hfits hnone
  cases head with
  | onlyIf condition =>
      refine (simulates_holds condition).bind fun holds => ?_
      cases holds with
      | true => exact hbody
      | false => exact Simulates.pure ()
  | whileTrue condition => exact simulates_repeatWhile hbody condition passes
  | times register =>
      refine (simulates_look register).bind fun count => ?_
      have hturns := simulates_repeatTimes hbody (List.range count)
      rw [List.length_range] at hturns
      exact hturns
  | count register limit => exact simulates_countFrom hbody register 1 limit.toNat
  | countTo register limit =>
      exact (simulates_look limit).bind fun count => simulates_countFrom hbody register 1 count
  | define name =>
      refine simulates_bindName name fun program hprogram => ?_
      cases hprogram
      exact ⟨hfits, hnone⟩

end BitAssembly.Structured
