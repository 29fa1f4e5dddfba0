import BitAssembly.Proofs.Machine.Execute
import BitAssembly.Proofs.Structured.Simulation

/-!
# The machine runs structured programs

The machine on the bits of a program and the interpreter on the program itself
end in the same way and leave the same behind.  The induction is on the program
for one text, and on the depth of nesting for the texts of its bodies.
-/

namespace BitAssembly.Structured

open BitAssembly.Bits
open BitAssembly.Machine
open BitAssembly.Text

variable {edition : Edition} {α β : Type}

/-! ## One text -/

theorem Tracks.ready {state : State} {session : Session} (h : Tracks edition state session) :
    session.memory.page?.isSome := by
  rw [h.memory, page?_memory]
  rfl

theorem Tracks.forward {state : State} {session : Session} (h : Tracks edition state session)
    (count : Nat) : Tracks edition state (session.forward count) :=
  ⟨h.memory, h.console, h.untraced, h.sound⟩

theorem Tracks.goesOn {state : State} {session later : Session} {bits : List Char}
    (h : Tracks edition state later) (hgoes : session.GoesOn bits)
    (hcursor : later.cursor = session.cursor) : later.GoesOn bits := by
  refine ⟨⟨h.untraced, ?_, ?_⟩, ?_⟩
  · rw [Session.reader, hcursor]
    exact hgoes.placed.nonneg
  · rw [Session.reader, hcursor]
    exact hgoes.placed.within
  · rw [hcursor]
    exact hgoes.rest

theorem agree_step {action rest : Exec Unit} {bits more : List Char} {instruction : Instruction}
    {passes fuel : Nat} {call : Body → Run Unit} {state : State} {session : Session}
    (hreads : Reads (fetch edition false true passes) bits instruction) (hbits : bits ≠ [])
    (hclose : instruction ≠ .close)
    (hacts : Simulates edition action (perform passes call instruction))
    (hrest : ∀ after later, Tracks edition after later → later.GoesOn more →
      Agree edition (fun _ => True) (rest after)
        (executeText edition false passes call fuel later))
    (htracks : Tracks edition state session) (hgoes : session.GoesOn (bits ++ more)) :
    Agree edition (fun _ => True) ((do action; rest) state)
      (executeText edition false passes call (fuel + 1) session) := by
  rw [executeText_fetch hreads hbits htracks.ready hgoes, if_neg hclose]
  refine (hacts state _ (htracks.forward bits.length)).bind ?_ fun _ _ => trivial
  intro _ after later hafter hplace
  exact hrest after later hafter (hafter.goesOn hgoes.forward hplace)

theorem Plain.instruction_ne_close (instruction : Plain) : instruction.instruction ≠ .close := by
  cases instruction <;> simp [Plain.instruction]

theorem Head.instruction_ne_close (head : Head) (body : Body) :
    head.instruction body ≠ .close := by
  cases head <;> simp [Head.instruction]

theorem Plain.operation_ne_nil (instruction : Plain) : instruction.operation ≠ [] := by
  cases instruction <;> simp [Plain.operation]

theorem agree_text {enter : Program → Exec Unit} {call : Body → Run Unit}
    (hruns : Runs edition enter call) (passes : Nat) {ending : List Char}
    (hending : ending = [] ∨ ending = ['1', '1', '0']) {program : Program}
    (hfits : program.fits edition) (houtside : program.definesOutside) {fuel : Nat} {state : State}
    {session : Session} (htracks : Tracks edition state session)
    (hgoes : session.GoesOn (program.bits edition ++ ending))
    (hfuel : (program.bits edition).length < fuel) :
    Agree edition (fun _ => True) (program.walk passes enter state)
      (executeText edition false passes call fuel session) := by
  -- What follows the program is fixed; an instruction has a bit for the unit of fuel it uses.
  induction program generalizing fuel state session with
  | done =>
      obtain ⟨fuel, rfl⟩ := Nat.exists_eq_add_one.mpr (Nat.zero_lt_of_lt hfuel)
      rcases hending with rfl | rfl
      · rw [executeText_end hgoes]
        exact .ok htracks trivial
      · rw [executeText_fetch (reads_fetch_close passes) (by simp) htracks.ready hgoes, if_pos rfl]
        exact .ok (htracks.forward 3) trivial
  | plain instruction rest ih =>
      obtain ⟨fuel, rfl⟩ := Nat.exists_eq_add_one.mpr (Nat.zero_lt_of_lt hfuel)
      simp only [Program.fits, Bool.and_eq_true] at hfits
      have hlength := List.length_pos_iff.mpr instruction.operation_ne_nil
      rw [bits_plain hfits.1] at hgoes hfuel
      simp only [List.length_append] at hfuel
      refine agree_step (reads_fetch_plain hfits.1 passes)
        (by simp [instruction.operation_ne_nil]) instruction.instruction_ne_close
        (simulates_plain hruns passes instruction) ?_ htracks
        (by simpa only [List.append_assoc] using hgoes)
      intro after later hafter hlater
      exact ih hfits.2 houtside hafter hlater (by omega)
  | block head body rest _ ih =>
      obtain ⟨fuel, rfl⟩ := Nat.exists_eq_add_one.mpr (Nat.zero_lt_of_lt hfuel)
      simp only [Program.fits, Bool.and_eq_true] at hfits
      simp only [Program.definesOutside, Bool.and_eq_true] at houtside
      rw [bits_block] at hgoes hfuel
      simp only [List.length_append, List.length_cons] at hfuel
      refine agree_step (reads_fetch_block head (spans_bodyBits hfits.1 houtside.1) passes)
        (by simp) (head.instruction_ne_close _)
        (simulates_head hruns passes head hfits.1 houtside.1) ?_ htracks
        (by simpa only [List.append_assoc] using hgoes)
      intro after later hafter hlater
      exact ih hfits.2 houtside.2 hafter hlater (by omega)

/-! ## Bodies at every depth -/

theorem Program.definesOutside_of_definesNone {program : Program} (h : program.definesNone) :
    program.definesOutside := by
  induction program with
  | done => rfl
  | plain instruction rest ih => exact ih h
  | block head body rest _ ih =>
      simp only [definesNone, Bool.and_eq_true] at h
      simp only [definesOutside, Bool.and_eq_true]
      exact ⟨h.1.2, ih h.2⟩

theorem simulates_onCursor {action : Exec Unit} {run : Run Unit} {body : List Char}
    (h : ∀ state session, Tracks edition state session → session.GoesOn body →
      session.cursor.text.size = body.length →
      Agree edition (fun _ => True) (action state) (run session)) :
    Simulates edition action (onCursor (.ofChars body.toArray) run) := by
  intro state session htracks
  have hagree := h state (session.onto body)
    ⟨htracks.memory, htracks.console, rfl, htracks.sound⟩ (session.goesOn_onto body) rfl
  rw [Session.onto] at hagree
  rw [onCursor]
  revert hagree
  generalize action state = first
  generalize run _ = second
  intro hagree
  cases hagree with
  | ok h => exact .ok ⟨h.1.memory, h.1.console, htracks.untraced, h.1.sound⟩ rfl
  | error h =>
      obtain ⟨rfl, ⟨hafter, -⟩, -⟩ := h
      exact .error ⟨hafter.memory, hafter.console, htracks.untraced, hafter.sound⟩ rfl
  | excused h => exact h.elim

theorem agree_executeAt {passes depth : Nat} {ending : List Char}
    (hending : ending = [] ∨ ending = ['1', '1', '0']) {program : Program}
    (hfits : program.fits edition) (houtside : program.definesOutside) {state : State}
    {session : Session} (htracks : Tracks edition state session)
    (hgoes : session.GoesOn (program.bits edition ++ ending))
    (hsize : session.cursor.text.size = (program.bits edition ++ ending).length) :
    Agree edition (fun _ => True) (program.runAt passes depth state)
      (executeAt edition passes depth false session) := by
  induction depth generalizing ending program state session with
  | zero => exact .error htracks trivial
  | succ depth ih =>
      -- Bodies end with a closing mark and removed functions with nothing, so the hypothesis is
      -- needed for both endings.
      have hruns : Runs edition (Program.runAt passes depth)
          (fun body => onCursor (.ofChars body) (executeAt edition passes depth false)) := by
        refine ⟨fun body hbody hnone => ?_, ?_⟩
        · rw [bodyBits_eq]
          exact simulates_onCursor fun state session htracks hgoes hsize =>
            ih (.inr rfl) hbody (Program.definesOutside_of_definesNone hnone) htracks hgoes hsize
        · exact simulates_onCursor fun state session htracks hgoes hsize =>
            ih (.inl rfl) rfl rfl htracks hgoes hsize
      refine agree_text hruns passes hending hfits houtside htracks hgoes ?_
      rw [List.length_append] at hsize
      omega

/-! ## Runs one after the other -/

structure Ending where
  stop : Option Stop
  memory : Memory
  console : Console
  deriving DecidableEq, Repr

def Ending.ofRun : EStateM.Result Stop Session Unit → Ending
  | .ok _ session => ⟨none, session.memory, session.console⟩
  | .error stop session => ⟨some stop, session.memory, session.console⟩

def Ending.ofExec (edition : Edition) : EStateM.Result Stop State Unit → Ending
  | .ok _ state => ⟨none, state.memory edition, state.console⟩
  | .error stop state => ⟨some stop, state.memory edition, state.console⟩

theorem Agree.ending {Place : Cursor → Prop} {first : EStateM.Result Stop State Unit}
    {second : EStateM.Result Stop Session Unit} (h : Agree edition Place first second) :
    Ending.ofRun second = Ending.ofExec edition first := by
  cases h with
  | ok h => rw [Ending.ofRun, Ending.ofExec, h.1.memory, h.1.console]
  | error h =>
      obtain ⟨rfl, ⟨htracks, -⟩, -⟩ := h
      rw [Ending.ofRun, Ending.ofExec, htracks.memory, htracks.console]
  | excused h => exact h.elim

def Program.admissible (edition : Edition) (program : Program) : Bool :=
  program.fits edition && program.definesOutside

structure Job where
  program : Program
  limits : Limits
  console : Console

def Job.execute (edition : Edition) (job : Job) (memory : Memory) :
    EStateM.Result Stop Session Unit :=
  Machine.execute edition job.limits false
    ⟨memory, job.console, .ofText (job.program.bits edition), false⟩

def Job.interpret (job : Job) (state : State) : EStateM.Result Stop State Unit :=
  job.program.run job.limits { state with console := job.console }

def memoryAfter (edition : Edition) (jobs : List Job) : Memory :=
  jobs.foldl (fun memory job => (Ending.ofRun (job.execute edition memory)).memory) .initial

def stateAfter (jobs : List Job) : State :=
  jobs.foldl
    (fun state job =>
      match job.interpret state with
      | .ok _ after => after
      | .error _ after => after)
    .initial

theorem ofText_bits (program : Program) :
    Cursor.ofText (program.bits edition) = .ofChars (program.bits edition).toArray :=
  Cursor.ofText_of_allBits (allBits_tokenBits (program.tokens edition))

theorem Job.agree {job : Job} (hjob : job.program.admissible edition) {state : State}
    (hsound : state.Sound edition) :
    Agree edition (fun _ => True) (job.interpret state)
      (job.execute edition (state.memory edition)) := by
  rw [Program.admissible, Bool.and_eq_true] at hjob
  have hgoes := Session.goesOn_onto ⟨state.memory edition, job.console, .ofChars #[], false⟩
    (job.program.bits edition)
  rw [Job.execute, ofText_bits]
  refine agree_executeAt (.inl rfl) hjob.1 hjob.2 ⟨rfl, rfl, rfl, hsound⟩ ?_ ?_
  · rw [List.append_nil]
    exact hgoes
  · rw [List.append_nil]
    rfl

theorem memoryAfter_eq {jobs : List Job} (hjobs : ∀ job ∈ jobs, job.program.admissible edition) :
    memoryAfter edition jobs = (stateAfter jobs).memory edition ∧
      (stateAfter jobs).Sound edition := by
  refine List.foldl_rel (r := fun memory (state : State) =>
    memory = state.memory edition ∧ state.Sound edition) ?_ ?_
  · refine ⟨rfl, fun name body hfind => ?_⟩
    cases hfind
  · rintro job hjob memory state ⟨rfl, hsound⟩
    have hagree := Job.agree (hjobs job hjob) hsound
    revert hagree
    generalize job.interpret state = first
    generalize job.execute edition (state.memory edition) = second
    intro hagree
    cases hagree with
    | ok h => exact ⟨h.1.memory, h.1.sound⟩
    | error h => exact ⟨h.2.1.1.memory, h.2.1.1.sound⟩
    | excused h => exact h.elim

/-- On a machine that ran any such programs before, with any input to come, the bits of a
program run as the program does. -/
theorem execute_bits_refines (edition : Edition) (earlier : List Job)
    (hearlier : ∀ job ∈ earlier, job.program.admissible edition) (job : Job)
    (hjob : job.program.admissible edition) :
    Ending.ofRun (job.execute edition (memoryAfter edition earlier)) =
      Ending.ofExec edition (job.interpret (stateAfter earlier)) := by
  obtain ⟨hmemory, hsound⟩ := memoryAfter_eq hearlier
  rw [hmemory]
  exact (Job.agree hjob hsound).ending

theorem execute_bits_refines_call :
    let counter : Program := .plain (.alter .increment 1) (.plain (.display .decimal 1) .done)
    let caller : Program := .plain (.write [0x6d, 0x5a] (by decide))
      (.block (.times 2) (.plain (.call 3) .done) .done)
    let first : Job := ⟨.block (.define 3) counter .done, ⟨5, 9⟩, ⟨[], []⟩⟩
    let second : Job := ⟨caller, ⟨5, 9⟩, ⟨[], ['7', '\n']⟩⟩
    (∀ job ∈ [first], job.program.admissible .extended) ∧
      second.program.admissible .extended ∧
      Ending.ofRun (second.execute .extended (memoryAfter .extended [first])) =
        Ending.ofExec .extended (second.interpret (stateAfter [first])) ∧
      (Ending.ofExec .extended (second.interpret (stateAfter [first]))).console.emitted =
        [⟨"3", false⟩, ⟨"2", false⟩, ⟨"mZ\n", false⟩] := by
  intro counter caller first second
  have hfirst : ∀ job ∈ [first], job.program.admissible .extended := by
    intro job hjob
    rw [List.mem_singleton.mp hjob]
    decide
  have hsecond : second.program.admissible .extended := by decide
  exact ⟨hfirst, hsecond, execute_bits_refines .extended [first] hfirst second hsecond,
    by decide +kernel⟩

end BitAssembly.Structured
