import BitAssembly.Proofs.Machine.Moments
import BitAssembly.Proofs.Structured.Lines
import BitAssembly.Proofs.Text.Numbers

/-!
# Numbers through the console

A register is displayed in decimal or hexadecimal, and asked for in the same way.  A
machine that is given a number as it was displayed stores the number, since no
register is ever negative or has more than 32 bits.
-/

namespace BitAssembly.Structured

open BitAssembly.Machine
open BitAssembly.Text

variable {edition : Edition} {limits : Limits} {session : Session} {memory : Memory} {page : Fin 8}
variable {decimal : Bool}

def numberForm (decimal : Bool) : Form :=
  if decimal then .decimal else .hexadecimal

def radixOf (decimal : Bool) : Nat :=
  if decimal then 10 else 16

def shownNumber (decimal : Bool) (value : Nat) : String :=
  if decimal then toString (value : Int) else upperHex value

theorem parseInt_shownNumber (decimal : Bool) {value : Nat} (h : value < 2 ^ 32) :
    parseInt (radixOf decimal) (shownNumber decimal value).toList = .ok (value : Int) := by
  cases decimal with
  | false => exact parseInt_upperHex value
  | true => exact parseInt_toString h

/-! ## Displaying and asking -/

theorem display_shownNumber (decimal : Bool) (value : Nat) :
    display (numberForm decimal).format value = print (shownNumber decimal value) := by
  cases decimal <;> rfl

section

variable (hdepth : 0 < limits.depth) (hpage : session.memory.page = (page : Nat))

include hdepth hpage

theorem lineEnding_display (decimal : Bool) (source : Register) :
    lineEnding edition limits session [.display (numberForm decimal) source] =
      ⟨none, session.memory,
        session.console.print (shownNumber decimal (session.memory.value page source))⟩ := by
  refine lineEnding_of_perform rfl hdepth hpage ?_
  intro passes call there hmemory hconsole
  rw [← hmemory] at hpage
  refine (bind_of_ok (getRegister_of_page hpage source)).trans ?_
  rw [display_shownNumber, ← hmemory, ← hconsole]
  rfl

theorem lineEnding_ask (hshared : session.memory.Shared) {line rest : List Char} {value : Int}
    (hline : takeLine? session.console.input = some (line, rest))
    (hvalue : parseInt (radixOf decimal) line = .ok value) (target : Register) :
    lineEnding edition limits session [.ask decimal target] =
      ⟨none, session.memory.written page target value,
        { session.console.print (askPrompt (radixOf decimal)) with input := rest }⟩ := by
  refine lineEnding_of_perform rfl hdepth hpage ?_
  intro passes call there hmemory hconsole
  rw [← hmemory] at hpage hshared ⊢
  rw [← hconsole] at hline ⊢
  let asked : Session := { there with
    console := { there.console.print (askPrompt (radixOf decimal)) with input := rest } }
  have hask : askLine (askPrompt (radixOf decimal)) there = .ok line asked := by
    rw [askLine_apply, hline]
  have hparse : ofExcept (parseInt (radixOf decimal) line) asked = .ok value asked := by
    rw [hvalue]
    rfl
  change ask (radixOf decimal) (target : Nat) there = _
  unfold ask
  rw [bind_of_ok hask, bind_of_ok hparse]
  have hasked : asked.memory.page = (page : Nat) := hpage
  exact setRegister_of_page hasked hshared target value

end

/-! ## Reading back -/

/-- The register of this page has the value, the shared one on all pages.  Nothing else has
changed. -/
structure Received (before after : Memory) (page : Fin 8) (register : Register) (value : Nat) :
    Prop where
  value : ∀ other slot, after.value other slot =
    if slot = register ∧ (other = page ∨ slot = 15) then value else before.value other slot
  page : after.page = before.page
  stack : after.stack = before.stack
  functions : after.functions = before.functions

theorem received_written {value : Nat} (hvalue : value < 2 ^ 32) (register : Register) :
    Received memory (memory.written page register value) page register value := by
  refine ⟨fun other slot => ?_, rfl, rfl, rfl⟩
  rw [Memory.value_written, wrap_natCast hvalue]

/-- On any machine that is reached, also in the midst of a run: displaying a register as a number
prints a text and does nothing else.  If this text is the next line of the input, asking for a
number stores the value of the register, and changes nothing else. -/
theorem asking_reads_back (edition : Edition) (start : Session) (hreached : Reached edition start)
    (tracing : Bool) (levels passes : Nat) (moment : Moment)
    (hcomes : Moment.Comes edition passes ⟨start, tracing, levels⟩ moment)
    (limits : Limits) (hdepth : 0 < limits.depth) (decimal : Bool) (source target : Register) :
    let session := moment.session
    ∃ (page : Fin 8) (shown : String), session.memory.page = (page : Nat) ∧
      lineEnding edition limits session [.display (numberForm decimal) source] =
        ⟨none, session.memory, session.console.print shown⟩ ∧
      ∀ (console : Console) (rest : List Char),
        takeLine? console.input = some (shown.toList, rest) →
        ∃ after,
          lineEnding edition limits { session with console := console } [.ask decimal target] =
            ⟨none, after, { console.print (askPrompt (radixOf decimal)) with input := rest }⟩ ∧
          Received session.memory after page target (session.memory.value page source) := by
  intro session
  have hsound : session.memory.Sound := (hcomes.sound hreached.sound).memory
  obtain ⟨page, hpage⟩ := hsound.exists_page
  have hvalue : session.memory.value page source < 2 ^ 32 := hsound.registers page source
  refine ⟨page, _, hpage, lineEnding_display hdepth hpage decimal source, ?_⟩
  intro console rest hline
  have hparse := parseInt_shownNumber decimal hvalue
  let told : Session := { session with console := console }
  have htold : told.memory.page = (page : Nat) := hpage
  exact ⟨_, lineEnding_ask hdepth htold hsound.shared hline hparse target,
    received_written hvalue target⟩

theorem asking_reads_back_largest :
    let code := (Program.straight [.selectPage 2, .compute .subtract 0 1]).bits .basic
    let session := sessionAfter (execute .basic ⟨1, 0⟩ false (.start code false []))
    let console : Console := ⟨[], ['F', 'F', 'F', 'F', 'F', 'F', 'F', 'F', '\r', '\n', '7']⟩
    Reached .basic session ∧
      lineEnding .basic ⟨1, 0⟩ session [.display .hexadecimal 0] =
        ⟨none, session.memory, session.console.print "FFFFFFFF"⟩ ∧
      ∃ after, lineEnding .basic ⟨1, 0⟩ { session with console := console } [.ask false 15] =
          ⟨none, after, ⟨[⟨"hex> ", false⟩], ['7']⟩⟩ ∧
        ∀ page, after.value page 15 = 2 ^ 32 - 1 := by
  intro code session console
  have hreached : Reached .basic session :=
    .run (.start (allBits_tokenBits _) false []) ⟨1, 0⟩ false
  have hmemory : session.memory.page = 2 ∧ session.memory.value 2 0 = 2 ^ 32 - 1 := by
    decide +kernel
  have hprinted : lineEnding .basic ⟨1, 0⟩ session [.display .hexadecimal 0] =
      ⟨none, session.memory, session.console.print "FFFFFFFF"⟩ := by decide +kernel
  have hline : takeLine? console.input = some ("FFFFFFFF".toList, ['7']) := by decide +kernel
  clear_value session
  obtain ⟨page, shown, hpage, hdisplay, hask⟩ := asking_reads_back .basic session hreached false 1 0
    ⟨session, false, 1⟩ .refl ⟨1, 0⟩ (by decide) false 0 15
  have hthird : page = 2 := by
    have hnumber : (2 : Int) = (page : Nat) := hmemory.1.symm.trans hpage
    omega
  subst hthird
  have hshown : shown = "FFFFFFFF" := by
    have hconsole := congrArg Ending.console (hdisplay.symm.trans hprinted)
    simpa [Console.print] using hconsole
  subst hshown
  obtain ⟨after, hafter, hreceived⟩ := hask console ['7'] hline
  refine ⟨hreached, hprinted, after, hafter, fun page => ?_⟩
  rw [hreceived.value, if_pos ⟨rfl, .inr rfl⟩]
  exact hmemory.2

end BitAssembly.Structured
