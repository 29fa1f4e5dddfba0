import BitAssembly.Proofs.Structured.Lines

/-!
# Counting and adding

Counting up or down by one keeps eight bits of a register, while adding and
subtracting keep all thirty-two.  So both do the same just for the values whose
successor or predecessor is not cut.
-/

namespace BitAssembly.Structured

open BitAssembly.Machine

section

variable {memory : Memory} {page : Fin 8} (hpage : memory.page = (page : Nat))
  (hshared : memory.Shared)

include hpage hshared

theorem turns_increment (register : Register) :
    Turns (Plain.alter .increment register).instruction memory
      (memory.written page register ((memory.value page register + 1) % 256 : Nat)) := by
  exact turns_alter hpage hshared (fun value => ((value + 1) % 256 : Nat)) rfl

theorem turns_decrement (register : Register) :
    Turns (Plain.alter .decrement register).instruction memory
      (memory.written page register (((memory.value page register : Int) - 1) % 256)) := by
  exact turns_alter hpage hshared (fun value => ((value : Int) - 1) % 256) rfl

theorem lineTurns_increment_decrement (register : Register) :
    LineTurns [.alter .increment register, .alter .decrement register] memory
      (memory.written page register (memory.value page register % 256 : Nat)) := by
  let up := memory.written page register ((memory.value page register + 1) % 256 : Nat)
  have hup : up.page = (page : Nat) := hpage
  have hvalue : up.value page register = (memory.value page register + 1) % 256 := by
    rw [Memory.value_written, if_pos (by simp), wrap_natCast (by omega)]
  have hdown := turns_decrement hup (hshared.written page register _) register
  rw [Memory.written_written, hvalue] at hdown
  have hcut : ((((memory.value page register + 1) % 256 : Nat) : Int) - 1) % 256 =
      (memory.value page register % 256 : Nat) := by omega
  rw [hcut] at hdown
  exact .cons hpage (turns_increment hpage hshared register) (.cons hup hdown (.nil _))

end

/-! ## Comparing the ends -/

section

variable {edition : Edition} {limits : Limits} {session : Session} {page : Fin 8}
  {register other : Register} (hdepth : 0 < limits.depth)
  (hpage : session.memory.page = (page : Nat)) (hshared : session.memory.Shared)
  (hlt : session.memory.value page register < 2 ^ 32)

include hdepth hpage hshared

theorem lineEnding_compute (hone : session.memory.value page other = 1) (operation : Operation) :
    lineEnding edition limits session [.compute operation register other] =
      ⟨none, session.memory.written page register
        (operation.arithmetic.apply (session.memory.value page register) 1), session.console⟩ := by
  have hturns := turns_compute hpage hshared operation.arithmetic register other
  rw [hone] at hturns
  exact lineEnding_single rfl hdepth hpage hturns

include hlt

theorem increment_eq_add_iff (hone : session.memory.value page other = 1) :
    lineEnding edition limits session [.alter .increment register] =
        lineEnding edition limits session [.compute .add register other] ↔
      session.memory.value page register < 255 ∨
        session.memory.value page register = 2 ^ 32 - 1 := by
  rw [lineEnding_single rfl hdepth hpage (turns_increment hpage hshared register),
    lineEnding_compute hdepth hpage hshared hone, Ending.mk.injEq, Memory.written_eq_iff]
  simp only [Operation.arithmetic, Arithmetic.apply, true_and, and_true]
  omega

theorem decrement_eq_subtract_iff (hone : session.memory.value page other = 1) :
    lineEnding edition limits session [.alter .decrement register] =
        lineEnding edition limits session [.compute .subtract register other] ↔
      0 < session.memory.value page register ∧ session.memory.value page register ≤ 256 := by
  rw [lineEnding_single rfl hdepth hpage (turns_decrement hpage hshared register),
    lineEnding_compute hdepth hpage hshared hone, Ending.mk.injEq, Memory.written_eq_iff]
  simp only [Operation.arithmetic, Arithmetic.apply, true_and, and_true]
  omega

theorem increment_decrement_restores_iff :
    lineEnding edition limits session [.alter .increment register, .alter .decrement register] =
        ⟨none, session.memory, session.console⟩ ↔ session.memory.value page register < 256 := by
  have hturns := lineTurns_increment_decrement hpage hshared register
  have hrestores := session.memory.written_eq_iff page register
    (session.memory.value page register % 256 : Nat) (session.memory.value page register)
  rw [Memory.written_value hshared hlt] at hrestores
  rw [hturns.ending (by simp [Plain.fits]) hdepth rfl, Ending.mk.injEq, hrestores]
  simp only [true_and, and_true]
  omega

end

/-- With a register that holds one at hand: counting up does what adding it does just for values
below 255 and for the largest, counting down does what subtracting it does just for the values
from 1 to 256, and counting up and down restores just the values below 256. -/
theorem counting_agrees_iff (edition : Edition) (limits : Limits) (hdepth : 0 < limits.depth)
    (session : Session) (hsound : session.memory.Sound) (register other : Register) (value : Nat)
    (hvalue : session.memory.register? (register : Nat) = some value)
    (hone : session.memory.register? (other : Nat) = some 1) :
    let ending := lineEnding edition limits session
    (ending [.alter .increment register] = ending [.compute .add register other] ↔
        value < 255 ∨ value = 2 ^ 32 - 1) ∧
      (ending [.alter .decrement register] = ending [.compute .subtract register other] ↔
        0 < value ∧ value ≤ 256) ∧
      (ending [.alter .increment register, .alter .decrement register] =
          ⟨none, session.memory, session.console⟩ ↔ value < 256) := by
  intro ending
  obtain ⟨page, hpage⟩ := hsound.exists_page
  have hshared : session.memory.Shared := hsound.shared
  have hlt : value < 2 ^ 32 := hsound.register? hvalue
  rw [register?_of_page hpage, Option.some.injEq] at hvalue hone
  subst hvalue
  exact ⟨increment_eq_add_iff hdepth hpage hshared hlt hone,
    decrement_eq_subtract_iff hdepth hpage hshared hlt hone,
    increment_decrement_restores_iff hdepth hpage hshared hlt⟩

theorem counting_agrees_iff_largest :
    let memory := { Memory.initial with page := 5 }.written 5 15 (-1)
    let session := { Session.start [] false [] with memory := memory }
    let ending := lineEnding .extended ⟨1, 0⟩ session
    memory.Sound ∧ memory.register? 15 = some (2 ^ 32 - 1) ∧ memory.register? 1 = some 1 ∧
      ending [.alter .increment 15] = ending [.compute .add 15 1] ∧
      ending [.alter .decrement 15] ≠ ending [.compute .subtract 15 1] ∧
      ending [.alter .increment 15, .alter .decrement 15] ≠ ⟨none, memory, session.console⟩ := by
  intro memory session ending
  have hinitial := Memory.sound_initial
  have hselected : { Memory.initial with page := 5 }.Sound :=
    ⟨by decide, hinitial.registers, hinitial.stack, hinitial.names, hinitial.shared⟩
  have hsound : memory.Sound := hselected.written rfl 15 (-1)
  have hvalue : memory.register? 15 = some (2 ^ 32 - 1) := by decide +kernel
  have hone : memory.register? 1 = some 1 := by decide +kernel
  obtain ⟨hup, hdown, hboth⟩ :=
    counting_agrees_iff .extended ⟨1, 0⟩ (by decide) session hsound 15 1 (2 ^ 32 - 1) hvalue hone
  refine ⟨hsound, hvalue, hone, hup.mpr (by decide), ?_, ?_⟩
  · rw [ne_eq, hdown]
    decide
  · rw [ne_eq, hboth]
    decide

/-- In both editions: 255 counted up is not 256, zero counted down is not the largest value, and
256 counted up and down is not 256. -/
theorem not_counting_agrees :
    let session : Int → Session := fun value =>
      { Session.start [] false [] with memory := Memory.initial.written 0 2 value }
    let ending := fun edition value => lineEnding edition ⟨1, 0⟩ (session value)
    (∀ value, (session value).memory.Sound ∧ (session value).memory.register? 1 = some 1) ∧
      ending .basic 255 [.alter .increment 2] ≠ ending .basic 255 [.compute .add 2 1] ∧
      ending .extended 255 [.alter .increment 2] ≠ ending .extended 255 [.compute .add 2 1] ∧
      ending .basic 0 [.alter .decrement 2] ≠ ending .basic 0 [.compute .subtract 2 1] ∧
      ending .extended 0 [.alter .decrement 2] ≠ ending .extended 0 [.compute .subtract 2 1] ∧
      ending .basic 256 [.alter .increment 2, .alter .decrement 2] ≠
        ⟨none, (session 256).memory, (session 256).console⟩ ∧
      ending .extended 256 [.alter .increment 2, .alter .decrement 2] ≠
        ⟨none, (session 256).memory, (session 256).console⟩ := by
  intro session ending
  have hvalid (value : Int) :
      (session value).memory.Sound ∧ (session value).memory.register? 1 = some 1 := by
    have hpage : (session value).memory.page = ((0 : Fin 8) : Nat) := rfl
    have hregister : (session value).memory.register? 1 = _ := register?_of_page hpage 1
    rw [Memory.value_written] at hregister
    exact ⟨Memory.sound_initial.written rfl 2 value, hregister⟩
  refine ⟨hvalid, ?_, ?_, ?_, ?_, ?_, ?_⟩ <;> decide +kernel

end BitAssembly.Structured
