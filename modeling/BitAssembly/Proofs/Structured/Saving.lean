import BitAssembly.Proofs.Structured.Lines

/-!
# Saving registers on the stack

A line of pushes saves registers, and the line of pops in the reverse order
restores them, whatever happened to the registers in between.  A register may be
saved more than once, and the shared one among others: a store that is repeated,
or that goes to all pages, brings the value that was saved every time.
-/

namespace BitAssembly.Structured

open BitAssembly.Machine

variable {memory source before : Memory} {page : Fin 8} {registers : List Register}

def saving (registers : List Register) : List Plain :=
  registers.map (.alter .push)

def restoring (registers : List Register) : List Plain :=
  registers.reverse.map (.alter .pop)

theorem fits_alter {edition : Edition} (change : Change) (registers : List Register) :
    ∀ instruction ∈ registers.map (Plain.alter change), instruction.fits edition := by
  intro instruction hmem
  obtain ⟨register, -, rfl⟩ := List.mem_map.mp hmem
  rfl

/-! ## Saving -/

/-- The values of the registers, the last one on top. -/
def savedValues (memory : Memory) (page : Fin 8) (registers : List Register) : List Nat :=
  (registers.map (memory.value page)).reverse

theorem lineTurns_saving (hpage : memory.page = (page : Nat)) (hshared : memory.Shared)
    (hlt : ∀ register, memory.value page register < 2 ^ 32) :
    LineTurns (saving registers) memory
      { memory with stack := savedValues memory page registers ++ memory.stack } := by
  induction registers generalizing memory with
  | nil => exact .nil memory
  | cons register registers ih =>
      let pushed := { memory with stack := memory.value page register :: memory.stack }
      have hpush : Turns (Plain.alter .push register).instruction memory pushed :=
        turns_push hpage hshared (hlt register)
      have hrest : LineTurns (saving registers) pushed
          { pushed with stack := savedValues pushed page registers ++ pushed.stack } :=
        ih hpage hshared hlt
      have hstack : savedValues memory page (register :: registers) ++ memory.stack =
          savedValues pushed page registers ++ pushed.stack := by
        rw [savedValues, List.map_cons, List.reverse_cons, List.append_assoc,
          List.singleton_append]
        rfl
      rw [hstack]
      exact .cons hpage hpush hrest

/-! ## Restoring -/

/-- The registers have the values that they have on this page of the source, the shared one on
all pages, and the stack is this one.  Nothing else has changed. -/
structure Restored (source before after : Memory) (page : Fin 8) (registers : List Register)
    (stack : List Nat) : Prop where
  value : ∀ other slot, after.value other slot =
    if slot ∈ registers ∧ (other = page ∨ slot = 15) then source.value page slot
    else before.value other slot
  page : after.page = before.page
  stack : after.stack = stack
  functions : after.functions = before.functions

theorem Restored.of_empty : Restored source before before page [] before.stack :=
  ⟨by simp, rfl, rfl, rfl⟩

theorem Restored.cons {register : Register} {stack between : List Nat} {after : Memory}
    (hlt : source.value page register < 2 ^ 32)
    (h : Restored source ({ before with stack := between }.written page register
      (source.value page register)) after page registers stack) :
    Restored source before after page (register :: registers) stack := by
  refine ⟨fun other slot => ?_, h.page, h.stack, h.functions⟩
  rw [h.value, Memory.value_written, wrap_natCast hlt]
  by_cases hplace : other = page ∨ slot = 15
  · by_cases hslot : slot = register
    · subst hslot
      simp [hplace]
    · simp [hplace, hslot, Memory.value]
  · simp [hplace, Memory.value]

theorem lineTurns_popping (hlt : ∀ register, source.value page register < 2 ^ 32)
    (hpage : before.page = (page : Nat)) (hshared : before.Shared) {stack : List Nat}
    (hstack : before.stack = registers.map (source.value page) ++ stack) :
    ∃ after, LineTurns (registers.map (.alter .pop)) before after ∧
      Restored source before after page registers stack := by
  induction registers generalizing before with
  | nil =>
      rw [List.map_nil, List.nil_append] at hstack
      exact ⟨before, .nil before, hstack ▸ .of_empty⟩
  | cons register registers ih =>
      have hpop : Turns (Plain.alter .pop register).instruction before _ :=
        turns_pop hpage hshared hstack
      let popped := { before with stack := registers.map (source.value page) ++ stack }
      have hpopped : popped.Shared := hshared
      have hwritten := hpopped.written page register (source.value page register)
      have hselected : (popped.written page register (source.value page register)).page =
        (page : Nat) := hpage
      obtain ⟨after, hline, hrestored⟩ := ih hselected hwritten rfl
      exact ⟨after, .cons hpage hpop hline, hrestored.cons (hlt register)⟩

theorem sound_restack (h : memory.Sound) {stack : List Nat}
    (hstack : ∀ value ∈ stack, value < 2 ^ 32) : { memory with stack := stack }.Sound :=
  ⟨h.page, h.registers, hstack, h.names, h.shared⟩

/-- Pushes save registers and change none of them.  On any memory with the same page and stack,
the pops in the reverse order give the registers the saved values, and leave the stack that was
there before the pushes.  They change nothing else, and neither line can fail. -/
theorem restoring_restores (edition : Edition) (limits : Limits) (hdepth : 0 < limits.depth)
    (session : Session) (hsound : session.memory.Sound) (registers : List Register) :
    ∃ page : Fin 8, session.memory.page = (page : Nat) ∧
      let saved := { session.memory with
        stack := savedValues session.memory page registers ++ session.memory.stack }
      lineEnding edition limits session (saving registers) = ⟨none, saved, session.console⟩ ∧
      ∀ other : Session, other.memory.Sound → other.memory.page = saved.page →
        other.memory.stack = saved.stack →
        ∃ after, lineEnding edition limits other (restoring registers) =
            ⟨none, after, other.console⟩ ∧
          Restored session.memory other.memory after page registers session.memory.stack := by
  obtain ⟨page, hpage⟩ := hsound.exists_page
  have hlt (register : Register) : session.memory.value page register < 2 ^ 32 :=
    hsound.registers page register
  have hsaving := @lineTurns_saving _ _ registers hpage hsound.shared hlt
  refine ⟨page, hpage, hsaving.ending (fits_alter .push registers) hdepth rfl, ?_⟩
  intro other hother hsame hstack
  rw [savedValues, ← List.map_reverse] at hstack
  obtain ⟨after, hline, hvalue, hafter, hrest, hfunctions⟩ :=
    lineTurns_popping hlt (hsame.trans hpage) hother.shared hstack
  refine ⟨after, hline.ending (fits_alter .pop registers.reverse) hdepth rfl, ?_⟩
  exact ⟨fun slot => by simpa using hvalue slot, hafter, hrest, hfunctions⟩

theorem restoring_restores_repeated :
    let memory := ({ Memory.initial with page := 5, stack := [7] }.written 5 15 (-1)).written 5 3 42
    let session := { Session.start [] false [] with memory := memory }
    let registers : List Register := [3, 15, 3, 0]
    let other := { Session.start [] false ['8'] with
      memory := { memory.written 5 15 0 with stack := [0, 42, 2 ^ 32 - 1, 42, 7] } }
    memory.Sound ∧ other.memory.Sound ∧
      (lineEnding .basic ⟨1, 0⟩ session (saving registers)).memory =
        { memory with stack := [0, 42, 2 ^ 32 - 1, 42, 7] } ∧
      ∃ after, lineEnding .basic ⟨1, 0⟩ other (restoring registers) =
          ⟨none, after, other.console⟩ ∧
        after.value 2 15 = 2 ^ 32 - 1 ∧ after.value 5 3 = 42 ∧ after.value 2 3 = 3 ∧
        after.stack = [7] := by
  intro memory session registers other
  have hsixth (page : Fin 8) (h : (5 : Int) = (page : Nat)) : page = 5 := by omega
  have hinitial := Memory.sound_initial
  have hselected : { Memory.initial with page := 5, stack := [7] }.Sound :=
    ⟨by decide, hinitial.registers, by simp, hinitial.names, hinitial.shared⟩
  have hsound : memory.Sound := (hselected.written rfl 15 (-1)).written rfl 3 42
  have hsecond : other.memory.Sound := sound_restack (hsound.written rfl 15 0) (by simp)
  obtain ⟨page, hpage, hsaving, hrestoring⟩ :=
    restoring_restores .basic ⟨1, 0⟩ (by decide) session hsound registers
  obtain rfl := hsixth page hpage
  have hsaved : savedValues memory 5 registers = [0, 42, 2 ^ 32 - 1, 42] := by decide +kernel
  have hstack : other.memory.stack = savedValues memory 5 registers ++ [7] := by
    rw [hsaved]
    rfl
  have hpages : other.memory.page = 5 ∧ session.memory.page = 5 := ⟨rfl, rfl⟩
  have hsame : other.memory.page = session.memory.page := hpages.1.trans hpages.2.symm
  obtain ⟨after, hafter, hrestored⟩ := hrestoring other hsecond hsame hstack
  have hvalues : memory.value 5 15 = 2 ^ 32 - 1 ∧ memory.value 5 3 = 42 ∧
      other.memory.value 2 3 = 3 := by decide +kernel
  have hshared := (hrestored.value 2 15).trans (if_pos (by decide))
  have htwice := (hrestored.value 5 3).trans (if_pos (by decide))
  have hother := (hrestored.value 2 3).trans (if_neg (by decide))
  refine ⟨hsound, hsecond, by rw [hsaving, hsaved]; rfl, after, hafter, hshared.trans hvalues.1,
    htwice.trans hvalues.2.1, hother.trans hvalues.2.2, hrestored.stack⟩

end BitAssembly.Structured
