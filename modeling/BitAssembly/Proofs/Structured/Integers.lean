import BitAssembly.Proofs.Structured.Lines

/-!
# Exact arithmetic

The ring operations over the integers, with registers and a stack that never cut
a value.  A straight line of them leaves in the machine the exact values modulo
the size of a register, however often it has wrapped around on the way.
-/

namespace BitAssembly.Structured

open BitAssembly.Machine

/-! ## An exact machine -/

structure Exact where
  value : Fin 8 → Register → Int
  page : Fin 8
  stack : List Int

namespace Exact

def initial (page : Fin 8) : Exact :=
  ⟨fun _ register => register.val, page, []⟩

def read (state : Exact) (register : Register) : Int :=
  state.value state.page register

def assign (state : Exact) (register : Register) (value : Int) : Exact :=
  { state with
    value := fun page slot =>
      if slot = register ∧ (page = state.page ∨ slot = Fin.last 15) then value
      else state.value page slot }

end Exact

def Operation.combine? : Operation → Option (Int → Int → Int)
  | .add => some fun left right => left + right
  | .subtract => some fun left right => left - right
  | .multiply => some fun left right => left * right
  | .copy => some fun _ right => right
  | _ => none

namespace Exact

/-- No other instruction has a meaning here, and neither has a pop from an empty stack. -/
def step (state : Exact) : Plain → Option Exact
  | .compute operation target source =>
      operation.combine?.map fun combine =>
        state.assign target (combine (state.read target) (state.read source))
  | .alter .clear register => some (state.assign register 0)
  | .alter .restore register => some (state.assign register (register : Nat))
  | .alter .push register => some { state with stack := state.read register :: state.stack }
  | .alter .pop register =>
      match state.stack with
      | [] => none
      | value :: rest => some ({ state with stack := rest }.assign register value)
  | .load _ target value => some (state.assign target value.toNat)
  | .selectPage page => some { state with page := page }
  | _ => none

def run (state : Exact) : List Plain → Option Exact
  | [] => some state
  | instruction :: line => (state.step instruction).bind fun next => next.run line

end Exact

/-! ## Reduced values -/

theorem natCast_wrap (value : Int) : (wrap value : Int) = value % 2 ^ 32 := by
  unfold wrap
  omega

theorem wrap_modEq (value : Int) : (wrap value : Int) ≡ value [ZMOD 2 ^ 32] := by
  rw [natCast_wrap]
  exact Int.mod_modEq value _

theorem wrap_congr {first second : Int} (h : first ≡ second [ZMOD 2 ^ 32]) :
    wrap first = wrap second :=
  wrap_eq_iff.mpr h

theorem wrap_apply {operation : Operation} {combine : Int → Int → Int}
    (h : operation.combine? = some combine) (left right : Int) :
    wrap (operation.arithmetic.apply (wrap left) (wrap right)) = wrap (combine left right) := by
  have hleft := wrap_modEq left
  have hright := wrap_modEq right
  apply wrap_congr
  cases operation with
  | add =>
      cases h
      exact hleft.add hright
  | subtract =>
      cases h
      exact hleft.sub hright
  | multiply =>
      cases h
      exact hleft.mul hright
  | copy =>
      cases h
      exact hright
  | _ => cases h

/-- The memory holds the exact values modulo the size of a register. -/
structure Exact.Reduced (state : Exact) (memory : Memory) : Prop where
  page : memory.page = (state.page : Nat)
  value : ∀ page register, memory.value page register = wrap (state.value page register)
  stack : memory.stack = state.stack.map wrap
  shared : ∀ page other, state.value page 15 = state.value other 15

namespace Exact.Reduced

variable {state next : Exact} {memory : Memory}

theorem memory_shared (h : state.Reduced memory) : memory.Shared := by
  intro page other
  rw [h.value, h.value, h.shared page other]

theorem value_lt (h : state.Reduced memory) (page : Fin 8) (register : Register) :
    memory.value page register < 2 ^ 32 := by
  rw [h.value]
  exact wrap_lt _

theorem assign (h : state.Reduced memory) (register : Register) {value result : Int}
    (hvalue : wrap result = wrap value) :
    (state.assign register value).Reduced (memory.written state.page register result) := by
  refine ⟨h.page, fun page slot => ?_, h.stack, fun page other => ?_⟩
  · rw [Memory.value_written, hvalue, h.value, Exact.assign]
    simp [apply_ite wrap]
  · simp [Exact.assign, h.shared page other]

theorem step (h : state.Reduced memory) {instruction : Plain}
    (hstep : state.step instruction = some next) :
    ∃ after, Turns instruction.instruction memory after ∧ next.Reduced after := by
  cases instruction with
  | compute operation target source =>
      obtain ⟨combine, hcombine, rfl⟩ := Option.map_eq_some_iff.mp hstep
      refine ⟨_, turns_compute h.page h.memory_shared operation.arithmetic target source,
        h.assign target ?_⟩
      rw [h.value, h.value]
      exact wrap_apply hcombine _ _
  | load width target value =>
      cases hstep
      exact ⟨_, turns_load h.page h.memory_shared target _, h.assign target rfl⟩
  | selectPage page =>
      cases hstep
      exact ⟨_, turns_selectPage memory _, rfl, h.value, h.stack, h.shared⟩
  | alter change register =>
      cases change with
      | clear =>
          cases hstep
          exact ⟨_, turns_alter h.page h.memory_shared (fun _ => 0) rfl, h.assign register rfl⟩
      | restore =>
          cases hstep
          exact ⟨_, turns_alter h.page h.memory_shared (fun _ => (register : Nat)) rfl,
            h.assign register rfl⟩
      | push =>
          cases hstep
          refine ⟨_, turns_push h.page h.memory_shared (h.value_lt _ register), h.page, h.value, ?_,
            h.shared⟩
          simp [h.value, h.stack, Exact.read]
      | pop =>
          rw [Exact.step] at hstep
          split at hstep
          · cases hstep
          · next value rest hstack =>
              cases hstep
              have hmemory : memory.stack = wrap value :: rest.map wrap := by
                rw [h.stack, hstack, List.map_cons]
              have hpopped : { state with stack := rest }.Reduced
                  { memory with stack := rest.map wrap } := ⟨h.page, h.value, rfl, h.shared⟩
              exact ⟨_, turns_pop h.page h.memory_shared hmemory,
                hpopped.assign register (wrap_congr (wrap_modEq value))⟩
      | _ => cases hstep
  | _ => cases hstep

theorem run {line : List Plain} (h : state.Reduced memory) (hrun : state.run line = some next) :
    ∃ after, LineTurns line memory after ∧ next.Reduced after := by
  induction line generalizing state memory with
  | nil =>
      cases hrun
      exact ⟨memory, .nil memory, h⟩
  | cons instruction line ih =>
      obtain ⟨middle, hstep, hrest⟩ := Option.bind_eq_some_iff.mp hrun
      obtain ⟨between, hturns, hmiddle⟩ := h.step hstep
      obtain ⟨after, hline, hafter⟩ := ih hmiddle hrest
      exact ⟨after, .cons h.page hturns hline, hafter⟩

end Exact.Reduced

theorem Exact.reduced_initial : (Exact.initial 0).Reduced Memory.initial := by
  refine ⟨rfl, fun page register => ?_, rfl, fun page other => rfl⟩
  have hlt : register.val < 0x100000000 := by omega
  rw [Exact.initial, wrap_natCast hlt]
  simp [Memory.value, Memory.initial, Vector.get_eq_getElem]

/-- From the start of the machine, a straight line of ring operations, copies, loads, page
selections, pushes and pops that never finds its stack empty ends normally, and leaves in every
register and in every place of the stack the exact value modulo the size of a register. -/
theorem execute_exact (edition : Edition) (line : List Plain)
    (hfits : ∀ instruction ∈ line, instruction.fits edition) (final : Exact)
    (hrun : (Exact.initial 0).run line = some final) (limits : Limits) (hdepth : 0 < limits.depth)
    (input : List Char) :
    ∃ after, execute edition limits false
          (.start ((Program.straight line).bits edition) false input) = .ok () after ∧
      after.memory.page = (final.page : Nat) ∧
      (∀ page register,
        (after.memory.value page register : Int) = final.value page register % 2 ^ 32) ∧
      after.memory.stack.map (fun value : Nat => (value : Int)) =
        final.stack.map fun value => value % 2 ^ 32 := by
  obtain ⟨memory, hline, hreduced⟩ := Exact.reduced_initial.run hrun
  have hstart : Session.start ((Program.straight line).bits edition) false input =
      (Session.start [] false input).onto ((Program.straight line).bits edition) := by
    rw [Session.start, ofText_bits]
    rfl
  rw [hstart]
  refine ⟨_, hline.execute hfits hdepth rfl, hreduced.page, fun page register => ?_, ?_⟩
  · rw [hreduced.value, natCast_wrap]
  · simp [hreduced.stack, natCast_wrap]

theorem execute_exact_wrapped :
    let line : List Plain :=
      [.compute .subtract 3 4, .compute .add 3 3, .alter .push 3, .load 3 15 0xfffffffe,
        .selectPage 2, .alter .pop 6, .compute .multiply 15 15, .compute .multiply 6 15,
        .alter .push 6]
    let final := ((Exact.initial 0).run line).getD (.initial 0)
    (∀ instruction ∈ line, instruction.fits .extended) ∧ (Exact.initial 0).run line = some final ∧
      final.value 0 3 = -2 ∧ final.value 2 6 = -2 * (2 ^ 32 - 2) ^ 2 ∧
      ∃ after, execute .extended ⟨1, 0⟩ false
          (.start ((Program.straight line).bits .extended) false []) = .ok () after ∧
        after.memory.value 0 3 = 2 ^ 32 - 2 ∧ after.memory.value 7 15 = 4 ∧
        after.memory.value 2 6 = 2 ^ 32 - 8 ∧ after.memory.stack = [2 ^ 32 - 8] := by
  intro line final
  have hfits : ∀ instruction ∈ line, instruction.fits .extended := by decide
  have hrun : (Exact.initial 0).run line = some final := rfl
  obtain ⟨after, hexecute, -, hvalue, hstack⟩ :=
    execute_exact .extended line hfits final hrun ⟨1, 0⟩ (by decide) []
  have hfirst : final.value 0 3 = -2 := by decide
  have hlast : final.value 2 6 = -2 * (2 ^ 32 - 2) ^ 2 := by decide
  have hshared : final.value 7 15 = (2 ^ 32 - 2) ^ 2 := by decide
  have hfinal : final.stack = [-2 * (2 ^ 32 - 2) ^ 2] := by decide
  refine ⟨hfits, hrun, hfirst, hlast, after, hexecute, ?_, ?_, ?_, ?_⟩
  · have := hvalue 0 3
    omega
  · have := hvalue 7 15
    omega
  · have := hvalue 2 6
    omega
  · rw [hfinal, List.map_singleton] at hstack
    obtain ⟨value, hmemory, hreduced⟩ := List.map_eq_singleton_iff.mp hstack
    have hsame : value = 2 ^ 32 - 8 := by omega
    rw [hmemory, hsame]

end BitAssembly.Structured
