import BitAssembly.Proofs.Machine.Registers
import BitAssembly.Proofs.Structured.Refinement

/-!
# Straight lines

A line of plain instructions without blocks.  If each of them turns one memory
into the next, running the bits of the line does that in a row.
-/

namespace BitAssembly.Structured

open BitAssembly.Machine

variable {edition : Edition} {line : List Plain} {before after : Memory}

def Program.straight : List Plain → Program
  | [] => .done
  | instruction :: line => .plain instruction (straight line)

inductive LineTurns : List Plain → Memory → Memory → Prop
  | nil (memory : Memory) : LineTurns [] memory memory
  | cons {instruction : Plain} {line : List Plain} {before middle after : Memory} {page : Fin 8}
      (hpage : before.page = (page : Nat)) (h : Turns instruction.instruction before middle)
      (hline : LineTurns line middle after) : LineTurns (instruction :: line) before after

/-- Each instruction of a line has a bit at least, so the bits are fuel enough. -/
theorem LineTurns.executeText (h : LineTurns line before after)
    (hfits : ∀ instruction ∈ line, instruction.fits edition) (passes : Nat)
    (call : Body → Run Unit) {fuel : Nat} {session : Session} (hmemory : session.memory = before)
    (hgoes : session.GoesOn ((Program.straight line).bits edition))
    (hfuel : ((Program.straight line).bits edition).length < fuel) :
    executeText edition false passes call fuel session =
      .ok () { session.forward ((Program.straight line).bits edition).length with
        memory := after } := by
  induction h generalizing fuel session with
  | nil memory =>
      obtain ⟨fuel, rfl⟩ := Nat.exists_eq_add_one.mpr (Nat.zero_lt_of_lt hfuel)
      subst hmemory
      rw [executeText_end hgoes]
      change _ = EStateM.Result.ok () (session.forward 0)
      rw [Session.forward_zero]
  | @cons instruction line before middle after page hpage h hline ih =>
      obtain ⟨fuel, rfl⟩ := Nat.exists_eq_add_one.mpr (Nat.zero_lt_of_lt hfuel)
      rw [List.forall_mem_cons] at hfits
      rw [Program.straight, bits_plain hfits.1, ← List.append_assoc] at hgoes hfuel ⊢
      have hreads := reads_fetch_plain hfits.1 passes
      have hbits : instruction.operation ++ instruction.fields edition ≠ [] := by
        simp [instruction.operation_ne_nil]
      generalize instruction.operation ++ instruction.fields edition = bits at *
      have hlength := List.length_pos_iff.mpr hbits
      rw [List.length_append] at hfuel ⊢
      subst hmemory
      have hready : session.memory.page?.isSome = true := by simp [page?_of_page hpage]
      have hperform := h passes call (session.forward bits.length) rfl
      rw [executeText_fetch hreads hbits hready hgoes, if_neg instruction.instruction_ne_close,
        bind_of_ok hperform, ih hfits.2 rfl ?_ (by omega)]
      · rw [← Session.forward_forward]
        rfl
      · exact ⟨hgoes.forward.placed, hgoes.forward.rest⟩

theorem LineTurns.execute (h : LineTurns line before after)
    (hfits : ∀ instruction ∈ line, instruction.fits edition) {limits : Limits}
    (hdepth : 0 < limits.depth) {session : Session} (hmemory : session.memory = before) :
    execute edition limits false (session.onto ((Program.straight line).bits edition)) =
      .ok () { (session.onto ((Program.straight line).bits edition)).forward
        ((Program.straight line).bits edition).length with memory := after } := by
  obtain ⟨depth, hlevel⟩ := Nat.exists_eq_add_one.mpr hdepth
  rw [Machine.execute, hlevel]
  exact h.executeText hfits limits.passes _ hmemory (session.goesOn_onto _)
    (Nat.lt_add_right limits.passes (Nat.lt_succ_self _))

def lineEnding (edition : Edition) (limits : Limits) (session : Session) (line : List Plain) :
    Ending :=
  .ofRun (execute edition limits false (session.onto ((Program.straight line).bits edition)))

theorem LineTurns.ending (h : LineTurns line before after)
    (hfits : ∀ instruction ∈ line, instruction.fits edition) {limits : Limits}
    (hdepth : 0 < limits.depth) {session : Session} (hmemory : session.memory = before) :
    lineEnding edition limits session line = ⟨none, after, session.console⟩ := by
  rw [lineEnding, h.execute hfits hdepth hmemory]
  rfl

theorem lineEnding_single {instruction : Plain} (hfits : instruction.fits edition)
    {limits : Limits} (hdepth : 0 < limits.depth) {session : Session} {page : Fin 8}
    (hpage : session.memory.page = (page : Nat))
    (h : Turns instruction.instruction session.memory after) :
    lineEnding edition limits session [instruction] = ⟨none, after, session.console⟩ :=
  (LineTurns.cons hpage h (.nil after)).ending (by simpa using hfits) hdepth rfl

theorem lineEnding_of_perform {instruction : Plain} (hfits : instruction.fits edition)
    {limits : Limits} (hdepth : 0 < limits.depth) {session : Session} {page : Fin 8}
    (hpage : session.memory.page = (page : Nat)) {console : Console}
    (h : ∀ (passes : Nat) (call : Body → Run Unit) (there : Session),
      there.memory = session.memory → there.console = session.console →
        perform passes call instruction.instruction there =
          .ok () { there with memory := after, console := console }) :
    lineEnding edition limits session [instruction] = ⟨none, after, console⟩ := by
  obtain ⟨depth, hlevel⟩ := Nat.exists_eq_add_one.mpr hdepth
  have hreads := reads_fetch_plain hfits limits.passes
  have hbits : instruction.operation ++ instruction.fields edition ≠ [] := by
    simp [instruction.operation_ne_nil]
  rw [lineEnding, Program.straight, bits_plain hfits, ← List.append_assoc]
  generalize instruction.operation ++ instruction.fields edition = bits at *
  let start := session.onto (bits ++ (Program.straight []).bits edition)
  have hready : start.memory.page?.isSome = true := by
    change session.memory.page?.isSome = true
    simp [page?_of_page hpage]
  have hgoes : start.GoesOn (bits ++ (Program.straight []).bits edition) := session.goesOn_onto _
  have hnext := hgoes.forward
  have hperform := h limits.passes (fun body => onCursor (.ofChars body)
    (executeAt edition limits.passes depth false)) (start.forward bits.length) rfl rfl
  have hend : Session.GoesOn
      { start.forward bits.length with memory := after, console := console } [] :=
    ⟨⟨hnext.placed.untraced, hnext.placed.nonneg, hnext.placed.within⟩, hnext.rest⟩
  -- One step performs the instruction, and the next one finds the end of the text.
  obtain ⟨fuel, hfuel⟩ : ∃ fuel, start.cursor.text.size + 1 + limits.passes = fuel + 1 + 1 := by
    have hlength := List.length_pos_iff.mpr hbits
    refine ⟨bits.length - 1 + limits.passes, ?_⟩
    change (bits ++ []).length + 1 + limits.passes = _
    rw [List.append_nil]
    omega
  rw [Machine.execute, hlevel]
  change Ending.ofRun (executeText edition false limits.passes _
    (start.cursor.text.size + 1 + limits.passes) start) = _
  rw [hfuel, executeText_fetch hreads hbits hready hgoes, if_neg instruction.instruction_ne_close,
    bind_of_ok hperform, executeText_end hend]
  rfl

end BitAssembly.Structured
