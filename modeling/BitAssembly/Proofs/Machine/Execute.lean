import BitAssembly.Machine.Direct
import BitAssembly.Proofs.Machine.Reading

/-!
# Running a text step by step

A run looks at what the text goes on with: nothing, a closing mark, or the bits
of an instruction, which is performed before the run continues behind it.
-/

namespace BitAssembly.Machine

open BitAssembly.Bits

variable {α : Type} {edition : Edition} {passes : Nat} {call : Body → Run Unit}

def Session.reader (session : Session) : Reader :=
  ⟨session.cursor, session.traced, []⟩

def Session.onto (session : Session) (text : List Char) : Session :=
  { session with cursor := .ofChars text.toArray, traced := false }

def Session.printing (session : Session) (output : String) : Session :=
  { session with console := session.console.print output }

def Session.forward (session : Session) (count : Nat) : Session :=
  { session with cursor := session.cursor.advance count }

@[simp] theorem Session.forward_zero (session : Session) : session.forward 0 = session := by
  simp [forward, Cursor.advance]

theorem Session.forward_forward (session : Session) (first second : Nat) :
    (session.forward first).forward second = session.forward (first + second) := by
  simp [forward, Cursor.advance, Int.add_assoc]

/-- The session goes on with these bits, and its reads leave no trace. -/
structure Session.GoesOn (session : Session) (bits : List Char) : Prop where
  placed : session.reader.Placed
  rest : session.cursor.rest = bits

theorem Session.goesOn_onto (session : Session) (text : List Char) :
    (session.onto text).GoesOn text :=
  ⟨⟨rfl, Int.le_refl 0, Int.natCast_nonneg _⟩, rfl⟩

theorem Session.GoesOn.printing {session : Session} {bits : List Char} (h : session.GoesOn bits)
    (output : String) : (session.printing output).GoesOn bits :=
  ⟨⟨h.placed.untraced, h.placed.nonneg, h.placed.within⟩, h.rest⟩

theorem Session.GoesOn.forward {session : Session} {bits rest : List Char}
    (h : session.GoesOn (bits ++ rest)) : (session.forward bits.length).GoesOn rest :=
  ⟨h.placed.forward h.rest, Reader.rest_forward_append h.placed h.rest⟩

theorem Session.GoesOn.atEnd_iff {session : Session} {bits : List Char} (h : session.GoesOn bits) :
    session.cursor.atEnd ↔ bits = [] := by
  rw [← h.rest]
  exact Cursor.atEnd_iff session.cursor h.placed.nonneg

theorem Reads.reading {action : Reading α} {bits rest : List Char} {value : α}
    (h : Reads action bits value) {session : Session} (hgoes : session.GoesOn (bits ++ rest)) :
    reading action session = .ok value (session.forward bits.length) := by
  have hread := h session.reader rest hgoes.placed hgoes.rest
  simp only [Session.reader] at hread
  rw [Machine.reading, hread]
  rfl

theorem onText_eq_ok {bits : List Char} (hbits : Text.AllBits bits) {action : Run α}
    {session after : Session} {value : α} (h : action (session.onto bits) = .ok value after) :
    onText bits action session = .ok (value, after.cursor.pos) (session.resume after) := by
  have hbind : (do
      let value ← action
      return (value, (← get).cursor.pos) : Run (α × Int)) (session.onto bits) =
        .ok (value, after.cursor.pos) after := by
    change EStateM.bind action _ _ = _
    rw [EStateM.bind, h]
    rfl
  rw [Session.onto] at hbind
  rw [onText, Cursor.ofText_of_allBits hbits, onCursor, hbind]

theorem executeText_end {session : Session} (hgoes : session.GoesOn []) (fuel : Nat) :
    executeText edition false passes call (fuel + 1) session = .ok () session := by
  change (if session.cursor.atEnd then pure () else _ : Run Unit) session = _
  rw [if_pos (hgoes.atEnd_iff.mpr rfl)]
  rfl

theorem executeText_short {bits : List Char} (hne : bits ≠ []) (hshort : bits.length < 3)
    {session : Session} (hgoes : session.GoesOn bits) (fuel : Nat) :
    executeText edition false passes call (fuel + 1) session =
      .error (.fault .endOfText) session := by
  have hmore : ¬ session.cursor.atEnd := by rwa [hgoes.atEnd_iff]
  have hread : fetch edition false session.memory.page?.isSome passes session.reader =
      .error (.fault .endOfText) session.reader := by
    change EStateM.bind (read (3 : Nat)) _ session.reader = _
    rw [EStateM.bind, read_short hgoes.placed]
    rwa [Reader.rest, Session.reader, hgoes.rest]
  have hfetch : fetchNext edition false passes session = .error (.fault .endOfText) session := by
    change reading (fetch edition false session.memory.page?.isSome passes) session = _
    simp only [Session.reader] at hread
    rw [reading, hread]
    rfl
  change (if session.cursor.atEnd then pure () else _ : Run Unit) session = _
  rw [if_neg hmore]
  change EStateM.bind (fetchNext edition false passes) _ session = _
  rw [EStateM.bind, hfetch]

theorem executeText_fetch {bits rest : List Char} {instruction : Instruction} {ready : Bool}
    (hreads : Reads (fetch edition false ready passes) bits instruction) (hbits : bits ≠ [])
    {session : Session} (hready : session.memory.page?.isSome = ready)
    (hgoes : session.GoesOn (bits ++ rest)) (fuel : Nat) :
    executeText edition false passes call (fuel + 1) session =
      (if instruction = .close then pure () else do
        perform passes call instruction
        executeText edition false passes call fuel : Run Unit)
          (session.forward bits.length) := by
  have hfetch : fetchNext edition false passes session =
      .ok instruction (session.forward bits.length) := by
    rw [← hready] at hreads
    exact hreads.reading hgoes
  have hmore : ¬ session.cursor.atEnd := by
    rw [hgoes.atEnd_iff, List.append_eq_nil_iff]
    exact fun h => hbits h.1
  change (if session.cursor.atEnd then pure () else _ : Run Unit) session = _
  rw [if_neg hmore]
  change EStateM.bind (fetchNext edition false passes) _ session = _
  rw [EStateM.bind, hfetch]

end BitAssembly.Machine
