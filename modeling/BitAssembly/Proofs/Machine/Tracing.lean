import BitAssembly.Proofs.Machine.Performing

/-!
# Runs with and without a trace

A traced run notes what it reads among the lines of the program.  That is all it
does: without these notes it is the plain run.  Bodies are never traced, so the
two runs differ in the text at hand only, and a plain reader leaves no note
whatever its text is.
-/

namespace BitAssembly.Machine

variable {α : Type} {text : Array Char}

/-! ## Readers -/

structure Watches (text : Array Char) (plain watched : Reader) : Prop where
  text : plain.cursor.text = text
  cursor : watched.cursor = plain.cursor
  quiet : plain.traced = false ∧ plain.traces = []

def Unnoticed (text : Array Char) (first second : Reading α) : Prop :=
  Concur (Watches text) (fun _ => True) (fun _ => False) first second

theorem unnoticed_read (count : Int) : Unnoticed text (read count) (read count) := by
  intro reader other h
  rw [read_apply, read_apply, h.cursor]
  cases reader.cursor.peek? count with
  | none => exact .error ⟨rfl, h, trivial⟩
  | some chars =>
      refine .ok ⟨h.text, rfl, h.quiet.1, ?_⟩
      rw [h.quiet.1]
      exact h.quiet.2

theorem Pairing.Abreast.unnoticed {pairing : Pairing} {Post : List Char → α → Prop}
    {Fails : List Char → Stop → Prop} {first second : Reading α}
    (h : pairing.Abreast Post Fails first second) (hproper : ¬ pairing.proper)
    (hgranted : ¬ pairing.granted) (hplain : pairing.tracing = false) :
    Unnoticed text first second := by
  induction h with
  | pure _ => exact .pure _
  | throw _ => exact .throw trivial
  | spent h _ => exact absurd h hgranted
  | noting line _ ih =>
      rw [hplain]
      cases pairing.traced with
      | false => exact ih
      | true =>
          intro reader other h
          exact ih reader { other with traces := line :: other.traces } ⟨h.text, h.cursor, h.quiet⟩
  | taking count _ _ ih =>
      exact (unnoticed_read count).bind fun chars => ih chars fun h => absurd h hproper
  | measuring _ ih =>
      intro reader other h
      refine ih _ _ (.inl ?_) reader other h
      rw [h.cursor]

variable {edition : Edition}

theorem unnoticed_fetchBody (tracing : Bool) (spare : Nat) :
    Unnoticed text (fetchBody edition false spare) (fetchBody edition tracing spare) := by
  have h : Pairing.Abreast ⟨False, False, false, tracing⟩ _ (fun _ _ => True)
      (fetchBody edition false spare) (fetchBody edition tracing spare) :=
    abreast_fetchBody (.inl rfl)
  exact h.unnoticed not_false not_false rfl

theorem unnoticed_fetch (tracing ready : Bool) (spare : Nat) :
    Unnoticed text (fetch edition false ready spare) (fetch edition tracing ready spare) := by
  have h : Pairing.Abreast ⟨False, False, false, tracing⟩ _ _
      (fetch edition false ready spare) (fetch edition tracing ready spare) :=
    abreast_fetch (.inl rfl)
  exact h.unnoticed not_false not_false rfl

/-! ## Sessions -/

def Console.untraced (console : Console) : Console :=
  { console with emitted := console.emitted.filter fun emission => !emission.traced }

def Session.untraced (session : Session) : Session :=
  { session with console := session.console.untraced, traced := false }

theorem Console.untraced_trace (console : Console) (lines : List String) :
    (console.trace lines).untraced = console.untraced := by
  unfold Console.trace
  split
  · rfl
  · simp [Console.untraced, List.filter_map, Function.comp_def]

/-- The first session is the second one without its notes, and this is the text at hand. -/
structure Shadows (text : Array Char) (plain watched : Session) : Prop where
  same : plain = watched.untraced
  text : watched.cursor.text = text

theorem indifferent_shadows : Indifferent (Shadows text) (fun _ => True) := by
  refine ⟨⟨?_, ?_, ?_, ?_, fun _ => trivial⟩, ?_⟩
  · rintro _ watched ⟨rfl, -⟩
    rfl
  · rintro _ watched ⟨rfl, -⟩
    rfl
  · rintro _ watched output ⟨rfl, htext⟩
    exact ⟨rfl, htext⟩
  · rintro _ watched rest ⟨rfl, htext⟩
    exact ⟨rfl, htext⟩
  · rintro _ watched memory ⟨rfl, htext⟩
    exact ⟨rfl, htext⟩

def RunUnnoticed (text : Array Char) (first second : Run α) : Prop :=
  Concur (Shadows text) (fun _ => True) (fun _ => False) first second

theorem runUnnoticed_fetchNext (tracing : Bool) (passes : Nat) :
    RunUnnoticed text (fetchNext edition false passes) (fetchNext edition tracing passes) := by
  rintro _ watched ⟨rfl, htext⟩
  have hfetch (ready : Bool) : Unnoticed text (fetch edition false ready passes)
      (fetch edition tracing ready passes) := unnoticed_fetch tracing ready passes
  refine concur_reading (hfetch _) ?_ ?_ _ watched ⟨rfl, htext⟩
  · rintro _ session ⟨rfl, htext⟩
    exact ⟨htext, rfl, rfl, rfl⟩
  · rintro _ session reader other ⟨rfl, -⟩ h
    refine ⟨?_, (congrArg _ h.cursor).trans h.text⟩
    simp only [Session.untraced, Session.afterReading, h.cursor, h.quiet.2, Console.untraced_trace]
    rfl

theorem runUnnoticed_onCursor {first second : Run α} {cursor : Bits.Cursor}
    (h : RunUnnoticed cursor.text first second) :
    RunUnnoticed text (onCursor cursor first) (onCursor cursor second) := by
  refine concur_onCursor h ?_ ?_
  · rintro _ watched ⟨rfl, -⟩
    exact ⟨rfl, rfl⟩
  · rintro _ watched _ inner ⟨rfl, htext⟩ ⟨rfl, -⟩
    exact ⟨rfl, htext⟩

/-! ## Runs -/

/-- The induction is on the levels of nesting that are left; on a lower level neither run is
traced. -/
theorem runUnnoticed_executeAt (passes depth : Nat) (tracing : Bool) :
    RunUnnoticed text (executeAt edition passes depth false)
      (executeAt edition passes depth tracing) := by
  induction depth generalizing tracing text with
  | zero => exact .throw trivial
  | succ depth ih =>
      rintro _ watched ⟨rfl, htext⟩
      refine indifferent_shadows.executeText ?_ (runUnnoticed_fetchNext tracing passes)
        (fun body => runUnnoticed_onCursor (ih false)) (.inl rfl) (.inl rfl) _ watched ⟨rfl, htext⟩
      rintro _ session ⟨rfl, -⟩
      rfl

def mapSession (change : Session → Session) :
    EStateM.Result Stop Session α → EStateM.Result Stop Session α
  | .ok value session => .ok value (change session)
  | .error stop session => .error stop (change session)

theorem shadows_execute (limits : Limits) (tracing : Bool) (session : Session) :
    InAccord (Shadows session.cursor.text) (fun _ => True) (fun _ => False)
      (execute edition limits false session.untraced) (execute edition limits tracing session) :=
  runUnnoticed_executeAt limits.passes limits.depth tracing _ session ⟨rfl, rfl⟩

theorem execute_untraced (limits : Limits) (tracing : Bool) (session : Session) :
    execute edition limits false session.untraced =
      mapSession Session.untraced (execute edition limits tracing session) := by
  have hrelated := @shadows_execute edition limits tracing session
  generalize execute edition limits false session.untraced = plain at hrelated ⊢
  generalize execute edition limits tracing session = watched at hrelated ⊢
  cases hrelated with
  | ok h => rw [h.same, mapSession]
  | error h => rw [h.1, h.2.1.same, mapSession]
  | excused h => exact h.elim

theorem execute_text {limits : Limits} {tracing : Bool} {session after : Session}
    (h : execute edition limits tracing session = .ok () after) :
    after.cursor.text = session.cursor.text := by
  have hrelated := @shadows_execute edition limits tracing session
  generalize execute edition limits false session.untraced = plain at hrelated
  rw [h] at hrelated
  cases hrelated with
  | ok h => exact h.text
  | excused h => exact h.elim

/-- A traced run of a program ends as the plain run does, for the same reason, with the same
memory, at the same place in the text and with the same input left.  What it printed, without
the notes, is what the plain run printed. -/
theorem execute_start_untraced (limits : Limits) (code input : List Char) :
    execute .extended limits false (.start code false input) =
      mapSession Session.untraced (execute .extended limits true (.start code true input)) :=
  execute_untraced limits true (.start code true input)

end BitAssembly.Machine
