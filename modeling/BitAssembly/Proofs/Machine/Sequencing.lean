import BitAssembly.Proofs.Machine.Coupling
import BitAssembly.Proofs.Machine.Tracing

/-!
# Running a text with more behind it

A run that is closed or stops does so as well where its text goes on, and a run
that uses up its text is continued with what follows.  The end of the text is
the only thing that may be missed: what breaks off there need not do so in the
longer text.
-/

namespace BitAssembly.Machine

open BitAssembly.Bits
open BitAssembly.Text

/-! ## How a text ends -/

inductive TextEnd where
  | closed
  | exhausted
deriving DecidableEq, Repr

def finishText (edition : Edition) (tracing : Bool) (passes : Nat) (call : Body → Run Unit) :
    Nat → Run TextEnd
  | 0 => throw .unfinished
  | fuel + 1 => do
      if (← get).cursor.atEnd then return .exhausted
      let instruction ← fetchNext edition tracing passes
      if instruction = .close then return .closed
      perform passes call instruction
      finishText edition tracing passes call fuel

def finishAt (edition : Edition) (passes : Nat) : Nat → Bool → Run TextEnd
  | 0, _ => throw .tooDeep
  | depth + 1, tracing => do
      let session ← get
      let call := fun body => onCursor (.ofChars body) (executeAt edition passes depth false)
      finishText edition tracing passes call (session.cursor.text.size + 1 + passes)

def finish (edition : Edition) (limits : Limits) (tracing : Bool) : Run TextEnd :=
  finishAt edition limits.passes limits.depth tracing

variable {edition : Edition} {α : Type}

def forgetEnd : EStateM.Result Stop Session TextEnd → EStateM.Result Stop Session Unit
  | .ok _ session => .ok () session
  | .error stop session => .error stop session

def stop? {α : Type} : EStateM.Result Stop Session α → Option Stop
  | .ok _ _ => none
  | .error stop _ => some stop

theorem forgetEnd_apply (action : Run TextEnd) (session : Session) :
    (do let _ ← action : Run Unit) session = forgetEnd (action session) := by
  change EStateM.bind action _ session = _
  rw [EStateM.bind]
  cases action session <;> rfl

theorem executeText_eq (tracing : Bool) (passes : Nat) (call : Body → Run Unit) (fuel : Nat) :
    executeText edition tracing passes call fuel =
      (do let _ ← finishText edition tracing passes call fuel) := by
  induction fuel with
  | zero => rfl
  | succ fuel ih =>
      simp only [executeText, finishText, bind_assoc]
      refine bind_congr fun session => ?_
      split
      · rfl
      · simp only [bind_assoc]
        refine bind_congr fun instruction => ?_
        split
        · rfl
        · rw [ih, bind_assoc]

theorem execute_eq (limits : Limits) (tracing : Bool) :
    execute edition limits tracing = (do let _ ← finish edition limits tracing) := by
  rw [execute, finish]
  cases limits.depth with
  | zero => rfl
  | succ depth =>
      rw [executeAt, finishAt, bind_assoc]
      exact bind_congr fun session => executeText_eq tracing limits.passes _ _

theorem executeText_apply (tracing : Bool) (passes : Nat) (call : Body → Run Unit) (fuel : Nat)
    (session : Session) :
    executeText edition tracing passes call fuel session =
      forgetEnd (finishText edition tracing passes call fuel session) := by
  rw [executeText_eq, forgetEnd_apply]

theorem execute_apply (limits : Limits) (tracing : Bool) (session : Session) :
    execute edition limits tracing session = forgetEnd (finish edition limits tracing session) := by
  rw [execute_eq, forgetEnd_apply]

theorem finishText_end {session : Session} (hend : session.cursor.atEnd) (tracing : Bool)
    (passes : Nat) (call : Body → Run Unit) (fuel : Nat) :
    finishText edition tracing passes call (fuel + 1) session = .ok .exhausted session := by
  change (if session.cursor.atEnd then pure .exhausted else _ : Run TextEnd) session = _
  rw [if_pos hend]
  rfl

theorem finishText_step {session : Session} (hmore : ¬ session.cursor.atEnd) (tracing : Bool)
    (passes : Nat) (call : Body → Run Unit) (fuel : Nat) :
    finishText edition tracing passes call (fuel + 1) session =
      (do
        let instruction ← fetchNext edition tracing passes
        if instruction = .close then pure .closed else do
          perform passes call instruction
          finishText edition tracing passes call fuel : Run TextEnd) session := by
  change (if session.cursor.atEnd then pure .exhausted else _ : Run TextEnd) session = _
  rw [if_neg hmore]

/-! ## The sessions -/

/-- The sessions differ in their texts only. -/
structure Coupling.Sessions (coupling : Coupling) (first second : Session) : Prop where
  memory : second.memory = first.memory
  console : second.console = first.console
  readers : coupling.Readers first.reader second.reader

def Coupling.RunInStep (coupling : Coupling) (first second : Run α) : Prop :=
  Concur coupling.Sessions (fun _ => True) coupling.Excuses first second

variable {coupling : Coupling}

theorem Coupling.indifferent_sessions : Indifferent coupling.Sessions (fun _ => True) := by
  refine ⟨⟨fun h => h.memory, fun h => congrArg _ h.console, fun text h => ?_, fun rest h => ?_,
    fun _ => trivial⟩, fun memory h => ⟨rfl, h.console, h.readers⟩⟩
  · refine ⟨h.memory, ?_, h.readers⟩
    rw [Session.printing, Session.printing, h.console]
  · refine ⟨h.memory, ?_, h.readers⟩
    simp only [h.console]

theorem Coupling.Sessions.afterReading {first second : Session} {reader other : Reader}
    (h : coupling.Sessions first second) (hreaders : coupling.Readers reader other) :
    coupling.Sessions (first.afterReading reader) (second.afterReading other) := by
  refine ⟨h.memory, ?_, ⟨hreaders.valid, hreaders.cursor, ⟨h.readers.quiet.1, rfl⟩,
    ⟨h.readers.silent.1, rfl⟩⟩⟩
  simp only [Session.afterReading, hreaders.quiet.2, hreaders.silent.2, h.console]

theorem runInStep_fetchNext (passes : Nat) :
    coupling.RunInStep (fetchNext edition false passes) (fetchNext edition false passes) := by
  intro session other hsessions
  have hfetch (ready : Bool) : coupling.InStep (fetch edition false ready passes) _ :=
    inStep_fetch ready passes
  change Related _ _ _ _ (reading (fetch edition false other.memory.page?.isSome passes) other)
  rw [hsessions.memory]
  exact concur_reading (hfetch _) (fun h => h.readers) (fun h => h.afterReading) session other
    hsessions

theorem runInStep_onCursor (cursor : Cursor) (action : Run Unit) :
    coupling.RunInStep (onCursor cursor action) (onCursor cursor action) := by
  refine concur_onCursor (.refl action) (fun h => ?_) ?_
  · rw [h.memory, h.console]
  · rintro session other inner _ h rfl
    exact ⟨rfl, rfl, h.readers⟩

/-! ## The runs -/

/-- How a run goes on where its text does; `proceed` runs a text with so much fuel. -/
inductive Coupling.Follows (coupling : Coupling) (proceed : Nat → Run TextEnd) :
    EStateM.Result Stop Session TextEnd → EStateM.Result Stop Session TextEnd → Prop
  | closed {first second} (h : coupling.Sessions first second) :
      Follows coupling proceed (.ok .closed first) (.ok .closed second)
  | exhausted {first second fuel} (h : coupling.Sessions first second)
      (hend : first.cursor.rest = []) (hfuel : coupling.more.length < fuel) :
      Follows coupling proceed (.ok .exhausted first) (proceed fuel second)
  | stopped {stop first second} (h : coupling.Sessions first second) :
      Follows coupling proceed (.error stop first) (.error stop second)
  | excused {stop first result} (h : coupling.Excuses stop) :
      Follows coupling proceed (.error stop first) result

theorem Coupling.Follows.bind {proceed : Nat → Run TextEnd} {first second : Run α}
    {next later : α → Run TextEnd} {session other : Session}
    (hfirst : InAccord coupling.Sessions (fun _ => True) coupling.Excuses (first session)
      (second other))
    (hnext : ∀ value after another, first session = .ok value after →
      coupling.Sessions after another →
        coupling.Follows proceed (next value after) (later value another)) :
    coupling.Follows proceed ((first >>= next) session) ((second >>= later) other) := by
  change coupling.Follows proceed (EStateM.bind first next session)
    (EStateM.bind second later other)
  rw [EStateM.bind, EStateM.bind]
  revert hfirst hnext
  generalize first session = result
  generalize second other = result'
  intro hfirst hnext
  cases hfirst with
  | ok h => exact hnext _ _ _ rfl h
  | error h =>
      obtain ⟨rfl, h, -⟩ := h
      exact .stopped h
  | excused h => exact .excused h

theorem Coupling.Sessions.atEnd_iff {first second : Session} (h : coupling.Sessions first second) :
    second.cursor.atEnd ↔ first.cursor.atEnd ∧ coupling.more = [] := by
  have hvalid : first.cursor.Valid := h.readers.valid
  have hcursor : second.cursor = first.cursor.within coupling.before coupling.more :=
    h.readers.cursor
  have hnonneg := hvalid.nonneg
  have hpos : 0 ≤ second.cursor.pos := by
    rw [hcursor]
    simp only [Cursor.within]
    omega
  rw [Cursor.atEnd_iff _ hpos, Cursor.atEnd_iff _ hnonneg, hcursor, hvalid.rest_within,
    List.append_eq_nil_iff]

theorem Coupling.Sessions.goesOn {first second : Session} (h : coupling.Sessions first second)
    (hend : first.cursor.rest = []) : second.GoesOn coupling.more := by
  have hreaders := h.readers
  have hvalid : first.cursor.Valid := hreaders.valid
  have hcursor : second.cursor = first.cursor.within coupling.before coupling.more :=
    hreaders.cursor
  have hnonneg := hvalid.nonneg
  have hwithin := hvalid.within
  refine ⟨⟨hreaders.silent.1, ?_, ?_⟩, ?_⟩
  · rw [Session.reader, hcursor]
    simp only [Cursor.within]
    omega
  · rw [Session.reader, hcursor]
    simp only [Cursor.within, Array.size_append, List.size_toArray]
    omega
  · rw [hcursor, hvalid.rest_within, hend, List.nil_append]

/-- The induction is on the fuel of the first run; each instruction takes characters from the
text as it takes fuel from both runs, so neither runs out. -/
theorem follows_finishText {call answer : Body → Run Unit}
    (hcall : ∀ body, coupling.RunInStep (call body) (answer body))
    (hstays : ∀ body, Stationary (call body)) (passes : Nat) {fuel other : Nat}
    {first second : Session} (hsessions : coupling.Sessions first second)
    (hfuel : first.cursor.rest.length < fuel)
    (hother : first.cursor.rest.length + coupling.more.length < other) :
    coupling.Follows (finishText edition false passes answer)
      (finishText edition false passes call fuel first)
      (finishText edition false passes answer other second) := by
  induction fuel generalizing other first second with
  | zero => omega
  | succ fuel ih =>
      by_cases hend : first.cursor.atEnd
      · have hnone := (Cursor.atEnd_iff _ hsessions.readers.valid.nonneg).mp hend
        rw [finishText_end hend]
        exact .exhausted hsessions hnone (by omega)
      · obtain ⟨other, rfl⟩ := Nat.exists_eq_add_one.mpr (show 0 < other by omega)
        have hmore : ¬ second.cursor.atEnd := fun h => hend (hsessions.atEnd_iff.mp h).1
        rw [finishText_step hend, finishText_step hmore]
        refine .bind (runInStep_fetchNext passes first second hsessions) ?_
        intro instruction fetched twin hfetch hfetched
        obtain ⟨-, bits, hfound, hrest, -⟩ := fetchNext_found hsessions.readers.valid hfetch
        have hlength := congrArg List.length hrest
        have hsize := hfound.size
        rw [List.length_append] at hlength
        split
        · exact .closed hfetched
        · refine .bind (Coupling.indifferent_sessions.perform hcall (.inl rfl) instruction fetched
            twin hfetched) fun _ after another hperform hafter => ?_
          rw [← (Stationary.perform hstays passes instruction).eq_ok hperform] at hlength
          exact ih hafter (by omega) (by omega)

theorem sessions_onto {text : List Char} (htext : AllBits text) (more : List Char)
    (session : Session) :
    Coupling.Sessions ⟨[], more⟩ (session.onto text) (session.onto (text ++ more)) := by
  refine ⟨rfl, rfl, ⟨htext, Int.le_refl 0, Int.natCast_nonneg _⟩, ?_, ⟨rfl, rfl⟩, ⟨rfl, rfl⟩⟩
  simp [Session.reader, Session.onto, Cursor.within, Cursor.ofChars]

theorem follows_finish {text : List Char} (htext : AllBits text) (more : List Char)
    (limits : Limits) (session : Session) :
    Coupling.Follows ⟨[], more⟩
      (finishText edition false limits.passes fun body =>
        onCursor (.ofChars body) (executeAt edition limits.passes (limits.depth - 1) false))
      (finish edition limits false (session.onto text))
      (finish edition limits false (session.onto (text ++ more))) := by
  have hsessions := sessions_onto htext more session
  rw [finish]
  cases limits.depth with
  | zero => exact .stopped hsessions
  | succ depth =>
      refine follows_finishText (fun body => runInStep_onCursor _ _)
        (fun body => stationary_onCursor _ _) limits.passes hsessions ?_ ?_
      · rw [(session.goesOn_onto text).rest]
        simp only [Session.onto, Cursor.ofChars, List.size_toArray]
        omega
      · rw [(session.goesOn_onto text).rest]
        simp only [Session.onto, Cursor.ofChars, List.size_toArray, List.length_append]
        omega

/-! ## Texts in a row -/

def Session.within (session : Session) (before more : List Char) : Session :=
  { session with cursor := session.cursor.within before more }

theorem Coupling.Sessions.eq_within {first second : Session} (h : coupling.Sessions first second) :
    second = first.within coupling.before coupling.more := by
  obtain ⟨memory, console, cursor, traced⟩ := second
  obtain ⟨rfl, rfl, -, hcursor, hquiet, hsilent⟩ := h
  have htraced : traced = first.traced := hsilent.1.trans hquiet.1.symm
  have hplace : cursor = first.cursor.within coupling.before coupling.more := hcursor
  rw [Session.within, htraced, hplace]

theorem Coupling.Sessions.behind {text more : List Char} {first second : Session}
    (h : Coupling.Sessions ⟨[], more⟩ first second) (hend : first.cursor.rest = [])
    (htext : first.cursor.text = text.toArray) (hmore : AllBits more) :
    Coupling.Sessions ⟨text, []⟩ (first.onto more) second := by
  have hreaders := h.readers
  have hvalid : first.cursor.Valid := hreaders.valid
  have hnonneg := hvalid.nonneg
  have hwithin := hvalid.within
  have hnone := congrArg List.length hend
  rw [Cursor.rest, List.length_drop, Array.length_toList, List.length_nil] at hnone
  have hpos : first.cursor.pos = text.length := by
    rw [htext, List.size_toArray] at hwithin hnone
    omega
  refine ⟨h.memory, h.console, ⟨hmore, Int.le_refl 0, Int.natCast_nonneg _⟩, ?_, ⟨rfl, rfl⟩,
    hreaders.silent⟩
  have hcursor : second.cursor = first.cursor.within [] more := hreaders.cursor
  change second.cursor = (Cursor.ofChars more.toArray).within text []
  simp [hcursor, Cursor.within, Cursor.ofChars, htext, hpos]

theorem Coupling.Follows.eq_mapSession {passes : Nat} {answer : Body → Run Unit}
    {before : List Char} {result whole : EStateM.Result Stop Session TextEnd}
    (h : Coupling.Follows ⟨before, []⟩ (finishText edition false passes answer) result whole) :
    whole = mapSession (fun session => session.within before []) result := by
  cases h with
  | closed h => rw [h.eq_within, mapSession]
  | stopped h => rw [h.eq_within, mapSession]
  | @exhausted first second fuel h hnone hfuel =>
      obtain ⟨fuel, rfl⟩ := Nat.exists_eq_add_one.mpr (Nat.zero_lt_of_lt hfuel)
      have hend := (Cursor.atEnd_iff _ h.readers.valid.nonneg).mpr hnone
      rw [finishText_end (h.atEnd_iff.mpr ⟨hend, rfl⟩), h.eq_within, mapSession]
  | excused h => exact absurd rfl h.1

theorem finishText_behind {text more : List Char} {first second : Session} {limits : Limits}
    {fuel : Nat} (h : Coupling.Sessions ⟨[], more⟩ first second) (hend : first.cursor.rest = [])
    (htext : first.cursor.text = text.toArray) (hmore : AllBits more) (hfuel : more.length < fuel)
    (hdepth : limits.depth ≠ 0) :
    finishText edition false limits.passes (fun body =>
        onCursor (.ofChars body) (executeAt edition limits.passes (limits.depth - 1) false))
        fuel second =
      mapSession (fun session => session.within text [])
        (finish edition limits false (first.onto more)) := by
  obtain ⟨depth, passes⟩ := limits
  obtain ⟨depth, rfl⟩ := Nat.exists_eq_add_one_of_ne_zero hdepth
  refine (follows_finishText (fun body => runInStep_onCursor _ _)
    (fun body => stationary_onCursor _ _) passes (h.behind hend htext hmore) ?_ ?_).eq_mapSession
  · rw [(first.goesOn_onto more).rest]
    simp only [Session.onto, Cursor.ofChars, List.size_toArray]
    omega
  · rw [(first.goesOn_onto more).rest]
    simpa using hfuel

theorem forgetEnd_mapSession (change : Session → Session)
    (result : EStateM.Result Stop Session TextEnd) :
    forgetEnd (mapSession change result) = mapSession change (forgetEnd result) := by
  cases result <;> rfl

/-- A run that uses up its text goes on, where the text does, as a run on what follows would,
with the memory, the output and the input that the first run left.  A run that meets a closing
mark or stops does so at the same place of the longer text, unless the end of its text stopped
it. -/
theorem execute_append (edition : Edition) (limits : Limits) (session : Session)
    {first second : List Char} (hfirst : AllBits first) (hsecond : AllBits second) :
    let alone := finish edition limits false (session.onto first)
    let whole := execute edition limits false (session.onto (first ++ second))
    execute edition limits false (session.onto first) = forgetEnd alone ∧
      (∀ after, alone = .ok .exhausted after →
        whole = mapSession (fun later => later.within first [])
          (execute edition limits false (after.onto second))) ∧
      (∀ after, alone = .ok .closed after → whole = .ok () (after.within [] second)) ∧
      (∀ stop after, alone = .error stop after → stop ≠ .fault .endOfText →
        whole = .error stop (after.within [] second)) := by
  intro alone whole
  have halone : execute edition limits false (session.onto first) = forgetEnd alone :=
    execute_apply limits false _
  have hwhole : whole = forgetEnd (finish edition limits false (session.onto (first ++ second))) :=
    execute_apply limits false _
  have hfollows := @follows_finish edition first hfirst second limits session
  change Coupling.Follows _ _ alone _ at hfollows
  refine ⟨halone, ?_, ?_, ?_⟩
  · intro after hafter
    have hdepth : limits.depth ≠ 0 := by
      intro hnone
      have hdeep : alone = .error .tooDeep (session.onto first) := by
        simp only [alone, finish, hnone]
        rfl
      rw [hdeep] at hafter
      cases hafter
    rw [hafter] at hfollows halone
    have htext : after.cursor.text = first.toArray := execute_text halone
    rw [hwhole, execute_apply, ← forgetEnd_mapSession]
    generalize finish edition limits false (session.onto (first ++ second)) = result at hfollows
    cases hfollows with
    | exhausted h hend hfuel => rw [finishText_behind h hend htext hsecond hfuel hdepth]
  · intro after hafter
    rw [hafter] at hfollows
    rw [hwhole]
    generalize finish edition limits false (session.onto (first ++ second)) = result at hfollows ⊢
    cases hfollows with
    | closed h => rw [h.eq_within, forgetEnd]
  · intro stop after hafter hstop
    rw [hafter] at hfollows
    rw [hwhole]
    generalize finish edition limits false (session.onto (first ++ second)) = result at hfollows ⊢
    cases hfollows with
    | stopped h => rw [h.eq_within, forgetEnd]
    | excused h => exact absurd h.2 hstop

theorem execute_append_input :
    let session := Session.start [] false "7\n9\n".toList
    let first := "111110010".toList
    let second := "111110011100010010".toList
    AllBits first ∧ AllBits second ∧
      ∃ after, finish .basic ⟨9, 0⟩ false (session.onto first) = .ok .exhausted after ∧
        execute .basic ⟨9, 0⟩ false (session.onto (first ++ second)) =
          mapSession (fun later => later.within first [])
            (execute .basic ⟨9, 0⟩ false (after.onto second)) := by
  have hend : ∃ after, finish .basic ⟨9, 0⟩ false
      ((Session.start [] false "7\n9\n".toList).onto "111110010".toList) =
        .ok .exhausted after := ⟨_, rfl⟩
  intro session first second
  have hfirst : AllBits first := by
    have hall : first.all isBit := by decide +kernel
    exact List.all_eq_true.mp hall
  have hsecond : AllBits second := by
    have hall : second.all isBit := by decide +kernel
    exact List.all_eq_true.mp hall
  obtain ⟨after, hafter⟩ := hend
  obtain ⟨-, hexhausted, -⟩ := execute_append .basic ⟨9, 0⟩ session hfirst hsecond
  exact ⟨hfirst, hsecond, after, hafter, hexhausted after hafter⟩

end BitAssembly.Machine
