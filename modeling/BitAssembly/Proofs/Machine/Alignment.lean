import BitAssembly.Proofs.Machine.Termination

/-!
# Where a run fetches its instructions

Branches, loops and calls run texts of their own, and an instruction has the same
bits whatever the machine holds.  So all runs of one text fetch at the same
places of it, as far as they go.
-/

namespace BitAssembly.Machine

open BitAssembly.Bits
open BitAssembly.Text

/-! ## Courses -/

/-- The places at which a run fetches from its text, and what becomes of it. -/
structure Course where
  places : List Int
  result : EStateM.Result Stop Session Unit

def Course.ending (result : EStateM.Result Stop Session Unit) : Course :=
  ⟨[], result⟩

def Course.behind (course : Course) (place : Int) : Course :=
  { course with places := place :: course.places }

/-- Fetches and performs one instruction, and says whether the text goes on behind it. -/
def takeStep (edition : Edition) (tracing : Bool) (passes : Nat) (call : Body → Run Unit) :
    Run Bool := do
  let instruction ← fetchNext edition tracing passes
  if instruction = .close then return false
  perform passes call instruction
  return true

def followText (edition : Edition) (tracing : Bool) (passes : Nat) (call : Body → Run Unit) :
    Nat → Session → Course
  | 0, session => .ending (.error .unfinished session)
  | fuel + 1, session =>
      if session.cursor.atEnd then .ending (.ok () session)
      else
        let course : Course :=
          match takeStep edition tracing passes call session with
          | .error stop after => .ending (.error stop after)
          | .ok false after => .ending (.ok () after)
          | .ok true after => followText edition tracing passes call fuel after
        course.behind session.cursor.pos

def follow (edition : Edition) (limits : Limits) (tracing : Bool) (session : Session) : Course :=
  match limits.depth with
  | 0 => .ending (.error .tooDeep session)
  | depth + 1 =>
      followText edition tracing limits.passes (callBody edition ⟨depth, limits.passes⟩)
        (session.cursor.text.size + 1 + limits.passes) session

variable {edition : Edition} {passes : Nat} {call : Body → Run Unit}

theorem executeText_takeStep {session : Session} (hmore : ¬ session.cursor.atEnd) (tracing : Bool)
    (fuel : Nat) :
    executeText edition tracing passes call (fuel + 1) session =
      (do
        let goes ← takeStep edition tracing passes call
        if goes then executeText edition tracing passes call fuel : Run Unit) session := by
  rw [executeText_more hmore, takeStep, bind_assoc]
  refine congrFun (congrArg _ (funext fun instruction => ?_)) session
  by_cases hclose : instruction = .close
  · simp [hclose]
  · simp [hclose]

theorem followText_result (tracing : Bool) (fuel : Nat) (session : Session) :
    (followText edition tracing passes call fuel session).result =
      executeText edition tracing passes call fuel session := by
  induction fuel generalizing session with
  | zero => rfl
  | succ fuel ih =>
      unfold followText
      by_cases hend : session.cursor.atEnd
      · rw [if_pos hend]
        change _ = (if session.cursor.atEnd then pure () else _ : Run Unit) session
        rw [if_pos hend]
        rfl
      · rw [if_neg hend, executeText_takeStep hend]
        cases hstep : takeStep edition tracing passes call session with
        | error stop after =>
            rw [bind_of_error hstep]
            rfl
        | ok goes after =>
            rw [bind_of_ok hstep]
            cases goes with
            | false => rfl
            | true => exact ih after

theorem follow_result (limits : Limits) (tracing : Bool) (session : Session) :
    (follow edition limits tracing session).result = execute edition limits tracing session := by
  obtain ⟨depth, passes⟩ := limits
  cases depth with
  | zero => rfl
  | succ depth => exact followText_result tracing _ session

/-! ## Aligned courses -/

/-- The courses share their places until one of them is stopped, or both end at one place. -/
inductive Course.Aligned : Course → Course → Prop
  | stopped {stop : Stop} {after : Session} (course : Course) :
      Aligned (.ending (.error stop after)) course
  | overtaken {stop : Stop} {after : Session} (course : Course) :
      Aligned course (.ending (.error stop after))
  | ended {after later : Session} (h : later.cursor = after.cursor) :
      Aligned (.ending (.ok () after)) (.ending (.ok () later))
  | behind {one two : Course} (h : Aligned one two) (place : Int) :
      Aligned (one.behind place) (two.behind place)

theorem Course.Aligned.comparable {one two : Course} (h : one.Aligned two) :
    one.places <+: two.places ∨ two.places <+: one.places := by
  induction h with
  | stopped course => exact .inl List.nil_prefix
  | overtaken course => exact .inr List.nil_prefix
  | ended h => exact .inl List.nil_prefix
  | behind h place ih => simpa [Course.behind, List.prefix_cons_inj] using ih

theorem Course.Aligned.normal {one two : Course} (h : one.Aligned two) {after later : Session}
    (hone : one.result = .ok () after) (htwo : two.result = .ok () later) :
    two.places = one.places ∧ later.cursor = after.cursor := by
  induction h with
  | stopped course => cases hone
  | overtaken course => cases htwo
  | ended h =>
      cases hone
      cases htwo
      exact ⟨rfl, h⟩
  | behind h place ih =>
      obtain ⟨hplaces, hcursor⟩ := ih hone htwo
      exact ⟨congrArg (List.cons place) hplaces, hcursor⟩

/-! ## Two fetches at one place -/

theorem landing_fetch {tracing ready : Bool} {spare more : Nat} {reader after : Reader}
    {instruction : Instruction} (hmore : spare ≤ more)
    (h : fetch edition tracing ready spare reader = .ok instruction after) :
    landing (fetch edition false ready more reader.plain) = (.ok instruction, after.cursor) := by
  have hplain : landing (fetch edition tracing ready spare reader) = _ :=
    (unnoticed_fetch tracing ready spare).landing reader
  rw [h] at hplain
  obtain ⟨last, hlast, hcursor⟩ := exists_of_landing hplain.symm
  have hgrants : Grants (fetch edition false ready spare) (fetch edition false ready more) :=
    grants_fetch hmore false ready
  have hrelated := hgrants reader.plain reader.plain rfl
  rw [hlast] at hrelated
  generalize fetch edition false ready more reader.plain = result at hrelated ⊢
  cases hrelated with
  | ok h => rw [← h, landing, hcursor]

theorem fetchNext_eq_ok {tracing : Bool} {session fetched : Session} {instruction : Instruction}
    (h : fetchNext edition tracing passes session = .ok instruction fetched) :
    ∃ reader, fetch edition tracing session.memory.page?.isSome passes session.reader =
        .ok instruction reader ∧
      fetched = session.afterReading reader := by
  change reading (fetch edition tracing session.memory.page?.isSome passes) session = _ at h
  rw [reading] at h
  split at h
  · next reader hfetch =>
      cases h
      exact ⟨reader, hfetch, rfl⟩
  · cases h

theorem fetchNext_agree {first second fetched other : Session} {tracing watched : Bool}
    {more : Nat} {instruction another : Instruction} (hfirst : first.Sound)
    (hsecond : second.Sound) (hcursor : second.cursor = first.cursor)
    (h : fetchNext edition tracing passes first = .ok instruction fetched)
    (h' : fetchNext edition watched more second = .ok another other) :
    another = instruction ∧ other.cursor = fetched.cursor := by
  obtain ⟨reader, hread, rfl⟩ := fetchNext_eq_ok h
  obtain ⟨later, hlater, rfl⟩ := fetchNext_eq_ok h'
  rw [hfirst.ready] at hread
  rw [hsecond.ready] at hlater
  have hone := landing_fetch (Nat.le_max_left passes more) hread
  have htwo := landing_fetch (Nat.le_max_right passes more) hlater
  have hplain : second.reader.plain = first.reader.plain := by
    simp only [Reader.plain, Session.reader, hcursor]
  rw [hplain, hone] at htwo
  simp only [Prod.mk.injEq, Except.ok.injEq] at htwo
  exact ⟨htwo.1.symm, htwo.2.symm⟩

/-! ## Two runs of one text -/

theorem takeStep_eq_ok {tracing goes : Bool} {session after : Session}
    (h : takeStep edition tracing passes call session = .ok goes after) :
    ∃ instruction fetched, fetchNext edition tracing passes session = .ok instruction fetched ∧
      (instruction = .close ∧ goes = false ∧ after = fetched ∨
        instruction ≠ .close ∧ goes = true ∧
          perform passes call instruction fetched = .ok () after) := by
  obtain ⟨instruction, fetched, hfetch, hrest⟩ := bind_eq_ok h
  refine ⟨instruction, fetched, hfetch, ?_⟩
  split at hrest
  · next hclose =>
      cases hrest
      exact .inl ⟨hclose, rfl, rfl⟩
  · next hclose =>
      obtain ⟨_, _, hperform, hlast⟩ := bind_eq_ok hrest
      cases hlast
      exact .inr ⟨hclose, rfl, hperform⟩

theorem takeStep_sound {limits : Limits} {tracing goes : Bool} {session after : Session}
    (hsound : session.Sound)
    (h : takeStep edition tracing passes (callBody edition limits) session = .ok goes after) :
    after.Sound ∧ ∃ instruction fetched,
      fetchNext edition tracing passes session = .ok instruction fetched ∧
      goes = !decide (instruction = .close) ∧ after.cursor = fetched.cursor := by
  obtain ⟨instruction, fetched, hfetch, hcases⟩ := takeStep_eq_ok h
  have hfetched := @fetchNext_sound edition session tracing passes hsound
  rw [hfetch] at hfetched
  obtain ⟨⟨hsound, -⟩, hregular⟩ := hfetched
  obtain ⟨hclose, rfl, rfl⟩ | ⟨hclose, rfl, hperform⟩ := hcases
  · exact ⟨hsound, instruction, after, hfetch, by simp [hclose], rfl⟩
  · have hafter : after.Sound := Safe.eq_ok
      (matches_perform (fun _ hbody => safe_callBody limits hbody) passes hregular) hsound hperform
    refine ⟨hafter, instruction, fetched, hfetch, by simp [hclose], ?_⟩
    exact (Stationary.perform (fun _ => stationary_onCursor _ _) passes instruction).eq_ok hperform

section

variable {first second : Session} (hfirst : first.Sound) (hsecond : second.Sound)
  (hcursor : second.cursor = first.cursor) {limits other : Limits} {tracing watched : Bool}
  {more : Nat}

include hfirst hsecond hcursor

theorem takeStep_agree {after later : Session} {goes went : Bool}
    (h : takeStep edition tracing passes (callBody edition limits) first = .ok goes after)
    (h' : takeStep edition watched more (callBody edition other) second = .ok went later) :
    went = goes ∧ later.cursor = after.cursor := by
  obtain ⟨-, instruction, fetched, hfetch, rfl, hplace⟩ := takeStep_sound hfirst h
  obtain ⟨-, another, reached, hfetch', rfl, hplace'⟩ := takeStep_sound hsecond h'
  obtain ⟨rfl, hmoved⟩ := fetchNext_agree hfirst hsecond hcursor hfetch hfetch'
  exact ⟨rfl, by rw [hplace', hmoved, hplace]⟩

theorem aligned_followText (fuel supply : Nat) :
    (followText edition tracing passes (callBody edition limits) fuel first).Aligned
      (followText edition watched more (callBody edition other) supply second) := by
  -- The runs may have different fuel, and the one that is out of it stops.
  induction fuel generalizing supply first second with
  | zero => exact .stopped _
  | succ fuel ih =>
      cases supply with
      | zero => exact .overtaken _
      | succ supply =>
          unfold followText
          rw [hcursor]
          by_cases hend : first.cursor.atEnd
          · rw [if_pos hend, if_pos hend]
            exact .ended hcursor
          · rw [if_neg hend, if_neg hend]
            apply Course.Aligned.behind
            cases hone : takeStep edition tracing passes (callBody edition limits) first with
            | error stop after => exact .stopped _
            | ok goes after =>
                cases htwo : takeStep edition watched more (callBody edition other) second with
                | error stop later => exact .overtaken _
                | ok went later =>
                    obtain ⟨rfl, hsame⟩ := takeStep_agree hfirst hsecond hcursor hone htwo
                    have hafter := (takeStep_sound hfirst hone).1
                    have hlater := (takeStep_sound hsecond htwo).1
                    cases went with
                    | false => exact .ended hsame
                    | true => exact ih hafter hlater hsame supply

theorem aligned_follow :
    (follow edition limits tracing first).Aligned (follow edition other watched second) := by
  obtain ⟨depth, passes⟩ := limits
  obtain ⟨levels, more⟩ := other
  cases depth with
  | zero => exact .stopped _
  | succ depth =>
      cases levels with
      | zero => exact .overtaken _
      | succ levels => exact aligned_followText hfirst hsecond hcursor _ _

end

/-- Two runs from one place of a text of bits, whatever the machines hold and whatever is typed,
fetch their instructions at the same places as long as both go on; and runs that end normally
end at the same place. -/
theorem follow_places_agree (edition : Edition) (first second : Session) (hfirst : first.Sound)
    (hsecond : second.Sound) (hcursor : second.cursor = first.cursor) (limits other : Limits)
    (tracing watched : Bool) :
    let one := follow edition limits tracing first
    let two := follow edition other watched second
    one.result = execute edition limits tracing first ∧
      two.result = execute edition other watched second ∧
      (one.places <+: two.places ∨ two.places <+: one.places) ∧
      ∀ after later, one.result = .ok () after → two.result = .ok () later →
        two.places = one.places ∧ later.cursor = after.cursor := by
  intro one two
  have haligned : one.Aligned two := aligned_follow hfirst hsecond hcursor
  refine ⟨follow_result limits tracing first, follow_result other watched second,
    haligned.comparable, ?_⟩
  intro after later hone htwo
  exact haligned.normal hone htwo

theorem eq_ok_of_stop? {result : EStateM.Result Stop Session Unit} (h : stop? result = none) :
    result = .ok () (sessionAfter result) := by
  cases result with
  | ok value after => rfl
  | error stop after => cases h

/-- A loop with as many passes as are typed pushes what is popped behind it: two passes, none
before an empty stack, and none on another page before a stack that holds a value. -/
theorem follow_places_agree_typed :
    let code := "111110100101001010000110001001100011010110000".toList
    let first := Session.start code false ['2']
    let second := Session.start code true ['0']
    let third := { second with memory := { second.memory with page := 3, stack := [9] } }
    let one := follow .extended ⟨3, 9⟩ false first
    let two := follow .extended ⟨2, 50⟩ true second
    let three := follow .extended ⟨2, 50⟩ true third
    first.Sound ∧ second.Sound ∧ third.Sound ∧
      stop? one.result = none ∧ one.places = [0, 9, 32, 42] ∧
      stop? two.result = some (.fault .emptyStack) ∧ two.places = [0, 9, 32] ∧
      (one.places <+: two.places ∨ two.places <+: one.places) ∧
      stop? three.result = none ∧ three.places = one.places ∧
      (sessionAfter three.result).cursor = (sessionAfter one.result).cursor := by
  intro code first second third one two three
  have hcode : AllBits code := by
    have hall : code.all isBit := by decide +kernel
    exact List.all_eq_true.mp hall
  have hfirst : first.Sound := Session.sound_start hcode false ['2']
  have hsecond : second.Sound := Session.sound_start hcode true ['0']
  have hmemory : third.memory.Sound :=
    ⟨by decide, Memory.sound_initial.registers, by simp [third], Memory.sound_initial.names,
      Memory.sound_initial.shared⟩
  have hthird : third.Sound := ⟨hmemory, hsecond.bodies, hsecond.cursor⟩
  have hone : stop? one.result = none := by decide +kernel
  have hthree : stop? three.result = none := by decide +kernel
  obtain ⟨-, -, hcomparable, -⟩ :=
    follow_places_agree .extended first second hfirst hsecond rfl ⟨3, 9⟩ ⟨2, 50⟩ false true
  obtain ⟨-, -, -, hnormal⟩ :=
    follow_places_agree .extended first third hfirst hthird rfl ⟨3, 9⟩ ⟨2, 50⟩ false true
  obtain ⟨hplaces, hcursor⟩ := hnormal _ _ (eq_ok_of_stop? hone) (eq_ok_of_stop? hthree)
  exact ⟨hfirst, hsecond, hthird, hone, by decide +kernel, by decide +kernel, by decide +kernel,
    hcomparable, hthree, hplaces, hcursor⟩

end BitAssembly.Machine
