import BitAssembly.Proofs.Machine.Collecting
import BitAssembly.Proofs.Machine.Failures

/-!
# What a run is bound to

A policy says at which places of a text a run may be, which bodies it may have
stored, and for which reasons it may stop.  If what is fetched at such a place
is within the policy, then so is the whole run, with all the blocks and
functions in it.  Only definitions touch the functions, so what a policy asks of
stored bodies is asked where they are fetched.
-/

namespace BitAssembly.Machine

open BitAssembly.Bits
open BitAssembly.Text

def BehindMark (cursor : Cursor) : Prop :=
  ∃ front back : List Char, cursor.text.toList = front ++ (['1', '1', '0'] ++ back) ∧
    cursor.pos = front.length + 3

structure Policy where
  place : Cursor → Prop
  stored : Body → Prop
  stops : Stop → Prop

namespace Policy

variable {edition : Edition} {passes : Nat} {call : Body → Run Unit}

structure Holds (policy : Policy) (session : Session) : Prop where
  sound : session.Sound
  stored : ∀ entry ∈ session.memory.functions, policy.stored entry.2

def Admits (policy : Policy) : Instruction → Prop
  | .onlyIf _ body => policy.place (.ofChars body)
  | .times _ body => policy.place (.ofChars body)
  | .count _ _ body => policy.place (.ofChars body)
  | .whileTrue _ body => policy.place (.ofChars body)
  | .define _ body => policy.stored body
  | _ => True

/-- A policy that fetching does not break: at a place of the policy it finds an instruction that
is admitted, and is at such a place again. -/
structure Lawful (policy : Policy) (edition : Edition) : Prop where
  empty : policy.stored #[]
  call : ∀ {body}, policy.stored body → policy.place (.ofChars body)
  raised : ∀ {stop}, stop ≠ .fault .endOfText → policy.stops stop
  fetch : ∀ {tracing passes session}, session.Sound → policy.place session.cursor →
    ¬ session.cursor.atEnd →
      match fetchNext edition tracing passes session with
      | .ok instruction fetched =>
          policy.Admits instruction ∧ (instruction ≠ .close → policy.place fetched.cursor)
      | .error stop _ => policy.stops stop

def Guides (policy : Policy) (action : Run Unit) : Prop :=
  Concur (Single policy.Holds) policy.stops (fun _ => False) action action

variable {policy : Policy} {instruction : Instruction}

theorem Holds.change {session : Session} (h : policy.Holds session) (hempty : policy.stored #[])
    (hregular : instruction.Regular edition) (hadmits : policy.Admits instruction)
    {change : Memory → Memory} (hchange : instruction.change? = some change) :
    policy.Holds { session with memory := change session.memory } := by
  refine ⟨h.sound.change hregular hchange, ?_⟩
  cases instruction with
  | selectPage page =>
      cases hchange
      exact h.stored
  | define name body =>
      cases hchange
      exact forall_mem_insert h.stored hadmits
  | undefine name =>
      cases hchange
      exact forall_mem_insert h.stored hempty
  | _ => cases hchange

variable (hlawful : policy.Lawful edition)

include hlawful

theorem Lawful.indistinct : Indistinct (Single policy.Holds) policy.stops := by
  refine ⟨.single ?_ ?_ hlawful.raised, ?_, ?_⟩
  · exact fun _ h => ⟨⟨h.sound.memory, h.sound.bodies, h.sound.cursor⟩, h.stored⟩
  · exact fun _ h => ⟨⟨h.sound.memory, h.sound.bodies, h.sound.cursor⟩, h.stored⟩
  · rintro _ session address value memory ⟨rfl, h⟩ hstore
    have hframe := h.sound.memory.store hstore
    refine ⟨rfl, (indistinct_sound.store ⟨rfl, h.sound⟩ hstore).2, ?_⟩
    rw [hframe.2]
    exact h.stored
  · rintro _ session stack ⟨rfl, h⟩ hstack
    exact ⟨rfl, (indistinct_sound.stack ⟨rfl, h.sound⟩ hstack).2, h.stored⟩

theorem Lawful.place_of_enters (hadmits : policy.Admits instruction) {session inner : Session}
    {body : Body} (hsession : policy.Holds session)
    (h : Enters passes call instruction session body inner) : policy.place (.ofChars body) := by
  cases h with
  | call h => exact hlawful.call (hsession.stored _ (mem_of_find? h))
  | _ => exact hadmits

theorem Lawful.guides_perform
    (hcall : ∀ body, AllBits body.toList → policy.place (.ofChars body) →
      policy.Guides (call body))
    (hregular : instruction.Regular edition) (hadmits : policy.Admits instruction) :
    policy.Guides (perform passes call instruction) := by
  rintro _ session ⟨rfl, hsession⟩
  refine related_perform hlawful.indistinct (.inl rfl) ⟨rfl, hsession⟩ (fun change hchange => ?_) ?_
  · exact ⟨rfl, hsession.change hlawful.empty hregular hadmits hchange⟩
  · exact fun body inner twin henters => hcall body (henters.allBits hsession.sound hregular)
      (hlawful.place_of_enters hadmits hsession henters) inner twin

/-! ## Runs -/

/-- What a policy says of the end of a run on a text: a run that is not closed has come to a place
of the policy where the text is at its end. -/
def Ends (policy : Policy) (text : Body) : EStateM.Result Stop Session TextEnd → Prop
  | .ok .closed after => policy.Holds after ∧ after.cursor.text = text ∧ BehindMark after.cursor
  | .ok .exhausted after => policy.Holds after ∧ after.cursor.text = text ∧
      policy.place after.cursor ∧ after.cursor.atEnd
  | .error stop after => policy.Holds after ∧ policy.stops stop

omit hlawful in
theorem Holds.of_memory {session after : Session} (h : policy.Holds session)
    (hsound : after.Sound) (hmemory : after.memory = session.memory) : policy.Holds after := by
  refine ⟨hsound, ?_⟩
  rw [hmemory]
  exact h.stored

omit hlawful in
theorem behindMark_of_close {tracing : Bool} {session fetched : Session}
    (hvalid : session.cursor.Valid)
    (h : fetchNext edition tracing passes session = .ok .close fetched) :
    BehindMark fetched.cursor := by
  obtain ⟨-, bits, hfound, hrest, hcursor⟩ := fetchNext_found hvalid h
  cases hfound.fetched with
  | basic _ h => exact h.elim
  | block _ hbody _ _ => cases hbody
  | close =>
      have hnonneg := hvalid.nonneg
      have hwithin := hvalid.within
      refine ⟨session.cursor.text.toList.take session.cursor.pos.toNat, fetched.cursor.rest, ?_, ?_⟩
      · rw [← hrest, hcursor]
        exact (List.take_append_drop _ _).symm
      · have hfront : (session.cursor.text.toList.take session.cursor.pos.toNat).length =
            session.cursor.pos.toNat := by
          rw [List.length_take, Array.length_toList]
          omega
        rw [hcursor, hfront, Int.toNat_of_nonneg hnonneg]
        rfl

/-- The induction is on the fuel.  An instruction takes the run from one place of the policy to
the next, for performing it does not move in the text. -/
theorem Lawful.ends_finishText
    (hcall : ∀ body, AllBits body.toList → policy.place (.ofChars body) →
      policy.Guides (call body))
    (hstays : ∀ body, Stationary (call body)) (tracing : Bool) (fuel : Nat) {session : Session}
    (hsession : policy.Holds session) (hplace : policy.place session.cursor) :
    policy.Ends session.cursor.text (finishText edition tracing passes call fuel session) := by
  induction fuel generalizing session with
  | zero => exact ⟨hsession, hlawful.raised nofun⟩
  | succ fuel ih =>
      by_cases hend : session.cursor.atEnd
      · rw [finishText_end hend]
        exact ⟨hsession, rfl, hplace, hend⟩
      rw [finishText_step hend]
      have hpolicy := @Lawful.fetch _ _ hlawful tracing passes _ hsession.sound hplace hend
      have hsound := @fetchNext_sound edition _ tracing passes hsession.sound
      have htakes := @fetchNext_takes edition tracing passes _ hsession.sound.cursor
      cases hresult : fetchNext edition tracing passes session with
      | error stop fetched =>
          rw [hresult] at hpolicy hsound htakes
          rw [bind_of_error hresult]
          exact ⟨hsession.of_memory hsound.1 htakes.1, hpolicy⟩
      | ok instruction fetched =>
          rw [hresult] at hpolicy hsound htakes
          rw [bind_of_ok hresult]
          obtain ⟨hmemory, bits, -, -, hadvance⟩ := htakes
          have hfetched : policy.Holds fetched := hsession.of_memory hsound.1.1 hmemory
          have htext : fetched.cursor.text = session.cursor.text := by
            rw [hadvance]
            rfl
          by_cases hclose : instruction = .close
          · subst hclose
            rw [if_pos rfl]
            exact ⟨hfetched, htext, behindMark_of_close hsession.sound.cursor hresult⟩
          rw [if_neg hclose]
          have hguides : policy.Guides (perform passes call instruction) :=
            hlawful.guides_perform hcall hsound.2 hpolicy.1
          have hperformed := Concur.triple hguides fetched hfetched
          cases hperform : perform passes call instruction fetched with
          | error stop after =>
              rw [hperform] at hperformed
              rw [bind_of_error hperform]
              exact hperformed
          | ok _ after =>
              rw [hperform] at hperformed
              rw [bind_of_ok hperform]
              have hplace := (Stationary.perform hstays passes instruction).eq_ok hperform
              rw [← htext, ← hplace]
              refine ih hperformed ?_
              rw [hplace]
              exact hpolicy.2 hclose

omit hlawful in
theorem Ends.concludes {text : Body} {result : EStateM.Result Stop Session TextEnd}
    (h : policy.Ends text result) :
    Concludes (fun _ => policy.Holds) (fun stop after => policy.Holds after ∧ policy.stops stop)
      (forgetEnd result) := by
  cases result with
  | ok ended after =>
      cases ended with
      | closed => exact h.1
      | exhausted => exact h.1
  | error stop after => exact h

omit hlawful in
theorem Holds.onCursor {session : Session} (h : policy.Holds session) {cursor : Cursor}
    (hcursor : cursor.Valid) (traced : Bool) :
    policy.Holds { session with cursor := cursor, traced := traced } :=
  ⟨⟨h.sound.memory, h.sound.bodies, hcursor⟩, h.stored⟩

omit hlawful in
theorem guides_onCursor {cursor : Cursor} (hcursor : cursor.Valid) {limits : Limits}
    {tracing : Bool}
    (h : ∀ session, policy.Holds session → session.cursor = cursor →
      policy.Ends session.cursor.text (finish edition limits tracing session)) :
    policy.Guides (onCursor cursor (execute edition limits tracing)) := by
  refine Triple.concur fun session hsession => ?_
  have hends := (h _ (hsession.onCursor hcursor false) rfl).concludes
  rw [← execute_apply] at hends
  rw [onCursor]
  revert hends
  generalize execute edition limits tracing
    { session with cursor := cursor, traced := false } = result
  intro hends
  cases result with
  | ok value after => exact Holds.onCursor hends hsession.sound.cursor session.traced
  | error stop after => exact ⟨hends.1.onCursor hsession.sound.cursor session.traced, hends.2⟩

/-- The induction is on the levels of nesting that are left. -/
theorem Lawful.ends_finish (limits : Limits) (tracing : Bool) {session : Session}
    (hsession : policy.Holds session) (hplace : policy.place session.cursor) :
    policy.Ends session.cursor.text (finish edition limits tracing session) := by
  obtain ⟨depth, passes⟩ := limits
  induction depth generalizing tracing session with
  | zero => exact ⟨hsession, hlawful.raised nofun⟩
  | succ depth ih =>
      refine hlawful.ends_finishText (fun body hbits hbody => ?_)
        (fun _ => stationary_onCursor _ _) tracing _ hsession hplace
      have hvalid : (Cursor.ofChars body).Valid := ⟨hbits, Int.le_refl 0, Int.natCast_nonneg _⟩
      refine guides_onCursor hvalid fun inner hinner hcursor => ih false hinner ?_
      rw [hcursor]
      exact hbody

theorem Lawful.concludes_execute (limits : Limits) (tracing : Bool) {session : Session}
    (hsession : policy.Holds session) (hplace : policy.place session.cursor) :
    Concludes (fun _ => policy.Holds) (fun stop after => policy.Holds after ∧ policy.stops stop)
      (execute edition limits tracing session) := by
  rw [execute_apply]
  exact (hlawful.ends_finish limits tracing hsession hplace).concludes

end Policy

/-! ## Functions -/

def Session.fed (session : Session) (input : List Char) : Session :=
  { session with console := { session.console with input := input } }

theorem Session.Sound.fed_onto {session : Session} (h : session.Sound) (input : List Char)
    {text : List Char} (htext : AllBits text) : ((session.fed input).onto text).Sound :=
  ⟨h.memory, h.bodies, htext, Int.le_refl 0, Int.natCast_nonneg _⟩

/-- Nothing is asked of the places, and of the functions that their bodies have a derivation. -/
def Policy.spanning (edition : Edition) : Policy :=
  ⟨fun _ => True, fun body => body = #[] ∨ Spans edition 1 body.toList, fun _ => True⟩

variable {edition : Edition}

theorem Policy.lawful_spanning : (Policy.spanning edition).Lawful edition := by
  refine ⟨.inl rfl, fun _ => trivial, fun _ => trivial, ?_⟩
  intro tracing passes session hsound _ _
  cases hresult : fetchNext edition tracing passes session with
  | error stop fetched => trivial
  | ok instruction fetched =>
      refine ⟨?_, fun _ => trivial⟩
      obtain ⟨-, bits, hfound, -⟩ := fetchNext_found hsound.cursor hresult
      cases instruction with
      | define name body =>
          cases hfound.fetched with
          | basic _ h => exact h.elim
          | block _ hbody _ h =>
              cases hbody
              exact .inr h
      | _ => trivial

theorem Reached.spanning {session : Session} (h : Reached edition session) :
    (Policy.spanning edition).Holds session := by
  induction h with
  | start hcode traced input =>
      refine ⟨Session.sound_start hcode traced input, fun entry hentry => ?_⟩
      cases hentry
  | run h limits tracing ih =>
      exact sessionAfter_of_concludes
        (Policy.lawful_spanning.concludes_execute limits tracing ih trivial)
  | @runOn session h code hcode limits tracing ih =>
      have hvalid : (Cursor.ofText code).Valid :=
        ⟨fun c hc => hcode c (List.mem_filter.mp hc).1, Int.le_refl 0, Int.natCast_nonneg _⟩
      have hguides : (Policy.spanning edition).Guides
          (onCursor (.ofText code) (execute edition limits tracing)) :=
        Policy.guides_onCursor hvalid fun inner hinner _ =>
          Policy.lawful_spanning.ends_finish limits tracing hinner trivial
      exact sessionAfter_of_concludes (Concur.triple hguides session ih)

theorem within_of_fetchBody {tracing : Bool} {spare : Nat} {reader after : Reader} {body : Body}
    (h : fetchBody edition tracing spare reader = .ok body after) :
    reader.cursor.pos ≤ reader.cursor.text.size := by
  change skipBlock edition tracing (reader.cursor.text.size + 1 + spare) 1 #[] reader = _ at h
  rw [Nat.add_right_comm] at h
  obtain ⟨op, middle, hop, -⟩ := bind_eq_ok h
  rw [read_apply] at hop
  cases hpeek : reader.cursor.peek? 3 with
  | none =>
      rw [hpeek] at hop
      cases hop
  | some chars =>
      rw [Cursor.peek?] at hpeek
      split at hpeek
      · cases hpeek
      · omega

/-- What is taken for the body of a block is what lies between the two places of the reader, bit
for bit, and it delimits itself.  So does the body of every function that a machine has come to
know, unless it is empty. -/
theorem fetchBody_delimits (edition : Edition) :
    (∀ (tracing : Bool) (spare : Nat) (reader after : Reader) (body : Body),
      AllBits reader.cursor.text.toList → 0 ≤ reader.cursor.pos →
      fetchBody edition tracing spare reader = .ok body after →
        reader.rest = body.toList ++ after.rest ∧
        after.cursor = reader.cursor.advance body.size ∧ Delimits edition body) ∧
    (∀ session, Reached edition session → ∀ entry ∈ session.memory.functions,
      entry.2 = #[] ∨ Delimits edition entry.2) := by
  constructor
  · intro tracing spare reader after body htext hpos h
    have hvalid : reader.Valid := ⟨htext, hpos, within_of_fetchBody h⟩
    have htakes := @takesBits_fetchBody edition tracing spare reader hvalid.onBits
    rw [h] at htakes
    obtain ⟨bits, hpassed, rfl, hspans⟩ := htakes
    have hbits := hvalid.onBits.bits
    rw [hpassed.rest, allBits_append] at hbits
    exact ⟨hpassed.rest, hpassed.cursor, hspans.delimits hbits.1⟩
  · intro session hsession entry hentry
    have hholds := hsession.spanning
    obtain hempty | hspans := hholds.stored entry hentry
    · exact .inl hempty
    · exact .inr (hspans.delimits (hholds.sound.bodies entry hentry))

theorem fetchBody_delimits_nested :
    let text := "1010000000000000101001000000011011011100".toList
    let reader : Reader := ⟨⟨text.toArray, 16⟩, false, []⟩
    let body := "1010010000000110110".toList.toArray
    let code := "1010100001000110".toList
    let session := sessionAfter (execute .extended ⟨5, 9⟩ false (.start code false []))
    AllBits text ∧ (∃ after, fetchBody .extended true 0 reader = .ok body after ∧
      reader.rest = body.toList ++ after.rest) ∧ Delimits .extended body ∧
      Reached .extended session ∧
      ∃ entry ∈ session.memory.functions, entry.2 ≠ #[] ∧ Delimits .extended entry.2 := by
  intro text reader body code session
  have htext : AllBits text := by
    have hall : text.all isBit := by decide +kernel
    exact List.all_eq_true.mp hall
  have hcode : AllBits code := by
    have hall : code.all isBit := by decide +kernel
    exact List.all_eq_true.mp hall
  have hreached : Reached .extended session := .run (.start hcode false []) ⟨5, 9⟩ false
  have hlanding : landing (fetchBody .extended true 0 reader) =
      (.ok body, ⟨text.toArray, 35⟩) := by decide +kernel
  have hentry : ((1 : Int), "000110".toList.toArray) ∈ session.memory.functions := by
    decide +kernel
  obtain ⟨after, hafter, -⟩ := exists_of_landing hlanding
  obtain ⟨hbody, hfunctions⟩ := fetchBody_delimits .extended
  obtain ⟨hrest, -, hdelimits⟩ := hbody true 0 reader after body htext (by decide) hafter
  have hknown := (hfunctions session hreached _ hentry).resolve_left (by decide +kernel)
  exact ⟨htext, ⟨after, hafter, hrest⟩, hdelimits, hreached, _, hentry, by decide +kernel, hknown⟩

end BitAssembly.Machine
