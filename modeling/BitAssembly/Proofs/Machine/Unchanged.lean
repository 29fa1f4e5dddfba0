import BitAssembly.Proofs.Machine.Alignment
import BitAssembly.Proofs.Machine.Enclosure
import BitAssembly.Proofs.Machine.Registers
import BitAssembly.Proofs.Machine.Tracing

/-!
# What a failing instruction leaves behind

An instruction that stops leaves the memory as it was and has printed a prompt at
most, as long as no body has performed an instruction of its own.  There is one
exception: a counting loop stores its number before it runs its body, and a body
that was collected over a definition may be too short for its first instruction.
-/

namespace BitAssembly.Machine

open BitAssembly.Bits
open BitAssembly.Text

variable {edition : Edition} {passes : Nat} {session middle after inner fetched : Session}
  {stop : Stop} {body : Body} {moment : Moment}

/-! ## Sessions in which nothing has happened -/

/-- Nothing has been stored between the sessions and, the notes apart, nothing printed. -/
structure Session.Still (before after : Session) : Prop where
  memory : after.memory = before.memory
  printed : after.console.untraced.emitted = before.console.untraced.emitted

theorem Session.Still.refl (session : Session) : session.Still session :=
  ⟨rfl, rfl⟩

theorem Session.Still.trans (h : session.Still middle) (h' : middle.Still after) :
    session.Still after :=
  ⟨h'.memory.trans h.memory, h'.printed.trans h.printed⟩

theorem Session.still_afterReading (session : Session) (reader : Reader) :
    session.Still (session.afterReading reader) := by
  refine ⟨rfl, ?_⟩
  rw [afterReading, Console.untraced_trace]

theorem fetchNext_ok_still {tracing : Bool} {instruction : Instruction}
    (h : fetchNext edition tracing passes session = .ok instruction fetched) :
    session.Still fetched := by
  obtain ⟨reader, -, rfl⟩ := fetchNext_eq_ok h
  exact session.still_afterReading reader

theorem fetchNext_error_still {tracing : Bool}
    (h : fetchNext edition tracing passes session = .error stop fetched) :
    session.Still fetched := by
  change reading (fetch edition tracing session.memory.page?.isSome passes) session = _ at h
  rw [reading] at h
  split at h
  · cases h
  · next reader _ =>
      cases h
      exact session.still_afterReading reader

/-! ## Runs that perform nothing -/

def Moment.Idle (edition : Edition) (passes : Nat) (moment : Moment) : Prop :=
  ∀ instruction fetched, ¬ moment.Performs edition passes instruction fetched

def Moment.StopsEarly (edition : Edition) (passes : Nat) (moment : Moment) (stop : Stop) : Prop :=
  stop = .tooDeep ∧ moment.levels = 0 ∨
    stop = .fault .endOfText ∧
      ∃ after, fetchNext edition moment.tracing passes moment.session = .error stop after

theorem Moment.Idle.run (h : moment.Idle edition passes) (hsound : moment.session.Sound) :
    moment.session.Still (sessionAfter (moment.run edition passes)) ∧
      ∀ stop ∈ stop? (moment.run edition passes), moment.StopsEarly edition passes stop := by
  rcases Nat.eq_zero_or_pos moment.levels with hlevels | hlevel
  · have hrun : moment.run edition passes = .error .tooDeep moment.session := by
      rw [Moment.run, hlevels]
      rfl
    rw [hrun]
    exact ⟨.refl _, by simp [stop?, StopsEarly, hlevels]⟩
  by_cases hend : moment.session.cursor.atEnd
  · rw [run_end hlevel hend]
    exact ⟨.refl _, by simp [stop?]⟩
  cases hfetch : fetchNext edition moment.tracing passes moment.session with
  | error stop fetched =>
      have hstop := @fetchNext_sound edition _ moment.tracing passes hsound
      rw [hfetch] at hstop
      rw [run_more hlevel hend, bind_of_error hfetch]
      exact ⟨fetchNext_error_still hfetch, by simp [stop?, StopsEarly, hfetch, hstop.2]⟩
  | ok instruction fetched =>
      by_cases hclose : instruction = .close
      · subst hclose
        rw [run_close hlevel hend hfetch]
        exact ⟨fetchNext_ok_still hfetch, by simp [stop?]⟩
      · exact absurd ⟨hlevel, hend, hfetch, hclose⟩ (h instruction fetched)

theorem fetchNext_of_reader {other : Session} {tracing : Bool} {instruction : Instruction}
    (hsession : session.Sound) (hother : other.Sound) (hreader : other.reader = session.reader)
    (h : fetchNext edition tracing passes session = .ok instruction fetched) :
    ∃ last, fetchNext edition tracing passes other = .ok instruction last := by
  obtain ⟨reader, hfetch, -⟩ := fetchNext_eq_ok h
  rw [hsession.ready, ← hreader] at hfetch
  refine ⟨other.afterReading reader, ?_⟩
  change reading (fetch edition tracing other.memory.page?.isSome passes) other = _
  rw [hother.ready]
  simp only [Session.reader] at hfetch
  rw [reading, hfetch]

/-- Whether a run that performs nothing comes to its end depends on the text alone. -/
theorem Moment.Idle.run_ok {other : Moment} (h : moment.Idle edition passes)
    (hsound : moment.session.Sound) (hother : other.session.Sound)
    (hlevels : other.levels = moment.levels) (htracing : other.tracing = moment.tracing)
    (hreader : other.session.reader = moment.session.reader)
    (hrun : moment.run edition passes = .ok () after) :
    ∃ last, other.run edition passes = .ok () last := by
  have hcursor : other.session.cursor = moment.session.cursor := congrArg Reader.cursor hreader
  rcases Nat.eq_zero_or_pos moment.levels with hzero | hlevel
  · rw [Moment.run, hzero] at hrun
    cases hrun
  by_cases hend : moment.session.cursor.atEnd
  · exact ⟨_, run_end (hlevels ▸ hlevel) (hcursor ▸ hend)⟩
  cases hfetch : fetchNext edition moment.tracing passes moment.session with
  | error stop fetched =>
      rw [run_more hlevel hend, bind_of_error hfetch] at hrun
      cases hrun
  | ok instruction fetched =>
      by_cases hclose : instruction = .close
      · subst hclose
        obtain ⟨last, hlast⟩ := fetchNext_of_reader hsound hother hreader hfetch
        exact ⟨last, run_close (hlevels ▸ hlevel) (hcursor ▸ hend) (htracing ▸ hlast)⟩
      · exact absurd ⟨hlevel, hend, hfetch, hclose⟩ (h instruction fetched)

/-! ## Bodies that perform nothing -/

theorem Moment.call_idle (hinner : inner.Sound) (hbody : AllBits body.toList)
    (h : (moment.within inner body).Idle edition passes) :
    inner.Still (sessionAfter (moment.call edition passes body inner)) ∧
      ∀ stop ∈ stop? (moment.call edition passes body inner),
        (moment.within inner body).StopsEarly edition passes stop := by
  obtain ⟨⟨hmemory, hprinted⟩, hstop⟩ := h.run (within_sound hinner hbody)
  rw [call_apply]
  generalize (moment.within inner body).run edition passes = result at hmemory hprinted hstop
  cases result with
  | ok _ after => exact ⟨⟨hmemory, hprinted⟩, hstop⟩
  | error stop after => exact ⟨⟨hmemory, hprinted⟩, hstop⟩

theorem Moment.call_idle_ok {other : Session} (hinner : inner.Sound) (hother : other.Sound)
    (hbody : AllBits body.toList) (h : (moment.within inner body).Idle edition passes)
    (hcall : moment.call edition passes body inner = .ok () after) :
    ∃ last, moment.call edition passes body other = .ok () last := by
  rw [call_apply] at hcall
  cases hrun : (moment.within inner body).run edition passes with
  | error stop last =>
      rw [hrun] at hcall
      cases hcall
  | ok _ last =>
      have hsound : (moment.within other body).session.Sound := within_sound hother hbody
      obtain ⟨final, hfinal⟩ := h.run_ok (within_sound hinner hbody) hsound rfl rfl rfl hrun
      refine ⟨other.resume final, ?_⟩
      rw [call_apply, hfinal]
      rfl

/-! ## Loops of bodies that perform nothing -/

section

variable {action : Run Unit}

theorem still_repeatTimes {count number : Nat} {session : Session}
    (h : ∀ inner, Pass (fun _ before after => after = before) action number count session inner →
      inner.Still (sessionAfter (action inner))) :
    session.Still (sessionAfter (repeatTimes action count session)) := by
  induction count generalizing number session with
  | zero => exact .refl session
  | succ count ih =>
      have hfirst := h session (.first rfl)
      rw [repeatTimes]
      cases haction : action session with
      | error stop after =>
          rw [haction] at hfirst
          rwa [bind_of_error haction]
      | ok _ after =>
          rw [haction] at hfirst
          rw [bind_of_ok haction]
          exact hfirst.trans (ih fun inner hpass => h inner (.later rfl haction hpass))

variable (haction : Safe action)

include haction

theorem still_repeatWhile {test : Test} (htest : test.Regular) {passes number : Nat}
    {session : Session} (hsession : session.Sound)
    (h : ∀ inner, Pass (fun _ before after => test.holds before = .ok true after) action number
      passes session inner → inner.Still (sessionAfter (action inner))) :
    session.Still (sessionAfter (repeatWhile test action passes session)) := by
  induction passes generalizing number session with
  | zero => exact .refl session
  | succ passes ih =>
      obtain ⟨holds, hholds⟩ := holds_sound hsession htest
      rw [repeatWhile, bind_of_ok hholds]
      cases holds with
      | false => exact .refl session
      | true =>
          have hfirst := h session (.first hholds)
          rw [if_pos rfl]
          cases hresult : action session with
          | error stop after =>
              rw [hresult] at hfirst
              rwa [bind_of_error hresult]
          | ok _ after =>
              rw [hresult] at hfirst
              rw [bind_of_ok hresult]
              have hafter := haction.eq_ok hsession hresult
              exact hfirst.trans
                (ih hafter fun inner hpass => h inner (.later hholds hresult hpass))

theorem countFrom_error_first {address : Int} (haddress : IsAddress address) {next count : Nat}
    (hsession : session.Sound)
    (halike : ∀ {inner other last}, Pass (fun number before after =>
        setRegister address number before = .ok () after) action next count session inner →
      action inner = .ok () last → other.Sound → ∃ final, action other = .ok () final)
    (h : countFrom action address next count session = .error stop after) :
    ∃ inner, setRegister address next session = .ok () inner ∧
      Pass (fun number before after => setRegister address number before = .ok () after) action
        next count session inner ∧
      action inner = .error stop after := by
  cases count with
  | zero => cases h
  | succ count =>
      obtain ⟨ready, hset⟩ := setRegister_sound hsession haddress next
      have hready := Safe.eq_ok (concur_setRegister indistinct_sound _ _) hsession hset
      rw [countFrom, bind_of_ok hset] at h
      refine ⟨ready, hset, .first hset, ?_⟩
      rcases bind_eq_error h with h | ⟨_, middle, hresult, h⟩
      · exact h
      · have hmiddle := haction.eq_ok hready hresult
        obtain ⟨inner, hpass, last, hfails⟩ := countFrom_eq_error haction haddress hmiddle h
        have hinner : inner.Sound := by
          refine hpass.invariant ?_ (fun hresult hbefore => haction.eq_ok hbefore hresult) hmiddle
          intro number before after hstore hbefore
          exact Safe.eq_ok (concur_setRegister indistinct_sound _ _) hbefore hstore
        obtain ⟨final, hfinal⟩ := halike (.first hset) hresult hinner
        cases hfinal.symm.trans hfails

end

/-! ## Instructions that stop by themselves -/

theorem alter_error_session (hsession : session.Sound) {alteration : Alteration} {address : Int}
    (haddress : IsAddress address) (h : alter alteration address session = .error stop after) :
    after = session := by
  have hraises : Raises .basic 0 (fun _ => pure ()) (.alter alteration address) session stop :=
    alter_eq_error hsession haddress h
  cases hraises with
  | pop hstack =>
      obtain ⟨value, -, -, -, h⟩ := bind_getRegister_eq_error hsession haddress h
      have hpop := pop_apply session
      rw [hstack] at hpop
      cases (bind_of_error hpop).symm.trans h
      rfl

theorem display_error_session {format : Format} {value : Int}
    (h : display format value session = .error stop after) : after = session := by
  cases format with
  | character =>
      rcases bind_eq_error h with h | ⟨c, middle, -, h⟩
      · cases hchar : displayedChar value with
        | ok c =>
            rw [hchar] at h
            cases h
        | error fault =>
            rw [hchar] at h
            cases h
            rfl
      · cases h
  | _ => cases h

theorem write_error_session {bytes : List UInt8} (h : write bytes session = .error stop after) :
    after = session := by
  rw [write] at h
  cases hbytes : String.fromUTF8? ⟨bytes.toArray⟩ with
  | some text =>
      rw [hbytes] at h
      cases h
  | none =>
      rw [hbytes] at h
      cases h
      rfl

structure Session.Asked (prompt : String) (before after : Session) : Prop where
  memory : after.memory = before.memory
  printed : after.console.untraced.emitted = ⟨prompt, false⟩ :: before.console.untraced.emitted

theorem ask_error_asked (hsession : session.Sound) {radix : Nat} {address : Int}
    (haddress : IsAddress address) (h : ask radix address session = .error stop after) :
    session.Asked (askPrompt radix) after := by
  have hprint := askLine_apply (askPrompt radix) session
  cases hline : takeLine? session.console.input with
  | none =>
      rw [hline] at hprint
      cases (bind_of_error hprint).symm.trans h
      exact ⟨rfl, rfl⟩
  | some pair =>
      rw [hline] at hprint
      have hasked := Safe.eq_ok (concur_askLine indistinct_sound _) hsession hprint
      rcases bind_eq_error ((bind_of_ok hprint).symm.trans h) with h | ⟨value, middle, hvalue, h⟩
      · cases hparse : parseInt radix pair.1 with
        | ok value =>
            rw [hparse] at h
            cases h
        | error fault =>
            rw [hparse] at h
            cases h
            exact ⟨rfl, rfl⟩
      · have hparse : Safe (ofExcept (parseInt radix pair.1)) :=
          concur_ofExcept indistinct_sound fun _ => parseInt_ne_endOfText
        exact absurd h (setRegister_ne_error (hparse.eq_ok hasked hvalue) haddress value)

/-! ## Instructions that stop -/

def Moment.Aftermath (edition : Edition) (passes : Nat) (moment : Moment) (stop : Stop) :
    Instruction → Session → Session → Prop
  | .count address _ body, fetched, after =>
      ∃ inner, inner.Sound ∧ setRegister address 1 fetched = .ok () inner ∧ inner.Still after ∧
        (moment.within inner body).StopsEarly edition passes stop
  | .ask radix _, fetched, after => fetched.Asked (askPrompt radix) after
  | _, fetched, after => fetched.Still after

theorem Moment.perform_aftermath {instruction : Instruction}
    (hregular : instruction.Regular edition) (hfetched : fetched.Sound)
    (hidle : ∀ body inner, Enters passes (moment.call edition passes) instruction fetched body
      inner → (moment.within inner body).Idle edition passes)
    (h : perform passes (moment.call edition passes) instruction fetched = .error stop after) :
    moment.Aftermath edition passes stop instruction fetched after := by
  have hcall (body : Body) (hbody : AllBits body.toList) :
      Safe (moment.call edition passes body) := safe_callBody _ hbody
  have hstill {body inner} (henters : Enters passes (moment.call edition passes) instruction
      fetched body inner) :
      inner.Still (sessionAfter (moment.call edition passes body inner)) ∧
        ∀ stop ∈ stop? (moment.call edition passes body inner),
          (moment.within inner body).StopsEarly edition passes stop := by
    obtain ⟨hinner, hbody⟩ := henters.sound hfetched hregular
    exact call_idle hinner hbody (hidle body inner henters)
  cases instruction with
  | alter alteration address =>
      obtain rfl := alter_error_session hfetched hregular h
      exact .refl _
  | compute operation target source =>
      exact absurd h (compute_ne_error hfetched hregular.1 hregular.2)
  | load target value => exact absurd h (setRegister_ne_error hfetched hregular value)
  | display format address =>
      obtain ⟨value, -, -, -, h⟩ := bind_getRegister_eq_error hfetched hregular h
      obtain rfl := display_error_session h
      exact .refl _
  | displayValue format value => exact absurd h (displayValue_ne_error hregular)
  | onlyIf test body =>
      obtain ⟨holds, hholds⟩ := holds_sound hfetched hregular.1
      have hrest := (bind_of_ok hholds).symm.trans h
      cases holds with
      | false => cases hrest
      | true =>
          have hbody := (hstill (.onlyIf hholds)).1
          rw [if_pos rfl] at hrest
          rw [hrest] at hbody
          exact hbody
  | times address body =>
      obtain ⟨count, -, -, hcount, h⟩ := bind_getRegister_eq_error hfetched hregular.1 h
      have hloop := still_repeatTimes fun inner hpass => (hstill (.times hcount hpass)).1
      rw [h] at hloop
      exact hloop
  | call name =>
      rw [perform_call_apply] at h
      cases hbody : fetched.memory.functions.find? name with
      | none =>
          rw [hbody] at h
          cases h
      | some body =>
          rw [hbody] at h
          change moment.call edition passes body fetched = _ at h
          have hrun := (hstill (.call hbody)).1
          rw [h] at hrun
          exact hrun
  | count address bound body =>
      obtain ⟨count, hcount⟩ := passes_sound hfetched hregular.1
      rw [perform, bind_of_ok hcount] at h
      have halike {inner other last : Session} (hpass : Pass (fun number before after =>
          setRegister address number before = .ok () after) (moment.call edition passes body) 1
          count fetched inner) (hok : moment.call edition passes body inner = .ok () last)
          (hother : other.Sound) :
          ∃ final, moment.call edition passes body other = .ok () final := by
        have henters : Enters passes _ _ fetched body inner := .count hcount hpass
        have hinner := (henters.sound hfetched hregular).1
        exact call_idle_ok hinner hother hregular.2 (hidle body inner henters) hok
      obtain ⟨inner, hset, hpass, hfails⟩ := countFrom_error_first (hcall body hregular.2)
        hregular.1.1 hfetched halike h
      have henters : Enters passes _ _ fetched body inner := .count hcount hpass
      obtain ⟨hsame, hearly⟩ := hstill henters
      rw [hfails] at hsame hearly
      exact ⟨inner, (henters.sound hfetched hregular).1, hset, hsame, hearly stop rfl⟩
  | whileTrue test body =>
      have hloop := still_repeatWhile (hcall body hregular.2) hregular.1 hfetched
        fun inner hpass => (hstill (.whileTrue hpass)).1
      rw [perform] at h
      rw [h] at hloop
      exact hloop
  | write bytes =>
      obtain rfl := write_error_session h
      exact .refl _
  | exit status =>
      cases h
      exact .refl _
  | ask radix address => exact ask_error_asked hfetched hregular.2 h
  | _ => cases h

/-! ## Steps that stop -/

/-- The instruction at this moment stops, and no body of it has performed an instruction. -/
structure Moment.StopsOutside (edition : Edition) (passes : Nat) (moment : Moment) (stop : Stop)
    (after : Session) : Prop where
  stops : takeStep edition moment.tracing passes (moment.call edition passes) moment.session =
    .error stop after
  outside : ∀ {instruction fetched body inner},
    fetchNext edition moment.tracing passes moment.session = .ok instruction fetched →
    Enters passes (moment.call edition passes) instruction fetched body inner →
      (moment.within inner body).Idle edition passes

theorem takeStep_eq_error {tracing : Bool} {call : Body → Run Unit}
    (h : takeStep edition tracing passes call session = .error stop after) :
    fetchNext edition tracing passes session = .error stop after ∨
      ∃ instruction fetched, fetchNext edition tracing passes session = .ok instruction fetched ∧
        perform passes call instruction fetched = .error stop after := by
  rcases bind_eq_error h with hfetch | ⟨instruction, fetched, hfetch, h⟩
  · exact .inl hfetch
  refine .inr ⟨instruction, fetched, hfetch, ?_⟩
  split at h
  · cases h
  · rcases bind_eq_error h with hperform | ⟨_, _, _, h⟩
    · exact hperform
    · cases h

theorem Moment.run_of_takeStep (hlevel : 0 < moment.levels)
    (hmore : ¬ moment.session.cursor.atEnd)
    (h : takeStep edition moment.tracing passes (moment.call edition passes) moment.session =
      .error stop after) :
    moment.run edition passes = .error stop after := by
  rw [run_eq hlevel, Nat.add_right_comm, executeText_takeStep hmore, bind_of_error h]

theorem setRegister_eq_ok {address value : Int}
    (h : setRegister address value session = .ok () after) :
    ∃ memory, session.memory.store address value = .ok memory ∧
      after = { session with memory := memory } := by
  rw [setRegister_apply] at h
  cases hstore : session.memory.store address value with
  | ok memory =>
      rw [hstore] at h
      cases h
      exact ⟨memory, rfl, rfl⟩
  | error fault =>
      rw [hstore] at h
      cases h

theorem fetchNext_landing {tracing : Bool} {instruction : Instruction}
    (h : fetchNext edition tracing passes session = .ok instruction fetched) :
    (landing (fetch edition tracing session.memory.page?.isSome passes session.reader)).1 =
      .ok instruction := by
  obtain ⟨reader, hfetch, -⟩ := fetchNext_eq_ok h
  rw [hfetch]
  rfl

section

variable {instruction : Instruction}

theorem Moment.Aftermath.memory (h : moment.Aftermath edition passes stop instruction fetched after)
    (hcount : ∀ address bound body, instruction ≠ .count address bound body) :
    after.memory = fetched.memory := by
  cases instruction with
  | count address bound body => exact absurd rfl (hcount address bound body)
  | ask radix address => exact Session.Asked.memory h
  | _ => exact Session.Still.memory h

theorem Moment.Aftermath.printed
    (h : moment.Aftermath edition passes stop instruction fetched after)
    (hask : ∀ radix address, instruction ≠ .ask radix address) :
    after.console.untraced.emitted = fetched.console.untraced.emitted := by
  cases instruction with
  | count address bound body =>
      obtain ⟨inner, -, hset, hstill, -⟩ := h
      obtain ⟨memory, -, rfl⟩ := setRegister_eq_ok hset
      exact hstill.printed
  | ask radix address => exact absurd rfl (hask radix address)
  | _ => exact Session.Still.printed h

end

theorem Moment.StopsEarly.collected (hinner : inner.Sound) (hbody : Collected edition body)
    (h : (moment.within inner body).StopsEarly edition passes stop) :
    stop = .tooDeep ∧ moment.levels ≤ 1 := by
  rcases h with ⟨hstop, hlevels⟩ | ⟨-, after, hfetch⟩
  · exact ⟨hstop, Nat.sub_eq_zero_iff_le.mp hlevels⟩
  · have hsound : (moment.within inner body).session.Sound := within_sound hinner hbody.allBits
    obtain ⟨instruction, fetched, hok, -⟩ := hbody.enclosed.fetchNext false passes hsound
      (List.append_nil body.toList).symm
    cases hok.symm.trans hfetch

/-- At every moment of a run, an instruction that stops before a body of it has performed anything
leaves the memory as it was and has printed nothing but the prompt of a request for input; and the
run ends with it.  A counting loop has stored the number of its first pass: it stops only where
bodies cannot be run, or with a body that was collected over a definition. -/
theorem takeStep_error_unchanged (edition : Edition) (limits : Limits) (tracing : Bool)
    (session : Session) (hreached : Reached edition session) (bits : List Char)
    (hbits : AllBits bits) (input : List Char) (moment : Moment)
    (hcomes : Moment.Comes edition limits.passes
      ⟨(session.fed input).onto bits, tracing, limits.depth⟩ moment)
    (stop : Stop) (after : Session)
    (hstops : moment.StopsOutside edition limits.passes stop after) :
    let fetch := fetchNext edition moment.tracing limits.passes moment.session
    ((∀ address bound body fetched, fetch ≠ .ok (.count address bound body) fetched) →
      after.memory = moment.session.memory) ∧
    (∀ address bound body fetched, fetch = .ok (.count address bound body) fetched →
      moment.session.memory.store address 1 = .ok after.memory ∧
        (stop = .tooDeep ∧ moment.levels ≤ 1 ∨
          stop = .fault .endOfText ∧ ¬ Collected edition body)) ∧
    ((∀ radix address fetched, fetch ≠ .ok (.ask radix address) fetched) →
      after.console.untraced.emitted = moment.session.console.untraced.emitted) ∧
    (∀ radix address fetched, fetch = .ok (.ask radix address) fetched →
      after.console.untraced.emitted =
        ⟨askPrompt radix, false⟩ :: moment.session.console.untraced.emitted) ∧
    (0 < moment.levels → ¬ moment.session.cursor.atEnd →
      moment.run edition limits.passes = .error stop after) := by
  intro fetch
  have hsound : moment.session.Sound := hcomes.sound (hreached.sound.fed_onto input hbits)
  have hrun := fun hlevel hmore => Moment.run_of_takeStep hlevel hmore hstops.stops
  rcases takeStep_eq_error hstops.stops with hfetch | ⟨instruction, fetched, hfetch, hperform⟩
  · have hstill := fetchNext_error_still hfetch
    refine ⟨fun _ => hstill.memory, ?_, fun _ => hstill.printed, ?_, hrun⟩
    · intro address bound body fetched hcount
      cases hfetch.symm.trans hcount
    · intro radix address fetched hask
      cases hfetch.symm.trans hask
  have hstill := fetchNext_ok_still hfetch
  have hregular := @fetchNext_sound edition _ moment.tracing limits.passes hsound
  rw [hfetch] at hregular
  have haftermath : moment.Aftermath edition limits.passes stop instruction fetched after :=
    Moment.perform_aftermath hregular.2 hregular.1.1 (fun _ _ => hstops.outside hfetch) hperform
  refine ⟨fun hnot => ?_, ?_, fun hnot => ?_, ?_, hrun⟩
  · refine (haftermath.memory ?_).trans hstill.memory
    rintro address bound body rfl
    exact hnot address bound body fetched hfetch
  · intro address bound body other hcount
    cases hfetch.symm.trans hcount
    obtain ⟨inner, hinner, hset, hsame, hearly⟩ := haftermath
    obtain ⟨memory, hstore, rfl⟩ := setRegister_eq_ok hset
    rw [hstill.memory, show memory = after.memory from hsame.memory.symm] at hstore
    refine ⟨hstore, ?_⟩
    by_cases hcollected : Collected edition body
    · exact .inl (hearly.collected hinner hcollected)
    · exact hearly.imp (fun h => ⟨h.1, Nat.sub_eq_zero_iff_le.mp h.2⟩) fun h => ⟨h.1, hcollected⟩
  · refine (haftermath.printed ?_).trans hstill.printed
    rintro radix address rfl
    exact hnot radix address fetched hfetch
  · intro radix address other hask
    cases hfetch.symm.trans hask
    rw [← hstill.printed]
    exact Session.Asked.printed haftermath

theorem takeStep_error_unchanged_unclosed :
    let session := sessionAfter (execute .extended ⟨5, 9⟩ false
      (.start "0011000101".toList false []))
    let bits := "10110100000000000100010000001".toList
    let moment : Moment := ⟨(session.fed []).onto bits, false, 5⟩
    Reached .extended session ∧ AllBits bits ∧ session.memory.stack = [5] ∧
      ∃ after, moment.StopsOutside .extended 9 (.fault .endOfText) after ∧
        after.memory = moment.session.memory ∧
        after.console.untraced.emitted = moment.session.console.untraced.emitted ∧
        moment.run .extended 9 = .error (.fault .endOfText) after := by
  intro session bits moment
  have hcode : AllBits "0011000101".toList := by
    have hall : "0011000101".toList.all isBit := by decide +kernel
    exact List.all_eq_true.mp hall
  have hbits : AllBits bits := by
    have hall : bits.all isBit := by decide +kernel
    exact List.all_eq_true.mp hall
  have hreached : Reached .extended session := .run (.start hcode false []) ⟨5, 9⟩ false
  have hstack : session.memory.stack = [5] := by decide +kernel
  have hlevel : 0 < moment.levels := by decide
  have hmore : ¬ moment.session.cursor.atEnd := by decide +kernel
  have hstop : stop? (takeStep .extended moment.tracing 9 (moment.call .extended 9)
      moment.session) = some (.fault .endOfText) := by decide +kernel
  have hunclosed : (landing (fetch .extended moment.tracing moment.session.memory.page?.isSome 9
      moment.session.reader)).1 = .error (.fault .endOfText) := by decide +kernel
  have hcomes : Moment.Comes .extended 9 ⟨(session.fed []).onto bits, false, 5⟩ moment := .refl
  refine ⟨hreached, hbits, hstack, ?_⟩
  clear_value session bits moment
  have hnone {instruction : Instruction} {fetched : Session} :
      fetchNext .extended moment.tracing 9 moment.session ≠ .ok instruction fetched :=
    fun hfetch => nomatch hunclosed.symm.trans (fetchNext_landing hfetch)
  obtain ⟨after, hafter⟩ := exists_of_stop? hstop
  have hstops : moment.StopsOutside .extended 9 (.fault .endOfText) after :=
    ⟨hafter, fun hfetch _ => absurd hfetch hnone⟩
  obtain ⟨hmemory, -, hprinted, -, hrun⟩ := takeStep_error_unchanged .extended ⟨5, 9⟩ false
    session hreached bits hbits [] moment hcomes _ after hstops
  exact ⟨after, hstops, hmemory fun _ _ _ _ => hnone, hprinted fun _ _ _ => hnone,
    hrun hlevel hmore⟩

/-- The body of a loop that counts to one begins with a definition, but is too short for it. -/
theorem takeStep_error_counted :
    let moment : Moment := ⟨.start "1011010000000000001101010110110".toList false [], false, 3⟩
    moment.session.memory.value 0 0 = 0 ∧
      (∃ after, moment.StopsOutside .basic 9 (.fault .endOfText) after ∧
        after.memory.value 0 0 = 1) ∧
      ∃ after, moment.StopsOutside .extended 9 (.fault .endOfText) after ∧
        after.memory.value 0 0 = 1 := by
  intro moment
  have hboth (edition : Edition) : ∃ after,
      moment.StopsOutside edition 9 (.fault .endOfText) after ∧ after.memory.value 0 0 = 1 := by
    have hlevel : 0 < moment.levels := by decide
    have hmore : ¬ moment.session.cursor.atEnd := by decide +kernel
    have hstop : stop? (takeStep edition moment.tracing 9 (moment.call edition 9)
        moment.session) = some (.fault .endOfText) := by
      cases edition <;> decide +kernel
    have hcounted : (sessionAfter (moment.run edition 9)).memory.value 0 0 = 1 := by
      cases edition <;> decide +kernel
    have hhead : (landing (fetch edition moment.tracing moment.session.memory.page?.isSome 9
        moment.session.reader)).1 =
        .ok (.count 0 (.fixed 1) "101010110110".toList.toArray) := by
      cases edition <;> decide +kernel
    have hshort (ready : Bool) : (landing (fetch edition false ready 9
        ⟨.ofChars "101010110110".toList.toArray, false, []⟩)).1 = .error (.fault .endOfText) := by
      cases edition <;> cases ready <;> decide +kernel
    obtain ⟨after, hafter⟩ := exists_of_stop? hstop
    clear_value moment
    rw [Moment.run_of_takeStep hlevel hmore hafter] at hcounted
    refine ⟨after, ⟨hafter, ?_⟩, hcounted⟩
    intro instruction fetched body inner hfetch henters other last hperforms
    cases hhead.symm.trans (fetchNext_landing hfetch)
    cases henters with
    | count _ _ => cases (hshort _).symm.trans (fetchNext_landing hperforms.fetch)
  exact ⟨by decide +kernel, hboth .basic, hboth .extended⟩

end BitAssembly.Machine
