import BitAssembly.Proofs.Machine.Abreast
import BitAssembly.Proofs.Machine.Execute
import BitAssembly.Proofs.Machine.Session
import BitAssembly.Proofs.Text.Digits

/-!
# What performing depends on

An instruction that has been fetched sees the memory and the input, and prints.
Of two sessions that are alike in these it makes two that are alike again,
whatever their texts are.  What is asked of a pair of sessions, or of a single
one, is a parameter: an instruction keeps it if stores, prints and inputs do,
and if the bodies keep it that are entered on the way.
-/

namespace BitAssembly.Machine

open BitAssembly.Text

variable {α : Type}

/-! ## Bodies -/

/-- A loop with so many passes left starts one of them in the second session.  `prepare` is
what happens before the pass of a number. -/
inductive Pass (prepare : Nat → Session → Session → Prop) (action : Run Unit) :
    Nat → Nat → Session → Session → Prop
  | first {number left : Nat} {session inner : Session} (h : prepare number session inner) :
      Pass prepare action number (left + 1) session inner
  | later {number left : Nat} {session middle after inner : Session}
      (h : prepare number session middle) (haction : action middle = .ok () after)
      (hpass : Pass prepare action (number + 1) left after inner) :
      Pass prepare action number (left + 1) session inner

inductive Enters (passes : Nat) (call : Body → Run Unit) :
    Instruction → Session → Body → Session → Prop
  | onlyIf {test body session inner} (h : test.holds session = .ok true inner) :
      Enters passes call (.onlyIf test body) session body inner
  | times {address body count session start inner}
      (hcount : getRegister address session = .ok count start)
      (h : Pass (fun _ before after => after = before) (call body) 1 count start inner) :
      Enters passes call (.times address body) session body inner
  | call {name body session} (h : session.memory.functions.find? name = some body) :
      Enters passes call (.call name) session body session
  | count {address bound body count session start inner}
      (hcount : bound.passes session = .ok count start)
      (h : Pass (fun number before after => setRegister address number before = .ok () after)
        (call body) 1 count start inner) :
      Enters passes call (.count address bound body) session body inner
  | whileTrue {test body session inner}
      (h : Pass (fun _ before after => test.holds before = .ok true after) (call body) 1 passes
        session inner) :
      Enters passes call (.whileTrue test body) session body inner

theorem Enters.body {passes : Nat} {call : Body → Run Unit} {instruction : Instruction}
    {session inner : Session} {body : Body}
    (h : Enters passes call instruction session body inner) :
    instruction.body? = some body ∨
      ∃ name, instruction = .call name ∧ session.memory.functions.find? name = some body := by
  cases h with
  | call h => exact .inr ⟨_, rfl, h⟩
  | _ => exact .inl rfl

/-! ## Operations -/

def Instruction.change? : Instruction → Option (Memory → Memory)
  | .selectPage page => some fun memory => { memory with page := page }
  | .define name body =>
      some fun memory => { memory with functions := memory.functions.insert name body }
  | .undefine name =>
      some fun memory => { memory with functions := memory.functions.insert name #[] }
  | _ => none

theorem Memory.store_cases (memory : Memory) (address value : Int) :
    memory.store address value = .error .noRegister ∨
      memory.store address value = .error .noTarget ∨
      ∃ pages, memory.store address value = .ok { memory with pages := pages } := by
  rw [Memory.store]
  split
  · exact .inl rfl
  split
  · exact .inr (.inl rfl)
  · exact .inr (.inr ⟨_, rfl⟩)

theorem displayedChar_ne_endOfText {value : Int} {fault : Fault}
    (h : displayedChar value = .error fault) : fault ≠ .endOfText := by
  rw [displayedChar] at h
  split at h
  · cases h
    decide
  split at h
  · cases h
    decide
  split at h
  · cases h
    decide
  · cases h

theorem parseInt_ne_endOfText {radix : Nat} {line : List Char} {fault : Fault}
    (h : parseInt radix line = .error fault) : fault ≠ .endOfText := by
  obtain rfl | ⟨-, digits, rfl⟩ := parseInt_eq_error h
  · exact nofun
  · exact nofun

/-- What an instruction sees is the same in related sessions, and prints and inputs do not break the
relation.  An instruction is not stopped by the end of a text. -/
structure Common (Rel : Session → Session → Prop) (Stops : Stop → Prop) : Prop where
  memory : ∀ {session other}, Rel session other → other.memory = session.memory
  input : ∀ {session other}, Rel session other → other.console.input = session.console.input
  print : ∀ {session other} (text : String), Rel session other →
    Rel (session.printing text) (other.printing text)
  take : ∀ {session other} (rest : List Char), Rel session other →
    Rel { session with console := { session.console with input := rest } }
      { other with console := { other.console with input := rest } }
  stops : ∀ {stop}, stop ≠ .fault .endOfText → Stops stop

theorem Common.single {Inv : Session → Prop} {Stops : Stop → Prop}
    (hprint : ∀ {session} (text : String), Inv session → Inv (session.printing text))
    (htake : ∀ {session} (rest : List Char), Inv session →
      Inv { session with console := { session.console with input := rest } })
    (hstops : ∀ {stop}, stop ≠ .fault .endOfText → Stops stop) : Common (Single Inv) Stops := by
  refine ⟨?_, ?_, ?_, ?_, hstops⟩
  · rintro _ session ⟨rfl, -⟩
    rfl
  · rintro _ session ⟨rfl, -⟩
    rfl
  · rintro _ session text ⟨rfl, h⟩
    exact ⟨rfl, hprint text h⟩
  · rintro _ session rest ⟨rfl, h⟩
    exact ⟨rfl, htake rest h⟩

/-- Stores do not break the relation either.  What comes onto the stack was on it or in a
register. -/
structure Indistinct (Rel : Session → Session → Prop) (Stops : Stop → Prop) : Prop
    extends Common Rel Stops where
  store : ∀ {session other address value memory}, Rel session other →
    session.memory.store address value = .ok memory →
      Rel { session with memory := memory } { other with memory := memory }
  stack : ∀ {session other stack}, Rel session other →
    (∀ value ∈ stack, value ∈ session.memory.stack ∨
      ∃ address, session.memory.register? address = some value) →
      Rel { session with memory := { session.memory with stack := stack } }
        { other with memory := { session.memory with stack := stack } }

section

variable {Rel : Session → Session → Prop} {Stops Excused : Stop → Prop}
variable (hrel : Indistinct Rel Stops)

include hrel

theorem concur_ofExcept {result : Except Fault α}
    (h : ∀ fault, result = .error fault → fault ≠ .endOfText) :
    Concur Rel Stops Excused (ofExcept result) (ofExcept result) := by
  cases result with
  | ok value => exact .pure value
  | error fault =>
      refine .throw (hrel.stops fun hstop => ?_)
      cases hstop
      exact h _ rfl rfl

theorem concur_print (text : String) : Concur Rel Stops Excused (print text) (print text) := by
  intro session other h
  exact .ok (hrel.print text h)

theorem concur_getRegister (address : Int) :
    Concur Rel Stops Excused (getRegister address) (getRegister address) := by
  intro session other h
  rw [getRegister_apply, getRegister_apply, hrel.memory h]
  cases session.memory.register? address with
  | none => exact .error ⟨rfl, h, hrel.stops nofun⟩
  | some value => exact .ok h

theorem concur_setRegister (address value : Int) :
    Concur Rel Stops Excused (setRegister address value) (setRegister address value) := by
  intro session other h
  rw [setRegister_apply, setRegister_apply, hrel.memory h]
  cases hstore : session.memory.store address value with
  | ok memory => exact .ok (hrel.store h hstore)
  | error fault =>
      refine .error ⟨rfl, h, hrel.stops fun hstop => ?_⟩
      cases hstop
      obtain hfault | hfault | ⟨pages, hpages⟩ := session.memory.store_cases address value
      · cases hstore.symm.trans hfault
      · cases hstore.symm.trans hfault
      · cases hstore.symm.trans hpages

theorem concur_pop : Concur Rel Stops Excused pop pop := by
  intro session other h
  rw [pop_apply, pop_apply, hrel.memory h]
  cases hstack : session.memory.stack with
  | nil => exact .error ⟨rfl, h, hrel.stops nofun⟩
  | cons value rest =>
      refine .ok (hrel.stack h fun value hvalue => .inl ?_)
      rw [hstack]
      exact List.mem_cons_of_mem _ hvalue

theorem concur_askLine (prompt : String) :
    Concur Rel Stops Excused (askLine prompt) (askLine prompt) := by
  intro session other h
  have hprint := hrel.print prompt h
  rw [askLine_apply, askLine_apply, hrel.input h]
  cases takeLine? session.console.input with
  | none => exact .error ⟨rfl, hprint, hrel.stops nofun⟩
  | some pair => exact .ok (hrel.take pair.2 hprint)

theorem related_push {session other : Session} (h : Rel session other) {address : Int} {value : Nat}
    (hvalue : session.memory.register? address = some value) :
    InAccord Rel Stops Excused (push value session) (push value other) := by
  refine .ok ?_
  change Rel _ { other with memory := { other.memory with stack := value :: other.memory.stack } }
  rw [hrel.memory h]
  refine hrel.stack h fun number hnumber => ?_
  obtain rfl | hnumber := List.mem_cons.mp hnumber
  · exact .inr ⟨address, hvalue⟩
  · exact .inl hnumber

theorem concur_alter (alteration : Alteration) (address : Int) :
    Concur Rel Stops Excused (alter alteration address) (alter alteration address) := by
  intro session other h
  refine (concur_getRegister hrel address session other h).bind
    fun value after another hvalue hafter => ?_
  have hset (number : Int) : Concur Rel Stops Excused (setRegister address number) _ :=
    concur_setRegister hrel address number
  cases alteration with
  | push =>
      rw [getRegister_apply] at hvalue
      split at hvalue
      · next hregister =>
          cases hvalue
          refine (related_push hrel hafter hregister).bind fun _ pushed twin _ hpushed => ?_
          exact hset value pushed twin hpushed
      · cases hvalue
  | pop => exact (concur_pop hrel).bind (fun top => hset top) after another hafter
  | _ => exact hset _ after another hafter

theorem concur_compute (operation : Arithmetic) (target source : Int) :
    Concur Rel Stops Excused (compute operation target source)
      (compute operation target source) := by
  refine (concur_getRegister hrel target).bind fun left => ?_
  exact (concur_getRegister hrel source).bind fun right => concur_setRegister hrel target _

theorem concur_display (format : Format) (value : Int) :
    Concur Rel Stops Excused (display format value) (display format value) := by
  cases format with
  | character =>
      refine (concur_ofExcept hrel fun _ => displayedChar_ne_endOfText).bind fun c => ?_
      exact concur_print hrel _
  | decimal => exact concur_print hrel _
  | hexadecimal => exact concur_print hrel _
  | silent => exact .pure ()

theorem concur_holds (test : Test) : Concur Rel Stops Excused test.holds test.holds := by
  refine (concur_getRegister hrel test.left).bind fun left => ?_
  exact (concur_getRegister hrel test.right).bind fun right => .pure _

theorem concur_ask (radix : Nat) (address : Int) :
    Concur Rel Stops Excused (ask radix address) (ask radix address) := by
  refine (concur_askLine hrel _).bind fun line => ?_
  refine (concur_ofExcept hrel fun _ => parseInt_ne_endOfText).bind fun value => ?_
  exact concur_setRegister hrel address value

theorem concur_write (bytes : List UInt8) :
    Concur Rel Stops Excused (write bytes) (write bytes) := by
  rw [write]
  cases String.fromUTF8? ⟨bytes.toArray⟩ with
  | some text => exact concur_print hrel _
  | none => exact .throw (hrel.stops nofun)

theorem concur_passes (bound : Bound) : Concur Rel Stops Excused bound.passes bound.passes := by
  cases bound with
  | fixed value => exact .pure _
  | register address => exact concur_getRegister hrel address

theorem related_change {session other : Session} (h : Rel session other)
    {change : Memory → Memory}
    (hchange : Rel { session with memory := change session.memory }
      { other with memory := change session.memory }) :
    InAccord Rel Stops Excused
      ((modify fun session => { session with memory := change session.memory } : Run Unit) session)
      ((modify fun session => { session with memory := change session.memory } : Run Unit)
        other) := by
  refine .ok ?_
  change Rel _ { other with memory := change other.memory }
  rw [hrel.memory h]
  exact hchange

/-! ## Loops

Of the body of a loop it is only asked what it does in the sessions in which it is entered. -/

section

variable {first second : Run Unit} {session other : Session} (h : Rel session other)

include h

omit hrel in
theorem related_repeatTimes {count : Nat} (number : Nat)
    (haction : ∀ inner twin, Pass (fun _ before after => after = before) first number count session
      inner → Rel inner twin →
        InAccord Rel Stops Excused (first inner) (second twin)) :
    InAccord Rel Stops Excused (repeatTimes first count session)
      (repeatTimes second count other) := by
  induction count generalizing number session other with
  | zero => exact .ok h
  | succ count ih =>
      refine (haction session other (.first rfl) h).bind fun _ after another hresult hafter => ?_
      refine ih hafter (number + 1) fun inner twin hpass hinner => ?_
      exact haction inner twin (.later rfl hresult hpass) hinner

theorem related_countFrom {address : Int} {next count : Nat}
    (haction : ∀ inner twin, Pass (fun number before after =>
      setRegister address number before = .ok () after) first next count session inner →
        Rel inner twin →
          InAccord Rel Stops Excused (first inner) (second twin)) :
    InAccord Rel Stops Excused (countFrom first address next count session)
      (countFrom second address next count other) := by
  induction count generalizing next session other with
  | zero => exact .ok h
  | succ count ih =>
      refine (concur_setRegister hrel address next session other h).bind
        fun _ middle mirror hset hmiddle => ?_
      refine (haction middle mirror (.first hset) hmiddle).bind
        fun _ after another hresult hafter => ?_
      refine ih hafter fun inner twin hpass hinner => ?_
      exact haction inner twin (.later hset hresult hpass) hinner

theorem related_repeatWhile {test : Test} {passes more : Nat}
    (hpasses : Fits (Excused .unfinished) passes more) (number : Nat)
    (haction : ∀ inner twin, Pass (fun _ before after => test.holds before = .ok true after) first
      number passes session inner → Rel inner twin →
        InAccord Rel Stops Excused (first inner) (second twin)) :
    InAccord Rel Stops Excused (repeatWhile test first passes session)
      (repeatWhile test second more other) := by
  induction passes generalizing more number session other with
  | zero =>
      obtain rfl | ⟨hexcused, -⟩ := hpasses
      · exact .error ⟨rfl, h, hrel.stops nofun⟩
      · exact .excused hexcused
  | succ passes ih =>
      obtain ⟨more, rfl, hrest⟩ := hpasses.pred
      refine (concur_holds hrel test session other h).bind
        fun holds middle mirror htest hmiddle => ?_
      cases holds with
      | false => exact .ok hmiddle
      | true =>
          refine (haction middle mirror (.first htest) hmiddle).bind
            fun _ after another hresult hafter => ?_
          refine ih hafter hrest (number + 1) fun inner twin hpass hinner => ?_
          exact haction inner twin (.later htest hresult hpass) hinner

end

/-! ## Instructions -/

theorem related_perform {call answer : Body → Run Unit} {passes more : Nat}
    (hpasses : Fits (Excused .unfinished) passes more) {instruction : Instruction}
    {session other : Session} (h : Rel session other)
    (hchange : ∀ change, instruction.change? = some change →
      Rel { session with memory := change session.memory }
        { other with memory := change session.memory })
    (hcall : ∀ body inner twin, Enters passes call instruction session body inner →
      Rel inner twin →
        InAccord Rel Stops Excused (call body inner) (answer body twin)) :
    InAccord Rel Stops Excused (perform passes call instruction session)
      (perform more answer instruction other) := by
  cases instruction with
  | pause => exact .ok h
  | alter alteration address => exact concur_alter hrel alteration address session other h
  | selectPage page => exact related_change hrel h (hchange _ rfl)
  | compute operation target source => exact concur_compute hrel _ _ _ session other h
  | load target value => exact concur_setRegister hrel target value session other h
  | display format address =>
      refine (concur_getRegister hrel address).bind (fun value => ?_) session other h
      exact concur_display hrel format _
  | displayValue format value => exact concur_display hrel format value session other h
  | onlyIf test body =>
      refine (concur_holds hrel test session other h).bind fun holds inner twin htest hinner => ?_
      cases holds with
      | true => exact hcall body inner twin (.onlyIf htest) hinner
      | false => exact .ok hinner
  | times address body =>
      refine (concur_getRegister hrel address session other h).bind
        fun count start begun hcount hstart => ?_
      exact related_repeatTimes hstart 1 fun inner twin hpass =>
        hcall body inner twin (.times hcount hpass)
  | define name body => exact related_change hrel h (hchange _ rfl)
  | undefine name => exact related_change hrel h (hchange _ rfl)
  | call name =>
      rw [perform_call_apply, perform_call_apply, hrel.memory h]
      cases hfind : session.memory.functions.find? name with
      | none => exact .ok h
      | some body => exact hcall body session other (.call hfind) h
  | count address bound body =>
      refine (concur_passes hrel bound session other h).bind
        fun count start begun hcount hstart => ?_
      exact related_countFrom hrel hstart fun inner twin hpass =>
        hcall body inner twin (.count hcount hpass)
  | whileTrue test body =>
      exact related_repeatWhile hrel h hpasses 1 fun inner twin hpass =>
        hcall body inner twin (.whileTrue hpass)
  | write bytes => exact concur_write hrel bytes session other h
  | close => exact .ok h
  | exit status => exact .error ⟨rfl, h, hrel.stops nofun⟩
  | ask radix address => exact concur_ask hrel radix address session other h

end

section

variable {Inv : Session → Prop} {Stops : Stop → Prop} {session inner : Session}

theorem Pass.invariant {prepare : Nat → Session → Session → Prop} {action : Run Unit}
    {number left : Nat} (h : Pass prepare action number left session inner)
    (hprepare : ∀ {number before after}, prepare number before after → Inv before → Inv after)
    (haction : ∀ {before after}, action before = .ok () after → Inv before → Inv after)
    (hsession : Inv session) : Inv inner := by
  induction h with
  | first h => exact hprepare h hsession
  | later h hresult _ ih => exact ih (haction hresult (hprepare h hsession))

theorem Enters.invariant {passes : Nat} {call : Body → Run Unit} {instruction : Instruction}
    {body : Body} (h : Enters passes call instruction session body inner)
    (hinv : Indistinct (Single Inv) Stops)
    (hcall : ∀ {before after}, call body before = .ok () after → Inv before → Inv after)
    (hsession : Inv session) : Inv inner := by
  cases h with
  | onlyIf h => exact (concur_holds hinv _).triple.of_ok hsession h
  | times hcount h =>
      refine h.invariant ?_ hcall ((concur_getRegister hinv _).triple.of_ok hsession hcount)
      rintro _ before _ rfl hbefore
      exact hbefore
  | call h => exact hsession
  | count hcount h =>
      refine h.invariant ?_ hcall ((concur_passes hinv _).triple.of_ok hsession hcount)
      exact fun hset hbefore => (concur_setRegister hinv _ _).triple.of_ok hbefore hset
  | whileTrue h =>
      refine h.invariant ?_ hcall hsession
      exact fun htest hbefore => (concur_holds hinv _).triple.of_ok hbefore htest

end

/-! ## Runs -/

structure Indifferent (Rel : Session → Session → Prop) (Stops : Stop → Prop) : Prop
    extends Common Rel Stops where
  change : ∀ {session other} (memory : Memory), Rel session other →
    Rel { session with memory := memory } { other with memory := memory }

section

variable {Rel : Session → Session → Prop} {Stops Excused : Stop → Prop}
variable {call answer : Body → Run Unit} {passes more : Nat}

theorem Indifferent.indistinct (h : Indifferent Rel Stops) : Indistinct Rel Stops :=
  ⟨h.toCommon, fun hrel _ => h.change _ hrel, fun hrel _ => h.change _ hrel⟩

theorem Indifferent.perform (h : Indifferent Rel Stops)
    (hcall : ∀ body, Concur Rel Stops Excused (call body) (answer body))
    (hpasses : Fits (Excused .unfinished) passes more) (instruction : Instruction) :
    Concur Rel Stops Excused (perform passes call instruction) (perform more answer instruction) :=
  fun _ _ hrel => related_perform h.indistinct hpasses hrel (fun _ _ => h.change _ hrel)
    fun body inner twin _ => hcall body inner twin

theorem Indifferent.executeText {edition : Edition} {tracing traced : Bool}
    (h : Indifferent Rel Stops)
    (hend : ∀ {session other}, Rel session other → other.cursor.atEnd = session.cursor.atEnd)
    (hfetch : Concur Rel Stops Excused (fetchNext edition tracing passes)
      (fetchNext edition traced more))
    (hcall : ∀ body, Concur Rel Stops Excused (call body) (answer body))
    (hpasses : Fits (Excused .unfinished) passes more) {fuel supply : Nat}
    (hfuel : Fits (Excused .unfinished) fuel supply) :
    Concur Rel Stops Excused (executeText edition tracing passes call fuel)
      (executeText edition traced more answer supply) := by
  induction fuel generalizing supply with
  | zero =>
      obtain rfl | ⟨hexcused, -⟩ := hfuel
      · exact .throw (h.stops nofun)
      · exact fun _ _ _ => .excused hexcused
  | succ fuel ih =>
      obtain ⟨supply, rfl, hrest⟩ := hfuel.pred
      intro session other hrel
      change Related _ _ _ ((if session.cursor.atEnd then pure () else _ : Run Unit) session)
        ((if other.cursor.atEnd then pure () else _ : Run Unit) other)
      rw [hend hrel]
      split
      · exact .ok hrel
      · refine hfetch.bind (fun instruction => .ite (.pure ()) ?_) session other hrel
        exact (h.perform hcall hpasses instruction).bind fun _ => ih hrest

theorem concur_reading {Readers : Reader → Reader → Prop} {first second : Reading α}
    (h : Concur Readers Stops Excused first second)
    (hbefore : ∀ {session other}, Rel session other → Readers session.reader other.reader)
    (hafter : ∀ {session other reader twin}, Rel session other → Readers reader twin →
      Rel (session.afterReading reader) (other.afterReading twin)) :
    Concur Rel Stops Excused (reading first) (reading second) := by
  intro session other hrel
  have hrelated := h _ _ (hbefore hrel)
  rw [Session.reader, Session.reader] at hrelated
  rw [reading, reading]
  revert hrelated
  generalize first _ = result
  generalize second _ = result'
  intro hrelated
  cases hrelated with
  | ok h => exact .ok (hafter hrel h)
  | error h => exact .error ⟨h.1, hafter hrel h.2.1, h.2.2⟩
  | excused h => exact .excused h

theorem concur_onCursor {Inner : Session → Session → Prop} {first second : Run α}
    {cursor : Bits.Cursor} (h : Concur Inner Stops Excused first second)
    (henter : ∀ {session other}, Rel session other →
      Inner { session with cursor := cursor, traced := false }
        { other with cursor := cursor, traced := false })
    (hleave : ∀ {session other inner twin}, Rel session other → Inner inner twin →
      Rel (session.resume inner) (other.resume twin)) :
    Concur Rel Stops Excused (onCursor cursor first) (onCursor cursor second) := by
  intro session other hrel
  have hrelated := h _ _ (henter hrel)
  rw [onCursor, onCursor]
  revert hrelated
  generalize first _ = result
  generalize second _ = result'
  intro hrelated
  cases hrelated with
  | ok h => exact .ok (hleave hrel h)
  | error h => exact .error ⟨h.1, hleave hrel h.2.1, h.2.2⟩
  | excused h => exact .excused h

end

/-! ## Places -/

def Stationary (action : Run α) : Prop :=
  ∀ cursor, Concur (Single fun session => session.cursor = cursor) (fun _ => True)
    (fun _ => False) action action

theorem Stationary.eq_ok {action : Run α} (h : Stationary action) {session after : Session}
    {value : α} (hresult : action session = .ok value after) : after.cursor = session.cursor :=
  (h session.cursor).triple.of_ok rfl hresult

theorem stationary_onCursor (cursor : Bits.Cursor) (action : Run α) :
    Stationary (onCursor cursor action) := by
  refine fun place => Triple.concur ?_
  rintro session rfl
  rw [onCursor]
  cases action { session with cursor := cursor, traced := false } with
  | ok value after => rfl
  | error stop after => exact ⟨rfl, trivial⟩

theorem Stationary.perform {call : Body → Run Unit} (hcall : ∀ body, Stationary (call body))
    (passes : Nat) (instruction : Instruction) :
    Stationary (perform passes call instruction) := by
  intro cursor
  have hcommon : Common (Single fun session => session.cursor = cursor) (fun _ => True) :=
    .single (fun _ h => h) (fun _ h => h) fun _ => trivial
  refine Indifferent.perform ⟨hcommon, ?_⟩ (fun body => hcall body cursor) (.inl rfl) instruction
  rintro _ session memory ⟨rfl, hcursor⟩
  exact ⟨rfl, hcursor⟩

end BitAssembly.Machine
