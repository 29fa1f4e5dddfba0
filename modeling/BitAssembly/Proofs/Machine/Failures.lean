import BitAssembly.Proofs.Machine.Moments
import BitAssembly.Proofs.Machine.Sequencing

/-!
# What a run can fail with

A run on bits that does not end normally has nested too deep, has come to the
end of its text in the middle of an instruction, or has come to an instruction
that ends it: an exit, a pop from the empty stack, a display of what is no
character, a bad or missing line of input, or a text with a bad encoding.  No
other instruction fails, however ill-formed the bits are.
-/

namespace BitAssembly.Machine

open BitAssembly.Text

variable {edition : Edition} {passes : Nat} {call : Body → Run Unit}

inductive Exhausts (test : Test) (action : Run Unit) : Nat → Session → Prop
  | none {session : Session} : Exhausts test action 0 session
  | pass {passes : Nat} {session middle after : Session}
      (htest : test.holds session = .ok true middle) (haction : action middle = .ok () after)
      (h : Exhausts test action passes after) : Exhausts test action (passes + 1) session

/-- The instructions that end a run, each with the session in which it does so. -/
inductive Raises (edition : Edition) (passes : Nat) (call : Body → Run Unit) :
    Instruction → Session → Stop → Prop
  | exit {status : Nat} {session : Session} (hstatus : status = 0 ∨ status = 1) :
      Raises edition passes call (.exit status) session (.exit (some status))
  | pop {address : Int} {session : Session} (hstack : session.memory.stack = []) :
      Raises edition passes call (.alter .pop address) session (.fault .emptyStack)
  | notCodePoint {address : Int} {session : Session} {value : Nat}
      (hregister : session.memory.register? address = some value)
      (hvalue : 0x110000 ≤ value ∧ value < 0x80000000) :
      Raises edition passes call (.display .character address) session (.fault .notCodePoint)
  | wideCodePoint {address : Int} {session : Session} {value : Nat}
      (hregister : session.memory.register? address = some value) (hvalue : 0x80000000 ≤ value) :
      Raises edition passes call (.display .character address) session (.fault .wideCodePoint)
  | surrogate {address : Int} {session : Session} {value : Nat}
      (hregister : session.memory.register? address = some value)
      (hvalue : 0xd800 ≤ value ∧ value ≤ 0xdfff) :
      Raises edition passes call (.display .character address) session (.fault .surrogate)
  | endOfInput {radix : Nat} {address : Int} {session : Session}
      (hline : takeLine? session.console.input = none) :
      Raises edition passes call (.ask radix address) session (.fault .endOfInput)
  | badNumeral {radix : Nat} {address : Int} {session : Session} {line rest : List Char}
      (hradix : radix = 16 ∨ radix = 10)
      (hline : takeLine? session.console.input = some (line, rest))
      (hvalue : parseInt radix line = .error (.badNumeral radix)) :
      Raises edition passes call (.ask radix address) session (.fault (.badNumeral radix))
  | longNumeral {address : Int} {session : Session} {line rest : List Char} {digits : Nat}
      (hline : takeLine? session.console.input = some (line, rest))
      (hvalue : parseInt 10 line = .error (.longNumeral digits)) :
      Raises edition passes call (.ask 10 address) session (.fault (.longNumeral digits))
  | badEncoding {bytes : List UInt8} {session : Session} (hedition : edition = .extended)
      (hbytes : String.fromUTF8? ⟨bytes.toArray⟩ = none) :
      Raises edition passes call (.write bytes) session (.fault .badEncoding)
  | unfinished {test : Test} {body : Body} {session : Session}
      (h : Exhausts test (call body) passes session) :
      Raises edition passes call (.whileTrue test body) session .unfinished

/-! ## Operations that do not fail -/

theorem exists_index? {size : Nat} {i : Int} (h : 0 ≤ i ∧ i < size) :
    ∃ slot, index? size i = some slot := by
  obtain ⟨offset, rfl⟩ := Int.eq_ofNat_of_zero_le h.1
  exact ⟨_, index?_natCast (by omega)⟩

theorem getRegister_sound {session : Session} (h : session.Sound) {address : Int}
    (haddress : IsAddress address) :
    ∃ value, session.memory.register? address = some value ∧ value < 2 ^ 32 ∧
      getRegister address session = .ok value session := by
  obtain ⟨page, hpage⟩ := exists_index? h.memory.page
  obtain ⟨slot, hslot⟩ := exists_index? haddress
  have hvalue : session.memory.register? address = some session.memory.pages[page][slot] := by
    rw [Memory.register?, Memory.page?, hpage, hslot]
  refine ⟨_, hvalue, h.memory.register? hvalue, ?_⟩
  rw [getRegister_apply, hvalue]

theorem setRegister_sound {session : Session} (h : session.Sound) {address : Int}
    (haddress : IsAddress address) (value : Int) :
    ∃ after, setRegister address value session = .ok () after := by
  obtain ⟨page, hpage⟩ := exists_index? h.memory.page
  obtain ⟨slot, hslot⟩ := exists_index? haddress
  rw [setRegister_apply, Memory.store, Memory.page?, hpage, hslot]
  exact ⟨_, rfl⟩

theorem holds_sound {session : Session} (h : session.Sound) {test : Test} (htest : test.Regular) :
    ∃ holds, test.holds session = .ok holds session := by
  obtain ⟨left, -, -, hleft⟩ := getRegister_sound h htest.1
  obtain ⟨right, -, -, hright⟩ := getRegister_sound h htest.2
  exact ⟨test.comparison.holds left right, (bind_of_ok hleft).trans (bind_of_ok hright)⟩

theorem passes_sound {session : Session} (h : session.Sound) {address : Int} {bound : Bound}
    (hregular : IsAddress address ∧ bound.Regular) :
    ∃ count, bound.passes session = .ok count session := by
  cases bound with
  | fixed value => exact ⟨_, rfl⟩
  | register limit =>
      obtain ⟨count, -, -, hcount⟩ := getRegister_sound h hregular.2
      exact ⟨count, hcount⟩

theorem setRegister_ne_error {session after : Session} (h : session.Sound) {address : Int}
    (haddress : IsAddress address) (value : Int) {stop : Stop} :
    setRegister address value session ≠ .error stop after := by
  obtain ⟨last, hok⟩ := setRegister_sound h haddress value
  rw [hok]
  exact fun herror => nomatch herror

theorem bind_getRegister_eq_error {α : Type} {next : Nat → Run α} {session after : Session}
    (hsession : session.Sound) {address : Int} (haddress : IsAddress address) {stop : Stop}
    (h : (getRegister address >>= next) session = .error stop after) :
    ∃ value, session.memory.register? address = some value ∧ value < 2 ^ 32 ∧
      getRegister address session = .ok value session ∧ next value session = .error stop after := by
  obtain ⟨value, hregister, hlt, hget⟩ := getRegister_sound hsession haddress
  exact ⟨value, hregister, hlt, hget, (bind_of_ok hget).symm.trans h⟩

/-! ## Operations that may fail -/

section

variable {session after : Session} {stop : Stop} (hsession : session.Sound)

include hsession

theorem alter_eq_error {alteration : Alteration} {address : Int} (haddress : IsAddress address)
    (h : alter alteration address session = .error stop after) :
    Raises edition passes call (.alter alteration address) session stop := by
  obtain ⟨value, hregister, -, -, h⟩ := bind_getRegister_eq_error hsession haddress h
  cases alteration with
  | push =>
      rcases bind_eq_error h with h | ⟨_, pushed, hpush, h⟩
      · cases h
      · cases hpush
        exact absurd h (setRegister_ne_error (hsession.push hregister) haddress _)
  | pop =>
      rcases bind_eq_error h with h | ⟨top, popped, hpop, h⟩
      · rw [pop_apply] at h
        cases hstack : session.memory.stack with
        | nil =>
            rw [hstack] at h
            cases h
            exact .pop hstack
        | cons value rest =>
            rw [hstack] at h
            cases h
      · have hpopped := Safe.eq_ok (concur_pop indistinct_sound) hsession hpop
        exact absurd h (setRegister_ne_error hpopped haddress _)
  | _ => exact absurd h (setRegister_ne_error hsession haddress _)

theorem compute_ne_error {operation : Arithmetic} {target source : Int}
    (htarget : IsAddress target) (hsource : IsAddress source) :
    compute operation target source session ≠ .error stop after := by
  intro h
  obtain ⟨left, -, -, -, h⟩ := bind_getRegister_eq_error hsession htarget h
  obtain ⟨right, -, -, -, h⟩ := bind_getRegister_eq_error hsession hsource h
  exact setRegister_ne_error hsession htarget _ h

omit hsession in
theorem display_eq_error {format : Format} {value : Int}
    (h : display format value session = .error stop after) :
    format = .character ∧ ∃ fault, displayedChar value = .error fault ∧ stop = .fault fault := by
  cases format with
  | character =>
      refine ⟨rfl, ?_⟩
      rcases bind_eq_error h with h | ⟨c, middle, -, h⟩
      · cases hchar : displayedChar value with
        | ok c =>
            rw [hchar] at h
            cases h
        | error fault =>
            rw [hchar] at h
            cases h
            exact ⟨fault, rfl, rfl⟩
      · cases h
  | _ => cases h

theorem displayRegister_eq_error {format : Format} {address : Int} (haddress : IsAddress address)
    (h : perform passes call (.display format address) session = .error stop after) :
    Raises edition passes call (.display format address) session stop := by
  obtain ⟨value, hregister, hlt, -, h⟩ := bind_getRegister_eq_error hsession haddress h
  obtain ⟨rfl, fault, hfault, rfl⟩ := display_eq_error h
  rw [displayedChar] at hfault
  split at hfault
  · cases hfault
    exact .wideCodePoint hregister (by omega)
  split at hfault
  · cases hfault
    exact .notCodePoint hregister (by omega)
  split at hfault
  · cases hfault
    exact .surrogate hregister (by omega)
  · cases hfault

omit hsession in
theorem displayValue_ne_error {format : Format} {value : Int} (hvalue : 0 ≤ value ∧ value < 256) :
    display format value session ≠ .error stop after := by
  intro h
  obtain ⟨-, fault, hfault, -⟩ := display_eq_error h
  rw [displayedChar, if_neg (by omega), if_neg (by omega), if_neg (by omega)] at hfault
  cases hfault

theorem ask_eq_error {radix : Nat} {address : Int} (hradix : radix = 16 ∨ radix = 10)
    (haddress : IsAddress address) (h : ask radix address session = .error stop after) :
    Raises edition passes call (.ask radix address) session stop := by
  rcases bind_eq_error h with h | ⟨line, asked, hask, h⟩
  · rw [askLine_apply] at h
    cases hline : takeLine? session.console.input with
    | none =>
        rw [hline] at h
        cases h
        exact .endOfInput hline
    | some pair =>
        rw [hline] at h
        cases h
  · have hasked := Safe.eq_ok (concur_askLine indistinct_sound _) hsession hask
    rw [askLine_apply] at hask
    cases hline : takeLine? session.console.input with
    | none =>
        rw [hline] at hask
        cases hask
    | some pair =>
        rw [hline] at hask
        cases hask
        rcases bind_eq_error h with h | ⟨value, middle, hvalue, h⟩
        · cases hparse : parseInt radix pair.1 with
          | ok value =>
              rw [hparse] at h
              cases h
          | error fault =>
              rw [hparse] at h
              cases h
              rcases parseInt_eq_error hparse with rfl | ⟨rfl, digits, rfl⟩
              · exact .badNumeral hradix hline hparse
              · exact .longNumeral hline hparse
        · have hparse : Safe (ofExcept (parseInt radix pair.1)) :=
            concur_ofExcept indistinct_sound fun _ => parseInt_ne_endOfText
          exact absurd h (setRegister_ne_error (hparse.eq_ok hasked hvalue) haddress value)

omit hsession in
theorem write_eq_error {bytes : List UInt8} (hedition : edition = .extended)
    (h : write bytes session = .error stop after) :
    Raises edition passes call (.write bytes) session stop := by
  rw [write] at h
  cases hbytes : String.fromUTF8? ⟨bytes.toArray⟩ with
  | some text =>
      rw [hbytes] at h
      cases h
  | none =>
      rw [hbytes] at h
      cases h
      exact .badEncoding hedition hbytes

end

/-! ## Loops -/

def FailsIn (action : Run Unit) (stop : Stop) (session : Session) : Prop :=
  ∃ after, action session = .error stop after

section

variable {action : Run Unit} {stop : Stop}

theorem repeatTimes_eq_error {count : Nat} (number : Nat) {session after : Session}
    (h : repeatTimes action count session = .error stop after) :
    ∃ inner, Pass (fun _ before after => after = before) action number count session inner ∧
      FailsIn action stop inner := by
  induction count generalizing number session with
  | zero => cases h
  | succ count ih =>
      rcases bind_eq_error h with h | ⟨_, middle, haction, h⟩
      · exact ⟨session, .first rfl, after, h⟩
      · obtain ⟨inner, hpass, hfails⟩ := ih (number + 1) h
        exact ⟨inner, .later rfl haction hpass, hfails⟩

variable (haction : Safe action)

include haction

theorem countFrom_eq_error {address : Int} (haddress : IsAddress address) {next count : Nat}
    {session after : Session} (hsession : session.Sound)
    (h : countFrom action address next count session = .error stop after) :
    ∃ inner, Pass (fun number before after => setRegister address number before = .ok () after)
      action next count session inner ∧ FailsIn action stop inner := by
  induction count generalizing next session with
  | zero => cases h
  | succ count ih =>
      obtain ⟨ready, hset⟩ := setRegister_sound hsession haddress next
      have hready := Safe.eq_ok (concur_setRegister indistinct_sound _ _) hsession hset
      rcases bind_eq_error ((bind_of_ok hset).symm.trans h) with h | ⟨_, middle, hresult, h⟩
      · exact ⟨ready, .first hset, after, h⟩
      · obtain ⟨inner, hpass, hfails⟩ := ih (haction.eq_ok hready hresult) h
        exact ⟨inner, .later hset hresult hpass, hfails⟩

theorem repeatWhile_eq_error {test : Test} (htest : test.Regular) {passes : Nat} (number : Nat)
    {session after : Session} (hsession : session.Sound)
    (h : repeatWhile test action passes session = .error stop after) :
    stop = .unfinished ∧ Exhausts test action passes session ∨
      ∃ inner, Pass (fun _ before after => test.holds before = .ok true after) action number passes
        session inner ∧ FailsIn action stop inner := by
  induction passes generalizing number session with
  | zero =>
      cases h
      exact .inl ⟨rfl, .none⟩
  | succ passes ih =>
      obtain ⟨holds, hholds⟩ := holds_sound hsession htest
      have hrest := (bind_of_ok hholds).symm.trans h
      cases holds with
      | false => cases hrest
      | true =>
          rcases bind_eq_error hrest with h | ⟨_, middle, hresult, h⟩
          · exact .inr ⟨session, .first hholds, after, h⟩
          · rcases ih (number + 1) (haction.eq_ok hsession hresult) h with
              ⟨rfl, hexhausts⟩ | ⟨inner, hpass, hfails⟩
            · exact .inl ⟨rfl, .pass hholds hresult hexhausts⟩
            · exact .inr ⟨inner, .later hholds hresult hpass, hfails⟩

end

/-! ## Instructions -/

/-- What stops an instruction is its own doing, or it stopped a body that the instruction runs. -/
theorem perform_eq_error
    (hcall : ∀ body, AllBits body.toList → Safe (call body))
    {instruction : Instruction} (hregular : instruction.Regular edition) {session after : Session}
    (hsession : session.Sound) {stop : Stop}
    (h : perform passes call instruction session = .error stop after) :
    Raises edition passes call instruction session stop ∨
      ∃ body inner, Enters passes call instruction session body inner ∧
        FailsIn (call body) stop inner := by
  cases instruction with
  | alter alteration address => exact .inl (alter_eq_error hsession hregular h)
  | compute operation target source =>
      exact absurd h (compute_ne_error hsession hregular.1 hregular.2)
  | load target value => exact absurd h (setRegister_ne_error hsession hregular value)
  | display format address => exact .inl (displayRegister_eq_error hsession hregular h)
  | displayValue format value => exact absurd h (displayValue_ne_error hregular)
  | onlyIf test body =>
      obtain ⟨holds, hholds⟩ := holds_sound hsession hregular.1
      have hrest := (bind_of_ok hholds).symm.trans h
      cases holds with
      | true => exact .inr ⟨body, session, .onlyIf hholds, after, hrest⟩
      | false => cases hrest
  | times address body =>
      obtain ⟨count, -, -, hcount, h⟩ := bind_getRegister_eq_error hsession hregular.1 h
      obtain ⟨inner, hpass, hfails⟩ := repeatTimes_eq_error 1 h
      exact .inr ⟨body, inner, .times hcount hpass, hfails⟩
  | call name =>
      rw [perform_call_apply] at h
      cases hbody : session.memory.functions.find? name with
      | none =>
          rw [hbody] at h
          cases h
      | some body =>
          rw [hbody] at h
          exact .inr ⟨body, session, .call hbody, after, h⟩
  | count address bound body =>
      obtain ⟨count, hcount⟩ := passes_sound hsession hregular.1
      obtain ⟨inner, hpass, hfails⟩ := countFrom_eq_error (hcall body hregular.2) hregular.1.1
        hsession ((bind_of_ok hcount).symm.trans h)
      exact .inr ⟨body, inner, .count hcount hpass, hfails⟩
  | whileTrue test body =>
      rcases repeatWhile_eq_error (hcall body hregular.2) hregular.1 1 hsession h with
        ⟨rfl, hexhausts⟩ | ⟨inner, hpass, hfails⟩
      · exact .inl (.unfinished hexhausts)
      · exact .inr ⟨body, inner, .whileTrue hpass, hfails⟩
  | write bytes => exact .inl (write_eq_error hregular h)
  | exit status =>
      cases h
      exact .inl (.exit hregular)
  | ask radix address => exact .inl (ask_eq_error hsession hregular.1 hregular.2 h)
  | _ => cases h

/-! ## Instructions that do fail -/

theorem display_fails {address : Int} {session : Session} {value : Nat} {fault : Fault}
    (hregister : session.memory.register? address = some value)
    (hchar : displayedChar value = .error fault) :
    FailsIn (perform passes call (.display .character address)) (.fault fault) session := by
  have hget : getRegister address session = .ok value session := by
    rw [getRegister_apply, hregister]
  have hfault : ofExcept (displayedChar value) session = .error (.fault fault) session := by
    rw [hchar]
    rfl
  refine ⟨session, ?_⟩
  rw [perform, bind_of_ok hget, display, bind_of_error hfault]

theorem ask_fails {radix : Nat} {address : Int} {session : Session} {line rest : List Char}
    {fault : Fault} (hline : takeLine? session.console.input = some (line, rest))
    (hvalue : parseInt radix line = .error fault) :
    FailsIn (perform passes call (.ask radix address)) (.fault fault) session := by
  have hask := askLine_apply (askPrompt radix) session
  rw [hline] at hask
  have hfault (asked : Session) :
      ofExcept (parseInt radix line) asked = .error (.fault fault) asked := by
    rw [hvalue]
    rfl
  exact ⟨_, (bind_of_ok hask).trans (bind_of_error (hfault _))⟩

theorem Exhausts.fails {test : Test} {action : Run Unit} {passes : Nat} {session : Session}
    (h : Exhausts test action passes session) :
    FailsIn (repeatWhile test action passes) .unfinished session := by
  induction h with
  | none => exact ⟨_, rfl⟩
  | pass htest haction _ ih =>
      obtain ⟨after, ih⟩ := ih
      exact ⟨after, (bind_of_ok htest).trans ((bind_of_ok haction).trans ih)⟩

theorem Raises.fails {instruction : Instruction} {session : Session} {stop : Stop}
    (h : Raises edition passes call instruction session stop) (hsession : session.Sound)
    (hregular : instruction.Regular edition) :
    FailsIn (perform passes call instruction) stop session := by
  cases h with
  | exit hstatus => exact ⟨session, rfl⟩
  | pop hstack =>
      obtain ⟨value, -, -, hget⟩ := getRegister_sound hsession hregular
      have hpop := pop_apply session
      rw [hstack] at hpop
      exact ⟨session, (bind_of_ok hget).trans (bind_of_error hpop)⟩
  | notCodePoint hregister hvalue =>
      apply display_fails hregister
      rw [displayedChar, if_neg (by omega), if_pos (by omega)]
  | wideCodePoint hregister hvalue =>
      apply display_fails hregister
      rw [displayedChar, if_pos (by omega)]
  | surrogate hregister hvalue =>
      apply display_fails hregister
      rw [displayedChar, if_neg (by omega), if_neg (by omega), if_pos (by omega)]
  | @endOfInput radix _ _ hline =>
      have hask := askLine_apply (askPrompt radix) session
      rw [hline] at hask
      exact ⟨_, bind_of_error hask⟩
  | badNumeral hradix hline hvalue => exact ask_fails hline hvalue
  | longNumeral hline hvalue => exact ask_fails hline hvalue
  | badEncoding hedition hbytes =>
      refine ⟨session, ?_⟩
      rw [perform, write, hbytes]
      rfl
  | unfinished h => exact h.fails

section

variable {action : Run Unit} {stop : Stop} {number left : Nat} {session inner : Session}

theorem Pass.repeatTimes_fails
    (h : Pass (fun _ before after => after = before) action number left session inner)
    (hfails : FailsIn action stop inner) : FailsIn (repeatTimes action left) stop session := by
  induction h with
  | first h =>
      obtain ⟨after, herror⟩ := hfails
      rw [h] at herror
      exact ⟨after, bind_of_error herror⟩
  | later h haction _ ih =>
      obtain ⟨after, herror⟩ := ih hfails
      rw [h] at haction
      exact ⟨after, (bind_of_ok haction).trans herror⟩

theorem Pass.countFrom_fails {address : Int}
    (h : Pass (fun number before after => setRegister address number before = .ok () after) action
      number left session inner)
    (hfails : FailsIn action stop inner) :
    FailsIn (countFrom action address number left) stop session := by
  induction h with
  | first h =>
      obtain ⟨after, herror⟩ := hfails
      exact ⟨after, (bind_of_ok h).trans (bind_of_error herror)⟩
  | later h haction _ ih =>
      obtain ⟨after, herror⟩ := ih hfails
      exact ⟨after, (bind_of_ok h).trans ((bind_of_ok haction).trans herror)⟩

theorem Pass.repeatWhile_fails {test : Test}
    (h : Pass (fun _ before after => test.holds before = .ok true after) action number left
      session inner)
    (hfails : FailsIn action stop inner) :
    FailsIn (repeatWhile test action left) stop session := by
  induction h with
  | first h =>
      obtain ⟨after, herror⟩ := hfails
      exact ⟨after, (bind_of_ok h).trans (bind_of_error herror)⟩
  | later h haction _ ih =>
      obtain ⟨after, herror⟩ := ih hfails
      exact ⟨after, (bind_of_ok h).trans ((bind_of_ok haction).trans herror)⟩

theorem Enters.fails {instruction : Instruction} {body : Body}
    (h : Enters passes call instruction session body inner)
    (hfails : FailsIn (call body) stop inner) :
    FailsIn (perform passes call instruction) stop session := by
  cases h with
  | onlyIf h =>
      obtain ⟨after, herror⟩ := hfails
      exact ⟨after, (bind_of_ok h).trans herror⟩
  | times hcount h =>
      obtain ⟨after, herror⟩ := h.repeatTimes_fails hfails
      exact ⟨after, (bind_of_ok hcount).trans herror⟩
  | call h =>
      obtain ⟨after, herror⟩ := hfails
      refine ⟨after, ?_⟩
      rw [perform_call_apply, h]
      exact herror
  | count hcount h =>
      obtain ⟨after, herror⟩ := h.countFrom_fails hfails
      exact ⟨after, (bind_of_ok hcount).trans herror⟩
  | whileTrue h => exact h.repeatWhile_fails hfails

end

/-! ## Runs -/

theorem Moment.perform_cursor {moment : Moment} {instruction : Instruction}
    {fetched after : Session}
    (h : perform passes (moment.call edition passes) instruction fetched = .ok () after) :
    after.cursor = fetched.cursor :=
  (Stationary.perform (fun _ => stationary_onCursor _ _) passes instruction).eq_ok h

theorem executeText_more {session : Session} (hmore : ¬ session.cursor.atEnd) (tracing : Bool)
    (fuel : Nat) :
    executeText edition tracing passes call (fuel + 1) session =
      (do
        let instruction ← fetchNext edition tracing passes
        if instruction = .close then pure () else do
          perform passes call instruction
          executeText edition tracing passes call fuel : Run Unit) session := by
  change (if session.cursor.atEnd then pure () else _ : Run Unit) session = _
  rw [if_neg hmore]

theorem executeText_fuel
    (hcall : ∀ body, AllBits body.toList → Safe (call body))
    (hstays : ∀ body, Stationary (call body)) (tracing : Bool) {fuel other : Nat}
    {session : Session} (hsession : session.Sound)
    (hfuel : session.cursor.rest.length < fuel) (hother : session.cursor.rest.length < other) :
    executeText edition tracing passes call fuel session =
      executeText edition tracing passes call other session := by
  induction fuel generalizing other session with
  | zero => omega
  | succ fuel ih =>
    obtain ⟨other, rfl⟩ := Nat.exists_eq_add_one.mpr (show 0 < other by omega)
    by_cases hend : session.cursor.atEnd
    · change (if session.cursor.atEnd then pure () else _ : Run Unit) session =
        (if session.cursor.atEnd then pure () else _ : Run Unit) session
      rw [if_pos hend, if_pos hend]
    · rw [executeText_more hend, executeText_more hend]
      have hfetch := @fetchNext_sound edition session tracing passes hsession
      cases hresult : fetchNext edition tracing passes session with
      | error stop fetched => rw [bind_of_error hresult, bind_of_error hresult]
      | ok instruction fetched =>
          rw [hresult] at hfetch
          obtain ⟨⟨hfetched, hless⟩, hregular⟩ := hfetch
          rw [bind_of_ok hresult, bind_of_ok hresult]
          split
          · rfl
          · cases hperform : perform passes call instruction fetched with
            | error stop after => rw [bind_of_error hperform, bind_of_error hperform]
            | ok _ after =>
                -- Bodies are texts of their own, so performing does not move in this one.
                have hafter := Safe.eq_ok (matches_perform hcall passes hregular) hfetched hperform
                have hplace := (Stationary.perform hstays passes instruction).eq_ok hperform
                rw [bind_of_ok hperform, bind_of_ok hperform]
                exact ih hafter (by rw [hplace]; omega) (by rw [hplace]; omega)

def Moment.run (edition : Edition) (passes : Nat) (moment : Moment) :
    EStateM.Result Stop Session Unit :=
  executeAt edition passes moment.levels moment.tracing moment.session

theorem Moment.call_apply (moment : Moment) (body : Body) (inner : Session) :
    moment.call edition passes body inner =
      mapSession inner.resume ((moment.within inner body).run edition passes) := by
  rw [call, callBody, onCursor, run, within]
  generalize executeAt edition passes (moment.levels - 1) false
    { inner with cursor := .ofChars body, traced := false } = result
  cases result <;> rfl

/-- What stops a run that is at this moment. -/
inductive Moment.Cause (edition : Edition) (passes : Nat) (start : Moment) : Stop → Prop
  | tooDeep {moment : Moment} (h : start.Comes edition passes moment)
      (hlevels : moment.levels = 0) : Cause edition passes start .tooDeep
  | endOfText {moment : Moment} {after : Session} (h : start.Comes edition passes moment)
      (hlevel : 0 < moment.levels) (hmore : ¬ moment.session.cursor.atEnd)
      (hfetch : fetchNext edition moment.tracing passes moment.session =
        .error (.fault .endOfText) after) :
      Cause edition passes start (.fault .endOfText)
  | raised {moment : Moment} {instruction : Instruction} {fetched : Session} {stop : Stop}
      (h : start.Comes edition passes moment)
      (hperforms : moment.Performs edition passes instruction fetched)
      (hraises : Raises edition passes (moment.call edition passes) instruction fetched stop) :
      Cause edition passes start stop

section

variable {moment other : Moment} {instruction : Instruction} {fetched after : Session} {stop : Stop}

theorem Moment.Goes.cause (h : moment.Goes edition passes other)
    (hcause : other.Cause edition passes stop) : moment.Cause edition passes stop := by
  cases hcause with
  | tooDeep hcomes hlevels => exact .tooDeep (.head h hcomes) hlevels
  | endOfText hcomes hlevel hmore hfetch =>
      exact .endOfText (.head h hcomes) hlevel hmore hfetch
  | raised hcomes hperforms hraises => exact .raised (.head h hcomes) hperforms hraises

theorem Moment.run_eq (hlevel : 0 < moment.levels) :
    moment.run edition passes =
      executeText edition moment.tracing passes (moment.call edition passes)
        (moment.session.cursor.text.size + 1 + passes) moment.session := by
  obtain ⟨session, tracing, levels⟩ := moment
  obtain ⟨levels, rfl⟩ := Nat.exists_eq_add_one.mpr hlevel
  rfl

theorem Moment.run_more (hlevel : 0 < moment.levels) (hmore : ¬ moment.session.cursor.atEnd) :
    moment.run edition passes =
      (do
        let instruction ← fetchNext edition moment.tracing passes
        if instruction = .close then pure () else do
          perform passes (moment.call edition passes) instruction
          executeText edition moment.tracing passes (moment.call edition passes)
            (moment.session.cursor.text.size + passes) : Run Unit) moment.session := by
  rw [run_eq hlevel, Nat.add_right_comm, executeText_more hmore]

theorem Moment.run_end (hlevel : 0 < moment.levels) (hend : moment.session.cursor.atEnd) :
    moment.run edition passes = .ok () moment.session := by
  rw [run_eq hlevel, Nat.add_right_comm]
  change (if moment.session.cursor.atEnd then pure () else _ : Run Unit) _ = _
  rw [if_pos hend]
  rfl

theorem Moment.run_close (hlevel : 0 < moment.levels) (hmore : ¬ moment.session.cursor.atEnd)
    (hfetch : fetchNext edition moment.tracing passes moment.session = .ok .close fetched) :
    moment.run edition passes = .ok () fetched := by
  rw [run_more hlevel hmore, bind_of_ok hfetch]
  rfl

theorem Moment.Performs.run_error (h : moment.Performs edition passes instruction fetched)
    (hperform : perform passes (moment.call edition passes) instruction fetched =
      .error stop after) :
    moment.run edition passes = .error stop after := by
  rw [run_more h.level h.more, bind_of_ok h.fetch, if_neg h.proper, bind_of_error hperform]

theorem Moment.Performs.run_ok (hsound : moment.session.Sound)
    (h : moment.Performs edition passes instruction fetched)
    (hperform : perform passes (moment.call edition passes) instruction fetched = .ok () after) :
    moment.run edition passes = Moment.run edition passes { moment with session := after } := by
  have hcall : ∀ body : Body, AllBits body.toList → Safe (moment.call edition passes body) :=
    fun _ hbody => safe_callBody _ hbody
  have hafter : after.Sound := (Goes.next h hperform).sound hsound
  have hfetch := @fetchNext_sound edition _ moment.tracing passes hsound
  rw [h.fetch] at hfetch
  obtain ⟨⟨-, hless⟩, -⟩ := hfetch
  have hplace := perform_cursor hperform
  have hsize : ∀ session : Session, session.cursor.rest.length ≤ session.cursor.text.size := by
    intro session
    rw [Bits.Cursor.rest, List.length_drop, Array.length_toList]
    omega
  have hbefore := hsize moment.session
  have hrest := hsize after
  have hnext : Moment.run edition passes { moment with session := after } =
      executeText edition moment.tracing passes (moment.call edition passes)
        (after.cursor.text.size + 1 + passes) after := run_eq h.level
  rw [run_more h.level h.more, bind_of_ok h.fetch, if_neg h.proper, bind_of_ok hperform, hnext]
  apply executeText_fuel hcall (fun _ => stationary_onCursor _ _) _ hafter
  · rw [hplace]
    omega
  · omega

theorem Moment.failsIn_call_iff {body : Body} {inner : Session} :
    FailsIn (moment.call edition passes body) stop inner ↔
      ∃ after, (moment.within inner body).run edition passes = .error stop after := by
  rw [FailsIn, call_apply]
  generalize (moment.within inner body).run edition passes = result
  cases result <;> simp [mapSession]

theorem Moment.Goes.run_error (h : moment.Goes edition passes other)
    (hsound : moment.session.Sound)
    (hother : ∃ after, other.run edition passes = .error stop after) :
    ∃ after, moment.run edition passes = .error stop after := by
  cases h with
  | next h hperform =>
      rw [h.run_ok hsound hperform]
      exact hother
  | inside h hbody =>
      obtain ⟨after, herror⟩ := hbody.fails (failsIn_call_iff.mpr hother)
      exact ⟨after, h.run_error herror⟩

theorem Moment.Comes.run_error (h : moment.Comes edition passes other)
    (hsound : moment.session.Sound)
    (hother : ∃ after, other.run edition passes = .error stop after) :
    ∃ after, moment.run edition passes = .error stop after := by
  induction h using Relation.ReflTransGen.head_induction_on with
  | refl => exact hother
  | head hgoes _ ih => exact hgoes.run_error hsound (ih (hgoes.sound hsound))

theorem Moment.Cause.run_error (h : moment.Cause edition passes stop)
    (hsound : moment.session.Sound) : ∃ after, moment.run edition passes = .error stop after := by
  cases h with
  | @tooDeep last hcomes hlevels =>
      refine hcomes.run_error hsound ⟨last.session, ?_⟩
      rw [run, hlevels]
      rfl
  | @endOfText _ after hcomes hlevel hmore hfetch =>
      refine hcomes.run_error hsound ⟨after, ?_⟩
      rw [run_more hlevel hmore, bind_of_error hfetch]
  | raised hcomes hperforms hraises =>
      obtain ⟨hfetched, hregular⟩ := hperforms.sound (hcomes.sound hsound)
      obtain ⟨after, herror⟩ := hraises.fails hfetched hregular
      exact hcomes.run_error hsound ⟨after, hperforms.run_error herror⟩

/-- A step of a run takes from the levels that are left or, in a text, from the characters. -/
theorem Moment.Goes.less (h : moment.Goes edition passes other) (hsound : moment.session.Sound) :
    Prod.Lex (· < ·) (· < ·) (other.levels, other.session.cursor.rest.length)
      (moment.levels, moment.session.cursor.rest.length) := by
  cases h with
  | next h hperform =>
      have hfetch := @fetchNext_sound edition _ moment.tracing passes hsound
      have hplace := perform_cursor hperform
      rw [h.fetch] at hfetch
      obtain ⟨⟨-, hless⟩, -⟩ := hfetch
      apply Prod.Lex.right
      rw [hplace]
      omega
  | inside h _ =>
      have hlevel := h.level
      apply Prod.Lex.left
      simp only [within]
      omega

theorem Moment.Performs.cause_or_goes (h : moment.Performs edition passes instruction fetched)
    (hsound : moment.session.Sound) (hrun : moment.run edition passes = .error stop after) :
    moment.Cause edition passes stop ∨ ∃ other last, moment.Goes edition passes other ∧
      other.run edition passes = .error stop last := by
  obtain ⟨hfetched, hregular⟩ := h.sound hsound
  cases hperform : perform passes (moment.call edition passes) instruction fetched with
  | ok _ last => exact .inr ⟨_, after, .next h hperform, (h.run_ok hsound hperform).symm.trans hrun⟩
  | error reason last =>
      cases (h.run_error hperform).symm.trans hrun
      -- Either the instruction itself is to blame, or a body that it runs, one level further down.
      rcases perform_eq_error (fun _ hbody => safe_callBody _ hbody) hregular hfetched hperform
        with hraises | ⟨body, inner, henters, hfails⟩
      · exact .inl (.raised .refl h hraises)
      · obtain ⟨last, hinner⟩ := failsIn_call_iff.mp hfails
        exact .inr ⟨_, last, .inside h henters, hinner⟩

theorem Moment.cause_or_goes (hsound : moment.session.Sound)
    (hrun : moment.run edition passes = .error stop after) :
    moment.Cause edition passes stop ∨ ∃ other last, moment.Goes edition passes other ∧
      other.run edition passes = .error stop last := by
  rcases Nat.eq_zero_or_pos moment.levels with hlevels | hlevel
  · rw [run, hlevels] at hrun
    cases hrun
    exact .inl (.tooDeep .refl hlevels)
  by_cases hend : moment.session.cursor.atEnd
  · cases (run_end hlevel hend).symm.trans hrun
  cases hresult : fetchNext edition moment.tracing passes moment.session with
  | error reason fetched =>
      have hfetch := @fetchNext_sound edition _ moment.tracing passes hsound
      rw [hresult] at hfetch
      rw [run_more hlevel hend, bind_of_error hresult] at hrun
      cases hrun
      cases hfetch.2
      exact .inl (.endOfText .refl hlevel hend hresult)
  | ok instruction fetched =>
      by_cases hclose : instruction = .close
      · subst hclose
        cases (run_close hlevel hend hresult).symm.trans hrun
      · exact Performs.cause_or_goes ⟨hlevel, hend, hresult, hclose⟩ hsound hrun

theorem Moment.cause_of_run {moment : Moment} {after : Session} (hsound : moment.session.Sound)
    (hrun : moment.run edition passes = .error stop after) : moment.Cause edition passes stop := by
  rcases cause_or_goes hsound hrun with hcause | ⟨other, last, hgoes, hother⟩
  · exact hcause
  · exact hgoes.cause (cause_of_run (hgoes.sound hsound) hother)
termination_by (moment.levels, moment.session.cursor.rest.length)
decreasing_by exact hgoes.less hsound

end

/-! ## Fresh machines -/

/-- Registers and pages that do not exist, widths that no load has, and bits that are no number. -/
def strayFaults : List Fault :=
  [.noRegister, .noTarget, .noWidth, .badNumeral 2, .negativeByte]

theorem Moment.not_cause_stray {start : Moment} {fault : Fault} (h : fault ∈ strayFaults) :
    ¬ start.Cause edition passes (.fault fault) := by
  intro hcause
  generalize hstop : Stop.fault fault = stop at hcause
  cases hcause with
  | tooDeep => cases hstop
  | endOfText =>
      cases hstop
      simp [strayFaults] at h
  | raised _ _ hraises =>
      cases hraises with
      | badNumeral hradix _ _ =>
          cases hstop
          rcases hradix with rfl | rfl <;> simp [strayFaults] at h
      | _ => cases hstop <;> simp [strayFaults] at h

theorem exists_of_stop? {α : Type} {result : EStateM.Result Stop Session α} {stop : Stop}
    (h : stop? result = some stop) : ∃ after, result = .error stop after := by
  cases result with
  | ok value after => cases h
  | error reason after =>
      cases h
      exact ⟨after, rfl⟩

/-- A run of a fresh machine on bits stops exactly for a cause that it comes to.  Faults of
addressing, of widths and of numbers in bits have none, and all arithmetic goes through,
whatever the registers hold. -/
theorem execute_stops_iff (edition : Edition) (limits : Limits) (tracing traced : Bool)
    (code input : List Char) (hcode : AllBits code) :
    let session := Session.start code traced input
    let start : Moment := ⟨session, tracing, limits.depth⟩
    (∀ stop, (∃ after, execute edition limits tracing session = .error stop after) ↔
      start.Cause edition limits.passes stop) ∧
    (∀ fault ∈ strayFaults,
      ¬ ∃ after, execute edition limits tracing session = .error (.fault fault) after) ∧
    (∀ moment operation target source fetched, start.Comes edition limits.passes moment →
      moment.Performs edition limits.passes (.compute operation target source) fetched →
        ∃ after, compute operation target source fetched = .ok () after) ∧
    Fault.endOfText.message = some "Unexpected end of bitstream" ∧
    Fault.emptyStack.message = some "pop from empty list" := by
  intro session start
  have hsound : start.session.Sound := Session.sound_start hcode traced input
  have hiff : ∀ stop, (∃ after, execute edition limits tracing session = .error stop after) ↔
      start.Cause edition limits.passes stop := by
    intro stop
    constructor
    · rintro ⟨after, h⟩
      exact Moment.cause_of_run hsound h
    · intro hcause
      exact hcause.run_error hsound
  refine ⟨hiff, ?_, ?_, rfl, rfl⟩
  · intro fault hfault hstops
    exact Moment.not_cause_stray hfault ((hiff _).mp hstops)
  · intro moment operation target source fetched hcomes hperforms
    obtain ⟨hfetched, hregular⟩ := hperforms.sound (hcomes.sound hsound)
    cases hcompute : compute operation target source fetched with
    | ok _ after => exact ⟨after, rfl⟩
    | error stop after =>
        exact absurd hcompute (compute_ne_error hfetched hregular.1 hregular.2)

theorem execute_stops_iff_pop :
    let code := "10100000000000000011010000110".toList
    let start : Moment := ⟨.start code false [], false, 3⟩
    AllBits code ∧ start.Cause .basic 4 (.fault .emptyStack) ∧
      ¬ ∃ after, execute .basic ⟨3, 4⟩ false (.start code false []) =
        .error (.fault .noRegister) after := by
  intro code start
  have hcode : AllBits code := by
    have hall : code.all isBit := by decide +kernel
    exact List.all_eq_true.mp hall
  obtain ⟨hiff, hstray, -⟩ := execute_stops_iff .basic ⟨3, 4⟩ false false code [] hcode
  have hstop : stop? (execute .basic ⟨3, 4⟩ false (.start code false [])) =
      some (.fault .emptyStack) := by decide +kernel
  refine ⟨hcode, ?_, ?_⟩
  · exact (hiff _).mp (exists_of_stop? hstop)
  · exact hstray .noRegister (by simp [strayFaults])

end BitAssembly.Machine
