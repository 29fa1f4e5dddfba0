import BitAssembly.Proofs.Machine.Performing
import BitAssembly.Proofs.Machine.Taking

/-!
# The invariant of the machine

However ill-formed a text of bits is, no instruction of it leads out of the
memory that the machine is meant to have: registers and stack hold 32-bit
values, the selected page and the names of functions exist, and the last
register is one and the same on all pages.
-/

namespace BitAssembly.Machine

open BitAssembly.Bits
open BitAssembly.Text

/-- That there are eight pages of sixteen registers is in the type of the memory. -/
structure Memory.Sound (memory : Memory) : Prop where
  page : 0 ≤ memory.page ∧ memory.page < 8
  registers : ∀ (page : Fin 8) (register : Fin 16), (memory.pages.get page).get register < 2 ^ 32
  stack : ∀ value ∈ memory.stack, value < 2 ^ 32
  names : ∀ entry ∈ memory.functions, 0 ≤ entry.1 ∧ entry.1 < 16
  shared : ∀ page other : Fin 8, (memory.pages.get page).get 15 = (memory.pages.get other).get 15

theorem Memory.sound_initial : Memory.initial.Sound := by
  refine ⟨by decide, fun page register => ?_, ?_, ?_, fun page other => ?_⟩
  · simp only [initial, Vector.get_eq_getElem, Vector.getElem_replicate, Vector.getElem_ofFn]
    omega
  · intro value hvalue
    cases hvalue
  · intro entry hentry
    cases hentry
  · simp only [initial, Vector.get_eq_getElem, Vector.getElem_replicate]

/-! ## Registers -/

theorem get_shareLast (pages : Vector (Vector Nat 16) 8) (page other : Fin 8)
    (register : Fin 16) :
    ((shareLast pages page).get other).get register =
      if register = 15 then (pages.get page).get 15 else (pages.get other).get register := by
  simp only [shareLast, Vector.get_eq_getElem, Vector.getElem_map, Vector.getElem_set]
  by_cases h : register = 15
  · subst h
    exact if_pos rfl
  · have hne : (15 : Nat) ≠ register := fun heq => h (Fin.ext heq.symm)
    rw [if_neg hne, if_neg h]

theorem get_set_lt {pages : Vector (Vector Nat 16) 8} {bound value : Nat}
    (hpages : ∀ (page : Fin 8) (register : Fin 16), (pages.get page).get register < bound)
    (hvalue : value < bound) (page other : Fin 8) (slot register : Fin 16) :
    ((pages.set page ((pages.get page).set slot value)).get other).get register < bound := by
  have hother := hpages other register
  have hpage := hpages page register
  simp only [Vector.get_eq_getElem, Vector.getElem_set] at hother hpage ⊢
  split
  · rw [Vector.getElem_set]
    split
    · exact hvalue
    · exact hpage
  · exact hother

theorem Memory.Sound.register? {memory : Memory} (h : memory.Sound) {address : Int} {value : Nat}
    (hvalue : memory.register? address = some value) : value < 2 ^ 32 := by
  rw [Memory.register?] at hvalue
  split at hvalue
  · cases hvalue
    exact h.registers _ _
  · cases hvalue

theorem Memory.Sound.store {memory after : Memory} (h : memory.Sound) {address value : Int}
    (hstore : memory.store address value = .ok after) :
    after.Sound ∧ after.functions = memory.functions := by
  rw [Memory.store] at hstore
  split at hstore
  · cases hstore
  · next page hpage =>
      split at hstore
      · cases hstore
      · next slot hslot =>
          cases hstore
          have hwritten := get_set_lt h.registers (wrap_lt value) page
          refine ⟨⟨h.page, fun other register => ?_, h.stack, h.names, fun other another => ?_⟩,
            rfl⟩
          · rw [get_shareLast]
            split
            · exact hwritten page slot 15
            · exact hwritten other slot register
          · have hlast := get_shareLast
              (memory.pages.set page ((memory.pages.get page).set slot (wrap value))) page
            exact (hlast other 15).trans (hlast another 15).symm

/-! ## Sessions -/

/-- The memory is sound, and everything that can be run is a text of bits. -/
structure Session.Sound (session : Session) : Prop where
  memory : session.memory.Sound
  bodies : ∀ entry ∈ session.memory.functions, AllBits entry.2.toList
  cursor : session.cursor.Valid

theorem Session.sound_start {code : List Char} (h : AllBits code) (traced : Bool)
    (input : List Char) : (Session.start code traced input).Sound := by
  refine ⟨Memory.sound_initial, fun entry hentry => ?_, ?_, Int.le_refl 0, Int.natCast_nonneg _⟩
  · cases hentry
  · intro c hc
    exact h c (List.mem_filter.mp hc).1

theorem forall_mem_insert {P : Int × Body → Prop} {functions : SortedTable Int Body} {name : Int}
    {body : Body} (hfunctions : ∀ entry ∈ functions, P entry) (hentry : P (name, body)) :
    ∀ entry ∈ functions.insert name body, P entry := by
  induction functions with
  | nil => simpa [SortedTable.insert] using hentry
  | cons first rest ih =>
      rw [List.forall_mem_cons] at hfunctions
      rw [SortedTable.insert]
      split
      · simp only [List.forall_mem_cons]
        exact ⟨hentry, hfunctions⟩
      · split
        · rw [List.forall_mem_cons]
          exact ⟨hentry, hfunctions.2⟩
        · rw [List.forall_mem_cons]
          exact ⟨hfunctions.1, ih hfunctions.2⟩

theorem mem_of_find? {functions : SortedTable Int Body} {name : Int} {body : Body}
    (h : functions.find? name = some body) : (name, body) ∈ functions := by
  obtain ⟨before, after, hentry, -⟩ := List.lookup_eq_some_iff.mp h
  rw [hentry]
  exact List.mem_append_right before List.mem_cons_self

variable {edition : Edition} {session : Session} {instruction : Instruction} {body : Body}

theorem Session.Sound.push (h : session.Sound) {address : Int} {value : Nat}
    (hregister : session.memory.register? address = some value) :
    Session.Sound { session with memory :=
      { session.memory with stack := value :: session.memory.stack } } := by
  have hmemory := h.memory
  refine ⟨⟨hmemory.page, hmemory.registers, ?_, hmemory.names, hmemory.shared⟩, h.bodies, h.cursor⟩
  exact List.forall_mem_cons.mpr ⟨hmemory.register? hregister, hmemory.stack⟩

theorem Session.Sound.define (h : session.Sound) {name : Int} (hname : 0 ≤ name ∧ name < 16)
    (hbody : AllBits body.toList) :
    Session.Sound { session with memory :=
      { session.memory with functions := session.memory.functions.insert name body } } := by
  have hmemory := h.memory
  refine ⟨⟨hmemory.page, hmemory.registers, hmemory.stack, ?_, hmemory.shared⟩, ?_, h.cursor⟩
  · exact forall_mem_insert hmemory.names hname
  · exact forall_mem_insert h.bodies hbody

theorem Session.Sound.change (h : session.Sound) (hregular : instruction.Regular edition)
    {change : Memory → Memory} (hchange : instruction.change? = some change) :
    Session.Sound { session with memory := change session.memory } := by
  have hmemory := h.memory
  cases instruction with
  | selectPage page =>
      cases hchange
      exact ⟨⟨hregular, hmemory.registers, hmemory.stack, hmemory.names, hmemory.shared⟩, h.bodies,
        h.cursor⟩
  | define name body =>
      cases hchange
      exact h.define hregular.1 hregular.2
  | undefine name =>
      cases hchange
      exact h.define hregular allBits_nil
  | _ => cases hchange

theorem Instruction.Regular.allBits (h : instruction.Regular edition)
    (hbody : instruction.body? = some body) : AllBits body.toList := by
  cases instruction with
  | onlyIf _ _ | times _ _ | define _ _ | count _ _ _ | whileTrue _ _ =>
      cases hbody
      exact h.2
  | _ => cases hbody

theorem Enters.allBits {passes : Nat} {call : Body → Run Unit} {inner : Session}
    (h : Enters passes call instruction session body inner) (hsession : session.Sound)
    (hregular : instruction.Regular edition) : AllBits body.toList := by
  obtain hbody | ⟨name, -, hfind⟩ := h.body
  · exact hregular.allBits hbody
  · exact hsession.bodies _ (mem_of_find? hfind)

/-! ## Sound actions -/

theorem indistinct_sound : Indistinct (Single Session.Sound) (fun _ => True) := by
  refine ⟨.single ?_ ?_ fun _ => trivial, ?_, ?_⟩
  · exact fun _ h => ⟨h.memory, h.bodies, h.cursor⟩
  · exact fun _ h => ⟨h.memory, h.bodies, h.cursor⟩
  · rintro _ session address value memory ⟨rfl, h⟩ hstore
    obtain ⟨hmemory, hfunctions⟩ := h.memory.store hstore
    refine ⟨rfl, hmemory, ?_, h.cursor⟩
    rw [hfunctions]
    exact h.bodies
  · rintro _ session stack ⟨rfl, h⟩ hstack
    have hmemory := h.memory
    refine ⟨rfl, ⟨hmemory.page, hmemory.registers, fun value hvalue => ?_, hmemory.names,
      hmemory.shared⟩, h.bodies, h.cursor⟩
    obtain hold | ⟨address, hregister⟩ := hstack value hvalue
    · exact hmemory.stack value hold
    · exact hmemory.register? hregister

def Matches {α : Type} (plain watched : Run α) : Prop :=
  Concur (Single Session.Sound) (fun _ => True) (fun _ => False) plain watched

def Safe {α : Type} (action : Run α) : Prop :=
  Matches action action

theorem Safe.eq_ok {α : Type} {action : Run α} (h : Safe action) {after : Session} {value : α}
    (hsession : session.Sound) (hresult : action session = .ok value after) : after.Sound :=
  Concur.triple h |>.of_ok hsession hresult

theorem matches_perform {call watch : Body → Run Unit}
    (hcall : ∀ body, AllBits body.toList → Matches (call body) (watch body)) (passes : Nat)
    (hregular : instruction.Regular edition) :
    Matches (perform passes call instruction) (perform passes watch instruction) := by
  rintro _ session ⟨rfl, hsession⟩
  refine related_perform indistinct_sound (.inl rfl) ⟨rfl, hsession⟩ (fun change hchange => ?_) ?_
  · exact ⟨rfl, hsession.change hregular hchange⟩
  · exact fun body inner twin henters =>
      hcall body (henters.allBits hsession hregular) inner twin

theorem Session.Sound.ready (h : session.Sound) : session.memory.page?.isSome = true := by
  obtain ⟨page, hpage⟩ := Int.eq_ofNat_of_zero_le h.memory.page.1
  have hlt : page < 8 := by
    have := h.memory.page.2
    omega
  rw [Memory.page?, hpage, index?_natCast hlt]
  rfl

theorem fetchNext_sound (tracing : Bool) (passes : Nat) (h : session.Sound) :
    Concludes
      (fun instruction fetched => (fetched.Sound ∧
        fetched.cursor.rest.length + 3 ≤ session.cursor.rest.length) ∧
          instruction.Regular edition)
      (fun stop fetched => fetched.Sound ∧ stop = .fault .endOfText)
      (fetchNext edition tracing passes session) := by
  refine (fetchNext_takes tracing passes h.cursor).mono ?_ ?_
  · rintro instruction fetched ⟨hmemory, bits, hfound, hrest, hcursor⟩
    have hpassed : Passed session.reader bits fetched.reader := ⟨hrest, hcursor⟩
    have hvalid : fetched.cursor.Valid := hpassed.valid h.cursor
    have hsize := hfound.size
    refine ⟨⟨⟨?_, ?_, hvalid⟩, ?_⟩, hfound.regular⟩
    · rw [hmemory]
      exact h.memory
    · rw [hmemory]
      exact h.bodies
    · rw [hrest, List.length_append]
      omega
  · rintro stop fetched ⟨hmemory, hvalid, hstop | ⟨hnone, -⟩⟩
    · refine ⟨⟨?_, ?_, hvalid⟩, hstop⟩
      · rw [hmemory]
        exact h.memory
      · rw [hmemory]
        exact h.bodies
    · cases hnone ▸ h.ready

theorem safe_fetchNext (tracing : Bool) (passes : Nat) :
    Safe (fetchNext edition tracing passes) :=
  Triple.concur fun _ h => (fetchNext_sound tracing passes h).mono (fun _ _ h => h.1.1)
    fun _ _ h => ⟨h.1, trivial⟩

/-! ## Whole runs -/

/-- Runs a text as `executeText` does, with a look at the session before each instruction
and at the end. -/
def watchText (watch : Run Unit) (edition : Edition) (tracing : Bool) (passes : Nat)
    (call : Body → Run Unit) : Nat → Run Unit
  | 0 => throw .unfinished
  | fuel + 1 => do
      watch
      if (← get).cursor.atEnd then return
      let instruction ← fetchNext edition tracing passes
      if instruction = .close then return
      perform passes call instruction
      watchText watch edition tracing passes call fuel

def watchAt (watch : Run Unit) (edition : Edition) (passes : Nat) : Nat → Bool → Run Unit
  | 0, _ => throw .tooDeep
  | depth + 1, tracing => do
      let session ← get
      let call := fun body => onCursor (.ofChars body) (watchAt watch edition passes depth false)
      watchText watch edition tracing passes call (session.cursor.text.size + 1 + passes)

def watchExecute (watch : Run Unit) (edition : Edition) (limits : Limits) (tracing : Bool) :
    Run Unit :=
  watchAt watch edition limits.passes limits.depth tracing

variable {watch : Run Unit}

theorem matches_executeText (hwatch : Matches (pure ()) watch) {call watched : Body → Run Unit}
    (hcall : ∀ body, AllBits body.toList → Matches (call body) (watched body))
    (tracing : Bool) (passes fuel : Nat) :
    Matches (executeText edition tracing passes call fuel)
      (watchText watch edition tracing passes watched fuel) := by
  induction fuel with
  | zero => exact .throw trivial
  | succ fuel ih =>
      -- The plain run starts with an idle look, so that both sides have the same shape.
      have hplain : executeText edition tracing passes call (fuel + 1) =
          pure () >>= fun _ => executeText edition tracing passes call (fuel + 1) := rfl
      rw [hplain]
      refine hwatch.bind fun _ => ?_
      rintro _ session ⟨rfl, hsession⟩
      change Related _ _ _ ((if session.cursor.atEnd then pure () else _ : Run Unit) session)
        ((if session.cursor.atEnd then pure () else _ : Run Unit) session)
      split
      · exact .ok ⟨rfl, hsession⟩
      · refine (safe_fetchNext tracing passes session session ⟨rfl, hsession⟩).bind
          fun instruction fetched twin hfetch hfetched => ?_
        have hsound := @fetchNext_sound edition session tracing passes hsession
        rw [hfetch] at hsound
        split
        · exact .ok hfetched
        · exact (matches_perform hcall passes hsound.2).bind (fun _ => ih) fetched twin hfetched

theorem matches_onCursor {plain watched : Run Unit} (h : Matches plain watched) {cursor : Cursor}
    (hcursor : cursor.Valid) : Matches (onCursor cursor plain) (onCursor cursor watched) := by
  refine concur_onCursor h ?_ ?_
  · rintro _ session ⟨rfl, h⟩
    exact ⟨rfl, h.memory, h.bodies, hcursor⟩
  · rintro _ session _ inner ⟨rfl, h⟩ ⟨rfl, hinner⟩
    exact ⟨rfl, hinner.memory, hinner.bodies, h.cursor⟩

theorem matches_executeAt (hwatch : Matches (pure ()) watch) (passes depth : Nat)
    (tracing : Bool) :
    Matches (executeAt edition passes depth tracing)
      (watchAt watch edition passes depth tracing) := by
  induction depth generalizing tracing with
  | zero => exact .throw trivial
  | succ depth ih =>
      rintro _ session ⟨rfl, hsession⟩
      refine matches_executeText hwatch (fun body hbody => ?_) tracing passes _ session session
        ⟨rfl, hsession⟩
      exact matches_onCursor (ih false) ⟨hbody, Int.le_refl 0, Int.natCast_nonneg _⟩

theorem safe_executeAt (passes depth : Nat) (tracing : Bool) :
    Safe (executeAt edition passes depth tracing) := by
  have hidle : Matches (pure ()) (pure () : Run Unit) := .pure ()
  exact Triple.concur (Concur.triple (matches_executeAt hidle passes depth tracing))

def sessionAfter : EStateM.Result Stop Session Unit → Session
  | .ok _ session => session
  | .error _ session => session

/-- Sessions of a machine that was built from bits and then told to run any number of times,
on what is left of its text or on another one. -/
inductive Reached (edition : Edition) : Session → Prop
  | start {code : List Char} (hcode : AllBits code) (traced : Bool) (input : List Char) :
      Reached edition (.start code traced input)
  | run {session : Session} (h : Reached edition session) (limits : Limits) (tracing : Bool) :
      Reached edition (sessionAfter (execute edition limits tracing session))
  | runOn {session : Session} (h : Reached edition session) {code : List Char}
      (hcode : AllBits code) (limits : Limits) (tracing : Bool) :
      Reached edition
        (sessionAfter (onCursor (.ofText code) (execute edition limits tracing) session))

theorem sessionAfter_of_concludes {Inv : Session → Prop} {Stops : Stop → Prop}
    {result : EStateM.Result Stop Session Unit}
    (h : Concludes (fun _ => Inv) (fun stop after => Inv after ∧ Stops stop) result) :
    Inv (sessionAfter result) := by
  cases result with
  | ok value after => exact h
  | error stop after => exact h.1

theorem concludes_of_sessionAfter {Inv : Session → Prop} {result : EStateM.Result Stop Session Unit}
    (h : Inv (sessionAfter result)) :
    Concludes (fun _ => Inv) (fun _ after => Inv after ∧ True) result := by
  cases result with
  | ok value after => exact h
  | error stop after => exact ⟨h, trivial⟩

theorem Reached.sound (h : Reached edition session) : session.Sound := by
  induction h with
  | start hcode traced input => exact Session.sound_start hcode traced input
  | run h limits tracing ih =>
      exact sessionAfter_of_concludes (Concur.triple (safe_executeAt _ _ _) _ ih)
  | runOn h hcode limits tracing ih =>
      have hrun : Safe (execute edition limits tracing) := safe_executeAt _ _ _
      refine sessionAfter_of_concludes (Concur.triple (matches_onCursor hrun ?_) _ ih)
      refine ⟨fun c hc => hcode c (List.mem_filter.mp hc).1, Int.le_refl 0, Int.natCast_nonneg _⟩

/-- In every session that is reached the memory is sound.  It is so at every instruction of a
further run, too: whoever watches the run, at all depths, and would interfere in any way as
soon as the memory is not sound, never does. -/
theorem reached_memory_sound (edition : Edition) (session : Session)
    (h : Reached edition session) :
    session.memory.Sound ∧
      ∀ (watch : Run Unit), (∀ seen, seen.memory.Sound → watch seen = .ok () seen) →
        ∀ (limits : Limits) (tracing : Bool),
          watchExecute watch edition limits tracing session =
            execute edition limits tracing session := by
  refine ⟨h.sound.memory, fun watch hwatch limits tracing => ?_⟩
  have hidle : Matches (pure ()) watch := by
    rintro _ seen ⟨rfl, hseen⟩
    rw [hwatch seen hseen.memory]
    exact .ok ⟨rfl, hseen⟩
  exact Concur.apply_eq (matches_executeAt hidle limits.passes limits.depth tracing) h.sound

/-- A register below zero that is pushed and copied to the last register before the text
breaks off, seen by an observer who stops the run at the first sign of trouble. -/
theorem reached_memory_sound_underflow :
    let code := "0110010001001000110000010111001111000101001110".toList
    let session := sessionAfter (execute .extended ⟨5, 9⟩ false (.start code false []))
    let watch : Run Unit := fun seen =>
      if seen.memory.page < 8 ∧ (∀ value ∈ seen.memory.stack, value < 2 ^ 32) then .ok () seen
      else .error .tooDeep seen
    Reached .extended session ∧ session.memory.Sound ∧
      session.memory.stack = [2 ^ 32 - 1] ∧ (session.memory.pages.get 2).get 15 = 2 ^ 32 - 1 ∧
      (∀ seen, seen.memory.Sound → watch seen = .ok () seen) ∧
      watchExecute watch .extended ⟨5, 9⟩ true session =
        execute .extended ⟨5, 9⟩ true session := by
  intro code session watch
  have hcode : AllBits code := by
    have hall : code.all isBit := by decide +kernel
    exact List.all_eq_true.mp hall
  have hreached : Reached .extended session := .run (.start hcode false []) ⟨5, 9⟩ false
  have hwatch : ∀ seen, seen.memory.Sound → watch seen = .ok () seen :=
    fun seen hseen => if_pos ⟨hseen.page.2, hseen.stack⟩
  obtain ⟨hsound, hwatched⟩ := reached_memory_sound .extended session hreached
  exact ⟨hreached, hsound, by decide +kernel, by decide +kernel, hwatch,
    hwatched watch hwatch ⟨5, 9⟩ true⟩

end BitAssembly.Machine
