import BitAssembly.Proofs.Machine.Invariant
import BitAssembly.Proofs.Result

/-!
# Registers as variables

On a page that exists a register can always be read and written.  Writing changes
this register alone, except that the last one is the same on all pages.  An
instruction on registers and the stack turns one memory into another, and
nothing else of the session changes.
-/

namespace BitAssembly.Machine

open BitAssembly.Text

variable {memory : Memory} {page : Fin 8} {session : Session}

/-! ## Values -/

def Memory.value (memory : Memory) (page : Fin 8) (register : Fin 16) : Nat :=
  (memory.pages.get page).get register

/-- The memory with this value in a register of a page, or of all pages if it is the last one. -/
def Memory.written (memory : Memory) (page : Fin 8) (register : Fin 16) (value : Int) : Memory :=
  { memory with
    pages := Vector.ofFn fun other => Vector.ofFn fun slot =>
      if slot = register ∧ (other = page ∨ slot = Fin.last 15) then wrap value
      else memory.value other slot }

def Memory.Shared (memory : Memory) : Prop :=
  ∀ page other : Fin 8, memory.value page 15 = memory.value other 15

theorem Memory.ext_value {other : Memory}
    (hvalue : ∀ page register, memory.value page register = other.value page register)
    (hpage : memory.page = other.page) (hstack : memory.stack = other.stack)
    (hfunctions : memory.functions = other.functions) : memory = other := by
  have hpages : memory.pages = other.pages := by
    ext page hpage register hregister
    exact hvalue ⟨page, hpage⟩ ⟨register, hregister⟩
  cases memory
  cases other
  simp_all

theorem wrap_eq_iff {first second : Int} :
    wrap first = wrap second ↔ first % 2 ^ 32 = second % 2 ^ 32 := by
  unfold wrap
  omega

@[simp] theorem Memory.value_written (memory : Memory) (page other : Fin 8) (register slot : Fin 16)
    (value : Int) :
    (memory.written page register value).value other slot =
      if slot = register ∧ (other = page ∨ slot = 15) then wrap value
      else memory.value other slot := by
  simp [Memory.written, Memory.value, Vector.get_eq_getElem]

theorem Memory.Shared.written (hshared : memory.Shared) (page : Fin 8) (register : Fin 16)
    (value : Int) : (memory.written page register value).Shared := by
  intro other another
  simp only [Memory.value_written, hshared other another, or_true, and_true]

@[simp] theorem Memory.written_written (memory : Memory) (page : Fin 8) (register : Fin 16)
    (first second : Int) :
    (memory.written page register first).written page register second =
      memory.written page register second := by
  refine Memory.ext_value (fun other slot => ?_) rfl rfl rfl
  simp only [Memory.value_written]
  split
  · rfl
  · rfl

theorem Memory.written_value (hshared : memory.Shared) {register : Fin 16}
    (hlt : memory.value page register < 2 ^ 32) :
    memory.written page register (memory.value page register) = memory := by
  refine Memory.ext_value (fun other slot => ?_) rfl rfl rfl
  rw [Memory.value_written, wrap_natCast hlt]
  split
  · next h =>
      obtain ⟨rfl, rfl | rfl⟩ := h
      · rfl
      · exact hshared page other
  · rfl

theorem Memory.written_eq_iff (memory : Memory) (page : Fin 8) (register : Fin 16)
    (first second : Int) :
    memory.written page register first = memory.written page register second ↔
      first % 2 ^ 32 = second % 2 ^ 32 := by
  rw [← wrap_eq_iff]
  constructor
  · intro h
    have hvalue := congrArg (fun memory => memory.value page register) h
    simpa [Memory.value_written] using hvalue
  · intro h
    unfold Memory.written
    rw [h]

/-! ## Reading and writing -/

theorem get_set_get (pages : Vector (Vector Nat 16) 8) (page other : Fin 8)
    (register slot : Fin 16) (value : Nat) :
    ((pages.set page ((pages.get page).set register value register.isLt) page.isLt).get other).get
        slot =
      if slot = register ∧ other = page then value else (pages.get other).get slot := by
  simp only [Vector.get_eq_getElem, Vector.getElem_set]
  by_cases hpage : other = page
  · subst hpage
    by_cases hslot : slot = register
    · simp [hslot]
    · have hne : register.val ≠ slot.val := fun h => hslot (Fin.ext h.symm)
      simp [hslot, hne]
  · have hne : page.val ≠ other.val := fun h => hpage (Fin.ext h.symm)
    simp [hpage, hne]

theorem Memory.Sound.exists_page (h : memory.Sound) :
    ∃ page : Fin 8, memory.page = (page : Nat) := by
  obtain ⟨number, hnumber⟩ := Int.eq_ofNat_of_zero_le h.page.1
  have hlt := h.page.2
  exact ⟨⟨number, by omega⟩, hnumber⟩

section

variable (hpage : memory.page = (page : Nat))

include hpage

theorem page?_of_page : memory.page? = some page := by
  rw [Memory.page?, hpage, index?_natCast page.isLt]

theorem register?_of_page (register : Fin 16) :
    memory.register? (register : Nat) = some (memory.value page register) := by
  rw [Memory.register?, page?_of_page hpage, index?_natCast register.isLt]
  rfl

theorem store_of_page (hshared : memory.Shared) (register : Fin 16) (value : Int) :
    memory.store (register : Nat) value = .ok (memory.written page register value) := by
  rw [Memory.store, page?_of_page hpage, index?_natCast register.isLt]
  refine congrArg Except.ok (Memory.ext_value (fun other slot => ?_) rfl rfl rfl)
  have hlast : (memory.pages.get page).get 15 = (memory.pages.get other).get 15 :=
    hshared page other
  have hset := get_set_get memory.pages page
  rw [Memory.value_written, Memory.value, get_shareLast]
  by_cases h : slot = 15
  · subst h
    rw [if_pos rfl]
    apply (hset page register 15 (wrap value)).trans
    simp [Memory.value, hlast]
  · rw [if_neg h]
    apply (hset other register slot (wrap value)).trans
    simp [Memory.value, h]

end

theorem Memory.Sound.written (h : memory.Sound) (hpage : memory.page = (page : Nat))
    (register : Fin 16) (value : Int) : (memory.written page register value).Sound :=
  (h.store (store_of_page hpage h.shared register value)).1

theorem getRegister_of_page (hpage : session.memory.page = (page : Nat)) (register : Fin 16) :
    getRegister (register : Nat) session = .ok (session.memory.value page register) session := by
  rw [getRegister_apply, register?_of_page hpage]

theorem setRegister_of_page (hpage : session.memory.page = (page : Nat))
    (hshared : session.memory.Shared) (register : Fin 16) (value : Int) :
    setRegister (register : Nat) value session =
      .ok () { session with memory := session.memory.written page register value } := by
  rw [setRegister_apply, store_of_page hpage hshared]

/-! ## Instructions -/

/-- Performing the instruction turns the first memory into the second, and does nothing else. -/
def Turns (instruction : Instruction) (before after : Memory) : Prop :=
  ∀ (passes : Nat) (call : Body → Run Unit) (session : Session), session.memory = before →
    perform passes call instruction session = .ok () { session with memory := after }

theorem turns_selectPage (memory : Memory) (page : Int) :
    Turns (.selectPage page) memory { memory with page := page } := by
  rintro passes call session rfl
  rfl

section

variable (hpage : memory.page = (page : Nat)) (hshared : memory.Shared)

include hpage hshared

theorem turns_load (target : Fin 16) (value : Int) :
    Turns (.load (target : Nat) value) memory (memory.written page target value) := by
  rintro passes call session rfl
  exact setRegister_of_page hpage hshared target value

theorem turns_compute (operation : Arithmetic) (target source : Fin 16) :
    Turns (.compute operation (target : Nat) (source : Nat)) memory
      (memory.written page target
        (operation.apply (memory.value page target) (memory.value page source))) := by
  rintro passes call session rfl
  change compute operation (target : Nat) (source : Nat) session = _
  unfold compute
  rw [bind_of_ok (getRegister_of_page hpage target), bind_of_ok (getRegister_of_page hpage source)]
  exact setRegister_of_page hpage hshared target _

theorem turns_alter {alteration : Alteration} {register : Fin 16} (result : Nat → Int)
    (h : alter alteration (register : Nat) =
      getRegister (register : Nat) >>= fun value => setRegister (register : Nat) (result value)) :
    Turns (.alter alteration (register : Nat)) memory
      (memory.written page register (result (memory.value page register))) := by
  rintro passes call session rfl
  change alter alteration (register : Nat) session = _
  rw [h, bind_of_ok (getRegister_of_page hpage register)]
  exact setRegister_of_page hpage hshared register _

theorem turns_push {register : Fin 16}
    (hlt : memory.value page register < 2 ^ 32) :
    Turns (.alter .push (register : Nat)) memory
      { memory with stack := memory.value page register :: memory.stack } := by
  rintro passes call session rfl
  let pushed : Session := { session with
    memory := { session.memory with
      stack := session.memory.value page register :: session.memory.stack } }
  have hpushed : pushed.memory.Shared := hshared
  have hpush : push (session.memory.value page register) session = .ok () pushed := rfl
  have hset := setRegister_of_page (show pushed.memory.page = (page : Nat) from hpage) hpushed
    register (pushed.memory.value page register)
  rw [Memory.written_value hpushed hlt] at hset
  change alter .push (register : Nat) session = _
  unfold alter
  rw [bind_of_ok (getRegister_of_page hpage register)]
  exact (bind_of_ok hpush).trans hset

theorem turns_pop {register : Fin 16} {value : Nat} {rest : List Nat}
    (hstack : memory.stack = value :: rest) :
    Turns (.alter .pop (register : Nat)) memory
      ({ memory with stack := rest }.written page register value) := by
  rintro passes call session rfl
  let popped : Session := { session with memory := { session.memory with stack := rest } }
  have hpop : pop session = .ok value popped := by rw [pop_apply, hstack]
  have hpopped : popped.memory.Shared := hshared
  have hset := setRegister_of_page (show popped.memory.page = (page : Nat) from hpage) hpopped
    register value
  change alter .pop (register : Nat) session = _
  unfold alter
  rw [bind_of_ok (getRegister_of_page hpage register)]
  exact (bind_of_ok hpop).trans hset

end

end BitAssembly.Machine
