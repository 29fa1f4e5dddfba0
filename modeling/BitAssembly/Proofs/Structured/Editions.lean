import BitAssembly.Proofs.Source.Spelling
import BitAssembly.Proofs.Structured.Refinement

/-!
# Both editions run the shared language alike

A program without long loads and texts belongs to both editions.  Its sources
differ in one mnemonic and its bits in every load, but both machines follow the
same interpreter, so they can be told apart only by the bits of the functions.
-/

namespace BitAssembly.Structured

open BitAssembly.Machine
open BitAssembly.Source

variable {edition : Edition}

/-! ## Every token of a program has a code -/

@[simp] theorem coded_nil : Coded edition [] := by
  simp [Coded]

@[simp] theorem coded_cons {token : Token} {tokens : List Token} :
    Coded edition (token :: tokens) ↔ (code? edition token).isSome ∧ Coded edition tokens := by
  simp [Coded]

@[simp] theorem coded_append {first second : List Token} :
    Coded edition (first ++ second) ↔ Coded edition first ∧ Coded edition second := by
  simp [Coded, or_imp, forall_and]

@[simp] theorem coded_digit (value : Nat) : (code? edition (digitToken value)).isSome := by
  rw [code?_digitToken]
  rfl

@[simp] theorem coded_numberTokens (width value : Nat) :
    Coded edition (numberTokens width value) := by
  induction width generalizing value with
  | zero => exact coded_nil
  | succ width ih => simp [numberTokens, ih]

theorem coded_fixed {token : Token} (h : token ∈ fixedCodes.map Prod.fst) :
    (code? edition token).isSome := by
  obtain ⟨entry, hentry, rfl⟩ := List.mem_map.mp h
  rw [code?_fixed hentry]
  rfl

theorem coded_condition (condition : Condition) : Coded edition condition.tokens := by
  simp [Condition.tokens, code?_relation]

theorem coded_load {width : Fin 4} {target : Register} {value : BitVec (8 * (width.val + 1))}
    (hfits : (Plain.load width target value).fits edition) :
    (code? edition (loadMnemonic width)).isSome := by
  cases edition with
  | basic =>
      have hwidth : width = 0 := by simpa [Plain.fits] using hfits
      subst hwidth
      rfl
  | extended =>
      rw [code?_load]
      rfl

theorem coded_plain {instruction : Plain} (hfits : instruction.fits edition) :
    Coded edition (instruction.tokens edition) := by
  cases instruction with
  | pause => simp [Plain.tokens, coded_fixed, fixedCodes]
  | alter change register => simp [Plain.tokens, code?_change]
  | selectPage page => simp [Plain.tokens, code?_page]
  | compute operation target source => simp [Plain.tokens, code?_operation]
  | load width target value => simp [Plain.tokens, coded_load hfits]
  | display form register => simp [Plain.tokens, code?_form]
  | displayByte byte => simp [Plain.tokens, coded_fixed, fixedCodes]
  | undefine name => simp [Plain.tokens, coded_fixed, fixedCodes]
  | call name => simp [Plain.tokens, coded_fixed, fixedCodes]
  | write bytes fits =>
      have hedition : edition = .extended := by simpa [Plain.fits] using hfits
      subst hedition
      have hbytes : Coded .extended (bytes.flatMap fun byte => numberTokens 2 byte.toNat) := by
        intro token htoken
        obtain ⟨byte, -, hmem⟩ := List.mem_flatMap.mp htoken
        exact coded_numberTokens 2 byte.toNat token hmem
      rw [Plain.tokens, List.cons_append, coded_cons, coded_append, code?_write]
      exact ⟨rfl, coded_numberTokens 4 bytes.length, hbytes⟩
  | exit failed => simp [Plain.tokens, code?_exit]
  | ask decimal register => simp [Plain.tokens, code?_ask]

theorem coded_head (head : Head) : Coded edition head.tokens := by
  cases head with
  | onlyIf condition => simp [Head.tokens, coded_fixed, fixedCodes, coded_condition]
  | whileTrue condition => simp [Head.tokens, coded_fixed, fixedCodes, coded_condition]
  | times register => simp [Head.tokens, coded_fixed, fixedCodes]
  | count register passes => simp [Head.tokens, coded_fixed, fixedCodes]
  | countTo register limit => simp [Head.tokens, coded_fixed, fixedCodes]
  | define name => simp [Head.tokens, coded_fixed, fixedCodes]

theorem coded_program {program : Program} (hfits : program.fits edition) :
    Coded edition (program.tokens edition) := by
  induction program with
  | done => exact coded_nil
  | plain instruction rest ih =>
      simp only [Program.fits, Bool.and_eq_true] at hfits
      simp [Program.tokens, coded_plain hfits.1, ih hfits.2]
  | block head body rest ihBody ihRest =>
      simp only [Program.fits, Bool.and_eq_true] at hfits
      have hclose : (code? edition closeToken).isSome := coded_fixed (by simp [fixedCodes])
      simp [Program.tokens, coded_head, hclose, ihBody hfits.1, ihRest hfits.2]

/-! ## What the editions have in common -/

structure Visible where
  stop : Option Stop
  pages : Vector (Vector Nat 16) 8
  page : Int
  stack : List Nat
  names : List Int
  console : Console
  deriving DecidableEq, Repr

def Ending.visible (ending : Ending) : Visible :=
  ⟨ending.stop, ending.memory.pages, ending.memory.page, ending.memory.stack,
    ending.memory.functions.map Prod.fst, ending.console⟩

theorem names_writeEntry (functions : SortedTable Name (Option Program)) :
    (functions.map (writeEntry edition)).map Prod.fst =
      functions.map fun entry => ((entry.1 : Nat) : Int) := by
  rw [List.map_map]
  rfl

theorem visible_ofExec (first second : Edition) (result : EStateM.Result Stop State Unit) :
    (Ending.ofExec first result).visible = (Ending.ofExec second result).visible := by
  cases result with
  | ok value state => simp only [Ending.ofExec, Ending.visible, State.memory, names_writeEntry]
  | error stop state => simp only [Ending.ofExec, Ending.visible, State.memory, names_writeEntry]

theorem Program.fits_extended {program : Program} (h : program.fits .basic) :
    program.fits .extended := by
  induction program with
  | done => rfl
  | plain instruction rest ih =>
      simp only [fits, Bool.and_eq_true] at h ⊢
      refine ⟨?_, ih h.2⟩
      cases instruction <;> rfl
  | block head body rest ihBody ihRest =>
      simp only [fits, Bool.and_eq_true] at h ⊢
      exact ⟨ihBody h.1, ihRest h.2⟩

def Program.source (edition : Edition) (program : Program) : List Char :=
  (program.tokens edition).flatten

theorem execute_source {program : Program} (hprogram : program.admissible edition)
    {source : List Char} (hsource : Spells edition source (program.tokens edition))
    (limits : Limits) (input : List Char) :
    (build edition source "" []).program = .ok (program.bits edition) ∧
      Ending.ofRun (execute edition limits false (.start (program.bits edition) false input)) =
        Ending.ofExec edition
          (program.run limits { State.initial with console := .ofInput input }) := by
  have hfits : program.fits edition := (Bool.and_eq_true_iff.mp hprogram).1
  have hsound : State.initial.Sound edition := fun name body hfind => by cases hfind
  have hjob : (Job.mk program limits (.ofInput input)).program.admissible edition := hprogram
  constructor
  · rw [hsource.build (coded_program hfits)]
    rfl
  · exact (Job.agree hjob hsound).ending

/-- Sources of one shared program assemble in both editions, and on new machines with the
same input they print the same, stop in the same way and leave the same registers, page, stack
and names of functions.  Every shared program has such sources. -/
theorem editions_agree (program : Program) (hshared : program.fits .basic)
    (houtside : program.definesOutside) :
    Spells .basic (program.source .basic) (program.tokens .basic) ∧
      Spells .extended (program.source .extended) (program.tokens .extended) ∧
      ∀ (older newer : List Char) (limits : Limits) (input : List Char),
        Spells .basic older (program.tokens .basic) →
        Spells .extended newer (program.tokens .extended) →
        ∃ olderBits newerBits,
          (build .basic older "" []).program = .ok olderBits ∧
            (build .extended newer "" []).program = .ok newerBits ∧
            (Ending.ofRun
                (execute .basic limits false (.start olderBits false input))).visible =
              (Ending.ofRun
                (execute .extended limits false (.start newerBits false input))).visible := by
  have hextended := Program.fits_extended hshared
  refine ⟨spells_flatten (coded_program hshared), spells_flatten (coded_program hextended), ?_⟩
  intro older newer limits input holder hnewer
  have hbasic : program.admissible .basic := Bool.and_eq_true_iff.mpr ⟨hshared, houtside⟩
  have hother : program.admissible .extended := Bool.and_eq_true_iff.mpr ⟨hextended, houtside⟩
  obtain ⟨holderBits, holderRun⟩ := execute_source hbasic holder limits input
  obtain ⟨hnewerBits, hnewerRun⟩ := execute_source hother hnewer limits input
  refine ⟨_, _, holderBits, hnewerBits, ?_⟩
  rw [holderRun, hnewerRun, visible_ofExec .basic .extended]

theorem editions_agree_load :
    let function : Program :=
      .plain (.load 0 4 0xb6#8) (.plain (.alter .push 4) (.plain (.display .decimal 4) .done))
    let program : Program := .block (.define 2) function
      (.block (.times 3) (.plain (.call 2) .done) (.plain (.exit true) .done))
    let older := "DEF 2 [LDI 4 b6 PUS 4 DPD 4] REP 3 [CLL 2] EXE".toList
    let newer := "DEF 2 \x7bLDI 4 b6 PUS 4 DPD 4] REP 3 (CLL 2]) ;failing; ERR".toList
    program.fits .basic ∧ program.definesOutside ∧
      Spells .basic older (program.tokens .basic) ∧
      Spells .extended newer (program.tokens .extended) ∧
      ∃ olderBits newerBits,
        (build .basic older "" []).program = .ok olderBits ∧
          (build .extended newer "" []).program = .ok newerBits ∧
          (Ending.ofRun
              (execute .basic ⟨3, 7⟩ false (.start olderBits false []))).visible =
            (Ending.ofRun
              (execute .extended ⟨3, 7⟩ false (.start newerBits false []))).visible := by
  intro function program older newer
  have hshared : program.fits .basic := by decide
  have houtside : program.definesOutside := by decide
  have holder : Spells .basic older (program.tokens .basic) := by rfl
  have hnewer : Spells .extended newer (program.tokens .extended) := by rfl
  exact ⟨hshared, houtside, holder, hnewer,
    (editions_agree program hshared houtside).2.2 older newer ⟨3, 7⟩ [] holder hnewer⟩

end BitAssembly.Structured
