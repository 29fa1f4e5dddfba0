import BitAssembly.Program
import BitAssembly.Proofs.Bits.Packing
import BitAssembly.Proofs.Machine.Sequencing

/-!
# Programs from files

A program that was saved is loaded with up to seven zeros behind it.  Three
zeros are a pause.  So a run that uses up its bits goes on with pauses when they
come from a file, and breaks off if one or two zeros remain; by then all that
the program does has been done.
-/

namespace BitAssembly.Machine

open BitAssembly.Bits
open BitAssembly.Text

variable {edition : Edition}

theorem reads_fetch_pause (ready : Bool) (spare : Nat) :
    Reads (fetch edition false ready spare) ['0', '0', '0'] .pause := by
  have hop : Reads (read 3) ['0', '0', '0'] ['0', '0', '0'] := reads_read rfl
  exact hop.bind_stay (Reads.pure _)

theorem executeText_zeros {passes : Nat} {call : Body → Run Unit} {count fuel : Nat}
    (hfuel : count < fuel) {session : Session}
    (hgoes : session.GoesOn (List.replicate count '0')) :
    executeText edition false passes call fuel session =
      if count % 3 = 0 then .ok () (session.forward count)
      else .error (.fault .endOfText) (session.forward (count - count % 3)) := by
  induction count using Nat.strongRecOn generalizing fuel session with
  | ind count ih =>
      obtain ⟨fuel, rfl⟩ := Nat.exists_eq_add_one.mpr (Nat.zero_lt_of_lt hfuel)
      rcases Nat.lt_or_ge count 3 with hshort | hlong
      · rw [Nat.mod_eq_of_lt hshort, Nat.sub_self, Session.forward_zero]
        by_cases hnone : count = 0
        · subst hnone
          rw [if_pos rfl, Session.forward_zero]
          exact executeText_end hgoes fuel
        · rw [if_neg hnone]
          exact executeText_short (by simpa using hnone) (by simpa using hshort) hgoes fuel
      · obtain ⟨less, rfl⟩ := Nat.exists_eq_add_of_le hlong
        rw [List.replicate_add] at hgoes
        have hlater := ih less (by omega) (show less < fuel by omega) hgoes.forward
        have hrest : 3 + less - less % 3 = 3 + (less - less % 3) := by omega
        rw [List.length_replicate, Session.forward_forward, Session.forward_forward] at hlater
        rw [executeText_fetch (reads_fetch_pause _ passes) (by simp) rfl hgoes, if_neg (by simp),
          Nat.add_mod_left, hrest]
        exact hlater

structure SameEffects (first second : Session) : Prop where
  memory : second.memory = first.memory
  console : second.console = first.console

theorem Coupling.Sessions.sameEffects {coupling : Coupling} {first second : Session}
    (h : coupling.Sessions first second) : SameEffects first second :=
  ⟨h.memory, h.console⟩

end BitAssembly.Machine

namespace BitAssembly

open BitAssembly.Bits
open BitAssembly.Machine
open BitAssembly.Text

theorem programBits_save {bits : List Char} (hbits : AllBits bits) (hne : bits ≠ [])
    (files : Directory) {name : String} (hname : name.toList.all isBit = false) :
    ∃ directory, save files name bits = (.ok (), directory) ∧
      programBits directory name.toList = .ok (fillByte bits) := by
  obtain ⟨bytes, hpack, hunpack⟩ := unpack_pack hbits hne
  refine ⟨files.insert name bytes, by rw [save, hpack], ?_⟩
  have hfind : SortedTable.find? (files.insert name bytes) name = some bytes := by
    rw [SortedTable.find?_insert, if_pos rfl]
  rw [programBits, if_neg (by simp [hname]), String.ofList_toList, hfind, ← hunpack]

/-- How a program of so many bits ends when it is run from a file, if the run of the bits
alone ends in the first way. -/
inductive EndsFromFile (length : Nat) :
    EStateM.Result Stop Session TextEnd → EStateM.Result Stop Session Unit → Prop
  | closed {after later} (h : SameEffects after later) :
      EndsFromFile length (.ok .closed after) (.ok () later)
  | stopped {stop after later} (h : SameEffects after later) :
      EndsFromFile length (.error stop after) (.error stop later)
  | filled {after later} (h : SameEffects after later)
      (hlength : length % 8 = 0 ∨ length % 8 = 2 ∨ length % 8 = 5) :
      EndsFromFile length (.ok .exhausted after) (.ok () later)
  | broken {after later} (h : SameEffects after later)
      (hlength : ¬ (length % 8 = 0 ∨ length % 8 = 2 ∨ length % 8 = 5)) :
      EndsFromFile length (.ok .exhausted after) (.error (.fault .endOfText) later)

theorem fill_mod_three (length : Nat) :
    (8 - length % 8) % 8 % 3 = 0 ↔ length % 8 = 0 ∨ length % 8 = 2 ∨ length % 8 = 5 := by
  have hall : ∀ rest < 8, (8 - rest) % 8 % 3 = 0 ↔ rest = 0 ∨ rest = 2 ∨ rest = 5 := by decide
  exact hall (length % 8) (Nat.mod_lt length (by decide))

theorem endsFromFile_fillByte {edition : Edition} {limits : Limits} {bits input : List Char}
    (hbits : AllBits bits)
    (hwhole : stop? (execute edition limits false (.start bits false input)) ≠
      some (.fault .endOfText)) :
    EndsFromFile bits.length (finish edition limits false (.start bits false input))
      (execute edition limits false (.start (fillByte bits) false input)) := by
  have hstart {text : List Char} (htext : AllBits text) : Session.start text false input =
      Session.onto ⟨.initial, .ofInput input, .ofChars #[], false⟩ text := by
    rw [Session.start, Cursor.ofText_of_allBits htext, Session.onto]
  rw [hstart hbits] at hwhole ⊢
  rw [hstart (allBits_fillByte hbits), execute_apply]
  rw [execute_apply] at hwhole
  have hfollows := @follows_finish edition bits hbits
    (List.replicate ((8 - bits.length % 8) % 8) '0') limits
    ⟨.initial, .ofInput input, .ofChars #[], false⟩
  rw [← fillByte] at hfollows
  revert hfollows hwhole
  generalize finish edition limits false (Session.onto _ bits) = direct
  generalize finish edition limits false (Session.onto _ (fillByte bits)) = loaded
  intro hwhole hfollows
  cases hfollows with
  | closed h => exact .closed h.sameEffects
  | stopped h => exact .stopped h.sameEffects
  | excused h => exact absurd (congrArg some h.2) hwhole
  | exhausted h hend hfuel =>
      have hsame := h.sameEffects
      rw [← executeText_apply, executeText_zeros (by simpa using hfuel) (h.goesOn hend)]
      by_cases hfill : (8 - bits.length % 8) % 8 % 3 = 0
      · rw [if_pos hfill]
        exact .filled ⟨hsame.memory, hsame.console⟩ ((fill_mod_three _).mp hfill)
      · rw [if_neg hfill]
        exact .broken ⟨hsame.memory, hsame.console⟩ (mt (fill_mod_three _).mpr hfill)

/-- A program that does not break off by itself has the same effects when it is saved and run
from its file.  It ends in the same way, too, unless it is run to the end of its bits: then the
zeros behind them decide. -/
theorem execute_saved (edition : Edition) (limits : Limits) {bits : List Char}
    (hbits : AllBits bits) (hne : bits ≠ []) (input : List Char)
    (hwhole : stop? (execute edition limits false (.start bits false input)) ≠
      some (.fault .endOfText))
    (files : Directory) {name : String} (hname : name.toList.all isBit = false) :
    ∃ directory code,
      save files name bits = (.ok (), directory) ∧ programBits directory name.toList = .ok code ∧
      programBits files bits = .ok bits ∧
      execute edition limits false (.start bits false input) =
        forgetEnd (finish edition limits false (.start bits false input)) ∧
      EndsFromFile bits.length (finish edition limits false (.start bits false input))
        (execute edition limits false (.start code false input)) := by
  obtain ⟨directory, hsave, hload⟩ := programBits_save hbits hne files hname
  refine ⟨directory, fillByte bits, hsave, hload, if_pos (List.all_eq_true.mpr hbits),
    execute_apply limits false _, ?_⟩
  exact endsFromFile_fillByte hbits hwhole

theorem execute_saved_display :
    let bits := "0010000001100010001".toList
    let start := fun code => Session.start code false []
    AllBits bits ∧
      stop? (execute .basic ⟨9, 0⟩ false (start bits)) ≠ some (.fault .endOfText) ∧
      ∃ directory code,
        save [] "counter" bits = (.ok (), directory) ∧
        programBits directory "counter".toList = .ok code ∧ programBits [] bits = .ok bits ∧
        execute .basic ⟨9, 0⟩ false (start bits) =
          forgetEnd (finish .basic ⟨9, 0⟩ false (start bits)) ∧
        EndsFromFile 19 (finish .basic ⟨9, 0⟩ false (start bits))
          (execute .basic ⟨9, 0⟩ false (start code)) := by
  intro bits start
  have hbits : AllBits bits := by
    have hall : bits.all isBit := by decide +kernel
    exact List.all_eq_true.mp hall
  have hwhole : stop? (execute .basic ⟨9, 0⟩ false (start bits)) ≠ some (.fault .endOfText) := by
    decide +kernel
  exact ⟨hbits, hwhole,
    execute_saved .basic ⟨9, 0⟩ hbits (by decide) [] hwhole [] (by decide +kernel)⟩

end BitAssembly
