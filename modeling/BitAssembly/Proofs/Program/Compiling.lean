import BitAssembly.Command
import BitAssembly.Proofs.Bits.Packing
import BitAssembly.Proofs.Lint.Unread
import BitAssembly.Proofs.Source.Joining
import BitAssembly.Proofs.Structured.Layout

/-!
# Compilation to a file

A compilation touches no file but its target.  It saves the bits whole or leaves
the target as it was, with one exception: a source without tokens has no bits to
pack, and by then the target is there and empty.
-/

namespace BitAssembly

open BitAssembly.Bits
open BitAssembly.Source
open BitAssembly.Text

variable {edition : Edition} {source bits : List Char} {name : String}

/-! ## The bits of a source -/

theorem code?_ne_nil {token : Token} {code : List Char} (h : code? edition token = some code) :
    code ≠ [] := by
  have htable : (codeTable edition).all fun entry => !entry.2.isEmpty := by
    cases edition <;> decide +kernel
  simpa using List.all_eq_true.mp htable (token, code) (mem_codeTable h)

theorem tokenBits_eq_nil_iff {tokens : List Token} (h : Coded edition tokens) :
    Structured.tokenBits edition tokens = [] ↔ tokens = [] := by
  constructor
  · intro hnil
    rw [Structured.tokenBits, List.flatMap_eq_nil_iff] at hnil
    refine List.eq_nil_iff_forall_not_mem.mpr fun token htoken => ?_
    obtain ⟨code, hcode⟩ := Option.isSome_iff_exists.mp (h token htoken)
    refine code?_ne_nil hcode ?_
    simpa [hcode] using hnil token htoken
  · rintro rfl
    rfl

theorem assemble_bits_nil_iff :
    assemble edition source = .ok (.bits []) ↔ Spells edition source [] := by
  constructor
  · intro h
    obtain ⟨tokens, hspells, hencode⟩ := assemble_eq_bits h
    obtain ⟨hcoded, hbits⟩ := encodeTokens_eq_ok hencode
    rwa [(tokenBits_eq_nil_iff hcoded).mp hbits.symm] at hspells
  · intro h
    rw [assemble, h]
    rfl

theorem allBits_of_assemble (h : assemble edition source = .ok (.bits bits)) : AllBits bits := by
  obtain ⟨tokens, -, hencode⟩ := assemble_eq_bits h
  rw [(encodeTokens_eq_ok hencode).2]
  exact Structured.allBits_tokenBits tokens

/-! ## Saving -/

theorem build_of_bits (h : assemble edition source = .ok (.bits bits)) (hname : name ≠ "")
    (files : Directory) :
    build edition source name files =
      ⟨"", (save files name bits).1.map fun _ => some bits, (save files name bits).2⟩ := by
  have hopen : name.isEmpty = false := by simpa using hname
  rw [build, h]
  dsimp only [Assembly.bits?]
  rw [hopen, if_neg Bool.false_ne_true]
  rfl

theorem build_saved (h : assemble edition source = .ok (.bits bits)) (hname : name ≠ "")
    (hbits : bits ≠ []) (files : Directory) :
    ∃ bytes, pack bits = .ok bytes ∧
      build edition source name files = ⟨"", .ok (some bits), files.insert name bytes⟩ := by
  have hpack := pack_bits (allBits_of_assemble h) hbits
  refine ⟨_, hpack, ?_⟩
  rw [build_of_bits h hname, save, hpack]
  rfl

/-- No bits make no numeral; the file has been emptied all the same. -/
theorem build_emptied (h : assemble edition source = .ok (.bits [])) (hname : name ≠ "")
    (files : Directory) :
    build edition source name files = ⟨"", .error (.badNumeral 2), files.insert name []⟩ := by
  rw [build_of_bits h hname]
  rfl

def Build.bits? (result : Build) : Option (List Char) :=
  match result.result with
  | .error _ => none
  | .ok bits? => bits?

theorem build_unsaved (h : ∀ bits, assemble edition source ≠ .ok (.bits bits)) (name : String)
    (files : Directory) :
    (build edition source name files).files = files ∧
      (build edition source name files).bits? = none := by
  rw [build]
  cases hassembly : assemble edition source with
  | error fault => exact ⟨rfl, rfl⟩
  | ok assembly =>
      cases assembly with
      | bits code => exact absurd hassembly (h code)
      | illegal tokens index => exact ⟨rfl, rfl⟩
      | unclosed => exact ⟨rfl, rfl⟩

/-! ## Compiling -/

namespace Surroundings

/-- The bits that a compilation ends with.  There are none if it stops or meets a
token without a code. -/
def compiled? (around : Surroundings) (source : List Char) (target : String) :
    Option (List Char) :=
  match Lint.check around.edition Lint.levelLimit false (.start source) with
  | .error _ _ => none
  | .ok _ _ => (build around.edition source target around.files).bits?

/-- The target is left alone or holds all bits, packed. -/
structure AllOrNothing (around : Surroundings) (source : List Char) (target : String) : Prop where
  nothing : around.compiled? source target = none →
    (around.compileSource source target).files.find? target = around.files.find? target
  all : ∀ bits, around.compiled? source target = some bits → ∃ bytes, pack bits = .ok bytes ∧
    (around.compileSource source target).files.find? target = some bytes

/-- The source has passed the check and has no tokens, and the target was not an empty file. -/
def Empties (around : Surroundings) (source : List Char) (target : String) : Prop :=
  Lint.Returns (Lint.check around.edition Lint.levelLimit false (.start source)) ∧
    Spells around.edition source [] ∧ around.files.find? target ≠ some []

def source? (around : Surroundings) (path : String) : Option (List Char) :=
  (around.files.find? path).bind fun bytes =>
    (String.fromUTF8? ⟨bytes.toArray⟩).map fun text => plainLineEnds text.toList

section

variable (around : Surroundings) (source : List Char) {target : String}

theorem unchecked (target : String)
    (h : ¬ Lint.Returns (Lint.check around.edition Lint.levelLimit false (.start source))) :
    (around.compileSource source target).files = around.files ∧
      around.compiled? source target = none := by
  rw [compiled?, compileSource]
  cases hcheck : Lint.check around.edition Lint.levelLimit false (.start source) with
  | ok _ progress => exact absurd ⟨progress, hcheck⟩ h
  | error stop progress => exact ⟨rfl, rfl⟩

theorem checked (target : String)
    (h : Lint.Returns (Lint.check around.edition Lint.levelLimit false (.start source))) :
    (around.compileSource source target).files =
        (build around.edition source target around.files).files ∧
      around.compiled? source target =
        (build around.edition source target around.files).bits? := by
  obtain ⟨progress, hcheck⟩ := h
  rw [compileSource, compiled?, hcheck]
  exact ⟨rfl, rfl⟩

theorem compile_cases (htarget : target ≠ "") :
    ((around.compileSource source target).files = around.files ∧
        around.compiled? source target = none ∧ ¬ around.Empties source target) ∨
      (∃ bits bytes, pack bits = .ok bytes ∧ around.compiled? source target = some bits ∧
        (around.compileSource source target).files = around.files.insert target bytes ∧
        ¬ around.Empties source target) ∨
      ((around.compileSource source target).files = around.files.insert target [] ∧
        around.compiled? source target = none ∧
        (around.Empties source target ↔ around.files.find? target ≠ some [])) := by
  by_cases hcheck :
      Lint.Returns (Lint.check around.edition Lint.levelLimit false (.start source))
  · obtain ⟨hfiles, hbits?⟩ := checked around source target hcheck
    rw [hfiles, hbits?]
    by_cases hassemble : ∃ bits, assemble around.edition source = .ok (.bits bits)
    · obtain ⟨bits, hbits⟩ := hassemble
      by_cases hnil : bits = []
      · subst hnil
        rw [build_emptied hbits htarget]
        exact .inr (.inr ⟨rfl, rfl, fun h => h.2.2, fun h =>
          ⟨hcheck, assemble_bits_nil_iff.mp hbits, h⟩⟩)
      · obtain ⟨bytes, hpack, hbuild⟩ := build_saved hbits htarget hnil around.files
        rw [hbuild]
        refine .inr (.inl ⟨bits, bytes, hpack, rfl, rfl, fun h => hnil ?_⟩)
        have hnone := hbits.symm.trans (assemble_bits_nil_iff.mpr h.2.1)
        injection hnone with hsame
        injection hsame
    · obtain ⟨hsame, hnone⟩ := build_unsaved (fun bits h => hassemble ⟨bits, h⟩) target around.files
      refine .inl ⟨hsame, hnone, fun h => hassemble ⟨[], assemble_bits_nil_iff.mpr h.2.1⟩⟩
  · obtain ⟨hsame, hnone⟩ := unchecked around source target hcheck
    exact .inl ⟨hsame, hnone, fun h => hcheck h.1⟩

theorem allOrNothing_iff (htarget : target ≠ "") :
    around.AllOrNothing source target ↔ ¬ around.Empties source target := by
  rcases compile_cases around source htarget with
    ⟨hfiles, hnone, hempties⟩ | ⟨bits, bytes, hpack, hsome, hfiles, hempties⟩ |
      ⟨hfiles, hnone, hempties⟩
  · refine ⟨fun _ => hempties, fun _ => ⟨fun _ => by rw [hfiles], ?_⟩⟩
    simp [hnone]
  · refine ⟨fun _ => hempties, fun _ => ⟨by simp [hsome], fun other hother => ?_⟩⟩
    cases hsome.symm.trans hother
    exact ⟨bytes, hpack, by rw [hfiles, SortedTable.find?_insert, if_pos rfl]⟩
  · have hafter : (around.compileSource source target).files.find? target = some [] := by
      rw [hfiles, SortedTable.find?_insert, if_pos rfl]
    rw [hempties, not_not]
    refine ⟨fun h => (h.nothing hnone).symm.trans hafter, fun h => ⟨fun _ => ?_, by simp [hnone]⟩⟩
    rw [hafter, h]

theorem find?_compileSource (htarget : target ≠ "") {other : String} (hother : other ≠ target) :
    (around.compileSource source target).files.find? other = around.files.find? other := by
  rcases compile_cases around source htarget with
    ⟨hfiles, -, -⟩ | ⟨bits, bytes, -, -, hfiles, -⟩ | ⟨hfiles, -, -⟩
  · rw [hfiles]
  · rw [hfiles, SortedTable.find?_insert, if_neg hother]
  · rw [hfiles, SortedTable.find?_insert, if_neg hother]

theorem command_compile (path target : String) (more : List String) :
    around.command ("compile" :: path :: target :: more) = around.compileFile path target :=
  rfl

theorem compileFile_of_source? {path : String} (target : String)
    (h : around.source? path = some source) :
    around.compileFile path target = around.compileSource source target := by
  obtain ⟨bytes, hbytes, hsource⟩ := Option.bind_eq_some_iff.mp h
  obtain ⟨text, htext, rfl⟩ := Option.map_eq_some_iff.mp hsource
  rw [compileFile, hbytes]
  dsimp only
  rw [htext]

theorem compileFile_of_no_source {path : String} (target : String)
    (h : around.source? path = none) :
    (∃ fault, (around.compileFile path target).stop = some (.fault fault)) ∧
      (around.compileFile path target).files = around.files := by
  rw [compileFile]
  cases hbytes : around.files.find? path with
  | none => exact ⟨⟨_, rfl⟩, rfl⟩
  | some bytes =>
      dsimp only
      cases htext : String.fromUTF8? ⟨bytes.toArray⟩ with
      | none => exact ⟨⟨_, rfl⟩, rfl⟩
      | some text => simp [source?, hbytes, htext] at h

end

/-- Compilation is all or nothing except where it empties its target; it touches no
other file.  The compile command compiles the source in its first file, and
without one it faults and leaves the files alone. -/
theorem compile_allOrNothing_iff (around : Surroundings) (target : String)
    (htarget : target ≠ "") :
    (∀ source, around.AllOrNothing source target ↔ ¬ around.Empties source target) ∧
      (∀ source other, other ≠ target →
        (around.compileSource source target).files.find? other = around.files.find? other) ∧
      ∀ path more,
        (∀ source, around.source? path = some source →
          around.command ("compile" :: path :: target :: more) =
            around.compileSource source target) ∧
        (around.source? path = none →
          (∃ fault, (around.command ("compile" :: path :: target :: more)).stop =
              some (.fault fault)) ∧
            (around.command ("compile" :: path :: target :: more)).files = around.files) := by
  refine ⟨fun source => allOrNothing_iff around source htarget,
    fun source other hother => find?_compileSource around source htarget hother,
    fun path more => ?_⟩
  rw [command_compile]
  exact ⟨fun source h => compileFile_of_source? around source target h,
    compileFile_of_no_source around target⟩

theorem compile_allOrNothing_iff_pause :
    let around : Surroundings := ⟨.extended, .standard, [("old", [1])], []⟩
    let source := "NOP".toList
    around.AllOrNothing source "old" ∧ ¬ around.Empties source "old" := by
  intro around source
  have hnone : ¬ around.Empties source "old" := by
    rintro ⟨-, hspells, -⟩
    cases hspells
  obtain ⟨hiff, -⟩ := compile_allOrNothing_iff around "old" (by decide)
  exact ⟨(hiff source).mpr hnone, hnone⟩

/-- A source of blanks empties an older file and faults. -/
theorem not_allOrNothing_blank :
    ¬ AllOrNothing ⟨.basic, .standard, [("old", [1])], []⟩ " ".toList "old" ∧
      ¬ AllOrNothing ⟨.extended, .standard, [("old", [1])], []⟩ " ".toList "old" := by
  constructor <;>
  · intro h
    cases h.nothing rfl

end Surroundings

end BitAssembly
