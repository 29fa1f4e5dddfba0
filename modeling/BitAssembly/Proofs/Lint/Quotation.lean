import BitAssembly.Proofs.Lint.Programs

/-!
# Quotations in a check

A check puts the mark that opens a quotation back, and then takes it for the
mark that closes it.  So the text of a quotation is checked like a source of
its own, together with what follows the quotation.
-/

namespace BitAssembly.Lint

open BitAssembly.Source
open BitAssembly.Structured

section

variable {edition : Edition} {levels : Nat} {progress : Progress} {gap rest : List Char}
variable {mark : Char}

theorem not_isFiller_of_quote (h : isQuote mark) : ¬ isFiller [mark] := by
  simp only [isQuote, Bool.or_eq_true, beq_iff_eq] at h
  rcases h with rfl | rfl <;> decide

theorem checkImmediate_quotation (hat : progress.At (gap ++ mark :: rest))
    (hgap : Loose levels gap) (hmark : isQuote mark) :
    ∃ after, checkImmediate levels false progress = .ok () after ∧ after.At rest := by
  obtain ⟨middle, hsolid, hmiddle, -⟩ := solid_back hat hgap (not_isFiller_of_quote hmark)
  have hmarks : [mark] = ['\x22'] ∨ [mark] = ['\x27'] := by simpa [isQuote] using hmark
  have htake : takeThrough [mark] (middle.unread + 1) [] middle =
      .ok [mark] (middle.advance 1 [mark]) := by
    rw [takeThrough, bind_of_ok hmiddle.take_cons, if_pos rfl]
    rfl
  refine ⟨middle.advance 1 [mark], ?_, hmiddle.advance_cons⟩
  unfold checkImmediate
  rw [hsolid, if_pos hmarks]
  exact (bind_of_ok rfl).trans (bind_of_ok htake)

theorem checkNext_immediate (hat : progress.At ("DPI".toList ++ rest)) :
    ∃ middle, checkNext edition levels false progress =
        (checkImmediate levels false >>= fun _ => pure true) middle ∧ middle.At rest := by
  obtain ⟨middle, hnext, hmiddle, -⟩ :=
    @checkNext_mnemonic edition levels _ _ _ (by decide) (by simp) hat
  exact ⟨middle, hnext, hmiddle⟩

theorem returns_quotation_iff (hmark : isQuote mark) :
    Returns (check edition levels false (.start ("DPI ".toList ++ mark :: rest))) ↔
      1 < levels ∧ Returns (check edition levels false (.start rest)) := by
  have hblank : Filling [' '] := by
    simp only [Filling, List.forall_mem_singleton]
    decide
  have hat := Progress.at_start ("DPI ".toList ++ mark :: rest)
  have htext : "DPI ".toList ++ mark :: rest ≠ [] := by simp
  obtain ⟨middle, hnext, hmiddle⟩ :=
    @checkNext_immediate edition levels _ ([' '] ++ mark :: rest) hat
  rw [check_eq, check_eq]
  by_cases hlevels : 1 < levels
  · obtain ⟨after, hok, hafter⟩ := checkImmediate_quotation hmiddle ⟨hblank, hlevels⟩ hmark
    rw [checkRest_next hat htext hnext hok, and_iff_right hlevels]
    exact returns_checkRest_iff hafter
  · obtain ⟨after, herror⟩ := checkImmediate_tooDeep hmiddle hblank (Nat.le_of_not_lt hlevels)
    rw [checkRest_fails hat htext hnext herror]
    simp [Returns, hlevels]

end

/-- Behind a clear program, a check of a quotation goes on with its text as with a source, up to
the end of what follows the quotation. -/
theorem check_quotation_iff (edition : Edition) (levels : Nat) (program : Program)
    (layout : Layout) (hfits : program.fits edition) (hwrites : program.writesNone)
    (htokens : layout.tokens = program.tokens edition) (hclear : layout.IsClear) (mark : Char)
    (hmark : isQuote mark) (text rest : List Char) :
    Returns (check edition levels false
      (.start (layout.source ++ "DPI ".toList ++ mark :: text ++ mark :: ' ' :: rest))) ↔
      layout.IsShort levels ∧ 1 < levels ∧
        Returns (check edition levels false (.start (text ++ mark :: ' ' :: rest))) := by
  let tail := layout.trail ++ ("DPI ".toList ++ mark :: (text ++ mark :: ' ' :: rest))
  have hsource : layout.source ++ "DPI ".toList ++ mark :: text ++ mark :: ' ' :: rest =
      spell layout.pieces ++ tail := by
    simp [Layout.source, tail]
  have htail : tail ≠ [] := by simp [tail]
  have hhead : ∀ c ∈ tail.head?, c ∉ digits := by
    cases htrail : layout.trail with
    | nil =>
        have hletter : 'D' ∉ digits := by decide
        simpa [tail, htrail] using hletter
    | cons c trail =>
        have hnot := hclear.2.head_not_digit
        simpa [tail, htrail] using hnot
  have htreats := treats_program levels program hfits hwrites
  have hiff := htreats.returns_iff htokens (Clear.laid hclear.1) hhead
  rwa [readable_iff_short hclear.1 htail, returns_gap_iff hclear.2.filling.passable,
    returns_quotation_iff hmark, ← hsource] at hiff

theorem check_quotation_iff_instruction :
    let program : Program := .plain (.alter .increment (Fin.ofNat 16 3)) .done
    let layout : Layout := ⟨[([], "INC".toList), (" ".toList, "3".toList)], "\n".toList⟩
    let source := fun text : List Char =>
      layout.source ++ "DPI ".toList ++ '\x22' :: text ++ '\x22' :: ' ' :: "NOP".toList
    layout.tokens = program.tokens .basic ∧ layout.IsClear ∧ isQuote '\x22' ∧
      Returns (check .basic levelLimit false (.start (source "NOP".toList))) ∧
      ¬ Returns (check .basic levelLimit false (.start (source "INC x".toList))) := by
  intro program layout source
  have htokens : layout.tokens = program.tokens .basic := by decide +kernel
  have hclear : layout.IsClear := by decide +kernel
  have hshort : layout.IsShort levelLimit := by decide +kernel
  have hiff := check_quotation_iff .basic levelLimit program layout (by decide) (by decide) htokens
    hclear '\x22' (by decide)
  refine ⟨htokens, hclear, by decide, ?_, ?_⟩
  · exact (hiff "NOP".toList "NOP".toList).mpr ⟨hshort, by decide, by decide +kernel⟩
  · intro hreturns
    have htext := ((hiff "INC x".toList "NOP".toList).mp hreturns).2.2
    exact absurd htext (by decide +kernel)

/-- A quotation of letters is refused where an empty one is not. -/
theorem not_check_quotations_alike :
    ¬ (Returns (check .extended levelLimit false (.start "DPI \x22INC x\x22 ".toList)) ↔
      Returns (check .extended levelLimit false (.start "DPI \x22\x22 ".toList))) := by
  decide +kernel

end BitAssembly.Lint
