import BitAssembly.Proofs.Source.Gaps

/-!
# Quotations

Behind an immediate display, a text between two marks becomes tokens of its
own.  The text may hold anything but its mark, the escape sign and characters
that are left out of a source.
-/

namespace BitAssembly.Source

open BitAssembly.Text

variable {edition : Edition} {mark : Char} {text : List Char}

def quotation (gap : List Char) (mark : Char) (text : List Char) : List Char :=
  "DPI".toList ++ (gap ++ (mark :: text ++ [mark]))

/-- The text says the same in quotation marks as it does by itself. -/
structure Quotable (edition : Edition) (mark : Char) (text : List Char) : Prop where
  quote : isQuote mark
  unmarked : mark ∉ text
  plain : '\\' ∉ text
  stays : ∀ c ∈ text, isKept edition c

theorem passes_openText (hmark : isQuote mark) (escaped : Bool) (tokens : List Token) :
    Passes edition [mark] ⟨.code, 0, escaped, "DPI".toList :: tokens⟩
      ⟨.text mark [], 0, escaped, tokens⟩ := by
  refine (Passes.nil _).cons fun rest => (Takes.openText ?_ ?_ ?_ hmark).step
  all_goals
    simp only [isQuote, Bool.or_eq_true, beq_iff_eq] at hmark
    rcases hmark with rfl | rfl <;> decide

theorem passes_text (hmark : mark ∉ text) (hplain : '\\' ∉ text) (chars : List Char)
    (tokens : List Token) :
    Passes edition text ⟨.text mark chars, 0, false, tokens⟩
      ⟨.text mark (text.reverse ++ chars), 0, false, tokens⟩ := by
  induction text generalizing chars with
  | nil => exact .nil _
  | cons c text ih =>
      rw [List.mem_cons, not_or] at hmark hplain
      have hrest := ih hmark.2 hplain.2 (c :: chars)
      rw [List.reverse_cons, List.append_assoc]
      exact hrest.cons fun rest => (Takes.text (Ne.symm hmark.1) (Ne.symm hplain.1)).step

section

variable (h : Quotable edition mark text) {gap : List Char} (hgap : Gap edition gap)

include h

theorem kept_quotation :
    kept edition (quotation gap mark text) =
      "DPI".toList ++ (kept edition gap ++ ([mark] ++ (text ++ [mark]))) := by
  have hdisplay : kept edition "DPI".toList = "DPI".toList := by cases edition <;> rfl
  have hmark : kept edition [mark] = [mark] := by
    have hquote := h.quote
    simp only [isQuote, Bool.or_eq_true, beq_iff_eq] at hquote
    rcases hquote with rfl | rfl <;> cases edition <;> rfl
  have hsplit : mark :: text ++ [mark] = [mark] ++ (text ++ [mark]) := rfl
  rw [quotation, hsplit, kept_append, kept_append, kept_append, kept_append, hdisplay, hmark,
    kept_eq_self h.stays]

include hgap

theorem passes_quoted :
    Passes edition ("DPI".toList ++ (kept edition gap ++ ([mark] ++ text))) Scan.start
      ⟨.text mark text.reverse, 0, false, []⟩ := by
  have hword : isWord "DPI".toList := by decide
  have htext : Passes edition text ⟨.text mark [], 0, false, []⟩
      ⟨.text mark text.reverse, 0, false, []⟩ := by
    simpa using passes_text h.unmarked h.plain [] []
  refine (passes_word hword false []).append ?_
  refine (hgap.passes false ["DPI".toList]).append ?_
  exact (passes_openText h.quote false []).append htext

theorem run_quotation :
    Scan.start.run edition (kept edition (quotation gap mark text)) =
      (textTokens edition text).map fun added => ⟨.code, 0, false, added.reverse⟩ := by
  have hopen := passes_quoted h hgap [mark]
  simp only [List.append_assoc] at hopen
  rw [kept_quotation h, hopen]
  cases hadded : textTokens edition text with
  | error fault => simp [Scan.run, Scan.step, hadded, Except.map, bind, Except.bind]
  | ok added => simp [Scan.run, Scan.step, hadded, Except.map, bind, Except.bind]

theorem spells_quotation {added : List Token} (hadded : textTokens edition text = .ok added) :
    Spells edition (quotation gap mark text) added := by
  refine spells_iff.mpr ⟨⟨.code, 0, false, added.reverse⟩, ?_, by simp, by simp⟩
  rw [run_quotation h hgap, hadded]
  rfl

theorem build_quotation_error {fault : Fault} (hfault : textTokens edition text = .error fault)
    (files : Directory) :
    build edition (quotation gap mark text) "" files = ⟨"", .error fault, files⟩ := by
  have hassemble : assemble edition (quotation gap mark text) = .error fault := by
    rw [assemble, tokenize_eq, run_quotation h hgap, hfault]
    rfl
  rw [build, hassemble]

end

end BitAssembly.Source
