import BitAssembly.Proofs.Source.Gaps
import BitAssembly.Proofs.Source.Joining

/-!
# Tokens with space between them

Brackets are left out before a source is cut.  Where this does not join letters
to a token, they are as good as blanks, and the source is its tokens in a row
with blanks and brackets between them.
-/

namespace BitAssembly.Source

open BitAssembly.Text

variable {edition : Edition}

/-- The text is these tokens, with blanks and brackets between them. -/
inductive Spaced (edition : Edition) : List Char → List Token → Prop
  | nil : Spaced edition [] []
  | space {c : Char} {text : List Char} {tokens : List Token} (hc : isBlank c ∨ isGrouping c)
      (h : Spaced edition text tokens) : Spaced edition (c :: text) tokens
  | token {token : Token} {text : List Char} {tokens : List Token}
      (hcode : (code? edition token).isSome) (h : Spaced edition text tokens) :
      Spaced edition (token ++ text) (token :: tokens)

/-- The source with blanks in place of brackets. -/
def unbracketed (source : List Char) : List Char :=
  source.map fun c => if isGrouping c then ' ' else c

theorem unbracketed_eq_self {source : List Char} (h : ' ' ∉ unbracketed source) :
    unbracketed source = source := by
  refine (List.map_congr_left fun c hc => ?_).trans (List.map_id source)
  by_cases hgroup : isGrouping c
  · refine absurd ?_ h
    exact List.mem_map.mpr ⟨c, hc, by simp [hgroup]⟩
  · simp [hgroup]

theorem unbracketed_eq_append {source first second : List Char}
    (h : unbracketed source = first ++ second) (hfirst : ' ' ∉ first) :
    ∃ rest, source = first ++ rest ∧ unbracketed rest = second := by
  obtain ⟨front, rest, rfl, hfront, hrest⟩ := List.map_eq_append_iff.mp h
  change unbracketed front = first at hfront
  rw [← hfront] at hfirst ⊢
  exact ⟨rest, by rw [unbracketed_eq_self hfirst], hrest⟩

theorem codeTable_solid : (codeTable edition).all fun entry => !entry.1.contains ' ' := by
  cases edition <;> decide +kernel

theorem blank_not_mem_of_code {token : Token} (h : (code? edition token).isSome) : ' ' ∉ token := by
  obtain ⟨code, hcode⟩ := Option.isSome_iff_exists.mp h
  simpa using List.all_eq_true.mp codeTable_solid _ (mem_codeTable hcode)

theorem exists_word_of_run {c : Char} {rest : List Char} {escaped : Bool} {before : List Token}
    {after : Scan} (hquote : ¬ isQuote c) (hmark : c ≠ ';') (hblank : ¬ isBlank c)
    (h : Scan.run edition ⟨.code, 0, escaped, before⟩ (c :: rest) = .ok after)
    (hcoded : Coded edition after.tokens) :
    ∃ token later, c :: rest = token ++ later ∧ token ≠ [] ∧ isWord token := by
  obtain ⟨next, htakes, hrun⟩ := run_cons_eq_ok h
  by_cases hpending : next.pending = 0
  · cases htakes with
    | openComment hc => exact absurd hc hmark
    | blank _ hc => exact absurd hc hblank
    | openText _ _ _ hc => exact absurd hc hquote
    | single _ _ hsingle => exact ⟨[c], rest, rfl, by simp, by simpa [isWord] using hsingle⟩
    | double _ _ _ _ _ => cases hpending
    | triple _ _ _ _ _ => cases hpending
  · obtain ⟨token, later, hsource, hne, hword, -⟩ :=
      htakes.word rfl hpending (coded_of_run hrun hcoded)
    exact ⟨token, later, hsource, hne, hword⟩

theorem spaced_of_run {source : List Char} {before : List Token} {after : Scan}
    (hmarks : ∀ c ∈ source, ¬ isQuote c ∧ c ≠ ';')
    (h : Scan.run edition ⟨.code, 0, false, before⟩ (unbracketed source) = .ok after)
    (hcoded : Coded edition after.tokens) :
    ∃ tokens, after.tokens = tokens.reverse ++ before ∧ Spaced edition source tokens := by
  -- A token of several letters is passed over at once, so the induction is on the length.
  induction hlength : source.length using Nat.strongRecOn generalizing source before with
  | ind length ih =>
      cases source with
      | nil =>
          cases h
          exact ⟨[], rfl, .nil⟩
      | cons c rest =>
          obtain ⟨⟨hquote, hmark⟩, hothers⟩ := List.forall_mem_cons.mp hmarks
          by_cases hspace : isBlank c ∨ isGrouping c
          · have hblank : ∃ d, isBlank d ∧ unbracketed (c :: rest) = [d] ++ unbracketed rest := by
              by_cases hgroup : isGrouping c
              · exact ⟨' ', by decide, by simp [unbracketed, hgroup]⟩
              · exact ⟨c, hspace.resolve_right hgroup, by simp [unbracketed, hgroup]⟩
            obtain ⟨d, hd, heq⟩ := hblank
            rw [heq, passes_blank hd] at h
            obtain ⟨tokens, htokens, hspaced⟩ :=
              ih rest.length (by simp [← hlength]) hothers h rfl
            exact ⟨tokens, htokens, .space hspace hspaced⟩
          · rw [not_or] at hspace
            have heq : unbracketed (c :: rest) = c :: unbracketed rest := by
              simp [unbracketed, hspace.2]
            obtain ⟨token, later, hsource, hne, hword⟩ :=
              exists_word_of_run hquote hmark hspace.1 (heq ▸ h) hcoded
            rw [heq, hsource, passes_word hword] at h
            have hcode : (code? edition token).isSome :=
              coded_of_run h hcoded token List.mem_cons_self
            obtain ⟨left, hleft, rfl⟩ :=
              unbracketed_eq_append (heq.trans hsource) (blank_not_mem_of_code hcode)
            rw [hleft, List.length_append] at hlength
            rw [hleft] at hmarks ⊢
            have htoken := List.length_pos_iff.mpr hne
            obtain ⟨tokens, htokens, hspaced⟩ := ih left.length (by omega)
              (fun d hd => hmarks d (List.mem_append_right token hd)) h rfl
            exact ⟨token :: tokens, by simp [htokens], .token hcode hspaced⟩

/-- A source whose brackets are as good as blanks is its tokens with space between them. -/
theorem Spells.spaced {source : List Char} {tokens : List Token}
    (h : Spells edition (unbracketed source) tokens) (hcoded : Coded edition tokens)
    (hmarks : ∀ c ∈ source, ¬ isQuote c ∧ c ≠ ';') (hcurly : ∀ c ∈ source, ¬ isCurly edition c) :
    Spaced edition source tokens := by
  have hkept : kept edition (unbracketed source) = unbracketed source := by
    refine kept_eq_self fun c hc => ?_
    obtain ⟨d, hd, rfl⟩ := List.mem_map.mp hc
    by_cases hgroup : isGrouping d
    · rw [if_pos hgroup]
      cases edition <;> decide
    · simp [hgroup, isKept, hcurly d hd]
  obtain ⟨scan, hrun, -, rfl⟩ := spells_iff.mp h
  rw [hkept] at hrun
  obtain ⟨tokens, htokens, hspaced⟩ := spaced_of_run hmarks hrun (by simpa [Coded] using hcoded)
  rw [List.append_nil] at htokens
  rwa [htokens, List.reverse_reverse]

end BitAssembly.Source
