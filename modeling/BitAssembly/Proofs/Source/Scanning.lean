import BitAssembly.Proofs.Source.Spelling

/-!
# Cutting a source piece by piece

A piece of source may lead the cutting from one state to another whatever
follows the piece.  Such pieces compose, so a source is understood from its
words, gaps and quotations one at a time.  What a single character does is said
once, as a relation.
-/

namespace BitAssembly.Source

open BitAssembly.Text

variable {edition : Edition}

def kept (edition : Edition) (source : List Char) : List Char :=
  source.filter (isKept edition)

@[simp] theorem kept_append (first second : List Char) :
    kept edition (first ++ second) = kept edition first ++ kept edition second := by
  simp [kept]

theorem kept_eq_self {source : List Char} (h : ∀ c ∈ source, isKept edition c) :
    kept edition source = source :=
  List.filter_eq_self.mpr h

theorem tokenize_eq (source : List Char) :
    tokenize edition (source.filter fun c => !isCurly edition c) =
      (Scan.start.run edition (kept edition source)).map fun scan =>
        if scan.mode = .comment then none else some scan.tokens.reverse := by
  have hkept : (source.filter fun c => !isCurly edition c).filter (fun c => !isGrouping c) =
      kept edition source := by
    rw [kept, List.filter_filter]
    exact List.filter_congr fun c _ => Bool.and_comm _ _
  rw [tokenize, hkept]
  cases Scan.start.run edition (kept edition source) with
  | error fault => rfl
  | ok scan =>
      simp only [bind, Except.bind, Except.map]
      split <;> rfl

theorem spells_iff {source : List Char} {tokens : List Token} :
    Spells edition source tokens ↔
      ∃ scan, Scan.start.run edition (kept edition source) = .ok scan ∧ scan.mode ≠ .comment ∧
        scan.tokens.reverse = tokens := by
  rw [Spells, tokenize_eq]
  cases Scan.start.run edition (kept edition source) with
  | error fault => simp [Except.map]
  | ok scan => by_cases h : scan.mode = .comment <;> simp [Except.map, h]

/-! ## Steps -/

/-- Everything that one character can do to the state; `rest` follows the character. -/
inductive Takes (edition : Edition) (c : Char) (rest : List Char) : Scan → Scan → Prop
  | closeText {chars pending escaped tokens added}
      (hadded : textTokens edition chars.reverse = .ok added) :
      Takes edition c rest ⟨.text c chars, pending, escaped, tokens⟩
        ⟨.code, pending, escaped, added.reverse ++ tokens⟩
  | backslash {mark chars pending escaped tokens} (hmark : c ≠ mark) (hc : c = '\\') :
      Takes edition c rest ⟨.text mark chars, pending, escaped, tokens⟩
        ⟨.text mark chars, pending, true, tokens⟩
  | escape {mark chars pending tokens} (hmark : c ≠ mark) (hc : c ≠ '\\') :
      Takes edition c rest ⟨.text mark chars, pending, true, tokens⟩
        ⟨.text mark (unescape c :: chars), pending, false, tokens⟩
  | text {mark chars pending tokens} (hmark : c ≠ mark) (hc : c ≠ '\\') :
      Takes edition c rest ⟨.text mark chars, pending, false, tokens⟩
        ⟨.text mark (c :: chars), pending, false, tokens⟩
  | closeComment {pending escaped tokens} (hc : c = ';') :
      Takes edition c rest ⟨.comment, pending, escaped, tokens⟩ ⟨.code, pending, escaped, tokens⟩
  | comment {pending escaped tokens} (hc : c ≠ ';') :
      Takes edition c rest ⟨.comment, pending, escaped, tokens⟩
        ⟨.comment, pending, escaped, tokens⟩
  | openComment {pending escaped tokens} (hc : c = ';') :
      Takes edition c rest ⟨.code, pending, escaped, tokens⟩ ⟨.comment, pending, escaped, tokens⟩
  | within {pending escaped tokens} (hc : c ≠ ';') :
      Takes edition c rest ⟨.code, pending + 1, escaped, tokens⟩ ⟨.code, pending, escaped, tokens⟩
  | blank {escaped tokens} (hc : c ≠ ';') (hblank : isBlank c) :
      Takes edition c rest ⟨.code, 0, escaped, tokens⟩ ⟨.code, 0, escaped, tokens⟩
  | single {escaped tokens} (hc : c ≠ ';') (hblank : ¬ isBlank c) (hsingle : c ∈ singles) :
      Takes edition c rest ⟨.code, 0, escaped, tokens⟩ ⟨.code, 0, escaped, [c] :: tokens⟩
  | openText {escaped tokens} (hc : c ≠ ';') (hblank : ¬ isBlank c) (hsingle : c ∉ singles)
      (hquote : isQuote c) :
      Takes edition c rest ⟨.code, 0, escaped, "DPI".toList :: tokens⟩
        ⟨.text c [], 0, escaped, tokens⟩
  | double {escaped tokens} (hc : c ≠ ';') (hblank : ¬ isBlank c) (hsingle : c ∉ singles)
      (hquote : ¬ isQuote c) (hif : c = 'I' ∧ rest.head? = some 'F') :
      Takes edition c rest ⟨.code, 0, escaped, tokens⟩ ⟨.code, 1, escaped, ['I', 'F'] :: tokens⟩
  | triple {escaped tokens} (hc : c ≠ ';') (hblank : ¬ isBlank c) (hsingle : c ∉ singles)
      (hquote : ¬ isQuote c) (hif : ¬ (c = 'I' ∧ rest.head? = some 'F')) :
      Takes edition c rest ⟨.code, 0, escaped, tokens⟩
        ⟨.code, 2, escaped, (c :: rest.take 2) :: tokens⟩

theorem Takes.step {scan next : Scan} {c : Char} {rest : List Char}
    (h : Takes edition c rest scan next) : scan.step edition c rest = .ok next := by
  cases h with
  | closeText hadded => simp [Scan.step, hadded, bind, Except.bind]
  | backslash hmark hc => subst hc; simp [Scan.step, hmark]
  | _ => simp_all [Scan.step, Scan.cut]

theorem cut_eq_ok {escaped : Bool} {tokens : List Token} {next : Scan} {c : Char} {rest : List Char}
    (hc : c ≠ ';') (h : Scan.cut ⟨.code, 0, escaped, tokens⟩ c rest = .ok next) :
    Takes edition c rest ⟨.code, 0, escaped, tokens⟩ next := by
  rw [Scan.cut] at h
  by_cases hblank : isBlank c
  · rw [if_pos hblank] at h
    cases h
    exact .blank hc hblank
  rw [if_neg hblank] at h
  by_cases hsingle : c ∈ singles
  · rw [if_pos hsingle] at h
    cases h
    exact .single hc hblank hsingle
  rw [if_neg hsingle] at h
  by_cases hquote : isQuote c
  · rw [if_pos hquote] at h
    cases tokens with
    | nil => cases h
    | cons token before =>
        by_cases htoken : token = "DPI".toList
        · subst htoken
          cases h
          exact .openText hc hblank hsingle hquote
        · change (if token = "DPI".toList then _ else _) = _ at h
          rw [if_neg htoken] at h
          cases h
  rw [if_neg hquote] at h
  split at h
  · next hif =>
      cases h
      exact .double hc hblank hsingle hquote hif
  · next hif =>
      cases h
      exact .triple hc hblank hsingle hquote hif

theorem takes_of_step {scan next : Scan} {c : Char} {rest : List Char}
    (h : scan.step edition c rest = .ok next) : Takes edition c rest scan next := by
  obtain ⟨mode, pending, escaped, tokens⟩ := scan
  cases mode with
  | code =>
      simp only [Scan.step] at h
      split at h
      · next hc =>
          cases h
          exact .openComment hc
      · next hc =>
          cases pending with
          | zero => exact cut_eq_ok hc h
          | succ pending =>
              cases h
              exact .within hc
  | comment =>
      simp only [Scan.step] at h
      split at h
      · next hc =>
          cases h
          exact .closeComment hc
      · next hc =>
          cases h
          exact .comment hc
  | text mark chars =>
      simp only [Scan.step] at h
      by_cases hmark : c = mark
      · subst hmark
        rw [if_pos rfl] at h
        cases hadded : textTokens edition chars.reverse with
        | error fault => simp [hadded, bind, Except.bind] at h
        | ok added =>
            simp only [hadded, bind, Except.bind, Except.ok.injEq] at h
            subst h
            exact .closeText hadded
      rw [if_neg hmark] at h
      by_cases hc : c = '\\'
      · rw [if_pos hc] at h
        cases h
        exact .backslash hmark hc
      rw [if_neg hc] at h
      cases escaped with
      | true =>
          cases h
          exact .escape hmark hc
      | false =>
          cases h
          exact .text hmark hc

/-! ## Pieces -/

/-- Whatever follows, cutting this piece leads from `before` to `after`. -/
def Passes (edition : Edition) (piece : List Char) (before after : Scan) : Prop :=
  ∀ rest, before.run edition (piece ++ rest) = after.run edition rest

namespace Passes

variable {before middle after : Scan}

theorem nil (scan : Scan) : Passes edition [] scan scan :=
  fun _ => rfl

theorem append {first second : List Char} (hfirst : Passes edition first before middle)
    (hsecond : Passes edition second middle after) :
    Passes edition (first ++ second) before after := by
  intro rest
  rw [List.append_assoc, hfirst, hsecond]

theorem cons {c : Char} {piece : List Char}
    (hstep : ∀ rest, before.step edition c rest = .ok middle)
    (hpiece : Passes edition piece middle after) : Passes edition (c :: piece) before after := by
  intro rest
  rw [List.cons_append, Scan.run, hstep]
  exact hpiece rest

theorem run {piece : List Char} (h : Passes edition piece before after) :
    before.run edition piece = .ok after := by
  simpa [Scan.run] using h []

end Passes

theorem passes_word {token : Token} (h : isWord token) (escaped : Bool) (before : List Token) :
    Passes edition token ⟨.code, 0, escaped, before⟩ ⟨.code, 0, escaped, token :: before⟩ :=
  fun rest => run_word h before rest

theorem passes_comment {text : List Char} (htext : ';' ∉ text) (scan : Scan)
    (hmode : scan.mode = .comment) :
    Passes edition (text ++ [';']) scan { scan with mode := .code } := by
  obtain ⟨mode, pending, escaped, tokens⟩ := scan
  subst hmode
  induction text with
  | nil => exact (Passes.nil _).cons fun rest => (Takes.closeComment rfl).step
  | cons c text ih =>
      rw [List.mem_cons, not_or] at htext
      exact (ih htext.2).cons fun rest => (Takes.comment (Ne.symm htext.1)).step

end BitAssembly.Source
