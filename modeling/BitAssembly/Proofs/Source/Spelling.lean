import BitAssembly.Program

/-!
# Sources and the tokens they spell

Tokens that have codes can be written one after the other, with nothing between
them: cutting such a source gives the tokens back, and assembling it gives their
codes in a row.
-/

namespace BitAssembly.Source

open BitAssembly.Text

variable {edition : Edition}

def Spells (edition : Edition) (source : List Char) (tokens : List Token) : Prop :=
  tokenize edition (source.filter fun c => !isCurly edition c) = .ok (some tokens)

def Coded (edition : Edition) (tokens : List Token) : Prop :=
  ∀ token ∈ tokens, (code? edition token).isSome

/-! ## Cutting -/

/-- A token that is cut off a source whatever follows it. -/
def isWord : Token → Bool
  | [c] => c ∈ singles
  | [a, b] => a = 'I' ∧ b = 'F'
  | [a, b, c] =>
      !isBlank a && a ∉ singles && !isQuote a && !(a = 'I' ∧ b = 'F') &&
        [a, b, c].all (· != ';')
  | _ => false

theorem singles_plain : singles.all fun c => !isBlank c && c != ';' := by
  decide +kernel

theorem run_word {token : Token} (h : isWord token) {escaped : Bool} (before : List Token)
    (rest : List Char) :
    Scan.run edition ⟨.code, 0, escaped, before⟩ (token ++ rest) =
      Scan.run edition ⟨.code, 0, escaped, token :: before⟩ rest := by
  match token, h with
  | [c], h =>
      have hsingle : c ∈ singles := by simpa [isWord] using h
      have hplain := List.all_eq_true.mp singles_plain c hsingle
      simp only [Bool.and_eq_true, Bool.not_eq_true', bne_iff_ne] at hplain
      obtain ⟨hblank, hmark⟩ := hplain
      simp [Scan.run, Scan.step, Scan.cut, hmark, hblank, hsingle]
  | [a, b], h =>
      have hword : a = 'I' ∧ b = 'F' := by simpa [isWord] using h
      obtain ⟨rfl, rfl⟩ := hword
      rfl
  | [a, b, c], h =>
      simp only [isWord, Bool.and_eq_true, Bool.not_eq_true', decide_eq_true_eq,
        decide_eq_false_iff_not, List.all_cons, List.all_nil, bne_iff_ne] at h
      obtain ⟨⟨⟨⟨hblank, hsingle⟩, hquote⟩, hif⟩, ha, hb, hc, -⟩ := h
      simp [Scan.run, Scan.step, Scan.cut, ha, hb, hc, hblank, hsingle, hquote, hif]

theorem run_words {tokens : List Token} (h : ∀ token ∈ tokens, isWord token)
    (before : List Token) :
    Scan.run edition ⟨.code, 0, false, before⟩ tokens.flatten =
      .ok ⟨.code, 0, false, tokens.reverse ++ before⟩ := by
  induction tokens generalizing before with
  | nil => rfl
  | cons token tokens ih =>
      rw [List.flatten_cons, run_word (h token List.mem_cons_self),
        ih fun token htoken => h token (List.mem_cons_of_mem _ htoken)]
      simp

def isKept (edition : Edition) (c : Char) : Bool :=
  !isCurly edition c && !isGrouping c

theorem codeTable_words :
    (codeTable edition).all fun entry => isWord entry.1 && entry.1.all (isKept edition) := by
  cases edition <;> decide +kernel

theorem Coded.words {tokens : List Token} (h : Coded edition tokens) :
    ∀ token ∈ tokens, isWord token ∧ token.all (isKept edition) := by
  intro token htoken
  obtain ⟨code, hcode⟩ := Option.isSome_iff_exists.mp (h token htoken)
  exact Bool.and_eq_true_iff.mp
    (List.all_eq_true.mp codeTable_words (token, code) (mem_codeTable hcode))

theorem spells_flatten {tokens : List Token} (h : Coded edition tokens) :
    Spells edition tokens.flatten tokens := by
  have hkept : ∀ c ∈ tokens.flatten, isKept edition c := by
    intro c hc
    obtain ⟨token, htoken, hmem⟩ := List.mem_flatten.mp hc
    exact List.all_eq_true.mp (h.words token htoken).2 c hmem
  have hcurly : (tokens.flatten.filter fun c => !isCurly edition c) = tokens.flatten :=
    List.filter_eq_self.mpr fun c hc => (Bool.and_eq_true_iff.mp (hkept c hc)).1
  have hgrouping : (tokens.flatten.filter fun c => !isGrouping c) = tokens.flatten :=
    List.filter_eq_self.mpr fun c hc => (Bool.and_eq_true_iff.mp (hkept c hc)).2
  have hscan : Scan.start.run edition tokens.flatten =
      .ok ⟨.code, 0, false, tokens.reverse ++ []⟩ :=
    run_words (fun token htoken => (h.words token htoken).1) []
  rw [Spells, hcurly, tokenize, hgrouping, hscan]
  change Except.ok (some (tokens.reverse ++ []).reverse) = _
  rw [List.append_nil, List.reverse_reverse]

/-! ## Assembling -/

theorem encodeTokens_coded {tokens : List Token} (h : Coded edition tokens) :
    encodeTokens edition tokens =
      .ok (tokens.flatMap fun token => (code? edition token).getD []) := by
  have hfirst : (tokens.findIdx? fun token => (code? edition token).isNone) = none := by
    rw [List.findIdx?_eq_none_iff]
    intro token htoken
    rw [← Option.not_isSome, h token htoken]
    rfl
  rw [encodeTokens, hfirst]

theorem Spells.build {source : List Char} {tokens : List Token} (h : Spells edition source tokens)
    (hcoded : Coded edition tokens) (files : Directory) :
    build edition source "" files =
      ⟨"", .ok (some (tokens.flatMap fun token => (code? edition token).getD [])), files⟩ := by
  have hassemble : assemble edition source =
      .ok (.bits (tokens.flatMap fun token => (code? edition token).getD [])) := by
    rw [assemble, h]
    simp only [bind, Except.bind, encodeTokens_coded hcoded]
    rfl
  rw [BitAssembly.build, hassemble]
  rfl

end BitAssembly.Source
