import BitAssembly.Proofs.Source.Scanning

/-!
# Gaps between tokens

Between two tokens a source may hold blanks, brackets without meaning and
comments, in any order and number, or nothing.  Its bits are those of its
tokens in any case.
-/

namespace BitAssembly.Source

open BitAssembly.Text

variable {edition : Edition}

inductive Gap (edition : Edition) : List Char → Prop
  | nil : Gap edition []
  | blank {c : Char} {rest : List Char} (hc : isBlank c) (hrest : Gap edition rest) :
      Gap edition (c :: rest)
  | bracket {c : Char} {rest : List Char} (hc : isGrouping c ∨ isCurly edition c)
      (hrest : Gap edition rest) : Gap edition (c :: rest)
  | comment (text : List Char) {rest : List Char} (htext : ';' ∉ text) (hrest : Gap edition rest) :
      Gap edition (';' :: text ++ ';' :: rest)

theorem passes_blank {c : Char} (hc : isBlank c) (escaped : Bool) (tokens : List Token) :
    Passes edition [c] ⟨.code, 0, escaped, tokens⟩ ⟨.code, 0, escaped, tokens⟩ := by
  have hmark : c ≠ ';' := by
    rintro rfl
    exact absurd hc (by decide)
  exact (Passes.nil _).cons fun rest => (Takes.blank hmark hc).step

theorem kept_bracket {c : Char} (hc : isGrouping c ∨ isCurly edition c) :
    kept edition [c] = [] := by
  rcases hc with hc | hc <;> simp [kept, isKept, hc]

theorem kept_mark : kept edition [';'] = [';'] := by
  cases edition <;> rfl

theorem Gap.passes {gap : List Char} (h : Gap edition gap) (escaped : Bool)
    (tokens : List Token) :
    Passes edition (kept edition gap) ⟨.code, 0, escaped, tokens⟩ ⟨.code, 0, escaped, tokens⟩ := by
  induction h with
  | nil => exact .nil _
  | @blank c rest hc hrest ih =>
      rw [← List.singleton_append, kept_append]
      refine Passes.append ?_ ih
      cases hkept : isKept edition c with
      | true =>
          rw [kept_eq_self (by simpa using hkept)]
          exact passes_blank hc escaped tokens
      | false =>
          rw [kept, List.filter_cons_of_neg (by simp [hkept])]
          exact .nil _
  | @bracket c rest hc hrest ih =>
      rw [← List.singleton_append, kept_append, kept_bracket hc]
      exact ih
  | @comment text rest htext hrest ih =>
      have hinside : ';' ∉ kept edition text := fun hmem => htext (List.mem_filter.mp hmem).1
      have hopen : ∀ rest, Scan.step edition ⟨.code, 0, escaped, tokens⟩ ';' rest =
          .ok ⟨.comment, 0, escaped, tokens⟩ := fun _ => (Takes.openComment rfl).step
      have hcomment := (passes_comment hinside ⟨.comment, 0, escaped, tokens⟩ rfl).cons hopen
      have hsplit : ';' :: text ++ ';' :: rest = [';'] ++ (text ++ ([';'] ++ rest)) := by simp
      rw [hsplit, kept_append, kept_append, kept_append, kept_mark]
      have hall := hcomment.append ih
      simpa only [List.singleton_append, List.cons_append, List.nil_append, List.append_assoc]
        using hall

/-! ## Sources with gaps -/

/-- A gap, and then tokens with a gap behind each of them. -/
def layOut (lead : List Char) (pieces : List (Token × List Char)) : List Char :=
  lead ++ pieces.flatMap fun piece => piece.1 ++ piece.2

theorem passes_pieces {pieces : List (Token × List Char)}
    (hcoded : Coded edition (pieces.map Prod.fst)) (hgaps : ∀ piece ∈ pieces, Gap edition piece.2)
    (escaped : Bool) (tokens : List Token) :
    Passes edition (kept edition (pieces.flatMap fun piece => piece.1 ++ piece.2))
      ⟨.code, 0, escaped, tokens⟩
      ⟨.code, 0, escaped, (pieces.map Prod.fst).reverse ++ tokens⟩ := by
  induction pieces generalizing tokens with
  | nil => exact .nil _
  | cons piece pieces ih =>
      obtain ⟨hword, hkept⟩ := hcoded.words piece.1 (by simp)
      rw [List.flatMap_cons, kept_append, kept_append,
        kept_eq_self (List.all_eq_true.mp hkept)]
      have hpiece := (passes_word hword escaped tokens).append
        ((hgaps piece (by simp)).passes escaped (piece.1 :: tokens))
      have hrest := ih (fun token htoken => hcoded token (List.mem_cons_of_mem _ htoken))
        (fun other hother => hgaps other (List.mem_cons_of_mem _ hother)) (piece.1 :: tokens)
      simpa using hpiece.append hrest

theorem spells_layOut {lead : List Char} {pieces : List (Token × List Char)}
    (hlead : Gap edition lead) (hcoded : Coded edition (pieces.map Prod.fst))
    (hgaps : ∀ piece ∈ pieces, Gap edition piece.2) :
    Spells edition (layOut lead pieces) (pieces.map Prod.fst) := by
  have hpasses := (hlead.passes false []).append (passes_pieces hcoded hgaps false [])
  rw [← kept_append, ← layOut] at hpasses
  exact spells_iff.mpr ⟨_, hpasses.run, by simp, by simp⟩

/-- However its tokens are laid out, a source assembles to their codes in a row, and nothing
is printed. -/
theorem build_layOut (edition : Edition) (lead : List Char) (pieces : List (Token × List Char))
    (hlead : Gap edition lead) (hcoded : ∀ piece ∈ pieces, (code? edition piece.1).isSome)
    (hgaps : ∀ piece ∈ pieces, Gap edition piece.2) (files : Directory) :
    build edition (layOut lead pieces) "" files =
      ⟨"", .ok (some (pieces.flatMap fun piece => (code? edition piece.1).getD [])), files⟩ := by
  have htokens : Coded edition (pieces.map Prod.fst) := by simpa [Coded] using hcoded
  rw [(spells_layOut hlead htokens hgaps).build htokens, List.flatMap_map]

theorem build_layOut_comments :
    let lead := ";DPI '[;\n".toList
    let pieces := [("IF".toList, []), ("1".toList, ";\x22\n] NOP(;".toList),
      ("<".toList, "\t".toList), ("a".toList, "[\x7b".toList), ("LD2".toList, ";;( ".toList),
      ("f".toList, []), ("0".toList, []), ("7".toList, []), ("7".toList, []), ("7".toList, []),
      ("]".toList, " ;]';\x7d".toList)]
    Gap .extended lead ∧ (∀ piece ∈ pieces, Gap .extended piece.2) ∧
      build .extended (layOut lead pieces) "" [] =
        ⟨"", .ok (some "10100000010110100111010111110000011101110111110".toList), []⟩ := by
  intro lead pieces
  have hlead : Gap .extended lead := .comment "DPI '[".toList (by decide)
    (.blank (by decide) .nil)
  have hgaps : ∀ piece ∈ pieces, Gap .extended piece.2 := by
    simp only [pieces, List.forall_mem_cons]
    refine ⟨.nil, .comment "\x22\n] NOP(".toList (by decide) .nil,
      .blank (by decide) .nil, .bracket (by decide) (.bracket (by decide) .nil),
      .comment [] (by decide) (.bracket (by decide) (.blank (by decide) .nil)),
      .nil, .nil, .nil, .nil, .nil,
      .blank (by decide) (.comment "]'".toList (by decide)
        (.bracket (by decide) .nil)), ?_⟩
    simp
  have hcoded : ∀ piece ∈ pieces, (code? .extended piece.1).isSome := by
    have hall : (pieces.all fun piece => (code? .extended piece.1).isSome) = true := by
      decide +kernel
    exact List.all_eq_true.mp hall
  exact ⟨hlead, hgaps, build_layOut .extended lead pieces hlead hcoded hgaps []⟩

end BitAssembly.Source
