import BitAssembly.Proofs.Source.Scanning

/-!
# Joining two sources

A source that assembles leaves no token half cut.  It may end inside a
quotation, though, or with an escape that is still to be applied, and then what
is joined to it is not cut as it would be alone.
-/

namespace BitAssembly.Source

open BitAssembly.Text

variable {edition : Edition}

/-! ## Sources that assemble -/

theorem encodeTokens_eq_ok {tokens : List Token} {bits : List Char}
    (h : encodeTokens edition tokens = .ok bits) :
    Coded edition tokens ∧ bits = tokens.flatMap fun token => (code? edition token).getD [] := by
  rw [encodeTokens] at h
  split at h
  · cases h
  · next hnone =>
      cases h
      refine ⟨fun token htoken => ?_, rfl⟩
      rw [List.findIdx?_eq_none_iff] at hnone
      simpa using hnone token htoken

theorem assemble_eq_bits {source bits : List Char}
    (h : assemble edition source = .ok (.bits bits)) :
    ∃ tokens, Spells edition source tokens ∧ encodeTokens edition tokens = .ok bits := by
  rw [assemble] at h
  cases htokens : tokenize edition (source.filter fun c => !isCurly edition c) with
  | error fault => simp [htokens, bind, Except.bind] at h
  | ok answer =>
      cases answer with
      | none => simp [htokens, bind, Except.bind, pure, Except.pure] at h
      | some tokens =>
          refine ⟨tokens, htokens, ?_⟩
          cases hbits : encodeTokens edition tokens with
          | error index => simp [htokens, hbits, bind, Except.bind, pure, Except.pure] at h
          | ok code => simpa [htokens, hbits, bind, Except.bind, pure, Except.pure] using h

theorem assemble_of_program {source bits : List Char}
    (h : (build edition source "" []).program = .ok bits) :
    assemble edition source = .ok (.bits bits) := by
  rw [build] at h
  cases hassembly : assemble edition source with
  | error fault => simp [hassembly, Build.program] at h
  | ok assembly =>
      cases assembly with
      | bits code => simpa [hassembly, Assembly.bits?, Build.program] using h
      | illegal tokens index => simp [hassembly, Assembly.bits?, Build.program] at h
      | unclosed => simp [hassembly, Assembly.bits?, Build.program] at h

def Scan.bits (edition : Edition) (scan : Scan) : List Char :=
  scan.tokens.reverse.flatMap fun token => (code? edition token).getD []

theorem program_build_iff {source bits : List Char} :
    (build edition source "" []).program = .ok bits ↔
      ∃ scan, Scan.start.run edition (kept edition source) = .ok scan ∧ scan.mode ≠ .comment ∧
        Coded edition scan.tokens ∧ bits = scan.bits edition := by
  constructor
  · intro h
    obtain ⟨tokens, hspells, hbits⟩ := assemble_eq_bits (assemble_of_program h)
    obtain ⟨hcoded, rfl⟩ := encodeTokens_eq_ok hbits
    obtain ⟨scan, hrun, hmode, rfl⟩ := spells_iff.mp hspells
    exact ⟨scan, hrun, hmode, by simpa [Coded] using hcoded, rfl⟩
  · rintro ⟨scan, hrun, hmode, hcoded, rfl⟩
    have hspells := spells_iff.mpr ⟨scan, hrun, hmode, rfl⟩
    rw [hspells.build (by simpa [Coded] using hcoded)]
    rfl

/-! ## Behind a source that assembles -/

theorem run_cons_eq_ok {scan after : Scan} {c : Char} {rest : List Char}
    (h : scan.run edition (c :: rest) = .ok after) :
    ∃ next, Takes edition c rest scan next ∧ next.run edition rest = .ok after := by
  rw [Scan.run] at h
  cases hstep : scan.step edition c rest with
  | error fault => simp [hstep] at h
  | ok next => exact ⟨next, takes_of_step hstep, by simpa [hstep] using h⟩

theorem Takes.coded {scan next : Scan} {c : Char} {rest : List Char}
    (h : Takes edition c rest scan next) (hnext : Coded edition next.tokens) :
    Coded edition scan.tokens := by
  cases h with
  | closeText hadded => exact fun token htoken => hnext token (List.mem_append_right _ htoken)
  | openText hc hblank hsingle hquote =>
      refine List.forall_mem_cons.mpr ⟨?_, hnext⟩
      cases edition <;> rfl
  | single hc hblank hsingle => exact (List.forall_mem_cons.mp hnext).2
  | double hc hblank hsingle hquote hif => exact (List.forall_mem_cons.mp hnext).2
  | triple hc hblank hsingle hquote hif => exact (List.forall_mem_cons.mp hnext).2
  | _ => exact hnext

theorem coded_of_run {scan after : Scan} {source : List Char}
    (h : scan.run edition source = .ok after) (hafter : Coded edition after.tokens) :
    Coded edition scan.tokens := by
  induction source generalizing scan with
  | nil =>
      cases h
      exact hafter
  | cons c rest ih =>
      obtain ⟨next, htakes, hrun⟩ := run_cons_eq_ok h
      exact htakes.coded (ih hrun)

theorem Coded.word {token : Token} {tokens : List Token} (h : Coded edition (token :: tokens)) :
    isWord token :=
  (h.words token List.mem_cons_self).1

theorem exists_eq_of_isWord {c : Char} {rest : List Char} (hword : isWord (c :: rest.take 2))
    (hsingle : c ∉ singles) (hif : ¬ (c = 'I' ∧ rest.head? = some 'F')) :
    ∃ a b later, rest = a :: b :: later := by
  match rest with
  | [] => simp [isWord, hsingle] at hword
  | [a] =>
      simp only [isWord, List.take, Bool.decide_and, Bool.and_eq_true, decide_eq_true_eq] at hword
      exact absurd ⟨hword.1, by simp [hword.2]⟩ hif
  | a :: b :: later => exact ⟨a, b, later, rfl⟩

theorem Takes.elsewhere {scan next : Scan} {c : Char} {rest : List Char}
    (h : Takes edition c rest scan next) (hnext : next.pending = 0) (other : List Char) :
    Takes edition c other scan next := by
  cases h with
  | closeText hadded => exact .closeText hadded
  | backslash hmark hc => exact .backslash hmark hc
  | escape hmark hc => exact .escape hmark hc
  | text hmark hc => exact .text hmark hc
  | closeComment hc => exact .closeComment hc
  | comment hc => exact .comment hc
  | openComment hc => exact .openComment hc
  | within hc => exact .within hc
  | blank hc hblank => exact .blank hc hblank
  | single hc hblank hsingle => exact .single hc hblank hsingle
  | openText hc hblank hsingle hquote => exact .openText hc hblank hsingle hquote
  | double hc hblank hsingle hquote hif => cases hnext
  | triple hc hblank hsingle hquote hif => cases hnext

theorem Takes.word {scan next : Scan} {c : Char} {rest : List Char}
    (h : Takes edition c rest scan next) (hpending : scan.pending = 0) (hnext : next.pending ≠ 0)
    (hcoded : Coded edition next.tokens) :
    ∃ token later, c :: rest = token ++ later ∧ token ≠ [] ∧ isWord token ∧
      scan.mode = .code := by
  cases h with
  | double hc hblank hsingle hquote hif =>
      obtain ⟨rfl, hhead⟩ := hif
      obtain ⟨later, rfl⟩ := List.head?_eq_some_iff.mp hhead
      exact ⟨['I', 'F'], later, rfl, by simp, rfl, rfl⟩
  | triple hc hblank hsingle hquote hif =>
      have hword := hcoded.word
      obtain ⟨a, b, later, rfl⟩ := exists_eq_of_isWord hword hsingle hif
      exact ⟨[c, a, b], later, rfl, by simp, hword, rfl⟩
  | within hc => cases hpending
  | _ => exact absurd hpending hnext

/-- A source with codes for all its tokens leads to the same state whatever is joined to it,
and it does not end within a token. -/
theorem passes_of_run {scan after : Scan} {source : List Char}
    (h : scan.run edition source = .ok after) (hpending : scan.pending = 0)
    (hafter : Coded edition after.tokens) :
    Passes edition source scan after ∧ after.pending = 0 := by
  -- A token of several letters is passed over at once, so the induction is on the length.
  induction hlength : source.length using Nat.strongRecOn generalizing source scan with
  | ind length ih =>
      cases source with
      | nil =>
          cases h
          exact ⟨.nil _, hpending⟩
      | cons c rest =>
          obtain ⟨next, htakes, hrun⟩ := run_cons_eq_ok h
          by_cases hnext : next.pending = 0
          · obtain ⟨hpasses, hend⟩ := ih rest.length (by simp [← hlength]) hrun hnext rfl
            exact ⟨hpasses.cons fun other => (htakes.elsewhere hnext other).step, hend⟩
          · obtain ⟨token, later, hsource, hne, hword, hmode⟩ :=
              htakes.word hpending hnext (coded_of_run hrun hafter)
            obtain ⟨mode, pending, escaped, tokens⟩ := scan
            cases hmode
            cases hpending
            have hshorter : later.length < length := by
              have htoken := List.length_pos_iff.mpr hne
              rw [← hlength, hsource, List.length_append]
              omega
            have hpasses : Passes edition token _ _ := passes_word hword escaped tokens
            rw [hsource, hpasses] at h
            obtain ⟨hlater, hend⟩ := ih later.length hshorter h rfl rfl
            rw [hsource]
            exact ⟨hpasses.append hlater, hend⟩

/-! ## The tokens of the second source -/

def Scan.onto (scan : Scan) (base : List Token) : Scan :=
  { scan with tokens := scan.tokens ++ base }

theorem Takes.onto {scan next : Scan} {c : Char} {rest : List Char}
    (h : Takes edition c rest scan next) (base : List Token) :
    Takes edition c rest (scan.onto base) (next.onto base) := by
  cases h with
  | closeText hadded =>
      rw [Scan.onto, Scan.onto, List.append_assoc]
      exact .closeText hadded
  | backslash hmark hc => exact .backslash hmark hc
  | escape hmark hc => exact .escape hmark hc
  | text hmark hc => exact .text hmark hc
  | closeComment hc => exact .closeComment hc
  | comment hc => exact .comment hc
  | openComment hc => exact .openComment hc
  | within hc => exact .within hc
  | blank hc hblank => exact .blank hc hblank
  | single hc hblank hsingle => exact .single hc hblank hsingle
  | openText hc hblank hsingle hquote => exact .openText hc hblank hsingle hquote
  | double hc hblank hsingle hquote hif => exact .double hc hblank hsingle hquote hif
  | triple hc hblank hsingle hquote hif => exact .triple hc hblank hsingle hquote hif

theorem run_onto {scan after : Scan} {source : List Char}
    (h : scan.run edition source = .ok after) (base : List Token) :
    (scan.onto base).run edition source = .ok (after.onto base) := by
  induction source generalizing scan with
  | nil =>
      cases h
      rfl
  | cons c rest ih =>
      obtain ⟨next, htakes, hrun⟩ := run_cons_eq_ok h
      rw [Scan.run, (htakes.onto base).step]
      exact ih hrun

theorem Takes.mark {scan next : Scan} {c : Char} {rest : List Char}
    (h : Takes edition c rest scan next)
    (hscan : ∀ mark chars, scan.mode = .text mark chars → isQuote mark) :
    ∀ mark chars, next.mode = .text mark chars → isQuote mark := by
  intro mark chars hmode
  cases h with
  | openText hc hblank hsingle hquote =>
      cases hmode
      exact hquote
  | backslash hmark hc => exact hscan _ _ hmode
  | escape hmark hc =>
      cases hmode
      exact hscan _ _ rfl
  | text hmark hc =>
      cases hmode
      exact hscan _ _ rfl
  | _ => cases hmode

theorem run_mark {scan after : Scan} {source : List Char}
    (h : scan.run edition source = .ok after)
    (hscan : ∀ mark chars, scan.mode = .text mark chars → isQuote mark) :
    ∀ mark chars, after.mode = .text mark chars → isQuote mark := by
  induction source generalizing scan with
  | nil =>
      cases h
      exact hscan
  | cons c rest ih =>
      obtain ⟨next, htakes, hrun⟩ := run_cons_eq_ok h
      exact ih hrun (htakes.mark hscan)

/-! ## Both sources together -/

theorem bits_onto (scan : Scan) (base : Scan) :
    (scan.onto base.tokens).bits edition = base.bits edition ++ scan.bits edition := by
  simp [Scan.bits, Scan.onto]

theorem coded_onto {scan : Scan} {base : List Token} (hscan : Coded edition scan.tokens)
    (hbase : Coded edition base) : Coded edition (scan.onto base).tokens := by
  intro token htoken
  rcases List.mem_append.mp htoken with hmem | hmem
  · exact hscan token hmem
  · exact hbase token hmem

theorem program_build_append {source later : List Char} {scan after : Scan}
    (hsource : Scan.start.run edition (kept edition source) = .ok scan)
    (hcoded : Coded edition scan.tokens)
    (hlater : scan.run edition (kept edition later) = .ok after)
    (hmode : after.mode ≠ .comment) (hafter : Coded edition after.tokens) :
    (build edition (source ++ later) "" []).program = .ok (after.bits edition) := by
  have hpasses := (passes_of_run hsource rfl hcoded).1
  have hrun : Scan.start.run edition (kept edition (source ++ later)) = .ok after := by
    rw [kept_append, hpasses, hlater]
  exact program_build_iff.mpr ⟨after, hrun, hmode, hafter, rfl⟩

theorem run_inside {mark : Char} {source : List Char} (h : mark ∉ source) (chars : List Char)
    (pending : Nat) (escaped : Bool) (tokens : List Token) :
    ∃ more still, Scan.run edition ⟨.text mark chars, pending, escaped, tokens⟩ source =
      .ok ⟨.text mark more, pending, still, tokens⟩ := by
  induction source generalizing chars escaped with
  | nil => exact ⟨chars, escaped, rfl⟩
  | cons c rest ih =>
      rw [List.mem_cons, not_or] at h
      have hmark : c ≠ mark := Ne.symm h.1
      by_cases hc : c = '\\'
      · rw [Scan.run, (Takes.backslash hmark hc).step]
        exact ih h.2 chars true
      · cases escaped with
        | true =>
            rw [Scan.run, (Takes.escape hmark hc).step]
            exact ih h.2 (unescape c :: chars) false
        | false =>
            rw [Scan.run, (Takes.text hmark hc).step]
            exact ih h.2 (c :: chars) false

def quotedByte (edition : Edition) (high low : Char) : Scan :=
  ⟨.code, 0, false,
    match edition with
    | .basic => [[low], [high], "DPI".toList]
    | .extended => [[low], [high], ['1'], ['0'], ['0'], ['0'], "DPM".toList]⟩

section Ends

variable {source : List Char} {scan : Scan}
  (hrun : Scan.start.run edition (kept edition source) = .ok scan)
  (hcoded : Coded edition scan.tokens)

include hrun hcoded

theorem eq_onto (hmode : scan.mode = .code) :
    scan = Scan.onto ⟨.code, 0, scan.escaped, []⟩ scan.tokens := by
  have hpending := (passes_of_run hrun rfl hcoded).2
  obtain ⟨mode, pending, escaped, tokens⟩ := scan
  cases hmode
  cases hpending
  rfl

theorem program_build_append_of_code (hmode : scan.mode = .code) (hescaped : scan.escaped = false)
    {later more : List Char} (hlater : (build edition later "" []).program = .ok more) :
    (build edition (source ++ later) "" []).program = .ok (scan.bits edition ++ more) := by
  obtain ⟨after, hafter, hend, hlaterCoded, rfl⟩ := program_build_iff.mp hlater
  have hjoined := run_onto hafter scan.tokens
  rw [Scan.start, ← hescaped, ← eq_onto hrun hcoded hmode] at hjoined
  rw [← bits_onto]
  exact program_build_append hrun hcoded hjoined hend (coded_onto hlaterCoded hcoded)

theorem program_build_append_of_text {mark : Char} {chars : List Char}
    (hmode : scan.mode = .text mark chars) :
    (build edition (source ++ "NOP".toList) "" []).program = .ok (scan.bits edition) := by
  have hquote := run_mark hrun (fun mark chars h => by cases h) mark chars hmode
  have houtside : mark ∉ kept edition "NOP".toList := by
    intro hmem
    have hmark : mark ∈ ['N', 'O', 'P'] := (List.mem_filter.mp hmem).1
    simp only [List.mem_cons, List.not_mem_nil, or_false] at hmark
    rcases hmark with rfl | rfl | rfl <;> exact absurd hquote (by decide)
  obtain ⟨mode, pending, escaped, tokens⟩ := scan
  cases hmode
  obtain ⟨more, still, hlater⟩ := run_inside houtside chars pending escaped tokens
  exact (program_build_append hrun hcoded hlater (by simp) hcoded :)

omit hrun hcoded in
theorem run_escaped_letter :
    Scan.run edition ⟨.code, 0, true, []⟩ (kept edition "DPI\x22n\x22".toList) =
      .ok (quotedByte edition '0' 'a') := by
  cases edition <;> rfl

omit hrun hcoded in
theorem coded_quotedByte_line : Coded edition (quotedByte edition '0' 'a').tokens := by
  have hall : ((quotedByte edition '0' 'a').tokens.all fun token =>
      (code? edition token).isSome) = true := by
    cases edition <;> rfl
  exact List.all_eq_true.mp hall

theorem program_build_append_of_escaped (hmode : scan.mode = .code)
    (hescaped : scan.escaped = true) :
    (build edition (source ++ "DPI\x22n\x22".toList) "" []).program =
      .ok (scan.bits edition ++ (quotedByte edition '0' 'a').bits edition) := by
  have hjoined := run_onto (@run_escaped_letter edition) scan.tokens
  rw [← hescaped, ← eq_onto hrun hcoded hmode] at hjoined
  rw [← bits_onto]
  exact program_build_append hrun hcoded hjoined (by simp [quotedByte, Scan.onto])
    (coded_onto coded_quotedByte_line hcoded)

end Ends

/-- If both sources assemble, they do so together, to the bits of the one and of the other. -/
def Joins (edition : Edition) (first second : List Char) : Prop :=
  ∀ bits more, (build edition first "" []).program = .ok bits →
    (build edition second "" []).program = .ok more →
    (build edition (first ++ second) "" []).program = .ok (bits ++ more)

/-- A source that assembles ends outside comments and not within a token.  It joins with
whatever follows just if it also ends outside quotations and with no escape to be applied. -/
theorem joins_iff (edition : Edition) (source bits : List Char)
    (h : (build edition source "" []).program = .ok bits) :
    ∃ scan, Scan.start.run edition (kept edition source) = .ok scan ∧
      scan.mode ≠ .comment ∧ scan.pending = 0 ∧
      ((∀ later, Joins edition source later) ↔ scan.mode = .code ∧ scan.escaped = false) := by
  obtain ⟨scan, hrun, hmode, hcoded, rfl⟩ := program_build_iff.mp h
  have hpending := (passes_of_run hrun rfl hcoded).2
  refine ⟨scan, hrun, hmode, hpending, fun hjoins => ?_, ?_⟩
  · have hcode : scan.mode = .code := by
      cases hend : scan.mode with
      | code => rfl
      | comment => exact absurd hend hmode
      | text mark chars =>
          have hjoined := hjoins "NOP".toList _ ['0', '0', '0'] h (by cases edition <;> rfl)
          rw [program_build_append_of_text hrun hcoded hend] at hjoined
          simp at hjoined
    refine ⟨hcode, ?_⟩
    cases hescaped : scan.escaped with
    | false => rfl
    | true =>
        have hjoined := hjoins "DPI\x22n\x22".toList _ ((quotedByte edition '6' 'e').bits edition) h
          (by cases edition <;> rfl)
        rw [program_build_append_of_escaped hrun hcoded hcode hescaped] at hjoined
        have hsame := List.append_cancel_left (Except.ok.inj hjoined)
        cases edition <;> exact absurd hsame (by decide +kernel)
  · rintro ⟨hcode, hescaped⟩ later bits more hbits hmore
    rw [h] at hbits
    cases hbits
    exact program_build_append_of_code hrun hcoded hcode hescaped hmore

theorem joins_iff_quotation :
    let source := "DPI\x22;\\t\x22 ;'; ".toList
    let bits := "10111100000000000000100011101100001001".toList
    (build .extended source "" []).program = .ok bits ∧
      ∀ later, Joins .extended source later := by
  intro source bits
  have hbits : (build .extended source "" []).program = .ok bits := by rfl
  have hend : (Scan.start.run .extended (kept .extended source)).map
      (fun scan => (scan.mode, scan.escaped)) = .ok (.code, false) := by rfl
  obtain ⟨scan, hrun, -, -, hjoins⟩ := joins_iff .extended source bits hbits
  rw [hrun] at hend
  obtain ⟨hmode, hescaped⟩ := Prod.mk.inj (Except.ok.inj hend)
  exact ⟨hbits, hjoins.mpr ⟨hmode, hescaped⟩⟩

/-- A quotation that is still open takes in what follows, and a backslash before the mark that
closes a quotation has its effect in the next one. -/
theorem not_joins_open_quotation :
    let opened := "DPI\x22x".toList
    let marked := "DPI\x22\\\x22".toList
    let letter := "DPI\x22n\x22".toList
    (¬ Joins .basic opened "NOP".toList ∧ ¬ Joins .extended opened "NOP".toList) ∧
      ¬ Joins .basic marked letter ∧ ¬ Joins .extended marked letter := by
  intro opened marked letter
  have hopened : ∀ edition, ¬ Joins edition opened "NOP".toList := by
    intro edition hjoins
    have hjoined := hjoins [] ['0', '0', '0'] (by cases edition <;> rfl)
      (by cases edition <;> rfl)
    have hfound : (build edition (opened ++ "NOP".toList) "" []).program = .ok [] := by
      cases edition <;> rfl
    rw [hfound] at hjoined
    simp at hjoined
  have hbasic : ¬ Joins .basic marked letter := by
    intro hjoins
    have hjoined := hjoins [] "1001101101110".toList rfl rfl
    have hfound : (build .basic (marked ++ letter) "" []).program =
        .ok "1001100001010".toList := by rfl
    rw [hfound] at hjoined
    exact absurd (Except.ok.inj hjoined) (by decide)
  have hextended : ¬ Joins .extended marked letter := by
    intro hjoins
    have hjoined := hjoins "1011110000000000000000".toList
      "101111000000000000000101101110".toList rfl rfl
    have hfound : (build .extended (marked ++ letter) "" []).program =
        .ok "1011110000000000000000101111000000000000000100001010".toList := by rfl
    rw [hfound] at hjoined
    exact absurd (Except.ok.inj hjoined) (by decide)
  exact ⟨⟨hopened .basic, hopened .extended⟩, hbasic, hextended⟩

end BitAssembly.Source
