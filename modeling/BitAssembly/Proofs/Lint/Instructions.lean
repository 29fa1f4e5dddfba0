import BitAssembly.Proofs.Lint.Operands

/-!
# Single instructions and gaps

What a check does with one instruction, with a closing bracket and with a gap
that stands between instructions: the check of the whole text is then the check
of what follows, and lines, blocks and the text have been counted.
-/

namespace BitAssembly.Lint

open BitAssembly.Text
open BitAssembly.Source

/-! ## Counting -/

/-- What was counted while this text was read: blocks that were opened, in order, brackets that
were met, and characters that were put back. -/
structure Moved (before after : Progress) (used : List Char) (opened : List String)
    (closed pushed : Nat) : Prop where
  line : after.line = before.line + used.count '\n'
  depth : after.depth = before.depth + opened.length - closed
  blocks : after.blocks = opened.reverse ++ before.blocks
  size : after.cursor.text.size = before.cursor.text.size + pushed

section

variable {before middle after : Progress} {used more : List Char} {opened names : List String}
variable {closed ends pushed again : Nat}

theorem Moved.refl (progress : Progress) : Moved progress progress [] [] 0 0 :=
  ⟨rfl, by simp, rfl, rfl⟩

theorem Moved.trans (h : Moved before middle used opened closed pushed)
    (h' : Moved middle after more names ends again) :
    Moved before after (used ++ more) (opened ++ names) (closed + ends) (pushed + again) where
  line := by rw [h'.line, h.line, List.count_append, Nat.add_assoc]
  depth := by
    rw [h'.depth, h.depth, List.length_append]
    omega
  blocks := by rw [h'.blocks, h.blocks, List.reverse_append, List.append_assoc]
  size := by rw [h'.size, h.size, Nat.add_assoc]

theorem moved_reads (progress : Progress) (chars : List Char) :
    Moved progress (progress.reads chars) chars [] 0 0 :=
  ⟨progress.reads_line chars, by simp, by simp, by simp⟩

theorem moved_two (progress : Progress) {a : Char} (ha : a ≠ '\n') (b : Char) :
    Moved progress (progress.advance 2 [a, b]) [a, b] [] 0 0 := by
  refine ⟨?_, by simp [Progress.advance], rfl, rfl⟩
  by_cases hb : b = '\n'
  · simp [Progress.advance, hb, ha]
  · simp [Progress.advance, hb, ha, Ne.symm ha, Ne.symm hb]

end

/-! ## Fillers between instructions -/

section

variable {edition : Edition} {levels : Nat} {progress : Progress} {a b c : Char}
variable {gap rest : List Char}

theorem ne_lineFeed_of_not_filler (h : ¬ isFiller [c]) : c ≠ '\n' := by
  rintro rfl
  exact h (by decide)

theorem checkRest_next {after middle : Progress} {action : Linting Unit} {text : List Char}
    (hat : progress.At text) (htext : text ≠ [])
    (hnext : checkNext edition levels false progress = (action >>= fun _ => pure true) middle)
    (hok : action middle = .ok () after) :
    checkRest edition levels false progress = checkRest edition levels false after := by
  have htrue : checkNext edition levels false progress = .ok true after :=
    hnext.trans (bind_of_ok hok)
  rw [checkRest_cons hat htext, bind_of_ok htrue]
  rfl

theorem checkRest_fails {after middle : Progress} {action : Linting Unit} {text : List Char}
    {stop : Stop} (hat : progress.At text) (htext : text ≠ [])
    (hnext : checkNext edition levels false progress = (action >>= fun _ => pure true) middle)
    (herror : action middle = .error stop after) :
    checkRest edition levels false progress = .error stop after := by
  have hstops : checkNext edition levels false progress = .error stop after :=
    hnext.trans (bind_of_error herror)
  rw [checkRest_cons hat htext, bind_of_error hstops]

theorem checkRest_filler (hat : progress.At (c :: rest)) (hc : isFiller [c]) :
    ∃ after, checkRest edition levels false progress = checkRest edition levels false after ∧
      after.At rest ∧ Moved progress after [c] [] ([c].count ']') 0 := by
  have hread := hat.advance_cons
  have hmoved := moved_reads progress [c]
  by_cases hclose : c = ']'
  · subst hclose
    refine ⟨_, checkRest_next hat (by simp) (checkNext_filler hat hc) rfl,
      hread.of_cursor rfl, ?_⟩
    exact ⟨hmoved.line, by simp [Progress.advance], rfl, rfl⟩
  · refine ⟨_, checkRest_next hat (by simp) (checkNext_filler hat hc) ?_, hread, ?_⟩
    · rw [closeAt, if_neg hclose]
      rfl
    · rwa [List.count_eq_zero.mpr (by simpa using Ne.symm hclose)]

theorem checkRest_filling (hat : progress.At (gap ++ rest)) (hgap : Filling gap) :
    ∃ after, checkRest edition levels false progress = checkRest edition levels false after ∧
      after.At rest ∧ Moved progress after gap [] (gap.count ']') 0 := by
  induction gap generalizing progress with
  | nil => exact ⟨progress, rfl, hat, .refl progress⟩
  | cons c gap ih =>
      obtain ⟨middle, hfirst, hmiddle, hmoved⟩ :=
        @checkRest_filler edition levels _ _ _ hat (hgap c List.mem_cons_self)
      obtain ⟨after, hsecond, hafter, hmoved'⟩ :=
        ih hmiddle fun d hd => hgap d (List.mem_cons_of_mem c hd)
      refine ⟨after, hfirst.trans hsecond, hafter, ?_⟩
      have hall := hmoved.trans hmoved'
      rwa [← List.count_append, List.singleton_append] at hall

/-! ## Mnemonics -/

/-- The action behind a mnemonic takes operands for these slots, where the text goes on with
anything but a digit. -/
structure Demands (levels : Nat) (slots : List (List Char)) (opened : List String) (pushed : Nat)
    (action : Linting Unit) : Prop where
  ok : ∀ {progress : Progress} {pieces : List (List Char × Token)} {tail : List Char},
    Fills slots pieces → progress.At (spell pieces ++ tail) → (∀ c ∈ tail.head?, c ∉ digits) →
    (∀ piece ∈ pieces, Loose levels piece.1) → (pieces ≠ [] → tail ≠ []) →
    ∃ after, action progress = .ok () after ∧ after.At tail ∧
      Moved progress after (spell pieces) opened 0 pushed
  error : ∀ {progress : Progress} {pieces : List (List Char × Token)} {tail : List Char},
    Fills slots pieces → (∀ piece ∈ pieces, Fair piece.1) → progress.At (spell pieces ++ tail) →
    (∀ c ∈ tail.head?, c ∉ digits) →
    ¬ ((∀ piece ∈ pieces, Loose levels piece.1) ∧ (pieces ≠ [] → tail ≠ [])) →
    ∃ stop after, action progress = .error stop after ∧
      ((∀ piece ∈ pieces, Filling piece.1) → tail ≠ [] → stop = .tooDeep)

theorem demands_pure (levels : Nat) : Demands levels [] [] 0 (pure ()) where
  ok hfills hat _ _ _ := by
    cases hfills
    exact ⟨_, rfl, hat, .refl _⟩
  error hfills _ _ _ hbad := by
    cases hfills
    simp at hbad

theorem ReadsWithin.demands {α : Type} {slots : List (List Char)} {Post : α → Prop}
    {action : Linting α} (h : ReadsWithin levels true slots Post action) (hslots : slots ≠ []) :
    Demands levels slots [] 0 (action >>= fun _ => pure ()) where
  ok {progress pieces tail} hfills hat hhead hloose htail := by
    have hpieces : pieces ≠ [] := by
      rintro rfl
      cases hfills
      exact hslots rfl
    obtain ⟨c, rest, rfl⟩ := List.exists_cons_of_ne_nil (htail hpieces)
    obtain ⟨value, -, hok⟩ := h.ok hfills hat (fun _ => hhead c rfl) hloose
    exact ⟨_, bind_of_ok hok, hat.reads, moved_reads progress _⟩
  error {progress pieces tail} hfills hfair hat hhead hbad := by
    cases tail with
    | nil =>
        rw [List.append_nil] at hat
        obtain ⟨stop, after, herror⟩ := h.ended hfills hfair hat
        exact ⟨stop, after, bind_of_error herror, fun _ hne => absurd rfl hne⟩
    | cons c rest =>
        have hloose : ¬ ∀ piece ∈ pieces, Loose levels piece.1 := by
          intro hloose
          exact hbad ⟨hloose, fun _ => by simp⟩
        obtain ⟨stop, after, herror, hstop⟩ :=
          h.error hfills hfair hat (fun _ => hhead c rfl) hloose
        exact ⟨stop, after, bind_of_error herror, fun hfilling _ => hstop hfilling⟩

theorem Demands.after {slots : List (List Char)} {opened names : List String} {pushed : Nat}
    {inner action : Linting Unit} (h : Demands levels slots opened pushed inner)
    (haction : ∀ progress, ∃ middle, middle.cursor = progress.cursor ∧
      Moved progress middle [] names 0 0 ∧ action progress = inner middle) :
    Demands levels slots (names ++ opened) pushed action where
  ok {progress _ _} hfills hat hhead hloose htail := by
    obtain ⟨middle, hcursor, hcounted, heq⟩ := haction progress
    obtain ⟨after, hok, hafter, hmoved⟩ :=
      h.ok hfills (hat.of_cursor hcursor) hhead hloose htail
    refine ⟨after, heq.trans hok, hafter, ?_⟩
    simpa using hcounted.trans hmoved
  error {progress _ _} hfills hfair hat hhead hbad := by
    obtain ⟨middle, hcursor, -, heq⟩ := haction progress
    obtain ⟨stop, after, herror, hstop⟩ :=
      h.error hfills hfair (hat.of_cursor hcursor) hhead hbad
    exact ⟨stop, after, heq.trans herror, hstop⟩

theorem rule_check (rule : Rule) (levels : Nat) (progress : Progress) :
    ∃ middle, middle.cursor = progress.cursor ∧
      Moved progress middle [] rule.opens.toList 0 0 ∧
      rule.check levels false progress = (rule.shape.read levels >>= fun _ => pure ()) middle := by
  unfold Rule.check
  cases rule.opens with
  | none => exact ⟨progress, rfl, .refl progress, rfl⟩
  | some name =>
      refine ⟨{ progress with depth := progress.depth + 1, blocks := name :: progress.blocks },
        rfl, ?_, rfl⟩
      exact ⟨rfl, by simp, rfl, rfl⟩

theorem demands_rule (levels : Nat) (rule : Rule) (hvalued : rule.shape ≠ .valued 0) :
    Demands levels rule.shape.slots rule.opens.toList 0 (rule.check levels false) := by
  have hread : Demands levels rule.shape.slots [] 0
      (rule.shape.read levels >>= fun _ => pure ()) := by
    by_cases hbare : rule.shape = .bare
    · rw [hbare]
      exact demands_pure levels
    · refine (readsSlots_shape levels hbare hvalued).demands ?_
      intro hnone
      cases hshape : rule.shape <;> simp_all [Shape.slots]
  have hrule := hread.after (rule_check rule levels)
  rwa [List.append_nil] at hrule

/-! ## Bytes -/

theorem skips_solid (keep : Bool) : Skips (solid keep) where
  zero _ := rfl
  error hat hc herror := (solid_filler hat hc).trans herror
  ok hat hc hok _ := (solid_filler hat hc).trans hok

theorem solid_back (hat : progress.At (gap ++ c :: rest)) (hgap : Loose levels gap)
    (hc : ¬ isFiller [c]) :
    ∃ middle, (∀ next : List Char → Linting Unit,
        (solids levels 1 false >>= next) progress = next [c] middle) ∧
      middle.At (c :: rest) ∧ Moved progress middle gap [] 0 1 := by
  obtain ⟨fewer, rfl⟩ : ∃ fewer, levels = fewer + 1 + gap.length :=
    ⟨levels - gap.length - 1, by have := hgap.2; omega⟩
  have hfound : solid false (fewer + 1 + gap.length) progress = _ :=
    (skips_solid false).ok_gap hgap.1 hat (solid_found false hat.reads hc) hat.reads.again
  refine ⟨_, fun next => bind_of_ok (bind_of_ok hfound), hat.reads.again, ?_⟩
  have hmoved := (moved_reads progress gap).trans (moved_reads (progress.reads gap) [c])
  refine ⟨?_, hmoved.depth, hmoved.blocks, ?_⟩
  · have hline : [c].count '\n' = 0 :=
      List.count_eq_zero.mpr (by simpa using Ne.symm (ne_lineFeed_of_not_filler hc))
    have hcount := hmoved.line
    rwa [List.count_append, hline] at hcount
  · change (#[c] ++ (progress.reads gap).cursor.text).size = _
    rw [Array.size_append, Progress.reads_text, Nat.add_comm]
    rfl

theorem checkImmediate_byte (hat : progress.At (gap ++ c :: rest)) (hgap : Loose levels gap)
    (hc : ¬ isFiller [c]) (hquote : ¬ isQuote c) :
    ∃ middle, checkImmediate levels false progress =
        (number levels 2 true >>= fun _ => pure ()) middle ∧
      middle.At (c :: rest) ∧ Moved progress middle gap [] 0 1 := by
  obtain ⟨middle, hsolid, hmiddle, hmoved⟩ := solid_back hat hgap hc
  refine ⟨middle, ?_, hmiddle, hmoved⟩
  have hmarks : ¬ ([c] = ['\x22'] ∨ [c] = ['\x27']) := by simpa [isQuote] using hquote
  unfold checkImmediate
  rw [hsolid, if_neg hmarks]
  rfl

theorem checkImmediate_tooDeep (hat : progress.At (gap ++ rest)) (hgap : Filling gap)
    (hlong : levels ≤ gap.length) :
    ∃ after, checkImmediate levels false progress = .error .tooDeep after := by
  obtain ⟨after, herror⟩ := (skips_solid false).tooDeep hgap hat hlong
  exact ⟨after, bind_of_error (bind_of_error herror)⟩

theorem digits_not_quote : digits.all fun c => !isQuote c := by
  decide +kernel

theorem not_isQuote_of_digit {c : Char} (h : c ∈ digits) : ¬ isQuote c := by
  simpa using List.all_eq_true.mp digits_not_quote c h

theorem exists_solid {more : List Char} {d : Char} (hmore : ∀ c ∈ more.head?, isStray c)
    (hd : d ∈ digits) (text : List Char) :
    ∃ c left, more ++ d :: text = c :: left ∧ ¬ isFiller [c] ∧ ¬ isQuote c := by
  cases more with
  | nil => exact ⟨d, text, rfl, not_isFiller_of_digit hd, not_isQuote_of_digit hd⟩
  | cons c more =>
      obtain ⟨hc, -, -, hquote⟩ := isStray_iff.mp (hmore c rfl)
      exact ⟨c, _, rfl, hc, hquote⟩

theorem eq_nil_of_filling {more : List Char} (hmore : ∀ c ∈ more.head?, isStray c)
    (h : Filling more) : more = [] := by
  cases more with
  | nil => rfl
  | cons c more => exact absurd (h c List.mem_cons_self) (isStray_iff.mp (hmore c rfl)).1

theorem demands_byte (levels : Nat) :
    Demands levels [digits, digits] [] 1 (checkImmediate levels false) := by
  have hnumber : Demands levels [digits, digits] [] 0 (number levels 2 true >>= fun _ => pure ()) :=
    (readsSlots_number levels 2 true).demands (by simp)
  constructor
  · intro progress pieces tail hfills hat hhead hloose htail
    cases hfills with
    | @cons _ _ pieces gap d hd hfills =>
        rw [List.forall_mem_cons] at hloose
        have hshort : Loose levels [] := ⟨by simp [Filling], Nat.zero_lt_of_lt hloose.1.2⟩
        obtain ⟨middle, heq, hmiddle, hmoved⟩ := checkImmediate_byte hat.operand.1 hloose.1
          (not_isFiller_of_digit hd) (not_isQuote_of_digit hd)
        have hagain : Fills [digits, digits] (([], [d]) :: pieces) := .cons [] hd hfills
        obtain ⟨after, hok, hafter, hmoved'⟩ := hnumber.ok hagain (by simpa using hmiddle) hhead
          (List.forall_mem_cons.mpr ⟨hshort, hloose.2⟩) (fun _ => htail (by simp))
        refine ⟨after, heq.trans hok, hafter, ?_⟩
        simpa using hmoved.trans hmoved'
  · intro progress pieces tail hfills hfair hat hhead hbad
    cases hfills with
    | @cons _ _ pieces gap d hd hfills =>
        simp only [List.forall_mem_cons] at hfair hbad ⊢
        obtain ⟨hgap, -⟩ := hat.operand
        obtain ⟨before, more, rfl, hbefore, hmore⟩ := hfair.1.split
        rw [List.append_assoc] at hgap
        by_cases hlong : levels ≤ before.length
        · obtain ⟨after, herror⟩ := checkImmediate_tooDeep hgap hbefore hlong
          exact ⟨_, after, herror, fun _ _ => rfl⟩
        -- The number is read from where the fillers end, with what is left of the gap.
        obtain ⟨c, left, hleft, hc, hquote⟩ := exists_solid hmore hd (spell pieces ++ tail)
        have hshort : Loose levels before := ⟨hbefore, Nat.lt_of_not_le hlong⟩
        rw [hleft] at hgap
        obtain ⟨middle, heq, hmiddle, -⟩ := checkImmediate_byte hgap hshort hc hquote
        rw [← hleft] at hmiddle
        have hbad' : ¬ ((∀ piece ∈ (more, [d]) :: pieces, Loose levels piece.1) ∧
            ((more, [d]) :: pieces ≠ [] → tail ≠ [])) := by
          rintro ⟨hloose, htail⟩
          rw [List.forall_mem_cons] at hloose
          obtain rfl := eq_nil_of_filling hmore hloose.1.1
          exact hbad ⟨⟨by simpa using hshort, hloose.2⟩, fun _ => htail (by simp)⟩
        obtain ⟨stop, after, herror, hstop⟩ := hnumber.error (.cons more hd hfills)
          (List.forall_mem_cons.mpr ⟨fair_of_head hmore, hfair.2⟩) (by simpa using hmiddle) hhead
          hbad'
        refine ⟨stop, after, heq.trans herror, fun hfilling => hstop ?_⟩
        exact List.forall_mem_cons.mpr
          ⟨fun c hc => hfilling.1 c (List.mem_append_right before hc), hfilling.2⟩

/-! ## Instructions -/

theorem rule?_immediate (edition : Edition) :
    (rule? edition "DPI".toList).isNone ∧ (rule? edition "DPM".toList).isNone := by
  cases edition <;> decide

theorem checkMnemonic_rule {mnemonic : List Char} {rule : Rule}
    (h : rule? edition mnemonic = some rule) :
    checkMnemonic edition levels false mnemonic = rule.check levels false := by
  obtain ⟨hbyte, htext⟩ := rule?_immediate edition
  have hbyte' : mnemonic ≠ "DPI".toList := by
    rintro rfl
    rw [h] at hbyte
    cases hbyte
  have htext' : ¬ (mnemonic = "DPM".toList ∧ edition = .extended) := by
    rintro ⟨rfl, -⟩
    rw [h] at htext
    cases htext
  rw [checkMnemonic, if_neg hbyte', if_neg htext', h]

def outline? (edition : Edition) (mnemonic : List Char) : Option (Shape × Option String) :=
  (rule? edition mnemonic).map fun rule => (rule.shape, rule.opens)

theorem demands_named {mnemonic : List Char} {shape : Shape} {opens : Option String}
    (h : outline? edition mnemonic = some (shape, opens)) (hshape : shape ≠ .valued 0) :
    Demands levels shape.slots opens.toList 0 (checkMnemonic edition levels false mnemonic) := by
  obtain ⟨rule, hrule, hpair⟩ := Option.map_eq_some_iff.mp h
  cases hpair
  rw [checkMnemonic_rule hrule]
  exact demands_rule levels rule hshape

theorem checkMnemonic_unknown {mnemonic : List Char} (hrule : rule? edition mnemonic = none)
    (hbyte : mnemonic ≠ "DPI".toList) (progress : Progress) :
    ∃ after, after.cursor = progress.cursor ∧ Moved progress after [] [] 0 0 ∧
      checkMnemonic edition levels false mnemonic progress = .ok () after := by
  rw [checkMnemonic, if_neg hbyte, hrule]
  split
  · refine ⟨{ progress with printed := (textWarning ++ "\n") :: progress.printed }, rfl, ?_, rfl⟩
    exact ⟨rfl, by simp, rfl, rfl⟩
  · exact ⟨progress, rfl, .refl progress, rfl⟩

theorem demands_unknown {mnemonic : List Char} (hrule : rule? edition mnemonic = none)
    (hbyte : mnemonic ≠ "DPI".toList) :
    Demands levels [] [] 0 (checkMnemonic edition levels false mnemonic) :=
  (demands_pure levels).after (checkMnemonic_unknown hrule hbyte)

/-- Three characters of which the first is no filler, or the one name of two. -/
def isMnemonic : Token → Bool
  | [a, b] => a = 'I' ∧ b = 'F'
  | [a, b, _] => !isFiller [a] && !(a = 'I' ∧ b = 'F')
  | _ => false

def isRegular (entry : List Char × Rule) : Bool :=
  isMnemonic entry.1 && entry.1.head?.all (fun c => !digits.contains c) &&
    entry.2.shape != .valued 0 && (entry.1 != "IF".toList || entry.2.shape != .bare)

theorem rule?_holds {mnemonic : List Char} {rule : Rule}
    {holds : Edition → List Char × Rule → Bool}
    (htables : basicRuleTable.all (holds .basic) ∧ extendedRuleTable.all (holds .extended))
    (h : rule? edition mnemonic = some rule) : holds edition (mnemonic, rule) := by
  have hmem : ∀ table : List (List Char × Rule), table.lookup mnemonic = some rule →
      (mnemonic, rule) ∈ table := by
    intro table hlookup
    obtain ⟨before, after, rfl, -⟩ := List.lookup_eq_some_iff.mp hlookup
    exact List.mem_append_right before List.mem_cons_self
  cases edition with
  | basic => exact List.all_eq_true.mp htables.1 _ (hmem _ h)
  | extended => exact List.all_eq_true.mp htables.2 _ (hmem _ h)

theorem rules_regular :
    basicRuleTable.all isRegular ∧ extendedRuleTable.all isRegular := by
  decide +kernel

theorem outline?_regular {mnemonic : List Char} {shape : Shape} {opens : Option String}
    (h : outline? edition mnemonic = some (shape, opens)) :
    isMnemonic mnemonic ∧ (∃ c rest, mnemonic = c :: rest ∧ c ∉ digits) ∧ shape ≠ .valued 0 ∧
      (mnemonic = "IF".toList → shape.slots ≠ []) := by
  obtain ⟨rule, hrule, hpair⟩ := Option.map_eq_some_iff.mp h
  cases hpair
  have hregular : isRegular (mnemonic, rule) :=
    @rule?_holds edition mnemonic rule (fun _ => isRegular) rules_regular hrule
  simp only [isRegular, Bool.and_eq_true, bne_iff_ne, ne_eq, Bool.or_eq_true] at hregular
  obtain ⟨⟨⟨hname, hletter⟩, hvalued⟩, hif⟩ := hregular
  refine ⟨hname, ?_, hvalued, ?_⟩
  · cases mnemonic with
    | nil => cases hname
    | cons c rest => exact ⟨c, rest, rfl, by simpa using hletter⟩
  · intro heq hslots
    cases hshape : rule.shape <;> simp_all [Shape.slots]

theorem checkNext_mnemonic {mnemonic : Token} (hname : isMnemonic mnemonic)
    (hrest : mnemonic = "IF".toList → rest ≠ []) (hat : progress.At (mnemonic ++ rest)) :
    ∃ middle, checkNext edition levels false progress =
        (checkMnemonic edition levels false mnemonic >>= fun _ => pure true) middle ∧
      middle.At rest ∧ Moved progress middle mnemonic [] 0 0 := by
  match mnemonic, hname with
  | [a, b], hname =>
      obtain ⟨rfl, rfl⟩ : a = 'I' ∧ b = 'F' := by simpa [isMnemonic] using hname
      obtain ⟨c, left, rfl⟩ := List.exists_cons_of_ne_nil (hrest rfl)
      exact ⟨_, checkNext_if hat, hat.advance, moved_two progress (by decide) 'F'⟩
  | [a, b, c], hname =>
      simp only [isMnemonic, Bool.and_eq_true, Bool.not_eq_true', decide_eq_false_iff_not] at hname
      obtain ⟨ha, hif⟩ := hname
      have hfiller : ¬ isFiller [a] := by simp [ha]
      have htwo : (progress.advance 2 [a, b]).At (c :: rest) :=
        Progress.At.advance (show progress.At ([a, b] ++ c :: rest) from hat)
      refine ⟨_, checkNext_group hat hfiller (by simpa using hif), htwo.advance_cons, ?_⟩
      exact (moved_two progress (ne_lineFeed_of_not_filler hfiller) b).trans (moved_reads _ [c])

section

variable {mnemonic : Token} {slots : List (List Char)} {opened : List String} {pushed : Nat}
variable {pieces : List (List Char × Token)} {tail : List Char}

theorem ne_nil_of_isMnemonic (h : isMnemonic mnemonic) : mnemonic ++ rest ≠ [] := by
  intro hnil
  rw [(List.append_eq_nil_iff.mp hnil).1] at h
  cases h

theorem Fills.text_ne_nil (h : Fills slots pieces) (hif : mnemonic = "IF".toList → slots ≠ []) :
    mnemonic = "IF".toList → spell pieces ++ tail ≠ [] := by
  intro hname
  cases h with
  | nil => exact absurd rfl (hif hname)
  | cons gap hc h => simp

theorem checkRest_instruction (hname : isMnemonic mnemonic)
    (hif : mnemonic = "IF".toList → slots ≠ [])
    (hdemands : Demands levels slots opened pushed (checkMnemonic edition levels false mnemonic))
    (hfills : Fills slots pieces) (hat : progress.At (mnemonic ++ (spell pieces ++ tail)))
    (hhead : ∀ c ∈ tail.head?, c ∉ digits) (hloose : ∀ piece ∈ pieces, Loose levels piece.1)
    (htail : pieces ≠ [] → tail ≠ []) :
    ∃ after, checkRest edition levels false progress = checkRest edition levels false after ∧
      after.At tail ∧ Moved progress after (mnemonic ++ spell pieces) opened 0 pushed := by
  obtain ⟨middle, hnext, hmiddle, hmoved⟩ :=
    @checkNext_mnemonic edition levels _ _ _ hname (hfills.text_ne_nil hif) hat
  obtain ⟨after, hok, hafter, hmoved'⟩ := hdemands.ok hfills hmiddle hhead hloose htail
  refine ⟨after, checkRest_next hat (ne_nil_of_isMnemonic hname) hnext hok, hafter, ?_⟩
  simpa using hmoved.trans hmoved'

theorem checkRest_instruction_error (hname : isMnemonic mnemonic)
    (hif : mnemonic = "IF".toList → slots ≠ [])
    (hdemands : Demands levels slots opened pushed (checkMnemonic edition levels false mnemonic))
    (hfills : Fills slots pieces) (hfair : ∀ piece ∈ pieces, Fair piece.1)
    (hat : progress.At (mnemonic ++ (spell pieces ++ tail)))
    (hhead : ∀ c ∈ tail.head?, c ∉ digits)
    (hbad : ¬ ((∀ piece ∈ pieces, Loose levels piece.1) ∧ (pieces ≠ [] → tail ≠ []))) :
    ∃ stop after, checkRest edition levels false progress = .error stop after ∧
      ((∀ piece ∈ pieces, Filling piece.1) → tail ≠ [] → stop = .tooDeep) := by
  obtain ⟨middle, hnext, hmiddle, -⟩ :=
    @checkNext_mnemonic edition levels _ _ _ hname (hfills.text_ne_nil hif) hat
  obtain ⟨stop, after, herror, hstop⟩ := hdemands.error hfills hfair hmiddle hhead hbad
  exact ⟨stop, after, checkRest_fails hat (ne_nil_of_isMnemonic hname) hnext herror, hstop⟩

end

/-! ## Gaps between instructions -/

/-- Fillers, and groups of three characters that are no mnemonic, in any order. -/
inductive Passable (edition : Edition) : List Char → Prop
  | nil : Passable edition []
  | filler {c : Char} {rest : List Char} (hc : isFiller [c]) (h : Passable edition rest) :
      Passable edition (c :: rest)
  | group {a b c : Char} {rest : List Char} (ha : ¬ isFiller [a]) (hif : [a, b] ≠ "IF".toList)
      (hbyte : [a, b, c] ≠ "DPI".toList) (hrule : rule? edition [a, b, c] = none)
      (h : Passable edition rest) : Passable edition (a :: b :: c :: rest)

theorem Filling.passable (h : Filling gap) : Passable edition gap := by
  induction gap with
  | nil => exact .nil
  | cons c gap ih =>
      exact .filler (h c List.mem_cons_self) (ih fun d hd => h d (List.mem_cons_of_mem c hd))

theorem checkRest_passable (hgap : Passable edition gap) (hat : progress.At (gap ++ rest)) :
    ∃ after, checkRest edition levels false progress = checkRest edition levels false after ∧
      after.At rest := by
  induction hgap generalizing progress with
  | nil => exact ⟨progress, rfl, hat⟩
  | filler hc _ ih =>
      obtain ⟨middle, hfirst, hmiddle, -⟩ := @checkRest_filler edition levels _ _ _ hat hc
      obtain ⟨after, hsecond, hafter⟩ := ih hmiddle
      exact ⟨after, hfirst.trans hsecond, hafter⟩
  | @group a b c gap ha hif hbyte hrule _ ih =>
      have hname : isMnemonic [a, b, c] := by
        simpa [isMnemonic, ha, Classical.or_iff_not_imp_left] using hif
      have hlong : [a, b, c] = "IF".toList → gap ++ rest ≠ [] := by simp
      obtain ⟨second, hnext, hsecond, -⟩ :=
        @checkNext_mnemonic edition levels _ _ _ hname hlong hat
      obtain ⟨middle, hcursor, -, hok⟩ := @checkMnemonic_unknown edition levels _ hrule hbyte second
      obtain ⟨after, hrest, hafter⟩ := ih (hsecond.of_cursor hcursor)
      exact ⟨after, (checkRest_next hat (by simp) hnext hok).trans hrest, hafter⟩

end

end BitAssembly.Lint
