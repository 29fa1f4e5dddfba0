import BitAssembly.Proofs.Lint.Instructions
import BitAssembly.Proofs.Source.Gaps

/-!
# Tokens with gaps between them

A laid out source is a row of tokens, each with a gap before it.  What a check
does with it is put together from what it does with its parts: it comes through
if each operand has a loose gap before it and some text behind it, and it fails
otherwise.
-/

namespace BitAssembly.Lint

open BitAssembly.Text
open BitAssembly.Source

def isOperand : Token → Bool
  | [c] => digits.contains c || signs.contains c
  | _ => false

/-- Each operand has a loose gap before it and some text behind it. -/
def Readable (levels : Nat) (tail : List Char) : List (List Char × Token) → Prop
  | [] => True
  | piece :: pieces =>
      (isOperand piece.2 → Loose levels piece.1 ∧ spell pieces ++ tail ≠ []) ∧
        Readable levels tail pieces

instance (levels : Nat) (gap : List Char) : Decidable (Loose levels gap) :=
  decidable_of_iff ((gap.all fun c => isFiller [c]) ∧ gap.length < levels)
    (and_congr_left' List.all_eq_true)

instance decidableReadable (levels : Nat) (tail : List Char) :
    ∀ pieces : List (List Char × Token), Decidable (Readable levels tail pieces)
  | [] => isTrue trivial
  | piece :: pieces =>
      have := decidableReadable levels tail pieces
      inferInstanceAs (Decidable ((isOperand piece.2 →
        Loose levels piece.1 ∧ spell pieces ++ tail ≠ []) ∧ Readable levels tail pieces))

/-- Blanks, and brackets that have no meaning. -/
def Clear (gap : List Char) : Prop :=
  ∀ c ∈ gap, isBlank c ∨ isGrouping c

instance (gap : List Char) : Decidable (Clear gap) :=
  decidable_of_iff (gap.all fun c => isBlank c || isGrouping c) (by simp [Clear])

/-- Gaps before mnemonics and closing brackets are passed over, and no other gap looks like an
operand. -/
def Laid (edition : Edition) (pieces : List (List Char × Token)) : Prop :=
  ∀ piece ∈ pieces, Fair piece.1 ∧ (¬ isOperand piece.2 → Passable edition piece.1)

section

variable {edition : Edition} {levels : Nat} {gap rest tail : List Char}
variable {pieces more : List (List Char × Token)}

theorem readable_append :
    Readable levels tail (pieces ++ more) ↔
      Readable levels (spell more ++ tail) pieces ∧ Readable levels tail more := by
  induction pieces with
  | nil => simp [Readable]
  | cons piece pieces ih =>
      simp only [List.cons_append, Readable, ih, spell_append, List.append_assoc, and_assoc]

theorem readable_operands (h : ∀ piece ∈ pieces, isOperand piece.2) :
    Readable levels tail pieces ↔
      (∀ piece ∈ pieces, Loose levels piece.1) ∧ (pieces ≠ [] → tail ≠ []) := by
  induction pieces with
  | nil => simp [Readable]
  | cons piece pieces ih =>
      rw [List.forall_mem_cons] at h
      have hends : spell pieces = [] → pieces = [] := by
        intro hnone
        cases pieces with
        | nil => rfl
        | cons next others =>
            have hnext := h.2 next List.mem_cons_self
            rw [spell_cons] at hnone
            simp only [List.append_eq_nil_iff] at hnone
            rw [hnone.2.1] at hnext
            cases hnext
      rw [Readable, ih h.2, List.forall_mem_cons]
      simp only [h.1, true_implies, ne_eq, List.append_eq_nil_iff, not_and, reduceCtorEq,
        not_false_eq_true]
      constructor
      · rintro ⟨⟨hloose, htext⟩, hothers, htail⟩
        refine ⟨⟨hloose, hothers⟩, fun htrail => ?_⟩
        by_cases hnone : pieces = []
        · subst hnone
          exact htext rfl htrail
        · exact htail hnone htrail
      · rintro ⟨⟨hloose, hothers⟩, htail⟩
        exact ⟨⟨hloose, fun _ => htail⟩, hothers, fun _ => htail⟩

theorem isFiller_of_clear {c : Char} (h : isBlank c ∨ isGrouping c) : isFiller [c] := by
  rcases h with hblank | hgroup
  · simp [isFiller, hblank]
  · simp only [isGrouping, Bool.or_eq_true, beq_iff_eq] at hgroup
    rcases hgroup with (rfl | rfl) | rfl <;> decide

theorem Clear.filling (h : Clear gap) : Filling gap :=
  fun c hc => isFiller_of_clear (h c hc)

theorem Clear.count_close (h : Clear gap) : gap.count ']' = 0 := by
  rw [List.count_eq_zero]
  intro hmem
  exact absurd (h ']' hmem) (by decide)

theorem isStray_of_curly {c : Char} (h : isCurly edition c) : isStray c := by
  simp only [isCurly, Bool.and_eq_true, Bool.or_eq_true, beq_iff_eq] at h
  rcases h.2 with rfl | rfl <;> decide

theorem Fair.cons_filler {c : Char} (hc : isFiller [c]) (h : Fair gap) : Fair (c :: gap) := by
  simpa [Fair, hc] using h

theorem fair_of_gap (h : Gap edition gap) : Fair gap := by
  induction h with
  | nil => exact fair_of_head (by simp)
  | blank hc _ ih => exact ih.cons_filler (isFiller_of_clear (.inl hc))
  | bracket hc _ ih =>
      rcases hc with hgroup | hcurly
      · exact ih.cons_filler (isFiller_of_clear (.inr hgroup))
      · exact fair_of_head (by simpa using isStray_of_curly hcurly)
  | comment text _ _ _ => exact fair_of_head (by simp; decide)

/-! ## Parts of a layout -/

def Starts (tokens : List Token) : Prop :=
  ∀ token ∈ tokens.head?, ∃ c rest, token = c :: rest ∧ c ∉ digits

/-- What a check does with these tokens, laid out in any way, where the text goes on with
anything but a digit. -/
structure Treats (edition : Edition) (levels : Nat) (tokens : List Token) (opened : List String)
    (closed pushed : Nat) : Prop where
  starts : Starts tokens
  ok : ∀ {progress : Progress} {pieces : List (List Char × Token)} {tail : List Char},
    pieces.map Prod.snd = tokens → Laid edition pieces → progress.At (spell pieces ++ tail) →
    (∀ c ∈ tail.head?, c ∉ digits) → Readable levels tail pieces →
    ∃ after, checkRest edition levels false progress = checkRest edition levels false after ∧
      after.At tail ∧ ((∀ piece ∈ pieces, Clear piece.1) →
        Moved progress after (spell pieces) opened closed pushed)
  error : ∀ {progress : Progress} {pieces : List (List Char × Token)} {tail : List Char},
    pieces.map Prod.snd = tokens → Laid edition pieces → progress.At (spell pieces ++ tail) →
    (∀ c ∈ tail.head?, c ∉ digits) → ¬ Readable levels tail pieces →
    ∃ stop after, checkRest edition levels false progress = .error stop after ∧
      ((∀ piece ∈ pieces, Clear piece.1) → tail ≠ [] → stop = .tooDeep)

theorem Starts.head_not_digit (h : Starts (pieces.map Prod.snd)) (hlaid : Laid edition pieces)
    (htail : ∀ c ∈ tail.head?, c ∉ digits) : ∀ c ∈ (spell pieces ++ tail).head?, c ∉ digits := by
  cases pieces with
  | nil => exact htail
  | cons piece pieces =>
      obtain ⟨gap, token⟩ := piece
      obtain ⟨c, rest, rfl, hc⟩ := h token rfl
      cases gap with
      | nil => simpa using hc
      | cons d gap =>
          have hfair : Fair (d :: gap) := (hlaid _ List.mem_cons_self).1
          simpa using hfair.head_not_digit

theorem treats_nil (edition : Edition) (levels : Nat) : Treats edition levels [] [] 0 0 where
  starts := by simp [Starts]
  ok {progress pieces tail} htokens _ hat _ _ := by
    rw [List.map_eq_nil_iff] at htokens
    subst htokens
    exact ⟨progress, rfl, hat, fun _ => .refl progress⟩
  error {progress pieces tail} htokens _ _ _ hbad := by
    rw [List.map_eq_nil_iff] at htokens
    subst htokens
    exact absurd trivial hbad

theorem Treats.append {first second : List Token} {opened names : List String}
    {closed ends pushed again : Nat} (hfirst : Treats edition levels first opened closed pushed)
    (hsecond : Treats edition levels second names ends again) :
    Treats edition levels (first ++ second) (opened ++ names) (closed + ends) (pushed + again) where
  starts := by
    cases first with
    | nil => exact hsecond.starts
    | cons token tokens => exact hfirst.starts
  ok {progress pieces tail} htokens hlaid hat hhead hreadable := by
    obtain ⟨before, behind, rfl, rfl, rfl⟩ := List.map_eq_append_iff.mp htokens
    obtain ⟨hbefore, hbehind⟩ := List.forall_mem_append.mp hlaid
    obtain ⟨hfine, hothers⟩ := readable_append.mp hreadable
    rw [spell_append, List.append_assoc] at hat
    have hmiddle := hsecond.starts.head_not_digit hbehind hhead
    obtain ⟨middle, heq, hat', hmoved⟩ := hfirst.ok rfl hbefore hat hmiddle hfine
    obtain ⟨after, heq', hafter, hmoved'⟩ := hsecond.ok rfl hbehind hat' hhead hothers
    refine ⟨after, heq.trans heq', hafter, fun hclear => ?_⟩
    rw [List.forall_mem_append] at hclear
    rw [spell_append]
    exact (hmoved hclear.1).trans (hmoved' hclear.2)
  error {progress pieces tail} htokens hlaid hat hhead hbad := by
    obtain ⟨before, behind, rfl, rfl, rfl⟩ := List.map_eq_append_iff.mp htokens
    obtain ⟨hbefore, hbehind⟩ := List.forall_mem_append.mp hlaid
    rw [readable_append] at hbad
    rw [spell_append, List.append_assoc] at hat
    have hmiddle := hsecond.starts.head_not_digit hbehind hhead
    -- The first part that is not readable is the one that fails.
    by_cases hfine : Readable levels (spell behind ++ tail) before
    · obtain ⟨middle, heq, hat', -⟩ := hfirst.ok rfl hbefore hat hmiddle hfine
      obtain ⟨stop, after, herror, hstop⟩ :=
        hsecond.error rfl hbehind hat' hhead fun hothers => hbad ⟨hfine, hothers⟩
      refine ⟨stop, after, heq.trans herror, fun hclear => hstop ?_⟩
      exact (List.forall_mem_append.mp hclear).2
    · obtain ⟨stop, after, herror, hstop⟩ := hfirst.error rfl hbefore hat hmiddle hfine
      refine ⟨stop, after, herror, fun hclear htail => hstop ?_ ?_⟩
      · exact (List.forall_mem_append.mp hclear).1
      · exact List.append_ne_nil_of_right_ne_nil _ htail

theorem checkRest_gap {progress : Progress} (hgap : Passable edition gap)
    (hat : progress.At (gap ++ rest)) :
    ∃ after, checkRest edition levels false progress = checkRest edition levels false after ∧
      after.At rest ∧ (Clear gap → Moved progress after gap [] 0 0) := by
  by_cases hclear : Clear gap
  · obtain ⟨after, heq, hafter, hmoved⟩ :=
      @checkRest_filling edition levels _ _ _ hat hclear.filling
    rw [hclear.count_close] at hmoved
    exact ⟨after, heq, hafter, fun _ => hmoved⟩
  · obtain ⟨after, heq, hafter⟩ := @checkRest_passable edition levels _ _ _ hgap hat
    exact ⟨after, heq, hafter, fun h => absurd h hclear⟩

/-- The check of a text comes down to the layout of the tokens in front, and to the check of the
text behind them. -/
theorem Treats.returns_iff {tokens : List Token} {opened : List String} {closed pushed : Nat}
    (h : Treats edition levels tokens opened closed pushed) (htokens : pieces.map Prod.snd = tokens)
    (hlaid : Laid edition pieces) (hhead : ∀ c ∈ tail.head?, c ∉ digits) :
    Returns (check edition levels false (.start (spell pieces ++ tail))) ↔
      Readable levels tail pieces ∧ Returns (check edition levels false (.start tail)) := by
  have hat := Progress.at_start (spell pieces ++ tail)
  rw [check_eq, check_eq]
  by_cases hreadable : Readable levels tail pieces
  · obtain ⟨after, heq, hafter, -⟩ := h.ok htokens hlaid hat hhead hreadable
    rw [heq, and_iff_right hreadable]
    exact returns_checkRest_iff hafter
  · obtain ⟨stop, after, herror, -⟩ := h.error htokens hlaid hat hhead hreadable
    rw [herror]
    simp [Returns, hreadable]

theorem returns_gap_iff (hgap : Passable edition gap) :
    Returns (check edition levels false (.start (gap ++ rest))) ↔
      Returns (check edition levels false (.start rest)) := by
  obtain ⟨after, heq, hafter⟩ :=
    @checkRest_passable edition levels _ _ _ hgap (Progress.at_start (gap ++ rest))
  rw [check_eq, check_eq, heq]
  exact returns_checkRest_iff hafter

def Suits (slots : List (List Char)) (operands : List Token) : Prop :=
  ∀ pieces : List (List Char × Token), pieces.map Prod.snd = operands → Fills slots pieces

theorem suits_nil : Suits [] [] := by
  intro pieces h
  rw [List.map_eq_nil_iff] at h
  subst h
  exact .nil

theorem Suits.cons {slot : List Char} {slots : List (List Char)} {operands : List Token} {c : Char}
    (hc : c ∈ slot) (h : Suits slots operands) : Suits (slot :: slots) ([c] :: operands) := by
  intro pieces hpieces
  obtain ⟨piece, others, rfl, hpiece, hothers⟩ := List.map_eq_cons_iff.mp hpieces
  obtain ⟨gap, token⟩ := piece
  cases hpiece
  exact .cons gap hc (h others hothers)

theorem Shape.slots_operands (shape : Shape) :
    ∀ slot ∈ shape.slots, slot = digits ∨ slot = signs := by
  cases shape with
  | valued count =>
      intro slot hslot
      rw [Shape.slots, List.mem_cons, List.mem_replicate] at hslot
      rcases hslot with rfl | ⟨-, rfl⟩ <;> exact .inl rfl
  | _ => simp [Shape.slots]

theorem Fills.isOperand {slots : List (List Char)} (h : Fills slots pieces)
    (hslots : ∀ slot ∈ slots, slot = digits ∨ slot = signs) :
    ∀ piece ∈ pieces, isOperand piece.2 := by
  induction h with
  | nil => simp
  | @cons slot slots pieces gap c hc _ ih =>
      rw [List.forall_mem_cons] at hslots ⊢
      refine ⟨?_, ih hslots.2⟩
      rcases hslots.1 with rfl | rfl <;> simp [Lint.isOperand, hc]

theorem not_isOperand_of_isMnemonic {token : Token} (h : isMnemonic token) : ¬ isOperand token := by
  match token, h with
  | [_, _], _ | [_, _, _], _ => simp [isOperand]

theorem treats_instruction {mnemonic : Token} {operands : List Token} {shape : Shape}
    {opened : List String} {pushed : Nat} (hname : isMnemonic mnemonic)
    (hletter : ∃ c rest, mnemonic = c :: rest ∧ c ∉ digits)
    (hif : mnemonic = "IF".toList → shape.slots ≠ [])
    (hdemands : Demands levels shape.slots opened pushed
      (checkMnemonic edition levels false mnemonic))
    (hsuits : Suits shape.slots operands) :
    Treats edition levels (mnemonic :: operands) opened 0 pushed := by
  -- The operands decide whether the layout is readable, since a mnemonic is none.
  have hsplit : ∀ {pieces : List (List Char × Token)} {tail : List Char} {gap : List Char},
      pieces.map Prod.snd = operands →
      (Readable levels tail ((gap, mnemonic) :: pieces) ↔
        (∀ piece ∈ pieces, Loose levels piece.1) ∧ (pieces ≠ [] → tail ≠ [])) := by
    intro pieces tail gap hpieces
    rw [Readable, readable_operands ((hsuits pieces hpieces).isOperand shape.slots_operands)]
    simp [not_isOperand_of_isMnemonic hname]
  refine ⟨by simpa [Starts] using hletter, ?_, ?_⟩
  · intro progress pieces tail htokens hlaid hat hhead hreadable
    obtain ⟨⟨gap, token⟩, others, rfl, hpiece, hothers⟩ := List.map_eq_cons_iff.mp htokens
    cases hpiece
    obtain ⟨hloose, htail⟩ := (hsplit hothers).mp hreadable
    have hgap := (hlaid _ List.mem_cons_self).2 (not_isOperand_of_isMnemonic hname)
    rw [spell_cons, List.append_assoc, List.append_assoc] at hat
    obtain ⟨middle, heq, hmiddle, hmoved⟩ := @checkRest_gap edition levels _ _ _ hgap hat
    obtain ⟨after, heq', hafter, hmoved'⟩ := checkRest_instruction hname hif hdemands
      (hsuits others hothers) hmiddle hhead hloose htail
    refine ⟨after, heq.trans heq', hafter, fun hclear => ?_⟩
    simpa using (hmoved (hclear _ List.mem_cons_self)).trans hmoved'
  · intro progress pieces tail htokens hlaid hat hhead hbad
    obtain ⟨⟨gap, token⟩, others, rfl, hpiece, hothers⟩ := List.map_eq_cons_iff.mp htokens
    cases hpiece
    rw [hsplit hothers] at hbad
    have hgap := (hlaid _ List.mem_cons_self).2 (not_isOperand_of_isMnemonic hname)
    have hfair : ∀ piece ∈ others, Fair piece.1 :=
      fun piece hpiece => (hlaid piece (List.mem_cons_of_mem _ hpiece)).1
    rw [spell_cons, List.append_assoc, List.append_assoc] at hat
    obtain ⟨middle, heq, hmiddle, -⟩ := @checkRest_gap edition levels _ _ _ hgap hat
    obtain ⟨stop, after, herror, hstop⟩ := checkRest_instruction_error hname hif hdemands
      (hsuits others hothers) hfair hmiddle hhead hbad
    refine ⟨stop, after, heq.trans herror, fun hclear => hstop fun piece hpiece => ?_⟩
    exact (hclear piece (List.mem_cons_of_mem _ hpiece)).filling

theorem treats_close (edition : Edition) (levels : Nat) :
    Treats edition levels [[']']] [] 1 0 := by
  have hnone : ¬ isOperand [']'] := by decide
  refine ⟨by simp [Starts]; decide, ?_, ?_⟩
  · intro progress pieces tail htokens hlaid hat _ _
    obtain ⟨⟨gap, token⟩, others, rfl, hpiece, hothers⟩ := List.map_eq_cons_iff.mp htokens
    cases hpiece
    rw [List.map_eq_nil_iff] at hothers
    subst hothers
    have hgap := (hlaid _ List.mem_cons_self).2 hnone
    have hclose : Filling [']'] := by
      simp only [Filling, List.forall_mem_singleton]
      decide
    rw [spell_cons, spell_nil, List.append_assoc, List.append_nil] at hat
    obtain ⟨middle, heq, hmiddle, hmoved⟩ := @checkRest_gap edition levels _ _ _ hgap hat
    obtain ⟨after, heq', hafter, hmoved'⟩ := @checkRest_filling edition levels _ _ _ hmiddle hclose
    refine ⟨after, heq.trans heq', hafter, fun hclear => ?_⟩
    simpa using (hmoved (hclear _ List.mem_cons_self)).trans hmoved'
  · intro progress pieces tail htokens hlaid hat hhead hbad
    obtain ⟨⟨gap, token⟩, others, rfl, hpiece, hothers⟩ := List.map_eq_cons_iff.mp htokens
    cases hpiece
    rw [List.map_eq_nil_iff] at hothers
    subst hothers
    simp [Readable, hnone] at hbad

end

end BitAssembly.Lint
