import BitAssembly.Proofs.Lint.Positions

/-!
# Checks side by side

Two checks of one text that take the same steps are at the same place all the time,
and stop for the same reason.  What they have printed, and which blocks they have
named, does not matter for the readers of operands.
-/

namespace BitAssembly.Lint

/-! ## Two checks of one text -/

/-- The same place in the same text, with as many blocks open. -/
structure Progress.Level (progress other : Progress) : Prop where
  cursor : other.cursor = progress.cursor
  line : other.line = progress.line
  column : other.column = progress.column
  last : other.last = progress.last
  depth : other.depth = progress.depth

/-- Moreover the first check has a name for each open block. -/
structure Twins (progress other : Progress) : Prop extends progress.Level other where
  named : progress.depth ≤ progress.blocks.length

/-- A stop that is in order for a check: the text is at fault, or too deeply filled. -/
def Ordinary (stop : Stop) : Prop :=
  stop = .tooDeep ∨ stop = .fault .endOfText ∨ (place? stop).isSome

def Agreed {α : Type} (Post : α → List Char → Prop) :
    EStateM.Result Stop Progress α → EStateM.Result Stop Progress α → Prop :=
  Related (fun value after other => ∃ left, Post value left ∧ after.At left ∧ Twins after other)
    (Jointly Twins Ordinary) (fun _ => False)

def Together {α : Type} (first second : Linting α)
    (Post : List Char → α → List Char → Prop) : Prop :=
  ∀ ⦃progress other : Progress⦄ ⦃text : List Char⦄, Twins progress other → progress.At text →
    Agreed (Post text) (first progress) (second other)

section

variable {α β : Type} {text : List Char} {progress other : Progress}

theorem Agreed.ok {Post : α → List Char → Prop} {value : α} (hpost : Post value text)
    (hat : progress.At text) (htwins : Twins progress other) :
    Agreed Post (.ok value progress) (.ok value other) :=
  Related.ok ⟨text, hpost, hat, htwins⟩

theorem Agreed.error {Post : α → List Char → Prop} {stop : Stop} (hstop : Ordinary stop)
    (htwins : Twins progress other) : Agreed Post (.error stop progress) (.error stop other) :=
  Related.error ⟨rfl, htwins, hstop⟩

theorem Agreed.bind {Mid : α → List Char → Prop} {Post : β → List Char → Prop}
    {first second : Linting α} {next later : α → Linting β}
    (h : Agreed Mid (first progress) (second other))
    (hnext : ∀ value left after another, Mid value left → Twins after another → after.At left →
      Agreed Post (next value after) (later value another)) :
    Agreed Post ((first >>= next) progress) ((second >>= later) other) := by
  refine Related.bind h ?_
  rintro value after another - ⟨left, hmid, hat, htwins⟩
  exact hnext value left after another hmid htwins hat

theorem Agreed.mono {Post Weaker : α → List Char → Prop}
    {first second : EStateM.Result Stop Progress α} (h : Agreed Post first second)
    (hweaker : ∀ value left, Post value left → Weaker value left) :
    Agreed Weaker first second := by
  refine Related.mono h ?_ (fun _ _ _ _ hfailed => hfailed) fun _ => id
  rintro value after another ⟨left, hpost, hafter⟩
  exact ⟨left, hweaker value left hpost, hafter⟩

theorem Twins.advance (h : Twins progress other) (count : Int) (chars : List Char) :
    Twins (progress.advance count chars) (other.advance count chars) := by
  refine ⟨⟨?_, ?_, ?_, ?_, h.depth⟩, h.named⟩
  · change other.cursor.advance count = progress.cursor.advance count
    rw [h.cursor]
  · rw [Progress.advance_line, Progress.advance_line, h.line]
  · rw [Progress.advance_column, Progress.advance_column, h.column]
  · change (other.line, other.column) = (progress.line, progress.column)
    rw [h.line, h.column]

theorem Twins.again (h : Twins progress other) (c : Char) :
    Twins (progress.again c) (other.again c) := by
  refine ⟨⟨?_, h.line, h.column, h.last, h.depth⟩, h.named⟩
  change { other.cursor with text := #[c] ++ other.cursor.text } = _
  rw [h.cursor]
  rfl

theorem Twins.at (h : Twins progress other) (hat : progress.At text) : other.At text :=
  hat.of_cursor h.cursor

end

/-! ## Readers -/

theorem together_take : Together (take 1) (take 1) fun text value left =>
    ∃ c, text = c :: left ∧ value = [c] := by
  intro progress other text htwins hat
  cases text with
  | nil =>
      rw [hat.take_nil, (htwins.at hat).take_nil]
      exact .error (.inr (.inl rfl)) htwins
  | cons c rest =>
      rw [hat.take_cons, (htwins.at hat).take_cons]
      exact .ok ⟨c, rfl, rfl⟩ hat.advance_cons (htwins.advance 1 [c])

theorem together_look : Together (look 1) (look 1) fun text value left =>
    left = text ∧ ∃ c rest, text = c :: rest ∧ value = [c] := by
  intro progress other text htwins hat
  cases text with
  | nil =>
      rw [hat.look_nil, (htwins.at hat).look_nil]
      exact .error (.inr (.inl rfl)) htwins
  | cons c rest =>
      rw [hat.look_cons, (htwins.at hat).look_cons]
      exact .ok ⟨rfl, c, rest, rfl, rfl⟩ hat htwins

inductive ReadOff (levels : Nat) : Nat → List Char → List Char → List Char → Prop
  | nil (text : List Char) : ReadOff levels 0 text [] text
  | cons {gap text found left : List Char} {c : Char} {count : Nat} (hgap : Loose levels gap)
      (hc : c ∈ digits) (h : ReadOff levels count text found left) :
      ReadOff levels (count + 1) (gap ++ c :: text) (c :: found) left

theorem loose_nil (levels : Nat) : Loose (levels + 1) [] :=
  ⟨nofun, Nat.succ_pos levels⟩

theorem Loose.cons {levels : Nat} {gap : List Char} {c : Char} (h : Loose levels gap)
    (hc : isFiller [c]) : Loose (levels + 1) (c :: gap) :=
  ⟨List.forall_mem_cons.mpr ⟨hc, h.1⟩, Nat.succ_lt_succ h.2⟩

theorem together_digit (levels : Nat) : Together (digit levels) (digit levels)
    fun text value left => ∃ gap c, Loose levels gap ∧ c ∈ digits ∧
      text = gap ++ c :: left ∧ value = [c] := by
  induction levels with
  | zero =>
      intro progress other text htwins hat
      exact .error (.inl rfl) htwins
  | succ levels ih =>
      intro progress other text htwins hat
      refine (together_take htwins hat).bind ?_
      rintro _ left after another ⟨c, rfl, rfl⟩ htwins hat
      by_cases hc : among digits [c]
      · rw [if_pos hc]
        have hdigit := (among_singleton digits c).mp hc
        exact .ok ⟨[], c, loose_nil levels, hdigit, rfl, rfl⟩ hat htwins
      rw [if_neg hc]
      by_cases hfiller : isFiller [c]
      · rw [if_pos hfiller]
        refine (ih htwins hat).bind ?_
        rintro _ rest after another ⟨gap, d, hgap, hd, rfl, rfl⟩ htwins hat
        refine (together_look htwins hat).bind ?_
        rintro _ _ after another ⟨rfl, -⟩ htwins hat
        exact .ok ⟨c :: gap, d, hgap.cons hfiller, hd, rfl, rfl⟩ hat htwins
      · rw [if_neg hfiller]
        change Agreed _ (.error (.fault (.notNumber after.last.1 after.last.2)) after)
          (.error (.fault (.notNumber another.last.1 another.last.2)) another)
        rw [htwins.last]
        exact .error (.inr (.inr rfl)) htwins

theorem together_digitRun (levels count : Nat) (before : List Char) :
    Together (digitRun levels count before) (digitRun levels count before)
      fun text value left => ∃ found, value = before ++ found ∧
        ReadOff levels count text found left := by
  induction count generalizing before with
  | zero =>
      intro progress other text htwins hat
      exact .ok ⟨[], (List.append_nil before).symm, .nil text⟩ hat htwins
  | succ count ih =>
      intro progress other text htwins hat
      refine (together_digit levels htwins hat).bind ?_
      rintro _ left after another ⟨gap, c, hgap, hc, rfl, rfl⟩ htwins hat
      refine (ih (before ++ [c]) htwins hat).mono ?_
      rintro _ rest ⟨found, rfl, hfound⟩
      exact ⟨c :: found, by simp, .cons hgap hc hfound⟩

theorem together_number (levels count : Nat) (alone : Bool) :
    Together (number levels count alone) (number levels count alone)
      fun text value left => ReadOff levels count text value left ∧
        ∃ c rest, left = c :: rest ∧ (alone = true → c ∉ digits) := by
  intro progress other text htwins hat
  refine (together_digitRun levels count [] htwins hat).bind ?_
  rintro _ left after another ⟨found, rfl, hfound⟩ htwins hat
  refine (together_look htwins hat).bind ?_
  rintro _ _ after another ⟨rfl, c, rest, rfl, rfl⟩ htwins hat
  by_cases hextra : (among digits [c] && alone) = true
  · rw [if_pos hextra]
    change Agreed _ (.error (.fault (.extraNumber after.line after.column)) after)
      (.error (.fault (.extraNumber another.line another.column)) another)
    rw [htwins.line, htwins.column]
    exact .error (.inr (.inr rfl)) htwins
  · rw [if_neg hextra]
    refine .ok ⟨hfound, c, rest, rfl, ?_⟩ hat htwins
    rintro rfl hc
    exact hextra (by rw [Bool.and_true, among_singleton]; exact hc)

theorem together_sign (levels : Nat) : Together (sign levels) (sign levels)
    fun _ value _ => ∃ c ∈ signs, value = [c] := by
  induction levels with
  | zero =>
      intro progress other text htwins hat
      exact .error (.inl rfl) htwins
  | succ levels ih =>
      intro progress other text htwins hat
      refine (together_take htwins hat).bind ?_
      rintro _ left after another ⟨c, rfl, rfl⟩ htwins hat
      by_cases hc : among signs [c]
      · rw [if_pos hc]
        exact .ok ⟨c, (among_singleton signs c).mp hc, rfl⟩ hat htwins
      rw [if_neg hc]
      by_cases hfiller : isFiller [c]
      · rw [if_pos hfiller]
        exact ih htwins hat
      · rw [if_neg hfiller]
        change Agreed _ (.error (.fault (.notComparison after.last.1 after.last.2)) after)
          (.error (.fault (.notComparison another.last.1 another.last.2)) another)
        rw [htwins.last]
        exact .error (.inr (.inr rfl)) htwins

theorem together_solid (levels : Nat) : Together (solid false levels) (solid false levels)
    fun text value left => ∃ gap c rest, Loose levels gap ∧ ¬ isFiller [c] ∧
      text = gap ++ c :: rest ∧ value = [c] ∧ left = c :: rest := by
  induction levels with
  | zero =>
      intro progress other text htwins hat
      exact .error (.inl rfl) htwins
  | succ levels ih =>
      intro progress other text htwins hat
      have hother := htwins.at hat
      cases text with
      | nil =>
          rw [solid, bind_of_error hat.take_nil, bind_of_error hother.take_nil]
          exact .error (.inr (.inl rfl)) htwins
      | cons c rest =>
          by_cases hc : isFiller [c]
          · rw [solid_filler hat hc, solid_filler hother hc]
            refine (ih (htwins.advance 1 [c]) hat.advance_cons).mono ?_
            rintro _ _ ⟨gap, d, left, hgap, hd, rfl, rfl, rfl⟩
            exact ⟨c :: gap, d, left, hgap.cons hc, hd, rfl, rfl, rfl⟩
          · rw [solid_found false hat hc, solid_found false hother hc]
            exact .ok ⟨[], c, rest, loose_nil levels, hc, rfl, rfl, rfl⟩ hat.again
              ((htwins.advance 1 [c]).again c)

/-! ## Operands -/

section

variable {levels count : Nat} {text found left : List Char}

theorem ReadOff.one (h : ReadOff levels 1 text found left) :
    ∃ gap c, Loose levels gap ∧ c ∈ Lint.digits ∧ found = [c] ∧ text = gap ++ c :: left := by
  cases h with
  | @cons gap _ _ _ c _ hgap hc h =>
      cases h
      exact ⟨gap, c, hgap, hc, rfl, rfl⟩

theorem ReadOff.two (h : ReadOff levels 2 text found left) :
    ∃ gap c middle d, Loose levels gap ∧ Loose levels middle ∧ c ∈ Lint.digits ∧
      d ∈ Lint.digits ∧ found = [c, d] ∧ text = gap ++ c :: (middle ++ d :: left) := by
  cases h with
  | @cons gap _ _ _ c _ hgap hc h =>
      obtain ⟨middle, d, hmiddle, hd, rfl, rfl⟩ := h.one
      exact ⟨gap, c, middle, d, hgap, hmiddle, hc, hd, rfl, rfl⟩

theorem ReadOff.digits (h : ReadOff levels count text found left) :
    found.length = count ∧ ∀ c ∈ found, c ∈ digits := by
  induction h with
  | nil text => exact ⟨rfl, nofun⟩
  | cons hgap hc h ih =>
      exact ⟨congrArg (· + 1) ih.1, List.forall_mem_cons.mpr ⟨hc, ih.2⟩⟩

end

/-- The operands are of this shape, as far as it matters for telling them. -/
def Shape.Fitting (operands : Operands) : Shape → Prop
  | .bare | .pair => True
  | .single => ∃ c ∈ digits, operands.first = [c]
  | .valued count => operands.second.length = count ∧ ∀ c ∈ operands.second, c ∈ digits
  | .compared => ∃ c ∈ signs, operands.sign = [c]

theorem together_shape (levels : Nat) (shape : Shape) :
    Together (shape.read levels) (shape.read levels)
      fun _ operands _ => shape.Fitting operands := by
  intro progress other text htwins hat
  cases shape with
  | bare => exact .ok trivial hat htwins
  | single =>
      refine (together_number levels 1 true htwins hat).bind ?_
      rintro _ left after another ⟨hfound, -⟩ htwins hat
      obtain ⟨gap, c, -, hc, rfl, -⟩ := hfound.one
      exact .ok ⟨c, hc, rfl⟩ hat htwins
  | pair =>
      refine (together_number levels 2 true htwins hat).bind ?_
      rintro _ left after another ⟨hfound, -⟩ htwins hat
      obtain ⟨gap, c, middle, d, -, -, -, -, rfl, -⟩ := hfound.two
      exact .ok trivial hat htwins
  | valued count =>
      refine (together_number levels 1 false htwins hat).bind ?_
      rintro _ left after another - htwins hat
      refine (together_number levels count true htwins hat).bind ?_
      rintro _ rest after another ⟨hfound, -⟩ htwins hat
      exact .ok hfound.digits hat htwins
  | compared =>
      refine (together_number levels 1 true htwins hat).bind ?_
      rintro _ left after another - htwins hat
      refine (together_sign levels htwins hat).bind ?_
      rintro _ rest after another hsign htwins hat
      refine (together_number levels 1 true htwins hat).bind ?_
      rintro _ rest after another - htwins hat
      exact .ok hsign hat htwins

end BitAssembly.Lint
