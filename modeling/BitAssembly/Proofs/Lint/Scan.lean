import BitAssembly.Proofs.Lint.Positions

/-!
# Numbers in a plain scan

A number is read by a reader that goes one level deeper for each filler, and that
looks at the next character on every level it comes back to.  All this is the same
as a plain scan: for each digit pass over the fillers before it, and look at the
next character once, behind the last digit.  A look on a deeper level fails only if
the text has ended, and then the scan fails at the same place for want of a digit
or of the character behind the last one.
-/

namespace BitAssembly.Lint

open BitAssembly.Bits

/-! ## The scan -/

/-- Scans the text that is unread for so many digits, after those of `found`; with `alone`, no
digit follows them. -/
def scan (alone : Bool) :
    Nat → List Char → List Char → Progress → EStateM.Result Stop Progress (List Char)
  | 0, [], _, progress => .error (.fault .endOfText) progress
  | 0, c :: _, found, progress =>
      if alone ∧ c ∈ digits then
        .error (.fault (.extraNumber progress.line progress.column)) progress
      else .ok found progress
  | count + 1, text, found, progress =>
      let there := progress.reads (text.takeWhile fun c => isFiller [c])
      match text.dropWhile fun c => isFiller [c] with
      | [] => .error (.fault .endOfText) there
      | c :: rest =>
          if c ∈ digits then scan alone count rest (found ++ [c]) (there.advance 1 [c])
          else .error (.fault (.notNumber there.line there.column)) (there.advance 1 [c])

section

variable {alone : Bool} {count : Nat} {gap rest found : List Char} {c : Char} {progress : Progress}

theorem takeWhile_gap (hgap : Filling gap) (hc : ¬ isFiller [c]) :
    (gap ++ c :: rest).takeWhile (fun c => isFiller [c]) = gap := by
  rw [List.takeWhile_append_of_pos hgap]
  simp [hc]

theorem dropWhile_gap (hgap : Filling gap) (hc : ¬ isFiller [c]) :
    (gap ++ c :: rest).dropWhile (fun c => isFiller [c]) = c :: rest := by
  rw [List.dropWhile_append_of_pos hgap]
  simp [hc]

theorem scan_filling (hgap : Filling gap) :
    scan alone (count + 1) gap found progress =
      .error (.fault .endOfText) (progress.reads gap) := by
  have htake := List.takeWhile_eq_self_iff.mpr hgap
  have hdrop := List.dropWhile_eq_nil_iff.mpr hgap
  simp only [scan, htake, hdrop]

theorem scan_digit (hgap : Filling gap) (hc : c ∈ digits) :
    scan alone (count + 1) (gap ++ c :: rest) found progress =
      scan alone count rest (found ++ [c]) (progress.reads (gap ++ [c])) := by
  have hfiller := not_isFiller_of_digit hc
  rw [Progress.reads_append]
  simp only [scan, takeWhile_gap hgap hfiller, dropWhile_gap hgap hfiller]
  exact if_pos hc

theorem scan_other (hgap : Filling gap) (hfiller : ¬ isFiller [c]) (hc : c ∉ digits) :
    scan alone (count + 1) (gap ++ c :: rest) found progress =
      .error (.fault (.notNumber (progress.reads gap).line (progress.reads gap).column))
        (progress.reads (gap ++ [c])) := by
  rw [Progress.reads_append]
  simp only [scan, takeWhile_gap hgap hfiller, dropWhile_gap hgap hfiller]
  exact if_neg hc

/-- At the end of the text it does not matter how many digits are missing. -/
theorem scan_nil (alone : Bool) (count : Nat) (found : List Char) (progress : Progress) :
    scan alone count [] found progress = .error (.fault .endOfText) progress := by
  cases count with
  | zero => rfl
  | succ count => exact scan_filling nofun

end

/-! ## One digit -/

section

variable {levels : Nat} {gap rest : List Char} {c : Char} {progress : Progress}

theorem Progress.At.behind (hat : progress.At (gap ++ c :: rest)) :
    (progress.reads (gap ++ [c])).At rest := by
  rw [List.append_cons] at hat
  exact hat.reads

theorem digit_filling (hgap : Loose levels gap) (hat : progress.At gap) :
    digit levels progress = .error (.fault .endOfText) (progress.reads gap) := by
  obtain ⟨hfilling, hshort⟩ := hgap
  obtain ⟨fewer, rfl⟩ : ∃ fewer, levels = fewer + 1 + gap.length :=
    ⟨levels - gap.length - 1, by omega⟩
  rw [← List.append_nil gap] at hat
  exact skips_digit.error_gap hfilling hat (bind_of_error hat.reads.take_nil)

theorem digit_other (hgap : Loose levels gap) (hfiller : ¬ isFiller [c]) (hc : c ∉ digits)
    (hat : progress.At (gap ++ c :: rest)) :
    digit levels progress =
      .error (.fault (.notNumber (progress.reads gap).line (progress.reads gap).column))
        (progress.reads (gap ++ [c])) := by
  obtain ⟨hfilling, hshort⟩ := hgap
  obtain ⟨fewer, rfl⟩ : ∃ fewer, levels = fewer + 1 + gap.length :=
    ⟨levels - gap.length - 1, by omega⟩
  rw [Progress.reads_append]
  refine skips_digit.error_gap hfilling hat ?_
  rw [digit, bind_of_ok hat.reads.take_cons, if_neg (mt (among_singleton digits c).mp hc),
    if_neg hfiller]
  rfl

theorem digit_behind (hgap : Loose levels gap) (hc : c ∈ digits)
    (hat : progress.At (gap ++ c :: rest)) :
    digit levels progress = .ok [c] (progress.reads (gap ++ [c])) ∨
      rest = [] ∧
        digit levels progress = .error (.fault .endOfText) (progress.reads (gap ++ [c])) := by
  obtain ⟨hfilling, hshort⟩ := hgap
  induction gap generalizing progress levels with
  | nil =>
      obtain ⟨fewer, rfl⟩ := Nat.exists_eq_add_one.mpr hshort
      exact .inl (digit_found hat hc)
  | cons d gap ih =>
      obtain ⟨fewer, rfl⟩ := Nat.exists_eq_add_one.mpr (Nat.zero_lt_of_lt hshort)
      obtain ⟨hd, hfilling⟩ := List.forall_mem_cons.mp hfilling
      have hinner := hat.advance_cons
      rcases ih hinner hfilling (Nat.lt_of_succ_lt_succ hshort) with hok | ⟨rfl, herror⟩
      · have hafter : (progress.reads (d :: gap ++ [c])).At rest := hat.behind
        cases rest with
        | nil =>
            -- The digit is there, but not the character behind it that this level looks at.
            have hdigit := mt (among_singleton digits d).mp (not_digit_of_isFiller hd)
            refine .inr ⟨rfl, ?_⟩
            rw [digit, bind_of_ok hat.take_cons, if_neg hdigit, if_pos hd, bind_of_ok hok]
            exact bind_of_error hafter.look_nil
        | cons e rest => exact .inl (skips_digit.ok hat hd hok hafter)
      · exact .inr ⟨rfl, skips_digit.error hat hd herror⟩

end

/-! ## Steps of the scan -/

/-- So many fillers stand in a row that the levels do not suffice. -/
def Buried (levels : Nat) (text : List Char) : Prop :=
  ∃ gap, gap <:+: text ∧ Filling gap ∧ levels ≤ gap.length

inductive Steps (levels : Nat) (text : List Char) (progress : Progress) :
    EStateM.Result Stop Progress (List Char) → Prop
  | deep {after : Progress} (h : Buried levels text) :
      Steps levels text progress (.error .tooDeep after)
  | stop {stop : Stop} {after : Progress}
      (h : ∀ alone count found, scan alone (count + 1) text found progress = .error stop after) :
      Steps levels text progress (.error stop after)
  | found {c : Char} {rest : List Char} {after : Progress} (hat : after.At rest)
      (hrest : rest <:+ text)
      (h : ∀ alone count found, scan alone (count + 1) text found progress =
        scan alone count rest (found ++ [c]) after) :
      Steps levels text progress (.ok [c] after)

section

variable {levels count : Nat} {alone : Bool} {text found : List Char} {progress : Progress}

theorem Buried.of_suffix {rest : List Char} (h : Buried levels rest) (hrest : rest <:+ text) :
    Buried levels text := by
  obtain ⟨gap, hgap, hfilling, hlong⟩ := h
  exact ⟨gap, hgap.trans hrest.isInfix, hfilling, hlong⟩

theorem not_buried_of_length (h : text.length < levels) : ¬ Buried levels text := by
  rintro ⟨gap, hgap, -, hlong⟩
  have hlength := hgap.length_le
  omega

theorem exists_gap (text : List Char) :
    ∃ gap rest, text = gap ++ rest ∧ Filling gap ∧ ∀ c ∈ rest.head?, ¬ isFiller [c] := by
  refine ⟨text.takeWhile fun c => isFiller [c], text.dropWhile fun c => isFiller [c],
    List.takeWhile_append_dropWhile.symm, ?_, ?_⟩
  · intro c hc
    have hfiller := List.mem_takeWhile_imp hc
    exact hfiller
  · intro c hc
    have hhead := List.head?_dropWhile_not (fun c => isFiller [c]) text
    rw [hc] at hhead
    simpa using hhead

theorem steps_digit (hat : progress.At text) :
    Steps levels text progress (digit levels progress) := by
  obtain ⟨gap, rest, rfl, hfilling, hhead⟩ := exists_gap text
  by_cases hshort : gap.length < levels
  swap
  · obtain ⟨after, herror⟩ := skips_digit.tooDeep hfilling hat (Nat.not_lt.mp hshort)
    rw [herror]
    exact .deep ⟨gap, (List.prefix_append gap rest).isInfix, hfilling, Nat.not_lt.mp hshort⟩
  have hloose : Loose levels gap := ⟨hfilling, hshort⟩
  cases rest with
  | nil =>
      rw [List.append_nil] at hat ⊢
      rw [digit_filling hloose hat]
      exact .stop fun _ _ _ => scan_filling hfilling
  | cons c rest =>
      have hfiller := hhead c rfl
      by_cases hc : c ∈ digits
      · rcases digit_behind hloose hc hat with hok | ⟨rfl, herror⟩
        · rw [hok]
          have hrest : rest <:+ gap ++ c :: rest :=
            (List.suffix_cons c rest).trans (List.suffix_append gap _)
          exact .found hat.behind hrest fun _ _ _ => scan_digit hfilling hc
        · rw [herror]
          exact .stop fun _ _ _ => (scan_digit hfilling hc).trans (scan_nil ..)
      · rw [digit_other hloose hfiller hc hat]
        exact .stop fun _ _ _ => scan_other hfilling hfiller hc

/-! ## Numbers -/

theorem Progress.at_rest (hstart : 0 ≤ progress.cursor.pos)
    (hend : progress.cursor.pos ≤ progress.cursor.text.size) :
    progress.At progress.cursor.rest := by
  refine ⟨progress.cursor.text.toList.take progress.cursor.pos.toNat, ?_, ?_⟩
  · rw [Cursor.rest, List.take_append_drop]
  · rw [List.length_take, Array.length_toList]
    omega

theorem endNumber_eq_scan (hat : progress.At text) :
    Journal.endNumber alone found progress = scan alone 0 text found progress := by
  cases text with
  | nil => exact bind_of_error hat.look_nil
  | cons c rest =>
      rw [endNumber_cons hat, scan]
      exact if_congr (by rw [Bool.and_eq_true, among_singleton, and_comm]) rfl rfl

theorem digitRun_eq_scan (hat : progress.At text) :
    (digitRun levels count found >>= Journal.endNumber alone) progress =
        scan alone count text found progress ∨
      Buried levels text ∧ ∃ after,
        (digitRun levels count found >>= Journal.endNumber alone) progress =
          .error .tooDeep after := by
  induction count generalizing text found progress with
  | zero => exact .inl (endNumber_eq_scan hat)
  | succ count ih =>
      have hnext : digitRun levels (count + 1) found >>= Journal.endNumber alone =
          digit levels >>= fun more =>
            digitRun levels count (found ++ more) >>= Journal.endNumber alone :=
        bind_assoc _ _ _
      have hsteps : Steps levels text progress (digit levels progress) := steps_digit hat
      rw [hnext]
      generalize hdigit : digit levels progress = result at hsteps
      cases hsteps with
      | deep hburied => exact .inr ⟨hburied, _, bind_of_error hdigit⟩
      | stop hscan => exact .inl ((bind_of_error hdigit).trans (hscan alone count found).symm)
      | found hafter hrest hscan =>
          rw [bind_of_ok hdigit, hscan]
          exact (ih hafter).imp_right fun ⟨hburied, hdeep⟩ => ⟨hburied.of_suffix hrest, hdeep⟩

end

/-- From any position in a text, the reader of numbers answers as the plain scan does, with the
same fault and at the same place, as long as there are more levels than fillers in a row.  With
fewer levels the only other answer is that these do not suffice. -/
theorem number_eq_scan (progress : Progress) (hstart : 0 ≤ progress.cursor.pos)
    (hend : progress.cursor.pos ≤ progress.cursor.text.size) (levels count : Nat) (alone : Bool) :
    let scanned := scan alone count progress.cursor.rest [] progress
    (¬ Buried levels progress.cursor.rest → number levels count alone progress = scanned) ∧
      (number levels count alone progress ≠ scanned →
        ∃ after, number levels count alone progress = .error .tooDeep after) := by
  intro scanned
  have hcases : number levels count alone progress = scanned ∨ _ :=
    digitRun_eq_scan (Progress.at_rest hstart hend)
  constructor
  · intro hshallow
    exact hcases.resolve_right fun hdeep => hshallow hdeep.1
  · intro hother
    exact (hcases.resolve_left hother).2

/-- A digit on the next line is found with what follows it.  The second one is found behind two
fillers, and each of their levels misses the character behind it. -/
theorem number_eq_scan_nested :
    let text := #['L', 'D', 'I', ' ', '(', '\n', '4', ' ', '[', 'e']
    let progress : Progress := ⟨⟨text, 3⟩, 1, 4, (1, 3), 0, [], []⟩
    0 ≤ progress.cursor.pos ∧ progress.cursor.pos ≤ progress.cursor.text.size ∧
      ¬ Buried 8 progress.cursor.rest ∧
      number 8 1 true progress = .ok ['4'] ⟨⟨text, 7⟩, 2, 2, (2, 1), 0, [], []⟩ ∧
      number 8 2 true progress =
        .error (.fault .endOfText) ⟨⟨text, 10⟩, 2, 5, (2, 4), 0, [], []⟩ := by
  intro text progress
  have hstart : 0 ≤ progress.cursor.pos := by decide
  have hend : progress.cursor.pos ≤ progress.cursor.text.size := by decide
  have hshallow : ¬ Buried 8 progress.cursor.rest := not_buried_of_length (by decide)
  have hnumber (count : Nat) := (number_eq_scan progress hstart hend 8 count true).1 hshallow
  have hrest : progress.cursor.rest = [' ', '(', '\n'] ++ '4' :: ([' ', '['] ++ ['e']) := by decide
  have hdigits : '4' ∈ digits ∧ 'e' ∈ digits ∧ ' ' ∉ digits := by decide +kernel
  have hfirst : Filling [' ', '(', '\n'] := List.all_eq_true.mp (by decide +kernel)
  have hsecond : Filling [' ', '['] := List.all_eq_true.mp (by decide +kernel)
  refine ⟨hstart, hend, hshallow, (hnumber 1).trans ?_, (hnumber 2).trans ?_⟩
  · rw [hrest, scan_digit hfirst hdigits.1]
    exact if_neg fun h => hdigits.2.2 h.2
  · rw [hrest, scan_digit hfirst hdigits.1, scan_digit hsecond hdigits.2.1, scan_nil]
    rfl

end BitAssembly.Lint
