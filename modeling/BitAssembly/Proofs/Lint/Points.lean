import BitAssembly.Proofs.Lint.Journal

/-!
# Points of a check

At every point of a check its text is the source behind the characters that were put
back, one for each look-ahead, and the position divides the source into a consumed
part and the rest.  Lines are counted in the consumed part.  So are columns, but a
character that was put back is counted twice.
-/

namespace BitAssembly.Lint

/-! ## Lines and columns -/

def sinceBreak (chars : List Char) : Nat :=
  (chars.reverse.takeWhile (· ≠ '\n')).length

theorem sinceBreak_append (chars : List Char) {more : List Char} (h : '\n' ∉ more) :
    sinceBreak (chars ++ more) = sinceBreak chars + more.length := by
  have hmore : ∀ c ∈ more.reverse, decide (c ≠ '\n') = true := by
    intro c hc
    refine decide_eq_true ?_
    rintro rfl
    exact h (List.mem_reverse.mp hc)
  rw [sinceBreak, List.reverse_append, List.takeWhile_append_of_pos hmore, List.length_append,
    List.length_reverse, Nat.add_comm]
  rfl

theorem sinceBreak_break (chars : List Char) : sinceBreak (chars ++ ['\n']) = 0 := by
  simp [sinceBreak]

/-- The position divides the source into a consumed part and the rest; so many characters have
been put back, and so many of them are counted in the column. -/
structure Progress.Sited (progress : Progress) (source : List Char) (pushed recent : Nat)
    (consumed unread : List Char) : Prop where
  split : source = consumed ++ unread
  text : ∃ back : List Char, back.length = pushed ∧ progress.cursor.text.toList = back ++ source
  pos : progress.cursor.pos = (pushed + consumed.length : Nat)
  line : progress.line = 1 + consumed.count '\n'
  column : progress.column = (1 + sinceBreak consumed + recent : Nat)

section

variable {progress after : Progress} {source consumed unread front rest : List Char} {c : Char}
variable {pushed recent : Nat}

theorem Progress.Sited.at (h : progress.Sited source pushed recent consumed unread) :
    progress.At unread := by
  obtain ⟨back, hback, htext⟩ := h.text
  refine ⟨back ++ consumed, ?_, ?_⟩
  · rw [htext, h.split, List.append_assoc]
  · rw [h.pos, List.length_append, hback]

theorem Progress.sited_start (source : List Char) :
    (Progress.start source).Sited source 0 0 [] source :=
  ⟨rfl, ⟨[], rfl, rfl⟩, rfl, rfl, rfl⟩

theorem Progress.Sited.of_same (h : progress.Sited source pushed recent consumed unread)
    (hsame : progress.SamePlace after) : after.Sited source pushed recent consumed unread :=
  ⟨h.split, hsame.cursor ▸ h.text, hsame.cursor ▸ h.pos, hsame.line ▸ h.line,
    hsame.column ▸ h.column⟩

theorem Progress.advance_line (progress : Progress) (count : Int) (chars : List Char) :
    (progress.advance count chars).line =
      if chars.contains '\n' then progress.line + 1 else progress.line :=
  rfl

theorem Progress.advance_column (progress : Progress) (count : Int) (chars : List Char) :
    (progress.advance count chars).column =
      if chars.contains '\n' then 1 else progress.column + count :=
  rfl

theorem Progress.Sited.advance
    (h : progress.Sited source pushed recent consumed (front ++ c :: rest))
    (hfront : '\n' ∉ front) :
    (progress.advance (front ++ [c]).length (front ++ [c])).Sited source pushed
      (if c = '\n' then 0 else recent) (consumed ++ (front ++ [c])) rest := by
  have hsplit : source = consumed ++ (front ++ [c]) ++ rest := by
    rw [h.split]
    simp
  have hpos : progress.cursor.pos + ((front ++ [c]).length : Nat) =
      (pushed + (consumed ++ (front ++ [c])).length : Nat) := by
    rw [h.pos, @List.length_append _ consumed]
    omega
  have hcount : (consumed ++ (front ++ [c])).count '\n' =
      consumed.count '\n' + if c = '\n' then 1 else 0 := by
    simp [List.count_append, List.count_eq_zero_of_not_mem hfront, List.count_singleton]
  by_cases hc : c = '\n'
  · have hbreaks : (front ++ [c]).contains '\n' = true := by simp [hc]
    refine ⟨hsplit, h.text, hpos, ?_, ?_⟩
    · rw [advance_line, if_pos hbreaks, hcount, if_pos hc, h.line, Nat.add_assoc]
    · rw [advance_column, if_pos hbreaks, if_pos hc, hc, ← List.append_assoc, sinceBreak_break]
      rfl
  · have hmore : '\n' ∉ front ++ [c] := by simpa [hfront] using Ne.symm hc
    have hbreaks : ¬ (front ++ [c]).contains '\n' = true := by simpa using hmore
    refine ⟨hsplit, h.text, hpos, ?_, ?_⟩
    · rw [advance_line, if_neg hbreaks, hcount, if_neg hc, h.line, Nat.add_zero]
    · rw [advance_column, if_neg hbreaks, if_neg hc, h.column, sinceBreak_append consumed hmore]
      omega

/-- A character that is no line feed is put back and counted for the second time. -/
theorem Progress.Sited.again (h : progress.Sited source pushed recent (consumed ++ [c]) rest)
    (hc : c ≠ '\n') :
    (progress.again c).Sited source (pushed + 1) (recent + 1) consumed (c :: rest) := by
  obtain ⟨back, hback, htext⟩ := h.text
  have hmore : '\n' ∉ [c] := by simpa using Ne.symm hc
  refine ⟨?_, ⟨c :: back, by rw [List.length_cons, hback], ?_⟩, ?_, ?_, ?_⟩
  · rw [h.split]
    simp
  · change (#[c] ++ progress.cursor.text).toList = _
    rw [Array.toList_append, htext]
    rfl
  · change progress.cursor.pos = _
    rw [h.pos, List.length_append]
    simp only [List.length_cons, List.length_nil]
    omega
  · change progress.line = _
    rw [h.line, List.count_append, List.count_eq_zero_of_not_mem hmore, Nat.add_zero]
  · change progress.column = _
    rw [h.column, sinceBreak_append consumed hmore]
    simp only [List.length_cons, List.length_nil]
    omega

end

/-! ## Counts in a journal -/

def Event.breaks : Event → Bool
  | .read chars => chars.contains '\n'
  | _ => false

def onLine (events : List Event) : List Event :=
  events.takeWhile fun event => !event.breaks

def beforeLine (events : List Event) : List Event :=
  events.dropWhile fun event => !event.breaks

def lookAheads (events : List Event) : Nat :=
  events.count .lookedAhead

def displays (events : List Event) : Nat :=
  events.count (.named "DPI".toList)

def charsRead : List Event → Nat
  | [] => 0
  | .read chars :: events => charsRead events + chars.length
  | _ :: events => charsRead events

section

variable {events : List Event} {event : Event}

theorem onLine_cons (h : event.breaks = false) :
    onLine (event :: events) = event :: onLine events := by
  simp [onLine, h]

theorem lookAheads_onLine_read {front : List Char} {c : Char} (hfront : '\n' ∉ front) :
    lookAheads (onLine (.read (front ++ [c]) :: events)) =
      if c = '\n' then 0 else lookAheads (onLine events) := by
  by_cases hc : c = '\n'
  · simp [onLine, Event.breaks, lookAheads, hc]
  · have hbreaks : Event.breaks (.read (front ++ [c])) = false := by
      simpa [Event.breaks, hfront] using Ne.symm hc
    rw [onLine_cons hbreaks, if_neg hc]
    simp [lookAheads]

theorem lookAheads_cons (h : event ≠ .lookedAhead) :
    lookAheads (event :: events) = lookAheads events := by
  rw [lookAheads, List.count_cons_of_ne h, lookAheads]

theorem displays_cons (h : event ≠ .named "DPI".toList) :
    displays (event :: events) = displays events := by
  rw [displays, List.count_cons_of_ne h, displays]

theorem displays_named : displays (.named "DPI".toList :: events) = displays events + 1 := by
  simp [displays]

theorem lookAheads_lookedAhead : lookAheads (.lookedAhead :: events) = lookAheads events + 1 := by
  simp [lookAheads]

theorem lookAheads_split (events : List Event) :
    lookAheads events = lookAheads (onLine events) + lookAheads (beforeLine events) := by
  rw [lookAheads, lookAheads, lookAheads, ← List.count_append, onLine, beforeLine,
    List.takeWhile_append_dropWhile]

theorem displays_split (events : List Event) :
    displays events = displays (onLine events) + displays (beforeLine events) := by
  rw [displays, displays, displays, ← List.count_append, onLine, beforeLine,
    List.takeWhile_append_dropWhile]

end

/-! ## Points of a check -/

def Journal.events (journal : Journal) : List Event :=
  journal.entries.map Entry.event

def Progress.behind (source : List Char) : List Entry → Progress
  | [] => .start source
  | entry :: _ => entry.progress

structure Point (source : List Char) (events : List Event) (progress : Progress) : Prop where
  read : progress.cursor.pos = charsRead events
  sited : ∃ consumed unread, progress.Sited source (lookAheads events)
    (lookAheads (onLine events)) consumed unread
  least : lookAheads events ≤ displays events
  most : displays events ≤ lookAheads events + 1

/-- All points of the journal are in order, and so many displays wait for their operand. -/
structure Journal.Stands (source : List Char) (waiting : Nat) (journal : Journal) : Prop where
  now : Point source journal.events journal.progress
  always : ∀ history, history <:+ journal.entries →
    Point source (history.map Entry.event) (.behind source history)
  waits : displays journal.events = lookAheads journal.events + waiting

section

variable {source consumed unread front rest : List Char} {journal : Journal} {waiting later : Nat}
variable {progress : Progress} {event : Event} {c : Char}

theorem Journal.stands_start (source : List Char) : (Journal.start source).Stands source 0 := by
  have hpoint : Point source [] (.start source) :=
    ⟨rfl, ⟨[], source, Progress.sited_start source⟩, Nat.le_refl 0, Nat.zero_le 1⟩
  refine ⟨hpoint, ?_, rfl⟩
  intro history hhistory
  rw [List.suffix_nil.mp hhistory]
  exact hpoint

theorem Journal.Stands.of_same (h : journal.Stands source waiting)
    (hsame : journal.progress.SamePlace progress) :
    Journal.Stands source waiting { journal with progress := progress } := by
  obtain ⟨consumed, unread, hsited⟩ := h.now.sited
  have hpoint : Point source journal.events progress :=
    ⟨hsame.cursor ▸ h.now.read, ⟨consumed, unread, hsited.of_same hsame⟩, h.now.least, h.now.most⟩
  exact ⟨hpoint, h.always, h.waits⟩

def Journal.enter (journal : Journal) (progress : Progress) (event : Event) : Journal :=
  ⟨progress, ⟨event, progress⟩ :: journal.entries⟩

theorem Journal.Stands.enter (h : journal.Stands source waiting)
    (hread : progress.cursor.pos = charsRead (event :: journal.events))
    (hsited : progress.Sited source (lookAheads (event :: journal.events))
      (lookAheads (onLine (event :: journal.events))) consumed unread)
    (hwaits : displays (event :: journal.events) = lookAheads (event :: journal.events) + later)
    (hlater : later ≤ 1) : (journal.enter progress event).Stands source later := by
  have hpoint : Point source (event :: journal.events) progress :=
    ⟨hread, ⟨consumed, unread, hsited⟩, by omega, by omega⟩
  refine ⟨hpoint, ?_, hwaits⟩
  intro history hhistory
  rcases List.suffix_cons_iff.mp hhistory with rfl | hhistory
  · exact hpoint
  · exact h.always history hhistory

theorem Journal.Stands.mark (h : journal.Stands source waiting)
    (hread : charsRead (event :: journal.events) = charsRead journal.events)
    (hbreaks : event.breaks = false) (hahead : event ≠ .lookedAhead)
    (hwaits : displays (event :: journal.events) = lookAheads journal.events + later)
    (hlater : later ≤ 1) : (journal.enter journal.progress event).Stands source later := by
  obtain ⟨consumed, unread, hsited⟩ := h.now.sited
  have hmarked : journal.progress.Sited source (lookAheads (event :: journal.events))
      (lookAheads (onLine (event :: journal.events))) consumed unread := by
    rwa [onLine_cons hbreaks, lookAheads_cons hahead, lookAheads_cons hahead]
  rw [← lookAheads_cons hahead] at hwaits
  exact h.enter (hread ▸ h.now.read) hmarked hwaits hlater

theorem Journal.Stands.mark_other (h : journal.Stands source waiting) (hwaiting : waiting ≤ 1)
    (hread : charsRead (event :: journal.events) = charsRead journal.events)
    (hbreaks : event.breaks = false) (hahead : event ≠ .lookedAhead)
    (hdisplay : event ≠ .named "DPI".toList) :
    (journal.enter journal.progress event).Stands source waiting :=
  h.mark hread hbreaks hahead (by rw [displays_cons hdisplay, h.waits]) hwaiting

theorem Journal.take_append (h : journal.progress.At (front ++ rest)) :
    Journal.take front.length journal =
      .ok front (journal.enter (journal.progress.advance front.length front) (.read front)) := by
  have htake := h.take front.length
  rw [if_pos (by simp), List.take_left] at htake
  exact (bind_of_ok (plainly_of_ok htake)).trans rfl

theorem Journal.Stands.take_append (h : journal.Stands source waiting) (hwaiting : waiting ≤ 1)
    (hsited : journal.progress.Sited source (lookAheads journal.events)
      (lookAheads (onLine journal.events)) consumed (front ++ c :: rest))
    (hfront : '\n' ∉ front) :
    let after := journal.enter (journal.progress.advance (front ++ [c]).length (front ++ [c]))
      (.read (front ++ [c]))
    Journal.take (front ++ [c]).length journal = .ok (front ++ [c]) after ∧
      after.Stands source waiting ∧
      after.progress.Sited source (lookAheads after.events) (lookAheads (onLine after.events))
        (consumed ++ (front ++ [c])) rest := by
  intro after
  have hat : journal.progress.At ((front ++ [c]) ++ rest) := by simpa using hsited.at
  have hahead : lookAheads (.read (front ++ [c]) :: journal.events) = lookAheads journal.events :=
    lookAheads_cons (by simp)
  have hmoved : after.progress.Sited source (lookAheads after.events)
      (lookAheads (onLine after.events)) (consumed ++ (front ++ [c])) rest := by
    have hadvance := hsited.advance hfront
    rwa [← lookAheads_onLine_read hfront, ← hahead] at hadvance
  have hwaits : displays after.events = lookAheads after.events + waiting := by
    rw [show lookAheads after.events = lookAheads journal.events from hahead, ← h.waits]
    exact displays_cons (by simp)
  have hread : after.progress.cursor.pos = charsRead after.events := by
    change journal.progress.cursor.pos + ((front ++ [c]).length : Nat) = _
    rw [h.now.read]
    rfl
  exact ⟨Journal.take_append hat, h.enter hread hmoved hwaits hwaiting, hmoved⟩

end

/-! ## All points of a run -/

/-- The points of a run: at its start, behind each entry, and at its end. -/
inductive Journal.Shows (source : List Char) (journal : Journal) : List Event → Progress → Prop
  | past (history : List Entry) (h : history <:+ journal.entries) :
      Shows source journal (history.map Entry.event) (.behind source history)
  | now : Shows source journal journal.events journal.progress

def journalOf {α : Type} : EStateM.Result Stop Journal α → Journal
  | .ok _ journal => journal
  | .error _ journal => journal

def stopOf {α : Type} : EStateM.Result Stop Journal α → Option Stop
  | .ok _ _ => none
  | .error stop _ => some stop

theorem eq_error_of_stopOf {α : Type} {run : EStateM.Result Stop Journal α} {stop : Stop}
    (h : stopOf run = some stop) : run = .error stop (journalOf run) := by
  cases run with
  | ok value journal => cases h
  | error reason journal =>
      cases h
      rfl

section

variable {source : List Char} {journal : Journal} {waiting : Nat} {events : List Event}
variable {progress : Progress}

theorem Journal.Stands.point (h : journal.Stands source waiting)
    (hshows : journal.Shows source events progress) : Point source events progress := by
  cases hshows with
  | past history hhistory => exact h.always history hhistory
  | now => exact h.now

theorem Journal.shows_beforeLine (source : List Char) (journal : Journal) :
    ∃ progress, journal.Shows source (beforeLine journal.events) progress := by
  have hbefore : beforeLine journal.events =
      (journal.entries.dropWhile fun entry => !entry.event.breaks).map Entry.event := by
    rw [beforeLine, events, List.dropWhile_map]
    rfl
  rw [hbefore]
  exact ⟨_, .past _ (List.dropWhile_suffix _)⟩

end

end BitAssembly.Lint
