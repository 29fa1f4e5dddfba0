import BitAssembly.Proofs.Lint.Positions

/-!
# How a check uses up its source

A pass of a check reads something first, and puts back only a character of an operand.
So the unread text gets shorter with every pass, while the whole text grows.
-/

namespace BitAssembly.Lint

theorem checkClosed_finishes (narrated : Bool) :
    Triple (fun _ => True) (fun _ _ => True) (fun stop _ => stop ≠ .unfinished)
      (checkClosed narrated) := by
  refine .get fun progress => .ite ?_ (.pure ())
  cases progress.blocks with
  | nil => exact .throw fun _ _ => by simp
  | cons name rest => exact fun _ _ => trivial

/-- The allowance of the loop over all passes suffices, as does that for a quoted text. -/
theorem check_finishes (edition : Edition) (levels : Nat) (narrated : Bool) (source : List Char) :
    Concludes (fun _ _ => True) (fun stop _ => stop ≠ .unfinished)
      (check edition levels narrated (.start source)) := by
  have hrest := (local_checkRest edition levels narrated).concludes (Progress.at_start source)
  rw [check_eq_bind]
  refine (hrest.mono (fun _ _ _ => trivial) fun _ _ hstop => hstop.1).bind fun _ after _ _ => ?_
  exact checkClosed_finishes narrated after trivial

/-- At every point the text is the source behind what was put back, and an end of the source is
unread.  A pass reads something, unless it is the last one and finds too little for a mnemonic.
So a check is over after at most one pass more than the source has characters. -/
theorem check_uses_up (edition : Edition) (levels : Nat) (narrated : Bool) (source : List Char) :
    let run := Journal.check edition levels narrated (.start source)
    forget run = check edition levels narrated (.start source) ∧
    (∀ events progress, (journalOf run).Shows source events progress →
      ∃ back unread, progress.cursor.text.toList = back ++ source ∧
        back.length = lookAheads events ∧ back.length ≤ progress.cursor.pos ∧
        progress.At unread ∧ unread <:+ source) ∧
    (∀ progress c rest, progress.At (c :: rest) →
      Proceeds progress c rest (checkNext edition levels narrated progress)) ∧
    (∀ after, check edition levels narrated (.start source) ≠ .error .unfinished after) ∧
    ∀ fuel, source.length < fuel →
      checkAll edition levels narrated fuel (.start source) =
        checkAll edition levels narrated (source.length + 1) (.start source) := by
  intro run
  refine ⟨(erases_check edition levels narrated).forget_eq _, ?_, ?_, ?_, ?_⟩
  · intro events progress hshows
    obtain ⟨waiting, hstands⟩ := check_stands edition levels narrated source
    obtain ⟨consumed, unread, hsited⟩ := (hstands.point hshows).sited
    obtain ⟨back, hback, htext⟩ := hsited.text
    refine ⟨back, unread, htext, hback, ?_, hsited.at, consumed, hsited.split.symm⟩
    rw [hsited.pos, hback]
    omega
  · intro progress c rest hat
    exact proceeds_checkNext edition levels narrated hat
  · intro after hunfinished
    have hfinishes := check_finishes edition levels narrated source
    rw [hunfinished] at hfinishes
    exact hfinishes rfl
  · intro fuel hfuel
    exact checkAll_congr (Progress.at_start source) hfuel (Nat.lt_succ_self _)

theorem checkNext_reads_nothing :
    let start := Progress.start "A".toList
    checkNext .basic levelLimit false start = .ok false start ∧
      checkNext .extended levelLimit false start = .ok false start ∧
      check .basic levelLimit false start = .ok () start ∧
      check .extended levelLimit false start = .ok () start :=
  ⟨rfl, rfl, rfl, rfl⟩

end BitAssembly.Lint
