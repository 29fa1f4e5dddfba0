import BitAssembly.Proofs.Machine.Policies

/-!
# Runs that come to an end

Limits only cut a run off: a run that they leave alone is the same with more
of everything.  Of the instructions a call and a loop with a test are the ones
that can go on without end.  A text in which the bits of neither occur fetches
neither, at whatever place it is read, and its blocks have shorter texts of the
same kind.  So the levels that a run needs are bounded by its text.
-/

namespace BitAssembly.Machine

open BitAssembly.Bits
open BitAssembly.Text

variable {σ α : Type} {edition : Edition}

/-! ## More of everything -/

def Limited (stop : Stop) : Prop :=
  stop = .tooDeep ∨ stop = .unfinished

/-- The second action does what the first one does, unless a limit stops the first. -/
def Grants (first second : EStateM Stop σ α) : Prop :=
  Concur Eq (fun _ => True) Limited first second

theorem Pairing.Abreast.grants {pairing : Pairing} {Post : List Char → α → Prop}
    {Fails : List Char → Stop → Prop} {first second : Reading α}
    (h : pairing.Abreast Post Fails first second) (hproper : ¬ pairing.proper)
    (hnotes : pairing.traced = pairing.tracing) : Grants first second := by
  induction h with
  | pure _ => exact .pure _
  | throw _ => exact .throw trivial
  | spent _ _ => exact fun _ _ _ => .excused (.inr rfl)
  | noting line _ ih =>
      rw [hnotes]
      cases pairing.tracing with
      | false => exact ih
      | true => exact (Concur.refl _).bind fun _ => ih
  | taking count _ _ ih =>
      exact (Concur.refl _).bind fun chars => ih chars fun h => absurd h hproper
  | measuring _ ih =>
      rintro reader _ rfl
      exact ih _ _ (.inl rfl) reader reader rfl

section Running

variable {call answer : Body → Run Unit} {passes more : Nat} (h : passes ≤ more)

include h

theorem grants_fetch (tracing ready : Bool) :
    Grants (fetch edition tracing ready passes) (fetch edition tracing ready more) := by
  have hfetch : Pairing.Abreast ⟨False, True, tracing, tracing⟩ _ _
      (fetch edition tracing ready passes) (fetch edition tracing ready more) :=
    abreast_fetch (.inr ⟨trivial, h⟩)
  exact hfetch.grants id rfl

theorem grants_fetchNext (tracing : Bool) :
    Grants (fetchNext edition tracing passes) (fetchNext edition tracing more) := by
  rintro session _ rfl
  refine concur_reading (grants_fetch h tracing session.memory.page?.isSome) ?_ ?_ session _ rfl
  · rintro session _ rfl
    rfl
  · rintro session _ reader _ rfl rfl
    rfl

omit h in
theorem indifferent_eq : Indifferent Eq (fun _ => True) := by
  refine ⟨⟨?_, ?_, ?_, ?_, fun _ => trivial⟩, ?_⟩
  · rintro session _ rfl
    rfl
  · rintro session _ rfl
    rfl
  · rintro session _ text rfl
    rfl
  · rintro session _ rest rfl
    rfl
  · rintro session _ memory rfl
    rfl

theorem grants_executeText (hcall : ∀ body, Grants (call body) (answer body)) (tracing : Bool)
    {fuel supply : Nat} (hfuel : fuel ≤ supply) :
    Grants (executeText edition tracing passes call fuel)
      (executeText edition tracing more answer supply) := by
  refine indifferent_eq.executeText ?_ (grants_fetchNext h tracing) hcall
    (.inr ⟨.inr rfl, h⟩) (.inr ⟨.inr rfl, hfuel⟩)
  rintro session _ rfl
  rfl

/-- The induction is on the levels of the run that has fewer. -/
theorem grants_executeAt {depth levels : Nat} (hdepth : depth ≤ levels) (tracing : Bool) :
    Grants (executeAt edition passes depth tracing) (executeAt edition more levels tracing) := by
  induction depth generalizing levels tracing with
  | zero => exact fun _ _ _ => .excused (.inl rfl)
  | succ depth ih =>
      obtain ⟨levels, rfl⟩ := Nat.exists_eq_add_one.mpr (show 0 < levels by omega)
      have hcall (body : Body) : Grants
          (onCursor (.ofChars body) (executeAt edition passes depth false))
          (onCursor (.ofChars body) (executeAt edition more levels false)) := by
        refine concur_onCursor (ih (by omega) false) ?_ ?_
        · rintro session _ rfl
          rfl
        · rintro session _ inner _ rfl rfl
          rfl
      rintro session _ rfl
      exact grants_executeText h hcall tracing (by omega) session _ rfl

end Running

theorem execute_granted {limits more : Limits} (hdepth : limits.depth ≤ more.depth)
    (hpasses : limits.passes ≤ more.passes) (tracing : Bool) (session : Session) :
    (∃ stop after, execute edition limits tracing session = .error stop after ∧ Limited stop) ∨
      execute edition more tracing session = execute edition limits tracing session := by
  have hgrants : Grants (execute edition limits tracing) (execute edition more tracing) :=
    grants_executeAt hpasses hdepth tracing
  have hrelated := hgrants session session rfl
  generalize execute edition limits tracing session = result at hrelated ⊢
  generalize execute edition more tracing session = other at hrelated ⊢
  cases hrelated with
  | ok h => exact .inr (congrArg _ h.symm)
  | error h =>
      obtain ⟨rfl, rfl, -⟩ := h
      exact .inr rfl
  | excused h => exact .inl ⟨_, _, rfl, h⟩

/-! ## Texts without calls and loops with a test -/

/-- The bits of neither a loop with a test nor a call stand anywhere in the text. -/
structure Straight (text : List Char) : Prop where
  loop : ¬ ['1', '0', '1', '1', '1', '0'] <:+: text
  call : ¬ ['1', '0', '1', '1', '0', '0'] <:+: text

theorem Straight.part {text part : List Char} (h : Straight text) (hpart : part <:+: text) :
    Straight part :=
  ⟨fun hloop => h.loop (hloop.trans hpart), fun hcall => h.call (hcall.trans hpart)⟩

theorem Straight.fetched {bits : List Char} {instruction : Instruction} (h : Straight bits)
    (hfetched : Fetched edition bits instruction) :
    (∀ name, instruction ≠ .call name) ∧ (∀ test body, instruction ≠ .whileTrue test body) ∧
      ∀ body, instruction.body? = some body → Straight body.toList ∧ body.size < bits.length := by
  cases hfetched with
  | basic bits hbasic => cases instruction <;> simp_all [Instruction.IsBasic, Instruction.body?]
  | selectPage page => exact ⟨nofun, nofun, nofun⟩
  | close => exact ⟨nofun, nofun, nofun⟩
  | undefine name bits => exact ⟨nofun, nofun, nofun⟩
  | call name bits => exact absurd (List.prefix_append _ bits).isInfix h.call
  | whileTrue test head hbody => exact absurd (List.prefix_append _ _).isInfix h.loop
  | @block _ head body hhead hbody hwhile hspans =>
      refine ⟨?_, ?_, fun other hother => ?_⟩
      · rintro name rfl
        cases hbody
      · rintro test other rfl
        cases hbody
        exact hwhile test rfl
      · rw [hbody] at hother
        cases hother
        refine ⟨h.part (List.suffix_append head body).isInfix, ?_⟩
        have hlength := List.length_pos_iff.mpr hhead
        simp only [List.size_toArray, List.length_append]
        omega

/-- The text is without calls and loops with a test, and since the start of the run it got shorter
by as many characters at least as levels were used up. -/
structure Moment.Bounded (start moment : Moment) : Prop where
  sound : moment.session.Sound
  straight : Straight moment.session.cursor.text.toList
  room : moment.session.cursor.text.size + start.levels ≤
    start.session.cursor.text.size + moment.levels

section

variable {passes : Nat} {start moment other : Moment} {instruction : Instruction}
  {fetched : Session}

theorem Moment.Bounded.performs (h : start.Bounded moment)
    (hperforms : moment.Performs edition passes instruction fetched) :
    fetched.cursor.text = moment.session.cursor.text ∧
      (∀ name, instruction ≠ .call name) ∧ (∀ test body, instruction ≠ .whileTrue test body) ∧
      ∀ body, instruction.body? = some body → Straight body.toList ∧
        body.size < moment.session.cursor.text.size := by
  obtain ⟨-, bits, hfound, hrest, hadvance⟩ := fetchNext_found h.sound.cursor hperforms.fetch
  have hpart : bits <:+: moment.session.cursor.text.toList := by
    have hsuffix : moment.session.cursor.rest <:+ moment.session.cursor.text.toList :=
      List.drop_suffix _ _
    rw [hrest] at hsuffix
    exact (List.prefix_append bits _).isInfix.trans hsuffix.isInfix
  obtain ⟨hcall, hloop, hbody⟩ := (h.straight.part hpart).fetched hfound.fetched
  refine ⟨by rw [hadvance]; rfl, hcall, hloop, fun body hsome => ?_⟩
  obtain ⟨hstraight, hless⟩ := hbody body hsome
  have hlength : bits.length ≤ moment.session.cursor.text.size := by simpa using hpart.length_le
  exact ⟨hstraight, by omega⟩

theorem Enters.body? {call : Body → Run Unit} {session inner : Session} {body : Body}
    (h : Enters passes call instruction session body inner)
    (hcall : ∀ name, instruction ≠ .call name) : instruction.body? = some body := by
  cases h with
  | call => exact absurd rfl (hcall _)
  | _ => rfl

theorem Moment.Goes.bounded (hgoes : moment.Goes edition passes other)
    (h : start.Bounded moment) : start.Bounded other := by
  have hsound := hgoes.sound h.sound
  cases hgoes with
  | next hperforms hperform =>
      have hstays := perform_cursor hperform
      have htext := (h.performs hperforms).1
      refine ⟨hsound, ?_, ?_⟩
      · rw [hstays, htext]
        exact h.straight
      · rw [hstays, htext]
        exact h.room
  | inside hperforms henters =>
      obtain ⟨-, hcall, -, hbody⟩ := h.performs hperforms
      obtain ⟨hstraight, hless⟩ := hbody _ (henters.body? hcall)
      have hroom := h.room
      have hlevel := hperforms.level
      refine ⟨hsound, hstraight, ?_⟩
      simp only [Moment.within, Cursor.ofChars]
      omega

theorem Moment.Comes.bounded (hcomes : moment.Comes edition passes other)
    (h : start.Bounded moment) : start.Bounded other := by
  induction hcomes with
  | refl => exact h
  | tail _ hgoes ih => exact hgoes.bounded ih

end

theorem Moment.Bounded.cause {start : Moment} {passes : Nat} {stop : Stop}
    (h : start.Bounded start) (hcause : start.Cause edition passes stop) (hlimited : Limited stop) :
    stop = .tooDeep ∧ start.levels ≤ start.session.cursor.text.size := by
  cases hcause with
  | tooDeep hcomes hlevels =>
      have hroom := (hcomes.bounded h).room
      exact ⟨rfl, by omega⟩
  | endOfText => simp [Limited] at hlimited
  | raised hcomes hperforms hraises =>
      obtain ⟨-, -, hloop, -⟩ := (hcomes.bounded h).performs hperforms
      cases hraises with
      | unfinished => exact absurd rfl (hloop _ _)
      | _ => simp [Limited] at hlimited

/-- No limit but that of nesting stops a run on such a text, and it does only where it is no more
than the length of the text. -/
theorem Straight.limited {limits : Limits} {tracing : Bool} {session after : Session} {stop : Stop}
    (h : Straight session.cursor.text.toList) (hsound : session.Sound)
    (hexecute : execute edition limits tracing session = .error stop after)
    (hlimited : Limited stop) :
    stop = .tooDeep ∧ limits.depth ≤ session.cursor.text.size := by
  have hstart : Moment.Bounded ⟨session, tracing, limits.depth⟩ ⟨session, tracing, limits.depth⟩ :=
    ⟨hsound, h, Nat.le_refl _⟩
  have hcause : Moment.Cause edition limits.passes ⟨session, tracing, limits.depth⟩ stop :=
    Moment.cause_of_run hsound hexecute
  exact hstart.cause hcause hlimited

/-- The run has returned, left the program or met a fault.  No limit has cut it off. -/
inductive Settled : EStateM.Result Stop Session Unit → Prop
  | returned (after : Session) : Settled (.ok () after)
  | left (status : Option Nat) (after : Session) : Settled (.error (.exit status) after)
  | failed (fault : Fault) (after : Session) : Settled (.error (.fault fault) after)

theorem settled_or_limited (result : EStateM.Result Stop Session Unit) :
    Settled result ∨ ∃ stop after, result = .error stop after ∧ Limited stop := by
  cases result with
  | ok value after => exact .inl (.returned after)
  | error stop after =>
      cases stop with
      | exit status => exact .inl (.left status after)
      | fault fault => exact .inl (.failed fault after)
      | tooDeep => exact .inr ⟨_, _, rfl, .inl rfl⟩
      | unfinished => exact .inr ⟨_, _, rfl, .inr rfl⟩

/-- A run on bits in which the head of neither a loop with a test nor a call occurs comes to an
end, and always to the same one: with enough levels of nesting the limits do not matter, and with
fewer the run can but be stopped for its nesting. -/
theorem execute_settles (edition : Edition) (tracing : Bool) (session : Session)
    (hreached : Reached edition session) (bits : List Char) (hbits : AllBits bits)
    (hloop : ¬ "101110".toList <:+: bits) (hcall : ¬ "101100".toList <:+: bits)
    (input : List Char) :
    let start := (session.fed input).onto bits
    ∃ result, Settled result ∧
      (∀ limits, bits.length < limits.depth → execute edition limits tracing start = result) ∧
      ∀ limits, execute edition limits tracing start = result ∨
        ∃ after, execute edition limits tracing start = .error .tooDeep after := by
  intro start
  have hstraight : Straight start.cursor.text.toList := ⟨hloop, hcall⟩
  have hsound : start.Sound := hreached.sound.fed_onto input hbits
  have hsize : start.cursor.text.size = bits.length := List.size_toArray
  -- Whatever more is granted than this, it makes no difference.
  let least : Limits := ⟨bits.length + 1, 0⟩
  have hleast : ¬ ∃ stop after,
      execute edition least tracing start = .error stop after ∧ Limited stop := by
    rintro ⟨stop, after, herror, hlimited⟩
    have hdepth : bits.length + 1 ≤ _ := (hstraight.limited hsound herror hlimited).2
    omega
  have henough : ∀ limits, bits.length < limits.depth →
      execute edition limits tracing start = execute edition least tracing start :=
    fun limits hdepth => (execute_granted (show least.depth ≤ limits.depth from hdepth)
      (Nat.zero_le _) tracing start).resolve_left hleast
  refine ⟨_, (settled_or_limited _).resolve_right hleast, henough, fun limits => ?_⟩
  let more : Limits := ⟨limits.depth + (bits.length + 1), limits.passes⟩
  obtain ⟨stop, after, herror, hlimited⟩ | hsame :=
    execute_granted (show limits.depth ≤ more.depth from Nat.le_add_right _ _)
      (Nat.le_refl limits.passes) tracing start
  · rw [(hstraight.limited hsound herror hlimited).1] at herror
    exact .inr ⟨after, herror⟩
  · rw [← hsame]
    exact .inl (henough more (by simp only [more]; omega))

theorem execute_settles_nested :
    let session := Session.start [] false []
    let bits := "01110100000100000011101101000110000001010100100010010000010110110".toList
    let start := (session.fed []).onto bits
    Reached .extended session ∧ AllBits bits ∧ ¬ "101110".toList <:+: bits ∧
      ¬ "101100".toList <:+: bits ∧
      ∃ result, Settled result ∧ execute .extended Limits.standard false start = result ∧
        stop? result = none ∧
        ∃ after, execute .extended ⟨2, 0⟩ false start = .error .tooDeep after := by
  intro session bits start
  have hreached : Reached .extended session := .start allBits_nil false []
  have hbits : AllBits bits := by
    have hall : bits.all isBit := by decide +kernel
    exact List.all_eq_true.mp hall
  have hloop : ¬ "101110".toList <:+: bits := by decide +kernel
  have hcall : ¬ "101100".toList <:+: bits := by decide +kernel
  have hreturns : stop? (execute .extended ⟨66, 0⟩ false start) = none := by decide +kernel
  have hdeep : stop? (execute .extended ⟨2, 0⟩ false start) = some .tooDeep := by decide +kernel
  obtain ⟨result, hsettled, henough, -⟩ :=
    execute_settles .extended false session hreached bits hbits hloop hcall []
  refine ⟨hreached, hbits, hloop, hcall, result, hsettled, henough _ (by decide +kernel), ?_,
    exists_of_stop? hdeep⟩
  rw [← henough ⟨66, 0⟩ (by decide +kernel)]
  exact hreturns

end BitAssembly.Machine
