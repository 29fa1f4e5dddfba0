import BitAssembly.Proofs.Machine.Policies
import BitAssembly.Proofs.Machine.Registers

/-!
# Pages that a run does not select

Every store goes to the page that is selected, except that the last register is
shared.  So a run that never selects some page leaves what this page has of its
own as it was, in whatever way the run ends.  Bodies of blocks and functions run
on the pages that are selected when they are entered, so the selections of a
run are those of all its moments.
-/

namespace BitAssembly.Machine

open BitAssembly.Bits
open BitAssembly.Text

variable {edition : Edition} {passes : Nat} {call : Body → Run Unit}

/-! ## The frame of an instruction -/

/-- A property of memories that only the selection of a page can break. -/
structure Memory.Framed (Inv : Memory → Prop) : Prop where
  store : ∀ {memory after : Memory} {address value : Int}, Inv memory →
    memory.store address value = .ok after → Inv after
  stack : ∀ {memory : Memory} (stack : List Nat), Inv memory → Inv { memory with stack := stack }
  functions : ∀ {memory : Memory} (functions : SortedTable Int Body), Inv memory →
    Inv { memory with functions := functions }

section

variable {Inv : Memory → Prop} (hframe : Memory.Framed Inv)

include hframe

theorem Memory.Framed.indistinct :
    Indistinct (Single fun session => Inv session.memory) (fun _ => True) := by
  refine ⟨.single (fun _ h => h) (fun _ h => h) fun _ => trivial, ?_, ?_⟩
  · rintro _ session address value memory ⟨rfl, h⟩ hstore
    exact ⟨rfl, hframe.store h hstore⟩
  · rintro _ session stack ⟨rfl, h⟩ _
    exact ⟨rfl, hframe.stack stack h⟩

theorem Memory.Framed.perform {instruction : Instruction} {session : Session}
    (hsession : Inv session.memory)
    (hselect : ∀ page, instruction = .selectPage page → Inv { session.memory with page := page })
    (hbody : ∀ body inner, Enters passes call instruction session body inner →
      Inv inner.memory → Inv (sessionAfter (call body inner)).memory) :
    Inv (sessionAfter (perform passes call instruction session)).memory := by
  have hrelated : InAccord (Single fun session => Inv session.memory) (fun _ => True)
      (fun _ => False) (Machine.perform passes call instruction session)
      (Machine.perform passes call instruction session) := by
    refine related_perform hframe.indistinct (.inl rfl) ⟨rfl, hsession⟩
      (fun change hchange => ⟨rfl, ?_⟩) ?_
    · cases instruction with
      | selectPage page =>
          cases hchange
          exact hselect page rfl
      | define name body =>
          cases hchange
          exact hframe.functions _ hsession
      | undefine name =>
          cases hchange
          exact hframe.functions _ hsession
      | _ => cases hchange
    · rintro body _ inner henters ⟨rfl, hinner⟩
      exact Concludes.inAccord (concludes_of_sessionAfter (hbody body inner henters hinner))
  exact sessionAfter_of_concludes hrelated.concludes

end

/-! ## The frame of a run -/

theorem Moment.memory_call (moment : Moment) (body : Body) (inner : Session) :
    (sessionAfter (moment.call edition passes body inner)).memory =
      (sessionAfter ((moment.within inner body).run edition passes)).memory := by
  rw [call_apply]
  generalize (moment.within inner body).run edition passes = result
  cases result <;> rfl

theorem Memory.Framed.run {Inv : Memory → Prop} (hframe : Memory.Framed Inv) {start : Moment}
    (hsound : start.session.Sound) (h : Inv start.session.memory)
    (hselect : ∀ moment selected fetched, start.Comes edition passes moment →
      moment.Performs edition passes (.selectPage selected) fetched → Inv fetched.memory →
        Inv { fetched.memory with page := selected }) :
    Inv (sessionAfter (start.run edition passes)).memory := by
  rcases Nat.eq_zero_or_pos start.levels with hlevels | hlevel
  · rw [Moment.run, hlevels]
    exact h
  by_cases hend : start.session.cursor.atEnd
  · rw [Moment.run_end hlevel hend]
    exact h
  have htakes := @fetchNext_takes edition start.tracing passes _ hsound.cursor
  cases hfetch : fetchNext edition start.tracing passes start.session with
  | error stop fetched =>
      rw [hfetch] at htakes
      rw [Moment.run_more hlevel hend, bind_of_error hfetch, sessionAfter, htakes.1]
      exact h
  | ok instruction fetched =>
      rw [hfetch] at htakes
      have hfetched : Inv fetched.memory := by
        rw [htakes.1]
        exact h
      by_cases hclose : instruction = .close
      · subst hclose
        rw [Moment.run_close hlevel hend hfetch]
        exact hfetched
      have hperforms : start.Performs edition passes instruction fetched :=
        ⟨hlevel, hend, hfetch, hclose⟩
      have hperform : Inv (sessionAfter
          (Machine.perform passes (start.call edition passes) instruction fetched)).memory := by
        refine hframe.perform hfetched (fun page hpage => ?_) fun body inner hbody hinner => ?_
        · subst hpage
          exact hselect start page fetched .refl hperforms hfetched
        · have hgoes : start.Goes edition passes (start.within inner body) :=
            .inside hperforms hbody
          rw [Moment.memory_call]
          exact Memory.Framed.run hframe (hgoes.sound hsound) hinner
            fun moment page fetched hcomes => hselect moment page fetched (.head hgoes hcomes)
      cases hresult : Machine.perform passes (start.call edition passes) instruction fetched with
      | error stop after =>
          rw [hperforms.run_error hresult]
          rw [hresult] at hperform
          exact hperform
      | ok _ after =>
          have hgoes : start.Goes edition passes { start with session := after } :=
            .next hperforms hresult
          rw [hperforms.run_ok hsound hresult]
          rw [hresult] at hperform
          exact Memory.Framed.run hframe (hgoes.sound hsound) hperform
            fun moment page fetched hcomes => hselect moment page fetched (.head hgoes hcomes)
termination_by (start.levels, start.session.cursor.rest.length)
decreasing_by
  · exact hgoes.less hsound
  · exact hgoes.less hsound

/-! ## Another page -/

/-- Another page is selected, and this one has these values in the registers of its own. -/
structure Memory.Elsewhere (page : Fin 8) (values : Fin 16 → Nat) (memory : Memory) : Prop where
  away : memory.page? ≠ some page
  own : ∀ register, register.val < 15 → memory.value page register = values register

theorem Memory.value_store {memory after : Memory} {address value : Int} {page : Fin 8}
    {register : Fin 16} (h : memory.store address value = .ok after)
    (haway : memory.page? ≠ some page) (hregister : register.val < 15) :
    after.value page register = memory.value page register := by
  rw [Memory.store] at h
  split at h
  · cases h
  next selected hselected =>
    split at h
    · cases h
    next slot hslot =>
      cases h
      have hother : page ≠ selected := by
        rintro rfl
        exact haway hselected
      have hlast : register ≠ 15 := by
        rintro rfl
        exact Nat.lt_irrefl 15 hregister
      have hset := get_set_get memory.pages selected page slot register (wrap value)
      rw [Memory.value, get_shareLast, if_neg hlast]
      apply hset.trans
      simp [hother, Memory.value]

theorem Memory.framed_elsewhere (page : Fin 8) (values : Fin 16 → Nat) :
    Framed (Elsewhere page values) := by
  refine ⟨?_, fun _ h => ⟨h.away, h.own⟩, fun _ h => ⟨h.away, h.own⟩⟩
  intro memory after address value h hstore
  refine ⟨?_, fun register hregister => ?_⟩
  · obtain hfail | hfail | ⟨pages, hpages⟩ := memory.store_cases address value
    · cases hfail.symm.trans hstore
    · cases hfail.symm.trans hstore
    · cases hpages.symm.trans hstore
      exact h.away
  · rw [Memory.value_store hstore h.away hregister]
    exact h.own register hregister

theorem index?_ne {page : Fin 8} {selected : Int} (hrange : 0 ≤ selected ∧ selected < 8)
    (h : selected ≠ (page : Nat)) : index? 8 selected ≠ some page := by
  obtain ⟨number, rfl⟩ := Int.eq_ofNat_of_zero_le hrange.1
  have hlt : number < 8 := by omega
  rw [index?_natCast hlt]
  intro hsome
  cases hsome
  exact h rfl

/-! ## Where selections stand -/

theorem infix_of_rest {cursor : Cursor} {bits more : List Char}
    (h : cursor.rest = bits ++ more) : bits <:+: cursor.text.toList := by
  have hsuffix : cursor.rest <:+ cursor.text.toList := List.drop_suffix _ _
  rw [h] at hsuffix
  exact (List.prefix_append bits more).isInfix.trans hsuffix.isInfix

theorem Fetched.body_suffix {bits : List Char} {instruction : Instruction} {body : Body}
    (h : Fetched edition bits instruction) (hbody : instruction.body? = some body) :
    body.toList <:+ bits := by
  cases h with
  | basic _ h => cases instruction <;> simp_all [Instruction.body?, Instruction.IsBasic]
  | selectPage page => cases hbody
  | close => cases hbody
  | undefine name bits => cases hbody
  | call name bits => cases hbody
  | whileTrue test head h =>
      cases hbody
      rw [← List.append_assoc]
      exact List.suffix_append _ _
  | block hhead hsome hwhile h =>
      cases hsome.symm.trans hbody
      exact List.suffix_append _ _

theorem selectionBits_infix {tracing : Bool} {session fetched : Session} {page : Int}
    (hvalid : session.cursor.Valid)
    (h : fetchNext edition tracing passes session = .ok (.selectPage page) fetched) :
    selectionBits page.toNat <:+: session.cursor.text.toList := by
  obtain ⟨-, bits, hfound, hrest, -⟩ := fetchNext_found hvalid h
  cases hfound.fetched with
  | basic _ h => exact h.elim
  | selectPage => exact infix_of_rest hrest
  | block _ hbody _ _ => cases hbody

/-! ## Moments within a policy -/

namespace Policy

variable {policy : Policy}

theorem Guides.eq_ok {action : Run Unit} (h : policy.Guides action) {session after : Session}
    (hsession : policy.Holds session) (hresult : action session = .ok () after) :
    policy.Holds after :=
  (Concur.triple h).of_ok hsession hresult

variable (hlawful : policy.Lawful edition)

include hlawful

theorem Lawful.guides_callBody (limits : Limits) {body : Body} (hbits : AllBits body.toList)
    (hplace : policy.place (.ofChars body)) :
    policy.Guides (callBody edition limits body) := by
  have hvalid : (Cursor.ofChars body).Valid := ⟨hbits, Int.le_refl 0, Int.natCast_nonneg _⟩
  refine guides_onCursor hvalid fun inner hinner hcursor => ?_
  apply hlawful.ends_finish limits false hinner
  rw [hcursor]
  exact hplace

theorem Lawful.enters {moment : Moment} {instruction : Instruction} {session inner : Session}
    {body : Body} (hregular : instruction.Regular edition) (hadmits : policy.Admits instruction)
    (hsession : policy.Holds session)
    (h : Enters passes (moment.call edition passes) instruction session body inner) :
    policy.Holds inner ∧ AllBits body.toList ∧ policy.place (.ofChars body) := by
  have hbits := h.allBits hsession.sound hregular
  have hplace := hlawful.place_of_enters hadmits hsession h
  refine ⟨h.invariant hlawful.indistinct (fun hresult hbefore => ?_) hsession, hbits, hplace⟩
  exact (hlawful.guides_callBody _ hbits hplace).eq_ok hbefore hresult

theorem Lawful.goes {moment other : Moment} (h : moment.Goes edition passes other)
    (hholds : policy.Holds moment.session) (hplace : policy.place moment.session.cursor) :
    policy.Holds other.session ∧ policy.place other.session.cursor := by
  have hstep {instruction : Instruction} {fetched : Session}
      (h : moment.Performs edition passes instruction fetched) :
      policy.Holds fetched ∧ instruction.Regular edition ∧ policy.Admits instruction ∧
        policy.place fetched.cursor := by
    have hpolicy := @Lawful.fetch _ _ hlawful moment.tracing passes _ hholds.sound hplace h.more
    rw [h.fetch] at hpolicy
    obtain ⟨hsound, hregular⟩ := h.sound hholds.sound
    have hmemory := (fetchNext_found hholds.sound.cursor h.fetch).1
    exact ⟨hholds.of_memory hsound hmemory, hregular, hpolicy.1, hpolicy.2 h.proper⟩
  cases h with
  | next h hperform =>
      obtain ⟨hfetched, hregular, hadmits, hnext⟩ := hstep h
      have hguides : policy.Guides (perform passes (moment.call edition passes) _) :=
        hlawful.guides_perform (fun _ => hlawful.guides_callBody _) hregular hadmits
      refine ⟨hguides.eq_ok hfetched hperform, ?_⟩
      rw [Moment.perform_cursor hperform]
      exact hnext
  | inside h hbody =>
      obtain ⟨hfetched, hregular, hadmits, -⟩ := hstep h
      obtain ⟨hinner, hbits, hstart⟩ := hlawful.enters hregular hadmits hfetched hbody
      exact ⟨hinner.onCursor ⟨hbits, Int.le_refl 0, Int.natCast_nonneg _⟩ false, hstart⟩

theorem Lawful.comes {moment other : Moment} (h : moment.Comes edition passes other)
    (hholds : policy.Holds moment.session) (hplace : policy.place moment.session.cursor) :
    policy.Holds other.session ∧ policy.place other.session.cursor := by
  induction h with
  | refl => exact ⟨hholds, hplace⟩
  | tail _ hgoes ih => exact hlawful.goes hgoes ih.1 ih.2

end Policy

/-- No text that is run holds the bits that select this page. -/
def Policy.barring (page : Nat) : Policy :=
  ⟨fun cursor => ¬ selectionBits page <:+: cursor.text.toList,
    fun body => ¬ selectionBits page <:+: body.toList, fun _ => True⟩

theorem Policy.lawful_barring (page : Nat) : (Policy.barring page).Lawful edition := by
  refine ⟨?_, id, fun _ => trivial, ?_⟩
  · intro h
    have hlength := h.length_le
    simp [selectionBits] at hlength
  · intro tracing passes session hsound hplace _
    cases hresult : fetchNext edition tracing passes session with
    | error stop fetched => trivial
    | ok instruction fetched =>
        obtain ⟨-, bits, hfound, hrest, hadvance⟩ := fetchNext_found hsound.cursor hresult
        have hbody : ∀ body, instruction.body? = some body →
            ¬ selectionBits page <:+: body.toList := by
          intro body hsome hselection
          have hsuffix := hfound.fetched.body_suffix hsome
          exact hplace (hselection.trans (hsuffix.isInfix.trans (infix_of_rest hrest)))
        refine ⟨?_, fun _ => ?_⟩
        · cases instruction with
          | onlyIf test body => exact hbody body rfl
          | times address body => exact hbody body rfl
          | define name body => exact hbody body rfl
          | count address bound body => exact hbody body rfl
          | whileTrue test body => exact hbody body rfl
          | _ => trivial
        · rw [hadvance]
          exact hplace

theorem Moment.Comes.selected_ne {start moment : Moment} {page : Nat}
    (hcomes : start.Comes edition passes moment) (hsound : start.session.Sound)
    (htext : ¬ selectionBits page <:+: start.session.cursor.text.toList)
    (hfunctions : ∀ entry ∈ start.session.memory.functions,
      ¬ selectionBits page <:+: entry.2.toList)
    {selected : Int} {fetched : Session}
    (hperforms : moment.Performs edition passes (.selectPage selected) fetched) :
    selected ≠ page := by
  rintro rfl
  obtain ⟨hholds, hplace⟩ :=
    (Policy.lawful_barring page).comes hcomes ⟨hsound, hfunctions⟩ htext
  have hselection := selectionBits_infix hholds.sound.cursor hperforms.fetch
  rw [Int.toNat_natCast] at hselection
  exact hplace hselection

/-! ## Isolation -/

/-- A run that starts on another page, and that selects this page neither in its text nor in the
bodies and functions that it runs, leaves the first fifteen registers of the page as they were.
The last one is that of the page that is selected at the end.  It does not matter how the run
ends. -/
theorem execute_other_page (edition : Edition) (limits : Limits) (tracing : Bool)
    (session : Session) (hreached : Reached edition session) (bits : List Char)
    (hbits : AllBits bits) (input : List Char) (page : Fin 8)
    (hpage : session.memory.page ≠ (page : Nat))
    (hselect : ∀ moment selected fetched,
      Moment.Comes edition limits.passes ⟨(session.fed input).onto bits, tracing, limits.depth⟩
        moment →
      moment.Performs edition limits.passes (.selectPage selected) fetched →
        selected ≠ (page : Nat)) :
    let after := sessionAfter (execute edition limits tracing ((session.fed input).onto bits))
    (∀ register : Fin 16, register.val < 15 →
      after.memory.value page register = session.memory.value page register) ∧
    ∃ current : Fin 8, after.memory.page = (current : Nat) ∧ current ≠ page ∧
      after.memory.value page 15 = after.memory.value current 15 := by
  intro after
  let start : Moment := ⟨(session.fed input).onto bits, tracing, limits.depth⟩
  have hsound : start.session.Sound := hreached.sound.fed_onto input hbits
  have haway : session.memory.Elsewhere page (session.memory.value page) :=
    ⟨index?_ne hreached.sound.memory.page hpage, fun _ _ => rfl⟩
  have hend : after.memory.Elsewhere page (session.memory.value page) := by
    refine (Memory.framed_elsewhere page _).run hsound haway ?_
    intro moment selected fetched hcomes hperforms hfetched
    have hregular := (hperforms.sound (hcomes.sound hsound)).2
    exact ⟨index?_ne hregular (hselect moment selected fetched hcomes hperforms), hfetched.own⟩
  have hafter : after.Sound :=
    sessionAfter_of_concludes (Concur.triple (safe_executeAt _ _ _) _ hsound)
  obtain ⟨current, hcurrent⟩ := hafter.memory.exists_page
  refine ⟨hend.own, current, hcurrent, ?_, hafter.memory.shared page current⟩
  rintro rfl
  exact hend.away (page?_of_page hcurrent)

/-- A function and a loop select two other pages and count up the shared register, before a pop
from the empty stack. -/
theorem execute_other_page_called :
    let prepared := "01010101110100001100001001010000".toList
    let session := sessionAfter (execute .extended ⟨5, 9⟩ false (.start prepared false []))
    let bits := ("101010000101001000100011110010000011110" ++
      "1011000001" ++ "10110100001000000100101100010001111110" ++ "0011010000").toList
    let after := sessionAfter (execute .extended ⟨5, 9⟩ false ((session.fed []).onto bits))
    Reached .extended session ∧ AllBits bits ∧
      (session.memory.page = 0 ∧ session.memory.functions = [] ∧
        session.memory.value 5 3 = 9 ∧ session.memory.value 5 15 = 15) ∧
      (stop? (execute .extended ⟨5, 9⟩ false ((session.fed []).onto bits)) =
          some (.fault .emptyStack) ∧
        after.memory.page = ((6 : Fin 8) : Nat) ∧ after.memory.value 6 15 = 18) ∧
      after.memory.value 5 3 = session.memory.value 5 3 ∧
      after.memory.value 5 15 = after.memory.value 6 15 := by
  intro prepared session bits
  dsimp only
  have hprepared : AllBits prepared := by
    have hall : prepared.all isBit := by decide +kernel
    exact List.all_eq_true.mp hall
  have hbits : AllBits bits := by
    have hall : bits.all isBit := by decide +kernel
    exact List.all_eq_true.mp hall
  have hreached : Reached .extended session := .run (.start hprepared false []) ⟨5, 9⟩ false
  have hbefore : session.memory.page = 0 ∧ session.memory.functions = [] ∧
      session.memory.value 5 3 = 9 ∧ session.memory.value 5 15 = 15 := by decide +kernel
  have hbarred : ¬ selectionBits ((5 : Fin 8) : Nat) <:+: bits := by decide +kernel
  have haway : session.memory.page ≠ ((5 : Fin 8) : Nat) := by
    rw [hbefore.1]
    decide
  have hselect : ∀ moment selected fetched,
      Moment.Comes .extended 9 ⟨(session.fed []).onto bits, false, 5⟩ moment →
      moment.Performs .extended 9 (.selectPage selected) fetched →
        selected ≠ ((5 : Fin 8) : Nat) := by
    clear_value session bits
    intro moment selected fetched hcomes hperforms
    refine hcomes.selected_ne (hreached.sound.fed_onto [] hbits) hbarred ?_ hperforms
    change ∀ entry ∈ session.memory.functions, _
    simp [hbefore.2.1]
  obtain ⟨hown, current, hcurrent, -, hshared⟩ :=
    execute_other_page .extended ⟨5, 9⟩ false session hreached bits hbits [] 5 haway hselect
  refine ⟨hreached, hbits, hbefore, ?_⟩
  refine (fun hafter => ⟨hafter, hown 3 (by decide), ?_⟩) (by decide +kernel)
  have hsix : current = 6 := Fin.ext (Int.natCast_inj.mp (hcurrent.symm.trans hafter.2.1))
  exact hsix ▸ hshared

end BitAssembly.Machine
