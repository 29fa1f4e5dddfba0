import BitAssembly.Machine.Execute
import BitAssembly.Proofs.Machine.Abreast

/-!
# What is taken off a text

On a text of bits a reading takes bits off the front and leaves the rest.  So a
fetched instruction is regular, and a body is what was passed over, bit for
bit.  A fetch fails only where the text ends, or where the page it needs is
missing.
-/

namespace BitAssembly.Bits

open BitAssembly.Text

structure Cursor.Valid (cursor : Cursor) : Prop where
  bits : AllBits cursor.text.toList
  nonneg : 0 ≤ cursor.pos
  within : cursor.pos ≤ cursor.text.size

end BitAssembly.Bits

namespace BitAssembly.Machine

open BitAssembly.Bits
open BitAssembly.Text

variable {α : Type}

def Reader.Valid (reader : Reader) : Prop :=
  reader.cursor.Valid

structure Reader.OnBits (reader : Reader) : Prop where
  bits : AllBits reader.rest
  nonneg : 0 ≤ reader.cursor.pos
  within : reader.cursor.pos ≤ reader.cursor.text.size

theorem Reader.Valid.onBits {reader : Reader} (h : reader.Valid) : reader.OnBits :=
  ⟨fun c hc => Cursor.Valid.bits h c (List.mem_of_mem_drop hc), Cursor.Valid.nonneg h,
    Cursor.Valid.within h⟩

theorem Reader.length_rest_le (reader : Reader) :
    reader.rest.length ≤ reader.cursor.text.size := by
  rw [rest, Cursor.rest, List.length_drop, Array.length_toList]
  exact Nat.sub_le _ _

structure Passed (before : Reader) (bits : List Char) (after : Reader) : Prop where
  rest : before.rest = bits ++ after.rest
  cursor : after.cursor = before.cursor.advance bits.length

theorem Passed.of_cursor {before after : Reader} (h : after.cursor = before.cursor) :
    Passed before [] after := by
  refine ⟨?_, ?_⟩
  · rw [Reader.rest, Reader.rest, h]
    rfl
  · simp [h, Cursor.advance]

theorem Passed.trans {first second third : Reader} {bits more : List Char}
    (h₁ : Passed first bits second) (h₂ : Passed second more third) :
    Passed first (bits ++ more) third := by
  constructor
  · rw [h₁.rest, h₂.rest, List.append_assoc]
  · rw [h₂.cursor, h₁.cursor]
    simp [Cursor.advance, Int.add_assoc]

theorem Passed.onBits {before after : Reader} {bits : List Char} (h : Passed before bits after)
    (hbefore : before.OnBits) : after.OnBits := by
  have hbits := hbefore.bits
  have hnonneg := hbefore.nonneg
  have hlength : before.rest.length = before.cursor.text.size - before.cursor.pos.toNat := by
    rw [Reader.rest, Cursor.rest, List.length_drop, Array.length_toList]
  have hwithin := hbefore.within
  rw [h.rest, allBits_append] at hbits
  rw [h.rest, List.length_append] at hlength
  refine ⟨hbits.2, ?_, ?_⟩
  · rw [h.cursor]
    simp only [Cursor.advance]
    omega
  · rw [h.cursor]
    simp only [Cursor.advance]
    omega

theorem Passed.valid {before after : Reader} {bits : List Char} (h : Passed before bits after)
    (hvalid : before.Valid) : after.Valid := by
  have hcursor : before.cursor.Valid := hvalid
  have hafter := h.onBits hvalid.onBits
  refine ⟨?_, hafter.nonneg, hafter.within⟩
  rw [h.cursor]
  exact hcursor.bits

theorem read_passes {reader : Reader} (h : reader.OnBits) (count : Nat) :
    Concludes (fun chars after => chars.length = count ∧ Passed reader chars after)
      (fun stop after => stop = .fault .endOfText ∧ after = reader) (read count reader) := by
  rw [read_apply, Cursor.peek?_eq_take h.nonneg h.within]
  by_cases hfits : count ≤ reader.cursor.rest.length
  · have hlength : (reader.cursor.rest.take count).length = count := List.length_take_of_le hfits
    rw [if_pos hfits]
    refine ⟨hlength, ?_, ?_⟩
    · have hrest : (reader.cursor.advance count).rest = reader.cursor.rest.drop count :=
        Cursor.rest_advance _ _ _ (Int.toNat_of_nonneg h.nonneg).symm
      rw [Reader.rest, Reader.rest, hrest, List.take_append_drop]
    · rw [hlength]
  · rw [if_neg hfits]
    exact ⟨rfl, rfl⟩

/-- On bits the action answers with a value that stands in `Post` to the bits it took, or it fails
at the end of the text or for a reason that stands in `Fails` to them. -/
def TakesBits (Post : List Char → α → Prop) (Fails : List Char → Stop → Prop) (action : Reading α) :
    Prop :=
  ∀ reader, reader.OnBits →
    Concludes (fun value after => ∃ bits, Passed reader bits after ∧ Post bits value)
      (fun stop after => ∃ bits, Passed reader bits after ∧
        (stop = .fault .endOfText ∨ Fails bits stop)) (action reader)

theorem Pairing.Abreast.takes {pairing : Pairing} {Post : List Char → α → Prop}
    {Fails : List Char → Stop → Prop} {first second : Reading α}
    (h : pairing.Abreast Post Fails first second) (hproper : pairing.proper) :
    TakesBits Post Fails first := by
  induction h with
  | pure h => exact fun reader _ => ⟨[], .of_cursor rfl, h hproper⟩
  | throw h => exact fun reader _ => ⟨[], .of_cursor rfl, .inr (h hproper)⟩
  | spent _ h => exact fun reader _ => ⟨[], .of_cursor rfl, .inr (h hproper)⟩
  | noting line _ ih =>
      intro reader hreader
      cases pairing.tracing with
      | false => exact ih reader hreader
      | true =>
          -- A note leaves the reader where it is.
          refine (ih { reader with traces := line :: reader.traces }
            ⟨hreader.bits, hreader.nonneg, hreader.within⟩).mono ?_ ?_
          · rintro value after ⟨bits, hpassed, hpost⟩
            exact ⟨bits, ⟨hpassed.rest, hpassed.cursor⟩, hpost⟩
          · rintro stop after ⟨bits, hpassed, hstop⟩
            exact ⟨bits, ⟨hpassed.rest, hpassed.cursor⟩, hstop⟩
  | taking count hcount _ ih =>
      obtain ⟨size, rfl⟩ := Int.eq_ofNat_of_zero_le (hcount hproper)
      intro reader hreader
      refine Concludes.bind ((read_passes hreader size).mono (fun _ _ h => h) ?_) ?_
      · rintro _ _ ⟨rfl, rfl⟩
        exact ⟨[], .of_cursor rfl, .inl rfl⟩
      · rintro chars middle _ ⟨hlength, hpassed⟩
        have hbits := hreader.bits
        rw [hpassed.rest, allBits_append] at hbits
        have hchars : AllBits chars ∧ (chars.length : Int) = size :=
          ⟨hbits.1, congrArg Nat.cast hlength⟩
        refine (ih chars (fun _ => hchars) middle (hpassed.onBits hreader)).mono ?_ ?_
        · rintro value after ⟨more, hmore, hpost⟩
          exact ⟨chars ++ more, hpassed.trans hmore, hpost⟩
        · rintro stop after ⟨more, hmore, hstop⟩
          exact ⟨chars ++ more, hpassed.trans hmore, hstop⟩
  | measuring _ ih =>
      intro reader hreader
      refine (ih _ _ (.inl rfl) reader hreader).mono (fun _ _ h => h) ?_
      -- More characters than the text has are not taken off it.
      rintro stop after ⟨bits, hpassed, hstop | hfails | ⟨-, hmore⟩⟩
      · exact ⟨bits, hpassed, .inl hstop⟩
      · exact ⟨bits, hpassed, .inr hfails⟩
      · have hlength := reader.length_rest_le
        rw [hpassed.rest, List.length_append] at hlength
        omega

variable {edition : Edition}

theorem takesBits_fetchBody (tracing : Bool) (spare : Nat) :
    TakesBits (fun bits body => body = bits.toArray ∧ Spans edition 1 bits) (fun _ _ => False)
      (fetchBody edition tracing spare) := by
  have h : Pairing.Abreast ⟨True, False, tracing, tracing⟩ _ (fun _ _ => False)
      (fetchBody edition tracing spare) (fetchBody edition tracing spare) :=
    abreast_fetchBody (.inl rfl)
  exact h.takes trivial

theorem takesBits_fetch (tracing ready : Bool) (spare : Nat) :
    TakesBits (Found edition) (Missing ready) (fetch edition tracing ready spare) := by
  have h : Pairing.Abreast ⟨True, False, tracing, tracing⟩ _ _ (fetch edition tracing ready spare)
      (fetch edition tracing ready spare) := abreast_fetch (.inl rfl)
  exact h.takes trivial

theorem fetchNext_takes (tracing : Bool) (passes : Nat) {session : Session}
    (h : session.cursor.Valid) :
    Concludes
      (fun instruction fetched => fetched.memory = session.memory ∧ ∃ bits,
        Found edition bits instruction ∧ session.cursor.rest = bits ++ fetched.cursor.rest ∧
          fetched.cursor = session.cursor.advance bits.length)
      (fun stop fetched => fetched.memory = session.memory ∧ fetched.cursor.Valid ∧
        (stop = .fault .endOfText ∨ session.memory.page? = none ∧ stop = .fault .noRegister))
      (fetchNext edition tracing passes session) := by
  have hreader : Reader.Valid ⟨session.cursor, session.traced, []⟩ := h
  have htakes := @takesBits_fetch edition tracing session.memory.page?.isSome passes _
    hreader.onBits
  change Concludes _ _ (reading (fetch edition tracing session.memory.page?.isSome passes) session)
  rw [reading]
  revert htakes
  generalize fetch edition tracing session.memory.page?.isSome passes _ = result
  intro htakes
  cases result with
  | ok instruction reader =>
      obtain ⟨bits, hpassed, hfound⟩ := htakes
      exact ⟨rfl, bits, hfound, hpassed.rest, hpassed.cursor⟩
  | error stop reader =>
      obtain ⟨bits, hpassed, hstop⟩ := htakes
      refine ⟨rfl, hpassed.valid hreader, hstop.imp_right fun hmissing => ?_⟩
      exact ⟨Option.isNone_iff_eq_none.mp (by simpa using hmissing.1), hmissing.2⟩

theorem fetchNext_found {tracing : Bool} {passes : Nat} {session fetched : Session}
    {instruction : Instruction} (hvalid : session.cursor.Valid)
    (h : fetchNext edition tracing passes session = .ok instruction fetched) :
    fetched.memory = session.memory ∧ ∃ bits, Found edition bits instruction ∧
      session.cursor.rest = bits ++ fetched.cursor.rest ∧
      fetched.cursor = session.cursor.advance bits.length := by
  have htakes := @fetchNext_takes edition tracing passes session hvalid
  rwa [h] at htakes

end BitAssembly.Machine
