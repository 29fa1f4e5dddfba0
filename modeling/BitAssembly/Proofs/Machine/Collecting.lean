import BitAssembly.Proofs.Machine.Taking
import BitAssembly.Proofs.Machine.Tracing

/-!
# Bodies that delimit themselves

The bits of a body show where it ends: with anything behind them they are taken
again, and with any of them missing the text ends too early.
-/

namespace BitAssembly.Machine

open BitAssembly.Bits
open BitAssembly.Text

variable {α : Type} {edition : Edition}

/-! ## Readers without their notes -/

def landing : EStateM.Result Stop Reader α → Except Stop α × Cursor
  | .ok value reader => (.ok value, reader.cursor)
  | .error stop reader => (.error stop, reader.cursor)

def Reader.plain (reader : Reader) : Reader :=
  ⟨reader.cursor, false, []⟩

theorem Unnoticed.landing {first second : Reading α} (reader : Reader)
    (h : Unnoticed reader.cursor.text first second) :
    Machine.landing (second reader) = Machine.landing (first reader.plain) := by
  have hrelated := h reader.plain reader ⟨rfl, rfl, rfl, rfl⟩
  revert hrelated
  generalize first reader.plain = result
  generalize second reader = other
  intro hrelated
  cases hrelated with
  | ok h => exact congrArg (Prod.mk _) h.cursor
  | error h =>
      obtain ⟨rfl, hwatches, -⟩ := h
      exact congrArg (Prod.mk _) hwatches.cursor
  | excused h => exact h.elim

theorem landing_fetchBody (tracing : Bool) (spare : Nat) (reader : Reader) :
    landing (fetchBody edition tracing spare reader) =
      landing (fetchBody edition false spare reader.plain) :=
  (unnoticed_fetchBody tracing spare).landing reader

theorem exists_of_landing {result : EStateM.Result Stop Reader α} {value : α} {cursor : Cursor}
    (h : landing result = (.ok value, cursor)) :
    ∃ reader, result = .ok value reader ∧ reader.cursor = cursor := by
  cases result with
  | ok answer reader =>
      cases h
      exact ⟨reader, rfl, rfl⟩
  | error stop reader => cases h

theorem Reader.Valid.placed {reader : Reader} (h : reader.Valid) : reader.plain.Placed :=
  ⟨rfl, Cursor.Valid.nonneg h, Cursor.Valid.within h⟩

/-! ## Marks -/

def Reader.onto (traced : Bool) (text : List Char) : Reader :=
  ⟨.ofChars text.toArray, traced, []⟩

/-- A body ends with its mark.  Whatever stands behind it, it is taken as it stands and no
more; and no part of it is taken, for the text ends first. -/
structure Delimits (edition : Edition) (body : Body) : Prop where
  marked : ∃ front, body.toList = front ++ ['1', '1', '0']
  again : ∀ (tracing traced : Bool) (spare : Nat) (rest : List Char),
    landing (fetchBody edition tracing spare (.onto traced (body.toList ++ rest))) =
      (.ok body, ⟨(body.toList ++ rest).toArray, body.size⟩)
  minimal : ∀ (tracing traced : Bool) (spare : Nat) (part : List Char),
    part <+: body.toList → part ≠ body.toList →
      ∃ after, fetchBody edition tracing spare (.onto traced part) =
        .error (.fault .endOfText) after

theorem Spans.marked {depth : Nat} {bits : List Char} (h : Spans edition depth bits) :
    ∃ front, bits = front ++ ['1', '1', '0'] := by
  induction h with
  | last => exact ⟨[], rfl⟩
  | close _ ih =>
      obtain ⟨front, rfl⟩ := ih
      exact ⟨['1', '1', '0'] ++ front, rfl⟩
  | @plain _ op operands _ _ _ ih =>
      obtain ⟨front, rfl⟩ := ih
      exact ⟨op ++ (operands ++ front), by simp⟩
  | @inner _ head _ _ _ _ ih =>
      obtain ⟨front, rfl⟩ := ih
      exact ⟨['1', '0', '1'] ++ (head ++ front), by simp⟩

/-- Of two derivations that start alike, neither goes beyond the other. -/
theorem Spans.unique {bits more rest later : List Char} (h : Spans edition 1 bits)
    (hmore : Spans edition 1 more) (htext : bits ++ rest = more ++ later) : bits = more :=
  ((reads_fetchBody h 0).unique (reads_fetchBody hmore 0) htext).1

theorem Spans.delimits {bits : List Char} (hbits : AllBits bits) (h : Spans edition 1 bits) :
    Delimits edition bits.toArray := by
  refine ⟨h.marked, fun tracing traced spare rest => ?_, ?_⟩
  · have hplaced : (Reader.onto traced (bits ++ rest)).plain.Placed :=
      ⟨rfl, Int.le_refl 0, Int.natCast_nonneg _⟩
    rw [landing_fetchBody, reads_fetchBody h spare _ rest hplaced rfl]
    simp [landing, Reader.forward, Reader.plain, Reader.onto, Cursor.ofChars, Cursor.advance]
  · intro tracing traced spare part hpart hne
    obtain ⟨missing, hwhole⟩ := hpart
    have hwhole : part ++ missing = bits := hwhole
    have hvalid : (Reader.onto traced part).Valid := by
      rw [← hwhole, allBits_append] at hbits
      exact ⟨hbits.1, Int.le_refl 0, Int.natCast_nonneg _⟩
    have hresult := @takesBits_fetchBody edition tracing spare (.onto traced part) hvalid.onBits
    cases hfetch : fetchBody edition tracing spare (.onto traced part) with
    | error stop after =>
        rw [hfetch] at hresult
        obtain ⟨-, -, hstop | hnever⟩ := hresult
        · exact ⟨after, by rw [hstop]⟩
        · exact hnever.elim
    | ok body after =>
        -- What was taken off the part would be all of the bits.
        rw [hfetch] at hresult
        obtain ⟨taken, hpassed, -, hspans⟩ := hresult
        have hfront : part = taken ++ after.rest := hpassed.rest
        have htext : taken ++ (after.rest ++ missing) = bits ++ [] := by
          rw [← List.append_assoc, ← hfront, hwhole, List.append_nil]
        have hall : taken = bits := hspans.unique h htext
        have hlength := congrArg List.length hwhole
        rw [hfront, hall, List.length_append, List.length_append] at hlength
        have hnone : missing = [] := List.length_eq_zero_iff.mp (by omega)
        rw [hnone, List.append_nil] at hwhole
        exact absurd hwhole hne

end BitAssembly.Machine
