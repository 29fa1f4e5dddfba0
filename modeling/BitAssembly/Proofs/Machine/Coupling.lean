import BitAssembly.Proofs.Machine.Taking

/-!
# Two readers of one text

The second reader has the text of the first as a part of its own.  Up to the
end of that text both fetch the same; only where the first one runs out of text
may the second one go on.
-/

namespace BitAssembly.Bits

open BitAssembly.Text

def Cursor.within (cursor : Cursor) (before more : List Char) : Cursor :=
  ⟨before.toArray ++ cursor.text ++ more.toArray, cursor.pos + before.length⟩

theorem Cursor.Valid.rest_within {cursor : Cursor} (h : cursor.Valid) (before more : List Char) :
    (cursor.within before more).rest = cursor.rest ++ more := by
  have hnonneg := h.nonneg
  have hwithin := h.within
  have hpos : (cursor.pos + before.length).toNat = before.length + cursor.pos.toNat := by omega
  simp only [Cursor.rest, Cursor.within, Array.toList_append]
  rw [hpos, List.append_assoc, ← List.drop_drop, List.drop_left,
    List.drop_append_of_le_length (by rw [Array.length_toList]; omega)]

theorem Cursor.Valid.peek?_within {cursor : Cursor} (h : cursor.Valid) (before more : List Char)
    (count : Nat) :
    (cursor.within before more).peek? count =
      if count ≤ cursor.rest.length + more.length then
        some ((cursor.rest ++ more).take count)
      else none := by
  have hnonneg := h.nonneg
  have hwithin := h.within
  rw [Cursor.peek?_eq_take, h.rest_within, List.length_append]
  · simp only [Cursor.within]
    omega
  · simp only [Cursor.within, Array.size_append, List.size_toArray]
    omega

end BitAssembly.Bits

namespace BitAssembly.Machine

open BitAssembly.Bits
open BitAssembly.Text

variable {α : Type}

structure Coupling where
  before : List Char
  more : List Char

structure Coupling.Readers (coupling : Coupling) (first second : Reader) : Prop where
  valid : first.Valid
  cursor : second.cursor = first.cursor.within coupling.before coupling.more
  quiet : first.traced = false ∧ first.traces = []
  silent : second.traced = false ∧ second.traces = []

/-- At the end of its text the first reader stops where the second may have more. -/
def Coupling.Excuses (coupling : Coupling) (stop : Stop) : Prop :=
  coupling.more ≠ [] ∧ stop = .fault .endOfText

def Coupling.InStep (coupling : Coupling) (first second : Reading α) : Prop :=
  Concur coupling.Readers (fun _ => True) coupling.Excuses first second

variable {coupling : Coupling}

theorem Coupling.Readers.read {reader other : Reader} (h : coupling.Readers reader other)
    (count : Nat) :
    Related (fun chars after another => coupling.Readers after another ∧ AllBits chars ∧
        chars.length = count)
      (Jointly coupling.Readers fun _ => True) coupling.Excuses (read count reader)
      (read count other) := by
  have hvalid : reader.cursor.Valid := h.valid
  have hpassed := read_passes h.valid.onBits count
  rw [read_apply, read_apply, h.cursor, hvalid.peek?_within]
  rw [read_apply] at hpassed
  rw [Cursor.peek?_eq_take hvalid.nonneg hvalid.within] at hpassed ⊢
  by_cases hfits : count ≤ reader.cursor.rest.length
  · rw [if_pos hfits] at hpassed
    rw [if_pos hfits, if_pos (by omega), List.take_append_of_le_length hfits]
    have hbits := h.valid.onBits.bits
    rw [hpassed.2.rest, allBits_append] at hbits
    refine .ok ⟨⟨hpassed.2.valid h.valid, ?_, ?_, ?_⟩, hbits.1, hpassed.1⟩
    · simp only [Cursor.within, Cursor.advance, Cursor.mk.injEq, true_and]
      omega
    · simp only [h.quiet, Bool.false_eq_true, if_false, and_self]
    · simp only [h.silent, Bool.false_eq_true, if_false, and_self]
  · rw [if_neg hfits]
    by_cases hmore : coupling.more = []
    · rw [if_neg (by rw [hmore, List.length_nil]; omega)]
      exact .error ⟨rfl, h, trivial⟩
    · exact .excused ⟨hmore, rfl⟩

/-- Texts of different sizes are granted different numbers of passes. -/
theorem Pairing.Abreast.concur_readers {pairing : Pairing} {Post : List Char → α → Prop}
    {Fails : List Char → Stop → Prop} {first second : Reading α}
    (h : pairing.Abreast Post Fails first second) (hproper : pairing.proper)
    (hgranted : pairing.granted) (hquiet : pairing.tracing = false ∧ pairing.traced = false) :
    Concur coupling.Readers (fun _ => True)
      (fun stop => coupling.Excuses stop ∨ stop = .unfinished) first second := by
  induction h with
  | pure _ => exact .pure _
  | throw _ => exact .throw trivial
  | spent _ _ => exact fun _ _ _ => .excused (.inr rfl)
  | noting line _ ih =>
      rw [hquiet.1, hquiet.2]
      exact ih
  | taking count hcount _ ih =>
      obtain ⟨size, rfl⟩ := Int.eq_ofNat_of_zero_le (hcount hproper)
      intro reader other hreaders
      have hread : Related _ _ (fun stop => coupling.Excuses stop ∨ stop = .unfinished) _ _ :=
        (hreaders.read size).mono (fun _ _ _ h => h) (fun _ _ _ _ h => h) fun _ => .inl
      refine hread.bind fun chars after another _ hchars => ?_
      refine ih chars (fun _ => ?_) after another hchars.1
      exact ⟨hchars.2.1, congrArg Nat.cast hchars.2.2⟩
  | measuring _ ih =>
      intro reader other hreaders
      refine ih _ _ (.inr ⟨hgranted, ?_⟩) reader other hreaders
      rw [hreaders.cursor]
      simp only [Cursor.within, Array.size_append]
      omega

theorem inStep_fetch {edition : Edition} (ready : Bool) (spare : Nat) :
    coupling.InStep (fetch edition false ready spare) (fetch edition false ready spare) := by
  have hfetch : Pairing.Abreast ⟨True, True, false, false⟩ _ _
      (fetch edition false ready spare) (fetch edition false ready spare) :=
    abreast_fetch (.inl rfl)
  intro reader other hreaders
  have hrelated := hfetch.concur_readers trivial trivial ⟨rfl, rfl⟩ reader other hreaders
  have htakes := @takesBits_fetch edition false ready spare reader hreaders.valid.onBits
  revert hrelated htakes
  generalize fetch edition false ready spare reader = result
  generalize fetch edition false ready spare other = result'
  intro hrelated htakes
  cases hrelated with
  | ok h => exact .ok h
  | error h => exact .error h
  | excused h =>
      obtain h | rfl := h
      · exact .excused h
      · -- A fetch from a text of bits does not use up its passes.
        obtain ⟨-, -, h | ⟨-, h⟩⟩ := htakes <;> cases h

end BitAssembly.Machine
