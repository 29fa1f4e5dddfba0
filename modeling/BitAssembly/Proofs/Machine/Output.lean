import BitAssembly.Proofs.Machine.Performing

/-!
# What was printed stays printed

No action takes anything back from the console, in the text at hand or in the
bodies that it runs.  So what a run prints goes on from what was printed before.
-/

namespace BitAssembly.Machine

variable {edition : Edition} {α : Type} {base : List Emission}

def Printed (base : List Emission) (session : Session) : Prop :=
  base <:+ session.console.emitted

/-- Whatever was printed first is still there after the action. -/
def Appends (base : List Emission) (action : Run α) : Prop :=
  Concur (Single (Printed base)) (fun _ => True) (fun _ => False) action action

theorem indifferent_printed : Indifferent (Single (Printed base)) (fun _ => True) := by
  refine ⟨.single (fun _ h => h.trans (List.suffix_cons _ _)) (fun _ h => h) fun _ => trivial, ?_⟩
  rintro _ session memory ⟨rfl, hbase⟩
  exact ⟨rfl, hbase⟩

theorem Console.emitted_suffix_trace (console : Console) (lines : List String) :
    console.emitted <:+ (console.trace lines).emitted := by
  unfold Console.trace
  split
  · exact List.suffix_refl _
  · exact List.suffix_append _ _

theorem appends_reading (action : Reading α) : Appends base (reading action) := by
  refine Triple.concur fun session hbase => ?_
  rw [reading]
  cases action ⟨session.cursor, session.traced, []⟩ with
  | ok value reader => exact hbase.trans (session.console.emitted_suffix_trace _)
  | error stop reader => exact ⟨hbase.trans (session.console.emitted_suffix_trace _), trivial⟩

theorem appends_onCursor {action : Run α} (h : Appends base action) (cursor : Bits.Cursor) :
    Appends base (onCursor cursor action) := by
  refine concur_onCursor h ?_ ?_
  · rintro _ session ⟨rfl, hbase⟩
    exact ⟨rfl, hbase⟩
  · rintro _ session _ inner ⟨rfl, -⟩ ⟨rfl, hbase⟩
    exact ⟨rfl, hbase⟩

theorem appends_executeText {call : Body → Run Unit} (hcall : ∀ body, Appends base (call body))
    (tracing : Bool) (passes fuel : Nat) :
    Appends base (executeText edition tracing passes call fuel) := by
  refine indifferent_printed.executeText ?_ ?_ hcall (.inl rfl) (.inl rfl)
  · rintro _ other ⟨rfl, -⟩
    rfl
  · rintro _ session ⟨rfl, hbase⟩
    exact appends_reading _ session session ⟨rfl, hbase⟩

theorem appends_executeAt (passes depth : Nat) (tracing : Bool) :
    Appends base (executeAt edition passes depth tracing) := by
  induction depth generalizing tracing with
  | zero => exact .throw trivial
  | succ depth ih =>
      rintro _ session ⟨rfl, hbase⟩
      exact appends_executeText (fun body => appends_onCursor (ih false) (.ofChars body)) tracing
        passes _ session session ⟨rfl, hbase⟩

/-! ## Output -/

theorem Console.output_print (console : Console) (text : String) :
    (console.print text).output = console.output ++ text := by
  simp [Console.output, Console.print]

theorem Console.output_of_suffix {console later : Console} (h : console.emitted <:+ later.emitted) :
    ∃ more, later.output = console.output ++ more := by
  obtain ⟨newer, hnewer⟩ := h
  refine ⟨String.join (newer.reverse.map Emission.text), ?_⟩
  rw [Console.output, ← hnewer, List.reverse_append, List.map_append, String.join_append,
    Console.output]

theorem Appends.output {action : Run α} {session after : Session} {value : α}
    (h : Appends session.console.emitted action) (hrun : action session = .ok value after) :
    ∃ more, after.console.output = session.console.output ++ more := by
  exact Console.output_of_suffix (h.triple.of_ok (List.suffix_refl _) hrun)

end BitAssembly.Machine
