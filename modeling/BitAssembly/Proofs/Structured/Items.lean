import BitAssembly.Proofs.Structured.Fetching

/-!
# Instructions in a row

Tokens need not make up a program, since blocks may be left open or closed too
often.  They are complete if they are the tokens of whole instructions, heads of
blocks and closing brackets in a row.  Then a fetch that starts where the bits of
one of these start reads these bits and, behind a head, the body of the block.
-/

namespace BitAssembly.Structured

open BitAssembly.Bits
open BitAssembly.Machine
open BitAssembly.Source
open BitAssembly.Text

variable {edition : Edition}

inductive Item where
  | plain (instruction : Plain)
  | opening (head : Head)
  | close
  deriving DecidableEq, Repr

def Item.fits (edition : Edition) : Item → Bool
  | .plain instruction => instruction.fits edition
  | _ => true

def Item.tokens (edition : Edition) : Item → List Token
  | .plain instruction => instruction.tokens edition
  | .opening head => head.tokens
  | .close => [closeToken]

def Item.bits (edition : Edition) : Item → List Char
  | .plain instruction => instruction.operation ++ instruction.fields edition
  | .opening head => ['1', '0', '1'] ++ head.fields
  | .close => ['1', '1', '0']

def Complete (edition : Edition) (tokens : List Token) : Prop :=
  ∃ items : List Item, (∀ item ∈ items, item.fits edition) ∧
    tokens = items.flatMap (Item.tokens edition)

theorem complete_nil : Complete edition [] :=
  ⟨[], by simp, rfl⟩

theorem complete_item {item : Item} (h : item.fits edition) :
    Complete edition (item.tokens edition) :=
  ⟨[item], by simpa using h, by simp⟩

theorem Complete.append {first second : List Token} (hfirst : Complete edition first)
    (hsecond : Complete edition second) : Complete edition (first ++ second) := by
  obtain ⟨items, hitems, rfl⟩ := hfirst
  obtain ⟨more, hmore, rfl⟩ := hsecond
  exact ⟨items ++ more, List.forall_mem_append.mpr ⟨hitems, hmore⟩, List.flatMap_append.symm⟩

/-! ## Bits -/

theorem tokenBits_item {item : Item} (h : item.fits edition) :
    tokenBits edition (item.tokens edition) = item.bits edition := by
  cases item with
  | plain instruction => exact tokenBits_plain h
  | opening head => exact tokenBits_head head
  | close =>
      have hcode : (closeToken, ['1', '1', '0']) ∈ fixedCodes := by simp [fixedCodes]
      exact tokenBits_fixed hcode []

theorem tokenBits_items {items : List Item} (h : ∀ item ∈ items, item.fits edition) :
    tokenBits edition (items.flatMap (Item.tokens edition)) =
      items.flatMap (Item.bits edition) := by
  induction items with
  | nil => rfl
  | cons item items ih =>
      rw [List.forall_mem_cons] at h
      rw [List.flatMap_cons, List.flatMap_cons, tokenBits_append, tokenBits_item h.1, ih h.2]

/-! ## Fetching -/

/-- The action takes these bits off any text that goes on with them, and then does as `next`. -/
def Leads {α : Type} (action : Reading α) (bits : List Char) (next : Reading α) : Prop :=
  ∀ (reader : Reader) (rest : List Char), reader.Placed → reader.rest = bits ++ rest →
    action reader = next (reader.forward bits.length)

theorem leads_refl {α : Type} (action : Reading α) : Leads action [] action := by
  intro reader rest _ _
  rw [List.length_nil, Reader.forward_zero]

theorem leads_of_reads {α : Type} {action : Reading α} {bits : List Char} {value : α}
    (h : Reads action bits value) : Leads action bits (pure value) :=
  h

theorem Leads.after {α β : Type} {first : Reading α} {second : α → Reading β} {next : Reading β}
    {bits more : List Char} {a : α} (hfirst : Reads first bits a)
    (h : Leads (second a) more next) : Leads (first >>= second) (bits ++ more) next := by
  intro reader rest hplaced hrest
  rw [List.append_assoc] at hrest
  rw [hfirst.bind_apply second hplaced hrest, h _ rest (hplaced.forward hrest)
    (Reader.rest_forward_append hplaced hrest), Reader.forward_forward, List.length_append]

theorem Leads.after_last {α β : Type} {first : Reading α} {second : α → Reading β}
    {bits : List Char} {a : α} (hfirst : Reads first bits a) :
    Leads (first >>= second) bits (second a) := by
  have h := Leads.after hfirst (leads_refl (second a))
  rwa [List.append_nil] at h

def Item.fetched (edition : Edition) (spare : Nat) : Item → Reading Instruction
  | .plain instruction => pure instruction.instruction
  | .opening head => do return head.instruction (← fetchBody edition false spare)
  | .close => pure .close

theorem leads_head (head : Head) (spare : Nat) :
    Leads (fetch edition false true spare) (['1', '0', '1'] ++ head.fields)
      ((Item.opening head).fetched edition spare) := by
  refine Leads.after (reads_read rfl) ?_
  cases head with
  | onlyIf condition =>
      have hkind : Reads (operand 3) ['0', '0', '0'] (0 : Nat) :=
        reads_operand 3 0 (by decide) (by decide)
      exact .after hkind (.after_last (reads_test condition))
  | whileTrue condition =>
      have hkind : Reads (operand 3) ['1', '1', '0'] (6 : Nat) :=
        reads_operand 3 6 (by decide) (by decide)
      exact .after hkind (.after_last (reads_test condition))
  | times register =>
      have hkind : Reads (operand 3) ['0', '0', '1'] (1 : Nat) :=
        reads_operand 3 1 (by decide) (by decide)
      exact .after hkind (.after_last (reads_register register))
  | count register passes =>
      have hkind : Reads (operand 3) ['1', '0', '1'] (5 : Nat) :=
        reads_operand 3 5 (by decide) (by decide)
      have hfields : (Head.count register passes).fields = ['1', '0', '1'] ++
          (['0'] ++ (binaryDigits 4 register ++ binaryDigits 8 passes.toNat)) := rfl
      rw [hfields]
      exact .after hkind (.after_last (reads_bound register passes))
  | countTo register limit =>
      have hkind : Reads (operand 3) ['1', '0', '1'] (5 : Nat) :=
        reads_operand 3 5 (by decide) (by decide)
      have hfields : (Head.countTo register limit).fields = ['1', '0', '1'] ++
          (['1'] ++ (binaryDigits 4 register ++ binaryDigits 4 limit)) := rfl
      rw [hfields]
      exact .after hkind (.after_last (reads_registerBound register limit))
  | define name =>
      have hkind : Reads (operand 3) ['0', '1', '0'] (2 : Nat) :=
        reads_operand 3 2 (by decide) (by decide)
      exact .after hkind (.after_last (reads_register name))

theorem leads_item {item : Item} (h : item.fits edition) (spare : Nat) :
    Leads (fetch edition false true spare) (item.bits edition) (item.fetched edition spare) := by
  cases item with
  | plain instruction => exact leads_of_reads (reads_fetch_plain h spare)
  | opening head => exact leads_head head spare
  | close => exact leads_of_reads (reads_fetch_close spare)

/-- The bits are those of the items, and a fetch where one of them starts reads just that one. -/
def Decodes (edition : Edition) (bits : List Char) (items : List Item) : Prop :=
  bits = items.flatMap (Item.bits edition) ∧
    ∀ before item after, items = before ++ item :: after → ∀ spare (reader : Reader),
      reader.traced = false →
      reader.cursor = ⟨bits.toArray, (before.flatMap (Item.bits edition)).length⟩ →
      fetch edition false true spare reader =
        item.fetched edition spare (reader.forward (item.bits edition).length)

theorem decodes_items {items : List Item} (h : ∀ item ∈ items, item.fits edition) :
    Decodes edition (tokenBits edition (items.flatMap (Item.tokens edition))) items := by
  refine ⟨tokenBits_items h, ?_⟩
  rintro before item after rfl spare reader htraced hcursor
  rw [tokenBits_items h, List.flatMap_append, List.flatMap_cons] at hcursor
  have hitem : item.fits edition := h item (by simp)
  refine leads_item hitem spare reader (after.flatMap (Item.bits edition)) ⟨htraced, ?_, ?_⟩ ?_
  · rw [hcursor]
    exact Int.natCast_nonneg _
  · rw [hcursor, List.size_toArray, List.length_append, Int.natCast_add]
    exact Int.le_add_of_nonneg_right (Int.natCast_nonneg _)
  · rw [Reader.rest, Cursor.rest, hcursor, Int.toNat_natCast, List.toList_toArray, List.drop_left]

end BitAssembly.Structured
