import BitAssembly.Proofs.Lint.Programs
import BitAssembly.Proofs.Structured.Items

/-!
# Complete instructions

What a rule demands behind a mnemonic is what an instruction has there.  So
tokens are complete exactly if every mnemonic is followed by its operands and no
operand stands elsewhere.
-/

namespace BitAssembly.Lint

open BitAssembly.Source
open BitAssembly.Structured

variable {edition : Edition} {name : Token} {slots : List (List Char)}
variable {operands rest tokens : List Token}

/-! ## Operands of a mnemonic -/

/-- What each operand of a mnemonic may be.  The text instruction, whose operands depend on each
other, is left out. -/
def slots? (edition : Edition) (name : Token) : Option (List (List Char)) :=
  if name = "NOP".toList then some []
  else if name = "DPI".toList then some [digits, digits]
  else (outline? edition name).map fun outline => outline.1.slots

theorem slots?_of_outline {shape : Shape} {opens : Option String}
    (h : outline? edition name = some (shape, opens)) : slots? edition name = some shape.slots := by
  have hnone : (outline? edition "NOP".toList).isNone ∧ (outline? edition "DPI".toList).isNone := by
    cases edition <;> decide +kernel
  have hpause : name ≠ "NOP".toList := by
    rintro rfl
    rw [h] at hnone
    cases hnone.1
  have hbyte : name ≠ "DPI".toList := by
    rintro rfl
    rw [h] at hnone
    cases hnone.2
  rw [slots?, if_neg hpause, if_neg hbyte, h]
  rfl

theorem slots?_cases (h : slots? edition name = some slots) :
    (name = "NOP".toList ∧ slots = []) ∨ (name = "DPI".toList ∧ slots = [digits, digits]) ∨
      ∃ shape opens, outline? edition name = some (shape, opens) ∧ slots = shape.slots := by
  rw [slots?] at h
  split at h
  · next hname =>
      cases h
      exact .inl ⟨hname, rfl⟩
  split at h
  · next hname =>
      cases h
      exact .inr (.inl ⟨hname, rfl⟩)
  · obtain ⟨⟨shape, opens⟩, houtline, hslots⟩ := Option.map_eq_some_iff.mp h
    exact .inr (.inr ⟨shape, opens, houtline, hslots.symm⟩)

theorem isMnemonic_of_slots? (h : slots? edition name = some slots) : isMnemonic name := by
  rcases slots?_cases h with ⟨rfl, -⟩ | ⟨rfl, -⟩ | ⟨shape, opens, houtline, -⟩
  · decide
  · decide
  · exact (outline?_regular houtline).1

theorem close_not_mem_slot (h : slots? edition name = some slots) :
    ∀ slot ∈ slots, ']' ∉ slot := by
  have hslots : ∀ slot ∈ slots, slot = digits ∨ slot = signs := by
    rcases slots?_cases h with ⟨-, rfl⟩ | ⟨-, rfl⟩ | ⟨shape, opens, -, rfl⟩
    · simp
    · simp
    · exact shape.slots_operands
  intro slot hslot
  rcases hslots slot hslot with rfl | rfl <;> decide

def Filled (slots : List (List Char)) (operands : List Token) : Prop :=
  List.Forall₂ (fun slot token => ∃ c ∈ slot, token = [c]) slots operands

theorem Fills.filled {pieces : List (List Char × Token)} (h : Fills slots pieces) :
    Filled slots (pieces.map Prod.snd) := by
  induction h with
  | nil => exact .nil
  | cons gap hc _ ih => exact .cons ⟨_, hc, rfl⟩ ih

theorem Suits.filled (h : Suits slots operands) : Filled slots operands := by
  have hfills := h (operands.map fun token => ([], token)) (by simp)
  simpa using hfills.filled

theorem filled_nil (h : Filled [] operands) : operands = [] :=
  List.forall₂_nil_left_iff.mp h

theorem filled_cons {slot : List Char} (h : Filled (slot :: slots) operands) :
    ∃ c ∈ slot, ∃ others, operands = [c] :: others ∧ Filled slots others := by
  obtain ⟨token, others, ⟨c, hc, rfl⟩, hothers, rfl⟩ := List.forall₂_cons_left_iff.mp h
  exact ⟨c, hc, others, rfl, hothers⟩

theorem filled_append {more : List (List Char)} (h : Filled (slots ++ more) operands) :
    ∃ first second, operands = first ++ second ∧ Filled slots first ∧ Filled more second := by
  induction slots generalizing operands with
  | nil => exact ⟨[], operands, rfl, .nil, h⟩
  | cons slot slots ih =>
      obtain ⟨c, hc, others, rfl, hothers⟩ := filled_cons h
      obtain ⟨first, second, rfl, hfirst, hsecond⟩ := ih hothers
      exact ⟨[c] :: first, second, rfl, .cons ⟨c, hc, rfl⟩ hfirst, hsecond⟩

/-! ## Items by their mnemonics -/

theorem item_cases {item : Item} (h : item.fits edition) :
    item.tokens edition = [closeToken] ∨
      (∃ value rest, item.tokens edition = "DPM".toList :: digitToken value :: rest) ∨
      ∃ name slots operands, slots? edition name = some slots ∧ Filled slots operands ∧
        item.tokens edition = name :: operands := by
  cases item with
  | close => exact .inl rfl
  | opening head =>
      obtain ⟨name, shape, operands, houtline, hsuits, htokens⟩ := head_outline edition head
      exact .inr (.inr ⟨name, _, operands, slots?_of_outline houtline, hsuits.filled, htokens⟩)
  | plain instruction =>
      rcases plain_outline instruction h with
        ⟨name, shape, operands, houtline, hsuits, htokens, -⟩ | rfl | ⟨byte, rfl⟩ | htext
      · exact .inr (.inr ⟨name, _, operands, slots?_of_outline houtline, hsuits.filled, htokens⟩)
      · exact .inr (.inr ⟨_, [], [], rfl, .nil, rfl⟩)
      · exact .inr (.inr ⟨_, _, _, rfl, (suits_numberTokens 2 byte.toNat).filled, rfl⟩)
      · cases instruction with
        | write bytes hlength => exact .inr (.inl ⟨_, _, rfl⟩)
        | _ => cases htext

def ruledNames (edition : Edition) : List Token :=
  bareNames edition ++ (singleNames ++ (pairNames ++
    ((loads edition).map loadMnemonic ++ blockOutlines.map Prod.fst)))

theorem ruledNames_all :
    basicRuleTable.all (fun entry => (ruledNames .basic).contains entry.1) ∧
      extendedRuleTable.all (fun entry => (ruledNames .extended).contains entry.1) := by
  decide +kernel

theorem mem_ruledNames {outline : Shape × Option String}
    (h : outline? edition name = some outline) : name ∈ ruledNames edition := by
  obtain ⟨rule, hrule, -⟩ := Option.map_eq_some_iff.mp h
  have hname := @rule?_holds edition name rule
    (fun edition entry => (ruledNames edition).contains entry.1) ruledNames_all hrule
  simpa using hname

theorem exists_register {c : Char} (hc : c ∈ digits) :
    ∃ register : Register, [c] = digitToken register := by
  have hall : digits.all fun c => (List.finRange 16).any fun register =>
      [c] == digitToken register.val := by
    decide +kernel
  obtain ⟨register, -, hregister⟩ := List.any_eq_true.mp (List.all_eq_true.mp hall c hc)
  exact ⟨register, beq_iff_eq.mp hregister⟩

theorem exists_relation {c : Char} (hc : c ∈ signs) :
    ∃ relation : Relation, [c] = relation.sign := by
  have hall : signs.all fun c => [.equal, .atMost, .atLeast, .differ].any fun relation =>
      [c] == Relation.sign relation := by
    decide +kernel
  obtain ⟨relation, -, hrelation⟩ := List.any_eq_true.mp (List.all_eq_true.mp hall c hc)
  exact ⟨relation, beq_iff_eq.mp hrelation⟩

theorem filled_digit (h : Filled (digits :: slots) operands) :
    ∃ (register : Register) (others : List Token),
      operands = digitToken register :: others ∧ Filled slots others := by
  obtain ⟨c, hc, others, rfl, hothers⟩ := filled_cons h
  obtain ⟨register, hregister⟩ := exists_register hc
  exact ⟨register, others, by rw [hregister], hothers⟩

theorem exists_number {width : Nat} (h : Filled (List.replicate width digits) operands) :
    ∃ value, value < 16 ^ width ∧ operands = numberTokens width value := by
  induction width generalizing operands with
  | zero => exact ⟨0, by simp, filled_nil h⟩
  | succ width ih =>
      -- The last digit counts ones, so the slots are taken apart at their end.
      rw [List.replicate_succ'] at h
      obtain ⟨first, last, rfl, hfirst, hlast⟩ := filled_append h
      obtain ⟨value, hvalue, rfl⟩ := ih hfirst
      obtain ⟨register, others, rfl, hothers⟩ := filled_digit hlast
      have hdigit : (16 * value + register.val) % 16 = register.val % 16 := by omega
      have hfront : (16 * value + register.val) / 16 = value := by omega
      refine ⟨16 * value + register.val, ?_, ?_⟩
      · rw [pow_succ]
        omega
      · rw [filled_nil hothers, numberTokens, hfront, digitToken, digitToken, hdigit]

theorem exists_condition (h : Filled Shape.compared.slots operands) :
    ∃ condition : Condition, operands = condition.tokens := by
  obtain ⟨left, others, rfl, hothers⟩ := filled_digit h
  obtain ⟨c, hc, others, rfl, hlast⟩ := filled_cons hothers
  obtain ⟨right, others, rfl, hnone⟩ := filled_digit hlast
  obtain ⟨relation, hrelation⟩ := exists_relation hc
  refine ⟨⟨left, relation, right⟩, ?_⟩
  rw [filled_nil hnone, hrelation, Condition.tokens]

theorem exists_byte (h : Filled [digits, digits] operands) :
    ∃ byte : UInt8, operands = numberTokens 2 byte.toNat := by
  obtain ⟨value, hvalue, rfl⟩ := @exists_number operands 2 h
  refine ⟨UInt8.ofNat value, ?_⟩
  rw [UInt8.toNat_ofNat_of_lt' (by simpa using hvalue)]

section

variable (edition)

theorem exists_bare (hname : name ∈ bareNames edition) :
    ∃ item : Item, item.fits edition ∧ item.tokens edition = [name] := by
  simp only [bareNames, List.mem_append, List.mem_map] at hname
  rcases hname with ⟨page, -, rfl⟩ | ⟨failed, -, rfl⟩
  · exact ⟨.plain (.selectPage page), rfl, rfl⟩
  · exact ⟨.plain (.exit failed), rfl, rfl⟩

theorem exists_single (hname : name ∈ singleNames) (register : Register) :
    ∃ item : Item, item.fits edition ∧ item.tokens edition = [name, digitToken register] := by
  simp only [singleNames, List.mem_append, List.mem_map, List.mem_cons, List.not_mem_nil,
    or_false] at hname
  rcases hname with ⟨change, -, rfl⟩ | ⟨form, -, rfl⟩ | ⟨decimal, -, rfl⟩ | rfl | rfl
  · exact ⟨.plain (.alter change register), rfl, rfl⟩
  · exact ⟨.plain (.display form register), rfl, rfl⟩
  · exact ⟨.plain (.ask decimal register), rfl, rfl⟩
  · exact ⟨.plain (.undefine register), rfl, rfl⟩
  · exact ⟨.plain (.call register), rfl, rfl⟩

theorem exists_pair (hname : name ∈ pairNames) (target source : Register) :
    ∃ item : Item, item.fits edition ∧
      item.tokens edition = [name, digitToken target, digitToken source] := by
  obtain ⟨operation, -, rfl⟩ := List.mem_map.mp hname
  exact ⟨.plain (.compute operation target source), rfl, rfl⟩

theorem exists_load {width : Fin 4} (hwidth : width ∈ loads edition) (target : Register)
    {value : Nat} (hvalue : value < 16 ^ (2 * (width.val + 1))) :
    ∃ item : Item, item.fits edition ∧ item.tokens edition =
      loadMnemonic width :: digitToken target :: numberTokens (2 * (width.val + 1)) value := by
  have hbits : value < 2 ^ (8 * (width.val + 1)) := by
    have hpower : 8 * (width.val + 1) = 4 * (2 * (width.val + 1)) := by omega
    rwa [hpower, pow_mul]
  refine ⟨.plain (.load width target (BitVec.ofNat _ value)), ?_, ?_⟩
  · cases edition with
    | basic => simpa [Item.fits, Plain.fits, loads] using hwidth
    | extended => simp [Item.fits, Plain.fits]
  · rw [Item.tokens, Plain.tokens, BitVec.toNat_ofNat, Nat.mod_eq_of_lt hbits]

theorem exists_block {entry : Token × Shape × String} (hentry : entry ∈ blockOutlines)
    (h : Filled entry.2.1.slots operands) :
    ∃ item : Item, item.fits edition ∧ item.tokens edition = entry.1 :: operands := by
  simp only [blockOutlines, List.mem_cons, List.not_mem_nil, or_false] at hentry
  rcases hentry with rfl | rfl | rfl | rfl | rfl | rfl
  · obtain ⟨condition, rfl⟩ := exists_condition h
    exact ⟨.opening (.onlyIf condition), rfl, rfl⟩
  · obtain ⟨condition, rfl⟩ := exists_condition h
    exact ⟨.opening (.whileTrue condition), rfl, rfl⟩
  · obtain ⟨register, others, rfl, hnone⟩ := filled_digit h
    rw [filled_nil hnone]
    exact ⟨.opening (.times register), rfl, rfl⟩
  · obtain ⟨register, others, rfl, hothers⟩ := filled_digit h
    obtain ⟨passes, rfl⟩ := exists_byte hothers
    exact ⟨.opening (.count register passes), rfl, rfl⟩
  · obtain ⟨register, others, rfl, hothers⟩ := filled_digit h
    obtain ⟨limit, others, rfl, hnone⟩ := filled_digit hothers
    rw [filled_nil hnone]
    exact ⟨.opening (.countTo register limit), rfl, rfl⟩
  · obtain ⟨name, others, rfl, hnone⟩ := filled_digit h
    rw [filled_nil hnone]
    exact ⟨.opening (.define name), rfl, rfl⟩

end

theorem exists_item (hname : slots? edition name = some slots) (h : Filled slots operands) :
    ∃ item : Item, item.fits edition ∧ item.tokens edition = name :: operands := by
  rcases slots?_cases hname with ⟨rfl, rfl⟩ | ⟨rfl, rfl⟩ | ⟨shape, opens, houtline, rfl⟩
  · rw [filled_nil h]
    exact ⟨.plain .pause, rfl, rfl⟩
  · obtain ⟨byte, rfl⟩ := exists_byte h
    exact ⟨.plain (.displayByte byte), rfl, rfl⟩
  · obtain ⟨hbare, hsingle, hpair, hload, hblock⟩ := outlines edition
    have hmem := mem_ruledNames houtline
    simp only [ruledNames, List.mem_append] at hmem
    rcases hmem with hmem | hmem | hmem | hmem | hmem
    · cases (hbare name hmem).symm.trans houtline
      rw [filled_nil h]
      exact exists_bare edition hmem
    · cases (hsingle name hmem).symm.trans houtline
      obtain ⟨register, others, rfl, hnone⟩ := filled_digit h
      rw [filled_nil hnone]
      exact exists_single edition hmem register
    · cases (hpair name hmem).symm.trans houtline
      obtain ⟨target, others, rfl, hothers⟩ := filled_digit h
      obtain ⟨source, others, rfl, hnone⟩ := filled_digit hothers
      rw [filled_nil hnone]
      exact exists_pair edition hmem target source
    · obtain ⟨width, hwidth, rfl⟩ := List.mem_map.mp hmem
      cases (hload width hwidth).symm.trans houtline
      obtain ⟨target, others, rfl, hothers⟩ := filled_digit h
      obtain ⟨value, hvalue, rfl⟩ := exists_number hothers
      exact exists_load edition hwidth target hvalue
    · obtain ⟨entry, hentry, rfl⟩ := List.mem_map.mp hmem
      cases (hblock entry hentry).symm.trans houtline
      exact exists_block edition hentry h

/-! ## Complete tokens -/

theorem slots?_text (edition : Edition) : slots? edition "DPM".toList = none := by
  cases edition <;> decide +kernel

theorem slots?_close (edition : Edition) : slots? edition closeToken = none := by
  cases edition <;> decide +kernel

theorem complete_close : Complete edition [closeToken] :=
  @complete_item edition .close rfl

theorem complete_named (hname : slots? edition name = some slots) (h : Filled slots operands) :
    Complete edition (name :: operands) := by
  obtain ⟨item, hfits, hitem⟩ := exists_item hname h
  rw [← hitem]
  exact complete_item hfits

theorem complete_cons {token : Token} (h : Complete edition (token :: tokens)) :
    (token = closeToken ∧ Complete edition tokens) ∨
      (token = "DPM".toList ∧ ∃ value rest, tokens = digitToken value :: rest) ∨
      ∃ slots operands rest, slots? edition token = some slots ∧ Filled slots operands ∧
        tokens = operands ++ rest ∧ Complete edition rest := by
  obtain ⟨items, hitems, htokens⟩ := h
  cases items with
  | nil => cases htokens
  | cons item items =>
      rw [List.forall_mem_cons] at hitems
      rw [List.flatMap_cons] at htokens
      have hrest : Complete edition (items.flatMap (Item.tokens edition)) := ⟨items, hitems.2, rfl⟩
      rcases item_cases hitems.1 with
        hclose | ⟨value, rest, htext⟩ | ⟨name, slots, operands, hname, hfilled, hitem⟩
      · rw [hclose] at htokens
        cases htokens
        exact .inl ⟨rfl, hrest⟩
      · rw [htext] at htokens
        cases htokens
        exact .inr (.inl ⟨rfl, value, _, rfl⟩)
      · rw [hitem] at htokens
        cases htokens
        exact .inr (.inr ⟨slots, operands, _, hname, hfilled, rfl, hrest⟩)

theorem complete_close_iff :
    Complete edition (closeToken :: tokens) ↔ Complete edition tokens := by
  constructor
  · intro h
    rcases complete_cons h with ⟨-, hrest⟩ | ⟨htext, -⟩ | ⟨slots, operands, rest, hname, -⟩
    · exact hrest
    · cases htext
    · rw [slots?_close] at hname
      cases hname
  · exact complete_close.append

theorem complete_named_iff (hname : slots? edition name = some slots) :
    Complete edition (name :: tokens) ↔
      ∃ operands rest, Filled slots operands ∧ tokens = operands ++ rest ∧
        Complete edition rest := by
  constructor
  · intro h
    rcases complete_cons h with
      ⟨rfl, -⟩ | ⟨rfl, -⟩ | ⟨_, operands, rest, hsame, hfilled, htokens, hrest⟩
    · rw [slots?_close] at hname
      cases hname
    · rw [slots?_text] at hname
      cases hname
    · cases hname.symm.trans hsame
      exact ⟨operands, rest, hfilled, htokens, hrest⟩
  · rintro ⟨operands, rest, hfilled, rfl, hrest⟩
    exact (complete_named hname hfilled).append hrest

theorem Filled.length_eq (h : Filled slots operands) : slots.length = operands.length :=
  List.Forall₂.length_eq h

theorem complete_of_append {before : List Token} (h : Complete edition (before ++ rest))
    (hbefore : Complete edition before) (htext : "DPM".toList ∉ before) :
    Complete edition rest := by
  obtain ⟨items, hitems, rfl⟩ := hbefore
  induction items with
  | nil => exact h
  | cons item items ih =>
      rw [List.forall_mem_cons] at hitems
      rw [List.flatMap_cons, List.mem_append, not_or] at htext
      rw [List.flatMap_cons, List.append_assoc] at h
      refine ih hitems.2 ?_ htext.2
      rcases item_cases hitems.1 with
        hclose | ⟨value, more, hmore⟩ | ⟨name, slots, operands, hname, hfilled, hitem⟩
      · rw [hclose] at h
        exact complete_close_iff.mp h
      · rw [hmore] at htext
        exact absurd List.mem_cons_self htext.1
      · rw [hitem, List.cons_append, complete_named_iff hname] at h
        obtain ⟨others, left, hothers, heq, hleft⟩ := h
        have hlength : operands.length = others.length :=
          hfilled.length_eq.symm.trans hothers.length_eq
        rwa [(List.append_inj heq hlength).2]

/-! ## Slips -/

/-- Operands for the slots, with any closing brackets before them. -/
inductive Mixed : List (List Char) → List Token → Prop
  | nil : Mixed [] []
  | close {slot : List Char} {slots : List (List Char)} {mixed : List Token}
      (h : Mixed (slot :: slots) mixed) : Mixed (slot :: slots) (closeToken :: mixed)
  | operand {slot : List Char} {slots : List (List Char)} {mixed : List Token} {c : Char}
      (hc : c ∈ slot) (h : Mixed slots mixed) : Mixed (slot :: slots) ([c] :: mixed)

theorem Mixed.append {more : List (List Char)} {mixed others : List Token}
    (h : Mixed slots mixed) (h' : Mixed more others) : Mixed (slots ++ more) (mixed ++ others) := by
  induction h with
  | nil => exact h'
  | close _ ih => exact .close ih
  | operand hc _ ih => exact .operand hc ih

theorem Mixed.filled {mixed : List Token} (h : Mixed slots mixed) (hclose : closeToken ∉ mixed) :
    Filled slots mixed := by
  induction h with
  | nil => exact .nil
  | close _ _ => exact absurd List.mem_cons_self hclose
  | operand hc _ ih =>
      exact .cons ⟨_, hc, rfl⟩ (ih fun hmem => hclose (List.mem_cons_of_mem _ hmem))

theorem Mixed.close_not_mem {mixed others left : List Token} (h : Mixed slots mixed)
    (hslots : ∀ slot ∈ slots, ']' ∉ slot) (hothers : Filled slots others)
    (heq : mixed ++ rest = others ++ left) : closeToken ∉ mixed := by
  induction h generalizing others with
  | nil => simp
  | @close slot slots mixed _ _ =>
      obtain ⟨c, hc, others, rfl, -⟩ := filled_cons hothers
      rw [List.cons_append, List.cons_append, List.cons.injEq, closeToken] at heq
      obtain rfl : ']' = c := by simpa using heq.1
      exact absurd hc (hslots slot List.mem_cons_self)
  | @operand slot slots mixed c hc _ ih =>
      obtain ⟨d, -, others, rfl, hmore⟩ := filled_cons hothers
      rw [List.forall_mem_cons] at hslots
      rw [List.cons_append, List.cons_append, List.cons.injEq] at heq
      have hfirst : closeToken ≠ [c] := by
        rintro h
        cases h
        exact hslots.1 hc
      rw [List.mem_cons, not_or]
      exact ⟨hfirst, ih hslots.2 hmore heq.2⟩

/-- How tokens that pass a check may fail to start with an item. -/
inductive Slip (edition : Edition) : List Token → Prop
  | operand {c : Char} (hc : c ∈ digits ∨ c ∈ signs) (rest : List Token) :
      Slip edition ([c] :: rest)
  /-- The last mnemonic opens a condition that is missing. -/
  | condition : Slip edition ["IF".toList]
  | bracket {name : Token} {slots : List (List Char)} {mixed : List Token}
      (hname : slots? edition name = some slots) (hmixed : Mixed slots mixed)
      (hclose : closeToken ∈ mixed) (rest : List Token) : Slip edition (name :: (mixed ++ rest))

theorem slots?_condition (edition : Edition) :
    slots? edition "IF".toList = some [digits, signs, digits] := by
  have houtline : outline? edition "IF".toList = some (.compared, some "IF") :=
    (outlines edition).2.2.2.2 _ List.mem_cons_self
  exact slots?_of_outline houtline

theorem Slip.not_complete (h : Slip edition tokens) : ¬ Complete edition tokens := by
  intro hcomplete
  cases h with
  | operand hc rest =>
      rcases complete_cons hcomplete with ⟨hclose, -⟩ | ⟨htext, -⟩ | ⟨slots, _, _, hname, -⟩
      · cases hclose
        exact absurd hc (by decide)
      · cases htext
      · cases isMnemonic_of_slots? hname
  | condition =>
      obtain ⟨operands, rest, hfilled, hnil, -⟩ :=
        (complete_named_iff (slots?_condition edition)).mp hcomplete
      obtain ⟨c, -, others, rfl, -⟩ := filled_cons hfilled
      cases hnil
  | bracket hname hmixed hclose rest =>
      obtain ⟨operands, left, hfilled, heq, -⟩ := (complete_named_iff hname).mp hcomplete
      exact hmixed.close_not_mem (close_not_mem_slot hname) hfilled heq hclose

/-- The tokens start with complete ones, and then there is a slip. -/
def Slips (edition : Edition) (tokens : List Token) : Prop :=
  ∃ before rest, tokens = before ++ rest ∧ Complete edition before ∧ Slip edition rest

theorem Slips.not_complete (h : Slips edition tokens) (htext : "DPM".toList ∉ tokens) :
    ¬ Complete edition tokens := by
  obtain ⟨before, rest, rfl, hbefore, hslip⟩ := h
  rw [List.mem_append, not_or] at htext
  exact fun hcomplete => hslip.not_complete (complete_of_append hcomplete hbefore htext.1)

theorem complete_or_slips_append {before : List Token} (hbefore : Complete edition before)
    (h : Complete edition tokens ∨ Slips edition tokens) :
    Complete edition (before ++ tokens) ∨ Slips edition (before ++ tokens) := by
  rcases h with hcomplete | ⟨middle, rest, rfl, hmiddle, hslip⟩
  · exact .inl (hbefore.append hcomplete)
  · exact .inr ⟨before ++ middle, rest, (List.append_assoc _ _ _).symm, hbefore.append hmiddle,
      hslip⟩

end BitAssembly.Lint
