import BitAssembly.Proofs.Machine.Skipping

/-!
# Readings side by side

Two readings go abreast if they take the same characters off their texts and
answer the same.  They may differ in what they note and in the number of passes
that they are granted.  Of a text of bits the judgement also tells which bits
were taken for which answer.  A fetch goes abreast with itself; whatever is to
be said of one fetch or of two follows by induction on what a reading can do.
-/

namespace BitAssembly.Machine

open BitAssembly.Text

variable {α β : Type}

/-- Both have as many passes, or the second has more where that is granted. -/
def Fits (granted : Prop) (fuel more : Nat) : Prop :=
  fuel = more ∨ granted ∧ fuel ≤ more

theorem Fits.pred {granted : Prop} {fuel more : Nat} (h : Fits granted (fuel + 1) more) :
    ∃ less, more = less + 1 ∧ Fits granted fuel less := by
  obtain rfl | ⟨hgranted, hless⟩ := h
  · exact ⟨fuel, rfl, .inl rfl⟩
  · exact ⟨more - 1, by omega, .inr ⟨hgranted, by omega⟩⟩

theorem Fits.add {granted : Prop} {fuel more spare other : Nat} (h : Fits granted fuel more)
    (hspare : Fits granted spare other) : Fits granted (fuel + spare) (more + other) := by
  obtain rfl | ⟨hgranted, hless⟩ := h
  · obtain rfl | ⟨hgranted, hless⟩ := hspare
    · exact .inl rfl
    · exact .inr ⟨hgranted, by omega⟩
  · exact .inr ⟨hgranted, by rcases hspare with rfl | ⟨-, hmore⟩ <;> omega⟩

/-- In what two readings may differ, and what is known of their texts. -/
structure Pairing where
  proper : Prop
  /-- The second reading may go on where the first has used up its passes. -/
  granted : Prop
  tracing : Bool
  traced : Bool

/-- `Post` relates the characters that are taken to the answer, and `Fails` to the reason of a
failure other than the end of the text.  They are owed on texts of bits only. -/
inductive Pairing.Abreast (pairing : Pairing) :
    (List Char → α → Prop) → (List Char → Stop → Prop) → Reading α → Reading α → Prop
  | pure {Post Fails} {value : α} (h : pairing.proper → Post [] value) :
      Abreast pairing Post Fails (Pure.pure value) (Pure.pure value)
  | throw {Post Fails} {stop : Stop} (h : pairing.proper → Fails [] stop) :
      Abreast pairing Post Fails (MonadExcept.throw stop) (MonadExcept.throw stop)
  | spent {Post Fails} {second : Reading α} (hgranted : pairing.granted)
      (h : pairing.proper → Fails [] .unfinished) :
      Abreast pairing Post Fails (MonadExcept.throw .unfinished) second
  | noting {Post Fails} {first second : Reading α} (line : String)
      (h : Abreast pairing Post Fails first second) :
      Abreast pairing Post Fails
        (do
          if pairing.tracing then note line
          first)
        (do
          if pairing.traced then note line
          second)
  | taking {Post Fails} {next later : List Char → Reading α} (count : Int)
      (hcount : pairing.proper → 0 ≤ count)
      (h : ∀ chars, (pairing.proper → AllBits chars ∧ (chars.length : Int) = count) →
        Abreast pairing (fun more => Post (chars ++ more)) (fun more => Fails (chars ++ more))
          (next chars) (later chars)) :
      Abreast pairing Post Fails (read count >>= next) (read count >>= later)
  | measuring {Post Fails} {next later : Nat → Reading α}
      (h : ∀ size other, Fits pairing.granted size other →
        Abreast pairing Post
          (fun taken stop => Fails taken stop ∨ stop = .unfinished ∧ size < taken.length)
          (next size) (later other)) :
      Abreast pairing Post Fails (get >>= fun reader => next reader.cursor.text.size)
        (get >>= fun reader => later reader.cursor.text.size)

variable {pairing : Pairing}

section

variable {Post : List Char → α → Prop} {Later : List Char → β → Prop}
variable {Fails : List Char → Stop → Prop}

theorem Pairing.Abreast.mono {Weaker : List Char → α → Prop} {Worse : List Char → Stop → Prop}
    {first second : Reading α} (h : pairing.Abreast Post Fails first second)
    (hpost : ∀ bits value, pairing.proper → Post bits value → Weaker bits value)
    (hfails : ∀ bits stop, pairing.proper → Fails bits stop → Worse bits stop) :
    pairing.Abreast Weaker Worse first second := by
  induction h generalizing Weaker Worse with
  | pure h => exact .pure fun hproper => hpost _ _ hproper (h hproper)
  | throw h => exact .throw fun hproper => hfails _ _ hproper (h hproper)
  | spent hgranted h => exact .spent hgranted fun hproper => hfails _ _ hproper (h hproper)
  | noting line _ ih => exact .noting line (ih hpost hfails)
  | taking count hcount _ ih =>
      refine .taking count hcount fun chars hchars => ih chars hchars ?_ ?_
      · exact fun bits value => hpost (chars ++ bits) value
      · exact fun bits stop => hfails (chars ++ bits) stop
  | measuring _ ih =>
      refine .measuring fun size other hsize => ih size other hsize hpost ?_
      intro bits stop hproper
      exact Or.imp_left (hfails bits stop hproper)

theorem Pairing.Abreast.allBits {first second : Reading α}
    (h : pairing.Abreast Post Fails first second) :
    pairing.Abreast (fun bits value => AllBits bits ∧ Post bits value) Fails first second := by
  induction h with
  | pure h => exact .pure fun hproper => ⟨allBits_nil, h hproper⟩
  | throw h => exact .throw h
  | spent hgranted h => exact .spent hgranted h
  | noting line _ ih => exact .noting line ih
  | taking count hcount _ ih =>
      refine .taking count hcount fun chars hchars => (ih chars hchars).mono ?_ fun _ _ _ h => h
      exact fun bits value hproper h =>
        ⟨allBits_append.mpr ⟨(hchars hproper).1, h.1⟩, h.2⟩
  | measuring _ ih => exact .measuring ih

theorem Pairing.Abreast.bind {first second : Reading α} {next later : α → Reading β}
    (hfirst : pairing.Abreast Post Fails first second)
    (hnext : ∀ bits value, (pairing.proper → Post bits value) →
      pairing.Abreast (fun more => Later (bits ++ more)) (fun more => Fails (bits ++ more))
        (next value) (later value)) :
    pairing.Abreast Later Fails (first >>= next) (second >>= later) := by
  induction hfirst generalizing Later with
  | pure h => exact hnext [] _ h
  | throw h => exact .throw h
  | spent hgranted h => exact .spent hgranted h
  | @noting _ _ first second line _ ih =>
      have hboth := Abreast.noting line (ih hnext)
      cases htracing : pairing.tracing <;> cases htraced : pairing.traced <;>
        simpa [htracing, htraced] using hboth
  | taking count hcount _ ih =>
      rw [bind_assoc, bind_assoc]
      refine .taking count hcount fun chars hchars => ih chars hchars fun bits value h => ?_
      have hrest := hnext (chars ++ bits) value h
      simpa only [List.append_assoc] using hrest
  | @measuring _ _ first second _ ih =>
      rw [bind_assoc, bind_assoc]
      refine @Abreast.measuring _ _ _ _ (first · >>= next) (second · >>= later) ?_
      refine fun size other hsize => ih size other hsize fun bits value h => ?_
      exact (hnext bits value h).mono (fun _ _ _ h => h) fun _ _ _ h => .inl h

theorem Pairing.Abreast.ite {condition : Prop} [Decidable condition]
    {first second another other : Reading α}
    (hthen : condition → pairing.Abreast Post Fails first second)
    (helse : ¬ condition → pairing.Abreast Post Fails another other) :
    pairing.Abreast Post Fails (if condition then first else another)
      (if condition then second else other) := by
  by_cases h : condition
  · rw [if_pos h, if_pos h]
    exact hthen h
  · rw [if_neg h, if_neg h]
    exact helse h

theorem Pairing.Abreast.reading (count : Nat) {next later : List Char → Reading α}
    (h : ∀ chars, (pairing.proper → AllBits chars ∧ chars.length = count) →
      pairing.Abreast (fun more => Post (chars ++ more)) (fun more => Fails (chars ++ more))
        (next chars) (later chars)) :
    pairing.Abreast Post Fails (read count >>= next) (read count >>= later) :=
  .taking count (fun _ => Int.natCast_nonneg count) fun chars hchars =>
    h chars fun hproper => ⟨(hchars hproper).1, Int.natCast_inj.mp (hchars hproper).2⟩

theorem abreast_read (count : Nat) :
    pairing.Abreast (fun bits chars => chars = bits ∧ AllBits bits ∧ bits.length = count) Fails
      (read count) (read count) := by
  rw [← bind_pure (read count)]
  refine .reading count fun chars hchars => .pure fun hproper => ?_
  rw [List.append_nil]
  exact ⟨rfl, hchars hproper⟩

theorem Pairing.Abreast.counting {chars : List Char} {width : Nat} {next later : Int → Reading α}
    (hchars : pairing.proper → AllBits chars ∧ chars.length = width) (hwidth : 0 < width)
    (h : ∀ value : Int, (pairing.proper → ∃ number < 2 ^ width, value = (number : Nat) ∧
      chars = binaryDigits width number) → pairing.Abreast Post Fails (next value) (later value)) :
    pairing.Abreast Post Fails (binary chars >>= next) (binary chars >>= later) := by
  have hparse (hproper : pairing.proper) : parseInt 2 chars = .ok (bitsValue chars : Int) := by
    obtain ⟨hbits, hlength⟩ := hchars hproper
    exact parseInt_bits chars hbits (List.ne_nil_of_length_pos (by omega))
  rw [binary]
  cases hresult : parseInt 2 chars with
  | error fault =>
      refine .throw fun hproper => ?_
      cases hresult.symm.trans (hparse hproper)
  | ok value =>
      refine h value fun hproper => ?_
      cases hresult.symm.trans (hparse hproper)
      obtain ⟨hbits, rfl⟩ := hchars hproper
      exact ⟨bitsValue chars, bitsValue_lt chars, rfl, (binaryDigits_bitsValue hbits).symm⟩

structure OperandBits (width : Nat) (bits : List Char) (value : Int) : Prop where
  range : 0 ≤ value ∧ value < 2 ^ width
  digits : bits = binaryDigits width value.toNat

theorem Pairing.Abreast.operand (width : Nat) (hwidth : 0 < width) {next later : Int → Reading α}
    (h : ∀ bits value, (pairing.proper → OperandBits width bits value) →
      pairing.Abreast (fun more => Post (bits ++ more)) (fun more => Fails (bits ++ more))
        (next value) (later value)) :
    pairing.Abreast Post Fails (Machine.operand width >>= next)
      (Machine.operand width >>= later) := by
  rw [Machine.operand, bind_assoc, bind_assoc]
  refine .reading width fun chars hchars => .counting hchars hwidth fun value hvalue => ?_
  refine h chars value fun hproper => ?_
  obtain ⟨number, hnumber, rfl, hdigits⟩ := hvalue hproper
  exact ⟨⟨Int.natCast_nonneg number, by exact_mod_cast hnumber⟩, hdigits⟩

theorem abreast_operand (width : Nat) (hwidth : 0 < width) :
    pairing.Abreast (OperandBits width) Fails (operand width) (operand width) := by
  rw [← bind_pure (operand width)]
  refine .operand width hwidth fun bits value hvalue => .pure fun hproper => ?_
  rw [List.append_nil]
  exact hvalue hproper

end

/-! ## Passing over -/

section

variable {edition : Edition} {Fails : List Char → Stop → Prop}

theorem operation_cases {op : List Char} (hbits : AllBits op) (hlength : op.length = 3) :
    op = ['0', '0', '0'] ∨ op = ['0', '0', '1'] ∨ op = ['0', '1', '0'] ∨ op = ['0', '1', '1'] ∨
      op = ['1', '0', '0'] ∨ op = ['1', '0', '1'] ∨ op = ['1', '1', '0'] ∨
      op = ['1', '1', '1'] := by
  have hvalue := bitsValue_lt op
  have hdigits := binaryDigits_bitsValue hbits
  rw [hlength] at hvalue hdigits
  rw [← hdigits]
  generalize bitsValue op = value at hvalue
  revert value
  decide

theorem abreast_skipOperands {op : List Char}
    (hop : pairing.proper → AllBits op ∧ op.length = 3) (hinner : op ≠ ['1', '0', '1'])
    (hclose : op ≠ ['1', '1', '0']) :
    pairing.Abreast (fun bits operands => operands = bits ∧ OperandsOf edition op bits) Fails
      (skipOperands edition op) (skipOperands edition op) := by
  unfold skipOperands
  refine .ite (fun halter => ?_) fun halter => ?_
  · subst halter
    exact (abreast_read 7).mono (fun bits _ _ h => ⟨h.1, .alter bits h.2.2⟩) fun _ _ _ h => h
  refine .ite (fun hselect => ?_) fun hselect => ?_
  · subst hselect
    exact (abreast_read 3).mono (fun bits _ _ h => ⟨h.1, .selectPage bits h.2.2⟩) fun _ _ _ h => h
  refine .ite (fun harithmetic => ?_) fun harithmetic => ?_
  · subst harithmetic
    refine .reading 3 fun mode hmode => .ite (fun hload => ?_) fun hload => ?_
    · subst hload
      cases edition with
      | basic =>
          refine .reading 4 fun target htarget => .reading 8 fun value hvalue => .pure fun h => ?_
          rw [List.append_nil, List.append_assoc]
          exact ⟨rfl, .load (target ++ value) rfl (by simp [htarget h, hvalue h])⟩
      | extended =>
          refine .reading 2 fun width hwidth => .reading 4 fun target htarget => ?_
          refine .counting hwidth (by decide) fun bytes hbytes => .taking _ (fun h => ?_) ?_
          · obtain ⟨number, -, rfl, -⟩ := hbytes h
            omega
          · refine fun value hvalue => .pure fun h => ?_
            obtain ⟨number, hnumber, rfl, rfl⟩ := hbytes h
            have hlength := (hvalue h).2
            rw [List.append_nil, List.append_assoc, List.append_assoc]
            refine ⟨rfl, .wideLoad number (target ++ value) rfl hnumber ?_⟩
            rw [List.length_append, (htarget h).2]
            omega
    · cases edition with
      | basic =>
          refine .reading 4 fun target htarget => .reading 4 fun source hsource => .pure fun h => ?_
          rw [List.append_nil, List.append_assoc]
          exact ⟨rfl, .compute mode _ (hmode h).2 hload (by simp [htarget h, hsource h])⟩
      | extended =>
          refine .reading 8 fun registers hregisters => .pure fun h => ?_
          rw [List.append_nil]
          exact ⟨rfl, .compute mode registers (hmode h).2 hload (hregisters h).2⟩
  refine .ite (fun hdisplay => ?_) fun hdisplay => ?_
  · subst hdisplay
    refine .reading 2 fun mode hmode => .counting hmode (by decide) fun code hcode => ?_
    refine .ite (fun hregister => ?_) fun hregister => ?_
    · refine .reading 4 fun register hbits => .pure fun h => ?_
      obtain ⟨number, -, rfl, rfl⟩ := hcode h
      rw [List.append_nil]
      exact ⟨rfl, .display number register (by omega) (hbits h).2⟩
    · refine .reading 8 fun value hbits => .pure fun h => ?_
      obtain ⟨number, hnumber, rfl, rfl⟩ := hcode h
      have hthree : number = 3 := by omega
      rw [List.append_nil, hthree]
      exact ⟨rfl, .displayValue value (hbits h).2⟩
  refine .ite (fun hsystem => ?_) fun hsystem => ?_
  · subst hsystem
    refine .reading 2 fun mode hmode => .ite (fun hask => ?_) fun hask => ?_
    · refine .reading 4 fun register hregister => .pure fun h => ?_
      rw [List.append_nil]
      exact ⟨rfl, .ask mode register hask (hregister h).2⟩
    · refine .pure fun h => ?_
      rw [List.append_nil]
      exact ⟨rfl, .exit mode (hmode h).2 (not_or.mp hask)⟩
  · refine .pure fun h => ⟨rfl, ?_⟩
    rcases operation_cases (hop h).1 (hop h).2 with rfl | rfl | rfl | rfl | rfl | rfl | rfl | rfl
    · exact .pause
    all_goals contradiction

theorem abreast_skipHead :
    pairing.Abreast (fun bits head => head.1 = bits ∧ InnerHead edition bits head.2) Fails
      (skipHead edition) (skipHead edition) := by
  refine .reading 3 fun kind hkind => ?_
  refine .ite (fun htest => .reading 10 fun bits hbits => .pure fun h => ?_) fun htest => ?_
  · rw [List.append_nil]
    exact ⟨rfl, .test kind bits htest (hbits h).2⟩
  refine .ite (fun hnamed => .reading 4 fun bits hbits => .pure fun h => ?_) fun hnamed => ?_
  · rw [List.append_nil]
    exact ⟨rfl, .named kind bits hnamed (hbits h).2⟩
  refine .ite (fun hcount => ?_) fun hcount => ?_
  · subst hcount
    refine .reading 1 fun mode hmode => .ite (fun hfixed => ?_) fun hfixed => ?_
    · subst hfixed
      refine .reading 12 fun bits hbits => .pure fun h => ?_
      rw [List.append_nil]
      exact ⟨rfl, .count bits (hbits h).2⟩
    · refine .reading 8 fun bits hbits => .pure fun h => ?_
      have hone : mode = ['1'] := by
        obtain ⟨c, rfl⟩ := List.length_eq_one_iff.mp (hmode h).2
        have hc := (hmode h).1 c List.mem_cons_self
        simp only [isBit, Bool.or_eq_true, beq_iff_eq] at hc
        rcases hc with rfl | rfl
        · exact absurd rfl hfixed
        · rfl
      subst hone
      rw [List.append_nil]
      exact ⟨rfl, .countTo bits (hbits h).2⟩
  refine .ite (fun htimes => ?_) fun htimes => ?_
  · subst htimes
    refine .reading 4 fun bits hbits => .pure fun h => ?_
    rw [List.append_nil]
    exact ⟨rfl, .times bits (hbits h).2⟩
  refine .ite (fun hwrite => ?_) fun hwrite => ?_
  · obtain ⟨rfl, hedition⟩ := hwrite
    refine .reading 16 fun size hsize => .counting hsize (by decide) fun count hcount => ?_
    refine .taking _ (fun h => ?_) fun bits hbits => .pure fun h => ?_
    · obtain ⟨number, -, rfl, -⟩ := hcount h
      omega
    · obtain ⟨number, hnumber, rfl, rfl⟩ := hcount h
      have hlength := (hbits h).2
      rw [List.append_nil, List.append_assoc]
      exact ⟨rfl, .write number bits hedition hnumber (by omega)⟩
  · refine .pure fun h => ?_
    rw [List.append_nil]
    refine ⟨rfl, ?_⟩
    rcases operation_cases (hkind h).1 (hkind h).2 with
      rfl | rfl | rfl | rfl | rfl | rfl | rfl | rfl
    case inr.inr.inl => exact .define
    case inr.inr.inr.inr.inr.inr.inr =>
      cases edition with
      | basic => exact .unassigned rfl
      | extended => exact absurd ⟨rfl, rfl⟩ hwrite
    all_goals simp at htest hnamed hcount htimes

/-- Each pass takes three characters at least, so as many passes as are used up as many
characters are taken. -/
theorem abreast_skipBlock {fuel more : Nat} (hfits : Fits pairing.granted fuel more) {depth : Nat}
    (hdepth : 0 < depth) (chunk : Body) :
    pairing.Abreast (fun bits body => body = chunk ++ bits ∧ Spans edition depth bits)
      (fun bits stop => stop = .unfinished ∧ fuel ≤ bits.length)
      (skipBlock edition pairing.tracing fuel depth chunk)
      (skipBlock edition pairing.traced more depth chunk) := by
  induction fuel generalizing more depth chunk with
  | zero =>
      obtain rfl | ⟨hgranted, -⟩ := hfits
      · exact .throw fun _ => ⟨rfl, Nat.zero_le _⟩
      · exact .spent hgranted fun _ => ⟨rfl, Nat.zero_le _⟩
  | succ fuel ih =>
      obtain ⟨more, rfl, hrest⟩ := hfits.pred
      rw [skipBlock, skipBlock]
      refine .reading 3 fun op hop => .noting _ (.ite (fun hinner => ?_) fun hinner => ?_)
      · subst hinner
        refine abreast_skipHead.bind fun head ⟨_, opens⟩ hhead => .noting _ ?_
        have hinside : 0 < if opens then depth + 1 else depth := by split <;> omega
        refine (ih hrest hinside _).mono ?_ ?_
        · rintro bits _ h ⟨rfl, hspans⟩
          obtain ⟨rfl, hitem⟩ := hhead h
          rw [appendList_append, appendList_append]
          exact ⟨rfl, .inner hitem hspans⟩
        · rintro bits _ _ ⟨rfl, hless⟩
          simp only [List.length_append, List.length_cons]
          exact ⟨trivial, by omega⟩
      refine .ite (fun hclose => .noting _ (.ite (fun hlast => ?_) fun hlast => ?_))
        fun hclose => ?_
      · subst hclose
        refine .pure fun _ => ?_
        have hone : depth = 1 := by omega
        rw [List.append_nil, hone]
        exact ⟨rfl, .last⟩
      · subst hclose
        obtain ⟨outer, rfl⟩ := Nat.exists_eq_add_of_le' (show 2 ≤ depth by omega)
        refine (ih hrest (by omega) _).mono ?_ ?_
        · rintro bits _ h ⟨rfl, hspans⟩
          rw [appendList_append]
          exact ⟨rfl, .close hspans⟩
        · rintro bits _ _ ⟨rfl, hless⟩
          simp only [List.length_append, List.length_cons]
          exact ⟨trivial, by omega⟩
      · refine (abreast_skipOperands hop hinner hclose).bind fun operands _ hoperands => ?_
        refine (ih hrest hdepth _).mono ?_ ?_
        · rintro bits _ h ⟨rfl, hspans⟩
          obtain ⟨rfl, hitem⟩ := hoperands h
          rw [appendList_append, appendList_append]
          exact ⟨rfl, .plain hitem hspans⟩
        · rintro bits _ h ⟨rfl, hless⟩
          simp only [List.length_append, (hop h).2]
          exact ⟨trivial, by omega⟩

/-- The passes that a text is granted are more than it has characters. -/
theorem abreast_fetchBody {spare more : Nat} (hfits : Fits pairing.granted spare more) :
    pairing.Abreast (fun bits body => body = bits.toArray ∧ Spans edition 1 bits) Fails
      (fetchBody edition pairing.tracing spare) (fetchBody edition pairing.traced more) := by
  refine @Pairing.Abreast.measuring _ _ _ _
    (fun size => skipBlock edition pairing.tracing (size + 1 + spare) 1 #[])
    (fun size => skipBlock edition pairing.traced (size + 1 + more) 1 #[])
    fun size other hsize => ?_
  have hboth : Fits pairing.granted (size + 1 + spare) (other + 1 + more) :=
    (hsize.add (.inl rfl)).add hfits
  refine (abreast_skipBlock hboth (by decide) #[]).mono ?_ ?_
  · rintro bits _ _ ⟨rfl, hspans⟩
    exact ⟨by simp, hspans⟩
  · rintro bits _ _ ⟨rfl, hless⟩
    exact .inr ⟨rfl, by omega⟩

end

/-! ## Fetched instructions -/

def IsAddress (address : Int) : Prop :=
  0 ≤ address ∧ address < 16

def Test.Regular (test : Test) : Prop :=
  IsAddress test.left ∧ IsAddress test.right

def Bound.Regular : Bound → Prop
  | .fixed _ => True
  | .register address => IsAddress address

/-- What can be fetched from a text of bits: operands have values of their width, bodies are texts
of bits again, and the edition has the instruction. -/
def Instruction.Regular (edition : Edition) : Instruction → Prop
  | .alter _ address => IsAddress address
  | .selectPage page => 0 ≤ page ∧ page < 8
  | .compute _ target source => IsAddress target ∧ IsAddress source
  | .load target _ => IsAddress target
  | .display _ address => IsAddress address
  | .displayValue _ value => 0 ≤ value ∧ value < 256
  | .onlyIf test body => test.Regular ∧ AllBits body.toList
  | .times address body => IsAddress address ∧ AllBits body.toList
  | .define name body => (0 ≤ name ∧ name < 16) ∧ AllBits body.toList
  | .undefine name => 0 ≤ name ∧ name < 16
  | .count address bound body => (IsAddress address ∧ bound.Regular) ∧ AllBits body.toList
  | .whileTrue test body => test.Regular ∧ AllBits body.toList
  | .write _ => edition = .extended
  | .exit status => status = 0 ∨ status = 1
  | .ask radix address => (radix = 16 ∨ radix = 10) ∧ IsAddress address
  | _ => True

def Instruction.body? : Instruction → Option Body
  | .onlyIf _ body => some body
  | .times _ body => some body
  | .define _ body => some body
  | .count _ _ body => some body
  | .whileTrue _ body => some body
  | _ => none

def Instruction.IsBasic : Instruction → Prop
  | .selectPage _ => False
  | .onlyIf _ _ => False
  | .times _ _ => False
  | .define _ _ => False
  | .undefine _ => False
  | .call _ => False
  | .count _ _ _ => False
  | .whileTrue _ _ => False
  | .close => False
  | _ => True

def selectionBits (page : Nat) : List Char :=
  ['0', '1', '0'] ++ binaryDigits 3 page

/-- What the bits of a fetched instruction tell of it. -/
inductive Fetched (edition : Edition) : List Char → Instruction → Prop
  | basic {instruction : Instruction} (bits : List Char) (h : instruction.IsBasic) :
      Fetched edition bits instruction
  | selectPage (page : Int) : Fetched edition (selectionBits page.toNat) (.selectPage page)
  | close : Fetched edition ['1', '1', '0'] .close
  | undefine (name : Int) (bits : List Char) : Fetched edition bits (.undefine name)
  | call (name : Int) (bits : List Char) :
      Fetched edition (['1', '0', '1', '1', '0', '0'] ++ bits) (.call name)
  | whileTrue (test : Test) (head : List Char) {body : List Char} (h : Spans edition 1 body) :
      Fetched edition (['1', '0', '1', '1', '1', '0'] ++ (head ++ body))
        (.whileTrue test body.toArray)
  | block {instruction : Instruction} {head body : List Char} (hhead : head ≠ [])
      (hbody : instruction.body? = some body.toArray)
      (hwhile : ∀ test, instruction ≠ .whileTrue test body.toArray)
      (h : Spans edition 1 body) : Fetched edition (head ++ body) instruction

structure Found (edition : Edition) (bits : List Char) (instruction : Instruction) : Prop where
  fetched : Fetched edition bits instruction
  regular : instruction.Regular edition
  size : 3 ≤ bits.length

def Missing (ready : Bool) (_ : List Char) (stop : Stop) : Prop :=
  ready = false ∧ stop = .fault .noRegister

section

variable {edition : Edition} {ready : Bool} {Post : List Char → α → Prop}

theorem Pairing.Abreast.requiring {next later : Unit → Reading α}
    (h : pairing.Abreast Post (Missing ready) (next ()) (later ())) :
    pairing.Abreast Post (Missing ready) (require ready >>= next) (require ready >>= later) := by
  cases ready with
  | true => exact h
  | false => exact .throw fun _ => ⟨rfl, rfl⟩

theorem abreast_fetchTest :
    pairing.Abreast (fun _ => Test.Regular) (Missing ready) fetchTest fetchTest := by
  refine .operand 4 (by decide) fun _ left hleft => .operand 2 (by decide) fun _ _ _ => ?_
  refine .operand 4 (by decide) fun _ right hright => .pure fun h => ?_
  exact ⟨(hleft h).range, (hright h).range⟩

theorem abreast_fetchImmediate {width : Int} (hwidth : pairing.proper → 0 ≤ width ∧ width ≤ 3) :
    pairing.Abreast (fun _ _ => True) (Missing ready) (fetchImmediate edition width)
      (fetchImmediate edition width) := by
  cases edition with
  | basic => exact (abreast_operand 8 (by decide)).mono (fun _ _ _ _ => trivial) fun _ _ _ h => h
  | extended =>
      refine .ite (fun hrange => ?_) fun hrange => .throw fun h => absurd (hwidth h) hrange
      have hcount : ((8 * (width.toNat + 1) : Nat) : Int) = 8 * (width + 1) := by omega
      rw [← hcount]
      exact (abreast_operand _ (by omega)).mono (fun _ _ _ _ => trivial) fun _ _ _ h => h

theorem abreast_fetchLoad {target width : Int} (htarget : pairing.proper → IsAddress target)
    (hwidth : pairing.proper → 0 ≤ width ∧ width ≤ 3) :
    pairing.Abreast (fun _ instruction => instruction.IsBasic ∧ instruction.Regular edition)
      (Missing ready) (fetchLoad edition ready target width)
      (fetchLoad edition ready target width) := by
  refine .requiring ((abreast_fetchImmediate hwidth).bind fun _ _ _ => .pure fun h => ?_)
  exact ⟨trivial, htarget h⟩

theorem abreast_fetchArithmetic :
    pairing.Abreast (fun _ instruction => instruction.IsBasic ∧ instruction.Regular edition)
      (Missing ready) (fetchArithmetic edition ready) (fetchArithmetic edition ready) := by
  refine .operand 3 (by decide) fun _ mode _ => .ite (fun _ => ?_) fun _ => ?_
  · cases edition with
    | basic =>
        refine .operand 4 (by decide) fun _ target htarget => ?_
        exact abreast_fetchLoad (fun h => (htarget h).range) fun _ => by decide
    | extended =>
        refine .operand 2 (by decide) fun _ width hwidth => ?_
        refine .operand 4 (by decide) fun _ target htarget => ?_
        refine abreast_fetchLoad (fun h => (htarget h).range) fun h => ?_
        exact ⟨(hwidth h).range.1, Int.le_of_lt_add_one (hwidth h).range.2⟩
  · refine .operand 4 (by decide) fun _ target htarget => ?_
    refine .operand 4 (by decide) fun _ source hsource => .pure fun h => ?_
    exact ⟨trivial, (htarget h).range, (hsource h).range⟩

theorem abreast_fetchDisplay :
    pairing.Abreast (fun _ instruction => instruction.IsBasic ∧ instruction.Regular edition)
      (Missing ready) fetchDisplay fetchDisplay := by
  refine .operand 2 (by decide) fun _ mode _ => .ite (fun _ => ?_) fun _ => ?_
  · refine .operand 4 (by decide) fun _ address haddress => .pure fun h => ?_
    exact ⟨trivial, (haddress h).range⟩
  · refine .operand 8 (by decide) fun _ value hvalue => .pure fun h => ?_
    exact ⟨trivial, (hvalue h).range⟩

theorem abreast_fetchBytes (count : Nat) (before : List UInt8) :
    pairing.Abreast (fun _ _ => True) (Missing ready) (fetchBytes count before)
      (fetchBytes count before) := by
  induction count generalizing before with
  | zero => exact .pure fun _ => trivial
  | succ count ih =>
      refine .operand 8 (by decide) fun _ value hvalue => .ite (fun hnegative => ?_) fun _ => ih _
      exact .throw fun h => absurd hnegative (Int.not_lt.mpr (hvalue h).range.1)

theorem abreast_fetchBound :
    pairing.Abreast (fun _ counter => IsAddress counter.1 ∧ counter.2.Regular) (Missing ready)
      (fetchBound ready) (fetchBound ready) := by
  refine .operand 1 (by decide) fun _ mode _ => .operand 4 (by decide) fun _ address haddress => ?_
  refine .ite (fun _ => .operand 8 (by decide) fun _ _ _ => .pure fun h => ?_) fun _ => ?_
  · exact ⟨(haddress h).range, trivial⟩
  · refine .operand 4 (by decide) fun _ limit hlimit => .requiring (.pure fun h => ?_)
    exact ⟨(haddress h).range, (hlimit h).range⟩

theorem abreast_fetchSystem :
    pairing.Abreast (fun _ instruction => instruction.IsBasic ∧ instruction.Regular edition)
      (Missing ready) fetchSystem fetchSystem := by
  refine .operand 2 (by decide) fun _ code _ => ?_
  refine .ite (fun _ => .pure fun _ => ⟨trivial, .inl rfl⟩) fun _ => ?_
  refine .ite (fun _ => .pure fun _ => ⟨trivial, .inr rfl⟩) fun _ => ?_
  refine .ite (fun _ => .operand 4 (by decide) fun _ address haddress => ?_) fun _ => ?_
  · exact .pure fun h => ⟨trivial, .inl rfl, (haddress h).range⟩
  refine .ite (fun _ => .operand 4 (by decide) fun _ address haddress => ?_) fun _ => ?_
  · exact .pure fun h => ⟨trivial, .inr rfl, (haddress h).range⟩
  · exact .pure fun _ => ⟨trivial, trivial⟩

theorem abreast_body {spare more : Nat} (hfits : Fits pairing.granted spare more)
    {Post : List Char → Instruction → Prop} {instruction : Body → Instruction}
    (h : pairing.proper → ∀ body, AllBits body → Spans edition 1 body →
      Post body (instruction body.toArray)) :
    pairing.Abreast Post (Missing ready)
      (do return instruction (← fetchBody edition pairing.tracing spare))
      (do return instruction (← fetchBody edition pairing.traced more)) := by
  refine (abreast_fetchBody hfits).allBits.bind fun bits body hbody => .pure fun hproper => ?_
  obtain ⟨hbits, rfl, hspans⟩ := hbody hproper
  rw [List.append_nil]
  exact h hproper bits hbits hspans

theorem abreast_fetchBlock {spare more : Nat} (hfits : Fits pairing.granted spare more) :
    pairing.Abreast (fun bits instruction => Fetched edition (['1', '0', '1'] ++ bits) instruction ∧
        instruction.Regular edition) (Missing ready)
      (fetchBlock edition pairing.tracing ready spare)
      (fetchBlock edition pairing.traced ready more) := by
  have hblock {front : List Char} {instruction : Body → Instruction}
      (hsome : ∀ body, (instruction body).body? = some body)
      (hwhile : ∀ test body other, instruction body ≠ .whileTrue test other)
      (hregular : pairing.proper → ∀ body : List Char, AllBits body →
        (instruction body.toArray).Regular edition) :
      pairing.Abreast (fun bits instruction =>
          Fetched edition (['1', '0', '1'] ++ (front ++ bits)) instruction ∧
            instruction.Regular edition) (Missing ready)
        (do return instruction (← fetchBody edition pairing.tracing spare))
        (do return instruction (← fetchBody edition pairing.traced more)) := by
    refine abreast_body hfits fun hproper body hbits hspans => ⟨?_, hregular hproper body hbits⟩
    rw [← List.append_assoc]
    exact .block (by simp) (hsome _) (fun test => hwhile test _ _) hspans
  refine .operand 3 (by decide) fun kind code hcode => ?_
  refine .ite (fun _ => abreast_fetchTest.bind fun head test htest => ?_) fun _ => ?_
  · simp only [← List.append_assoc kind]
    exact hblock (fun _ => rfl) nofun fun h body hbits => ⟨htest h, hbits⟩
  refine .ite (fun _ => .operand 4 (by decide) fun head address haddress => ?_) fun _ => ?_
  · simp only [← List.append_assoc kind]
    exact .requiring (hblock (fun _ => rfl) nofun fun h body hbits => ⟨(haddress h).range, hbits⟩)
  refine .ite (fun _ => .operand 4 (by decide) fun head name hname => ?_) fun _ => ?_
  · simp only [← List.append_assoc kind]
    exact hblock (fun _ => rfl) nofun fun h body hbits => ⟨(hname h).range, hbits⟩
  refine .ite (fun _ => .operand 4 (by decide) fun head name hname => ?_) fun _ => ?_
  · exact .pure fun h => ⟨.undefine name _, (hname h).range⟩
  refine .ite (fun hcall => .operand 4 (by decide) fun head name hname => ?_) fun _ => ?_
  · refine .pure fun h => ⟨?_, trivial⟩
    rw [(hcode h).digits, hcall]
    exact .call name _
  refine .ite (fun _ => abreast_fetchBound.bind fun head counter hcounter => ?_) fun _ => ?_
  · simp only [← List.append_assoc kind]
    exact hblock (fun _ => rfl) nofun fun h body hbits => ⟨hcounter h, hbits⟩
  refine .ite (fun hwhile => abreast_fetchTest.bind fun head test htest => ?_) fun _ => ?_
  · refine abreast_body hfits fun h body hbits hspans => ⟨?_, htest h, hbits⟩
    rw [(hcode h).digits, hwhile]
    exact .whileTrue test head hspans
  refine .ite (fun hwrite => .operand 16 (by decide) fun _ size _ => ?_) fun _ => ?_
  · refine (abreast_fetchBytes _ _).bind fun _ bytes _ => .pure fun _ => ?_
    exact ⟨.basic _ trivial, hwrite.2⟩
  · exact .pure fun _ => ⟨.basic _ trivial, trivial⟩

theorem abreast_fetch {spare more : Nat} (hfits : Fits pairing.granted spare more) :
    pairing.Abreast (Found edition) (Missing ready) (fetch edition pairing.tracing ready spare)
      (fetch edition pairing.traced ready more) := by
  refine .reading 3 fun op hop => .noting _ ?_
  have hsize (h : pairing.proper) (bits : List Char) : 3 ≤ (op ++ bits).length := by
    rw [List.length_append, (hop h).2]
    exact Nat.le_add_right 3 _
  have hbasic {first second : Reading Instruction}
      (h : pairing.Abreast (fun _ instruction =>
        instruction.IsBasic ∧ instruction.Regular edition) (Missing ready) first second) :
      pairing.Abreast (fun bits => Found edition (op ++ bits)) (Missing ready) first second :=
    h.mono (fun bits _ hproper h => ⟨.basic _ h.1, h.2, hsize hproper bits⟩) fun _ _ _ h => h
  refine .ite (fun _ => .operand 3 (by decide) fun _ mode _ => ?_) fun _ => ?_
  · refine .operand 4 (by decide) fun _ address haddress => .pure fun h => ?_
    exact ⟨.basic _ trivial, (haddress h).range, hsize h _⟩
  refine .ite (fun hselect => .operand 3 (by decide) fun bits page hpage => ?_) fun _ => ?_
  · refine .pure fun h => ⟨?_, (hpage h).range, hsize h _⟩
    rw [hselect, List.append_nil, (hpage h).digits]
    exact .selectPage page
  refine .ite (fun _ => hbasic abreast_fetchArithmetic) fun _ => ?_
  refine .ite (fun _ => hbasic abreast_fetchDisplay) fun _ => ?_
  refine .ite (fun hblock => ?_) fun _ => ?_
  · refine (abreast_fetchBlock hfits).mono (fun bits _ hproper h => ?_) fun _ _ _ h => h
    refine ⟨?_, h.2, hsize hproper bits⟩
    rw [hblock]
    exact h.1
  refine .ite (fun hclose => .pure fun h => ⟨?_, trivial, hsize h []⟩) fun _ => ?_
  · rw [hclose]
    exact .close
  refine .ite (fun _ => hbasic abreast_fetchSystem) fun _ => ?_
  exact .pure fun h => ⟨.basic _ trivial, trivial, hsize h []⟩

end

end BitAssembly.Machine
