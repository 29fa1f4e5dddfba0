import BitAssembly.Proofs.Machine.Invariant

/-!
# The moments of a run

A run comes from instruction to instruction, in its own text and in the bodies
that blocks and calls make it run.  A moment of it is the session in which the
next instruction is fetched.  Every moment of a run on bits is sound, and the
instruction that is fetched there has operands of its width.
-/

namespace BitAssembly.Machine

open BitAssembly.Bits
open BitAssembly.Text

structure Moment where
  session : Session
  tracing : Bool
  /-- Levels of nesting that are left, that of the text at hand included. -/
  levels : Nat

def Moment.call (edition : Edition) (passes : Nat) (moment : Moment) : Body → Run Unit :=
  callBody edition ⟨moment.levels - 1, passes⟩

/-- The run goes on at this moment with an instruction, and performs it in this session. -/
structure Moment.Performs (edition : Edition) (passes : Nat) (moment : Moment)
    (instruction : Instruction) (fetched : Session) : Prop where
  level : 0 < moment.levels
  more : ¬ moment.session.cursor.atEnd
  fetch : fetchNext edition moment.tracing passes moment.session = .ok instruction fetched
  proper : instruction ≠ .close

def Moment.within (moment : Moment) (inner : Session) (body : Body) : Moment :=
  ⟨{ inner with cursor := .ofChars body, traced := false }, false, moment.levels - 1⟩

/-- The next moment in the same text, or the first one in a body. -/
inductive Moment.Goes (edition : Edition) (passes : Nat) (moment : Moment) : Moment → Prop
  | next {instruction : Instruction} {fetched after : Session}
      (h : moment.Performs edition passes instruction fetched)
      (hperform : perform passes (moment.call edition passes) instruction fetched =
        .ok () after) :
      Goes edition passes moment { moment with session := after }
  | inside {instruction : Instruction} {fetched inner : Session} {body : Body}
      (h : moment.Performs edition passes instruction fetched)
      (hbody : Enters passes (moment.call edition passes) instruction fetched body inner) :
      Goes edition passes moment (moment.within inner body)

def Moment.Comes (edition : Edition) (passes : Nat) : Moment → Moment → Prop :=
  Relation.ReflTransGen (Goes edition passes)

/-! ## Soundness -/

variable {edition : Edition} {passes : Nat} {instruction : Instruction} {fetched : Session}

theorem safe_callBody (limits : Limits) {body : Body} (hbody : AllBits body.toList) :
    Safe (callBody edition limits body) :=
  matches_onCursor (safe_executeAt limits.passes limits.depth false)
    ⟨hbody, Int.le_refl 0, Int.natCast_nonneg _⟩

theorem Moment.Performs.sound {moment : Moment}
    (h : moment.Performs edition passes instruction fetched) (hsound : moment.session.Sound) :
    fetched.Sound ∧ instruction.Regular edition := by
  have hfetch := @fetchNext_sound edition _ moment.tracing passes hsound
  rw [h.fetch] at hfetch
  exact ⟨hfetch.1.1, hfetch.2⟩

theorem Enters.sound {moment : Moment} {session inner : Session} {body : Body}
    (h : Enters passes (moment.call edition passes) instruction session body inner)
    (hsession : session.Sound) (hregular : instruction.Regular edition) :
    inner.Sound ∧ AllBits body.toList := by
  have hbits := h.allBits hsession hregular
  refine ⟨h.invariant indistinct_sound (fun hresult hbefore => ?_) hsession, hbits⟩
  exact (safe_callBody _ hbits).eq_ok hbefore hresult

theorem Moment.within_sound {moment : Moment} {inner : Session} {body : Body}
    (hinner : inner.Sound) (hbody : AllBits body.toList) :
    (moment.within inner body).session.Sound :=
  ⟨hinner.memory, hinner.bodies, hbody, Int.le_refl 0, Int.natCast_nonneg _⟩

theorem Moment.Goes.sound {moment other : Moment} (h : moment.Goes edition passes other)
    (hsound : moment.session.Sound) : other.session.Sound := by
  cases h with
  | next h hperform =>
      obtain ⟨hfetched, hregular⟩ := h.sound hsound
      exact Safe.eq_ok (matches_perform (fun _ hbody => safe_callBody _ hbody) passes hregular)
        hfetched hperform
  | inside h hbody =>
      obtain ⟨hfetched, hregular⟩ := h.sound hsound
      obtain ⟨hinner, hbits⟩ := hbody.sound hfetched hregular
      exact within_sound hinner hbits

theorem Moment.Comes.sound {moment other : Moment} (h : moment.Comes edition passes other)
    (hsound : moment.session.Sound) : other.session.Sound := by
  induction h with
  | refl => exact hsound
  | tail _ hgoes ih => exact hgoes.sound ih

end BitAssembly.Machine
