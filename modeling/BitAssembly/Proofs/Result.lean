/-!
# Results of actions

An action that may fail answers with a value or an error, and with the state
behind it.  Two actions in a row answer as the second one does, unless the
first one fails.  What is to hold of the results of one action is a triple, and
what is to hold between the results of two actions is a relation; each has one
rule for every way in which actions are put together.
-/

namespace BitAssembly

variable {ε σ τ α β : Type}

section

variable {first : EStateM ε σ α} {second : α → EStateM ε σ β} {before after : σ}

theorem bind_of_ok {a : α} {middle : σ} (h : first before = .ok a middle) :
    (first >>= second) before = second a middle := by
  change EStateM.bind first second before = _
  rw [EStateM.bind, h]

theorem bind_of_error {stop : ε} (h : first before = .error stop after) :
    (first >>= second) before = .error stop after := by
  change EStateM.bind first second before = _
  rw [EStateM.bind, h]

theorem bind_get {next : σ → EStateM ε σ β} : (get >>= next) before = next before before := rfl

theorem bind_modify {change : σ → σ} {next : Unit → EStateM ε σ β} :
    (modify change >>= next) before = next () (change before) := rfl

theorem bind_eq_ok {b : β} (h : (first >>= second) before = .ok b after) :
    ∃ a middle, first before = .ok a middle ∧ second a middle = .ok b after := by
  cases hfirst : first before with
  | ok a middle => exact ⟨a, middle, rfl, (bind_of_ok hfirst).symm.trans h⟩
  | error stop middle => cases (bind_of_error hfirst).symm.trans h

theorem bind_eq_error {stop : ε} (h : (first >>= second) before = .error stop after) :
    first before = .error stop after ∨
      ∃ a middle, first before = .ok a middle ∧ second a middle = .error stop after := by
  cases hfirst : first before with
  | ok a middle => exact .inr ⟨a, middle, rfl, (bind_of_ok hfirst).symm.trans h⟩
  | error reason middle =>
      cases (bind_of_error hfirst).symm.trans h
      exact .inl rfl

end

/-! ## One action -/

def Concludes (Post : α → σ → Prop) (Fail : ε → σ → Prop) : EStateM.Result ε σ α → Prop
  | .ok value after => Post value after
  | .error stop after => Fail stop after

def Triple (Pre : σ → Prop) (Post : α → σ → Prop) (Fail : ε → σ → Prop) (action : EStateM ε σ α) :
    Prop :=
  ∀ state, Pre state → Concludes Post Fail (action state)

section

variable {Pre : σ → Prop} {Mid : α → σ → Prop} {Post : β → σ → Prop} {Fail : ε → σ → Prop}

theorem Concludes.mono {Weaker : β → σ → Prop} {Worse : ε → σ → Prop}
    {result : EStateM.Result ε σ β} (h : Concludes Post Fail result)
    (hpost : ∀ value after, Post value after → Weaker value after)
    (hfail : ∀ stop after, Fail stop after → Worse stop after) : Concludes Weaker Worse result := by
  cases result with
  | ok value after => exact hpost value after h
  | error stop after => exact hfail stop after h

/-- The first action is known to have answered when the second one starts. -/
theorem Concludes.bind {first : EStateM ε σ α} {next : α → EStateM ε σ β} {state : σ}
    (h : Concludes Mid Fail (first state))
    (hnext : ∀ value after, first state = .ok value after → Mid value after →
      Concludes Post Fail (next value after)) : Concludes Post Fail ((first >>= next) state) := by
  cases hresult : first state with
  | ok value after =>
      rw [hresult] at h
      rw [bind_of_ok hresult]
      exact hnext value after hresult h
  | error stop after =>
      rw [hresult] at h
      rw [bind_of_error hresult]
      exact h

namespace Triple

theorem pure {Inv : σ → Prop} (value : β) :
    Triple Inv (fun _ => Inv) Fail (Pure.pure value : EStateM ε σ β) :=
  fun _ h => h

theorem throw {stop : ε} (h : ∀ state, Pre state → Fail stop state) :
    Triple Pre Post Fail (MonadExcept.throw stop) :=
  h

theorem bind {first : EStateM ε σ α} {next : α → EStateM ε σ β} (hfirst : Triple Pre Mid Fail first)
    (hnext : ∀ value, Triple (Mid value) Post Fail (next value)) :
    Triple Pre Post Fail (first >>= next) :=
  fun state h => (hfirst state h).bind fun value after _ => hnext value after

theorem get {next : σ → EStateM ε σ β} (h : ∀ state, Triple Pre Post Fail (next state)) :
    Triple Pre Post Fail (MonadState.get >>= next) :=
  fun state => h state state

theorem modify {Last : σ → Prop} {change : σ → σ} (h : ∀ state, Pre state → Last (change state)) :
    Triple Pre (fun _ => Last) Fail (modify change) :=
  h

theorem ite {condition : Prop} [Decidable condition] {first second : EStateM ε σ β}
    (hfirst : Triple Pre Post Fail first) (hsecond : Triple Pre Post Fail second) :
    Triple Pre Post Fail (if condition then first else second) := by
  split
  · exact hfirst
  · exact hsecond

theorem mono {Weaker : β → σ → Prop} {action : EStateM ε σ β} (h : Triple Pre Post Fail action)
    (hpost : ∀ value after, Post value after → Weaker value after) :
    Triple Pre Weaker Fail action :=
  fun state hstate => (h state hstate).mono hpost fun _ _ hfail => hfail

theorem of_ok {action : EStateM ε σ β} (h : Triple Pre Post Fail action) {state after : σ}
    {value : β} (hstate : Pre state) (hresult : action state = .ok value after) :
    Post value after := by
  have houtcome := h state hstate
  rwa [hresult] at houtcome

theorem of_error {action : EStateM ε σ β} (h : Triple Pre Post Fail action) {state after : σ}
    {stop : ε} (hstate : Pre state) (hresult : action state = .error stop after) :
    Fail stop after := by
  have houtcome := h state hstate
  rwa [hresult] at houtcome

end Triple

end

/-! ## Two actions -/

/-- Both actions end alike, or the first one stops for a reason that excuses the second. -/
inductive Related (After : α → σ → τ → Prop) (Failed : ε → ε → σ → τ → Prop) (Excused : ε → Prop) :
    EStateM.Result ε σ α → EStateM.Result ε τ α → Prop
  | ok {value first second} (h : After value first second) :
      Related After Failed Excused (.ok value first) (.ok value second)
  | error {stop reason first second} (h : Failed stop reason first second) :
      Related After Failed Excused (.error stop first) (.error reason second)
  | excused {stop first result} (h : Excused stop) :
      Related After Failed Excused (.error stop first) result

def Alike (Before : σ → τ → Prop) (After : α → σ → τ → Prop) (Failed : ε → ε → σ → τ → Prop)
    (Excused : ε → Prop) (first : EStateM ε σ α) (second : EStateM ε τ α) : Prop :=
  ∀ state other, Before state other → Related After Failed Excused (first state) (second other)

section

variable {Before : σ → τ → Prop} {Middle : α → σ → τ → Prop} {After : β → σ → τ → Prop}
variable {Failed : ε → ε → σ → τ → Prop} {Excused : ε → Prop}

theorem Related.bind {first : EStateM ε σ α} {second : EStateM ε τ α} {next : α → EStateM ε σ β}
    {later : α → EStateM ε τ β} {state : σ} {other : τ}
    (hfirst : Related Middle Failed Excused (first state) (second other))
    (hnext : ∀ value after another, first state = .ok value after → Middle value after another →
      Related After Failed Excused (next value after) (later value another)) :
    Related After Failed Excused ((first >>= next) state) ((second >>= later) other) := by
  change Related After Failed Excused (EStateM.bind first next state)
    (EStateM.bind second later other)
  rw [EStateM.bind, EStateM.bind]
  revert hfirst hnext
  generalize first state = result
  generalize second other = result'
  intro hfirst hnext
  cases hfirst with
  | ok h => exact hnext _ _ _ rfl h
  | error h => exact .error h
  | excused h => exact .excused h

section

variable {result : EStateM.Result ε σ β} {other : EStateM.Result ε τ β}

theorem Related.mono {Later : β → σ → τ → Prop} {Broken : ε → ε → σ → τ → Prop}
    {Lenient : ε → Prop} (h : Related After Failed Excused result other)
    (hafter : ∀ value state another, After value state another → Later value state another)
    (hfailed : ∀ stop reason state another, Failed stop reason state another →
      Broken stop reason state another)
    (hexcused : ∀ stop, Excused stop → Lenient stop) :
    Related Later Broken Lenient result other := by
  cases h with
  | ok h => exact .ok (hafter _ _ _ h)
  | error h => exact .error (hfailed _ _ _ _ h)
  | excused h => exact .excused (hexcused _ h)

theorem Related.concludes {Post : β → σ → Prop} {Fail : ε → σ → Prop}
    (h : Related After Failed (fun _ => False) result other)
    (hafter : ∀ value state another, After value state another → Post value state)
    (hfailed : ∀ stop reason state another, Failed stop reason state another → Fail stop state) :
    Concludes Post Fail result := by
  cases h with
  | ok h => exact hafter _ _ _ h
  | error h => exact hfailed _ _ _ _ h
  | excused h => exact h.elim

end

namespace Alike

theorem pure {Rel : σ → τ → Prop} (value : β) :
    Alike Rel (fun _ => Rel) Failed Excused (Pure.pure value) (Pure.pure value) := by
  intro state other h
  exact .ok h

theorem throw {stop reason : ε} (h : ∀ state other, Before state other →
      Failed stop reason state other) :
    Alike Before After Failed Excused (MonadExcept.throw stop) (MonadExcept.throw reason) := by
  intro state other hbefore
  exact .error (h state other hbefore)

theorem bind {first : EStateM ε σ α} {second : EStateM ε τ α} {next : α → EStateM ε σ β}
    {later : α → EStateM ε τ β} (hfirst : Alike Before Middle Failed Excused first second)
    (hnext : ∀ value, Alike (Middle value) After Failed Excused (next value) (later value)) :
    Alike Before After Failed Excused (first >>= next) (second >>= later) := by
  intro state other hbefore
  exact (hfirst state other hbefore).bind fun value after another _ => hnext value after another

theorem ite {condition : Prop} [Decidable condition] {first another : EStateM ε σ β}
    {second later : EStateM ε τ β} (hthen : Alike Before After Failed Excused first second)
    (helse : Alike Before After Failed Excused another later) :
    Alike Before After Failed Excused (if condition then first else another)
      (if condition then second else later) := by
  split
  · exact hthen
  · exact helse

end Alike

end

/-! ## Two actions that keep a relation -/

def Jointly (Rel : σ → τ → Prop) (Stops : ε → Prop) (stop reason : ε) (state : σ) (other : τ) :
    Prop :=
  reason = stop ∧ Rel state other ∧ Stops stop

def InAccord (Rel : σ → τ → Prop) (Stops Excused : ε → Prop) :
    EStateM.Result ε σ α → EStateM.Result ε τ α → Prop :=
  Related (fun _ => Rel) (Jointly Rel Stops) Excused

def Concur (Rel : σ → τ → Prop) (Stops Excused : ε → Prop) (first : EStateM ε σ α)
    (second : EStateM ε τ α) : Prop :=
  Alike Rel (fun _ => Rel) (Jointly Rel Stops) Excused first second

/-- Both states are one, and it has the property. -/
def Single (Inv : σ → Prop) (state other : σ) : Prop :=
  other = state ∧ Inv state

section

variable {Rel : σ → τ → Prop} {Stops Excused : ε → Prop}

theorem Concur.throw {stop : ε} (h : Stops stop) :
    Concur Rel Stops Excused (MonadExcept.throw stop : EStateM ε σ α) (MonadExcept.throw stop) :=
  Alike.throw fun _ _ hrel => ⟨rfl, hrel, h⟩

theorem Concur.refl (action : EStateM ε σ α) :
    Concur Eq (fun _ => True) Excused action action := by
  rintro state _ rfl
  generalize action state = result
  cases result with
  | ok value after => exact .ok rfl
  | error stop after => exact .error ⟨rfl, rfl, trivial⟩

variable {Inv : σ → Prop} {result other : EStateM.Result ε σ α} {first second : EStateM ε σ α}

theorem InAccord.concludes (h : InAccord (Single Inv) Stops (fun _ => False) result other) :
    Concludes (fun _ => Inv) (fun stop after => Inv after ∧ Stops stop) result :=
  Related.concludes h (fun _ _ _ hafter => hafter.2) fun _ _ _ _ hfailed =>
    ⟨hfailed.2.1.2, hfailed.2.2⟩

theorem Concludes.inAccord
    (h : Concludes (fun _ => Inv) (fun stop after => Inv after ∧ Stops stop) result) :
    InAccord (Single Inv) Stops Excused result result := by
  cases result with
  | ok value after => exact .ok ⟨rfl, h⟩
  | error stop after => exact .error ⟨rfl, ⟨rfl, h.1⟩, h.2⟩

theorem Concur.triple (h : Concur (Single Inv) Stops (fun _ => False) first second) :
    Triple Inv (fun _ => Inv) (fun stop after => Inv after ∧ Stops stop) first :=
  fun state hstate => InAccord.concludes (h state state ⟨rfl, hstate⟩)

theorem Triple.concur
    (h : Triple Inv (fun _ => Inv) (fun stop after => Inv after ∧ Stops stop) first) :
    Concur (Single Inv) Stops Excused first first := by
  rintro _ state ⟨rfl, hstate⟩
  exact (h state hstate).inAccord

theorem Concur.apply_eq (h : Concur (Single Inv) Stops (fun _ => False) first second) {state : σ}
    (hstate : Inv state) : second state = first state := by
  have hrelated := h state state ⟨rfl, hstate⟩
  revert hrelated
  generalize first state = result
  generalize second state = other
  intro hrelated
  cases hrelated with
  | ok h => rw [h.1]
  | error h => rw [h.1, h.2.1.1]
  | excused h => exact h.elim

end

end BitAssembly
