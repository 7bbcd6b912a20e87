/-!
Requests that may be refused part way, whatever they change. What a refused request had changed
stays changed, so a property of the state is kept only if it holds at every point at which a
request may stop.
-/

namespace ModuleCompiler

/-- A request carried out keeps `P`, and one refused part way leaves a state with `E`. -/
def Keeps {ε σ α : Type} (P E : σ → Prop) (action : EStateM ε σ α) : Prop :=
  ∀ s, P s →
    match action s with
    | .ok _ t => P t
    | .error _ t => E t

/-- The state a request leaves, carried out or refused. -/
def left {ε σ α : Type} : EStateM.Result ε σ α → σ
  | .ok _ s => s
  | .error _ s => s

/-- What a request answers, a value or the reason for which it is refused. -/
def reply {ε σ α : Type} : EStateM.Result ε σ α → Except ε α
  | .ok a _ => .ok a
  | .error e _ => .error e

section Run

variable {ε σ α β : Type}

theorem bind_run (action : EStateM ε σ α) (next : α → EStateM ε σ β) (s : σ) :
    (action >>= next) s =
      match action s with
      | .ok a t => next a t
      | .error e t => .error e t := rfl

theorem discard_run (action : EStateM ε σ α) (s : σ) :
    Functor.discard action s =
      match action s with
      | .ok _ t => .ok () t
      | .error e t => .error e t := rfl

theorem discard_run_ok {action : EStateM ε σ α} {s t : σ} {a : α} (h : action s = .ok a t) :
    Functor.discard action s = .ok () t := by
  rw [discard_run, h]

/-- A first part that was carried out leaves the rest to be done. -/
theorem bind_run_ok {action : EStateM ε σ α} {next : α → EStateM ε σ β} {s t : σ} {a : α}
    (h : action s = .ok a t) : (action >>= next) s = next a t := by
  rw [bind_run, h]

theorem bind_run_error {action : EStateM ε σ α} {next : α → EStateM ε σ β} {s t : σ} {e : ε}
    (h : action s = .error e t) : (action >>= next) s = .error e t := by
  rw [bind_run, h]

theorem bind_eq_ok {action : EStateM ε σ α} {next : α → EStateM ε σ β} {s u : σ} {b : β}
    (h : (action >>= next) s = .ok b u) : ∃ a t, action s = .ok a t ∧ next a t = .ok b u := by
  cases hrun : action s with
  | ok a t => exact ⟨a, t, rfl, (bind_run_ok hrun).symm.trans h⟩
  | error e t =>
    rw [bind_run_error hrun] at h
    cases h

theorem discard_eq_ok {action : EStateM ε σ α} {s t : σ} {u : Unit}
    (h : Functor.discard action s = .ok u t) : ∃ a, action s = .ok a t := by
  rw [discard_run] at h
  cases hrun : action s with
  | ok a after =>
    rw [hrun] at h
    obtain ⟨-, rfl⟩ := EStateM.Result.ok.inj h
    exact ⟨a, rfl⟩
  | error e after =>
    rw [hrun] at h
    cases h

/-- An answer may be dropped where the rest does without it. -/
theorem discard_bind_congr {action : EStateM ε σ α} {rest : α → EStateM ε σ β}
    {after : EStateM ε σ β} {s : σ} (h : ∀ a t, action s = .ok a t → after t = rest a t) :
    (Functor.discard action >>= fun _ => after) s = (action >>= rest) s := by
  rw [bind_run, bind_run, discard_run]
  cases hrun : action s with
  | ok a t => exact h a t hrun
  | error e t => rfl

theorem except_bind_eq_ok {outcome : Except ε α} {next : α → Except ε β} {b : β}
    (h : outcome >>= next = .ok b) : ∃ a, outcome = .ok a ∧ next a = .ok b := by
  cases outcome with
  | ok a => exact ⟨a, rfl, h⟩
  | error e => cases h

/-- A request that answers was carried out. -/
theorem eq_ok_left {r : EStateM.Result ε σ Unit} (h : (reply r).isOk = true) :
    r = .ok () (left r) := by
  cases r with
  | ok a s => rfl
  | error e s => cases h

/-- The rest of a list is gone through from where the first part has led. -/
theorem forM_append_run {first rest : List α} {action : α → EStateM ε σ PUnit} {s t : σ}
    {u : PUnit} (h : first.forM action s = .ok u t) :
    (first ++ rest).forM action s = rest.forM action t := by
  induction first generalizing s with
  | nil =>
    obtain ⟨-, rfl⟩ := EStateM.Result.ok.inj h
    rfl
  | cons a more ih =>
    obtain ⟨_, next, hfirst, hmore⟩ := bind_eq_ok h
    exact (bind_run_ok hfirst).trans (ih hmore)

/-- The state that is read is the one the rest starts from. -/
theorem get_bind_run (next : σ → EStateM ε σ β) (s : σ) : (get >>= next) s = next s s := rfl

end Run

/-- From the state `s` a request is carried out, with an answer and a state as `Q` says. -/
def Ends {ε σ α : Type} (action : EStateM ε σ α) (s : σ) (Q : α → σ → Prop) : Prop :=
  ∃ a t, action s = .ok a t ∧ Q a t

namespace Ends

variable {ε σ α β : Type} {s : σ} {Q : α → σ → Prop}

theorem pure {a : α} (h : Q a s) : Ends (Pure.pure a : EStateM ε σ α) s Q := ⟨a, s, rfl, h⟩

theorem mono {action : EStateM ε σ α} {R : α → σ → Prop} (h : Ends action s Q)
    (hQ : ∀ a t, Q a t → R a t) : Ends action s R := by
  obtain ⟨a, t, hrun, ht⟩ := h
  exact ⟨a, t, hrun, hQ a t ht⟩

theorem bind {action : EStateM ε σ α} {next : α → EStateM ε σ β} {R : β → σ → Prop}
    (h : Ends action s Q) (hnext : ∀ a t, Q a t → Ends (next a) t R) :
    Ends (action >>= next) s R := by
  obtain ⟨a, t, hrun, ht⟩ := h
  obtain ⟨b, u, hrest, hu⟩ := hnext a t ht
  exact ⟨b, u, (bind_run_ok hrun).trans hrest, hu⟩

theorem get_bind {next : σ → EStateM ε σ β} {R : β → σ → Prop} (h : Ends (next s) s R) :
    Ends (MonadState.get >>= next) s R := h

theorem discard {action : EStateM ε σ α} {R : σ → Prop} (h : Ends action s fun _ => R) :
    Ends (Functor.discard action) s fun _ => R := by
  obtain ⟨a, t, hrun, ht⟩ := h
  exact ⟨(), t, discard_run_ok hrun, ht⟩

/-- What every round keeps holds after the last. -/
theorem forM {items : List α} {action : α → EStateM ε σ PUnit} {I : σ → Prop} (hs : I s)
    (h : ∀ a ∈ items, ∀ t, I t → Ends (action a) t fun _ => I) :
    Ends (items.forM action) s fun _ => I := by
  induction items generalizing s with
  | nil => exact pure hs
  | cons a rest ih =>
    have hfirst := h a (by simp) s hs
    exact hfirst.bind fun _ t ht => ih ht fun b hb => h b (by simp [hb])

end Ends

namespace Keeps

variable {ε σ α β : Type} {P E : σ → Prop}

theorem ok {action : EStateM ε σ α} (h : Keeps P E action) {s t : σ} {a : α} (hs : P s)
    (hrun : action s = .ok a t) : P t := by
  have := h s hs
  rw [hrun] at this
  exact this

theorem error {action : EStateM ε σ α} (h : Keeps P E action) {s t : σ} {e : ε} (hs : P s)
    (hrun : action s = .error e t) : E t := by
  have := h s hs
  rw [hrun] at this
  exact this

/-- Where nothing depends on the outcome, only the state that is left counts. -/
theorem of_left {action : EStateM ε σ α} (h : ∀ s, P s → P (ModuleCompiler.left (action s))) :
    Keeps P P action := by
  intro s hs
  have hleft := h s hs
  cases hrun : action s with
  | ok a t =>
    rw [hrun] at hleft
    exact hleft
  | error e t =>
    rw [hrun] at hleft
    exact hleft

theorem trivial (action : EStateM ε σ α) : Keeps (fun _ => True) (fun _ => True) action :=
  of_left fun _ _ => True.intro

theorem left {action : EStateM ε σ α} (h : Keeps P P action) {s : σ} (hs : P s) :
    P (ModuleCompiler.left (action s)) := by
  have hkept := h s hs
  cases hrun : action s with
  | ok a t =>
    rw [hrun] at hkept
    exact hkept
  | error e t =>
    rw [hrun] at hkept
    exact hkept

theorem pure (a : α) : Keeps P E (Pure.pure a : EStateM ε σ α) := fun _ hs => hs

theorem throw (hE : ∀ s, P s → E s) (e : ε) : Keeps P E (throw e : EStateM ε σ α) := hE

theorem bind {action : EStateM ε σ α} {next : α → EStateM ε σ β} (h : Keeps P E action)
    (hnext : ∀ a, Keeps P E (next a)) : Keeps P E (action >>= next) := by
  intro s hs
  rw [bind_run]
  cases hrun : action s with
  | ok a t => exact hnext a t (h.ok hs hrun)
  | error e t => exact h.error hs hrun

theorem get_bind {next : σ → EStateM ε σ β} (h : ∀ s, Keeps P E (next s)) :
    Keeps P E (MonadState.get >>= next) := fun s hs => h s s hs

/-- The state that is read has the property too. -/
theorem get_bind_of {next : σ → EStateM ε σ β} (h : ∀ s, P s → Keeps P E (next s)) :
    Keeps P E (MonadState.get >>= next) := fun s hs => h s hs s hs

theorem discard {action : EStateM ε σ α} (h : Keeps P E action) :
    Keeps P E (Functor.discard action) := by
  intro s hs
  rw [discard_run]
  cases hrun : action s with
  | ok a t => exact h.ok hs hrun
  | error e t => exact h.error hs hrun

theorem forM {items : List α} {action : α → EStateM ε σ PUnit}
    (h : ∀ a ∈ items, Keeps P E (action a)) : Keeps P E (items.forM action) := by
  induction items with
  | nil => exact pure _
  | cons a rest ih =>
    have hrest : Keeps P E (rest.forM action) := ih fun b hb => h b (by simp [hb])
    exact (h a (by simp)).bind fun _ => hrest

end Keeps

end ModuleCompiler
