import ModuleCompiler.Proofs.Allocation

/-!
Operations on single components, and observers that act through them only. What such an observer
does is a script like any other: each operation is carried out by a few of its steps, and goes on
with the answer that the operation itself would give.
-/

namespace ModuleCompiler

/-- A question about components or a change of them. -/
inductive Operation where
  | create
  | destroy (id : Entity)
  | insert (k : Kind) (id : Entity) (v : k.Value)
  | getOrInsert (k : Kind) (id : Entity) (v : k.Value)
  | remove (k : Kind) (id : Entity)
  | update (k : Kind) (id : Entity) (f : k.Value → k.Value)
  | updateIfHeld (k : Kind) (id : Entity) (f : k.Value → k.Value)
  | get (k : Kind) (id : Entity)
  | getIfHeld (k : Kind) (id : Entity)
  | has (k : Kind) (id : Entity)
  | count (k : Kind)

/-- What an operation answers. A change answers the value it found, an insertion the one it left. -/
@[reducible] def Operation.Answer : Operation → Type
  | .create => Entity
  | .destroy _ => Unit
  | .insert k _ _ => k.Value
  | .getOrInsert k _ _ => k.Value
  | .remove k _ => Option k.Value
  | .update k _ _ => k.Value
  | .updateIfHeld k _ _ => Option k.Value
  | .get k _ => k.Value
  | .getIfHeld k _ => Option k.Value
  | .has _ _ => Bool
  | .count _ => Nat

/-- What an observer does when it acts through operations only. -/
inductive Procedure where
  | done
  | fail (fault : Fault)
  | call (op : Operation) (next : op.Answer → Procedure)
  | observe (k : Kind) (observer : Entity → Procedure) (next : Procedure)

namespace Operation

/-- An operation, with the way in which observers are told of insertions. -/
def runTelling (tell : Kind → Entity → Ast.Action Unit) : (op : Operation) → Ast.Action op.Answer
  | .create => Ast.create
  | .destroy id => Ast.edit (.destroy id)
  | .insert k id v => Ast.insertTelling tell k id v
  | .getOrInsert k id v => Ast.getOrInsertTelling tell k id v
  | .remove k id => .ofStore (Store.remove k id)
  | .update k id f => .ofStore (Store.update k id f)
  | .updateIfHeld k id f => .ofStore (Store.update? k id f)
  | .get k id => .ofRead (·.require k id)
  | .getIfHeld k id => .ofRead (·.get? k id)
  | .has k id => .ofRead (·.has k id)
  | .count k => .ofRead fun s => .ok (s.count k)

/-- An operation whose observers are given a number of levels. With `Ast.observerLevels` of them
`insert` is `Ast.insert` and `getOrInsert` is `Ast.getOrInsert`. -/
def run (levels : Nat) (op : Operation) : Ast.Action op.Answer := op.runTelling (Ast.tell levels)

/-- The steps of a script that carry out an operation and go on with its answer. -/
def script : (op : Operation) → (op.Answer → Script) → Script
  | .create, next => .create next
  | .destroy id, next => .edit (.destroy id) (next ())
  | .insert k id v, next => .insert k id v (.reading (·.require k id) next)
  | .getOrInsert k id v, next =>
    .reading (·.has k id) fun held =>
      let rest := .read fun s =>
        .edit (.update k id fun w => w) (.reading (fun _ => s.require k id) next)
      if held then rest else .insert k id v rest
  | .remove k id, next => .read fun s => .edit (.remove k id) (next (s.component? k id))
  | .update k id f, next =>
    .read fun s => .edit (.update k id f) (.reading (fun _ => s.require k id) next)
  | .updateIfHeld k id f, next =>
    .reading (fun s => do Store.checkKind k; s.get? k id) fun held =>
      match held with
      | some v => .edit (.update k id f) (next (some v))
      | none => next none
  | .get k id, next => .reading (·.require k id) next
  | .getIfHeld k id, next => .reading (·.get? k id) next
  | .has k id, next => .reading (·.has k id) next
  | .count k, next => .reading (fun s => .ok (s.count k)) next

end Operation

def Procedure.script : Procedure → Script
  | .done => .done
  | .fail fault => .fail fault
  | .call op next => op.script fun a => (next a).script
  | .observe k observer next => .observe k (fun id => (observer id).script) next.script

namespace Store

variable {s : Store} {k : Kind} {id : Entity}

theorem remove_of_link (h : k.isLink = true) : remove k id s = .error (.linkKind k) s := by
  simp only [remove, checkKind_of_link h]

theorem remove_of_not_link (h : k.isLink = false) : remove k id s = detach k id s := by
  simp only [remove, checkKind_of_not_link h]

section Update

variable {f : k.Value → k.Value}

theorem update?_of_link (h : k.isLink = true) : update? k id f s = .error (.linkKind k) s := by
  simp only [update?, checkKind_of_link h]

theorem update?_of_not_isValid (h : k.isLink = false) (hid : ¬ s.isValid id) :
    update? k id f s = .error (.stale id) s := by
  simp only [update?, checkKind_of_not_link h, checkValid_of_not_isValid hid]

theorem update?_of_held (h : k.isLink = false) (hid : s.isValid id) {v : k.Value}
    (hv : s.component? k id = some v) :
    update? k id f s = .ok (some v) (s.withComponent k id (f v)) := by
  simp only [update?, checkKind_of_not_link h, checkValid_of_isValid hid, hv]

theorem update?_of_lacking (h : k.isLink = false) (hid : s.isValid id)
    (hv : s.component? k id = none) : update? k id f s = .ok none s := by
  simp only [update?, checkKind_of_not_link h, checkValid_of_isValid hid, hv]

theorem update_of_held (h : k.isLink = false) (hid : s.isValid id) {v : k.Value}
    (hv : s.component? k id = some v) :
    update k id f s = .ok v (s.withComponent k id (f v)) :=
  bind_run_ok (update?_of_held h hid hv)

theorem update_of_lacking (h : k.isLink = false) (hid : s.isValid id)
    (hv : s.component? k id = none) : update k id f s = .error (.lacks id k) s :=
  bind_run_ok (update?_of_lacking h hid hv)

end Update

/-- A change answers the component that was there. -/
theorem require_of_update {f : k.Value → k.Value} {v : k.Value} {t : Store}
    (h : update k id f s = .ok v t) : s.require k id = .ok v := by
  by_cases hk : k.isLink = true
  · have hrun : update k id f s = _ := bind_run_error (update?_of_link hk)
    rw [hrun] at h
    cases h
  · have hk : k.isLink = false := by simpa using hk
    by_cases hid : s.isValid id
    · cases hv : s.component? k id with
      | none =>
        rw [update_of_lacking hk hid hv] at h
        cases h
      | some w =>
        rw [update_of_held hk hid hv] at h
        rw [require_of_held hid hv, (EStateM.Result.ok.inj h).1]
    · have hrun : update k id f s = _ := bind_run_error (update?_of_not_isValid hk hid)
      rw [hrun] at h
      cases h

theorem component?_of_remove {v : Option k.Value} {t : Store} (h : remove k id s = .ok v t) :
    s.component? k id = v := by
  by_cases hk : k.isLink = true
  · rw [remove_of_link hk] at h
    cases h
  · rw [remove_of_not_link (by simpa using hk)] at h
    by_cases hid : s.isValid id
    · rw [detach_run hid] at h
      exact (EStateM.Result.ok.inj h).1
    · rw [detach_run_stale hid] at h
      cases h

end Store

namespace Ast

variable {ast : Ast} {k : Kind} {id : Entity}

theorem tell_zero : tell 0 k id ast =
    if (ast.observersOf k).isEmpty then .ok () ast else .error .observersTooDeep ast := by
  show (if (ast.observersOf k).isEmpty then pure () else throw .observersTooDeep : Action Unit)
    ast = _
  split <;> rfl

theorem tell_of_unobserved (h : ast.observersOf k = []) (levels : Nat) :
    tell levels k id ast = .ok () ast := by
  cases levels with
  | zero =>
    rw [tell_zero, h]
    rfl
  | succ levels =>
    show ((ast.observersOf k).forM _ : Action Unit) ast = _
    rw [h]
    rfl

/-- A run is given levels for at least one observer. -/
theorem exists_observerLevels : ∃ levels, observerLevels = levels + 1 := ⟨_, rfl⟩

/-- Without observers putting a component on is all that happens. -/
theorem insertTelling_of_unobserved (levels : Nat) (hs : ast.store.Sound) (hk : k.isLink = false)
    (h : ast.observersOf k = []) (hid : ast.store.isValid id) (v : k.Value) :
    insertTelling (tell levels) k id v ast =
      .ok v { ast with store := ast.store.withComponent k id v } := by
  let after : Ast := { ast with store := ast.store.withComponent k id v }
  have hput : Action.ofStore (Store.attach k id v) ast = .ok () after :=
    Action.ofStore_ok (Store.attach_run v hid)
  have hobs : after.observersOf k = [] := h
  have hvalid : after.store.isValid id := hid
  have hread : after.store.get? k id = .ok (some v) := by
    rw [Store.get?_of_isValid hvalid, hs.component?_withComponent hid, Function.update_self]
  unfold insertTelling
  rw [bind_run_ok (Action.ofRead_ok (Store.checkKind_of_not_link hk)), bind_run_ok hput,
    bind_run_ok (tell_of_unobserved hobs _), bind_run_ok (Action.ofRead_ok hread)]
  rfl

end Ast

theorem perform_reading {α : Type} (tell : Kind → Entity → Ast.Action Unit)
    (f : Store → Except Fault α) (next : α → Script) :
    Ast.perform tell (.reading f next) =
      Ast.Action.ofRead f >>= fun a => Ast.perform tell (next a) := by
  funext ast
  rw [Script.reading, Ast.perform, get_bind_run, bind_run, Ast.Action.ofRead_run]
  cases f ast.store <;> rfl

namespace Operation

/-- An insertion answers the component that can be read afterwards. -/
theorem require_of_insertTelling {tell : Kind → Entity → Ast.Action Unit} {k : Kind} {id : Entity}
    {v left : k.Value} {ast after : Ast}
    (h : Ast.insertTelling tell k id v ast = .ok left after) :
    after.store.require k id = .ok left := by
  obtain ⟨_, _, _, h⟩ := bind_eq_ok h
  obtain ⟨_, _, _, h⟩ := bind_eq_ok h
  obtain ⟨_, told, _, h⟩ := bind_eq_ok h
  obtain ⟨found, read, hread, h⟩ := bind_eq_ok h
  rw [Ast.Action.ofRead_run] at hread
  cases hget : told.store.get? k id with
  | error e =>
    rw [hget] at hread
    cases hread
  | ok w =>
    rw [hget] at hread
    obtain ⟨rfl, rfl⟩ := EStateM.Result.ok.inj hread
    cases w with
    | none => cases h
    | some w =>
      obtain ⟨rfl, rfl⟩ := EStateM.Result.ok.inj h
      simp [Store.require, hget, bind, Except.bind, pure, Except.pure]

/-- The answer of a change can be read before it is made. -/
theorem perform_update (tell : Kind → Entity → Ast.Action Unit) {k : Kind} {id : Entity}
    {f : k.Value → k.Value} (next : k.Value → Script) :
    Ast.perform tell (.read fun s =>
        .edit (.update k id f) (.reading (fun _ => s.require k id) next)) =
      Ast.Action.ofStore (Store.update k id f) >>= fun a => Ast.perform tell (next a) := by
  funext ast
  show (Ast.Action.ofStore (discard (Store.update k id f)) >>= fun _ =>
    Ast.perform tell (.reading (fun _ => ast.store.require k id) next)) ast = _
  rw [Ast.Action.ofStore_discard]
  refine discard_bind_congr fun v after hrun => ?_
  rw [perform_reading, bind_run, Ast.Action.ofRead_run,
    Store.require_of_update (Ast.Action.ofStore_eq_ok hrun)]

theorem perform_script (tell : Kind → Entity → Ast.Action Unit) (op : Operation)
    (next : op.Answer → Script) :
    Ast.perform tell (op.script next) =
      op.runTelling tell >>= fun a => Ast.perform tell (next a) := by
  cases op with
  | create => rfl
  | destroy id => rfl
  | insert k id v =>
    funext ast
    refine discard_bind_congr fun left after hrun => ?_
    rw [perform_reading, bind_run, Ast.Action.ofRead_run, require_of_insertTelling hrun]
  | getOrInsert k id v =>
    funext ast
    let update : Ast.Action k.Value := Ast.Action.ofStore (Store.update k id fun w => w)
    have hrest : ∀ t, Ast.perform tell ((Operation.update k id fun w => w).script next) t =
        (update >>= fun a => Ast.perform tell (next a)) t := congrFun (perform_update tell next)
    show Ast.perform tell (.reading _ _) ast =
      (((Ast.Action.ofRead fun s => s.has k id) >>= fun held => _) >>= _) ast
    rw [perform_reading, bind_run, bind_run, bind_run]
    cases (Ast.Action.ofRead fun s => s.has k id) ast with
    | error e t => rfl
    | ok held t =>
      cases held with
      | true => exact hrest t
      | false =>
        show (discard (Ast.insertTelling tell k id v) >>= fun _ =>
            Ast.perform tell ((Operation.update k id fun w => w).script next)) t =
          ((discard (Ast.insertTelling tell k id v) >>= fun _ => update) >>= _) t
        rw [bind_run, bind_run, bind_run]
        cases (discard (Ast.insertTelling tell k id v) : Ast.Action Unit) t with
        | error e u => rfl
        | ok _ u => exact hrest u
  | remove k id =>
    funext ast
    show (Ast.Action.ofStore (discard (Store.remove k id)) >>= fun _ =>
      Ast.perform tell (next (ast.store.component? k id))) ast = _
    rw [Ast.Action.ofStore_discard]
    refine discard_bind_congr fun found after hrun => ?_
    rw [Store.component?_of_remove (Ast.Action.ofStore_eq_ok hrun)]
  | update k id f => exact perform_update tell next
  | updateIfHeld k id f =>
    funext ast
    show Ast.perform tell (.reading _ _) ast = (Ast.Action.ofStore (Store.update? k id f) >>= _) ast
    rw [perform_reading]
    by_cases hk : k.isLink = true
    · have hread : (do Store.checkKind k; ast.store.get? k id) = .error (.linkKind k) := by
        rw [Store.checkKind_of_link hk]
        rfl
      rw [bind_run_error (Ast.Action.ofRead_error hread),
        bind_run_error (Ast.Action.ofStore_error (Store.update?_of_link hk))]
    · have hk : k.isLink = false := by simpa using hk
      have hread : (do Store.checkKind k; ast.store.get? k id) = ast.store.get? k id := by
        rw [Store.checkKind_of_not_link hk]
        rfl
      by_cases hid : ast.store.isValid id
      · rw [bind_run_ok (Ast.Action.ofRead_ok (hread.trans (Store.get?_of_isValid hid)))]
        cases hv : ast.store.component? k id with
        | none =>
          rw [bind_run_ok (Ast.Action.ofStore_ok (Store.update?_of_lacking hk hid hv))]
        | some v =>
          rw [bind_run_ok (Ast.Action.ofStore_ok (Store.update?_of_held hk hid hv))]
          have hedit : (Edit.update k id f).run ast.store = _ :=
            discard_run_ok (Store.update_of_held hk hid hv)
          exact bind_run_ok (Ast.Action.ofStore_ok hedit)
      · rw [bind_run_error (Ast.Action.ofRead_error (hread.trans (Store.get?_of_not_isValid hid))),
          bind_run_error (Ast.Action.ofStore_error (Store.update?_of_not_isValid hk hid))]
  | get k id => exact perform_reading ..
  | getIfHeld k id => exact perform_reading ..
  | has k id => exact perform_reading ..
  | count k => exact perform_reading tell (fun s => .ok (s.count k)) next

end Operation

end ModuleCompiler
